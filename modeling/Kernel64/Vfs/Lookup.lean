import Kernel64.Vfs.Entries
import Mathlib.Data.Set.Finite.Lattice

/-!
# Looking a name up

`FsOk` is the invariant between the steps of a call: all live entries are counted. The references that
are held decide which entries are live (`FsOk.live_iff`), and so, while the entries above them stay as
they are (`Kept`), nothing else does (`FsOk.same`).
-/

namespace Kernel64

namespace Vfs

/-- **The invariant of the file systems**, with the references that are held. -/
def FsOk (C E : Prop) (D : Eid → Prop) (s : Fs) (H : Multiset Eid) : Prop :=
  VfsOk C E D s s.live H 0

/-- An entry that is held, or above one. -/
inductive Supported (s : Fs) (H : Multiset Eid) : Eid → Prop
  | root : Supported s H rootEntry
  | held {e : Eid} : e ∈ H → Supported s H e
  | parent {e : Eid} : Supported s H e → Supported s H (s.entry e).parent

/-- The entries that are held, and those above, are as they were. -/
def Kept (H : Multiset Eid) (s s' : Fs) : Prop :=
  ∀ y, Supported s H y → Alike (s.entry y) (s'.entry y)

/-- The entries above those that are held are as they were. -/
def KeptUp (H : Multiset Eid) (s s' : Fs) : Prop :=
  ∀ y, Supported s H y → (s'.entry y).parent = (s.entry y).parent

section

variable {C E : Prop} {D : Eid → Prop} {s s' s'' : Fs} {A A' : Eid → Bool} {H H' : Multiset Eid}
  {N : Multiset Nid} {e d : Eid} {n m : Nid} {x : Name} {k : ℤ} {F : Fault → Prop}

theorem Supported.mono (h : Supported s H e) (hle : H ⊆ H') : Supported s H' e := by
  induction h with
  | root => exact .root
  | held he => exact .held (hle he)
  | parent _ ih => exact .parent ih

theorem Supported.kept (h : Supported s H e) (hk : KeptUp H s s') : Supported s' H e := by
  induction h with
  | root => exact .root
  | held he => exact .held he
  | parent hy ih =>
    rw [← hk _ hy]
    exact .parent ih

theorem Supported.of_kept (h : Supported s' H e) (hk : KeptUp H s s') : Supported s H e := by
  induction h with
  | root => exact .root
  | held he => exact .held he
  | parent hy ih =>
    rw [hk _ ih]
    exact .parent ih

theorem Kept.up (h : Kept H s s') : KeptUp H s s' := fun y hy => (h y hy).parent

theorem Kept.refl (H : Multiset Eid) (s : Fs) : Kept H s s := fun _ _ => Alike.refl _

theorem Kept.trans (h : Kept H s s') (h' : Kept H s' s'') : Kept H s s'' :=
  fun y hy => (h y hy).trans (h' y (hy.kept h.up))

theorem Kept.mono (h : Kept H s s') (hle : H' ⊆ H) : Kept H' s s' := fun y hy => h y (hy.mono hle)

theorem KeptUp.trans (h : KeptUp H s s') (h' : KeptUp H s' s'') : KeptUp H s s'' :=
  fun y hy => (h' y (hy.kept h)).trans (h y hy)

theorem KeptUp.mono (h : KeptUp H s s') (hle : H' ⊆ H) : KeptUp H' s s' :=
  fun y hy => h y (hy.mono hle)

/-! ### Which entries are live -/

theorem EntriesOk.mem_of_supported (h : EntriesOk D s A H) (he : Supported s H e) : A e = true := by
  induction he with
  | root => exact h.root_mem
  | held he => exact h.held _ he
  | parent _ ih => exact h.closed _ ih

/-- An entry with a reference that is not held has an entry below it. -/
theorem EntriesOk.supported (h : EntriesOk D s A H) (he : A e = true) : Supported s H e := by
  obtain ⟨b, hb⟩ : ∃ b, ∀ y, A y = true → (s.entry y).depth ≤ b := by
    obtain ⟨b, hb⟩ := (h.finite.image fun y => (s.entry y).depth).bddAbove
    exact ⟨b, fun y hy => hb ⟨y, hy, rfl⟩⟩
  -- down the entries, whose depth is bounded
  suffices hind : ∀ k y, A y = true → b - (s.entry y).depth = k → Supported s H y from
    hind _ e he rfl
  intro k
  induction k using Nat.strong_induction_on with
  | _ k ih =>
  intro y hy hk
  have hpos := h.pos y hy
  rw [h.counted y hy] at hpos
  by_cases hroot : y = rootEntry
  · exact hroot ▸ .root
  by_cases hheld : y ∈ H
  · exact .held hheld
  · rw [if_neg hroot, Multiset.count_eq_zero.2 hheld] at hpos
    have hrefs : 0 < refs (up s A) y := by omega
    obtain ⟨c, hc⟩ := (refs_pos_iff h.sparse).1 hrefs
    rw [up] at hc
    split_ifs at hc with hcond
    obtain ⟨hAc, hcr⟩ := hcond
    have hp : (s.entry c).parent = y := Option.some.inj hc
    have hdeep := h.deeper c hAc hcr
    have hle := hb c hAc
    rw [hp] at hdeep
    have := ih (b - (s.entry c).depth) (by omega) c hAc rfl
    exact hp ▸ this.parent

theorem FsOk.live_iff (h : FsOk C E D s H) : s.live e = true ↔ Supported s H e :=
  ⟨h.entries.supported, h.entries.mem_of_supported⟩

theorem FsOk.live_eq {D' : Eid → Prop} (h : FsOk C E D s H) (h' : FsOk C E D' s' H)
    (hk : KeptUp H s s') : s'.live = s.live := by
  funext e
  have hiff : s'.live e = true ↔ s.live e = true := by
    rw [h.live_iff, h'.live_iff]
    exact ⟨fun he => he.of_kept hk, fun he => he.kept hk⟩
  exact Bool.eq_iff_iff.2 hiff

/-- The live entries and the references on them are the same. -/
structure SameCounts (s s' : Fs) : Prop where
  live : s'.live = s.live
  refcount : ∀ e, s.live e = true → (s'.entry e).refcount = (s.entry e).refcount

/-- **The references that are held decide all others.** -/
theorem FsOk.same {D' : Eid → Prop} (h : FsOk C E D s H) (h' : FsOk C E D' s' H)
    (hk : KeptUp H s s') : SameCounts s s' := by
  have hlive := h.live_eq h' hk
  refine ⟨hlive, fun e he => ?_⟩
  have hup : up s' s'.live = up s s.live := by
    funext y
    unfold up
    rw [hlive]
    by_cases hy : s.live y = true ∧ y ≠ rootEntry
    · rw [if_pos hy, if_pos hy, hk y (h.entries.supported hy.1)]
    · rw [if_neg hy, if_neg hy]
  rw [h'.entries.counted e (hlive ▸ he), h.entries.counted e he, hup]

/-- An entry may be without a node, but it was freed. -/
theorem FsOk.restore (h : FsOk C E (fun y => D y ∨ y = e) s H) (he : s.live e = false) :
    FsOk C E D s H :=
  { h with
    entries := { h.entries with
      positive := fun y hy hnone => by
        refine (h.entries.positive y hy hnone).resolve_right fun hye => ?_
        rw [hye, he] at hy
        exact nomatch hy } }

/-! ### References -/

theorem FsOk.get (h : FsOk C E D s H) (he : s.live e = true) : FsOk C E D (s.addRefs e 1) (e ::ₘ H) :=
  VfsOk.get h he

theorem kept_addRefs : Kept H s (s.addRefs e k) := fun y _ => alike_addRefs y

/-- **Dropping a reference** that is held. -/
theorem FsOk.put (h : FsOk C E D s (e ::ₘ H)) :
    Ensures (vfsEntryPut e) s fun _ s' => FsOk C E D s' H ∧ Kept H s s' ∧ SameTree s s' := by
  refine (ensures_vfsEntryPut h).mono ?_
  intro _ s' ⟨A', h', hframe⟩
  have hA' : A' = s'.live := by
    funext y
    have hsub := hframe.sub y
    rw [hframe.live y]
    cases hy : s.live y <;> cases hy' : A' y <;> simp_all
  subst hA'
  refine ⟨h', fun y hy => ?_, hframe.tree⟩
  suffices hlive : s'.live y = true from hframe.alike y hlive
  induction hy with
  | root => exact h'.entries.root_mem
  | held hy => exact h'.entries.held _ hy
  | parent _ ih =>
    rw [← (hframe.alike _ ih).parent]
    exact h'.entries.closed _ ih

/-! ### A new entry -/

/-- The state with a new entry `e` among the children of `dir`. -/
def Fs.plant (s : Fs) (dir e : Eid) (name : Name) : Fs :=
  { s with
    entry := Function.update (s.addRefs dir 1).entry e
      ⟨dir, none, name, true, 1, (s.entry dir).depth + 1⟩
    live := Function.update s.live e true
    cache := Function.update (Function.update s.cache e fun _ => none) dir
      (Function.update (s.cache dir) name (some e))
    entrySupply := fun i => s.entrySupply (i + 1) }

theorem FsOk.supply (h : FsOk C E D s H) (f : ℕ → Option Eid) (k : ℕ) :
    FsOk C E D { s with entrySupply := f, failures := k } H where
  entries := { h.entries with }
  nodes := { h.nodes with }
  coherent hC := (h.coherent hC).mono ⟨rfl, rfl, rfl, rfl, rfl, rfl⟩ (fun _ hy _ => ⟨hy, Alike.refl _⟩)
    h.entries.closed
  bare := h.bare

theorem plant_self : (s.plant d e x).entry e = ⟨d, none, x, true, 1, (s.entry d).depth + 1⟩ :=
  Function.update_self _ _ _

theorem plant_entry {y : Eid} (hy : y ≠ e) : (s.plant d e x).entry y = (s.addRefs d 1).entry y :=
  Function.update_of_ne hy _ _

theorem alike_plant {y : Eid} (hy : y ≠ e) : Alike (s.entry y) ((s.plant d e x).entry y) := by
  rw [plant_entry hy]
  exact alike_addRefs y

theorem sameTree_plant : SameTree s (s.plant d e x) := ⟨rfl, rfl, rfl, rfl, rfl, rfl⟩

/-- The state with a new entry `e`. -/
def Fs.sprout (s : Fs) (e : Eid) (name : Name) : Fs :=
  { s with
    entry := Function.update s.entry e ⟨rootEntry, none, name, false, 1, 0⟩
    live := Function.update s.live e true
    cache := Function.update s.cache e fun _ => none
    entrySupply := fun i => s.entrySupply (i + 1) }

theorem ensures_vfsEntryCreate {Q : Option Eid → Fs → Prop}
    (hnone : Q none { s with entrySupply := fun i => s.entrySupply (i + 1), failures := s.failures + 1 })
    (hsome : ∀ e, s.entrySupply 0 = some e → s.live e = false → Q (some e) (s.sprout e x)) :
    Ensures (vfsEntryCreate x) s Q := by
  unfold vfsEntryCreate noMemory
  simp only [ensures_bind, ensures_get, ensures_set]
  cases hsupply : s.entrySupply 0 with
  | none =>
    simp only [ensures_bind, ensures_modify, ensures_pure]
    exact hnone
  | some e =>
    dsimp only
    by_cases hlive : s.live e = false
    · rw [if_pos hlive]
      simp only [ensures_bind, ensures_modify, ensures_pure]
      exact hsome e hsupply hlive
    · rw [if_neg hlive]
      simp only [ensures_bind, ensures_modify, ensures_pure]
      exact hnone

theorem ensures_linkEntry {Q : Unit → Fs → Prop} (hde : d ≠ e) :
    Ensures (linkEntry d e) (s.sprout e x) Q ↔ Q () (s.plant d e x) := by
  unfold linkEntry vfsEntryGet
  simp only [ensures_bind, ensures_modify]
  suffices hstate : ∀ t, t = s.plant d e x → (Q PUnit.unit t ↔ Q () (s.plant d e x)) by
    refine hstate _ ?_
    simp only [Fs.plant, Fs.sprout, Fs.setCache, Fs.setEntry, Fs.addRefs, Function.update_self,
      Function.update_of_ne hde, Function.update_of_ne hde.symm]
    congr 1
    funext y
    by_cases hy : y = e
    · simp [hy]
    · by_cases hyd : y = d <;> simp [hy, hyd, hde]
  rintro _ rfl
  rfl

theorem update_true {y : Eid} : Function.update A e true y = true ↔ y = e ∨ A y = true := by
  by_cases hy : y = e <;> simp [hy]

theorem EntriesOk.plant (h : EntriesOk D s A H) (he : A e = false) (hd : A d = true)
    (hmiss : s.cache d x = none) :
    EntriesOk (fun y => D y ∨ y = e) (s.plant d e x) (Function.update A e true) (e ::ₘ H) := by
  have hne : ∀ y, A y = true → y ≠ e := fun y hy hc => by
    rw [hc, he] at hy
    cases hy
  have hde : d ≠ e := hne d hd
  have hroot : rootEntry ≠ e := hne rootEntry h.root_mem
  have hother : ∀ y, y ≠ e → Function.update A e true y = true → A y = true :=
    fun y hy hA => (update_true.1 hA).resolve_left hy
  have hup : up (s.plant d e x) (Function.update A e true) = Function.update (up s A) e (some d) := by
    funext y
    by_cases hy : y = e
    · subst hy
      simp [up, plant_self, hroot.symm]
    · simp [up, hy, (alike_plant hy).parent]
  have hupe : up s A e = none := if_neg fun hc => by
    rw [he] at hc
    cases hc.1
  have hrefs := fun y => refs_update h.sparse e (some d) y
  simp only [hupe, reduceCtorEq, if_false, Nat.add_zero, Option.some.injEq] at hrefs
  constructor
  case root_mem => exact update_true.2 (Or.inr h.root_mem)
  case root_parent => rw [(alike_plant hroot).parent]; exact h.root_parent
  case root_cached => rw [(alike_plant hroot).cached]; exact h.root_cached
  case root_node => rw [(alike_plant hroot).node]; exact h.root_node
  case finite =>
    exact (h.finite.insert e).subset fun y hy => (update_true.1 hy).imp id id
  case live =>
    intro y hy
    refine update_true.2 ((update_true.1 hy).imp id (h.live y))
  case closed =>
    intro y hy
    by_cases hye : y = e
    · rw [hye, plant_self]
      exact update_true.2 (Or.inr hd)
    · rw [(alike_plant hye).parent]
      exact update_true.2 (Or.inr (h.closed y (hother y hye hy)))
  case deeper =>
    intro y hy hyr
    by_cases hye : y = e
    · rw [hye, plant_self, (alike_plant hde).depth]
      exact Nat.lt_succ_self _
    · have hAy := hother y hye hy
      rw [(alike_plant hye).parent, (alike_plant hye).depth, (alike_plant (hne _ (h.closed y hAy))).depth]
      exact h.deeper y hAy hyr
  case counted =>
    intro y hy
    rw [hup, hrefs y, Multiset.count_cons]
    by_cases hye : y = e
    · -- nobody is below the new entry
      have hzero : refs (up s A) e = 0 := (refs_eq_zero_iff h.sparse).2 fun c hc => by
        rw [up] at hc
        split_ifs at hc with hcond
        exact hne _ (h.closed c hcond.1) (Option.some.inj hc)
      have hcount : H.count e = 0 := Multiset.count_eq_zero.2 fun hc => hne e (h.held e hc) rfl
      rw [hye, plant_self, hzero, hcount, if_neg hroot.symm, if_neg hde, if_pos rfl]
      rfl
    · have hcount := h.counted y (hother y hye hy)
      rw [plant_entry hye, addRefs_refcount, hcount, if_neg hye]
      simp only [eq_comm (a := y)]
      norm_cast
      omega
  case pos =>
    intro y hy
    by_cases hye : y = e
    · rw [hye, plant_self]
      exact Int.one_pos
    · have hpos := h.pos y (hother y hye hy)
      rw [plant_entry hye, addRefs_refcount]
      split_ifs <;> omega
  case held =>
    intro y hy
    exact update_true.2 ((Multiset.mem_cons.1 hy).imp id (h.held y))
  case cache_iff =>
    intro d' x' y hd'
    have hiff := fun d' x' hd' => h.cache_iff d' x' y hd'
    by_cases hde' : d' = e
    · -- the new entry has no children
      have hcache : (s.plant d e x).cache d' x' = none := by
        simp [Fs.plant, hde', hde.symm]
      rw [hcache, hde']
      refine iff_of_false (by simp) fun hc => ?_
      obtain ⟨hA, -, hp, -⟩ := hc
      by_cases hye : y = e
      · rw [hye, plant_self] at hp
        exact hde hp
      · rw [(alike_plant hye).parent] at hp
        exact hne _ (h.closed y (hother y hye hA)) hp
    · have hAd' := hother d' hde' hd'
      by_cases hat : d' = d ∧ x' = x
      · obtain ⟨rfl, rfl⟩ := hat
        have hcache : (s.plant d' e x').cache d' x' = some e := by
          simp [Fs.plant]
        rw [hcache]
        by_cases hye : y = e
        · rw [hye, plant_self]
          simp
        · refine iff_of_false (fun hc => hye (Option.some.inj hc).symm) fun hc => ?_
          rw [(alike_plant hye).parent, (alike_plant hye).cached, (alike_plant hye).name] at hc
          have := (hiff d' x' hd).2 ⟨hother y hye hc.1, hc.2⟩
          rw [hmiss] at this
          cases this
      · have hcache : (s.plant d e x).cache d' x' = s.cache d' x' := by
          by_cases hdd : d' = d
          · have hx : x' ≠ x := fun hc => hat ⟨hdd, hc⟩
            simp [Fs.plant, hdd, hx]
          · simp [Fs.plant, hdd, hde']
        rw [hcache, hiff d' x' hAd']
        by_cases hye : y = e
        · rw [hye, plant_self]
          refine iff_of_false (fun hc => hne e hc.1 rfl) fun hc => hat ⟨hc.2.2.1.symm, hc.2.2.2.symm⟩
        · rw [(alike_plant hye).parent, (alike_plant hye).cached, (alike_plant hye).name,
            Function.update_of_ne hye]
  case positive =>
    intro y hy hnone
    by_cases hye : y = e
    · exact Or.inr hye
    · rw [(alike_plant hye).node] at hnone
      exact Or.inl (h.positive y (hother y hye hy) hnone)

theorem FsOk.plant (h : FsOk C E D s H) (he : s.live e = false) (hd : s.live d = true)
    (hmiss : s.cache d x = none) :
    FsOk C E (fun y => D y ∨ y = e) (s.plant d e x) (e ::ₘ H) where
  entries := h.entries.plant he hd hmiss
  nodes := by
    refine h.nodes.congr sameTree_plant rfl ?_
    funext y
    by_cases hy : y = e
    · rw [hy, nodesOf, nodesOf, plant_self, he]
      simp
    · have hlive : (s.plant d e x).live y = s.live y := Function.update_of_ne hy _ _
      rw [nodesOf, nodesOf, hlive, (alike_plant hy).node]
  coherent hC := by
    refine (h.coherent hC).mono sameTree_plant ?_ (h.entries.plant he hd hmiss).closed
    intro y hy hnode
    have hye : y ≠ e := fun hc => by
      rw [hc, plant_self] at hnode
      exact hnode rfl
    exact ⟨(update_true.1 hy).resolve_left hye, alike_plant hye⟩
  bare := h.bare

theorem FsOk.kept_plant (h : FsOk C E D s H) (he : s.live e = false) : Kept H s (s.plant d e x) := by
  intro y hy
  refine alike_plant fun hc => ?_
  rw [← hc, h.entries.mem_of_supported hy] at he
  exact nomatch he

/-! ### Pointing an entry to a node -/

/-- The state with an entry pointed to a node. -/
def Fs.point (s : Fs) (e : Eid) (m : Nid) : Fs :=
  (s.setEntry e { s.entry e with node := some m }).addNodeRefs m 1

@[simp]
theorem ensures_pointTo {Q : Unit → Fs → Prop} : Ensures (pointTo e m) s Q ↔ Q () (s.point e m) := by
  unfold pointTo vfsNodeGet
  rw [ensures_bind, ensures_modify, ensures_modify]
  rfl

theorem point_self : (s.point e m).entry e = { s.entry e with node := some m } :=
  Function.update_self _ _ _

theorem point_entry {y : Eid} (hy : y ≠ e) : (s.point e m).entry y = s.entry y :=
  Function.update_of_ne hy _ _

theorem sameTree_point : SameTree s (s.point e m) := ⟨rfl, rfl, rfl, rfl, rfl, rfl⟩

/-- Nothing else of an entry changes. -/
theorem point_alike (y : Eid) : Alike { s.entry y with node := none }
    { (s.point e m).entry y with node := none } ∧
    ((s.point e m).entry y).refcount = (s.entry y).refcount := by
  by_cases hy : y = e
  · rw [hy, point_self]
    exact ⟨Alike.refl _, rfl⟩
  · rw [point_entry hy]
    exact ⟨Alike.refl _, rfl⟩

theorem EntriesOk.point (h : EntriesOk (fun y => D y ∨ y = e) s A H) (hroot : e ≠ rootEntry) :
    EntriesOk D (s.point e m) A H := by
  have hparent : ∀ y, ((s.point e m).entry y).parent = (s.entry y).parent :=
    fun y => (point_alike y).1.parent
  have hup : up (s.point e m) A = up s A := by
    funext y
    rw [up, up, hparent]
  constructor
  case root_mem => exact h.root_mem
  case root_parent => rw [hparent]; exact h.root_parent
  case root_cached => rw [point_entry hroot.symm]; exact h.root_cached
  case root_node => rw [point_entry hroot.symm]; exact h.root_node
  case finite => exact h.finite
  case live => exact h.live
  case closed =>
    intro y hy
    rw [hparent]
    exact h.closed y hy
  case deeper =>
    intro y hy hyr
    have hdepth : ∀ z, ((s.point e m).entry z).depth = (s.entry z).depth :=
      fun z => (point_alike z).1.depth
    rw [hparent, hdepth, hdepth]
    exact h.deeper y hy hyr
  case counted =>
    intro y hy
    rw [hup, (point_alike y).2]
    exact h.counted y hy
  case pos =>
    intro y hy
    rw [(point_alike y).2]
    exact h.pos y hy
  case held => exact h.held
  case cache_iff =>
    intro d x y hd
    have hname : ((s.point e m).entry y).name = (s.entry y).name := (point_alike y).1.name
    have hcached : ((s.point e m).entry y).cached = (s.entry y).cached := (point_alike y).1.cached
    rw [hparent, hname, hcached]
    exact h.cache_iff d x y hd
  case positive =>
    intro y hy hnone
    by_cases hye : y = e
    · rw [hye, point_self] at hnone
      cases hnone
    · rw [point_entry hye] at hnone
      exact (h.positive y hy hnone).resolve_right hye

theorem NodesOk.point (h : NodesOk s A N) (he : A e = true) (hnone : (s.entry e).node = none)
    (hm : s.nodeLive m = true) : NodesOk (s.point e m) A N := by
  have hnodes : nodesOf (s.point e m) A = Function.update (nodesOf s A) e (some m) := by
    funext y
    by_cases hy : y = e
    · rw [hy, nodesOf, if_pos he, point_self, Function.update_self]
    · rw [Function.update_of_ne hy, nodesOf, nodesOf, point_entry hy]
  have hnode : nodesOf s A e = none := (if_pos he).trans hnone
  constructor
  case sparse => rw [hnodes]; exact h.sparse.update e (some m)
  case names_sparse => exact h.names_sparse
  case root_dead => exact h.root_dead
  case root_kind => exact h.root_kind
  case kinds => exact h.kinds
  case pointed =>
    intro y n hyr hy
    by_cases hye : y = e
    · rw [hye, hnodes, Function.update_self] at hy
      exact Option.some.inj hy ▸ hm
    · rw [hnodes, Function.update_of_ne hye] at hy
      exact h.pointed y n hyr hy
  case named => exact h.named
  case mounted => exact h.mounted
  case held => exact h.held
  case counted =>
    intro n hn
    have hcount := h.counted n hn
    have hrefs := refs_update h.sparse e (some m) n
    rw [hnode] at hrefs
    have hnr : (s.point e m).nodeRefs n = s.nodeRefs n + if n = m then 1 else 0 :=
      addNodeRefs_nodeRefs n
    simp only [reduceCtorEq, if_false, Nat.add_zero, Option.some.injEq, eq_comm (a := m)] at hrefs
    rw [hnodes, hrefs, hnr]
    push_cast at hcount ⊢
    change _ + _ + (refs (namesOf s) n : ℤ) + mountsOf s n + _ ≤ _
    split_ifs <;> omega

/-- The entry of a name, pointed to the node that was looked up or was just named. -/
theorem VfsOk.point (h : VfsOk C E (fun y => D y ∨ y = e) s A H N) (he : A e = true)
    (hroot : e ≠ rootEntry) (hnone : (s.entry e).node = none) (hm : s.nodeLive m = true)
    (hfound : C → (s.entry e).cached = true ∧ (∀ y, A y = true → (s.entry y).parent ≠ e) ∧
      ∃ n, (s.entry (s.entry e).parent).node = some n ∧ s.find n (s.entry e).name = some m)
    (hone : C → s.kind m ≠ .file → ∀ y, A y = true → (s.entry y).node ≠ some m) :
    VfsOk C E D (s.point e m) A H N where
  entries := h.entries.point hroot
  nodes := h.nodes.point he hnone hm
  bare := h.bare
  coherent hC := by
    have hco := h.coherent hC
    obtain ⟨hcached, hleaf, n, hn, hfind⟩ := hfound hC
    have hparent : ∀ y, ((s.point e m).entry y).parent = (s.entry y).parent :=
      fun y => (point_alike y).1.parent
    constructor
    case found =>
      intro y n' m' hy hc hn' hm'
      rw [hparent] at hn'
      rw [sameTree_point.find]
      by_cases hye : y = e
      · rw [hye] at hn' hm' ⊢
        rw [point_entry (hleaf e he), hn] at hn'
        rw [point_self] at hm' ⊢
        rw [← Option.some.inj hn', ← Option.some.inj hm']
        exact hfind
      · rw [point_entry hye] at hc hm' ⊢
        rw [point_entry (hleaf y hy)] at hn'
        exact hco.found y n' m' hy hc hn' hm'
    case single =>
      intro d d' y y' n' hd hd' hy hy' hk
      rw [sameTree_point.find] at hy hy'
      exact hco.single d d' y y' n' hd hd' hy hy' hk
    case lost =>
      intro y n' hy hyr hc hn' hk d z hd
      have hye : y ≠ e := fun hye => by
        rw [hye, point_self] at hc
        exact nomatch hcached.symm.trans hc
      rw [point_entry hye] at hc hn'
      rw [sameTree_point.find]
      exact hco.lost y n' hy hyr hc hn' hk d z hd
    case one =>
      intro y y' n' hy hy' hn' hn'' hk
      by_cases hye : y = e
      · by_cases hye' : y' = e
        · exact hye.trans hye'.symm
        · rw [hye, point_self] at hn'
          rw [point_entry hye', ← Option.some.inj hn'] at hn''
          exact absurd hn'' (hone hC (Option.some.inj hn' ▸ hk) y' hy')
      · by_cases hye' : y' = e
        · rw [hye', point_self] at hn''
          rw [point_entry hye, ← Option.some.inj hn''] at hn'
          exact absurd hn' (hone hC (Option.some.inj hn'' ▸ hk) y hy)
        · rw [point_entry hye] at hn'
          rw [point_entry hye'] at hn''
          exact hco.one y y' n' hy hy' hn' hn'' hk

/-! ### `vfs_lookup` -/

theorem ensuresOr_nodeOf {Q : Nid → Fs → Prop} (hnull : (s.entry e).node = none → F .null)
    (hQ : ∀ n, (s.entry e).node = some n → Q n s) : EnsuresOr F (nodeOf e) s Q := by
  unfold nodeOf
  rw [ensuresOr_bind, ensuresOr_get]
  cases hn : (s.entry e).node with
  | none => exact ensuresOr_throw.2 (hnull hn)
  | some n => exact ensuresOr_pure.2 (hQ n hn)

theorem ensures_opsLookup {Q : ℤ → Fs → Prop}
    (hnone : s.find n (s.entry e).name = none → Q (-ENOENT) s)
    (hsome : ∀ m, s.find n (s.entry e).name = some m → Q 0 (s.point e m)) :
    Ensures (opsLookup n e) s Q := by
  unfold opsLookup vfsNodeGet
  rw [ensures_bind, ensures_get]
  cases hfind : s.find n (s.entry e).name with
  | none => exact ensures_pure.2 (hnone hfind)
  | some m =>
    dsimp only
    simp only [ensures_bind, ensures_set, ensures_modify, ensures_pure]
    exact hsome m hfind

theorem VfsOk.real (h : VfsOk C E D s A H N) (he : A e = true) (hn : (s.entry e).node = some n) :
    Real s n := by
  by_cases hroot : e = rootEntry
  · rw [hroot, h.entries.root_node] at hn
    exact Or.inl (Option.some.inj hn).symm
  · exact Or.inr (h.nodes.pointed e n hroot ((if_pos he).trans hn))

/-- What is found is a node of `ramfs`. -/
theorem NodesOk.live_of_find (h : NodesOk s A N) (hfind : s.find n x = some m) :
    s.nodeLive m = true := by
  unfold Fs.find at hfind
  split at hfind
  · obtain ⟨l₁, l₂, hl, -⟩ := List.lookup_eq_some_iff.1 hfind
    refine h.mounted (x, m) ?_
    rw [hl]
    simp
  · exact h.named (n, x) m hfind
  · exact nomatch hfind

/-- A directory that was looked up anew had no entry. -/
theorem VfsOk.not_pointed (h : VfsOk C E D s A H N) (hC : C) (hD : ∀ y, ¬D y) (hd : A d = true)
    (hn : (s.entry d).node = some n) (hkind : s.kind n ≠ .file) (hmiss : s.cache d x = none)
    (hfind : s.find n x = some m) (hm : s.kind m ≠ .file) {y : Eid} (hy : A y = true) :
    (s.entry y).node ≠ some m := by
  intro hym
  have hco := h.coherent hC
  have hreal : Real s n := h.real hd hn
  have hyr : y ≠ rootEntry := fun hc => by
    rw [hc, h.entries.root_node] at hym
    have hlive := h.nodes.live_of_find hfind
    rw [← Option.some.inj hym, h.nodes.root_dead] at hlive
    exact nomatch hlive
  cases hc : (s.entry y).cached with
  | false => exact hco.lost y m hy hyr hc hym hm n x hreal hfind
  | true =>
    have hp := h.entries.closed y hy
    cases hpn : (s.entry (s.entry y).parent).node with
    | none => exact hD _ (h.entries.positive _ hp hpn)
    | some p =>
      have hyf := hco.found y p m hy hc hpn hym
      obtain ⟨rfl, hx⟩ := hco.single p n _ x m (h.real hp hpn) hreal hyf hfind hm
      have hpd := hco.one _ d p hp hd hpn hn hkind
      have hcache := (h.entries.cache_iff d x y hd).2 ⟨hy, hc, hpd, hx⟩
      rw [hmiss] at hcache
      exact nomatch hcache

/-- The entry `e` is cached in the directory `dir` by a name. -/
structure Child (s : Fs) (dir : Eid) (name : Name) (e : Eid) : Prop where
  live : s.live e = true
  parent : (s.entry e).parent = dir
  name : (s.entry e).name = name
  cached : (s.entry e).cached = true

theorem Child.ne_root (h : Child s d x e) (hs : FsOk C E D s H) : e ≠ rootEntry := fun hc => by
  have hcached := h.cached
  rw [hc, hs.entries.root_cached] at hcached
  exact nomatch hcached

/-- What `vfs_lookup` gives for a directory with the node `n`. -/
inductive Lookup (C E : Prop) (D : Eid → Prop) (H : Multiset Eid) (dir : Eid) (name : Name)
    (create : Bool) (s : Fs) (n : Nid) (s' : Fs) : Option Eid → ℤ → Prop
  | file : FsOk C E D s' H → s.kind n = .file → Lookup C E D H dir name create s n s' none (-ENOTSUP)
  | memory : FsOk C E D s' H → s.kind n ≠ .file → Lookup C E D H dir name create s n s' none (-ENOMEM)
  | absent : FsOk C E D s' H → s.kind n ≠ .file → create = false → s.find n name = none →
      Lookup C E D H dir name create s n s' none (-ENOENT)
  | found {e : Eid} : FsOk C E D s' (e ::ₘ H) → s.kind n ≠ .file → Child s' dir name e →
      (C → ∀ m, (s'.entry e).node = some m → s.find n name = some m) →
      Lookup C E D H dir name create s n s' (some e) 0
  | missing {e : Eid} : FsOk C E (fun y => D y ∨ y = e) s' (e ::ₘ H) → s.kind n ≠ .file →
      create = true → s.find n name = none → Child s' dir name e → (s'.entry e).node = none →
      s.cache dir name = none → s.entrySupply 0 = some e → s.live e = false →
      (∀ y, s'.live y = true → (s'.entry y).parent ≠ e) →
      Lookup C E D H dir name create s n s' (some e) (-ENOENT)

/-- **Looking a name up** in a directory that is held. -/
theorem FsOk.lookup (h : FsOk C E D s H) (hd : s.live d = true) (hCD : C → ∀ y, ¬D y)
    (hnull : (s.entry d).node = none → F .null) (create : Bool) :
    EnsuresOr F (vfsLookup d x create) s fun r s' => SameTree s s' ∧ Kept H s s' ∧
      ∃ n, (s.entry d).node = some n ∧ Lookup C E D H d x create s n s' r.1 r.2 := by
  unfold vfsLookup
  simp only [ensuresOr_bind]
  refine ensuresOr_nodeOf hnull fun n hn => ?_
  simp only [ensuresOr_get]
  by_cases hkind : s.kind n = .file
  · rw [if_pos hkind]
    exact ensuresOr_pure.2 ⟨SameTree.refl s, Kept.refl H s, n, hn, .file h hkind⟩
  rw [if_neg hkind]
  cases hcache : s.cache d x with
  | some e =>
    -- the name is cached: its entry gets a reference
    obtain ⟨he, hcached, hparent, hname⟩ := (h.entries.cache_iff d x e hd).1 hcache
    dsimp only
    unfold vfsEntryGet
    simp only [ensuresOr_bind, ensuresOr_modify, ensuresOr_pure]
    refine ⟨sameTree_addRefs, kept_addRefs, n, hn, .found (h.get he) hkind ⟨he, ?_, ?_, ?_⟩ ?_⟩
    · rw [addRefs_parent]; exact hparent
    · rw [addRefs_name]; exact hname
    · rw [addRefs_cached]; exact hcached
    · intro hC m hm
      rw [addRefs_node] at hm
      rw [← hname]
      exact (h.coherent hC).found e n m he hcached (hparent ▸ hn) hm
  | none =>
    dsimp only
    rw [ensuresOr_bind]
    -- a new entry is linked into the cache before the file system is asked for its node
    refine (ensures_vfsEntryCreate ?_ fun e hsupply he => ?_).ensuresOr
    · exact ensuresOr_pure.2 ⟨⟨rfl, rfl, rfl, rfl, rfl, rfl⟩, fun _ _ => Alike.refl _, n, hn,
        .memory (h.supply _ _) hkind⟩
    · have hde : d ≠ e := fun hc => by
        rw [hc, he] at hd
        cases hd
      have hp := h.plant he hd hcache
      have hkp : Kept H s (s.plant d e x) := h.kept_plant he
      have hlive : (s.plant d e x).live e = true := Function.update_self _ _ _
      have hleaf : ∀ y, (s.plant d e x).live y = true → ((s.plant d e x).entry y).parent ≠ e := by
        intro y hy hc
        by_cases hye : y = e
        · rw [hye, plant_self] at hc
          exact hde hc
        · rw [(alike_plant hye).parent] at hc
          have := h.entries.closed y ((update_true.1 hy).resolve_left hye)
          rw [hc, he] at this
          cases this
      have hchild : Child (s.plant d e x) d x e := by
        refine ⟨hlive, ?_, ?_, ?_⟩ <;> rw [plant_self]
      dsimp only
      rw [ensuresOr_bind]
      refine ((ensures_linkEntry hde).2 ?_).ensuresOr
      rw [ensuresOr_bind]
      refine (ensures_opsLookup ?_ ?_).ensuresOr
      · rw [sameTree_plant.find, hchild.name]
        -- there is no such name: the new entry stays only if the caller is about to create the file
        intro hfind
        cases create with
        | true =>
          rw [if_neg fun hc => by cases hc.2]
          refine ensuresOr_pure.2 ⟨sameTree_plant, hkp, n, hn, ?_⟩
          refine .missing hp hkind rfl hfind hchild ?_ hcache hsupply he hleaf
          rw [plant_self]
        | false =>
          rw [if_pos ⟨by decide, rfl⟩, ensuresOr_bind]
          refine hp.put.ensuresOr.mono ?_
          rintro _ s' ⟨h', hk, ht⟩
          have hk' : Kept H s s' := hkp.trans hk
          refine ensuresOr_pure.2 ⟨sameTree_plant.trans ht, hk', n, hn, .absent ?_ hkind rfl hfind⟩
          refine h'.restore ?_
          rw [h.live_eq h' hk'.up]
          exact he
      · rw [sameTree_plant.find, hchild.name]
        -- there is one: the new entry points to its node, which no other entry does
        intro m hfind
        rw [if_neg fun hc => hc.1 rfl]
        have hm : s.nodeLive m = true := h.nodes.live_of_find hfind
        have hroot := hchild.ne_root hp
        have hpoint : FsOk C E D ((s.plant d e x).point e m) (e ::ₘ H) := by
          refine VfsOk.point hp hlive hroot (by rw [plant_self]) hm ?_ ?_
          · intro hC
            refine ⟨hchild.cached, hleaf, n, ?_⟩
            rw [sameTree_plant.find, plant_self]
            exact ⟨(alike_plant hde).node.trans hn, hfind⟩
          · intro hC hkm y hy hym
            by_cases hye : y = e
            · rw [hye, plant_self] at hym
              cases hym
            · rw [(alike_plant hye).node] at hym
              exact VfsOk.not_pointed h hC (hCD hC) hd hn hkind hcache hfind hkm
                ((update_true.1 hy).resolve_left hye) hym
        refine ensuresOr_pure.2 ⟨sameTree_plant.trans sameTree_point, ?_, n, hn, .found hpoint hkind ?_ ?_⟩
        · intro y hy
          have hye : y ≠ e := fun hc => by
            rw [← hc, h.entries.mem_of_supported hy] at he
            cases he
          rw [point_entry hye]
          exact alike_plant hye
        · refine ⟨hlive, ?_, ?_, ?_⟩
          · exact (point_alike e).1.parent.trans hchild.parent
          · exact (point_alike e).1.name.trans hchild.name
          · exact (point_alike e).1.cached.trans hchild.cached
        · intro _ m' hm'
          rw [point_self] at hm'
          exact hfind.trans hm'

end

end Vfs

end Kernel64
