import Kernel64.Vfs.Transparency

/-!
# The buffers of names

A component of a path goes through three buffers of `MAX_PATH_LEN` characters: `next` of a walk, the name of an
`fs_entry`, and the name of a `ramfs_entry`. Nothing checks its length. It is written to the first one as soon as the
walk comes to it, so a component that is too long is written past the end exactly when those before it lead somewhere
(`call_fits`). A name that was written to the first buffer fits into the others as well.
-/

namespace Kernel64

namespace Vfs

/-! ### Names in their buffers -/

/-- The names are in their buffers, each with its NUL. -/
structure NamesFit (s : Fs) : Prop where
  entry : ∀ e, (s.entry e).name.length < maxPathLen
  names : ∀ d, ∀ x ∈ s.names d, x.1.length < maxPathLen

/-- The program keeps the names in their buffers, and writes no name past the end of `next`. -/
abbrev Fits {α : Type} (m : FsM α) (P : α → Prop) : Prop := Keeps NamesFit (· ≠ .bounds) m P

section

variable {s s' : Fs} {e d : Eid} {n m : Nid} {x : Name} {kind : Kind} {create : Bool}

/-- A change that writes no name. -/
theorem NamesFit.congr (h : NamesFit s) (hentry : ∀ e, (s'.entry e).name = (s.entry e).name)
    (hnames : ∀ d, ∀ x ∈ s'.names d, x ∈ s.names d) : NamesFit s' :=
  ⟨fun e => hentry e ▸ h.entry e, fun d x hx => h.names d x (hnames d x hx)⟩

theorem NamesFit.setEntry (h : NamesFit s) {v : Entry} (hv : v.name.length < maxPathLen) :
    NamesFit (s.setEntry e v) := by
  refine ⟨fun y => ?_, h.names⟩
  unfold Fs.setEntry
  dsimp only
  by_cases hy : y = e
  · rw [hy, Function.update_self]
    exact hv
  · rw [Function.update_of_ne hy]
    exact h.entry y

theorem NamesFit.addRefs (h : NamesFit s) (k : ℤ) : NamesFit (s.addRefs e k) := h.setEntry (h.entry e)

theorem NamesFit.of_names (h : NamesFit s) (hentry : s'.entry = s.entry) (hnames : s'.names = s.names) :
    NamesFit s' :=
  ⟨fun e => hentry ▸ h.entry e, fun d => hnames ▸ h.names d⟩

theorem fits_vfsNodePutFrom : ∀ (fuel : ℕ) (n : Nid), Fits (vfsNodePutFrom fuel n) fun _ => True
  | 0, _ => keeps_throw (by decide)
  | fuel + 1, n => by
    rw [vfsNodePutFrom]
    refine (keeps_modify fun s hs => hs.of_names rfl rfl).bind fun _ _ => keeps_get.bind fun s _ => ?_
    refine keeps_ite (fun _ => ?_) fun _ => keeps_pure trivial
    cases s.kind n with
    | root => exact keeps_throw (by decide)
    | file => exact keeps_modify fun s hs => hs.of_names rfl rfl
    | dir =>
      refine (keeps_forM fun x _ => fits_vfsNodePutFrom fuel x.2).bind fun _ _ => ?_
      exact keeps_modify fun s hs => hs.of_names rfl rfl

theorem fits_vfsNodePut : Fits (vfsNodePut n) fun _ => True :=
  keeps_get.bind fun _ _ => fits_vfsNodePutFrom _ _

theorem fits_vfsNodeGet : Fits (vfsNodeGet n) fun _ => True := keeps_modify fun _ hs => hs.of_names rfl rfl

theorem fits_nodeOf : Fits (nodeOf e) fun _ => True := by
  refine keeps_get.bind fun s _ => ?_
  cases (s.entry e).node with
  | none => exact keeps_throw nofun
  | some n => exact keeps_pure trivial

theorem fits_vfsEntryGet : Fits (vfsEntryGet e) fun _ => True := keeps_modify fun _ hs => hs.addRefs 1

theorem fits_noMemory : Fits noMemory fun _ => True := keeps_modify fun _ hs => hs.of_names rfl rfl

/-- `vfs_entry_create` copies the name with `strcpy`. -/
theorem fits_vfsEntryCreate (hx : x.length < maxPathLen) : Fits (vfsEntryCreate x) fun _ => True := by
  refine keeps_get.bind fun s hs => (keeps_set ?_).bind fun _ _ => ?_
  · exact hs.of_names rfl rfl
  have hnone : Fits (do noMemory; return none) fun _ : Option Eid => True :=
    fits_noMemory.bind fun _ _ => keeps_pure trivial
  cases s.entrySupply 0 with
  | none => exact hnone
  | some e =>
    refine keeps_ite (fun _ => ?_) fun _ => hnone
    refine (keeps_modify fun s hs => ?_).bind fun _ _ => keeps_pure trivial
    exact (hs.setEntry (e := e) (v := ⟨rootEntry, none, x, false, 1, 0⟩) hx).of_names rfl rfl

theorem fits_vfsEntryDetach : Fits (vfsEntryDetach e d) fun _ => True := by
  refine keeps_get.bind fun s hs => keeps_ite (fun _ => ?_) fun _ => keeps_pure trivial
  refine keeps_set (NamesFit.setEntry ?_ (hs.entry e))
  exact hs.of_names rfl rfl

theorem fits_vfsEntryPutFrom : ∀ (fuel : ℕ) (e : Eid), Fits (vfsEntryPutFrom fuel e) fun _ => True
  | 0, _ => keeps_throw (by decide)
  | fuel + 1, e => by
    rw [vfsEntryPutFrom]
    refine (keeps_modify fun s hs => hs.addRefs (-1)).bind fun _ _ => keeps_get.bind fun s _ => ?_
    refine keeps_ite (fun _ => ?_) fun _ => keeps_pure trivial
    refine fits_vfsEntryDetach.bind fun _ _ => (fits_vfsEntryPutFrom fuel _).bind fun _ _ => ?_
    have hdone : Fits (modify fun s : Fs => { s with live := Function.update s.live e false }) fun _ => True :=
      keeps_modify fun s hs => hs.of_names rfl rfl
    cases (s.entry e).node with
    | none => exact hdone
    | some n => exact fits_vfsNodePut.bind fun _ _ => hdone

theorem fits_vfsEntryPut : Fits (vfsEntryPut e) fun _ => True :=
  keeps_get.bind fun _ _ => fits_vfsEntryPutFrom _ _

theorem fits_opsLookup : Fits (opsLookup n e) fun _ => True := by
  refine keeps_get.bind fun s hs => ?_
  cases s.find n (s.entry e).name with
  | none => exact keeps_pure trivial
  | some m =>
    refine (keeps_set ?_).bind fun _ _ => fits_vfsNodeGet.bind fun _ _ => keeps_pure trivial
    exact hs.setEntry (hs.entry e)

theorem fits_linkEntry : Fits (linkEntry d e) fun _ => True := by
  refine (keeps_modify fun s hs => hs.of_names rfl rfl).bind fun _ _ => ?_
  refine fits_vfsEntryGet.bind fun _ _ => ?_
  exact keeps_modify fun s hs => hs.setEntry (hs.entry e)

/-- No entry is returned with an error code only. -/
theorem fits_vfsLookup (hx : x.length < maxPathLen) :
    Fits (vfsLookup d x create) fun r => r.1 = none → r.2 ≠ 0 := by
  refine fits_nodeOf.bind fun n _ => keeps_get.bind fun s _ => ?_
  refine keeps_ite (fun _ => keeps_pure fun _ => show -ENOTSUP ≠ 0 by decide) fun _ => ?_
  cases s.cache d x with
  | some e => exact fits_vfsEntryGet.bind fun _ _ => keeps_pure nofun
  | none =>
    refine (fits_vfsEntryCreate hx).bind fun o _ => ?_
    cases o with
    | none => exact keeps_pure fun _ => show -ENOMEM ≠ 0 by decide
    | some e =>
      refine fits_linkEntry.bind fun _ _ => fits_opsLookup.bind fun rc _ => ?_
      refine keeps_ite (fun hrc => ?_) fun _ => keeps_pure nofun
      exact fits_vfsEntryPut.bind fun _ _ => keeps_pure fun _ => hrc.1

/-! ### The operations of `ramfs` -/

theorem fits_ramfsNodeCreate : Fits (ramfsNodeCreate kind) fun _ => True := by
  refine keeps_get.bind fun s hs => (keeps_set ?_).bind fun _ _ => ?_
  · exact hs.of_names rfl rfl
  have hnone : Fits (do noMemory; return none) fun _ : Option Nid => True :=
    fits_noMemory.bind fun _ _ => keeps_pure trivial
  cases s.nodeSupply 0 with
  | none => exact hnone
  | some n =>
    refine keeps_ite (fun _ => ?_) fun _ => hnone
    refine (keeps_modify fun s hs => ?_).bind fun _ _ => fits_vfsNodeGet.bind fun _ _ => keeps_pure trivial
    refine ⟨hs.entry, fun d y hy => ?_⟩
    by_cases hd : d = n
    · rw [hd] at hy
      dsimp only at hy
      rw [Function.update_self] at hy
      exact nomatch hy
    · dsimp only at hy
      rw [Function.update_of_ne hd] at hy
      exact hs.names d y hy

theorem fits_ramfsEntryAlloc : Fits ramfsEntryAlloc fun _ => True := by
  refine keeps_get.bind fun s hs => (keeps_set ?_).bind fun _ _ => keeps_ite (fun _ => ?_) fun _ => ?_
  · exact hs.of_names rfl rfl
  · exact keeps_pure trivial
  · exact fits_noMemory.bind fun _ _ => keeps_pure trivial

/-- `ramfs_entry_create` copies the name of the entry with `strcpy`. -/
theorem fits_ramfsEntryLink (hx : x.length < maxPathLen) : Fits (ramfsEntryLink n x m) fun _ => True := by
  refine keeps_modify fun s hs => ⟨hs.entry, fun d y hy => ?_⟩
  by_cases hd : d = n
  · rw [hd] at hy
    dsimp only at hy
    rw [Function.update_self] at hy
    rcases List.mem_cons.1 hy with rfl | hy
    · exact hx
    · exact hs.names n y hy
  · dsimp only at hy
    rw [Function.update_of_ne hd] at hy
    exact hs.names d y hy

theorem fits_pointTo : Fits (pointTo e n) fun _ => True :=
  (keeps_modify fun _ hs => hs.setEntry (hs.entry e)).bind fun _ _ => fits_vfsNodeGet

theorem fits_ramfsCreateOps : Fits (ramfsCreateOps n e kind) fun _ => True := by
  refine keeps_get.bind fun s hs => keeps_ite (fun _ => keeps_pure trivial) fun _ => ?_
  refine fits_ramfsNodeCreate.bind fun o _ => ?_
  cases o with
  | none => exact keeps_pure trivial
  | some m =>
    refine fits_ramfsEntryAlloc.bind fun b _ => keeps_ite (fun _ => ?_) fun _ => ?_
    · refine (fits_ramfsEntryLink (hs.entry e)).bind fun _ _ => ?_
      exact fits_pointTo.bind fun _ _ => keeps_pure trivial
    · exact fits_vfsNodePut.bind fun _ _ => keeps_pure trivial

theorem fits_ramfsLink : Fits (ramfsLink d n e) fun _ => True := by
  refine fits_nodeOf.bind fun m _ => keeps_get.bind fun s hs => ?_
  refine keeps_ite (fun _ => keeps_pure trivial) fun _ => ?_
  refine keeps_ite (fun _ => keeps_pure trivial) fun _ => ?_
  refine keeps_ite (fun _ => keeps_pure trivial) fun _ => ?_
  refine fits_vfsNodeGet.bind fun _ _ => fits_ramfsEntryAlloc.bind fun b _ => keeps_ite (fun _ => ?_) fun _ => ?_
  · refine (fits_ramfsEntryLink (hs.entry e)).bind fun _ _ => ?_
    exact fits_pointTo.bind fun _ _ => keeps_pure trivial
  · exact fits_vfsNodePut.bind fun _ _ => keeps_pure trivial

theorem fits_ramfsEntryUnlink : Fits (ramfsEntryUnlink n e) fun _ => True := by
  refine keeps_get.bind fun s hs => ?_
  dsimp only
  cases (s.names n).lookup (s.entry e).name with
  | none => exact keeps_pure trivial
  | some m =>
    refine (keeps_set ?_).bind fun _ _ => ?_
    · refine hs.congr (fun _ => rfl) fun d y hy => ?_
      by_cases hd : d = n
      · rw [hd] at hy ⊢
        dsimp only at hy
        rw [Function.update_self] at hy
        exact (List.mem_filter.1 hy).1
      · dsimp only at hy
        rwa [Function.update_of_ne hd] at hy
    · exact fits_vfsNodePut.bind fun _ _ => fits_vfsEntryDetach.bind fun _ _ => keeps_pure trivial

theorem fits_ramfsUnlink : Fits (ramfsUnlink n e) fun _ => True := by
  refine keeps_get.bind fun s _ => keeps_ite (fun _ => keeps_pure trivial) fun _ => ?_
  cases (s.entry e).node with
  | none => exact keeps_pure trivial
  | some m => exact keeps_ite (fun _ => keeps_pure trivial) fun _ => fits_ramfsEntryUnlink

theorem fits_ramfsRmdir : Fits (ramfsRmdir n e) fun _ => True :=
  keeps_get.bind fun _ _ => keeps_ite (fun _ => keeps_pure trivial) fun _ => fits_ramfsEntryUnlink

/-! ### Walks -/

/-- `vfs_walk`, without reading the next component: the entry that the walk comes to. -/
def walkStep (e : Eid) (x : Name) : FsM (Except ℤ Eid) := do
  if x = [] then return .error (-ENOENT)
  else if x = ['.'] then return .ok e
  else if x = ['.', '.'] then do
    let parent := ((← get).entry e).parent
    vfsEntryGet parent
    vfsEntryPut e
    return .ok parent
  else do
    let _ ← nodeOf e
    match ← vfsLookup e x false with
    | (none, rc) => return .error rc
    | (some e', _) => do
      vfsEntryPut e
      return .ok e'

/-- The next component is read after each step. -/
theorem vfsWalk_eq (w : Walk) : vfsWalk w = do
    match ← walkStep w.entry w.next with
    | .error rc => return (rc, w)
    | .ok e => do
      let (next, tail) ← vfsPathNextEntry w.tail
      return (0, ⟨e, next, tail⟩) := by
  unfold vfsWalk walkStep
  by_cases hnil : w.next = []
  · simp [hnil]
  by_cases hdot : w.next = ['.']
  · simp [hdot]
  by_cases hdots : w.next = ['.', '.']
  · simp [hdots]
  simp only [hnil, hdot, hdots, if_false, bind_assoc]
  refine bind_congr fun _ => bind_congr fun r => ?_
  obtain ⟨o, rc⟩ := r
  cases o <;> simp

/-- A walk over components that are already read, with the entry that it comes to. -/
def walkNames : Eid → List Name → FsM (Except ℤ Eid)
  | e, [] => return .ok e
  | e, x :: xs => do
    match ← walkStep e x with
    | .error rc => return .error rc
    | .ok e' => walkNames e' xs

theorem fits_walkStep (hx : x.length < maxPathLen) : Fits (walkStep e x) fun r => ∀ rc, r = .error rc → rc ≠ 0 := by
  refine keeps_ite (fun _ => keeps_pure ?_) fun _ => keeps_ite (fun _ => keeps_pure nofun) fun _ => ?_
  · rintro _ ⟨⟩
    decide
  refine keeps_ite (fun _ => ?_) fun _ => ?_
  · refine keeps_get.bind fun s _ => fits_vfsEntryGet.bind fun _ _ => fits_vfsEntryPut.bind fun _ _ => ?_
    exact keeps_pure nofun
  · refine fits_nodeOf.bind fun _ _ => (fits_vfsLookup hx).bind fun r hr => ?_
    obtain ⟨o, rc⟩ := r
    cases o with
    | none =>
      refine keeps_pure ?_
      rintro _ ⟨⟩
      exact hr rfl
    | some e' => exact fits_vfsEntryPut.bind fun _ _ => keeps_pure nofun

/-- The components lead somewhere, from the entry `e`. -/
def Comes (s : Fs) (e : Eid) (c : List Name) : Prop := Ensures (walkNames e c) s fun r _ => ∃ e', r = .ok e'

/-- A component that is too long comes after some that lead to it. -/
def LongAhead (s : Fs) (e : Eid) (done l : List Name) : Prop :=
  ∃ c x c', l = c ++ x :: c' ∧ maxPathLen ≤ x.length ∧ Comes s e (done ++ c)

theorem Comes.step {c : List Name} (h : Comes s e (x :: c)) :
    ∃ e' s', walkStep e x s = Except.ok (.ok e', s') ∧ Comes s' e' c := by
  unfold Comes at h
  rw [walkNames, ensures_bind] at h
  obtain ⟨r, s', hrun, h⟩ := h
  cases r with
  | error rc =>
    rw [ensures_pure] at h
    exact nomatch h
  | ok e' => exact ⟨e', s', hrun, h⟩

theorem comes_cons {e' : Eid} {c : List Name} (hrun : walkStep e x s = Except.ok (.ok e', s')) :
    Comes s e (x :: c) ↔ Comes s' e' c := by
  constructor
  · intro h
    obtain ⟨e₁, s₁, hrun₁, h₁⟩ := h.step
    rw [hrun] at hrun₁
    obtain ⟨he, rfl⟩ := Prod.mk.inj (Except.ok.inj hrun₁)
    obtain rfl := Except.ok.inj he
    exact h₁
  · intro h
    unfold Comes
    rw [walkNames, ensures_bind]
    exact ⟨_, s', hrun, h⟩

theorem not_longAhead_nil {done : List Name} : ¬LongAhead s e done [] := by
  rintro ⟨c, x, c', hl, -⟩
  cases c <;> exact nomatch hl

/-- The walk has taken a step, and the next component is not too long. -/
theorem longAhead_cons {e' : Eid} {y : Name} {l : List Name} (hrun : walkStep e x s = Except.ok (.ok e', s'))
    (hy : y.length < maxPathLen) : LongAhead s e [x] (y :: l) ↔ LongAhead s' e' [y] l := by
  constructor
  · rintro ⟨c, z, c', hl, hz, hcomes⟩
    cases c with
    | nil =>
      obtain ⟨rfl, -⟩ := List.cons.inj hl
      omega
    | cons y' c =>
      obtain ⟨rfl, rfl⟩ := List.cons.inj hl
      exact ⟨c, z, c', rfl, hz, (comes_cons hrun).1 hcomes⟩
  · rintro ⟨c, z, c', rfl, hz, hcomes⟩
    exact ⟨y :: c, z, c', rfl, hz, (comes_cons hrun).2 hcomes⟩

/-- What a walk does with the components that it reads: it writes one past the end of `next`, or none, and then it
reads all of them unless it fails. -/
structure WalkFits (P : Prop) (l : List Name) (m : FsM (ℤ × Walk)) (s : Fs) : Prop where
  long : P → Faults m s .bounds
  short : ¬P → EnsuresOr (· ≠ .bounds) m s fun r s' =>
    NamesFit s' ∧ r.2.Ok ∧ (r.1 = 0 → ∀ x ∈ l, x.length < maxPathLen)

theorem walkUntil_fits {stop : Walk → Bool} (μ : Walk → ℕ) (hstop : ∀ w : Walk, w.Ok → stop w = true → w.tail = [])
    (hgo : ∀ w : Walk, w.Ok → stop w = false → w.next ≠ [])
    (hμ : ∀ w w' : Walk, stop w = false → w.On w' → μ w' < μ w) : ∀ (fuel : ℕ) {s : Fs} {w : Walk},
    NamesFit s → w.Ok → μ w < fuel →
    WalkFits (LongAhead s w.entry [w.next] (components w.tail)) (components w.tail) (vfsWalkUntil stop fuel w) s
  | 0, _, _, _, _, hfuel => absurd hfuel (Nat.not_lt_zero _)
  | fuel + 1, s, w, hs, hw, hfuel => by
    rw [vfsWalkUntil]
    cases hst : stop w with
    | true =>
      rw [hstop w hw hst, if_pos rfl]
      exact ⟨fun h => absurd h not_longAhead_nil, fun _ => ensuresOr_pure.2 ⟨hs, hw, fun _ x hx => absurd hx List.not_mem_nil⟩⟩
    | false =>
      have hnext := hgo w hw hst
      have hshort := (hw.named hnext).short
      rw [if_neg Bool.false_ne_true, vfsWalk_eq, bind_assoc]
      have hstep := fits_walkStep (e := w.entry) hshort s hs
      cases hrun : walkStep w.entry w.next s with
      | error b =>
        -- the walk stops for another reason, and no further component is read
        have hb : b ≠ .bounds := by
          unfold EnsuresOr at hstep
          rw [hrun] at hstep
          exact hstep
        refine ⟨?_, fun _ => ?_⟩
        · rintro ⟨c, x, c', _, _, h⟩
          obtain ⟨_, _, hrun', _⟩ := h.step
          cases hrun.symm.trans hrun'
        · rw [ensuresOr_bind]
          unfold EnsuresOr
          rw [hrun]
          exact hb
      | ok r =>
        obtain ⟨r, s₁⟩ := r
        obtain ⟨hs₁, hrc⟩ := hstep.of_run hrun
        cases r with
        | error rc =>
          refine ⟨?_, fun _ => ?_⟩
          · rintro ⟨c, x, c', _, _, h⟩
            obtain ⟨_, _, hrun', _⟩ := h.step
            cases hrun.symm.trans hrun'
          · have hne := hrc rc rfl
            rw [ensuresOr_bind, ensuresOr_of_run hrun]
            dsimp only
            rw [pure_bind, if_pos hne]
            exact ensuresOr_pure.2 ⟨hs₁, hw, fun h0 => absurd h0 hne⟩
        | ok e' =>
          rcases nextEntry_cases hw.head with ⟨x, l, hcomp, hlen, hread⟩ |
            ⟨next, tail, hread, hdone, htail, hnamed, hrest, hle⟩
          · refine ⟨fun _ => faults_bind_run hrun ?_, fun h => absurd ?_ h⟩
            · dsimp only
              rw [hread]
              rfl
            · refine ⟨[], x, l, hcomp, hlen, ?_⟩
              exact (comes_cons hrun).2 (ensures_pure.2 ⟨e', rfl⟩)
          · have hok : Walk.Ok ⟨e', next, tail⟩ := ⟨hdone, htail, hnamed⟩
            have hon : w.On ⟨e', next, tail⟩ := ⟨hnext, hok, hrest, hle⟩
            have ih := walkUntil_fits μ hstop hgo hμ fuel hs₁ hok (by have := hμ w _ hst hon; omega)
            have hsame : LongAhead s w.entry [w.next] (components w.tail) ↔
                LongAhead s₁ e' [next] (components tail) := by
              rw [← hrest]
              by_cases hnil : next = []
              · rw [if_pos hnil, hdone hnil]
                exact iff_of_false not_longAhead_nil not_longAhead_nil
              · rw [if_neg hnil]
                exact longAhead_cons hrun (hnamed hnil).short
            refine ⟨fun h => faults_bind_run hrun ?_, fun h => ?_⟩
            · dsimp only
              rw [hread, pure_bind, pure_bind]
              exact ih.long (hsame.1 h)
            · rw [ensuresOr_bind, ensuresOr_of_run hrun]
              dsimp only
              rw [hread, pure_bind, pure_bind]
              refine (ih.short fun h' => h (hsame.2 h')).mono ?_
              rintro r s₂ ⟨hs₂, hr, hall⟩
              refine ⟨hs₂, hr, fun h0 x hx => ?_⟩
              rw [← hrest] at hx
              by_cases hnil : next = []
              · rw [if_pos hnil] at hx
                exact absurd hx List.not_mem_nil
              · rw [if_neg hnil] at hx
                rcases List.mem_cons.1 hx with rfl | hx
                · exact (hnamed hnil).short
                · exact hall h0 x hx

theorem walkParent_fits {w : Walk} (hs : NamesFit s) (hw : w.Ok) :
    WalkFits (LongAhead s w.entry [w.next] (components w.tail)) (components w.tail) (vfsWalkParent w) s := by
  refine walkUntil_fits (fun w => w.tail.length) ?_ ?_ ?_ _ hs hw (Nat.lt_succ_self _)
  · intro w' _ hst
    simpa using hst
  · intro w' hw' hst hnil
    exact absurd (hw'.done hnil) (by simpa using hst)
  · exact fun w₁ w₂ hst hon => hon.tail_lt (by simpa using hst)

theorem walkAll_fits {w : Walk} (hs : NamesFit s) (hw : w.Ok) :
    WalkFits (LongAhead s w.entry [w.next] (components w.tail)) (components w.tail) (vfsWalkAll w) s := by
  refine walkUntil_fits (fun w => w.tail.length + if w.next = [] then 0 else 1) ?_ ?_ ?_ _ hs hw ?_
  · exact fun w' hw' hst => hw'.done (by simpa using hst)
  · intro w' _ hst
    simpa using hst
  · exact fun w₁ w₂ _ hon => hon.rest_lt
  · split_ifs <;> omega

/-! ### Paths -/

/-- The components lead somewhere, from the root. -/
def Arrives (s : Fs) (c : List Name) : Prop := Comes (s.addRefs rootEntry 1) rootEntry c

/-- **A component of the path is too long for the buffers**, and those before it lead somewhere. -/
def TooLong (s : Fs) (p : List Char) : Prop :=
  ∃ c x c', components p = c ++ x :: c' ∧ maxPathLen ≤ x.length ∧ Arrives s c

variable {p q : List Char}

/-- A walk along a path, by the loop `walk`. -/
theorem walkPath_fits {walk : Walk → FsM (ℤ × Walk)} (hwalk : ∀ {s : Fs} {w : Walk}, NamesFit s → w.Ok →
      WalkFits (LongAhead s w.entry [w.next] (components w.tail)) (components w.tail) (walk w) s)
    (hs : NamesFit s) : WalkFits (TooLong s p) (components p) (vfsWalkStart p >>= walk) s := by
  have hrun : vfsEntryGet rootEntry s = Except.ok ((), s.addRefs rootEntry 1) := rfl
  have hs₁ : NamesFit (s.addRefs rootEntry 1) := hs.addRefs 1
  rw [vfsWalkStart, bind_assoc]
  rcases nextEntry_cases (skipSep_head p) with ⟨x, l, hcomp, hlen, hread⟩ |
    ⟨next, tail, hread, hdone, htail, hnamed, hrest, -⟩
  · rw [components_skipSep] at hcomp
    refine ⟨fun _ => faults_bind_run hrun ?_, fun h => absurd ⟨[], x, l, hcomp, hlen, ?_⟩ h⟩
    · rw [hread]
      rfl
    · exact ensures_pure.2 ⟨_, rfl⟩
  · rw [components_skipSep] at hrest
    have hok : Walk.Ok ⟨rootEntry, next, tail⟩ := ⟨hdone, htail, hnamed⟩
    have h := hwalk hs₁ hok
    have hsame : TooLong s p ↔ LongAhead (s.addRefs rootEntry 1) rootEntry [next] (components tail) := by
      unfold TooLong
      rw [← hrest]
      by_cases hnil : next = []
      · rw [if_pos hnil, hdone hnil]
        exact iff_of_false (@not_longAhead_nil _ _ []) not_longAhead_nil
      · rw [if_neg hnil]
        constructor
        · rintro ⟨c, x, c', hl, hlen, hc⟩
          cases c with
          | nil =>
            obtain ⟨rfl, -⟩ := List.cons.inj hl
            have := (hnamed hnil).short
            omega
          | cons y c =>
            obtain ⟨rfl, hl'⟩ := List.cons.inj hl
            exact ⟨c, x, c', hl', hlen, hc⟩
        · rintro ⟨c, x, c', hl, hlen, hc⟩
          exact ⟨next :: c, x, c', by rw [hl, List.cons_append], hlen, hc⟩
    refine ⟨fun hlong => faults_bind_run hrun ?_, fun hlong => ?_⟩
    · rw [hread, pure_bind, pure_bind]
      exact h.long (hsame.1 hlong)
    · rw [ensuresOr_bind, ensuresOr_of_run hrun, hread, pure_bind, pure_bind]
      refine (h.short fun h' => hlong (hsame.2 h')).mono fun r s₂ ⟨hs₂, hr, hall⟩ => ⟨hs₂, hr, fun h0 x hx => ?_⟩
      rw [← hrest] at hx
      by_cases hnil : next = []
      · rw [if_pos hnil] at hx
        exact nomatch hx
      · rw [if_neg hnil] at hx
        rcases List.mem_cons.1 hx with rfl | hx
        · exact (hnamed hnil).short
        · exact hall h0 x hx

/-- What a call does with a path: it writes a component past the end of a buffer, or none, and then it has read all of
them if it succeeds. -/
structure PathFits {α : Type} (P : Prop) (l : List Name) (m : FsM α) (ok : α → Prop) (s : Fs) : Prop where
  long : P → Faults m s .bounds
  short : ¬P → EnsuresOr (· ≠ .bounds) m s fun a s' => NamesFit s' ∧ (ok a → ∀ x ∈ l, x.length < maxPathLen)

/-- A call goes on after its walk, and fails where the walk does. -/
theorem WalkFits.bind {α : Type} {P : Prop} {l : List Name} {m : FsM (ℤ × Walk)} {f : ℤ × Walk → FsM α}
    {ok : α → Prop} (h : WalkFits P l m s) (hgood : ∀ w : Walk, w.Ok → Fits (f (0, w)) fun _ => True)
    (hbad : ∀ rc w, rc ≠ 0 → Fits (f (rc, w)) fun a => ¬ok a) : PathFits P l (m >>= f) ok s := by
  refine ⟨fun hP => (h.long hP).bind, fun hP => ?_⟩
  rw [ensuresOr_bind]
  refine (h.short hP).mono fun r s₁ hr => ?_
  obtain ⟨rc, w⟩ := r
  obtain ⟨hs₁, hw, hall⟩ := hr
  by_cases hrc : rc = 0
  · subst hrc
    exact (hgood w hw s₁ hs₁).mono fun a s₂ ha => ⟨ha.1, fun _ => hall rfl⟩
  · exact (hbad rc w hrc s₁ hs₁).mono fun a s₂ ha => ⟨ha.1, fun hc => absurd hc ha.2⟩

theorem vfsWalkStop_fits {w : Walk} : Fits (vfsWalkStop w) fun _ => True := fits_vfsEntryPut

theorem resolve_fits (hs : NamesFit s) :
    PathFits (TooLong s p) (components p) (vfsResolvePath p) (fun r => r.1 ≠ none) s := by
  unfold vfsResolvePath
  rw [← bind_assoc]
  refine (walkPath_fits walkAll_fits hs).bind (fun w _ => ?_) fun rc w hrc => ?_
  · exact fits_vfsEntryGet.bind fun _ _ => fits_vfsEntryPut.bind fun _ _ => keeps_pure trivial
  · dsimp only
    rw [if_pos hrc]
    exact fits_vfsEntryPut.bind fun _ _ => keeps_pure fun hc => hc rfl

/-- A path that does not resolve gives an error code. -/
theorem yields_resolve : Yields (vfsResolvePath p) s fun r _ => r.1 = none → r.2 ≠ 0 := by
  unfold vfsResolvePath
  refine Yields.bind (yields_true fun w₀ _ => Yields.bind (yields_true fun ⟨rc, w⟩ _ => ?_))
  dsimp only
  by_cases hrc : rc = 0
  · rw [if_neg (not_not.2 hrc)]
    exact Yields.bind (yields_true fun _ _ => Yields.bind (yields_true fun _ _ => yields_pure nofun))
  · rw [if_pos hrc]
    exact Yields.bind (yields_true fun _ _ => yields_pure fun _ => hrc)

/-! ### Calls -/

theorem Walk.Ok.short {w : Walk} (hw : w.Ok) : w.next.length < maxPathLen := by
  by_cases hnil : w.next = []
  · rw [hnil]
    decide
  · exact (hw.named hnil).short

theorem fileOpen_fits (hs : NamesFit s) :
    PathFits (TooLong s p) (components p) (vfsFileOpen p create) (fun r => r.1 = 0) s := by
  unfold vfsFileOpen
  rw [← bind_assoc]
  refine (walkPath_fits walkParent_fits hs).bind (fun w hw => ?_) fun rc w hrc => ?_
  · refine fits_nodeOf.bind fun dir _ => keeps_get.bind fun s₂ _ => keeps_ite (fun _ => ?_) fun _ => ?_
    · exact vfsWalkStop_fits.bind fun _ _ => keeps_pure trivial
    · refine (fits_vfsLookup hw.short).bind fun ⟨o, rc₁⟩ _ => ?_
      dsimp only
      cases o with
      | none =>
        refine (keeps_pure trivial : Fits (pure rc₁) fun _ => True).bind fun rc₂ _ => ?_
        refine vfsWalkStop_fits.bind fun _ _ => ?_
        exact keeps_ite (fun _ => keeps_pure trivial) fun _ => keeps_throw nofun
      | some e =>
        have hstop : ∀ rc₂ : ℤ, Fits (do
            vfsWalkStop w
            if rc₂ ≠ 0 then return (rc₂, none)
            else do
              let _ ← nodeOf e
              return (0, some e)) fun _ => True := fun rc₂ => by
          refine vfsWalkStop_fits.bind fun _ _ => keeps_ite (fun _ => keeps_pure trivial) fun _ => ?_
          exact fits_nodeOf.bind fun _ _ => keeps_pure trivial
        refine keeps_get.bind fun s₃ _ => keeps_ite (fun _ => keeps_ite (fun _ => ?_) fun _ => ?_) fun _ => ?_
        · rw [pure_bind]
          exact hstop _
        · exact fits_ramfsCreateOps.bind fun _ _ => hstop _
        · rw [pure_bind]
          exact hstop _
  · dsimp only
    rw [if_pos hrc]
    exact vfsWalkStop_fits.bind fun _ _ => keeps_pure hrc

theorem mkdir_fits (hs : NamesFit s) :
    PathFits (TooLong s p) (components p) (vfsMkdir p) (fun rc => rc = 0) s := by
  unfold vfsMkdir
  rw [← bind_assoc]
  refine (walkPath_fits walkParent_fits hs).bind (fun w hw => ?_) fun rc w hrc => ?_
  · refine fits_nodeOf.bind fun dir _ => keeps_get.bind fun s₂ _ => keeps_ite (fun _ => ?_) fun _ => ?_
    · exact vfsWalkStop_fits.bind fun _ _ => keeps_pure trivial
    · refine (fits_vfsLookup hw.short).bind fun ⟨o, rc₁⟩ _ => ?_
      cases o with
      | none => exact vfsWalkStop_fits.bind fun _ _ => keeps_pure trivial
      | some e =>
        have hstop : ∀ rc₂ : ℤ, Fits (do vfsWalkStop w; vfsEntryPut e; return rc₂) fun _ => True := fun _ =>
          vfsWalkStop_fits.bind fun _ _ => fits_vfsEntryPut.bind fun _ _ => keeps_pure trivial
        refine keeps_get.bind fun s₃ _ => keeps_ite (fun _ => ?_) fun _ => ?_
        · rw [pure_bind]
          exact hstop _
        · exact fits_ramfsCreateOps.bind fun _ _ => hstop _
  · dsimp only
    rw [if_pos hrc]
    exact vfsWalkStop_fits.bind fun _ _ => keeps_pure hrc

theorem remove_fits {op : Nid → Eid → FsM ℤ} (hop : ∀ n e, Fits (op n e) fun _ => True) (hs : NamesFit s) :
    PathFits (TooLong s p) (components p) (vfsRemove op p) (fun rc => rc = 0) s := by
  have h := resolve_fits (p := p) hs
  unfold vfsRemove
  refine ⟨fun hlong => (h.long hlong).bind, fun hlong => ?_⟩
  rw [ensuresOr_bind]
  refine (h.short hlong).with_run.mono fun ⟨o, rc⟩ s₁ ⟨hrun, hs₁, hall⟩ => ?_
  cases o with
  | none => exact ensuresOr_pure.2 ⟨hs₁, fun h0 => absurd h0 (yields_resolve _ _ hrun rfl)⟩
  | some e =>
    suffices hfits : Fits _ fun _ => True from
      (hfits s₁ hs₁).mono fun r s₂ hs₂ => ⟨hs₂.1, fun _ => hall nofun⟩
    refine keeps_get.bind fun s₁ _ => fits_nodeOf.bind fun dir _ => keeps_get.bind fun s₂ _ => ?_
    refine keeps_ite (fun _ => ?_) fun _ => ?_
    · exact fits_vfsEntryPut.bind fun _ _ => keeps_pure trivial
    · exact (hop _ _).bind fun _ _ => fits_vfsEntryPut.bind fun _ _ => keeps_pure trivial

/-- The new path of `vfs_link` is walked when the old one is resolved. -/
theorem link_fits (hs : NamesFit s) :
    PathFits (TooLong s p ∨ Ensures (vfsResolvePath p) s fun r s' => r.1 ≠ none ∧ TooLong s' q)
      (components p ++ components q) (vfsLink p q) (fun rc => rc = 0) s := by
  have h := resolve_fits (p := p) hs
  unfold vfsLink
  constructor
  case long =>
    rintro (hlong | ⟨⟨o, rc⟩, s₁, hrun, hsome, hlong⟩)
    · exact (h.long hlong).bind
    · have hs₁ : NamesFit s₁ := by
        by_cases hp : TooLong s p
        · exact nomatch hrun.symm.trans (h.long hp)
        · exact ((h.short hp).of_run hrun).1
      cases o with
      | none => exact absurd rfl hsome
      | some e =>
        refine faults_bind_run hrun ?_
        dsimp only
        rw [← bind_assoc]
        exact ((walkPath_fits (p := q) walkParent_fits hs₁).long hlong).bind
  case short =>
    intro hlong
    rw [ensuresOr_bind]
    refine (h.short fun hp => hlong (Or.inl hp)).with_run.mono fun ⟨o, rc⟩ s₁ ⟨hrun, hs₁, hall⟩ => ?_
    cases o with
    | none => exact ensuresOr_pure.2 ⟨hs₁, fun h0 => absurd h0 (yields_resolve _ _ hrun rfl)⟩
    | some old =>
      have hq : ¬TooLong s₁ q := fun hq => hlong (Or.inr ⟨_, s₁, hrun, nofun, hq⟩)
      dsimp only
      rw [← bind_assoc]
      suffices hwalk : PathFits (TooLong s₁ q) (components q) _ (fun rc : ℤ => rc = 0) s₁ from
        (hwalk.short hq).mono fun rc s₂ hr => ⟨hr.1, fun h0 x hx =>
          (List.mem_append.1 hx).elim (hall nofun x) (hr.2 h0 x)⟩
      refine (walkPath_fits walkParent_fits hs₁).bind (fun w hw => ?_) fun rc w hrc => ?_
      · have hput : ∀ rc₁ : ℤ, Fits (do vfsWalkStop w; vfsEntryPut old; return rc₁) fun _ => True := fun _ =>
          vfsWalkStop_fits.bind fun _ _ => fits_vfsEntryPut.bind fun _ _ => keeps_pure trivial
        refine fits_nodeOf.bind fun dir _ => keeps_get.bind fun s₃ _ => keeps_ite (fun _ => hput _) fun _ => ?_
        refine (fits_vfsLookup hw.short).bind fun ⟨o, rc₁⟩ _ => ?_
        cases o with
        | none => exact hput _
        | some e =>
          have hstop : ∀ rc₂ : ℤ, Fits (do vfsWalkStop w; vfsEntryPut old; vfsEntryPut e; return rc₂) fun _ => True :=
            fun _ => vfsWalkStop_fits.bind fun _ _ => fits_vfsEntryPut.bind fun _ _ =>
              fits_vfsEntryPut.bind fun _ _ => keeps_pure trivial
          refine keeps_get.bind fun s₄ _ => keeps_ite (fun _ => ?_) fun _ => ?_
          · rw [pure_bind]
            exact hstop _
          · exact fits_ramfsLink.bind fun _ _ => hstop _
      · dsimp only
        rw [if_pos hrc]
        exact vfsWalkStop_fits.bind fun _ _ => fits_vfsEntryPut.bind fun _ _ => keeps_pure hrc

/-- A component of a path of the call is too long for the buffers, and those before it lead somewhere. The new path of
`vfs_link` is walked after the old one was resolved. -/
def Call.TooLong (s : Fs) : Call → Prop
  | .link p q => Vfs.TooLong s p ∨ Ensures (vfsResolvePath p) s fun r s' => r.1 ≠ none ∧ Vfs.TooLong s' q
  | c => ∃ p ∈ c.paths, Vfs.TooLong s p

theorem fits_vfsMount : Fits (vfsMount x) fun _ => True := by
  refine keeps_get.bind fun s hs => keeps_ite (fun _ => keeps_pure trivial) fun _ => ?_
  refine (keeps_set ?_).bind fun _ _ => keeps_ite (fun _ => ?_) fun _ => ?_
  · exact hs.of_names rfl rfl
  swap
  · exact fits_noMemory.bind fun _ _ => keeps_pure trivial
  refine fits_ramfsNodeCreate.bind fun o _ => ?_
  cases o with
  | none => exact keeps_pure trivial
  | some n => exact (keeps_modify fun s hs => hs.of_names rfl rfl).bind fun _ _ => keeps_pure trivial

theorem fits_vfsUmount : Fits (vfsUmount x) fun _ => True := by
  refine keeps_get.bind fun s hs => ?_
  cases s.mounts.lookup x with
  | none => exact keeps_pure trivial
  | some n =>
    refine (keeps_set ?_).bind fun _ _ => fits_vfsNodePut.bind fun _ _ => keeps_pure trivial
    exact hs.of_names rfl rfl

theorem fits_fileOf {files : List Eid} {r : ℤ × Option Eid} : Fits (fileOf files r) fun r' => r'.1.1 = r.1 := by
  unfold fileOf
  cases r.2 with
  | none => exact keeps_pure rfl
  | some e => exact keeps_get.bind fun _ _ => keeps_pure rfl

variable {c : Call} {files : List Eid}

theorem PathFits.bind {α β : Type} {P : Prop} {l : List Name} {m : FsM α} {f : α → FsM β}
    {ok : α → Prop} {ok' : β → Prop}
    (h : PathFits P l m ok s) (hf : ∀ a, Fits (f a) fun b => ok' b → ok a) : PathFits P l (m >>= f) ok' s := by
  refine ⟨fun hP => (h.long hP).bind, fun hP => ?_⟩
  rw [ensuresOr_bind]
  refine (h.short hP).mono fun a s₁ ⟨hs₁, hall⟩ => (hf a s₁ hs₁).mono fun r s₂ ⟨hs₂, hr⟩ => ⟨hs₂, ?_⟩
  exact fun hok => hall (hr hok)

theorem pathFits_of_fits {α : Type} {m : FsM α} {ok : α → Prop} (hm : Fits m fun _ => True) (hs : NamesFit s) :
    PathFits (∃ p ∈ ([] : List (List Char)), TooLong s p) [] m ok s :=
  ⟨fun ⟨_, hp, _⟩ => (nomatch hp), fun _ => (hm s hs).mono fun _ _ h => ⟨h.1, fun _ _ hx => nomatch hx⟩⟩

/-- A call with one path. -/
theorem PathFits.one {α : Type} {m : FsM α} {ok : α → Prop} (h : PathFits (TooLong s p) (components p) m ok s) :
    PathFits (∃ q ∈ [p], TooLong s q) ([p].flatMap components) m ok s := by
  simpa using h

/-- What a call does with its paths. -/
theorem call_fits (hs : NamesFit s) :
    PathFits (c.TooLong s) (c.paths.flatMap components) (vfsCall files c) (fun r => r.1.1 = 0) s := by
  cases c with
  | openFile p => exact ((fileOpen_fits hs).bind fun r => fits_fileOf.mono fun _ h => h ▸ id).one
  | createFile p => exact ((fileOpen_fits hs).bind fun r => fits_fileOf.mono fun _ h => h ▸ id).one
  | link p q =>
    rw [show (Call.link p q).paths.flatMap components = components p ++ components q by simp [Call.paths]]
    exact (link_fits hs).bind fun r => keeps_pure id
  | unlink p => exact ((remove_fits (fun _ _ => fits_ramfsUnlink) hs).bind fun r => keeps_pure id).one
  | mkdir p => exact ((mkdir_fits hs).bind fun r => keeps_pure id).one
  | rmdir p => exact ((remove_fits (fun _ _ => fits_ramfsRmdir) hs).bind fun r => keeps_pure id).one
  | release i =>
    refine pathFits_of_fits ?_ hs
    unfold vfsCall
    dsimp only
    cases files[i]? with
    | none => exact keeps_pure trivial
    | some e => exact fits_vfsEntryPut.bind fun _ _ => keeps_pure trivial
  | mount x => exact pathFits_of_fits (fits_vfsMount.bind fun _ _ => keeps_pure trivial) hs
  | umount x => exact pathFits_of_fits (fits_vfsUmount.bind fun _ _ => keeps_pure trivial) hs

theorem namesFit_setupVfs {entrySupply : ℕ → Option Eid} {nodeSupply : ℕ → Option Nid}
    {nameSupply mountSupply : ℕ → Bool} : NamesFit (setupVfs entrySupply nodeSupply nameSupply mountSupply) :=
  ⟨fun _ => show 0 < maxPathLen by decide, fun _ x hx => nomatch hx⟩

/-- In every run the names are in their buffers: a call that wrote past the end of one does not return here. -/
theorem VfsRun.namesFit {s₀ : Fs} {events : List Event} (h₀ : NamesFit s₀) (hrun : VfsRun s₀ events s files) :
    NamesFit s := by
  induction hrun with
  | start => exact h₀
  | @call events s s' files files' c r hrun hcall ih =>
    have h : PathFits (c.TooLong s) _ (vfsCall files c) _ s := call_fits ih
    have hshort : ¬c.TooLong s := fun hlong => nomatch hcall.symm.trans (h.long hlong)
    exact ((h.short hshort).of_run hcall).1

end

end Vfs

end Kernel64
