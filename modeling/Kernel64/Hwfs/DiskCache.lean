import Kernel64.Hwfs.DiskIo

/-!
# The block cache as an array of blocks

A client of the cache sees an array of blocks: what it reads from a block it holds is what the last
holder left there, or what was on the device. `Core` says how the cached blocks, the device and
that array hang together; a block taken out of the tree is written back first, a block put in is
read from the device.

A miss looks up the slot for the new block, then allocates memory for it, and allocation may take
the oldest unused block out of the tree. The slot is then used although the tree has changed.
`Undisturbed` is what makes this sound: the slot of the new block is the same without the evicted
one.
-/

namespace Kernel64

namespace Hwfs

open ColorTree Rb

variable {δ : Type}

/-! ### Running code on the tree -/

theorem ensures_onTree {α : Type} {m : RbM α} {s : DiskIo δ} {Q : α → DiskIo δ → Prop} :
    Ensures (onTree m) s Q ↔ Ensures m s.blocks fun a b => Q a { s with blocks := b } := by
  constructor
  · rintro ⟨a, s', hrun, hQ⟩
    rw [onTree] at hrun
    split at hrun
    · rename_i b r hm
      injection hrun with hrun
      obtain ⟨rfl, rfl⟩ := Prod.mk.inj hrun
      exact ⟨_, _, hm, hQ⟩
    · cases hrun
  · rintro ⟨a, b, hm, hQ⟩
    exact ⟨a, { s with blocks := b }, by rw [onTree, hm], hQ⟩

@[simp] theorem ensures_modifyBlock {p : Ptr} {f : DiskBlock δ → DiskBlock δ} {s : DiskIo δ}
    {Q : Unit → DiskIo δ → Prop} :
    Ensures (modifyBlock p f) s Q ↔
      Q () { s with block := Function.update s.block p (f (s.block p)) } :=
  ensures_modify

/-! ### What the cache stands for -/

/-- A cache and what its clients know: how many references each block has, and what the blocks
hold. -/
structure DiskRun (δ : Type) where
  io : DiskIo δ
  refs : Ptr → ℕ
  content : ℕ → δ

/-- The cached blocks are those of the tree `t`, sorted by number; the others are on the device. -/
structure Core (s : DiskIo δ) (refs : Ptr → ℕ) (content : ℕ → δ) (t : ColorTree Ptr) : Prop where
  repr : Represents s.blocks t
  redBlack : t.RedBlack
  sorted : t.inorder.Pairwise fun a b => (s.block a).blocknr < (s.block b).blocknr
  links : ∀ p ∈ t.inorder, (s.block p).links = refs p
  unused : ∀ p ∉ t.inorder, refs p = 0
  cached : ∀ p ∈ t.inorder, content (s.block p).blocknr = (s.block p).data
  stored : ∀ n, (∀ p ∈ t.inorder, (s.block p).blocknr ≠ n) → content n = s.device n

/-- The blocks nobody holds are on the list. -/
structure Listed (s : DiskIo δ) (t : ColorTree Ptr) : Prop where
  nodup : s.lru.Nodup
  mem_iff : ∀ p, p ∈ s.lru ↔ p ∈ t.inorder ∧ (s.block p).links = 0

/-- **The invariant of the cache.** -/
def DiskInv (σ : DiskRun δ) : Prop :=
  ∃ t, Core σ.io σ.refs σ.content t ∧ Listed σ.io t ∧ σ.io.blockCount = t.inorder.length

section

variable {s : DiskIo δ} {refs : Ptr → ℕ} {content : ℕ → δ} {t : ColorTree Ptr} {p : Ptr} {n : ℕ}
  {fuel threshold : ℕ} {env : DiskEnv}

theorem toBlock_eq_none {a : Ptr} : toBlock s n a = none ↔ (s.block a).blocknr = n := by
  unfold toBlock
  split_ifs with h₁ h₂ <;> simp [h₁]

theorem toBlock_eq_right {a : Ptr} : toBlock s n a = some .right ↔ (s.block a).blocknr < n := by
  unfold toBlock
  split_ifs with h₁ h₂
  · simp [h₁]
  · simp [h₂]
  · simp [h₂]

theorem toBlock_eq_left {a : Ptr} : toBlock s n a = some .left ↔ n < (s.block a).blocknr := by
  unfold toBlock
  split_ifs with h₁ h₂
  · simp [h₁]
  · simp [h₂.le]
  · simp only [true_iff]
    omega

/-- The search agrees with the order of the tree. -/
theorem Core.guided (h : Core s refs content t) (n : ℕ) : Guided (toBlock s n) t.inorder := by
  refine h.sorted.imp fun {a b} hab => ?_
  rw [toBlock_eq_right, toBlock_eq_right, toBlock_eq_left, toBlock_eq_left]
  exact ⟨hab.trans, fun h => h.trans hab⟩

/-- The slot `(parent, plink)` is where block `n` belongs in the tree. -/
def Belongs (s : DiskIo δ) (t : ColorTree Ptr) (n : ℕ) (parent : Ptr) (plink : Slot) : Prop :=
  ∃ path, t = plug path .nil ∧ parent = topPtr path ∧ plink = slotOf path ∧
    (∀ a ∈ TreePath.before path, (s.block a).blocknr < n) ∧
    ∀ a ∈ TreePath.after path, n < (s.block a).blocknr

/-- **Lookup** finds the block or the slot where it belongs. -/
theorem Core.ensures_search (h : Core s refs content t) (hfuel : t.inorder.length < fuel) (n : ℕ) :
    Ensures (searchTree (toBlock s n) fuel) s.blocks fun r b => b = s.blocks ∧
      ((∃ p, r = .hit p ∧ p ∈ t.inorder ∧ (s.block p).blocknr = n) ∨
        ∃ parent plink, r = .missing parent plink ∧ Belongs s t n parent plink) := by
  refine (ensures_searchTree h.repr hfuel (h.guided n)).mono ?_
  rintro r b ⟨rfl, ⟨p, rfl, hp, hgo⟩ | ⟨path, hpath, rfl, hbefore, hafter⟩⟩
  · exact ⟨rfl, Or.inl ⟨p, rfl, hp, toBlock_eq_none.mp hgo⟩⟩
  · exact ⟨rfl, Or.inr ⟨_, _, rfl, path, hpath, rfl, rfl,
      fun a ha => toBlock_eq_right.mp (hbefore a ha), fun a ha => toBlock_eq_left.mp (hafter a ha)⟩⟩

/-- A block whose slot was found is not cached. -/
theorem Belongs.not_cached {parent : Ptr} {plink : Slot} (h : Belongs s t n parent plink) :
    ∀ p ∈ t.inorder, (s.block p).blocknr ≠ n := by
  obtain ⟨path, rfl, -, -, hbefore, hafter⟩ := h
  intro p hp
  rw [inorder_plug, inorder_nil, List.append_nil] at hp
  rcases List.mem_append.mp hp with hp | hp
  · exact (hbefore p hp).ne
  · exact (hafter p hp).ne'

/-! ### Taking a block out -/

/-- The state after a block was written back and taken out of the tree. -/
def evicted (s : DiskIo δ) (p : Ptr) (b : RbState) : DiskIo δ :=
  { s with
    device := Function.update s.device (s.block p).blocknr (s.block p).data
    blocks := b }

/-- **Write-back.** Taking an unused block out of the tree keeps what the cache stands for. -/
theorem Core.ensures_evict (h : Core s refs content t) (hp : p ∈ t.inorder) (hrefs : refs p = 0)
    (hfuel : t.inorder.length < fuel) :
    Ensures (rbErase fuel p) s.blocks fun _ b => ∃ t', t'.inorder = t.inorder.erase p ∧
      Core (evicted s p b) refs content t' := by
  have hnd := h.repr.nodup
  refine (ensures_rbErase h.repr h.redBlack hp hfuel).mono ?_
  rintro - b ⟨t', hrep, hrb, hin, -⟩
  have hmem : ∀ q, q ∈ t'.inorder ↔ q ≠ p ∧ q ∈ t.inorder := fun q => by
    rw [hin, hnd.mem_erase_iff]
  refine ⟨t', hin, hrep, hrb, ?_, fun q hq => h.links q ((hmem q).mp hq).2, fun q hq => ?_,
    fun q hq => h.cached q ((hmem q).mp hq).2, fun m hm => ?_⟩
  · rw [hin]
    exact List.Pairwise.sublist List.erase_sublist h.sorted
  · by_cases hqp : q = p
    · rw [hqp, hrefs]
    · exact h.unused q fun hq' => hq ((hmem q).mpr ⟨hqp, hq'⟩)
  · by_cases hmp : m = (s.block p).blocknr
    · subst hmp
      simp only [evicted, Function.update_self]
      exact h.cached p hp
    · simp only [evicted, Function.update_of_ne hmp]
      refine h.stored m fun q hq => ?_
      by_cases hqp : q = p
      · rw [hqp]
        exact Ne.symm hmp
      · exact hm q ((hmem q).mpr ⟨hqp, hq⟩)

/-! ### Putting a block in -/

/-- The block `p` as a miss on `n` fills it. -/
def filled (s : DiskIo δ) (p : Ptr) (n : ℕ) : DiskBlock δ :=
  { s.block p with blocknr := n, links := 1, data := s.device n }

@[simp] theorem filled_blocknr : (filled s p n).blocknr = n := rfl

@[simp] theorem filled_data : (filled s p n).data = s.device n := rfl

/-- **Read-in.** A block put in its slot keeps what the cache stands for. -/
theorem Core.ensures_insert (h : Core s refs content t) {parent : Ptr} {plink : Slot}
    (hb : Belongs s t n parent plink) (hp : NodeAddr p) (hfresh : p ∉ t.inorder)
    (hfuel : t.inorder.length < fuel) :
    Ensures (do rbLink p parent plink; rbInsert fuel p) s.blocks fun _ b =>
      ∃ t' : ColorTree Ptr, (∀ q, q ∈ t'.inorder ↔ q = p ∨ q ∈ t.inorder) ∧
        t'.inorder.length = t.inorder.length + 1 ∧
        Core { s with blocks := b, block := Function.update s.block p (filled s p n) }
          (Function.update refs p 1) content t' := by
  have hmiss := hb.not_cached
  obtain ⟨path, rfl, rfl, rfl, hbefore, hafter⟩ := hb
  have hsorted := h.sorted
  have hin : (plug path .nil : ColorTree Ptr).inorder
      = TreePath.before path ++ TreePath.after path := by
    rw [inorder_plug, inorder_nil, List.append_nil]
  rw [hin] at hsorted
  refine (ensures_rbLink_rbInsert h.repr h.redBlack hp hfresh hfuel).mono ?_
  rintro - b ⟨t', hrep, hrb, hin', -⟩
  have hmem : ∀ q, q ∈ t'.inorder ↔ q = p ∨ q ∈ (plug path .nil : ColorTree Ptr).inorder :=
    fun q => by
      rw [hin', hin, List.mem_append, List.mem_cons, List.mem_append]
      tauto
  -- the other blocks are as they were
  have hother : ∀ q ∈ (plug path .nil : ColorTree Ptr).inorder,
      Function.update s.block p (filled s p n) q = s.block q := fun q hq =>
    Function.update_of_ne (ne_of_mem_of_not_mem hq hfresh) ..
  have hotherRefs : ∀ q ∈ (plug path .nil : ColorTree Ptr).inorder,
      Function.update refs p 1 q = refs q := fun q hq =>
    Function.update_of_ne (ne_of_mem_of_not_mem hq hfresh) ..
  have hself : Function.update s.block p (filled s p n) p = filled s p n :=
    Function.update_self ..
  have hpb : ∀ q ∈ TreePath.before path, Function.update s.block p (filled s p n) q = s.block q :=
    fun q hq => hother q (hin ▸ List.mem_append_left _ hq)
  have hpa : ∀ q ∈ TreePath.after path, Function.update s.block p (filled s p n) q = s.block q :=
    fun q hq => hother q (hin ▸ List.mem_append_right _ hq)
  refine ⟨t', hmem, ?_, hrep, hrb, ?_, fun q hq => ?_, fun q hq => ?_, fun q hq => ?_,
    fun m hm => ?_⟩
  · rw [hin', hin, List.length_append, List.length_cons, List.length_append]
    omega
  · obtain ⟨hsb, hsa, hsba⟩ := List.pairwise_append.mp hsorted
    rw [hin']
    refine List.pairwise_append.mpr ⟨hsb.imp_of_mem fun ha hb hab => ?_,
      List.pairwise_cons.mpr ⟨fun a ha => ?_, hsa.imp_of_mem fun ha hb hab => ?_⟩,
      fun a ha c hc => ?_⟩
    · simpa only [hpb _ ha, hpb _ hb] using hab
    · simpa only [hself, hpa a ha, filled_blocknr] using hafter a ha
    · simpa only [hpa _ ha, hpa _ hb] using hab
    · rcases List.mem_cons.mp hc with rfl | hc
      · simpa only [hself, hpb a ha, filled_blocknr] using hbefore a ha
      · simpa only [hpb a ha, hpa c hc] using hsba a ha c hc
  · rcases (hmem q).mp hq with rfl | hq
    · simp [filled]
    · simp only [hother q hq, hotherRefs q hq]
      exact h.links q hq
  · rw [hmem, not_or] at hq
    rw [Function.update_of_ne hq.1]
    exact h.unused q hq.2
  · rcases (hmem q).mp hq with rfl | hq
    · simpa only [hself, filled_blocknr, filled_data] using h.stored n hmiss
    · simp only [hother q hq]
      exact h.cached q hq
  · refine h.stored m fun q hq => ?_
    have := hm q ((hmem q).mpr (Or.inr hq))
    simpa only [hother q hq] using this

/-! ### Allocation -/

/-- The block is in the tree. -/
def Cached (s : DiskIo δ) (p : Ptr) : Prop :=
  ∃ t, Represents s.blocks t ∧ p ∈ t.inorder

/-- The system calls behave: the device can be read and written, and `malloc` returns, sooner or
later, memory that is not in use. -/
structure Works (fuel : ℕ) (env : DiskEnv) (s : DiskIo δ) : Prop where
  write : ∀ i, env.write i = true
  read : env.read = true
  fresh : ∀ i p, env.malloc i = some p → NodeAddr p ∧ ¬ Cached s p
  served : ∃ i < fuel, env.malloc i ≠ none

/-- A miss takes a block off the list of unused ones. -/
def Evicts (threshold : ℕ) (env : DiskEnv) (s : DiskIo δ) : Prop :=
  s.lru ≠ [] ∧ (threshold ≤ s.blockCount ∨ env.malloc 0 = none)

/-- The slot where block `n` belongs is the same in the tree without the oldest unused block. -/
def Undisturbed (fuel : ℕ) (s : DiskIo δ) (n : ℕ) : Prop :=
  ∀ v l b parent plink, s.lru = v :: l → rbErase fuel v s.blocks = .ok ((), b) →
    searchTree (toBlock s n) fuel s.blocks = .ok (.missing parent plink, s.blocks) →
      searchTree (toBlock s n) fuel b = .ok (.missing parent plink, b)

/-- Memory for a block was found, and its slot is still where it belongs. -/
structure Ready (fuel : ℕ) (refs : Ptr → ℕ) (content : ℕ → δ) (n : ℕ) (parent : Ptr)
    (plink : Slot) (p : Ptr) (s' : DiskIo δ) (t' : ColorTree Ptr) : Prop where
  core : Core s' refs content t'
  fuel_lt : t'.inorder.length < fuel
  listed : Listed s' t'
  count : s'.blockCount = t'.inorder.length + 1
  addr : NodeAddr p
  fresh : p ∉ t'.inorder
  belongs : Belongs s' t' n parent plink

theorem Listed.refs_eq_zero (h : Core s refs content t) (hl : Listed s t) (hp : p ∈ s.lru) :
    p ∈ t.inorder ∧ refs p = 0 := by
  obtain ⟨hmem, hlinks⟩ := (hl.mem_iff p).mp hp
  have hrefs := h.links p hmem
  rw [hlinks] at hrefs
  exact ⟨hmem, by exact_mod_cast hrefs.symm⟩

/-- An unused block is taken for the new one. -/
theorem ensures_diskAllocCachedBlock (h : Core s refs content t) (hl : Listed s t)
    (hcount : s.blockCount = t.inorder.length) (hfuel : t.inorder.length < fuel) {parent : Ptr}
    {plink : Slot} (hfound : searchTree (toBlock s n) fuel s.blocks
      = .ok (.missing parent plink, s.blocks)) (hun : Undisturbed fuel s n) (hne : s.lru ≠ []) :
    Ensures (diskAllocCachedBlock fuel true) s fun p s' =>
      ∃ t', Ready fuel refs content n parent plink p s' t' := by
  obtain ⟨v, l, hlru⟩ := List.exists_cons_of_ne_nil hne
  have hv : v ∈ s.lru := by simp [hlru]
  obtain ⟨hmem, hrefs⟩ := hl.refs_eq_zero h hv
  have hnd := h.repr.nodup
  have haddr : NodeAddr v := by
    obtain ⟨path, c, u, r, rfl⟩ := exists_plug_of_mem hmem
    exact (Represents.focus (d := .left) h.repr).1
  simp only [diskAllocCachedBlock, writeBlock, ensures_bind, ensures_get, hlru, if_true,
    ensures_modify, ensures_onTree, ensures_pure]
  obtain ⟨_, b, hrun, t', hin, hcore⟩ := h.ensures_evict hmem hrefs hfuel
  refine ⟨_, b, hrun, t', ?_⟩
  have hmem' : ∀ q, q ∈ t'.inorder ↔ q ≠ v ∧ q ∈ t.inorder := fun q => by
    rw [hin, hnd.mem_erase_iff]
  have hlen : t.inorder.length = t'.inorder.length + 1 := by
    rw [hin, List.length_erase_of_mem hmem]
    have := List.length_pos_of_mem hmem
    omega
  -- the search in the smaller tree ends at the same slot
  have hagain := hun v l b parent plink hlru hrun hfound
  have hsearch := (hcore.ensures_search (by omega) n).of_run hagain
  have hbelongs : Belongs (evicted s v b) t' n parent plink := by
    obtain ⟨-, ⟨p, hp, -⟩ | ⟨parent', plink', hr, hb⟩⟩ := hsearch
    · cases hp
    · cases hr
      exact hb
  refine ⟨⟨hcore.repr, hcore.redBlack, hcore.sorted, hcore.links, hcore.unused, hcore.cached,
    hcore.stored⟩, by omega, ⟨?_, fun q => ?_⟩, ?_, haddr, fun hv' => ((hmem' v).mp hv').1 rfl, hbelongs⟩
  · rw [← hlru]
    exact hl.nodup.erase v
  · rw [← hlru]
    simp only [hl.nodup.mem_erase_iff, hl.mem_iff, hmem']
    tauto
  · exact hcount.trans hlen

/-- With no unused block, memory comes from `malloc`. -/
theorem ensures_allocLoop_empty (hlru : s.lru = []) {m i : ℕ}
    (hserved : ∃ j, i ≤ j ∧ j < i + m ∧ env.malloc j ≠ none) :
    Ensures (allocLoop fuel env m i) s fun p s' => (∃ j, env.malloc j = some p) ∧
      s' = { s with blockCount := s.blockCount + 1 } := by
  induction m generalizing i with
  | zero =>
    obtain ⟨j, h₁, h₂, -⟩ := hserved
    omega
  | succ m ih =>
    rw [allocLoop]
    cases hi : env.malloc i with
    | some p =>
      simp only [ensures_bind, ensures_modify, ensures_pure, and_true]
      exact ⟨i, hi⟩
    | none =>
      simp only [diskAllocCachedBlock, ensures_bind, ensures_get, hlru, ensures_pure, ne_eq,
        not_true_eq_false, if_false]
      obtain ⟨j, h₁, h₂, hj⟩ := hserved
      have hne : i ≠ j := fun heq => hj (heq ▸ hi)
      simpa only [hlru] using ih (i := i + 1) ⟨j, by omega, by omega, hj⟩

/-- Memory from `malloc` is ready for the new block. -/
theorem Ready.of_malloc (h : Core s refs content t) (hl : Listed s t)
    (hcount : s.blockCount = t.inorder.length) (hfuel : t.inorder.length < fuel) (hw : Works fuel env s) {parent : Ptr}
    {plink : Slot} (hb : Belongs s t n parent plink) {i : ℕ} (hp : env.malloc i = some p) :
    Ready fuel refs content n parent plink p { s with blockCount := s.blockCount + 1 } t := by
  obtain ⟨haddr, hfresh⟩ := hw.fresh i p hp
  exact ⟨⟨h.repr, h.redBlack, h.sorted, h.links, h.unused, h.cached, h.stored⟩, hfuel,
    ⟨hl.nodup, hl.mem_iff⟩, congrArg (· + 1) hcount, haddr, fun hmem => hfresh ⟨t, h.repr, hmem⟩, hb⟩

/-- **Allocation** of memory for a block that is not cached. -/
theorem ensures_diskAllocBlock (h : Core s refs content t) (hl : Listed s t)
    (hcount : s.blockCount = t.inorder.length) (hfuel : t.inorder.length < fuel)
    (hw : Works fuel env s) {parent : Ptr} {plink : Slot}
    (hfound : searchTree (toBlock s n) fuel s.blocks = .ok (.missing parent plink, s.blocks))
    (hun : Evicts threshold env s → Undisturbed fuel s n) (hb : Belongs s t n parent plink) :
    Ensures (diskAllocBlock fuel threshold env) s fun p s' =>
      ∃ t', Ready fuel refs content n parent plink p s' t' := by
  obtain ⟨i, hi, hserved⟩ := hw.served
  -- the loop, reached with the cache as it was
  have hloop : (s.lru ≠ [] → env.malloc 0 = none → Undisturbed fuel s n) →
      Ensures (allocLoop fuel env fuel 0) s fun p s' =>
        ∃ t', Ready fuel refs content n parent plink p s' t' := by
    intro hun
    by_cases hlru : s.lru = []
    · refine (ensures_allocLoop_empty hlru ⟨i, Nat.zero_le i, by omega, hserved⟩).mono ?_
      rintro p s' ⟨⟨j, hj⟩, rfl⟩
      exact ⟨t, .of_malloc h hl hcount hfuel hw hb hj⟩
    · obtain ⟨m, rfl⟩ : ∃ m, fuel = m + 1 := ⟨fuel - 1, by omega⟩
      rw [allocLoop]
      cases h0 : env.malloc 0 with
      | some p =>
        simp only [ensures_bind, ensures_modify, ensures_pure]
        exact ⟨t, .of_malloc h hl hcount hfuel hw hb h0⟩
      | none =>
        simp only [ensures_bind, hw.write]
        refine (ensures_diskAllocCachedBlock h hl hcount hfuel hfound (hun hlru h0) hlru).mono ?_
        rintro p s' ⟨t', hr⟩
        rw [if_pos hr.addr.1, ensures_pure]
        exact ⟨t', hr⟩
  simp only [diskAllocBlock, tryEvict, ensures_bind, ensures_get]
  by_cases hover : threshold ≤ s.blockCount
  · simp only [ge_iff_le, hover, if_true, hw.write]
    by_cases hlru : s.lru = []
    · simp only [diskAllocCachedBlock, ensures_bind, ensures_get, hlru, ensures_pure, ne_eq,
        not_true_eq_false, if_false]
      exact hloop fun hne => absurd hlru hne
    · have hun' := hun ⟨hlru, Or.inl hover⟩
      refine (ensures_diskAllocCachedBlock h hl hcount hfuel hfound hun' hlru).mono ?_
      rintro p s' ⟨t', hr⟩
      rw [if_pos hr.addr.1, ensures_pure]
      exact ⟨t', hr⟩
  · simp only [ge_iff_le, hover, if_false, ensures_pure, ne_eq, not_true_eq_false]
    exact hloop fun hne h0 => hun ⟨hne, Or.inr h0⟩

/-! ### The operations -/

/-- The invariant only depends on the counters through `links`. -/
theorem Core.relink (h : Core s refs content t) (hp : p ∈ t.inorder) {k : ℕ} {x : ℤ}
    (hx : x = k) :
    Core { s with block := Function.update s.block p { s.block p with links := x } }
      (Function.update refs p k) content t := by
  have hnr : ∀ q, (Function.update s.block p { s.block p with links := x } q).blocknr
      = (s.block q).blocknr := fun q => by
    by_cases hq : q = p
    · subst hq
      rw [Function.update_self]
    · rw [Function.update_of_ne hq]
  have hdata : ∀ q, (Function.update s.block p { s.block p with links := x } q).data
      = (s.block q).data := fun q => by
    by_cases hq : q = p
    · subst hq
      rw [Function.update_self]
    · rw [Function.update_of_ne hq]
  refine ⟨h.repr, h.redBlack, ?_, fun q hq => ?_, fun q hq => ?_, fun q hq => ?_, fun m hm => ?_⟩
  · simpa only [hnr] using h.sorted
  · by_cases hqp : q = p
    · subst hqp
      simp [hx]
    · simp only [Function.update_of_ne hqp]
      exact h.links q hq
  · have hne : q ≠ p := fun heq => hq (heq ▸ hp)
    rw [Function.update_of_ne hne]
    exact h.unused q hq
  · simpa only [hnr, hdata] using h.cached q hq
  · exact h.stored m fun q hq => by simpa only [hnr] using hm q hq

/-- A get call returned the block `p` for the number `n`. -/
structure Got (σ : DiskRun δ) (n : ℕ) (p : Ptr) (s' : DiskIo δ) : Prop where
  inv : DiskInv ⟨s', Function.update σ.refs p (σ.refs p + 1), σ.content⟩
  blocknr : (s'.block p).blocknr = n
  data : (s'.block p).data = σ.content n

theorem ensures_takeCached (h : Core s refs content t) (hl : Listed s t)
    (hcount : s.blockCount = t.inorder.length) (hp : p ∈ t.inorder) :
    Ensures (takeCached p) s fun r s' => r = p ∧ Got ⟨s, refs, content⟩ (s.block p).blocknr p s' := by
  have hlinks := h.links p hp
  have hcore := h.relink hp (k := refs p + 1) (x := (s.block p).links + 1) (by rw [hlinks]; simp)
  simp only [takeCached, ensures_bind, ensures_modifyBlock, ensures_get, ensures_ite,
    ensures_modify, ensures_pure, Function.update_self, true_and]
  -- the block leaves the list exactly when it was unused
  refine ⟨fun hone => ⟨⟨t, ⟨hcore.repr, hcore.redBlack, hcore.sorted, hcore.links, hcore.unused,
      hcore.cached, hcore.stored⟩, ⟨hl.nodup.erase p, fun q => ?_⟩, hcount⟩, ?_, ?_⟩,
    fun hone => ⟨⟨t, hcore, ⟨hl.nodup, fun q => ?_⟩, hcount⟩, ?_, ?_⟩⟩
  · by_cases hqp : q = p
    · subst hqp
      simp only [hl.nodup.mem_erase_iff, Function.update_self, hone]
      simp
    · simp only [hl.nodup.mem_erase_iff, Function.update_of_ne hqp, hl.mem_iff]
      tauto
  · simp
  · simpa using (h.cached p hp).symm
  · by_cases hqp : q = p
    · subst hqp
      simp only [hl.mem_iff, Function.update_self]
      omega
    · simp only [Function.update_of_ne hqp, hl.mem_iff]
  · simp
  · simpa using (h.cached p hp).symm

theorem ensures_loadBlock (h : Core s refs content t) (hl : Listed s t)
    (hcount : s.blockCount = t.inorder.length) (hfuel : t.inorder.length < fuel)
    (hw : Works fuel env s) {parent : Ptr} {plink : Slot}
    (hfound : searchTree (toBlock s n) fuel s.blocks = .ok (.missing parent plink, s.blocks))
    (hun : Evicts threshold env s → Undisturbed fuel s n) (hb : Belongs s t n parent plink) :
    Ensures (loadBlock fuel threshold env n parent plink) s fun p s' =>
      Got ⟨s, refs, content⟩ n p s' := by
  rw [loadBlock, ensures_bind]
  refine (ensures_diskAllocBlock h hl hcount hfuel hw hfound hun hb).mono ?_
  rintro p s₁ ⟨t', hr⟩
  have hrefs : refs p = 0 := hr.core.unused p hr.fresh
  simp only [readBlock, ensures_bind, ensures_modifyBlock, hw.read, if_true, ensures_modify,
    ensures_onTree, ensures_pure, Function.update_self, Function.update_idem]
  have hins := hr.core.ensures_insert hr.belongs hr.addr hr.fresh hr.fuel_lt
  rw [ensures_bind] at hins
  refine hins.mono fun _ b₁ h₁ => h₁.mono ?_
  rintro - b ⟨t'', hmem, hlen, hcore⟩
  refine ⟨⟨t'', ?_, ⟨hr.listed.nodup, fun q => ?_⟩, ?_⟩, ?_, ?_⟩
  · simp only [hrefs]
    exact hcore
  · by_cases hqp : q = p
    · subst hqp
      have hout : q ∉ s₁.lru := fun hq => hr.fresh ((hr.listed.mem_iff q).mp hq).1
      simp [hout]
    · simp only [Function.update_of_ne hqp, hr.listed.mem_iff, hmem, hqp, false_or]
  · exact hr.count.trans hlen.symm
  · simp
  · simpa using (hr.core.stored n hr.belongs.not_cached).symm

/-- **Get.** The call returns the block asked for, with what its last holder left in it. -/
theorem ensures_diskGetBlock {σ : DiskRun δ} (h : DiskInv σ) (hfuel : σ.io.blockCount < fuel)
    (hw : Works fuel env σ.io) (n : ℕ)
    (hun : Evicts threshold env σ.io → Undisturbed fuel σ.io n) :
    Ensures (diskGetBlock fuel threshold env n) σ.io fun p s' => Got σ n p s' := by
  obtain ⟨t, hcore, hl, hcount⟩ := h
  rw [hcount] at hfuel
  simp only [diskGetBlock, findBlock, ensures_bind, ensures_get, ensures_onTree]
  obtain ⟨r, b, hrun, rfl, ⟨p, rfl, hp, rfl⟩ | ⟨parent, plink, rfl, hb⟩⟩ :=
    hcore.ensures_search hfuel n
  · refine ⟨_, _, hrun, (ensures_takeCached hcore hl hcount hp).mono ?_⟩
    rintro _ s' ⟨rfl, hgot⟩
    exact hgot
  · exact ⟨_, _, hrun, ensures_loadBlock hcore hl hcount hfuel hw hrun hun hb⟩

/-- A block somebody holds is in the tree. -/
theorem Core.held (h : Core s refs content t) (hp : 0 < refs p) : p ∈ t.inorder ∧ p ≠ 0#64 := by
  have hmem : p ∈ t.inorder := by
    by_contra hout
    have := h.unused p hout
    omega
  obtain ⟨path, c, u, r, rfl⟩ := exists_plug_of_mem hmem
  exact ⟨hmem, (Represents.focus (d := .left) h.repr).1.1⟩

/-- **Ref.** -/
theorem ensures_diskRefBlock {σ : DiskRun δ} (h : DiskInv σ) (hp : 0 < σ.refs p) :
    Ensures (diskRefBlock p) σ.io fun _ s' =>
      DiskInv ⟨s', Function.update σ.refs p (σ.refs p + 1), σ.content⟩ := by
  obtain ⟨t, hcore, hl, hcount⟩ := h
  obtain ⟨hmem, haddr⟩ := hcore.held hp
  have hlinks := hcore.links p hmem
  simp only [diskRefBlock, ne_eq, haddr, not_false_eq_true, if_true, ensures_bind,
    ensures_modifyBlock, ensures_pure]
  refine ⟨t, hcore.relink hmem (by rw [hlinks]; simp), ⟨hl.nodup, fun q => ?_⟩, hcount⟩
  by_cases hqp : q = p
  · subst hqp
    simp only [hl.mem_iff, Function.update_self]
    omega
  · simp only [Function.update_of_ne hqp, hl.mem_iff]

/-- **Put.** -/
theorem ensures_diskPutBlock {σ : DiskRun δ} (h : DiskInv σ) (hfuel : σ.io.blockCount < fuel)
    (hp : 0 < σ.refs p) :
    Ensures (diskPutBlock fuel threshold true p) σ.io fun _ s' =>
      DiskInv ⟨s', Function.update σ.refs p (σ.refs p - 1), σ.content⟩ := by
  obtain ⟨t, hcore, hl, hcount⟩ := h
  rw [hcount] at hfuel
  obtain ⟨hmem, haddr⟩ := hcore.held hp
  have hlinks := hcore.links p hmem
  have hcore' := hcore.relink hmem (k := σ.refs p - 1) (x := (σ.io.block p).links - 1)
    (by rw [hlinks]; omega)
  have hout : p ∉ σ.io.lru := fun hin => by
    have := ((hl.mem_iff p).mp hin).2
    omega
  simp only [diskPutBlock, haddr, if_false, ensures_bind, ensures_modifyBlock, ensures_get,
    ensures_ite, Function.update_self, ensures_pure]
  refine ⟨fun hzero => ?_, fun hzero => ⟨t, hcore', ⟨hl.nodup, fun q => ?_⟩, hcount⟩⟩
  · have hrefs : σ.refs p - 1 = 0 := by omega
    simp only [releaseBlock, ensures_bind, ensures_get, ensures_ite, and_true]
    refine ⟨fun hover => ?_, fun hover => ?_⟩
    · -- over the threshold: the block is written back and dropped
      simp only [writeBlock, diskDropBlock, ensures_modify, ensures_onTree]
      refine (hcore'.ensures_evict hmem (by simp [hrefs]) hfuel).mono ?_
      rintro - b ⟨t', hin, hev⟩
      have hmem' : ∀ q, q ∈ t'.inorder ↔ q ≠ p ∧ q ∈ t.inorder := fun q => by
        rw [hin, hcore.repr.nodup.mem_erase_iff]
      refine ⟨t', ⟨hev.repr, hev.redBlack, hev.sorted, hev.links, hev.unused, hev.cached,
        hev.stored⟩, ⟨hl.nodup, fun q => ?_⟩, ?_⟩
      · by_cases hqp : q = p
        · subst hqp
          simp [hout, hmem']
        · simp only [Function.update_of_ne hqp, hl.mem_iff, hmem', ne_eq, hqp, not_false_eq_true,
            true_and]
      · rw [hin, List.length_erase_of_mem hmem, ← hcount]
    · simp only [ensures_modify]
      refine ⟨t, ⟨hcore'.repr, hcore'.redBlack, hcore'.sorted, hcore'.links, hcore'.unused,
        hcore'.cached, hcore'.stored⟩, ⟨?_, fun q => ?_⟩, hcount⟩
      · exact List.nodup_append.mpr ⟨hl.nodup, by simp, fun a ha b hb hab =>
          hout (by rw [← List.mem_singleton.mp hb, ← hab]; exact ha)⟩
      · by_cases hqp : q = p
        · subst hqp
          simp [hmem, hzero]
        · simp only [List.mem_append, List.mem_singleton, hqp, or_false,
            Function.update_of_ne hqp, hl.mem_iff]
  · by_cases hqp : q = p
    · subst hqp
      simp only [hout, Function.update_self, hzero, and_false]
    · simp only [Function.update_of_ne hqp, hl.mem_iff]

end

end Hwfs

end Kernel64
