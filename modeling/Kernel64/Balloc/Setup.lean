import Kernel64.Balloc.Runs

/-!
# Setting up the memory

`setup_memory` adds all entries of the memory map, the kernel and the initrd, and then takes out what
is not available. That is right as long as the ranges it takes out do not overlap: each of them then
still lies in one free area when its turn comes.
-/

namespace Kernel64

namespace Balloc

/-- A range of addresses. -/
structure Range where
  addr : ℕ
  size : ℕ

/-- The address is in the range. -/
def Range.Has (r : Range) (x : ℕ) : Prop := r.addr ≤ x ∧ x < r.addr + r.size

/-- The range of an entry. -/
def MmapEntry.range (e : MmapEntry) : Range := ⟨e.addr, e.length⟩

/-- A boot memory map with the ranges of the kernel and of the initrd. -/
structure BootMap where
  memoryMap : List MmapEntry
  kernelBegin : ℕ
  kernelEnd : ℕ
  initrdBegin : ℕ
  initrdEnd : ℕ

namespace BootMap

/-- The range of the kernel. -/
def kernel (b : BootMap) : Range := ⟨b.kernelBegin, b.kernelEnd - b.kernelBegin⟩

/-- The range of the initrd. -/
def initrd (b : BootMap) : Range := ⟨b.initrdBegin, b.initrdEnd - b.initrdBegin⟩

/-- The memory map that the kernel can be given. -/
structure Ok (b : BootMap) : Prop where
  count : b.memoryMap.length ≤ 20
  entry : ∀ e ∈ b.memoryMap, 0 < e.length ∧ e.addr < 2 ^ 64 ∧ e.length < 2 ^ 64 ∧
    e.addr + e.length ≤ 2 ^ 64
  kernel : b.kernelBegin < b.kernelEnd ∧ b.kernelEnd < 2 ^ 64
  initrd : b.initrdBegin < b.initrdEnd ∧ b.initrdEnd < 2 ^ 64

/-- The ranges that `setup_memory` reserves, in its order. -/
def reserved (b : BootMap) : List Range :=
  (b.memoryMap.filter fun e => !e.available).map MmapEntry.range ++ [b.kernel, b.initrd]

/-- The addresses that should be free. -/
def Free (b : BootMap) (x : ℕ) : Prop :=
  ((∃ e ∈ b.memoryMap, e.range.Has x) ∨ b.kernel.Has x ∨ b.initrd.Has x) ∧
    (∀ e ∈ b.memoryMap, e.available = false → ¬e.range.Has x) ∧ ¬b.kernel.Has x ∧ ¬b.initrd.Has x

end BootMap

/-- A pool of disjoint areas in order that covers exactly some addresses. -/
structure Pool.Exactly (p : Pool) (S : ℕ → Prop) : Prop where
  area : ∀ i < p.size, 0 < (p.areas i).size ∧ (p.areas i).fin ≤ 2 ^ 64
  sorted : ∀ i j, i < j → j < p.size → (p.areas i).fin ≤ (p.areas j).addr
  covers : ∀ x, p.Covers x ↔ S x

section

variable {s s' : Pools} {p p' : Pool} {addr size n : ℕ} {l : List MmapEntry} {b : BootMap}

theorem PoolOk.exactly (h : PoolOk p) {S : ℕ → Prop} (hS : ∀ x, p.Covers x ↔ S x) :
    p.Exactly S :=
  ⟨fun i hi => ⟨(h.area i hi).pos, Nat.le_of_lt (h.area i hi).lt⟩,
    fun i j hij hj => Nat.le_of_lt (h.gap i j hij hj), hS⟩

/-- A range whose addresses are all covered lies in one area, since there are gaps between areas. -/
theorem PoolOk.contains (h : PoolOk p) (hpos : 0 < size)
    (hcov : ∀ x, addr ≤ x → x < addr + size → p.Covers x) : p.Contains addr size := by
  obtain ⟨i, hi, haddr, hlt⟩ := hcov addr (Nat.le_refl _) (by omega)
  refine ⟨i, hi, haddr, ?_⟩
  by_contra hc
  obtain ⟨j, hj, hj₁, hj₂⟩ := hcov (p.areas i).fin (by omega) (by omega)
  rcases lt_trichotomy i j with hij | rfl | hij
  · have := h.gap i j hij hj
    omega
  · omega
  · have := h.gap j i hij hi
    omega

/-! ### Adding -/

/-- Both pools are in order, with at most `n` areas. -/
structure Small (n : ℕ) (s : Pools) : Prop where
  all : PoolOk s.all
  free : PoolOk s.free
  all_size : s.all.size ≤ n
  free_size : s.free.size ≤ n

/-- Adding one range. -/
theorem Small.ensures_ballocAddRegion (h : Small n s) (hpos : 0 < size)
    (hlt : addr + size < 2 ^ 64) (hn : n < maxAreasCount) :
    Ensures (ballocAddRegion addr size) s fun _ s' => Small (n + 1) s' ∧
      ∀ x, s'.free.Covers x ↔ s.free.Covers x ∨ (addr ≤ x ∧ x < addr + size) := by
  have hall := h.all_size
  have hfree := h.free_size
  refine (PoolOk.ensures_ballocAddRegion h.all h.free hpos hlt (by omega) (by omega)).mono
    fun _ s' ⟨h₁, h₂⟩ => ?_
  have := h₁.size_le
  have := h₂.size_le
  exact ⟨⟨h₁.ok, h₂.ok, by omega, by omega⟩, h₂.covers⟩

/-- The loop that adds the entries. -/
theorem Small.ensures_addEntries (h : Small n s)
    (hentry : ∀ e ∈ l, 0 < e.length ∧ e.addr + e.length < 2 ^ 64)
    (hn : n + l.length ≤ maxAreasCount) :
    Ensures (addEntries l) s fun _ s' => Small (n + l.length) s' ∧
      ∀ x, s'.free.Covers x ↔ s.free.Covers x ∨ ∃ e ∈ l, e.range.Has x := by
  induction l generalizing s n with
  | nil =>
    rw [addEntries, ensures_pure]
    exact ⟨h, fun x => by simp⟩
  | cons e l ih =>
    rw [List.length_cons] at hn
    obtain ⟨hpos, hlt⟩ := hentry e List.mem_cons_self
    rw [addEntries, ensures_bind]
    refine (h.ensures_ballocAddRegion hpos hlt (by omega)).mono fun _ s₁ ⟨h₁, hcov₁⟩ => ?_
    refine (ih h₁ (fun e' he' => hentry e' (List.mem_cons_of_mem _ he')) (by omega)).mono
      fun _ s₂ ⟨h₂, hcov₂⟩ => ?_
    rw [List.length_cons, show n + (l.length + 1) = n + 1 + l.length by omega]
    refine ⟨h₂, fun x => ?_⟩
    rw [hcov₂, hcov₁]
    simp only [List.mem_cons, exists_eq_or_imp, or_assoc]
    rfl

/-! ### Reserving -/

/-- No address is in two of the ranges. -/
def Apart (l : List Range) : Prop := l.Pairwise fun r r' => ∀ x, r.Has x → ¬r'.Has x

/-- Reserving one range that is covered. -/
theorem Small.ensures_ballocReserveRegion (h : Small n s) (hpos : 0 < size)
    (hcov : ∀ x, addr ≤ x → x < addr + size → s.free.Covers x) (hn : n < maxAreasCount) :
    Ensures (ballocReserveRegion addr size) s fun _ s' => Small (n + 1) s' ∧
      ∀ x, s'.free.Covers x ↔ s.free.Covers x ∧ ¬(addr ≤ x ∧ x < addr + size) := by
  have hall := h.all_size
  have hfree := h.free_size
  refine (h.free.ensures_ballocReserveRegion hpos (h.free.contains hpos hcov) (by omega)).mono
    fun _ s' ⟨hsame, h₁⟩ => ?_
  have := h₁.size_le
  exact ⟨⟨hsame.symm ▸ h.all, h₁.ok, by rw [hsame]; omega, by omega⟩, h₁.covers⟩

/-- The ranges of the entries that are not available. -/
def reservedOf (l : List MmapEntry) : List Range :=
  (l.filter fun e => !e.available).map MmapEntry.range

/-- The loop that reserves the entries. -/
theorem Small.ensures_reserveEntries (h : Small n s) (hentry : ∀ e ∈ l, 0 < e.length)
    (hcov : ∀ r ∈ reservedOf l, ∀ x, r.Has x → s.free.Covers x) (hapart : Apart (reservedOf l))
    (hn : n + l.length ≤ maxAreasCount) :
    Ensures (reserveEntries l) s fun _ s' => Small (n + l.length) s' ∧
      ∀ x, s'.free.Covers x ↔ s.free.Covers x ∧ ∀ r ∈ reservedOf l, ¬r.Has x := by
  induction l generalizing s n with
  | nil =>
    rw [reserveEntries, ensures_pure]
    exact ⟨h, fun x => by simp [reservedOf]⟩
  | cons e l ih =>
    rw [List.length_cons] at hn
    have hrest : ∀ e' ∈ l, 0 < e'.length := fun e' he' => hentry e' (List.mem_cons_of_mem _ he')
    rw [reserveEntries]
    cases havail : e.available with
    | true =>
      have hsame : reservedOf (e :: l) = reservedOf l := by simp [reservedOf, havail]
      rw [hsame] at hcov hapart ⊢
      simp only [not_true_eq_false, if_false]
      refine (ih h hrest hcov hapart (by omega)).mono fun _ s' hr => ?_
      obtain ⟨h', hcov'⟩ := hr
      refine ⟨?_, hcov'⟩
      have hall := h'.all_size
      have hfree := h'.free_size
      exact ⟨h'.all, h'.free, by rw [List.length_cons]; omega, by rw [List.length_cons]; omega⟩
    | false =>
      have hcons : reservedOf (e :: l) = e.range :: reservedOf l := by simp [reservedOf, havail]
      rw [hcons] at hcov hapart ⊢
      obtain ⟨hfirst, hothers⟩ := List.pairwise_cons.1 hapart
      simp only [Bool.false_eq_true, not_false_eq_true, if_true, ensures_bind]
      refine (h.ensures_ballocReserveRegion (hentry e List.mem_cons_self)
        (fun x h₁ h₂ => hcov e.range List.mem_cons_self x ⟨h₁, h₂⟩) (by omega)).mono
        fun _ s₁ hr => ?_
      obtain ⟨h₁, hcov₁⟩ := hr
      have hcov₂ : ∀ r ∈ reservedOf l, ∀ x, r.Has x → s₁.free.Covers x := fun r hr x hx =>
        (hcov₁ x).2 ⟨hcov r (List.mem_cons_of_mem _ hr) x hx, fun hc => hfirst r hr x hc hx⟩
      refine (ih h₁ hrest hcov₂ hothers (by omega)).mono fun _ s₂ hr => ?_
      obtain ⟨h₂, hcov₃⟩ := hr
      rw [List.length_cons, show n + (l.length + 1) = n + 1 + l.length by omega]
      refine ⟨h₂, fun x => ?_⟩
      rw [hcov₃, hcov₁, List.forall_mem_cons, and_assoc]
      rfl

/-! ### `setup_memory` -/

/-- `setup_memory` for a memory map. -/
def BootMap.setup (b : BootMap) : BallocM Unit :=
  setupMemory b.memoryMap b.kernelBegin b.kernelEnd b.initrdBegin b.initrdEnd

/-- **`setup_memory`** leaves exactly the free memory when no two of the ranges it reserves share an
address and no entry ends at the end of the address space. -/
theorem BootMap.Ok.ensures_setup (h : b.Ok) (hend : ∀ e ∈ b.memoryMap, e.addr + e.length < 2 ^ 64)
    (hapart : Apart b.reserved) :
    Ensures b.setup emptyPools fun _ s => s.free.Exactly b.Free := by
  have hcount := h.count
  obtain ⟨hk, hk'⟩ := h.kernel
  obtain ⟨hi, hi'⟩ := h.initrd
  have hksize : sub64 b.kernelEnd b.kernelBegin = b.kernelEnd - b.kernelBegin := sub64_eq (by omega) hk'
  have hisize : sub64 b.initrdEnd b.initrdBegin = b.initrdEnd - b.initrdBegin := sub64_eq (by omega) hi'
  have hstart : Small 0 emptyPools := ⟨poolOk_empty, poolOk_empty, Nat.le_refl 0, Nat.le_refl 0⟩
  have hnone : ∀ x, ¬emptyPools.free.Covers x := by
    rintro x ⟨i, hi, -⟩
    exact Nat.not_lt_zero i hi
  have hmax : maxAreasCount = 256 := rfl
  obtain ⟨hmap, hrest, hcross⟩ := List.pairwise_append.1 hapart
  rw [BootMap.setup, setupMemory, hksize, hisize]
  simp only [ensures_bind]
  refine (hstart.ensures_addEntries (fun e he => ⟨(h.entry e he).1, hend e he⟩) (by omega)).mono
    fun _ s₁ hr => ?_
  obtain ⟨h₁, hcov₁⟩ := hr
  refine (h₁.ensures_ballocAddRegion (by omega) (by omega) (by omega)).mono
    fun _ s₂ hr => ?_
  obtain ⟨h₂, hcov₂⟩ := hr
  refine (h₂.ensures_ballocAddRegion (by omega) (by omega) (by omega)).mono
    fun _ s₃ hr => ?_
  obtain ⟨h₃, hcov₃⟩ := hr
  have hall : ∀ x, s₃.free.Covers x ↔
      (∃ e ∈ b.memoryMap, e.range.Has x) ∨ b.kernel.Has x ∨ b.initrd.Has x := fun x => by
    rw [hcov₃, hcov₂, hcov₁]
    simp only [hnone, false_or, or_assoc]
    rfl
  have hres : ∀ r ∈ reservedOf b.memoryMap, ∀ x, r.Has x → s₃.free.Covers x := by
    intro r hr x hx
    obtain ⟨e, he, rfl⟩ := List.mem_map.1 hr
    exact (hall x).2 (Or.inl ⟨e, (List.mem_filter.1 he).1, hx⟩)
  refine (h₃.ensures_reserveEntries (fun e he => (h.entry e he).1) hres hmap (by omega)).mono
    fun _ s₄ hr => ?_
  obtain ⟨h₄, hcov₄⟩ := hr
  have hkernel : ∀ x, b.kernel.Has x → s₄.free.Covers x := fun x hx =>
    (hcov₄ x).2 ⟨(hall x).2 (Or.inr (Or.inl hx)), fun r hr hc => hcross r hr b.kernel (by simp) x hc hx⟩
  refine (h₄.ensures_ballocReserveRegion (show 0 < b.kernelEnd - b.kernelBegin by omega)
    (fun x h₁ h₂ => hkernel x ⟨h₁, h₂⟩)
    (by omega)).mono fun _ s₅ hr => ?_
  obtain ⟨h₅, hcov₅⟩ := hr
  have hinitrd : ∀ x, b.initrd.Has x → s₅.free.Covers x := fun x hx => by
    refine (hcov₅ x).2 ⟨(hcov₄ x).2 ⟨(hall x).2 (Or.inr (Or.inr hx)), fun r hr hc => ?_⟩, fun hc => ?_⟩
    · exact hcross r hr b.initrd (by simp) x hc hx
    · exact List.pairwise_pair.1 hrest x hc hx
  refine (h₅.ensures_ballocReserveRegion (show 0 < b.initrdEnd - b.initrdBegin by omega)
    (fun x h₁ h₂ => hinitrd x ⟨h₁, h₂⟩)
    (by omega)).mono fun _ s₆ hr => ?_
  obtain ⟨h₆, hcov₆⟩ := hr
  refine h₆.free.exactly fun x => ?_
  have hnot : (∀ r ∈ reservedOf b.memoryMap, ¬r.Has x) ↔
      ∀ e ∈ b.memoryMap, e.available = false → ¬e.range.Has x := by
    simp only [reservedOf, List.forall_mem_map, List.mem_filter, Bool.not_eq_true', and_imp]
  rw [hcov₆, hcov₅, hcov₄, hall, hnot, BootMap.Free, and_assoc, and_assoc]
  rfl

/-- One available entry and one that is not, and the kernel and the initrd in the first. -/
def plainMap : BootMap := ⟨[⟨0, 0x9f000, true⟩, ⟨0x9f000, 0x1000, false⟩, ⟨0x100000, 0x700000, true⟩],
  0x100000, 0x200000, 0x300000, 0x400000⟩

theorem ensures_setup_plainMap : plainMap.Ok ∧
    Ensures plainMap.setup emptyPools fun _ s => s.free.Exactly plainMap.Free := by
  have hok : plainMap.Ok := ⟨by decide, by decide, by decide, by decide⟩
  refine ⟨hok, hok.ensures_setup (by decide) ?_⟩
  have hreserved : plainMap.reserved =
      [⟨0x9f000, 0x1000⟩, ⟨0x100000, 0x100000⟩, ⟨0x300000, 0x100000⟩] := rfl
  rw [Apart, hreserved]
  simp only [List.pairwise_cons, List.mem_cons, List.not_mem_nil, or_false, forall_eq_or_imp,
    forall_eq, false_implies, implies_true, List.Pairwise.nil, and_true, Range.Has]
  refine ⟨⟨fun x => ?_, fun x => ?_⟩, fun x => ?_⟩ <;> omega

/-- Two entries that are not available and overlap. -/
def overlapMap : BootMap := ⟨[⟨0, 0x100000, true⟩, ⟨0x9f000, 0x1000, false⟩, ⟨0x9fc00, 0x1000, false⟩],
  0x100000, 0x200000, 0x300000, 0x400000⟩

/-- The second free area wraps around the address space. -/
def secondWraps (r : Except Fault (Unit × Pools)) : Bool :=
  match r with
  | .ok (_, s) => decide (1 < s.free.size) && decide (s.free.areas 1 = ⟨0xa0000, 2 ^ 64 - 0x400⟩)
  | .error _ => false

/-- An area of the free memory then begins at `0xa0000`, which is reserved, and wraps around the
address space. -/
theorem overlapMap_not_exact : overlapMap.Ok ∧
    ¬Ensures overlapMap.setup emptyPools fun _ s => s.free.Exactly overlapMap.Free := by
  refine ⟨⟨by decide, by decide, by decide, by decide⟩, fun ⟨u, s, hrun, hex⟩ => ?_⟩
  have hwraps : secondWraps (overlapMap.setup emptyPools) = true := by decide +kernel
  rw [hrun, secondWraps, Bool.and_eq_true, decide_eq_true_iff, decide_eq_true_iff] at hwraps
  have hfin := (hex.area 1 hwraps.1).2
  rw [hwraps.2] at hfin
  exact absurd hfin (by decide)

end

end Balloc

end Kernel64
