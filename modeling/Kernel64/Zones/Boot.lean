import Kernel64.Zones.Lookup
import Kernel64.Balloc.Setup
import Kernel64.Buddy.Canonical

/-!
# From the boot allocator to the buddy allocator

`setup_buddy` rounds the regions of memory, and what is free of them, to pages, each in its own way. Still
every free page is freed once, in the node that it is in, and no other page is freed.
-/

namespace Kernel64

namespace Zones

open Balloc (Pool Pools PoolOk BallocM ballocAllocAligned sub64 align64 maxAreasCount)

/-- The pools that `setup_buddy` starts from. -/
structure BootPools (p : Pools) : Prop where
  all : PoolOk p.all
  free : PoolOk p.free
  count : p.all.size ≤ 255
  addr : ∀ i < p.all.size, (p.all.areas i).fin ≤ 2 ^ 52
  sub : ∀ x, p.free.Covers x → p.all.Covers x

/-- The allocations of the arrays of pages, one after the other. -/
def allocArrays : List Span → BallocM (List ℕ)
  | [] => return []
  | s :: l => do
    match ← ballocAllocAligned pageSize lowmemSize s.arraySize pageSize with
    | none => throw .bounds
    | some mmap => return mmap :: (← allocArrays l)

/-- The address is in one of the arrays. -/
def InArrays (mmaps : List ℕ) (l : List Span) (x : ℕ) : Prop :=
  ∃ y ∈ mmaps.zip l, y.1 ≤ x ∧ x < y.1 + y.2.arraySize

/-- The page frame `f` is below `MAX_PHYS_SIZE` and entirely inside one of the first `k` areas. -/
def FreeFrame (p : Pool) (k f : ℕ) : Prop :=
  (f + 1) * pageSize ≤ maxPhysSize ∧
    ∃ i < k, (p.areas i).addr ≤ f * pageSize ∧ (f + 1) * pageSize ≤ (p.areas i).fin

/-- The pages of the nodes that have been freed are those with `F`. -/
def FreedExactly (m : Memory) (F : ℕ → Prop) : Prop :=
  ∀ i < m.memoryNodes, BuddyRun ⟨(m.nodes i).toMemoryNode, [],
    {q | q < (m.nodes i).nodePfns ∧ ¬F ((m.nodes i).beginPfn + q)}⟩

section

variable {p p' : Pools} {P : Pool} {m m' : Memory} {l l₁ l₂ : List Span} {s t : Span} {mmaps : List ℕ}
  {i j k f : ℕ} {F : ℕ → Prop}

/-! ### The arrays of pages -/

theorem allocArrays_cons (h : allocArrays (s :: l) p = Except.ok (mmaps, p')) : ∃ mmap mmaps' p₁,
    mmaps = mmap :: mmaps' ∧
      ballocAllocAligned pageSize lowmemSize s.arraySize pageSize p = Except.ok (some mmap, p₁) ∧
      allocArrays l p₁ = Except.ok (mmaps', p') := by
  have hens : Ensures (allocArrays (s :: l)) p fun r p₁ => r = mmaps ∧ p₁ = p' := ⟨mmaps, p', h, rfl, rfl⟩
  rw [allocArrays, ensures_bind] at hens
  obtain ⟨r, p₁, halloc, hrest⟩ := hens
  cases r with
  | none => exact absurd hrest ensures_throw.1
  | some mmap =>
    rw [ensures_bind] at hrest
    obtain ⟨mmaps', p₂, hrun, hpure⟩ := hrest
    obtain ⟨rfl, rfl⟩ := ensures_pure.1 hpure
    exact ⟨mmap, mmaps', p₁, rfl, halloc, hrun⟩

theorem allocArrays_append (h : allocArrays (l₁ ++ l₂) p = Except.ok (mmaps, p')) : ∃ mmaps₁ mmaps₂ p₁,
    allocArrays l₁ p = Except.ok (mmaps₁, p₁) ∧ allocArrays l₂ p₁ = Except.ok (mmaps₂, p') := by
  induction l₁ generalizing p mmaps with
  | nil => exact ⟨[], mmaps, p, rfl, h⟩
  | cons s l₁ ih =>
    obtain ⟨mmap, mmaps', p₁, -, halloc, hrest⟩ := allocArrays_cons h
    obtain ⟨mmaps₁, mmaps₂, p₂, h₁, h₂⟩ := ih hrest
    have hcons : Ensures (allocArrays (s :: l₁)) p fun r p₃ => r = mmap :: mmaps₁ ∧ p₃ = p₂ := by
      rw [allocArrays, ensures_bind]
      refine ⟨some mmap, p₁, halloc, ensures_bind.2 ⟨mmaps₁, p₂, h₁, ?_⟩⟩
      exact ensures_pure.2 ⟨rfl, rfl⟩
    obtain ⟨_, _, hrun, rfl, rfl⟩ := hcons
    exact ⟨_, mmaps₂, _, hrun, h₂⟩

theorem inArrays_cons {mmap x : ℕ} : InArrays (mmap :: mmaps) (s :: l) x ↔
    (mmap ≤ x ∧ x < mmap + s.arraySize) ∨ InArrays mmaps l x := by
  simp [InArrays]

theorem Span.Ok.arraySize_pos (hs : s.Ok) : 0 < s.arraySize := by
  have hlt := hs.lt
  obtain ⟨a, ha⟩ := hs.begin_dvd
  obtain ⟨b, hb⟩ := hs.stop_dvd
  unfold Span.arraySize sizeofPage
  unfold pageSize at *
  omega

/-- The arrays are taken out of the free memory. -/
theorem allocArrays_covers (hfree : PoolOk p.free) (hok : ∀ s ∈ l, s.Ok)
    (h : allocArrays l p = Except.ok (mmaps, p')) : PoolOk p'.free ∧ p'.all = p.all ∧
      ∀ x, p'.free.Covers x ↔ p.free.Covers x ∧ ¬InArrays mmaps l x := by
  induction l generalizing p mmaps with
  | nil =>
    obtain ⟨rfl, rfl⟩ := Prod.mk.inj (Except.ok.inj h)
    exact ⟨hfree, rfl, fun x => by simp [InArrays]⟩
  | cons s l ih =>
    obtain ⟨mmap, mmaps', p₁, rfl, halloc, hrest⟩ := allocArrays_cons h
    obtain ⟨hall, hr⟩ := hfree.yields_ballocAllocAligned (hok s (by simp)).arraySize_pos ⟨12, rfl⟩
      (by decide) _ _ halloc
    obtain ⟨hc, -⟩ | ⟨a, ha, -, -, -, -, hdel⟩ := hr
    · exact nomatch hc
    · obtain rfl := Option.some.inj ha
      obtain ⟨hok', hall', hcov⟩ := ih hdel.ok (fun s hs => hok s (List.mem_cons_of_mem _ hs)) hrest
      refine ⟨hok', hall'.trans hall, fun x => ?_⟩
      rw [hcov, hdel.covers, inArrays_cons, not_or, and_assoc]

/-- **Adding nodes** returns if the arrays of pages can be allocated. -/
theorem Added.ensures_addSpans (h : Added l₁ m) (hok : ∀ s ∈ l, s.Ok)
    (hlen : l₁.length + l.length ≤ maxMemoryNodes) (halloc : allocArrays l m.pools = Except.ok (mmaps, p')) :
    Ensures (addSpans l) m fun _ m' => Added (l₁ ++ l) m' ∧ m'.pools = p' := by
  induction l generalizing l₁ m mmaps with
  | nil =>
    obtain ⟨-, rfl⟩ := Prod.mk.inj (Except.ok.inj halloc)
    rw [List.append_nil]
    exact ensures_pure.2 ⟨h, rfl⟩
  | cons s l ih =>
    obtain ⟨mmap, mmaps', p₁, -, hfirst, hrest⟩ := allocArrays_cons halloc
    rw [List.length_cons] at hlen
    have hcount := h.count
    have hlt : m.memoryNodes < maxMemoryNodes := by omega
    rw [addSpans, ensures_bind, ensures_addMemoryNode (hok s (by simp))]
    refine ⟨hlt, some mmap, p₁, hfirst, mmap, rfl, ?_⟩
    have hnext := ih (h.withNode hlt p₁ s mmap) (fun x hx => hok x (List.mem_cons_of_mem _ hx))
      (by rw [List.length_append, List.length_singleton]; omega) hrest
    rwa [List.append_assoc, List.singleton_append] at hnext

/-! ### The nodes -/

/-- The nodes of the areas of a pool from the area `k` on. -/
def spansFrom (P : Pool) (k : ℕ) : List Span :=
  (List.range' k (P.size - k)).flatMap fun i => regionSpans (P.areas i).addr (P.areas i).size

theorem spansFrom_zero (P : Pool) : spansFrom P 0 = poolSpans P P.size := by
  rw [spansFrom, poolSpans, List.range_eq_range', Nat.sub_zero]

theorem spansFrom_eq (hk : k < P.size) :
    spansFrom P k = regionSpans (P.areas k).addr (P.areas k).size ++ spansFrom P (k + 1) := by
  have hsub : P.size - k = P.size - (k + 1) + 1 := by omega
  rw [spansFrom, hsub, List.range'_succ, List.flatMap_cons, spansFrom]

/-- A region crosses `LOWMEM_SIZE`. -/
def Crosses (P : Pool) (i : ℕ) : Prop :=
  regionBegin (P.areas i).addr < lowmemSize ∧ lowmemSize < regionEnd (P.areas i).addr (P.areas i).size

theorem length_regionSpans_le (P : Pool) (i : ℕ) :
    (regionSpans (P.areas i).addr (P.areas i).size).length ≤ 2 ∧
      (¬Crosses P i → (regionSpans (P.areas i).addr (P.areas i).size).length ≤ 1) := by
  rw [regionSpans]
  split_ifs with hempty hcross
  · simp
  · exact ⟨le_rfl, fun hnot => absurd hcross hnot⟩
  · simp
  · simp

/-- Only one region can cross `LOWMEM_SIZE`, so that there is at most one node more than regions. -/
theorem length_poolSpans_le (h : PoolOk P) (hround : Rounds P) : ∀ k ≤ P.size,
    (poolSpans P k).length ≤ k + 1 ∧ ((∀ i < k, ¬Crosses P i) → (poolSpans P k).length ≤ k)
  | 0, _ => ⟨Nat.zero_le _, fun _ => Nat.zero_le _⟩
  | k + 1, hk => by
    obtain ⟨ih₁, ih₂⟩ := length_poolSpans_le h hround k (by omega)
    obtain ⟨htwo, hone⟩ := length_regionSpans_le P k
    rw [poolSpans_succ, List.length_append]
    refine ⟨?_, fun hnot => ?_⟩
    · by_cases hcross : Crosses P k
      · -- the regions before end below
        have := ih₂ fun i hi hc => by
          have hgap := h.gap i k hi hk
          have hfin := regionEnd_le_fin (h.area i (by omega))
          have hbegin := le_regionBegin (hround k hk)
          have hlow := hcross.1
          have hhigh := hc.2
          omega
        omega
      · have := hone hcross
        omega
    · have := ih₂ fun i hi => hnot i (by omega)
      have := hone (hnot k (by omega))
      omega

theorem BootPools.rounds (h : BootPools p) : Rounds p.all := by
  intro i hi
  have hlt := h.addr i hi
  have hpos := (h.all.area i hi).addr_lt
  unfold pageSize
  omega

theorem BootPools.length_le (h : BootPools p) :
    (poolSpans p.all p.all.size).length ≤ maxMemoryNodes := by
  have := (length_poolSpans_le h.all h.rounds _ le_rfl).1
  have := h.count
  unfold maxMemoryNodes
  omega

/-- **The first loop of `setup_buddy`** returns if the arrays can be allocated. -/
theorem BootPools.ensures_nodes (h : BootPools m.pools) (hcount : m.memoryNodes = 0)
    (hlinks : m.links.Circle .order [])
    (halloc : allocArrays (poolSpans m.pools.all m.pools.all.size) m.pools = Except.ok (mmaps, p')) :
    Ensures (ballocIterate (fun m => m.pools.all) memoryNodeAdd) m fun _ m' =>
      Added (poolSpans m.pools.all m.pools.all.size) m' ∧ m'.pools = p' := by
  have h₀ : Added [] m := ⟨hcount, Nat.zero_le _, fun i hi => absurd hi (Nat.not_lt_zero i), hlinks⟩
  have hlen := h.length_le
  refine Ensures.mono (ensures_ballocIterate (P := m.pools.all)
    (I := fun i m' => Added (poolSpans m.pools.all i) m' ∧ m'.pools.all = m.pools.all ∧
      ∃ mmaps, allocArrays (spansFrom m.pools.all i) m'.pools = Except.ok (mmaps, p'))
    h.all.size_le (fun _ _ hI => hI.2.1) ?_ ⟨h₀, rfl, mmaps, by rwa [spansFrom_zero]⟩) ?_
  · intro i m' hi ⟨hadded, hall, mmaps', hrest⟩
    rw [spansFrom_eq hi] at hrest
    obtain ⟨mmaps₁, mmaps₂, p₁, hnow, hlater⟩ := allocArrays_append hrest
    rw [memoryNodeAdd_eq]
    have hfits : (poolSpans m.pools.all i).length +
        (regionSpans (m.pools.all.areas i).addr (m.pools.all.areas i).size).length ≤ maxMemoryNodes := by
      have hle := (length_poolSpans_le h.all h.rounds (i + 1) hi).1
      have := h.count
      rw [poolSpans_succ, List.length_append] at hle
      unfold maxMemoryNodes
      omega
    have hens := hadded.ensures_addSpans (fun s hs => ok_of_mem_regionSpans hs) hfits hnow
    have hyields : Yields (addSpans (regionSpans (m.pools.all.areas i).addr (m.pools.all.areas i).size)) m' _ :=
      hadded.yields_addSpans fun s hs => ok_of_mem_regionSpans hs
    refine (hens.and_yields hyields).mono fun _ m'' ⟨⟨hadded', hpools⟩, _, hall'⟩ => ?_
    rw [← poolSpans_succ] at hadded'
    exact ⟨hadded', hall'.trans hall, mmaps₂, hpools ▸ hlater⟩
  · intro _ m' ⟨hadded, _, _, hdone⟩
    refine ⟨hadded, ?_⟩
    rw [spansFrom, Nat.sub_self] at hdone
    exact (Prod.mk.inj (Except.ok.inj hdone)).2

/-! ### Freeing -/

/-- Free regions one after the other. -/
def freeSpans : List Span → ZoneM Unit
  | [] => return
  | s :: l => do
    freeRegion s.begin s.stop
    freeSpans l

theorem memoryFreeRegion_eq (addr size : ℕ) :
    memoryFreeRegion addr size = freeSpans (regionSpans addr size) := by
  rw [memoryFreeRegion, regionSpans]
  split_ifs
  · rfl
  · simp [freeSpans]
  · simp [freeSpans]
  · simp [freeSpans]

/-- The page frames of a span. -/
def Span.Has (s : Span) (f : ℕ) : Prop := s.begin / pageSize ≤ f ∧ f < s.stop / pageSize

/-- **`__memory_free_region`** frees the pages of a span that lies in a node. -/
theorem FreedExactly.ensures_freeRegion (hF : FreedExactly m F) (hmade : Made (poolSpans P P.size) m)
    (hP : PoolOk P) (hround : Rounds P) (hs : s.Ok) (ht : t ∈ poolSpans P P.size)
    (hin : t.begin ≤ s.begin ∧ s.stop ≤ t.stop) (hnew : ∀ f, s.Has f → ¬F f) :
    Ensures (freeRegion s.begin s.stop) m fun _ m' => SameZones m m' ∧
      FreedExactly m' fun f => F f ∨ s.Has f := by
  obtain ⟨i, hi, rfl⟩ := List.getElem_of_mem ht
  have hi' : i < m.memoryNodes := hmade.count ▸ hi
  have hbegin := hmade.begin i hi
  have hstop := hmade.stop i hi
  have hle : (m.nodes i).beginPfn ≤ s.begin / pageSize := hbegin ▸ Nat.div_le_div_right hin.1
  have hge : s.stop / pageSize ≤ (m.nodes i).endPfn := hstop ▸ Nat.div_le_div_right hin.2
  have hlt : s.begin / pageSize < s.stop / pageSize := by
    have := hs.lt
    obtain ⟨a, ha⟩ := hs.begin_dvd
    obtain ⟨b, hb⟩ := hs.stop_dvd
    unfold pageSize at *
    omega
  have hnode : pfnNode m (s.begin / pageSize) = some i := by
    refine pfnNode_eq_some.2 ⟨hi', by omega, fun j hj => ?_⟩
    exact (hmade.sorted hP hround hj hi').trans hle
  rw [freeRegion, ensures_bind, ensures_get]
  dsimp only
  rw [hnode]
  dsimp only
  rw [if_neg (by omega), ensures_set]
  have hsame : SameZones m (m.setNode i (MemoryNode.memoryFreeRegion (s.begin / pageSize) (s.stop / pageSize)
      (m.nodes i).toMemoryNode)) := sameZones_setNode sameNode_memoryFreeRegion
  refine ⟨hsame, fun j hj => ?_⟩
  have hj' : j < m.memoryNodes := hj
  have hpfns := (hsame.node j).endPfn
  have hpfns' := (hsame.node j).beginPfn
  rw [MemoryNode.nodePfns, hpfns, hpfns']
  by_cases hji : j = i
  · subst hji
    rw [setNode_self]
    have hrun := (hF j hj').freeRegion (b := s.begin / pageSize) (e := s.stop / pageSize) (by
      rintro q ⟨hlo, hhi⟩
      dsimp only at hlo hhi
      refine ⟨?_, hnew _ ⟨by omega, by omega⟩⟩
      rw [MemoryNode.nodePfns]
      omega)
    refine cast (congrArg (fun S => BuddyRun ⟨_, [], S⟩) ?_) hrun
    ext q
    simp only [Set.mem_sdiff, Set.mem_ofPred_eq, Set.mem_Ico, Span.Has, MemoryNode.nodePfns, not_or]
    constructor
    · rintro ⟨⟨hq, hnot⟩, hout⟩
      exact ⟨hq, hnot, by omega⟩
    · rintro ⟨hq, hnot, hout⟩
      exact ⟨⟨hq, hnot⟩, by omega⟩
  · -- the pages of another node are not in the span
    rw [setNode_of_ne hji]
    refine cast (congrArg (fun S => BuddyRun ⟨_, [], S⟩) ?_) (hF j hj')
    ext q
    simp only [Set.mem_ofPred_eq, Span.Has, MemoryNode.nodePfns, not_or]
    refine and_congr_right fun hq => ⟨fun hnot => ⟨hnot, ?_⟩, fun h => h.1⟩
    have hb := hmade.bounds hj'
    rcases Nat.lt_or_gt_of_ne hji with hlt' | hgt
    · have := hmade.sorted hP hround hlt' hi'
      omega
    · have := hmade.sorted hP hround hgt hj'
      omega

/-- The pages of several spans. -/
theorem FreedExactly.ensures_freeSpans (hP : PoolOk P) (hround : Rounds P) (hok : ∀ s ∈ l, s.Ok)
    (hin : ∀ s ∈ l, ∃ t ∈ poolSpans P P.size, t.begin ≤ s.begin ∧ s.stop ≤ t.stop)
    (hsorted : l.Pairwise fun s t => s.stop ≤ t.begin) :
    ∀ {m : Memory} {F : ℕ → Prop}, FreedExactly m F → Made (poolSpans P P.size) m →
      (∀ f, (∃ s ∈ l, s.Has f) → ¬F f) →
      Ensures (freeSpans l) m fun _ m' => SameZones m m' ∧ FreedExactly m' fun f => F f ∨ ∃ s ∈ l, s.Has f := by
  induction l with
  | nil =>
    intro m F hF _ _
    refine ensures_pure.2 ⟨.refl m, ?_⟩
    simpa using hF
  | cons s l ih =>
    intro m F hF hmade hnew
    obtain ⟨t, ht, hst⟩ := hin s (by simp)
    rw [freeSpans, ensures_bind]
    refine (hF.ensures_freeRegion hmade hP hround (hok s (by simp)) ht hst fun f hf =>
      hnew f ⟨s, by simp, hf⟩).mono fun _ m₁ ⟨hsame, hF₁⟩ => ?_
    rw [List.pairwise_cons] at hsorted
    have hnext := ih (fun x hx => hok x (List.mem_cons_of_mem _ hx))
      (fun x hx => hin x (List.mem_cons_of_mem _ hx)) hsorted.2 hF₁ (hmade.same hsame) (by
        rintro f ⟨x, hx, hfx⟩ (hf | hf)
        · exact hnew f ⟨x, List.mem_cons_of_mem _ hx, hfx⟩ hf
        · have hle : s.stop / pageSize ≤ x.begin / pageSize := Nat.div_le_div_right (hsorted.1 x hx)
          have := hfx.1
          have := hf.2
          omega)
    refine hnext.mono fun _ m' ⟨hsame', hF'⟩ => ⟨hsame.trans hsame', ?_⟩
    simpa [or_assoc] using hF'

/-! ### Rounding -/

theorem regionBegin_le_iff {addr x : ℕ} (h : addr + pageSize ≤ 2 ^ 64) (hx : pageSize ∣ x) :
    regionBegin addr ≤ x ↔ addr ≤ x :=
  ⟨(le_regionBegin h).trans, fun hle => Balloc.align64_le (k := 12) h hle hx⟩

theorem le_regionEnd_iff {a : Balloc.Area} (ha : a.Ok) {x : ℕ} (hx : pageSize ∣ x) :
    x ≤ regionEnd a.addr a.size ↔ x ≤ a.fin ∧ x ≤ maxPhysSize := by
  have hstop : Balloc.add64 a.addr a.size = a.fin := ha.stop_eq
  rw [regionEnd, hstop, le_min_iff]
  refine and_congr_left fun _ => ⟨fun hle => hle.trans (Nat.div_mul_le_self _ _), fun hle => ?_⟩
  obtain ⟨b, rfl⟩ := hx
  unfold pageSize at *
  omega

/-- The page frames of a region are those inside of it, below `MAX_PHYS_SIZE`. -/
theorem has_regionSpans_iff {a : Balloc.Area} (ha : a.Ok) (hround : a.addr + pageSize ≤ 2 ^ 64) :
    (∃ s ∈ regionSpans a.addr a.size, s.Has f) ↔
      (f + 1) * pageSize ≤ maxPhysSize ∧ a.addr ≤ f * pageSize ∧ (f + 1) * pageSize ≤ a.fin := by
  have hframes : (∃ s ∈ regionSpans a.addr a.size, s.Has f) ↔
      regionBegin a.addr ≤ f * pageSize ∧ (f + 1) * pageSize ≤ regionEnd a.addr a.size := by
    have hdvd := pageSize_dvd_regionBegin a.addr
    have hdvd' := pageSize_dvd_regionEnd a.addr a.size
    have hlow : lowmemSize = 2 ^ 32 := by decide
    obtain ⟨b, hb⟩ := hdvd
    obtain ⟨e, he⟩ := hdvd'
    rw [regionSpans, hlow, hb, he]
    unfold Span.Has pageSize
    split_ifs with hempty hcross
    · simp only [List.not_mem_nil, false_and, exists_false, false_iff]
      omega
    · simp only [List.mem_cons, List.not_mem_nil, or_false, exists_eq_or_imp, exists_eq_left]
      omega
    · simp only [List.mem_singleton, exists_eq_left]
      omega
    · simp only [List.mem_singleton, exists_eq_left]
      omega
  rw [hframes, regionBegin_le_iff hround (Nat.dvd_mul_left _ _), le_regionEnd_iff ha (Nat.dvd_mul_left _ _)]
  constructor
  · rintro ⟨hlo, hhi, hmax⟩
    exact ⟨hmax, hlo, hhi⟩
  · rintro ⟨hmax, hlo, hhi⟩
    exact ⟨hlo, hhi, hmax⟩

/-- The node of a larger region. -/
theorem exists_regionSpans {a b : Balloc.Area} (ha : a.Ok) (hb : b.Ok) (hround : b.addr + pageSize ≤ 2 ^ 64)
    (haddr : a.addr ≤ b.addr) (hfin : b.fin ≤ a.fin) (hs : s ∈ regionSpans b.addr b.size) :
    ∃ t ∈ regionSpans a.addr a.size, t.begin ≤ s.begin ∧ s.stop ≤ t.stop := by
  have hok := ok_of_mem_regionSpans hs
  obtain ⟨hbegin, hstop⟩ := regionSpans_bounds hs
  have hbegin' : regionBegin a.addr ≤ s.begin := ((regionBegin_le_iff (by omega)
    (pageSize_dvd_regionBegin b.addr)).2 (haddr.trans (le_regionBegin hround))).trans hbegin
  have hstop' : s.stop ≤ regionEnd a.addr a.size := by
    refine hstop.trans ((le_regionEnd_iff ha (pageSize_dvd_regionEnd _ _)).2 ⟨?_, regionEnd_le _ _⟩)
    exact (regionEnd_le_fin hb).trans hfin
  have hlt := hok.lt
  have htype := hok.type
  rw [regionSpans, if_neg (by omega)]
  split_ifs with hcross
  · split_ifs at htype with hside
    · refine ⟨_, List.mem_cons_self, ?_⟩
      exact ⟨hbegin', hside⟩
    · refine ⟨_, List.mem_cons_of_mem _ (List.mem_singleton_self _), ?_⟩
      exact ⟨htype.2, hstop'⟩
  all_goals
    refine ⟨_, List.mem_singleton_self _, ?_⟩
    exact ⟨hbegin', hstop'⟩

/-! ### All of it -/

/-- **What `setup_buddy` leaves**: the nodes are sorted, and each on one side of `LOWMEM_SIZE`; the pages on
the lists of a node are its page frames that are free, and every free page frame is in a node. Each node is in
a state that is reached by freeing these pages, which were not free before. -/
structure HandedOver (P : Pool) (m : Memory) : Prop where
  sorted : ∀ i j, i < j → j < m.memoryNodes → (m.nodes i).endPfn ≤ (m.nodes j).beginPfn
  side : ∀ i < m.memoryNodes, (m.nodes i).endPfn * pageSize ≤ lowmemSize ∨
    lowmemSize ≤ (m.nodes i).beginPfn * pageSize
  free : ∀ i < m.memoryNodes, ∀ q, q ∈ (m.nodes i).freePages ↔
    q < (m.nodes i).nodePfns ∧ FreeFrame P P.size ((m.nodes i).beginPfn + q)
  covered : ∀ f, FreeFrame P P.size f → Covered m f
  once : FreedExactly m (FreeFrame P P.size)

/-- The areas of the free memory lie in regions. -/
theorem BootPools.contains (h : BootPools p) (hok : PoolOk P) (hsub : ∀ x, P.Covers x → p.free.Covers x)
    (hk : k < P.size) : ∃ j < p.all.size, (p.all.areas j).addr ≤ (P.areas k).addr ∧
      (P.areas k).fin ≤ (p.all.areas j).fin :=
  h.all.contains (hok.area k hk).pos fun x h₁ h₂ => h.sub x (hsub x ⟨k, hk, h₁, h₂⟩)

theorem freeFrame_succ : FreeFrame P (k + 1) f ↔ FreeFrame P k f ∨ ((f + 1) * pageSize ≤ maxPhysSize ∧
    (P.areas k).addr ≤ f * pageSize ∧ (f + 1) * pageSize ≤ (P.areas k).fin) := by
  simp only [FreeFrame, Nat.lt_succ_iff_lt_or_eq, or_and_right, exists_or, exists_eq_left]
  exact and_or_left

/-- **The second loop of `setup_buddy`** frees the free pages. -/
theorem BootPools.ensures_free (h : BootPools p) (hok : PoolOk m.pools.free)
    (hsub : ∀ x, m.pools.free.Covers x → p.free.Covers x) (hadded : Added (poolSpans p.all p.all.size) m) :
    Ensures (ballocIterate (fun m => m.pools.free) memoryFreeRegion) m fun _ m' =>
      SameZones m m' ∧ FreedExactly m' (FreeFrame m.pools.free m.pools.free.size) := by
  have hstart : FreedExactly m (FreeFrame m.pools.free 0) := by
    intro i hi
    obtain ⟨garbage, hnode⟩ := (hadded.node i (hadded.count ▸ hi)).node
    rw [hnode]
    simpa [FreeFrame, MemoryNode.nodePfns, MemoryNode.memoryNodeAdd] using BuddyRun.init i _ _ garbage
  refine Ensures.mono (ensures_ballocIterate (P := m.pools.free)
    (I := fun k m' => SameZones m m' ∧ FreedExactly m' (FreeFrame m.pools.free k)) hok.size_le
    (fun _ _ hI => by rw [hI.1.pools]) ?_ ⟨.refl m, hstart⟩) fun _ _ hI => hI
  rintro k m' hk ⟨hsame, hF⟩
  obtain ⟨j, hj, haddr, hfin⟩ := h.contains hok hsub hk
  have harea := hok.area k hk
  have hround : (m.pools.free.areas k).addr + pageSize ≤ 2 ^ 64 := by
    have := h.addr j hj
    have := harea.addr_lt
    unfold pageSize
    omega
  have hframes : ∀ f, (∃ s ∈ regionSpans (m.pools.free.areas k).addr (m.pools.free.areas k).size, s.Has f) ↔ _ :=
    fun f => has_regionSpans_iff (f := f) harea hround
  rw [memoryFreeRegion_eq]
  refine (FreedExactly.ensures_freeSpans h.all h.rounds (fun s hs => ok_of_mem_regionSpans hs) (fun s hs => ?_)
    ?_ hF (hadded.made.same hsame) fun f hf hfree => ?_).mono fun _ m'' hr => ⟨hsame.trans hr.1, ?_⟩
  · obtain ⟨t, ht, hst⟩ := exists_regionSpans (h.all.area j hj) harea hround haddr hfin hs
    exact ⟨t, List.mem_flatMap.2 ⟨j, List.mem_range.2 hj, ht⟩, hst⟩
  · exact pairwise_regionSpans _ _
  · -- an area before has no page frame of this one
    obtain ⟨-, i, hi, hlo, hhi⟩ := hfree
    have hgap := hok.gap i k hi hk
    have := ((hframes f).1 hf).2.1
    unfold pageSize at *
    omega
  · intro i hi
    have := hr.2 i hi
    simpa only [hframes, ← freeFrame_succ] using this

/-- The node of a page frame that is free. -/
theorem BootPools.covered (h : BootPools p) (hok : PoolOk P) (hsub : ∀ x, P.Covers x → p.free.Covers x)
    (hmade : Made (poolSpans p.all p.all.size) m) (hf : FreeFrame P P.size f) : Covered m f := by
  obtain ⟨hmax, k, hk, hlo, hhi⟩ := hf
  obtain ⟨j, hj, haddr, hfin⟩ := h.contains hok hsub hk
  obtain ⟨s, hs, hsf⟩ := (has_regionSpans_iff (h.all.area j hj) (h.rounds j hj)).2
    ⟨hmax, haddr.trans hlo, hhi.trans hfin⟩
  have hmem : s ∈ poolSpans p.all p.all.size := List.mem_flatMap.2 ⟨j, List.mem_range.2 hj, hs⟩
  obtain ⟨i, hi, rfl⟩ := List.getElem_of_mem hmem
  refine ⟨i, hmade.count ▸ hi, ?_⟩
  rw [hmade.begin i hi, hmade.stop i hi]
  exact hsf

theorem Made.side (hmade : Made (poolSpans P P.size) m) (hi : i < m.memoryNodes) :
    (m.nodes i).endPfn * pageSize ≤ lowmemSize ∨ lowmemSize ≤ (m.nodes i).beginPfn * pageSize := by
  rw [hmade.count] at hi
  have hok := ok_of_mem_poolSpans (List.getElem_mem hi)
  have htype := hok.type
  rw [hmade.begin i hi, hmade.stop i hi, Nat.div_mul_cancel hok.stop_dvd, Nat.div_mul_cancel hok.begin_dvd]
  split_ifs at htype with hle
  · exact Or.inl hle
  · exact Or.inr htype.2

theorem FreedExactly.mem_freePages (hF : FreedExactly m F) (hi : i < m.memoryNodes) (q : ℕ) :
    q ∈ (m.nodes i).freePages ↔ q < (m.nodes i).nodePfns ∧ F ((m.nodes i).beginPfn + q) := by
  rw [(hF i hi).reachable.inv.mem_freePages]
  simp only [BuddyState.Free, Set.mem_ofPred_eq, not_and, not_not, mem_coverage, List.not_mem_nil, false_and,
    exists_false, not_false_eq_true, and_true]
  exact and_congr_right fun hq => ⟨fun hf => hf hq, fun hf _ => hf⟩

/-- **`setup_buddy` hands the free memory over.** From pools in order, whose free memory is part of all
memory, if the arrays of pages can be allocated: the pages on the lists of the nodes are then exactly the page
frames that lie in one area of what is free after the arrays have been taken out. -/
theorem BootPools.ensures_setupBuddy (h : BootPools m.pools) (hcount : m.memoryNodes = 0)
    (hlinks : m.links.Circle .order [])
    (halloc : allocArrays (poolSpans m.pools.all m.pools.all.size) m.pools = Except.ok (mmaps, p')) :
    Ensures setupBuddy m fun _ m' => HandedOver p'.free m' ∧ m'.pools = p' ∧
      ∀ x, p'.free.Covers x ↔ m.pools.free.Covers x ∧
        ¬InArrays mmaps (poolSpans m.pools.all m.pools.all.size) x := by
  obtain ⟨hok, hall, hcov⟩ := allocArrays_covers h.free (fun s hs => ok_of_mem_poolSpans hs) halloc
  have hsub : ∀ x, p'.free.Covers x → m.pools.free.Covers x := fun x hx => ((hcov x).1 hx).1
  rw [setupBuddy, ensures_bind]
  refine (h.ensures_nodes hcount hlinks halloc).mono fun _ m₁ ⟨hadded, hpools⟩ => ?_
  subst hpools
  rw [ensures_bind]
  refine (h.ensures_free hok hsub hadded).mono fun _ m₂ ⟨hsame, hF⟩ => ensures_modify.2 ?_
  have hmade := hadded.made.same hsame
  refine ⟨⟨fun i j hij hj => hmade.sorted h.all h.rounds hij hj, fun i hi => hmade.side hi,
    fun i hi q => hF.mem_freePages hi q, fun f hf => h.covered hok hsub hmade.linkNodes hf, hF⟩, hsame.pools, hcov⟩

theorem bootPools_twoRegions : BootPools twoRegions.pools where
  all := poolOk_twoRegions
  free := poolOk_twoRegions
  count := by decide
  addr := by decide
  sub _ hx := hx

/-- The arrays of the two nodes are put into the first region; the pages of the second one are free. -/
theorem ensures_setupBuddy_twoRegions : Ensures setupBuddy twoRegions fun _ m' => HandedOver m'.pools.free m' ∧
    Covered m' 5 := by
  have hrun : returns (allocArrays (poolSpans twoRegions.pools.all 2)) twoRegions.pools (fun _ p' =>
      decide (2 < p'.free.size ∧ p'.free.areas 2 = ⟨0x5000, 0x2000⟩)) = true := by
    decide +kernel
  obtain ⟨mmaps, p', halloc, hp'⟩ := returns_iff.1 hrun
  rw [decide_eq_true_eq] at hp'
  refine (bootPools_twoRegions.ensures_setupBuddy rfl circle_twoRegions halloc).mono ?_
  intro _ m' ⟨hover, hpools, _⟩
  subst hpools
  refine ⟨hover, hover.covered 5 ⟨by decide, 2, hp'.1, ?_⟩⟩
  rw [hp'.2]
  decide

end

end Zones

end Kernel64
