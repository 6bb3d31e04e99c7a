import Kernel64.Zones.Model
import Kernel64.Buddy.Runs
import Kernel64.Balloc.Runs

/-!
# The nodes that `setup_buddy` makes

The nodes are those of the regions of memory, in their order (`Added`). What is done with a node later on
changes neither its bounds nor the number of the node that its pages have (`SameZones`).
-/

namespace Kernel64

namespace Zones

open Balloc (Pool Pools sub64 align64 maxAreasCount)

/-! ### The number of a node in its pages -/

@[simp]
theorem pageNodeId_setBusy (p : Page) : pageNodeId p.setBusy = pageNodeId p := by
  have hmask : (p.flags ||| pageBusyMask) &&& 0xff#64 = p.flags &&& 0xff#64 := by
    ext i hi
    simp only [pageBusyMask, BitVec.getElem_and, BitVec.getElem_or]
    have hbit : ∀ i < 64, ((1#64 <<< 8).getLsbD i && (0xff#64).getLsbD i) = false := by decide
    have := hbit i hi
    rw [BitVec.getLsbD_eq_getElem hi, BitVec.getLsbD_eq_getElem hi] at this
    rw [Bool.and_or_distrib_right, this, Bool.or_false]
  rw [pageNodeId, Page.setBusy, hmask, pageNodeId]

@[simp]
theorem pageNodeId_setFree (p : Page) : pageNodeId p.setFree = pageNodeId p := by
  have hmask : p.flags &&& ~~~pageBusyMask &&& 0xff#64 = p.flags &&& 0xff#64 := by
    rw [BitVec.and_assoc]
    congr 1
  rw [pageNodeId, Page.setFree, hmask, pageNodeId]

@[simp]
theorem pageNodeId_setOrder (p : Page) (order : ℕ) : pageNodeId (p.setOrder order) = pageNodeId p := rfl

theorem pageNodeId_ofNat {i : ℕ} (hi : i < maxMemoryNodes) (u : BitVec 64) :
    pageNodeId (Page.setBusy ⟨BitVec.ofNat 64 i, u⟩) = i := by
  have hall : ∀ i < 256, (BitVec.ofNat 64 i &&& 0xff#64).toNat = i := by decide +kernel
  rw [pageNodeId_setBusy]
  exact hall i hi

/-- A node with the same bounds, whose pages have the same number of a node. -/
structure SameNode (n n' : MemoryNode) : Prop where
  beginPfn : n'.beginPfn = n.beginPfn
  endPfn : n'.endPfn = n.endPfn
  id : ∀ p, pageNodeId (n'.mmap p) = pageNodeId (n.mmap p)

section

variable {n n' n'' : MemoryNode} {pfn order k : ℕ}

theorem SameNode.refl (n : MemoryNode) : SameNode n n := ⟨rfl, rfl, fun _ => rfl⟩

theorem SameNode.trans (h : SameNode n n') (h' : SameNode n' n'') : SameNode n n'' :=
  ⟨h'.beginPfn.trans h.beginPfn, h'.endPfn.trans h.endPfn, fun p => (h'.id p).trans (h.id p)⟩

theorem sameNode_modifyPage {f : Page → Page} (hf : ∀ p, pageNodeId (f p) = pageNodeId p) :
    SameNode n (n.modifyPage pfn f) := by
  refine ⟨rfl, rfl, fun p => ?_⟩
  by_cases hp : p = pfn
  · rw [hp, MemoryNode.modifyPage_mmap_self, hf]
  · rw [MemoryNode.modifyPage_mmap_of_ne _ _ _ hp]

theorem sameNode_listAdd : SameNode n (n.listAdd pfn k) := ⟨rfl, rfl, fun _ => rfl⟩

theorem sameNode_listDel : SameNode n (n.listDel pfn) := ⟨rfl, rfl, fun _ => rfl⟩

theorem sameNode_splitLoop : ∀ c (n : MemoryNode), SameNode n (MemoryNode.splitLoop order pfn c n)
  | 0, n => .refl n
  | c + 1, n => by
    rw [MemoryNode.splitLoop]
    split_ifs
    · exact ((sameNode_modifyPage fun p => by simp).trans sameNode_listAdd).trans (sameNode_splitLoop c _)
    · exact .refl n

theorem sameNode_allocPagesNode : SameNode n (MemoryNode.allocPagesNode order n).2 := by
  rw [MemoryNode.allocPagesNode]
  split
  · exact .refl n
  · split
    · exact .refl n
    · exact (sameNode_listDel.trans (sameNode_modifyPage pageNodeId_setBusy)).trans (sameNode_splitLoop _ _)

theorem sameNode_mergeLoop : ∀ m pfn order (n : MemoryNode),
    SameNode n (MemoryNode.mergeLoop pfn order m n).2
  | 0, _, _, n => .refl n
  | m + 1, pfn, order, n => by
    rw [MemoryNode.mergeLoop]
    split_ifs
    · exact .refl n
    · exact .refl n
    · exact .refl n
    · exact .refl n
    · exact sameNode_listDel.trans (sameNode_mergeLoop m _ _ _)
    · exact sameNode_listDel.trans (sameNode_mergeLoop m _ _ _)

theorem sameNode_freePagesNode : ∀ pages, SameNode n (MemoryNode.freePagesNode pages order n)
  | none => .refl n
  | some pfn => by
    rw [MemoryNode.freePagesNode, MemoryNode.freePagesNode']
    exact ((sameNode_mergeLoop _ _ _ n).trans (sameNode_modifyPage fun p => by simp)).trans sameNode_listAdd

theorem sameNode_freeRegionLoop {pages stop : ℕ} : ∀ turns pfn (n : MemoryNode),
    SameNode n (MemoryNode.freeRegionLoop pages stop turns pfn n)
  | 0, _, n => .refl n
  | turns + 1, pfn, n => by
    rw [MemoryNode.freeRegionLoop]
    split_ifs
    · exact .refl n
    · exact (sameNode_freePagesNode _).trans (sameNode_freeRegionLoop turns _ _)

theorem sameNode_memoryFreeRegion {b e : ℕ} : SameNode n (MemoryNode.memoryFreeRegion b e n) :=
  sameNode_freeRegionLoop _ _ n

end

/-! ### What later calls do not change -/

/-- The same nodes, in the same order. -/
structure SameZones (m m' : Memory) : Prop where
  memoryNodes : m'.memoryNodes = m.memoryNodes
  links : m'.links = m.links
  nodeType : m'.nodeType = m.nodeType
  pools : m'.pools = m.pools
  type : ∀ i, (m'.nodes i).type = (m.nodes i).type
  node : ∀ i, SameNode (m.nodes i).toMemoryNode (m'.nodes i).toMemoryNode

section

variable {m m' m'' : Memory} {i : ℕ}

theorem SameZones.refl (m : Memory) : SameZones m m := ⟨rfl, rfl, rfl, rfl, fun _ => rfl, fun _ => .refl _⟩

theorem SameZones.trans (h : SameZones m m') (h' : SameZones m' m'') : SameZones m m'' :=
  ⟨h'.memoryNodes.trans h.memoryNodes, h'.links.trans h.links, h'.nodeType.trans h.nodeType,
    h'.pools.trans h.pools, fun i => (h'.type i).trans (h.type i), fun i => (h.node i).trans (h'.node i)⟩

@[simp]
theorem setNode_self {n : MemoryNode} : ((m.setNode i n).nodes i).toMemoryNode = n := by
  simp [Memory.setNode]

theorem setNode_of_ne {n : MemoryNode} {j : ℕ} (hj : j ≠ i) : (m.setNode i n).nodes j = m.nodes j := by
  simp [Memory.setNode, hj]

theorem sameZones_setNode {n : MemoryNode} (h : SameNode (m.nodes i).toMemoryNode n) :
    SameZones m (m.setNode i n) := by
  refine ⟨rfl, rfl, rfl, rfl, fun j => ?_, fun j => ?_⟩
  · by_cases hj : j = i
    · subst hj
      simp [Memory.setNode]
    · rw [setNode_of_ne hj]
  · by_cases hj : j = i
    · subst hj
      rw [setNode_self]
      exact h
    · rw [setNode_of_ne hj]
      exact .refl _

end

/-! ### The nodes of the regions -/

/-- A range of addresses with the type of the node for it. -/
structure Span where
  type : NodeType
  begin : ℕ
  stop : ℕ
  deriving DecidableEq

/-- The nodes of a region. -/
def regionSpans (addr size : ℕ) : List Span :=
  if regionBegin addr ≥ regionEnd addr size then []
  else if regionBegin addr < lowmemSize ∧ regionEnd addr size > lowmemSize then
    [⟨.low, regionBegin addr, lowmemSize⟩, ⟨.high, lowmemSize, regionEnd addr size⟩]
  else [⟨if regionEnd addr size ≤ lowmemSize then .low else .high, regionBegin addr, regionEnd addr size⟩]

/-- The nodes of the areas of a pool before the area `k`. -/
def poolSpans (p : Pool) (k : ℕ) : List Span :=
  (List.range k).flatMap fun i => regionSpans (p.areas i).addr (p.areas i).size

/-- Add nodes one after the other. -/
def addSpans : List Span → ZoneM Unit
  | [] => return
  | s :: l => do
    addMemoryNode s.type s.begin s.stop
    addSpans l

theorem memoryNodeAdd_eq (addr size : ℕ) : memoryNodeAdd addr size = addSpans (regionSpans addr size) := by
  rw [memoryNodeAdd, regionSpans]
  split_ifs
  · rfl
  · simp [addSpans]
  · simp [addSpans]
  · simp [addSpans]

/-- A span of page frames on one side of `LOWMEM_SIZE`. -/
structure Span.Ok (s : Span) : Prop where
  begin_dvd : pageSize ∣ s.begin
  stop_dvd : pageSize ∣ s.stop
  lt : s.begin < s.stop
  le : s.stop ≤ maxPhysSize
  type : if s.stop ≤ lowmemSize then s.type = .low else s.type = .high ∧ lowmemSize ≤ s.begin

theorem pageSize_dvd_regionBegin (addr : ℕ) : pageSize ∣ regionBegin addr := Nat.dvd_mul_left _ _

theorem pageSize_dvd_regionEnd (addr size : ℕ) : pageSize ∣ regionEnd addr size := by
  rcases Nat.le_total (Balloc.add64 addr size / pageSize * pageSize) maxPhysSize with h | h
  · rw [regionEnd, min_eq_left h]
    exact Nat.dvd_mul_left _ _
  · rw [regionEnd, min_eq_right h]
    decide

theorem regionEnd_le (addr size : ℕ) : regionEnd addr size ≤ maxPhysSize := min_le_right _ _

theorem ok_of_mem_regionSpans {addr size : ℕ} {s : Span} (hs : s ∈ regionSpans addr size) : s.Ok := by
  have hlow : lowmemSize < maxPhysSize := by decide
  have hdvd : pageSize ∣ lowmemSize := by decide
  have hle := regionEnd_le addr size
  rw [regionSpans] at hs
  split_ifs at hs with hempty hcross hside
  · simp at hs
  · simp only [List.mem_cons, List.not_mem_nil, or_false] at hs
    rcases hs with rfl | rfl
    · exact ⟨pageSize_dvd_regionBegin addr, hdvd, hcross.1, hlow.le, by simp⟩
    · exact ⟨hdvd, pageSize_dvd_regionEnd addr size, hcross.2, hle, by simp [hcross.2]⟩
  · obtain rfl := List.mem_singleton.1 hs
    exact ⟨pageSize_dvd_regionBegin addr, pageSize_dvd_regionEnd addr size, Nat.lt_of_not_ge hempty, hle,
      by simp [hside]⟩
  · obtain rfl := List.mem_singleton.1 hs
    refine ⟨pageSize_dvd_regionBegin addr, pageSize_dvd_regionEnd addr size, Nat.lt_of_not_ge hempty, hle, ?_⟩
    simp only [if_neg hside, true_and]
    omega

theorem ok_of_mem_poolSpans {p : Pool} {k : ℕ} {s : Span} (hs : s ∈ poolSpans p k) : s.Ok := by
  obtain ⟨i, -, hs⟩ := List.mem_flatMap.1 hs
  exact ok_of_mem_regionSpans hs

/-- The node `i` is as it has been made for a span. -/
structure FreshNode (i : ℕ) (s : Span) (z : ZoneNode) : Prop where
  type : z.type = s.type
  node : ∃ garbage, z.toMemoryNode =
    MemoryNode.memoryNodeAdd i (s.begin / pageSize) (s.stop / pageSize) garbage

/-- The nodes have been made for the spans. -/
structure Added (l : List Span) (m : Memory) : Prop where
  count : m.memoryNodes = l.length
  le : l.length ≤ maxMemoryNodes
  node : ∀ i (h : i < l.length), FreshNode i l[i] (m.nodes i)
  order : m.links.Circle .order []

section

variable {m m' : Memory} {l l' : List Span} {s : Span}

theorem ensures_onPools {α : Type} {c : Balloc.BallocM α} {Q : α → Memory → Prop} :
    Ensures (onPools c) m Q ↔ Ensures c m.pools fun a p => Q a { m with pools := p } := by
  unfold Ensures onPools
  cases hc : c m.pools with
  | error e => simp [Except.map]
  | ok r =>
    obtain ⟨a, p⟩ := r
    simp [Except.map]

theorem Span.Ok.pages_eq (hs : s.Ok) :
    s.begin / pageSize + sub64 s.stop s.begin / pageSize = s.stop / pageSize := by
  have hlt := hs.lt
  have hle := hs.le
  have hmax : maxPhysSize < 2 ^ 64 := by decide
  obtain ⟨a, ha⟩ := hs.begin_dvd
  obtain ⟨b, hb⟩ := hs.stop_dvd
  rw [Balloc.sub64_eq hlt.le (by omega), ha, hb, ← Nat.mul_sub, Nat.mul_div_cancel_left _ (by decide),
    Nat.mul_div_cancel_left _ (by decide), Nat.mul_div_cancel_left _ (by decide)]
  rw [ha, hb] at hlt
  have := Nat.lt_of_mul_lt_mul_left hlt
  omega

/-- The state with one more node. -/
def Memory.withNode (m : Memory) (p : Pools) (s : Span) (mmap : ℕ) : Memory :=
  { m with
    pools := p
    nodes := Function.update m.nodes m.memoryNodes
      { MemoryNode.memoryNodeAdd m.memoryNodes (s.begin / pageSize) (s.stop / pageSize)
          fun i => m.ram (mmap + sizeofPage * i + 24) with
        type := s.type }
    memoryNodes := m.memoryNodes + 1
    links := m.links.init (.node m.memoryNodes) }

/-- The bytes of the array of pages of a node. -/
def Span.arraySize (s : Span) : ℕ := sizeofPage * ((s.stop - s.begin) / pageSize)

theorem Span.Ok.arraySize_eq (hs : s.Ok) :
    sizeofPage * (sub64 s.stop s.begin / pageSize) % 2 ^ 64 = s.arraySize := by
  have hlt := hs.lt
  have hle := hs.le
  unfold maxPhysSize at hle
  rw [Balloc.sub64_eq hlt.le (by omega)]
  refine Nat.mod_eq_of_lt ?_
  unfold sizeofPage pageSize
  omega

/-- **`__memory_node_add`** makes a node, if its array of pages can be allocated. -/
theorem ensures_addMemoryNode (hs : s.Ok) {Q : Unit → Memory → Prop} :
    Ensures (addMemoryNode s.type s.begin s.stop) m Q ↔ m.memoryNodes < maxMemoryNodes ∧
      Ensures (Balloc.ballocAllocAligned pageSize lowmemSize s.arraySize pageSize) m.pools fun r p =>
        ∃ mmap, r = some mmap ∧ Q () (m.withNode p s mmap) := by
  rw [addMemoryNode, ensures_bind, ensures_get]
  by_cases hfull : maxMemoryNodes ≤ m.memoryNodes
  · rw [if_pos hfull, ensures_throw]
    exact iff_of_false id fun hc => absurd hc.1 (Nat.not_lt_of_ge hfull)
  · rw [if_neg hfull, and_iff_right (Nat.lt_of_not_ge hfull)]
    dsimp only
    rw [hs.arraySize_eq, hs.pages_eq, ensures_bind, ensures_onPools]
    refine exists_congr fun r => exists_congr fun p => and_congr_right fun _ => ?_
    cases r with
    | none => simp
    | some mmap =>
      dsimp only
      rw [ensures_modify]
      exact ⟨fun hq => ⟨mmap, rfl, hq⟩, fun ⟨_, hm, hq⟩ => Option.some.inj hm ▸ hq⟩

theorem Added.withNode (h : Added l m) (hlt : m.memoryNodes < maxMemoryNodes) (p : Pools) (s : Span)
    (mmap : ℕ) : Added (l ++ [s]) (m.withNode p s mmap) := by
  have hcount := h.count
  refine ⟨?_, ?_, fun i hi => ?_, ?_⟩
  · rw [List.length_append, ← hcount]
    rfl
  · rw [List.length_append, ← hcount]
    exact hlt
  · rw [List.length_append, List.length_singleton] at hi
    rcases Nat.lt_or_eq_of_le (Nat.le_of_lt_succ hi) with hi | rfl
    · rw [List.getElem_append_left hi]
      have hne : i ≠ m.memoryNodes := by omega
      simp only [Memory.withNode, Function.update_of_ne hne]
      exact h.node i hi
    · rw [List.getElem_concat_length rfl]
      simp only [Memory.withNode, ← hcount, Function.update_self]
      exact ⟨rfl, _, rfl⟩
  · exact h.order.init (by simp)

theorem yields_ballocAllocAligned {low high size align : ℕ} {p : Pools} :
    Yields (Balloc.ballocAllocAligned low high size align) p fun _ p' => p'.all = p.all := by
  intro r p' hrun
  rw [Balloc.ballocAllocAligned] at hrun
  split_ifs at hrun
  · obtain ⟨-, rfl⟩ := Prod.mk.inj (Except.ok.inj hrun)
    rfl
  · obtain ⟨_, _, -, -, rfl⟩ := Balloc.ensures_onFree.1
      (⟨r, p', hrun, rfl, rfl⟩ : Ensures (Balloc.onFree _) p fun r₁ p₁ => r₁ = r ∧ p₁ = p')
    rfl

/-- What a run leaves is as before, and the nodes for some more spans have been made. -/
theorem Added.yields_addSpans (h : Added l m) (hok : ∀ s ∈ l', s.Ok) :
    Yields (addSpans l') m fun _ m' => Added (l ++ l') m' ∧ m'.pools.all = m.pools.all := by
  induction l' generalizing l m with
  | nil =>
    rw [List.append_nil]
    exact yields_pure ⟨h, rfl⟩
  | cons s l' ih =>
    refine Yields.bind fun _ m₁ hrun => ?_
    obtain ⟨hlt, _, p, halloc, mmap, -, -, rfl⟩ := (ensures_addMemoryNode (hok s (by simp))).1
      (⟨_, m₁, hrun, rfl, rfl⟩ : Ensures _ m fun u m₂ => u = () ∧ m₂ = m₁)
    have hnext := ih (h.withNode hlt p s mmap) fun x hx => hok x (List.mem_cons_of_mem _ hx)
    refine hnext.mono fun _ m' ⟨hadded, hall⟩ => ⟨?_, hall.trans (yields_ballocAllocAligned _ _ halloc)⟩
    rwa [List.append_assoc, List.singleton_append] at hadded

theorem poolSpans_succ (p : Pool) (k : ℕ) :
    poolSpans p (k + 1) = poolSpans p k ++ regionSpans (p.areas k).addr (p.areas k).size := by
  rw [poolSpans, List.range_succ, List.flatMap_append, List.flatMap_singleton, poolSpans]

/-- What `exec` keeps from one area to the next, `balloc_iterate` keeps. -/
theorem yields_ballocIterate {pool : Memory → Pool} {exec : ℕ → ℕ → ZoneM Unit} {P : Pool}
    {I : ℕ → Memory → Prop} (hpool : ∀ i m, I i m → pool m = P)
    (hstep : ∀ i m, i < P.size → I i m →
      Yields (exec (P.areas i).addr (P.areas i).size) m fun _ m' => I (i + 1) m') (h₀ : I 0 m) :
    Yields (ballocIterate pool exec) m fun _ m' => I P.size m' := by
  have hloop : ∀ fuel i m, i ≤ P.size → I i m →
      Yields (iterateFrom pool exec fuel i) m fun _ m' => I P.size m' := by
    intro fuel
    induction fuel with
    | zero => exact fun _ _ _ _ => yields_throw
    | succ fuel ih =>
      intro i m hi hI
      refine Yields.bind (ensures_get.2 ?_).yields
      dsimp only
      rw [hpool i m hI]
      split_ifs with heq
      · exact yields_pure (heq ▸ hI)
      · exact Yields.bind ((hstep i m (by omega) hI).mono fun _ m' hI' => ih (i + 1) m' (by omega) hI')
  exact hloop _ 0 m (Nat.zero_le _) h₀

theorem ensures_ballocIterate {pool : Memory → Pool} {exec : ℕ → ℕ → ZoneM Unit} {P : Pool}
    {I : ℕ → Memory → Prop} (hsize : P.size ≤ maxAreasCount) (hpool : ∀ i m, I i m → pool m = P)
    (hstep : ∀ i m, i < P.size → I i m →
      Ensures (exec (P.areas i).addr (P.areas i).size) m fun _ m' => I (i + 1) m') (h₀ : I 0 m) :
    Ensures (ballocIterate pool exec) m fun _ m' => I P.size m' := by
  have hloop : ∀ fuel i m, i ≤ P.size → P.size - i < fuel → I i m →
      Ensures (iterateFrom pool exec fuel i) m fun _ m' => I P.size m' := by
    intro fuel
    induction fuel with
    | zero => exact fun _ _ _ hfuel _ => absurd hfuel (Nat.not_lt_zero _)
    | succ fuel ih =>
      intro i m hi hfuel hI
      rw [iterateFrom, ensures_bind, ensures_get]
      dsimp only
      rw [hpool i m hI]
      split_ifs with heq
      · exact ensures_pure.2 (heq ▸ hI)
      · rw [ensures_bind]
        exact (hstep i m (by omega) hI).mono fun _ m' hI' => ih (i + 1) m' (by omega) (by omega) hI'
  exact hloop _ 0 m (Nat.zero_le _) (by omega) h₀

/-- **The first loop of `setup_buddy`** makes the nodes of all regions. -/
theorem Added.yields_nodes (h : Added [] m) :
    Yields (ballocIterate (fun m => m.pools.all) memoryNodeAdd) m fun _ m' =>
      Added (poolSpans m.pools.all m.pools.all.size) m' ∧ m'.pools.all = m.pools.all := by
  refine yields_ballocIterate (P := m.pools.all)
    (I := fun i m' => Added (poolSpans m.pools.all i) m' ∧ m'.pools.all = m.pools.all)
    (fun _ _ hI => hI.2) (fun i m' _ ⟨hadded, hall⟩ => ?_) ⟨h, rfl⟩
  rw [memoryNodeAdd_eq]
  refine (hadded.yields_addSpans fun s hs => ok_of_mem_regionSpans hs).mono fun _ m₁ ⟨hadded₁, hall₁⟩ => ?_
  rw [← poolSpans_succ] at hadded₁
  exact ⟨hadded₁, hall₁.trans hall⟩

theorem yields_freeRegion {b e : ℕ} : Yields (freeRegion b e) m fun _ m' => SameZones m m' := by
  refine Yields.bind (ensures_get.2 ?_).yields
  dsimp only
  cases pfnNode m (b / pageSize) with
  | none => exact yields_throw
  | some i =>
    dsimp only
    split_ifs
    · exact yields_throw
    · exact (ensures_set.2 (sameZones_setNode sameNode_memoryFreeRegion)).yields

theorem yields_memoryFreeRegion {addr size : ℕ} :
    Yields (memoryFreeRegion addr size) m fun _ m' => SameZones m m' := by
  rw [memoryFreeRegion]
  split_ifs
  · exact yields_pure (.refl m)
  · exact Yields.bind (yields_freeRegion.mono fun _ m₁ h₁ => yields_freeRegion.mono fun _ m₂ h₂ => h₁.trans h₂)
  · exact yields_freeRegion

/-- **The second loop of `setup_buddy`** frees pages of the nodes. -/
theorem yields_free : Yields (ballocIterate (fun m => m.pools.free) memoryFreeRegion) m fun _ m' =>
    SameZones m m' := by
  refine yields_ballocIterate (P := m.pools.free) (I := fun _ m' => SameZones m m')
    (fun _ _ hI => by rw [hI.pools]) (fun _ m' _ hI => ?_) (.refl m)
  exact yields_memoryFreeRegion.mono fun _ m'' h => hI.trans h

end

end Zones

end Kernel64
