import Kernel64.Zones.Order

/-!
# Runs of the page allocator

After `setup_buddy`, pages are allocated and freed in any order. The nodes stay those that were made of the
regions of memory (`Made`), in the order in which they were linked; so an allocation of low memory gives low
memory, any other tries high memory first, and a page knows its page frame.
-/

namespace Kernel64

namespace Zones

open Balloc (Pool Pools PoolOk sub64)
open MemoryNode (allocPagesNode)

/-- The state after `setup_buddy`, with the regions of memory in `all`, and any calls. -/
inductive ZoneRun (all : Pool) : Memory → Prop
  | setup {m m' : Memory} : m.memoryNodes = 0 → m.links.Circle .order [] → m.pools.all = all →
      setupBuddy m = Except.ok ((), m') → ZoneRun all m'
  | alloc {m m' : Memory} {order : ℕ} {t : NodeType} {r : Option (ℕ × ℕ)} : ZoneRun all m →
      allocPagesType order t m = Except.ok (r, m') → ZoneRun all m'
  | allocNode {m : Memory} (order i : ℕ) : ZoneRun all m →
      ZoneRun all (m.setNode i (allocPagesNode order (m.nodes i).toMemoryNode).2)
  | free {m m' : Memory} {order : ℕ} {pages : Option (ℕ × ℕ)} : ZoneRun all m →
      freePages pages order m = Except.ok ((), m') → ZoneRun all m'
  | write {m : Memory} (i pfn : ℕ) (u : BitVec 64) : ZoneRun all m →
      ZoneRun all (m.setNode i ((m.nodes i).modifyPage pfn fun page => { page with u := u }))

/-- The nodes are those of the spans. -/
structure Made (l : List Span) (m : Memory) : Prop where
  count : m.memoryNodes = l.length
  le : l.length ≤ maxMemoryNodes
  type : ∀ i (h : i < l.length), (m.nodes i).type = l[i].type
  begin : ∀ i (h : i < l.length), (m.nodes i).beginPfn = l[i].begin / pageSize
  stop : ∀ i (h : i < l.length), (m.nodes i).endPfn = l[i].stop / pageSize
  id : ∀ i < l.length, ∀ p, pageNodeId ((m.nodes i).mmap p) = i

section

variable {all : Pool} {m m' : Memory} {l : List Span} {order i pfn : ℕ}

theorem Added.made (h : Added l m) : Made l m := by
  refine ⟨h.count, h.le, fun i hi => (h.node i hi).type, fun i hi => ?_, fun i hi => ?_, fun i hi p => ?_⟩
  all_goals
    obtain ⟨garbage, hnode⟩ := (h.node i hi).node
    rw [hnode]
  · rfl
  · rfl
  · exact pageNodeId_ofNat (hi.trans_le h.le) _

theorem Made.same (h : Made l m) (hs : SameZones m m') : Made l m' := by
  refine ⟨hs.memoryNodes.trans h.count, h.le, fun i hi => (hs.type i).trans (h.type i hi),
    fun i hi => (hs.node i).beginPfn.trans (h.begin i hi), fun i hi => (hs.node i).endPfn.trans (h.stop i hi),
    fun i hi p => ((hs.node i).id p).trans (h.id i hi p)⟩

theorem Made.linkNodes (h : Made l m) : Made l (linkNodes m) := ⟨h.count, h.le, h.type, h.begin, h.stop, h.id⟩

/-- **`setup_buddy`** makes and links the nodes of all regions. -/
theorem yields_setupBuddy (hcount : m.memoryNodes = 0) (hlinks : m.links.Circle .order []) :
    Yields setupBuddy m fun _ m' => Made (poolSpans m.pools.all m.pools.all.size) m' ∧ Ordered m' := by
  have h₀ : Added [] m := ⟨hcount, Nat.zero_le _, fun i hi => absurd hi (Nat.not_lt_zero i), hlinks⟩
  refine Yields.bind (h₀.yields_nodes.mono fun _ m₁ ⟨hadded, _⟩ => ?_)
  refine Yields.bind (yields_free.mono fun _ m₂ hsame => ?_)
  refine (ensures_modify.2 ⟨(hadded.made.same hsame).linkNodes, ordered_linkNodes ?_⟩).yields
  rw [hsame.links]
  exact hadded.order

theorem yields_freePages {pages : Option (ℕ × ℕ)} :
    Yields (freePages pages order) m fun _ m' => SameZones m m' := by
  rcases pages with _ | ⟨i, pfn⟩
  · exact yields_pure (.refl m)
  · refine Yields.bind (ensures_get.2 ?_).yields
    split_ifs
    · exact (ensures_set.2 (sameZones_setNode (sameNode_freePagesNode _))).yields
    · exact yields_throw

theorem sameZones_afterPages (r : Option (ℕ × ℕ)) : SameZones m (afterPages order m r) := by
  rcases r with _ | ⟨i, pfn⟩
  · exact .refl m
  · exact sameZones_setNode sameNode_allocPagesNode

/-- **Every run** keeps the nodes and their order. -/
theorem ZoneRun.made (hrun : ZoneRun all m) : Made (poolSpans all all.size) m ∧ Ordered m := by
  have hstep : ∀ {m m' : Memory}, Made (poolSpans all all.size) m ∧ Ordered m → SameZones m m' →
      Made (poolSpans all all.size) m' ∧ Ordered m' := fun h hs => ⟨h.1.same hs, h.2.same hs⟩
  induction hrun with
  | setup hcount hlinks hall hcall =>
    subst hall
    exact yields_setupBuddy hcount hlinks _ _ hcall
  | alloc _ hcall ih =>
    obtain ⟨-, rfl⟩ := (ih.2.ensures_allocPagesType (ih.1.count.trans_le ih.1.le) _).of_run hcall
    exact hstep ih (sameZones_afterPages _)
  | allocNode order i _ ih => exact hstep ih (sameZones_setNode sameNode_allocPagesNode)
  | free _ hcall ih => exact hstep ih (yields_freePages _ _ hcall)
  | write i pfn u _ ih => exact hstep ih (sameZones_setNode (sameNode_modifyPage fun _ => rfl))

theorem Made.low_iff (h : Made (poolSpans all all.size) m) (hi : i < m.memoryNodes) :
    (m.nodes i).type = .low ↔ (m.nodes i).endPfn * pageSize ≤ lowmemSize := by
  rw [h.count] at hi
  have hok := ok_of_mem_poolSpans (List.getElem_mem hi)
  have htype := hok.type
  rw [h.type i hi, h.stop i hi, Nat.div_mul_cancel hok.stop_dvd]
  split_ifs at htype with hle
  · exact iff_of_true htype hle
  · exact iff_of_false (by rw [htype.1]; decide) hle

/-! ### Zones -/

theorem firstPages_eq_none {l : List ℕ} :
    firstPages order m l = none ↔ ∀ i ∈ l, (allocPagesNode order (m.nodes i).toMemoryNode).1 = none := by
  induction l with
  | nil => simp [firstPages]
  | cons i l ih =>
    rw [firstPages]
    cases hr : (allocPagesNode order (m.nodes i).toMemoryNode).1 with
    | none => simp [ih, hr]
    | some pfn => simp [hr]

/-- The pages are those of the first node that has some. -/
theorem firstPages_eq_some {l : List ℕ} (h : firstPages order m l = some (i, pfn)) :
    ∃ l₁ l₂, l = l₁ ++ i :: l₂ ∧ (allocPagesNode order (m.nodes i).toMemoryNode).1 = some pfn ∧
      ∀ j ∈ l₁, (allocPagesNode order (m.nodes j).toMemoryNode).1 = none := by
  induction l with
  | nil => cases h
  | cons j l ih =>
    rw [firstPages] at h
    cases hr : (allocPagesNode order (m.nodes j).toMemoryNode).1 with
    | some p =>
      rw [hr] at h
      obtain ⟨rfl, rfl⟩ := Prod.mk.inj (Option.some.inj h)
      exact ⟨[], l, rfl, hr, fun _ hc => (by cases hc)⟩
    | none =>
      rw [hr] at h
      obtain ⟨l₁, l₂, rfl, hsome, hnone⟩ := ih h
      refine ⟨j :: l₁, l₂, rfl, hsome, fun k hk => ?_⟩
      rcases List.mem_cons.1 hk with rfl | hk
      · exact hr
      · exact hnone k hk

/-- A node of low memory comes after all those of high memory. -/
theorem high_mem_of_tried {l₁ l₂ : List ℕ} (h : tried m .high = l₁ ++ i :: l₂) (hlow : (m.nodes i).type = .low)
    {j : ℕ} (hj : j < m.memoryNodes) (hhigh : (m.nodes j).type = .high) : j ∈ l₁ := by
  have hmem : j ∈ nodesOf m .high := mem_nodesOf.2 ⟨hj, hhigh⟩
  have hnot : i ∉ nodesOf m .high := by
    rw [mem_nodesOf, hlow]
    exact fun hc => nomatch hc.2
  -- otherwise the node of low memory would be among those of high memory
  rw [tried] at h
  rcases List.append_eq_append_iff.1 h with ⟨l, rfl, -⟩ | ⟨l, heq, hl⟩
  · exact List.mem_append_left _ hmem
  · cases l with
    | nil =>
      rw [List.append_nil] at heq
      exact heq ▸ hmem
    | cons k l =>
      obtain ⟨rfl, -⟩ := List.cons.inj hl
      exact absurd (heq ▸ List.mem_append_right _ List.mem_cons_self) hnot

/-- **Zone selection.** In every state of a run, an allocation of low memory gives pages of a node below
`LOWMEM_SIZE`, and it fails if and only if every such node does; an allocation of any memory fails if and only
if every node does, and gives low memory only if all nodes of high memory fail. One node is changed if the
allocation succeeds, and none if it fails. -/
theorem zoneRun_alloc (hrun : ZoneRun all m) (order : ℕ) :
    (∀ i < m.memoryNodes, (m.nodes i).type = .low ↔ (m.nodes i).endPfn * pageSize ≤ lowmemSize) ∧
    (Ensures (allocPagesType order .low) m fun r m' =>
      (r = none ↔ ∀ i < m.memoryNodes, (m.nodes i).type = .low →
        (allocPagesNode order (m.nodes i).toMemoryNode).1 = none) ∧
      (r = none → m' = m) ∧
      ∀ i pfn, r = some (i, pfn) → i < m.memoryNodes ∧ (m.nodes i).endPfn * pageSize ≤ lowmemSize ∧
        (allocPagesNode order (m.nodes i).toMemoryNode).1 = some pfn ∧
        m' = m.setNode i (allocPagesNode order (m.nodes i).toMemoryNode).2) ∧
    Ensures (allocPages order) m fun r m' =>
      (r = none ↔ ∀ i < m.memoryNodes, (allocPagesNode order (m.nodes i).toMemoryNode).1 = none) ∧
      (r = none → m' = m) ∧
      ∀ i pfn, r = some (i, pfn) → i < m.memoryNodes ∧
        (allocPagesNode order (m.nodes i).toMemoryNode).1 = some pfn ∧
        m' = m.setNode i (allocPagesNode order (m.nodes i).toMemoryNode).2 ∧
        ((m.nodes i).type = .low → ∀ j < m.memoryNodes, (m.nodes j).type = .high →
          (allocPagesNode order (m.nodes j).toMemoryNode).1 = none) := by
  obtain ⟨hmade, hord⟩ := hrun.made
  have hcount := hmade.count.trans_le hmade.le
  refine ⟨fun i hi => hmade.low_iff hi, ?_, ?_⟩
  · refine (hord.ensures_allocPagesType hcount .low).mono fun r m' ⟨hr, hm'⟩ => ⟨?_, ?_, fun i pfn hsome => ?_⟩
    · rw [hr, firstPages_eq_none]
      simp only [mem_tried, forall_const, and_imp]
    · rintro rfl
      exact hm'
    · subst hsome
      obtain ⟨l₁, l₂, hl, halloc, -⟩ := firstPages_eq_some hr.symm
      have hmem : i ∈ tried m .low := hl ▸ List.mem_append_right _ List.mem_cons_self
      obtain ⟨hi, hlow⟩ := mem_tried.1 hmem
      exact ⟨hi, (hmade.low_iff hi).1 (hlow rfl), halloc, hm'⟩
  · refine (hord.ensures_allocPagesType hcount .high).mono fun r m' ⟨hr, hm'⟩ => ⟨?_, ?_, fun i pfn hsome => ?_⟩
    · rw [hr, firstPages_eq_none]
      simp [mem_tried]
    · rintro rfl
      exact hm'
    · subst hsome
      obtain ⟨l₁, l₂, hl, halloc, hbefore⟩ := firstPages_eq_some hr.symm
      have hmem : i ∈ tried m .high := hl ▸ List.mem_append_right _ List.mem_cons_self
      refine ⟨(mem_tried.1 hmem).1, halloc, hm', fun hlow j hj hhigh => hbefore j ?_⟩
      exact high_mem_of_tried hl hlow hj hhigh

/-- Two regions of two pages that are free, with a gap of two pages between them. -/
def twoRegions : Memory where
  pools :=
    { all := ⟨fun i => if i = 0 then ⟨0x1000, 0x2000⟩ else ⟨0x5000, 0x2000⟩, 2⟩
      free := ⟨fun i => if i = 0 then ⟨0x1000, 0x2000⟩ else ⟨0x5000, 0x2000⟩, 2⟩ }
  ram _ := 0
  nodes _ := { MemoryNode.memoryNodeAdd 0 0 0 fun _ => 0#64 with type := .low }
  memoryNodes := 0
  links := ⟨fun x => x, fun x => x⟩
  nodeType _ := .order

theorem circle_twoRegions : twoRegions.links.Circle .order [] := ⟨⟨rfl, rfl⟩, List.nodup_singleton _⟩

theorem poolOk_twoRegions : PoolOk twoRegions.pools.all where
  size_le := by decide
  area i hi := by
    have hall : ∀ i < 2, 0 < (twoRegions.pools.all.areas i).size ∧
      (twoRegions.pools.all.areas i).fin < 2 ^ 64 := by decide
    exact ⟨(hall i hi).1, (hall i hi).2⟩
  gap i j hij hj := by
    have hall : ∀ i < 2, ∀ j < 2, i < j →
      (twoRegions.pools.all.areas i).fin < (twoRegions.pools.all.areas j).addr := by decide
    exact hall i (hij.trans hj) j hj hij

/-- The second region has free pages, which are below `LOWMEM_SIZE`. -/
theorem zoneRun_alloc_twoRegions : ∃ m, ZoneRun twoRegions.pools.all m ∧
    Ensures (allocPagesType 0 .low) m fun r _ => r ≠ none := by
  have hrun : returns setupBuddy twoRegions (fun _ m => m.memoryNodes = 2 && (m.nodes 1).type = .low &&
      decide ((allocPagesNode 0 (m.nodes 1).toMemoryNode).1 ≠ none)) = true := by
    decide +kernel
  obtain ⟨⟨⟩, m, hsetup, hm⟩ := returns_iff.1 hrun
  simp only [Bool.and_eq_true, decide_eq_true_eq] at hm
  obtain ⟨⟨hcount, htype⟩, hpages⟩ := hm
  have hzone : ZoneRun twoRegions.pools.all m := .setup rfl circle_twoRegions rfl hsetup
  refine ⟨m, hzone, (zoneRun_alloc hzone 0).2.1.mono fun r m' ⟨hnone, _⟩ hr => hpages ?_⟩
  exact hnone.1 hr 1 (by omega) htype

end

end Zones

end Kernel64
