import Kernel64.Zones.Nodes

/-!
# The order of the nodes

`setup_buddy` links the nodes so that those of high memory come before those of low memory, and keeps where
the nodes of a type begin (`Ordered`). An allocation follows the links from there and tries one node after
the other.
-/

namespace Kernel64

namespace Zones

open Balloc (Pool Pools)

/-- The nodes of a type before the node `k`. -/
def nodesBefore (m : Memory) (k : ℕ) (t : NodeType) : List ℕ :=
  (List.range k).filter fun i => (m.nodes i).type = t

/-- The nodes of a type. -/
def nodesOf (m : Memory) (t : NodeType) : List ℕ := nodesBefore m m.memoryNodes t

/-- The nodes in the order in which `__alloc_pages` tries them. -/
def tried (m : Memory) : NodeType → List ℕ
  | .low => nodesOf m .low
  | .high => nodesOf m .high ++ nodesOf m .low

/-- The links of the nodes, and where those of a type begin. -/
structure Ordered (m : Memory) : Prop where
  circle : m.links.Circle .order ((tried m .high).map Link.node)
  start : ∀ t, m.nodeType t = ((tried m t).map Link.node).head?.getD .order

section

variable {m m' : Memory} {t t' : NodeType} {i k order : ℕ}

theorem mem_nodesBefore : i ∈ nodesBefore m k t ↔ i < k ∧ (m.nodes i).type = t := by
  simp [nodesBefore]

theorem mem_nodesOf : i ∈ nodesOf m t ↔ i < m.memoryNodes ∧ (m.nodes i).type = t := mem_nodesBefore

/-- Every node is tried for high memory, those of low memory for low memory. -/
theorem mem_tried : i ∈ tried m t ↔ i < m.memoryNodes ∧ (t = .low → (m.nodes i).type = .low) := by
  cases t with
  | low => simp [tried, mem_nodesOf]
  | high =>
    simp only [tried, List.mem_append, mem_nodesOf, ← and_or_left]
    refine and_congr_right fun _ => iff_of_true ?_ nofun
    cases (m.nodes i).type
    · exact Or.inr rfl
    · exact Or.inl rfl

theorem length_tried_le : (tried m t).length ≤ m.memoryNodes := by
  have hsum : (nodesOf m .high).length + (nodesOf m .low).length = m.memoryNodes := by
    have hnot : (fun i => decide ((m.nodes i).type = .low)) = fun i => !decide ((m.nodes i).type = .high) := by
      funext i
      cases (m.nodes i).type <;> rfl
    rw [nodesOf, nodesOf, nodesBefore, nodesBefore, hnot, ← List.length_eq_length_filter_add, List.length_range]
  cases t with
  | low => exact hsum ▸ Nat.le_add_left _ _
  | high => rw [tried, List.length_append, hsum]

/-! ### Linking the nodes -/

/-- The lists of the types with the nodes before the node `k`. -/
structure TypeLists (m : Memory) (k : ℕ) (r : Ring Link) : Prop where
  order : r.Circle .order []
  types : ∀ t, r.Circle (.typeNodes t) ((nodesBefore m k t).map Link.node)

theorem nodesBefore_succ : nodesBefore m (k + 1) t =
    nodesBefore m k t ++ if (m.nodes k).type = t then [k] else [] := by
  rw [nodesBefore, List.range_succ, List.filter_append, nodesBefore]
  congr 1
  by_cases h : (m.nodes k).type = t
  · simp [h]
  · simp [h]

theorem typeNodes_apart (htt : t ≠ t') : ∀ y ∈ Link.typeNodes t :: (nodesBefore m k t).map Link.node,
    y ∉ Link.typeNodes t' :: (nodesBefore m k t').map Link.node := by
  intro y hy hy'
  simp only [List.mem_cons, List.mem_map, mem_nodesBefore] at hy hy'
  rcases hy with rfl | ⟨i, ⟨-, hi⟩, rfl⟩
  · rcases hy' with hc | ⟨i, -, hc⟩
    · exact htt (Link.typeNodes.inj hc)
    · exact nomatch hc
  · rcases hy' with hc | ⟨j, ⟨-, hj⟩, hc⟩
    · exact nomatch hc
    · obtain rfl := Link.node.inj hc
      exact htt (hi.symm.trans hj)

theorem TypeLists.addTail {r : Ring Link} (h : TypeLists m k r) :
    TypeLists m (k + 1) (r.addTail (.node k) (.typeNodes (m.nodes k).type)) := by
  have hnew : ∀ t, Link.node k ∉ Link.typeNodes t :: (nodesBefore m k t).map Link.node := by
    intro t hmem
    simp only [List.mem_cons, List.mem_map, mem_nodesBefore] at hmem
    rcases hmem with hc | ⟨i, ⟨hi, -⟩, hc⟩
    · exact nomatch hc
    · obtain rfl := Link.node.inj hc
      exact absurd hi (Nat.lt_irrefl i)
  refine ⟨h.order.addTail_other (h.types _) (by simp) (by simp), fun t => ?_⟩
  rw [nodesBefore_succ]
  by_cases ht : (m.nodes k).type = t
  · subst ht
    rw [if_pos rfl, List.map_append]
    exact (h.types _).addTail (hnew _)
  · rw [if_neg ht, List.append_nil]
    exact (h.types t).addTail_other (h.types _) (hnew t) (typeNodes_apart (Ne.symm ht))

theorem TypeLists.addLinks (h : TypeLists m 0 m.links) : TypeLists m m.memoryNodes (addLinks m).links := by
  unfold Zones.addLinks
  dsimp only
  induction m.memoryNodes with
  | zero => exact h
  | succ k ih =>
    rw [List.range_succ, List.foldl_append]
    exact ih.addTail

/-- **The loops of `setup_buddy` over the nodes and the types.** -/
theorem ordered_linkNodes (h : m.links.Circle .order []) : Ordered (linkNodes m) := by
  set m₀ : Memory := { m with links := (m.links.init (.typeNodes .low)).init (.typeNodes .high) } with hm₀
  have h₀ : TypeLists m₀ 0 m₀.links := by
    refine ⟨(h.init (by simp)).init (by simp), fun t => ?_⟩
    cases t with
    | low => exact (m.links.circle_init _).init (by simp)
    | high => exact (m.links.init _).circle_init _
  have h₁ := h₀.addLinks
  have hlow : ∀ t, ∀ y ∈ Link.typeNodes t :: (nodesBefore m₀ m₀.memoryNodes t).map Link.node,
      y ∉ [Link.order] := by
    intro t y hy hc
    obtain rfl := List.mem_singleton.1 hc
    simp at hy
  -- the nodes of low memory first
  have h₂ := h₁.order.splice (h₁.types .low) (hlow .low)
  rw [List.append_nil] at h₂
  have hhigh := (h₁.types .high).splice_other h₁.order (h₁.types .low)
    (fun y hy hy' => hlow .high y hy' hy) (typeNodes_apart (by decide))
  -- those of high memory are put in front of them
  have hapart : ∀ y ∈ Link.typeNodes .high :: (nodesBefore m₀ m₀.memoryNodes .high).map Link.node,
      y ∉ Link.order :: (nodesBefore m₀ m₀.memoryNodes .low).map Link.node := by
    intro y hy hy'
    rcases List.mem_cons.1 hy' with rfl | hy'
    · exact hlow .high _ hy (List.mem_singleton.2 rfl)
    · exact typeNodes_apart (by decide) y hy (List.mem_cons_of_mem (Link.typeNodes .low) hy')
  have h₃ := h₂.splice hhigh hapart
  rw [← List.map_append] at h₃
  refine ⟨h₃, fun t => ?_⟩
  cases t with
  | low => exact h₂.path.next_eq
  | high => exact h₃.path.next_eq

theorem SameZones.nodesOf_eq (h : SameZones m m') (t : NodeType) : nodesOf m' t = nodesOf m t := by
  rw [nodesOf, nodesOf, nodesBefore, nodesBefore, h.memoryNodes]
  exact List.filter_congr fun i _ => by rw [h.type]

theorem SameZones.tried_eq (h : SameZones m m') (t : NodeType) : tried m' t = tried m t := by
  cases t with
  | low => exact h.nodesOf_eq .low
  | high => rw [tried, tried, h.nodesOf_eq, h.nodesOf_eq]

theorem Ordered.same (h : Ordered m) (hs : SameZones m m') : Ordered m' := by
  refine ⟨?_, fun t => ?_⟩
  · rw [hs.links, hs.tried_eq]
    exact h.circle
  · rw [hs.nodeType, hs.tried_eq]
    exact h.start t

/-- The nodes that are tried are linked up to the head. -/
theorem Ordered.path (h : Ordered m) (t : NodeType) : ∃ a, m.links.next a = m.nodeType t ∧
    m.links.Path a ((tried m t).map Link.node) .order := by
  have hpath := h.circle.path
  cases t with
  | high => exact ⟨.order, by rw [h.start, hpath.next_eq], hpath⟩
  | low =>
    rw [tried, List.map_append] at hpath
    have hstart := h.start .low
    rcases List.eq_nil_or_concat ((nodesOf m .high).map Link.node) with hnil | ⟨l, a, hcat⟩
    · rw [hnil, List.nil_append] at hpath
      exact ⟨.order, by rw [hstart, tried, hpath.next_eq], hpath⟩
    · rw [hcat, List.concat_eq_append, List.append_assoc, List.singleton_append, Ring.path_append] at hpath
      exact ⟨a, by rw [hstart, tried, hpath.2.next_eq], hpath.2⟩

/-! ### Allocating -/

/-- What `__alloc_pages` gives, of nodes that are tried in an order. -/
def firstPages (order : ℕ) (m : Memory) : List ℕ → Option (ℕ × ℕ)
  | [] => none
  | i :: l =>
    match (MemoryNode.allocPagesNode order (m.nodes i).toMemoryNode).1 with
    | some pfn => some (i, pfn)
    | none => firstPages order m l

/-- The state after it. -/
def afterPages (order : ℕ) (m : Memory) : Option (ℕ × ℕ) → Memory
  | none => m
  | some (i, _) => m.setNode i (MemoryNode.allocPagesNode order (m.nodes i).toMemoryNode).2

/-- An attempt that fails leaves the node as it was. -/
theorem setNode_of_none (h : (MemoryNode.allocPagesNode order (m.nodes i).toMemoryNode).1 = none) :
    m.setNode i (MemoryNode.allocPagesNode order (m.nodes i).toMemoryNode).2 = m := by
  have hsame : (MemoryNode.allocPagesNode order (m.nodes i).toMemoryNode).2 = (m.nodes i).toMemoryNode :=
    allocPagesNode_none (Prod.ext h rfl)
  rw [hsame, Memory.setNode]
  exact congrArg (fun nodes => { m with nodes := nodes }) (Function.update_eq_self i m.nodes)

/-- The loop tries the nodes that follow. -/
theorem ensures_allocLoop : ∀ (l : List ℕ) (fuel : ℕ) (a : Link), l.length < fuel →
    m.links.Path a (l.map Link.node) .order →
    Ensures (allocLoop order fuel (m.links.next a)) m fun r m' =>
      r = firstPages order m l ∧ m' = afterPages order m r
  | [], fuel + 1, a, _, hpath => by
    rw [hpath.1]
    exact ensures_pure.2 ⟨rfl, rfl⟩
  | i :: l, fuel + 1, a, hfuel, hpath => by
    rw [hpath.1.1, allocLoop]
    simp only [ensures_bind, ensures_get, ensures_set]
    cases hr : (MemoryNode.allocPagesNode order (m.nodes i).toMemoryNode).1 with
    | some pfn =>
      rw [ensures_pure, firstPages, hr]
      exact ⟨rfl, rfl⟩
    | none =>
      rw [setNode_of_none hr, firstPages, hr]
      exact ensures_allocLoop l fuel (.node i) (Nat.lt_of_succ_lt_succ hfuel) hpath.2

theorem Ordered.ensures_allocPagesType (h : Ordered m) (hcount : m.memoryNodes ≤ maxMemoryNodes)
    (t : NodeType) :
    Ensures (allocPagesType order t) m fun r m' =>
      r = firstPages order m (tried m t) ∧ m' = afterPages order m r := by
  obtain ⟨a, ha, hpath⟩ := h.path t
  rw [allocPagesType, ensures_bind, ensures_get, ← ha]
  exact ensures_allocLoop _ _ a (Nat.lt_succ_of_le (length_tried_le.trans hcount)) hpath

end

end Zones

end Kernel64
