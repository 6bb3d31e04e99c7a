import Kernel64.Buddy.Layout

/-!
# Runs of the buddy allocator

The loops keep the layout, so the calls do. A `BuddyState` is a node with what its clients know
about it: the blocks handed out and not yet given back, and the pages that were never handed to
the allocator. `BuddyStep` are the calls the kernel makes: allocation, the return of an allocated
block, the boot-time release of reserved pages, and, between calls, stores of a client into the
union of a page it holds (a slab pointer or a reference count).
-/

namespace Kernel64

open MemoryNode

/-! ### Allocation -/

section

variable {n : MemoryNode} {held : List Block} {reserved : Set ℕ} {b : Block} {p k : ℕ}

@[simp] theorem splitLoop_nodePfns (order p c : ℕ) (n : MemoryNode) :
    (splitLoop order p c n).nodePfns = n.nodePfns := by
  induction c generalizing n with
  | zero => rfl
  | succ c ih =>
    rw [splitLoop]
    split_ifs
    · rw [ih, listAdd_nodePfns, modifyPage_nodePfns]
    · rfl

/-- One turn of the halving loop. -/
theorem Layout.splitStep (h : Layout n (⟨p, k + 1⟩ :: held) reserved)
    (hbusy : HeldBusy n (⟨p, k + 1⟩ :: held)) :
    Layout ((n.modifyPage (buddyOf p k) fun buddy => (buddy.setOrder k).setFree).listAdd
        (buddyOf p k) k) (⟨p, k⟩ :: held) reserved ∧
      HeldBusy ((n.modifyPage (buddyOf p k) fun buddy => (buddy.setOrder k).setFree).listAdd
        (buddyOf p k) k) (⟨p, k⟩ :: held) := by
  have hal : 2 ^ (k + 1) ∣ p := h.tiles.aligned ⟨p, k + 1⟩ (by simp)
  have hk : k + 1 < buddyOrders := h.order_lt ⟨p, k + 1⟩ (by simp)
  have hbusy' : HeldBusy n (⟨p, k⟩ :: held) := by
    intro c hc
    rcases List.mem_cons.mp hc with rfl | hc
    · exact hbusy ⟨p, k + 1⟩ (by simp)
    · exact hbusy c (by simp [hc])
  rw [buddyOf_lower hal]
  have hup : p + 2 ^ k ∈ (Block.mk (p + 2 ^ k) k).pages := Block.start_mem_pages _
  refine ⟨(h.split.modifyPage hup _).listAdd ?_ ?_ fun _ => ?_, ?_⟩
  · rw [modifyPage_mmap_self, Page.setFree_busy]
  · rw [modifyPage_mmap_self, Page.setFree_getOrder, Page.setOrder_getOrder _ (by omega)]
  · -- the lower half is held, so it is on no list
    rw [← buddyOf_lower hal, buddyOf_buddyOf, modifyPage_freeList]
    exact h.not_mem_freeList (Block.start_mem_pages ⟨p, k + 1⟩) (by omega)
  · intro c hc
    exact h.split.heldBusy_modifyPage hup hbusy' (fun buddy => (buddy.setOrder k).setFree) c hc

theorem Layout.splitLoop (order : ℕ) {c : ℕ} (hc : order ≤ c)
    (h : Layout n (⟨p, c⟩ :: held) reserved) (hbusy : HeldBusy n (⟨p, c⟩ :: held)) :
    Layout (splitLoop order p c n) (⟨p, order⟩ :: held) reserved ∧
      HeldBusy (splitLoop order p c n) (⟨p, order⟩ :: held) := by
  induction c generalizing n with
  | zero =>
    obtain rfl : order = 0 := Nat.le_zero.mp hc
    exact ⟨h, hbusy⟩
  | succ c ih =>
    rw [MemoryNode.splitLoop]
    split_ifs with hlt
    · obtain ⟨h', hbusy'⟩ := h.splitStep hbusy
      exact ih (Nat.le_of_lt_succ hlt) h' hbusy'
    · obtain rfl : order = c + 1 := by omega
      exact ⟨h, hbusy⟩

theorem findOrder_eq_some {order c : ℕ} (h : n.findOrder order = some c) :
    order ≤ c ∧ c < buddyOrders ∧ n.freeList c ≠ [] := by
  have hmem := List.mem_range'_1.mp (List.mem_of_find?_eq_some h)
  have hne := List.find?_some h
  refine ⟨hmem.1, by omega, fun hnil => ?_⟩
  simp [hnil] at hne

/-- An allocation that fails changes nothing. -/
theorem allocPagesNode_none {order : ℕ} {n' : MemoryNode}
    (h : allocPagesNode order n = (none, n')) : n' = n := by
  rw [allocPagesNode] at h
  split at h
  · exact (Prod.mk.inj h).2.symm
  · split at h
    · exact (Prod.mk.inj h).2.symm
    · exact absurd (Prod.mk.inj h).1 (by simp)

/-- An allocation that succeeds takes a block off the lists and halves it as needed. -/
theorem allocPagesNode_some {order : ℕ} {n' : MemoryNode}
    (h : allocPagesNode order n = (some p, n')) :
    ∃ c, order ≤ c ∧ c < buddyOrders ∧ p ∈ n.freeList c ∧
      n' = splitLoop order p c ((n.listDel p).modifyPage p Page.setBusy) := by
  rw [allocPagesNode] at h
  split at h
  · exact absurd (Prod.mk.inj h).1 (by simp)
  · rename_i c hfind
    obtain ⟨hle, hlt, -⟩ := findOrder_eq_some hfind
    split at h
    · exact absurd (Prod.mk.inj h).1 (by simp)
    · rename_i q l hlist
      obtain ⟨hq, rfl⟩ := Prod.mk.inj h
      obtain rfl : q = p := Option.some.inj hq
      exact ⟨c, hle, hlt, by simp [hlist], rfl⟩

/-- **Allocation** hands the holder a block of the order asked for. -/
theorem Layout.allocPagesNode {order : ℕ} {n' : MemoryNode} (h : Layout n held reserved)
    (hbusy : HeldBusy n held) (hrun : allocPagesNode order n = (some p, n')) :
    Layout n' (⟨p, order⟩ :: held) reserved ∧ HeldBusy n' (⟨p, order⟩ :: held) ∧
      n'.nodePfns = n.nodePfns := by
  obtain ⟨c, hle, hlt, hp, rfl⟩ := allocPagesNode_some hrun
  have hdel := h.listDel hlt hp
  have hhead : p ∈ (Block.mk p c).pages := Block.start_mem_pages _
  have hbusy' : HeldBusy ((n.listDel p).modifyPage p Page.setBusy) (⟨p, c⟩ :: held) := by
    intro d hd
    rcases List.mem_cons.mp hd with rfl | hd
    · rw [modifyPage_mmap_self, Page.setBusy_busy]
    · exact hdel.heldBusy_modifyPage hhead hbusy _ d hd
  obtain ⟨h₁, h₂⟩ := (hdel.modifyPage hhead Page.setBusy).splitLoop order hle hbusy'
  exact ⟨h₁, h₂, by simp⟩

/-! ### Release -/

@[simp] theorem mergeLoop_nodePfns (p k m : ℕ) (n : MemoryNode) :
    (mergeLoop p k m n).2.nodePfns = n.nodePfns := by
  induction m generalizing p k n with
  | zero => rfl
  | succ m ih =>
    rw [mergeLoop]
    split_ifs
    iterate 4 rfl
    all_goals rw [ih, listDel_nodePfns]

/-- The loop ends with a block that has no free buddy of its order. -/
theorem Layout.mergeLoop {m : ℕ} (hm : k + m + 1 = buddyOrders)
    (h : Layout n (⟨p, k⟩ :: held) reserved) (hbusy : HeldBusy n held) :
    Layout (mergeLoop p k m n).2 ((mergeLoop p k m n).1 :: held) reserved ∧
      HeldBusy (mergeLoop p k m n).2 held ∧
      ((mergeLoop p k m n).1.order + 1 < buddyOrders →
        buddyOf (mergeLoop p k m n).1.start (mergeLoop p k m n).1.order ∉
          (mergeLoop p k m n).2.freeList (mergeLoop p k m n).1.order) := by
  induction m generalizing p k n with
  | zero =>
    refine ⟨h, hbusy, fun hlt => ?_⟩
    simp only [MemoryNode.mergeLoop] at hlt
    omega
  | succ m ih =>
    have hk : k < buddyOrders := by omega
    -- a buddy on the list of its order lies inside the node and passes both tests
    have hinside : ∀ q ∈ n.freeList k, q + 2 ^ k ≤ n.nodePfns := fun q hq => by
      have hdel := h.listDel hk hq
      have hpos := Nat.two_pow_pos k
      have := hdel.inside (p := q + 2 ^ k - 1) ⟨by simp only; omega, by simp only; omega⟩
      rw [listDel_nodePfns] at this
      omega
    rw [MemoryNode.mergeLoop]
    generalize hlow : (if buddyOf p k < p then buddyOf p k else p) = low
    split_ifs with h₁ h₂ h₃ h₄
    · refine ⟨h, hbusy, fun _ hmem => ?_⟩
      have := hinside _ hmem
      have hpos := Nat.two_pow_pos k
      simp only at this h₁
      omega
    · refine ⟨h, hbusy, fun _ hmem => ?_⟩
      exact absurd (hinside _ hmem) (Nat.not_le_of_gt h₂)
    · refine ⟨h, hbusy, fun _ hmem => ?_⟩
      have := (h.free_head ⟨buddyOf p k, k⟩ (mem_freeBlocks.mpr ⟨hk, hmem⟩)).1
      exact absurd (h₃.symm.trans this) (by simp)
    · refine ⟨h, hbusy, fun _ hmem => ?_⟩
      exact h₄ (h.free_head ⟨buddyOf p k, k⟩ (mem_freeBlocks.mpr ⟨hk, hmem⟩)).2.symm
    · have hmem : buddyOf p k ∈ n.freeList k :=
        (h.mem_iff hbusy (Nat.lt_of_not_ge h₁)).mp
          ⟨Bool.eq_false_of_not_eq_true h₃, (not_ne_iff.mp h₄).symm⟩
      have hjoin := (h.listDel hk hmem).join (by omega)
      rw [hlow] at hjoin
      exact ih (by omega) hjoin hbusy

/-- **Release** of a held block puts its pages back on the free lists. -/
theorem Layout.freePagesNode (h : Layout n (b :: held) reserved) (hbusy : HeldBusy n held) :
    Layout (freePagesNode (some b.start) b.order n) held reserved ∧
      HeldBusy (freePagesNode (some b.start) b.order n) held ∧
      (freePagesNode (some b.start) b.order n).nodePfns = n.nodePfns := by
  have hk : b.order < buddyOrders := h.order_lt b (by simp)
  have hm : b.order + (buddyOrders - 1 - b.order) + 1 = buddyOrders := by omega
  obtain ⟨h₁, hbusy₁, hbuddy⟩ := Layout.mergeLoop hm h hbusy
  rw [MemoryNode.freePagesNode, MemoryNode.freePagesNode']
  generalize hrun : MemoryNode.mergeLoop b.start b.order (buddyOrders - 1 - b.order) n = r at *
  obtain ⟨c, n₁⟩ := r
  have hhead : c.start ∈ c.pages := Block.start_mem_pages c
  have hc : c.order < buddyOrders := h₁.order_lt c (by simp)
  have hpfns : n₁.nodePfns = n.nodePfns := by
    have := mergeLoop_nodePfns b.start b.order (buddyOrders - 1 - b.order) n
    rw [hrun] at this
    exact this
  refine ⟨Layout.listAdd (h₁.modifyPage hhead _) ?_ ?_ hbuddy, ?_, ?_⟩
  · rw [modifyPage_mmap_self, Page.setFree_busy]
  · rw [modifyPage_mmap_self, Page.setFree_getOrder, Page.setOrder_getOrder _ hc]
  · intro d hd
    exact h₁.heldBusy_modifyPage hhead hbusy₁ (fun pages => (pages.setOrder c.order).setFree) d hd
  · exact hpfns

end

/-! ### Runs -/

/-- A node and what its clients know about it. -/
structure BuddyState where
  node : MemoryNode
  /-- the blocks handed out and not given back -/
  allocated : List Block
  /-- the pages never handed to the allocator -/
  reserved : Set ℕ

/-- The calls on a node, with their results. -/
inductive BuddyEvent
  | alloc (order : ℕ) (result : Option ℕ)
  | free (b : Block)
  | write (pfn : ℕ) (u : BitVec 64)

/-- One call, or a store of a client into the union of a page it holds. -/
inductive BuddyStep : BuddyState → BuddyEvent → BuddyState → Prop
  | alloc {σ : BuddyState} {order pfn : ℕ} {n' : MemoryNode}
      (hrun : allocPagesNode order σ.node = (some pfn, n')) :
      BuddyStep σ (.alloc order (some pfn)) ⟨n', ⟨pfn, order⟩ :: σ.allocated, σ.reserved⟩
  | exhausted {σ : BuddyState} {order : ℕ} {n' : MemoryNode}
      (hrun : allocPagesNode order σ.node = (none, n')) :
      BuddyStep σ (.alloc order none) ⟨n', σ.allocated, σ.reserved⟩
  | free {σ : BuddyState} {b : Block} (hb : b ∈ σ.allocated) :
      BuddyStep σ (.free b)
        ⟨freePagesNode (some b.start) b.order σ.node, σ.allocated.erase b, σ.reserved⟩
  | freeReserved {σ : BuddyState} {b : Block} (hal : b.Aligned) (hk : b.order < buddyOrders)
      (hres : b.pages ⊆ σ.reserved) :
      BuddyStep σ (.free b)
        ⟨freePagesNode (some b.start) b.order σ.node, σ.allocated, σ.reserved \ b.pages⟩
  | write {σ : BuddyState} {b : Block} {pfn : ℕ} {u : BitVec 64} (hb : b ∈ σ.allocated)
      (hpfn : pfn ∈ b.pages) :
      BuddyStep σ (.write pfn u)
        ⟨σ.node.modifyPage pfn fun page => { page with u := u }, σ.allocated, σ.reserved⟩

/-- The states reached by any sequence of calls from a node as boot sets it up. -/
inductive BuddyReachable : BuddyState → Prop
  | init (id beginPfn endPfn : ℕ) (garbage : ℕ → BitVec 64) :
      BuddyReachable ⟨memoryNodeAdd id beginPfn endPfn garbage, [],
        {p | p < endPfn - beginPfn}⟩
  | step {σ σ' : BuddyState} {e : BuddyEvent} (h : BuddyReachable σ) (hstep : BuddyStep σ e σ') :
      BuddyReachable σ'

/-- The pages on the free lists. -/
def MemoryNode.freePages (n : MemoryNode) : Set ℕ :=
  coverage n.freeBlocks

/-- The pages a call moves in and out of the free set: those it returns or receives. -/
def BuddyEvent.Moves (before after : Set ℕ) : BuddyEvent → Prop
  | .alloc order (some pfn) =>
    (Block.mk pfn order).pages ⊆ before ∧ after = before \ (Block.mk pfn order).pages
  | .alloc _ none => after = before
  | .free b => Disjoint b.pages before ∧ after = before ∪ b.pages
  | .write _ _ => after = before

/-- What every reachable state keeps. -/
structure BuddyInv (σ : BuddyState) : Prop where
  layout : Layout σ.node σ.allocated σ.reserved
  busy : HeldBusy σ.node σ.allocated
  inside : ∀ p ∈ σ.reserved, p < σ.node.nodePfns

theorem buddyInv_init (id beginPfn endPfn : ℕ) (garbage : ℕ → BitVec 64) :
    BuddyInv ⟨memoryNodeAdd id beginPfn endPfn garbage, [], {p | p < endPfn - beginPfn}⟩ := by
  have hfree : (memoryNodeAdd id beginPfn endPfn garbage).freeBlocks = [] := by
    simp [freeBlocks, memoryNodeAdd]
  refine ⟨⟨?_, by simp, by simp [hfree], fun p _ => Page.setBusy_busy _, ?_⟩, by simp [HeldBusy],
    fun p hp => hp⟩
  · have hempty : {p | p < (memoryNodeAdd id beginPfn endPfn garbage).nodePfns ∧
        p ∉ {p | p < endPfn - beginPfn}} = (∅ : Set ℕ) := by
      refine Set.eq_empty_of_forall_notMem fun p hp => hp.2 ?_
      exact hp.1
    rw [hfree, hempty]
    exact tiles_nil
  · simp [memoryNodeAdd]

/-- A held block can be brought to the front. -/
theorem Layout.focus {n : MemoryNode} {held : List Block} {reserved : Set ℕ} {b : Block}
    (h : Layout n held reserved) (hb : b ∈ held) :
    Layout n (b :: held.erase b) reserved := by
  have hperm := List.perm_cons_erase hb
  refine h.recut (fun L S ht => ht.perm (hperm.append_right L)) fun c hc => ?_
  exact h.order_lt c (hperm.mem_iff.mpr hc)

theorem HeldBusy.erase {n : MemoryNode} {held : List Block} (h : HeldBusy n held) (b : Block) :
    HeldBusy n (held.erase b) :=
  fun c hc => h c (List.mem_of_mem_erase hc)

/-- **One call** keeps the invariant. -/
theorem BuddyStep.inv {σ σ' : BuddyState} {e : BuddyEvent} (hstep : BuddyStep σ e σ')
    (h : BuddyInv σ) : BuddyInv σ' := by
  obtain ⟨hl, hb, hin⟩ := h
  cases hstep with
  | alloc hrun =>
    obtain ⟨hl', hb', hpfns⟩ := hl.allocPagesNode hb hrun
    exact ⟨hl', hb', fun p hp => hpfns.symm ▸ hin p hp⟩
  | exhausted hrun =>
    obtain rfl := allocPagesNode_none hrun
    exact ⟨hl, hb, hin⟩
  | @free b hmem =>
    obtain ⟨hl', hb', hpfns⟩ := (hl.focus hmem).freePagesNode (hb.erase b)
    exact ⟨hl', hb', fun p hp => hpfns.symm ▸ hin p hp⟩
  | freeReserved hal hk hres =>
    have hrel := hl.release hal hk hres fun q hq => hin q (hres hq)
    obtain ⟨hl', hb', hpfns⟩ := hrel.freePagesNode hb
    exact ⟨hl', hb', fun p hp => hpfns.symm ▸ hin p hp.1⟩
  | @write b pfn u hmem hpfn =>
    have hperm := (List.perm_cons_erase hmem).symm
    refine ⟨?_, ?_, hin⟩
    · have hmod := (hl.focus hmem).modifyPage hpfn fun page => { page with u := u }
      exact hmod.recut (fun L S ht => ht.perm (hperm.append_right L)) hl.order_lt
    · intro c hc
      by_cases hne : c.start = pfn
      · rw [hne, modifyPage_mmap_self, ← hne]
        exact hb c hc
      · rw [modifyPage_mmap_of_ne _ _ _ hne]
        exact hb c hc

theorem BuddyReachable.inv {σ : BuddyState} (h : BuddyReachable σ) : BuddyInv σ := by
  induction h with
  | init id beginPfn endPfn garbage => exact buddyInv_init id beginPfn endPfn garbage
  | step _ hstep ih => exact hstep.inv ih

/-- The free pages are those neither reserved nor allocated. -/
theorem BuddyInv.freePages_eq {σ : BuddyState} (h : BuddyInv σ) :
    σ.node.freePages
      = {p | p < σ.node.nodePfns ∧ p ∉ σ.reserved} \ coverage σ.allocated :=
  h.layout.tiles.coverage_left

/-- The number of pages of the node never changes. -/
theorem BuddyStep.nodePfns_eq {σ σ' : BuddyState} {e : BuddyEvent} (hstep : BuddyStep σ e σ')
    (h : BuddyInv σ) : σ'.node.nodePfns = σ.node.nodePfns := by
  cases hstep with
  | alloc hrun => exact (h.layout.allocPagesNode h.busy hrun).2.2
  | exhausted hrun => rw [allocPagesNode_none hrun]
  | @free b hmem => exact ((h.layout.focus hmem).freePagesNode (h.busy.erase b)).2.2
  | freeReserved hal hk hres =>
    have hrel := h.layout.release hal hk hres fun q hq => h.inside q (hres hq)
    exact (hrel.freePagesNode h.busy).2.2
  | write => rfl

/-- **One call** moves the pages it returns or receives and no other. -/
theorem BuddyStep.moves {σ σ' : BuddyState} {e : BuddyEvent} (hstep : BuddyStep σ e σ')
    (h : BuddyInv σ) : e.Moves σ.node.freePages σ'.node.freePages := by
  have hpfns := hstep.nodePfns_eq h
  have h' := hstep.inv h
  have hbefore := h.freePages_eq
  have hafter := h'.freePages_eq
  rw [hpfns] at hafter
  cases hstep with
  | @alloc order pfn n' hrun =>
    refine ⟨fun p hp => ?_, ?_⟩
    · rw [hbefore]
      refine ⟨⟨?_, h'.layout.not_mem_reserved hp⟩, fun ⟨c, hc, hpc⟩ => ?_⟩
      · rw [← hpfns]
        exact h'.layout.inside hp
      · exact h'.layout.apart_of_mem hc p hp hpc
    · rw [hafter, hbefore, coverage_cons, ← Set.sdiff_sdiff, Set.sdiff_sdiff_comm]
  | exhausted hrun => rw [BuddyEvent.Moves, allocPagesNode_none hrun]
  | @free b hmem =>
    have hfoc := h.layout.focus hmem
    have hcov : coverage σ.allocated = b.pages ∪ coverage (σ.allocated.erase b) := by
      rw [← coverage_cons, coverage_perm (List.perm_cons_erase hmem)]
    refine ⟨Set.disjoint_left.mpr fun p hp hfree => ?_, ?_⟩
    · rw [hbefore] at hfree
      exact hfree.2 ⟨b, hmem, hp⟩
    · rw [hafter, hbefore, hcov]
      ext p
      have h₁ : p ∈ b.pages → p < σ.node.nodePfns ∧ p ∉ σ.reserved ∧
          p ∉ coverage (σ.allocated.erase b) := fun hp =>
        ⟨hfoc.inside hp, hfoc.not_mem_reserved hp, fun ⟨c, hc, hpc⟩ =>
          hfoc.apart_of_mem hc p hp hpc⟩
      simp only [Set.mem_sdiff, Set.mem_union, Set.mem_ofPred_eq]
      tauto
  | @freeReserved b hal hk hres =>
    have hrel := h.layout.release hal hk hres fun q hq => h.inside q (hres hq)
    refine ⟨Set.disjoint_left.mpr fun p hp hfree => ?_, ?_⟩
    · rw [hbefore] at hfree
      exact hfree.1.2 (hres hp)
    · rw [hafter, hbefore]
      ext p
      have h₁ : p ∈ b.pages → p < σ.node.nodePfns ∧ p ∉ coverage σ.allocated := fun hp =>
        ⟨h.inside p (hres hp), fun ⟨c, hc, hpc⟩ => hrel.apart_of_mem hc p hp hpc⟩
      simp only [Set.mem_sdiff, Set.mem_union, Set.mem_ofPred_eq]
      tauto
  | write => rfl

/-- **Buddy invariant.** In every reachable state the free and the allocated blocks are aligned,
inside the node and share no page; the heads say what they are; no two buddies are free; and
every further call moves exactly the pages it returns or receives. -/
theorem buddy_blocks_partition (σ : BuddyState) (h : BuddyReachable σ) :
    (σ.node.freeBlocks ++ σ.allocated).Pairwise Block.Apart ∧
    (∀ b ∈ σ.node.freeBlocks ++ σ.allocated,
      2 ^ b.order ∣ b.start ∧ ∀ p ∈ b.pages, p < σ.node.nodePfns) ∧
    (∀ k < buddyOrders, ∀ p ∈ σ.node.freeList k,
      (σ.node.mmap p).busy = false ∧ (σ.node.mmap p).getOrder = k) ∧
    (∀ b ∈ σ.allocated, (σ.node.mmap b.start).busy = true) ∧
    (∀ k < buddyOrders - 1, ∀ p ∈ σ.node.freeList k, buddyOf p k ∉ σ.node.freeList k) ∧
    (∀ e σ', BuddyStep σ e σ' → e.Moves σ.node.freePages σ'.node.freePages) := by
  have hinv := h.inv
  refine ⟨hinv.layout.tiles.apart, fun b hb => ⟨hinv.layout.tiles.aligned b hb, fun p hp => ?_⟩,
    fun k hk p hp => hinv.layout.free_head ⟨p, k⟩ (mem_freeBlocks.mpr ⟨hk, hp⟩), hinv.busy,
    fun k hk => hinv.layout.no_buddies k (by omega), fun e σ' hstep => hstep.moves hinv⟩
  have hcov : p ∈ coverage (σ.node.freeBlocks ++ σ.allocated) := ⟨b, hb, hp⟩
  rw [hinv.layout.tiles.covers] at hcov
  exact hcov.1

/-- A node of three pages whose first two pages were released at boot. -/
def threePages : BuddyState where
  node := freePagesNode (some 0) 1 (memoryNodeAdd 0 0 3 fun _ => 0#64)
  allocated := []
  reserved := {p | p < 3 - 0} \ (Block.mk 0 1).pages

theorem threePages_reachable : BuddyReachable threePages := by
  refine .step (.init 0 0 3 fun _ => 0#64) (.freeReserved (b := ⟨0, 1⟩) (dvd_zero _) (by decide) ?_)
  intro p hp
  have : p < 2 := hp.2
  exact Nat.lt_of_lt_of_le this (by decide)

theorem threePages_blocks_partition :
    (threePages.node.freeBlocks ++ threePages.allocated).Pairwise Block.Apart ∧
    (∀ b ∈ threePages.node.freeBlocks ++ threePages.allocated,
      2 ^ b.order ∣ b.start ∧ ∀ p ∈ b.pages, p < threePages.node.nodePfns) ∧
    (∀ k < buddyOrders, ∀ p ∈ threePages.node.freeList k,
      (threePages.node.mmap p).busy = false ∧ (threePages.node.mmap p).getOrder = k) ∧
    (∀ b ∈ threePages.allocated, (threePages.node.mmap b.start).busy = true) ∧
    (∀ k < buddyOrders - 1, ∀ p ∈ threePages.node.freeList k,
      buddyOf p k ∉ threePages.node.freeList k) ∧
    (∀ e σ', BuddyStep threePages e σ' →
      e.Moves threePages.node.freePages σ'.node.freePages) :=
  buddy_blocks_partition threePages threePages_reachable

end Kernel64
