import Kernel64.Buddy.Runs

/-!
# The free lists of a memory node are canonical

Splitting, joining and the region splitter of boot choose the sizes of blocks in different ways.
But a call never leaves two free buddies that could be joined, and there is one way only to cut a
set of pages into aligned blocks of which no two could be joined. So the free pages fix the blocks
on every list, whatever the calls were that led there.
-/

namespace Kernel64

open MemoryNode

/-! ### Freeing a region -/

section Region

variable {pfn pages stop k : ℕ}

theorem two_pow_dvd_of_testBit (h : ∀ j < k, pfn.testBit j = false) : 2 ^ k ∣ pfn := by
  refine Nat.dvd_of_mod_eq_zero (Nat.eq_of_testBit_eq fun j => ?_)
  rw [Nat.testBit_mod_two_pow, Nat.zero_testBit]
  by_cases hj : j < k
  · simp [h j hj]
  · simp [hj]

/-- `pfn_max_order` is the order of an aligned block. -/
theorem pfnMaxOrder_spec (pfn : ℕ) : 2 ^ pfnMaxOrder pfn ∣ pfn ∧ pfnMaxOrder pfn < buddyOrders := by
  rw [pfnMaxOrder]
  cases hfind : (List.range (buddyOrders - 1)).find? fun i => pfn.testBit i with
  | none =>
    refine ⟨two_pow_dvd_of_testBit fun j hj => ?_, by decide⟩
    simpa using List.find?_range_eq_none.1 hfind j hj
  | some i =>
    obtain ⟨-, hmem, hbelow⟩ := List.find?_range_eq_some.1 hfind
    refine ⟨two_pow_dvd_of_testBit fun j hj => ?_, ?_⟩
    · simpa using hbelow j hj
    · exact lt_of_lt_of_le (List.mem_range.1 hmem) (Nat.sub_le _ _)

theorem regionOrder_le : ∀ order, regionOrder pfn pages order ≤ order
  | 0 => le_rfl
  | order + 1 => by
    rw [regionOrder]
    split_ifs
    · exact (regionOrder_le order).trans (Nat.le_succ order)
    · exact le_rfl

/-- The order found is 0, or the block ends before the number of pages. -/
theorem regionOrder_fits : ∀ order,
    regionOrder pfn pages order = 0 ∨ pfn + 2 ^ regionOrder pfn pages order ≤ pages
  | 0 => Or.inl rfl
  | order + 1 => by
    rw [regionOrder]
    split_ifs with h
    · exact regionOrder_fits order
    · exact Or.inr (Nat.le_of_not_gt h)

/-- **The loop of `__memory_free_region`** frees blocks inside the rest of the region, and all of
it. -/
theorem BuddyReachable.freeRegionLoop (hstop : pages ≤ stop) (turns : ℕ) :
    ∀ {pfn : ℕ} {σ : BuddyState}, BuddyReachable σ → pfn ≤ stop → stop ≤ pfn + turns →
      Set.Ico pfn stop ⊆ σ.reserved →
      BuddyReachable ⟨MemoryNode.freeRegionLoop pages stop turns pfn σ.node, σ.allocated,
        σ.reserved \ Set.Ico pfn stop⟩ := by
  have hdone : ∀ {σ : BuddyState}, BuddyReachable σ →
      BuddyReachable ⟨σ.node, σ.allocated, σ.reserved \ Set.Ico stop stop⟩ := fun h => by
    rwa [Set.Ico_self, Set.sdiff_empty]
  induction turns with
  | zero =>
    intro pfn σ h hle hturns _
    obtain rfl : pfn = stop := by omega
    exact hdone h
  | succ turns ih =>
    intro pfn σ h hle hturns hres
    rw [MemoryNode.freeRegionLoop]
    by_cases heq : pfn = stop
    · subst heq
      rw [if_pos rfl]
      exact hdone h
    rw [if_neg heq]
    simp only
    set order := regionOrder pfn pages (pfnMaxOrder pfn) with horder
    obtain ⟨hdvd, hlt⟩ := pfnMaxOrder_spec pfn
    have hle_order : order ≤ pfnMaxOrder pfn := regionOrder_le _
    have hpos := Nat.two_pow_pos order
    have hfits : order = 0 ∨ pfn + 2 ^ order ≤ pages := regionOrder_fits _
    have hend : pfn + 2 ^ order ≤ stop := by
      rcases hfits with hzero | hfits
      · rw [hzero, pow_zero]
        omega
      · exact hfits.trans hstop
    have hpages : (Block.mk pfn order).pages = Set.Ico pfn (pfn + 2 ^ order) := rfl
    have hstep := BuddyReachable.step h (.freeReserved (b := ⟨pfn, order⟩)
      ((Nat.pow_dvd_pow 2 hle_order).trans hdvd) (lt_of_le_of_lt hle_order hlt)
      fun p hp => hres ⟨hp.1, hp.2.trans_le hend⟩)
    have hrest := ih hstep hend (by omega) fun p hp => ⟨hres ⟨by have := hp.1; omega, hp.2⟩,
      fun hc => absurd hp.1 (Nat.not_le_of_gt hc.2)⟩
    rw [Set.sdiff_sdiff, hpages, Set.Ico_union_Ico_eq_Ico (by omega) hend] at hrest
    exact hrest

end Region

/-! ### Runs with regions -/

/-- The states reached by any sequence of calls and of regions freed at boot, from a node as boot
sets it up. -/
inductive BuddyRun : BuddyState → Prop
  | init (id beginPfn endPfn : ℕ) (garbage : ℕ → BitVec 64) :
      BuddyRun ⟨memoryNodeAdd id beginPfn endPfn garbage, [], {p | p < endPfn - beginPfn}⟩
  | step {σ σ' : BuddyState} {e : BuddyEvent} (h : BuddyRun σ) (hstep : BuddyStep σ e σ') :
      BuddyRun σ'
  | freeRegion {σ : BuddyState} {b e : ℕ} (h : BuddyRun σ)
      (hres : Set.Ico (b - σ.node.beginPfn) (b - σ.node.beginPfn + (e - b)) ⊆ σ.reserved) :
      BuddyRun ⟨memoryFreeRegion b e σ.node, σ.allocated,
        σ.reserved \ Set.Ico (b - σ.node.beginPfn) (b - σ.node.beginPfn + (e - b))⟩

theorem BuddyRun.reachable {σ : BuddyState} (h : BuddyRun σ) : BuddyReachable σ := by
  induction h with
  | init id beginPfn endPfn garbage => exact .init id beginPfn endPfn garbage
  | step _ hstep ih => exact .step ih hstep
  | freeRegion _ hres ih =>
    exact ih.freeRegionLoop (Nat.le_add_left _ _) _ (Nat.le_add_right _ _) le_rfl hres

/-! ### Canonical lists -/

/-- The same blocks are on the lists of every order. -/
def SameLists (n n' : MemoryNode) : Prop :=
  ∀ k < buddyOrders, (n.freeList k).Perm (n'.freeList k)

/-- The free blocks are a canonical tiling of the free pages. -/
theorem BuddyInv.canonical {σ : BuddyState} (h : BuddyInv σ) :
    Canonical buddyOrders σ.node.freeBlocks σ.node.freePages := by
  refine ⟨⟨fun b hb => h.layout.tiles.aligned b (List.mem_append_left _ hb),
    (List.pairwise_append.mp h.layout.tiles.apart).1, rfl⟩,
    fun b hb => (mem_freeBlocks.mp hb).1, fun b hb hlt hbuddy => ?_⟩
  exact h.layout.no_buddies b.order hlt b.start (mem_freeBlocks.mp hb).2 (mem_freeBlocks.mp hbuddy).2

theorem BuddyInv.nodup_freeList {σ : BuddyState} (h : BuddyInv σ) {k : ℕ} (hk : k < buddyOrders) :
    (σ.node.freeList k).Nodup := by
  have hnodup := h.canonical.tiles.nodup
  rw [freeBlocks, List.nodup_flatMap] at hnodup
  exact (hnodup.1 k (List.mem_range.2 hk)).of_map _

/-- **The free pages fix the lists.** -/
theorem BuddyInv.sameLists {σ τ : BuddyState} (h : BuddyInv σ) (h' : BuddyInv τ)
    (hfree : σ.node.freePages = τ.node.freePages) : SameLists σ.node τ.node := by
  have hcan := h'.canonical
  rw [← hfree] at hcan
  intro k hk
  rw [List.perm_ext_iff_of_nodup (h.nodup_freeList hk) (h'.nodup_freeList hk)]
  intro p
  have hiff := h.canonical.mem_iff hcan (b := ⟨p, k⟩)
  rw [mem_freeBlocks, mem_freeBlocks] at hiff
  simpa [hk] using hiff

/-! ### Completeness -/

/-- The page has been given to the allocator, and is not allocated. -/
def BuddyState.Free (σ : BuddyState) (p : ℕ) : Prop :=
  p < σ.node.nodePfns ∧ p ∉ σ.reserved ∧ p ∉ coverage σ.allocated

theorem BuddyInv.mem_freePages {σ : BuddyState} (h : BuddyInv σ) {p : ℕ} :
    p ∈ σ.node.freePages ↔ σ.Free p := by
  rw [h.freePages_eq]
  exact and_assoc

theorem findOrder_ne_none {n : MemoryNode} {order c : ℕ} (hle : order ≤ c) (hlt : c < buddyOrders)
    (hne : n.freeList c ≠ []) : n.findOrder order ≠ none := by
  intro hnone
  have hempty := List.find?_eq_none.1 hnone c (List.mem_range'_1.2 ⟨hle, by omega⟩)
  cases hl : n.freeList c with
  | nil => exact hne hl
  | cons p l => simp [hl] at hempty

theorem allocPagesNode_ne_none {n : MemoryNode} {order c : ℕ} (hle : order ≤ c) (hlt : c < buddyOrders)
    (hne : n.freeList c ≠ []) : (allocPagesNode order n).1 ≠ none := by
  rw [allocPagesNode]
  cases hfind : n.findOrder order with
  | none => exact absurd hfind (findOrder_ne_none hle hlt hne)
  | some d =>
    cases hl : n.freeList d with
    | nil => exact absurd hl (findOrder_eq_some hfind).2.2
    | cons p l => simp [hl]

/-- **Buddy allocation is complete.** In every reachable state, an allocation fails if and only if there is no
aligned run of that many free pages, and otherwise it gives the first page of such a run. -/
theorem buddy_alloc_complete {σ : BuddyState} (h : BuddyRun σ) {order : ℕ} (horder : order < buddyOrders) :
    ((allocPagesNode order σ.node).1 = none ↔
      ¬∃ pfn, 2 ^ order ∣ pfn ∧ ∀ i < 2 ^ order, σ.Free (pfn + i)) ∧
    ∀ pfn, (allocPagesNode order σ.node).1 = some pfn →
      2 ^ order ∣ pfn ∧ ∀ i < 2 ^ order, σ.Free (pfn + i) := by
  have hinv := h.reachable.inv
  have hsome : ∀ pfn, (allocPagesNode order σ.node).1 = some pfn →
      2 ^ order ∣ pfn ∧ ∀ i < 2 ^ order, σ.Free (pfn + i) := by
    intro pfn hpfn
    have hrun : allocPagesNode order σ.node = (some pfn, (allocPagesNode order σ.node).2) := Prod.ext hpfn rfl
    have hstep := BuddyStep.alloc hrun
    obtain ⟨hsub, -⟩ := hstep.moves hinv
    refine ⟨(hstep.inv hinv).layout.tiles.aligned ⟨pfn, order⟩ (by simp), fun i hi => ?_⟩
    exact hinv.mem_freePages.1 (hsub ⟨Nat.le_add_right _ _, Nat.add_lt_add_left hi _⟩)
  refine ⟨⟨fun hnone ⟨pfn, hdvd, hfree⟩ => ?_, fun hno => ?_⟩, hsome⟩
  · have hsub : (Block.mk pfn order).pages ⊆ σ.node.freePages := by
      intro p ⟨hlo, hhi⟩
      obtain ⟨i, rfl⟩ := Nat.exists_eq_add_of_le hlo
      exact hinv.mem_freePages.2 (hfree i (Nat.lt_of_add_lt_add_left hhi))
    obtain ⟨c, hc, hle, -⟩ := hinv.canonical.exists_ge (b := ⟨pfn, order⟩) hdvd horder hsub
    obtain ⟨hlt, hmem⟩ := mem_freeBlocks.1 hc
    exact allocPagesNode_ne_none hle hlt (List.ne_nil_of_mem hmem) hnone
  · rcases hrun : (allocPagesNode order σ.node).1 with _ | pfn
    · rfl
    · exact absurd ⟨pfn, hsome pfn hrun⟩ hno

/-! ### Frees in any order -/

/-- Freeing blocks one after the other. -/
def freeAll (L : List Block) (n : MemoryNode) : MemoryNode :=
  L.foldl (fun n b => freePagesNode (some b.start) b.order n) n

/-- Freeing some of the allocated blocks adds their pages to the free ones. -/
theorem BuddyReachable.freeAll {L : List Block} {σ : BuddyState} (h : BuddyReachable σ)
    (hL : L.Subperm σ.allocated) :
    BuddyReachable ⟨Kernel64.freeAll L σ.node, σ.allocated.diff L, σ.reserved⟩ ∧
      (Kernel64.freeAll L σ.node).freePages = σ.node.freePages ∪ coverage L := by
  induction L generalizing σ with
  | nil =>
    refine ⟨h, ?_⟩
    have hnone : coverage [] = (∅ : Set ℕ) := by
      ext p
      simp
    rw [hnone, Set.union_empty]
    rfl
  | cons b L ih =>
    have hb : b ∈ σ.allocated := hL.subset (by simp)
    have hrest : L.Subperm (σ.allocated.erase b) := by
      have := hL.erase b
      rwa [List.erase_cons_head] at this
    have hstep := BuddyStep.free hb
    obtain ⟨hreach, hpages⟩ := ih (BuddyReachable.step h hstep) hrest
    refine ⟨?_, ?_⟩
    · rw [List.diff_cons]
      exact hreach
    · have hmoves := (hstep.moves h.inv).2
      have hunfold : Kernel64.freeAll (b :: L) σ.node =
        Kernel64.freeAll L (freePagesNode (some b.start) b.order σ.node) := rfl
      rw [hunfold, hpages, hmoves, coverage_cons, Set.union_assoc]

/-- Allocating a block and freeing it again leaves the free pages as they were. -/
theorem BuddyReachable.alloc_free {σ : BuddyState} (h : BuddyReachable σ) (order : ℕ) :
    ∃ τ, BuddyReachable τ ∧
      τ.node = freePagesNode (allocPagesNode order σ.node).1 order (allocPagesNode order σ.node).2 ∧
      τ.node.freePages = σ.node.freePages := by
  rcases hrun : allocPagesNode order σ.node with ⟨_ | pfn, n'⟩
  · obtain rfl := allocPagesNode_none hrun
    exact ⟨σ, h, rfl, rfl⟩
  · have halloc := BuddyStep.alloc hrun
    have h' := BuddyReachable.step h halloc
    have hfree := BuddyStep.free (σ := ⟨n', ⟨pfn, order⟩ :: σ.allocated, σ.reserved⟩)
      (b := ⟨pfn, order⟩) (by simp)
    refine ⟨_, .step h' hfree, rfl, ?_⟩
    obtain ⟨hsub, hout⟩ := halloc.moves h.inv
    obtain ⟨-, hback⟩ := hfree.moves h'.inv
    rw [hback, hout, Set.sdiff_union_of_subset hsub]

/-- **The free lists are canonical.** They depend on the set of free pages only; so blocks can be
freed in any order, and a block that is allocated and freed again leaves no trace. -/
theorem buddy_lists_canonical :
    (∀ σ τ, BuddyRun σ → BuddyRun τ → σ.node.freePages = τ.node.freePages →
      SameLists σ.node τ.node) ∧
    (∀ σ, BuddyRun σ → ∀ L L' : List Block, L.Subperm σ.allocated → L.Perm L' →
      SameLists (freeAll L σ.node) (freeAll L' σ.node)) ∧
    ∀ σ, BuddyRun σ → ∀ order, SameLists
      (freePagesNode (allocPagesNode order σ.node).1 order (allocPagesNode order σ.node).2)
      σ.node := by
  refine ⟨fun σ τ h h' => h.reachable.inv.sameLists h'.reachable.inv, ?_, fun σ h order => ?_⟩
  · intro σ h L L' hL hperm
    obtain ⟨hreach, hpages⟩ := h.reachable.freeAll hL
    obtain ⟨hreach', hpages'⟩ := h.reachable.freeAll (hperm.symm.subperm.trans hL)
    refine hreach.inv.sameLists hreach'.inv (hpages.trans ?_)
    rw [coverage_perm hperm]
    exact hpages'.symm
  · obtain ⟨τ, hreach, hnode, hpages⟩ := h.reachable.alloc_free order
    rw [← hnode]
    exact hreach.inv.sameLists h.reachable.inv hpages

/-- A node of three pages whose first two pages were released at boot as a region. -/
def twoOfThree : BuddyState where
  node := memoryFreeRegion 0 2 (memoryNodeAdd 0 0 3 fun _ => 0#64)
  allocated := []
  reserved := {p | p < 3 - 0} \ Set.Ico 0 2

theorem twoOfThree_run : BuddyRun twoOfThree :=
  .freeRegion (b := 0) (e := 2) (.init 0 0 3 fun _ => 0#64) fun _ hp => hp.2.trans (by decide)

/-- Two pages in a row are free, but not four. -/
theorem twoOfThree_alloc_complete : (allocPagesNode 1 twoOfThree.node).1 = some 0 ∧
    (2 ^ 1 ∣ 0 ∧ ∀ i < 2 ^ 1, twoOfThree.Free (0 + i)) ∧
    ¬∃ pfn, 2 ^ 2 ∣ pfn ∧ ∀ i < 2 ^ 2, twoOfThree.Free (pfn + i) := by
  have hsome : (allocPagesNode 1 twoOfThree.node).1 = some 0 := by decide +kernel
  have hnone : (allocPagesNode 2 twoOfThree.node).1 = none := by decide
  exact ⟨hsome, (buddy_alloc_complete twoOfThree_run (by decide)).2 0 hsome,
    (buddy_alloc_complete twoOfThree_run (by decide)).1.1 hnone⟩

theorem twoOfThree_lists_canonical : twoOfThree.node.freeList 1 = [0] ∧
    SameLists (freePagesNode (allocPagesNode 0 twoOfThree.node).1 0
      (allocPagesNode 0 twoOfThree.node).2) twoOfThree.node :=
  ⟨by decide +kernel, buddy_lists_canonical.2.2 twoOfThree twoOfThree_run 0⟩

end Kernel64
