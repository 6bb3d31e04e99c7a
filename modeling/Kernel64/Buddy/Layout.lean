import Kernel64.Buddy.Model

/-!
# The layout of a memory node

`Layout n held reserved` is the invariant the loops of the allocator keep: the blocks on the
free lists together with the `held` ones tile the pages of the node that are not `reserved`.
A block that is being split or joined is just one more held block, so one step of either loop
is one use of `tiles_halves`.

The joining loop reads the flags and the order of the buddy page alone. When two buddies are
joined, the upper one keeps both as they were, inside the larger block. `Layout.mem_iff` is why
this does no harm: a page aligned as the buddy is, outside the block being freed, is the head of
its block or reserved.
-/

namespace Kernel64

open MemoryNode

/-! ### Page words -/

namespace Page

@[simp] theorem setBusy_busy (p : Page) : p.setBusy.busy = true := by
  simp only [setBusy, busy, pageBusyMask, bne_iff_ne, ne_eq]
  intro h
  have := congrArg (fun w => w.getLsbD 8) h
  simp at this

@[simp] theorem setFree_busy (p : Page) : p.setFree.busy = false := by
  simp [setFree, busy, BitVec.and_assoc]

@[simp] theorem setOrder_busy (p : Page) (k : ℕ) : (p.setOrder k).busy = p.busy := rfl

@[simp] theorem setFree_getOrder (p : Page) : p.setFree.getOrder = p.getOrder := rfl

/-- An order read back from the union. -/
theorem setOrder_getOrder (p : Page) {k : ℕ} (hk : k < buddyOrders) :
    (p.setOrder k).getOrder = k := by
  have hlow : ((p.u &&& ~~~0xffffffff#64) ||| (BitVec.ofNat 32 k).setWidth 64).setWidth 32
      = BitVec.ofNat 32 k := by
    ext i hi
    simp
  have hk' : k < 12 := hk
  have hnat : (BitVec.ofNat 32 k).toNat = k := by
    rw [BitVec.toNat_ofNat]
    exact Nat.mod_eq_of_lt (by omega)
  rw [getOrder, setOrder, hlow, BitVec.toInt_eq_toNat_of_lt (by omega), hnat]

end Page

/-! ### Node updates -/

namespace MemoryNode

variable (n : MemoryNode) (p k : ℕ) (f : Page → Page)

@[simp] theorem modifyPage_mmap_self : (n.modifyPage p f).mmap p = f (n.mmap p) :=
  Function.update_self ..

theorem modifyPage_mmap_of_ne {q : ℕ} (h : q ≠ p) : (n.modifyPage p f).mmap q = n.mmap q :=
  Function.update_of_ne h ..

@[simp] theorem modifyPage_freeList : (n.modifyPage p f).freeList = n.freeList := rfl

@[simp] theorem modifyPage_nodePfns : (n.modifyPage p f).nodePfns = n.nodePfns := rfl

@[simp] theorem listAdd_mmap : (n.listAdd p k).mmap = n.mmap := rfl

@[simp] theorem listAdd_nodePfns : (n.listAdd p k).nodePfns = n.nodePfns := rfl

@[simp] theorem listAdd_freeList_self :
    (n.listAdd p k).freeList k = p :: n.freeList k := by
  simp [listAdd]

theorem listAdd_freeList_of_ne {j : ℕ} (h : j ≠ k) :
    (n.listAdd p k).freeList j = n.freeList j := by
  simp [listAdd, h]

@[simp] theorem listDel_mmap : (n.listDel p).mmap = n.mmap := rfl

@[simp] theorem listDel_nodePfns : (n.listDel p).nodePfns = n.nodePfns := rfl

end MemoryNode

/-! ### The blocks on the free lists -/

/-- The blocks on the free lists of a node. -/
def MemoryNode.freeBlocks (n : MemoryNode) : List Block :=
  (List.range buddyOrders).flatMap fun k => (n.freeList k).map (⟨·, k⟩)

theorem mem_freeBlocks {n : MemoryNode} {b : Block} :
    b ∈ n.freeBlocks ↔ b.order < buddyOrders ∧ b.start ∈ n.freeList b.order := by
  obtain ⟨p, k⟩ := b
  simp only [freeBlocks, List.mem_flatMap, List.mem_range, List.mem_map, Block.mk.injEq]
  constructor
  · rintro ⟨k, hk, p, hp, rfl, rfl⟩
    exact ⟨hk, hp⟩
  · rintro ⟨hk, hp⟩
    exact ⟨k, hk, p, hp, rfl, rfl⟩

/-- Changing one of the joined lists by one entry changes the join by that entry. -/
theorem flatMap_range_perm {f g : ℕ → List Block} {b : Block} {k N : ℕ} (hk : k < N)
    (hfk : (f k).Perm (b :: g k)) (hf : ∀ j < N, j ≠ k → f j = g j) :
    ((List.range N).flatMap f).Perm (b :: (List.range N).flatMap g) := by
  induction N with
  | zero => omega
  | succ N ih =>
    rw [List.range_succ, List.flatMap_append, List.flatMap_append, List.flatMap_singleton,
      List.flatMap_singleton]
    rcases Nat.lt_succ_iff_lt_or_eq.mp hk with hk | rfl
    · rw [hf N (Nat.lt_succ_self N) hk.ne']
      exact (ih hk fun j hj => hf j (Nat.lt_succ_of_lt hj)).append_right _
    · have hlow : (List.range k).flatMap f = (List.range k).flatMap g :=
        List.flatMap_congr fun j hj => by
          have hlt := List.mem_range.mp hj
          exact hf j (Nat.lt_succ_of_lt hlt) hlt.ne
      rw [hlow]
      exact (hfk.append_left _).trans List.perm_middle

theorem freeBlocks_listAdd {n : MemoryNode} {p k : ℕ} (hk : k < buddyOrders) :
    (n.listAdd p k).freeBlocks.Perm (⟨p, k⟩ :: n.freeBlocks) := by
  refine flatMap_range_perm hk ?_ fun j _ hj => ?_
  · simp [listAdd]
  · simp [listAdd, hj]

theorem freeBlocks_listDel {n : MemoryNode} {p k : ℕ} (hk : k < buddyOrders)
    (hp : p ∈ n.freeList k) (hother : ∀ j < buddyOrders, j ≠ k → p ∉ n.freeList j) :
    n.freeBlocks.Perm (⟨p, k⟩ :: (n.listDel p).freeBlocks) := by
  refine flatMap_range_perm hk ?_ fun j hlt hj => ?_
  · exact (List.perm_cons_erase hp).map _
  · simp only [listDel, List.erase_of_not_mem (hother j hlt hj)]

@[simp] theorem freeBlocks_modifyPage (n : MemoryNode) (p : ℕ) (f : Page → Page) :
    (n.modifyPage p f).freeBlocks = n.freeBlocks := rfl

/-! ### The invariant -/

/-- The blocks on the free lists and the `held` blocks tile the pages that are not `reserved`;
the pages the joining loop may look at say truly what they are. -/
structure Layout (n : MemoryNode) (held : List Block) (reserved : Set ℕ) : Prop where
  tiles : Tiles (n.freeBlocks ++ held) {p | p < n.nodePfns ∧ p ∉ reserved}
  order_lt : ∀ b ∈ held, b.order < buddyOrders
  free_head : ∀ b ∈ n.freeBlocks,
    (n.mmap b.start).busy = false ∧ (n.mmap b.start).getOrder = b.order
  reserved_busy : ∀ p ∈ reserved, (n.mmap p).busy = true
  no_buddies : ∀ k, k + 1 < buddyOrders → ∀ p ∈ n.freeList k, buddyOf p k ∉ n.freeList k

/-- The head pages of the blocks are marked busy. -/
def HeldBusy (n : MemoryNode) (held : List Block) : Prop :=
  ∀ b ∈ held, (n.mmap b.start).busy = true

section Layout

variable {n : MemoryNode} {held : List Block} {reserved : Set ℕ} {b : Block} {p k : ℕ}

theorem Layout.mem_freeBlocks_tiles (hk : k < buddyOrders) (hp : p ∈ n.freeList k) :
    Block.mk p k ∈ n.freeBlocks ++ held :=
  List.mem_append_left _ (mem_freeBlocks.mpr ⟨hk, hp⟩)

/-- A page of a held block lies on no free list. -/
theorem Layout.not_mem_freeList (h : Layout n (b :: held) reserved) (hp : p ∈ b.pages)
    (hk : k < buddyOrders) : p ∉ n.freeList k := by
  intro hmem
  have hfree : Block.mk p k ∈ n.freeBlocks := mem_freeBlocks.mpr ⟨hk, hmem⟩
  exact (List.pairwise_append.mp h.tiles.apart).2.2 _ hfree b (by simp) p
    (Block.start_mem_pages _) hp

/-- A block is on one list only. -/
theorem Layout.order_unique (h : Layout n held reserved) {j : ℕ} (hj : j < buddyOrders)
    (hk : k < buddyOrders) (hp : p ∈ n.freeList k) (hne : j ≠ k) : p ∉ n.freeList j := by
  intro hp'
  have heq := h.tiles.eq_of_mem (mem_freeBlocks_tiles hj hp') (mem_freeBlocks_tiles hk hp)
    (Block.start_mem_pages ⟨p, j⟩) (Block.start_mem_pages ⟨p, k⟩)
  exact hne (Block.mk.inj heq).2

/-- The pages of a held block are not reserved. -/
theorem Layout.not_mem_reserved (h : Layout n (b :: held) reserved) (hp : p ∈ b.pages) :
    p ∉ reserved := by
  have hcov : p ∈ coverage (n.freeBlocks ++ b :: held) := ⟨b, by simp, hp⟩
  rw [h.tiles.covers] at hcov
  exact hcov.2

theorem Layout.inside (h : Layout n (b :: held) reserved) (hp : p ∈ b.pages) :
    p < n.nodePfns := by
  have hcov : p ∈ coverage (n.freeBlocks ++ b :: held) := ⟨b, by simp, hp⟩
  rw [h.tiles.covers] at hcov
  exact hcov.1

/-- Another held block shares no page with the first. -/
theorem Layout.apart_of_mem (h : Layout n (b :: held) reserved) {c : Block} (hc : c ∈ held) :
    b.Apart c := by
  have hpw := (List.pairwise_append.mp h.tiles.apart).2.1
  exact (List.pairwise_cons.mp hpw).1 c hc

/-- Writes to the page structures of a held block are not seen by the invariant. -/
theorem Layout.modifyPage (h : Layout n (b :: held) reserved) (hp : p ∈ b.pages)
    (f : Page → Page) : Layout (n.modifyPage p f) (b :: held) reserved := by
  refine ⟨h.tiles, h.order_lt, fun c hc => ?_, fun q hq => ?_, h.no_buddies⟩
  · have hne : c.start ≠ p := by
      rintro rfl
      exact h.not_mem_freeList hp (mem_freeBlocks.mp hc).1 (mem_freeBlocks.mp hc).2
    rw [modifyPage_mmap_of_ne _ _ _ hne]
    exact h.free_head c hc
  · have hne : q ≠ p := by
      rintro rfl
      exact h.not_mem_reserved hp hq
    rw [modifyPage_mmap_of_ne _ _ _ hne]
    exact h.reserved_busy q hq

theorem Layout.heldBusy_modifyPage (h : Layout n (b :: held) reserved) (hp : p ∈ b.pages)
    (hbusy : HeldBusy n held) (f : Page → Page) : HeldBusy (n.modifyPage p f) held := by
  intro c hc
  have hne : c.start ≠ p := by
    rintro rfl
    exact h.apart_of_mem hc _ hp (Block.start_mem_pages c)
  rw [modifyPage_mmap_of_ne _ _ _ hne]
  exact hbusy c hc

/-! ### Moving a block between the lists and the holder -/

/-- Taking a block off its free list leaves it with the holder. -/
theorem Layout.listDel (h : Layout n held reserved) (hk : k < buddyOrders)
    (hp : p ∈ n.freeList k) : Layout (n.listDel p) (⟨p, k⟩ :: held) reserved := by
  have hperm : n.freeBlocks.Perm (⟨p, k⟩ :: (n.listDel p).freeBlocks) := by
    exact freeBlocks_listDel hk hp fun j hlt hj => h.order_unique hlt hk hp hj
  refine ⟨h.tiles.perm ?_, ?_, fun c hc => h.free_head c ?_, h.reserved_busy, ?_⟩
  · exact (hperm.append_right held).trans List.perm_middle.symm
  · intro c hc
    rcases List.mem_cons.mp hc with rfl | hc
    · exact hk
    · exact h.order_lt c hc
  · exact hperm.mem_iff.mpr (List.mem_cons_of_mem _ hc)
  · intro j hj q hq hq'
    exact h.no_buddies j hj q (List.mem_of_mem_erase hq) (List.mem_of_mem_erase hq')

/-- Putting a held block on the list of its order, when its head says so and its buddy is not
there. -/
theorem Layout.listAdd (h : Layout n (⟨p, k⟩ :: held) reserved)
    (hfree : (n.mmap p).busy = false) (horder : (n.mmap p).getOrder = k)
    (hbuddy : k + 1 < buddyOrders → buddyOf p k ∉ n.freeList k) :
    Layout (n.listAdd p k) held reserved := by
  have hk : k < buddyOrders := h.order_lt ⟨p, k⟩ (by simp)
  have hperm := freeBlocks_listAdd (n := n) (p := p) hk
  refine ⟨h.tiles.perm ?_, ?_, fun c hc => ?_, h.reserved_busy, fun j hj q hq hq' => ?_⟩
  · exact List.perm_middle.trans (hperm.symm.append_right held)
  · exact fun c hc => h.order_lt c (List.mem_cons_of_mem _ hc)
  · rcases List.mem_cons.mp (hperm.mem_iff.mp hc) with rfl | hc
    · exact ⟨hfree, horder⟩
    · exact h.free_head c hc
  · by_cases hjk : j = k
    · subst hjk
      rw [listAdd_freeList_self] at hq hq'
      -- only the new block can make a pair
      rcases List.mem_cons.mp hq with rfl | hq <;> rcases List.mem_cons.mp hq' with heq | hq'
      · exact buddyOf_ne _ _ heq
      · exact hbuddy hj hq'
      · rw [← heq, buddyOf_buddyOf] at hbuddy
        exact hbuddy hj hq
      · exact h.no_buddies j hj q hq hq'
    · rw [listAdd_freeList_of_ne _ _ _ hjk] at hq hq'
      exact h.no_buddies j hj q hq hq'

/-- Only the tiling depends on how the held pages are cut into blocks. -/
theorem Layout.recut {held' : List Block} (h : Layout n held reserved)
    (ht : ∀ L S, Tiles (held ++ L) S → Tiles (held' ++ L) S)
    (ho : ∀ b ∈ held', b.order < buddyOrders) : Layout n held' reserved := by
  refine ⟨?_, ho, h.free_head, h.reserved_busy, h.no_buddies⟩
  exact (ht _ _ (h.tiles.perm List.perm_append_comm)).perm List.perm_append_comm

/-- The head of the block and of its upper half. -/
theorem Layout.split (h : Layout n (⟨p, k + 1⟩ :: held) reserved) :
    Layout n (⟨p + 2 ^ k, k⟩ :: ⟨p, k⟩ :: held) reserved := by
  have hal : 2 ^ (k + 1) ∣ p := h.tiles.aligned ⟨p, k + 1⟩ (by simp)
  have hk : k + 1 < buddyOrders := h.order_lt ⟨p, k + 1⟩ (by simp)
  refine h.recut (fun L S ht => ?_) fun c hc => ?_
  · exact ((tiles_halves hal).mpr ht).perm (List.Perm.swap ..)
  · simp only [List.mem_cons] at hc
    rcases hc with rfl | rfl | hc
    · exact (Nat.lt_succ_self k).trans hk
    · exact (Nat.lt_succ_self k).trans hk
    · exact h.order_lt c (by simp [hc])

/-- Two held buddies are one block of the next order. -/
theorem Layout.join (h : Layout n (⟨buddyOf p k, k⟩ :: ⟨p, k⟩ :: held) reserved)
    (hk : k + 1 < buddyOrders) :
    Layout n (⟨if buddyOf p k < p then buddyOf p k else p, k + 1⟩ :: held) reserved := by
  have hal : 2 ^ k ∣ p := h.tiles.aligned ⟨p, k⟩ (by simp)
  have hpos := Nat.two_pow_pos k
  refine h.recut (fun L S ht => ?_) fun c hc => ?_
  · by_cases hlow : 2 ^ (k + 1) ∣ p
    · rw [buddyOf_lower hlow] at ht ⊢
      rw [if_neg (by omega)]
      exact (tiles_halves hlow).mp (ht.perm (List.Perm.swap ..))
    · obtain ⟨hdvd, heq⟩ := buddyOf_upper hal hlow
      rw [if_pos (by omega)]
      refine (tiles_halves hdvd).mp ?_
      rw [heq]
      exact ht
  · rcases List.mem_cons.mp hc with rfl | hc
    · exact hk
    · exact h.order_lt c (by simp [hc])

/-- Reserved pages given to the holder as a block. -/
theorem Layout.release (h : Layout n held reserved) (hal : b.Aligned)
    (hk : b.order < buddyOrders) (hres : b.pages ⊆ reserved)
    (hin : ∀ q ∈ b.pages, q < n.nodePfns) :
    Layout n (b :: held) (reserved \ b.pages) := by
  refine ⟨Tiles.perm ?_ List.perm_middle.symm, fun c hc => ?_, h.free_head,
    fun q hq => h.reserved_busy q hq.1, h.no_buddies⟩
  · refine tiles_cons.mpr ⟨hal, fun q hq hcov => ?_, ⟨h.tiles.aligned, h.tiles.apart, rfl⟩, ?_⟩
    · rw [h.tiles.covers] at hcov
      exact hcov.2 (hres hq)
    · rw [h.tiles.covers]
      ext q
      have := @hres q
      have := hin q
      simp only [Set.mem_union, Set.mem_ofPred_eq, Set.mem_sdiff]
      tauto
  · rcases List.mem_cons.mp hc with rfl | hc
    · exact hk
    · exact h.order_lt c hc

/-- **The joining test.** A buddy inside the node that is marked free with the order of the
block being freed is on the free list of that order. -/
theorem Layout.mem_iff (h : Layout n (⟨p, k⟩ :: held) reserved) (hbusy : HeldBusy n held)
    (hin : buddyOf p k < n.nodePfns) :
    ((n.mmap (buddyOf p k)).busy = false ∧ (n.mmap (buddyOf p k)).getOrder = k) ↔
      buddyOf p k ∈ n.freeList k := by
  have hk : k < buddyOrders := h.order_lt ⟨p, k⟩ (by simp)
  have hal : 2 ^ k ∣ p := h.tiles.aligned ⟨p, k⟩ (by simp)
  constructor
  · rintro ⟨hfree, horder⟩
    have hres : buddyOf p k ∉ reserved := fun hr => by
      simp [h.reserved_busy _ hr] at hfree
    obtain ⟨c, hc, hmem⟩ := h.tiles.exists_mem ⟨hin, hres⟩
    -- a larger block around the buddy would hold the block being freed too
    have hle : c.order ≤ k := by
      by_contra hlt
      have hp := (h.tiles.aligned c hc).buddyOf_mem hal hmem (Nat.lt_of_not_le hlt)
      have heq := h.tiles.eq_of_mem hc (by simp) hp (Block.start_mem_pages ⟨p, k⟩)
      rw [heq] at hlt
      exact hlt le_rfl
    have hstart := (h.tiles.aligned c hc).start_eq (dvd_buddyOf hal) hmem hle
    rcases List.mem_append.mp hc with hc | hc
    · obtain ⟨-, hord⟩ := h.free_head c hc
      rw [hstart, horder] at hord
      have hck : c.order = k := by exact_mod_cast hord.symm
      have hon := (mem_freeBlocks.mp hc).2
      rw [hstart, hck] at hon
      exact hon
    · rcases List.mem_cons.mp hc with rfl | hc
      · exact absurd hstart.symm (buddyOf_ne p k)
      · have := hbusy c hc
        rw [hstart, hfree] at this
        exact absurd this Bool.false_ne_true
  · intro hmem
    exact h.free_head ⟨buddyOf p k, k⟩ (mem_freeBlocks.mpr ⟨hk, hmem⟩)

end Layout

end Kernel64
