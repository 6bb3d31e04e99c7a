import Kernel64.Hwfs.Failures

/-!
# Nodes that overflow

A full internal node is split in two, and a full leaf gets one or two new leaves beside it. Neither
works on any tree: `btree_split_node` leaves its new node at level 0, where `memset` put it, so that
it is taken for a leaf (`not_splitsNode`), and `btree_node_insert_ptr` puts an item into the parent
without counting it, so that the parent does not list the new leaves (`not_insertsLeaves`).
-/

namespace Kernel64

namespace Hwfs

/-! ### What stays of a block's header -/

theorem headerSize_le_itemAt (i : ℕ) : 6 ≤ itemAt i := Nat.le_add_right headerSize _

/-- The bytes of the header that two blocks agree on determine its fields. -/
theorem level_congr {b c : Buf} (h : ∀ i < 2, c i = b i) : level c = level b :=
  Buf.field_congr fun i hi => by rw [Nat.zero_add]; exact h i hi

theorem count_congr {b c : Buf} (h : ∀ i < 6, c i = b i) : count c = count b :=
  Buf.field_congr fun i hi => h (2 + i) (by omega)

section

variable {i : ℕ} (hi : i < 6) (b : Buf)
include hi

theorem setItemBlocknr_header (slot v : ℕ) : setItemBlocknr b slot v i = b i := by
  have := headerSize_le_itemAt slot
  exact Buf.setField_outside (by omega)

theorem hwfsKeyToDisk_header (slot : ℕ) (key : Key) : hwfsKeyToDisk b (itemAt slot) key i = b i := by
  have := headerSize_le_itemAt slot
  exact hwfsKeyToDisk_outside (by omega)

theorem move_header (slot src n : ℕ) : b.move (itemAt slot) src n i = b i := by
  have := headerSize_le_itemAt slot
  exact Buf.move_outside (by omega)

theorem copy_header (slot : ℕ) (c : Buf) (src n : ℕ) : b.copy (itemAt slot) c src n i = b i := by
  have := headerSize_le_itemAt slot
  exact Buf.copy_outside (by omega)

end

theorem setCount_level {i : ℕ} (hi : i < 2) (b : Buf) (v : ℕ) : setCount b v i = b i :=
  Buf.setField_outside (by omega)

/-- A node that has just been allocated is at level 0. -/
theorem level_allocated (s : BtState) (hbs : 2 ≤ s.blockSize) :
    level (s.allocated.data s.fs.next) = 0 := by
  rw [BtState.allocated]
  dsimp only
  rw [Function.update_self]
  have hzero : ∀ i < 2, setBlocks ((s.data s.fs.next).store 0 (List.replicate s.blockSize 0)) 1 i =
      (fun _ => 0 : Buf) i := by
    intro i hi
    have hinside := @Buf.store_inside 0 i (s.data s.fs.next) (List.replicate s.blockSize 0)
      (by rw [List.length_replicate]; omega)
    rw [Nat.zero_add, List.getElem_replicate] at hinside
    rw [setBlocks, Buf.setField_outside (by omega), hinside]
  rw [level_congr hzero]
  decide

/-! ### Splitting an internal node -/

/-- The items of a node. -/
def items (b : Buf) : List (Key × ℕ) :=
  (List.range (count b)).map fun i => (itemKey b i, itemBlocknr b i)

/-- A node that can be split: it is an internal node with two items, and its parent has room for one
more. -/
structure Splittable (s : BtState) (parent slot block : ℕ) : Prop where
  slot_lt : slot < count (s.data parent)
  child : itemBlocknr (s.data parent) slot = block
  room : count (s.data parent) + 1 ≤ hwfsNodeFanout s.blockSize
  level_pos : 1 ≤ level (s.data block)
  two_items : 2 ≤ count (s.data block)
  apart : parent ≠ block
  parent_lt : parent < s.fs.next
  block_lt : block < s.fs.next

/-- The node has been split into itself and the node `next`, and the parent points to both. -/
structure Split (s s' : BtState) (parent slot block next : ℕ) : Prop where
  level_block : level (s'.data block) = level (s.data block)
  level_next : level (s'.data next) = level (s.data block)
  block_ne : items (s'.data block) ≠ []
  next_ne : items (s'.data next) ≠ []
  items_eq : items (s'.data block) ++ items (s'.data next) = items (s.data block)
  parent_count : count (s'.data parent) = count (s.data parent) + 1
  parent_items : items (s'.data parent) =
    (items (s.data parent)).insertIdx (slot + 1) (itemKey (s'.data next) 0, next)

/-- **Splitting**: the upper half of the items goes to the next free block. -/
def SplitsNode (s : BtState) (parent slot block : ℕ) : Prop :=
  Ensures (btreeSplitNode parent slot block) s fun _ s' => Split s s' parent slot block s.fs.next

/-- No step of the split sets the level of the new node. -/
theorem ensuresOr_btreeSplitNode_level (s : BtState) (parent slot block : ℕ)
    (hbs : 2 ≤ s.blockSize) :
    EnsuresOr (fun _ => True) (btreeSplitNode parent slot block) s fun _ s' =>
      level (s'.data s.fs.next) = 0 := by
  have hkeep : ∀ (data : ℕ → Buf) (m : ℕ) (b : Buf), level (data s.fs.next) = 0 →
      (∀ i < 2, b i = data m i) → level (Function.update data m b s.fs.next) = 0 := by
    intro data m b hlevel hb
    by_cases hm : s.fs.next = m
    · rw [← hm, Function.update_self]
      rw [← hm] at hb
      rw [level_congr hb, hlevel]
    · rw [Function.update_of_ne hm, hlevel]
  have hzero := level_allocated s hbs
  simp only [btreeSplitNode, ensuresOr_bind, ensuresOr_get]
  by_cases hfree : OutOfBlocks s
  · rw [ensuresOr_of_run (btreeAllocNode_none hfree)]
    exact ensuresOr_throw.2 trivial
  · rw [ensuresOr_of_run (btreeAllocNode_some hfree)]
    simp only [deref, ensuresOr_pure, modifyData, ensuresOr_modify]
    refine hkeep _ _ _ (hkeep _ _ _ (hkeep _ _ _ (hkeep _ _ _ hzero fun i hi => ?_) fun i hi => ?_)
      fun i hi => ?_) fun i hi => ?_
    · rw [copy_header (by omega)]
    · rw [setCount_level hi, setItemBlocknr_header (by omega), copy_header (by omega),
        move_header (by omega)]
    · rw [setCount_level hi]
    · rw [setCount_level hi]

/-- A new node at level 0 is no half of an internal node. -/
theorem SplitsNode.level_eq {s : BtState} {parent slot block : ℕ} (h : SplitsNode s parent slot block)
    (hbs : 2 ≤ s.blockSize) : level (s.data block) = 0 := by
  obtain ⟨rc, s', hrun, hsplit⟩ := h
  rw [← hsplit.level_next]
  exact (ensuresOr_btreeSplitNode_level s parent slot block hbs).of_run hrun

/-- **No internal node is split correctly.** -/
theorem not_splitsNode (s : BtState) (parent slot block : ℕ) (h : Splittable s parent slot block) :
    ¬SplitsNode s parent slot block := by
  intro hsplit
  have hbs : 2 ≤ s.blockSize := by
    by_contra hlt
    have hfanout : hwfsNodeFanout s.blockSize = 0 := by
      rw [hwfsNodeFanout, headerSize, itemSize]
      omega
    have hroom := h.room
    omega
  have hlevel := h.level_pos
  have hzero := hsplit.level_eq hbs
  omega

/-- A node at level 2 over a node at level 1 with two items. -/
def twoLevels : BtState where
  blockSize := 4096
  data n :=
    if n = 1 then setItemBlocknr (setCount (setLevel (fun _ => 0) 2) 1) 0 2
    else if n = 2 then setItemBlocknr (setItemBlocknr (setCount (setLevel (fun _ => 0) 1) 2) 0 3) 1 4
    else fun _ => 0
  links _ := 0
  readable _ := true
  fs := ⟨8, 5⟩
  root := 1

theorem not_splitsNode_twoLevels : ¬SplitsNode twoLevels 1 0 2 :=
  not_splitsNode twoLevels 1 0 2
    ⟨by decide, by decide, by decide, by decide, by decide, by decide, by decide, by decide⟩

/-- Splitting the lower node leaves a node at level 0 beside it. -/
theorem twoLevels_not_split :
    1 ≤ level (twoLevels.data 2) ∧ ¬SplitsNode twoLevels 1 0 2 :=
  ⟨by decide, fun h => absurd (h.level_eq (by decide)) (by decide)⟩

/-! ### Inserting into a full leaf -/

section

variable {parent n : ℕ}

/-- The parent still counts `n` items, and it is not among the free blocks. -/
def Counts (parent n : ℕ) (s : BtState) : Prop :=
  parent < s.fs.next ∧ count (s.data parent) = n

theorem keeps_modifyData_of_ne {m : ℕ} (hm : m ≠ parent) (f : Buf → Buf) :
    Keeps (Counts parent n) (fun _ => True) (modifyData m f) fun _ => True := by
  refine keeps_modify fun s hs => ⟨hs.1, ?_⟩
  rw [← hs.2]
  exact congrArg count (Function.update_of_ne hm.symm _ _)

/-- Bytes behind the header are not counted. -/
theorem keeps_modifyData_header {m : ℕ} {f : Buf → Buf} (hf : ∀ b, ∀ i < 6, f b i = b i) :
    Keeps (Counts parent n) (fun _ => True) (modifyData m f) fun _ => True := by
  by_cases hm : m = parent
  · subst hm
    refine keeps_modify fun s hs => ⟨hs.1, ?_⟩
    rw [← hs.2, ← count_congr (hf (s.data m))]
    exact congrArg count (Function.update_self _ _ _)
  · exact keeps_modifyData_of_ne hm f

theorem keeps_putBlock (p : Option ℕ) :
    Keeps (Counts parent n) (fun _ => True) (putBlock p) fun _ => True := by
  intro s hs
  exact (ensuresOr_of_run (putBlock_run p s)).2 ⟨hs, trivial⟩

theorem keeps_deref {P : ℕ → Prop} {r : Option ℕ} (h : ∀ m, r = some m → P m) :
    Keeps (Counts parent n) (fun _ => True) (deref r) P := by
  cases r with
  | none => exact keeps_throw trivial
  | some m => exact keeps_pure (h m rfl)

/-- A new block is not the parent. -/
theorem keeps_btreeAllocNode : Keeps (Counts parent n) (fun _ => True) btreeAllocNode
    fun r => ∀ m, r = some m → m ≠ parent := by
  intro s hs
  obtain ⟨hlt, hcount⟩ := hs
  by_cases hfree : OutOfBlocks s
  · exact (ensuresOr_of_run (btreeAllocNode_none hfree)).2 ⟨⟨hlt, hcount⟩, nofun⟩
  · refine (ensuresOr_of_run (btreeAllocNode_some hfree)).2 ⟨⟨Nat.lt_succ_of_lt hlt, ?_⟩, ?_⟩
    · rw [← hcount]
      exact congrArg count (Function.update_of_ne hlt.ne _ _)
    · rintro m hm
      cases hm
      exact hlt.ne'

theorem keeps_btreeLeafInsertNooverflow {m : ℕ} (hm : m ≠ parent) (key : Key) (data : List UInt8) :
    Keeps (Counts parent n) (fun _ => True) (btreeLeafInsertNooverflow m key data) fun _ => True := by
  refine keeps_get.bind fun s _ => ?_
  cases leafInsert s.blockSize (s.data m) key data with
  | none => exact keeps_pure trivial
  | some b =>
    refine (keeps_modifyData_of_ne hm _).bind fun _ _ => ?_
    exact (keeps_putBlock _).bind fun _ _ => keeps_pure trivial

theorem keeps_moveHigh {high : ℕ} (hhigh : high ≠ parent) (block slot : ℕ) : ∀ (k : ℕ) (copy : Key),
    Keeps (Counts parent n) (fun _ => True) (moveHigh block high slot k copy) fun _ => True
  | 0, _ => keeps_pure trivial
  | k + 1, _ => keeps_get.bind fun _ _ =>
      (keeps_btreeLeafInsertNooverflow hhigh _ _).bind fun _ _ => keeps_moveHigh hhigh block slot k _

/-- A pointer put into a node is not counted. -/
theorem keeps_btreeNodeInsertPtr (m slot : ℕ) (key : Key) (blocknr : ℕ) :
    Keeps (Counts parent n) (fun _ => True) (btreeNodeInsertPtr m slot key blocknr)
      fun _ => True := by
  refine keeps_modifyData_header fun b i hi => ?_
  rw [setItemBlocknr_header hi, hwfsKeyToDisk_header hi, move_header hi]

/-- **No step of the insertion** into a full leaf counts an item of the parent. -/
theorem keeps_btreeLeafInsertOverflow {block : ℕ} (hblock : block ≠ parent) (parentSlot : ℕ)
    (key : Key) (data : List UInt8) :
    Keeps (Counts parent n) (fun _ => True)
      (btreeLeafInsertOverflow (some parent) parentSlot block key data) fun _ => True := by
  -- the references are dropped in the same way after each of the three cases
  have hput : ∀ newBlock, Keeps (Counts parent n) (fun _ => True)
      (do
        putBlock (some block)
        putBlock (some newBlock)
        putBlock (some parent)
        return 0 : BtM ℤ) fun _ => True := fun newBlock =>
    (keeps_putBlock _).bind fun _ _ => (keeps_putBlock _).bind fun _ _ =>
      (keeps_putBlock _).bind fun _ _ => keeps_pure trivial
  have hderef := fun r (h : ∀ m, r = some m → m ≠ parent) =>
    @keeps_deref parent n (fun m => m ≠ parent) r h
  refine (@keeps_deref parent n (fun m => m = parent) _ fun m hm => (Option.some_inj.1 hm).symm).bind ?_
  rintro _ rfl
  refine keeps_get.bind fun s _ => ?_
  refine keeps_btreeAllocNode.bind fun r hr => (hderef r hr).bind fun newBlock hnew => ?_
  refine (keeps_btreeLeafInsertNooverflow hnew key data).bind fun _ _ => ?_
  dsimp only
  split_ifs with hfirst hlast
  · refine (keeps_modifyData_header fun b i hi => setItemBlocknr_header hi b _ _).bind fun _ _ => ?_
    refine keeps_get.bind fun _ _ => ?_
    exact (keeps_btreeNodeInsertPtr _ _ _ _).bind fun _ _ => hput newBlock
  · exact (keeps_btreeNodeInsertPtr _ _ _ _).bind fun _ _ => hput newBlock
  · refine keeps_btreeAllocNode.bind fun r hr => (hderef r hr).bind fun high hhigh => ?_
    refine (keeps_moveHigh hhigh _ _ _ _).bind fun copy _ => ?_
    refine (keeps_modifyData_of_ne hblock _).bind fun _ _ => ?_
    refine (keeps_btreeNodeInsertPtr _ _ _ _).bind fun _ _ => ?_
    refine (keeps_btreeNodeInsertPtr _ _ _ _).bind fun _ _ => ?_
    exact (keeps_putBlock _).bind fun _ _ => hput newBlock

end

/-- The items of the node `n` from `slot` on point to leaves that hold the pairs `pss`. -/
structure Lists (s : BtState) (n slot : ℕ) (pss : List Pairs) : Prop where
  count_eq : count (s.data n) = slot + pss.length
  isLeaf : ∀ i (h : i < pss.length),
    IsLeaf s.blockSize (s.data (itemBlocknr (s.data n) (slot + i))) pss[i]

/-- A leaf that has to overflow: it has no room for the value, an empty leaf has, and its parent has room for
two more items. `later` is what the leaves after it hold. -/
structure Overflows (s : BtState) (parent slot block : ℕ) (data : List UInt8) (ps : Pairs)
    (later : List Pairs) : Prop where
  child : itemBlocknr (s.data parent) slot = block
  lists : Lists s parent slot (ps :: later)
  level_pos : 1 ≤ level (s.data parent)
  room : count (s.data parent) + 2 ≤ hwfsNodeFanout s.blockSize
  full : s.blockSize < valueAt (ps.length + 1) + dataLen ps ps.length + data.length
  fits_empty : valueAt 1 + data.length ≤ s.blockSize
  blockSize_lt : s.blockSize < 2 ^ 16
  apart : block ≠ parent
  parent_lt : parent < s.fs.next
  block_lt : block < s.fs.next

/-- The number of leaves added: one when the new key goes first or last, and two between. -/
def addedLeaves (ps : Pairs) (key : Key) : ℕ :=
  if (∀ p ∈ ps, key ≤ p.1) ∨ ∀ p ∈ ps, p.1 < key then 1 else 2

theorem addedLeaves_pos (ps : Pairs) (key : Key) : 0 < addedLeaves ps key := by
  unfold addedLeaves
  split_ifs <;> decide

/-- The leaves that the parent lists from `slot` on hold the pairs and the new one, in order, and what the later
leaves held. -/
structure Inserts (s s' : BtState) (parent slot block : ℕ) (key : Key) (data : List UInt8) (ps : Pairs)
    (later pss : List Pairs) : Prop where
  lists : Lists s' parent slot pss
  pairs : pss.flatten = ps.orderedInsert ByKey (key, data) ++ later.flatten
  count_eq : count (s'.data parent) = count (s.data parent) + addedLeaves ps key
  first_key : ∀ i (h : i < pss.length), 1 ≤ i → i ≤ addedLeaves ps key →
    pss[i].head?.map Prod.fst = some (itemKey (s'.data parent) (slot + i))
  links_eq : ∀ m, s'.links m = s.links m - ref (some parent) m - ref (some block) m

/-- **Inserting into a full leaf**: it gets one or two new leaves beside it. -/
def InsertsLeaves (s : BtState) (parent slot block : ℕ) (key : Key) (data : List UInt8) (ps : Pairs)
    (later : List Pairs) : Prop :=
  Ensures (btreeLeafInsertOverflow (some parent) slot block key data) s fun _ s' =>
    ∃ pss, Inserts s s' parent slot block key data ps later pss

/-- The count of the parent tells that nothing was added. -/
theorem InsertsLeaves.addedLeaves_eq {s : BtState} {parent slot block : ℕ} {key : Key}
    {data : List UInt8} {ps : Pairs} {later : List Pairs}
    (h : InsertsLeaves s parent slot block key data ps later) (hparent : parent < s.fs.next)
    (hblock : block ≠ parent) : addedLeaves ps key = 0 := by
  obtain ⟨rc, s', hrun, pss, hins⟩ := h
  have hkeep := keeps_btreeLeafInsertOverflow hblock slot key data s ⟨hparent, rfl⟩
  have hsame : count (s'.data parent) = count (s.data parent) := (hkeep.of_run hrun).1.2
  have hcount := hins.count_eq
  omega

/-- **No full leaf gets new leaves.** -/
theorem not_insertsLeaves (s : BtState) (parent slot block : ℕ) (key : Key) (data : List UInt8)
    (ps : Pairs) (later : List Pairs) (h : Overflows s parent slot block data ps later) :
    ¬InsertsLeaves s parent slot block key data ps later := by
  intro hins
  have hzero := hins.addedLeaves_eq h.parent_lt h.apart
  have hpos := addedLeaves_pos ps key
  omega

/-- A node over a leaf that holds one pair. -/
def oneLeaf (p : Key × List UInt8) : BtState where
  blockSize := 512
  data n :=
    if n = 1 then setItemBlocknr (setCount (setLevel (fun _ => 0) 1) 1) 0 2
    else if n = 2 then (leafInsert 512 (fun _ => 0) p.1 p.2).getD fun _ => 0
    else fun _ => 0
  links _ := 0
  readable _ := true
  fs := ⟨8, 5⟩
  root := 1

theorem oneLeaf_isLeaf (p : Key × List UInt8) (hroom : 27 + p.2.length ≤ 512) :
    IsLeaf 512 ((oneLeaf p).data 2) [p] := by
  have hspec := leafInsert_spec isLeaf_empty (by decide) p.1 p.2
  have hone : valueAt (0 + 1) = 27 := rfl
  rw [List.length_nil, dataLen_zero, hone, if_neg (by omega)] at hspec
  obtain ⟨c, hc, hleaf⟩ := hspec
  have hdata : (oneLeaf p).data 2 = (leafInsert 512 (fun _ => 0) p.1 p.2).getD fun _ => 0 := rfl
  rw [hdata, hc]
  exact hleaf

/-- A pair of 470 bytes leaves no room for another one. -/
def largePair : Key × List UInt8 := (⟨1, 2, 3⟩, List.replicate 470 7)

theorem oneLeaf_overflows : Overflows (oneLeaf largePair) 1 0 2 [9] [largePair] [] where
  child := by decide
  lists :=
    { count_eq := by decide
      isLeaf := fun i hi => by
        obtain rfl : i = 0 := Nat.lt_one_iff.1 hi
        exact oneLeaf_isLeaf largePair (by rw [largePair, List.length_replicate]; decide) }
  level_pos := by decide
  room := by decide
  full := by
    have hlen : ∀ p : Key × List UInt8, dataLen [p] 1 = p.2.length := fun p => Nat.add_zero _
    rw [List.length_singleton, hlen, largePair, List.length_replicate]
    decide
  fits_empty := by decide
  blockSize_lt := by decide
  apart := by decide
  parent_lt := by decide
  block_lt := by decide

theorem not_insertsLeaves_byte :
    ¬InsertsLeaves (oneLeaf largePair) 1 0 2 ⟨4, 5, 6⟩ [9] [largePair] [] :=
  not_insertsLeaves (oneLeaf largePair) 1 0 2 ⟨4, 5, 6⟩ [9] [largePair] [] oneLeaf_overflows

/-- A pair of one byte behind the large one: the parent does not list the new leaf. -/
theorem oneLeaf_not_inserted : Overflows (oneLeaf largePair) 1 0 2 [9] [largePair] [] ∧
    ¬InsertsLeaves (oneLeaf largePair) 1 0 2 ⟨4, 5, 6⟩ [9] [largePair] [] := by
  refine ⟨oneLeaf_overflows, fun hins => ?_⟩
  have hzero := hins.addedLeaves_eq (by decide) (by decide)
  exact absurd hzero (addedLeaves_pos _ _).ne'

end Hwfs

end Kernel64
