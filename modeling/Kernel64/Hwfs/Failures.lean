import Kernel64.Hwfs.BTreeRuns

/-!
# Insertions that fail

An insertion fails when it needs a block and there is none, when a block on the way down cannot be read,
or when its data does not fit in a leaf. `FailsCleanly` is what should happen then: a code other than 0,
the pairs of the tree as they were, and every reference dropped.

Only one kind of failure is clean: a child that cannot be read below nodes that all have room
(`failsCleanly_iff`). Where a node has no room, the pointer that `btree_alloc_node` returns is used
without a check, `btree_split_node` keeps the reference to its new node, and the codes of the insertions
into new leaves are ignored.

The size of the data is a `size_t` in `btree_insert` and an `int` below it. As long as the size of a
value and its header is an `int`, this insertion is `btreeInsert` (`btreeInsertInt_eq`).
-/

namespace Kernel64

namespace Hwfs

/-! ### Insertion, with the size an `int` -/

/-- `btree_enough_room` -/
def enoughRoomInt (blockSize : ℕ) (b : Buf) (size : ℤ) : Bool :=
  if level b = 0 then decide (btreeLeafRoom blockSize b ≥ toInt (valueSize + size))
  else decide (count b < (hwfsNodeFanout blockSize + (2 ^ 64 - 1)) % 2 ^ 64)

/-- `btree_leaf_insert_nooverflow`, on the bytes of the leaf. -/
def leafInsertSized (blockSize : ℕ) (b : Buf) (key : Key) (data : List UInt8) (size : ℤ) :
    Except Fault (Option Buf) :=
  if btreeLeafRoom blockSize b < toInt (valueSize + size) then .ok none
  -- the size is negative, or the sum wrapped: `memcpy` leaves the block
  else if size < 0 ∨ btreeLeafRoom blockSize b < valueSize + size then .error .bounds
  else .ok (leafInsert blockSize b key (data.take size.toNat))

/-- `btree_leaf_insert_nooverflow` -/
def insertNooverflowInt (block : ℕ) (key : Key) (data : List UInt8) (size : ℤ) : BtM ℤ := do
  let s ← get
  match leafInsertSized s.blockSize (s.data block) key data size with
  | .error e => throw e
  | .ok none => return -1
  | .ok (some b) => do
    modifyData block fun _ => b
    putBlock (some block)
    return 0

/-- The part of `btree_leaf_insert_overflow` that puts the new leaf next to the old one. -/
def placeLeaf (parent parentSlot block newBlock slot n : ℕ) (key : Key) : BtM Unit := do
  if slot = 0 then
    modifyData parent fun b => setItemBlocknr b parentSlot newBlock
    let nextKey := hwfsKeyToHost ((← get).data block) (valueAt 0)
    btreeNodeInsertPtr parent (parentSlot + 1) nextKey block
  else if slot = n then
    btreeNodeInsertPtr parent (parentSlot + 1) key newBlock
  else do
    let high ← deref (← btreeAllocNode)
    let copy ← moveHigh block high slot (n - slot) key
    modifyData block fun b => setCount b slot
    btreeNodeInsertPtr parent (parentSlot + 1) key newBlock
    btreeNodeInsertPtr parent (parentSlot + 2) copy high
    putBlock (some high)

/-- `btree_leaf_insert_overflow` -/
def insertOverflowInt (parent : Option ℕ) (parentSlot block : ℕ) (key : Key) (data : List UInt8)
    (size : ℤ) : BtM ℤ := do
  let parent ← deref parent
  let b := (← get).data block
  let newBlock ← deref (← btreeAllocNode)
  let _ ← insertNooverflowInt newBlock key data size
  placeLeaf parent parentSlot block newBlock (btreeLowerBound b key) (count b) key
  putBlock (some block)
  putBlock (some newBlock)
  putBlock (some parent)
  return 0

/-- `btree_leaf_insert` -/
def btreeLeafInsertInt (parent : Option ℕ) (parentSlot block : ℕ) (key : Key) (data : List UInt8)
    (size : ℤ) : BtM ℤ := do
  let s ← get
  if enoughRoomInt s.blockSize (s.data block) size then
    putBlock parent
    insertNooverflowInt block key data size
  else insertOverflowInt parent parentSlot block key data size

/-- The part of the loop of `btree_insert` that goes on to a child. -/
def goDown (key : Key) (next : Option ℕ → ℕ → ℕ → BtM ℤ) (parent : Option ℕ) (block : ℕ) : BtM ℤ := do
  putBlock parent
  let slot ← chooseSlot block key
  let blocknr := itemBlocknr ((← get).data block) slot
  match ← getBlock blocknr with
  | none => do
    putBlock (some block)
    return -1
  | some child => next (some block) slot child

/-- The loop of `btree_insert` and the insertion into the leaf it ends at. -/
def insertLoopInt (key : Key) (data : List UInt8) (size : ℤ) : ℕ → Option ℕ → ℕ → ℕ → BtM ℤ
  | 0, _, _, _ => throw .fuel
  | fuel + 1, parent, slot, block => do
    let s ← get
    if level (s.data block) = 0 then btreeLeafInsertInt parent slot block key data size
    else if enoughRoomInt s.blockSize (s.data block) size then
      goDown key (insertLoopInt key data size fuel) parent block
    else do
      match ← splitFull parent slot block key with
      | .error rc => return rc
      | .ok (block, _) => goDown key (insertLoopInt key data size fuel) parent block

/-- `btree_insert`, of the `size_t` bytes at `data`. -/
def btreeInsertInt (fuel : ℕ) (key : Key) (data : List UInt8) : BtM ℤ := do
  let size := toInt data.length
  let s ← get
  let rc ← if enoughRoomInt s.blockSize (s.data s.root) size then pure 0 else btreeGrow
  if rc ≠ 0 then return -1
  let block ← refBlock (← get).root
  insertLoopInt key data size fuel none 0 block

/-! ### Sizes that fit -/

section

variable {key : Key} {data : List UInt8}

theorem enoughRoomInt_eq (hlt : valueSize + data.length < 2 ^ 31) (bs : ℕ) (b : Buf) :
    enoughRoomInt bs b data.length = btreeEnoughRoom bs b data.length := by
  rw [enoughRoomInt, btreeEnoughRoom, toInt_of_lt hlt, add_comm (valueSize : ℤ)]

theorem leafInsertSized_eq (hlt : valueSize + data.length < 2 ^ 31) (bs : ℕ) (b : Buf) :
    leafInsertSized bs b key data data.length = .ok (leafInsert bs b key data) := by
  rw [leafInsertSized, toInt_of_lt hlt, Int.toNat_natCast, List.take_length]
  split_ifs with hroom hbig
  · rw [leafInsert, if_pos hroom]
  · omega
  · rfl

/-- On a leaf, the two forms of `btree_leaf_insert_nooverflow` are one. -/
theorem leafInsertSized_eq_leafInsertInt {bs : ℕ} {b : Buf} {ps : Pairs} (hb : IsLeaf bs b ps)
    (hbs : bs < 2 ^ 16) :
    leafInsertSized bs b key data data.length = leafInsertInt bs b key data := by
  by_cases hlt : valueSize + data.length < 2 ^ 31
  · rw [leafInsertSized_eq hlt, leafInsertInt_of_lt hb hlt]
  · have hroom := hb.room_eq
    have hfits := hb.fits
    have hsize : valueSize = 21 := rfl
    have hbig : (btreeLeafRoom bs b : ℤ) < valueSize + data.length := by
      omega
    rw [leafInsertSized, leafInsertInt]
    split_ifs with h₁ h₂ h₃ h₄
    · rfl
    · rfl
    · omega
    · exact absurd (Or.inr hbig) h₂
    · exact absurd (Or.inr hbig) h₂

theorem insertNooverflowInt_eq (hlt : valueSize + data.length < 2 ^ 31) (n : ℕ) :
    insertNooverflowInt n key data data.length = btreeLeafInsertNooverflow n key data := by
  rw [insertNooverflowInt, btreeLeafInsertNooverflow]
  refine bind_congr fun s => ?_
  rw [leafInsertSized_eq hlt]
  cases leafInsert s.blockSize (s.data n) key data <;> rfl

theorem insertOverflowInt_eq (hlt : valueSize + data.length < 2 ^ 31) (parent : Option ℕ) (slot n : ℕ) :
    insertOverflowInt parent slot n key data data.length =
      btreeLeafInsertOverflow parent slot n key data := by
  rw [insertOverflowInt, btreeLeafInsertOverflow]
  refine bind_congr fun p => bind_congr fun s => bind_congr fun r => bind_congr fun m => ?_
  rw [insertNooverflowInt_eq hlt]
  refine bind_congr fun _ => ?_
  rw [placeLeaf]
  split_ifs <;> simp only [bind_assoc]

theorem btreeLeafInsertInt_eq (hlt : valueSize + data.length < 2 ^ 31) (parent : Option ℕ) (slot n : ℕ) :
    btreeLeafInsertInt parent slot n key data data.length = btreeLeafInsert parent slot n key data := by
  rw [btreeLeafInsertInt, btreeLeafInsert]
  refine bind_congr fun s => ?_
  rw [enoughRoomInt_eq hlt, insertNooverflowInt_eq hlt, insertOverflowInt_eq hlt]

theorem insertLoopInt_eq (hlt : valueSize + data.length < 2 ^ 31) (fuel : ℕ) (parent : Option ℕ)
    (slot n : ℕ) :
    insertLoopInt key data data.length fuel parent slot n = insertLoop key data fuel parent slot n := by
  induction fuel generalizing parent slot n with
  | zero => rfl
  | succ fuel ih =>
    have hnext : insertLoopInt key data data.length fuel = insertLoop key data fuel :=
      funext fun parent => funext fun slot => funext fun n => ih parent slot n
    rw [insertLoopInt, insertLoop]
    refine bind_congr fun s => ?_
    rw [btreeLeafInsertInt_eq hlt, enoughRoomInt_eq hlt, hnext]
    split_ifs with hlevel hroom
    · rfl
    · rfl
    · refine bind_congr fun next => ?_
      cases next with
      | error rc => rfl
      | ok r => rfl

/-- **Where the size of the value and its header is an `int`**, the two insertions are one. -/
theorem btreeInsertInt_eq (hlt : valueSize + data.length < 2 ^ 31) (fuel : ℕ) :
    btreeInsertInt fuel key data = btreeInsert fuel key data := by
  have hsize : toInt data.length = data.length := by
    rw [toInt, Int.bmod_eq_of_le (by omega) (by omega)]
  rw [btreeInsertInt, btreeInsert]
  refine bind_congr fun s => ?_
  rw [hsize, enoughRoomInt_eq hlt]
  split_ifs
  · simp only [insertLoopInt_eq hlt]
  · simp only [insertLoopInt_eq hlt]

end

section

variable {s s' : BtState} {key : Key} {data : List UInt8} {size : ℤ} {n slot fuel l bs : ℕ}
  {parent : Option ℕ} {ps : Pairs} {b : Buf}

/-! ### References -/

/-- Whether a pointer is to a block. -/
def ref (p : Option ℕ) (m : ℕ) : ℤ := if p = some m then 1 else 0

theorem update_links (f : ℕ → ℤ) (n : ℕ) (d : ℤ) :
    Function.update f n (f n + d) = fun m => f m + d * ref (some n) m := by
  funext m
  by_cases hm : m = n
  · subst hm
    simp [ref]
  · rw [Function.update_of_ne hm, ref, if_neg (by simpa using Ne.symm hm)]
    simp

theorem putBlock_run (p : Option ℕ) (s : BtState) :
    putBlock p s = .ok ((), { s with links := fun m => s.links m - ref p m }) := by
  cases p with
  | none =>
    have hlinks : (fun m => s.links m - ref none m) = s.links := by
      funext m
      simp [ref]
    rw [hlinks]
    rfl
  | some n =>
    have hlinks := update_links s.links n (-1)
    simp only [neg_mul, one_mul, ← sub_eq_add_neg] at hlinks
    rw [← hlinks]
    rfl

theorem getBlock_readable (h : s.readable n = true) :
    getBlock n s = .ok (some n, { s with links := fun m => s.links m + ref (some n) m }) := by
  have hlinks := update_links s.links n 1
  simp only [one_mul] at hlinks
  have hrun : getBlock n s = (if s.readable n then (do addLinks n 1; return some n : BtM (Option ℕ))
    else return none) s := rfl
  rw [← hlinks, hrun, h]
  rfl

theorem getBlock_unreadable (h : s.readable n = false) : getBlock n s = .ok (none, s) := by
  have hrun : getBlock n s = (if s.readable n then (do addLinks n 1; return some n : BtM (Option ℕ))
    else return none) s := rfl
  rw [hrun, h]
  rfl

theorem refBlock_run (n : ℕ) (s : BtState) :
    refBlock n s = .ok (n, { s with links := fun m => s.links m + ref (some n) m }) := by
  have hlinks := update_links s.links n 1
  simp only [one_mul] at hlinks
  rw [← hlinks]
  rfl

theorem ensuresOr_getBlock {F : Fault → Prop} {Q : Option ℕ → BtState → Prop}
    (hsome : s.readable n = true → Q (some n) { s with links := fun m => s.links m + ref (some n) m })
    (hnone : s.readable n = false → Q none s) : EnsuresOr F (getBlock n) s Q := by
  cases hread : s.readable n with
  | false => exact (ensuresOr_of_run (getBlock_unreadable hread)).2 (hnone hread)
  | true => exact (ensuresOr_of_run (getBlock_readable hread)).2 (hsome hread)

theorem ensuresOr_putBlock {F : Fault → Prop} {p : Option ℕ} {Q : Unit → BtState → Prop}
    (h : Q () { s with links := fun m => s.links m - ref p m }) : EnsuresOr F (putBlock p) s Q :=
  (ensuresOr_of_run (putBlock_run p s)).2 h

/-! ### The choice of a child -/

/-- A node after the choice of a child: a key below all of the node's replaces the first. -/
def lowered (b : Buf) (key : Key) : Buf :=
  if btreeUpperBound b key = 0 then hwfsKeyToDisk b (itemAt 0) key else b

/-- The child of a node that the descent goes on with. -/
def chosenChild (s : BtState) (key : Key) (n : ℕ) : ℕ :=
  itemBlocknr (s.data n) (btreeUpperBound (s.data n) key - 1)

theorem chooseSlot_run (n : ℕ) (key : Key) (s : BtState) :
    chooseSlot n key s = .ok (btreeUpperBound (s.data n) key - 1,
      { s with data := Function.update s.data n (lowered (s.data n) key) }) := by
  have hrun : chooseSlot n key s = (if btreeUpperBound (s.data n) key = 0 then
      (do modifyData n fun b => hwfsKeyToDisk b (itemAt 0) key; return 0 : BtM ℕ)
      else return btreeUpperBound (s.data n) key - 1) s := rfl
  rw [hrun, lowered]
  split_ifs with hzero
  · rw [hzero]
    rfl
  · rw [Function.update_eq_self]
    rfl

theorem lowered_outside {i : ℕ} (h : i < itemAt 0 ∨ itemAt 0 + 17 ≤ i) : lowered b key i = b i := by
  rw [lowered]
  split_ifs with hzero
  · exact hwfsKeyToDisk_outside h
  · rfl

@[simp]
theorem level_lowered (b : Buf) (key : Key) : level (lowered b key) = level b :=
  Buf.field_congr fun j hj => lowered_outside (Or.inl (by rw [itemAt, headerSize]; omega))

@[simp]
theorem count_lowered (b : Buf) (key : Key) : count (lowered b key) = count b :=
  Buf.field_congr fun j hj => lowered_outside (Or.inl (by rw [itemAt, headerSize]; omega))

@[simp]
theorem itemBlocknr_lowered (b : Buf) (key : Key) (i : ℕ) :
    itemBlocknr (lowered b key) i = itemBlocknr b i :=
  Buf.field_congr fun j hj => lowered_outside (Or.inr (by rw [itemAt, itemAt, itemSize]; omega))

theorem itemKey_lowered_succ (b : Buf) (key : Key) (i : ℕ) :
    itemKey (lowered b key) (i + 1) = itemKey b (i + 1) := by
  have hout : ∀ j, lowered b key (itemAt (i + 1) + j) = b (itemAt (i + 1) + j) := fun j =>
    lowered_outside (Or.inr (by rw [itemAt, itemAt, itemSize]; omega))
  have hid := Buf.field_congr (w := 8) (o := itemAt (i + 1)) fun j _ => hout j
  have hoff : (lowered b key).field 8 (itemAt (i + 1) + 9) = b.field 8 (itemAt (i + 1) + 9) :=
    Buf.field_congr fun j _ => by
      rw [Nat.add_assoc]
      exact hout (9 + j)
  rw [itemKey, itemKey, hwfsKeyToHost, hwfsKeyToHost, hid, hoff, hout 8]

/-- The search in a node whose keys are in order. -/
theorem btreeUpperBound_spec (hlevel : level b ≠ 0)
    (hsorted : ∀ i j, i ≤ j → j < count b → itemKey b i ≤ itemKey b j) (key : Key) :
    btreeUpperBound b key ≤ count b ∧
      (btreeUpperBound b key = 0 → 0 < count b → key < itemKey b 0) := by
  have hafter : ∀ m, decide (hwfsKeyCmp key b (headerSize + itemSize * m) ≥ 0) = true ↔
      itemKey b m ≤ key := fun m => by
    rw [decide_eq_true_iff, hwfsKeyCmp, hwfsHostKeyCmp_nonneg]
    rfl
  rw [btreeUpperBound, if_neg hlevel, upperBoundLoop]
  obtain ⟨-, hle, -, hge⟩ := boundLoop_spec
    (fun m => decide (hwfsKeyCmp key b (headerSize + itemSize * m) ≥ 0)) 0 (count b)
    fun i j _ hij hj hm => (hafter i).2 ((hsorted i j hij (by omega)).trans ((hafter j).1 hm))
  refine ⟨by omega, fun hzero hpos => ?_⟩
  have hfirst := hge 0 (by omega) (by omega)
  rw [← not_le, ← hafter 0, hfirst]
  exact Bool.false_ne_true

/-- The choice of a child keeps every tree. -/
theorem IsTree.lowered (h : IsTree bs s.data l n ps) (key : Key) {m : ℕ} (hm : level (s.data m) ≠ 0) :
    IsTree bs (Function.update s.data m (lowered (s.data m) key)) l n ps := by
  induction h with
  | @leaf n ps hleaf =>
    have hne : n ≠ m := fun hc => hm (hc ▸ hleaf.level_eq)
    exact .leaf (by rwa [Function.update_of_ne hne])
  | @node l n child hlevel hpos hfan hsorted hlow hhigh _ ih =>
    by_cases hn : n = m
    · subst hn
      have hkey : ∀ i, itemKey (Hwfs.lowered (s.data n) key) i ≤ itemKey (s.data n) i := by
        intro i
        cases i with
        | zero =>
          rw [Hwfs.lowered]
          split_ifs with hzero
          · rw [itemKey, hwfsKeyToHost_toDisk]
            exact ((btreeUpperBound_spec hm hsorted key).2 hzero hpos).le
          · exact le_rfl
        | succ i => exact (itemKey_lowered_succ _ _ i).le
      have hself : Function.update s.data n (Hwfs.lowered (s.data n) key) n =
        Hwfs.lowered (s.data n) key := Function.update_self _ _ _
      have htree := @IsTree.node bs (Function.update s.data n (Hwfs.lowered (s.data n) key)) l n child
      rw [hself, level_lowered, count_lowered] at htree
      refine htree hlevel hpos hfan (fun i j hij hj => ?_)
        (fun i hi p hp => (hkey i).trans (hlow i hi p hp)) (fun i hi p hp => ?_) fun i hi => ?_
      · cases j with
        | zero =>
          obtain rfl : i = 0 := by omega
          exact le_rfl
        | succ j =>
          rw [itemKey_lowered_succ]
          exact (hkey i).trans (hsorted i (j + 1) hij hj)
      · rw [itemKey_lowered_succ]
        exact hhigh i hi p hp
      · rw [itemBlocknr_lowered]
        exact ih i hi
    · have hself : Function.update s.data m (Hwfs.lowered (s.data m) key) n = s.data n :=
        Function.update_of_ne hn _ _
      have htree := @IsTree.node bs (Function.update s.data m (Hwfs.lowered (s.data m) key)) l n child
      rw [hself] at htree
      exact htree hlevel hpos hfan hsorted hlow hhigh ih

/-! ### Ways down that are cut off -/

/-- An internal node has enough room. -/
def HasRoom (s : BtState) (n : ℕ) : Prop := count (s.data n) + 1 < hwfsNodeFanout s.blockSize

/-- **The way down from a node is cut off**: a child on it cannot be read, and the nodes above have room. -/
inductive CutOff (s : BtState) (key : Key) : ℕ → Prop
  | here {n : ℕ} : level (s.data n) ≠ 0 → HasRoom s n → s.readable (chosenChild s key n) = false →
      CutOff s key n
  | further {n : ℕ} : level (s.data n) ≠ 0 → HasRoom s n → s.readable (chosenChild s key n) = true →
      CutOff s key (chosenChild s key n) → CutOff s key n

theorem CutOff.level_ne (h : CutOff s key n) : level (s.data n) ≠ 0 := by
  cases h with
  | here hlevel => exact hlevel
  | further hlevel => exact hlevel

theorem CutOff.hasRoom (h : CutOff s key n) : HasRoom s n := by
  cases h with
  | here _ hroom => exact hroom
  | further _ hroom => exact hroom

theorem IsTree.level_eq (h : IsTree bs s.data l n ps) : level (s.data n) = l := by
  cases h with
  | leaf hleaf => exact hleaf.level_eq
  | node hlevel => exact hlevel

/-- The chosen child of a node in a tree is the root of a tree below it. -/
theorem IsTree.chosenChild (h : IsTree bs s.data (l + 1) n ps) (key : Key) :
    ∃ ps', IsTree bs s.data l (chosenChild s key n) ps' := by
  cases h with
  | @node _ _ child hlevel hpos _ hsorted _ _ hchild =>
    have hle := (btreeUpperBound_spec (by omega) hsorted key).1
    exact ⟨_, hchild (btreeUpperBound (s.data n) key - 1) (by omega)⟩

theorem IsTree.enoughRoom_iff (h : IsTree s.blockSize s.data (l + 1) n ps) (hbs : s.blockSize < 2 ^ 16)
    (size : ℤ) : enoughRoomInt s.blockSize (s.data n) size = true ↔ HasRoom s n := by
  cases h with
  | node hlevel hpos hfan =>
    have hlt : hwfsNodeFanout s.blockSize < 2 ^ 16 :=
      lt_of_le_of_lt ((Nat.div_le_self _ _).trans (Nat.sub_le _ _)) hbs
    rw [enoughRoomInt, if_neg (by omega), decide_eq_true_iff, HasRoom]
    omega

/-- Only the nodes of the tree matter. -/
theorem CutOff.of_agree (h : CutOff s key n) : ∀ {l ps}, IsTree bs s.data l n ps →
    s'.blockSize = s.blockSize → s'.readable = s.readable →
    (∀ m, level (s.data m) ≤ l → s'.data m = s.data m) → CutOff s' key n := by
  induction h with
  | @here n hlevel hroom hread =>
    intro l ps htree hbs hr hdata
    have hn := hdata n htree.level_eq.le
    refine .here (hn ▸ hlevel) ?_ ?_
    · rwa [HasRoom, hn, hbs]
    · rwa [Hwfs.chosenChild, hn, hr]
  | @further n hlevel hroom hread _ ih =>
    intro l ps htree hbs hr hdata
    have hn := hdata n htree.level_eq.le
    have hchild : Hwfs.chosenChild s' key n = Hwfs.chosenChild s key n := by
      rw [Hwfs.chosenChild, hn, Hwfs.chosenChild]
    obtain ⟨l, rfl⟩ : ∃ k, l = k + 1 := Nat.exists_eq_succ_of_ne_zero (htree.level_eq ▸ hlevel)
    obtain ⟨ps', htree'⟩ := htree.chosenChild key
    refine .further (hn ▸ hlevel) ?_ ?_ ?_
    · rwa [HasRoom, hn, hbs]
    · rwa [hchild, hr]
    · rw [hchild]
      exact ih htree' hbs hr fun m hm => hdata m (by omega)

/-! ### Failures that are clean -/

/-- The way down from a node of a tree that is cut off: the descent returns `-1`, having dropped the
references to the node and its parent and kept every tree. -/
theorem CutOff.ensures_insertLoop (hbs : s.blockSize < 2 ^ 16) (h : IsTree s.blockSize s.data l n ps)
    (hcut : CutOff s key n) (hfuel : l < fuel) :
    Ensures (insertLoopInt key data size fuel parent slot n) s fun rc s' => rc = -1 ∧
      s'.blockSize = s.blockSize ∧ s'.root = s.root ∧
      (∀ m, s'.links m = s.links m - ref parent m - ref (some n) m) ∧
      ∀ l' m ps', IsTree s.blockSize s.data l' m ps' → IsTree s.blockSize s'.data l' m ps' := by
  induction l generalizing s n ps parent slot fuel with
  | zero => exact absurd h.level_eq hcut.level_ne
  | succ l ih =>
    obtain ⟨fuel, rfl⟩ : ∃ k, fuel = k + 1 := Nat.exists_eq_succ_of_ne_zero (by omega)
    have hlevel := hcut.level_ne
    have hroom : enoughRoomInt s.blockSize (s.data n) size = true :=
      (h.enoughRoom_iff hbs size).2 hcut.hasRoom
    set s₁ : BtState := { s with links := fun m => s.links m - ref parent m } with hs₁
    set s₂ : BtState := { s₁ with data := Function.update s.data n (lowered (s.data n) key) } with hs₂
    have hchild : itemBlocknr (s₂.data n) (btreeUpperBound (s.data n) key - 1) = chosenChild s key n := by
      rw [hs₂, chosenChild]
      simp only [Function.update_self, itemBlocknr_lowered]
    have hkeep : ∀ l' m ps', IsTree s.blockSize s.data l' m ps' → IsTree s.blockSize s₂.data l' m ps' :=
      fun l' m ps' htree => htree.lowered key hlevel
    have hput : Ensures (putBlock parent) s fun _ s' => s' = s₁ := ⟨_, _, putBlock_run _ _, rfl⟩
    have hchoose : Ensures (chooseSlot n key) s₁ fun i s' =>
        i = btreeUpperBound (s.data n) key - 1 ∧ s' = s₂ := ⟨_, _, chooseSlot_run _ _ _, rfl, rfl⟩
    simp only [insertLoopInt, ensures_bind, ensures_get, if_neg hlevel, hroom, if_true, goDown]
    refine hput.mono ?_
    rintro - s' rfl
    refine hchoose.mono ?_
    rintro _ s' ⟨rfl, rfl⟩
    rw [hchild]
    obtain ⟨ps', htree⟩ := h.chosenChild key
    cases hcut with
    | here _ _ hread =>
      have hget : Ensures (getBlock (chosenChild s key n)) s₂ fun r s' => r = none ∧ s' = s₂ :=
        ⟨none, s₂, getBlock_unreadable hread, rfl, rfl⟩
      refine hget.mono ?_
      rintro - s' ⟨rfl, rfl⟩
      simp only [ensures_bind]
      exact ⟨_, _, putBlock_run _ _, ensures_pure.2 ⟨rfl, rfl, rfl, fun m => rfl, hkeep⟩⟩
    | further _ _ hread hcut' =>
      have hget : Ensures (getBlock (chosenChild s key n)) s₂ fun r s' => r = some (chosenChild s key n) ∧
          s' = { s₂ with links := fun m => s₂.links m + ref (some (chosenChild s key n)) m } :=
        ⟨some _, _, getBlock_readable hread, rfl, rfl⟩
      refine hget.mono ?_
      rintro - s₃ ⟨rfl, hs₃⟩
      have hdata : ∀ m, level (s.data m) ≤ l → s₃.data m = s.data m := fun m hm => by
        rw [hs₃]
        exact Function.update_of_ne (fun hc : m = n => by rw [hc, h.level_eq] at hm; omega) _ _
      have hcut₃ : CutOff s₃ key (chosenChild s key n) :=
        hcut'.of_agree htree (by rw [hs₃]) (by rw [hs₃]) hdata
      have htree₃ : IsTree s₃.blockSize s₃.data l (chosenChild s key n) ps' := by
        rw [hs₃]
        exact hkeep l _ _ htree
      refine (ih (by rwa [hs₃]) htree₃ hcut₃ (by omega)).mono ?_
      rw [hs₃]
      rintro rc s' ⟨rfl, hbs', hroot, hlinks, htrees⟩
      refine ⟨rfl, hbs', hroot, fun m => ?_, fun l' m ps' ht => htrees l' m ps' (hkeep l' m ps' ht)⟩
      rw [hlinks m]
      simp only [hs₂, hs₁]
      ring

/-! ### What a call that fails leaves -/

/-- What fits, by the sum that may wrap, is inserted, or the copies leave the block. -/
theorem leafInsertSized_ne_none (hroom : btreeLeafRoom bs b ≥ toInt (valueSize + size)) :
    leafInsertSized bs b key data size ≠ .ok none := by
  rw [leafInsertSized, if_neg (by omega)]
  split_ifs with hbad
  · simp
  · rw [leafInsert, if_neg ?_]
    · simp
    · have hlen : (data.take size.toNat).length ≤ size.toNat := List.length_take_le _ _
      omega

/-- **An insertion into a leaf** reports no failure. -/
theorem ensuresOr_btreeLeafInsert (hlevel : level (s.data n) = 0) :
    EnsuresOr (fun _ => True) (btreeLeafInsertInt parent slot n key data size) s fun rc _ => rc = 0 := by
  rw [btreeLeafInsertInt, ensuresOr_bind, ensuresOr_get, ensuresOr_ite]
  refine ⟨fun hroom => ?_, fun _ => ?_⟩
  · rw [enoughRoomInt, if_pos hlevel, decide_eq_true_iff] at hroom
    rw [ensuresOr_bind, ensuresOr_of_run (putBlock_run _ _), insertNooverflowInt, ensuresOr_bind,
      ensuresOr_get]
    dsimp only
    cases hins : leafInsertSized s.blockSize (s.data n) key data size with
    | error e => exact ensuresOr_throw.2 trivial
    | ok r =>
      cases r with
      | none =>
        exact absurd hins (leafInsertSized_ne_none hroom)
      | some b =>
        refine ensuresOr_bind.2 (ensuresOr_any fun _ s₁ => ?_)
        refine ensuresOr_bind.2 (ensuresOr_any fun _ s₂ => ?_)
        exact ensuresOr_pure.2 rfl
  · rw [insertOverflowInt]
    refine ensuresOr_bind.2 (ensuresOr_any fun p s₁ => ?_)
    refine ensuresOr_bind.2 (ensuresOr_any fun _ s₂ => ?_)
    refine ensuresOr_bind.2 (ensuresOr_any fun r s₃ => ?_)
    refine ensuresOr_bind.2 (ensuresOr_any fun m s₄ => ?_)
    refine ensuresOr_bind.2 (ensuresOr_any fun _ s₅ => ?_)
    refine ensuresOr_bind.2 (ensuresOr_any fun _ s₆ => ?_)
    refine ensuresOr_bind.2 (ensuresOr_any fun _ s₇ => ?_)
    refine ensuresOr_bind.2 (ensuresOr_any fun _ s₈ => ?_)
    refine ensuresOr_bind.2 (ensuresOr_any fun _ s₉ => ?_)
    exact ensuresOr_pure.2 rfl

/-- The state with a new node in the next free block. -/
def BtState.allocated (s : BtState) : BtState :=
  { s with
    data := Function.update s.data s.fs.next
      (setBlocks ((s.data s.fs.next).store 0 (List.replicate s.blockSize 0)) 1)
    links := fun m => s.links m + ref (some s.fs.next) m
    fs := { s.fs with next := s.fs.next + 1 } }

/-- There is no free block, or it cannot be read. -/
def OutOfBlocks (s : BtState) : Prop := s.fs.next = s.fs.count ∨ s.readable s.fs.next = false

theorem btreeAllocNode_eq (s : BtState) : btreeAllocNode s =
    (if s.fs.next = s.fs.count then (return none : BtM (Option ℕ))
    else do
      match ← getBlock s.fs.next with
      | none => return none
      | some n => do
        let bs := (← get).blockSize
        modifyData n fun b => setBlocks (b.store 0 (List.replicate bs 0)) 1
        modify fun s => { s with fs := { s.fs with next := s.fs.next + 1 } }
        return some n) s := rfl

theorem btreeAllocNode_none (h : OutOfBlocks s) : btreeAllocNode s = .ok (none, s) := by
  rw [btreeAllocNode_eq]
  by_cases hcount : s.fs.next = s.fs.count
  · rw [if_pos hcount]
    rfl
  · rw [if_neg hcount, bind_of_run (getBlock_unreadable (h.resolve_left hcount))]
    rfl

theorem btreeAllocNode_some (h : ¬OutOfBlocks s) :
    btreeAllocNode s = .ok (some s.fs.next, s.allocated) := by
  obtain ⟨hcount, hread⟩ := not_or.1 h
  rw [btreeAllocNode_eq, if_neg hcount, bind_of_run (getBlock_readable (by simpa using hread))]
  rfl

/-- **The new node of a split** keeps its reference. -/
theorem ensuresOr_btreeSplitNode {block : ℕ} :
    EnsuresOr (fun _ => True) (btreeSplitNode n slot block) s fun rc s' => rc = 0 ∧
      ∀ m, s'.links m = s.links m + ref (some s.fs.next) m := by
  simp only [btreeSplitNode, ensuresOr_bind, ensuresOr_get]
  by_cases hfree : OutOfBlocks s
  · rw [ensuresOr_of_run (btreeAllocNode_none hfree)]
    exact ensuresOr_throw.2 trivial
  · rw [ensuresOr_of_run (btreeAllocNode_some hfree)]
    simp only [deref, ensuresOr_pure, modifyData, ensuresOr_modify, BtState.allocated]
    exact ⟨trivial, fun m => trivial⟩

/-- Splitting a full node, and going on with one of the halves. -/
theorem ensuresOr_splitFull {block : ℕ} :
    EnsuresOr (fun _ => True) (splitFull parent slot block key) s fun r s' =>
      (∀ rc, r = .error rc → ∀ m, s'.links m =
        s.links m + ref (some s.fs.next) m - ref parent m - ref (some block) m) ∧
      ∀ x, r = .ok x → ∀ m, s'.links m =
        s.links m + ref (some s.fs.next) m - ref (some block) m + ref (some x.1) m := by
  rw [splitFull, ensuresOr_bind]
  cases parent with
  | none =>
    rw [deref, ensuresOr_throw]
    trivial
  | some p =>
    rw [deref, ensuresOr_pure, ensuresOr_bind]
    refine ensuresOr_btreeSplitNode.mono ?_
    rintro rc s₁ ⟨rfl, hlinks⟩
    simp only [ne_eq, not_true_eq_false, if_false]
    rw [ensuresOr_bind, ensuresOr_get]
    generalize itemBlocknr (s₁.data p) (slot + 1) = half
    rw [ensuresOr_ite]
    refine ⟨fun _ => ?_, fun _ => ?_⟩
    · refine ensuresOr_bind.2 (ensuresOr_putBlock (ensuresOr_bind.2 ?_))
      refine ensuresOr_getBlock (fun _ => ?_) fun _ => ?_
      · refine ensuresOr_pure.2 ⟨(by simp), fun x hx m => ?_⟩
        cases hx
        dsimp only
        rw [hlinks m]
      · refine ensuresOr_bind.2 (ensuresOr_putBlock (ensuresOr_pure.2 ⟨fun rc _ m => ?_, (by simp)⟩))
        dsimp only
        rw [hlinks m]
        ring
    · refine ensuresOr_pure.2 ⟨(by simp), fun x hx m => ?_⟩
      cases hx
      rw [hlinks m]
      ring

/-- A failure below a node drops no more than the references to the node and its parent. -/
theorem ensuresOr_goDown {next : Option ℕ → ℕ → ℕ → BtM ℤ} {block : ℕ}
    (hnext : ∀ i c s, EnsuresOr (fun _ => True) (next (some block) i c) s fun rc s' => rc ≠ 0 →
      ∀ m, s.links m - ref (some block) m - ref (some c) m ≤ s'.links m) :
    EnsuresOr (fun _ => True) (goDown key next parent block) s fun rc s' => rc ≠ 0 →
      ∀ m, s.links m - ref parent m - ref (some block) m ≤ s'.links m := by
  rw [goDown, ensuresOr_bind]
  refine ensuresOr_putBlock ?_
  rw [ensuresOr_bind, ensuresOr_of_run (chooseSlot_run _ _ _), ensuresOr_bind, ensuresOr_get,
    ensuresOr_bind]
  refine ensuresOr_getBlock (fun hread => ?_) fun hread => ?_
  · refine (hnext _ _ _).mono fun rc s' hle hrc m => ?_
    have := hle hrc m
    dsimp only at this
    omega
  · refine ensuresOr_bind.2 (ensuresOr_putBlock (ensuresOr_pure.2 ?_))
    exact fun _ m => le_rfl

theorem ref_nonneg (p : Option ℕ) (m : ℕ) : 0 ≤ ref p m := by
  rw [ref]
  split_ifs <;> decide

/-- A failure after a split leaves a reference to the new node. -/
theorem ensuresOr_splitStep (hnext : ∀ (parent : Option ℕ) (slot n : ℕ) (s : BtState),
    EnsuresOr (fun _ => True) (insertLoopInt key data size fuel parent slot n) s fun rc s' => rc ≠ 0 →
      ∀ m, s.links m - ref parent m - ref (some n) m ≤ s'.links m) :
    EnsuresOr (fun _ => True) (do
      match ← splitFull parent slot n key with
      | .error rc => return rc
      | .ok (block, _) => goDown key (insertLoopInt key data size fuel) parent block) s fun rc s' =>
        rc ≠ 0 → ∀ m, s.links m + ref (some s.fs.next) m - ref parent m - ref (some n) m ≤ s'.links m := by
  refine ensuresOr_bind.2 (ensuresOr_splitFull.mono ?_)
  rintro (rc | ⟨block, i⟩) s₁ ⟨herror, hok⟩
  · exact ensuresOr_pure.2 fun _ m => (herror rc rfl m).ge
  · refine (ensuresOr_goDown fun i c s => hnext _ _ _ _).mono fun rc s' hle hrc m => ?_
    have := hle hrc m
    rw [hok _ rfl m] at this
    dsimp only at this
    omega

/-- A call that fails drops no more references than it was given. -/
theorem ensuresOr_insertLoop (fuel : ℕ) : ∀ (parent : Option ℕ) (slot n : ℕ) (s : BtState),
    EnsuresOr (fun _ => True) (insertLoopInt key data size fuel parent slot n) s fun rc s' => rc ≠ 0 →
      ∀ m, s.links m - ref parent m - ref (some n) m ≤ s'.links m := by
  induction fuel with
  | zero => exact fun _ _ _ _ => ensuresOr_throw.2 trivial
  | succ fuel ih =>
    intro parent slot n s
    rw [insertLoopInt, ensuresOr_bind, ensuresOr_get, ensuresOr_ite, ensuresOr_ite]
    refine ⟨fun hlevel => ?_, fun _ => ⟨fun _ => ?_, fun _ => ?_⟩⟩
    · exact (ensuresOr_btreeLeafInsert hlevel).mono fun rc s' hrc hne => absurd hrc hne
    · exact ensuresOr_goDown fun i c s => ih _ _ _ _
    · -- a split on the way keeps one more reference
      refine (ensuresOr_splitStep ih).mono fun rc s' hle hrc m => ?_
      have hnonneg : 0 ≤ ref (some s.fs.next) m := ref_nonneg _ _
      have := hle hrc m
      omega

/-- **A descent that fails** was cut off, or it keeps a reference. -/
theorem ensuresOr_insertLoop_tree (hbs : s.blockSize < 2 ^ 16) (h : IsTree s.blockSize s.data l n ps) :
    EnsuresOr (fun _ => True) (insertLoopInt key data size fuel parent slot n) s fun rc s' => rc ≠ 0 →
      CutOff s key n ∨ ∃ m, s.links m - ref parent m - ref (some n) m < s'.links m := by
  induction l generalizing s n ps parent slot fuel with
  | zero =>
    cases fuel with
    | zero => exact ensuresOr_throw.2 trivial
    | succ fuel =>
      rw [insertLoopInt, ensuresOr_bind, ensuresOr_get, if_pos h.level_eq]
      exact (ensuresOr_btreeLeafInsert h.level_eq).mono fun rc s' hrc hne => absurd hrc hne
  | succ l ih =>
    cases fuel with
    | zero => exact ensuresOr_throw.2 trivial
    | succ fuel =>
      have hlevel : level (s.data n) ≠ 0 := by
        rw [h.level_eq]
        exact Nat.succ_ne_zero l
      rw [insertLoopInt, ensuresOr_bind, ensuresOr_get, if_neg hlevel, ensuresOr_ite]
      refine ⟨fun hroom => ?_, fun _ => ?_⟩
      · rw [h.enoughRoom_iff hbs] at hroom
        obtain ⟨ps', htree⟩ := h.chosenChild key
        have hchild : itemBlocknr (Function.update s.data n (lowered (s.data n) key) n)
            (btreeUpperBound (s.data n) key - 1) = chosenChild s key n := by
          rw [chosenChild, Function.update_self, itemBlocknr_lowered]
        rw [goDown, ensuresOr_bind]
        refine ensuresOr_putBlock ?_
        rw [ensuresOr_bind, ensuresOr_of_run (chooseSlot_run _ _ _), ensuresOr_bind, ensuresOr_get,
          ensuresOr_bind]
        dsimp only
        rw [hchild]
        refine ensuresOr_getBlock (fun hread => ?_) fun hread => ?_
        · have htree₂ := htree.lowered key hlevel
          refine EnsuresOr.mono (ih hbs htree₂) fun rc s' hcut hrc => ?_
          rcases hcut hrc with hcut | ⟨m, hm⟩
          · -- the nodes below are as they were
            refine Or.inl (.further hlevel hroom hread (hcut.of_agree (htree.lowered key hlevel) rfl rfl ?_))
            intro m hm
            have hne : m ≠ n := fun hc => by
              rw [hc] at hm
              simp only [Function.update_self, level_lowered, h.level_eq] at hm
              omega
            exact (Function.update_of_ne hne _ _).symm
          · refine Or.inr ⟨m, ?_⟩
            dsimp only at hm
            omega
        · exact ensuresOr_bind.2 (ensuresOr_putBlock (ensuresOr_pure.2 fun _ =>
            Or.inl (.here hlevel hroom hread)))
      · refine (ensuresOr_splitStep (ensuresOr_insertLoop fuel)).mono fun rc s' hle hrc => ?_
        refine Or.inr ⟨s.fs.next, ?_⟩
        have hone : ref (some s.fs.next) s.fs.next = 1 := if_pos rfl
        have := hle hrc s.fs.next
        omega

/-! ### Roots that grow -/

/-- The only item of a node leads back to it. -/
structure LeadsBack (s : BtState) (r : ℕ) : Prop where
  count_eq : count (s.data r) = 1
  blocknr_eq : itemBlocknr (s.data r) 0 = r
  readable : s.readable r = true

/-- **A descent from a node that leads back to it** reports no failure. -/
theorem LeadsBack.ensuresOr_descent {r : ℕ} (h : LeadsBack s r)
    (hroom : 1 < (hwfsNodeFanout s.blockSize + (2 ^ 64 - 1)) % 2 ^ 64 ∨ parent = none) :
    EnsuresOr (fun _ => True) (insertLoopInt key data size fuel parent slot r) s fun rc _ => rc = 0 := by
  induction fuel generalizing s parent slot with
  | zero => exact ensuresOr_throw.2 trivial
  | succ fuel ih =>
    rw [insertLoopInt, ensuresOr_bind, ensuresOr_get, ensuresOr_ite, ensuresOr_ite]
    refine ⟨fun hlevel => ensuresOr_btreeLeafInsert hlevel, fun hlevel => ⟨fun henough => ?_, fun hfull => ?_⟩⟩
    · have hslot : btreeUpperBound (s.data r) key - 1 = 0 := by
        have hle := (btreeUpperBound_spec hlevel (fun i j hij hj => by
          rw [h.count_eq] at hj
          obtain rfl : i = j := by omega
          exact le_rfl) key).1
        rw [h.count_eq] at hle
        omega
      rw [enoughRoomInt, if_neg hlevel, decide_eq_true_iff, h.count_eq] at henough
      have hchild : itemBlocknr (Function.update s.data r (lowered (s.data r) key) r) 0 = r := by
        rw [Function.update_self, itemBlocknr_lowered, h.blocknr_eq]
      rw [goDown, ensuresOr_bind]
      refine ensuresOr_putBlock ?_
      rw [ensuresOr_bind, ensuresOr_of_run (chooseSlot_run _ _ _), ensuresOr_bind, ensuresOr_get,
        ensuresOr_bind]
      dsimp only
      rw [hslot, hchild]
      refine ensuresOr_getBlock (fun _ => ih ⟨?_, hchild, h.readable⟩ (Or.inl henough)) fun hread => ?_
      · dsimp only
        rw [Function.update_self, count_lowered, h.count_eq]
      · rw [h.readable] at hread
        exact nomatch hread
    · -- a root is split without a parent
      rw [enoughRoomInt, if_neg hlevel, decide_eq_true_iff, h.count_eq] at hfull
      rw [hroom.resolve_left hfull, splitFull, ensuresOr_bind, ensuresOr_bind, deref, ensuresOr_throw]
      trivial

/-- A root that grows leads back to itself. -/
theorem ensuresOr_btreeGrow (hnext : ¬OutOfBlocks s → s.fs.next < 2 ^ 64) :
    EnsuresOr (fun _ => True) btreeGrow s fun rc s' => rc = 0 ∧ LeadsBack s' s'.root := by
  rw [btreeGrow, ensuresOr_bind]
  by_cases hfree : OutOfBlocks s
  · -- the null pointer is used
    rw [ensuresOr_of_run (btreeAllocNode_none hfree), ensuresOr_bind, deref, ensuresOr_throw]
    trivial
  · rw [ensuresOr_of_run (btreeAllocNode_some hfree)]
    simp only [deref, ensuresOr_bind, ensuresOr_pure, ensuresOr_get, modifyData, ensuresOr_modify,
      putBlock, addLinks, Function.update_self]
    obtain ⟨-, hc, hb⟩ := grownRoot_fields (s.allocated.data s.fs.next) (s.allocated.data s.allocated.root)
      (if level (s.allocated.data s.allocated.root) = 0 then valueAt 0 else itemAt 0)
      (level (s.allocated.data s.allocated.root)) s.fs.next (hnext hfree)
    refine ⟨trivial, ?_, ?_, ?_⟩
    · simpa only [Function.update_self] using hc
    · simpa only [Function.update_self] using hb
    · obtain ⟨-, hread⟩ := not_or.1 hfree
      exact Bool.not_eq_false _ |>.mp hread

/-! ### The condition -/

/-- **A well-formed tree** of height `l` with the pairs `ps`, and free space whose blocks have numbers that
fit their type. -/
structure Grown (s : BtState) (l : ℕ) (ps : Pairs) : Prop where
  tree : IsTree s.blockSize s.data l s.root ps
  blockSize_lt : s.blockSize < 2 ^ 16
  next_le : s.fs.next ≤ s.fs.count
  count_lt : s.fs.count < 2 ^ 64

/-- **An insertion fails cleanly**: it returns a code other than 0, the tree holds the pairs it held, and
every reference taken is dropped. -/
def FailsCleanly (s : BtState) (ps : Pairs) (key : Key) (data : List UInt8) : Prop :=
  ∃ N, ∀ fuel ≥ N, Ensures (btreeInsertInt fuel key data) s fun rc s' =>
    rc ≠ 0 ∧ (∃ l', IsTree s'.blockSize s'.data l' s'.root ps) ∧ s'.links = s.links

/-- **A call that fails** was cut off on its way down, or it keeps a reference. -/
theorem Grown.ensuresOr_btreeInsert (h : Grown s l ps) :
    EnsuresOr (fun _ => True) (btreeInsertInt fuel key data) s fun rc s' => rc ≠ 0 →
      CutOff s key s.root ∨ ∃ m, s.links m < s'.links m := by
  rw [btreeInsertInt]
  dsimp only
  rw [ensuresOr_bind, ensuresOr_get, ensuresOr_ite]
  refine ⟨fun _ => ?_, fun _ => ensuresOr_bind.2 ?_⟩
  · simp only [ensuresOr_pure, ne_eq, not_true_eq_false, if_false, ensuresOr_bind, ensuresOr_get]
    rw [ensuresOr_of_run (refBlock_run _ _)]
    refine EnsuresOr.mono (ensuresOr_insertLoop_tree h.blockSize_lt h.tree) fun rc s' hcut hrc => ?_
    rcases hcut hrc with hcut | ⟨m, hm⟩
    · exact Or.inl (hcut.of_agree h.tree rfl rfl fun _ _ => rfl)
    · refine Or.inr ⟨m, ?_⟩
      have hnone : ref none m = 0 := if_neg (by simp)
      dsimp only at hm
      omega
  · have hused : ¬OutOfBlocks s → s.fs.next < s.fs.count := fun hfree =>
      lt_of_le_of_ne h.next_le (not_or.1 hfree).1
    refine (ensuresOr_btreeGrow fun hfree => (hused hfree).trans h.count_lt).mono ?_
    rintro rc s₁ ⟨rfl, hback⟩
    simp only [ne_eq, not_true_eq_false, if_false, ensuresOr_bind, ensuresOr_get]
    rw [ensuresOr_of_run (refBlock_run _ _)]
    refine EnsuresOr.mono (LeadsBack.ensuresOr_descent ?_ (Or.inr rfl)) fun rc s' hrc hne => absurd hrc hne
    exact ⟨hback.count_eq, hback.blocknr_eq, hback.readable⟩

/-- **Insertions fail cleanly where the way down is cut off**, and nowhere else. -/
theorem failsCleanly_iff (h : Grown s l ps) (key : Key) (data : List UInt8) :
    FailsCleanly s ps key data ↔ CutOff s key s.root := by
  constructor
  · rintro ⟨N, hN⟩
    obtain ⟨rc, s', hrun, hrc, -, hlinks⟩ := hN N le_rfl
    refine ((h.ensuresOr_btreeInsert.of_run hrun) hrc).resolve_right ?_
    rintro ⟨m, hm⟩
    rw [hlinks] at hm
    exact lt_irrefl _ hm
  · intro hcut
    obtain ⟨k, rfl⟩ := Nat.exists_eq_succ_of_ne_zero fun hc => hcut.level_ne (h.tree.level_eq.trans hc)
    refine ⟨k + 2, fun fuel hfuel => ?_⟩
    have hroom : enoughRoomInt s.blockSize (s.data s.root) (toInt data.length) = true :=
      (h.tree.enoughRoom_iff h.blockSize_lt _).2 hcut.hasRoom
    simp only [btreeInsertInt, ensures_bind, ensures_get, hroom, if_true, ensures_pure, ne_eq,
      not_true_eq_false, if_false]
    refine ⟨_, _, refBlock_run _ _, ?_⟩
    have hcut₁ : CutOff { s with links := fun m => s.links m + ref (some s.root) m } key s.root :=
      hcut.of_agree h.tree rfl rfl fun _ _ => rfl
    refine Ensures.mono (hcut₁.ensures_insertLoop h.blockSize_lt h.tree (by omega)) ?_
    rintro rc s' ⟨rfl, hbs, hroot, hlinks, htrees⟩
    refine ⟨by decide, ⟨k + 1, ?_⟩, ?_⟩
    · rw [hbs, hroot]
      exact htrees _ _ _ h.tree
    · funext m
      rw [hlinks m]
      simp [ref]

end

/-- A root with one child, an empty leaf that cannot be read. -/
def lostLeaf : BtState where
  blockSize := 4096
  data n := if n = 1 then setItemBlocknr (setCount (setLevel (fun _ => 0) 1) 1) 0 2 else fun _ => 0
  links _ := 0
  readable n := n != 2
  fs := ⟨8, 3⟩
  root := 1

theorem lostLeaf_grown : Grown lostLeaf 1 [] where
  tree := by
    have hcount : count (lostLeaf.data 1) = 1 := by decide
    have hblocknr : itemBlocknr (lostLeaf.data 1) 0 = 2 := by decide
    have hleaf : IsTree 4096 lostLeaf.data 0 2 [] := .leaf
      ⟨by decide, by decide, List.Pairwise.nil, by decide, nofun, nofun⟩
    have htree := @IsTree.node 4096 lostLeaf.data 0 1 fun _ => []
    rw [hcount] at htree
    refine htree (by decide) (by decide) (by decide) (fun i j hij hj => ?_) (fun _ _ _ => nofun)
      (fun _ _ _ => nofun) fun i hi => ?_
    · obtain rfl : i = j := by omega
      exact le_rfl
    · obtain rfl : i = 0 := by omega
      rw [hblocknr]
      exact hleaf
  blockSize_lt := by decide
  next_le := by decide
  count_lt := by decide

/-- An insertion above a leaf that cannot be read fails cleanly. -/
theorem failsCleanly_lostLeaf : FailsCleanly lostLeaf [] lowSentinel [] :=
  (failsCleanly_iff lostLeaf_grown lowSentinel []).2 (.here (by decide)
    (show 1 + 1 < 163 by decide) (by decide +kernel))

/-- A tree with no free block to grow into: the root is an empty leaf of 512 bytes. -/
def fullDisk : BtState where
  blockSize := 512
  data _ _ := 0
  links _ := 1
  readable _ := true
  fs := ⟨8, 8⟩
  root := 1

theorem fullDisk_grown : Grown fullDisk 0 [] where
  tree := .leaf isLeaf_empty
  blockSize_lt := by decide
  next_le := by decide
  count_lt := by decide

/-- Data too large for a leaf, and no free block: the insertion dereferences a null pointer. -/
theorem not_failsCleanly_fullDisk : IsTree 512 fullDisk.data 0 fullDisk.root [] ∧
    (∀ fuel, Faults (btreeInsertInt fuel lowSentinel (List.replicate 600 7)) fullDisk .null) ∧
    ¬FailsCleanly fullDisk [] lowSentinel (List.replicate 600 7) := by
  have hnull : ∀ fuel, Faults (btreeInsertInt fuel lowSentinel (List.replicate 600 7)) fullDisk .null := by
    intro fuel
    have hroom : enoughRoomInt 512 (fullDisk.data 1) (toInt (List.replicate 600 (7 : UInt8)).length) = false := by
      rw [List.length_replicate]
      decide
    have hgrow : Faults btreeGrow fullDisk .null :=
      faults_bind_run (btreeAllocNode_none (Or.inl rfl)) rfl
    rw [btreeInsertInt]
    refine faults_bind_run (show (get : BtM BtState) fullDisk = Except.ok (fullDisk, fullDisk) from rfl) ?_
    rw [if_neg (Bool.not_eq_true _ ▸ hroom)]
    exact hgrow.bind
  refine ⟨fullDisk_grown.tree, hnull, ?_⟩
  rintro ⟨N, hN⟩
  exact (hnull N).not_ensures (hN N le_rfl)

end Hwfs

end Kernel64
