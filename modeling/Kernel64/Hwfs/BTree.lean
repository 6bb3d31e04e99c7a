import Kernel64.Headers
import Kernel64.Lib.Bytes
import Kernel64.Lib.Prog

/-!
# The B+ tree of `hwfs/btree.c`

A node of the tree is a disk block, modelled byte for byte: a header of three 16-bit fields
(`level`, `count`, `blocks`), then an array of values (in a leaf, level 0) or of items (in an
internal node). The data of a leaf's values grows down from the end of the block.

The blocks are taken at the interface of the cache: `disk_get_block` hands out block number `n`,
whose bytes are shared by everyone who holds it, and counts a reference. A `struct disk_block *`
is the number of its block, the null pointer `none`.
-/

namespace Kernel64

namespace Hwfs

/-! ### Keys -/

/-- A `struct hwfs_key`. -/
structure Key where
  id : UInt64
  type : UInt8
  offset : UInt64
  deriving DecidableEq, Repr

/-- `hwfs_host_key_cmp` -/
def hwfsHostKeyCmp (l r : Key) : ℤ :=
  if l.id < r.id then -1
  else if l.id > r.id then 1
  else if l.type < r.type then -1
  else if l.type > r.type then 1
  else if l.offset < r.offset then -1
  else if l.offset > r.offset then 1
  else 0

/-- `hwfs_key_to_host`, on the `struct hwfs_disk_key` at offset `o`. -/
def hwfsKeyToHost (b : Buf) (o : ℕ) : Key where
  id := UInt64.ofNat (b.field 8 o)
  type := b (o + 8)
  offset := UInt64.ofNat (b.field 8 (o + 9))

/-- `hwfs_key_to_disk`, into the `struct hwfs_disk_key` at offset `o`. -/
def hwfsKeyToDisk (b : Buf) (o : ℕ) (key : Key) : Buf :=
  ((b.setField 8 o key.id.toNat).setField 1 (o + 8) key.type.toNat).setField 8 (o + 9)
    key.offset.toNat

/-- `hwfs_key_cmp`, with the `struct hwfs_disk_key` at offset `o`. -/
def hwfsKeyCmp (key : Key) (b : Buf) (o : ℕ) : ℤ := hwfsHostKeyCmp key (hwfsKeyToHost b o)

/-! ### The fields of a node -/

/-- `sizeof(struct hwfs_disk_tree_header)` -/
def headerSize : ℕ := 6

/-- `sizeof(struct hwfs_disk_value)` -/
def valueSize : ℕ := 21

/-- `sizeof(struct hwfs_disk_item)` -/
def itemSize : ℕ := 25

/-- `HWFS_NODE_FANOUT`, for a block that holds a header. -/
def hwfsNodeFanout (blockSize : ℕ) : ℕ := (blockSize - headerSize) / itemSize

/-- `hdr->level` -/
def level (b : Buf) : ℕ := b.field 2 0

/-- `hdr->count` -/
def count (b : Buf) : ℕ := b.field 2 2

def setLevel (b : Buf) (v : ℕ) : Buf := b.setField 2 0 v

def setCount (b : Buf) (v : ℕ) : Buf := b.setField 2 2 v

def setBlocks (b : Buf) (v : ℕ) : Buf := b.setField 2 4 v

/-- The offset of `value[i]`. -/
def valueAt (i : ℕ) : ℕ := headerSize + valueSize * i

/-- The offset of `item[i]`. -/
def itemAt (i : ℕ) : ℕ := headerSize + itemSize * i

/-- A `struct hwfs_value`. -/
structure Value where
  key : Key
  offset : ℕ
  size : ℕ
  deriving DecidableEq, Repr

/-- `hwfs_value_to_host`, on `value[i]`. -/
def hwfsValueToHost (b : Buf) (i : ℕ) : Value where
  key := hwfsKeyToHost b (valueAt i)
  offset := b.field 2 (valueAt i + 17)
  size := b.field 2 (valueAt i + 19)

/-- `value[i].offset` -/
def valueOffset (b : Buf) (i : ℕ) : ℕ := (hwfsValueToHost b i).offset

def setValueOffset (b : Buf) (i v : ℕ) : Buf := b.setField 2 (valueAt i + 17) v

def setValueSize (b : Buf) (i v : ℕ) : Buf := b.setField 2 (valueAt i + 19) v

/-- `item[i].key` -/
def itemKey (b : Buf) (i : ℕ) : Key := hwfsKeyToHost b (itemAt i)

/-- `item[i].blocknr` -/
def itemBlocknr (b : Buf) (i : ℕ) : ℕ := b.field 8 (itemAt i + 17)

def setItemBlocknr (b : Buf) (i v : ℕ) : Buf := b.setField 8 (itemAt i + 17) v

/-! ### Searching a node -/

/-- The loop of `__btree_lower_bound` and `__btree_upper_bound`: `after m` says that the position
sought is after item `m`. -/
def boundLoop (after : ℕ → Bool) (pos len : ℕ) : ℕ :=
  if len = 0 then pos
  else if after (pos + len / 2) then
    boundLoop after (pos + len / 2 + 1) (len - len / 2 - 1)
  else boundLoop after pos (len / 2)
termination_by len

/-- `__btree_lower_bound`, over the items of size `size` at offset `base`. -/
def lowerBoundLoop (b : Buf) (base size items : ℕ) (key : Key) : ℕ :=
  boundLoop (fun m => decide (hwfsKeyCmp key b (base + size * m) > 0)) 0 items

/-- `__btree_upper_bound`, over the items of size `size` at offset `base`. -/
def upperBoundLoop (b : Buf) (base size items : ℕ) (key : Key) : ℕ :=
  boundLoop (fun m => decide (hwfsKeyCmp key b (base + size * m) ≥ 0)) 0 items

/-- `btree_lower_bound` -/
def btreeLowerBound (b : Buf) (key : Key) : ℕ :=
  if level b = 0 then lowerBoundLoop b headerSize valueSize (count b) key
  else lowerBoundLoop b headerSize itemSize (count b) key

/-- `btree_upper_bound` -/
def btreeUpperBound (b : Buf) (key : Key) : ℕ :=
  if level b = 0 then upperBoundLoop b headerSize valueSize (count b) key
  else upperBoundLoop b headerSize itemSize (count b) key

/-! ### Room in a node -/

/-- `btree_leaf_room` -/
def btreeLeafRoom (blockSize : ℕ) (b : Buf) : ℤ :=
  if count b = 0 then (blockSize : ℤ) - headerSize
  else (valueOffset b (count b - 1) : ℤ) - valueAt (count b)

/-- `btree_enough_room`. The comparison for an internal node is one of unsigned 64-bit numbers, so
that a fanout of 0 leaves room for anything. -/
def btreeEnoughRoom (blockSize : ℕ) (b : Buf) (size : ℕ) : Bool :=
  if level b = 0 then decide (btreeLeafRoom blockSize b ≥ size + valueSize)
  else decide (count b < (hwfsNodeFanout blockSize + (2 ^ 64 - 1)) % 2 ^ 64)

/-! ### Inserting into a leaf -/

/-- The loop of `btree_leaf_insert_nooverflow`: move the offsets of the values from `slot + 1` to
`count` down by `size`. Offsets are 16-bit numbers. -/
def lowerOffsets (b : Buf) (slot count size : ℕ) : Buf :=
  (List.range' (slot + 1) (count - slot)).foldl
    (fun b i => setValueOffset b i (valueOffset b i + (2 ^ 16 - size % 2 ^ 16))) b

/-- The branch of `btree_leaf_insert_nooverflow` that makes room before the last value. -/
def shiftValues (b : Buf) (slot count size : ℕ) : Buf :=
  let dataBegin := valueOffset b (count - 1)
  let dataEnd := valueOffset b slot + (hwfsValueToHost b slot).size
  let b := b.move (dataBegin - size) dataBegin (dataEnd - dataBegin)
  let b := b.move (valueAt (slot + 1)) (valueAt slot) ((count - slot) * valueSize)
  let b := lowerOffsets b slot count size
  setValueOffset b slot (dataEnd - size)

/-- `btree_leaf_insert_nooverflow`, on the bytes of the leaf; `none` stands for `-1`. -/
def leafInsert (blockSize : ℕ) (b : Buf) (key : Key) (data : List UInt8) : Option Buf :=
  if btreeLeafRoom blockSize b < valueSize + data.length then none
  else
    let slot := btreeLowerBound b key
    let n := count b
    let b := setCount b (n + 1)
    let b :=
      if slot ≠ n then shiftValues b slot n data.length
      else if n = 0 then setValueOffset b slot (blockSize - data.length)
      else setValueOffset b slot (valueOffset b (n - 1) - data.length)
    let b := hwfsKeyToDisk b (valueAt slot) key
    let b := setValueSize b slot data.length
    some (b.store (valueOffset b slot) data)

/-! ### The state of the tree -/

/-- A `struct free_space`. -/
structure FreeSpace where
  count : ℕ
  next : ℕ

/-- A tree, the free space it grows into, and the blocks of its disk. -/
structure BtState where
  /-- `dio->block_size` -/
  blockSize : ℕ
  /-- the bytes of each block -/
  data : ℕ → Buf
  /-- `links` of each block -/
  links : ℕ → ℤ
  /-- whether the device can be read at a block -/
  readable : ℕ → Bool
  /-- the free space -/
  fs : FreeSpace
  /-- `tree->root` -/
  root : ℕ

/-- Code that runs on a tree. -/
abbrev BtM (α : Type) : Type := Prog BtState α

/-- Rewrite the bytes of a block. -/
def modifyData (n : ℕ) (f : Buf → Buf) : BtM Unit :=
  modify fun s => { s with data := Function.update s.data n (f (s.data n)) }

/-- Change the references counted for a block. -/
def addLinks (n : ℕ) (d : ℤ) : BtM Unit :=
  modify fun s => { s with links := Function.update s.links n (s.links n + d) }

/-- The block a pointer points to. -/
def deref : Option ℕ → BtM ℕ
  | none => throw .null
  | some n => return n

/-- `disk_get_block` -/
def getBlock (n : ℕ) : BtM (Option ℕ) := do
  if (← get).readable n then
    addLinks n 1
    return some n
  else return none

/-- `disk_ref_block`, on a block. -/
def refBlock (n : ℕ) : BtM ℕ := do
  addLinks n 1
  return n

/-- `disk_put_block` -/
def putBlock : Option ℕ → BtM Unit
  | none => return
  | some n => addLinks n (-1)

/-! ### Nodes -/

/-- `btree_alloc_node` -/
def btreeAllocNode : BtM (Option ℕ) := do
  let fs := (← get).fs
  if fs.next = fs.count then return none
  match ← getBlock fs.next with
  | none => return none
  | some n => do
    let bs := (← get).blockSize
    modifyData n fun b => setBlocks (b.store 0 (List.replicate bs 0)) 1
    modify fun s => { s with fs := { s.fs with next := s.fs.next + 1 } }
    return some n

/-- `btree_grow` -/
def btreeGrow : BtM ℤ := do
  let newRoot ← deref (← btreeAllocNode)
  let s ← get
  let old := s.data s.root
  let l := level old
  modifyData newRoot fun b =>
    let b := setBlocks (setCount (setLevel b (l + 1)) 1) 0
    b.copy (itemAt 0) old (if l = 0 then valueAt 0 else itemAt 0) 17
  modifyData newRoot fun b => setItemBlocknr b 0 newRoot
  putBlock (some s.root)
  modify fun s => { s with root := newRoot }
  return 0

/-- `btree_split_node` -/
def btreeSplitNode (parent slot block : ℕ) : BtM ℤ := do
  let s ← get
  let pcount := count (s.data parent)
  let n := count (s.data block)
  let split := n / 2
  let next ← deref (← btreeAllocNode)
  let s ← get
  modifyData next fun b =>
    b.copy (itemAt 0) (s.data block) (itemAt split) (itemSize * (n - split))
  let s ← get
  modifyData parent fun b =>
    let b := b.move (itemAt (slot + 2)) (itemAt (slot + 1)) (itemSize * (pcount - slot - 1))
    let b := b.copy (itemAt (slot + 1)) (s.data next) (itemAt 0) 17
    setCount (setItemBlocknr b (slot + 1) next) (pcount + 1)
  modifyData next fun b => setCount b (n - split)
  modifyData block fun b => setCount b split
  return 0

/-- `btree_node_insert_ptr`. The number of bytes it moves is `25 * count - slot`. -/
def btreeNodeInsertPtr (block slot : ℕ) (key : Key) (blocknr : ℕ) : BtM Unit :=
  modifyData block fun b =>
    let b := b.move (itemAt (slot + 1)) (itemAt slot) (itemSize * count b - slot)
    setItemBlocknr (hwfsKeyToDisk b (itemAt slot) key) slot blocknr

/-- `btree_leaf_insert_nooverflow` -/
def btreeLeafInsertNooverflow (block : ℕ) (key : Key) (data : List UInt8) : BtM ℤ := do
  let s ← get
  match leafInsert s.blockSize (s.data block) key data with
  | none => return -1
  | some b => do
    modifyData block fun _ => b
    putBlock (some block)
    return 0

/-- The loop of `btree_leaf_insert_overflow`, on the values from `slot` to `slot + n`, last first;
it returns the key of the value it ends with. -/
def moveHigh (block high slot : ℕ) : ℕ → Key → BtM Key
  | 0, copy => return copy
  | n + 1, _ => do
    let b := (← get).data block
    let copy := hwfsValueToHost b (slot + n)
    let _ ← btreeLeafInsertNooverflow high copy.key (b.slice copy.offset copy.size)
    moveHigh block high slot n copy.key

/-- `btree_leaf_insert_overflow` -/
def btreeLeafInsertOverflow (parent : Option ℕ) (parentSlot block : ℕ) (key : Key)
    (data : List UInt8) : BtM ℤ := do
  let parent ← deref parent
  let b := (← get).data block
  let n := count b
  let slot := btreeLowerBound b key
  let newBlock ← deref (← btreeAllocNode)
  let _ ← btreeLeafInsertNooverflow newBlock key data
  if slot = 0 then
    modifyData parent fun b => setItemBlocknr b parentSlot newBlock
    let nextKey := hwfsKeyToHost ((← get).data block) (valueAt 0)
    btreeNodeInsertPtr parent (parentSlot + 1) nextKey block
  else if slot = n then
    btreeNodeInsertPtr parent (parentSlot + 1) key newBlock
  else do
    let high ← deref (← btreeAllocNode)
    let copy ← moveHigh block high slot (n - slot) key
    modifyData block fun b => setCount b slot
    btreeNodeInsertPtr parent (parentSlot + 1) key newBlock
    btreeNodeInsertPtr parent (parentSlot + 2) copy high
    putBlock (some high)
  putBlock (some block)
  putBlock (some newBlock)
  putBlock (some parent)
  return 0

/-- `btree_leaf_insert` -/
def btreeLeafInsert (parent : Option ℕ) (parentSlot block : ℕ) (key : Key) (data : List UInt8) :
    BtM ℤ := do
  let s ← get
  if btreeEnoughRoom s.blockSize (s.data block) data.length then
    putBlock parent
    btreeLeafInsertNooverflow block key data
  else btreeLeafInsertOverflow parent parentSlot block key data

/-! ### Insertion -/

/-- The part of the loop of `btree_insert` that splits a full node: the node to go on with and its
slot in the parent, or the code the insertion returns. -/
def splitFull (parent : Option ℕ) (slot block : ℕ) (key : Key) : BtM (Except ℤ (ℕ × ℕ)) := do
  let p ← deref parent
  if (← btreeSplitNode p slot block) ≠ 0 then
    putBlock (some p)
    putBlock (some block)
    return .error (-1)
  let b := (← get).data p
  if hwfsKeyCmp key b (itemAt (slot + 1)) > 0 then
    putBlock (some block)
    match ← getBlock (itemBlocknr b (slot + 1)) with
    | none => do
      putBlock (some p)
      return .error (-1)
    | some block => return .ok (block, slot + 1)
  else return .ok (block, slot)

/-- The choice of the child to go on with; a key below all of the node's replaces the first. -/
def chooseSlot (block : ℕ) (key : Key) : BtM ℕ := do
  let bound := btreeUpperBound ((← get).data block) key
  if bound = 0 then
    modifyData block fun b => hwfsKeyToDisk b (itemAt 0) key
    return 0
  else return bound - 1

/-- The loop of `btree_insert` and the insertion into the leaf it ends at. -/
def insertLoop (key : Key) (data : List UInt8) : ℕ → Option ℕ → ℕ → ℕ → BtM ℤ
  | 0, _, _, _ => throw .fuel
  | fuel + 1, parent, slot, block => do
    let s ← get
    if level (s.data block) = 0 then btreeLeafInsert parent slot block key data
    else do
      let next ←
        if btreeEnoughRoom s.blockSize (s.data block) data.length then pure (.ok (block, slot))
        else splitFull parent slot block key
      match next with
      | .error rc => return rc
      | .ok (block, _) => do
        putBlock parent
        let slot ← chooseSlot block key
        let blocknr := itemBlocknr ((← get).data block) slot
        match ← getBlock blocknr with
        | none => do
          putBlock (some block)
          return -1
        | some child => insertLoop key data fuel (some block) slot child

/-- `btree_insert` -/
def btreeInsert (fuel : ℕ) (key : Key) (data : List UInt8) : BtM ℤ := do
  let s ← get
  let rc ←
    if btreeEnoughRoom s.blockSize (s.data s.root) data.length then pure 0 else btreeGrow
  if rc ≠ 0 then return -1
  let block ← refBlock (← get).root
  insertLoop key data fuel none 0 block

end Hwfs

end Kernel64
