import Kernel64.Hwfs.Leaf
import Kernel64.Lib.Records

/-!
# The records of `hwfs/hwfs.h`

Each record of the disk format is read by a function `hwfs_*_to_host` and written by `hwfs_*_to_disk`.
Every pair of them round trips, and reads and writes nothing but the bytes of the record
(`records_roundTrip`).
-/

namespace Kernel64

namespace Hwfs

/-! ### Records of nodes -/

/-- A `struct hwfs_item`. -/
structure Item where
  key : Key
  blocknr : UInt64
  deriving DecidableEq, Repr

/-- `hwfs_item_to_host` -/
def hwfsItemToHost (b : Buf) (o : ℕ) : Item where
  key := hwfsKeyToHost b o
  blocknr := UInt64.ofNat (b.field 8 (o + 17))

/-- `hwfs_item_to_disk` -/
def hwfsItemToDisk (b : Buf) (o : ℕ) (item : Item) : Buf :=
  (hwfsKeyToDisk b o item.key).setField 8 (o + 17) item.blocknr.toNat

/-- A `struct hwfs_value`, in its own widths. -/
structure ValueRecord where
  key : Key
  offset : UInt16
  size : UInt16
  deriving DecidableEq, Repr

/-- `hwfs_value_to_host` -/
def hwfsValueRecordToHost (b : Buf) (o : ℕ) : ValueRecord where
  key := hwfsKeyToHost b o
  offset := UInt16.ofNat (b.field 2 (o + 17))
  size := UInt16.ofNat (b.field 2 (o + 19))

/-- `hwfs_value_to_disk` -/
def hwfsValueToDisk (b : Buf) (o : ℕ) (value : ValueRecord) : Buf :=
  ((hwfsKeyToDisk b o value.key).setField 2 (o + 17) value.offset.toNat).setField 2 (o + 19)
    value.size.toNat

/-- A `struct hwfs_tree_header`. -/
structure TreeHeader where
  level : UInt16
  count : UInt16
  blocks : UInt16
  deriving DecidableEq, Repr

/-- `hwfs_tree_to_host` -/
def hwfsTreeToHost (b : Buf) (o : ℕ) : TreeHeader where
  level := UInt16.ofNat (b.field 2 o)
  count := UInt16.ofNat (b.field 2 (o + 2))
  blocks := UInt16.ofNat (b.field 2 (o + 4))

/-- `hwfs_tree_to_disk` -/
def hwfsTreeToDisk (b : Buf) (o : ℕ) (hdr : TreeHeader) : Buf :=
  ((b.setField 2 o hdr.level.toNat).setField 2 (o + 2) hdr.count.toNat).setField 2 (o + 4)
    hdr.blocks.toNat

/-! ### Records of the file system -/

/-- A `struct hwfs_inode`. -/
structure Inode where
  size : UInt64
  links : UInt32
  type : UInt8
  deriving DecidableEq, Repr

/-- `hwfs_inode_to_host` -/
def hwfsInodeToHost (b : Buf) (o : ℕ) : Inode where
  size := UInt64.ofNat (b.field 8 o)
  links := UInt32.ofNat (b.field 4 (o + 8))
  type := b (o + 12)

/-- `hwfs_inode_to_disk` -/
def hwfsInodeToDisk (b : Buf) (o : ℕ) (node : Inode) : Buf :=
  ((b.setField 8 o node.size.toNat).setField 4 (o + 8) node.links.toNat).setField 1 (o + 12)
    node.type.toNat

/-- `HWFS_MAX_PATH` -/
def hwfsMaxPath : ℕ := 16

/-- A `struct hwfs_entry`. -/
structure Entry where
  nodeid : UInt64
  type : UInt8
  name : Fin hwfsMaxPath → UInt8
  deriving DecidableEq

/-- `hwfs_entry_to_host` -/
def hwfsEntryToHost (b : Buf) (o : ℕ) : Entry where
  nodeid := UInt64.ofNat (b.field 8 o)
  type := b (o + 8)
  name i := b (o + 9 + i)

/-- `hwfs_entry_to_disk` -/
def hwfsEntryToDisk (b : Buf) (o : ℕ) (entry : Entry) : Buf :=
  ((b.setField 8 o entry.nodeid.toNat).setField 1 (o + 8) entry.type.toNat).setBytes (o + 9) entry.name

/-- A `struct hwfs_data`. -/
structure DataExtent where
  offset : UInt64
  size : UInt64
  deriving DecidableEq, Repr

/-- `hwfs_data_to_host` -/
def hwfsDataToHost (b : Buf) (o : ℕ) : DataExtent where
  offset := UInt64.ofNat (b.field 8 o)
  size := UInt64.ofNat (b.field 8 (o + 8))

/-- `hwfs_data_to_disk` -/
def hwfsDataToDisk (b : Buf) (o : ℕ) (data : DataExtent) : Buf :=
  (b.setField 8 o data.offset.toNat).setField 8 (o + 8) data.size.toNat

/-- A `struct hwfs_extent`. -/
structure Extent where
  free : UInt64
  deriving DecidableEq, Repr

/-- `hwfs_extent_to_host` -/
def hwfsExtentToHost (b : Buf) (o : ℕ) : Extent where
  free := UInt64.ofNat (b.field 8 o)

/-- `hwfs_extent_to_disk` -/
def hwfsExtentToDisk (b : Buf) (o : ℕ) (extent : Extent) : Buf := b.setField 8 o extent.free.toNat

/-- A `struct hwfs_super_block`. -/
structure SuperBlock where
  magic : UInt64
  fsTreeRoot : UInt64
  extentTreeRoot : UInt64
  rootNodeId : UInt64
  nextNodeId : UInt64
  blockSize : UInt16
  deriving DecidableEq, Repr

/-- `hwfs_super_to_host` -/
def hwfsSuperToHost (b : Buf) (o : ℕ) : SuperBlock where
  magic := UInt64.ofNat (b.field 8 o)
  fsTreeRoot := UInt64.ofNat (b.field 8 (o + 8))
  extentTreeRoot := UInt64.ofNat (b.field 8 (o + 16))
  rootNodeId := UInt64.ofNat (b.field 8 (o + 24))
  nextNodeId := UInt64.ofNat (b.field 8 (o + 32))
  blockSize := UInt16.ofNat (b.field 2 (o + 40))

/-- `hwfs_super_to_disk` -/
def hwfsSuperToDisk (b : Buf) (o : ℕ) (sb : SuperBlock) : Buf :=
  (((((b.setField 8 o sb.magic.toNat).setField 8 (o + 8) sb.fsTreeRoot.toNat).setField 8 (o + 16)
    sb.extentTreeRoot.toNat).setField 8 (o + 24) sb.rootNodeId.toNat).setField 8 (o + 32)
    sb.nextNodeId.toNat).setField 2 (o + 40) sb.blockSize.toNat

/-! ### Round trips -/

open Buf

/-- The fields of a key. -/
def Key.fields : UInt64 × UInt8 × UInt64 ≃ Key where
  toFun a := ⟨a.1, a.2.1, a.2.2⟩
  invFun k := (k.id, k.type, k.offset)
  left_inv _ := rfl
  right_inv _ := rfl

theorem roundTrips_key : RoundTrips 17 hwfsKeyToHost hwfsKeyToDisk :=
  (roundTrips_uint64.pair (roundTrips_uint8.pair roundTrips_uint64)).map Key.fields

/-- The fields of an item. -/
def Item.fields : Key × UInt64 ≃ Item where
  toFun a := ⟨a.1, a.2⟩
  invFun i := (i.key, i.blocknr)
  left_inv _ := rfl
  right_inv _ := rfl

theorem roundTrips_item : RoundTrips 25 hwfsItemToHost hwfsItemToDisk :=
  (roundTrips_key.pair roundTrips_uint64).map Item.fields

/-- The fields of a value. -/
def ValueRecord.fields : Key × UInt16 × UInt16 ≃ ValueRecord where
  toFun a := ⟨a.1, a.2.1, a.2.2⟩
  invFun v := (v.key, v.offset, v.size)
  left_inv _ := rfl
  right_inv _ := rfl

theorem roundTrips_value : RoundTrips 21 hwfsValueRecordToHost hwfsValueToDisk :=
  (roundTrips_key.pair (roundTrips_uint16.pair roundTrips_uint16)).map ValueRecord.fields

/-- The fields of a header. -/
def TreeHeader.fields : UInt16 × UInt16 × UInt16 ≃ TreeHeader where
  toFun a := ⟨a.1, a.2.1, a.2.2⟩
  invFun h := (h.level, h.count, h.blocks)
  left_inv _ := rfl
  right_inv _ := rfl

theorem roundTrips_tree : RoundTrips 6 hwfsTreeToHost hwfsTreeToDisk :=
  (roundTrips_uint16.pair (roundTrips_uint16.pair roundTrips_uint16)).map TreeHeader.fields

/-- The fields of an inode. -/
def Inode.fields : UInt64 × UInt32 × UInt8 ≃ Inode where
  toFun a := ⟨a.1, a.2.1, a.2.2⟩
  invFun n := (n.size, n.links, n.type)
  left_inv _ := rfl
  right_inv _ := rfl

theorem roundTrips_inode : RoundTrips 13 hwfsInodeToHost hwfsInodeToDisk :=
  (roundTrips_uint64.pair (roundTrips_uint32.pair roundTrips_uint8)).map Inode.fields

/-- The fields of a directory entry. -/
def Entry.fields : UInt64 × UInt8 × (Fin hwfsMaxPath → UInt8) ≃ Entry where
  toFun a := ⟨a.1, a.2.1, a.2.2⟩
  invFun e := (e.nodeid, e.type, e.name)
  left_inv _ := rfl
  right_inv _ := rfl

theorem roundTrips_entry : RoundTrips 25 hwfsEntryToHost hwfsEntryToDisk :=
  (roundTrips_uint64.pair (roundTrips_uint8.pair (roundTrips_bytes hwfsMaxPath))).map Entry.fields

/-- The fields of a data extent. -/
def DataExtent.fields : UInt64 × UInt64 ≃ DataExtent where
  toFun a := ⟨a.1, a.2⟩
  invFun d := (d.offset, d.size)
  left_inv _ := rfl
  right_inv _ := rfl

theorem roundTrips_data : RoundTrips 16 hwfsDataToHost hwfsDataToDisk :=
  (roundTrips_uint64.pair roundTrips_uint64).map DataExtent.fields

/-- The field of an extent. -/
def Extent.fields : UInt64 ≃ Extent where
  toFun a := ⟨a⟩
  invFun e := e.free
  left_inv _ := rfl
  right_inv _ := rfl

theorem roundTrips_extent : RoundTrips 8 hwfsExtentToHost hwfsExtentToDisk :=
  roundTrips_uint64.map Extent.fields

/-- The fields of a super block. -/
def SuperBlock.fields : UInt64 × UInt64 × UInt64 × UInt64 × UInt64 × UInt16 ≃ SuperBlock where
  toFun a := ⟨a.1, a.2.1, a.2.2.1, a.2.2.2.1, a.2.2.2.2.1, a.2.2.2.2.2⟩
  invFun s := (s.magic, s.fsTreeRoot, s.extentTreeRoot, s.rootNodeId, s.nextNodeId, s.blockSize)
  left_inv _ := rfl
  right_inv _ := rfl

theorem roundTrips_super : RoundTrips 42 hwfsSuperToHost hwfsSuperToDisk :=
  (roundTrips_uint64.pair (roundTrips_uint64.pair (roundTrips_uint64.pair (roundTrips_uint64.pair
    (roundTrips_uint64.pair roundTrips_uint16))))).map SuperBlock.fields

/-- **The records of the disk format round trip**, all nine of them: reading what was written gives it
back, writing what was read changes nothing, and only the bytes of the record are touched. -/
theorem records_roundTrip :
    RoundTrips 17 hwfsKeyToHost hwfsKeyToDisk ∧ RoundTrips 25 hwfsItemToHost hwfsItemToDisk ∧
    RoundTrips 21 hwfsValueRecordToHost hwfsValueToDisk ∧
    RoundTrips 13 hwfsInodeToHost hwfsInodeToDisk ∧ RoundTrips 25 hwfsEntryToHost hwfsEntryToDisk ∧
    RoundTrips 16 hwfsDataToHost hwfsDataToDisk ∧ RoundTrips 8 hwfsExtentToHost hwfsExtentToDisk ∧
    RoundTrips 42 hwfsSuperToHost hwfsSuperToDisk ∧ RoundTrips 6 hwfsTreeToHost hwfsTreeToDisk :=
  ⟨roundTrips_key, roundTrips_item, roundTrips_value, roundTrips_inode, roundTrips_entry,
    roundTrips_data, roundTrips_extent, roundTrips_super, roundTrips_tree⟩

end Hwfs

end Kernel64
