import Kernel64.RbTree.Search

/-!
# The block cache of `hwfs/disk-io.c`

A cached block is a `struct disk_block` in memory, known by the address of its embedded tree node.
The cache keeps all cached blocks in a search tree by block number, and those nobody holds on a
list in the order they were released. Contents of blocks are of an arbitrary type `δ`; the device
is an array of them, block `n` standing for the bytes from `block_size * n` on.

The results of the system calls made during an operation are its `DiskEnv`: what `malloc` returns
and whether the device could be read and written. `cache_threshold` is a parameter.
-/

namespace Kernel64

namespace Hwfs

variable {δ : Type}

/-- A `struct disk_block`, with the bytes its `data` points to. -/
structure DiskBlock (δ : Type) where
  blocknr : ℕ
  data : δ
  links : ℤ

/-- A `struct disk_io`, the memory of its blocks, and the device. -/
structure DiskIo (δ : Type) where
  /-- `blocks`, and the tree nodes embedded in all blocks -/
  blocks : RbState
  /-- the blocks in memory -/
  block : Ptr → DiskBlock δ
  /-- `lru`, first entry first -/
  lru : List Ptr
  /-- `block_count` -/
  blockCount : ℕ
  /-- the contents of the device -/
  device : ℕ → δ

/-- The results of the system calls made during an operation, each by the number of the call. -/
structure DiskEnv where
  /-- `malloc` -/
  malloc : ℕ → Option Ptr
  /-- whether `disk_write_block` succeeds -/
  write : ℕ → Bool
  /-- whether `disk_read_block` succeeds -/
  read : Bool

/-- Code that runs on the cache. -/
abbrev DiskM (δ : Type) (α : Type) : Type := Prog (DiskIo δ) α

/-- An operation on the tree of the cache. -/
def onTree {α : Type} (m : Rb.RbM α) : DiskM δ α := fun s =>
  match m s.blocks with
  | .ok (a, b) => .ok (a, { s with blocks := b })
  | .error e => .error e

/-- Rewrite a block. -/
def modifyBlock (p : Ptr) (f : DiskBlock δ → DiskBlock δ) : DiskM δ Unit :=
  modify fun s => { s with block := Function.update s.block p (f (s.block p)) }

/-- `disk_write_block`, when it succeeds. -/
def writeBlock (p : Ptr) : DiskM δ Unit :=
  modify fun s => { s with
    device := Function.update s.device (s.block p).blocknr (s.block p).data }

/-- `disk_read_block`, when it succeeds. -/
def readBlock (p : Ptr) : DiskM δ Unit :=
  modify fun s => { s with
    block := Function.update s.block p { s.block p with data := s.device (s.block p).blocknr } }

/-- `setup_disk_io` -/
def setupDiskIo (nodes : Ptr → RbNode) (block : Ptr → DiskBlock δ) (device : ℕ → δ) :
    DiskIo δ where
  blocks := ⟨nodes, 0#64⟩
  block := block
  lru := []
  blockCount := 0
  device := device

/-- `disk_alloc_cached_block` -/
def diskAllocCachedBlock (fuel : ℕ) (written : Bool) : DiskM δ Ptr := do
  match (← get).lru with
  | [] => return 0#64
  | p :: _ =>
    if written then
      writeBlock p
      onTree (Rb.rbErase fuel p)
      modify fun s => { s with lru := s.lru.erase p }
      return p
    else return 0#64

/-- The loop of `disk_alloc_block`, at its turn number `i`. -/
def allocLoop (fuel : ℕ) (env : DiskEnv) : ℕ → ℕ → DiskM δ Ptr
  | 0, _ => throw .fuel
  | m + 1, i =>
    match env.malloc i with
    | some p => do
      modify fun s => { s with blockCount := s.blockCount + 1 }
      return p
    | none => do
      let p ← diskAllocCachedBlock fuel (env.write (i + 1))
      if p ≠ 0#64 then return p else allocLoop fuel env m (i + 1)

/-- The eviction `disk_alloc_block` tries first when the cache is over its threshold. -/
def tryEvict (fuel threshold : ℕ) (env : DiskEnv) : DiskM δ Ptr := do
  if (← get).blockCount ≥ threshold then diskAllocCachedBlock fuel (env.write 0)
  else return 0#64

/-- `disk_alloc_block` -/
def diskAllocBlock (fuel threshold : ℕ) (env : DiskEnv) : DiskM δ Ptr := do
  let p ← tryEvict fuel threshold env
  if p ≠ 0#64 then return p else allocLoop fuel env fuel 0

/-- `disk_drop_block` -/
def diskDropBlock (_block : Ptr) : DiskM δ Unit :=
  modify fun s => { s with blockCount := s.blockCount - 1 }

/-- Where the search for a block number goes at a node. -/
def toBlock (s : DiskIo δ) (blocknr : ℕ) (p : Ptr) : Option Side :=
  if (s.block p).blocknr = blocknr then none
  else if (s.block p).blocknr < blocknr then some .right
  else some .left

/-- The search of `disk_get_block`. -/
def findBlock (fuel blocknr : ℕ) : DiskM δ Rb.Found := do
  onTree (Rb.searchTree (toBlock (← get) blocknr) fuel)

/-- The part of `disk_get_block` for a block that is cached. -/
def takeCached (p : Ptr) : DiskM δ Ptr := do
  modifyBlock p fun b => { b with links := b.links + 1 }
  if ((← get).block p).links = 1 then
    modify fun s => { s with lru := s.lru.erase p }
  return p

/-- The part of `disk_get_block` for a block that is not. -/
def loadBlock (fuel threshold : ℕ) (env : DiskEnv) (blocknr : ℕ) (parent : Ptr) (plink : Slot) :
    DiskM δ Ptr := do
  let p ← diskAllocBlock fuel threshold env
  modifyBlock p fun b => { b with blocknr := blocknr, links := 1 }
  if env.read then
    readBlock p
    onTree (do Rb.rbLink p parent plink; Rb.rbInsert fuel p)
    return p
  else
    diskDropBlock p
    return 0#64

/-- `disk_get_block` -/
def diskGetBlock (fuel threshold : ℕ) (env : DiskEnv) (blocknr : ℕ) : DiskM δ Ptr := do
  match ← findBlock fuel blocknr with
  | .hit p => takeCached p
  | .missing parent plink => loadBlock fuel threshold env blocknr parent plink

/-- `disk_ref_block` -/
def diskRefBlock (p : Ptr) : DiskM δ Ptr := do
  if p ≠ 0#64 then modifyBlock p fun b => { b with links := b.links + 1 }
  return p

/-- The part of `disk_put_block` for the last reference. -/
def releaseBlock (fuel threshold : ℕ) (written : Bool) (p : Ptr) : DiskM δ Unit := do
  if (← get).blockCount > threshold ∧ written = true then
    writeBlock p
    onTree (Rb.rbErase fuel p)
    diskDropBlock p
  else modify fun s => { s with lru := s.lru ++ [p] }

/-- `disk_put_block` -/
def diskPutBlock (fuel threshold : ℕ) (written : Bool) (p : Ptr) : DiskM δ Unit := do
  if p = 0#64 then return
  modifyBlock p fun b => { b with links := b.links - 1 }
  if ((← get).block p).links = 0 then releaseBlock fuel threshold written p

end Hwfs

end Kernel64
