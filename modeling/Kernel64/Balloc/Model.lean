import Kernel64.Lib.Arrays
import Kernel64.Lib.Prog

/-!
# The boot allocator (`balloc.c`)

A pool is an array of areas with the number of those in use; there is one pool for all memory and
one for what is free. Addresses and sizes are 64-bit numbers and their sums and differences wrap.
An index outside the array, or a number of elements to move that is negative, stops the run.
-/

namespace Kernel64

namespace Balloc

/-- `MAX_AREAS_COUNT` -/
def maxAreasCount : ℕ := 256

/-- A `struct balloc_area`. -/
structure Area where
  addr : ℕ
  size : ℕ
  deriving DecidableEq, Repr

/-- A 64-bit sum. -/
def add64 (a b : ℕ) : ℕ := (a + b) % 2 ^ 64

/-- A 64-bit difference. -/
def sub64 (a b : ℕ) : ℕ := (a + 2 ^ 64 - b) % 2 ^ 64

/-- The end of an area. -/
def Area.stop (a : Area) : ℕ := add64 a.addr a.size

/-- A `struct balloc_pool`. -/
structure Pool where
  areas : ℕ → Area
  size : ℕ

/-- Code that runs on a pool. -/
abbrev PoolM (α : Type) : Type := Prog Pool α

/-- `pool->areas[i]` -/
def areaAt (i : ℕ) : PoolM Area := do
  if i < maxAreasCount then return (← get).areas i else throw .bounds

/-- Store `pool->areas[i]`. -/
def setArea (i : ℕ) (a : Area) : PoolM Unit := do
  if i < maxAreasCount then
    modify fun p => { p with areas := Function.update p.areas i a }
  else throw .bounds

/-- `memmove(&areas[dst], &areas[src], count * sizeof(*areas))`: `memcpy_r` when the destination is
behind the source, `memcpy` when not. The bytes of an area move together. -/
def memmove (dst src : ℕ) (count : ℤ) : PoolM Unit := do
  if count < 0 ∨ maxAreasCount < max dst src + count.toNat then throw .bounds
  if src < dst then
    modify fun p => { p with areas := copyDown p.areas dst src count.toNat }
  else
    modify fun p => { p with areas := copyUp p.areas dst src count.toNat }

/-- `balloc_lower_bound` -/
def ballocLowerBound (pool : Pool) (addr : ℕ) : ℕ :=
  bisect (fun mid => decide ((pool.areas mid).stop < addr)) pool.size 0 pool.size

/-- `balloc_upper_bound` -/
def ballocUpperBound (pool : Pool) (addr : ℕ) : ℕ :=
  bisect (fun mid => !decide ((pool.areas mid).addr > addr)) pool.size 0 pool.size

/-- The range of `balloc_pool_insert` with the areas it touches, those from `first` to `last`. -/
def mergeAreas (first last addr stop : ℕ) : PoolM (ℕ × ℕ) := do
  if first = last then return (addr, stop)
  if last = 0 then throw .bounds
  let firstArea ← areaAt first
  let lastArea ← areaAt (last - 1)
  return (if firstArea.addr < addr then firstArea.addr else addr,
    if stop < lastArea.stop then lastArea.stop else stop)

/-- `balloc_pool_insert`. The number of areas stays positive, since `last` is at most `size`. -/
def ballocPoolInsert (addr size : ℕ) : PoolM Unit := do
  let pool ← get
  let first := ballocLowerBound pool addr
  let last := ballocUpperBound pool (add64 addr size)
  let (addr, stop) ← mergeAreas first last addr (add64 addr size)
  if first + 1 ≠ last then memmove (first + 1) last (pool.size - last)
  setArea first ⟨addr, sub64 stop addr⟩
  modify fun p => { p with size := p.size + first + 1 - last }

/-- `balloc_pool_delete` -/
def ballocPoolDelete (addr size : ℕ) : PoolM Unit := do
  let pool ← get
  let pos := ballocLowerBound pool addr
  let count : ℤ := pool.size - pos - 1
  let area ← areaAt pos
  if area.addr = addr ∧ area.size > size then
    setArea pos ⟨add64 area.addr size, sub64 area.size size⟩
  else if area.stop = add64 addr size ∧ area.size > size then
    setArea pos ⟨area.addr, sub64 area.size size⟩
  else if area.addr = addr ∧ area.size = size then
    memmove pos (pos + 1) count
    modify fun p => { p with size := p.size - 1 }
  else
    memmove (pos + 2) (pos + 1) count
    setArea (pos + 1) ⟨add64 addr size, sub64 area.stop (add64 addr size)⟩
    setArea pos ⟨area.addr, sub64 addr area.addr⟩
    modify fun p => { p with size := p.size + 1 }

/-- `ALIGN(x, align)`, for a power of two. -/
def align64 (x align : ℕ) : ℕ := add64 x (align - 1) / align * align

/-- The loop of `balloc_alloc_aligned_from_pool` over the areas from `i` to `last`. -/
def allocLoop (low high size align last : ℕ) : ℕ → ℕ → PoolM (Option ℕ)
  | 0, _ => throw .fuel
  | fuel + 1, i => do
    if i = last then return none
    let area ← areaAt i
    let start := if area.addr < low then low else area.addr
    let stop := if area.stop > high then high else area.stop
    let start := align64 start align
    if start ≥ stop ∨ sub64 stop start < size then allocLoop low high size align last fuel (i + 1)
    else do
      ballocPoolDelete start size
      return some start

/-- `balloc_alloc_aligned_from_pool`; no address stands for `-1`. -/
def ballocAllocAlignedFromPool (low high size align : ℕ) : PoolM (Option ℕ) := do
  let pool ← get
  allocLoop low high size align (ballocUpperBound pool high) (maxAreasCount + 1)
    (ballocLowerBound pool low)

/-! ### The two pools -/

/-- The pools `all` and `free`. -/
structure Pools where
  all : Pool
  free : Pool

/-- Code that runs on both pools. -/
abbrev BallocM (α : Type) : Type := Prog Pools α

/-- Code that runs on `all`. -/
def onAll {α : Type} (m : PoolM α) : BallocM α := fun s =>
  match m s.all with
  | .ok (a, p) => .ok (a, { s with all := p })
  | .error e => .error e

/-- Code that runs on `free`. -/
def onFree {α : Type} (m : PoolM α) : BallocM α := fun s =>
  match m s.free with
  | .ok (a, p) => .ok (a, { s with free := p })
  | .error e => .error e

/-- The pools at the start of the kernel. -/
def emptyPools : Pools := ⟨⟨fun _ => ⟨0, 0⟩, 0⟩, ⟨fun _ => ⟨0, 0⟩, 0⟩⟩

/-- `balloc_add_region` -/
def ballocAddRegion (addr size : ℕ) : BallocM Unit := do
  onAll (ballocPoolInsert addr size)
  onFree (ballocPoolInsert addr size)

/-- `balloc_reserve_region` -/
def ballocReserveRegion (addr size : ℕ) : BallocM Unit :=
  onFree (ballocPoolDelete addr size)

/-- `balloc_alloc_aligned` -/
def ballocAllocAligned (low high size align : ℕ) : BallocM (Option ℕ) := do
  if low ≥ high ∨ sub64 high low < size then return none
  onFree (ballocAllocAlignedFromPool low high size align)

/-- `balloc_free` -/
def ballocFree (addr size : ℕ) : BallocM Unit :=
  onFree (ballocPoolInsert addr size)

/-! ### The memory of the machine (`memory.c`) -/

/-- A `struct mmap_entry`; its type matters only as far as it is `MMAP_AVAILABLE`. -/
structure MmapEntry where
  addr : ℕ
  length : ℕ
  available : Bool
  deriving DecidableEq, Repr

/-- The loop of `setup_memory` that adds the entries. -/
def addEntries : List MmapEntry → BallocM Unit
  | [] => return
  | entry :: rest => do
    ballocAddRegion entry.addr entry.length
    addEntries rest

/-- The loop of `setup_memory` that reserves the entries that are not available. -/
def reserveEntries : List MmapEntry → BallocM Unit
  | [] => return
  | entry :: rest => do
    if ¬entry.available then ballocReserveRegion entry.addr entry.length
    reserveEntries rest

/-- `setup_memory`, for a memory map and the ranges of the kernel and of the initrd. -/
def setupMemory (memoryMap : List MmapEntry) (kernelBegin kernelEnd initrdBegin initrdEnd : ℕ) :
    BallocM Unit := do
  addEntries memoryMap
  ballocAddRegion kernelBegin (sub64 kernelEnd kernelBegin)
  ballocAddRegion initrdBegin (sub64 initrdEnd initrdBegin)
  reserveEntries memoryMap
  ballocReserveRegion kernelBegin (sub64 kernelEnd kernelBegin)
  ballocReserveRegion initrdBegin (sub64 initrdEnd initrdBegin)

end Balloc

end Kernel64
