import Kernel64.Paging.Model
import Kernel64.RbTree.Search

/-!
# Address spaces (`mm.c`)

An address space is a set of memory areas, kept in a search tree by their addresses, and a page
table. The state holds all address spaces, physical memory, and what the allocators of the
structures return at their next calls: an address that is not in use, or nothing.

The areas of one address space are kept apart from those of the others, as every `struct vma`
belongs to one of them. Addresses are numbers below `2 ^ 64`.
-/

namespace Kernel64

namespace Mm

open Paging

/-- `TASK_SIZE` -/
def taskSize : ℕ := 2 ^ 47

/-- An `enum vma_access`. -/
inductive Access where
  | read
  | write
  deriving DecidableEq, Repr

/-- A `struct vma`, without its tree node. Its `fault` is always `anon_page_fault`. -/
structure Vma where
  begin : ℕ
  stop : ℕ
  perm : ℕ
  mm : ℕ
  deriving DecidableEq, Repr

/-- `vma->perm & VMA_PERM_WRITE` -/
def Vma.writable (vma : Vma) : Prop := vma.perm % 2 = 1

instance (vma : Vma) : Decidable vma.writable := inferInstanceAs (Decidable (_ = _))

/-- A `struct mm`, with the areas linked in its tree. -/
structure Space where
  /-- `vma`, and the tree nodes of the areas -/
  vma : RbState
  /-- the areas in memory -/
  area : Ptr → Vma
  /-- `pt` -/
  pt : Pfn

/-- The address spaces, physical memory, and the allocators of the structures. -/
structure World where
  phys : Phys
  mm : ℕ → Space
  /-- whether a `struct vma` is allocated -/
  vmaUsed : Ptr → Bool
  /-- what the next calls of `kmem_cache_alloc(vma_cachep)` return -/
  vmaSupply : ℕ → Option Ptr
  /-- whether a `struct mm` is allocated -/
  mmUsed : ℕ → Bool
  /-- what the next calls of `kmem_cache_alloc(mm_cachep)` return -/
  mmSupply : ℕ → Option ℕ
  /-- the page of `load_pml4()` -/
  pml4 : Pfn
  /-- `zero_page` -/
  zeroPage : Pfn

/-- Code that runs on the whole state. -/
abbrev MmM (α : Type) : Type := Prog World α

/-- Code that runs on physical memory. -/
def onPhys {α : Type} (m : PhysM α) : MmM α := fun w =>
  match m w.phys with
  | .ok (a, s) => .ok (a, { w with phys := s })
  | .error e => .error e

/-- Code that runs on the tree of an address space. -/
def onVmas {α : Type} (m : ℕ) (c : Rb.RbM α) : MmM α := fun w =>
  match c (w.mm m).vma with
  | .ok (a, b) => .ok (a, { w with mm := Function.update w.mm m { w.mm m with vma := b } })
  | .error e => .error e

/-- Store an area. -/
def setArea (m : ℕ) (p : Ptr) (v : Vma) : MmM Unit :=
  modify fun w => { w with
    mm := Function.update w.mm m { w.mm m with area := Function.update (w.mm m).area p v } }

/-- `ALIGN_DOWN_CONST(x, PAGE_SIZE)` -/
def alignDown (x : ℕ) : ℕ := x / pageSize * pageSize

/-- `ALIGN_CONST(x, PAGE_SIZE)`, where the sum may wrap around. -/
def alignUp (x : ℕ) : ℕ := (x + pageSize - 1) % 2 ^ 64 / pageSize * pageSize

theorem alignUp_eq {x : ℕ} (h : x ≤ taskSize) : alignUp x = alignTo x pageSize := by
  unfold taskSize at h
  rw [alignUp, alignTo, Nat.mod_eq_of_lt]
  rw [pageSize]
  omega

/-! ### Structures -/

/-- `alloc_vma` -/
def allocVma : MmM (Option Ptr) := do
  let w ← get
  set { w with vmaSupply := fun n => w.vmaSupply (n + 1) }
  match w.vmaSupply 0 with
  | none => return none
  | some p =>
    if p ≠ 0#64 ∧ p &&& 1#64 = 0#64 ∧ w.vmaUsed p = false then
      modify fun w => { w with vmaUsed := Function.update w.vmaUsed p true }
      return some p
    else return none

/-- `free_vma` -/
def freeVma (p : Ptr) : MmM Unit :=
  modify fun w => { w with vmaUsed := Function.update w.vmaUsed p false }

/-- `alloc_mm` -/
def allocMm : MmM (Option ℕ) := do
  let w ← get
  set { w with mmSupply := fun n => w.mmSupply (n + 1) }
  match w.mmSupply 0 with
  | none => return none
  | some m =>
    if w.mmUsed m = false then
      modify fun w => { w with mmUsed := Function.update w.mmUsed m true }
      return some m
    else return none

/-- `free_mm` -/
def freeMm (m : ℕ) : MmM Unit :=
  modify fun w => { w with mmUsed := Function.update w.mmUsed m false }

/-! ### Pages -/

/-- `copy_page` -/
def copyPage (page : Pfn) : PhysM (Option Pfn) := do
  if (← get).u page = 1#64 then return some page
  match ← allocPages with
  | none => return none
  | some new => do
    modify fun s => { s with
      table := Function.update s.table new (s.table page)
      bytes := Function.update s.bytes new (s.bytes page) }
    return some new

/-- The assertions at the start of the loops over slots, and the table and index of the slot. -/
def leafSlot (it : PtIter) : PhysM (Pfn × ℕ) := do
  dbgAssert (it.level = 0)
  match it.pt it.level with
  | none => throw .assertion
  | some t => return (t, it.idx it.level)

/-- `mapped_page` -/
def mappedPage (fuel : ℕ) (pt : Pfn) (addr : ℕ) : PhysM (Option Pfn) :=
  forEachSlotInRange fuel pt addr ((addr + pageSize) % 2 ^ 64) fun _ it => do
    let (t, i) ← leafSlot it
    let pte := (← get).table t i
    return if pte.present then some pte.pfn else none

/-- `__mmap_pages` -/
def mmapPages (fuel : ℕ) (pt : Pfn) (addr : ℕ) (pages : List Pfn) (flags : PteFlags) :
    PhysM Unit := do
  dbgAssert (addr % pageSize = 0)
  let _ ← forEachSlotInRange (α := Unit) fuel pt addr
    ((addr + pages.length * pageSize) % 2 ^ 64) fun n it => do
      let (t, i) ← leafSlot it
      match pages[n]? with
      | none => throw .null
      | some page => do
        getPage page
        setEntry t i (pageEntry page flags)
        return none

/-- `__munmap_pages` -/
def munmapPages (fuel : ℕ) (pt : Pfn) (addr count : ℕ) : PhysM Unit := do
  dbgAssert (addr % pageSize = 0)
  let _ ← forEachSlotInRange (α := Unit) fuel pt addr
    ((addr + count * pageSize) % 2 ^ 64) fun _ it => do
      let (t, i) ← leafSlot it
      let pte := (← get).table t i
      setEntry t i .zero
      if pte.present then putPage pte.pfn
      return none

/-! ### Areas -/

/-- Where the search for a range goes at an area. -/
def toVma (s : Space) (begin stop : ℕ) (p : Ptr) : Option Side :=
  if begin ≥ (s.area p).stop then some .right
  else if stop ≤ (s.area p).begin then some .left
  else none

/-- `__lookup_vma` -/
def lookupVma (fuel m begin stop : ℕ) : MmM Rb.Found := do
  onVmas m (Rb.searchTree (toVma ((← get).mm m) begin stop) fuel)

/-- `insert_vma`. Nothing of the tree is in the way of the areas it is called for. -/
def insertVma (fuel m : ℕ) (p : Ptr) : MmM Unit := do
  let v := ((← get).mm m).area p
  match ← lookupVma fuel m v.begin v.stop with
  | .hit _ => throw .assertion
  | .missing parent plink => onVmas m (do Rb.rbLink p parent plink; Rb.rbInsert fuel p)

/-- `__mmap` -/
def mmap (fuel m begin stop perm : ℕ) : MmM ℤ := do
  let begin := alignDown begin
  let stop := alignUp stop
  match ← lookupVma fuel m begin stop with
  | .hit _ => return -EBUSY
  | .missing parent plink => do
    let pt := ((← get).mm m).pt
    let rc ← onPhys (ptPopulateRange pt begin stop ptePtFlags)
    if rc ≠ 0 then return rc
    match ← allocVma with
    | none => do
      onPhys (ptReleaseRange pt begin stop)
      return -ENOMEM
    | some p => do
      setArea m p ⟨begin, stop, perm, m⟩
      onVmas m (do Rb.rbLink p parent plink; Rb.rbInsert fuel p)
      return 0

/-- The loop `while (!high) high = alloc_vma();`. -/
def allocVmaLoop : ℕ → MmM Ptr
  | 0 => throw .fuel
  | fuel + 1 => do
    match ← allocVma with
    | some p => return p
    | none => allocVmaLoop fuel

/-- What `__munmap` does with an area that meets its range. The tree node copied with the rest of
the area is overwritten by `insert_vma`. -/
def cutVma (fuel m begin stop : ℕ) (p : Ptr) : MmM Unit := do
  let v := ((← get).mm m).area p
  if v.begin ≥ begin then
    if v.stop ≤ stop then
      onVmas m (Rb.rbErase fuel p)
      freeVma p
    else setArea m p { v with begin := stop }
  else
    if v.stop ≤ stop then setArea m p { v with stop := begin }
    else do
      let high ← allocVmaLoop fuel
      setArea m high { v with begin := stop }
      setArea m p { v with stop := begin }
      insertVma fuel m high

/-- The loop of `__munmap`. -/
def munmapLoop (fuel m begin stop : ℕ) : ℕ → MmM Unit
  | 0 => throw .fuel
  | n + 1 => do
    match ← lookupVma fuel m begin stop with
    | .missing _ _ => return
    | .hit p => do
      cutVma fuel m begin stop p
      munmapLoop fuel m begin stop n

/-- `__munmap` -/
def munmap (fuel m begin stop : ℕ) : MmM Unit := do
  let pt := ((← get).mm m).pt
  onPhys (munmapPages fuel pt begin ((stop + 2 ^ 64 - begin) % 2 ^ 64 / pageSize))
  onPhys (ptReleaseRange pt begin stop)
  munmapLoop fuel m begin stop fuel

/-! ### Page faults -/

/-- `anon_page_fault`; the TLB is flushed after each change. -/
def anonPageFault (fuel m : ℕ) (vma : Vma) (vaddr : ℕ) (access : Access) : MmM ℤ := do
  if access = .write ∧ ¬vma.writable then return -EINVAL
  let w ← get
  let pt := (w.mm m).pt
  if access = .read then
    onPhys (mmapPages fuel pt vaddr [w.zeroPage] ⟨false, true, false, false⟩)
    return 0
  match ← onPhys (mappedPage fuel pt vaddr) with
  | some old => do
    match ← onPhys (copyPage old) with
    | none => return -ENOMEM
    | some new => do
      onPhys (mmapPages fuel pt vaddr [new] ⟨true, true, false, false⟩)
      onPhys (putPage old)
      return 0
  | none => do
    match ← onPhys allocPages with
    | none => return -ENOMEM
    | some page => do
      onPhys (clearPage page)
      onPhys (setU page 0#64)
      onPhys (mmapPages fuel pt vaddr [page] ⟨true, true, false, false⟩)
      return 0

/-- `mm_page_fault`, in a thread with an address space. -/
def mmPageFault (fuel m vaddr : ℕ) (access : Access) : MmM ℤ := do
  let vaddr := alignDown vaddr
  match ← lookupVma fuel m vaddr (vaddr + 1) with
  | .missing _ _ => return -EINVAL
  | .hit p => do anonPageFault fuel m (((← get).mm m).area p) vaddr access

/-! ### Whole address spaces -/

/-- `create_mm` -/
def createMm : MmM (Option ℕ) := do
  match ← allocMm with
  | none => return none
  | some m => do
    match ← onPhys allocPages with
    | none => do
      freeMm m
      return none
    | some pt => do
      onPhys (clearPage pt)
      let w ← get
      -- the upper half of the table is that of the kernel
      onPhys (modify fun s => { s with
        table := Function.update s.table pt fun i =>
          if i < 256 then s.table pt i else s.table w.pml4 i })
      modify fun w => { w with
        mm := Function.update w.mm m { vma := ⟨(w.mm m).vma.node, 0#64⟩
                                       area := (w.mm m).area
                                       pt := pt } }
      return some m

/-- `copy_vma` -/
def copyVma (fuel dst : ℕ) (vma : Vma) : MmM ℤ := do
  if (← mmap fuel dst vma.begin vma.stop vma.perm) ≠ 0 then return -ENOMEM
  let w ← get
  let _ ← onPhys (forEachSlotInRange (α := Unit) fuel (w.mm vma.mm).pt vma.begin vma.stop
    fun _ it => do
      let (t, i) ← leafSlot it
      let pte := (← get).table t i
      if pte.present then
        if pte.write then setEntry t i { pte with write := false }
        mmapPages fuel (w.mm dst).pt it.addr [pte.pfn] ⟨false, true, false, false⟩
      return none)
  return 0

/-- The loop of `copy_mm`. -/
def copyMmLoop (fuel dst src : ℕ) : ℕ → Ptr → MmM ℤ
  | 0, _ => throw .fuel
  | n + 1, ptr => do
    if ptr = 0#64 then return 0
    let rc ← copyVma fuel dst (((← get).mm src).area ptr)
    if rc ≠ 0 then return rc
    copyMmLoop fuel dst src n (← onVmas src (Rb.rbNext fuel ptr))

/-- `copy_mm` -/
def copyMm (fuel dst src : ℕ) : MmM ℤ := do
  copyMmLoop fuel dst src fuel (← onVmas src (do Rb.rbLeftmost fuel (← Rb.root)))

/-- The loop of `unmap_all_vma`. -/
def unmapAllLoop (fuel m : ℕ) : ℕ → Ptr → MmM Unit
  | 0, _ => throw .fuel
  | n + 1, ptr => do
    if ptr = 0#64 then return
    let v := ((← get).mm m).area ptr
    let next ← onVmas m (Rb.rbNext fuel ptr)
    munmap fuel m v.begin v.stop
    unmapAllLoop fuel m n next

/-- `unmap_all_vma` -/
def unmapAllVma (fuel m : ℕ) : MmM Unit := do
  unmapAllLoop fuel m fuel (← onVmas m (do Rb.rbLeftmost fuel (← Rb.root)))

/-- `release_mm` -/
def releaseMm (fuel m : ℕ) : MmM Unit := do
  unmapAllVma fuel m
  onPhys (freePages ((← get).mm m).pt)
  freeMm m

end Mm

end Kernel64
