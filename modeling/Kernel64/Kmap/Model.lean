import Kernel64.Paging.Model

/-!
# Mapping pages into the kernel (`paging.c`)

`kmap` maps pages at consecutive addresses of an area of `KMAP_PAGES` pages. A range of the area is known by
the number of its first page; its length is kept at its first and at its last page, and the ranges that are
free are on lists by the logarithm of their length.

A list is the list of the ranges on it. `list_del` leaves the pointers of the entry as they are, so that
`list_empty` does not say whether an entry is on a list; it is kept on its own. The translations cached by
the processor are not modelled: the code flushes each address that it changes.
-/

namespace Kernel64

namespace Paging

/-- `KMAP_ORDERS` -/
def kmapOrders : ℕ := 16

/-- `KERNEL_BASE` -/
def kernelBase : ℕ := 0xffffffff80000000

/-- `KERNEL_SIZE` -/
def kernelSize : ℕ := 3 * 512 * 1024 * 1024

/-- `KMAP_SIZE` -/
def kmapSize : ℕ := 512 * 1024 * 1024 - 4096

/-- `KMAP_BASE` -/
def kmapBase : ℕ := kernelBase + kernelSize

/-- `KMAP_PAGES` -/
def kmapPages : ℕ := kmapSize / pageSize

/-- The ranges of the area, and the memory they are mapped in. -/
structure Kmap where
  /-- the field `pages` of `all_kmap_ranges` -/
  pages : ℕ → ℕ
  /-- whether `list_empty` holds of the field `link` of `all_kmap_ranges` -/
  empty : ℕ → Bool
  /-- `free_kmap_ranges` -/
  free : ℕ → List ℕ
  phys : Phys

/-- Code that runs on the area. -/
abbrev KmapM (α : Type) : Type := Prog Kmap α

/-- Code that runs on the memory. -/
def onMemory {α : Type} (m : PhysM α) : KmapM α := fun s =>
  (m s.phys).map fun r => (r.1, { s with phys := r.2 })

/-! ### Ranges -/

/-- `kmap_order` -/
def kmapOrder (pages : ℕ) : ℕ := min (Nat.log2 pages) (kmapOrders - 1)

/-- `virt2kmap` -/
def virt2kmap (vaddr : ℕ) : ℕ := (vaddr - kmapBase) / pageSize

/-- `kmap2virt` -/
def kmap2virt (range : ℕ) : ℕ := kmapBase + range * pageSize

/-- Load the field `pages` of a range. -/
def loadPages (range : ℕ) : KmapM ℕ := do
  if range < kmapPages then return (← get).pages range
  else throw .bounds

/-- Store the field `pages` of a range. -/
def storePages (range pages : ℕ) : KmapM Unit := do
  if range < kmapPages then modify fun s => { s with pages := Function.update s.pages range pages }
  else throw .bounds

/-- `list_empty`, of a range. -/
def linkEmpty (range : ℕ) : KmapM Bool := do
  if range < kmapPages then return (← get).empty range
  else throw .bounds

/-- `list_del`, of a range; one that is on no list still points to entries it was among. -/
def linkDel (range : ℕ) : KmapM Unit := do
  if ∃ order ∈ List.range kmapOrders, range ∈ (← get).free order then
    modify fun s => { s with free := fun order => (s.free order).erase range }
  else throw .dangling

/-- `list_init`, of a range. -/
def linkInit (range : ℕ) : KmapM Unit :=
  modify fun s => { s with empty := Function.update s.empty range true }

/-- `list_add`, of a range to the list of an order. -/
def linkAdd (range order : ℕ) : KmapM Unit :=
  modify fun s => { s with
    empty := Function.update s.empty range false
    free := Function.update s.free order (range :: s.free order) }

/-- `kmap_find_free_range` -/
def kmapFindFreeRange (order pages : ℕ) : KmapM (Option ℕ) := do
  let s ← get
  return (s.free order).find? fun range => pages ≤ s.pages range

/-- The part of `kmap_free_range` that joins a range with the one before. -/
def joinPrev (range pages : ℕ) : KmapM (ℕ × ℕ) := do
  if 0 < range then do
    let back ← loadPages (range - 1)
    if range < back then throw .bounds
    else do
      let prev := range - back
      if ← linkEmpty prev then return (range, pages)
      else do
        linkDel prev
        return (prev, pages + (← loadPages prev))
  else return (range, pages)

/-- The part of `kmap_free_range` that joins a range with the one after it. -/
def joinNext (range pages : ℕ) : KmapM ℕ := do
  if range + pages < kmapPages then do
    let next := range + pages
    if ← linkEmpty next then return pages
    else do
      linkDel next
      return pages + (← loadPages next)
  else return pages

/-- `kmap_free_range` -/
def kmapFreeRange (range pages : ℕ) : KmapM Unit := do
  let (range, pages) ← joinPrev range pages
  let pages ← joinNext range pages
  storePages range pages
  storePages (range + pages - 1) pages
  linkAdd range (kmapOrder pages)

/-- The loop of `kmap_alloc_range`, with the number of orders left. -/
def kmapAllocLoop (pages : ℕ) : ℕ → ℕ → KmapM (Option ℕ)
  | 0, _ => return none
  | n + 1, order => do
    match ← kmapFindFreeRange order pages with
    | none => kmapAllocLoop pages n (order + 1)
    | some range => do
      let rangePages ← loadPages range
      linkDel range
      linkInit range
      storePages range pages
      storePages (range + pages - 1) pages
      if pages < rangePages then kmapFreeRange (range + pages) (rangePages - pages)
      return some range

/-- `kmap_alloc_range` -/
def kmapAllocRange (pages : ℕ) : KmapM (Option ℕ) :=
  kmapAllocLoop pages (kmapOrders - kmapOrder pages) (kmapOrder pages)

/-! ### Windows -/

/-- Store the entry that an iterator stands at. -/
def setSlot (it : PtIter) (e : Pte) : PhysM Unit :=
  match it.pt it.level with
  | none => throw .null
  | some t => setEntry t (it.idx it.level) e

/-- `kmap`, with the tables of the processor. -/
def kmap (pml4 : Pfn) (pages : List Pfn) : KmapM (Option ℕ) := do
  match ← kmapAllocRange pages.length with
  | none => return none
  | some range => do
    let lo := kmap2virt range
    let hi := lo + pages.length * pageSize
    let _ ← onMemory (forEachSlotInRange (α := Unit) (pages.length + 1) pml4 lo hi fun i it =>
      match pages[i]? with
      | none => throw .bounds
      | some page => do
        setSlot it (pageEntry page ⟨true, false, false, false⟩)
        return none)
    return some lo

/-- `kunmap`, with the tables of the processor. -/
def kunmap (pml4 : Pfn) (vaddr : ℕ) : KmapM Unit := do
  let range := virt2kmap vaddr
  let count ← loadPages range
  let hi := vaddr + count * pageSize
  let _ ← onMemory (forEachSlotInRange (α := Unit) (count + 1) pml4 vaddr hi fun _ it => do
    setSlot it .zero
    return none)
  kmapFreeRange range (← loadPages range)

/-- `setup_kmap_mapping` -/
def setupKmapMapping (pml4 : Pfn) : KmapM ℤ := do
  modify fun s => { s with free := fun _ => [] }
  kmapFreeRange 0 kmapPages
  onMemory (ptPopulateRange pml4 kmapBase (kmapBase + kmapSize) ⟨true, false, false, true⟩)

end Paging

end Kernel64
