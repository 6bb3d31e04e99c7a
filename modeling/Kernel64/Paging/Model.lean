import Kernel64.Headers
import Kernel64.Lib.Bytes
import Kernel64.Lib.Prog

/-!
# Page tables (`paging.c`, `paging.h`)

A page of physical memory is known by its frame number. Its contents are kept in two views, as a
table of 512 entries and as bytes: a page serves as one of the two at a time. An entry is a record
of the fields the code masks out of the 64-bit word; the word 0 is `Pte.zero`.

Tables are numbered by levels as in `struct pt_iter`: the table the processor starts from, called
`pml4` in the source, is at level 3, and the entries of a table at level 0 map pages. An entry of a
table at level `k` spans `512 ^ k` pages.

The functions that populate and release ranges align them to pages first and count bytes, always
a multiple of the page size; here they count pages.

What the allocator returns at each call is part of the state: a page and what the union in its
`struct page` holds, or nothing. It hands out pages that are free.
-/

namespace Kernel64

namespace Paging

/-- A page of physical memory. -/
abbrev Pfn : Type := ℕ

/-- `PT_SIZE` -/
def ptSize : ℕ := 512

/-- `PT_MAX_LEVEL` -/
def ptMaxLevel : ℕ := 3

/-! ### Entries -/

/-- A `pte_t`: the page it points to and its flags. -/
structure Pte where
  pfn : Pfn
  present : Bool
  write : Bool
  user : Bool
  large : Bool
  low : Bool
  deriving DecidableEq, Repr

/-- The entry with no bit set. -/
def Pte.zero : Pte := ⟨0, false, false, false, false, false⟩

/-- The flags that callers pass; `PTE_PRESENT` is added on the way. -/
structure PteFlags where
  write : Bool
  user : Bool
  large : Bool
  low : Bool
  deriving DecidableEq, Repr

/-- `PTE_PT_FLAGS` -/
def ptePtFlags : PteFlags := ⟨true, true, false, false⟩

/-- `page_paddr(page) | flags | PTE_PRESENT` -/
def pageEntry (page : Pfn) (flags : PteFlags) : Pte :=
  ⟨page, true, flags.write, flags.user, flags.large, flags.low⟩

/-- `pml1_i`, `pml2_i`, `pml3_i` and `pml4_i`, for the levels 0 to 3. -/
def pmlIndex (k vaddr : ℕ) : ℕ := vaddr / 2 ^ (12 + 9 * k) % 512

/-- `canonical` -/
def canonical (addr : ℕ) : ℕ :=
  if addr / 2 ^ 47 % 2 = 0 then addr else addr ||| (2 ^ 64 - 2 ^ 48)

/-- `linear` -/
def linear (addr : ℕ) : ℕ := addr % 2 ^ 48

/-! ### Iterating over slots -/

/-- A `struct pt_iter`. -/
structure PtIter where
  level : ℕ
  pt : ℕ → Option Pfn
  idx : ℕ → ℕ
  addr : ℕ

/-- `pt_iter_addr` -/
def ptIterAddr (idx : ℕ → ℕ) : ℕ :=
  canonical (idx 3 * 2 ^ 39 + idx 2 * 2 ^ 30 + idx 1 * 2 ^ 21 + idx 0 * 2 ^ 12)

/-- The loop `while (pte_present(pte) && level != 0 && !pte_large(pte))` of `pt_iter_set` and
`pt_iter_next`; `digit` gives the index at each level. -/
def ptDescend (table : Pfn → ℕ → Pte) (digit : ℕ → ℕ) : ℕ → Pte → PtIter → PtIter
  | 0, _, it => { it with level := 0 }
  | k + 1, pte, it =>
    if pte.present ∧ ¬pte.large then
      ptDescend table digit k (table pte.pfn (digit k))
        { it with
          idx := Function.update it.idx k (digit k)
          pt := Function.update it.pt k (some pte.pfn) }
    else { it with level := k + 1 }

/-- `pt_iter_set` -/
def ptIterSet (table : Pfn → ℕ → Pte) (pml4 : Pfn) (addr : ℕ) : PtIter :=
  let digit := fun k => pmlIndex k addr
  let it := ptDescend table digit ptMaxLevel (table pml4 (digit ptMaxLevel))
    { level := 0
      pt := Function.update (fun _ => none) ptMaxLevel (some pml4)
      idx := Function.update (fun _ => 0) ptMaxLevel (digit ptMaxLevel)
      addr := 0 }
  { it with addr := ptIterAddr it.idx }

/-- The loop of `pt_iter_next` that goes up while an index is the last of its table, for at most
`n` levels. -/
def ptClimb (idx : ℕ → ℕ) : ℕ → ℕ → ℕ
  | 0, level => level
  | n + 1, level => if idx level = ptSize - 1 then ptClimb idx n (level + 1) else level

/-- `pt_iter_next`. The table at the level reached is there, since the levels from `iter->level` up
have one. -/
def ptIterNext (table : Pfn → ℕ → Pte) (iter : PtIter) : Option PtIter :=
  let level := ptClimb iter.idx (ptMaxLevel - iter.level) iter.level
  if iter.idx level = ptSize - 1 then none
  else
    let idx := iter.idx level + 1
    let it := ptDescend table (fun _ => 0) level (table ((iter.pt level).getD 0) idx)
      { iter with idx := Function.update iter.idx level idx }
    let it := { it with
      pt := fun j => if j < it.level then none else it.pt j
      idx := fun j => if j < it.level then 0 else it.idx j }
    some { it with addr := ptIterAddr it.idx }

/-! ### Physical memory -/

/-- The pages of physical memory and their allocator. -/
structure Phys where
  /-- the union `u` of each `struct page` -/
  u : Pfn → BitVec 64
  /-- the contents of each page as a table -/
  table : Pfn → ℕ → Pte
  /-- the contents of each page as bytes -/
  bytes : Pfn → Buf
  /-- whether the allocator has the page -/
  free : Pfn → Bool
  /-- what the next calls of the allocator return, and the union of the page returned -/
  supply : ℕ → Option (Pfn × BitVec 64)

/-- Code that runs on physical memory. -/
abbrev PhysM (α : Type) : Type := Prog Phys α

/-- `DBG_ASSERT` -/
def dbgAssert {σ : Type} (c : Prop) [Decidable c] : Prog σ Unit :=
  if c then pure () else throw .assertion

/-- Store an entry of a table. -/
def setEntry (t : Pfn) (i : ℕ) (e : Pte) : PhysM Unit :=
  modify fun s => { s with table := Function.update s.table t (Function.update (s.table t) i e) }

/-- Store the union of a page. -/
def setU (p : Pfn) (w : BitVec 64) : PhysM Unit :=
  modify fun s => { s with u := Function.update s.u p w }

/-- `memset(page_addr(page), 0, PAGE_SIZE)` -/
def clearPage (p : Pfn) : PhysM Unit :=
  modify fun s => { s with
    table := Function.update s.table p (fun _ => .zero)
    bytes := Function.update s.bytes p (fun _ => 0) }

/-- `alloc_pages(0)`, and `__alloc_pages(0, type)`. -/
def allocPages : PhysM (Option Pfn) := do
  let s ← get
  set { s with supply := fun n => s.supply (n + 1) }
  match s.supply 0 with
  | none => return none
  | some (p, w) =>
    if s.free p then
      modify fun s => { s with free := Function.update s.free p false }
      setU p w
      return some p
    else return none

/-- `free_pages(page, 0)`. The allocator does not notice a page it already has; here that is a
fault, so that a run that returns has freed no page twice. -/
def freePages (p : Pfn) : PhysM Unit := do
  if (← get).free p then throw .doubleFree
  modify fun s => { s with free := Function.update s.free p true }

/-- `get_page` -/
def getPage (p : Pfn) : PhysM Unit := do
  setU p ((← get).u p + 1#64)

/-- `put_page` -/
def putPage (p : Pfn) : PhysM Unit := do
  setU p ((← get).u p - 1#64)
  if (← get).u p = 0#64 then freePages p

/-! ### Loops over slots -/

/-- The loop of `for_each_slot_in_range`; its body knows the number of the turn, and may leave the
loop with a value. -/
def slotLoop {α : Type} (body : ℕ → PtIter → PhysM (Option α)) (hi : ℕ) :
    ℕ → ℕ → Option PtIter → PhysM (Option α)
  | 0, _, _ => throw .fuel
  | _ + 1, _, none => return none
  | fuel + 1, i, some it => do
    if it.addr < hi then
      match ← body i it with
      | some a => return some a
      | none => slotLoop body hi fuel (i + 1) (ptIterNext (← get).table it)
    else return none

/-- `for_each_slot_in_range` -/
def forEachSlotInRange {α : Type} (fuel : ℕ) (pml4 : Pfn) (lo hi : ℕ)
    (body : ℕ → PtIter → PhysM (Option α)) : PhysM (Option α) := do
  slotLoop body hi fuel 0 (some (ptIterSet (← get).table pml4 lo))

/-! ### Populating and releasing ranges -/

/-- `alloc_page_table` -/
def allocPageTable (_flags : PteFlags) : PhysM (Option Pfn) := do
  match ← allocPages with
  | none => return none
  | some p => do
    clearPage p
    setU p 0#64
    return some p

/-- Take references of some pages from a table, and free it when it has none left. -/
def dropTable (parent : Pfn) (i : ℕ) (pt : Pfn) (pages : ℕ) : PhysM Unit := do
  setU pt ((← get).u pt - BitVec.ofNat 64 pages)
  if (← get).u pt = 0#64 then
    setEntry parent i .zero
    freePages pt

/-- The pages from `v` to the end of its entry or to `hi`, whichever comes first; an entry spans
`span` pages. -/
def chunk (span v hi : ℕ) : ℕ := min (span - v % span) (hi - v)

/-- The loop of `pt_release_pml2`, `pt_release_pml3` and `pt_release_pml4`; a table has `ptSize`
entries, so that there is no further turn after as many. -/
def releaseLoop (span : ℕ) (descends : Pte → Bool) (child : Pfn → ℕ → ℕ → PhysM Unit) (t : Pfn)
    (hi : ℕ) : ℕ → ℕ → ℕ → PhysM Unit
  | 0, _, _ => throw .fuel
  | n + 1, i, v => do
    if v = hi then return
    let pte := (← get).table t i
    let pages := chunk span v hi
    if descends pte then
      child pte.pfn v (v + pages)
      dropTable t i pte.pfn pages
    releaseLoop span descends child t hi n (i + 1) (v + pages)

/-- The index of the entry for page `v` in a table whose entries span `span` pages. -/
def entryIndex (span v : ℕ) : ℕ := v / span % ptSize

/-- Release the pages from `lo` to `hi` under a table whose entries span `span` pages. -/
def releaseTable (span : ℕ) (descends : Pte → Bool) (child : Pfn → ℕ → ℕ → PhysM Unit) (t : Pfn)
    (lo hi : ℕ) : PhysM Unit :=
  releaseLoop span descends child t hi (ptSize + 1) (entryIndex span lo) lo

/-- `pt_release_pml2` -/
def ptReleasePml2 : Pfn → ℕ → ℕ → PhysM Unit :=
  releaseTable 512 (fun e => e.present && !e.large) fun _ _ _ => pure ()

/-- `pt_release_pml3` -/
def ptReleasePml3 : Pfn → ℕ → ℕ → PhysM Unit :=
  releaseTable (512 ^ 2) (fun e => e.present) ptReleasePml2

/-- `pt_release_pml4` -/
def ptReleasePml4 : Pfn → ℕ → ℕ → PhysM Unit :=
  releaseTable (512 ^ 3) (fun e => e.present) ptReleasePml3

/-- The loop of `pt_populate_pml2`. -/
def populatePml2Loop (flags : PteFlags) (t : Pfn) (lo hi : ℕ) : ℕ → ℕ → ℕ → PhysM ℤ
  | 0, _, _ => throw .fuel
  | n + 1, i, v => do
    if v = hi then return 0
    let pages := chunk 512 v hi
    let pte := (← get).table t i
    if ¬pte.present ∧ ¬flags.large then
      match ← allocPageTable flags with
      | none =>
        ptReleasePml2 t lo v
        return -ENOMEM
      | some pt =>
        setU pt ((← get).u pt + BitVec.ofNat 64 pages)
        setEntry t i (pageEntry pt flags)
        populatePml2Loop flags t lo hi n (i + 1) (v + pages)
    else
      if pte.present ∧ ¬pte.large then
        setU pte.pfn ((← get).u pte.pfn + BitVec.ofNat 64 pages)
      populatePml2Loop flags t lo hi n (i + 1) (v + pages)

/-- `pt_populate_pml2` -/
def ptPopulatePml2 (flags : PteFlags) (t : Pfn) (lo hi : ℕ) : PhysM ℤ :=
  populatePml2Loop flags t lo hi (ptSize + 1) (entryIndex 512 lo) lo

/-- The table an entry of an upper table points to; one is allocated when there is none. -/
def ensureTable (flags : PteFlags) (t : Pfn) (i : ℕ) : PhysM (Option Pfn) := do
  let pte := (← get).table t i
  if pte.present then return some pte.pfn
  match ← allocPageTable flags with
  | none => return none
  | some pt =>
    setEntry t i (pageEntry pt { flags with large := false })
    return some pt

/-- The loop of `pt_populate_pml3` and `pt_populate_pml4`; they differ in the test that ends it. -/
def populateLoop (span : ℕ) (done : ℕ → ℕ → Bool) (child : Pfn → ℕ → ℕ → PhysM ℤ)
    (release : Pfn → ℕ → ℕ → PhysM Unit) (flags : PteFlags) (t : Pfn) (lo hi : ℕ) :
    ℕ → ℕ → ℕ → PhysM ℤ
  | 0, _, _ => throw .fuel
  | n + 1, i, v => do
    if done v hi then return 0
    let pages := chunk span v hi
    match ← ensureTable flags t i with
    | none =>
      release t lo v
      return -ENOMEM
    | some pt =>
      setU pt ((← get).u pt + BitVec.ofNat 64 pages)
      let rc ← child pt v (v + pages)
      if rc ≠ 0 then
        release t lo v
        dropTable t i pt pages
        return rc
      populateLoop span done child release flags t lo hi n (i + 1) (v + pages)

/-- `pt_populate_pml3` -/
def ptPopulatePml3 (flags : PteFlags) (t : Pfn) (lo hi : ℕ) : PhysM ℤ :=
  populateLoop (512 ^ 2) (fun v hi => v = hi) (ptPopulatePml2 flags) ptReleasePml3 flags t lo hi
    (ptSize + 1) (entryIndex (512 ^ 2) lo) lo

/-- `pt_populate_pml4` -/
def ptPopulatePml4 (flags : PteFlags) (t : Pfn) (lo hi : ℕ) : PhysM ℤ :=
  populateLoop (512 ^ 3) (fun v hi => hi ≤ v) (ptPopulatePml3 flags) ptReleasePml4 flags t lo hi
    (ptSize + 1) (entryIndex (512 ^ 3) lo) lo

/-- The page of `ALIGN_DOWN(linear(addr), PAGE_SIZE)`. -/
def pageDown (addr : ℕ) : ℕ := linear addr / pageSize

/-- The page of `ALIGN(linear(addr), PAGE_SIZE)`. -/
def pageUp (addr : ℕ) : ℕ := (linear addr + pageSize - 1) / pageSize

/-- `__pt_populate_range` -/
def ptPopulateRange (pml4 : Pfn) (lo hi : ℕ) (flags : PteFlags) : PhysM ℤ := do
  dbgAssert (linear lo < linear hi)
  ptPopulatePml4 flags pml4 (pageDown lo) (pageUp hi)

/-- `__pt_release_range` -/
def ptReleaseRange (pml4 : Pfn) (lo hi : ℕ) : PhysM Unit := do
  dbgAssert (linear lo < linear hi)
  ptReleasePml4 pml4 (pageDown lo) (pageUp hi)

end Paging

end Kernel64
