import Kernel64.Buddy.Model
import Kernel64.Headers
import Kernel64.Lib.Prog

/-!
# The slab allocator of `kmem_cache.c`

The state of one cache and of the memory it manages. Addresses are virtual, in the linear map at
`HIGH_BASE`. The structures a slab consists of are kept by address: the slab headers, the border
tags of a small slab (one word inside the slab's pages, behind each object), the tags of a large
slab (outside of them). As in `memory.c`, circular lists are lists and the lock makes a call
atomic. The results of the allocators a call relies on, the page allocator and the two caches for
the structures of a large slab, are the `KmemEnv` of the call.

A slab header that is handed out by another allocator holds whatever was there: the `free` and
`busy` chains of a new large slab end in garbage, not in a null pointer.
-/

namespace Kernel64

/-- `VA(pfn << PAGE_BITS)` -/
def pageAddr (pfn : ℕ) : ℕ :=
  pfn * pageSize + highBase

/-- `PA(ptr) >> PAGE_BITS` -/
def addrPfn (ptr : ℕ) : ℕ :=
  (ptr - highBase) / pageSize

/-- Which operations the `ops` of a cache and its slabs point to. -/
inductive KmemKind
  | small
  | large
  deriving DecidableEq

/-- A `struct kmem_cache`, with the `padded_size` of a `struct kmem_small_cache`. -/
structure KmemCache where
  /-- `ops` -/
  kind : KmemKind
  /-- `object_size` -/
  objectSize : ℕ
  /-- `order` -/
  order : ℕ
  /-- `padded_size` -/
  paddedSize : ℕ

/-- A `struct kmem_slab` with what a small and a large slab add to it. -/
structure KmemSlab where
  /-- `pages`, by pfn -/
  pages : ℕ
  free : ℕ
  total : ℕ
  /-- `free_list` of a `struct kmem_small_slab` -/
  freeList : ℕ
  /-- `free` of a `struct kmem_large_slab` -/
  freeTag : ℕ
  /-- `busy` of a `struct kmem_large_slab` -/
  busyTag : ℕ

/-- A `struct kmem_tag`. -/
structure KmemTag where
  next : ℕ
  ptr : ℕ

/-- The memory of the slabs of one cache, and the cache's lists. -/
structure KmemState where
  /-- slab headers, by address -/
  slab : ℕ → KmemSlab
  /-- `next` of a `struct kmem_border_tag`, by address -/
  border : ℕ → ℕ
  /-- tags, by address -/
  tag : ℕ → KmemTag
  /-- `u.slab` of the page structures, by pfn -/
  pageSlab : ℕ → ℕ
  /-- `free_list`, `part_list`, `full_list` of the cache -/
  freeList : List ℕ
  partList : List ℕ
  fullList : List ℕ
  /-- the blocks given back to the page allocator, latest first -/
  freed : List ℕ
  /-- the structures given back to `slab_cache` and `tag_cache`, latest first -/
  returned : List ℕ
  /-- the slab an object was last taken from; never read -/
  origin : ℕ → ℕ

/-- The results of the allocations made during a call. -/
structure KmemEnv where
  /-- `alloc_pages(cache->order)` -/
  pages : Option ℕ
  /-- `kmem_cache_alloc(cache->slab_cache)` -/
  slab : Option ℕ
  /-- `kmem_cache_alloc(cache->tag_cache)`, call by call -/
  tag : ℕ → Option ℕ

/-- Code that runs on the state of a cache. -/
abbrev KmemM (α : Type) : Type := Prog KmemState α

namespace Kmem

/-! ### Caches -/

/-- `kmem_small_cache_init` -/
def smallCacheInit (size align : ℕ) : KmemCache :=
  let sz := 8
  let al := 8
  let size := alignTo size al
  let align := max align al
  ⟨.small, size, 0, alignTo (size + sz) align⟩

/-- The loop of `kmem_large_cache_init` that looks for the first order with room for eight
objects. -/
def largeCacheOrder (objectSize : ℕ) : ℕ :=
  ((List.range buddyOrders).find? fun order =>
    decide (pageSize * 2 ^ order / objectSize ≥ 8)).getD buddyOrders

/-- `kmem_large_cache_init` -/
def largeCacheInit (size align : ℕ) : KmemCache :=
  let objectSize := alignTo size align
  ⟨.large, objectSize, largeCacheOrder objectSize, 0⟩

/-- `kmem_cache_create` -/
def cacheCreate (size align : ℕ) : KmemCache :=
  if size ≤ pageSize / 8 then smallCacheInit size align else largeCacheInit size align

/-- `sizeof(struct kmem_small_slab)` -/
def smallSlabSize : ℕ := 64

/-- The number of bytes of a slab. -/
def slabBytes (c : KmemCache) : ℕ :=
  pageSize * 2 ^ c.order

/-! ### Memory accesses -/

/-- Rewrite the header of a slab. -/
def modifySlab (a : ℕ) (f : KmemSlab → KmemSlab) : KmemM Unit :=
  modify fun s => { s with slab := Function.update s.slab a (f (s.slab a)) }

/-- `tag->next` of a border tag -/
def borderNext (t : ℕ) : KmemM ℕ := do
  if t = 0 then throw .null
  return (← get).border t

/-- Load a tag. -/
def loadTag (t : ℕ) : KmemM KmemTag := do
  if t = 0 then throw .null
  return (← get).tag t

/-- Store a tag. -/
def storeTag (t : ℕ) (v : KmemTag) : KmemM Unit :=
  modify fun s => { s with tag := Function.update s.tag t v }

/-! ### Small slabs -/

/-- `kmem_small_slab_alloc` -/
def smallSlabAlloc (c : KmemCache) (a : ℕ) : KmemM ℕ := do
  let tag := ((← get).slab a).freeList
  let next ← borderNext tag
  modifySlab a fun slab => { slab with freeList := next }
  return tag - c.objectSize

/-- `kmem_small_slab_free` -/
def smallSlabFree (c : KmemCache) (a ptr : ℕ) : KmemM Unit := do
  let tag := ptr + c.objectSize
  modify fun s => { s with border := Function.update s.border tag (s.slab a).freeList }
  modifySlab a fun slab => { slab with freeList := tag }

/-- The loop of `kmem_small_slab_create`. -/
def smallCreateLoop (c : KmemCache) (a : ℕ) : ℕ → ℕ → KmemM Unit
  | 0, _ => throw .fuel
  | fuel + 1, ptr => do
    if ptr + c.paddedSize ≤ a then
      smallSlabFree c a ptr
      modifySlab a fun slab => { slab with total := slab.total + 1, free := slab.free + 1 }
      smallCreateLoop c a fuel (ptr + c.paddedSize)

/-- `kmem_small_slab_create` -/
def smallSlabCreate (c : KmemCache) (page : ℕ) : KmemM (Option ℕ) := do
  let off := slabBytes c - smallSlabSize
  let vaddr := pageAddr page
  let a := vaddr + off
  modifySlab a fun slab => { slab with total := 0, free := 0, freeList := 0 }
  smallCreateLoop c a (off + 1) vaddr
  return some a

/-! ### Large slabs -/

/-- `kmem_large_slab_alloc` -/
def largeSlabAlloc (a : ℕ) : KmemM ℕ := do
  let t := ((← get).slab a).freeTag
  let tag ← loadTag t
  modifySlab a fun slab => { slab with freeTag := tag.next }
  storeTag t { tag with next := ((← get).slab a).busyTag }
  modifySlab a fun slab => { slab with busyTag := t }
  return tag.ptr

/-- `kmem_large_slab_free` -/
def largeSlabFree (a ptr : ℕ) : KmemM Unit := do
  let t := ((← get).slab a).busyTag
  let tag ← loadTag t
  modifySlab a fun slab => { slab with busyTag := tag.next }
  storeTag t ⟨((← get).slab a).freeTag, ptr⟩
  modifySlab a fun slab => { slab with freeTag := t }

/-- `kmem_large_slab_release` -/
def largeSlabRelease (a : ℕ) : ℕ → KmemM Unit
  | 0 => throw .fuel
  | fuel + 1 => do
    let t := ((← get).slab a).freeTag
    if t = 0 then modify fun s => { s with returned := a :: s.returned }
    else
      let tag ← loadTag t
      modifySlab a fun slab => { slab with freeTag := tag.next }
      modify fun s => { s with returned := t :: s.returned }
      largeSlabRelease a fuel

/-- The loop of `kmem_large_slab_create`; `m` counts the objects left. -/
def largeCreateLoop (fuel : ℕ) (c : KmemCache) (env : KmemEnv) (a : ℕ) :
    ℕ → ℕ → ℕ → KmemM (Option ℕ)
  | 0, _, _ => return some a
  | m + 1, i, ptr =>
    match env.tag i with
    | none => do
      largeSlabRelease a fuel
      return none
    | some t => do
      storeTag t ⟨((← get).slab a).freeTag, ptr⟩
      modifySlab a fun slab => { slab with freeTag := t }
      largeCreateLoop fuel c env a m (i + 1) (ptr + c.objectSize)

/-- `kmem_large_slab_create` -/
def largeSlabCreate (fuel : ℕ) (c : KmemCache) (env : KmemEnv) (page : ℕ) : KmemM (Option ℕ) :=
  match env.slab with
  | none => return none
  | some a => do
    let count := slabBytes c / c.objectSize
    modifySlab a fun slab => { slab with total := count, free := count }
    largeCreateLoop fuel c env a count 0 (pageAddr page)

/-! ### Caches and their lists -/

/-- `slab->ops->alloc` -/
def slabAlloc (c : KmemCache) (a : ℕ) : KmemM ℕ := do
  let ptr ← match c.kind with
    | .small => smallSlabAlloc c a
    | .large => largeSlabAlloc a
  modify fun s => { s with origin := Function.update s.origin ptr a }
  return ptr

/-- `slab->ops->free` -/
def slabFree (c : KmemCache) (a ptr : ℕ) : KmemM Unit :=
  match c.kind with
  | .small => smallSlabFree c a ptr
  | .large => largeSlabFree a ptr

/-- `cache->ops->create` -/
def slabCreate (fuel : ℕ) (c : KmemCache) (env : KmemEnv) (page : ℕ) : KmemM (Option ℕ) :=
  match c.kind with
  | .small => smallSlabCreate c page
  | .large => largeSlabCreate fuel c env page

/-- `list_del(&slab->link)` -/
def listDel (a : ℕ) : KmemM Unit :=
  modify fun s => { s with
    freeList := s.freeList.erase a
    partList := s.partList.erase a
    fullList := s.fullList.erase a }

/-- The loop of `kmem_cache_grow` over the pages of the block. -/
def setPageSlab (pages : ℕ) (a : ℕ) : ℕ → KmemM Unit
  | 0 => return
  | m + 1 => do
    setPageSlab pages a m
    modify fun s => { s with pageSlab := Function.update s.pageSlab (pages + m) a }

/-- `kmem_cache_grow` -/
def cacheGrow (fuel : ℕ) (c : KmemCache) (env : KmemEnv) : KmemM Bool :=
  match env.pages with
  | none => return false
  | some pages => do
    match ← slabCreate fuel c env pages with
    | none =>
      modify fun s => { s with freed := pages :: s.freed }
      return false
    | some a =>
      setPageSlab pages a (2 ^ c.order)
      modifySlab a fun slab => { slab with pages := pages }
      modify fun s => { s with freeList := a :: s.freeList }
      return true

/-- The part of `kmem_cache_alloc` that takes an object from a partly used slab. -/
def allocPart (c : KmemCache) (a : ℕ) : KmemM (Option ℕ) := do
  let ptr ← slabAlloc c a
  modifySlab a fun slab => { slab with free := slab.free - 1 }
  if ((← get).slab a).free = 0 then
    listDel a
    modify fun s => { s with fullList := a :: s.fullList }
  return some ptr

/-- The part of `kmem_cache_alloc` that takes an object from an unused slab. -/
def allocFree (c : KmemCache) (a : ℕ) : KmemM (Option ℕ) := do
  let ptr ← slabAlloc c a
  modifySlab a fun slab => { slab with free := slab.free - 1 }
  listDel a
  modify fun s => { s with partList := a :: s.partList }
  return some ptr

/-- `kmem_cache_grow` where `kmem_cache_alloc` calls it: only when there is no unused slab. -/
def growIfEmpty (fuel : ℕ) (c : KmemCache) (env : KmemEnv) : KmemM Bool := do
  match (← get).freeList with
  | [] => cacheGrow fuel c env
  | _ :: _ => return true

/-- `kmem_cache_alloc` -/
def cacheAlloc (fuel : ℕ) (c : KmemCache) (env : KmemEnv) : KmemM (Option ℕ) := do
  match (← get).partList with
  | a :: _ => allocPart c a
  | [] =>
    if ← growIfEmpty fuel c env then
      match (← get).freeList with
      | a :: _ => allocFree c a
      | [] => throw .null
    else return none

/-- `kmem_get_slab` -/
def getSlab (ptr : ℕ) : KmemM ℕ := do
  return (← get).pageSlab (addrPfn ptr)

/-- The part of `kmem_cache_free` that moves the slab to the list it now belongs to. -/
def relistFreed (a : ℕ) : KmemM Unit := do
  let slab := (← get).slab a
  if slab.free = slab.total then
    listDel a
    modify fun s => { s with freeList := a :: s.freeList }
  else if slab.free = 1 then
    listDel a
    modify fun s => { s with partList := a :: s.partList }

/-- `kmem_cache_free` -/
def cacheFree (c : KmemCache) (ptr : ℕ) : KmemM Unit := do
  let a ← getSlab ptr
  slabFree c a ptr
  modifySlab a fun slab => { slab with free := slab.free + 1 }
  relistFreed a

/-- `cache->ops->destroy`, null for a small cache -/
def slabDestroy (fuel : ℕ) (c : KmemCache) (a : ℕ) : KmemM Unit :=
  match c.kind with
  | .small => return
  | .large => largeSlabRelease a fuel

/-- The loop of `kmem_cache_reap` over the slabs it took off the free list. -/
def reapLoop (fuel : ℕ) (c : KmemCache) : List ℕ → KmemM Unit
  | [] => return
  | a :: l => do
    let pages := ((← get).slab a).pages
    slabDestroy fuel c a
    modify fun s => { s with freed := pages :: s.freed }
    reapLoop fuel c l

/-- `kmem_cache_reap` -/
def cacheReap (fuel : ℕ) (c : KmemCache) : KmemM Unit := do
  let l := (← get).freeList
  modify fun s => { s with freeList := [] }
  reapLoop fuel c l

end Kmem

end Kernel64
