import Mathlib.Data.BitVec
import Kernel64.Lib.Dyadic

/-!
# The buddy allocator of `memory.c`

A `MemoryNode` is a `struct memory_node` with the `struct page` array its `mmap` points to.
Pages are named by their node-relative pfn, the index into that array, so `node_pfn` and
`node_page` are the identity here; pfns stay far below `2 ^ 64` and are naturals. The circular
lists of `list.h` are lists of pfns, first entry first: `list_add` puts an entry in front, and
`list_del` takes the entry out of whichever list its link is on.

The node's lock is taken with interrupts off for the whole of a call, so calls are atomic.
-/

namespace Kernel64

/-- `BUDDY_ORDERS` -/
def buddyOrders : ℕ := 12

/-- `PAGE_BUSY_MASK`, the bit above the `PAGE_NODE_BITS` of the node number. -/
def pageBusyMask : BitVec 64 := 1#64 <<< 8

/-- A `struct page`. The union `u` is one word: `u.refcount` and `u.slab` are all of it,
`u.order` its low half. The `link` is kept as membership in the node's lists. -/
structure Page where
  flags : BitVec 64
  u : BitVec 64
  deriving DecidableEq

namespace Page

/-- `page_busy` -/
def busy (p : Page) : Bool :=
  p.flags &&& pageBusyMask != 0#64

/-- `page_set_busy` -/
def setBusy (p : Page) : Page :=
  { p with flags := p.flags ||| pageBusyMask }

/-- `page_set_free` -/
def setFree (p : Page) : Page :=
  { p with flags := p.flags &&& ~~~pageBusyMask }

/-- `page_get_order` -/
def getOrder (p : Page) : ℤ :=
  (p.u.setWidth 32).toInt

/-- `page_set_order`: a store of an `int` into the union leaves its upper half as it is. -/
def setOrder (p : Page) (order : ℕ) : Page :=
  { p with u := (p.u &&& ~~~0xffffffff#64) ||| (BitVec.ofNat 32 order).setWidth 64 }

end Page

/-- A `struct memory_node`. -/
structure MemoryNode where
  /-- `begin_pfn`, the first page frame of the node -/
  beginPfn : ℕ
  /-- `end_pfn`, the page frame after the last one of the node -/
  endPfn : ℕ
  /-- `mmap`, by node-relative pfn -/
  mmap : ℕ → Page
  /-- `free_list`, by order -/
  freeList : ℕ → List ℕ

namespace MemoryNode

/-- The number of pages of the node. -/
def nodePfns (n : MemoryNode) : ℕ :=
  n.endPfn - n.beginPfn

/-- Rewrite one page structure. -/
def modifyPage (n : MemoryNode) (pfn : ℕ) (f : Page → Page) : MemoryNode :=
  { n with mmap := Function.update n.mmap pfn (f (n.mmap pfn)) }

/-- `list_add(&page->link, &node->free_list[order])` -/
def listAdd (n : MemoryNode) (pfn order : ℕ) : MemoryNode :=
  { n with freeList := Function.update n.freeList order (pfn :: n.freeList order) }

/-- `list_del(&page->link)` -/
def listDel (n : MemoryNode) (pfn : ℕ) : MemoryNode :=
  { n with freeList := fun k => (n.freeList k).erase pfn }

/-- The loop of `__alloc_pages_node` that looks for the first non-empty list from `order` on. -/
def findOrder (n : MemoryNode) (order : ℕ) : Option ℕ :=
  (List.range' order (buddyOrders - order)).find? fun coorder => !(n.freeList coorder).isEmpty

/-- The loop of `__alloc_pages_node` that halves the block at `pfn` from `coorder` down to
`order`, freeing the buddies. -/
def splitLoop (order pfn : ℕ) : ℕ → MemoryNode → MemoryNode
  | 0, n => n
  | coorder + 1, n =>
    if order < coorder + 1 then
      let bpfn := buddyOf pfn coorder
      let n := n.modifyPage bpfn fun buddy => (buddy.setOrder coorder).setFree
      splitLoop order pfn coorder (n.listAdd bpfn coorder)
    else n

/-- `__alloc_pages_node`, `alloc_pages_node` -/
def allocPagesNode (order : ℕ) (n : MemoryNode) : Option ℕ × MemoryNode :=
  match n.findOrder order with
  | none => (none, n)
  | some coorder =>
    match n.freeList coorder with
    | [] => (none, n)
    | pfn :: _ =>
      let n := (n.listDel pfn).modifyPage pfn Page.setBusy
      (some pfn, splitLoop order pfn coorder n)

/-- The loop of `__free_pages_node` that joins the block with its free buddies. `m` counts
the orders left below `BUDDY_ORDERS - 1`; the result is the block that is finally freed. -/
def mergeLoop (pfn order : ℕ) : ℕ → MemoryNode → Block × MemoryNode
  | 0, n => (⟨pfn, order⟩, n)
  | m + 1, n =>
    let bpfn := buddyOf pfn order
    if bpfn ≥ n.nodePfns then (⟨pfn, order⟩, n)
    else if bpfn + 2 ^ order > n.nodePfns then (⟨pfn, order⟩, n)
    else if (n.mmap bpfn).busy then (⟨pfn, order⟩, n)
    else if (order : ℤ) ≠ (n.mmap bpfn).getOrder then (⟨pfn, order⟩, n)
    else
      mergeLoop (if bpfn < pfn then bpfn else pfn) (order + 1) m (n.listDel bpfn)

/-- `__free_pages_node` -/
def freePagesNode' (pfn order : ℕ) (n : MemoryNode) : MemoryNode :=
  let (b, n) := mergeLoop pfn order (buddyOrders - 1 - order) n
  (n.modifyPage b.start fun pages => (pages.setOrder b.order).setFree).listAdd b.start b.order

/-- `free_pages_node`: a null page is ignored. -/
def freePagesNode (pages : Option ℕ) (order : ℕ) (n : MemoryNode) : MemoryNode :=
  match pages with
  | none => n
  | some pfn => freePagesNode' pfn order n

/-- `__memory_node_add`: every page structure starts out busy, on no list, with whatever the
boot allocator's memory held in its union. -/
def memoryNodeAdd (id beginPfn endPfn : ℕ) (garbage : ℕ → BitVec 64) : MemoryNode where
  beginPfn := beginPfn
  endPfn := endPfn
  mmap := fun pfn => Page.setBusy ⟨BitVec.ofNat 64 id, garbage pfn⟩
  freeList := fun _ => []

/-- `pfn_max_order` -/
def pfnMaxOrder (pfn : ℕ) : ℕ :=
  ((List.range (buddyOrders - 1)).find? fun i => pfn.testBit i).getD (buddyOrders - 1)

/-- The loop `while (order && pfn + (1 << order) > pages) --order;` of `__memory_free_region`. The
sum is compared with the number of pages of the region, not with its end. -/
def regionOrder (pfn pages : ℕ) : ℕ → ℕ
  | 0 => 0
  | order + 1 => if pfn + 2 ^ (order + 1) > pages then regionOrder pfn pages order else order + 1

/-- The loop of `__memory_free_region`. Each turn frees a page at least, so that there are no more
turns than pages. -/
def freeRegionLoop (pages stop : ℕ) : ℕ → ℕ → MemoryNode → MemoryNode
  | 0, _, n => n
  | turns + 1, pfn, n =>
    if pfn = stop then n
    else
      let order := regionOrder pfn pages (pfnMaxOrder pfn)
      freeRegionLoop pages stop turns (pfn + 2 ^ order) (freePagesNode (some pfn) order n)

/-- `__memory_free_region`, for the page frames from `b` to `e`, in the node they are in. -/
def memoryFreeRegion (b e : ℕ) (n : MemoryNode) : MemoryNode :=
  let pages := e - b
  let nodePfn := b - n.beginPfn
  freeRegionLoop pages (nodePfn + pages) pages nodePfn n

end MemoryNode

end Kernel64
