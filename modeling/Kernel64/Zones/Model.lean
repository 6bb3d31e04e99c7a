import Kernel64.Balloc.Model
import Kernel64.Buddy.Model
import Kernel64.Headers
import Kernel64.Lib.Ring

/-!
# The memory nodes (`memory.c`)

`setup_buddy` makes a memory node of every region of memory, two where a region crosses `LOWMEM_SIZE`, and
frees what the boot allocator has left. It links the nodes by their types into one circular list, which
`__alloc_pages` follows from the first node of a type on.

A page is known by the number of its node and its place in the node's array, a number of 64 bits. A store
through `va(-1)`, which is what `balloc_alloc_aligned` leads to when it fails, stops the run.
-/

namespace Kernel64

namespace Zones

open Balloc (Pool Pools PoolM BallocM add64 sub64 align64 maxAreasCount)

/-- `MAX_MEMORY_NODES` -/
def maxMemoryNodes : ℕ := 256

/-- `LOWMEM_SIZE` -/
def lowmemSize : ℕ := 4 * 1024 * 1024 * 1024

/-- `sizeof(struct page)` -/
def sizeofPage : ℕ := 32

/-- `enum node_type` -/
inductive NodeType
  | low
  | high
  deriving DecidableEq, Repr

/-- The entries and heads of the lists of nodes. -/
inductive Link
  /-- `node_order` -/
  | order
  /-- `type_nodes`, of a type -/
  | typeNodes (t : NodeType)
  /-- the field `link` of a node -/
  | node (i : ℕ)
  deriving DecidableEq, Repr

/-- A `struct memory_node` with its type. -/
structure ZoneNode extends MemoryNode where
  type : NodeType

/-- The nodes, and the pools of the boot allocator. -/
structure Memory where
  pools : Pools
  /-- the words of memory -/
  ram : ℕ → BitVec 64
  /-- `nodes` -/
  nodes : ℕ → ZoneNode
  /-- `memory_nodes` -/
  memoryNodes : ℕ
  links : Ring Link
  /-- `node_type` -/
  nodeType : NodeType → Link

/-- Code that runs on the nodes. -/
abbrev ZoneM (α : Type) : Type := Prog Memory α

/-- Code that runs on the pools. -/
def onPools {α : Type} (c : BallocM α) : ZoneM α := fun m =>
  (c m.pools).map fun r => (r.1, { m with pools := r.2 })

/-- Store a node. -/
def Memory.setNode (m : Memory) (i : ℕ) (n : MemoryNode) : Memory :=
  { m with nodes := Function.update m.nodes i { m.nodes i with toMemoryNode := n } }

/-! ### Nodes -/

/-- `pfn_node`; a node is known by its number. -/
def pfnNode (m : Memory) (pfn : ℕ) : Option ℕ :=
  (List.range m.memoryNodes).find? fun i => !decide ((m.nodes i).endPfn ≤ pfn)

/-- `__memory_node_add`. The union of a page is the last of the four words of its structure. -/
def addMemoryNode (type : NodeType) (begin stop : ℕ) : ZoneM Unit := do
  let id := (← get).memoryNodes
  if maxMemoryNodes ≤ id then throw .bounds
  else do
    let pages := sub64 stop begin / pageSize
    let pfn := begin / pageSize
    match ← onPools (Balloc.ballocAllocAligned pageSize lowmemSize (sizeofPage * pages % 2 ^ 64) pageSize) with
    | none => throw .bounds
    | some mmap => modify fun m => { m with
        nodes := Function.update m.nodes id
          { MemoryNode.memoryNodeAdd id pfn (pfn + pages) fun i => m.ram (mmap + sizeofPage * i + 24) with
            type := type }
        memoryNodes := id + 1
        links := m.links.init (.node id) }

/-- The first page frame of a region, as an address. -/
def regionBegin (addr : ℕ) : ℕ := align64 addr pageSize

/-- The end of the page frames of a region, as an address. -/
def regionEnd (addr size : ℕ) : ℕ := min (add64 addr size / pageSize * pageSize) maxPhysSize

/-- `memory_node_add` -/
def memoryNodeAdd (addr size : ℕ) : ZoneM Unit := do
  let begin := regionBegin addr
  let stop := regionEnd addr size
  if begin ≥ stop then return
  else if begin < lowmemSize ∧ stop > lowmemSize then do
    addMemoryNode .low begin lowmemSize
    addMemoryNode .high lowmemSize stop
  else addMemoryNode (if stop ≤ lowmemSize then .low else .high) begin stop

/-- `__memory_free_region`. Pages outside of the node have no structures. -/
def freeRegion (begin stop : ℕ) : ZoneM Unit := do
  let m ← get
  let b := begin / pageSize
  let e := stop / pageSize
  match pfnNode m b with
  | none => throw .null
  | some i => do
    if b < (m.nodes i).beginPfn ∨ (m.nodes i).endPfn < e then throw .bounds
    else set (m.setNode i (MemoryNode.memoryFreeRegion b e (m.nodes i).toMemoryNode))

/-- `memory_free_region` -/
def memoryFreeRegion (addr size : ℕ) : ZoneM Unit := do
  let begin := regionBegin addr
  let stop := regionEnd addr size
  if begin ≥ stop then return
  else if begin < lowmemSize ∧ stop > lowmemSize then do
    freeRegion begin lowmemSize
    freeRegion lowmemSize stop
  else freeRegion begin stop

/-- The loop of `balloc_iterate`, from the area `i` on. -/
def iterateFrom (pool : Memory → Pool) (exec : ℕ → ℕ → ZoneM Unit) : ℕ → ℕ → ZoneM Unit
  | 0, _ => throw .fuel
  | fuel + 1, i => do
    let p := pool (← get)
    if i = p.size then return
    else do
      exec (p.areas i).addr (p.areas i).size
      iterateFrom pool exec fuel (i + 1)

/-- `balloc_iterate` -/
def ballocIterate (pool : Memory → Pool) (exec : ℕ → ℕ → ZoneM Unit) : ZoneM Unit :=
  iterateFrom pool exec (maxAreasCount + 1) 0

/-! ### The order of the nodes -/

/-- The loop of `setup_buddy` over the nodes, which adds each one to the list of its type. -/
def addLinks (m : Memory) : Memory :=
  { m with
    links := (List.range m.memoryNodes).foldl (fun r i => r.addTail (.node i) (.typeNodes (m.nodes i).type))
      m.links }

/-- One turn of the loop of `setup_buddy` over the types, which puts a list in front of `node_order`. -/
def spliceType (m : Memory) (t : NodeType) : Memory :=
  let links := m.links.splice (.typeNodes t) .order
  { m with links := links, nodeType := Function.update m.nodeType t (links.next .order) }

/-- The rest of `setup_buddy`, after the regions. -/
def linkNodes (m : Memory) : Memory :=
  let m := { m with links := (m.links.init (.typeNodes .low)).init (.typeNodes .high) }
  let m := addLinks m
  spliceType (spliceType m .low) .high

/-- `setup_buddy` -/
def setupBuddy : ZoneM Unit := do
  ballocIterate (fun m => m.pools.all) memoryNodeAdd
  ballocIterate (fun m => m.pools.free) memoryFreeRegion
  modify linkNodes

/-! ### Pages -/

/-- `pfn2page` -/
def pfn2page (m : Memory) (pfn : ℕ) : Option (ℕ × ℕ) :=
  match pfnNode m pfn with
  | none => none
  | some i => some (i, sub64 pfn (m.nodes i).beginPfn)

/-- `page_node_id` -/
def pageNodeId (p : Page) : ℕ := (p.flags &&& 0xff#64).toNat

/-- `page2pfn`, of a page in the array of a node. Its place in the array of another node is not known. -/
def page2pfn (m : Memory) (page : ℕ × ℕ) : Option ℕ :=
  if page.1 < m.memoryNodes ∧ page.2 < (m.nodes page.1).nodePfns then
    let id := pageNodeId ((m.nodes page.1).mmap page.2)
    if id = page.1 then some ((m.nodes id).beginPfn + page.2) else none
  else none

/-- The loop of `__alloc_pages`. -/
def allocLoop (order : ℕ) : ℕ → Link → ZoneM (Option (ℕ × ℕ))
  | 0, _ => throw .fuel
  | fuel + 1, ptr => do
    match ptr with
    | .order => return none
    | .typeNodes _ => throw .dangling
    | .node i => do
      let m ← get
      let r := MemoryNode.allocPagesNode order (m.nodes i).toMemoryNode
      set (m.setNode i r.2)
      match r.1 with
      | some pfn => return some (i, pfn)
      | none => allocLoop order fuel (m.links.next ptr)

/-- `__alloc_pages` -/
def allocPagesType (order : ℕ) (type : NodeType) : ZoneM (Option (ℕ × ℕ)) := do
  allocLoop order (maxMemoryNodes + 1) ((← get).nodeType type)

/-- `alloc_pages` -/
def allocPages (order : ℕ) : ZoneM (Option (ℕ × ℕ)) := allocPagesType order .high

/-- `free_pages` -/
def freePages (pages : Option (ℕ × ℕ)) (order : ℕ) : ZoneM Unit :=
  match pages with
  | none => return
  | some (i, pfn) => do
    let m ← get
    if pageNodeId ((m.nodes i).mmap pfn) = i then
      set (m.setNode i (MemoryNode.freePagesNode (some pfn) order (m.nodes i).toMemoryNode))
    else throw .bounds

end Zones

end Kernel64
