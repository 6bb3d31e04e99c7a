import Kernel64.Headers
import Kernel64.Lib.Prog
import Mathlib.Data.Int.Notation
import Mathlib.Data.List.Basic

/-!
# Paths, entries and nodes (`vfs.c`, `ramfs.c`)

A path is looked up component by component. Each component that was found has an `fs_entry`, which keeps
the entry of its directory alive and is cached there by its name, and which points to the node of the
file or directory. The entries and the nodes count the references on them.

The search trees of the children are given by what a search in them finds, and strings by the list of
their characters. The contents of the files are in `Kernel64.Ramfs.Files`; here a node is only named,
pointed to and released. The calls are made one after the other.
-/

namespace Kernel64

namespace Vfs

/-- A `struct fs_entry`, by its address. -/
abbrev Eid : Type := ℕ

/-- A `struct fs_node`, by its address. -/
abbrev Nid : Type := ℕ

abbrev Name : Type := List Char

/-- `fs_root_entry` -/
def rootEntry : Eid := 0

/-- `fs_root_node` -/
def rootNode : Nid := 0

/-- The operations of a node: `fs_root_node_ops`, `ramfs_dir_node_ops` or `ramfs_file_node_ops`. -/
inductive Kind where
  | root
  | dir
  | file
  deriving DecidableEq

/-- A `struct fs_entry`. -/
structure Entry where
  parent : Eid
  node : Option Nid
  name : Name
  cached : Bool
  refcount : ℤ
  /-- how many parents are above the entry; the code does not keep it -/
  depth : ℕ

/-- The state of the file systems. -/
structure Fs where
  entry : Eid → Entry
  /-- the entries given out by the slab cache, and `fs_root_entry` -/
  live : Eid → Bool
  /-- what a search in the tree `children` of an entry finds -/
  cache : Eid → Name → Option Eid
  kind : Nid → Kind
  nodeRefs : Nid → ℤ
  /-- the entries of a directory of `ramfs` -/
  names : Nid → List (Name × Nid)
  /-- the nodes given out by the slab cache -/
  nodeLive : Nid → Bool
  /-- how many nodes were given out; the code does not keep it -/
  nodeCount : ℕ
  /-- `fs_mounts`: the names, and the roots -/
  mounts : List (Name × Nid)
  /-- what the next calls of `kmem_cache_alloc(fs_entry_cache)` return -/
  entrySupply : ℕ → Option Eid
  /-- what the next calls of `kmem_cache_alloc(ramfs_node_cache)` return -/
  nodeSupply : ℕ → Option Nid
  /-- whether the next calls of `kmem_cache_alloc(ramfs_entry_cache)` succeed -/
  nameSupply : ℕ → Bool
  /-- whether the next calls of `kmem_alloc` for a mount succeed -/
  mountSupply : ℕ → Bool
  /-- how many allocations have failed; the code does not keep it -/
  failures : ℕ

/-- Code that runs on the file systems. -/
abbrev FsM (α : Type) : Type := Prog Fs α

namespace Fs

/-- Set an entry. -/
def setEntry (s : Fs) (e : Eid) (v : Entry) : Fs := { s with entry := Function.update s.entry e v }

/-- Set what a search for a child finds. -/
def setCache (s : Fs) (d : Eid) (x : Name) (r : Option Eid) : Fs :=
  { s with cache := Function.update s.cache d (Function.update (s.cache d) x r) }

/-- Add to the reference count of an entry. -/
def addRefs (s : Fs) (e : Eid) (k : ℤ) : Fs :=
  s.setEntry e { s.entry e with refcount := (s.entry e).refcount + k }

/-- Add to the reference count of a node. -/
def addNodeRefs (s : Fs) (n : Nid) (k : ℤ) : Fs :=
  { s with nodeRefs := Function.update s.nodeRefs n (s.nodeRefs n + k) }

/-- What the `lookup` of a node finds: among the mounts, or in a directory. -/
def find (s : Fs) (n : Nid) (x : Name) : Option Nid :=
  match s.kind n with
  | .root => s.mounts.lookup x
  | .dir => (s.names n).lookup x
  | .file => none

end Fs

/-- An allocation has failed. -/
def noMemory : FsM Unit := modify fun s => { s with failures := s.failures + 1 }

/-! ### Nodes -/

/-- `vfs_node_put`. A directory that is released puts the nodes it names. -/
def vfsNodePutFrom : ℕ → Nid → FsM Unit
  | 0, _ => throw .fuel
  | fuel + 1, n => do
    modify fun s => s.addNodeRefs n (-1)
    let s ← get
    if s.nodeRefs n = 0 then
      match s.kind n with
      | .root => throw .null
      | .file => modify fun s => { s with nodeLive := Function.update s.nodeLive n false }
      | .dir => do
        (s.names n).forM fun x => vfsNodePutFrom fuel x.2
        modify fun s => { s with nodeLive := Function.update s.nodeLive n false }

@[inherit_doc vfsNodePutFrom]
def vfsNodePut (n : Nid) : FsM Unit := do vfsNodePutFrom ((← get).nodeCount + 1) n

/-- `vfs_node_get` -/
def vfsNodeGet (n : Nid) : FsM Unit := modify fun s => s.addNodeRefs n 1

/-- The node of an entry, for code that uses it. -/
def nodeOf (e : Eid) : FsM Nid := do
  match ((← get).entry e).node with
  | none => throw .null
  | some n => return n

/-! ### Entries -/

/-- `vfs_entry_create` -/
def vfsEntryCreate (name : Name) : FsM (Option Eid) := do
  let s ← get
  set { s with entrySupply := fun i => s.entrySupply (i + 1) }
  match s.entrySupply 0 with
  | none => do
    noMemory
    return none
  | some e =>
    if s.live e = false then do
      modify fun s => { s.setEntry e ⟨rootEntry, none, name, false, 1, 0⟩ with
        live := Function.update s.live e true
        cache := Function.update s.cache e fun _ => none }
      return some e
    else do
      noMemory
      return none

/-- `vfs_entry_get` -/
def vfsEntryGet (e : Eid) : FsM Unit := modify fun s => s.addRefs e 1

/-- `__vfs_entry_detach` -/
def vfsEntryDetach (e dir : Eid) : FsM Unit := do
  let s ← get
  if (s.entry e).cached then
    set ((s.setCache dir (s.entry e).name none).setEntry e { s.entry e with cached := false })

/-- `vfs_entry_put` -/
def vfsEntryPutFrom : ℕ → Eid → FsM Unit
  | 0, _ => throw .fuel
  | fuel + 1, e => do
    modify fun s => s.addRefs e (-1)
    let s ← get
    if (s.entry e).refcount = 0 then do
      vfsEntryDetach e (s.entry e).parent
      vfsEntryPutFrom fuel (s.entry e).parent
      match (s.entry e).node with
      | none => pure ()
      | some n => vfsNodePut n
      modify fun s => { s with live := Function.update s.live e false }

@[inherit_doc vfsEntryPutFrom]
def vfsEntryPut (e : Eid) : FsM Unit := do vfsEntryPutFrom (((← get).entry e).depth + 1) e

/-- `vfs_root_lookup` and `ramfs_lookup`, for a node that has a `lookup`. -/
def opsLookup (n : Nid) (e : Eid) : FsM ℤ := do
  let s ← get
  match s.find n (s.entry e).name with
  | none => return -ENOENT
  | some m => do
    set (s.setEntry e { s.entry e with node := some m })
    vfsNodeGet m
    return 0

/-- The entry `e` is put among the children of `dir`. -/
def linkEntry (dir e : Eid) : FsM Unit := do
  modify fun s => s.setCache dir (s.entry e).name (some e)
  vfsEntryGet dir
  modify fun s => s.setEntry e
    { s.entry e with parent := dir, cached := true, depth := (s.entry dir).depth + 1 }

/-- `vfs_lookup`, with the entry and `*rc`. -/
def vfsLookup (dir : Eid) (name : Name) (create : Bool) : FsM (Option Eid × ℤ) := do
  let n ← nodeOf dir
  let s ← get
  if s.kind n = .file then return (none, -ENOTSUP)
  else match s.cache dir name with
    | some e => do
      vfsEntryGet e
      return (some e, 0)
    | none => do
      match ← vfsEntryCreate name with
      | none => return (none, -ENOMEM)
      | some e => do
        linkEntry dir e
        let rc ← opsLookup n e
        if rc ≠ 0 ∧ create = false then do
          vfsEntryPut e
          return (none, rc)
        else return (some e, rc)

/-! ### Paths -/

/-- A `struct vfs_walk_data`. -/
structure Walk where
  entry : Eid
  next : Name
  tail : List Char

/-- `vfs_path_skip_sep` -/
def vfsPathSkipSep (path : List Char) : List Char := path.dropWhile (· = '/')

/-- `vfs_path_next_entry`, into a buffer of `MAX_PATH_LEN` characters. -/
def vfsPathNextEntry (full : List Char) : FsM (Name × List Char) :=
  let next := full.takeWhile (· ≠ '/')
  if next.length < maxPathLen then return (next, vfsPathSkipSep (full.dropWhile (· ≠ '/')))
  else throw .bounds

/-- `vfs_walk_start` -/
def vfsWalkStart (path : List Char) : FsM Walk := do
  vfsEntryGet rootEntry
  let (next, tail) ← vfsPathNextEntry (vfsPathSkipSep path)
  return ⟨rootEntry, next, tail⟩

/-- `vfs_walk` -/
def vfsWalk (w : Walk) : FsM (ℤ × Walk) := do
  if w.next = [] then return (-ENOENT, w)
  else if w.next = ['.'] then do
    let (next, tail) ← vfsPathNextEntry w.tail
    return (0, ⟨w.entry, next, tail⟩)
  else if w.next = ['.', '.'] then do
    let parent := ((← get).entry w.entry).parent
    vfsEntryGet parent
    vfsEntryPut w.entry
    let (next, tail) ← vfsPathNextEntry w.tail
    return (0, ⟨parent, next, tail⟩)
  else do
    let _ ← nodeOf w.entry
    match ← vfsLookup w.entry w.next false with
    | (none, rc) => return (rc, w)
    | (some e, _) => do
      vfsEntryPut w.entry
      let (next, tail) ← vfsPathNextEntry w.tail
      return (0, ⟨e, next, tail⟩)

/-- The loops of `vfs_walk_parent` and `vfs_walk_all`, up to a place where `stop` holds. -/
def vfsWalkUntil (stop : Walk → Bool) : ℕ → Walk → FsM (ℤ × Walk)
  | 0, _ => throw .fuel
  | fuel + 1, w => do
    if stop w then return (0, w)
    else do
      let (rc, w') ← vfsWalk w
      if rc ≠ 0 then return (rc, w')
      else vfsWalkUntil stop fuel w'

/-- `vfs_walk_parent` -/
def vfsWalkParent (w : Walk) : FsM (ℤ × Walk) := vfsWalkUntil (·.tail = []) (w.tail.length + 1) w

/-- `vfs_walk_all` -/
def vfsWalkAll (w : Walk) : FsM (ℤ × Walk) := vfsWalkUntil (·.next = []) (w.tail.length + 2) w

/-- `vfs_walk_stop` -/
def vfsWalkStop (w : Walk) : FsM Unit := vfsEntryPut w.entry

/-- `vfs_resolve_path`, with the entry and `*rc`. -/
def vfsResolvePath (path : List Char) : FsM (Option Eid × ℤ) := do
  let w ← vfsWalkStart path
  let (rc, w) ← vfsWalkAll w
  if rc ≠ 0 then do
    vfsWalkStop w
    return (none, rc)
  else do
    vfsEntryGet w.entry
    vfsWalkStop w
    return (some w.entry, 0)

/-! ### The operations of `ramfs` -/

/-- `ramfs_node_create` -/
def ramfsNodeCreate (kind : Kind) : FsM (Option Nid) := do
  let s ← get
  set { s with nodeSupply := fun i => s.nodeSupply (i + 1) }
  match s.nodeSupply 0 with
  | none => do
    noMemory
    return none
  | some n =>
    if s.nodeLive n = false ∧ n ≠ rootNode then do
      modify fun s => { s with
        kind := Function.update s.kind n kind
        nodeRefs := Function.update s.nodeRefs n 1
        names := Function.update s.names n []
        nodeLive := Function.update s.nodeLive n true
        nodeCount := s.nodeCount + 1 }
      vfsNodeGet n
      return some n
    else do
      noMemory
      return none

/-- `kmem_cache_alloc(ramfs_entry_cache)` -/
def ramfsEntryAlloc : FsM Bool := do
  let s ← get
  set { s with nameSupply := fun i => s.nameSupply (i + 1) }
  if s.nameSupply 0 then return true
  else do
    noMemory
    return false

/-- `ramfs_entry_link` -/
def ramfsEntryLink (dir : Nid) (name : Name) (n : Nid) : FsM Unit :=
  modify fun s => { s.addNodeRefs dir 1 with
    names := Function.update s.names dir ((name, n) :: s.names dir) }

/-- Point an entry to a node that was just named. -/
def pointTo (e : Eid) (n : Nid) : FsM Unit := do
  modify fun s => s.setEntry e { s.entry e with node := some n }
  vfsNodeGet n

/-- `ramfs_create_ops` -/
def ramfsCreateOps (dir : Nid) (e : Eid) (kind : Kind) : FsM ℤ := do
  let s ← get
  let name := (s.entry e).name
  if ((s.names dir).lookup name).isSome then return -EEXIST
  else match ← ramfsNodeCreate kind with
    | none => return -ENOMEM
    | some n => do
      if ← ramfsEntryAlloc then do
        ramfsEntryLink dir name n
        pointTo e n
        return 0
      else do
        vfsNodePut n
        return -ENOMEM

/-- `ramfs_link` -/
def ramfsLink (src : Eid) (dir : Nid) (dst : Eid) : FsM ℤ := do
  let n ← nodeOf src
  let s ← get
  let name := (s.entry dst).name
  if s.kind n ≠ .file then return -ENOTSUP
  else if s.kind dir ≠ .dir then return -ENOTSUP
  else if ((s.names dir).lookup name).isSome then return -EEXIST
  else do
    vfsNodeGet n
    if ← ramfsEntryAlloc then do
      ramfsEntryLink dir name n
      pointTo dst n
      return 0
    else do
      vfsNodePut n
      return -ENOMEM

/-- `ramfs_entry_unlink` -/
def ramfsEntryUnlink (dir : Nid) (e : Eid) : FsM ℤ := do
  let s ← get
  let name := (s.entry e).name
  match (s.names dir).lookup name with
  | none => return -ENOENT
  | some n => do
    set { s with names := Function.update s.names dir ((s.names dir).filter fun x => x.1 ≠ name) }
    vfsNodePut n
    vfsEntryDetach e (s.entry e).parent
    return 0

/-- `ramfs_unlink` -/
def ramfsUnlink (dir : Nid) (e : Eid) : FsM ℤ := do
  let s ← get
  if s.kind dir ≠ .dir then return -ENOTSUP
  else match (s.entry e).node with
    | none => return -EINVAL
    | some n =>
      if s.kind n ≠ .file then return -ENOTSUP
      else ramfsEntryUnlink dir e

/-- `ramfs_rmdir` -/
def ramfsRmdir (dir : Nid) (e : Eid) : FsM ℤ := do
  if (← get).kind dir ≠ .dir then return -ENOTSUP
  else ramfsEntryUnlink dir e

/-! ### Calls -/

/-- `vfs_file_open`, with the entry of the file. -/
def vfsFileOpen (name : List Char) (create : Bool) : FsM (ℤ × Option Eid) := do
  let w ← vfsWalkStart name
  let (rc, w) ← vfsWalkParent w
  if rc ≠ 0 then do
    vfsWalkStop w
    return (rc, none)
  else do
    let dir ← nodeOf w.entry
    if (← get).kind dir = .file then do
      vfsWalkStop w
      return (-ENOTSUP, none)
    else do
      let (entry, rc) ← vfsLookup w.entry w.next create
      let rc ← match entry with
        | none => pure rc
        | some e => do
          let s ← get
          if create ∧ (s.entry e).node = none then
            if s.kind dir = .root then pure (-ENOTSUP)
            else ramfsCreateOps dir e .file
          else pure rc
      vfsWalkStop w
      if rc ≠ 0 then return (rc, none)
      else match entry with
        | none => throw .null
        | some e => do
          let _ ← nodeOf e
          return (0, some e)

/-- `vfs_create` -/
def vfsCreate (name : List Char) : FsM (ℤ × Option Eid) := vfsFileOpen name true

/-- `vfs_open` -/
def vfsOpen (name : List Char) : FsM (ℤ × Option Eid) := vfsFileOpen name false

/-- `vfs_release`, for a file with the entry `e`. -/
def vfsRelease (e : Eid) : FsM Unit := vfsEntryPut e

/-- `vfs_link` -/
def vfsLink (oldname newname : List Char) : FsM ℤ := do
  match ← vfsResolvePath oldname with
  | (none, rc) => return rc
  | (some old, _) => do
    let w ← vfsWalkStart newname
    let (rc, w) ← vfsWalkParent w
    if rc ≠ 0 then do
      vfsWalkStop w
      vfsEntryPut old
      return rc
    else do
      let dir ← nodeOf w.entry
      if (← get).kind dir ≠ .dir then do
        vfsWalkStop w
        vfsEntryPut old
        return -ENOTSUP
      else match ← vfsLookup w.entry w.next true with
        | (none, rc) => do
          vfsWalkStop w
          vfsEntryPut old
          return rc
        | (some e, _) => do
          let rc ← if ((← get).entry e).node.isSome then pure (-EEXIST) else ramfsLink old dir e
          vfsWalkStop w
          vfsEntryPut old
          vfsEntryPut e
          return rc

/-- `vfs_unlink` and `vfs_rmdir`, which differ in the operation of the directory. -/
def vfsRemove (op : Nid → Eid → FsM ℤ) (name : List Char) : FsM ℤ := do
  match ← vfsResolvePath name with
  | (none, rc) => return rc
  | (some e, _) => do
    let dir ← nodeOf ((← get).entry e).parent
    if (← get).kind dir ≠ .dir then do
      vfsEntryPut e
      return -ENOTSUP
    else do
      let rc ← op dir e
      vfsEntryPut e
      return rc

/-- `vfs_unlink` -/
def vfsUnlink (name : List Char) : FsM ℤ := vfsRemove ramfsUnlink name

/-- `vfs_rmdir` -/
def vfsRmdir (name : List Char) : FsM ℤ := vfsRemove ramfsRmdir name

/-- `vfs_mkdir` -/
def vfsMkdir (name : List Char) : FsM ℤ := do
  let w ← vfsWalkStart name
  let (rc, w) ← vfsWalkParent w
  if rc ≠ 0 then do
    vfsWalkStop w
    return rc
  else do
    let dir ← nodeOf w.entry
    if (← get).kind dir ≠ .dir then do
      vfsWalkStop w
      return -ENOTSUP
    else match ← vfsLookup w.entry w.next true with
      | (none, rc) => do
        vfsWalkStop w
        return rc
      | (some e, _) => do
        let rc ← if ((← get).entry e).node.isSome then pure (-EEXIST) else ramfsCreateOps dir e .dir
        vfsWalkStop w
        vfsEntryPut e
        return rc

/-- `vfs_mount` of a `ramfs`. -/
def vfsMount (mount : Name) : FsM ℤ := do
  let s ← get
  if (s.mounts.lookup mount).isSome then return -EEXIST
  else do
    set { s with mountSupply := fun i => s.mountSupply (i + 1) }
    if s.mountSupply 0 then
      match ← ramfsNodeCreate .dir with
      | none => return -ENOMEM
      | some n => do
        modify fun s => { s with mounts := s.mounts ++ [(mount.take (maxPathLen - 1), n)] }
        return 0
    else do
      noMemory
      return -ENOMEM

/-- `vfs_umount` -/
def vfsUmount (mount : Name) : FsM ℤ := do
  let s ← get
  match s.mounts.lookup mount with
  | none => return -ENOENT
  | some n => do
    set { s with mounts := s.mounts.eraseP fun x => x.1 = mount }
    vfsNodePut n
    return 0

/-- The file systems after `setup_vfs`, with the memory to come. -/
def setupVfs (entrySupply : ℕ → Option Eid) (nodeSupply : ℕ → Option Nid)
    (nameSupply mountSupply : ℕ → Bool) : Fs where
  entry _ := ⟨rootEntry, some rootNode, [], false, 1, 0⟩
  live e := e = rootEntry
  cache _ _ := none
  kind _ := .root
  nodeRefs _ := 0
  names _ := []
  nodeLive _ := false
  nodeCount := 0
  mounts := []
  entrySupply := entrySupply
  nodeSupply := nodeSupply
  nameSupply := nameSupply
  mountSupply := mountSupply
  failures := 0

end Vfs

end Kernel64
