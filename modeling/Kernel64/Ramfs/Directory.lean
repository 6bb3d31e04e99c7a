import Kernel64.Ramfs.Files
import Kernel64.RbTree.Iterate
import Kernel64.Strings.Model

/-!
# Directories in memory (`ramfs.c`, `vfs_readdir`)

A directory keeps its entries in a search tree, in the order of `strcmp` on their names. It is listed
through a handle: each call starts again at the leftmost entry, skips as many entries as the offset of
the handle says, and hands the names that follow to a callback until the callback refuses one.

One directory is modelled. The nodes that its entries name are only numbers here; their references are
counted in `Kernel64.Vfs.Model`, where a directory is the list of its names. The entries of the other
directories only take memory away from it.
-/

namespace Kernel64

namespace Ramfs

open Strings (charInt strcmp)

/-- A string in an array of `MAX_PATH_LEN` characters, without the zero that ends it. -/
structure PathName where
  chars : List UInt8
  nonzero : 0 ∉ chars
  short : chars.length < maxPathLen
  deriving DecidableEq

/-- `strncpy`, into an array. -/
def strncpy : List UInt8 → List UInt8 → ℕ → List UInt8
  | dst, _, 0 => dst
  | dst, [], _ => dst
  | [], _, _ => []
  | _ :: dst, a :: src, n + 1 => a :: strncpy dst src n

/-- The string in an array. -/
def stringIn (b : List UInt8) : List UInt8 := b.takeWhile (· ≠ 0)

/-- The operations of a node: `ramfs_dir_node_ops` or `ramfs_file_node_ops`. -/
inductive NodeKind where
  | dir
  | file
  deriving DecidableEq

/-- What the calls read of a `struct fs_entry`: the name, and the node with its operations. -/
structure FsEntry where
  name : PathName
  node : Option (ℕ × NodeKind)

/-- A `struct ramfs_entry`, without its place in the tree. -/
structure DirEntry where
  node : ℕ
  name : PathName

/-- A directory, its handles, and the memory for its entries. -/
structure Dir where
  /-- `children`, and the tree nodes of the entries -/
  children : RbState
  entry : Ptr → DirEntry
  refcount : ℤ
  size : ℤ
  /-- `offset` of each handle -/
  offset : ℕ → ℤ
  /-- the entries given out by `ramfs_entry_cache` -/
  live : List Ptr
  /-- what the next calls of `kmem_cache_alloc(ramfs_entry_cache)` return -/
  entrySupply : ℕ → Option Ptr
  /-- what the next calls of `ramfs_node_create` return -/
  nodeSupply : ℕ → Option ℕ

/-- Code that runs on a directory. -/
abbrev DirM (α : Type) : Type := Prog Dir α

/-- Code that runs on the tree of the directory. -/
def onChildren {α : Type} (c : Rb.RbM α) : DirM α := fun d =>
  match c d.children with
  | .ok (a, b) => .ok (a, { d with children := b })
  | .error e => .error e

/-! ### Entries -/

/-- `sizeof(struct ramfs_entry)` -/
def entrySize : ℕ := 288

/-- An entry lies in the memory, aligned. -/
def InMemory (p : Ptr) : Prop :=
  highBase ≤ p.toNat ∧ p.toNat + entrySize ≤ highBase + maxPhysSize ∧ p.toNat % 8 = 0

instance (p : Ptr) : Decidable (InMemory p) := inferInstanceAs (Decidable (_ ∧ _ ∧ _))

/-- Two entries do not overlap. -/
def Apart (p q : Ptr) : Prop := p.toNat + entrySize ≤ q.toNat ∨ q.toNat + entrySize ≤ p.toNat

instance (p q : Ptr) : Decidable (Apart p q) := inferInstanceAs (Decidable (_ ∨ _))

/-- `kmem_cache_alloc(ramfs_entry_cache)` -/
def allocEntry : DirM (Option Ptr) := do
  let d ← get
  set { d with entrySupply := fun n => d.entrySupply (n + 1) }
  match d.entrySupply 0 with
  | none => return none
  | some p =>
    if InMemory p ∧ d.live.all (Apart p ·) then
      modify fun d => { d with live := p :: d.live }
      return some p
    else return none

/-- `ramfs_node_create` -/
def ramfsNodeCreate : DirM (Option ℕ) := do
  let d ← get
  set { d with nodeSupply := fun n => d.nodeSupply (n + 1) }
  return d.nodeSupply 0

/-- `ramfs_entry_create` -/
def ramfsEntryCreate (name : PathName) (node : ℕ) : DirM (Option Ptr) := do
  match ← allocEntry with
  | none => return none
  | some p => do
    modify fun d => { d with entry := Function.update d.entry p ⟨node, name⟩ }
    return some p

/-- `ramfs_entry_destroy` -/
def ramfsEntryDestroy (p : Ptr) : DirM Unit := modify fun d => { d with live := d.live.erase p }

/-- Where the search for a name goes at an entry of the tree. -/
def toEntry (d : Dir) (name : PathName) (p : Ptr) : Option Side :=
  let cmp := strcmp (d.entry p).name.chars name.chars
  if cmp = 0 then none
  else if cmp < 0 then some .right
  else some .left

/-- `ramfs_entry_lookup` -/
def ramfsEntryLookup (fuel : ℕ) (name : PathName) : DirM Rb.Found := do
  onChildren (Rb.searchTree (toEntry (← get) name) fuel)

/-- `ramfs_entry_link` -/
def ramfsEntryLink (fuel : ℕ) (p parent : Ptr) (plink : Slot) : DirM Unit := do
  modify fun d => { d with refcount := toInt (d.refcount + 1), size := toInt (d.size + 1) }
  onChildren (do Rb.rbLink p parent plink; Rb.rbInsert fuel p)

/-- `ramfs_entry_unlink` -/
def ramfsEntryUnlink (fuel : ℕ) (name : PathName) : DirM ℤ := do
  match ← ramfsEntryLookup fuel name with
  | .missing _ _ => return -ENOENT
  | .hit p => do
    onChildren (Rb.rbErase fuel p)
    modify fun d => { d with size := toInt (d.size - 1) }
    ramfsEntryDestroy p
    return 0

/-! ### Calls -/

/-- `ramfs_create_ops`, with the node it stores in the entry. -/
def ramfsCreateOps (fuel : ℕ) (file : FsEntry) (kind : NodeKind) :
    DirM (ℤ × Option (ℕ × NodeKind)) := do
  match ← ramfsEntryLookup fuel file.name with
  | .hit _ => return (-EEXIST, file.node)
  | .missing parent plink => do
    match ← ramfsNodeCreate with
    | none => return (-ENOMEM, file.node)
    | some n => do
      match ← ramfsEntryCreate file.name n with
      | none => return (-ENOMEM, file.node)
      | some p => do
        ramfsEntryLink fuel p parent plink
        return (0, some (n, kind))

/-- `ramfs_create` -/
def ramfsCreate (fuel : ℕ) (entry : FsEntry) : DirM (ℤ × Option (ℕ × NodeKind)) :=
  ramfsCreateOps fuel entry .file

/-- `ramfs_mkdir` -/
def ramfsMkdir (fuel : ℕ) (entry : FsEntry) : DirM (ℤ × Option (ℕ × NodeKind)) :=
  ramfsCreateOps fuel entry .dir

/-- `ramfs_link`, with the node it stores in the entry. -/
def ramfsLink (fuel : ℕ) (src dst : FsEntry) : DirM (ℤ × Option (ℕ × NodeKind)) := do
  match src.node with
  | none => throw .null
  | some (n, kind) =>
    if kind ≠ .file then return (-ENOTSUP, dst.node)
    else do
      match ← ramfsEntryLookup fuel dst.name with
      | .hit _ => return (-EEXIST, dst.node)
      | .missing parent plink => do
        match ← ramfsEntryCreate dst.name n with
        | none => return (-ENOMEM, dst.node)
        | some p => do
          ramfsEntryLink fuel p parent plink
          return (0, some (n, kind))

/-- `ramfs_unlink` -/
def ramfsUnlink (fuel : ℕ) (entry : FsEntry) : DirM ℤ := do
  match entry.node with
  | none => return -EINVAL
  | some (_, kind) =>
    if kind ≠ .file then return -ENOTSUP
    else ramfsEntryUnlink fuel entry.name

/-- `ramfs_rmdir` -/
def ramfsRmdir (fuel : ℕ) (entry : FsEntry) : DirM ℤ := ramfsEntryUnlink fuel entry.name

/-! ### Listing -/

/-- The loop of `ramfs_iterate` that skips entries. -/
def skipLoop (fuel : ℕ) : ℕ → Ptr → ℤ → Rb.RbM Ptr
  | 0, _, _ => throw .fuel
  | k + 1, ptr, offset =>
    if ptr = 0#64 ∨ offset = 0 then return ptr
    else do
      let next ← Rb.rbNext fuel ptr
      skipLoop fuel k next (toInt (offset - 1))

/-- The loop of `ramfs_iterate` that hands out names, with `ctx->offset` and the rest of the context
of the callback. -/
def emitLoop {C : Type} (emit : C → List UInt8 → ℕ → Bool × C) (name : Ptr → PathName) (fuel : ℕ) :
    ℕ → Ptr → ℤ → C → Rb.RbM (ℤ × C)
  | 0, _, _, _ => throw .fuel
  | k + 1, ptr, offset, ctx =>
    if ptr = 0#64 then return (offset, ctx)
    else do
      let next ← Rb.rbNext fuel ptr
      match emit ctx (name ptr).chars (name ptr).chars.length with
      | (false, ctx) => return (offset, ctx)
      | (true, ctx) => emitLoop emit name fuel k next (toInt (offset + 1)) ctx

/-- `ramfs_iterate`, with the context it leaves. -/
def ramfsIterate {C : Type} (emit : C → List UInt8 → ℕ → Bool × C) (fuel : ℕ) (offset : ℤ) (ctx : C) :
    DirM (ℤ × ℤ × C) := do
  let d ← get
  let first ← onChildren (Rb.rbLeftmost fuel d.children.root)
  let ptr ← onChildren (skipLoop fuel fuel first offset)
  let (offset, ctx) ← onChildren (emitLoop emit (fun p => (d.entry p).name) fuel fuel ptr offset ctx)
  return (0, offset, ctx)

/-- A `struct readdir_ctx`, without its `ctx`. -/
structure ReaddirCtx where
  /-- the array of each `struct dirent` -/
  entries : ℕ → List UInt8
  count : ℕ
  pos : ℕ

/-- `readdir_next_entry` -/
def readdirNextEntry (c : ReaddirCtx) (name : List UInt8) (len : ℕ) : Bool × ReaddirCtx :=
  if c.pos ≠ c.count then
    (true, { c with
      entries := Function.update c.entries c.pos
        (strncpy (List.replicate maxPathLen 0) name (min (maxPathLen - 1) len))
      pos := c.pos + 1 })
  else (false, c)

/-- `vfs_readdir` on a handle with `ramfs_dir_ops`, with the entries it stores. -/
def vfsReaddir (fuel h : ℕ) (entries : ℕ → List UInt8) (count : ℕ) : DirM (ℤ × (ℕ → List UInt8)) := do
  let start := (← get).offset h
  let (rc, offset, ctx) ← ramfsIterate readdirNextEntry fuel start ⟨entries, count, 0⟩
  if start ≠ offset then do
    modify fun d => { d with offset := Function.update d.offset h offset }
    return (toInt (offset - start), ctx.entries)
  else return (rc, ctx.entries)

end Ramfs

end Kernel64
