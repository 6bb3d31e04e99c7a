import Kernel64.Headers
import Kernel64.Lib.Bytes
import Kernel64.RbTree.Search

/-!
# Files in memory (`ramfs.c`)

A file keeps its bytes in pages, and the pages in a search tree by their index; a page that was never
written is not there. Files are read, written and sought through handles, and any number of handles
may share a file. The numbers of type `int` wrap.

A file is a sparse array of bytes: what is read at a position is what was written there last, and
zero where nothing was written (`filesRun_sparse`).
-/

namespace Kernel64

namespace Ramfs

/-- The pages of a `struct ramfs_node`, and its size. -/
structure FileNode where
  /-- `pages`, and the tree nodes of the pages -/
  pages : RbState
  /-- `index` of each `struct ramfs_page` -/
  index : Ptr → ℕ
  /-- `page` of each `struct ramfs_page` -/
  page : Ptr → ℕ
  size : ℤ

/-- A `struct fs_file` of a regular file. -/
structure FsFile where
  node : ℕ
  offset : ℤ

/-- The files, the handles, and the memory for the pages. -/
structure Files where
  node : ℕ → FileNode
  file : ℕ → FsFile
  /-- the contents of each page of memory -/
  bytes : ℕ → Buf
  rpageUsed : Ptr → Bool
  /-- what the next calls of `kmem_cache_alloc(ramfs_page_cache)` return -/
  rpageSupply : ℕ → Option Ptr
  pageUsed : ℕ → Bool
  /-- what the next calls of `alloc_pages(0)` return -/
  pageSupply : ℕ → Option ℕ
  /-- how many allocations have failed; the code does not keep it -/
  failures : ℕ

/-- Code that runs on the files. -/
abbrev FilesM (α : Type) : Type := Prog Files α

/-- The files with another node. -/
def Files.setNode (s : Files) (f : ℕ) (nd : FileNode) : Files :=
  { s with node := Function.update s.node f nd }

/-- Code that runs on the tree of a file. -/
def onPages {α : Type} (f : ℕ) (c : Rb.RbM α) : FilesM α := fun s =>
  match c (s.node f).pages with
  | .ok (a, b) => .ok (a, s.setNode f { s.node f with pages := b })
  | .error e => .error e

/-- Where the search for a page goes at a node of the tree. -/
def toPage (nd : FileNode) (index : ℕ) (p : Ptr) : Option Side :=
  if nd.index p = index then none
  else if nd.index p < index then some .right
  else some .left

/-- `ramfs_lookup_page` -/
def ramfsLookupPage (fuel f index : ℕ) : FilesM Rb.Found := do
  onPages f (Rb.searchTree (toPage ((← get).node f) index) fuel)

/-- An allocation has failed. -/
def noMemory : FilesM Unit := modify fun s => { s with failures := s.failures + 1 }

/-- `kmem_cache_alloc(ramfs_page_cache)` -/
def allocRpage : FilesM (Option Ptr) := do
  let s ← get
  set { s with rpageSupply := fun n => s.rpageSupply (n + 1) }
  match s.rpageSupply 0 with
  | none => do
    noMemory
    return none
  | some p =>
    if p ≠ 0#64 ∧ p &&& 1#64 = 0#64 ∧ s.rpageUsed p = false then
      modify fun s => { s with rpageUsed := Function.update s.rpageUsed p true }
      return some p
    else do
      noMemory
      return none

/-- `alloc_pages(0)` -/
def allocPage : FilesM (Option ℕ) := do
  let s ← get
  set { s with pageSupply := fun n => s.pageSupply (n + 1) }
  match s.pageSupply 0 with
  | none => do
    noMemory
    return none
  | some b =>
    if s.pageUsed b = false then
      modify fun s => { s with pageUsed := Function.update s.pageUsed b true }
      return some b
    else do
      noMemory
      return none

/-- `ramfs_alloc_page`, for a page of the file `f`. -/
def ramfsAllocPage (f index : ℕ) : FilesM (Option Ptr) := do
  match ← allocRpage with
  | none => return none
  | some p => do
    match ← allocPage with
    | none => do
      modify fun s => { s with rpageUsed := Function.update s.rpageUsed p false }
      return none
    | some b => do
      modify fun s => { s.setNode f { s.node f with
          page := Function.update (s.node f).page p b
          index := Function.update (s.node f).index p index } with
        bytes := Function.update s.bytes b fun _ => 0 }
      return some p

/-- The last steps of `ramfs_write`: the bytes are copied, and the handle and the size move on. -/
def storeBytes (h f : ℕ) (p : Ptr) (off : ℕ) (data : List UInt8) : FilesM ℤ := do
  modify fun s =>
    let offset := toInt ((s.file h).offset + data.length)
    { s.setNode f { s.node f with size := max offset (s.node f).size } with
      bytes := Function.update s.bytes ((s.node f).page p)
        ((s.bytes ((s.node f).page p)).store off data)
      file := Function.update s.file h ⟨f, offset⟩ }
  return data.length

/-- The page of an offset. -/
def pageIndex (offset : ℤ) : ℕ := (offset / pageSize % 2 ^ 64).toNat

/-- The place of an offset in its page. -/
def pageOffset (offset : ℤ) : ℕ := (offset % pageSize).toNat

/-- `ramfs_write`; the bytes given are the `size` bytes at `data`. -/
def ramfsWrite (fuel h : ℕ) (data : List UInt8) : FilesM ℤ := do
  let file := (← get).file h
  let idx := pageIndex file.offset
  let off := pageOffset file.offset
  let sz := min (pageSize - off) data.length
  match ← ramfsLookupPage fuel file.node idx with
  | .hit p => storeBytes h file.node p off (data.take sz)
  | .missing parent plink => do
    match ← ramfsAllocPage file.node idx with
    | none => return -ENOMEM
    | some p => do
      onPages file.node (do Rb.rbLink p parent plink; Rb.rbInsert fuel p)
      storeBytes h file.node p off (data.take sz)

/-- `ramfs_read`, with the bytes it stores at `data`. -/
def ramfsRead (fuel h size : ℕ) : FilesM (ℤ × List UInt8) := do
  let s ← get
  let file := s.file h
  if file.offset ≥ (s.node file.node).size then return (0, [])
  let rem := ((s.node file.node).size - file.offset).toNat
  let off := pageOffset file.offset
  let sz := min (min (pageSize - off) size) rem
  let found ← ramfsLookupPage fuel file.node (pageIndex file.offset)
  let data := match found with
    | .hit p => (s.bytes ((s.node file.node).page p)).slice off sz
    | .missing _ _ => List.replicate sz 0
  modify fun s => { s with
    file := Function.update s.file h { file with offset := toInt (file.offset + sz) } }
  return (sz, data)

/-- An `enum fs_seek_base`; any other number is like `FSS_SET`. -/
inductive Whence where
  | set
  | cur
  | fin

/-- `vfs_seek_default` -/
def vfsSeekDefault (h : ℕ) (offset : ℤ) (whence : Whence) : FilesM ℤ := do
  let s ← get
  let file := s.file h
  let offset := match whence with
    | .set => offset
    | .cur => toInt (offset + file.offset)
    | .fin => toInt (offset + (s.node file.node).size)
  let offset := max offset 0
  set { s with file := Function.update s.file h { file with offset := offset } }
  return offset

/-- `vfs_write`, `vfs_read` and `vfs_seek` on a handle with `ramfs_file_ops`. -/
def vfsWrite (fuel h : ℕ) (data : List UInt8) : FilesM ℤ := ramfsWrite fuel h data

@[inherit_doc vfsWrite]
def vfsRead (fuel h size : ℕ) : FilesM (ℤ × List UInt8) := ramfsRead fuel h size

@[inherit_doc vfsWrite]
def vfsSeek (h : ℕ) (offset : ℤ) (whence : Whence) : FilesM ℤ := vfsSeekDefault h offset whence

end Ramfs

end Kernel64
