import Kernel64.Vfs.Model

/-!
# The directory trees without entries

The calls as they are on the directory trees alone: a path is the list of its components, each component
is looked up anew, and there is no `fs_entry`. What a call returns, and which node it opens, only depends
on the trees.
-/

namespace Kernel64

namespace Vfs

/-- The components of a path. -/
def components (path : List Char) : List Name := (path.splitOn '/').filter (· ≠ [])

/-- The directory trees, with the nodes to come. -/
structure Tree where
  kind : Nid → Kind
  names : Nid → List (Name × Nid)
  mounts : List (Name × Nid)
  nodeSupply : ℕ → Option Nid

/-- The directory trees of the file systems. -/
def Fs.tree (s : Fs) : Tree := ⟨s.kind, s.names, s.mounts, s.nodeSupply⟩

namespace Tree

/-- The node of a name, among the mounts or in a directory. -/
def find (t : Tree) (n : Nid) (x : Name) : Option Nid :=
  match t.kind n with
  | .root => t.mounts.lookup x
  | .dir => (t.names n).lookup x
  | .file => none

/-- Look a name up. -/
def look (t : Tree) (n : Nid) (x : Name) : Except ℤ Nid :=
  if t.kind n = .file then .error (-ENOTSUP)
  else match t.find n x with
    | none => .error (-ENOENT)
    | some m => .ok m

/-- Look a path up. -/
def walk (t : Tree) : Nid → List Name → Except ℤ Nid
  | n, [] => .ok n
  | n, x :: xs =>
    match t.look n x with
    | .error rc => .error rc
    | .ok m => t.walk m xs

/-- Name a node in a directory. -/
def link (t : Tree) (d : Nid) (x : Name) (n : Nid) : Tree :=
  { t with names := Function.update t.names d ((x, n) :: t.names d) }

/-- Remove a name from a directory. -/
def unlink (t : Tree) (d : Nid) (x : Name) : Tree :=
  { t with names := Function.update t.names d ((t.names d).filter fun y => y.1 ≠ x) }

/-- A new node, named in a directory. -/
def make (t : Tree) (d : Nid) (x : Name) (kind : Kind) : (ℤ × Option Nid) × Tree :=
  match t.nodeSupply 0 with
  | none => ((-ENOMEM, none), t)
  | some n => ((0, some n), link
      { t with
        kind := Function.update t.kind n kind
        names := Function.update t.names n []
        nodeSupply := fun i => t.nodeSupply (i + 1) } d x n)

/-- `vfs_open` and `vfs_create`, with the node of the file. -/
def fileOpen (t : Tree) (path : List Char) (create : Bool) : (ℤ × Option Nid) × Tree :=
  let x := (components path).getLastD []
  match t.walk rootNode (components path).dropLast with
  | .error rc => ((rc, none), t)
  | .ok d =>
    if t.kind d = .file then ((-ENOTSUP, none), t)
    else match t.find d x with
      | some m => ((0, some m), t)
      | none =>
        if create = false then ((-ENOENT, none), t)
        else if t.kind d = .root then ((-ENOTSUP, none), t)
        else t.make d x .file

/-- `vfs_mkdir` -/
def mkdir (t : Tree) (path : List Char) : ℤ × Tree :=
  let x := (components path).getLastD []
  match t.walk rootNode (components path).dropLast with
  | .error rc => (rc, t)
  | .ok d =>
    if t.kind d ≠ .dir then (-ENOTSUP, t)
    else match t.find d x with
      | some _ => (-EEXIST, t)
      | none => ((t.make d x .dir).1.1, (t.make d x .dir).2)

/-- `vfs_link` -/
def hardLink (t : Tree) (oldpath newpath : List Char) : ℤ × Tree :=
  let x := (components newpath).getLastD []
  match t.walk rootNode (components oldpath) with
  | .error rc => (rc, t)
  | .ok m =>
    match t.walk rootNode (components newpath).dropLast with
    | .error rc => (rc, t)
    | .ok d =>
      if t.kind d ≠ .dir then (-ENOTSUP, t)
      else match t.find d x with
        | some _ => (-EEXIST, t)
        | none => if t.kind m ≠ .file then (-ENOTSUP, t) else (0, t.link d x m)

/-- `vfs_unlink`, which removes files only, and `vfs_rmdir`. -/
def remove (t : Tree) (path : List Char) (filesOnly : Bool) : ℤ × Tree :=
  let x := (components path).getLastD []
  match t.walk rootNode (components path) with
  | .error rc => (rc, t)
  | .ok m =>
    match t.walk rootNode (components path).dropLast with
    | .error rc => (rc, t)
    | .ok d =>
      if t.kind d ≠ .dir then (-ENOTSUP, t)
      else if filesOnly = true ∧ t.kind m ≠ .file then (-ENOTSUP, t)
      else (0, t.unlink d x)

end Tree

end Vfs

end Kernel64
