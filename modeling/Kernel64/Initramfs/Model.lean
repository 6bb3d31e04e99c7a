import Kernel64.Format.Numerals
import Kernel64.Ramfs.Files
import Kernel64.Vfs.Model

/-!
# The initial file system (`initramfs.c`)

The boot loader leaves a `cpio` archive in memory: a record for each directory and each file, with a
header of 110 bytes, whose fields are hexadecimal numbers, then the name and the contents.
`parse_cpio` goes through the records, and makes each directory and each file through the calls of
the file systems.

The state joins the directory trees (`Kernel64.Vfs.Model`) and the contents of the files
(`Kernel64.Ramfs.Files`), which have the nodes in common. It also keeps what `DBG_ERR` printed.
-/

namespace Kernel64

namespace Initramfs

open Vfs Ramfs

/-- What `DBG_ERR` prints: the name, and the error. -/
inductive Report where
  /-- `Failed to create %s with error %s` -/
  | createDir (name : List Char) (rc : ℤ)
  /-- `Failed to write file %s with error %s` -/
  | writeFile (name : List Char) (rc : ℤ)
  /-- `Failed to create file %s with error %s` -/
  | createFile (name : List Char) (rc : ℤ)

/-- The directory trees and the contents of the files. -/
structure State where
  fs : Fs
  files : Files
  reports : List Report

/-- Code that runs on the whole state. -/
abbrev InitM (α : Type) : Type := Prog State α

/-! ### Files and their nodes -/

/-- The nodes that were given out by `ramfs_node_create`, which clears them. -/
def clearNew (old new : Fs) (files : Files) : Files :=
  { files with
    node := fun n =>
      if old.nodeLive n = false ∧ new.nodeLive n = true then
        { files.node n with pages := ⟨(files.node n).pages.node, 0#64⟩, size := 0 }
      else files.node n }

/-- Code that runs on the directory trees. -/
def onFs {α : Type} (m : FsM α) : InitM α := fun s =>
  match m s.fs with
  | .ok (a, fs) => .ok (a, { s with fs := fs, files := clearNew s.fs fs s.files })
  | .error e => .error e

/-- Code that runs on the contents of the files. -/
def onFiles {α : Type} (m : FilesM α) : InitM α := fun s =>
  match m s.files with
  | .ok (a, files) => .ok (a, { s with files := files })
  | .error e => .error e

/-- `vfs_file_open`, into the handle `h`. -/
def vfsFileOpen (name : List Char) (create : Bool) (h : ℕ) : InitM (ℤ × Option Eid) := do
  match ← onFs (Vfs.vfsFileOpen name create) with
  | (rc, none) => return (rc, none)
  | (rc, some e) => do
    let n ← onFs (nodeOf e)
    onFiles (modify fun f => { f with file := Function.update f.file h ⟨n, 0⟩ })
    return (rc, some e)

/-- `vfs_write`. A directory has no `write`. -/
def vfsWrite (fuel h : ℕ) (data : List UInt8) : InitM ℤ := do
  let s ← get
  if s.fs.kind (s.files.file h).node = .file then onFiles (Ramfs.vfsWrite fuel h data)
  else return -ENOTSUP

/-- `vfs_read`. A directory has no `read`. -/
def vfsRead (fuel h size : ℕ) : InitM (ℤ × List UInt8) := do
  let s ← get
  if s.fs.kind (s.files.file h).node = .file then onFiles (Ramfs.vfsRead fuel h size)
  else return (-ENOTSUP, [])

/-! ### The archive -/

/-- The character of a byte. -/
def charOf (b : UInt8) : Char := Char.ofNat b.toNat

/-- `parse_hex`, of the field at the start of `data`. -/
def parseHex (data : List UInt8) : ℕ := (Format.strtoul (data.take 8) 16).1

/-- `create_dir` -/
def createDir (name : List Char) : InitM Unit := do
  let rc ← onFs (vfsMkdir name)
  if rc ≠ 0 then modify fun s => { s with reports := s.reports ++ [.createDir name rc] }

/-- The loop of `write_file`, for the bytes that are left. -/
def writeFileFrom (fuel h : ℕ) : ℕ → List UInt8 → InitM ℤ
  | 0, _ => throw .fuel
  | n + 1, data => do
    if data = [] then return 0
    else do
      let rc ← vfsWrite fuel h data
      if rc < 0 then return rc
      else writeFileFrom fuel h n (data.drop rc.toNat)

/-- `write_file` -/
def writeFile (fuel h : ℕ) (data : List UInt8) : InitM ℤ := writeFileFrom fuel h (data.length + 1) data

/-- The handle of `create_file`. -/
def localFile : ℕ := 0

/-- `create_file` -/
def createFile (fuel : ℕ) (name : List Char) (data : List UInt8) : InitM Unit := do
  match ← vfsFileOpen name true localFile with
  | (_, some e) => do
    let rc ← writeFile fuel localFile data
    if rc ≠ 0 then modify fun s => { s with reports := s.reports ++ [.writeFile name rc] }
    onFs (vfsRelease e)
  | (rc, none) => modify fun s => { s with reports := s.reports ++ [.createFile name rc] }

/-- `sizeof(struct cpio_header)` -/
def headerSize : ℕ := 110

/-- `ALIGN(x, 4)` -/
def align4 (x : ℕ) : ℕ := (x + 3) % 2 ^ 64 / 4 * 4

/-- `S_ISDIR` -/
def isDir (mode : ℕ) : Prop := mode &&& 0xF000 = 0x4000

instance (mode : ℕ) : Decidable (isDir mode) := inferInstanceAs (Decidable (_ = _))

/-- `S_ISREG` -/
def isReg (mode : ℕ) : Prop := mode &&& 0xF000 = 0x8000

instance (mode : ℕ) : Decidable (isReg mode) := inferInstanceAs (Decidable (_ = _))

/-- The name of the last record. -/
def trailerName : List Char := ['T', 'R', 'A', 'I', 'L', 'E', 'R', '!', '!', '!']

/-- Whether `strcmp` finds the string at the start of `l` to be `r`. Nothing is known past the end of
the archive. -/
def strcmp : List UInt8 → List Char → InitM Bool
  | [], _ => throw .bounds
  | a :: _, [] => return a = 0
  | a :: l, b :: r => if a ≠ 0 ∧ charOf a = b then strcmp l r else return false

/-- The string at the start of `l`. -/
def cString (l : List UInt8) : InitM (List Char) :=
  if 0 ∈ l then return (l.takeWhile (· ≠ 0)).map charOf else throw .bounds

/-- The place in the archive, and whether the first directory is still to come. -/
structure Cursor where
  pos : ℕ
  root : Bool

/-- The body of the loop of `parse_cpio`, with where it goes on. -/
def parseRecord (fuel : ℕ) (data : List UInt8) (c : Cursor) : InitM (Option Cursor) := do
  let hdr := data.drop c.pos
  let mode := parseHex (hdr.drop 14)
  let namesize := parseHex (hdr.drop 94)
  let filesize := parseHex (hdr.drop 54)
  let filename := data.drop (c.pos + headerSize)
  let pos := align4 ((c.pos + headerSize + namesize) % 2 ^ 64)
  if data.length < pos then return none
  else if ← strcmp filename trailerName then return none
  else do
    let filedata := data.drop pos
    let pos := (pos + filesize) % 2 ^ 64
    let next := align4 pos
    if isDir mode then
      if c.root then return some ⟨next, false⟩
      else do
        createDir (← cString filename)
        return some ⟨next, false⟩
    else if isReg mode ∧ pos ≤ data.length then do
      createFile fuel (← cString filename) (filedata.take filesize)
      return some ⟨next, c.root⟩
    else return some ⟨next, c.root⟩

/-- The loop of `parse_cpio`. -/
def parseCpioFrom (fuel : ℕ) (data : List UInt8) : ℕ → Cursor → InitM Unit
  | 0, _ => throw .fuel
  | n + 1, c => do
    if c.pos < data.length ∧ headerSize ≤ data.length - c.pos then
      match ← parseRecord fuel data c with
      | none => return
      | some c' => parseCpioFrom fuel data n c'
    else return

/-- `parse_cpio` -/
def parseCpio (fuel : ℕ) (data : List UInt8) : InitM Unit :=
  parseCpioFrom fuel data (data.length + 1) ⟨0, true⟩

end Initramfs

end Kernel64
