import Kernel64.Mm.Model
import Kernel64.Ramfs.Files

/-!
# Loading the segments of a program (`exec.c`)

`load_binary` goes through the program headers of an ELF file. `map_elf_phdr` makes an area for each segment, reads
its part of the file into new pages and maps them; what is not in the file is left to page faults.

The state joins the address spaces (`Kernel64.Mm.Model`) and the files (`Kernel64.Ramfs.Files`). The file is open, as
the handle `h`.
-/

namespace Kernel64

namespace Exec

open Paging Mm

/-- `PT_LOAD` -/
def ptLoad : ℕ := 1

/-- `PF_W` -/
def pfW : ℕ := 2

/-- A `struct elf_hdr`, as far as the program headers are concerned. -/
structure ElfHdr where
  ePhoff : ℕ
  ePhentsize : ℕ
  ePhnum : ℕ

/-- A `struct elf_phdr`, without the fields that are not used. -/
structure ElfPhdr where
  pType : ℕ
  pFlags : ℕ
  pOffset : ℕ
  pVaddr : ℕ
  pFilesz : ℕ
  pMemsz : ℕ
  deriving DecidableEq, Repr

/-- `sizeof(struct elf_phdr)` -/
def phdrSize : ℕ := 56

/-- The program header in some bytes. -/
def phdrOf (data : List UInt8) : ElfPhdr :=
  let buf : Buf := fun i => data.getD i 0
  { pType := buf.field 4 0
    pFlags := buf.field 4 4
    pOffset := buf.field 8 8
    pVaddr := buf.field 8 16
    pFilesz := buf.field 8 32
    pMemsz := buf.field 8 40 }

/-- `(phdr->p_flags & PF_W) != 0` -/
def ElfPhdr.Writable (phdr : ElfPhdr) : Prop := phdr.pFlags &&& pfW ≠ 0

instance (phdr : ElfPhdr) : Decidable phdr.Writable := inferInstanceAs (Decidable (_ ≠ _))

/-- The address spaces and the files. -/
structure LoadState where
  world : World
  files : Ramfs.Files

/-- Code that runs on the whole state. -/
abbrev LoadM (α : Type) : Type := Prog LoadState α

/-- Code that runs on the address spaces. -/
def onWorld {α : Type} (c : MmM α) : LoadM α := fun s =>
  match c s.world with
  | .ok (a, w) => .ok (a, { s with world := w })
  | .error e => .error e

/-- Code that runs on the files. -/
def onFiles {α : Type} (c : Ramfs.FilesM α) : LoadM α := fun s =>
  match c s.files with
  | .ok (a, f) => .ok (a, { s with files := f })
  | .error e => .error e

/-! ### Reading -/

/-- The loop of `read_buf`, with the bytes it stores. -/
def readBufFrom (fuel h : ℕ) : ℕ → ℕ → LoadM (ℤ × List UInt8)
  | 0, _ => throw .fuel
  | n + 1, remain => do
    if remain = 0 then return (0, [])
    let (rc, data) ← onFiles (Ramfs.vfsRead fuel h remain)
    if rc < 0 then return (rc, [])
    if rc = 0 then return (- EIO, [])
    let (rc', rest) ← readBufFrom fuel h n (remain - rc.toNat)
    return (rc', data ++ rest)

/-- `read_buf`, with the bytes it stores. -/
def readBuf (fuel h size : ℕ) : LoadM (ℤ × List UInt8) := readBufFrom fuel h (size + 1) size

/-- `read_elf_phdr` -/
def readElfPhdr (fuel h : ℕ) : LoadM (ℤ × ElfPhdr) := do
  let (rc, data) ← readBuf fuel h phdrSize
  return (rc, phdrOf data)

/-! ### Segments -/

/-- `read_buf(file, buffer + offset, size)`, where `buffer` is a page. -/
def readIntoPage (fuel h : ℕ) (page : Pfn) (offset size : ℕ) : LoadM ℤ := do
  let (rc, data) ← readBuf fuel h size
  onWorld (onPhys (modify fun s => { s with
    bytes := Function.update s.bytes page ((s.bytes page).store offset data) }))
  return rc

/-- The loop of `map_elf_phdr`. -/
def mapPagesFrom (fuel m h begin stop : ℕ) (flags : PteFlags) : ℕ → ℕ → ℕ → ℕ → LoadM ℤ
  | 0, _, _, _ => throw .fuel
  | n + 1, addr, offset, remain => do
    if remain = 0 then return 0
    match ← onWorld (onPhys allocPages) with
    | none => do
      onWorld (munmap fuel m begin stop)
      return -ENOMEM
    | some page => do
      let size := min remain (pageSize - offset)
      onWorld (onPhys (clearPage page))
      let rc ← readIntoPage fuel h page offset size
      if rc ≠ 0 then
        onWorld (onPhys (freePages page))
        onWorld (munmap fuel m begin stop)
        return rc
      onWorld (onPhys (setU page 0#64))
      onWorld (onPhys (mmapPages fuel ((← get).world.mm m).pt addr [page] flags))
      mapPagesFrom fuel m h begin stop flags n ((addr + pageSize) % 2 ^ 64) 0 (remain - size)

/-- `map_elf_phdr` -/
def mapElfPhdr (fuel m h : ℕ) (phdr : ElfPhdr) : LoadM ℤ := do
  if phdr.pType ≠ ptLoad then return 0
  let begin := phdr.pVaddr
  let stop := (begin + phdr.pMemsz) % 2 ^ 64
  let perm := if phdr.Writable then 1 else 0
  let flags : PteFlags := ⟨phdr.Writable, true, false, false⟩
  let rc ← onWorld (mmap fuel m begin stop perm)
  if rc ≠ 0 then return rc
  if phdr.pFilesz = 0 then return 0
  let rc ← onFiles (Ramfs.vfsSeek h (toInt phdr.pOffset) .set)
  if rc < 0 then return rc
  mapPagesFrom fuel m h begin stop flags (phdr.pFilesz + 1) (alignDown begin) (begin % pageSize) phdr.pFilesz

/-- The loop of `load_binary`, for the program headers that are left. -/
def loadFrom (fuel m h ePhentsize : ℕ) : ℕ → ℤ → LoadM ℤ
  | 0, _ => return 0
  | n + 1, offset => do
    let rc ← onFiles (Ramfs.vfsSeek h offset .set)
    if rc < 0 then return rc
    let (rc, phdr) ← readElfPhdr fuel h
    if rc < 0 then return rc
    let rc ← mapElfPhdr fuel m h phdr
    if rc < 0 then return rc
    loadFrom fuel m h ePhentsize n (toInt (offset + ePhentsize))

/-- `load_binary` -/
def loadBinary (fuel m h : ℕ) (hdr : ElfHdr) : LoadM ℤ :=
  loadFrom fuel m h hdr.ePhentsize hdr.ePhnum (toInt hdr.ePhoff)

end Exec

end Kernel64
