import Kernel64.Headers
import Kernel64.Lib.Bytes
import Kernel64.Lib.Prog
import Kernel64.Strings.Model

/-!
# What the boot loader left (`misc.c`)

The boot loader leaves a `struct multiboot_info` and, where its fields point, a memory map, a command line and a list of
modules. `setup_misc` decodes them into the variables of the kernel. The memory is only read: the variables are no part
of what the boot loader wrote. Where the code spins forever, the run has no fuel left.
-/

namespace Kernel64

namespace Boot

/-- `MMAP_MAX_COUNT` -/
def mmapMaxCount : ℕ := 20

/-- `MAX_CMDLINE_LEN` -/
def maxCmdlineLen : ℕ := 256

/-- The fields of a `struct multiboot_info` that are read. -/
structure MultibootInfo where
  flags : UInt32
  cmdline : UInt32
  modsCount : UInt32
  modsAddr : UInt32
  mmapLength : UInt32
  mmapAddr : UInt32
  deriving DecidableEq, Repr

/-- `info->flags & (1ul << bit)` -/
def MultibootInfo.has (info : MultibootInfo) (bit : UInt32) : Bool := info.flags &&& (1 <<< bit) != 0

/-- A `struct mmap_entry`. -/
structure MmapEntry where
  addr : ℕ
  length : ℕ
  type : ℕ
  deriving DecidableEq, Repr

/-- The variables of `misc.c`. The pointer `cmdline` is null or `cmdline_buf`. -/
structure Misc where
  memoryMap : ℕ → MmapEntry
  memoryMapSize : ℕ
  cmdlineBuf : Buf
  cmdline : Bool
  initrdBegin : ℕ
  initrdEnd : ℕ

/-- The variables at the start of the kernel. -/
def Misc.init : Misc := ⟨fun _ => ⟨0, 0, 0⟩, 0, fun _ => 0, false, 0, 0⟩

/-- Code that runs on the variables. -/
abbrev MiscM (α : Type) : Type := Prog Misc α

/-! ### The memory map -/

/-- `memory_map[i] = e`, by fields. -/
def setEntry (i : ℕ) (e : MmapEntry) : MiscM Unit := do
  if i < mmapMaxCount then modify fun s => { s with memoryMap := Function.update s.memoryMap i e }
  else throw .bounds

/-- A `struct mboot_mmap_entry`, which is packed. -/
structure MbootMmapEntry where
  size : ℕ
  addr : ℕ
  length : ℕ
  type : ℕ

/-- `*entry` -/
def mmapEntryAt (ram : Buf) (entry : ℕ) : MbootMmapEntry :=
  ⟨ram.field 4 entry, ram.field 8 (entry + 4), ram.field 8 (entry + 12), ram.field 4 (entry + 20)⟩

/-- The stores into `memory_map` for one record. -/
def pushEntry (e : MmapEntry) : MiscM Unit := do
  let s ← get
  setEntry s.memoryMapSize e
  modify fun s => { s with memoryMapSize := s.memoryMapSize + 1 }

/-- The loop of `setup_memory_map`, whose bounds are `pos` and `stop`. -/
def mapLoop (ram : Buf) (stop : ℕ) : ℕ → ℕ → MiscM Unit
  | 0, _ => throw .fuel
  | fuel + 1, pos =>
    if pos < stop then do
      let entry := mmapEntryAt ram pos
      pushEntry ⟨entry.addr, entry.length, entry.type⟩
      mapLoop ram stop fuel (Strings.addPtr pos (entry.size + 4))
    else pure ()

/-- `setup_memory_map` -/
def setupMemoryMap (fuel : ℕ) (ram : Buf) (info : MultibootInfo) : MiscM Unit := do
  if !info.has 6 then throw .fuel
  else mapLoop ram (info.mmapAddr.toNat + info.mmapLength.toNat) fuel info.mmapAddr.toNat

/-! ### The command line -/

/-- `cmdline_buf[i] = c` -/
def setCmdlineBuf (i : ℕ) (c : UInt8) : MiscM Unit := do
  if i < maxCmdlineLen then modify fun s => { s with cmdlineBuf := Function.update s.cmdlineBuf i c }
  else throw .bounds

/-- `strcpy` into `cmdline_buf`, from its byte `dst` on. -/
def strcpyLoop (ram : Buf) : ℕ → ℕ → ℕ → MiscM Unit
  | 0, _, _ => throw .fuel
  | fuel + 1, dst, src =>
    if ram src ≠ 0 then do
      setCmdlineBuf dst (ram src)
      strcpyLoop ram fuel (dst + 1) (Strings.addPtr src 1)
    else setCmdlineBuf dst 0

/-- `setup_cmdline` -/
def setupCmdline (fuel : ℕ) (ram : Buf) (info : MultibootInfo) : MiscM Unit := do
  if info.has 2 then do
    strcpyLoop ram fuel 0 info.cmdline.toNat
    modify fun s => { s with cmdline := true }

/-! ### The modules -/

/-- A `struct mboot_mod`, as far as it is read. -/
structure MbootMod where
  modStart : UInt32
  modEnd : UInt32
  deriving DecidableEq, Repr

/-- `*mod` -/
def modAt (ram : Buf) (mod : ℕ) : MbootMod :=
  ⟨UInt32.ofNat (ram.field 4 mod), UInt32.ofNat (ram.field 4 (mod + 4))⟩

/-- The module is passed over: it is too short, or `memcmp` finds that it starts with something else. -/
def MbootMod.skipped (ram : Buf) (mod : MbootMod) : Bool :=
  mod.modEnd - mod.modStart < 6 || ram.slice mod.modStart.toNat 6 != cpioMagic

/-- The loop of `setup_initrd`, with the number of modules that are left. -/
def initrdLoop (ram : Buf) (mods : ℕ) : ℕ → ℕ → MiscM Unit
  | 0, _ => throw .fuel
  | left + 1, i =>
    -- the counter is an `int`, and must not overflow
    if 2 ^ 31 ≤ i then throw .bounds
    else
      let mod := modAt ram (mods + 16 * i)
      if mod.skipped ram then initrdLoop ram mods left (i + 1)
      else modify fun s => { s with initrdBegin := mod.modStart.toNat, initrdEnd := mod.modEnd.toNat }

/-- `setup_initrd` -/
def setupInitrd (ram : Buf) (info : MultibootInfo) : MiscM Unit := do
  if !info.has 3 || info.modsCount == 0 then throw .fuel
  else initrdLoop ram info.modsAddr.toNat info.modsCount.toNat 0

/-- `setup_misc` -/
def setupMisc (fuel : ℕ) (ram : Buf) (info : MultibootInfo) : MiscM Unit := do
  setupMemoryMap fuel ram info
  setupCmdline fuel ram info
  setupInitrd ram info

end Boot

end Kernel64
