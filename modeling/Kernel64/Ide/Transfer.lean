import Kernel64.Lib.Prog
import Mathlib.Tactic.NormNum

/-!
# Moving sectors to and from the disk (`ide.c`)

`__read_sectors_lba48` and `__write_sectors_lba48` program the registers of the disk with the first sector and the
number of sectors, give a command, and then move the sectors word by word. What the ports return to the code is
part of the state, as is what the disk has been given.

The sector count and the three registers of the address are two bytes deep (`Fifo`): a write pushes out the older
byte. Under the rule for addresses of 48 bits (`TaskFile.sector`) the older bytes are the upper half of the
address, so that the bits 24 to 31 have to be in the first byte written to `IDE_LBA0_REG`. The code has the bits
from 32 on there, and the address is right exactly when it has no more than 24 bits (`addressed_iff`).
-/

namespace Kernel64

namespace Ide

/-! ### Ports -/

/-- `IDE_DATA_REG` -/
def dataReg : ℕ := 0x1f0

/-- `IDE_SC_REG` -/
def scReg : ℕ := 0x1f2

/-- `IDE_LBA0_REG` -/
def lba0Reg : ℕ := 0x1f3

/-- `IDE_LBA1_REG` -/
def lba1Reg : ℕ := 0x1f4

/-- `IDE_LBA2_REG` -/
def lba2Reg : ℕ := 0x1f5

/-- `IDE_DEV_REG` -/
def devReg : ℕ := 0x1f6

/-- `IDE_STATUS_REG` -/
def statusReg : ℕ := 0x1f7

/-- `IDE_CMD_REG` -/
def cmdReg : ℕ := 0x1f7

/-- `IDE_DEVCTL_REG` -/
def devctlReg : ℕ := 0x3f6

/-- `IDE_ASTATUS_REG` -/
def astatusReg : ℕ := 0x3f6

/-- `IDE_NIEN` -/
def nien : ℕ := 2

/-- `IDE_LBA` -/
def lbaMode : ℕ := 64

/-- `IDE_CMD_READ_LBA48` -/
def cmdReadLba48 : ℕ := 0x24

/-- `IDE_CMD_WRITE_LBA48` -/
def cmdWriteLba48 : ℕ := 0x34

/-- `IDE_SECTOR_SIZE` -/
def sectorSize : ℕ := 512

/-- A register that is two bytes deep. -/
structure Fifo where
  older : ℕ
  newer : ℕ
  deriving DecidableEq, Repr

/-- Write a byte. -/
def Fifo.push (f : Fifo) (b : ℕ) : Fifo := ⟨f.newer, b⟩

/-- The registers that say what a command is about. -/
structure TaskFile where
  sc : Fifo
  lba0 : Fifo
  lba1 : Fifo
  lba2 : Fifo
  dev : ℕ
  deriving DecidableEq, Repr

/-- The registers after a byte has been written to a port. -/
def TaskFile.write (t : TaskFile) (port b : ℕ) : TaskFile :=
  if port = scReg then { t with sc := t.sc.push b }
  else if port = lba0Reg then { t with lba0 := t.lba0.push b }
  else if port = lba1Reg then { t with lba1 := t.lba1.push b }
  else if port = lba2Reg then { t with lba2 := t.lba2.push b }
  else if port = devReg then { t with dev := b }
  else t

/-- The first sector, by the rule for 48 bits. -/
def TaskFile.sector (t : TaskFile) : ℕ :=
  t.lba0.newer + 2 ^ 8 * t.lba1.newer + 2 ^ 16 * t.lba2.newer +
    2 ^ 24 * t.lba0.older + 2 ^ 32 * t.lba1.older + 2 ^ 40 * t.lba2.older

/-- The number of sectors, by the same rule. -/
def TaskFile.count (t : TaskFile) : ℕ := t.sc.newer + 2 ^ 8 * t.sc.older

/-- The disk, as the code sees it. -/
structure Disk where
  regs : TaskFile
  /-- the commands given so far, each with the registers at that time -/
  commands : List (ℕ × TaskFile)
  /-- the words written to `IDE_DATA_REG` -/
  written : List UInt16
  /-- what each port returns to the next reads of a byte -/
  in8 : ℕ → ℕ → ℕ
  /-- what `IDE_DATA_REG` returns to the next reads of a word -/
  in16 : ℕ → UInt16

/-- Code that uses the ports of the disk. -/
abbrev DiskM (α : Type) : Type := Prog Disk α

/-- `out8`; the port takes the lowest 8 bits. -/
def out8 (port v : ℕ) : DiskM Unit :=
  modify fun d =>
    if port = cmdReg then { d with commands := d.commands ++ [(v % 256, d.regs)] }
    else { d with regs := d.regs.write port (v % 256) }

/-- `in8` -/
def in8 (port : ℕ) : DiskM ℕ := do
  let d ← get
  set { d with in8 := Function.update d.in8 port fun n => d.in8 port (n + 1) }
  return d.in8 port 0

/-- `in16(IDE_DATA_REG)` -/
def in16 : DiskM UInt16 := do
  let d ← get
  set { d with in16 := fun n => d.in16 (n + 1) }
  return d.in16 0

/-- `out16(IDE_DATA_REG, w)` -/
def out16 (w : UInt16) : DiskM Unit := modify fun d => { d with written := d.written ++ [w] }

/-! ### Transfers -/

/-- `status & IDE_BSY` -/
def busy (status : ℕ) : Prop := status / 128 % 2 = 1

instance (status : ℕ) : Decidable (busy status) := inferInstanceAs (Decidable (_ = _))

/-- `status & (IDE_ERR | IDE_DF)` -/
def failed (status : ℕ) : Prop := status % 2 = 1 ∨ status / 32 % 2 = 1

instance (status : ℕ) : Decidable (failed status) := inferInstanceAs (Decidable (_ ∨ _))

/-- `ide_wait_ready` -/
def ideWaitReady : ℕ → DiskM Bool
  | 0 => throw .fuel
  | fuel + 1 => do
    let status ← in8 statusReg
    if busy status then ideWaitReady fuel else return failed status

/-- The writes to the registers in `__read_sectors_lba48` and `__write_sectors_lba48`, which differ in the
command. -/
def programLba48 (cmd sector count : ℕ) : DiskM Unit := do
  let slo := sector % 2 ^ 32
  let shi := sector / 2 ^ 32
  let clo := count % 256
  let chi := count / 256
  out8 devctlReg nien
  out8 scReg chi
  out8 lba0Reg (shi % 256)
  out8 lba1Reg (shi / 2 ^ 8 % 256)
  out8 lba2Reg (shi / 2 ^ 16 % 256)
  out8 scReg clo
  out8 lba0Reg (slo % 256)
  out8 lba1Reg (slo / 2 ^ 8 % 256)
  out8 lba2Reg (slo / 2 ^ 16 % 256)
  out8 devReg lbaMode
  out8 cmdReg cmd

/-- The words of a sector, as they are read. -/
def readWords : ℕ → DiskM (List UInt16)
  | 0 => return []
  | n + 1 => do
    let w ← in16
    return w :: (← readWords n)

/-- The loop of `__read_sectors_lba48`, with the words it stores. -/
def readLoop (fuel : ℕ) : ℕ → DiskM (ℤ × List UInt16)
  | 0 => return (0, [])
  | n + 1 => do
    let words ← readWords (sectorSize / 2)
    let _ ← in8 astatusReg
    if ← ideWaitReady fuel then return (-1, words)
    let (rc, rest) ← readLoop fuel n
    return (rc, words ++ rest)

/-- `__read_sectors_lba48`, with the words it stores at `data`. -/
def readSectorsLba48 (fuel sector count : ℕ) : DiskM (ℤ × List UInt16) := do
  let _ ← ideWaitReady fuel
  programLba48 cmdReadLba48 sector count
  let _ ← ideWaitReady fuel
  readLoop fuel count

/-- The words of a sector, as they are written. -/
def writeWords : List UInt16 → DiskM Unit
  | [] => return
  | w :: words => do
    out16 w
    writeWords words

/-- The loop of `__write_sectors_lba48`, for the words that are left. -/
def writeLoop (fuel : ℕ) : ℕ → List UInt16 → DiskM ℤ
  | 0, _ => return 0
  | n + 1, data => do
    writeWords (data.take (sectorSize / 2))
    let _ ← in8 astatusReg
    if ← ideWaitReady fuel then return -1
    writeLoop fuel n (data.drop (sectorSize / 2))

/-- `__write_sectors_lba48`, of the words at `data`. -/
def writeSectorsLba48 (fuel : ℕ) (data : List UInt16) (sector count : ℕ) : DiskM ℤ := do
  programLba48 cmdWriteLba48 sector count
  let _ ← ideWaitReady fuel
  writeLoop fuel count data

/-! ### Addresses -/

/-- The disk gets ready, within `fuel` reads of its status, whenever the code waits for it. -/
def Disk.Ready (d : Disk) (fuel : ℕ) : Prop := ∀ n, ∃ m < fuel, ¬busy (d.in8 statusReg (n + m))

/-- The disk is still one that gets ready, and has been given no command. -/
structure Waited (fuel : ℕ) (d d' : Disk) : Prop where
  ready : d'.Ready fuel
  commands : d'.commands = d.commands

/-- The code returns after it has given one command, with the registers `t`. -/
def Gives {α : Type} (m : DiskM α) (d : Disk) (cmd : ℕ) (t : TaskFile) : Prop :=
  Ensures m d fun _ d' => d'.commands = d.commands ++ [(cmd, t)]

/-- **Addressing**: reading and writing program the same registers, and these denote the sector and the count. -/
def Addressed (fuel : ℕ) (d : Disk) (data : List UInt16) (sector count : ℕ) : Prop :=
  ∃ t, Gives (readSectorsLba48 fuel sector count) d cmdReadLba48 t ∧
    Gives (writeSectorsLba48 fuel data sector count) d cmdWriteLba48 t ∧ t.sector = sector ∧ t.count = count

/-- The registers as the code programs them, whatever they held before. -/
def programmed (sector count : ℕ) : TaskFile where
  sc := ⟨count / 256 % 256, count % 256⟩
  lba0 := ⟨sector / 2 ^ 32 % 256, sector % 256⟩
  lba1 := ⟨sector / 2 ^ 40 % 256, sector / 2 ^ 8 % 256⟩
  lba2 := ⟨sector / 2 ^ 48 % 256, sector / 2 ^ 16 % 256⟩
  dev := lbaMode

section

variable {d d' d'' : Disk} {fuel sector count cmd n : ℕ} {t t' : TaskFile} {data : List UInt16}

theorem Waited.refl (h : d.Ready fuel) : Waited fuel d d := ⟨h, rfl⟩

theorem Waited.trans (h : Waited fuel d d') (h' : Waited fuel d' d'') : Waited fuel d d'' :=
  ⟨h'.ready, h'.commands.trans h.commands⟩

theorem ensures_in8 {port : ℕ} {Q : ℕ → Disk → Prop} : Ensures (in8 port) d Q ↔
    Q (d.in8 port 0) { d with in8 := Function.update d.in8 port fun n => d.in8 port (n + 1) } := by
  simp only [in8, ensures_bind, ensures_get, ensures_set, ensures_pure]

/-- Reading a port leaves the disk one that gets ready. -/
theorem waited_in8 (h : d.Ready fuel) (port : ℕ) :
    Waited fuel d { d with in8 := Function.update d.in8 port fun n => d.in8 port (n + 1) } := by
  refine ⟨fun n => ?_, rfl⟩
  by_cases hport : statusReg = port
  · subst hport
    obtain ⟨m, hm, hidle⟩ := h (n + 1)
    refine ⟨m, hm, ?_⟩
    dsimp only
    rwa [Function.update_self, show n + m + 1 = n + 1 + m by omega]
  · obtain ⟨m, hm, hidle⟩ := h n
    refine ⟨m, hm, ?_⟩
    dsimp only
    rwa [Function.update_of_ne hport]

/-- A wait ends, if the disk gets ready in time. -/
theorem ensures_ideWaitReady_within (h : d.Ready fuel) (hn : ∃ m < n, ¬busy (d.in8 statusReg m)) :
    Ensures (ideWaitReady n) d fun _ d' => Waited fuel d d' := by
  induction n generalizing d with
  | zero =>
    obtain ⟨m, hm, -⟩ := hn
    exact absurd hm (Nat.not_lt_zero m)
  | succ n ih =>
    have hread := waited_in8 h statusReg
    rw [ideWaitReady, ensures_bind, ensures_in8, ensures_ite]
    refine ⟨fun hbusy => ?_, fun _ => ensures_pure.2 hread⟩
    -- the status that ends the wait is one of those after the first
    obtain ⟨m, hm, hidle⟩ := hn
    have hm0 : m ≠ 0 := fun hc => hidle (hc ▸ hbusy)
    refine (ih hread.ready ⟨m - 1, by omega, ?_⟩).mono fun _ d' h' => hread.trans h'
    dsimp only
    rwa [Function.update_self, show m - 1 + 1 = m by omega]

theorem ensures_ideWaitReady (h : d.Ready fuel) : Ensures (ideWaitReady fuel) d fun _ d' => Waited fuel d d' := by
  refine ensures_ideWaitReady_within h ?_
  obtain ⟨m, hm, hidle⟩ := h 0
  exact ⟨m, hm, by rwa [Nat.zero_add] at hidle⟩

theorem ensures_readWords (h : d.Ready fuel) (n : ℕ) :
    Ensures (readWords n) d fun _ d' => Waited fuel d d' := by
  induction n generalizing d with
  | zero => exact ensures_pure.2 (Waited.refl h)
  | succ n ih =>
    simp only [readWords, in16, ensures_bind, ensures_get, ensures_set, ensures_pure]
    have hread : Waited fuel d { d with in16 := fun n => d.in16 (n + 1) } := ⟨h, rfl⟩
    exact (ih hread.ready).mono fun _ d' h' => hread.trans h'

theorem ensures_writeWords (h : d.Ready fuel) (words : List UInt16) :
    Ensures (writeWords words) d fun _ d' => Waited fuel d d' := by
  induction words generalizing d with
  | nil => exact ensures_pure.2 (Waited.refl h)
  | cons w words ih =>
    simp only [writeWords, out16, ensures_bind, ensures_modify]
    have hwrite : Waited fuel d { d with written := d.written ++ [w] } := ⟨h, rfl⟩
    exact (ih hwrite.ready).mono fun _ d' h' => hwrite.trans h'

/-- The wait after a sector has been moved. -/
theorem ensures_nextSector (h : d.Ready fuel) :
    Ensures (do let _ ← in8 astatusReg; ideWaitReady fuel) d fun _ d' => Waited fuel d d' := by
  rw [ensures_bind, ensures_in8]
  have hread := waited_in8 h astatusReg
  exact (ensures_ideWaitReady hread.ready).mono fun _ d' h' => hread.trans h'

theorem ensures_readLoop (h : d.Ready fuel) (n : ℕ) :
    Ensures (readLoop fuel n) d fun _ d' => Waited fuel d d' := by
  induction n generalizing d with
  | zero => exact ensures_pure.2 (Waited.refl h)
  | succ n ih =>
    rw [readLoop, ensures_bind]
    refine (ensures_readWords h _).mono fun words d₁ h₁ => ?_
    rw [← bind_assoc, ensures_bind]
    refine (ensures_nextSector h₁.ready).mono fun bad d₂ h₂ => ?_
    have h₂ := h₁.trans h₂
    rw [ensures_ite]
    refine ⟨fun _ => ensures_pure.2 h₂, fun _ => ?_⟩
    rw [ensures_bind]
    exact (ih h₂.ready).mono fun _ d₃ h₃ => ensures_pure.2 (h₂.trans h₃)

theorem ensures_writeLoop (h : d.Ready fuel) (n : ℕ) (data : List UInt16) :
    Ensures (writeLoop fuel n data) d fun _ d' => Waited fuel d d' := by
  induction n generalizing d data with
  | zero => exact ensures_pure.2 (Waited.refl h)
  | succ n ih =>
    rw [writeLoop, ensures_bind]
    refine (ensures_writeWords h _).mono fun _ d₁ h₁ => ?_
    rw [← bind_assoc, ensures_bind]
    refine (ensures_nextSector h₁.ready).mono fun bad d₂ h₂ => ?_
    have h₂ := h₁.trans h₂
    rw [ensures_ite]
    exact ⟨fun _ => ensures_pure.2 h₂, fun _ => (ih h₂.ready _).mono fun _ d₃ h₃ => h₂.trans h₃⟩

@[simp]
theorem write_scReg (t : TaskFile) (b : ℕ) : t.write scReg b = { t with sc := t.sc.push b } := rfl

@[simp]
theorem write_lba0Reg (t : TaskFile) (b : ℕ) : t.write lba0Reg b = { t with lba0 := t.lba0.push b } := rfl

@[simp]
theorem write_lba1Reg (t : TaskFile) (b : ℕ) : t.write lba1Reg b = { t with lba1 := t.lba1.push b } := rfl

@[simp]
theorem write_lba2Reg (t : TaskFile) (b : ℕ) : t.write lba2Reg b = { t with lba2 := t.lba2.push b } := rfl

@[simp]
theorem write_devReg (t : TaskFile) (b : ℕ) : t.write devReg b = { t with dev := b } := rfl

theorem ensures_out8 {port v : ℕ} {Q : Unit → Disk → Prop} (hport : port ≠ cmdReg) :
    Ensures (out8 port v) d Q ↔ Q () { d with regs := d.regs.write port (v % 256) } := by
  rw [out8, ensures_modify, if_neg hport]

theorem ensures_out8_cmd {v : ℕ} {Q : Unit → Disk → Prop} :
    Ensures (out8 cmdReg v) d Q ↔ Q () { d with commands := d.commands ++ [(v % 256, d.regs)] } := by
  rw [out8, ensures_modify, if_pos rfl]

/-- What the registers hold when the command is given. -/
theorem ensures_programLba48 {Q : Unit → Disk → Prop} : Ensures (programLba48 cmd sector count) d Q ↔
    Q () { d with
      regs := programmed sector count
      commands := d.commands ++ [(cmd % 256, programmed sector count)] } := by
  have hc : count % 256 % 256 = count % 256 := Nat.mod_mod _ _
  have h0 : sector / 2 ^ 32 % 256 % 256 = sector / 2 ^ 32 % 256 := Nat.mod_mod _ _
  have h1 : sector / 2 ^ 32 / 2 ^ 8 % 256 % 256 = sector / 2 ^ 40 % 256 := by omega
  have h2 : sector / 2 ^ 32 / 2 ^ 16 % 256 % 256 = sector / 2 ^ 48 % 256 := by omega
  have l0 : sector % 2 ^ 32 % 256 % 256 = sector % 256 := by omega
  have l1 : sector % 2 ^ 32 / 2 ^ 8 % 256 % 256 = sector / 2 ^ 8 % 256 := by omega
  have l2 : sector % 2 ^ 32 / 2 ^ 16 % 256 % 256 = sector / 2 ^ 16 % 256 := by omega
  have hdev : lbaMode % 256 = lbaMode := rfl
  have hport : devctlReg ≠ cmdReg ∧ scReg ≠ cmdReg ∧ lba0Reg ≠ cmdReg ∧ lba1Reg ≠ cmdReg ∧ lba2Reg ≠ cmdReg ∧
      devReg ≠ cmdReg := by decide
  simp only [programLba48, ensures_bind, ensures_out8, ensures_out8_cmd, ne_eq, hport, not_false_eq_true,
    write_scReg, write_lba0Reg, write_lba1Reg, write_lba2Reg, write_devReg, Fifo.push, hc, h0, h1,
    h2, l0, l1, l2, hdev, programmed]

theorem gives_readSectorsLba48 (h : d.Ready fuel) :
    Gives (readSectorsLba48 fuel sector count) d cmdReadLba48 (programmed sector count) := by
  rw [Gives, readSectorsLba48, ensures_bind]
  refine (ensures_ideWaitReady h).mono fun _ d₁ h₁ => ?_
  rw [ensures_bind, ensures_programLba48, ensures_bind]
  have hready : Disk.Ready { d₁ with
      regs := programmed sector count
      commands := d₁.commands ++ [(cmdReadLba48 % 256, programmed sector count)] } fuel := h₁.ready
  refine (ensures_ideWaitReady hready).mono fun _ d₂ h₂ => ?_
  refine (ensures_readLoop h₂.ready count).mono fun _ d₃ h₃ => ?_
  rw [h₃.commands, h₂.commands, h₁.commands]
  rfl

theorem gives_writeSectorsLba48 (h : d.Ready fuel) :
    Gives (writeSectorsLba48 fuel data sector count) d cmdWriteLba48 (programmed sector count) := by
  rw [Gives, writeSectorsLba48, ensures_bind, ensures_programLba48, ensures_bind]
  have hready : Disk.Ready { d with
      regs := programmed sector count
      commands := d.commands ++ [(cmdWriteLba48 % 256, programmed sector count)] } fuel := h
  refine (ensures_ideWaitReady hready).mono fun _ d₁ h₁ => ?_
  refine (ensures_writeLoop h₁.ready count data).mono fun _ d₂ h₂ => ?_
  rw [h₂.commands, h₁.commands]
  rfl

/-- A run gives one command. -/
theorem Gives.unique {α : Type} {m : DiskM α} (h : Gives m d cmd t) (h' : Gives m d cmd t') : t = t' := by
  obtain ⟨a, d', hrun, hd'⟩ := h
  have := h'.of_run hrun
  rw [hd', List.append_cancel_left_eq, List.singleton_inj, Prod.mk.injEq] at this
  exact this.2

theorem count_programmed (hcount : count ≤ 65535) : (programmed sector count).count = count := by
  simp only [programmed, TaskFile.count]
  omega

/-- The address that the registers denote: the bits 24 to 31 are lost, and those above them are too low. -/
theorem sector_programmed (hsector : sector < 2 ^ 48) :
    (programmed sector count).sector = sector % 2 ^ 24 + 2 ^ 24 * (sector / 2 ^ 32) := by
  simp only [programmed, TaskFile.sector]
  omega

/-- **Both functions address the sectors asked for exactly when the first one is below `2 ^ 24`.** -/
theorem addressed_iff (h : d.Ready fuel) (hsector : sector < 2 ^ 48) (hcount : count ≤ 65535) :
    Addressed fuel d data sector count ↔ sector < 2 ^ 24 := by
  have hread : Gives (readSectorsLba48 fuel sector count) d cmdReadLba48 (programmed sector count) :=
    gives_readSectorsLba48 h
  have hwrite : Gives (writeSectorsLba48 fuel data sector count) d cmdWriteLba48 (programmed sector count) :=
    gives_writeSectorsLba48 h
  have hdenotes : (programmed sector count).sector = sector % 2 ^ 24 + 2 ^ 24 * (sector / 2 ^ 32) :=
    sector_programmed hsector
  constructor
  · rintro ⟨t, hread', -, hsec, -⟩
    rw [hread'.unique hread, hdenotes] at hsec
    omega
  · intro hlt
    refine ⟨_, hread, hwrite, ?_, count_programmed hcount⟩
    rw [hdenotes]
    omega

end

/-- A disk that is always ready, with registers that hold zeros. -/
def idleDisk : Disk where
  regs := ⟨⟨0, 0⟩, ⟨0, 0⟩, ⟨0, 0⟩, ⟨0, 0⟩, 0⟩
  commands := []
  written := []
  in8 _ _ := 0x40
  in16 _ := 0

theorem ready_idleDisk : idleDisk.Ready 1 := fun _ => ⟨0, Nat.one_pos, show ¬busy 0x40 by decide⟩

/-- A low sector is addressed. -/
theorem addressed_idleDisk : Addressed 1 idleDisk (List.replicate 256 0) 5 1 :=
  (addressed_iff ready_idleDisk (by decide) (by decide)).2 (by decide)

/-- The first sector with 25 bits is not: the registers denote sector 0. -/
theorem not_addressed_idleDisk : ¬Addressed 1 idleDisk (List.replicate 256 0) (2 ^ 24) 1 := by
  rintro ⟨t, hread, -, hsector, -⟩
  rw [hread.unique (gives_readSectorsLba48 ready_idleDisk)] at hsector
  exact absurd hsector (by decide)

end Ide

end Kernel64
