import Kernel64.Irq.Descriptors
import Kernel64.Lib.Pic

/-!
# Interrupt requests (`interrupt.c`, `i8259a.c`)

The kernel counts for each line how often it is masked, and masks the line at the controllers while
the count is not 0: once while the line has no handler, and once more while its handler runs. The
driver of the controllers keeps the mask of all the lines and writes the half that has changed.

`isr_common_handler` is cut where it calls the handler: `isrCommonHandler` is the part before,
`isrFinish` the one after. A pointer to a handler is any value of a type `ι`, and the null pointer is
`none`.
-/

namespace Kernel64

namespace Irq

open Machine Entry

/-! ### The driver of the controllers -/

/-- `PIC_MASTER_CMD_PORT` -/
def picMasterCmdPort : ℕ := 0x20

/-- `PIC_MASTER_DATA_PORT` -/
def picMasterDataPort : ℕ := 0x21

/-- `PIC_SLAVE_CMD_PORT` -/
def picSlaveCmdPort : ℕ := 0xA0

/-- `PIC_SLAVE_DATA_PORT` -/
def picSlaveDataPort : ℕ := 0xA1

/-- `PIC_SLAVE_IRQ` -/
def picSlaveIrq : ℕ := 0x02

/-- `PIC_SLAVE_IRQ_BIT` -/
def picSlaveIrqBit : BitVec 32 := 1#32 <<< picSlaveIrq

/-- `PIC_IRQS_PER_CHIP` -/
def picIrqsPerChip : BitVec 32 := 8#32

/-- `PIC_EOI_CMD` -/
def picEoiCmd : ℕ := 0x60

/-- `PIC_ICW1_EXPECT_ICW4` -/
def picIcw1ExpectIcw4 : BitVec 32 := 1#32 <<< 0

/-- `PIC_ICW1_INIT` -/
def picIcw1Init : BitVec 32 := 1#32 <<< 4

/-- `PIC_ICW4_8086` -/
def picIcw4 : BitVec 32 := 1#32 <<< 0

/-- `pic_irq_mask`, and the controllers behind their ports. -/
structure Driver where
  picIrqMask : BitVec 32
  pics : Pic.Pair
  deriving DecidableEq, Repr

/-- `out8` -/
def out8 (port : ℕ) (data : BitVec 32) (d : Driver) : Driver :=
  let v := data.setWidth 8
  if port = picMasterCmdPort then { d with pics.master := d.pics.master.command v }
  else if port = picMasterDataPort then { d with pics.master := d.pics.master.data v }
  else if port = picSlaveCmdPort then { d with pics.slave := d.pics.slave.command v }
  else if port = picSlaveDataPort then { d with pics.slave := d.pics.slave.data v }
  else d

/-- `pic_remap` -/
def picRemap (offset : BitVec 32) (d : Driver) : Driver :=
  d |> out8 picMasterCmdPort (picIcw1ExpectIcw4 ||| picIcw1Init)
    |> out8 picSlaveCmdPort (picIcw1ExpectIcw4 ||| picIcw1Init)
    |> out8 picMasterDataPort offset
    |> out8 picSlaveDataPort (offset + picIrqsPerChip)
    |> out8 picMasterDataPort picSlaveIrqBit
    |> out8 picSlaveDataPort (BitVec.ofNat 32 picSlaveIrq)
    |> out8 picMasterDataPort picIcw4
    |> out8 picSlaveDataPort picIcw4
    |> out8 picMasterDataPort (d.picIrqMask &&& 0xFF#32)
    |> out8 picSlaveDataPort ((d.picIrqMask >>> 8) &&& 0xFF#32)

/-- Write the half of `pic_irq_mask` that the line is in. -/
def writeMask (irq : ℕ) (d : Driver) : Driver :=
  if irq < 8 then out8 picMasterDataPort (d.picIrqMask &&& 0xFF#32) d
  else out8 picSlaveDataPort ((d.picIrqMask >>> 8) &&& 0xFF#32) d

/-- `pic_mask` -/
def picMask (irq : ℕ) (d : Driver) : Driver :=
  writeMask irq { d with picIrqMask := d.picIrqMask ||| 1#32 <<< irq }

/-- `pic_unmask` -/
def picUnmask (irq : ℕ) (d : Driver) : Driver :=
  writeMask irq { d with picIrqMask := d.picIrqMask &&& ~~~(1#32 <<< irq) }

/-- `pic_eoi` -/
def picEoi (irq : ℕ) (d : Driver) : Driver :=
  if 8 ≤ irq then
    d |> out8 picSlaveCmdPort (BitVec.ofNat 32 (picEoiCmd + irq % 8))
      |> out8 picMasterCmdPort (BitVec.ofNat 32 (picEoiCmd + picSlaveIrq))
  else out8 picMasterCmdPort (BitVec.ofNat 32 (picEoiCmd + irq)) d

/-! ### Masking and the table of handlers -/

/-- `IDT_IRQS` -/
def idtIrqs : ℕ := 16

/-- `IDT_EXCEPTIONS` -/
def idtExceptions : ℕ := 32

/-- `IDT_SYSCALL` -/
def idtSyscall : ℕ := 0x80

/-- `KERNEL_CS` -/
def kernelCodeSegment : BitVec 16 := 0x08#16

/-- The tables of `interrupt.c` and the driver. -/
structure Irqs (ι : Type) where
  idt : ℕ → IdtEntry
  handler : Fin idtIrqs → Option ι
  irqmaskCount : Fin idtIrqs → ℤ
  chip : Driver

variable {ι : Type}

/-- `setup_idt_entry` -/
def setupIdtEntry (no : ℕ) (cs : BitVec 16) (isr flags : Word) (s : Irqs ι) : Irqs ι :=
  { s with idt := Function.update s.idt no (packIdtEntry cs isr (flags ||| idtPresent)) }

/-- `clear_idt_entry` -/
def clearIdtEntry (no : ℕ) (s : Irqs ι) : Irqs ι :=
  { s with idt := Function.update s.idt no ⟨0#64, 0#64⟩ }

/-- `setup_irq` -/
def setupIrq (isr : Word) (no : ℕ) (s : Irqs ι) : Irqs ι :=
  setupIdtEntry no kernelCodeSegment isr idt64Int s

/-- `setup_syscall` -/
def setupSyscall (isr : Word) (no : ℕ) (s : Irqs ι) : Irqs ι :=
  setupIdtEntry no kernelCodeSegment isr (idt64Trap ||| idtUser) s

/-- `mask_irq` -/
def maskIrq (irq : Fin idtIrqs) (s : Irqs ι) : Irqs ι :=
  { s with
    irqmaskCount := Function.update s.irqmaskCount irq (s.irqmaskCount irq + 1)
    chip := if s.irqmaskCount irq = 0 then picMask irq s.chip else s.chip }

/-- `unmask_irq` -/
def unmaskIrq (irq : Fin idtIrqs) (s : Irqs ι) : Irqs ι :=
  { s with
    irqmaskCount := Function.update s.irqmaskCount irq (s.irqmaskCount irq - 1)
    chip := if s.irqmaskCount irq - 1 = 0 then picUnmask irq s.chip else s.chip }

/-- `ack_irq` -/
def ackIrq (irq : Fin idtIrqs) (s : Irqs ι) : Irqs ι := { s with chip := picEoi irq s.chip }

variable (sym : Symbols)

/-- `register_irq_handler` -/
def registerIrqHandler (irq : Fin idtIrqs) (isr : ι) (s : Irqs ι) : Irqs ι :=
  { s with handler := Function.update s.handler irq (some isr) }
    |> setupIrq (sym.entry (irq + idtExceptions)) (irq + idtExceptions)
    |> unmaskIrq irq

/-- `unregister_irq_handler` -/
def unregisterIrqHandler [DecidableEq ι] (irq : Fin idtIrqs) (isr : ι) (s : Irqs ι) : Irqs ι :=
  if s.handler irq = some isr then
    let s := maskIrq irq s
    clearIdtEntry (irq + idtExceptions) { s with handler := Function.update s.handler irq none }
  else s

/-- `setup_ints` -/
def setupInts (s : Irqs ι) : Irqs ι :=
  let s := { s with irqmaskCount := fun _ => 1 }
  let s := (List.range idtExceptions).foldl (fun s i => setupIrq (sym.entry i) i s) s
  let s := setupSyscall sym.syscallHandler idtSyscall s
  { s with chip := picRemap (BitVec.ofNat 32 idtExceptions) s.chip }

/-! ### Interrupts -/

/-- What `isr_common_handler` does before it calls a handler. -/
inductive Outcome (ι : Type) where
  /-- an exception -/
  | exception
  /-- a line that is masked and acknowledged, with the handler to call -/
  | irq (irqno : Fin idtIrqs) (irq : Option ι) (s : Irqs ι)
  /-- a line that the tables do not have -/
  | outside

/-- `isr_common_handler`, up to the call of the handler. -/
def isrCommonHandler (intno : ℕ) (s : Irqs ι) : Outcome ι :=
  if intno < idtExceptions then .exception
  else if h : intno - idtExceptions < idtIrqs then
    .irq ⟨intno - idtExceptions, h⟩ (s.handler ⟨intno - idtExceptions, h⟩)
      (ackIrq ⟨intno - idtExceptions, h⟩ (maskIrq ⟨intno - idtExceptions, h⟩ s))
  else .outside

/-- `isr_common_handler`, behind the call of the handler. -/
def isrFinish (irqno : Fin idtIrqs) (s : Irqs ι) : Irqs ι := unmaskIrq irqno s

end Irq

end Kernel64
