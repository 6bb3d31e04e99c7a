import Kernel64.Entry.Interrupts

/-!
# Descriptors (`__setup_idt_entry`, `setup_tss_desc`)

The kernel packs the gates of the interrupt table and the descriptor of the task state segment into
two quadwords each. `gateOf` and `segmentOf` are how the processor takes these apart, and what was
packed comes back from them (`gateOf_packIdtEntry`, `segmentOf_packTssDesc`).
-/

namespace Kernel64

namespace Irq

open Machine

/-! ### Gates -/

/-- `struct idt_entry` -/
structure IdtEntry where
  low : Word
  high : Word
  deriving DecidableEq, Repr

/-- `IDT_PRESENT` -/
def idtPresent : Word := 1#64 <<< 47

/-- `IDT_64INT` -/
def idt64Int : Word := 14#64 <<< 40

/-- `IDT_64TRAP` -/
def idt64Trap : Word := 15#64 <<< 40

/-- `IDT_USER` -/
def idtUser : Word := 3#64 <<< 45

/-- `__setup_idt_entry` -/
def packIdtEntry (cs : BitVec 16) (isr flags : Word) : IdtEntry where
  low := (isr &&& 0xFFFF#64) ||| (cs.setWidth 64 <<< 16) ||| ((isr &&& 0xFFFF0000#64) <<< 32) ||| flags
  high := (isr >>> 32) &&& 0xFFFFFFFF#64

/-- The gate that the processor reads from an entry, if it is present, is an interrupt or trap gate,
and keeps the stack. -/
def gateOf (e : IdtEntry) : Option Gate :=
  if e.low.getLsbD 47 ∧ e.low.extractLsb' 32 3 = 0#3 ∧ e.low.extractLsb' 41 4 = 7#4 then
    some {
      target := e.high.extractLsb' 0 32 ++ (e.low.extractLsb' 48 16 ++ e.low.extractLsb' 0 16)
      cs := (e.low.extractLsb' 16 16).setWidth 64
      trap := e.low.getLsbD 40
      dpl := (e.low.extractLsb' 45 2).toNat }
  else none

/-- The flags of a gate that is present. -/
def gateFlags (trap : Bool) (dpl : BitVec 2) : Word :=
  (if trap then idt64Trap else idt64Int) ||| (dpl.setWidth 64 <<< 45) ||| idtPresent

theorem gateFlags_getLsbD (trap : Bool) (dpl : BitVec 2) {i : ℕ} (hi : i < 64) :
    (gateFlags trap dpl).getLsbD i = ((decide (41 ≤ i ∧ i < 44) || decide (i = 40) && trap) ||
      (decide (45 ≤ i ∧ i < 47) && dpl.getLsbD (i - 45)) || decide (i = 47)) := by
  have hint : ∀ i < 64, idt64Int.getLsbD i = decide (41 ≤ i ∧ i < 44) := by decide
  have htrap : ∀ i < 64, idt64Trap.getLsbD i = decide (40 ≤ i ∧ i < 44) := by decide
  have hpresent : ∀ i < 64, idtPresent.getLsbD i = decide (i = 47) := by decide
  have hdpl : ∀ j, 2 ≤ j → dpl.getLsbD j = false := fun j hj => BitVec.getLsbD_of_ge dpl j hj
  rw [gateFlags, BitVec.getLsbD_or, BitVec.getLsbD_or, hpresent i hi]
  cases trap <;> simp [BitVec.getLsbD_shiftLeft, hint i hi, htrap i hi] <;> grind

variable (cs : BitVec 16) (isr : Word) (trap : Bool) (dpl : BitVec 2)

/-- The bits of a packed entry. -/
theorem packIdtEntry_getLsbD {i : ℕ} (hi : i < 64) :
    (packIdtEntry cs isr (gateFlags trap dpl)).low.getLsbD i =
      ((decide (i < 16) && isr.getLsbD i) || (decide (16 ≤ i ∧ i < 32) && cs.getLsbD (i - 16)) ||
        (decide (48 ≤ i) && isr.getLsbD (i - 32)) || (gateFlags trap dpl).getLsbD i) := by
  have hlow : ∀ i < 64, (0xFFFF#64).getLsbD i = decide (i < 16) := by decide
  have hmid : ∀ i < 64, (0xFFFF0000#64).getLsbD i = decide (16 ≤ i ∧ i < 32) := by decide
  have hcs : ∀ j, 16 ≤ j → cs.getLsbD j = false := fun j hj => BitVec.getLsbD_of_ge cs j hj
  simp only [packIdtEntry, BitVec.getLsbD_or, BitVec.getLsbD_and, BitVec.getLsbD_shiftLeft,
    BitVec.getLsbD_setWidth, hlow i hi, hmid (i - 32) (by omega)]
  grind

/-- A field of a packed entry, bit by bit. -/
theorem extractLsb'_packIdtEntry {n k : ℕ} (v : BitVec k)
    (hv : ∀ i < k, (packIdtEntry cs isr (gateFlags trap dpl)).low.getLsbD (n + i) = v.getLsbD i) :
    (packIdtEntry cs isr (gateFlags trap dpl)).low.extractLsb' n k = v := by
  refine BitVec.eq_of_getLsbD_eq fun i hi => ?_
  rw [BitVec.getLsbD_extractLsb', hv i hi]
  simp [hi]

/-- **The processor reads the gate that was packed.** -/
theorem gateOf_packIdtEntry :
    gateOf (packIdtEntry cs isr (gateFlags trap dpl)) = some ⟨isr, cs.setWidth 64, trap, dpl.toNat⟩ := by
  have hbit : ∀ i < 64, _ := fun i hi => packIdtEntry_getLsbD cs isr trap dpl (i := i) hi
  have hflag : ∀ i < 64, _ := fun i hi => gateFlags_getLsbD trap dpl (i := i) hi
  have hist : (packIdtEntry cs isr (gateFlags trap dpl)).low.extractLsb' 32 3 = 0#3 :=
    extractLsb'_packIdtEntry _ _ _ _ _ fun i hi => by
      rw [hbit _ (by omega), hflag _ (by omega)]
      simp
      omega
  have htype : (packIdtEntry cs isr (gateFlags trap dpl)).low.extractLsb' 41 4 = 7#4 :=
    extractLsb'_packIdtEntry _ _ _ _ _ fun i hi => by
      have h7 : ∀ i < 4, (7#4).getLsbD i = decide (i < 3) := by decide
      rw [hbit _ (by omega), hflag _ (by omega), h7 i hi]
      grind
  have hdpl : (packIdtEntry cs isr (gateFlags trap dpl)).low.extractLsb' 45 2 = dpl :=
    extractLsb'_packIdtEntry _ _ _ _ _ fun i hi => by
      rw [hbit _ (by omega), hflag _ (by omega)]
      grind
  have hcs : (packIdtEntry cs isr (gateFlags trap dpl)).low.extractLsb' 16 16 = cs :=
    extractLsb'_packIdtEntry _ _ _ _ _ fun i hi => by
      rw [hbit _ (by omega), hflag _ (by omega)]
      grind
  have hlow : (packIdtEntry cs isr (gateFlags trap dpl)).low.extractLsb' 0 16 = isr.extractLsb' 0 16 :=
    extractLsb'_packIdtEntry _ _ _ _ _ fun i hi => by
      rw [hbit _ (by omega), hflag _ (by omega), BitVec.getLsbD_extractLsb']
      grind
  have hmid : (packIdtEntry cs isr (gateFlags trap dpl)).low.extractLsb' 48 16 = isr.extractLsb' 16 16 :=
    extractLsb'_packIdtEntry _ _ _ _ _ fun i hi => by
      rw [hbit _ (by omega), hflag _ (by omega), BitVec.getLsbD_extractLsb']
      grind
  have hhigh : (packIdtEntry cs isr (gateFlags trap dpl)).high.extractLsb' 0 32 = isr.extractLsb' 32 32 := by
    have hmask : ∀ i < 64, (0xFFFFFFFF#64).getLsbD i = decide (i < 32) := by decide
    refine BitVec.eq_of_getLsbD_eq fun i hi => ?_
    simp only [packIdtEntry, BitVec.getLsbD_extractLsb', BitVec.getLsbD_and, BitVec.getLsbD_ushiftRight,
      hmask (0 + i) (by omega)]
    grind
  have htarget : (isr.extractLsb' 32 32 ++ (isr.extractLsb' 16 16 ++ isr.extractLsb' 0 16) : BitVec 64) =
      isr := by
    refine BitVec.eq_of_getLsbD_eq fun i hi => ?_
    simp only [BitVec.getLsbD_append, BitVec.getLsbD_extractLsb']
    grind
  rw [gateOf, if_pos ⟨by rw [hbit 47 (by omega), hflag 47 (by omega)]; simp, hist, htype⟩, hhigh, hmid,
    hlow, hcs, hdpl, htarget, hbit 40 (by omega), hflag 40 (by omega)]
  simp

theorem gateOf_zero : gateOf ⟨0#64, 0#64⟩ = none := by decide

/-! ### The task state segment -/

/-- `struct tss_desc` -/
structure TssDesc where
  low : Word
  high : Word
  deriving DecidableEq, Repr

/-- `IO_MAP_WORDS`, which counts eight bits to a word -/
def ioMapWords : ℕ := 2 ^ 16 / 8

/-- `sizeof(struct tss)` -/
def tssSize : ℕ := 4 + 3 * 8 + 8 + 7 * 8 + 8 + 2 + 2 + (ioMapWords + 1) * 8

/-- `setup_tss_desc` -/
def packTssDesc (tss : Word) : TssDesc :=
  let limit : Word := BitVec.ofNat 64 (tssSize - 1)
  { low := (limit &&& 0xFFFF#64) ||| ((tss &&& 0xFFFFFF#64) <<< 16) ||| ((9#64 ||| 1#64 <<< 7) <<< 40)
      ||| ((limit &&& 0xF0000#64) <<< 32) ||| ((tss &&& 0xFF000000#64) <<< 32)
    high := tss >>> 32 }

/-- A system segment, as the processor reads it. -/
structure Segment where
  base : Word
  limit : ℕ
  type : BitVec 4
  dpl : BitVec 2
  deriving DecidableEq, Repr

/-- The system segment of a descriptor that is present and counts its limit in bytes. -/
def segmentOf (d : TssDesc) : Option Segment :=
  if d.low.getLsbD 47 ∧ d.low.getLsbD 44 = false ∧ d.low.getLsbD 55 = false then
    some {
      base := d.high.extractLsb' 0 32 ++ (d.low.extractLsb' 56 8 ++ d.low.extractLsb' 16 24)
      limit := (d.low.extractLsb' 48 4 ++ d.low.extractLsb' 0 16).toNat
      type := d.low.extractLsb' 40 4
      dpl := d.low.extractLsb' 45 2 }
  else none

/-- The bits of a packed descriptor. -/
theorem packTssDesc_getLsbD (tss : Word) {i : ℕ} (hi : i < 64) :
    (packTssDesc tss).low.getLsbD i = ((0x189000000006F#64).getLsbD i ||
      (decide (16 ≤ i ∧ i < 40) && tss.getLsbD (i - 16)) || (decide (56 ≤ i) && tss.getLsbD (i - 32))) := by
  have hlow : ∀ i < 64, (0xFFFFFF#64).getLsbD i = decide (i < 24) := by decide
  have hmid : ∀ i < 64, (0xFF000000#64).getLsbD i = decide (24 ≤ i ∧ i < 32) := by decide
  have hconst : ∀ i < 64, ((BitVec.ofNat 64 (tssSize - 1) &&& 0xFFFF#64).getLsbD i ||
      ((9#64 ||| 1#64 <<< 7) <<< 40).getLsbD i ||
      ((BitVec.ofNat 64 (tssSize - 1) &&& 0xF0000#64) <<< 32).getLsbD i) =
      (0x189000000006F#64).getLsbD i := by decide
  rw [← hconst i hi, packTssDesc]
  have hfirst : ((tss &&& 0xFFFFFF#64) <<< 16).getLsbD i =
      (decide (16 ≤ i ∧ i < 40) && tss.getLsbD (i - 16)) := by
    rw [BitVec.getLsbD_shiftLeft, BitVec.getLsbD_and, hlow (i - 16) (by omega)]
    grind
  have hsecond : ((tss &&& 0xFF000000#64) <<< 32).getLsbD i =
      (decide (56 ≤ i) && tss.getLsbD (i - 32)) := by
    rw [BitVec.getLsbD_shiftLeft, BitVec.getLsbD_and, hmid (i - 32) (by omega)]
    grind
  simp only [BitVec.getLsbD_or] at *
  rw [hfirst, hsecond]
  grind

/-- **The processor finds the task state segment where it is**: the descriptor is that of an available
64-bit task state segment of `sizeof(struct tss)` bytes, which is more than 16 bits of the limit hold. -/
theorem segmentOf_packTssDesc (tss : Word) :
    segmentOf (packTssDesc tss) = some ⟨tss, tssSize - 1, 9#4, 0#2⟩ := by
  have hbit : ∀ i < 64, _ := fun i hi => packTssDesc_getLsbD tss (i := i) hi
  have hconst : ∀ i < 64, (0x189000000006F#64).getLsbD i =
      decide ((i < 4 ∨ i = 5 ∨ i = 6) ∨ i = 40 ∨ i = 43 ∨ i = 47 ∨ i = 48) := by decide
  have hextract : ∀ {n k : ℕ} (v : BitVec k), (∀ i < k, (packTssDesc tss).low.getLsbD (n + i) = v.getLsbD i) →
      (packTssDesc tss).low.extractLsb' n k = v := by
    intro n k v hv
    refine BitVec.eq_of_getLsbD_eq fun i hi => ?_
    rw [BitVec.getLsbD_extractLsb', hv i hi]
    simp [hi]
  have hlow : (packTssDesc tss).low.extractLsb' 0 16 = 0x6F#16 :=
    hextract _ fun i hi => by
      have h : ∀ i < 16, (0x6F#16).getLsbD i = decide (i < 4 ∨ i = 5 ∨ i = 6) := by decide
      rw [hbit _ (by omega), hconst _ (by omega), h i hi]
      grind
  have hbase : (packTssDesc tss).low.extractLsb' 16 24 = tss.extractLsb' 0 24 :=
    hextract _ fun i hi => by
      rw [hbit _ (by omega), hconst _ (by omega), BitVec.getLsbD_extractLsb']
      grind
  have htype : (packTssDesc tss).low.extractLsb' 40 4 = 9#4 :=
    hextract _ fun i hi => by
      have h : ∀ i < 4, (9#4).getLsbD i = decide (i = 0 ∨ i = 3) := by decide
      rw [hbit _ (by omega), hconst _ (by omega), h i hi]
      grind
  have hdpl : (packTssDesc tss).low.extractLsb' 45 2 = 0#2 :=
    hextract _ fun i hi => by
      rw [hbit _ (by omega), hconst _ (by omega)]
      grind
  have hlimit : (packTssDesc tss).low.extractLsb' 48 4 = 1#4 :=
    hextract _ fun i hi => by
      have h : ∀ i < 4, (1#4).getLsbD i = decide (i = 0) := by decide
      rw [hbit _ (by omega), hconst _ (by omega), h i hi]
      grind
  have hmid : (packTssDesc tss).low.extractLsb' 56 8 = tss.extractLsb' 24 8 :=
    hextract _ fun i hi => by
      rw [hbit _ (by omega), hconst _ (by omega), BitVec.getLsbD_extractLsb']
      grind
  have hhigh : (packTssDesc tss).high.extractLsb' 0 32 = tss.extractLsb' 32 32 := by
    refine BitVec.eq_of_getLsbD_eq fun i hi => ?_
    simp only [packTssDesc, BitVec.getLsbD_extractLsb', BitVec.getLsbD_ushiftRight]
    grind
  have hwhole : (tss.extractLsb' 32 32 ++ (tss.extractLsb' 24 8 ++ tss.extractLsb' 0 24) : BitVec 64) =
      tss := by
    refine BitVec.eq_of_getLsbD_eq fun i hi => ?_
    simp only [BitVec.getLsbD_append, BitVec.getLsbD_extractLsb']
    grind
  have hpresent : (packTssDesc tss).low.getLsbD 47 ∧ (packTssDesc tss).low.getLsbD 44 = false ∧
      (packTssDesc tss).low.getLsbD 55 = false := by
    rw [hbit 47 (by omega), hbit 44 (by omega), hbit 55 (by omega), hconst 47 (by omega),
      hconst 44 (by omega), hconst 55 (by omega)]
    simp
  rw [segmentOf, if_pos hpresent, hlow, hbase, htype, hdpl, hlimit, hmid, hhigh, hwhole]
  rfl

end Irq

end Kernel64
