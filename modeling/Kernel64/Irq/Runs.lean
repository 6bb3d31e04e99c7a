import Kernel64.Entry.Syscalls
import Kernel64.Irq.Model
import Mathlib.Data.List.Nodup
import Mathlib.Logic.Relation
import Mathlib.Order.WellFounded

/-!
# Runs of the interrupt system

In a run devices raise lines, the processor accepts interrupts and dispatches them, handlers finish,
and handlers are registered and unregistered, in any order. A handler may itself be interrupted, and
its thread may be switched out meanwhile.

Each of the steps is taken whole: the kernel does them with interrupts disabled.
-/

namespace Kernel64

namespace Irq

open Machine Entry

/-! ### The controllers under the driver -/

/-- The controllers have been programmed, the lines masked are those of `pic_irq_mask`, and those in
service are `m` and `s`. -/
structure Driver.Ready (d : Driver) (m s : BitVec 8) : Prop where
  master : d.pics.master.Programmed 32#8 4#8 (d.picIrqMask.setWidth 8)
  slave : d.pics.slave.Programmed 40#8 2#8 ((d.picIrqMask >>> 8).setWidth 8)
  masterIsr : d.pics.master.isr = m
  slaveIsr : d.pics.slave.isr = s

theorem setWidth_low (v : BitVec 32) : (v &&& 0xFF#32).setWidth 8 = v.setWidth 8 := by
  rw [BitVec.setWidth_and]
  exact BitVec.and_allOnes

/-- The words that `pic_remap` writes to each controller. -/
theorem picRemap_eq (d : Driver) : picRemap 32#32 d =
    { d with pics := ⟨
      ((((d.pics.master.command 0x11#8).data 32#8).data 4#8).data 1#8).data (d.picIrqMask.setWidth 8),
      ((((d.pics.slave.command 0x11#8).data 40#8).data 2#8).data 1#8).data
        ((d.picIrqMask >>> 8).setWidth 8)⟩ } := by
  rw [← setWidth_low d.picIrqMask, ← setWidth_low (d.picIrqMask >>> 8)]
  rfl

/-- `pic_remap` programs the controllers, whatever has been written to them before. -/
theorem picRemap_ready {d : Driver} {m s : BitVec 8} (hm : d.pics.master.isr = m)
    (hs : d.pics.slave.isr = s) : (picRemap 32#32 d).Ready m s := by
  rw [picRemap_eq]
  exact ⟨Pic.Chip.programmed_init rfl, Pic.Chip.programmed_init rfl, Pic.Chip.isr_init.trans hm,
    Pic.Chip.isr_init.trans hs⟩

theorem out8_masterData (d : Driver) (v : BitVec 32) : out8 picMasterDataPort v d =
    { d with pics := ⟨d.pics.master.data (v.setWidth 8), d.pics.slave⟩ } := rfl

theorem out8_slaveData (d : Driver) (v : BitVec 32) : out8 picSlaveDataPort v d =
    { d with pics := ⟨d.pics.master, d.pics.slave.data (v.setWidth 8)⟩ } := rfl

variable {d : Driver} {m s : BitVec 8} {irq : ℕ}

/-- Writing the half of the mask that has changed is writing all of it. -/
theorem writeMask_eq {mask : BitVec 32} (h : d.Ready m s)
    (hsame : ∀ i < 16, i ≠ irq → mask.getLsbD i = d.picIrqMask.getLsbD i) :
    writeMask irq { d with picIrqMask := mask } = ⟨mask,
      { d.pics.master with imr := mask.setWidth 8 }, { d.pics.slave with imr := (mask >>> 8).setWidth 8 }⟩ := by
  by_cases hirq : irq < 8
  · have hslave : (mask >>> 8).setWidth 8 = d.pics.slave.imr := by
      rw [h.slave.imr]
      refine BitVec.eq_of_getLsbD_eq fun i hi => ?_
      simp [hi, hsame (8 + i) (by omega) (by omega)]
    rw [writeMask, if_pos hirq, out8_masterData, h.master.data_eq, setWidth_low, hslave]
  · have hmaster : mask.setWidth 8 = d.pics.master.imr := by
      rw [h.master.imr]
      refine BitVec.eq_of_getLsbD_eq fun i hi => ?_
      simp [hi, hsame i (by omega) (by omega)]
    rw [writeMask, if_neg hirq, out8_slaveData, h.slave.data_eq, setWidth_low, hmaster]

theorem writeMask_ready {mask : BitVec 32} (h : d.Ready m s)
    (hsame : ∀ i < 16, i ≠ irq → mask.getLsbD i = d.picIrqMask.getLsbD i) :
    (writeMask irq { d with picIrqMask := mask }).Ready m s := by
  rw [writeMask_eq h hsame]
  exact ⟨⟨h.master.expect, h.master.vector, h.master.cascade, h.master.mode, rfl⟩,
    ⟨h.slave.expect, h.slave.vector, h.slave.cascade, h.slave.mode, rfl⟩, h.masterIsr, h.slaveIsr⟩

theorem getLsbD_mask (v : BitVec 32) {i j : ℕ} (hj : j < 16) :
    (v ||| 1#32 <<< i).getLsbD j = (v.getLsbD j || decide (j = i)) := by
  simp only [BitVec.getLsbD_or, BitVec.getLsbD_shiftLeft, BitVec.getLsbD_one]
  grind

theorem getLsbD_unmask (v : BitVec 32) {i j : ℕ} (hj : j < 16) :
    (v &&& ~~~(1#32 <<< i)).getLsbD j = (v.getLsbD j && decide (j ≠ i)) := by
  simp only [BitVec.getLsbD_and, BitVec.getLsbD_not, BitVec.getLsbD_shiftLeft, BitVec.getLsbD_one]
  grind

/-- `pic_mask` -/
theorem picMask_ready (h : d.Ready m s) : (picMask irq d).Ready m s :=
  writeMask_ready h fun i hi hne => by rw [getLsbD_mask _ hi]; simp [hne]

/-- `pic_unmask` -/
theorem picUnmask_ready (h : d.Ready m s) : (picUnmask irq d).Ready m s :=
  writeMask_ready h fun i hi hne => by rw [getLsbD_unmask _ hi]; simp [hne]

theorem writeMask_picIrqMask (irq : ℕ) (d : Driver) : (writeMask irq d).picIrqMask = d.picIrqMask := by
  rw [writeMask]
  split <;> rfl

/-! ### Accepting an interrupt -/

/-- A device has raised the line, and the processor has not accepted it since. -/
def Driver.Requested (d : Driver) (irq : ℕ) : Prop :=
  if irq < 8 then d.pics.master.irr.getLsbD irq = true else d.pics.slave.irr.getLsbD (irq - 8) = true

instance (d : Driver) (irq : ℕ) : Decidable (d.Requested irq) :=
  inferInstanceAs (Decidable (if irq < 8 then _ else _))

/-- A line is let through: it is requested, and masked neither at its controller nor, through the one
it is behind, at the first. -/
def Driver.Through (d : Driver) (irq : ℕ) : Prop :=
  d.picIrqMask.getLsbD irq = false ∧
    if irq < 8 then irq ≠ 2 ∧ d.pics.master.irr.getLsbD irq = true
    else d.pics.slave.irr.getLsbD (irq - 8) = true ∧ d.picIrqMask.getLsbD 2 = false

/-- The place of a line in the order of the priorities. -/
def priority (irq : ℕ) : ℕ := if irq < 2 then irq else if irq < 8 then irq + 8 else irq - 6

variable {k : ℕ}

theorem Driver.Ready.masterImr (h : d.Ready m s) (hk : k < 8) :
    d.pics.master.imr.getLsbD k = d.picIrqMask.getLsbD k := by
  rw [h.master.imr]
  simp [hk]

theorem Driver.Ready.slaveImr (h : d.Ready m s) (hk : k < 8) :
    d.pics.slave.imr.getLsbD k = d.picIrqMask.getLsbD (8 + k) := by
  rw [h.slave.imr]
  simp [hk]

theorem through_low (hk : k < 8) : d.Through k ↔
    d.picIrqMask.getLsbD k = false ∧ k ≠ 2 ∧ d.pics.master.irr.getLsbD k = true := by
  rw [Driver.Through, if_pos hk]

theorem through_high : d.Through (8 + k) ↔ d.picIrqMask.getLsbD (8 + k) = false ∧
    d.pics.slave.irr.getLsbD k = true ∧ d.picIrqMask.getLsbD 2 = false := by
  rw [Driver.Through, if_neg (by omega), Nat.add_sub_cancel_left]

/-- The second controller passes on its first line requested and not masked. -/
theorem slaveNext_eq_some_iff (h : d.Ready m 0#8) : d.pics.slaveNext = some k ↔
    k < 8 ∧ d.pics.slave.irr.getLsbD k = true ∧ d.picIrqMask.getLsbD (8 + k) = false ∧
      ∀ j < k, d.pics.slave.irr.getLsbD j = false ∨ d.picIrqMask.getLsbD (8 + j) = true := by
  rw [Pic.Pair.slaveNext, Pic.Chip.next_eq_some_iff h.slaveIsr]
  refine and_congr_right fun hk => ?_
  rw [h.slaveImr hk]
  refine and_congr_right fun _ => and_congr_right fun _ => forall_congr' fun j => ?_
  refine forall_congr' fun hj => ?_
  rw [h.slaveImr (by omega)]

/-- The first controller sees a request of a line that is let through to it. -/
theorem requests_iff (h : d.Ready m 0#8) (hk : k < 8) :
    d.pics.requests k = true ∧ d.picIrqMask.getLsbD k = false ↔
      if k = 2 then ∃ j < 8, d.Through (8 + j) else d.Through k := by
  by_cases h2 : k = 2
  · subst h2
    rw [if_pos rfl, Pic.Pair.requests, if_pos rfl, Pic.Pair.slaveNext, Pic.Chip.next_isSome_iff h.slaveIsr]
    constructor
    · rintro ⟨⟨j, hj, hreq, hmask⟩, htwo⟩
      exact ⟨j, hj, through_high.2 ⟨h.slaveImr hj ▸ hmask, hreq, htwo⟩⟩
    · rintro ⟨j, hj, hthrough⟩
      obtain ⟨hmask, hreq, htwo⟩ := through_high.1 hthrough
      exact ⟨⟨j, hj, hreq, (h.slaveImr hj).trans hmask⟩, htwo⟩
  · rw [if_neg h2, Pic.Pair.requests, if_neg h2, through_low hk]
    constructor
    · rintro ⟨hreq, hmask⟩
      exact ⟨hmask, h2, hreq⟩
    · rintro ⟨hmask, -, hreq⟩
      exact ⟨hreq, hmask⟩

/-- The controllers after a line has been accepted. -/
def Driver.served (d : Driver) (irq : ℕ) : Pic.Pair :=
  if irq < 8 then ⟨d.pics.master.serve irq, d.pics.slave⟩
  else ⟨d.pics.master.serve 2, d.pics.slave.serve (irq - 8)⟩

/-- A line is let through before all the others. -/
structure Driver.First (d : Driver) (irq : ℕ) : Prop where
  lt : irq < 16
  through : d.Through irq
  first : ∀ j < 16, d.Through j → priority irq ≤ priority j

theorem out8_masterCmd (d : Driver) (v : BitVec 32) : out8 picMasterCmdPort v d =
    { d with pics := ⟨d.pics.master.command (v.setWidth 8), d.pics.slave⟩ } := rfl

theorem out8_slaveCmd (d : Driver) (v : BitVec 32) : out8 picSlaveCmdPort v d =
    { d with pics := ⟨d.pics.master, d.pics.slave.command (v.setWidth 8)⟩ } := rfl

/-- **The processor accepts the first line that is let through**, with its vector. -/
theorem accept_of_first (h : d.Ready 0#8 0#8) (hfirst : d.First irq) :
    d.pics.accept = some (BitVec.ofNat 8 (32 + irq), d.served irq) := by
  obtain ⟨hlt, hthrough, hmin⟩ := hfirst
  have hmaster : d.pics.master.next d.pics.requests = some (if irq < 8 then irq else 2) := by
    have hbound : (if irq < 8 then irq else 2) < 8 := by split <;> omega
    have hrequest : if (if irq < 8 then irq else 2) = 2 then ∃ j < 8, d.Through (8 + j)
        else d.Through (if irq < 8 then irq else 2) := by
      by_cases hlow : irq < 8
      · rw [if_pos hlow, if_neg ((through_low hlow).1 hthrough).2.1]
        exact hthrough
      · rw [if_neg hlow, if_pos rfl]
        exact ⟨irq - 8, by omega, by rwa [Nat.add_sub_cancel' (by omega)]⟩
    obtain ⟨hreq, hmask⟩ := (requests_iff h hbound).2 hrequest
    rw [Pic.Chip.next_eq_some_iff h.masterIsr]
    refine ⟨hbound, hreq, (h.masterImr hbound).trans hmask, fun j hj => ?_⟩
    rw [h.masterImr (by omega)]
    -- a line seen before it would have been let through before it
    by_contra hc
    rw [not_or, Bool.not_eq_false, Bool.not_eq_true] at hc
    have hj' := (requests_iff h (by omega)).1 hc
    split at hj'
    · obtain ⟨i, hi, hi'⟩ := hj'
      have hle := hmin (8 + i) (by omega) hi'
      simp only [priority] at hle
      split at hj <;> grind
    · have hle := hmin j (by omega) hj'
      simp only [priority] at hle
      split at hj <;> grind
  rw [Pic.Pair.accept, hmaster, h.master.cascade, h.master.vector]
  by_cases hlow : irq < 8
  · have hne : irq ≠ 2 := ((through_low hlow).1 hthrough).2.1
    have hcascade : ∀ k < 8, k ≠ 2 → (4#8).getLsbD k = false := by decide
    simp only [if_pos hlow, hcascade irq hlow hne, Driver.served]
    rw [if_neg Bool.false_ne_true, BitVec.ofNat_add]
  · obtain ⟨k, rfl⟩ : ∃ k, irq = 8 + k := ⟨irq - 8, by omega⟩
    obtain ⟨hmask, hreq, htwo⟩ := through_high.1 hthrough
    have hslave : d.pics.slaveNext = some k := by
      refine (slaveNext_eq_some_iff h).2 ⟨by omega, hreq, hmask, fun j hj => ?_⟩
      by_contra hc
      rw [not_or, Bool.not_eq_false, Bool.not_eq_true] at hc
      have hle := hmin (8 + j) (by omega) (through_high.2 ⟨hc.2, hc.1, htwo⟩)
      simp only [priority] at hle
      grind
    have hcascade : (4#8).getLsbD 2 = true ∧ (2#8).toNat % 8 = 2 := by decide
    have hvector : 40#8 + BitVec.ofNat 8 k = BitVec.ofNat 8 (32 + (8 + k)) := by
      rw [← Nat.add_assoc, BitVec.ofNat_add]
    simp only [if_neg hlow, hslave, h.slave.cascade, h.slave.vector, Driver.served, hcascade.1,
      hcascade.2, hvector, if_true, Nat.add_sub_cancel_left]

theorem exists_first (hirq : irq < 16) (h : d.Through irq) : ∃ k, d.First k := by
  obtain ⟨k, ⟨hlt, hthrough⟩, hmin⟩ := WellFounded.has_min (measure priority).wf
    {j | j < 16 ∧ d.Through j} ⟨irq, hirq, h⟩
  exact ⟨k, hlt, hthrough, fun j hj hj' => Nat.le_of_not_lt (hmin j ⟨hj, hj'⟩)⟩

/-- The processor accepts nothing when no line is let through. -/
theorem accept_eq_none_iff (h : d.Ready 0#8 0#8) :
    d.pics.accept = none ↔ ∀ irq < 16, ¬d.Through irq := by
  constructor
  · intro hnone irq hirq hthrough
    obtain ⟨k, hk⟩ := exists_first hirq hthrough
    rw [accept_of_first h hk] at hnone
    cases hnone
  · intro hall
    have hnext : d.pics.master.next d.pics.requests = none := by
      cases hnext : d.pics.master.next d.pics.requests with
      | none => rfl
      | some k =>
        obtain ⟨hk, hreq, hmask, -⟩ := (Pic.Chip.next_eq_some_iff h.masterIsr).1 hnext
        have hsee := (requests_iff h hk).1 ⟨hreq, (h.masterImr hk) ▸ hmask⟩
        split at hsee
        · obtain ⟨j, hj, hthrough⟩ := hsee
          exact absurd hthrough (hall (8 + j) (by omega))
        · exact absurd hsee (hall k (by omega))
    rw [Pic.Pair.accept, hnext]

theorem accept_eq_some_iff {v : BitVec 8} {p : Pic.Pair} (h : d.Ready 0#8 0#8) :
    d.pics.accept = some (v, p) ↔
      ∃ irq, d.First irq ∧ v = BitVec.ofNat 8 (32 + irq) ∧ p = d.served irq := by
  constructor
  · intro haccept
    by_cases hall : ∀ irq < 16, ¬d.Through irq
    · rw [(accept_eq_none_iff h).2 hall] at haccept
      cases haccept
    · push Not at hall
      obtain ⟨irq, hirq, hthrough⟩ := hall
      obtain ⟨k, hk⟩ := exists_first hirq hthrough
      rw [accept_of_first h hk, Option.some.injEq, Prod.mk.injEq] at haccept
      exact ⟨k, hk, haccept.1.symm, haccept.2.symm⟩
  · rintro ⟨irq, hfirst, rfl, rfl⟩
    exact accept_of_first h hfirst

/-- The lines in service at the first controller while a line is. -/
def masterService (irq : ℕ) : BitVec 8 := Pic.setBit 0#8 (if irq < 8 then irq else 2)

/-- The lines in service at the second controller while a line is. -/
def slaveService (irq : ℕ) : BitVec 8 := if irq < 8 then 0#8 else Pic.setBit 0#8 (irq - 8)

theorem served_ready (h : d.Ready 0#8 0#8) (irq : ℕ) :
    Driver.Ready { d with pics := d.served irq } (masterService irq) (slaveService irq) := by
  have hm := h.masterIsr
  have hs := h.slaveIsr
  by_cases hlow : irq < 8
  · simp only [Driver.served, masterService, slaveService, if_pos hlow]
    exact ⟨h.master.serve, h.slave, congrArg (Pic.setBit · irq) hm, hs⟩
  · simp only [Driver.served, masterService, slaveService, if_neg hlow]
    exact ⟨h.master.serve, h.slave.serve, congrArg (Pic.setBit · 2) hm,
      congrArg (Pic.setBit · (irq - 8)) hs⟩

/-- The effect of `pic_eoi` on the controllers. -/
theorem picEoi_eq (hirq : irq < 16) : picEoi irq d = { d with pics :=
    if irq < 8 then ⟨{ d.pics.master with isr := Pic.clearBit d.pics.master.isr irq }, d.pics.slave⟩
    else ⟨{ d.pics.master with isr := Pic.clearBit d.pics.master.isr 2 },
      { d.pics.slave with isr := Pic.clearBit d.pics.slave.isr (irq - 8) }⟩ } := by
  have hmaster : ∀ k < 8, ∀ d : Driver, out8 picMasterCmdPort (BitVec.ofNat 32 (picEoiCmd + k)) d =
      { d with pics := ⟨{ d.pics.master with isr := Pic.clearBit d.pics.master.isr k }, d.pics.slave⟩ } := by
    intro k hk d
    rw [out8_masterCmd, BitVec.setWidth_ofNat_of_le (by omega), picEoiCmd, Pic.Chip.command_eoi hk]
  have hslave : ∀ k < 8, ∀ d : Driver, out8 picSlaveCmdPort (BitVec.ofNat 32 (picEoiCmd + k)) d =
      { d with pics := ⟨d.pics.master, { d.pics.slave with isr := Pic.clearBit d.pics.slave.isr k }⟩ } := by
    intro k hk d
    rw [out8_slaveCmd, BitVec.setWidth_ofNat_of_le (by omega), picEoiCmd, Pic.Chip.command_eoi hk]
  by_cases hlow : irq < 8
  · rw [picEoi, if_neg (by omega), if_pos hlow, hmaster irq hlow]
  · have hmod : irq % 8 = irq - 8 := by omega
    rw [picEoi, if_pos (by omega), if_neg hlow, hmod, hslave _ (by omega), hmaster picSlaveIrq (by decide)]
    rfl

/-- `pic_eoi` takes the line out of service, at both controllers where it is behind the second. -/
theorem picEoi_ready (hirq : irq < 16) (h : d.Ready (masterService irq) (slaveService irq)) :
    (picEoi irq d).Ready 0#8 0#8 := by
  have hm := h.masterIsr
  have hs := h.slaveIsr
  rw [picEoi_eq hirq]
  by_cases hlow : irq < 8
  · simp only [masterService, slaveService, if_pos hlow] at hm hs ⊢
    exact ⟨⟨h.master.expect, h.master.vector, h.master.cascade, h.master.mode, h.master.imr⟩, h.slave,
      hm ▸ Pic.clearBit_setBit_zero irq, hs⟩
  · simp only [masterService, slaveService, if_neg hlow] at hm hs ⊢
    exact ⟨⟨h.master.expect, h.master.vector, h.master.cascade, h.master.mode, h.master.imr⟩,
      ⟨h.slave.expect, h.slave.vector, h.slave.cascade, h.slave.mode, h.slave.imr⟩,
      hm ▸ Pic.clearBit_setBit_zero 2, hs ▸ Pic.clearBit_setBit_zero _⟩

theorem picEoi_picIrqMask (hirq : irq < 16) : (picEoi irq d).picIrqMask = d.picIrqMask := by
  rw [picEoi_eq hirq]

/-! ### Requests -/

theorem picMask_requested (h : d.Ready m s) :
    (picMask irq d).Requested k ↔ d.Requested k := by
  rw [picMask, writeMask_eq h fun i hi hne => by rw [getLsbD_mask _ hi]; simp [hne]]
  rfl

theorem picUnmask_requested (h : d.Ready m s) :
    (picUnmask irq d).Requested k ↔ d.Requested k := by
  rw [picUnmask, writeMask_eq h fun i hi hne => by rw [getLsbD_unmask _ hi]; simp [hne]]
  rfl

theorem picEoi_requested (hirq : irq < 16) : (picEoi irq d).Requested k ↔ d.Requested k := by
  rw [picEoi_eq hirq]
  split <;> rfl

/-- Accepting a line leaves the requests of the others. -/
theorem served_requested (hirq : irq < 16) (hk : k < 16) (hne : k ≠ irq) (h2 : k ≠ 2)
    (h : d.Requested k) : Driver.Requested { d with pics := d.served irq } k := by
  rw [Driver.Requested] at *
  by_cases hlow : irq < 8
  · simp only [Driver.served, if_pos hlow, Pic.Chip.serve, Pic.getLsbD_clearBit]
    split at h
    · simp [*]
    · simp [*]
  · simp only [Driver.served, if_neg hlow, Pic.Chip.serve, Pic.getLsbD_clearBit]
    split at h
    · simp [*]
    · have hsub : k - 8 ≠ irq - 8 := by omega
      simp [*]

theorem raise_requested (hirq : irq < 16) (h : d.Requested k) :
    Driver.Requested { d with pics := d.pics.raise irq } k := by
  rw [Driver.Requested] at *
  by_cases hlow : irq < 8
  · simp only [Pic.Pair.raise, if_pos hlow, Pic.getLsbD_setBit hlow]
    split at h <;> simp [*]
  · simp only [Pic.Pair.raise, if_neg hlow, Pic.getLsbD_setBit (show irq - 8 < 8 by omega)]
    split at h <;> simp [*]

/-! ### Counting -/

variable {ι : Type} {sym : Symbols} {t : Irqs ι} {i : Fin idtIrqs}

/-- The lines masked are those whose count is not 0. -/
def Masked (t : Irqs ι) : Prop :=
  ∀ i : Fin idtIrqs, t.chip.picIrqMask.getLsbD i = decide (t.irqmaskCount i ≠ 0)

theorem maskIrq_masked (h : Masked t) (hpos : 0 ≤ t.irqmaskCount i) : Masked (maskIrq i t) := by
  intro j
  have hmask : (picMask i t.chip).picIrqMask.getLsbD j =
      (t.chip.picIrqMask.getLsbD j || decide ((j : ℕ) = i)) :=
    (congrArg (BitVec.getLsbD · j) (writeMask_picIrqMask i _)).trans (getLsbD_mask _ j.2)
  simp only [maskIrq, apply_ite Driver.picIrqMask, apply_ite (BitVec.getLsbD · (j : ℕ)), hmask, h j,
    Function.update_apply, Fin.ext_iff]
  grind

theorem unmaskIrq_masked (h : Masked t) (hpos : 0 < t.irqmaskCount i) : Masked (unmaskIrq i t) := by
  intro j
  have hmask : (picUnmask i t.chip).picIrqMask.getLsbD j =
      (t.chip.picIrqMask.getLsbD j && decide ((j : ℕ) ≠ i)) :=
    (congrArg (BitVec.getLsbD · j) (writeMask_picIrqMask i _)).trans (getLsbD_unmask _ j.2)
  simp only [unmaskIrq, apply_ite Driver.picIrqMask, apply_ite (BitVec.getLsbD · (j : ℕ)), hmask, h j,
    Function.update_apply, Fin.ext_iff]
  grind

theorem maskIrq_ready (h : t.chip.Ready m s) : (maskIrq i t).chip.Ready m s := by
  simp only [maskIrq]
  split
  · exact picMask_ready h
  · exact h

theorem unmaskIrq_ready (h : t.chip.Ready m s) : (unmaskIrq i t).chip.Ready m s := by
  simp only [unmaskIrq]
  split
  · exact picUnmask_ready h
  · exact h

theorem maskIrq_requested (h : t.chip.Ready m s) :
    (maskIrq i t).chip.Requested k ↔ t.chip.Requested k := by
  simp only [maskIrq]
  split
  · exact picMask_requested h
  · rfl

theorem unmaskIrq_requested (h : t.chip.Ready m s) :
    (unmaskIrq i t).chip.Requested k ↔ t.chip.Requested k := by
  simp only [unmaskIrq]
  split
  · exact picUnmask_requested h
  · rfl

/-! ### Gates -/

/-- The gate of an interrupt. -/
theorem gateOf_setupIrq (n : ℕ) : gateOf ((setupIrq (sym.entry n) n t).idt n) = some (irqGate sym n) := by
  have hflags : idt64Int ||| idtPresent = gateFlags false 0#2 := by decide
  simp only [setupIrq, setupIdtEntry, Function.update_self, hflags, gateOf_packIdtEntry]
  rfl

/-- The gate of the system calls. -/
theorem gateOf_setupSyscall (n : ℕ) :
    gateOf ((setupSyscall sym.syscallHandler n t).idt n) = some (syscallGate sym) := by
  have hflags : idt64Trap ||| idtUser ||| idtPresent = gateFlags true 3#2 := by decide
  simp only [setupSyscall, setupIdtEntry, Function.update_self, hflags, gateOf_packIdtEntry]
  rfl

variable (sym) in
/-- The loop over the exceptions. -/
theorem foldl_setupIrq (l : List ℕ) : ∀ t : Irqs ι, ∃ idt,
    l.foldl (fun t n => setupIrq (sym.entry n) n t) t = { t with idt := idt } ∧
      (∀ n ∈ l, gateOf (idt n) = some (irqGate sym n)) ∧ ∀ n ∉ l, idt n = t.idt n := by
  induction l with
  | nil => exact fun t => ⟨t.idt, rfl, by simp, fun _ _ => rfl⟩
  | cons a l ih =>
    intro t
    obtain ⟨idt, heq, hgate, hout⟩ := ih (setupIrq (sym.entry a) a t)
    refine ⟨idt, heq, fun n hn => ?_, fun n hn => ?_⟩
    · by_cases hl : n ∈ l
      · exact hgate n hl
      · obtain rfl : n = a := (List.mem_cons.1 hn).resolve_right hl
        rw [hout n hl, gateOf_setupIrq]
    · rw [List.mem_cons, not_or] at hn
      rw [hout n hn.2]
      exact Function.update_of_ne hn.1 ..

/-! ### Steps -/

/-- The tables and the controllers, with the lines whose handlers have been called and have not
returned. -/
structure Sys (ι : Type) where
  irqs : Irqs ι
  active : List (Fin idtIrqs)

section

variable [DecidableEq ι]

/-- What can happen. -/
inductive Event (ι : Type) where
  | raise (irq : Fin idtIrqs)
  | deliver (irqno : Fin idtIrqs)
  | finish (irqno : Fin idtIrqs)
  | register (irq : Fin idtIrqs) (isr : ι)
  | unregister (irq : Fin idtIrqs) (isr : ι)

/-- What it does. -/
inductive Step (sym : Symbols) : Sys ι → Event ι → Sys ι → Prop
  /-- a device raises a line; the line 2 has no device -/
  | raise {s : Sys ι} (irq : Fin idtIrqs) : (irq : ℕ) ≠ 2 →
    Step sym s (.raise irq) { s with irqs.chip.pics := s.irqs.chip.pics.raise irq }
  /-- the processor accepts an interrupt, and goes through its gate to `isr_common_handler` -/
  | deliver {s : Sys ι} {v : BitVec 8} {pics : Pic.Pair} {irqno : Fin idtIrqs} {irq : Option ι}
      {t : Irqs ι} : s.irqs.chip.pics.accept = some (v, pics) →
    gateOf (s.irqs.idt v.toNat) = some (irqGate sym v.toNat) →
    isrCommonHandler v.toNat { s.irqs with chip.pics := pics } = .irq irqno irq t →
    Step sym s (.deliver irqno) ⟨t, irqno :: s.active⟩
  /-- a handler returns -/
  | finish {s : Sys ι} {irqno : Fin idtIrqs} : irqno ∈ s.active →
    Step sym s (.finish irqno) ⟨isrFinish irqno s.irqs, s.active.erase irqno⟩
  /-- a handler is registered, in the place of another one or not -/
  | register {s : Sys ι} (irq : Fin idtIrqs) (isr : ι) :
    Step sym s (.register irq isr) { s with irqs := registerIrqHandler sym irq isr s.irqs }
  /-- a handler is unregistered -/
  | unregister {s : Sys ι} (irq : Fin idtIrqs) (isr : ι) :
    Step sym s (.unregister irq isr) { s with irqs := unregisterIrqHandler irq isr s.irqs }

/-- A handler is registered for a line that has none. `register_irq_handler` does not look: over a
handler it lowers the count to -1, and the line is not masked when the next handler runs. -/
def Fresh (s : Sys ι) : Event ι → Prop
  | .register irq _ => s.irqs.handler irq = none
  | _ => True

end

/-- The line that the second controller is connected to. -/
def cascadeIrq : Fin idtIrqs := ⟨picSlaveIrq, by decide⟩

/-- The tables before `setup_ints`. -/
def bootIrqs (pics : Pic.Pair) : Irqs ι where
  idt _ := ⟨0#64, 0#64⟩
  handler _ := none
  irqmaskCount _ := 0
  chip := ⟨0xFFFF#32, pics⟩

/-- The system after any number of steps from the end of `setup_ints`, each of which meets `P`. -/
inductive Run [DecidableEq ι] (sym : Symbols) (P : Sys ι → Event ι → Prop) (pics : Pic.Pair) :
    Sys ι → Prop
  | boot : Run sym P pics ⟨setupInts sym (bootIrqs pics), []⟩
  | step {s s' : Sys ι} {e : Event ι} : Run sym P pics s → P s e → Step sym s e s' → Run sym P pics s'

/-! ### The invariant -/

/-- What holds between the steps. -/
structure Inv (sym : Symbols) (s : Sys ι) : Prop where
  /-- a line is masked once while it has no handler, and once while its handler runs -/
  count : ∀ i, s.irqs.irqmaskCount i = (if s.irqs.handler i = none then 1 else 0) + s.active.count i
  masked : Masked s.irqs
  /-- no handler is entered again while it runs -/
  nodup : s.active.Nodup
  /-- the line 2 stands for the second controller -/
  cascade : ∀ i ∈ s.active, (i : ℕ) ≠ 2
  /-- the controllers mask what the kernel takes for masked, and every interrupt was acknowledged -/
  ready : s.irqs.chip.Ready 0#8 0#8
  /-- the lines with a handler have a gate -/
  gate : ∀ i : Fin idtIrqs, gateOf (s.irqs.idt (i + idtExceptions)) =
    if s.irqs.handler i = none then none else some (irqGate sym (i + idtExceptions))
  exceptions : ∀ n < idtExceptions, gateOf (s.irqs.idt n) = some (irqGate sym n)
  syscall : gateOf (s.irqs.idt idtSyscall) = some (syscallGate sym)

theorem gate_ne {i j : Fin idtIrqs} (h : j ≠ i) : (j : ℕ) + idtExceptions ≠ i + idtExceptions :=
  fun hc => h (Fin.ext (by omega))

theorem gate_outside {n : ℕ} {i : Fin idtIrqs} (h : n < idtExceptions ∨ n = idtSyscall) :
    n ≠ i + idtExceptions := by
  have hi := i.2
  simp only [idtIrqs, idtExceptions, idtSyscall] at *
  omega

/-- The invariant at the end of `setup_ints`. -/
theorem inv_setupInts {pics : Pic.Pair} (hm : pics.master.isr = 0#8) (hs : pics.slave.isr = 0#8) :
    Inv sym (⟨setupInts sym (bootIrqs pics), []⟩ : Sys ι) := by
  obtain ⟨idt, heq, hgate, hout⟩ := foldl_setupIrq sym (List.range idtExceptions)
    (⟨fun _ => ⟨0#64, 0#64⟩, fun _ => none, fun _ => 1, ⟨0xFFFF#32, pics⟩⟩ : Irqs ι)
  have hints : setupInts sym (bootIrqs pics : Irqs ι) =
      ⟨(setupSyscall sym.syscallHandler idtSyscall
        (⟨idt, fun _ => none, fun _ => 1, ⟨0xFFFF#32, pics⟩⟩ : Irqs ι)).idt, fun _ => none, fun _ => 1,
        picRemap 32#32 ⟨0xFFFF#32, pics⟩⟩ := by
    simp only [setupInts, bootIrqs, heq]
    rfl
  have hmask : (picRemap 32#32 ⟨0xFFFF#32, pics⟩).picIrqMask = 0xFFFF#32 := by rw [picRemap_eq]
  constructor
  · intro i
    simp [hints]
  · intro i
    have hall : ∀ i : Fin idtIrqs, (0xFFFF#32).getLsbD i = true := by decide
    simp only [hints, hmask, hall]
    rfl
  · exact List.nodup_nil
  · simp
  · rw [hints]
    exact picRemap_ready hm hs
  · intro i
    have hne : (i : ℕ) + idtExceptions ≠ idtSyscall := (gate_outside (.inr rfl)).symm
    have hidt : idt (i + idtExceptions) = ⟨0#64, 0#64⟩ :=
      hout _ fun hc => by rw [List.mem_range] at hc; omega
    rw [hints, if_pos rfl]
    exact (congrArg gateOf ((Function.update_of_ne hne ..).trans hidt)).trans gateOf_zero
  · intro n hn
    rw [hints, ← hgate n (List.mem_range.2 hn)]
    refine congrArg gateOf (Function.update_of_ne ?_ ..)
    rw [idtExceptions] at hn
    rw [idtSyscall]
    omega
  · rw [hints]
    exact gateOf_setupSyscall (t := (⟨idt, fun _ => none, fun _ => 1, ⟨0xFFFF#32, pics⟩⟩ : Irqs ι)) _

/-! ### Lines let through -/

variable {q q' : Sys ι} {irqno : Fin idtIrqs}

theorem Inv.unmasked_iff (h : Inv sym q) (i : Fin idtIrqs) :
    q.irqs.chip.picIrqMask.getLsbD i = false ↔ q.irqs.handler i ≠ none ∧ i ∉ q.active := by
  have hcount := h.count i
  rw [h.masked i, decide_eq_false_iff_not, not_not, hcount, ← List.count_eq_zero]
  split <;> grind

/-- A line that is requested and has a handler which does not run; for a line of the second controller,
the line 2 has a handler as well. -/
def Deliverable (q : Sys ι) (i : Fin idtIrqs) : Prop :=
  i ≠ cascadeIrq ∧ q.irqs.chip.Requested i ∧ q.irqs.handler i ≠ none ∧ i ∉ q.active ∧
    (8 ≤ (i : ℕ) → q.irqs.handler cascadeIrq ≠ none)

/-- These are the lines let through. -/
theorem Inv.through_iff (h : Inv sym q) (i : Fin idtIrqs) :
    q.irqs.chip.Through i ↔ Deliverable q i := by
  have hcascade : cascadeIrq ∉ q.active := fun hc => h.cascade _ hc rfl
  have htwo : q.irqs.chip.picIrqMask.getLsbD 2 = false ↔ q.irqs.handler cascadeIrq ≠ none :=
    (h.unmasked_iff cascadeIrq).trans (and_iff_left hcascade)
  have hne : i ≠ cascadeIrq ↔ (i : ℕ) ≠ 2 := by
    rw [Ne, Fin.ext_iff]
    rfl
  rw [Driver.Through, h.unmasked_iff, Deliverable, hne, Driver.Requested]
  by_cases hlow : (i : ℕ) < 8
  · rw [if_pos hlow, if_pos hlow]
    have hnot : ¬8 ≤ (i : ℕ) := by omega
    tauto
  · rw [if_neg hlow, if_neg hlow, htwo]
    have hge : 8 ≤ (i : ℕ) := by omega
    have h2 : (i : ℕ) ≠ 2 := by omega
    tauto

/-- What the processor accepts is the first of the lines let through. -/
theorem accepted (h : q.irqs.chip.Ready 0#8 0#8) {v : BitVec 8} {pics : Pic.Pair}
    (haccept : q.irqs.chip.pics.accept = some (v, pics)) :
    ∃ i : Fin idtIrqs, q.irqs.chip.First i ∧ v.toNat = i + idtExceptions ∧
      pics = q.irqs.chip.served i := by
  obtain ⟨k, hk, rfl, rfl⟩ := (accept_eq_some_iff h).1 haccept
  refine ⟨⟨k, hk.lt⟩, hk, ?_, rfl⟩
  have hlt := hk.lt
  change (BitVec.ofNat 8 (32 + k)).toNat = k + idtExceptions
  rw [BitVec.toNat_ofNat, idtExceptions]
  omega

/-- What `isr_common_handler` does with a line. -/
theorem isrCommonHandler_irq (i : Fin idtIrqs) : isrCommonHandler (i + idtExceptions) t =
    .irq i (t.handler i) (ackIrq i (maskIrq i t)) := by
  have hlt : (i : ℕ) + idtExceptions - idtExceptions < idtIrqs := by
    rw [Nat.add_sub_cancel]
    exact i.2
  have hi : (⟨(i : ℕ) + idtExceptions - idtExceptions, hlt⟩ : Fin idtIrqs) = i :=
    Fin.ext (Nat.add_sub_cancel ..)
  rw [isrCommonHandler, if_neg (by omega), dif_pos hlt, hi]

/-! ### One step -/

theorem raise_ready {irq : ℕ} (h : d.Ready m s) : Driver.Ready { d with pics := d.pics.raise irq } m s := by
  rw [Pic.Pair.raise]
  split
  · exact ⟨⟨h.master.expect, h.master.vector, h.master.cascade, h.master.mode, h.master.imr⟩, h.slave,
      h.masterIsr, h.slaveIsr⟩
  · exact ⟨h.master, ⟨h.slave.expect, h.slave.vector, h.slave.cascade, h.slave.mode, h.slave.imr⟩,
      h.masterIsr, h.slaveIsr⟩

/-- A line that is accepted. -/
theorem Inv.deliver (h : Inv sym q) {i : Fin idtIrqs} (hfirst : q.irqs.chip.First i) :
    Inv sym ⟨ackIrq i (maskIrq i { q.irqs with chip.pics := q.irqs.chip.served i }), i :: q.active⟩ := by
  obtain ⟨hne, -, hhandler, hactive, -⟩ := (h.through_iff i).1 hfirst.through
  have hcount : q.irqs.irqmaskCount i = 0 := by
    rw [h.count i, if_neg hhandler, List.count_eq_zero.2 hactive]
    rfl
  have hmasked : Masked (maskIrq i { q.irqs with chip.pics := q.irqs.chip.served i }) :=
    maskIrq_masked h.masked (le_of_eq hcount.symm)
  have hready : (maskIrq i { q.irqs with chip.pics := q.irqs.chip.served i }).chip.Ready
      (masterService i) (slaveService i) := maskIrq_ready (served_ready h.ready i)
  constructor
  · intro j
    simp only [ackIrq, maskIrq, List.count_cons, Function.update_apply, h.count]
    by_cases hj : j = i
    · subst hj
      simp [hhandler, List.count_eq_zero.2 hactive]
    · simp [hj, Ne.symm hj]
  · exact fun j => (congrArg (BitVec.getLsbD · j) (picEoi_picIrqMask i.2)).trans (hmasked j)
  · exact List.nodup_cons.2 ⟨hactive, h.nodup⟩
  · intro j hj
    rcases List.mem_cons.1 hj with rfl | hj
    · exact fun hc => hne (Fin.ext hc)
    · exact h.cascade j hj
  · exact picEoi_ready i.2 hready
  · exact h.gate
  · exact h.exceptions
  · exact h.syscall

/-- A handler that returns. -/
theorem Inv.finish (h : Inv sym q) {i : Fin idtIrqs} (hi : i ∈ q.active) :
    Inv sym ⟨isrFinish i q.irqs, q.active.erase i⟩ := by
  have hone : q.active.count i = 1 := List.count_eq_one_of_mem h.nodup hi
  have hpos : 0 < q.irqs.irqmaskCount i := by
    rw [h.count i, hone]
    split <;> omega
  constructor
  · intro j
    simp only [isrFinish, unmaskIrq, Function.update_apply, List.count_erase, h.count]
    by_cases hj : j = i
    · subst hj
      simp [hone]
    · simp [hj, Ne.symm hj]
  · exact unmaskIrq_masked h.masked hpos
  · exact h.nodup.erase i
  · exact fun j hj => h.cascade j (List.mem_of_mem_erase hj)
  · exact unmaskIrq_ready h.ready
  · exact h.gate
  · exact h.exceptions
  · exact h.syscall

/-- A handler that is registered. -/
theorem Inv.register (h : Inv sym q) {i : Fin idtIrqs} (isr : ι) (hnone : q.irqs.handler i = none) :
    Inv sym { q with irqs := registerIrqHandler sym i isr q.irqs } := by
  have hpos : 0 < q.irqs.irqmaskCount i := by
    rw [h.count i, if_pos hnone]
    omega
  have hgate : gateOf ((registerIrqHandler sym i isr q.irqs).idt (i + idtExceptions)) =
      some (irqGate sym (i + idtExceptions)) := gateOf_setupIrq _
  have hidt : ∀ n, n ≠ i + idtExceptions →
      (registerIrqHandler sym i isr q.irqs).idt n = q.irqs.idt n := fun n hn => Function.update_of_ne hn ..
  constructor
  · intro j
    simp only [registerIrqHandler, unmaskIrq, setupIrq, setupIdtEntry, Function.update_apply, h.count]
    by_cases hj : j = i
    · subst hj
      simp only [hnone, if_true, reduceCtorEq, if_false]
      omega
    · simp [hj]
  · exact unmaskIrq_masked (t := setupIrq _ _ { q.irqs with handler := _ }) h.masked hpos
  · exact h.nodup
  · exact h.cascade
  · exact unmaskIrq_ready (t := setupIrq _ _ { q.irqs with handler := _ }) h.ready
  · intro j
    by_cases hji : j = i
    · rw [hji, hgate]
      exact (if_neg (by simp [registerIrqHandler, setupIrq, setupIdtEntry, unmaskIrq])).symm
    · have hsame : (registerIrqHandler sym i isr q.irqs).handler j = q.irqs.handler j :=
        Function.update_of_ne hji ..
      simp only [hidt _ (gate_ne hji), h.gate j, hsame]
  · exact fun n hn => (congrArg gateOf (hidt n (gate_outside (.inl hn)))).trans (h.exceptions n hn)
  · exact (congrArg gateOf (hidt _ (gate_outside (.inr rfl)))).trans h.syscall

variable [DecidableEq ι]

/-- A handler that is unregistered. -/
theorem Inv.unregister (h : Inv sym q) (i : Fin idtIrqs) (isr : ι) :
    Inv sym { q with irqs := unregisterIrqHandler i isr q.irqs } := by
  by_cases hsome : q.irqs.handler i = some isr
  · have hnonneg : 0 ≤ q.irqs.irqmaskCount i := by
      rw [h.count i]
      split <;> omega
    have heq : unregisterIrqHandler i isr q.irqs = clearIdtEntry (i + idtExceptions)
        { maskIrq i q.irqs with handler := Function.update q.irqs.handler i none } := by
      rw [unregisterIrqHandler, if_pos hsome]
      rfl
    have hidt : ∀ n, n ≠ i + idtExceptions →
        (unregisterIrqHandler i isr q.irqs).idt n = q.irqs.idt n := by
      intro n hn
      rw [heq]
      exact Function.update_of_ne hn ..
    constructor
    · intro j
      simp only [heq, clearIdtEntry, maskIrq, Function.update_apply, h.count]
      by_cases hj : j = i
      · subst hj
        simp [hsome]
        omega
      · simp [hj]
    · rw [heq]
      exact maskIrq_masked h.masked hnonneg
    · exact h.nodup
    · exact h.cascade
    · rw [heq]
      exact maskIrq_ready h.ready
    · intro j
      by_cases hji : j = i
      · simp only [hji, heq, clearIdtEntry, Function.update_self, gateOf_zero, if_true]
      · have hsame : (unregisterIrqHandler i isr q.irqs).handler j = q.irqs.handler j := by
          rw [heq]
          exact Function.update_of_ne hji ..
        simp only [hidt _ (gate_ne hji), h.gate j, hsame]
    · exact fun n hn => (congrArg gateOf (hidt n (gate_outside (.inl hn)))).trans (h.exceptions n hn)
    · exact (congrArg gateOf (hidt _ (gate_outside (.inr rfl)))).trans h.syscall
  · rw [unregisterIrqHandler, if_neg hsome]
    exact h

variable {e : Event ι}

/-- Every step that is fresh keeps the invariant. -/
theorem Step.inv (hstep : Step sym q e q') (hfresh : Fresh q e) (h : Inv sym q) : Inv sym q' := by
  cases hstep with
  | raise irq hne =>
    exact ⟨h.count, h.masked, h.nodup, h.cascade, raise_ready h.ready, h.gate, h.exceptions, h.syscall⟩
  | deliver haccept _ hisr =>
    obtain ⟨i, hfirst, hv, rfl⟩ := accepted h.ready haccept
    rw [hv, isrCommonHandler_irq] at hisr
    cases hisr
    exact h.deliver hfirst
  | finish hmem => exact h.finish hmem
  | register irq isr => exact h.register isr hfresh
  | unregister irq isr => exact h.unregister irq isr

/-- Every step leaves the controllers ready. -/
theorem Step.ready (hstep : Step sym q e q') (h : q.irqs.chip.Ready 0#8 0#8) :
    q'.irqs.chip.Ready 0#8 0#8 := by
  cases hstep with
  | raise irq hne => exact raise_ready h
  | deliver haccept _ hisr =>
    obtain ⟨i, -, hv, rfl⟩ := accepted h haccept
    rw [hv, isrCommonHandler_irq] at hisr
    obtain ⟨rfl, -, rfl⟩ := Outcome.irq.inj hisr
    exact picEoi_ready i.2 (maskIrq_ready (served_ready h i))
  | finish hmem => exact unmaskIrq_ready h
  | register irq isr => exact unmaskIrq_ready (t := setupIrq _ _ { q.irqs with handler := _ }) h
  | unregister irq isr =>
    rw [unregisterIrqHandler]
    split
    · exact maskIrq_ready h
    · exact h

/-! ### Runs -/

variable {pics : Pic.Pair} {im : Image}

theorem Run.inv (h : Run sym Fresh pics q) (hm : pics.master.isr = 0#8) (hs : pics.slave.isr = 0#8) :
    Inv sym q := by
  induction h with
  | boot => exact inv_setupInts hm hs
  | step _ hfresh hstep ih => exact hstep.inv hfresh ih

theorem Run.ready {P : Sys ι → Event ι → Prop} (h : Run sym P pics q) (hm : pics.master.isr = 0#8)
    (hs : pics.slave.isr = 0#8) : q.irqs.chip.Ready 0#8 0#8 := by
  induction h with
  | boot =>
    have hinv : Inv sym (⟨setupInts sym (bootIrqs pics), []⟩ : Sys ι) := inv_setupInts hm hs
    exact hinv.ready
  | step _ _ hstep ih => exact hstep.ready ih

/-- **The masks are exact**, in every run from controllers that have no line in service, whatever else
was written to them, in which handlers are registered for lines that have none. The controllers mask a
line exactly while it has no handler or its handler runs, so that no handler is entered again while it
runs; every interrupt was acknowledged; the lines with a handler, and no others, have a gate. -/
theorem irqRun_exact (h : Run sym Fresh pics q) (hm : pics.master.isr = 0#8)
    (hs : pics.slave.isr = 0#8) :
    q.active.Nodup ∧ q.irqs.chip.pics.master.isr = 0#8 ∧ q.irqs.chip.pics.slave.isr = 0#8 ∧
    ∀ i : Fin idtIrqs,
      ((if (i : ℕ) < 8 then q.irqs.chip.pics.master.imr.getLsbD i
        else q.irqs.chip.pics.slave.imr.getLsbD (i - 8)) = true ↔
          q.irqs.handler i = none ∨ i ∈ q.active) ∧
      gateOf (q.irqs.idt (i + idtExceptions)) =
        if q.irqs.handler i = none then none else some (irqGate sym (i + idtExceptions)) := by
  have hinv := h.inv hm hs
  refine ⟨hinv.nodup, hinv.ready.masterIsr, hinv.ready.slaveIsr, fun i => ⟨?_, hinv.gate i⟩⟩
  have hi : (i : ℕ) < 16 := i.2
  have himr : (if (i : ℕ) < 8 then q.irqs.chip.pics.master.imr.getLsbD i
      else q.irqs.chip.pics.slave.imr.getLsbD (i - 8)) = q.irqs.chip.picIrqMask.getLsbD i := by
    split
    · exact hinv.ready.masterImr ‹_›
    · rw [hinv.ready.slaveImr (by omega), Nat.add_sub_cancel' (by omega)]
  rw [himr, ← not_iff_not, Bool.not_eq_true, hinv.unmasked_iff, not_or]

/-- Controllers left half programmed. -/
def bootPics : Pic.Pair :=
  ⟨⟨.icw3, false, true, 0x70#8, 0#8, 0#8, 0xA5#8, 0x11#8, 0#8⟩,
    ⟨.ready, true, false, 0#8, 7#8, 3#8, 0#8, 0#8, 0#8⟩⟩

/-- The kernel with a handler of the timer, the line 0. -/
def timerSys : Sys ℕ :=
  ⟨registerIrqHandler textSymbols ⟨0, by decide⟩ 7 (setupInts textSymbols (bootIrqs bootPics)), []⟩

theorem timerSys_run : Run textSymbols Fresh bootPics timerSys :=
  .step (e := .register _ _) .boot rfl (.register _ _)

/-- The timer raises its line. -/
def timerRaised : Sys ℕ := { timerSys with irqs.chip.pics := timerSys.irqs.chip.pics.raise 0 }

theorem timerRaised_run : Run textSymbols Fresh bootPics timerRaised :=
  .step (e := .raise _) timerSys_run trivial (.raise ⟨0, by decide⟩ (by decide))

/-- The handler of the timer is called. -/
def timerRunning : Sys ℕ :=
  ⟨ackIrq ⟨0, by decide⟩ (maskIrq ⟨0, by decide⟩
    { timerRaised.irqs with chip.pics := timerRaised.irqs.chip.served 0 }), [⟨0, by decide⟩]⟩

theorem timerRunning_run : Run textSymbols Fresh bootPics timerRunning :=
  .step (e := .deliver ⟨0, by decide⟩) timerRaised_run trivial <|
    .deliver (v := 32#8) (by decide)
      (((timerRaised_run.inv rfl rfl).gate ⟨0, by decide⟩).trans (if_neg (by decide)))
      (isrCommonHandler_irq ⟨0, by decide⟩)

theorem irqRun_exact_timer : timerRunning.irqs.chip.pics.master.imr.getLsbD 0 = true :=
  ((irqRun_exact timerRunning_run rfl rfl).2.2.2 ⟨0, by decide⟩).1.2 (.inr (List.mem_singleton_self _))

/-- **Interrupts arrive.** In every run in which handlers are registered for lines that have none, the
processor accepts an interrupt when and only when some line is requested that has a handler which does
not run, and of these lines the first by priority; those of the second controller come only while the
line 2 has a handler too. The gate of the line leads to the entry code, and that to
`isr_common_handler` with a complete frame, which masks and acknowledges the line and finds its
handler. -/
theorem irqRun_delivers (h : Run sym Fresh pics q) (hm : pics.master.isr = 0#8) (hs : pics.slave.isr = 0#8)
    (hlinked : Linked sym im) :
    (q.irqs.chip.pics.accept = none ↔ ∀ i, ¬Deliverable q i) ∧
    ∀ v p, q.irqs.chip.pics.accept = some (v, p) → ∃ i isr, Deliverable q i ∧
      (∀ j, Deliverable q j → priority i ≤ priority j) ∧
      v.toNat = i + idtExceptions ∧ q.irqs.handler i = some isr ∧
      (∃ t, isrCommonHandler v.toNat { q.irqs with chip.pics := p } = .irq i (some isr) t ∧
        Step sym q (.deliver i) ⟨t, i :: q.active⟩) ∧
      ∃ g, gateOf (q.irqs.idt v.toNat) = some g ∧ g.trap = false ∧
        ∀ s rsp0, ∃ s₁, Reaches im (Machine.deliver s g rsp0 none) s₁ ∧
          IsrCalled sym s v.toNat none (frameBase s g rsp0) s₁ := by
  have hinv := h.inv hm hs
  refine ⟨?_, fun v p haccept => ?_⟩
  · rw [accept_eq_none_iff hinv.ready]
    constructor
    · exact fun hall i hi => hall i i.2 ((hinv.through_iff i).2 hi)
    · exact fun hall i hi hthrough => hall ⟨i, hi⟩ ((hinv.through_iff ⟨i, hi⟩).1 hthrough)
  · obtain ⟨i, hfirst, hv, rfl⟩ := accepted hinv.ready haccept
    have hdeliver := (hinv.through_iff i).1 hfirst.through
    have hhandler := hdeliver.2.2.1
    obtain ⟨isr, hisr⟩ := Option.ne_none_iff_exists'.1 hhandler
    have hgate := hinv.gate i
    rw [if_neg hhandler, ← hv] at hgate
    have hcall : isrCommonHandler v.toNat { q.irqs with chip.pics := q.irqs.chip.served i } =
        .irq i (some isr) (ackIrq i (maskIrq i { q.irqs with chip.pics := q.irqs.chip.served i })) := by
      rw [hv, isrCommonHandler_irq, hisr]
    refine ⟨i, isr, hdeliver, fun j hj => hfirst.first j j.2 ((hinv.through_iff j).2 hj), hv, hisr,
      ⟨_, hcall, .deliver haccept hgate hcall⟩, _, hgate, rfl, fun s rsp0 => ?_⟩
    have hlt : v.toNat < 48 := by
      have := i.2
      rw [hv]
      simp only [idtIrqs, idtExceptions] at *
      omega
    have hnot : v.toNat ∉ withError := by
      rw [hv]
      have hall : ∀ i : Fin idtIrqs, (i : ℕ) + idtExceptions ∉ withError := by decide
      exact hall i
    exact hlinked.reaches_isr s rsp0 hlt (by simp [hnot]) rfl

theorem irqRun_delivers_timer : ∃ i, Deliverable timerRaised i ∧
    ∃ t, Step textSymbols timerRaised (.deliver i) ⟨t, [i]⟩ := by
  have haccept : timerRaised.irqs.chip.pics.accept =
      some (32#8, timerRaised.irqs.chip.served 0) := by decide
  obtain ⟨i, -, hi, -, -, -, ⟨t, -, hstep⟩, -⟩ :=
    (irqRun_delivers timerRaised_run rfl rfl text_linked).2 _ _ haccept
  exact ⟨i, hi, t, hstep⟩

/-! ### Requests along a run -/

/-- A step in which the line is not delivered. -/
def StepWithoutDelivery (sym : Symbols) (i : Fin idtIrqs) (q q' : Sys ι) : Prop :=
  ∃ e, Step sym q e q' ∧ e ≠ .deliver i

theorem StepWithoutDelivery.requested (hstep : StepWithoutDelivery sym i q q')
    (hready : q.irqs.chip.Ready 0#8 0#8) (hne : i ≠ cascadeIrq) (h : q.irqs.chip.Requested i) :
    q'.irqs.chip.Requested i := by
  obtain ⟨e, hstep, hnot⟩ := hstep
  cases hstep with
  | raise irq _ => exact raise_requested irq.2 h
  | deliver haccept _ hisr =>
    obtain ⟨j, hfirst, hv, rfl⟩ := accepted hready haccept
    rw [hv, isrCommonHandler_irq] at hisr
    obtain ⟨rfl, -, rfl⟩ := Outcome.irq.inj hisr
    have hij : (i : ℕ) ≠ j := fun hc => hnot (by rw [Fin.ext hc])
    have h2 : (i : ℕ) ≠ 2 := fun hc => hne (Fin.ext hc)
    refine (picEoi_requested j.2).2 ((maskIrq_requested (served_ready hready j)).2 ?_)
    exact served_requested j.2 i.2 hij h2 h
  | finish _ => exact (unmaskIrq_requested hready).2 h
  | register irq isr =>
    exact (unmaskIrq_requested (t := setupIrq _ _ { q.irqs with handler := _ }) hready).2 h
  | unregister irq isr =>
    rw [unregisterIrqHandler]
    split
    · exact (maskIrq_requested hready).2 h
    · exact h

/-- **No request is lost**: in every run, a line that a device has raised stays requested until the
processor accepts it, while lines are masked and unmasked, others accepted, and handlers registered
and unregistered, also over others. -/
theorem irqRun_keeps_request (h : Run sym (fun _ _ => True) pics q) (hm : pics.master.isr = 0#8)
    (hs : pics.slave.isr = 0#8) (hne : i ≠ cascadeIrq) (hi : q.irqs.chip.Requested i)
    (hlater : Relation.ReflTransGen (StepWithoutDelivery sym i) q q') : q'.irqs.chip.Requested i := by
  have hall : q'.irqs.chip.Ready 0#8 0#8 ∧ q'.irqs.chip.Requested i := by
    induction hlater with
    | refl => exact ⟨h.ready hm hs, hi⟩
    | tail _ hstep ih =>
      obtain ⟨e, hone, -⟩ := id hstep
      exact ⟨hone.ready ih.1, hstep.requested ih.1 hne ih.2⟩
  exact hall.2

theorem irqRun_keeps_request_timer : ∃ q : Sys ℕ, q.irqs.chip.Requested 0 := by
  have hrun : Run textSymbols (fun _ _ => True) bootPics timerRaised :=
    .step (.step .boot trivial (.register _ _)) trivial (.raise ⟨0, by decide⟩ (by decide))
  have hlater : StepWithoutDelivery textSymbols ⟨0, by decide⟩ timerRaised
      { timerRaised with irqs := registerIrqHandler textSymbols ⟨0, by decide⟩ 8 timerRaised.irqs } :=
    ⟨.register ⟨0, by decide⟩ 8, .register _ _, nofun⟩
  exact ⟨_, irqRun_keeps_request (i := ⟨0, by decide⟩) hrun rfl rfl (by decide) (by decide)
    (.single hlater)⟩

end Irq

end Kernel64
