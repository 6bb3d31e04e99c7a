import Kernel64.Balloc.Setup
import Kernel64.Boot.MemoryMap
import Kernel64.Strings.Moves

/-!
# Decoding the boot information

Next to the memory map, `setup_misc` copies the command line into a buffer of `maxCmdlineLen` bytes, with `strcpy`, and
looks for a module that starts with the magic number of an archive. It returns exactly when the map and the command line
fit and there is such a module (`ensures_setupMisc_iff`), and the variables are then what `setup_memory` starts from
(`Booted.bootMap_ok`).
-/

namespace Kernel64

namespace Boot

/-! ### The command line -/

/-- The boot loader left a command line. -/
structure CmdlineAt (ram : Buf) (info : MultibootInfo) (cmdline : List UInt8) : Prop where
  flag : info.has 2
  chars : ∀ c ∈ cmdline, c ≠ 0
  length : cmdline.length < 2 ^ 32
  holds : ram.Holds info.cmdline.toNat (cmdline ++ [0])

section

variable {ram : Buf} {info : MultibootInfo} {cmdline : List UInt8} {s : Misc} {fuel dst src i : ℕ} {c : UInt8}

theorem setCmdlineBuf_run (h : i < maxCmdlineLen) :
    setCmdlineBuf i c s = Except.ok ((), { s with cmdlineBuf := Function.update s.cmdlineBuf i c }) := by
  rw [setCmdlineBuf, if_pos h]
  rfl

theorem faults_setCmdlineBuf (h : maxCmdlineLen ≤ i) : Faults (setCmdlineBuf i c) s .bounds := by
  rw [setCmdlineBuf, if_neg (Nat.not_lt.2 h)]
  rfl

theorem strcpyLoop_nul (hsrc : ram.Holds src [0]) : strcpyLoop ram (fuel + 1) dst src = setCmdlineBuf dst 0 := by
  have hnul : ram src = 0 := (Buf.holds_cons.1 hsrc).1
  rw [strcpyLoop, if_neg (by simp [hnul])]

/-- One turn of `strcpy`. -/
theorem strcpyLoop_cons {l : List UInt8} (hc : c ≠ 0) (hsrc : ram.Holds src (c :: l)) (hlt : src + 1 < 2 ^ 64) :
    strcpyLoop ram (fuel + 1) dst src = (do
      setCmdlineBuf dst c
      strcpyLoop ram fuel (dst + 1) (src + 1)) := by
  have hchar : ram src = c := (Buf.holds_cons.1 hsrc).1
  have hnext : Strings.addPtr src 1 = src + 1 := Nat.mod_eq_of_lt hlt
  rw [strcpyLoop, hchar, if_pos hc, hnext]

/-- A string that fits is copied, with its NUL. -/
theorem strcpyLoop_run (hchars : ∀ c ∈ cmdline, c ≠ 0) (hsrc : ram.Holds src (cmdline ++ [0]))
    (hlt : src + cmdline.length < 2 ^ 64) (hfuel : cmdline.length < fuel)
    (hroom : dst + cmdline.length < maxCmdlineLen) :
    strcpyLoop ram fuel dst src s =
      Except.ok ((), { s with cmdlineBuf := s.cmdlineBuf.store dst (cmdline ++ [0]) }) := by
  obtain ⟨fuel, rfl⟩ := Nat.exists_eq_succ_of_ne_zero (Nat.ne_zero_of_lt hfuel)
  induction cmdline generalizing fuel dst src s with
  | nil =>
    rw [List.length_nil, Nat.add_zero] at hroom
    rw [strcpyLoop_nul hsrc, setCmdlineBuf_run hroom, List.nil_append, Buf.store_cons, Buf.store_nil]
  | cons c cmdline ih =>
    rw [List.forall_mem_cons] at hchars
    rw [List.length_cons] at hlt hfuel hroom
    obtain ⟨fuel, rfl⟩ := Nat.exists_eq_succ_of_ne_zero (show fuel ≠ 0 by omega)
    rw [strcpyLoop_cons hchars.1 hsrc (by omega), bind_of_run (setCmdlineBuf_run (by omega)),
      ih hchars.2 (Buf.holds_cons.1 hsrc).2 (by omega) (by omega) _ (by omega), List.cons_append, Buf.store_cons]

/-- A string that does not fit is copied past the end of the buffer. -/
theorem faults_strcpyLoop (hchars : ∀ c ∈ cmdline, c ≠ 0) (hsrc : ram.Holds src (cmdline ++ [0]))
    (hlt : src + cmdline.length < 2 ^ 64) (hfuel : cmdline.length < fuel) (hdst : dst ≤ maxCmdlineLen)
    (hroom : maxCmdlineLen ≤ dst + cmdline.length) : Faults (strcpyLoop ram fuel dst src) s .bounds := by
  obtain ⟨fuel, rfl⟩ := Nat.exists_eq_succ_of_ne_zero (Nat.ne_zero_of_lt hfuel)
  induction cmdline generalizing fuel dst src s with
  | nil =>
    rw [strcpyLoop_nul hsrc]
    exact faults_setCmdlineBuf hroom
  | cons c cmdline ih =>
    rw [List.forall_mem_cons] at hchars
    rw [List.length_cons] at hlt hfuel hroom
    obtain ⟨fuel, rfl⟩ := Nat.exists_eq_succ_of_ne_zero (show fuel ≠ 0 by omega)
    rw [strcpyLoop_cons hchars.1 hsrc (by omega)]
    rcases Nat.lt_or_ge dst maxCmdlineLen with hin | hout
    · exact faults_bind_run (setCmdlineBuf_run hin)
        (ih hchars.2 (Buf.holds_cons.1 hsrc).2 (by omega) hin (by omega) _ (by omega))
    · exact (faults_setCmdlineBuf hout).bind

/-- The state after the command line has been copied. -/
def Misc.setCmdline (s : Misc) (cmdline : List UInt8) : Misc :=
  { s with cmdlineBuf := s.cmdlineBuf.store 0 (cmdline ++ [0]), cmdline := true }

theorem Misc.holds_setCmdline (s : Misc) (cmdline : List UInt8) :
    (s.setCmdline cmdline).cmdlineBuf.Holds 0 (cmdline ++ [0]) :=
  Buf.slice_store s.cmdlineBuf 0 (cmdline ++ [0])

theorem CmdlineAt.setup_run (h : CmdlineAt ram info cmdline) (hfuel : cmdline.length < fuel)
    (hroom : cmdline.length < maxCmdlineLen) :
    setupCmdline fuel ram info s = Except.ok ((), s.setCmdline cmdline) := by
  have hptr := info.cmdline.toNat_lt
  have hlength := h.length
  rw [setupCmdline, if_pos h.flag]
  exact bind_of_run (strcpyLoop_run h.chars h.holds (by omega) hfuel (by rwa [Nat.zero_add]))

theorem CmdlineAt.faults_setup (h : CmdlineAt ram info cmdline) (hfuel : cmdline.length < fuel)
    (hroom : maxCmdlineLen ≤ cmdline.length) : Faults (setupCmdline fuel ram info) s .bounds := by
  have hptr := info.cmdline.toNat_lt
  have hlength := h.length
  rw [setupCmdline, if_pos h.flag]
  exact (faults_strcpyLoop h.chars h.holds (by omega) hfuel (Nat.zero_le _) (by rwa [Nat.zero_add])).bind

end

/-! ### The modules -/

/-- A module of the boot loader. -/
structure Module where
  modStart : UInt32
  modEnd : UInt32
  string : UInt32
  reserved : UInt32

namespace Module

/-- What is read of a module. -/
def mod (m : Module) : MbootMod := ⟨m.modStart, m.modEnd⟩

/-- **The encoding of a module.** -/
def bytes (m : Module) : List UInt8 :=
  Buf.leBytes 4 m.modStart.toNat ++ (Buf.leBytes 4 m.modEnd.toNat ++
    (Buf.leBytes 4 m.string.toNat ++ Buf.leBytes 4 m.reserved.toNat))

theorem length_bytes (m : Module) : m.bytes.length = 16 := by
  simp only [bytes, List.length_append, Buf.length_leBytes]

end Module

/-- The boot loader left a list of modules. Their number fits an `int`. -/
structure ModsAt (ram : Buf) (info : MultibootInfo) (mods : List Module) : Prop where
  flag : info.has 3
  count : mods.length = info.modsCount.toNat
  small : mods.length < 2 ^ 31
  holds : ram.Holds info.modsAddr.toNat (mods.flatMap Module.bytes)

/-- The first module that is not passed over. -/
def initrdOf (ram : Buf) (mods : List Module) : Option Module := mods.find? fun m => !m.mod.skipped ram

/-- The state after the initrd has been found. -/
def Misc.setInitrd (s : Misc) (m : Module) : Misc :=
  { s with initrdBegin := m.modStart.toNat, initrdEnd := m.modEnd.toNat }

section

variable {ram : Buf} {info : MultibootInfo} {m : Module} {ms : List Module} {s : Misc} {mods i : ℕ}

/-- A module is read back from its bytes. -/
theorem modAt_of_holds {o : ℕ} (h : ram.Holds o m.bytes) : modAt ram o = m.mod := by
  obtain ⟨hstart, h⟩ := Buf.holds_append.1 h
  obtain ⟨hend, -⟩ := Buf.holds_append.1 h
  rw [Buf.length_leBytes] at hend
  rw [modAt, hstart.field m.modStart.toNat_lt, hend.field m.modEnd.toNat_lt, UInt32.ofNat_toNat, UInt32.ofNat_toNat,
    Module.mod]

/-- The loop of `setup_initrd` takes the first module that it does not pass over, and spins where there is none. -/
theorem initrdLoop_eq (h : ram.Holds (mods + 16 * i) (ms.flatMap Module.bytes)) (hi : i + ms.length ≤ 2 ^ 31) :
    initrdLoop ram mods ms.length i s = match initrdOf ram ms with
      | some m => Except.ok ((), s.setInitrd m)
      | none => Except.error .fuel := by
  induction ms generalizing i with
  | nil => rfl
  | cons m ms ih =>
    rw [List.flatMap_cons, Buf.holds_append, m.length_bytes, Nat.add_assoc, ← Nat.mul_succ] at h
    rw [List.length_cons] at hi ⊢
    rw [initrdLoop, if_neg (by omega), modAt_of_holds h.1, initrdOf, List.find?_cons]
    cases hskip : m.mod.skipped ram with
    | true =>
      simp only [if_true, Bool.not_true]
      exact ih h.2 (by omega)
    | false =>
      simp only [Bool.false_eq_true, if_false, Bool.not_false]
      rfl

theorem ModsAt.setup_eq (h : ModsAt ram info ms) :
    setupInitrd ram info s = match initrdOf ram ms with
      | some m => Except.ok ((), s.setInitrd m)
      | none => Except.error .fuel := by
  have hsmall := h.small
  rw [setupInitrd, h.flag]
  by_cases hzero : info.modsCount = 0
  · have hnil : ms = [] := List.eq_nil_of_length_eq_zero (by rw [h.count, hzero]; rfl)
    rw [if_pos (by simp [hzero]), hnil]
    rfl
  · rw [if_neg (by simp [hzero]), ← h.count]
    exact initrdLoop_eq h.holds (by omega)

end

/-! ### `setup_misc` -/

/-- What the boot loader left. -/
structure BootLoader (ram : Buf) (info : MultibootInfo) (records : List Record) (line : List UInt8)
    (ms : List Module) : Prop where
  map : MapAt ram info records
  cmdline : CmdlineAt ram info line
  mods : ModsAt ram info ms

/-- The variables hold what the boot loader left. -/
structure Booted (ram : Buf) (records : List Record) (line : List UInt8) (ms : List Module) (s : Misc) : Prop where
  entries : s.entries = records.map Record.entry
  cmdline : s.cmdline
  cmdlineBuf : s.cmdlineBuf.Holds 0 (line ++ [0])
  initrd : ∃ m, initrdOf ram ms = some m ∧ s.initrdBegin = m.modStart.toNat ∧ s.initrdEnd = m.modEnd.toNat

/-- `MMAP_AVAILABLE` -/
def mmapAvailable : ℕ := 1

/-- An entry, as `setup_memory` reads it. -/
def MmapEntry.balloc (e : MmapEntry) : Balloc.MmapEntry := ⟨e.addr, e.length, e.type = mmapAvailable⟩

/-- The memory map that `setup_memory` starts from. -/
def Misc.bootMap (s : Misc) (kernelBegin kernelEnd : ℕ) : Balloc.BootMap :=
  ⟨s.entries.map MmapEntry.balloc, kernelBegin, kernelEnd, s.initrdBegin, s.initrdEnd⟩

section

variable {ram : Buf} {info : MultibootInfo} {records : List Record} {line : List UInt8} {ms : List Module} {m : Module}
  {s : Misc} {fuel : ℕ}

/-- **The boot information** is decoded exactly when the memory map and the command line fit, and there is an initrd. -/
theorem BootLoader.ensures_setupMisc_iff (h : BootLoader ram info records line ms) (hs : s.memoryMapSize = 0)
    (hfuel : records.length < fuel) (hfuel' : line.length < fuel) :
    Ensures (setupMisc fuel ram info) s (fun _ s' => Booted ram records line ms s') ↔
      records.length ≤ mmapMaxCount ∧ line.length < maxCmdlineLen ∧ (initrdOf ram ms).isSome := by
  rw [setupMisc]
  rcases Nat.lt_or_ge mmapMaxCount records.length with hcount | hcount
  · exact iff_of_false (h.map.faults_setup hs hfuel hcount).bind.not_ensures
      fun hc => absurd hc.1 (Nat.not_le.2 hcount)
  have hmap := h.map.setup_run hs hfuel hcount
  rcases Nat.lt_or_ge line.length maxCmdlineLen with hroom | hroom
  · have hline := h.cmdline.setup_run (s := (records.map Record.entry).foldl Misc.push s) hfuel' hroom
    rw [Ensures, bind_of_run hmap, bind_of_run hline, h.mods.setup_eq]
    cases hinitrd : initrdOf ram ms with
    | none => simp
    | some m =>
      refine iff_of_true ⟨(), _, rfl, ?_, rfl, Misc.holds_setCmdline _ line, m, hinitrd, rfl, rfl⟩ ⟨hcount, hroom, rfl⟩
      exact entries_foldl_push.trans (by rw [Misc.entries_of_size hs, List.nil_append])
  · exact iff_of_false (faults_bind_run hmap (h.cmdline.faults_setup hfuel' hroom).bind).not_ensures
      fun hc => absurd hc.2.1 (Nat.not_lt.2 hroom)

theorem skipped_eq_false_iff :
    m.mod.skipped ram = false ↔ 6 ≤ m.modEnd - m.modStart ∧ ram.Holds m.modStart.toNat cpioMagic := by
  rw [MbootMod.skipped, Bool.or_eq_false_iff, decide_eq_false_iff_not, UInt32.not_lt, bne_eq_false_iff_eq]
  rfl

/-- A module that is an initrd has at least the magic number. -/
theorem six_le_of_initrdOf (h : initrdOf ram ms = some m) (hle : m.modStart ≤ m.modEnd) :
    m.modStart.toNat + 6 ≤ m.modEnd.toNat := by
  rw [initrdOf] at h
  have hskip := List.find?_some h
  rw [Bool.not_eq_true'] at hskip
  have hsix := (skipped_eq_false_iff.1 hskip).1
  rw [UInt32.le_iff_toNat_le, UInt32.toNat_sub_of_le _ _ hle] at hsix
  exact Nat.add_le_of_le_sub' (UInt32.le_iff_toNat_le.1 hle) hsix

/-- `setup_memory` is given a map that it can take. -/
theorem Booted.bootMap_ok (h : Booted ram records line ms s) (hcount : records.length ≤ mmapMaxCount)
    (hrecords : ∀ r ∈ records, 0 < r.length.toNat ∧ r.addr.toNat + r.length.toNat ≤ 2 ^ 64)
    (hms : ∀ m ∈ ms, m.modStart ≤ m.modEnd) {kernelBegin kernelEnd : ℕ} (hkernel : kernelBegin < kernelEnd)
    (hend : kernelEnd < 2 ^ 64) : (s.bootMap kernelBegin kernelEnd).Ok where
  count := by simpa [Misc.bootMap, h.entries, mmapMaxCount] using hcount
  entry := by
    simp only [Misc.bootMap, h.entries, List.forall_mem_map]
    exact fun r hr => ⟨(hrecords r hr).1, r.addr.toNat_lt, r.length.toNat_lt, (hrecords r hr).2⟩
  kernel := ⟨hkernel, hend⟩
  initrd := by
    obtain ⟨m, hm, hbegin, hstop⟩ := h.initrd
    have hlen := six_le_of_initrdOf hm (hms m (List.mem_of_find?_eq_some hm))
    have hlt := m.modEnd.toNat_lt
    simp only [Misc.bootMap, hbegin, hstop]
    omega

end

end Boot

end Kernel64
