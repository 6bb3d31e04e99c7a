import Kernel64.Initramfs.Model
import Kernel64.Strings.Model
import Kernel64.Vfs.Reach
import Mathlib.Data.Nat.Digits.Defs

/-!
# Archives

What a `cpio` archive is, without the code that reads it: `Record` is the encoding of an entry, and
`Archive` that of a list of entries, with the record that ends it and any padding. The fields of a header
are read back by `parse_hex`, and a record by the body of the loop (`parseRecord_dir`,
`parseRecord_file`, `parseRecord_trailer`).
-/

namespace Kernel64

namespace Initramfs

open Vfs Ramfs

open Format (digitValue validDigit validDigit_iff numeral strtoul_append)

open Strings (charInt charInt_inj charInt_ne_zero strcmp_eq_zero_iff)

/-! ### Encodings -/

/-- The value of a hexadecimal digit, in either letter case. -/
def hexDigit (c : UInt8) : Option ℕ :=
  if 48 ≤ c ∧ c ≤ 57 then some (c.toNat - 48)
  else if 65 ≤ c ∧ c ≤ 70 then some (c.toNat - 55)
  else if 97 ≤ c ∧ c ≤ 102 then some (c.toNat - 87)
  else none

/-- The field of eight hexadecimal digits has the value `v`. -/
def IsHex (field : List UInt8) (v : ℕ) : Prop :=
  field.length = 8 ∧ ∃ ds : List ℕ, field.map hexDigit = ds.map some ∧ v = Nat.ofDigits 16 ds.reverse

/-- A `struct cpio_header`, without `magic`. -/
structure CpioHeader where
  inode : List UInt8
  mode : List UInt8
  uid : List UInt8
  gid : List UInt8
  nlink : List UInt8
  mtime : List UInt8
  filesize : List UInt8
  major : List UInt8
  minor : List UInt8
  rmajor : List UInt8
  rminor : List UInt8
  namesize : List UInt8
  chksum : List UInt8

/-- The fields in their order. -/
def CpioHeader.fields (h : CpioHeader) : List (List UInt8) :=
  [h.inode, h.mode, h.uid, h.gid, h.nlink, h.mtime, h.filesize, h.major, h.minor, h.rmajor, h.rminor,
    h.namesize, h.chksum]

/-- The bytes of a header. -/
def CpioHeader.bytes (h : CpioHeader) : List UInt8 := cpioMagic ++ h.fields.flatten

/-- How many bytes are missing to a multiple of 4. -/
def padding (n : ℕ) : ℕ := (4 - n % 4) % 4

/-- **The encoding of an entry**: the header, the name with its NUL, and the contents, each padded to a
multiple of 4 bytes. -/
def Record (Mode : ℕ → Prop) (name : List Char) (contents record : List UInt8) : Prop :=
  ∃ (h : CpioHeader) (pad pad' : List UInt8) (mode : ℕ),
    record = h.bytes ++ (name.map ch ++ 0 :: (pad ++ (contents ++ pad'))) ∧
    (∀ f ∈ h.fields, f.length = 8) ∧ IsHex h.mode mode ∧ Mode mode ∧
    IsHex h.namesize (name.length + 1) ∧ IsHex h.filesize contents.length ∧
    pad.length = padding (headerSize + (name.length + 1)) ∧ pad'.length = padding contents.length

/-- What is at a path. -/
inductive Content where
  | dir
  | file (data : List UInt8)

/-- An entry of an archive. -/
structure CpioEntry where
  path : List Name
  content : Content

/-- The encoding of an entry. -/
def CpioEntry.Encoded (e : CpioEntry) (record : List UInt8) : Prop :=
  match e.content with
  | .dir => Record isDir (pathOf e.path) [] record
  | .file data => Record isReg (pathOf e.path) data record

/-- **The encoding of a list of entries**, closed by a trailer and followed by anything. -/
def Archive (entries : List CpioEntry) (data : List UInt8) : Prop :=
  ∃ (records : List (List UInt8)) (trailer rest : List UInt8),
    List.Forall₂ CpioEntry.Encoded entries records ∧ Record (fun _ => True) trailerName [] trailer ∧
      data = records.flatten ++ (trailer ++ rest)

/-! ### Numbers -/

section

variable {field rest : List UInt8} {v : ℕ}

/-- `strtoul` finds each hexadecimal digit. -/
theorem digitValue_of_hexDigit {c : UInt8} {d : ℕ} (h : hexDigit c = some d) : digitValue c = some d ∧ d < 16 := by
  have hall : ∀ n < 256, (hexDigit (UInt8.ofNat n)).all fun d =>
      digitValue (UInt8.ofNat n) = some d ∧ d < 16 := by
    decide +kernel
  have hc := hall c.toNat c.toNat_lt
  rw [UInt8.ofNat_toNat, h] at hc
  simpa using hc

/-- The digits of a field, as `strtoul` finds them. -/
theorem digits_of_hex : ∀ {field : List UInt8} {ds : List ℕ}, field.map hexDigit = ds.map some →
    (∀ c ∈ field, validDigit 16 c = true) ∧ (∀ d ∈ ds, d < 16) ∧
      field.map (fun c => (digitValue c).getD 0) = ds
  | [], [], _ => ⟨List.forall_mem_nil _, List.forall_mem_nil _, rfl⟩
  | c :: field, d :: ds, h => by
    rw [List.map_cons, List.map_cons, List.cons.injEq] at h
    obtain ⟨hdigit, hd⟩ := digitValue_of_hexDigit h.1
    obtain ⟨hvalid, hlt, hmap⟩ := digits_of_hex h.2
    refine ⟨List.forall_mem_cons.2 ⟨validDigit_iff.2 ⟨d, hd, hdigit⟩, hvalid⟩,
      List.forall_mem_cons.2 ⟨hd, hlt⟩, ?_⟩
    rw [List.map_cons, hdigit, hmap, Option.getD_some]

/-- **A field is read back.** -/
theorem parseHex_append (h : IsHex field v) : parseHex (field ++ rest) = v := by
  obtain ⟨hlen, ds, hds, rfl⟩ := h
  obtain ⟨hvalid, hlt, hmap⟩ := digits_of_hex hds
  have hread := @strtoul_append 16 field [] (by decide) hvalid rfl
  rw [List.append_nil, numeral, List.map_reverse, hmap] at hread
  have hbound : Nat.ofDigits 16 ds.reverse < 16 ^ ds.reverse.length :=
    Nat.ofDigits_lt_base_pow_length (by decide) fun d hd => hlt d (List.mem_reverse.1 hd)
  rw [List.length_reverse, ← hmap, List.length_map, hlen, hmap] at hbound
  rw [parseHex, ← hlen, List.take_left, hread, Nat.mod_eq_of_lt (hbound.trans (by decide))]

end

/-! ### Strings -/

/-- A string of bytes, without the NUL. -/
def Bytes (name : List Char) : Prop := ∀ c ∈ name, 0 < c.toNat ∧ c.toNat < 256

instance (name : List Char) : Decidable (Bytes name) :=
  List.decidableBAll (fun c : Char => 0 < c.toNat ∧ c.toNat < 256) name

theorem bytes_trailerName : Bytes trailerName := by decide

section

variable {name : List Char} {rest : List UInt8}

theorem charOf_ch {c : Char} (hc : c.toNat < 256) : charOf (ch c) = c := by
  rw [charOf, ch, UInt8.toNat_ofNat', Nat.mod_eq_of_lt hc, Char.ofNat_toNat]

theorem ch_ne_zero {c : Char} (hc : 0 < c.toNat ∧ c.toNat < 256) : ch c ≠ 0 := by
  intro h
  have := congrArg UInt8.toNat h
  rw [ch, UInt8.toNat_ofNat', Nat.mod_eq_of_lt hc.2] at this
  simp at this
  omega

/-- A byte of a string is matched by its character. -/
theorem matches_iff {a : UInt8} {b : Char} (hb : 0 < b.toNat ∧ b.toNat < 256) :
    (a ≠ 0 ∧ charOf a = b) ↔ a = ch b := by
  constructor
  · rintro ⟨-, rfl⟩
    have hall : ∀ n < 256, (Char.ofNat n).toNat = n := by decide +kernel
    rw [ch, charOf, hall a.toNat a.toNat_lt, UInt8.ofNat_toNat]
  · rintro rfl
    exact ⟨ch_ne_zero hb, charOf_ch hb.2⟩

/-- `strcmp`, where the string ends in the archive. -/
theorem strcmp_eq_pure : ∀ {l : List UInt8} {r : List Char}, 0 ∈ l → Bytes r →
    strcmp l r = pure (decide (Strings.strcmp (l.takeWhile (· ≠ 0)) (r.map ch) = 0))
  | a :: l, [], _, _ => by
    by_cases ha : a = 0
    · simp [strcmp, ha, Strings.strcmp]
    · simp [strcmp, ha, Strings.strcmp, charInt_ne_zero ha]
  | a :: l, b :: r, hl, hr => by
    have hb := hr b List.mem_cons_self
    have hne := charInt_ne_zero (ch_ne_zero hb)
    simp only [strcmp, matches_iff hb, List.map_cons]
    by_cases ha : a = 0
    · rw [if_neg (fun h => ch_ne_zero hb (h.symm.trans ha)), List.takeWhile_cons_of_neg (by simpa using ha),
        Strings.strcmp, decide_eq_false (neg_ne_zero.2 hne)]
    rw [List.takeWhile_cons_of_pos (by simpa using ha), Strings.strcmp]
    by_cases hab : a = ch b
    · have hl' : 0 ∈ l := (List.mem_cons.1 hl).resolve_left (Ne.symm ha)
      rw [if_pos hab, if_pos hab, strcmp_eq_pure hl' fun x hx => hr x (List.mem_cons_of_mem _ hx)]
    · have hdiff : charInt a - charInt (ch b) ≠ 0 := fun h => hab (charInt_inj.1 (sub_eq_zero.1 h))
      rw [if_neg hab, if_neg hab, decide_eq_false hdiff]

/-- The bytes of a string, up to the NUL. -/
theorem takeWhile_string (hname : Bytes name) : (name.map ch ++ 0 :: rest).takeWhile (· ≠ 0) = name.map ch := by
  have hne : ∀ b ∈ name.map ch, decide (b ≠ 0) = true := by
    intro b hb
    obtain ⟨c, hc, rfl⟩ := List.mem_map.1 hb
    exact decide_eq_true (ch_ne_zero (hname c hc))
  rw [List.takeWhile_append_of_pos hne, List.takeWhile_cons_of_neg (by simp), List.append_nil]

theorem map_charOf (hname : Bytes name) : (name.map ch).map charOf = name := by
  rw [List.map_map]
  have hmap : name.map (charOf ∘ ch) = name.map id :=
    List.map_congr_left fun c hc => charOf_ch (hname c hc).2
  rw [hmap, List.map_id]

theorem zero_notMem_map (hname : Bytes name) : 0 ∉ name.map ch := by
  intro h
  obtain ⟨c, hc, h₀⟩ := List.mem_map.1 h
  exact ch_ne_zero (hname c hc) h₀

theorem strcmp_append {r : List Char} (hname : Bytes name) (hr : Bytes r) :
    strcmp (name.map ch ++ 0 :: rest) r = pure (decide (name = r)) := by
  have hiff : name.map ch = r.map ch ↔ name = r :=
    ⟨fun h => by rw [← map_charOf hname, h, map_charOf hr], fun h => by rw [h]⟩
  rw [strcmp_eq_pure (by simp) hr, takeWhile_string hname]
  simp only [strcmp_eq_zero_iff (zero_notMem_map hname) (zero_notMem_map hr), hiff]

theorem cString_append (hname : Bytes name) : cString (name.map ch ++ 0 :: rest) = pure name := by
  rw [cString, if_pos (by simp), takeWhile_string hname, map_charOf hname]

end

/-! ### Records -/

section

variable {h : CpioHeader} {Mode : ℕ → Prop} {name : List Char} {contents record pre : List UInt8}

theorem CpioHeader.length_bytes (hf : ∀ f ∈ h.fields, f.length = 8) : h.bytes.length = headerSize := by
  simp only [CpioHeader.fields, List.forall_mem_cons] at hf
  simp [CpioHeader.bytes, CpioHeader.fields, cpioMagic, headerSize, hf]

theorem drop_flatten {w : ℕ} : ∀ {fields : List (List UInt8)} (k : ℕ), (∀ f ∈ fields, f.length = w) →
    fields.flatten.drop (w * k) = (fields.drop k).flatten
  | _, 0, _ => rfl
  | [], _ + 1, _ => by simp
  | f :: fields, k + 1, hf => by
    have hw := hf f List.mem_cons_self
    rw [List.flatten_cons, mul_add_one, add_comm, ← List.drop_drop, List.drop_left' hw, List.drop_succ_cons]
    exact drop_flatten k fun x hx => hf x (List.mem_cons_of_mem _ hx)

/-- The fields are where the code looks for them. -/
theorem CpioHeader.drop_bytes {field : List UInt8} {k : ℕ} (hf : ∀ f ∈ h.fields, f.length = 8)
    (hk : h.fields[k]? = some field) (t : List UInt8) :
    ∃ t', (h.bytes ++ t).drop (6 + 8 * k) = field ++ t' := by
  obtain ⟨hlt, rfl⟩ := List.getElem?_eq_some_iff.1 hk
  have hle : 6 + 8 * k ≤ h.bytes.length := by
    rw [CpioHeader.length_bytes hf]
    have : k < 13 := hlt
    unfold headerSize
    omega
  refine ⟨(h.fields.drop (k + 1)).flatten ++ t, ?_⟩
  have hmagic : (cpioMagic ++ h.fields.flatten).drop 6 = h.fields.flatten := List.drop_left' rfl
  rw [List.drop_append_of_le_length hle, CpioHeader.bytes, ← List.drop_drop, hmagic,
    drop_flatten k hf, List.drop_eq_getElem_cons hlt,
    List.flatten_cons, List.append_assoc]

theorem align4_eq {x y : ℕ} (hx : x + padding x = y) (hy : y < 2 ^ 64) : align4 x = y := by
  unfold padding at hx
  unfold align4
  omega

/-- What the code does with a record: it makes what the header says, unless it is the last one. -/
def handle (fuel mode : ℕ) (root : Bool) (next : ℕ) (name : List Char) (contents : List UInt8) :
    InitM (Option Cursor) :=
  if name = trailerName then return none
  else if isDir mode then
    if root then return some ⟨next, false⟩
    else do
      createDir name
      return some ⟨next, false⟩
  else if isReg mode then do
    createFile fuel name contents
    return some ⟨next, root⟩
  else return some ⟨next, root⟩

/-- **A record is read back.** -/
theorem parseRecord_append (fuel : ℕ) (root : Bool) (post : List UInt8)
    (hr : Record Mode name contents record) (hname : Bytes name)
    (hpre : pre.length % 4 = 0) (hsize : (pre ++ (record ++ post)).length < 2 ^ 64) :
    ∃ mode, Mode mode ∧ parseRecord fuel (pre ++ (record ++ post)) ⟨pre.length, root⟩ =
      handle fuel mode root (pre.length + record.length) name contents := by
  obtain ⟨h, pad, pad', mode, rfl, hf, hmode, hMode, hns, hfs, hpad, hpad'⟩ := hr
  have hlen := CpioHeader.length_bytes hf
  have hlen' : (h.bytes ++ (name.map ch ++ 0 :: (pad ++ (contents ++ pad')))).length =
      headerSize + (name.length + 1) + pad.length + contents.length + pad'.length := by
    simp only [List.length_append, List.length_cons, List.length_map, hlen]
    omega
  refine ⟨mode, hMode, ?_⟩
  rw [List.length_append, List.length_append, hlen'] at hsize
  set tail := name.map ch ++ 0 :: (pad ++ (contents ++ pad')) with htail
  obtain ⟨t₁, h₁⟩ := CpioHeader.drop_bytes (k := 1) hf rfl (tail ++ post)
  obtain ⟨t₂, h₂⟩ := CpioHeader.drop_bytes (k := 6) hf rfl (tail ++ post)
  obtain ⟨t₃, h₃⟩ := CpioHeader.drop_bytes (k := 11) hf rfl (tail ++ post)
  -- the place of the contents, and that of the next record
  set mid := pre.length + (headerSize + (name.length + 1) + pad.length) with hmid
  have halign₁ : align4 ((pre.length + headerSize + (name.length + 1)) % 2 ^ 64) = mid := by
    rw [Nat.mod_eq_of_lt (by omega)]
    refine align4_eq ?_ (by omega)
    rw [hmid, hpad]
    unfold padding headerSize
    omega
  have halign₂ : align4 ((mid + contents.length) % 2 ^ 64) = pre.length +
      (headerSize + (name.length + 1) + pad.length + contents.length + pad'.length) := by
    rw [Nat.mod_eq_of_lt (by omega)]
    refine align4_eq ?_ (by omega)
    rw [hmid, hpad', hpad]
    unfold padding headerSize
    omega
  have hname' : (pre ++ (h.bytes ++ tail ++ post)).drop (pre.length + headerSize) =
      name.map ch ++ 0 :: (pad ++ (contents ++ pad') ++ post) := by
    rw [List.append_assoc, ← List.append_assoc pre, List.drop_left' (by rw [List.length_append, hlen]),
      htail]
    simp only [List.append_assoc, List.cons_append]
  have hdata : (pre ++ (h.bytes ++ tail ++ post)).drop mid = contents ++ (pad' ++ post) := by
    rw [htail, show pre ++ (h.bytes ++ (name.map ch ++ 0 :: (pad ++ (contents ++ pad'))) ++ post) =
      (pre ++ (h.bytes ++ (name.map ch ++ 0 :: pad))) ++ (contents ++ (pad' ++ post)) by simp]
    refine List.drop_left' ?_
    simp only [List.length_append, List.length_cons, List.length_map, hlen]
    omega
  have hle : ¬(pre ++ (h.bytes ++ tail ++ post)).length < mid := by
    rw [List.length_append, List.length_append, hlen']
    omega
  have hle' : (mid + contents.length) % 2 ^ 64 ≤ (pre ++ (h.bytes ++ tail ++ post)).length := by
    rw [Nat.mod_eq_of_lt (by omega), List.length_append, List.length_append, hlen']
    omega
  unfold parseRecord handle
  dsimp only
  rw [List.drop_left, List.append_assoc h.bytes, h₁, h₂, h₃, parseHex_append hmode, parseHex_append hns,
    parseHex_append hfs, ← List.append_assoc h.bytes, halign₁, if_neg hle, hname',
    strcmp_append hname bytes_trailerName, cString_append hname, hdata, List.take_left, halign₂, hlen']
  simp only [pure_bind, decide_eq_true_eq, hle', and_true]

end

end Initramfs

end Kernel64
