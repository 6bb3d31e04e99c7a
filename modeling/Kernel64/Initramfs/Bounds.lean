import Kernel64.Initramfs.Returns
import Kernel64.Initramfs.RoundTrip

/-!
# What `parse_cpio` reads

The loop of `parse_cpio` once more, byte by byte: every read of the image has an index, and a read past the end is a
fault. The calls of the file systems read their strings up to the NUL, and so does what reports that they failed. This
is the program `Initramfs.parseCpio` (`readCpio_eq`).

The header of a record is inside the image, since the loop looks at what is left of it, and so are the contents of a
file. The name is not: nothing ties the NUL to `namesize`. So the loop ends with its reads inside exactly when the
names of the records end there, and the directories of those that are made can be walked to (`readsInside_iff`).
-/

namespace Kernel64

namespace Initramfs

open Vfs Ramfs

open Format (digitValue strchr_digits strtoulLoop strtoulLoop_cons_of_none strtoulLoop_cons_of_some strtoul_eq
  radix)

/-- Read a byte of the image. -/
def readByte (data : List UInt8) (i : ℕ) : InitM UInt8 :=
  match data[i]? with
  | some b => return b
  | none => throw .bounds

/-- `memcpy` from the image. -/
def readBytes (data : List UInt8) : ℕ → ℕ → InitM (List UInt8)
  | _, 0 => return []
  | i, n + 1 => do
    let b ← readByte data i
    return b :: (← readBytes data (i + 1) n)

/-- `parse_hex`, of the field at an index. -/
def readHex (data : List UInt8) (i : ℕ) : InitM ℕ := do
  return parseHex (← readBytes data i 8)

/-- Whether `strcmp` finds the string at an index to be `r`. -/
def readStrcmp (data : List UInt8) : ℕ → List Char → InitM Bool
  | i, [] => do
    let a ← readByte data i
    return a = 0
  | i, b :: r => do
    let a ← readByte data i
    if a ≠ 0 ∧ charOf a = b then readStrcmp data (i + 1) r else return false

/-- Read a string up to its NUL. -/
def readStringFrom (data : List UInt8) : ℕ → ℕ → InitM (List Char)
  | 0, _ => throw .fuel
  | n + 1, i => do
    let a ← readByte data i
    if a = 0 then return [] else return charOf a :: (← readStringFrom data n (i + 1))

@[inherit_doc readStringFrom]
def readString (data : List UInt8) (i : ℕ) : InitM (List Char) := readStringFrom data (data.length + 1) i

/-- The body of the loop of `parse_cpio`, with where it goes on. -/
def readRecord (fuel : ℕ) (data : List UInt8) (c : Cursor) : InitM (Option Cursor) := do
  let mode ← readHex data (c.pos + 14)
  let namesize ← readHex data (c.pos + 94)
  let filesize ← readHex data (c.pos + 54)
  let filename := c.pos + headerSize
  let filedata := align4 ((filename + namesize) % 2 ^ 64)
  if data.length < filedata then return none
  else if ← readStrcmp data filename trailerName then return none
  else do
    let pos := (filedata + filesize) % 2 ^ 64
    if isDir mode then
      if c.root then return some ⟨align4 pos, false⟩
      else do
        createDir (← readString data filename)
        return some ⟨align4 pos, false⟩
    else if isReg mode ∧ pos ≤ data.length then do
      let name ← readString data filename
      createFile fuel name (← readBytes data filedata filesize)
      return some ⟨align4 pos, c.root⟩
    else return some ⟨align4 pos, c.root⟩

/-- The loop of `parse_cpio`. -/
def readCpioFrom (fuel : ℕ) (data : List UInt8) : ℕ → Cursor → InitM Unit
  | 0, _ => throw .fuel
  | n + 1, c => do
    if c.pos < data.length ∧ headerSize ≤ data.length - c.pos then
      match ← readRecord fuel data c with
      | none => return
      | some c' => readCpioFrom fuel data n c'
    else return

/-- `parse_cpio` -/
def readCpio (fuel : ℕ) (data : List UInt8) : InitM Unit := readCpioFrom fuel data (data.length + 1) ⟨0, true⟩

/-! ### Records of an image -/

/-- The name of the record at a place, with all that follows. -/
def nameAt (data : List UInt8) (c : Cursor) : List UInt8 := data.drop (c.pos + headerSize)

/-- The field `mode` of a record. -/
def modeAt (data : List UInt8) (c : Cursor) : ℕ := parseHex (data.drop (c.pos + 14))

/-- Where the contents of a record begin. -/
def contentsAt (data : List UInt8) (c : Cursor) : ℕ :=
  align4 ((c.pos + headerSize + parseHex (data.drop (c.pos + 94))) % 2 ^ 64)

/-- Where the contents of a record end. -/
def contentsEnd (data : List UInt8) (c : Cursor) : ℕ :=
  (contentsAt data c + parseHex (data.drop (c.pos + 54))) % 2 ^ 64

/-- The place after a record. -/
def nextCursor (data : List UInt8) (c : Cursor) : Cursor :=
  ⟨align4 (contentsEnd data c), c.root && !decide (isDir (modeAt data c))⟩

/-- A record at a place: the header fits, and the name that it announces. -/
structure Whole (data : List UInt8) (c : Cursor) : Prop where
  header : c.pos + headerSize ≤ data.length
  name : contentsAt data c ≤ data.length

/-- The bytes of the name of the last record. -/
def trailerBytes : List UInt8 := trailerName.map ch ++ [0]

/-- The record stands for a directory or a file that is made. -/
def Made (data : List UInt8) (c : Cursor) : Prop :=
  if isDir (modeAt data c) then c.root = false else isReg (modeAt data c) ∧ contentsEnd data c ≤ data.length

/-- The name of a record ends in the image; of one that makes nothing, the name may also differ from the name of the
last record before the image ends. -/
def NameEnds (data : List UInt8) (c : Cursor) : Prop :=
  0 ∈ nameAt data c ∨ (¬Made data c ∧ ¬nameAt data c <+: trailerBytes)

/-- The string at the start of some bytes. -/
def stringOf (l : List UInt8) : List Char := (l.takeWhile (· ≠ 0)).map charOf

/-- **The name of a record ends in the image, and the directory of one that is made can be walked to.** -/
structure RecordOk (data : List UInt8) (c : Cursor) (s : State) : Prop where
  ends : NameEnds data c
  enters : ¬trailerBytes <+: nameAt data c → Made data c → Enters s.fs (stringOf (nameAt data c))

/-! ### Numbers -/

section

variable {data : List UInt8} {c : Cursor}

/-- A digit is below 36. -/
theorem digitValue_lt {b : UInt8} {d : ℕ} (h : digitValue b = some d) : d < 36 := by
  have hlt := (List.findIdx?_eq_some_iff_findIdx_eq.1 ((strchr_digits b).trans h)).1
  exact hlt

theorem strtoulLoop_bound : ∀ (l : List UInt8) (answer : ℕ),
    (strtoulLoop 16 answer l).1 + 3 ≤ (answer + 3) * 16 ^ l.length
  | [], answer => by simp [strtoulLoop]
  | b :: l, answer => by
    rw [List.length_cons]
    cases hd : digitValue b with
    | none =>
      rw [strtoulLoop_cons_of_none hd]
      exact Nat.le_mul_of_pos_right _ (by positivity)
    | some d =>
      rw [strtoulLoop_cons_of_some hd]
      have hlt := digitValue_lt hd
      have hmod := Nat.mod_le (answer * 16 + d) (2 ^ 64)
      have ih := strtoulLoop_bound l ((answer * 16 + d) % 2 ^ 64)
      calc (strtoulLoop 16 ((answer * 16 + d) % 2 ^ 64) l).1 + 3
          ≤ ((answer * 16 + d) % 2 ^ 64 + 3) * 16 ^ l.length := ih
        _ ≤ ((answer + 3) * 16) * 16 ^ l.length := Nat.mul_le_mul_right _ (by omega)
        _ = (answer + 3) * 16 ^ (l.length + 1) := by ring

/-- A field of a header is a small number, whatever its characters are. -/
theorem parseHex_lt (l : List UInt8) : parseHex l < 2 ^ 38 := by
  have hbound := strtoulLoop_bound (l.take 8) 0
  have hlen : (l.take 8).length ≤ 8 := List.length_take_le 8 l
  have hpow : 16 ^ (l.take 8).length ≤ 16 ^ 8 := Nat.pow_le_pow_right (by norm_num) hlen
  rw [parseHex, strtoul_eq, radix, if_neg (by decide)]
  dsimp only
  omega

theorem le_align4 {x : ℕ} (h : x + 3 < 2 ^ 64) : x ≤ align4 x ∧ align4 x < x + 4 := by
  rw [align4, Nat.mod_eq_of_lt h]
  omega

/-- The place of the contents, as a number without overflow. -/
theorem le_contentsAt (hsize : data.length < 2 ^ 63) (hc : c.pos + headerSize ≤ data.length) :
    c.pos + headerSize ≤ contentsAt data c := by
  have hname := parseHex_lt (data.drop (c.pos + 94))
  have hlt : c.pos + headerSize + parseHex (data.drop (c.pos + 94)) < 2 ^ 64 := by omega
  rw [contentsAt, Nat.mod_eq_of_lt hlt]
  have := le_align4 (x := c.pos + headerSize + parseHex (data.drop (c.pos + 94))) (by omega)
  omega

/-- The end of the contents, as a number without overflow. -/
theorem contentsEnd_eq (hsize : data.length < 2 ^ 63) (hc : Whole data c) :
    contentsEnd data c = contentsAt data c + parseHex (data.drop (c.pos + 54)) := by
  have hfile := parseHex_lt (data.drop (c.pos + 54))
  have hname := hc.name
  exact Nat.mod_eq_of_lt (by omega)

/-- The loop moves on by a header at least. -/
theorem nextCursor_pos (hsize : data.length < 2 ^ 63) (hc : Whole data c) :
    c.pos + headerSize ≤ (nextCursor data c).pos := by
  have hfile := parseHex_lt (data.drop (c.pos + 54))
  have hname := hc.name
  have hend := contentsEnd_eq hsize hc
  have hle := le_contentsAt hsize hc.header
  have halign := le_align4 (x := contentsEnd data c) (by omega)
  change c.pos + headerSize ≤ align4 (contentsEnd data c)
  omega

end

/-! ### Reads -/

section

variable {σ : Type} {data : List UInt8} {i : ℕ}

theorem readByte_drop : readByte data i =
    match data.drop i with
    | [] => throw .bounds
    | b :: _ => pure b := by
  rw [readByte, ← List.head?_drop]
  cases data.drop i with
  | nil => rfl
  | cons b l => rfl

theorem readByte_of_drop {b : UInt8} {l : List UInt8} (h : data.drop i = b :: l) : readByte data i = pure b := by
  rw [readByte_drop, h]

theorem readByte_of_end (h : data.drop i = []) : readByte data i = throw .bounds := by
  rw [readByte_drop, h]

theorem drop_succ_of_drop {b : UInt8} {l : List UInt8} (h : data.drop i = b :: l) : data.drop (i + 1) = l := by
  rw [← List.drop_drop, h, List.drop_one, List.tail_cons]

theorem readBytes_eq : ∀ {n i : ℕ}, i + n ≤ data.length →
    readBytes data i n = pure ((data.drop i).take n)
  | 0, i, _ => by rw [readBytes, List.take_zero]
  | n + 1, i, h => by
    cases hd : data.drop i with
    | nil =>
      rw [List.drop_eq_nil_iff] at hd
      omega
    | cons b l =>
      rw [readBytes, readByte_of_drop hd, pure_bind, readBytes_eq (by omega), pure_bind, drop_succ_of_drop hd,
        List.take_succ_cons]

theorem readHex_eq (h : i + 8 ≤ data.length) : readHex data i = pure (parseHex (data.drop i)) := by
  rw [readHex, readBytes_eq h, pure_bind, parseHex, parseHex, List.take_take, min_self]

/-- Comparing bytes with a string of which the last is the NUL: the bytes are read up to the first difference. -/
def compareBytes (l r : List UInt8) : Prog σ Bool :=
  if r <+: l then pure true else if l <+: r then throw .bounds else pure false

theorem compareBytes_nil {r : List UInt8} {b : UInt8} : (compareBytes [] (b :: r) : Prog σ Bool) = throw .bounds := by
  rw [compareBytes, if_neg (by simp), if_pos List.nil_prefix]

theorem compareBytes_cons {a b : UInt8} {l r : List UInt8} :
    (compareBytes (a :: l) (b :: r) : Prog σ Bool) = if a = b then compareBytes l r else pure false := by
  by_cases hab : a = b
  · subst hab
    simp only [compareBytes, List.cons_prefix_cons, true_and, if_true]
  · rw [compareBytes, if_neg, if_neg, if_neg hab]
    · simp [List.cons_prefix_cons, hab]
    · simp [List.cons_prefix_cons, Ne.symm hab]

theorem compareBytes_end {a : UInt8} {l : List UInt8} :
    (compareBytes (a :: l) [0] : Prog σ Bool) = pure (decide (a = 0)) := by
  rw [compareBytes_cons]
  by_cases ha : a = 0
  · rw [if_pos ha, compareBytes, if_pos List.nil_prefix, decide_eq_true ha]
  · rw [if_neg ha, decide_eq_false ha]

theorem readStrcmp_eq : ∀ {r : List Char} {i : ℕ}, Bytes r →
    readStrcmp data i r = compareBytes (data.drop i) (r.map ch ++ [0])
  | [], i, _ => by
    rw [readStrcmp, List.map_nil, List.nil_append]
    cases hd : data.drop i with
    | nil => rw [readByte_of_end hd, compareBytes_nil]; rfl
    | cons a l => rw [readByte_of_drop hd, pure_bind, compareBytes_end]
  | b :: r, i, hr => by
    rw [readStrcmp, List.map_cons, List.cons_append]
    cases hd : data.drop i with
    | nil => rw [readByte_of_end hd, compareBytes_nil]; rfl
    | cons a l =>
      have ih := readStrcmp_eq (i := i + 1) fun x hx => hr x (List.mem_cons_of_mem _ hx)
      rw [readByte_of_drop hd, pure_bind, compareBytes_cons, ih, drop_succ_of_drop hd]
      simp only [matches_iff (hr b List.mem_cons_self)]

theorem strcmp_eq : ∀ {r : List Char} {l : List UInt8}, Bytes r →
    strcmp l r = compareBytes l (r.map ch ++ [0])
  | [], [], _ => by rw [strcmp, List.map_nil, List.nil_append, compareBytes_nil]
  | [], a :: l, _ => by rw [strcmp, List.map_nil, List.nil_append, compareBytes_end]
  | b :: r, [], _ => by rw [strcmp, List.map_cons, List.cons_append, compareBytes_nil]
  | b :: r, a :: l, hr => by
    have ih := strcmp_eq (l := l) fun x hx => hr x (List.mem_cons_of_mem _ hx)
    rw [strcmp, List.map_cons, List.cons_append, compareBytes_cons, ih]
    simp only [matches_iff (hr b List.mem_cons_self)]

theorem readStringFrom_eq : ∀ {n i : ℕ}, (data.drop i).length < n →
    readStringFrom data n i = if 0 ∈ data.drop i then pure (stringOf (data.drop i)) else throw .bounds
  | 0, _, h => absurd h (Nat.not_lt_zero _)
  | n + 1, i, h => by
    rw [readStringFrom]
    cases hd : data.drop i with
    | nil => rw [readByte_of_end hd, if_neg List.not_mem_nil]; rfl
    | cons a l =>
      have hnext := drop_succ_of_drop hd
      rw [hd, List.length_cons] at h
      have ih := readStringFrom_eq (n := n) (i := i + 1) (by rw [hnext]; omega)
      rw [readByte_of_drop hd, pure_bind, ih, hnext]
      by_cases ha : a = 0
      · rw [if_pos ha, if_pos (by simp [ha])]
        simp [stringOf, ha]
      · by_cases hl : 0 ∈ l
        · rw [if_neg ha, if_pos hl, if_pos (List.mem_cons_of_mem _ hl), pure_bind]
          simp [stringOf, ha]
        · rw [if_neg ha, if_neg hl, if_neg (by simp [hl, Ne.symm ha])]
          rfl

theorem readString_eq :
    readString data i = if 0 ∈ data.drop i then pure (stringOf (data.drop i)) else throw .bounds :=
  readStringFrom_eq (by rw [List.length_drop]; omega)

end

/-! ### One record -/

section

variable {data : List UInt8} {c c' : Cursor} {s s' : State} {fuel : ℕ} {entrySupply : ℕ → Option Eid}
  {nodeSupply : ℕ → Option Nid} {nameSupply mountSupply : ℕ → Bool}

/-- The NUL of the last name is its last byte. -/
theorem trailer_of_prefix_of_zero {l : List UInt8} (h : l <+: trailerBytes) (h0 : 0 ∈ l) : trailerBytes <+: l := by
  have hall : ∀ n < 11, 0 ∉ trailerBytes.take n := by decide
  obtain ⟨t, ht⟩ := h
  have hl : l = trailerBytes.take l.length := by rw [← ht, List.take_left]
  have hlen : 11 ≤ l.length := by
    by_contra hlt
    exact hall l.length (by omega) (hl ▸ h0)
  rw [hl, List.take_of_length_le (by exact hlen)]

/-- What has to end in the image, for a record that is not the last. -/
theorem nameEnds_iff (hc : ¬trailerBytes <+: nameAt data c) :
    NameEnds data c ↔ ¬nameAt data c <+: trailerBytes ∧ (Made data c → 0 ∈ nameAt data c) := by
  constructor
  · rintro (h0 | ⟨hmade, hpre⟩)
    · exact ⟨fun hpre => hc (trailer_of_prefix_of_zero hpre h0), fun _ => h0⟩
    · exact ⟨hpre, fun h => absurd h hmade⟩
  · rintro ⟨hpre, h0⟩
    by_cases hmade : Made data c
    · exact Or.inl (h0 hmade)
    · exact Or.inr ⟨hmade, hpre⟩

theorem nameEnds_trailer (hc : trailerBytes <+: nameAt data c) : NameEnds data c :=
  Or.inl (hc.subset (by decide))

theorem ensures_compareBytes {l r : List UInt8} {σ : Type} {s : σ} {P : Bool → σ → Prop} :
    Ensures (compareBytes l r : Prog σ Bool) s P ↔
      (r <+: l → P true s) ∧ (¬r <+: l → ¬l <+: r ∧ P false s) := by
  by_cases hr : r <+: l
  · simp [compareBytes, hr]
  · by_cases hl : l <+: r
    · simp [compareBytes, hr, hl]
    · simp [compareBytes, hr, hl]

/-- **Byte by byte, the body of the loop** is the one that takes the image apart as a list. -/
theorem readRecord_eq (hsize : data.length < 2 ^ 63) (hc : c.pos + headerSize ≤ data.length) :
    readRecord fuel data c = parseRecord fuel data c := by
  have hhead : headerSize = 110 := rfl
  rw [readRecord, readHex_eq (by omega), pure_bind, readHex_eq (by omega), pure_bind, readHex_eq (by omega),
    pure_bind, parseRecord]
  simp only [List.drop_drop]
  rw [readStrcmp_eq bytes_trailerName, strcmp_eq bytes_trailerName]
  have hname : readString data (c.pos + headerSize) = cString (data.drop (c.pos + headerSize)) := readString_eq
  rw [hname]
  change (if data.length < contentsAt data c then _ else _) = if data.length < contentsAt data c then _ else _
  by_cases hfit : data.length < contentsAt data c
  · rw [if_pos hfit, if_pos hfit]
  rw [if_neg hfit, if_neg hfit]
  refine bind_congr fun b => ?_
  refine if_congr Iff.rfl rfl (if_congr Iff.rfl rfl ?_)
  by_cases hreg : isReg (modeAt data c) ∧ contentsEnd data c ≤ data.length
  · have hwhole : Whole data c := ⟨hc, by omega⟩
    have hend := contentsEnd_eq hsize hwhole
    have hbytes := @readBytes_eq data (parseHex (data.drop (c.pos + 54))) (contentsAt data c) (by omega)
    change (if isReg (modeAt data c) ∧ contentsEnd data c ≤ data.length then _ else _) =
      if isReg (modeAt data c) ∧ contentsEnd data c ≤ data.length then _ else _
    rw [if_pos hreg, if_pos hreg]
    refine bind_congr fun name => ?_
    change (readBytes data (contentsAt data c) (parseHex (data.drop (c.pos + 54))) >>= _) = _
    rw [hbytes, pure_bind]
    rfl
  · change (if isReg (modeAt data c) ∧ contentsEnd data c ≤ data.length then _ else _) =
      if isReg (modeAt data c) ∧ contentsEnd data c ≤ data.length then _ else _
    rw [if_neg hreg, if_neg hreg]

theorem readCpioFrom_eq (hsize : data.length < 2 ^ 63) : ∀ {n : ℕ} {c : Cursor},
    readCpioFrom fuel data n c = parseCpioFrom fuel data n c
  | 0, _ => rfl
  | n + 1, c => by
    rw [readCpioFrom, parseCpioFrom]
    by_cases hc : c.pos < data.length ∧ headerSize ≤ data.length - c.pos
    · rw [if_pos hc, if_pos hc, readRecord_eq hsize (by omega)]
      refine bind_congr fun o => ?_
      cases o with
      | none => rfl
      | some c' => exact readCpioFrom_eq hsize
    · rw [if_neg hc, if_neg hc]

/-- **Byte by byte, `parse_cpio`** is the program that takes the image apart as a list. -/
theorem readCpio_eq (hsize : data.length < 2 ^ 63) : readCpio fuel data = parseCpio fuel data := readCpioFrom_eq hsize

/-- What is made for a record. -/
def makeRecord (fuel : ℕ) (data : List UInt8) (c : Cursor) : InitM Unit :=
  if isDir (modeAt data c) then
    if c.root then return
    else do createDir (← cString (nameAt data c))
  else if isReg (modeAt data c) ∧ contentsEnd data c ≤ data.length then do
    createFile fuel (← cString (nameAt data c))
      ((data.drop (contentsAt data c)).take (parseHex (data.drop (c.pos + 54))))
  else return

theorem parseRecord_eq (hw : Whole data c) : parseRecord fuel data c = do
    let b ← compareBytes (nameAt data c) trailerBytes
    if b then return none
    else do
      makeRecord fuel data c
      return some (nextCursor data c) := by
  have hfit : ¬data.length < contentsAt data c := Nat.not_lt.2 hw.name
  rw [parseRecord]
  simp only [List.drop_drop]
  rw [strcmp_eq bytes_trailerName]
  change (if data.length < contentsAt data c then _ else do
    let b ← compareBytes (nameAt data c) trailerBytes
    _ : InitM (Option Cursor)) = _
  rw [if_neg hfit]
  refine bind_congr fun b => if_congr Iff.rfl rfl ?_
  unfold makeRecord
  change (if isDir (modeAt data c) then _ else _) = _
  by_cases hdir : isDir (modeAt data c)
  · have hnext : nextCursor data c = ⟨align4 (contentsEnd data c), false⟩ := by simp [nextCursor, hdir]
    rw [if_pos hdir, if_pos hdir, hnext]
    cases c.root with
    | true => rfl
    | false =>
      simp only [Bool.false_eq_true, if_false, bind_assoc]
      rfl
  · have hnext : nextCursor data c = ⟨align4 (contentsEnd data c), c.root⟩ := by simp [nextCursor, hdir]
    rw [if_neg hdir, if_neg hdir, hnext]
    change (if isReg (modeAt data c) ∧ contentsEnd data c ≤ data.length then _ else _) = _
    by_cases hreg : isReg (modeAt data c) ∧ contentsEnd data c ≤ data.length
    · rw [if_pos hreg, if_pos hreg]
      simp only [bind_assoc]
      rfl
    · rw [if_neg hreg, if_neg hreg]
      rfl

theorem ensures_cString {l : List UInt8} {P : List Char → State → Prop} :
    Ensures (cString l) s P ↔ 0 ∈ l ∧ P (stringOf l) s := by
  unfold cString
  rw [ensures_ite, ensures_pure, ensures_throw]
  by_cases h0 : 0 ∈ l
  · simp [h0, stringOf]
  · simp [h0]

theorem makeRecord_of_not_made (hmade : ¬Made data c) : makeRecord fuel data c = pure () := by
  unfold Made at hmade
  unfold makeRecord
  by_cases hdir : isDir (modeAt data c)
  · rw [if_pos hdir, Bool.not_eq_false] at hmade
    rw [if_pos hdir, if_pos hmade]
  · rw [if_neg hdir] at hmade
    rw [if_neg hdir, if_neg hmade]

/-- A record that makes something returns only when its name ends, and its directory can be walked to. -/
theorem enters_of_makeRecord {Q : Unit → State → Prop} (hs : NamesFit s.fs) (hmade : Made data c)
    (h : Ensures (makeRecord fuel data c) s Q) : 0 ∈ nameAt data c ∧ Enters s.fs (stringOf (nameAt data c)) := by
  unfold Made at hmade
  unfold makeRecord at h
  by_cases hdir : isDir (modeAt data c)
  · rw [if_pos hdir] at hmade h
    rw [if_neg (Bool.eq_false_iff.1 hmade), ensures_bind, ensures_cString] at h
    exact ⟨h.1, enters_of_createDir hs h.2⟩
  · rw [if_neg hdir] at hmade h
    rw [if_pos hmade, ensures_bind, ensures_cString] at h
    exact ⟨h.1, enters_of_createFile hs h.2⟩

/-- It does return then. -/
theorem Ready.ensures_makeRecord (hs : Ready (setupVfs entrySupply nodeSupply nameSupply mountSupply) s)
    (hfuel : 2 * maxPages < fuel)
    (hmade : Made data c → 0 ∈ nameAt data c ∧ Enters s.fs (stringOf (nameAt data c))) :
    Ensures (makeRecord fuel data c) s fun _ s' =>
      Ready (setupVfs entrySupply nodeSupply nameSupply mountSupply) s' := by
  by_cases hm : Made data c
  · obtain ⟨h0, henters⟩ := hmade hm
    unfold Made at hm
    unfold makeRecord
    by_cases hdir : isDir (modeAt data c)
    · rw [if_pos hdir] at hm ⊢
      rw [if_neg (Bool.eq_false_iff.1 hm), ensures_bind, ensures_cString]
      exact ⟨h0, hs.ensures_createDir_iff.2 henters⟩
    · rw [if_neg hdir] at hm ⊢
      rw [if_pos hm, ensures_bind, ensures_cString]
      exact ⟨h0, (hs.ensures_createFile_iff hfuel).2 henters⟩
  · rw [makeRecord_of_not_made hm, ensures_pure]
    exact hs

/-- **The body of the loop returns** when the name of the record ends, and its directory can be walked to. -/
theorem Ready.ensures_parseRecord (hs : Ready (setupVfs entrySupply nodeSupply nameSupply mountSupply) s)
    (hfuel : 2 * maxPages < fuel) (hc : c.pos + headerSize ≤ data.length) (hok : Whole data c → RecordOk data c s) :
    Ensures (parseRecord fuel data c) s fun r s' =>
      Ready (setupVfs entrySupply nodeSupply nameSupply mountSupply) s' ∧
        ∀ c', r = some c' → Whole data c ∧ c' = nextCursor data c := by
  by_cases hw : Whole data c
  · rw [parseRecord_eq hw, ensures_bind, ensures_compareBytes]
    refine ⟨fun _ => ensures_pure.2 ⟨hs, nofun⟩, fun ht => ?_⟩
    obtain ⟨hpre, h0⟩ := (nameEnds_iff ht).1 (hok hw).ends
    refine ⟨hpre, ?_⟩
    rw [if_neg Bool.false_ne_true, ensures_bind]
    refine (hs.ensures_makeRecord hfuel fun hm => ⟨h0 hm, (hok hw).enters ht hm⟩).mono fun _ s' hs' => ?_
    exact ensures_pure.2 ⟨hs', fun c' hc' => ⟨hw, (Option.some.inj hc').symm⟩⟩
  · have hfit : data.length < contentsAt data c := by
      by_contra hle
      exact hw ⟨hc, Nat.not_lt.1 hle⟩
    have hnone : parseRecord fuel data c = pure none := by
      rw [parseRecord]
      simp only [List.drop_drop]
      exact if_pos hfit
    rw [hnone, ensures_pure]
    exact ⟨hs, nofun⟩

theorem recordOk_of_parseRecord {Q : Option Cursor → State → Prop} (hs : NamesFit s.fs) (hw : Whole data c)
    (h : Ensures (parseRecord fuel data c) s Q) : RecordOk data c s := by
  rw [parseRecord_eq hw, ensures_bind, ensures_compareBytes] at h
  by_cases ht : trailerBytes <+: nameAt data c
  · exact ⟨nameEnds_trailer ht, fun hc => absurd ht hc⟩
  · obtain ⟨hpre, h⟩ := h.2 ht
    rw [if_neg Bool.false_ne_true, ensures_bind] at h
    refine ⟨(nameEnds_iff ht).2 ⟨hpre, fun hm => (enters_of_makeRecord hs hm h).1⟩, fun _ hm => ?_⟩
    exact (enters_of_makeRecord hs hm h).2

/-! ### All records -/

theorem Reaches.ready {s₀ : State} (hs : Ready (setupVfs entrySupply nodeSupply nameSupply mountSupply) s₀)
    (hfuel : 2 * maxPages < fuel)
    (hall : ∀ c s, Reaches fuel data s₀ c s → Whole data c → RecordOk data c s) (hreach : Reaches fuel data s₀ c s) :
    Ready (setupVfs entrySupply nodeSupply nameSupply mountSupply) s := by
  induction hreach with
  | start => exact hs
  | @next c c' s s' hreach hroom hrun ih =>
    exact ((ih.ensures_parseRecord hfuel (by omega) (hall c s hreach)).of_run hrun).1

/-- **The loop ends** when the records that it comes to are sound. -/
theorem ensures_parseCpioFrom_of_recordsOk {s₀ : State} (hsize : data.length < 2 ^ 63)
    (hs : Ready (setupVfs entrySupply nodeSupply nameSupply mountSupply) s₀) (hfuel : 2 * maxPages < fuel)
    (hall : ∀ c s, Reaches fuel data s₀ c s → Whole data c → RecordOk data c s) : ∀ {n : ℕ} {c : Cursor} {s : State},
    Reaches fuel data s₀ c s → data.length - c.pos < n →
    Ensures (parseCpioFrom fuel data n c) s fun _ _ => True
  | 0, _, _, _, h => absurd h (Nat.not_lt_zero _)
  | n + 1, c, s, hreach, h => by
    have hhead : headerSize = 110 := rfl
    rw [parseCpioFrom]
    by_cases hroom : c.pos < data.length ∧ headerSize ≤ data.length - c.pos
    · rw [if_pos hroom, ensures_bind]
      obtain ⟨r, s', hrun, -, hnext⟩ :=
        (hreach.ready hs hfuel hall).ensures_parseRecord hfuel (by omega) (hall c s hreach)
      refine ⟨r, s', hrun, ?_⟩
      cases r with
      | none => exact ensures_pure.2 trivial
      | some c' =>
        obtain ⟨hw, rfl⟩ := hnext c' rfl
        have hpos := nextCursor_pos hsize hw
        exact ensures_parseCpioFrom_of_recordsOk hsize hs hfuel hall (hreach.next hroom hrun) (by omega)
    · rw [if_neg hroom, ensures_pure]
      trivial

/-- The loop ends only when its body returns. -/
theorem ensures_parseRecord_of_loop {n : ℕ} (hroom : c.pos < data.length ∧ headerSize ≤ data.length - c.pos)
    (hend : Ensures (parseCpioFrom fuel data n c) s fun _ _ => True) :
    Ensures (parseRecord fuel data c) s fun r s' =>
      ∀ c', r = some c' → ∃ n, Ensures (parseCpioFrom fuel data n c') s' fun _ _ => True := by
  cases n with
  | zero =>
    rw [parseCpioFrom, ensures_throw] at hend
    exact hend.elim
  | succ n =>
    rw [parseCpioFrom, if_pos hroom, ensures_bind] at hend
    refine hend.mono fun r s' hr => ?_
    rintro c' rfl
    exact ⟨n, hr⟩

/-- A loop that ends has come to sound records only. -/
theorem Reaches.recordOk {s₀ : State} {n : ℕ} (hs : Ready (setupVfs entrySupply nodeSupply nameSupply mountSupply) s₀)
    (hfuel : 2 * maxPages < fuel) (hend : Ensures (parseCpioFrom fuel data n ⟨0, true⟩) s₀ fun _ _ => True)
    (hreach : Reaches fuel data s₀ c s) (hw : Whole data c) : RecordOk data c s := by
  have hall : Ready (setupVfs entrySupply nodeSupply nameSupply mountSupply) s ∧
      ∃ n, Ensures (parseCpioFrom fuel data n c) s fun _ _ => True := by
    clear hw
    induction hreach with
    | start => exact ⟨hs, n, hend⟩
    | @next c c' s s' hreach hroom hrun ih =>
      obtain ⟨hready, m, hloop⟩ := ih
      have hbody := ensures_parseRecord_of_loop hroom hloop
      have hok : Whole data c → RecordOk data c s := fun hw => recordOk_of_parseRecord hready.namesFit hw hbody
      refine ⟨((hready.ensures_parseRecord hfuel (by omega) hok).of_run hrun).1, ?_⟩
      exact hbody.of_run hrun c' rfl
  obtain ⟨hready, m, hloop⟩ := hall
  have hhead := hw.header
  have hsize : 0 < headerSize := by decide
  exact recordOk_of_parseRecord hready.namesFit hw (ensures_parseRecord_of_loop (by omega) hloop)

/-- **`parse_cpio` ends, and reads bytes of the image only, exactly when the records that it comes to are sound**: the
name ends in the image, and the directory of one that is made can be walked to. The calls before it were any calls on
the file systems, and no file has been written. No object of C has `2 ^ 63` bytes. -/
theorem readsInside_iff {s₀ : State} {events : List Event} {files : List Eid} (hsize : data.length < 2 ^ 63)
    (hfuel : 2 * maxPages < fuel)
    (hcalls : VfsRun (setupVfs entrySupply nodeSupply nameSupply mountSupply) events s₀.fs files)
    (hfiles : s₀.files.Empty) :
    (Ensures (readCpio fuel data) s₀ fun _ _ => True) ↔
      ∀ c s, Reaches fuel data s₀ c s → Whole data c → RecordOk data c s := by
  have hs : Ready (setupVfs entrySupply nodeSupply nameSupply mountSupply) s₀ :=
    ⟨⟨_, _, hcalls⟩, _, hfiles.pagesOk⟩
  rw [readCpio_eq hsize]
  constructor
  · exact fun hend c s hreach hw => hreach.recordOk hs hfuel hend hw
  · intro hall
    exact ensures_parseCpioFrom_of_recordsOk hsize hs hfuel hall .start (by simp)

end

/-- A record of which the header has only zeros; the image ends in its name. -/
def cutImage : List UInt8 := List.replicate headerSize 48 ++ [84, 82]

/-- After the mount, the name is compared past the end of the image. -/
theorem not_readsInside_cutImage : ∃ fs, vfsMount initramfs roomy = Except.ok (0, fs) ∧ cutImage.length < 2 ^ 63 ∧
    ¬Ensures (readCpio 1048577 cutImage) ⟨fs, twoHandles, []⟩ fun _ _ => True := by
  have hrun : returns (vfsMount initramfs) roomy (fun rc fs => rc = 0 &&
      !returns (readCpio 1048577 cutImage) ⟨fs, twoHandles, []⟩ fun _ _ => true) = true := by decide
  obtain ⟨rc, fs, hmount, hread⟩ := returns_iff.1 hrun
  rw [Bool.and_eq_true, decide_eq_true_eq, Bool.not_eq_true'] at hread
  obtain ⟨rfl, hread⟩ := hread
  refine ⟨fs, hmount, by decide, fun hend => ?_⟩
  have := returns_iff.2 (hend.mono fun _ _ _ => (rfl : true = true))
  rw [hread] at this
  exact nomatch this

/-- An image with the record of a file. -/
def fileImage : List UInt8 :=
  smallRecord (smallHeader (56, 49) (48, 67) (48, 51)) (pathOf [initramfs, ['f']]) [104, 105, 33]

/-- The file is made, and the records that the loop comes to are sound. -/
theorem readsInside_fileImage : ∃ fs, vfsMount initramfs roomy = Except.ok (0, fs) ∧
    ∀ c s, Reaches 1048577 fileImage ⟨fs, twoHandles, []⟩ c s → Whole fileImage c → RecordOk fileImage c s := by
  have hrun : returns (vfsMount initramfs) roomy (fun rc fs => rc = 0 &&
      returns (readCpio 1048577 fileImage) ⟨fs, twoHandles, []⟩ fun _ s =>
        decide (kindAt s.fs [initramfs, ['f']] = some .file)) = true := by decide +kernel
  obtain ⟨rc, fs, hmount, hread⟩ := returns_iff.1 hrun
  rw [Bool.and_eq_true, decide_eq_true_eq] at hread
  obtain ⟨rfl, hread⟩ := hread
  have hcall : vfsCall [] (.mount initramfs) roomy = Except.ok (((0, none), []), fs) := bind_of_run hmount
  have hcalls := VfsRun.start.call hcall
  have hends : Ensures (readCpio 1048577 fileImage) ⟨fs, twoHandles, []⟩ fun _ _ => True :=
    (returns_iff.1 hread).mono fun _ _ _ => trivial
  refine ⟨fs, hmount, Iff.mp ?_ hends⟩
  exact readsInside_iff (by decide +kernel) (by decide) hcalls twoHandles_empty

end Initramfs

end Kernel64
