import Kernel64.Format.Model
import Mathlib.Tactic.FinCases

/-!
# Directives

What `format_decode` makes of a string that starts with `%` (`formatDecode_percent`): it passes the
flags, then, when a digit follows, all letters and digits, since `strtol` does not stop at a
letter, then a length modifier, and takes the next character for the conversion.

`Directive` is the grammar that the function is meant to parse. It is parsed as the grammar says
exactly when the directive has no width, or when `%` follows the width (`formatDecode_iff`); a
string without a directive is never reported as invalid, for the type of a number is set last.
-/

namespace Kernel64

namespace Format

/-! ### The shape of what is read -/

/-- A flag character. -/
def isFlag (c : UInt8) : Bool := c = ch '+' ∨ c = ch '#'

/-- A letter or a digit, which `strtol` reads on over. -/
def isAlnum (c : UInt8) : Bool := (digitValue c).isSome

/-- What is left behind the flags. -/
def afterFlags (fmt : List UInt8) : List UInt8 := fmt.dropWhile isFlag

/-- What `strtol` leaves, when it is called. -/
def afterWidth (fmt : List UInt8) : List UInt8 :=
  if isdigit (peek fmt) then fmt.dropWhile isAlnum else fmt

/-- What is left behind a length modifier. -/
def afterModifier : List UInt8 → List UInt8
  | [] => []
  | c :: fmt =>
    if c ∈ lengthMod then if peek fmt = c then fmt.tail else fmt
    else c :: fmt

/-- The text from the character that is taken for the conversion, behind the `%`. -/
def conversionAt (fmt : List UInt8) : List UInt8 := afterModifier (afterWidth (afterFlags fmt))

/-- The flags that are set. -/
def flagsOf (fmt : List UInt8) : FormatFlags :=
  ⟨false, ch '+' ∈ fmt.takeWhile isFlag, ch '#' ∈ fmt.takeWhile isFlag⟩

/-- The qualifier that is set. -/
def qualifierOf (fmt : List UInt8) : UInt8 :=
  if peek fmt ∈ lengthMod then
    if peek fmt.tail = peek fmt then toupper (peek fmt) else peek fmt
  else 0

theorem flagLoop_eq : ∀ (fmt : List UInt8) (flags : FormatFlags),
    flagLoop flags fmt =
      (⟨flags.ffSigned, flags.ffSign || ch '+' ∈ fmt.takeWhile isFlag,
        flags.ffPrefix || ch '#' ∈ fmt.takeWhile isFlag⟩, afterFlags fmt)
  | [], flags => by simp [flagLoop, afterFlags]
  | c :: fmt, flags => by
    rw [flagLoop]
    split_ifs with hsign hbase
    · subst hsign
      have hflag : isFlag (ch '+') = true := by decide
      have hne : ch '#' ≠ ch '+' := by decide
      rw [flagLoop_eq fmt, afterFlags, afterFlags, List.dropWhile_cons_of_pos hflag,
        List.takeWhile_cons_of_pos hflag]
      simp [hne]
    · subst hbase
      have hflag : isFlag (ch '#') = true := by decide
      have hne : ch '+' ≠ ch '#' := by decide
      rw [flagLoop_eq fmt, afterFlags, afterFlags, List.dropWhile_cons_of_pos hflag,
        List.takeWhile_cons_of_pos hflag]
      simp [hne]
    · have hflag : ¬isFlag c = true := by simp [isFlag, hsign, hbase]
      rw [afterFlags, List.dropWhile_cons_of_neg hflag, List.takeWhile_cons_of_neg hflag]
      simp

/-- A digit is no blank and no sign, so `strtol` is `strtoul` there. -/
theorem strtol_of_isdigit {str : List UInt8} {base : ℕ} (h : isdigit (peek str) = true) :
    strtol str base = (BitVec.ofNat 64 (strtoul str base).1, (strtoul str base).2) := by
  cases str with
  | nil => exact absurd h (by decide)
  | cons c str =>
    rw [peek_cons] at h
    have hall : ∀ n < 256, isdigit (UInt8.ofNat n) = true →
        ¬isspace (UInt8.ofNat n) = true ∧ UInt8.ofNat n ≠ ch '-' ∧ UInt8.ofNat n ≠ ch '+' := by
      decide +kernel
    have hc := hall c.toNat c.toNat_lt
    rw [UInt8.ofNat_toNat] at hc
    obtain ⟨hspace, hminus, hplus⟩ := hc h
    rw [strtol, List.dropWhile_cons_of_neg hspace]
    simp only [peek_cons, hminus, hplus, or_self, if_false]

theorem decodeWidth_snd (fmt : List UInt8) : (decodeWidth fmt).2 = afterWidth fmt := by
  rw [decodeWidth, afterWidth]
  split_ifs with h
  · rw [strtol_of_isdigit h, strtoul_eq, strtoulLoop_snd]
    rfl
  · rfl

theorem strchr_lengthMod (c : UInt8) : (strchr lengthMod c).isSome = decide (c ∈ lengthMod) := by
  rw [strchr, List.findIdx?_isSome, List.any_eq]
  simp

/-- No cursor leaves the string at the length modifier. -/
theorem decodeQualifier_eq (fmt : List UInt8) :
    decodeQualifier fmt = .ok (qualifierOf fmt, afterModifier fmt) := by
  rw [decodeQualifier, strchr_lengthMod, qualifierOf]
  cases fmt with
  | nil => rfl
  | cons c fmt =>
    rw [afterModifier]
    by_cases hmod : c ∈ lengthMod
    · by_cases hdouble : peek fmt = c
      · cases fmt with
        | nil =>
          -- the NUL is no length modifier
          rw [← hdouble] at hmod
          exact absurd hmod (by decide)
        | cons c' fmt =>
          obtain rfl : c' = c := hdouble
          simp [hmod, advance]
          rfl
      · simp [hmod, hdouble, advance]
        rfl
    · simp [hmod]
      rfl

/-- The specification before the conversion is looked at. -/
def specOf (fmt : List UInt8) : FormatSpec where
  type := .none
  flags := flagsOf fmt
  base := 10
  qualifier := qualifierOf (afterWidth (afterFlags fmt))
  width := (decodeWidth (afterFlags fmt)).1

/-- **What `format_decode` makes of a directive.** -/
theorem formatDecode_percent (fmt : List UInt8) :
    formatDecode (ch '%' :: fmt) = .ok (decodeConversion (specOf fmt) (peek (conversionAt fmt)),
      fmt.length + 1 - (conversionAt fmt).length + 1) := by
  have hstart : (ch '%' :: fmt).dropWhile (· ≠ ch '%') = ch '%' :: fmt :=
    List.dropWhile_cons_of_neg (by simp)
  have hnul : peek (ch '%' :: fmt) ≠ 0 := by
    rw [peek_cons]
    decide
  have hwidth := decodeWidth_snd (afterFlags fmt)
  rw [formatDecode]
  simp only [hstart, ne_eq, not_true_eq_false, hnul, or_self, if_false, advance, flagLoop_eq,
    FormatFlags.zero, Bool.false_or, List.length_cons]
  simp only [pure_bind, hwidth, decodeQualifier_eq]
  rfl

/-- Literal text is passed up to the next `%`. -/
theorem formatDecode_literal {fmt : List UInt8} (h : peek fmt ≠ ch '%') :
    ∃ spec, formatDecode fmt = .ok (spec, (fmt.takeWhile (· ≠ ch '%')).length) ∧
      spec.type = .none := by
  have hlen := congrArg List.length (List.takeWhile_append_dropWhile (p := (· ≠ ch '%')) (l := fmt))
  rw [List.length_append] at hlen
  have hmoved : (fmt.dropWhile (· ≠ ch '%')).length ≠ fmt.length ∨
      peek (fmt.dropWhile (· ≠ ch '%')) = 0 := by
    cases fmt with
    | nil => exact Or.inr rfl
    | cons c fmt =>
      rw [peek_cons] at h
      refine Or.inl ?_
      rw [List.takeWhile_cons_of_pos (by simpa using h), List.length_cons] at hlen
      omega
  refine ⟨{ type := .none, flags := .zero, width := 0#32, qualifier := 0, base := 10 }, ?_, rfl⟩
  rw [formatDecode]
  simp only [hmoved, if_true]
  rw [show fmt.length - (fmt.dropWhile (· ≠ ch '%')).length =
    (fmt.takeWhile (· ≠ ch '%')).length by omega]
  rfl

/-! ### The grammar -/

/-- The length modifiers. -/
def modifiers : List (List UInt8) :=
  [[], [ch 'h', ch 'h'], [ch 'h'], [ch 'l', ch 'l'], [ch 'l'], [ch 'j'], [ch 'z'], [ch 't']]

/-- The conversions. -/
def conversions : List UInt8 := ['c', 's', 'p', '%', 'd', 'i', 'o', 'x', 'X', 'u'].map ch

/-- A directive: flags, a width without leading zero, a length modifier and a conversion. -/
structure Directive where
  flags : List UInt8
  width : List UInt8
  modifier : List UInt8
  conv : UInt8
  flags_mem : ∀ c ∈ flags, isFlag c = true
  width_digits : ∀ c ∈ width, isdigit c = true
  width_head : width.head? ≠ some (ch '0')
  modifier_mem : modifier ∈ modifiers
  conv_mem : conv ∈ conversions

/-- What stands between the `%` and the rest of a format that begins with the directive. -/
def Directive.body (d : Directive) (rest : List UInt8) : List UInt8 :=
  d.flags ++ (d.width ++ (d.modifier ++ d.conv :: rest))

/-- The directive as it stands in a format. -/
def Directive.text (d : Directive) : List UInt8 := ch '%' :: d.body []

/-- The qualifier of a length modifier: its letter, a capital when it is doubled. -/
def modifierQualifier : List UInt8 → UInt8
  | [] => 0
  | [c] => c
  | c :: _ => toupper c

/-- The type that a length modifier gives a number. -/
def modifierType (m : List UInt8) : FormatType :=
  if m = [ch 'h', ch 'h'] then .byte
  else if m = [ch 'h'] then .short
  else if m = [ch 'l'] then .long
  else if m = [ch 'l', ch 'l'] then .llong
  else if m = [ch 'j'] then .intmax
  else if m = [ch 'z'] then .size
  else if m = [ch 't'] then .ptrdiff
  else .int

/-- The type of the argument that the directive names. -/
def Directive.type (d : Directive) : FormatType :=
  if d.conv = ch 'c' then .char
  else if d.conv = ch 's' then .str
  else if d.conv = ch '%' then .percent
  else if d.conv = ch 'p' then .ptr
  else modifierType d.modifier

/-- The base that the conversion prints in. -/
def Directive.base (d : Directive) : ℕ :=
  if d.conv = ch 'o' then 8
  else if d.conv = ch 'x' ∨ d.conv = ch 'X' ∨ d.conv = ch 'p' then 16
  else 10

/-- The conversion takes a signed number. -/
def Directive.signed (d : Directive) : Bool := d.conv = ch 'd' ∨ d.conv = ch 'i'

/-- The specification reports the width, the qualifier and the conversion of the directive. -/
structure Reports (spec : FormatSpec) (d : Directive) : Prop where
  width : numeral 10 d.width < 2 ^ 31 → spec.width.toInt = numeral 10 d.width
  qualifier : spec.qualifier = modifierQualifier d.modifier
  type : spec.type = d.type
  base : spec.base = d.base
  signed : spec.flags.ffSigned = d.signed

/-- `format_decode` consumes exactly the directive at the start of the string, says so by the `int`
that it returns, and reports what the directive says. -/
def DecodesAs (fmt : List UInt8) (d : Directive) : Prop :=
  ∃ spec distance, formatDecode fmt = .ok (spec, distance) ∧ distance = d.text.length ∧
    toInt32 distance = d.text.length ∧ Reports spec d

/-- `format_decode` reports that the string begins with no directive. -/
def DecodesInvalid (fmt : List UInt8) : Prop :=
  ∃ spec distance, formatDecode fmt = .ok (spec, distance) ∧ spec.type = .invalid

/-- The directive has no width, or `%` follows its width. -/
def Directive.Plain (d : Directive) : Prop := d.width = [] ∨ d.modifier = [] ∧ d.conv = ch '%'

/-! ### Characters of a directive -/

/-- What the characters that can follow the flags have in common. -/
theorem conversions_spec : ∀ c ∈ conversions, isFlag c = false ∧ isdigit c = false ∧
    c ∉ lengthMod ∧ c ≠ 0 ∧ (c ≠ ch '%' → isAlnum c = true) := by
  decide +kernel

theorem modifiers_spec : ∀ m ∈ modifiers, ∀ c ∈ m,
    isFlag c = false ∧ isdigit c = false ∧ isAlnum c = true := by
  decide +kernel

/-- A modifier is nothing, one letter, or the same letter twice. -/
theorem modifiers_shape : ∀ m ∈ modifiers, m = [] ∨ ∃ q ∈ lengthMod, m = [q] ∨ m = [q, q] := by
  decide

theorem isdigit_spec {c : UInt8} (h : isdigit c = true) :
    isFlag c = false ∧ isAlnum c = true ∧ validDigit 10 c = true := by
  have hall : ∀ n < 256, isdigit (UInt8.ofNat n) = true → isFlag (UInt8.ofNat n) = false ∧
      isAlnum (UInt8.ofNat n) = true ∧ validDigit 10 (UInt8.ofNat n) = true := by
    decide +kernel
  have hc := hall c.toNat c.toNat_lt
  rw [UInt8.ofNat_toNat] at hc
  exact hc h

theorem peek_append_mem (l : List UInt8) (c : UInt8) (rest : List UInt8) :
    peek (l ++ c :: rest) ∈ l ++ [c] := by
  cases l with
  | nil => exact List.mem_singleton_self c
  | cons b l => exact List.mem_cons_self

section

variable (d : Directive) (rest : List UInt8)

theorem Directive.text_append : d.text ++ rest = ch '%' :: d.body rest := by
  simp [Directive.text, Directive.body]

theorem Directive.length_body : (d.body rest).length + 1 = d.text.length + rest.length := by
  rw [← List.length_append, d.text_append, List.length_cons]

/-- The character after the flags is none of them. -/
theorem Directive.not_isFlag_peek :
    isFlag (peek (d.width ++ (d.modifier ++ d.conv :: rest))) = false := by
  rw [← List.append_assoc]
  have hmem := peek_append_mem (d.width ++ d.modifier) d.conv rest
  rcases List.mem_append.1 hmem with h | h
  · rcases List.mem_append.1 h with h | h
    · exact (isdigit_spec (d.width_digits _ h)).1
    · exact (modifiers_spec _ d.modifier_mem _ h).1
  · rw [List.mem_singleton.1 h]
    exact (conversions_spec _ d.conv_mem).1

theorem Directive.takeWhile_flags : (d.body rest).takeWhile isFlag = d.flags := by
  have hflag := d.not_isFlag_peek rest
  rw [Directive.body, List.takeWhile_append_of_pos d.flags_mem]
  cases h : d.width ++ (d.modifier ++ d.conv :: rest) with
  | nil => rw [List.takeWhile_nil, List.append_nil]
  | cons c l =>
    rw [h, peek_cons] at hflag
    rw [List.takeWhile_cons_of_neg (by rw [hflag]; exact Bool.false_ne_true), List.append_nil]

theorem Directive.afterFlags_body :
    afterFlags (d.body rest) = d.width ++ (d.modifier ++ d.conv :: rest) := by
  have happ := List.takeWhile_append_dropWhile (p := isFlag) (l := d.body rest)
  rw [d.takeWhile_flags] at happ
  exact List.append_cancel_left happ

/-- A modifier is passed as a whole, and a conversion is none. -/
theorem Directive.afterModifier_modifier :
    afterModifier (d.modifier ++ d.conv :: rest) = d.conv :: rest := by
  have hconv := (conversions_spec _ d.conv_mem).2.2.1
  rcases modifiers_shape _ d.modifier_mem with hm | ⟨q, hq, hm | hm⟩
  · rw [hm, List.nil_append, afterModifier, if_neg hconv]
  · have hne : d.conv ≠ q := fun h => hconv (h ▸ hq)
    rw [hm, List.singleton_append, afterModifier, if_pos hq, peek_cons, if_neg hne]
  · rw [hm, List.cons_append, List.singleton_append, afterModifier, if_pos hq, peek_cons, if_pos rfl,
      List.tail_cons]

theorem Directive.qualifierOf_modifier :
    qualifierOf (d.modifier ++ d.conv :: rest) = modifierQualifier d.modifier := by
  have hconv := (conversions_spec _ d.conv_mem).2.2.1
  rcases modifiers_shape _ d.modifier_mem with hm | ⟨q, hq, hm | hm⟩
  · rw [hm, List.nil_append, qualifierOf, peek_cons, if_neg hconv, modifierQualifier]
  · have hne : d.conv ≠ q := fun h => hconv (h ▸ hq)
    rw [hm, List.singleton_append, qualifierOf, peek_cons, if_pos hq, List.tail_cons, peek_cons,
      if_neg hne, modifierQualifier]
  · rw [hm, List.cons_append, qualifierOf, peek_cons, if_pos hq, List.tail_cons,
      List.singleton_append, peek_cons, if_pos rfl]
    rfl

/-- Without a width, no digit follows the flags. -/
theorem Directive.not_isdigit_peek : isdigit (peek (d.modifier ++ d.conv :: rest)) = false := by
  rcases List.mem_append.1 (peek_append_mem d.modifier d.conv rest) with h | h
  · exact (modifiers_spec _ d.modifier_mem _ h).2.1
  · rw [List.mem_singleton.1 h]
    exact (conversions_spec _ d.conv_mem).2.1

/-- A width is a digit and more digits. -/
theorem Directive.isdigit_peek (hwidth : d.width ≠ []) (l : List UInt8) :
    isdigit (peek (d.width ++ l)) = true := by
  cases h : d.width with
  | nil => exact absurd h hwidth
  | cons c w => exact d.width_digits c (by rw [h]; exact List.mem_cons_self)

end

/-! ### Directives that are parsed as they should be -/

section

variable {d : Directive} (rest : List UInt8)

/-- A width is read as it should be when `%` follows, and when there is none. -/
theorem Directive.Plain.decodeWidth (h : d.Plain) :
    decodeWidth (d.width ++ (d.modifier ++ d.conv :: rest)) =
      ((BitVec.ofNat 64 (numeral 10 d.width)).setWidth 32, d.modifier ++ d.conv :: rest) := by
  rw [Format.decodeWidth]
  by_cases hwidth : d.width = []
  · rw [hwidth, List.nil_append, d.not_isdigit_peek, if_neg Bool.false_ne_true]
    rfl
  · obtain ⟨hm, hconv⟩ := h.resolve_left hwidth
    have hdigit := d.isdigit_peek hwidth (d.modifier ++ d.conv :: rest)
    have hend : digitValue (peek (d.modifier ++ d.conv :: rest)) = none := by
      rw [hm, hconv, List.nil_append, peek_cons]
      decide
    rw [if_pos hdigit, strtol_of_isdigit hdigit, strtoul_append (by decide)
      (fun c hc => (isdigit_spec (d.width_digits c hc)).2.2) hend]
    simp only [Prod.mk.injEq, and_true]
    congr 1
    exact BitVec.eq_of_toNat_eq (by simp)

/-- The specification that a directive parsed as it should be leaves. -/
def Directive.spec (d : Directive) : FormatSpec :=
  decodeConversion
    { type := .none
      flags := ⟨false, ch '+' ∈ d.flags, ch '#' ∈ d.flags⟩
      base := 10
      qualifier := modifierQualifier d.modifier
      width := (BitVec.ofNat 64 (numeral 10 d.width)).setWidth 32 } d.conv

theorem Directive.Plain.formatDecode (h : d.Plain) :
    formatDecode (d.text ++ rest) = .ok (d.spec, d.text.length) := by
  have hwidth := h.decodeWidth rest
  have hleft : afterWidth (afterFlags (d.body rest)) = d.modifier ++ d.conv :: rest := by
    rw [← decodeWidth_snd, d.afterFlags_body, hwidth]
  have hconv : conversionAt (d.body rest) = d.conv :: rest := by
    rw [conversionAt, hleft, d.afterModifier_modifier]
  have hspec : specOf (d.body rest) =
      { type := .none
        flags := ⟨false, ch '+' ∈ d.flags, ch '#' ∈ d.flags⟩
        base := 10
        qualifier := modifierQualifier d.modifier
        width := (BitVec.ofNat 64 (numeral 10 d.width)).setWidth 32 } := by
    rw [specOf, flagsOf, d.takeWhile_flags, hleft, d.qualifierOf_modifier, d.afterFlags_body, hwidth]
  have hlen := d.length_body rest
  have hpos : 0 < d.text.length := Nat.succ_pos _
  rw [d.text_append, formatDecode_percent, hconv, hspec, peek_cons, Directive.spec,
    List.length_cons]
  congr 2
  omega

/-- What each conversion does to a specification. -/
theorem decodeConversion_spec {spec : FormatSpec} (hbase : spec.base = 10)
    (hsigned : spec.flags.ffSigned = false) (hconv : spec.qualifier = modifierQualifier d.modifier) :
    (decodeConversion spec d.conv).type = d.type ∧ (decodeConversion spec d.conv).base = d.base ∧
      (decodeConversion spec d.conv).flags.ffSigned = d.signed := by
  obtain ⟨flags, width, m, c, hflags, hdigits, hhead, hm, hc⟩ := d
  obtain ⟨type, ⟨signed, sign, pref⟩, base, qualifier, w⟩ := spec
  have htype : ∀ m ∈ modifiers, qualifierType (modifierQualifier m) = modifierType m := by
    decide
  simp only at hbase hsigned hconv
  subst hbase hsigned hconv
  fin_cases hc <;> first | exact ⟨rfl, rfl, rfl⟩ | exact ⟨htype m hm, rfl, rfl⟩

theorem decodeNumber_keeps (spec : FormatSpec) (c : UInt8) :
    (decodeNumber spec c).width = spec.width ∧ (decodeNumber spec c).qualifier = spec.qualifier := by
  rw [decodeNumber]
  split_ifs <;> exact ⟨rfl, rfl⟩

/-- A conversion changes neither the width nor the qualifier. -/
theorem decodeConversion_keeps (spec : FormatSpec) (c : UInt8) :
    (decodeConversion spec c).width = spec.width ∧ (decodeConversion spec c).qualifier = spec.qualifier := by
  rw [decodeConversion]
  split_ifs
  · exact ⟨rfl, rfl⟩
  · exact ⟨rfl, rfl⟩
  · exact ⟨rfl, rfl⟩
  · exact ⟨rfl, rfl⟩
  · exact decodeNumber_keeps spec c

theorem toInt_setWidth {n : ℕ} (h : n < 2 ^ 31) :
    ((BitVec.ofNat 64 n).setWidth 32).toInt = n := by
  have hnat : ((BitVec.ofNat 64 n).setWidth 32).toNat = n := by
    rw [BitVec.toNat_setWidth, BitVec.toNat_ofNat]
    omega
  rw [BitVec.toInt_eq_toNat_of_lt (by omega), hnat]

theorem toInt32_eq_iff {n : ℕ} : toInt32 n = n ↔ n < 2 ^ 31 := by
  constructor
  · intro h
    have hlt := (BitVec.ofNat 32 n).toInt_lt
    rw [toInt32] at h
    omega
  · intro h
    rw [toInt32, BitVec.toInt_eq_toNat_of_lt (by rw [BitVec.toNat_ofNat]; omega), BitVec.toNat_ofNat]
    omega

theorem Directive.reports_spec (d : Directive) : Reports d.spec d := by
  let spec : FormatSpec :=
    { type := .none
      flags := ⟨false, ch '+' ∈ d.flags, ch '#' ∈ d.flags⟩
      base := 10
      qualifier := modifierQualifier d.modifier
      width := (BitVec.ofNat 64 (numeral 10 d.width)).setWidth 32 }
  obtain ⟨htype, hbase, hsigned⟩ := @decodeConversion_spec d spec rfl rfl rfl
  obtain ⟨hwidth, hqualifier⟩ := decodeConversion_keeps spec d.conv
  exact ⟨fun hlt => hwidth ▸ toInt_setWidth hlt, hqualifier, htype, hbase, hsigned⟩

end

/-! ### And those that are not -/

section

variable {d : Directive} (rest : List UInt8)

theorem length_afterModifier_le (fmt : List UInt8) : (afterModifier fmt).length ≤ fmt.length := by
  cases fmt with
  | nil => exact le_rfl
  | cons c fmt =>
    rw [afterModifier]
    split_ifs
    · rw [List.length_tail, List.length_cons]
      omega
    · exact Nat.le_succ _
    · exact le_rfl

/-- The letters and digits up to the conversion are read with the width. -/
theorem Directive.afterWidth_body (hwidth : d.width ≠ []) :
    afterWidth (afterFlags (d.body rest)) = (d.conv :: rest).dropWhile isAlnum := by
  have halnum : ∀ c ∈ d.width ++ d.modifier, isAlnum c = true := by
    intro c hc
    rcases List.mem_append.1 hc with hc | hc
    · exact (isdigit_spec (d.width_digits c hc)).2.1
    · exact (modifiers_spec _ d.modifier_mem c hc).2.2
  rw [d.afterFlags_body, afterWidth, if_pos (d.isdigit_peek hwidth _), ← List.append_assoc,
    List.dropWhile_append_of_pos halnum]

/-- With a width that a letter follows, `format_decode` fails. -/
theorem Directive.not_decodesAs (h : ¬d.Plain) : ¬DecodesAs (d.text ++ rest) d := by
  rintro ⟨spec, distance, hrun, hdistance, -, hreports⟩
  obtain ⟨hwidth, hother⟩ := not_or.1 h
  rw [d.text_append, formatDecode_percent] at hrun
  obtain ⟨rfl, rfl⟩ := Prod.mk.inj (Except.ok.inj hrun)
  have hafter := Directive.afterWidth_body rest hwidth
  by_cases hconv : d.conv = ch '%'
  · -- the modifier is taken for digits, and not reported
    have hmodifier : d.modifier ≠ [] := fun hm => hother ⟨hm, hconv⟩
    have hpercent : afterWidth (afterFlags (d.body rest)) = ch '%' :: rest := by
      rw [hafter, hconv, List.dropWhile_cons_of_neg (by decide)]
    have hqualifier := hreports.qualifier
    rw [(decodeConversion_keeps _ _).2, specOf, hpercent] at hqualifier
    have hzero : ∀ m ∈ modifiers, m ≠ [] → 0 ≠ modifierQualifier m := by decide
    exact hzero _ d.modifier_mem hmodifier hqualifier
  · -- the conversion is taken for a digit, and more is consumed than the directive
    have hle : (conversionAt (d.body rest)).length ≤ rest.length := by
      have halnum := (conversions_spec _ d.conv_mem).2.2.2.2 hconv
      rw [conversionAt, hafter, List.dropWhile_cons_of_pos halnum]
      exact (length_afterModifier_le _).trans (List.length_dropWhile_le _ _)
    have hlen := d.length_body rest
    omega

theorem qualifierType_spec (q : UInt8) : qualifierType q ≠ .none ∧ qualifierType q ≠ .invalid := by
  rw [qualifierType]
  split_ifs <;> exact ⟨nofun, nofun⟩

/-- The type of a number is set last, so no directive is found invalid. -/
theorem decodeConversion_type (spec : FormatSpec) (c : UInt8) :
    (decodeConversion spec c).type ≠ .none ∧ (decodeConversion spec c).type ≠ .invalid := by
  rw [decodeConversion]
  split_ifs
  · exact ⟨nofun, nofun⟩
  · exact ⟨nofun, nofun⟩
  · exact ⟨nofun, nofun⟩
  · exact ⟨nofun, nofun⟩
  · exact qualifierType_spec _

theorem not_decodesInvalid (fmt : List UInt8) : ¬DecodesInvalid (ch '%' :: fmt) := by
  rintro ⟨spec, distance, hrun, htype⟩
  rw [formatDecode_percent] at hrun
  obtain ⟨rfl, -⟩ := Prod.mk.inj (Except.ok.inj hrun)
  exact (decodeConversion_type _ _).2 htype

end

/-! ### The contract -/

/-- **Parsing by the grammar**: a directive is taken as it is, and what is none is reported. -/
def DecodesDirectives (fmt : List UInt8) : Prop :=
  (∀ (d : Directive) (rest : List UInt8), fmt = d.text ++ rest → DecodesAs fmt d) ∧
    ((∀ (d : Directive) (rest : List UInt8), fmt ≠ d.text ++ rest) → DecodesInvalid fmt)

theorem Directive.decodesAs_iff (d : Directive) (rest : List UInt8) :
    DecodesAs (d.text ++ rest) d ↔ d.Plain ∧ d.text.length < 2 ^ 31 := by
  constructor
  · intro h
    refine ⟨not_not.1 fun hplain => d.not_decodesAs rest hplain h, ?_⟩
    obtain ⟨spec, distance, -, rfl, hint, -⟩ := h
    exact toInt32_eq_iff.1 hint
  · rintro ⟨hplain, hlen⟩
    exact ⟨d.spec, d.text.length, hplain.formatDecode rest, rfl, toInt32_eq_iff.2 hlen, d.reports_spec⟩

/-- **When strings are parsed by the grammar**: when they begin with a directive, it has no width or `%`
follows the width, and its length is an `int`. -/
theorem formatDecode_iff (fmt : List UInt8) :
    DecodesDirectives (ch '%' :: fmt) ↔
      (∃ (d : Directive) (rest : List UInt8), ch '%' :: fmt = d.text ++ rest) ∧
        ∀ (d : Directive) (rest : List UInt8), ch '%' :: fmt = d.text ++ rest →
          d.Plain ∧ d.text.length < 2 ^ 31 := by
  constructor
  · rintro ⟨hdirective, hnone⟩
    refine ⟨?_, fun d rest heq => ?_⟩
    · by_contra hno
      exact not_decodesInvalid fmt (hnone fun d rest heq => hno ⟨d, rest, heq⟩)
    · have has := hdirective d rest heq
      rw [heq] at has
      exact (d.decodesAs_iff rest).1 has
  · rintro ⟨⟨d, rest, heq⟩, hplain⟩
    refine ⟨fun d' rest' heq' => ?_, fun hno => absurd heq (hno d rest)⟩
    rw [heq']
    exact (d'.decodesAs_iff rest').2 (hplain d' rest' heq')

/-- `%d` -/
def directiveInt : Directive where
  flags := []
  width := []
  modifier := []
  conv := ch 'd'
  flags_mem := List.forall_mem_nil _
  width_digits := List.forall_mem_nil _
  width_head := by decide
  modifier_mem := by decide
  conv_mem := by decide

/-- `%5d` -/
def directiveWide : Directive where
  flags := []
  width := [ch '5']
  modifier := []
  conv := ch 'd'
  flags_mem := List.forall_mem_nil _
  width_digits := List.forall_mem_singleton.2 (by decide)
  width_head := by decide
  modifier_mem := by decide
  conv_mem := by decide

/-- The `d` of `%5d` is taken for a digit, and the distance returned is 4. -/
theorem not_decodesDirectives_wide : ¬DecodesDirectives directiveWide.text := by
  rintro ⟨hdirective, -⟩
  obtain ⟨spec, distance, hrun, hdistance, -⟩ := hdirective directiveWide [] (List.append_nil _).symm
  have hfour : (formatDecode directiveWide.text).map Prod.snd = .ok 4 := by decide
  have hthree : directiveWide.text.length = 3 := by decide
  rw [hrun, hdistance, hthree] at hfour
  exact absurd (Except.ok.inj hfour) (show (3 : ℕ) ≠ 4 by decide)

end Format

end Kernel64
