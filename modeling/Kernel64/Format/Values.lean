import Kernel64.Format.Output

/-!
# Numbers print as their value

Arguments of six widths are taken as an `int` or as 64 bits, and turned into one `uintmax_t`. What
is printed is the sign, the prefix of the base and the digits of the magnitude
(`ensures_printNumber`), and the magnitude is that of the argument but for an `unsigned int` from
`2 ^ 31` on, which is taken as an `int` and sign-extended (`magnitudeOf_eq_iff`).
-/

namespace Kernel64

namespace Format

/-! ### Arguments -/

/-- The conversions of numbers. -/
def numberConversions : List UInt8 := ['d', 'i', 'u', 'o', 'x'].map ch

/-- The width of the type that a length modifier names. -/
def modifierBits (m : List UInt8) : ℕ :=
  if m = [ch 'h', ch 'h'] then 8
  else if m = [ch 'h'] then 16
  else if m = [] then 32
  else 64

/-- `v` is a value of the C type that the directive names. -/
def Directive.InRange (d : Directive) (v : ℤ) : Prop :=
  if d.signed then -2 ^ (modifierBits d.modifier - 1) ≤ v ∧ v < 2 ^ (modifierBits d.modifier - 1)
  else 0 ≤ v ∧ v < 2 ^ modifierBits d.modifier

instance (d : Directive) (v : ℤ) : Decidable (d.InRange v) :=
  inferInstanceAs (Decidable (if d.signed then
    -2 ^ (modifierBits d.modifier - 1) ≤ v ∧ v < 2 ^ (modifierBits d.modifier - 1)
    else 0 ≤ v ∧ v < 2 ^ modifierBits d.modifier))

/-- `word` is a word in which `v` is passed: a value of up to 32 bits is promoted to `int` or is an
`unsigned int`, and the upper half of its word is not determined. -/
def Directive.Passes (d : Directive) (word : BitVec 64) (v : ℤ) : Prop :=
  if modifierBits d.modifier ≤ 32 then word.setWidth 32 = BitVec.ofInt 32 v
  else word = BitVec.ofInt 64 v

instance (d : Directive) (word : BitVec 64) (v : ℤ) : Decidable (d.Passes word v) :=
  inferInstanceAs (Decidable (if modifierBits d.modifier ≤ 32 then
    word.setWidth 32 = BitVec.ofInt 32 v else word = BitVec.ofInt 64 v))

/-- What the directive prints for a number: a sign, the prefix of the base, and the digits of the
absolute value. -/
def Directive.prints (d : Directive) (v : ℤ) : List UInt8 :=
  (if v < 0 then [ch '-'] else if ch '+' ∈ d.flags then [ch '+'] else []) ++
    ((if ch '#' ∈ d.flags then
        if d.base = 8 then [ch '0'] else if d.base = 16 then [ch '0', ch 'x'] else []
      else []) ++
      digitChars d.base v.natAbs)

/-- Wherever the directive stands in a format, `vsinkprintf` prints the value for it. -/
def PrintsValue (d : Directive) (before rest : List UInt8) (env : Env) (s : PrintState) (v : ℤ) :
    Prop :=
  ∃ N, ∀ fuel ≥ N,
    Ensures (printPiece env fuel (before ++ (d.text ++ rest)) before.length) s fun _ s' =>
      s'.out.flatten = s.out.flatten ++ d.prints v

/-! ### The specification of a number -/

section

variable {d : Directive}

theorem mem_conversions_of_number (h : d.conv ∈ numberConversions) :
    d.type = modifierType d.modifier ∧ 1 < d.base ∧ d.base ≤ 36 := by
  have hall : ∀ c ∈ numberConversions,
      (c ≠ ch 'c' ∧ c ≠ ch 's' ∧ c ≠ ch '%' ∧ c ≠ ch 'p') := by decide +kernel
  obtain ⟨hc, hs, hpercent, hp⟩ := hall _ h
  refine ⟨by rw [Directive.type, if_neg hc, if_neg hs, if_neg hpercent, if_neg hp], ?_⟩
  rw [Directive.base]
  split_ifs <;> decide

/-- The flags of a number: its sign, and what was asked for. -/
theorem spec_flags (h : d.conv ∈ numberConversions) :
    d.spec.flags = ⟨d.signed, ch '+' ∈ d.flags, ch '#' ∈ d.flags⟩ := by
  obtain ⟨flags, width, m, c, hflags, hdigits, hhead, hm, hc⟩ := d
  simp only at h
  fin_cases h <;> rfl

theorem signOf_spec (h : d.conv ∈ numberConversions) (value : BitVec 64) :
    signOf d.spec value =
      if d.signed ∧ value.toInt < 0 then [ch '-'] else if ch '+' ∈ d.flags then [ch '+'] else [] := by
  rw [signOf, spec_flags h]
  simp only [decide_eq_true_eq]

theorem basePrefixOf_spec (h : d.conv ∈ numberConversions) :
    basePrefixOf d.spec = if ch '#' ∈ d.flags then
      if d.base = 8 then [ch '0'] else if d.base = 16 then [ch '0', ch 'x'] else []
    else [] := by
  rw [basePrefixOf, spec_flags h, d.reports_spec.base]
  simp only [decide_eq_true_eq]

theorem magnitudeOf_spec (h : d.conv ∈ numberConversions) (value : BitVec 64) :
    magnitudeOf d.spec value = (if d.signed ∧ value.toInt < 0 then -value else value).toNat := by
  rw [magnitudeOf, spec_flags h]

/-- Without a width there are no blanks. -/
theorem paddingOf_spec (hwidth : d.width = []) (value : BitVec 64) : paddingOf d.spec value = 0 := by
  have hzero := d.reports_spec.width (by rw [hwidth]; decide)
  rw [hwidth, show numeral 10 [] = 0 by decide] at hzero
  rw [paddingOf, hzero]
  omega

/-- The value that is taken for a number. -/
theorem numberValue_type (h : d.conv ∈ numberConversions) (env : Env) (next : ℕ) :
    numberValue env next d.type =
      if modifierBits d.modifier ≤ 32 then ((env.word next).setWidth 32).signExtend 64
      else env.word next := by
  have hall : ∀ m ∈ modifiers, numberValue env next (modifierType m) =
      if modifierBits m ≤ 32 then ((env.word next).setWidth 32).signExtend 64
      else env.word next := by
    intro m hm
    fin_cases hm <;> rfl
  rw [(mem_conversions_of_number h).1, hall _ d.modifier_mem]

/-- The value that is taken for the argument `v`. -/
def takenFor (d : Directive) (v : ℤ) : BitVec 64 :=
  if modifierBits d.modifier ≤ 32 then (BitVec.ofInt 32 v).signExtend 64 else BitVec.ofInt 64 v

theorem numberValue_of_passes (h : d.conv ∈ numberConversions) {env : Env} {next : ℕ} {v : ℤ}
    (hpass : d.Passes (env.word next) v) : numberValue env next d.type = takenFor d v := by
  rw [numberValue_type h, takenFor]
  rw [Directive.Passes] at hpass
  split_ifs at hpass ⊢ with hbits
  · rw [hpass]
  · rw [hpass]

/-! ### Printing a number -/

/-- **What a number prints**: a sign, the prefix of the base, and the digits of the magnitude. -/
theorem ensures_printNumber (h : d.conv ∈ numberConversions) (hwidth : d.width = [])
    {before rest : List UInt8} {env : Env} {s : PrintState} {v : ℤ} {fuel : ℕ} (hfuel : 64 ≤ fuel)
    (hpass : d.Passes (env.word s.next) v) :
    Ensures (printPiece env fuel (before ++ (d.text ++ rest)) before.length) s fun _ s' =>
      s'.out.flatten = s.out.flatten ++ (signOf d.spec (takenFor d v) ++
        (basePrefixOf d.spec ++ digitChars d.base (magnitudeOf d.spec (takenFor d v)))) := by
  obtain ⟨htype, hbase, hle⟩ := mem_conversions_of_number h
  have hplain : d.Plain := Or.inl hwidth
  have hspec := d.reports_spec
  have hnumber : ∀ type, Ensures (do
      let value ← numberArg env type
      formatNumber env fuel value d.spec
      return (before.length : ℤ) + toInt32 d.text.length) s fun _ s' =>
        s'.out.flatten = s.out.flatten ++ (signOf d.spec (numberValue env s.next type) ++
          (basePrefixOf d.spec ++ digitsOf d.spec (numberValue env s.next type))) := by
    intro type
    rw [ensures_bind]
    refine ensures_numberArg ?_
    rw [ensures_bind]
    refine (ensures_formatNumber (by rwa [hspec.base]) (by rwa [hspec.base]) hfuel _).mono ?_
    rintro - s' rfl
    rw [ensures_pure, paddingOf_spec hwidth, List.replicate_zero, List.append_nil]
    simp
  have hrun := hnumber d.type
  rw [numberValue_of_passes h hpass, digitsOf, hspec.base] at hrun
  rw [printPiece, Int.toNat_natCast, List.drop_left, hplain.formatDecode rest]
  dsimp only
  rw [hspec.type]
  have hnumeric : ∀ m ∈ modifiers, modifierType m ≠ .none ∧ modifierType m ≠ .char ∧
      modifierType m ≠ .str ∧ modifierType m ≠ .percent ∧ modifierType m ≠ .invalid := by decide
  have hm := hnumeric _ d.modifier_mem
  rw [← htype] at hm
  obtain ⟨hnone, hchar, hstr, hpercent, hinvalid⟩ := hm
  generalize d.type = type at *
  cases type with
  | none => exact absurd rfl hnone
  | char => exact absurd rfl hchar
  | str => exact absurd rfl hstr
  | percent => exact absurd rfl hpercent
  | invalid => exact absurd rfl hinvalid
  | _ => exact hrun

/-! ### The magnitude -/

theorem toInt_takenFor {v : ℤ} (hlow : -2 ^ 31 ≤ v) (hhigh : v < 2 ^ 31) :
    (takenFor d v).toInt = v := by
  rw [takenFor]
  split_ifs
  · rw [BitVec.toInt_signExtend_of_le (by decide), BitVec.toInt_ofInt_eq_self (by decide) hlow hhigh]
  · rw [BitVec.toInt_ofInt_eq_self (by decide) (by omega) (by omega)]

/-- The magnitude of a signed number is its absolute value, the least number included. -/
theorem toNat_magnitude (value : BitVec 64) :
    (if value.toInt < 0 then -value else value).toNat = value.toInt.natAbs := by
  have hcond := BitVec.toInt_eq_toNat_cond value
  have hlt := value.isLt
  split_ifs with hneg
  · rw [BitVec.toNat_neg]
    split_ifs at hcond <;> omega
  · split_ifs at hcond <;> omega

theorem modifierBits_cases (m : List UInt8) (hm : m ∈ modifiers) :
    m = [] ∧ modifierBits m = 32 ∨
      m ≠ [] ∧ (modifierBits m = 8 ∨ modifierBits m = 16 ∨ modifierBits m = 64) := by
  fin_cases hm <;> decide

/-- A signed argument keeps its value. -/
theorem toInt_of_signed (hsigned : d.signed = true) {v : ℤ} (hrange : d.InRange v) :
    (takenFor d v).toInt = v := by
  rw [Directive.InRange, if_pos hsigned] at hrange
  rcases modifierBits_cases _ d.modifier_mem with ⟨-, hbits⟩ | ⟨-, hbits | hbits | hbits⟩
  · rw [hbits] at hrange
    exact toInt_takenFor hrange.1 hrange.2
  · rw [hbits] at hrange
    exact toInt_takenFor (by omega) (by omega)
  · rw [hbits] at hrange
    exact toInt_takenFor (by omega) (by omega)
  · rw [hbits] at hrange
    rw [takenFor, hbits, if_neg (by decide)]
    exact BitVec.toInt_ofInt_eq_self (by decide) hrange.1 hrange.2

theorem magnitudeOf_signed (h : d.conv ∈ numberConversions) (hsigned : d.signed = true) {v : ℤ}
    (hrange : d.InRange v) : magnitudeOf d.spec (takenFor d v) = v.natAbs := by
  rw [magnitudeOf_spec h, hsigned]
  simp only [true_and]
  rw [toNat_magnitude, toInt_of_signed hsigned hrange]

/-- An unsigned argument keeps its value, but for an `unsigned int` that is no `int`. -/
theorem magnitudeOf_unsigned_iff (h : d.conv ∈ numberConversions) (hsigned : d.signed = false)
    {v : ℤ} (hrange : d.InRange v) :
    magnitudeOf d.spec (takenFor d v) = v.natAbs ↔ ¬(d.modifier = [] ∧ 2 ^ 31 ≤ v) := by
  rw [magnitudeOf_spec h, hsigned]
  rw [Directive.InRange, hsigned, if_neg Bool.false_ne_true] at hrange
  simp only [Bool.false_eq_true, false_and, if_false]
  have hcond := BitVec.toInt_eq_toNat_cond (takenFor d v)
  have hlt := (takenFor d v).isLt
  have hsmall : v < 2 ^ 31 → (takenFor d v).toNat = v.natAbs := by
    intro hv
    rw [toInt_takenFor (by omega) hv] at hcond
    split_ifs at hcond <;> omega
  rcases modifierBits_cases _ d.modifier_mem with ⟨hm, hbits⟩ | ⟨hm, hbits | hbits | hbits⟩
  · refine ⟨fun hvalue hbad => ?_, fun hgood => hsmall ?_⟩
    · -- the number comes out of the sign extension as `2 ^ 64 - 2 ^ 32 + v`
      rw [hbits] at hrange
      have hneg : (takenFor d v).toInt = v - 2 ^ 32 := by
        rw [takenFor, hbits, if_pos le_rfl, BitVec.toInt_signExtend_of_le (by decide),
          BitVec.toInt_ofInt, Int.bmod_def]
        omega
      rw [hneg] at hcond
      split_ifs at hcond <;> omega
    · by_contra hv
      exact hgood ⟨hm, by omega⟩
  · rw [hbits] at hrange
    exact iff_of_true (hsmall (by omega)) fun hc => hm hc.1
  · rw [hbits] at hrange
    exact iff_of_true (hsmall (by omega)) fun hc => hm hc.1
  · rw [hbits] at hrange
    refine iff_of_true ?_ fun hc => hm hc.1
    rw [takenFor, hbits, if_neg (by decide), BitVec.toNat_ofInt]
    omega

/-- The sign that is printed is that of the argument. -/
theorem signOf_takenFor (h : d.conv ∈ numberConversions) {v : ℤ} (hrange : d.InRange v) :
    signOf d.spec (takenFor d v) =
      if v < 0 then [ch '-'] else if ch '+' ∈ d.flags then [ch '+'] else [] := by
  rw [signOf_spec h]
  cases hsigned : d.signed with
  | false =>
    rw [Directive.InRange, hsigned, if_neg Bool.false_ne_true] at hrange
    rw [if_neg (by simp), if_neg (show ¬v < 0 by omega)]
  | true =>
    rw [toInt_of_signed hsigned hrange]
    simp only [true_and]

/-- The magnitude is that of the argument, but for an `unsigned int` that is no `int`. -/
theorem magnitudeOf_iff (h : d.conv ∈ numberConversions) {v : ℤ} (hrange : d.InRange v) :
    magnitudeOf d.spec (takenFor d v) = v.natAbs ↔
      ¬(d.signed = false ∧ d.modifier = [] ∧ 2 ^ 31 ≤ v) := by
  cases hsigned : d.signed with
  | false => rw [magnitudeOf_unsigned_iff h hsigned hrange]; simp
  | true => exact iff_of_true (magnitudeOf_signed h hsigned hrange) fun hc => nomatch hc.1

theorem digitChars_inj {base a b : ℕ} (hbase : 1 < base) (hle : base ≤ 36)
    (h : digitChars base a = digitChars base b) : a = b := by
  rw [← numeral_digitChars hbase hle a, h, numeral_digitChars hbase hle]

/-- The output is the value's exactly when the magnitude is. -/
theorem printsValue_iff_magnitude (h : d.conv ∈ numberConversions) (hwidth : d.width = [])
    (before rest : List UInt8) {env : Env} {s : PrintState} {v : ℤ} (hrange : d.InRange v)
    (hpass : d.Passes (env.word s.next) v) :
    PrintsValue d before rest env s v ↔ magnitudeOf d.spec (takenFor d v) = v.natAbs := by
  obtain ⟨-, hbase, hle⟩ := mem_conversions_of_number h
  have hprints : ∀ fuel ≥ 64,
      Ensures (printPiece env fuel (before ++ (d.text ++ rest)) before.length) s fun _ s' =>
        s'.out.flatten = s.out.flatten ++
          ((if v < 0 then [ch '-'] else if ch '+' ∈ d.flags then [ch '+'] else []) ++
            ((if ch '#' ∈ d.flags then
                if d.base = 8 then [ch '0'] else if d.base = 16 then [ch '0', ch 'x'] else []
              else []) ++ digitChars d.base (magnitudeOf d.spec (takenFor d v)))) := by
    intro fuel hfuel
    have hrun := @ensures_printNumber d h hwidth before rest env s v fuel hfuel hpass
    rwa [signOf_takenFor h hrange, basePrefixOf_spec h] at hrun
  constructor
  · rintro ⟨N, hN⟩
    obtain ⟨pos, s', hrun, hout⟩ := hprints (max N 64) (le_max_right N 64)
    have hvalue := (hN (max N 64) (le_max_left N 64)).of_run hrun
    rw [hout, Directive.prints] at hvalue
    exact digitChars_inj hbase hle
      (List.append_cancel_left (List.append_cancel_left (List.append_cancel_left hvalue)))
  · intro hmagnitude
    refine ⟨64, fun fuel hfuel => ?_⟩
    have hrun := hprints fuel hfuel
    rwa [hmagnitude] at hrun

end

/-! ### The contract -/

/-- **When numbers print as their value**: always, but for an `unsigned int` from `2 ^ 31` on. -/
theorem printsValue_iff (d : Directive) (before rest : List UInt8) (env : Env) (s : PrintState)
    (v : ℤ) (h : d.conv ∈ numberConversions) (hwidth : d.width = []) (hrange : d.InRange v)
    (hpass : d.Passes (env.word s.next) v) :
    PrintsValue d before rest env s v ↔
      ¬(d.signed = false ∧ d.modifier = [] ∧ 2 ^ 31 ≤ v) := by
  rw [printsValue_iff_magnitude h hwidth before rest hrange hpass, magnitudeOf_iff h hrange]

/-- A caller that passes one word, again and again. -/
def envOf (word : BitVec 64) : Env := ⟨fun _ => word, fun _ => [], fun _ => 0⟩

theorem printsValue_least :
    PrintsValue directiveInt [] [] (envOf (BitVec.ofInt 64 (-2 ^ 31))) ⟨[], 0⟩ (-2 ^ 31) :=
  (printsValue_iff directiveInt [] [] (envOf (BitVec.ofInt 64 (-2 ^ 31))) ⟨[], 0⟩ (-2 ^ 31)
    (by decide) rfl (by decide) (by decide)).2 (by decide)

/-- `%u` -/
def directiveUnsigned : Directive := { directiveInt with conv := ch 'u', conv_mem := by decide }

/-- The `unsigned int` 4294967295 prints as 18446744073709551615. -/
theorem not_printsValue_unsigned :
    ¬PrintsValue directiveUnsigned [] [] (envOf 4294967295#64) ⟨[], 0⟩ 4294967295 := by
  rw [printsValue_iff_magnitude (by decide) rfl [] [] (by decide) (by decide)]
  decide

end Format

end Kernel64
