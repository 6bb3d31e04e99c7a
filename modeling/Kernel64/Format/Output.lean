import Kernel64.Format.Directives

/-!
# What a piece prints

The rules of the printing functions. `ensures_formatNumber` says what a number adds to the output:
blanks up to the width, a sign, the prefix of the base, and the digits of the absolute value.
-/

namespace Kernel64

namespace Format

/-! ### The buffer of a number -/

/-- The digits are the string in the buffer, up to the NUL. -/
theorem bufferString_untoa {base value : ℕ} (hbase : 1 < base) (hle : base ≤ 36)
    (hvalue : value < 2 ^ 64) (str : Buf) :
    bufferString (Function.update (str.store 0 (digitChars base value))
      (placeDigits base value).length 0) = digitChars base value := by
  have hlen := length_placeDigits_le hbase (by decide) hvalue
  obtain ⟨k, hk⟩ := Nat.exists_eq_add_of_le (show (placeDigits base value).length + 1 ≤ 256 by omega)
  have hne : ∀ c ∈ digitChars base value, decide (c ≠ 0) = true := by
    intro c hc
    obtain ⟨d, -, hd⟩ := validDigit_iff.1 (validDigit_of_mem hbase hle hc)
    refine decide_eq_true fun h0 => ?_
    rw [h0, show digitValue 0 = none by decide] at hd
    exact nomatch hd
  rw [bufferString, hk, Nat.add_assoc, Buf.slice_append, slice_untoa, List.takeWhile_append_of_pos hne,
    Buf.slice_append, Nat.zero_add]
  have hnul : Buf.slice (Function.update (str.store 0 (digitChars base value))
      (placeDigits base value).length 0) (placeDigits base value).length 1 = [0] := by
    rw [Buf.slice]
    simp
  rw [hnul, List.singleton_append, List.takeWhile_cons_of_neg (by decide), List.append_nil]

/-! ### Printing -/

section

variable {env : Env} {fuel : ℕ} {s : PrintState}

@[simp] theorem ensures_sinkWrite {data : List UInt8} {Q : Unit → PrintState → Prop} :
    Ensures (sinkWrite data) s Q ↔ Q () { s with out := s.out ++ [data] } := ensures_modify

theorem ensures_sinkRepeat (c : UInt8) : ∀ (count : ℕ) (s : PrintState),
    Ensures (sinkRepeat c count) s fun _ s' =>
      s' = { s with out := s.out ++ List.replicate count [c] }
  | 0, s => by simp [sinkRepeat]
  | count + 1, s => by
    rw [sinkRepeat, ensures_bind, sinkPutchar, ensures_sinkWrite]
    refine (ensures_sinkRepeat c count _).mono ?_
    rintro - s' rfl
    rw [List.append_assoc, List.singleton_append, List.replicate_succ]

@[simp] theorem ensures_vaArg {Q : BitVec 64 → PrintState → Prop} :
    Ensures (vaArg env) s Q ↔ Q (env.word s.next) { s with next := s.next + 1 } := by
  rw [vaArg]
  simp

@[simp] theorem ensures_vaInt {Q : BitVec 64 → PrintState → Prop} :
    Ensures (vaInt env) s Q ↔
      Q (((env.word s.next).setWidth 32).signExtend 64) { s with next := s.next + 1 } := by
  rw [vaInt, ensures_bind, ensures_vaArg, ensures_pure]

theorem ensures_untoaBuffer {base : ℕ} (hbase : 1 < base) (hle : base ≤ 36) (hfuel : 64 ≤ fuel)
    (value : BitVec 64) {Q : ℕ × List UInt8 → PrintState → Prop}
    (hQ : Q ((digitChars base value.toNat).length, digitChars base value.toNat) s) :
    Ensures (untoaBuffer env fuel value base) s Q := by
  have hlen := length_placeDigits_le hbase (by decide) value.isLt
  have hchars : (digitChars base value.toNat).length = (placeDigits base value.toNat).length := by
    rw [digitChars, List.length_reverse, List.length_map]
  rw [untoaBuffer, untoa_eq hbase hle (hlen.trans hfuel)]
  simp only [ensures_pure]
  rwa [bufferString_untoa hbase hle value.isLt, ← hchars]

/-- The sign of a number that is printed. -/
def signOf (spec : FormatSpec) (value : BitVec 64) : List UInt8 :=
  if spec.flags.ffSigned ∧ value.toInt < 0 then [ch '-']
  else if spec.flags.ffSign then [ch '+'] else []

/-- The prefix of the base of a number that is printed. -/
def basePrefixOf (spec : FormatSpec) : List UInt8 :=
  if spec.flags.ffPrefix then
    if spec.base = 8 then [ch '0'] else if spec.base = 16 then [ch '0', ch 'x'] else []
  else []

/-- The absolute value of a number that is printed. -/
def magnitudeOf (spec : FormatSpec) (value : BitVec 64) : ℕ :=
  (if spec.flags.ffSigned ∧ value.toInt < 0 then -value else value).toNat

/-- The digits of a number that is printed. -/
def digitsOf (spec : FormatSpec) (value : BitVec 64) : List UInt8 :=
  digitChars spec.base (magnitudeOf spec value)

/-- The number of blanks before a number that is printed. -/
def paddingOf (spec : FormatSpec) (value : BitVec 64) : ℕ :=
  (spec.width.toInt - ((digitsOf spec value).length + (signOf spec value).length +
    (basePrefixOf spec).length : ℕ)).toNat

/-- **What a number adds to the output.** -/
theorem ensures_formatNumber {spec : FormatSpec} (hbase : 1 < spec.base) (hle : spec.base ≤ 36)
    (hfuel : 64 ≤ fuel) (value : BitVec 64) :
    Ensures (formatNumber env fuel value spec) s fun _ s' =>
      s' = { s with out := s.out ++ List.replicate (paddingOf spec value) [ch ' '] ++
        [signOf spec value, basePrefixOf spec, digitsOf spec value] } := by
  rw [formatNumber, ensures_bind]
  refine ensures_untoaBuffer hbase hle hfuel _ ?_
  have hpadding : (if (((digitsOf spec value).length + (signOf spec value).length +
        (basePrefixOf spec).length : ℕ) : ℤ) < spec.width.toInt then
      (spec.width.toInt - ((digitsOf spec value).length + (signOf spec value).length +
        (basePrefixOf spec).length : ℕ)).toNat else 0) = paddingOf spec value := by
    rw [paddingOf]
    split_ifs with h
    · rfl
    · omega
  rw [ensures_bind]
  refine Ensures.mono (Q := fun _ s' => s' = { s with
    out := s.out ++ List.replicate (paddingOf spec value) [ch ' '] }) ?_ ?_
  · rw [← hpadding]
    exact ensures_sinkRepeat _ _ _
  · rintro - s' rfl
    simp only [ensures_bind, sinkPuts, ensures_sinkWrite, List.append_assoc, List.cons_append,
      List.nil_append]
    rfl

/-! ### Pieces -/

/-- The bases that conversions print in. -/
theorem decodeConversion_base {spec : FormatSpec} (h : spec.base = 10) (c : UInt8) :
    1 < (decodeConversion spec c).base ∧ (decodeConversion spec c).base ≤ 36 := by
  simp only [decodeConversion, decodeNumber]
  split_ifs <;> simp [h]

/-- The value taken for a number. -/
def numberValue (env : Env) (next : ℕ) (type : FormatType) : BitVec 64 :=
  match type with
  | .ptr | .llong | .long | .intmax | .size | .ptrdiff => env.word next
  | _ => ((env.word next).setWidth 32).signExtend 64

theorem ensures_numberArg {type : FormatType} {Q : BitVec 64 → PrintState → Prop}
    (hQ : Q (numberValue env s.next type) { s with next := s.next + 1 }) :
    Ensures (numberArg env type) s Q := by
  cases type <;> simpa [numberArg, numberValue] using hQ

/-- A directive is printed, whatever it is, and the cursor moves by its length as an `int`. -/
theorem ensures_printDirective {fmt : List UInt8} {pos : ℤ} {spec : FormatSpec} {distance : ℕ}
    (hrun : formatDecode (fmt.drop pos.toNat) = .ok (spec, distance)) (htype : spec.type ≠ .none)
    (hbase : 1 < spec.base) (hle : spec.base ≤ 36) (hfuel : 64 ≤ fuel) :
    Ensures (printPiece env fuel fmt pos) s fun pos' _ => pos' = pos + toInt32 distance := by
  rw [printPiece, hrun]
  have hnumber : ∀ type, Ensures (do
      let value ← numberArg env type
      formatNumber env fuel value spec
      return pos + toInt32 distance) s fun pos' _ => pos' = pos + toInt32 distance := by
    intro type
    rw [ensures_bind]
    refine ensures_numberArg ?_
    rw [ensures_bind]
    refine (ensures_formatNumber hbase hle hfuel _).mono fun _ _ _ => ?_
    rw [ensures_pure]
  have hrepeat : ∀ (s : PrintState) (count : ℕ) (data : List UInt8), Ensures (do
      sinkRepeat (ch ' ') count
      sinkWrite data
      return pos + toInt32 distance) s fun pos' _ => pos' = pos + toInt32 distance := by
    intro s count data
    rw [ensures_bind]
    refine (ensures_sinkRepeat _ _ _).mono fun _ _ _ => ?_
    rw [ensures_bind, ensures_sinkWrite, ensures_pure]
  dsimp only
  generalize spec.type = type at htype ⊢
  cases type with
  | none => exact absurd rfl htype
  | char =>
    rw [ensures_bind, ensures_vaInt]
    exact hrepeat _ _ _
  | str =>
    rw [ensures_bind, ensures_vaArg]
    exact hrepeat _ _ _
  | percent =>
    rw [ensures_bind, sinkPutchar, ensures_sinkWrite, ensures_pure]
  | invalid =>
    rw [ensures_bind, sinkPutchar, ensures_sinkWrite, ensures_pure]
  | _ => exact hnumber _

end

end Format

end Kernel64
