import Kernel64.Format.Output

/-!
# Going through a format

`vsinkprintf` cuts a format into literal text and directives, and moves its cursor by the length of
a piece as an `int`. `Complete` follows the cursor over the pieces to the NUL. A directive that the
NUL cuts off is passed together with the NUL, so it leads nowhere; neither does literal text whose
length is no `int`. The run ends, and reads nothing behind the NUL, exactly when the format is
complete (`printsInside_iff`).
-/

namespace Kernel64

namespace Format

/-- A string in memory: no character is the NUL, and it fits into the address space. -/
structure CString where
  chars : List UInt8
  nul_notMem : 0 ∉ chars
  length_lt : chars.length < 2 ^ 63

/-- Literal text, up to the next `%`. -/
def literalRun (rest : List UInt8) : List UInt8 := rest.takeWhile (· ≠ ch '%')

/-- The length of a directive that starts a string; when the conversion is missing, the NUL counts
for it. -/
def directiveLength (rest : List UInt8) : ℕ := rest.length - (conversionAt rest.tail).length + 1

/-- The pieces from a position on lead to the NUL. -/
inductive Complete (fmt : List UInt8) : ℤ → Prop
  | done : Complete fmt fmt.length
  | literal {pos : ℕ} : pos < fmt.length → peek (fmt.drop pos) ≠ ch '%' →
      (literalRun (fmt.drop pos)).length < 2 ^ 31 →
      Complete fmt (pos + (literalRun (fmt.drop pos)).length : ℕ) → Complete fmt pos
  | directive {pos : ℕ} : pos < fmt.length → peek (fmt.drop pos) = ch '%' →
      Complete fmt (pos + toInt32 (directiveLength (fmt.drop pos))) → Complete fmt pos

/-- Formatting ends, and reads no character of the format behind the NUL. -/
def PrintsInside (fmt : List UInt8) : Prop :=
  ∀ (env : Env) (s : PrintState), ∃ N, ∀ fuel ≥ N,
    Ensures (vsinkprintf env fuel fmt) s fun _ _ => True

/-! ### Distances -/

theorem toInt32_eq (n : ℕ) : toInt32 n =
    if n % 2 ^ 32 < 2 ^ 31 then ((n % 2 ^ 32 : ℕ) : ℤ) else ((n % 2 ^ 32 : ℕ) : ℤ) - 2 ^ 32 := by
  rw [toInt32, BitVec.toInt_eq_toNat_cond, BitVec.toNat_ofNat]
  exact if_congr (by omega) rfl rfl

theorem peek_drop_ne_zero {fmt : List UInt8} {pos : ℕ} (hnul : 0 ∉ fmt) (hpos : pos < fmt.length) :
    peek (fmt.drop pos) ≠ 0 := by
  rw [List.drop_eq_getElem_cons hpos, peek_cons]
  exact fun h => hnul (h ▸ List.getElem_mem hpos)

theorem length_literalRun_le (rest : List UInt8) : (literalRun rest).length ≤ rest.length := by
  have h := congrArg List.length (List.takeWhile_append_dropWhile (p := (· ≠ ch '%')) (l := rest))
  rw [List.length_append] at h
  rw [literalRun]
  omega

/-- Within literal text, the rest of the text is literal. -/
theorem literalRun_drop {rest : List UInt8} {t : ℕ} (ht : t < (literalRun rest).length) :
    literalRun (rest.drop t) = (literalRun rest).drop t ∧ peek (rest.drop t) ≠ ch '%' := by
  have happ := List.takeWhile_append_dropWhile (p := (· ≠ ch '%')) (l := rest)
  have hall : ∀ c ∈ literalRun rest, decide (c ≠ ch '%') = true := by
    intro c hc
    rw [literalRun] at hc
    exact List.mem_takeWhile_imp (p := fun c => decide (c ≠ ch '%')) hc
  have hsplit : rest.drop t = (literalRun rest).drop t ++ rest.dropWhile (· ≠ ch '%') := by
    conv_lhs => rw [← happ]
    exact List.drop_append_of_le_length ht.le
  constructor
  · rw [hsplit, literalRun, List.takeWhile_append_of_pos fun c hc => hall c (List.mem_of_mem_drop hc)]
    cases hrest : rest.dropWhile (· ≠ ch '%') with
    | nil => rw [List.takeWhile_nil, List.append_nil]
    | cons c l =>
      have hne : rest.dropWhile (· ≠ ch '%') ≠ [] := by rw [hrest]; exact List.cons_ne_nil c l
      have hhead := List.head_dropWhile_not _ hne
      simp only [hrest, List.head_cons] at hhead
      rw [List.takeWhile_cons_of_neg (by rw [hhead]; exact Bool.false_ne_true), List.append_nil]
  · rw [hsplit, List.drop_eq_getElem_cons ht, List.cons_append, peek_cons]
    exact of_decide_eq_true (hall _ (List.getElem_mem ht))

/-! ### One piece -/

section

variable {env : Env} {fmt : List UInt8}

theorem ensures_charAt {pos : ℤ} {s : PrintState} {Q : UInt8 → PrintState → Prop} :
    Ensures (charAt fmt pos) s Q ↔
      (0 ≤ pos ∧ pos ≤ fmt.length) ∧ Q (peek (fmt.drop pos.toNat)) s := by
  rw [charAt, ensures_ite]
  by_cases h : 0 ≤ pos ∧ pos ≤ fmt.length <;> simp [h]

theorem formatDecode_directive {rest : List UInt8} (h : peek rest = ch '%') :
    ∃ spec, formatDecode rest = .ok (spec, directiveLength rest) ∧ spec.type ≠ .none ∧
      1 < spec.base ∧ spec.base ≤ 36 := by
  cases rest with
  | nil => exact absurd h (by decide)
  | cons c rest =>
    obtain rfl : c = ch '%' := h
    exact ⟨_, formatDecode_percent rest, (decodeConversion_type _ _).1, decodeConversion_base rfl _⟩

/-- Literal text is written, and the cursor moves by its length as an `int`. -/
theorem ensures_printLiteral {digitFuel pos : ℕ} {s : PrintState} {Q : ℤ → PrintState → Prop}
    (h : peek (fmt.drop pos) ≠ ch '%') :
    Ensures (printPiece env digitFuel fmt pos) s Q ↔
      (BitVec.ofInt 64 (toInt32 (literalRun (fmt.drop pos)).length)).toNat ≤
          (fmt.drop pos).length + 1 ∧
        Q (pos + toInt32 (literalRun (fmt.drop pos)).length)
          { s with out := s.out ++ [(fmt.drop pos ++ [0]).take
            (BitVec.ofInt 64 (toInt32 (literalRun (fmt.drop pos)).length)).toNat] } := by
  obtain ⟨spec, hrun, htype⟩ := formatDecode_literal h
  rw [printPiece, Int.toNat_natCast, hrun]
  dsimp only
  rw [htype, ensures_bind, writeLiteral, ← literalRun, ensures_ite]
  by_cases hsize : (BitVec.ofInt 64 (toInt32 (literalRun (fmt.drop pos)).length)).toNat ≤
      (fmt.drop pos).length + 1
  · simp only [hsize, true_implies, not_true_eq_false, false_implies, and_true, true_and,
      ensures_sinkWrite, ensures_pure]
  · simp only [hsize, false_implies, not_false_eq_true, true_implies, ensures_throw, and_false,
      false_and]

theorem Complete.bounds {pos : ℤ} (h : Complete fmt pos) : 0 ≤ pos ∧ pos ≤ fmt.length := by
  cases h <;> omega

/-! ### Whole runs -/

/-- A complete format is printed to its end. -/
theorem Complete.ensures_loop (hnul : 0 ∉ fmt) {pos : ℤ} (h : Complete fmt pos) :
    ∃ n, ∀ fuel ≥ n, ∀ digitFuel ≥ 64, ∀ s,
      Ensures (vsinkprintfLoop env digitFuel fmt fuel pos) s fun _ _ => True := by
  have hstep : ∀ {pos : ℕ} {pos' : ℤ}, pos < fmt.length →
      (∀ digitFuel ≥ 64, ∀ s, Ensures (printPiece env digitFuel fmt pos) s fun p _ => p = pos') →
      (∃ n, ∀ fuel ≥ n, ∀ digitFuel ≥ 64, ∀ s,
        Ensures (vsinkprintfLoop env digitFuel fmt fuel pos') s fun _ _ => True) →
      ∃ n, ∀ fuel ≥ n, ∀ digitFuel ≥ 64, ∀ s,
        Ensures (vsinkprintfLoop env digitFuel fmt fuel pos) s fun _ _ => True := by
    rintro pos pos' hpos hpiece ⟨n, hn⟩
    refine ⟨n + 1, fun fuel hfuel digitFuel hdigit s => ?_⟩
    obtain ⟨fuel, rfl⟩ := Nat.exists_eq_add_of_le' (Nat.one_le_of_lt hfuel)
    rw [vsinkprintfLoop, ensures_bind, ensures_charAt, Int.toNat_natCast,
      if_pos (peek_drop_ne_zero hnul hpos), ensures_bind]
    refine ⟨by omega, (hpiece digitFuel hdigit s).mono ?_⟩
    rintro p s' rfl
    exact hn fuel (by omega) digitFuel hdigit s'
  induction h with
  | done =>
    refine ⟨1, fun fuel hfuel digitFuel _ s => ?_⟩
    obtain ⟨fuel, rfl⟩ := Nat.exists_eq_add_of_le' hfuel
    rw [vsinkprintfLoop, ensures_bind, ensures_charAt, Int.toNat_natCast, List.drop_length, peek_nil,
      if_neg (by simp), ensures_pure]
    exact ⟨by omega, trivial⟩
  | @literal pos hpos hchar hrun _ ih =>
    refine hstep hpos (fun digitFuel _ s => ?_) ih
    have hle := length_literalRun_le (fmt.drop pos)
    rw [ensures_printLiteral hchar, toInt32_eq_iff.2 hrun, BitVec.ofInt_natCast, BitVec.toNat_ofNat,
      Nat.mod_eq_of_lt (by omega)]
    exact ⟨by omega, (Int.natCast_add _ _).symm⟩
  | @directive pos hpos hchar _ ih =>
    refine hstep hpos (fun digitFuel hdigit s => ?_) ih
    obtain ⟨spec, hrun, htype, hbase, hle⟩ := formatDecode_directive hchar
    exact ensures_printDirective (by rwa [Int.toNat_natCast]) htype hbase hle hdigit

/-- Literal text of a length that is no `int` leads nowhere. -/
theorem Complete.of_literal {pos : ℕ} (hlen : fmt.length < 2 ^ 63) (hpos : pos < fmt.length)
    (hchar : peek (fmt.drop pos) ≠ ch '%')
    (hsize : (BitVec.ofInt 64 (toInt32 (literalRun (fmt.drop pos)).length)).toNat ≤
      (fmt.drop pos).length + 1)
    (hnext : Complete fmt (pos + toInt32 (literalRun (fmt.drop pos)).length)) :
    Complete fmt pos := by
  have hle := length_literalRun_le (fmt.drop pos)
  have hint := toInt32_eq (literalRun (fmt.drop pos)).length
  have hdrop := List.length_drop (i := pos) (l := fmt)
  by_cases hshort : (literalRun (fmt.drop pos)).length < 2 ^ 31
  · refine .literal hpos hchar hshort ?_
    rwa [toInt32_eq_iff.2 hshort, ← Int.natCast_add] at hnext
  · by_cases hmod : (literalRun (fmt.drop pos)).length % 2 ^ 32 < 2 ^ 31
    · rw [if_pos hmod] at hint
      rw [hint, ← Int.natCast_add] at hnext
      by_cases hzero : (literalRun (fmt.drop pos)).length % 2 ^ 32 = 0
      · rwa [hzero, Nat.add_zero] at hnext
      · -- the cursor stays in the text, and what is left of it is too long again
        obtain ⟨hrest, hchar'⟩ := literalRun_drop
          (show (literalRun (fmt.drop pos)).length % 2 ^ 32 < (literalRun (fmt.drop pos)).length by omega)
        rw [List.drop_drop] at hrest hchar'
        generalize hpos' : pos + (literalRun (fmt.drop pos)).length % 2 ^ 32 = pos' at *
        generalize hz : (pos' : ℤ) = z at hnext
        cases hnext with
        | done => omega
        | @literal q _ _ hrun _ =>
          obtain rfl : pos' = q := by omega
          rw [hrest, List.length_drop] at hrun
          omega
        | @directive q _ hpercent _ =>
          obtain rfl : pos' = q := by omega
          exact absurd hpercent hchar'
    · rw [if_neg hmod] at hint
      rw [hint, BitVec.toNat_ofInt] at hsize
      omega

/-- A run that ends inside the format goes over complete pieces. -/
theorem complete_of_ensures (hnul : 0 ∉ fmt) (hlen : fmt.length < 2 ^ 63) {digitFuel : ℕ}
    (hdigit : 64 ≤ digitFuel) :
    ∀ {fuel : ℕ} {pos : ℤ} {s : PrintState},
      Ensures (vsinkprintfLoop env digitFuel fmt fuel pos) s (fun _ _ => True) →
      Complete fmt pos := by
  intro fuel
  induction fuel with
  | zero => exact fun h => absurd h (by rw [vsinkprintfLoop]; simp)
  | succ fuel ih =>
    intro pos s h
    rw [vsinkprintfLoop, ensures_bind, ensures_charAt] at h
    obtain ⟨⟨hpos, hle⟩, h⟩ := h
    obtain ⟨pos, rfl⟩ := Int.eq_ofNat_of_zero_le hpos
    rw [Int.toNat_natCast] at h
    rcases Nat.lt_or_eq_of_le (Int.ofNat_le.1 hle) with hlt | rfl
    · rw [if_pos (peek_drop_ne_zero hnul hlt), ensures_bind] at h
      by_cases hchar : peek (fmt.drop pos) = ch '%'
      · obtain ⟨spec, hrun, htype, hbase, hle⟩ := formatDecode_directive hchar
        obtain ⟨pos', s', hpiece, hrest⟩ := h
        have hnext := (@ensures_printDirective env digitFuel s fmt pos spec _
          (by rwa [Int.toNat_natCast]) htype hbase hle hdigit).of_run hpiece
        exact .directive hlt hchar (hnext ▸ ih hrest)
      · obtain ⟨hsize, hrest⟩ := (ensures_printLiteral hchar).1 h
        exact .of_literal hlen hlt hchar hsize (ih hrest)
    · exact .done

/-- In a format that is not as long as an `int` can count, a complete format has no directive that
the NUL cuts off. -/
theorem Complete.conversionAt_ne_nil {pos : ℕ} (h : Complete fmt pos)
    (hlen : fmt.length + 1 < 2 ^ 31) (hchar : peek (fmt.drop pos) = ch '%') :
    conversionAt (fmt.drop pos).tail ≠ [] := by
  intro hnil
  generalize hz : (pos : ℤ) = z at h
  cases h with
  | done =>
    obtain rfl : pos = fmt.length := by omega
    rw [List.drop_length] at hchar
    exact absurd hchar (by decide)
  | @literal q _ hother _ _ =>
    obtain rfl : pos = q := by omega
    exact hother hchar
  | @directive q hpos _ hnext =>
    obtain rfl : pos = q := by omega
    have hbounds := hnext.bounds
    have hcount : directiveLength (fmt.drop pos) = fmt.length - pos + 1 := by
      rw [directiveLength, hnil, List.length_drop, List.length_nil, Nat.sub_zero]
    rw [hcount, toInt32_eq_iff.2 (by omega)] at hbounds
    omega

/-! ### Short formats -/

/-- Where the pieces of a format start. -/
inductive Starts (fmt : List UInt8) : ℕ → Prop
  | first : Starts fmt 0
  | literal {pos : ℕ} : Starts fmt pos → pos < fmt.length → peek (fmt.drop pos) ≠ ch '%' →
      Starts fmt (pos + (literalRun (fmt.drop pos)).length)
  | directive {pos : ℕ} : Starts fmt pos → pos < fmt.length → peek (fmt.drop pos) = ch '%' →
      Starts fmt (pos + directiveLength (fmt.drop pos))

theorem length_conversionAt_le (rest : List UInt8) : (conversionAt rest).length ≤ rest.length := by
  have hwidth : (afterWidth (afterFlags rest)).length ≤ (afterFlags rest).length := by
    rw [afterWidth]
    split_ifs
    · exact List.length_dropWhile_le _ _
    · exact le_rfl
  exact (length_afterModifier_le _).trans (hwidth.trans (List.length_dropWhile_le _ _))

/-- A directive that is not cut off ends inside the format. -/
theorem directiveLength_le {rest : List UInt8} (h : conversionAt rest.tail ≠ []) :
    0 < directiveLength rest ∧ directiveLength rest ≤ rest.length := by
  have hpos := List.length_pos_of_ne_nil h
  have hle := length_conversionAt_le rest.tail
  rw [List.length_tail] at hle
  rw [directiveLength]
  omega

theorem length_literalRun_pos {pos : ℕ} (hpos : pos < fmt.length) (hchar : peek (fmt.drop pos) ≠ ch '%') :
    0 < (literalRun (fmt.drop pos)).length := by
  rw [List.drop_eq_getElem_cons hpos] at hchar ⊢
  rw [peek_cons] at hchar
  rw [literalRun, List.takeWhile_cons, if_pos (decide_eq_true hchar), List.length_cons]
  exact Nat.succ_pos _

theorem Complete.next {pos : ℕ} (h : Complete fmt pos) (hlen : fmt.length + 1 < 2 ^ 31) (hpos : pos < fmt.length) :
    (peek (fmt.drop pos) ≠ ch '%' → Complete fmt (pos + (literalRun (fmt.drop pos)).length : ℕ)) ∧
      (peek (fmt.drop pos) = ch '%' → Complete fmt (pos + directiveLength (fmt.drop pos) : ℕ)) := by
  refine ⟨fun hchar => ?_, fun hchar => ?_⟩
  · generalize hz : (pos : ℤ) = z at h
    cases h with
    | done => omega
    | @literal q _ _ _ hnext =>
      obtain rfl : pos = q := by omega
      exact hnext
    | @directive q _ hpercent _ =>
      obtain rfl : pos = q := by omega
      exact absurd hpercent hchar
  · obtain ⟨-, hle⟩ := directiveLength_le (h.conversionAt_ne_nil hlen hchar)
    rw [List.length_drop] at hle
    generalize hz : (pos : ℤ) = z at h
    cases h with
    | done => omega
    | @literal q _ hother _ _ =>
      obtain rfl : pos = q := by omega
      exact absurd hchar hother
    | @directive q _ _ hnext =>
      obtain rfl : pos = q := by omega
      rwa [toInt32_eq_iff.2 (by omega), ← Int.natCast_add] at hnext

theorem Complete.of_starts {pos : ℕ} (h : Complete fmt 0) (hlen : fmt.length + 1 < 2 ^ 31) (hstart : Starts fmt pos) :
    Complete fmt pos := by
  induction hstart with
  | first => exact h
  | literal _ hpos hchar ih => exact (ih.next hlen hpos).1 hchar
  | directive _ hpos hchar ih => exact (ih.next hlen hpos).2 hchar

/-- **A short format is complete** exactly when the NUL cuts off no directive that is reached. -/
theorem complete_iff_of_short (hlen : fmt.length + 1 < 2 ^ 31) :
    Complete fmt 0 ↔ ∀ pos, Starts fmt pos → peek (fmt.drop pos) = ch '%' →
      conversionAt (fmt.drop pos).tail ≠ [] := by
  refine ⟨fun h pos hstart hchar => (h.of_starts hlen hstart).conversionAt_ne_nil hlen hchar, fun h => ?_⟩
  have hall : ∀ n pos, Starts fmt pos → pos + n = fmt.length → Complete fmt pos := by
    intro n
    induction n using Nat.strong_induction_on with
    | _ n ih =>
      rintro pos hstart hn
      rcases Nat.eq_zero_or_pos n with rfl | hpos
      · rw [Nat.add_zero] at hn
        subst hn
        exact .done
      have hlt : pos < fmt.length := by omega
      have hdrop : (fmt.drop pos).length = n := by
        rw [List.length_drop]
        omega
      by_cases hchar : peek (fmt.drop pos) = ch '%'
      · obtain ⟨hmove, hle⟩ := directiveLength_le (h pos hstart hchar)
        refine .directive hlt hchar ?_
        rw [toInt32_eq_iff.2 (by omega), ← Int.natCast_add]
        exact ih (n - directiveLength (fmt.drop pos)) (by omega) _ (hstart.directive hlt hchar) (by omega)
      · have hmove := length_literalRun_pos hlt hchar
        have hle := length_literalRun_le (fmt.drop pos)
        refine .literal hlt hchar (by omega) ?_
        exact ih (n - (literalRun (fmt.drop pos)).length) (by omega) _ (hstart.literal hlt hchar) (by omega)
  exact hall fmt.length 0 .first (Nat.zero_add _)

end

/-! ### The contract -/

/-- **When formatting stays inside its format.** -/
theorem printsInside_iff (fmt : CString) : PrintsInside fmt.chars ↔ Complete fmt.chars 0 := by
  constructor
  · intro h
    obtain ⟨N, hN⟩ := h ⟨fun _ => 0#64, fun _ => [], fun _ => 0⟩ ⟨[], 0⟩
    exact complete_of_ensures fmt.nul_notMem fmt.length_lt (le_max_right N 64)
      (hN (max N 64) (le_max_left N 64))
  · intro h env s
    obtain ⟨n, hn⟩ := @Complete.ensures_loop env _ fmt.nul_notMem _ h
    exact ⟨max n 64, fun fuel hfuel => hn fuel (le_trans (le_max_left n 64) hfuel) fuel
      (le_trans (le_max_right n 64) hfuel) s⟩

/-- A single `%` is passed together with the NUL. -/
theorem not_printsInside_percent : ¬PrintsInside [ch '%'] := by
  intro h
  obtain ⟨N, hN⟩ := h ⟨fun _ => 0#64, fun _ => [], fun _ => 0⟩ ⟨[], 0⟩
  have hcomplete := complete_of_ensures (by decide) (by decide) (le_max_right N 64)
    (hN (max N 64) (le_max_left N 64))
  exact @Complete.conversionAt_ne_nil _ 0 hcomplete (by decide) rfl rfl

end Format

end Kernel64
