import Kernel64.Format.Numerals
import Kernel64.Lib.Bytes
import Kernel64.Lib.Prog
import Mathlib.Data.Nat.Digits.Lemmas

/-!
# Printing numbers

`untoa` of `vsinkprintf.c` stores the digits of a number lowest first, turns them round in place
and ends them with a NUL. `ensures_untoa` says what it leaves in the buffer: the digits of the
number in the base, highest first, without leading zeros. `strtoul` reads the number back from
them (`strtoul_untoa`).
-/

namespace Kernel64

namespace Format

/-! ### The code -/

/-- The `do` loop of `untoa`. -/
def untoaLoop (base : ℕ) : ℕ → ℕ → ℕ → Buf → Except Fault (ℕ × Buf)
  | 0, _, _, _ => throw .fuel
  | fuel + 1, value, pos, str => do
    let some c := digits[value % base]? | throw .bounds
    let str := Function.update str pos c
    let value := value / base
    if value ≠ 0 then untoaLoop base fuel value (pos + 1) str else return (pos + 1, str)

/-- Swap two bytes of a buffer. -/
def swap (str : Buf) (i j : ℕ) : Buf :=
  Function.update (Function.update str i (str j)) j (str i)

/-- The `for` loop of `untoa`, which turns the first `pos` bytes of the buffer round. -/
def reverseLoop (str : Buf) (pos : ℕ) : Buf :=
  (List.range (pos / 2)).foldl (fun str i => swap str i (pos - i - 1)) str

/-- `untoa`: the number of digits, and the buffer. -/
def untoa (fuel value : ℕ) (str : Buf) (base : ℕ) : Except Fault (ℕ × Buf) := do
  let (pos, str) ← untoaLoop base fuel value 0 str
  return (pos, Function.update (reverseLoop str pos) pos 0)

/-! ### Digits -/

/-- The digits of a number, lowest first; zero has one digit. -/
def placeDigits (base value : ℕ) : List ℕ := if value = 0 then [0] else Nat.digits base value

/-- The character of a digit. -/
def digitChar (d : ℕ) : UInt8 := digits.getD d 0

/-- The characters of a number, highest digit first. -/
def digitChars (base value : ℕ) : List UInt8 := ((placeDigits base value).map digitChar).reverse

theorem digits_getElem? {d : ℕ} (h : d < 36) : digits[d]? = some (digitChar d) := by
  have hlen : d < digits.length := h
  rw [digitChar, List.getD_eq_getElem?_getD, List.getElem?_eq_getElem hlen, Option.getD_some]

theorem digitValue_digitChar {d : ℕ} (h : d < 36) : digitValue (digitChar d) = some d := by
  have hall : ∀ d < 36, digitValue (digitChar d) = some d := by decide
  exact hall d h

section

variable {base : ℕ}

/-- The lowest digit, and the digits of what is left. -/
theorem placeDigits_eq (hbase : 1 < base) (value : ℕ) :
    placeDigits base value = value % base ::
      if value / base ≠ 0 then placeDigits base (value / base) else [] := by
  by_cases hv : value = 0
  · subst hv
    simp [placeDigits]
  · rw [placeDigits, if_neg hv, Nat.digits_def' hbase (Nat.pos_of_ne_zero hv)]
    split_ifs with hdiv
    · rw [placeDigits, if_neg hdiv]
    · rw [not_not.1 hdiv, Nat.digits_zero]

theorem lt_of_mem_placeDigits (hbase : 1 < base) {value d : ℕ} (h : d ∈ placeDigits base value) :
    d < base := by
  rw [placeDigits] at h
  split_ifs at h
  · obtain rfl := List.mem_singleton.1 h
    omega
  · exact Nat.digits_lt_base hbase h

theorem ofDigits_placeDigits (base value : ℕ) :
    Nat.ofDigits base (placeDigits base value) = value := by
  rw [placeDigits]
  split_ifs with hv
  · rw [Nat.ofDigits_singleton, hv]
  · exact Nat.ofDigits_digits base value

theorem length_placeDigits_pos (base value : ℕ) : 0 < (placeDigits base value).length := by
  rw [placeDigits]
  split_ifs with hv
  · exact Nat.one_pos
  · exact List.length_pos_iff.2 (Nat.digits_ne_nil_iff_ne_zero.2 hv)

/-- A number below `2 ^ k` has at most `k` digits, in any base. -/
theorem length_placeDigits_le (hbase : 1 < base) {value k : ℕ} (hk : 0 < k)
    (hvalue : value < 2 ^ k) : (placeDigits base value).length ≤ k := by
  rw [placeDigits]
  split_ifs with hv
  · exact hk
  · rw [Nat.digits_length_le_iff hbase]
    exact hvalue.trans_le (Nat.pow_le_pow_left hbase k)

/-- Every digit character is a digit of the base. -/
theorem validDigit_of_mem (hbase : 1 < base) (hle : base ≤ 36) {value : ℕ} {c : UInt8}
    (h : c ∈ digitChars base value) : validDigit base c = true := by
  obtain ⟨d, hd, rfl⟩ := List.mem_map.1 (List.mem_reverse.1 h)
  have hlt := lt_of_mem_placeDigits hbase hd
  exact validDigit_iff.2 ⟨d, hlt, digitValue_digitChar (hlt.trans_le hle)⟩

theorem numeral_digitChars (hbase : 1 < base) (hle : base ≤ 36) (value : ℕ) :
    numeral base (digitChars base value) = value := by
  rw [numeral, digitChars, List.reverse_reverse, List.map_map]
  conv_rhs => rw [← ofDigits_placeDigits base value]
  congr 1
  conv_rhs => rw [← List.map_id (placeDigits base value)]
  refine List.map_congr_left fun d hd => ?_
  rw [Function.comp_apply, digitValue_digitChar ((lt_of_mem_placeDigits hbase hd).trans_le hle)]
  rfl

/-- The first character is not `0`, but for the number zero. -/
theorem head_digitChars_ne_zero (hbase : 1 < base) (hle : base ≤ 36) {value : ℕ}
    (hvalue : value ≠ 0) : (digitChars base value).head? ≠ some (ch '0') := by
  have hne : Nat.digits base value ≠ [] := Nat.digits_ne_nil_iff_ne_zero.2 hvalue
  have hlast := Nat.getLast_digit_ne_zero base hvalue
  have hlt := Nat.digits_lt_base hbase (List.getLast_mem hne)
  rw [digitChars, List.head?_reverse, placeDigits, if_neg hvalue, List.getLast?_map,
    List.getLast?_eq_some_getLast hne, Option.map_some]
  intro hc
  have hval := digitValue_digitChar (hlt.trans_le hle)
  rw [Option.some.inj hc] at hval
  exact hlast (Option.some.inj hval).symm

/-! ### The loops -/

/-- The first loop stores the digits, lowest first. -/
theorem untoaLoop_eq (hbase : 1 < base) (hle : base ≤ 36) :
    ∀ {fuel value pos : ℕ} {str : Buf}, (placeDigits base value).length ≤ fuel →
      untoaLoop base fuel value pos str = .ok (pos + (placeDigits base value).length,
        str.store pos ((placeDigits base value).map digitChar)) := by
  intro fuel
  induction fuel with
  | zero =>
    intro value pos str hfuel
    have := length_placeDigits_pos base value
    omega
  | succ fuel ih =>
    intro value pos str hfuel
    have hmod : value % base < 36 := (Nat.mod_lt _ (Nat.zero_lt_of_lt hbase)).trans_le hle
    rw [untoaLoop, digits_getElem? hmod]
    rw [placeDigits_eq hbase] at hfuel ⊢
    by_cases hdiv : value / base = 0
    · simp only [hdiv, ne_eq, not_true_eq_false, if_false, List.map_singleton, List.length_singleton]
      rw [Buf.store_cons, Buf.store_nil]
      rfl
    · simp only [ne_eq, hdiv, not_false_eq_true, if_true, List.map_cons, List.length_cons] at hfuel ⊢
      rw [ih (Nat.le_of_succ_le_succ hfuel), Buf.store_cons, Nat.add_assoc, Nat.add_comm 1]

/-- Swapping the ends of a range turns its ends round. -/
theorem reverseLoop_apply (str : Buf) (pos : ℕ) (i : ℕ) :
    reverseLoop str pos i = if i < pos then str (pos - 1 - i) else str i := by
  have hloop : ∀ k ≤ pos / 2, ∀ i,
      (List.range k).foldl (fun str i => swap str i (pos - i - 1)) str i =
        if i < k ∨ pos - k ≤ i ∧ i < pos then str (pos - 1 - i) else str i := by
    intro k
    induction k with
    | zero =>
      intro _ i
      rw [List.range_zero, List.foldl_nil, if_neg (by omega)]
    | succ k ih =>
      intro hk i
      rw [List.range_succ, List.foldl_append, List.foldl_cons, List.foldl_nil, swap]
      have hk' : k ≤ pos / 2 := by omega
      by_cases hi : i = pos - k - 1
      · subst hi
        rw [Function.update_self, ih hk', if_neg (by omega), if_pos (by omega)]
        congr 1
        omega
      · rw [Function.update_of_ne hi]
        by_cases hik : i = k
        · subst hik
          rw [Function.update_self, ih hk', if_neg (by omega), if_pos (by omega)]
          congr 1
          omega
        · rw [Function.update_of_ne hik, ih hk']
          exact if_congr (by omega) rfl rfl
  rw [reverseLoop, hloop _ le_rfl]
  by_cases hi : i < pos
  · by_cases hmid : i < pos / 2 ∨ pos - pos / 2 ≤ i ∧ i < pos
    · rw [if_pos hmid, if_pos hi]
    · -- the middle byte of an odd range stays in place
      rw [if_neg hmid, if_pos hi]
      congr 1
      omega
  · rw [if_neg (by omega), if_neg hi]

/-- Turning a stored list round stores the reversed list. -/
theorem reverseLoop_store (str : Buf) (l : List UInt8) :
    reverseLoop (str.store 0 l) l.length = str.store 0 l.reverse := by
  funext i
  rw [reverseLoop_apply]
  by_cases hi : i < l.length
  · have hrev : i < l.reverse.length := by rwa [List.length_reverse]
    have hleft := @Buf.store_inside 0 (l.length - 1 - i) str l (by omega)
    have hright := @Buf.store_inside 0 i str l.reverse hrev
    rw [Nat.zero_add] at hleft hright
    rw [if_pos hi, hleft, hright, List.getElem_reverse]
  · rw [if_neg hi, Buf.store_outside (Or.inr (by omega)),
      Buf.store_outside (Or.inr (by rw [List.length_reverse]; omega))]

/-- **What `untoa` leaves in the buffer.** -/
theorem untoa_eq (hbase : 1 < base) (hle : base ≤ 36) {fuel value : ℕ} {str : Buf}
    (hfuel : (placeDigits base value).length ≤ fuel) :
    untoa fuel value str base = .ok ((placeDigits base value).length,
      Function.update (str.store 0 (digitChars base value)) (placeDigits base value).length 0) := by
  have hrev := reverseLoop_store str ((placeDigits base value).map digitChar)
  rw [List.length_map] at hrev
  rw [untoa, untoaLoop_eq hbase hle hfuel, Nat.zero_add, digitChars, ← hrev]
  rfl

/-- `strtoul` reads a number back from its digits. -/
theorem strtoul_digitChars (hbase : 1 < base) (hle : base ≤ 36) {value : ℕ}
    (hvalue : value < 2 ^ 64) : strtoul (digitChars base value) base = (value, []) := by
  have hread := @strtoul_append base (digitChars base value) [] (by omega)
    (fun c hc => validDigit_of_mem hbase hle hc) (by decide)
  rwa [List.append_nil, numeral_digitChars hbase hle, Nat.mod_eq_of_lt hvalue] at hread

/-- The string that `untoa` leaves in the buffer. -/
theorem slice_untoa (str : Buf) (value : ℕ) :
    Buf.slice (Function.update (str.store 0 (digitChars base value))
      (placeDigits base value).length 0) 0 (placeDigits base value).length =
      digitChars base value := by
  have hlen : (digitChars base value).length = (placeDigits base value).length := by
    rw [digitChars, List.length_reverse, List.length_map]
  have hsame : ∀ j < (placeDigits base value).length,
      Function.update (str.store 0 (digitChars base value)) (placeDigits base value).length 0
        (0 + j) = str.store 0 (digitChars base value) (0 + j) :=
    fun j hj => Function.update_of_ne (by omega) _ _
  rw [Buf.slice_congr hsame, ← hlen, Buf.slice_store]

end

/-- **Printing and parsing are inverse.** `untoa` writes between 1 and 64 digits and a NUL, without
leading zeros, and `strtoul` reads the number back up to the NUL. -/
theorem strtoul_untoa (v : BitVec 64) (base : ℕ) (hbase : 2 ≤ base) (hle : base ≤ 36) (buf : Buf) :
    ∃ N, ∀ fuel ≥ N, ∃ n str, untoa fuel v.toNat buf base = .ok (n, str) ∧
      (1 ≤ n ∧ n ≤ 64) ∧ (∀ c ∈ str.slice 0 n, validDigit base c = true) ∧ str n = 0 ∧
      (∀ i > n, str i = buf i) ∧ (v ≠ 0#64 → str 0 ≠ ch '0') ∧
      strtoul (str.slice 0 n) base = (v.toNat, []) := by
  have hlen : (digitChars base v.toNat).length = (placeDigits base v.toNat).length := by
    rw [digitChars, List.length_reverse, List.length_map]
  have hpos := length_placeDigits_pos base v.toNat
  refine ⟨_, fun fuel hfuel => ⟨_, _, untoa_eq hbase hle hfuel,
    ⟨hpos, length_placeDigits_le hbase (by decide) v.isLt⟩, ?_, Function.update_self _ _ _,
    fun i hi => ?_, fun hv => ?_, ?_⟩⟩
  · rw [slice_untoa]
    exact fun c hc => validDigit_of_mem hbase hle hc
  · rw [Function.update_of_ne (by omega), Buf.store_outside (Or.inr (by omega))]
  · have hhead := head_digitChars_ne_zero hbase hle (show v.toNat ≠ 0 by
      rwa [Ne, ← BitVec.toNat_inj] at hv)
    have hfirst := @Buf.store_inside 0 0 buf (digitChars base v.toNat) (by omega)
    rw [Nat.zero_add] at hfirst
    rw [Function.update_of_ne (by omega), hfirst]
    rw [List.head?_eq_getElem?, List.getElem?_eq_getElem (by omega)] at hhead
    exact fun hc => hhead (congrArg some hc)
  · rw [slice_untoa]
    exact strtoul_digitChars hbase hle v.isLt

theorem strtoul_untoa_max :
    ∃ N, ∀ fuel ≥ N, ∃ n str, untoa fuel (-1#64).toNat (fun _ => 7) 36 = .ok (n, str) ∧
      (1 ≤ n ∧ n ≤ 64) ∧ (∀ c ∈ str.slice 0 n, validDigit 36 c = true) ∧ str n = 0 ∧
      (∀ i > n, str i = 7) ∧ (-1#64 ≠ 0#64 → str 0 ≠ ch '0') ∧
      strtoul (str.slice 0 n) 36 = ((-1#64).toNat, []) :=
  strtoul_untoa (-1#64) 36 (by decide) (by decide) fun _ => 7

end Format

end Kernel64
