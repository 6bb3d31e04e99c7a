import Kernel64.Headers
import Mathlib.Data.List.TakeWhile
import Mathlib.Data.Nat.Digits.Defs
import Mathlib.Tactic.Common
import Mathlib.Tactic.Ring

/-!
# Reading numbers

`strtoul` and `strtol` of `stdlib.c`, with the character functions they use. A string in memory is
the list of its characters, and a pointer into it the list of the characters that are left; the
NUL is where the list ends, and `peek` reads it there.

The loop of `strtoul` looks each character up in one table of digits for all bases, so it reads on
over any letter or digit. `ParsesLongest` says that it stops where it should, and it holds exactly
when the digits of the base are not followed by a letter or a digit that is none of them
(`strtoul_longest_iff`).
-/

namespace Kernel64

namespace Format

/-! ### Characters and strings -/

/-- `*str`, the NUL at the end. -/
def peek (str : List UInt8) : UInt8 := str.headD 0

@[simp] theorem peek_nil : peek [] = 0 := rfl

@[simp] theorem peek_cons (c : UInt8) (str : List UInt8) : peek (c :: str) = c := rfl

/-- `toupper` -/
def toupper (c : UInt8) : UInt8 := if c < ch 'a' ∨ ch 'z' < c then c else c - 32

/-- `tolower`. A character above 127 is negative, and stays as well. -/
def tolower (c : UInt8) : UInt8 := if c < ch 'A' ∨ ch 'Z' < c then c else c + 32

/-- `isdigit` -/
def isdigit (c : UInt8) : Bool := ch '0' ≤ c ∧ c ≤ ch '9'

/-- `isspace`: a blank, or one of the five control characters from `\t` to `\r`. -/
def isspace (c : UInt8) : Bool := c = 32 ∨ 9 ≤ c ∧ c ≤ 13

/-- `strchr`, as the distance from the start of the string. It does not find the NUL. -/
def strchr (str : List UInt8) (c : UInt8) : Option ℕ := str.findIdx? (· = c)

/-- The table of digits in `strtoul` and `untoa`. -/
def digits : List UInt8 :=
  ['0', '1', '2', '3', '4', '5', '6', '7', '8', '9', 'a', 'b', 'c', 'd', 'e', 'f', 'g', 'h', 'i', 'j',
    'k', 'l', 'm', 'n', 'o', 'p', 'q', 'r', 's', 't', 'u', 'v', 'w', 'x', 'y', 'z'].map ch

/-! ### `strtoul` -/

/-- The loop of `strtoul`. It ends at the NUL, which `strchr` does not find. -/
def strtoulLoop (base : ℕ) : ℕ → List UInt8 → ℕ × List UInt8
  | answer, [] => (answer, [])
  | answer, c :: str =>
    match strchr digits (tolower c) with
    | none => (answer, c :: str)
    | some d => strtoulLoop base ((answer * base + d) % 2 ^ 64) str

/-- `strtoul`: the number, and `*endptr`. -/
def strtoul (str : List UInt8) (base : ℕ) : ℕ × List UInt8 :=
  if base = 0 ∧ peek str = ch '0' then
    if peek str.tail ≠ 0 ∧ (peek str.tail = ch 'x' ∨ peek str.tail = ch 'X') then
      strtoulLoop 16 0 (str.drop 2)
    else strtoulLoop 8 0 (str.drop 1)
  else if base = 0 then strtoulLoop 10 0 str
  else strtoulLoop base 0 str

/-- `strtol`: the number as a `long`, and `*endptr`. -/
def strtol (str : List UInt8) (base : ℕ) : BitVec 64 × List UInt8 :=
  let str := str.dropWhile isspace
  let sign := peek str = ch '-'
  let str := if peek str = ch '-' ∨ peek str = ch '+' then str.tail else str
  let (value, rest) := strtoul str base
  (if sign then -BitVec.ofNat 64 value else BitVec.ofNat 64 value, rest)

/-! ### What it should read -/

/-- The value of a digit or a letter of either case. -/
def digitValue (c : UInt8) : Option ℕ :=
  if ch '0' ≤ c ∧ c ≤ ch '9' then some (c.toNat - 48)
  else if ch 'a' ≤ c ∧ c ≤ ch 'z' then some (c.toNat - 87)
  else if ch 'A' ≤ c ∧ c ≤ ch 'Z' then some (c.toNat - 55)
  else none

/-- `c` is a digit valid in the base. -/
def validDigit (base : ℕ) (c : UInt8) : Bool := (digitValue c).any (· < base)

/-- The number that a string of digits denotes. -/
def numeral (base : ℕ) (str : List UInt8) : ℕ :=
  Nat.ofDigits base (str.reverse.map fun c => (digitValue c).getD 0)

/-- The base and the digits that base 0 stands for. -/
def chosen (str : List UInt8) : ℕ × List UInt8 :=
  match str with
  | [] => (10, [])
  | c :: str =>
    if c = ch '0' then
      match str with
      | [] => (8, [])
      | x :: rest => if x = ch 'x' ∨ x = ch 'X' then (16, rest) else (8, x :: rest)
    else (10, c :: str)

/-- The base in force, and the string that it is applied to. -/
def radix (str : List UInt8) (base : ℕ) : ℕ × List UInt8 :=
  if base = 0 then chosen str else (base, str)

/-- What follows the longest run of valid digits. -/
def afterDigits (str : List UInt8) (base : ℕ) : List UInt8 :=
  (radix str base).2.dropWhile (validDigit (radix str base).1)

/-- **Number parsing**: the longest run of valid digits is consumed, and its value returned. -/
def ParsesLongest (str : List UInt8) (base : ℕ) : Prop :=
  strtoul str base =
    (numeral (radix str base).1 ((radix str base).2.takeWhile (validDigit (radix str base).1)) % 2 ^ 64,
      afterDigits str base)

/-! ### The loop -/

/-- The table holds the digits and the small letters, in the order of their values. -/
theorem strchr_digits (c : UInt8) : strchr digits (tolower c) = digitValue c := by
  have h : ∀ n < 256, strchr digits (tolower (UInt8.ofNat n)) = digitValue (UInt8.ofNat n) := by
    decide +kernel
  have hc := h c.toNat c.toNat_lt
  rwa [UInt8.ofNat_toNat] at hc

theorem strtoulLoop_cons_of_none {base answer : ℕ} {c : UInt8} {str : List UInt8}
    (h : digitValue c = none) : strtoulLoop base answer (c :: str) = (answer, c :: str) := by
  rw [strtoulLoop, strchr_digits, h]

theorem strtoulLoop_cons_of_some {base answer d : ℕ} {c : UInt8} {str : List UInt8}
    (h : digitValue c = some d) :
    strtoulLoop base answer (c :: str) = strtoulLoop base ((answer * base + d) % 2 ^ 64) str := by
  rw [strtoulLoop, strchr_digits, h]

/-- The loop stops at the first character that is neither a letter nor a digit. -/
theorem strtoulLoop_snd (base : ℕ) (str : List UInt8) :
    ∀ answer, (strtoulLoop base answer str).2 = str.dropWhile fun c => (digitValue c).isSome := by
  induction str with
  | nil => exact fun answer => rfl
  | cons c str ih =>
    intro answer
    cases h : digitValue c with
    | none =>
      rw [strtoulLoop_cons_of_none h, List.dropWhile_cons_of_neg]
      rw [h]
      exact Bool.false_ne_true
    | some d =>
      rw [strtoulLoop_cons_of_some h, ih, List.dropWhile_cons_of_pos]
      rw [h]
      rfl

/-- The end never lies before the start. -/
theorem length_strtoulLoop_le (base answer : ℕ) (str : List UInt8) :
    (strtoulLoop base answer str).2.length ≤ str.length := by
  rw [strtoulLoop_snd]
  exact List.length_dropWhile_le _ _

theorem validDigit_iff {base : ℕ} {c : UInt8} :
    validDigit base c = true ↔ ∃ d < base, digitValue c = some d := by
  rw [validDigit]
  cases digitValue c with
  | none => simp
  | some d => simp

theorem numeral_cons {base d : ℕ} {c : UInt8} {str : List UInt8} (h : digitValue c = some d) :
    numeral base (c :: str) = d * base ^ str.length + numeral base str := by
  rw [numeral, numeral, List.reverse_cons, List.map_append, Nat.ofDigits_append, List.map_singleton,
    Nat.ofDigits_singleton, h, List.length_map, List.length_reverse, Option.getD_some]
  ring

/-- The loop reads a run of digits, and goes on after it. -/
theorem strtoulLoop_append {base : ℕ} {run rest : List UInt8}
    (hrun : ∀ c ∈ run, validDigit base c = true) :
    ∀ answer < 2 ^ 64, strtoulLoop base answer (run ++ rest) =
      strtoulLoop base ((answer * base ^ run.length + numeral base run) % 2 ^ 64) rest := by
  induction run with
  | nil =>
    intro answer hanswer
    rw [List.nil_append, numeral, List.reverse_nil, List.map_nil, Nat.ofDigits_nil, List.length_nil,
      Nat.pow_zero, Nat.mul_one, Nat.add_zero, Nat.mod_eq_of_lt hanswer]
  | cons c run ih =>
    intro answer _
    obtain ⟨d, -, hd⟩ := validDigit_iff.1 (hrun c List.mem_cons_self)
    rw [List.cons_append, strtoulLoop_cons_of_some hd,
      ih (fun c' hc' => hrun c' (List.mem_cons_of_mem c hc')) _ (Nat.mod_lt _ (by decide)),
      numeral_cons hd]
    congr 1
    -- the accumulator is reduced at every digit, which changes nothing modulo 2^64
    rw [Nat.add_mod, Nat.mul_mod, Nat.mod_mod, ← Nat.mul_mod, ← Nat.add_mod, List.length_cons]
    congr 1
    ring

/-! ### `strtoul` -/

theorem strtoul_eq (str : List UInt8) (base : ℕ) :
    strtoul str base = strtoulLoop (radix str base).1 0 (radix str base).2 := by
  rw [strtoul, radix]
  by_cases hbase : base = 0
  · subst hbase
    cases str with
    | nil => rfl
    | cons c str =>
      by_cases hc : c = ch '0'
      · cases str with
        | nil => simp [peek, hc, chosen]
        | cons x rest =>
          have hx : (x ≠ 0 ∧ (x = ch 'x' ∨ x = ch 'X')) ↔ (x = ch 'x' ∨ x = ch 'X') :=
            and_iff_right_of_imp fun h => by
              rcases h with rfl | rfl
              · decide
              · decide
          simp only [peek, List.headD_cons, List.tail_cons, hc, and_self, if_true, hx, chosen]
          split_ifs <;> rfl
      · simp [peek, hc, chosen]
  · simp [hbase]

/-- The run of valid digits is read, and the loop goes on after it. -/
theorem strtoul_eq_after (str : List UInt8) (base : ℕ) :
    strtoul str base = strtoulLoop (radix str base).1
      (numeral (radix str base).1
        ((radix str base).2.takeWhile (validDigit (radix str base).1)) % 2 ^ 64)
      (afterDigits str base) := by
  rw [strtoul_eq, afterDigits]
  generalize radix str base = r
  obtain ⟨b, body⟩ := r
  have hrun : ∀ c ∈ body.takeWhile (validDigit b), validDigit b c = true :=
    fun c hc => List.mem_takeWhile_imp hc
  have hloop := @strtoulLoop_append b _ (body.dropWhile (validDigit b)) hrun 0 (by decide)
  rwa [List.takeWhile_append_dropWhile, Nat.zero_mul, Nat.zero_add] at hloop

/-- When no letter or digit follows the run, the loop stops there. -/
theorem parsesLongest_of_end {str : List UInt8} {base : ℕ}
    (h : digitValue (peek (afterDigits str base)) = none) : ParsesLongest str base := by
  rw [ParsesLongest, strtoul_eq_after]
  cases hrest : afterDigits str base with
  | nil => rfl
  | cons c rest =>
    rw [hrest] at h
    exact strtoulLoop_cons_of_none h

/-- A run of valid digits that no letter or digit follows, in a base that is given. -/
theorem strtoul_append {base : ℕ} {run rest : List UInt8} (hbase : base ≠ 0)
    (hrun : ∀ c ∈ run, validDigit base c = true) (hend : digitValue (peek rest) = none) :
    strtoul (run ++ rest) base = (numeral base run % 2 ^ 64, rest) := by
  rw [strtoul_eq, radix, if_neg hbase, strtoulLoop_append hrun 0 (by decide), Nat.zero_mul,
    Nat.zero_add]
  cases rest with
  | nil => rfl
  | cons c rest => exact strtoulLoop_cons_of_none hend

/-- **When numbers are parsed as they should be.** The character after the longest run of valid
digits must be neither a letter nor a digit, for the loop would read on over it. -/
theorem strtoul_longest_iff (str : List UInt8) (base : ℕ) :
    ParsesLongest str base ↔ digitValue (peek (afterDigits str base)) = none := by
  refine ⟨fun h => ?_, parsesLongest_of_end⟩
  rw [ParsesLongest, strtoul_eq_after] at h
  cases hrest : afterDigits str base with
  | nil => decide
  | cons c rest =>
    rw [peek, List.headD_cons]
    cases hd : digitValue c with
    | none => rfl
    | some d =>
      -- the loop takes `c` as well, and does not come back to it
      rw [hrest, strtoulLoop_cons_of_some hd] at h
      have hlen := length_strtoulLoop_le (radix str base).1
        ((numeral (radix str base).1 ((radix str base).2.takeWhile (validDigit (radix str base).1)) %
          2 ^ 64 * (radix str base).1 + d) % 2 ^ 64) rest
      rw [h, List.length_cons] at hlen
      omega

/-- The letter after `12` is read as a decimal digit 13. -/
theorem not_parsesLongest_letter : ¬ParsesLongest (['1', '2', 'd'].map ch) 10 := by
  rw [ParsesLongest]
  decide

end Format

end Kernel64
