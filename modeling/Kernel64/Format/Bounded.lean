import Kernel64.Format.Output
import Mathlib.Data.List.GetD

/-!
# Bounded formatting

`vsnprintf` writes what `vsinkprintf` puts out into a buffer of `size` bytes and counts on when the
buffer is full. `Written` is what has been written after part of the output, at any place where the
output is cut into writes. The final NUL goes to the index before the end or after the output,
whichever is lower; for a buffer of no bytes that is the index -1 (`vsnprintf_iff`).
-/

namespace Kernel64

namespace Format

/-! ### The counters -/

/-- A count below `2 ^ 31` as an `int`. -/
theorem toInt_count {n : ℕ} (h : n < 2 ^ 31) : (BitVec.ofNat 32 n).toInt = n := toInt32_eq_iff.2 h

/-- Differences of `int`s that are in range. -/
theorem toInt_sub_of_range {x y : BitVec 32} (hlow : -2 ^ 31 ≤ x.toInt - y.toInt)
    (hhigh : x.toInt - y.toInt < 2 ^ 31) : (x - y).toInt = x.toInt - y.toInt := by
  rw [BitVec.toInt_sub, Int.bmod_def]
  omega

theorem toInt_last {n : ℕ} (h : n < 2 ^ 31) :
    (BitVec.ofNat 32 n - 1#32).toInt = (n : ℤ) - 1 := by
  have hn := toInt_count h
  have hone : (1#32 : BitVec 32).toInt = 1 := by decide
  rw [toInt_sub_of_range (by omega) (by omega), hn, hone]

/-- The room that is left, with one byte set aside for the NUL. -/
theorem toInt_remain {n p : ℕ} (hn : n < 2 ^ 31) (hp : p < 2 ^ 31) :
    (BitVec.ofNat 32 n - 1#32 - BitVec.ofNat 32 p).toInt = (n : ℤ) - 1 - p := by
  have hlast := toInt_last hn
  have hpos := toInt_count hp
  rw [toInt_sub_of_range (by omega) (by omega), hlast, hpos]

/-! ### Writing -/

/-- Memory with the bytes of a list from `i` on. -/
def withBytes (mem : ℤ → UInt8) (i : ℤ) (data : List UInt8) : ℤ → UInt8 := fun j =>
  if i ≤ j ∧ j < i + data.length then data.getD (j - i).toNat 0 else mem j

theorem withBytes_nil (mem : ℤ → UInt8) (i : ℤ) : withBytes mem i [] = mem := by
  funext j
  rw [withBytes, if_neg (by simp only [List.length_nil]; omega)]

/-- Writing on behind what has been written. -/
theorem withBytes_append (mem : ℤ → UInt8) (i : ℤ) (l l' : List UInt8) :
    withBytes (withBytes mem i l) (i + l.length) l' = withBytes mem i (l ++ l') := by
  funext j
  simp only [withBytes, List.length_append]
  by_cases hj : i ≤ j ∧ j < i + l.length
  · have hlt : (j - i).toNat < l.length := by omega
    rw [if_neg (by omega), if_pos hj, if_pos (by omega), List.getD_append _ _ _ _ hlt]
  · by_cases hj' : i + l.length ≤ j ∧ j < i + l.length + l'.length
    · have hle : l.length ≤ (j - i).toNat := by omega
      rw [if_pos hj', if_pos (by omega), List.getD_append_right _ _ _ _ hle]
      congr 1
      omega
    · rw [if_neg hj', if_neg hj, if_neg (by omega)]

theorem ensures_putByte {i : ℤ} {c : UInt8} {s : BufferSink} {Q : Unit → BufferSink → Prop} :
    Ensures (putByte i c) s Q ↔
      (0 ≤ i ∧ i < s.room) ∧ Q () { s with mem := Function.update s.mem i c } := by
  rw [putByte, ensures_bind, ensures_get, ensures_ite]
  by_cases h : 0 ≤ i ∧ i < s.room <;> simp [h]

/-- A copy into the buffer. -/
theorem ensures_putBytes : ∀ {data : List UInt8} {i : ℤ} {s : BufferSink}, 0 ≤ i →
    i + data.length ≤ s.room →
    Ensures (putBytes i data) s fun _ s' => s' = { s with mem := withBytes s.mem i data }
  | [], i, s, _, _ => by
    rw [putBytes, ensures_pure, withBytes_nil]
  | c :: data, i, s, hi, hroom => by
    rw [List.length_cons] at hroom
    rw [putBytes, ensures_bind, ensures_putByte]
    refine ⟨by omega, (ensures_putBytes (by omega) (by simp only; omega)).mono ?_⟩
    rintro - s' rfl
    have hone : Function.update s.mem i c = withBytes s.mem i [c] := by
      funext j
      by_cases hj : j = i
      · subst hj
        simp [withBytes]
      · rw [Function.update_of_ne hj, withBytes,
          if_neg (by simp only [List.length_singleton]; omega)]
    have happend := withBytes_append s.mem i [c] data
    rw [List.singleton_append, List.length_singleton, Nat.cast_one] at happend
    simp only [hone, happend]

/-! ### The writes of a run -/

/-- The buffer of `n` bytes after the output `out`: the bytes that fit before the last one are
there, and all of them are counted. -/
structure Written (mem : ℤ → UInt8) (n : ℕ) (out : List UInt8) (s : BufferSink) : Prop where
  mem : s.mem = withBytes mem 0 (out.take (n - 1))
  room : s.room = n
  size : s.size = BitVec.ofNat 32 n
  pos : s.pos = BitVec.ofNat 32 out.length

section

variable {mem : ℤ → UInt8} {n : ℕ}

/-- **One write**, wherever it begins and ends. -/
theorem Written.ensures_bufferWrite (hn : n < 2 ^ 31) {out data : List UInt8} {s : BufferSink}
    (h : Written mem n out s) (hlen : out.length + data.length < 2 ^ 31) :
    Ensures (bufferWrite data) s fun _ s' => Written mem n (out ++ data) s' := by
  have hout : out.length < 2 ^ 31 := by omega
  have hremain := toInt_remain hn hout
  have hpos : s.pos + BitVec.ofNat 32 data.length = BitVec.ofNat 32 (out ++ data).length := by
    rw [h.pos, List.length_append, BitVec.ofNat_add]
  rw [bufferWrite, ensures_bind, ensures_get]
  dsimp only
  rw [h.size, h.pos, hremain, toInt_count hout]
  by_cases hfull : (max ((n : ℤ) - 1 - out.length) 0).toNat = 0
  · -- the buffer is full, and nothing more of the output is kept
    rw [if_neg (not_not.2 hfull), ensures_modify]
    refine ⟨?_, h.room, h.size, hpos⟩
    rw [h.mem, List.take_append_of_le_length (by omega)]
  · have hfits : out.length < n - 1 := by omega
    have hcount : (max ((n : ℤ) - 1 - out.length) 0).toNat = n - 1 - out.length := by omega
    rw [if_pos hfull, hcount, ensures_bind]
    have hbound : ((out.length : ℕ) : ℤ) +
        (data.take (min (n - 1 - out.length) data.length)).length ≤ s.room := by
      rw [h.room, List.length_take]
      omega
    refine (ensures_putBytes (Int.natCast_nonneg _) hbound).mono ?_
    rintro - s' rfl
    rw [ensures_modify]
    refine ⟨?_, h.room, h.size, hpos⟩
    have htake : out.take (n - 1) = out := List.take_of_length_le hfits.le
    have hdata : data.take (min (n - 1 - out.length) data.length) =
        data.take (n - 1 - out.length) := by
      rw [← List.take_take, List.take_length]
    have happend := withBytes_append mem 0 out (data.take (n - 1 - out.length))
    rw [Int.zero_add] at happend
    simp only
    rw [h.mem, htake, hdata, happend, List.take_append, htake]

/-- The writes of a run, however the output is cut. -/
theorem Written.ensures_bufferWrites (hn : n < 2 ^ 31) :
    ∀ {out : List (List UInt8)} {before : List UInt8} {s : BufferSink}, Written mem n before s →
      before.length + out.flatten.length < 2 ^ 31 →
      Ensures (bufferWrites out) s fun _ s' => Written mem n (before ++ out.flatten) s'
  | [], before, s, h, _ => by
    rw [bufferWrites, ensures_pure, List.flatten_nil, List.append_nil]
    exact h
  | data :: out, before, s, h, hlen => by
    rw [List.flatten_cons, List.length_append] at hlen
    rw [bufferWrites, ensures_bind]
    refine (h.ensures_bufferWrite hn (by omega)).mono fun _ s' h' => ?_
    rw [List.flatten_cons, ← List.append_assoc]
    exact Written.ensures_bufferWrites hn h' (by rw [List.length_append]; omega)

/-! ### The NUL -/

/-- The buffer of `n` bytes holds the output as far as it fits, and a NUL after it if it has a byte. -/
structure Terminated (mem : ℤ → UInt8) (n : ℕ) (out : List UInt8) (s : BufferSink) : Prop where
  text : ∀ i (h : i < out.length), i < n - 1 → s.mem i = out[i]
  nul : 1 ≤ n → s.mem (min out.length (n - 1) : ℕ) = 0
  outside : ∀ i : ℤ, i < 0 ∨ n ≤ i → s.mem i = mem i

/-- The output ends in a NUL inside the buffer, when the buffer has a byte. -/
theorem ensures_vsnprintfFrom_iff (hn : n < 2 ^ 31) {out : List (List UInt8)}
    (hlen : out.flatten.length < 2 ^ 31) :
    Ensures (vsnprintfFrom out) ⟨mem, n, BitVec.ofNat 32 n, 0#32⟩ (fun r s =>
      r = out.flatten.length ∧ Terminated mem n out.flatten s) ↔ 1 ≤ n := by
  have hstart : Written mem n [] ⟨mem, n, BitVec.ofNat 32 n, 0#32⟩ :=
    ⟨by rw [List.take_nil, withBytes_nil], rfl, rfl, rfl⟩
  obtain ⟨u, s, hrun, hwritten⟩ := hstart.ensures_bufferWrites hn
    (by rwa [List.length_nil, Nat.zero_add])
  rw [List.nil_append] at hwritten
  have hbounds : Ensures (vsnprintfFrom out) ⟨mem, n, BitVec.ofNat 32 n, 0#32⟩ (fun r s =>
      r = out.flatten.length ∧ Terminated mem n out.flatten s) ↔
      (0 ≤ min ((n : ℤ) - 1) out.flatten.length ∧ min ((n : ℤ) - 1) out.flatten.length < n) ∧
        Terminated mem n out.flatten
          { s with mem := Function.update s.mem (min ((n : ℤ) - 1) out.flatten.length) 0 } := by
    rw [vsnprintfFrom, Ensures, bind_of_run hrun, ← Ensures, ensures_bind, ensures_get, ensures_bind,
      ensures_putByte, hwritten.size, hwritten.pos, toInt_last hn, toInt_count hlen, hwritten.room]
    simp only [ensures_pure, true_and]
  rw [hbounds]
  constructor
  · rintro ⟨hmin, -⟩
    omega
  · intro hone
    refine ⟨by omega, fun i hi hlast => ?_, fun _ => ?_, fun i hi => ?_⟩
    · simp only
      rw [Function.update_of_ne (by omega), hwritten.mem, withBytes, Int.sub_zero, Int.toNat_natCast,
        if_pos (by rw [List.length_take]; omega), List.getD_eq_getElem?_getD,
        List.getElem?_take_of_lt hlast, List.getElem?_eq_getElem hi, Option.getD_some]
    · have hindex : ((min out.flatten.length (n - 1) : ℕ) : ℤ) =
          min ((n : ℤ) - 1) out.flatten.length := by omega
      simp only
      rw [hindex, Function.update_self]
    · simp only
      rw [Function.update_of_ne (by omega), hwritten.mem, withBytes,
        if_neg (by rw [List.length_take]; omega)]

end

/-! ### The contract -/

/-- **When formatting is bounded**: `vsnprintf` stays inside its buffer, leaves there what fits with a
NUL after it, and returns the length of the output, exactly when the buffer has a byte. -/
theorem vsnprintf_iff (env : Env) (fuel : ℕ) (mem : ℤ → UInt8) (n : ℕ) (fmt : List UInt8)
    (printed : PrintState) (hn : n < 2 ^ 31)
    (hrun : vsinkprintf env fuel fmt ⟨[], 0⟩ = .ok ((), printed))
    (hlen : printed.out.flatten.length < 2 ^ 31) :
    (∃ s, vsnprintf env fuel mem n fmt = .ok ((printed.out.flatten.length : ℤ), s) ∧
      Terminated mem n printed.out.flatten s) ↔ 1 ≤ n := by
  rw [← @ensures_vsnprintfFrom_iff mem n hn printed.out hlen]
  have hprint : vsnprintf env fuel mem n fmt =
      vsnprintfFrom printed.out ⟨mem, n, BitVec.ofNat 32 n, 0#32⟩ := by
    rw [vsnprintf, hrun]
    rfl
  rw [hprint]
  constructor
  · rintro ⟨s, hs, hterminated⟩
    exact ⟨_, s, hs, rfl, hterminated⟩
  · rintro ⟨r, s, hs, rfl, hterminated⟩
    exact ⟨s, hs, hterminated⟩

/-- A caller that passes nothing. -/
def noArgs : Env := ⟨fun _ => 0#64, fun _ => [], fun _ => 0⟩

/-- The format `ab` in a buffer of two bytes. -/
theorem vsnprintf_two :
    ∃ s, vsnprintf noArgs 2 (fun _ => 255) 2 [ch 'a', ch 'b'] = .ok (2, s) ∧
      Terminated (fun _ => 255) 2 [ch 'a', ch 'b'] s :=
  (vsnprintf_iff noArgs 2 (fun _ => 255) 2 [ch 'a', ch 'b'] ⟨[[ch 'a', ch 'b']], 0⟩ (by decide) rfl
    (by decide)).2 (by decide)

/-- In a buffer of no bytes, the NUL is written before its start. -/
theorem not_vsnprintf_none :
    ¬∃ s, vsnprintf noArgs 2 (fun _ => 255) 0 [ch 'a', ch 'b'] = .ok (2, s) ∧
      Terminated (fun _ => 255) 0 [ch 'a', ch 'b'] s := by
  rintro ⟨s, hrun, -⟩
  have hfault : vsnprintf noArgs 2 (fun _ => 255) 0 [ch 'a', ch 'b'] = .error .bounds := rfl
  rw [hfault] at hrun
  exact nomatch hrun

end Format

end Kernel64
