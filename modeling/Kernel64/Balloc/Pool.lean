import Kernel64.Balloc.Model
import Mathlib.Data.List.Pairwise

/-!
# Pools as sets of addresses

A pool holds areas in order with a gap between any two (`PoolOk`), and stands for the addresses they
cover. Inserting a range makes its addresses covered, whatever areas it touches, and deleting a range
that lies in one area uncovers exactly that range. Both replace a run of areas by some new ones
(`Splices`).
-/

namespace Kernel64

namespace Balloc

/-- The end of an area, as a number. -/
def Area.fin (a : Area) : ℕ := a.addr + a.size

/-- An area with addresses, all of 64 bits. -/
structure Area.Valid (a : Area) : Prop where
  pos : 0 < a.size
  le : a.fin ≤ 2 ^ 64

/-- An area with addresses, whose end is a 64-bit number. -/
structure Area.Ok (a : Area) : Prop where
  pos : 0 < a.size
  lt : a.fin < 2 ^ 64

/-- The address is in the area. -/
def Area.Has (a : Area) (x : ℕ) : Prop := a.addr ≤ x ∧ x < a.fin

/-- The areas are in order, with a gap between any two. -/
structure Pool.Sorted (p : Pool) : Prop where
  size_le : p.size ≤ maxAreasCount
  area : ∀ i < p.size, (p.areas i).Valid
  gap : ∀ i j, i < j → j < p.size → (p.areas i).fin < (p.areas j).addr

/-- **A pool in order**, with a gap between any two areas, and behind the last one. -/
structure PoolOk (p : Pool) : Prop where
  size_le : p.size ≤ maxAreasCount
  area : ∀ i < p.size, (p.areas i).Ok
  gap : ∀ i j, i < j → j < p.size → (p.areas i).fin < (p.areas j).addr

/-- The address is in one of the areas. -/
def Pool.Covers (p : Pool) (x : ℕ) : Prop := ∃ i < p.size, (p.areas i).Has x

/-- The last area ends at `2 ^ 64`, so that the sum for its end is 0. -/
def Pool.Wraps (p : Pool) : Prop := 0 < p.size ∧ (p.areas (p.size - 1)).fin = 2 ^ 64

/-- The search for an address does not go by the end of an area that wraps: it has found its place before
it comes to the last area. -/
def Pool.Finds (p : Pool) (addr : ℕ) : Prop :=
  p.Wraps → addr = 0 ∨ ∃ i, i + searchTail p.size < p.size ∧ addr ≤ (p.areas i).fin

section

variable {p p' : Pool} {addr size i j x first last : ℕ} {a : Area}

theorem Area.Ok.stop_eq (h : a.Ok) : a.stop = a.fin := Nat.mod_eq_of_lt h.lt

theorem Area.Ok.addr_lt (h : a.Ok) : a.addr < a.fin := Nat.lt_add_of_pos_right h.pos

theorem sub64_eq {a b : ℕ} (h : b ≤ a) (ha : a < 2 ^ 64) : sub64 a b = a - b := by
  rw [sub64]
  omega

theorem add64_eq {a b : ℕ} (h : a + b < 2 ^ 64) : add64 a b = a + b := Nat.mod_eq_of_lt h

/-! ### Searching -/

theorem Area.Ok.valid (h : a.Ok) : a.Valid := ⟨h.pos, Nat.le_of_lt h.lt⟩

theorem Area.Valid.addr_lt (h : a.Valid) : a.addr < a.fin := Nat.lt_add_of_pos_right h.pos

theorem PoolOk.sorted (h : PoolOk p) : p.Sorted := ⟨h.size_le, fun i hi => (h.area i hi).valid, h.gap⟩

theorem PoolOk.not_wraps (h : PoolOk p) : ¬p.Wraps := fun ⟨hpos, hfin⟩ =>
  Nat.ne_of_lt (h.area (p.size - 1) (by omega)).lt hfin

theorem PoolOk.finds (h : PoolOk p) (addr : ℕ) : p.Finds addr := fun hw => absurd hw h.not_wraps

/-- Only the last area may wrap. -/
theorem Pool.Sorted.fin_lt (h : p.Sorted) (hi : i < p.size) (hne : p.Wraps → i + 1 ≠ p.size) :
    (p.areas i).fin < 2 ^ 64 := by
  by_cases hlast : i + 1 = p.size
  · refine Nat.lt_of_le_of_ne (h.area i hi).le fun hfin => hne ⟨by omega, ?_⟩ hlast
    rw [← hlast, Nat.add_sub_cancel]
    exact hfin
  · have := h.gap i (i + 1) (Nat.lt_succ_self i) (by omega)
    have := (h.area (i + 1) (by omega)).addr_lt
    have := (h.area (i + 1) (by omega)).le
    omega

theorem stop_eq_of_lt (h : a.fin < 2 ^ 64) : a.stop = a.fin := Nat.mod_eq_of_lt h

theorem stop_eq_zero (h : a.fin = 2 ^ 64) : a.stop = 0 := by
  change a.fin % 2 ^ 64 = 0
  rw [h, Nat.mod_self]

theorem Pool.Sorted.poolOk (h : p.Sorted) (hw : ¬p.Wraps) : PoolOk p :=
  ⟨h.size_le, fun i hi => ⟨(h.area i hi).pos, h.fin_lt hi fun hc => absurd hc hw⟩, h.gap⟩

/-- A pool that covers no more than one in order is in order. -/
theorem Pool.Sorted.poolOk_of_covers (h : p.Sorted) (hlt : ∀ x, p.Covers x → x + 1 < 2 ^ 64) : PoolOk p := by
  refine h.poolOk fun ⟨hpos, hfin⟩ => ?_
  have := (h.area (p.size - 1) (by omega)).addr_lt
  have := hlt (2 ^ 64 - 1) ⟨p.size - 1, by omega, by omega, by omega⟩
  omega

theorem PoolOk.covers_lt (h : PoolOk p) (hx : p.Covers x) : x + 1 < 2 ^ 64 := by
  obtain ⟨i, hi, -, hlt⟩ := hx
  have := (h.area i hi).lt
  omega

/-- Ends are in order, too. -/
theorem Pool.Sorted.fin_mono (h : p.Sorted) (hij : i ≤ j) (hj : j < p.size) :
    (p.areas i).fin ≤ (p.areas j).fin := by
  rcases Nat.eq_or_lt_of_le hij with rfl | hij
  · exact Nat.le_refl _
  · have := h.gap i j hij hj
    have := (h.area j hj).addr_lt
    omega

/-- **`balloc_lower_bound`** is the first area that ends at the address or later. -/
theorem Pool.Sorted.lowerBound (h : p.Sorted) (hf : p.Finds addr) :
    ballocLowerBound p addr ≤ p.size ∧
    (∀ i < ballocLowerBound p addr, (p.areas i).fin < addr) ∧
    ∀ i, ballocLowerBound p addr ≤ i → i < p.size → addr ≤ (p.areas i).fin := by
  have hmono : ∀ i j, 0 ≤ i → i ≤ j → j < p.size → decide ((p.areas j).fin < addr) = true →
      decide ((p.areas i).fin < addr) = true := fun i j _ hij hj hlt => by
    rw [decide_eq_true_iff] at hlt ⊢
    exact Nat.lt_of_le_of_lt (h.fin_mono hij hj) hlt
  have hagree : ∀ i < p.size, (p.Wraps → i + 1 ≠ p.size) →
      decide ((p.areas i).stop < addr) = decide ((p.areas i).fin < addr) := fun i hi hne => by
    rw [stop_eq_of_lt (h.fin_lt hi hne)]
  have heq : ballocLowerBound p addr = bisect (fun i => decide ((p.areas i).fin < addr)) p.size 0 p.size := by
    by_cases hw : p.Wraps
    · rcases hf hw with rfl | ⟨j, hj, hle⟩
      · exact bisect_congr fun i _ _ => by
          rw [decide_eq_false (Nat.not_lt_zero _), decide_eq_false (Nat.not_lt_zero _)]
      · exact bisect_eq_of_false (fun i _ hi => hagree i (by omega) fun _ => by omega) hmono (Nat.zero_le j)
          hj (decide_eq_false (Nat.not_lt.2 hle))
    · exact bisect_congr fun i _ hi => hagree i hi fun hc => absurd hc hw
  have hch : ChangesAt (fun i => decide ((p.areas i).fin < addr)) 0 p.size (ballocLowerBound p addr) := by
    rw [heq]
    exact changesAt_bisect (Nat.zero_le p.size) le_rfl hmono
  refine ⟨hch.le_right, fun i hi => ?_, fun i h₁ h₂ => ?_⟩
  · exact decide_eq_true_iff.1 (hch.before i (Nat.zero_le i) hi)
  · exact Nat.not_lt.1 (of_decide_eq_false (hch.after i h₁ h₂))

theorem PoolOk.lowerBound (h : PoolOk p) (addr : ℕ) :
    ballocLowerBound p addr ≤ p.size ∧
    (∀ i < ballocLowerBound p addr, (p.areas i).fin < addr) ∧
    ∀ i, ballocLowerBound p addr ≤ i → i < p.size → addr ≤ (p.areas i).fin :=
  h.sorted.lowerBound (h.finds addr)

/-- A search that comes to an area that wraps passes over all areas. -/
theorem Pool.Sorted.lowerBound_of_not_finds (h : p.Sorted) (hf : ¬p.Finds addr) :
    ballocLowerBound p addr = p.size := by
  rw [Pool.Finds] at hf
  push Not at hf
  obtain ⟨hw, hpos, hbefore⟩ := hf
  refine bisect_eq_right (Nat.zero_le _) le_rfl (fun i _ hi => decide_eq_true ?_) fun _ => decide_eq_true ?_
  · rw [Nat.sub_zero] at hi
    have htail := searchTail_pos hw.1
    have hlt := hbefore i hi
    rwa [stop_eq_of_lt (h.fin_lt (by omega) fun _ => by omega)]
  · rw [stop_eq_zero hw.2]
    exact Nat.pos_of_ne_zero hpos

/-- **`balloc_upper_bound`** is the first area that begins after the address. -/
theorem Pool.Sorted.upperBound (h : p.Sorted) (addr : ℕ) :
    ballocUpperBound p addr ≤ p.size ∧
    (∀ i < ballocUpperBound p addr, (p.areas i).addr ≤ addr) ∧
    ∀ i, ballocUpperBound p addr ≤ i → i < p.size → addr < (p.areas i).addr := by
  have htest : ∀ i, (!decide ((p.areas i).addr > addr)) = true ↔ (p.areas i).addr ≤ addr := fun i => by
    rw [Bool.not_eq_true', decide_eq_false_iff_not, not_lt]
  have hch : ChangesAt (fun mid => !decide ((p.areas mid).addr > addr)) 0 p.size
      (ballocUpperBound p addr) :=
    changesAt_bisect (Nat.zero_le p.size) le_rfl fun i j _ hij hj hle => by
      rw [htest] at hle ⊢
      rcases Nat.eq_or_lt_of_le hij with rfl | hij
      · exact hle
      · have := h.gap i j hij hj
        have := (h.area i (by omega)).addr_lt
        omega
  refine ⟨hch.le_right, fun i hi => ?_, fun i h₁ h₂ => ?_⟩
  · exact (htest i).1 (hch.before i (Nat.zero_le i) hi)
  · have hnot := hch.after i h₁ h₂
    by_contra hc
    rw [(htest i).2 (by omega)] at hnot
    exact nomatch hnot

/-! ### Replacing a run of areas -/

/-- The areas from `first` to `last` are replaced by those of a list. -/
structure Splices (p : Pool) (first last : ℕ) (l : List Area) (p' : Pool) : Prop where
  le : first ≤ last
  le_size : last ≤ p.size
  size : p'.size = first + l.length + (p.size - last)
  before : ∀ i < first, p'.areas i = p.areas i
  inside : ∀ i a, l[i]? = some a → p'.areas (first + i) = a
  after : ∀ i, last + i < p.size → p'.areas (first + l.length + i) = p.areas (last + i)

/-- Where an area of the new pool comes from. -/
theorem Splices.cases {l : List Area} (h : Splices p first last l p') (hi : i < p'.size) :
    (i < first ∧ p'.areas i = p.areas i) ∨
    (∃ k a, l[k]? = some a ∧ i = first + k ∧ p'.areas i = a) ∨
    ∃ k, last + k < p.size ∧ i = first + l.length + k ∧ p'.areas i = p.areas (last + k) := by
  rcases Nat.lt_or_ge i first with h₁ | h₁
  · exact Or.inl ⟨h₁, h.before i h₁⟩
  · rcases Nat.lt_or_ge i (first + l.length) with h₂ | h₂
    · have hk : i - first < l.length := by omega
      have hget := List.getElem?_eq_getElem hk
      have harea := h.inside _ _ hget
      rw [show first + (i - first) = i by omega] at harea
      exact Or.inr (Or.inl ⟨i - first, _, hget, by omega, harea⟩)
    · have hsize := h.size
      have harea := h.after (i - (first + l.length)) (by omega)
      rw [show first + l.length + (i - (first + l.length)) = i by omega] at harea
      exact Or.inr (Or.inr ⟨i - (first + l.length), by omega, by omega, harea⟩)

/-- The new areas fit between the ones around them. -/
structure Between (p : Pool) (first last : ℕ) (l : List Area) : Prop where
  area : ∀ a ∈ l, a.Valid
  gap : l.Pairwise fun a b => a.fin < b.addr
  before : ∀ i < first, ∀ a ∈ l, (p.areas i).fin < a.addr
  after : ∀ i, last ≤ i → i < p.size → ∀ a ∈ l, a.fin < (p.areas i).addr

/-- **Replacing areas** keeps a pool in order. -/
theorem Pool.Sorted.splices {l : List Area} (h : p.Sorted) (hs : Splices p first last l p')
    (hb : Between p first last l) (hsize : p'.size ≤ maxAreasCount) : p'.Sorted := by
  have hle := hs.le
  have hle' := hs.le_size
  refine ⟨hsize, fun i hi => ?_, fun i j hij hj => ?_⟩
  · rcases hs.cases hi with ⟨h₁, h₂⟩ | ⟨k, a, hk, -, h₂⟩ | ⟨k, hk, -, h₂⟩
    · rw [h₂]
      exact h.area i (by omega)
    · rw [h₂]
      exact hb.area a (List.mem_of_getElem? hk)
    · rw [h₂]
      exact h.area _ hk
  · rcases hs.cases (i := i) (by omega) with ⟨h₁, h₂⟩ | ⟨k, a, hk, h₁, h₂⟩ | ⟨k, hk, h₁, h₂⟩ <;>
      rcases hs.cases hj with ⟨h₃, h₄⟩ | ⟨m, b, hm, h₃, h₄⟩ | ⟨m, hm, h₃, h₄⟩
    · rw [h₂, h₄]
      exact h.gap i j hij (by omega)
    · rw [h₂, h₄]
      exact hb.before i h₁ b (List.mem_of_getElem? hm)
    · rw [h₂, h₄]
      exact h.gap i (last + m) (by omega) hm
    · omega
    · rw [h₂, h₄]
      obtain ⟨hk', rfl⟩ := List.getElem?_eq_some_iff.1 hk
      obtain ⟨hm', rfl⟩ := List.getElem?_eq_some_iff.1 hm
      exact List.pairwise_iff_getElem.1 hb.gap k m hk' hm' (by omega)
    · rw [h₂, h₄]
      exact hb.after _ (by omega) hm a (List.mem_of_getElem? hk)
    · omega
    · have := (List.getElem?_eq_some_iff.1 hm).1
      omega
    · rw [h₂, h₄]
      exact h.gap (last + k) (last + m) (by omega) hm

/-- The addresses after areas have been replaced. -/
theorem Splices.covers {l : List Area} (h : Splices p first last l p') :
    p'.Covers x ↔ (∃ a ∈ l, a.Has x) ∨
      ∃ i < p.size, (i < first ∨ last ≤ i) ∧ (p.areas i).Has x := by
  have hle := h.le
  have hle' := h.le_size
  have hsize := h.size
  constructor
  · intro ⟨i, hi, hx⟩
    rcases h.cases hi with ⟨h₁, h₂⟩ | ⟨k, a, hk, -, h₂⟩ | ⟨k, hk, -, h₂⟩
    · rw [h₂] at hx
      exact Or.inr ⟨i, by omega, Or.inl h₁, hx⟩
    · rw [h₂] at hx
      exact Or.inl ⟨a, List.mem_of_getElem? hk, hx⟩
    · rw [h₂] at hx
      exact Or.inr ⟨last + k, hk, Or.inr (by omega), hx⟩
  · rintro (⟨a, ha, hx⟩ | ⟨i, hi, h₁ | h₁, hx⟩)
    · obtain ⟨k, hk, rfl⟩ := List.getElem_of_mem ha
      refine ⟨first + k, by omega, ?_⟩
      rw [h.inside k _ (List.getElem?_eq_getElem hk)]
      exact hx
    · refine ⟨i, by omega, ?_⟩
      rw [h.before i h₁]
      exact hx
    · refine ⟨first + l.length + (i - last), by omega, ?_⟩
      rw [h.after (i - last) (by omega), show last + (i - last) = i by omega]
      exact hx

/-! ### Rules -/

theorem ensures_areaAt {Q : Area → Pool → Prop} (hi : i < maxAreasCount) :
    Ensures (areaAt i) p Q ↔ Q (p.areas i) p := by
  rw [areaAt, if_pos hi]
  simp only [ensures_bind, ensures_get, ensures_pure]

theorem ensures_setArea {Q : Unit → Pool → Prop} (hi : i < maxAreasCount) :
    Ensures (setArea i a) p Q ↔ Q () { p with areas := Function.update p.areas i a } := by
  rw [setArea, if_pos hi, ensures_modify]

theorem ensures_memmove {dst src : ℕ} {count : ℤ} {n : ℕ} {Q : Unit → Pool → Prop}
    (hcount : count = n) (hle : max dst src + n ≤ maxAreasCount) :
    Ensures (memmove dst src count) p Q ↔
      Q () { p with areas := blockMove p.areas dst src n } := by
  subst hcount
  rw [memmove, if_neg (by rw [Int.toNat_natCast]; omega), Int.toNat_natCast]
  by_cases hlt : src < dst
  · rw [if_pos hlt, ensures_modify, copyDown_eq (Nat.le_of_lt hlt)]
  · rw [if_neg hlt, ensures_modify, copyUp_eq (by omega)]

/-! ### Inserting -/

/-- A range has been added to the addresses. -/
structure Inserted (addr size : ℕ) (p p' : Pool) : Prop where
  ok : PoolOk p'
  size_le : p'.size ≤ p.size + 1
  covers : ∀ x, p'.Covers x ↔ p.Covers x ∨ (addr ≤ x ∧ x < addr + size)

/-- A range has been taken out of the addresses. -/
structure Taken (addr size : ℕ) (p p' : Pool) : Prop where
  sorted : p'.Sorted
  size_le : p'.size ≤ p.size + 1
  covers : ∀ x, p'.Covers x ↔ p.Covers x ∧ ¬(addr ≤ x ∧ x < addr + size)

/-- A range has been taken out of the addresses of a pool in order. -/
structure Deleted (addr size : ℕ) (p p' : Pool) : Prop where
  ok : PoolOk p'
  size_le : p'.size ≤ p.size + 1
  covers : ∀ x, p'.Covers x ↔ p.Covers x ∧ ¬(addr ≤ x ∧ x < addr + size)

/-- Where the areas that touch a range begin and end. -/
theorem Pool.Sorted.bounds_le (h : p.Sorted) (hf : p.Finds addr) {stop : ℕ} (hle : addr ≤ stop) :
    ballocLowerBound p addr ≤ ballocUpperBound p stop := by
  obtain ⟨h₁, h₂, -⟩ := h.lowerBound hf
  obtain ⟨-, -, h₃⟩ := h.upperBound stop
  by_contra hc
  have hfin := h₂ (ballocUpperBound p stop) (by omega)
  have haddr := h₃ (ballocUpperBound p stop) (Nat.le_refl _) (by omega)
  have := (h.area (ballocUpperBound p stop) (by omega)).addr_lt
  omega

/-- The pool after the last steps of inserting. -/
theorem splices_insert (hle : first ≤ last) (hle' : last ≤ p.size) :
    Splices p first last [a]
      ⟨Function.update (if first + 1 ≠ last then blockMove p.areas (first + 1) last (p.size - last)
          else p.areas) first a, p.size + first + 1 - last⟩ := by
  have hmoved : ∀ i, last + i < p.size → (if first + 1 ≠ last then
      blockMove p.areas (first + 1) last (p.size - last) else p.areas) (first + 1 + i) =
      p.areas (last + i) := by
    intro i hi
    by_cases hne : first + 1 ≠ last
    · rw [if_pos hne, blockMove, if_pos (by omega), show first + 1 + i - (first + 1) = i by omega]
    · rw [if_neg hne, show first + 1 = last by omega]
  refine ⟨hle, hle', by simp only [List.length_cons, List.length_nil]; omega, fun i hi => ?_,
    fun i b hb => ?_, fun i hi => ?_⟩
  · simp only
    rw [Function.update_of_ne (by omega)]
    by_cases hne : first + 1 ≠ last
    · rw [if_pos hne, blockMove, if_neg (by omega)]
    · rw [if_neg hne]
  · obtain ⟨rfl, rfl⟩ : i = 0 ∧ b = a := by
      cases i with
      | zero => exact ⟨rfl, (Option.some_inj.1 hb).symm⟩
      | succ i => simp at hb
    exact Function.update_self _ _ _
  · simp only [List.length_cons, List.length_nil]
    rw [Function.update_of_ne (by omega)]
    exact hmoved i hi

/-- The area that takes the place of those a range touches. -/
def merged (p : Pool) (addr stop first last : ℕ) : Area :=
  if first ≠ last then
    let lo := if (p.areas first).addr < addr then (p.areas first).addr else addr
    let hi := if stop < (p.areas (last - 1)).fin then (p.areas (last - 1)).fin else stop
    ⟨lo, hi - lo⟩
  else ⟨addr, stop - addr⟩

/-- The merged area covers the range and the areas it touches, and no more. -/
theorem PoolOk.merged_spec (h : PoolOk p) (hpos : 0 < size) (hlt : addr + size < 2 ^ 64)
    (hlast : last ≤ p.size) (hle : first ≤ last)
    (hbefore : ∀ i < first, (p.areas i).fin < addr)
    (hfrom : ∀ i, first ≤ i → i < p.size → addr ≤ (p.areas i).fin)
    (hupto : ∀ i < last, (p.areas i).addr ≤ addr + size)
    (hafter : ∀ i, last ≤ i → i < p.size → addr + size < (p.areas i).addr) :
    (merged p addr (addr + size) first last).Ok ∧
      Between p first last [merged p addr (addr + size) first last] ∧
      ∀ x, (merged p addr (addr + size) first last).Has x ↔ (addr ≤ x ∧ x < addr + size) ∨
        ∃ i, first ≤ i ∧ i < last ∧ (p.areas i).Has x := by
  by_cases hne : first = last
  · -- no area touches the range
    have hm : merged p addr (addr + size) first last = ⟨addr, size⟩ := by
      rw [merged, if_neg (fun hc => hc hne), Nat.add_sub_cancel_left]
    rw [hm]
    have hok : Area.Ok ⟨addr, size⟩ := ⟨hpos, hlt⟩
    refine ⟨hok, ⟨by simpa using hok.valid, List.pairwise_singleton _ _, by simpa using hbefore,
      fun i h₁ h₂ b hb => ?_⟩, fun x => ?_⟩
    · rw [List.mem_singleton.1 hb]
      exact hafter i h₁ h₂
    refine ⟨Or.inl, fun hx => hx.elim id fun ⟨i, h₁, h₂, _⟩ => absurd h₁ (by omega)⟩
  · have hlt' : first < last := by omega
    -- only the first and the last of the areas it touches stick out of it
    have hf := hfrom first (Nat.le_refl _) (by omega)
    have hl := hupto (last - 1) (by omega)
    have hfl : (p.areas first).addr ≤ (p.areas (last - 1)).addr ∧
        (p.areas first).fin ≤ (p.areas (last - 1)).fin := by
      rcases Nat.eq_or_lt_of_le (show first ≤ last - 1 by omega) with heq | hlt₁
      · rw [← heq]
        exact ⟨Nat.le_refl _, Nat.le_refl _⟩
      · have := h.gap first (last - 1) hlt₁ (by omega)
        have := (h.area first (by omega)).addr_lt
        have := (h.area (last - 1) (by omega)).addr_lt
        omega
    have hlok := h.area (last - 1) (by omega)
    obtain ⟨lo, hi, hm, hlo, hhi⟩ : ∃ lo hi, merged p addr (addr + size) first last = ⟨lo, hi - lo⟩ ∧
        lo = min (p.areas first).addr addr ∧ hi = max (addr + size) (p.areas (last - 1)).fin := by
      refine ⟨_, _, by rw [merged, if_pos hne], ?_, ?_⟩
      · split_ifs <;> omega
      · split_ifs <;> omega
    have hfin : (merged p addr (addr + size) first last).fin = hi := by
      rw [hm, Area.fin]
      simp only
      omega
    have haddr : (merged p addr (addr + size) first last).addr = lo := by rw [hm]
    -- what it touches ends before the next area and starts after the one before
    have hok : (merged p addr (addr + size) first last).Ok := by
      refine ⟨?_, ?_⟩
      · rw [hm]
        simp only
        omega
      · rw [hfin]
        have := hlok.lt
        omega
    refine ⟨hok, ⟨by simpa using hok.valid, List.pairwise_singleton _ _, fun i hi => ?_,
      fun i h₁ h₂ => ?_⟩, fun x => ?_⟩
    · intro b hb
      rw [List.mem_singleton.1 hb, haddr]
      have := hbefore i hi
      have := h.gap i first hi (by omega)
      omega
    · intro b hb
      rw [List.mem_singleton.1 hb, hfin]
      have := hafter i h₁ h₂
      have := h.gap (last - 1) i (by omega) h₂
      omega
    · rw [Area.Has, haddr, hfin]
      constructor
      · intro ⟨h₁, h₂⟩
        by_cases hx₁ : x < addr
        · exact Or.inr ⟨first, Nat.le_refl _, hlt', by omega, by omega⟩
        · by_cases hx₂ : x < addr + size
          · exact Or.inl ⟨by omega, hx₂⟩
          · exact Or.inr ⟨last - 1, by omega, by omega, by omega, by omega⟩
      · rintro (hx | ⟨i, h₁, h₂, hx⟩)
        · omega
        · have hfirst : (p.areas first).addr ≤ (p.areas i).addr := by
            rcases Nat.eq_or_lt_of_le h₁ with rfl | h₁
            · exact Nat.le_refl _
            · have := h.gap first i h₁ (by omega)
              have := (h.area first (by omega)).addr_lt
              omega
          have hlast' : (p.areas i).fin ≤ (p.areas (last - 1)).fin := by
            rcases Nat.eq_or_lt_of_le (show i ≤ last - 1 by omega) with heq | hlt₁
            · rw [← heq]
            · have := h.gap i (last - 1) hlt₁ (by omega)
              have := hlok.addr_lt
              omega
          obtain ⟨hx₁, hx₂⟩ := hx
          omega

/-- Reading the bounds of the merged area. -/
theorem PoolOk.ensures_mergeAreas (h : PoolOk p) {Q : ℕ × ℕ → Pool → Prop}
    (hlt : addr + size < 2 ^ 64) (hlast : last ≤ p.size) (hle : first ≤ last)
    (hQ : ∀ lo hi, (⟨lo, sub64 hi lo⟩ : Area) = merged p addr (addr + size) first last →
      Q (lo, hi) p) : Ensures (mergeAreas first last addr (addr + size)) p Q := by
  have hroom := h.size_le
  rw [mergeAreas]
  by_cases hne : first = last
  · rw [if_pos hne, ensures_pure]
    refine hQ _ _ ?_
    rw [merged, if_neg (fun hc => hc hne), sub64_eq (by omega) hlt]
  · have hlok := h.area (last - 1) (by omega)
    have hlt' := hlok.lt
    rw [if_neg hne, if_neg (by omega), ensures_bind, ensures_areaAt (by omega), ensures_bind,
      ensures_areaAt (by omega), ensures_pure, hlok.stop_eq]
    refine hQ _ _ ?_
    rw [merged, if_pos hne]
    simp only [Area.mk.injEq, true_and]
    refine sub64_eq ?_ ?_
    · split_ifs <;> omega
    · split_ifs <;> omega

/-- **`balloc_pool_insert`** replaces the areas that the range touches by one. -/
theorem PoolOk.ensures_ballocPoolInsert (h : PoolOk p) (hpos : 0 < size)
    (hlt : addr + size < 2 ^ 64) (hroom : p.size < maxAreasCount) :
    Ensures (ballocPoolInsert addr size) p fun _ p' => Inserted addr size p p' := by
  obtain ⟨hfirst, hbefore, hfrom⟩ := h.lowerBound addr
  obtain ⟨hlast, hupto, hafter⟩ := h.sorted.upperBound (addr + size)
  have hle := h.sorted.bounds_le (h.finds addr) (show addr ≤ addr + size by omega)
  have hstop : add64 addr size = addr + size := add64_eq hlt
  set first := ballocLowerBound p addr with hfirst_def
  set last := ballocUpperBound p (addr + size) with hlast_def
  obtain ⟨hok, hbetween, hhas⟩ := h.merged_spec hpos hlt hlast hle hbefore hfrom hupto hafter
  set a := merged p addr (addr + size) first last with ha_def
  have hrun : Ensures (ballocPoolInsert addr size) p fun _ p' => Splices p first last [a] p' := by
    have hcount : ((p.size : ℤ) - last) = ((p.size - last : ℕ) : ℤ) := by omega
    have hsplice := splices_insert (a := a) hle hlast
    rw [ballocPoolInsert]
    simp only [ensures_bind, ensures_get, hstop, ← hfirst_def, ← hlast_def]
    refine h.ensures_mergeAreas hlt hlast hle fun lo hi hmerged => ?_
    simp only [hmerged, ← ha_def]
    have hrest : ∀ q : Pool, q.size = p.size → q.areas = (if first + 1 ≠ last then
        blockMove p.areas (first + 1) last (p.size - last) else p.areas) →
        Ensures (do setArea first a; modify fun p => { p with size := p.size + first + 1 - last }) q
          fun _ p' => Splices p first last [a] p' := by
      intro q hsize hareas
      rw [ensures_bind, ensures_setArea (by omega), ensures_modify, hsize, hareas]
      exact hsplice
    by_cases hne : first + 1 ≠ last
    · rw [if_pos hne, ensures_bind, ensures_memmove hcount (by omega)]
      exact hrest _ rfl (if_pos hne).symm
    · rw [if_neg hne]
      exact hrest p rfl (if_neg hne).symm
  refine hrun.mono fun _ p' hs => ?_
  have hsize := hs.size
  simp only [List.length_cons, List.length_nil] at hsize
  have hcovers : ∀ x, p'.Covers x ↔ p.Covers x ∨ (addr ≤ x ∧ x < addr + size) := fun x => by
    rw [hs.covers]
    simp only [List.mem_singleton, exists_eq_left, hhas]
    constructor
    · rintro ((hx | ⟨i, -, hi, hx⟩) | ⟨i, hi, -, hx⟩)
      · exact Or.inr hx
      · exact Or.inl ⟨i, by omega, hx⟩
      · exact Or.inl ⟨i, hi, hx⟩
    · rintro (⟨i, hi, hx⟩ | hx)
      · by_cases hin : first ≤ i ∧ i < last
        · exact Or.inl (Or.inr ⟨i, hin.1, hin.2, hx⟩)
        · exact Or.inr ⟨i, hi, by omega, hx⟩
      · exact Or.inl (Or.inl hx)
  refine ⟨(h.sorted.splices hs hbetween (by omega)).poolOk_of_covers fun x hx => ?_, by omega, hcovers⟩
  rcases (hcovers x).1 hx with hx | hx
  · exact h.covers_lt hx
  · omega

/-! ### Deleting -/

/-- The range lies in one area. -/
def Pool.Contains (p : Pool) (addr size : ℕ) : Prop :=
  ∃ i < p.size, (p.areas i).addr ≤ addr ∧ addr + size ≤ (p.areas i).fin

/-- The range lies in one area, and touches neither of its ends. -/
def Pool.Inside (p : Pool) (addr size : ℕ) : Prop :=
  ∃ i < p.size, (p.areas i).addr < addr ∧ addr + size < (p.areas i).fin

/-- The area that `balloc_pool_delete` finds is the one that contains the range: the area before it
does not reach the range. -/
theorem Pool.Sorted.lowerBound_eq (h : p.Sorted) (hf : p.Finds addr) (hpos : 0 < size) (hi : i < p.size)
    (haddr : (p.areas i).addr ≤ addr) (hfin : addr + size ≤ (p.areas i).fin) :
    ballocLowerBound p addr = i := by
  obtain ⟨-, hbefore, hfrom⟩ := h.lowerBound hf
  rcases lt_trichotomy (ballocLowerBound p addr) i with hlt | heq | hlt
  · have := hfrom _ (Nat.le_refl _) (by omega)
    have := h.gap _ i hlt hi
    omega
  · exact heq
  · have := hbefore i hlt
    omega

/-- The parts of an area outside a range. -/
def cutArea (a : Area) (addr size : ℕ) : List Area :=
  (if a.addr = addr then [] else [⟨a.addr, addr - a.addr⟩]) ++
    if a.fin = addr + size then [] else [⟨addr + size, a.fin - (addr + size)⟩]

theorem mem_cutArea {b : Area} (haddr : a.addr ≤ addr) (hfin : addr + size ≤ a.fin) :
    b ∈ cutArea a addr size ↔ (a.addr < addr ∧ b = ⟨a.addr, addr - a.addr⟩) ∨
      (addr + size < a.fin ∧ b = ⟨addr + size, a.fin - (addr + size)⟩) := by
  have hlow : a.addr < addr ↔ ¬a.addr = addr := by omega
  have hhigh : addr + size < a.fin ↔ ¬a.fin = addr + size := by omega
  rw [cutArea, List.mem_append, hlow, hhigh]
  split_ifs with h₁ h₂ h₂ <;> simp [h₁, h₂]

/-- The parts fit where the area was. -/
theorem Pool.Sorted.between_cutArea (h : p.Sorted) (hpos : 0 < size) (hi : i < p.size)
    (haddr : (p.areas i).addr ≤ addr) (hfin : addr + size ≤ (p.areas i).fin) :
    Between p i (i + 1) (cutArea (p.areas i) addr size) := by
  have hle := (h.area i hi).le
  refine ⟨fun b hb => ?_, ?_, fun j hj b hb => ?_, fun j h₁ h₂ b hb => ?_⟩
  · rcases (mem_cutArea haddr hfin).1 hb with ⟨h₁, rfl⟩ | ⟨h₁, rfl⟩
    · refine ⟨by simp only; omega, ?_⟩
      rw [Area.fin]
      simp only
      omega
    · refine ⟨by simp only; omega, ?_⟩
      rw [Area.fin]
      simp only
      omega
  · rw [cutArea]
    split_ifs
    · exact List.Pairwise.nil
    · exact List.pairwise_singleton _ _
    · exact List.pairwise_singleton _ _
    · refine List.pairwise_pair.2 ?_
      rw [Area.fin]
      simp only
      omega
  · have := h.gap j i hj hi
    rcases (mem_cutArea haddr hfin).1 hb with ⟨h₁, rfl⟩ | ⟨h₁, rfl⟩
    · exact this
    · simp only
      omega
  · have := h.gap i j (by omega) h₂
    rcases (mem_cutArea haddr hfin).1 hb with ⟨h₃, rfl⟩ | ⟨h₃, rfl⟩
    · rw [Area.fin]
      simp only
      omega
    · rw [Area.fin]
      simp only
      omega

/-- Storing one area over another. -/
theorem splices_set (hi : i < p.size) (a : Area) :
    Splices p i (i + 1) [a] { p with areas := Function.update p.areas i a } := by
  refine ⟨Nat.le_succ i, hi, by simp only [List.length_cons, List.length_nil]; omega,
    fun j hj => Function.update_of_ne (by omega) _ _, fun j b hb => ?_,
    fun j hj => Function.update_of_ne (by simp only [List.length_cons]; omega) _ _⟩
  obtain ⟨rfl, rfl⟩ : j = 0 ∧ b = a := by
    cases j with
    | zero => exact ⟨rfl, (Option.some_inj.1 hb).symm⟩
    | succ j => simp at hb
  exact Function.update_self _ _ _

/-- Taking an area out. -/
theorem splices_remove (hi : i < p.size) :
    Splices p i (i + 1) []
      ⟨blockMove p.areas i (i + 1) (p.size - (i + 1)), p.size - 1⟩ := by
  refine ⟨Nat.le_succ i, hi, by simp only [List.length_nil]; omega, fun j hj => ?_,
    fun j b hb => by simp at hb, fun j hj => ?_⟩
  · simp only [blockMove]
    rw [if_neg (by omega)]
  · simp only [List.length_nil, blockMove]
    rw [if_pos (by omega), show i + 0 + j - i = j by omega]

/-- Putting two areas in the place of one. -/
theorem splices_split (hi : i < p.size) (a b : Area) :
    Splices p i (i + 1) [a, b]
      ⟨Function.update (Function.update
        (blockMove p.areas (i + 2) (i + 1) (p.size - (i + 1))) (i + 1) b) i a, p.size + 1⟩ := by
  refine ⟨Nat.le_succ i, hi, by simp only [List.length_cons, List.length_nil]; omega, fun j hj => ?_,
    fun j c hc => ?_, fun j hj => ?_⟩
  · simp only
    rw [Function.update_of_ne (by omega), Function.update_of_ne (by omega), blockMove,
      if_neg (by omega)]
  · rcases j with _ | _ | j
    · obtain rfl := Option.some_inj.1 hc
      exact Function.update_self _ _ _
    · obtain rfl := Option.some_inj.1 hc
      simp only
      rw [Function.update_of_ne (by omega), Function.update_self]
    · simp at hc
  · simp only [List.length_cons, List.length_nil]
    rw [Function.update_of_ne (by omega), Function.update_of_ne (by omega), blockMove,
      if_pos (by omega), show i + (0 + 1 + 1) + j - (i + 2) = j by omega]

/-- **`balloc_pool_delete`** of a range in an area leaves the parts of the area outside it. -/
theorem Pool.Sorted.ensures_ballocPoolDelete (h : p.Sorted) (hf : p.Finds addr) (hpos : 0 < size)
    (hroom : p.size < maxAreasCount ∨ ¬p.Inside addr size) (hi : i < p.size)
    (haddr : (p.areas i).addr ≤ addr) (hfin : addr + size ≤ (p.areas i).fin)
    (hlt : (p.areas i).fin < 2 ^ 64) :
    Ensures (ballocPoolDelete addr size) p fun _ p' => Taken addr size p p' := by
  have hbetween := h.between_cutArea hpos hi haddr hfin
  have hle := h.size_le
  -- the number of areas grows only if the range is in the middle of one
  have hgrow : (p.areas i).addr ≠ addr → (p.areas i).fin ≠ addr + size → p.size < maxAreasCount :=
    fun h₁ h₂ => hroom.resolve_right (not_not_intro ⟨i, hi, by omega, by omega⟩)
  have hrun : Ensures (ballocPoolDelete addr size) p fun _ p' =>
      Splices p i (i + 1) (cutArea (p.areas i) addr size) p' := by
    have hsum : add64 addr size = addr + size := add64_eq (by omega)
    have hcount : ((p.size : ℤ) - i - 1) = ((p.size - (i + 1) : ℕ) : ℤ) := by omega
    rw [ballocPoolDelete]
    simp only [ensures_bind, ensures_get, h.lowerBound_eq hf hpos hi haddr hfin]
    rw [ensures_areaAt (by omega), stop_eq_of_lt hlt, hsum]
    set a := p.areas i with ha
    have hsize : a.fin = a.addr + a.size := rfl
    by_cases h₁ : a.addr = addr
    · by_cases h₂ : a.fin = addr + size
      · -- the whole area
        rw [if_neg (by omega), if_neg (by omega), if_pos (by omega), ensures_bind,
          ensures_memmove hcount (by omega), ensures_modify, cutArea, if_pos h₁, if_pos h₂]
        exact splices_remove hi
      · -- its front
        rw [if_pos (by omega), ensures_setArea (by omega), cutArea, if_pos h₁, if_neg h₂]
        have heq : (⟨add64 a.addr size, sub64 a.size size⟩ : Area) =
            ⟨addr + size, a.fin - (addr + size)⟩ := by
          rw [add64_eq (by omega), sub64_eq (by omega) (by omega), Area.mk.injEq]
          omega
        rw [heq]
        exact splices_set hi _
    · rw [if_neg (by omega)]
      by_cases h₂ : a.fin = addr + size
      · -- its back
        rw [if_pos (by omega), ensures_setArea (by omega), cutArea, if_neg h₁, if_pos h₂]
        have heq : (⟨a.addr, sub64 a.size size⟩ : Area) = ⟨a.addr, addr - a.addr⟩ := by
          rw [sub64_eq (by omega) (by omega), Area.mk.injEq]
          omega
        rw [heq]
        exact splices_set hi _
      · -- its middle
        have hroom := hgrow h₁ h₂
        rw [if_neg (by omega), if_neg (by omega), ensures_bind,
          ensures_memmove hcount (by omega), ensures_bind, ensures_setArea (by omega), ensures_bind,
          ensures_setArea (by omega), ensures_modify, cutArea, if_neg h₁, if_neg h₂,
          sub64_eq (by omega) (by omega), sub64_eq (by omega) (by omega)]
        exact splices_split hi _ _
  refine hrun.mono fun _ p' hs => ?_
  have hlen : (cutArea (p.areas i) addr size).length ≤ 1 ∨
      (cutArea (p.areas i) addr size).length = 2 ∧ p.size < maxAreasCount := by
    rw [cutArea]
    split_ifs with h₁ h₂ h₂
    · simp
    · simp
    · simp
    · exact Or.inr ⟨rfl, hgrow h₁ h₂⟩
  have hsize := hs.size
  refine ⟨h.splices hs hbetween (by omega), by omega, fun x => ?_⟩
  rw [hs.covers]
  constructor
  · rintro (⟨b, hb, hx⟩ | ⟨j, hj, hne, hx⟩)
    · rcases (mem_cutArea haddr hfin).1 hb with ⟨h₁, rfl⟩ | ⟨h₁, rfl⟩
      · obtain ⟨hx₁, hx₂⟩ := hx
        rw [Area.fin] at hx₂
        simp only at hx₁ hx₂
        exact ⟨⟨i, hi, by omega, by omega⟩, by omega⟩
      · obtain ⟨hx₁, hx₂⟩ := hx
        rw [Area.fin] at hx₂
        simp only at hx₁ hx₂
        exact ⟨⟨i, hi, by omega, by omega⟩, by omega⟩
    · refine ⟨⟨j, hj, hx⟩, ?_⟩
      obtain ⟨hx₁, hx₂⟩ := hx
      rcases hne with hne | hne
      · have := h.gap j i hne hi
        omega
      · have := h.gap i j (by omega) hj
        omega
  · rintro ⟨⟨j, hj, hx₁, hx₂⟩, hout⟩
    by_cases hji : j = i
    · subst hji
      refine Or.inl ?_
      by_cases hx : x < addr
      · refine ⟨_, (mem_cutArea haddr hfin).2 (Or.inl ⟨by omega, rfl⟩), hx₁, ?_⟩
        rw [Area.fin]
        simp only
        omega
      · refine ⟨_, (mem_cutArea haddr hfin).2 (Or.inr ⟨by omega, rfl⟩), ?_, ?_⟩
        · simp only
          omega
        · rw [Area.fin]
          simp only
          omega
    · exact Or.inr ⟨j, hj, by omega, hx₁, hx₂⟩

theorem PoolOk.ensures_ballocPoolDelete (h : PoolOk p) (hpos : 0 < size)
    (hroom : p.size < maxAreasCount ∨ ¬p.Inside addr size) (hin : p.Contains addr size) :
    Ensures (ballocPoolDelete addr size) p fun _ p' => Deleted addr size p p' := by
  obtain ⟨i, hi, haddr, hfin⟩ := hin
  refine (h.sorted.ensures_ballocPoolDelete (h.finds addr) hpos hroom hi haddr hfin (h.area i hi).lt).mono
    fun _ p' hp' => ⟨hp'.sorted.poolOk_of_covers fun x hx => ?_, hp'.size_le, hp'.covers⟩
  exact h.covers_lt ((hp'.covers x).1 hx).1

end

end Balloc

end Kernel64
