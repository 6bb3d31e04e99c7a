import Kernel64.Balloc.Pool
import Mathlib.Data.Nat.Find
import Mathlib.Order.Bounds.Basic

/-!
# The lowest address that fits

`balloc_alloc_aligned` takes the lowest range that fits out of the free areas. Two things go wrong: taking
a range out of the middle of an area needs one more area, which is not there when the array is full, and
the end of an area that ends at 2^64 is computed as 0. Such an area is never allocated from, and a search
that reads its end passes over all areas. `lowestFit_iff` says when neither matters.
-/

namespace Kernel64

namespace Balloc

section

variable {α : Type} {s s' : Pools} {p p' : Pool} {addr size low high align n i last : ℕ}

@[simp]
theorem ensures_onAll {m : PoolM α} {Q : α → Pools → Prop} :
    Ensures (onAll m) s Q ↔ Ensures m s.all fun a p => Q a { s with all := p } := by
  unfold Ensures onAll
  cases hm : m s.all with
  | error e => simp
  | ok r =>
    obtain ⟨a, p⟩ := r
    simp

@[simp]
theorem ensures_onFree {m : PoolM α} {Q : α → Pools → Prop} :
    Ensures (onFree m) s Q ↔ Ensures m s.free fun a p => Q a { s with free := p } := by
  unfold Ensures onFree
  cases hm : m s.free with
  | error e => simp
  | ok r =>
    obtain ⟨a, p⟩ := r
    simp

/-- Rounding up to a multiple. -/
theorem align64_spec {x k : ℕ} (h : x + 2 ^ k ≤ 2 ^ 64) :
    x ≤ align64 x (2 ^ k) ∧ 2 ^ k ∣ align64 x (2 ^ k) := by
  have hpos : 0 < 2 ^ k := Nat.pow_pos (by omega)
  refine ⟨?_, Nat.dvd_mul_left _ _⟩
  rw [align64, add64_eq (by omega)]
  have hmod := Nat.mod_lt (x + (2 ^ k - 1)) hpos
  have hdiv := Nat.div_add_mod (x + (2 ^ k - 1)) (2 ^ k)
  rw [Nat.mul_comm] at hdiv
  omega

theorem align64_le {x k a : ℕ} (h : x + 2 ^ k ≤ 2 ^ 64) (hle : x ≤ a) (hdvd : 2 ^ k ∣ a) :
    align64 x (2 ^ k) ≤ a := by
  have hpos : 0 < 2 ^ k := Nat.pow_pos (by omega)
  obtain ⟨m, rfl⟩ := hdvd
  rw [align64, add64_eq (by omega), Nat.mul_comm]
  refine Nat.mul_le_mul_left _ (Nat.lt_succ_iff.1 ((Nat.div_lt_iff_lt_mul hpos).2 ?_))
  rw [Nat.succ_mul, Nat.mul_comm]
  omega

/-! ### The loop -/

/-- The range at `a` is aligned, between the bounds and in an area. -/
def Pool.Fits (p : Pool) (low high size align a : ℕ) : Prop :=
  align ∣ a ∧ low ≤ a ∧ a + size ≤ high ∧ p.Contains a size

/-- The range at `a` fits, in an area that does not end at `2 ^ 64`. -/
def Pool.Offers (p : Pool) (low high size align a : ℕ) : Prop :=
  align ∣ a ∧ low ≤ a ∧ a + size ≤ high ∧
    ∃ i < p.size, (p.areas i).fin < 2 ^ 64 ∧ (p.areas i).addr ≤ a ∧ a + size ≤ (p.areas i).fin

/-- The run takes the lowest range that is offered out of the pool, or there is none and the pool is
unchanged. -/
def TakesLowest (low high size align : ℕ) (p : Pool) (m : PoolM (Option ℕ)) : Prop :=
  ((∀ a, ¬p.Offers low high size align a) ∧ ∀ Q, Ensures m p Q ↔ Q none p) ∨
    ∃ a, IsLeast {a | p.Offers low high size align a} a ∧
      ∀ Q, Ensures m p Q ↔ Ensures (ballocPoolDelete a size) p fun _ p' => Q (some a) p'

theorem Pool.Offers.fits {a : ℕ} (h : p.Offers low high size align a) : p.Fits low high size align a := by
  obtain ⟨hdvd, hlo, hhi, i, hi, -, haddr, hfin⟩ := h
  exact ⟨hdvd, hlo, hhi, i, hi, haddr, hfin⟩

/-- The loop over the areas stops at the first area that has room for the range, at the lowest address there.
An area that ends at `2 ^ 64` never has room. -/
theorem Pool.Sorted.takesLowest_allocLoop (h : p.Sorted) (hpos : 0 < size) (halign : ∃ k, align = 2 ^ k)
    (hhigh : high + align < 2 ^ 64) (hlow : low < high) (hlast : last ≤ p.size)
    (hupto : ∀ i < last, (p.areas i).addr ≤ high) (hfrom : ∀ i, last ≤ i → i < p.size → high < (p.areas i).addr) :
    ∀ fuel i, i ≤ last → last - i < fuel →
      (∀ a, p.Offers low high size align a → ∃ j, i ≤ j ∧ j < p.size ∧ (p.areas j).fin < 2 ^ 64 ∧
        (p.areas j).addr ≤ a ∧ a + size ≤ (p.areas j).fin) →
      TakesLowest low high size align p (allocLoop low high size align last fuel i) := by
  obtain ⟨k, rfl⟩ := halign
  intro fuel
  induction fuel with
  | zero =>
    intro i _ hfuel
    exact absurd hfuel (Nat.not_lt_zero _)
  | succ fuel ih =>
    intro i hi hfuel hrest
    have hmax := h.size_le
    rw [allocLoop]
    by_cases heq : i = last
    · refine Or.inl ⟨fun a hoffers => ?_, fun Q => ?_⟩
      · obtain ⟨j, hij, hj, -, haddr, -⟩ := hrest a hoffers
        have := hfrom j (by omega) hj
        have := hoffers.2.2.1
        omega
      · rw [if_pos heq, ensures_pure]
    · have hle := hupto i (by omega)
      rw [if_neg heq, TakesLowest]
      simp only [ensures_bind, ensures_areaAt (show i < maxAreasCount by omega)]
      set start₀ := if (p.areas i).addr < low then low else (p.areas i).addr with hstart₀
      have hs₀ : ∀ a, start₀ ≤ a ↔ (p.areas i).addr ≤ a ∧ low ≤ a := by
        intro a
        rw [hstart₀]
        split_ifs <;> omega
      have hstart_le := (hs₀ high).2 ⟨hle, by omega⟩
      obtain ⟨hge, hdvd⟩ := align64_spec (x := start₀) (k := k) (by omega)
      -- a range that fits in the area is not below the aligned start
      have hleast : ∀ a, start₀ ≤ a → 2 ^ k ∣ a → align64 start₀ (2 ^ k) ≤ a := fun a =>
        align64_le (by omega)
      set start := align64 start₀ (2 ^ k) with hstart
      by_cases hwraps : (p.areas i).fin = 2 ^ 64
      · rw [stop_eq_zero hwraps, if_neg (Nat.not_lt_zero high)]
        simp only [if_pos (Or.inl (Nat.zero_le start) : start ≥ 0 ∨ sub64 0 start < size)]
        refine ih (i + 1) (by omega) (by omega) fun a hoffers => ?_
        obtain ⟨j, hij, hj, hlt, hin⟩ := hrest a hoffers
        have hne : j ≠ i := fun hc => by
          rw [hc, hwraps] at hlt
          exact Nat.lt_irrefl _ hlt
        exact ⟨j, by omega, hj, hlt, hin⟩
      have hfin_lt := Nat.lt_of_le_of_ne (h.area i (by omega)).le hwraps
      rw [stop_eq_of_lt hfin_lt]
      set stop := if (p.areas i).fin > high then high else (p.areas i).fin with hstop
      have hs₁ : ∀ a, a ≤ stop ↔ a ≤ (p.areas i).fin ∧ a ≤ high := by
        intro a
        rw [hstop]
        split_ifs <;> omega
      have hstop_le := (hs₁ stop).1 le_rfl
      have hskip : (start ≥ stop ∨ sub64 stop start < size) ↔ stop < start + size := by
        rcases Nat.lt_or_ge start stop with hlt | hge'
        · rw [sub64_eq (by omega) (by omega)]
          omega
        · exact iff_of_true (Or.inl hge') (by omega)
      simp only [hskip]
      by_cases hroom : stop < start + size
      · simp only [if_pos hroom]
        refine ih (i + 1) (by omega) (by omega) fun a hoffers => ?_
        obtain ⟨j, hij, hj, hlt, haddr, hfin⟩ := hrest a hoffers
        obtain ⟨hal, hlo, hhi, -⟩ := hoffers
        refine ⟨j, ?_, hj, hlt, haddr, hfin⟩
        by_contra hji
        obtain rfl : j = i := by omega
        have := hleast a ((hs₀ a).2 ⟨haddr, hlo⟩) hal
        have := (hs₁ (a + size)).2 ⟨hfin, hhi⟩
        omega
      · have hs := (hs₀ start).1 hge
        have hoffers : p.Offers low high size (2 ^ k) start :=
          ⟨hdvd, hs.2, by omega, i, by omega, hfin_lt, hs.1, by omega⟩
        refine Or.inr ⟨start, ⟨hoffers, fun a ha => ?_⟩, fun Q => ?_⟩
        · obtain ⟨j, hij, hj, -, haddr, hfin⟩ := hrest a ha
          rcases Nat.lt_or_eq_of_le hij with hlt | rfl
          · have := h.gap i j hlt hj
            omega
          · exact hleast a ((hs₀ a).2 ⟨haddr, ha.2.1⟩) ha.1
        · simp only [if_neg hroom, ensures_bind, ensures_pure]

/-- Where the search for the lower bound finds its place, the lowest range that is offered is taken. -/
theorem Pool.Sorted.takesLowest (h : p.Sorted) (hf : p.Finds low) (hpos : 0 < size)
    (halign : ∃ k, align = 2 ^ k) (hhigh : high + align < 2 ^ 64) (hlow : low < high) :
    TakesLowest low high size align p (ballocAllocAlignedFromPool low high size align) := by
  obtain ⟨hlast, hupto, hfrom⟩ := h.upperBound high
  obtain ⟨-, hbefore, -⟩ := h.lowerBound hf
  have hsize := h.size_le
  refine h.takesLowest_allocLoop hpos halign hhigh hlow hlast hupto hfrom _ _
    (h.bounds_le hf (Nat.le_of_lt hlow)) (by omega)
    fun a ⟨_, hlo, _, j, hj, hlt, haddr, hfin⟩ => ⟨j, ?_, hj, hlt, haddr, hfin⟩
  by_contra hc
  have := hbefore j (by omega)
  omega

theorem PoolOk.takesLowest (h : PoolOk p) (hpos : 0 < size) (halign : ∃ k, align = 2 ^ k)
    (hhigh : high + align < 2 ^ 64) (hlow : low < high) :
    TakesLowest low high size align p (ballocAllocAlignedFromPool low high size align) :=
  h.sorted.takesLowest (h.finds low) hpos halign hhigh hlow

/-- Taking a range out of the middle of an area of a pool that is full leaves the array of areas. -/
theorem Pool.Sorted.not_ensures_delete (h : p.Sorted) (hf : p.Finds addr) (hpos : 0 < size)
    (hfull : p.size = maxAreasCount) (hin : p.Inside addr size) {Q : Unit → Pool → Prop} :
    ¬Ensures (ballocPoolDelete addr size) p Q := by
  obtain ⟨i, hi, haddr, hfin⟩ := hin
  have hle := (h.area i hi).le
  have hsum : add64 addr size = addr + size := add64_eq (by omega)
  have hstop : (p.areas i).stop ≠ addr + size := by
    rcases Nat.lt_or_eq_of_le hle with hlt | heq
    · rw [stop_eq_of_lt hlt]
      omega
    · rw [stop_eq_zero heq]
      omega
  rw [ballocPoolDelete]
  simp only [ensures_bind, ensures_get,
    h.lowerBound_eq hf hpos hi (Nat.le_of_lt haddr) (Nat.le_of_lt hfin)]
  rw [ensures_areaAt (by omega), hsum]
  rw [if_neg (by omega), if_neg (fun hc => hstop hc.1), if_neg (by omega), ensures_bind, memmove,
    if_pos (Or.inr (by omega)), ensures_bind]
  exact ensures_throw.1

/-! ### Searches that pass over all areas -/

/-- Taking a range out behind all areas leaves the areas as they are. -/
theorem ensures_delete_behind (hbound : ballocLowerBound p addr = p.size) {Q : Unit → Pool → Prop}
    (hrun : Ensures (ballocPoolDelete addr size) p Q) :
    ∃ p', p'.size = p.size ∧ (∀ i < p.size, p'.areas i = p.areas i) ∧ Q () p' := by
  have hcount : (p.size : ℤ) - p.size - 1 < 0 := by omega
  have hmove : ∀ dst src, ¬∃ f : Unit → PoolM Unit, Ensures (do f (← memmove dst src (p.size - p.size - 1))) p Q := by
    rintro dst src ⟨f, hf⟩
    rw [memmove, if_pos (Or.inl hcount)] at hf
    simp only [ensures_bind, ensures_throw] at hf
  rw [ballocPoolDelete] at hrun
  simp only [ensures_bind, ensures_get, hbound] at hrun
  by_cases hroom : p.size < maxAreasCount
  · rw [ensures_areaAt hroom] at hrun
    have hset : ∀ a, Ensures (setArea p.size a) p Q →
        ∃ p', p'.size = p.size ∧ (∀ i < p.size, p'.areas i = p.areas i) ∧ Q () p' := by
      intro a ha
      rw [ensures_setArea hroom] at ha
      exact ⟨{ p with areas := Function.update p.areas p.size a }, rfl,
        fun i hi => Function.update_of_ne (Nat.ne_of_lt hi) _ _, ha⟩
    split_ifs at hrun
    · exact hset _ hrun
    · exact hset _ hrun
    · exact absurd ⟨_, hrun⟩ (hmove _ _)
    · exact absurd ⟨_, hrun⟩ (hmove _ _)
  · rw [areaAt, if_neg hroom] at hrun
    exact absurd hrun ensures_throw.1

theorem Pool.Finds.mono (hf : p.Finds addr) (hlow : 0 < low) (hle : low ≤ addr) : p.Finds low := by
  intro hw
  rcases hf hw with rfl | ⟨i, hi, hreach⟩
  · omega
  · exact Or.inr ⟨i, hi, hle.trans hreach⟩

/-- The loop, when it begins behind its end, never comes to the end. -/
theorem ensures_allocLoop_beyond {fuel : ℕ} (hi : last < i) {Q : Option ℕ → Pool → Prop}
    (hrun : Ensures (allocLoop low high size align last fuel i) p Q) :
    ∃ a, Ensures (ballocPoolDelete a size) p fun _ p' => Q (some a) p' := by
  induction fuel generalizing i with
  | zero => exact absurd hrun ensures_throw.1
  | succ fuel ih =>
    rw [allocLoop, if_neg (by omega), ensures_bind] at hrun
    have hturn : ∀ (c : Prop) [Decidable c] (start : ℕ), Ensures (if c then
        allocLoop low high size align last fuel (i + 1) else do
          ballocPoolDelete start size
          return some start) p Q → ∃ a, Ensures (ballocPoolDelete a size) p fun _ p' => Q (some a) p' := by
      intro c _ start hturn
      split_ifs at hturn
      · exact ih (by omega) hturn
      · rw [ensures_bind] at hturn
        simp only [ensures_pure] at hturn
        exact ⟨start, hturn⟩
    by_cases hroom : i < maxAreasCount
    · rw [ensures_areaAt hroom] at hrun
      exact hturn _ _ hrun
    · rw [areaAt, if_neg hroom] at hrun
      exact absurd hrun ensures_throw.1

/-! ### Lowest fit -/

/-- **`balloc_alloc_aligned` is lowest-fit and complete**: it gives the lowest address that fits and takes
its range out of the free memory, or no address fits and nothing has changed. -/
def LowestFit (low high size align : ℕ) (s : Pools) : Prop :=
  Ensures (ballocAllocAligned low high size align) s fun r s' =>
    (∃ a, r = some a ∧ IsLeast {a | s.free.Fits low high size align a} a ∧ s'.all = s.all ∧
      Taken a size s.free s'.free) ∨
    (r = none ∧ s' = s ∧ ∀ a, ¬s.free.Fits low high size align a)

/-- The range can be taken out of the pool: it is not in the middle of an area when the array is full, and
where the last area ends at `2 ^ 64`, it is in another one, which the search finds. -/
def Pool.Takes (p : Pool) (addr size : ℕ) : Prop :=
  ¬(p.size = maxAreasCount ∧ p.Inside addr size) ∧ p.Finds addr ∧
    (p.Wraps → addr < (p.areas (p.size - 1)).addr)

/-- The loop comes to its end: it does not begin behind it. -/
def Pool.Ends (p : Pool) (low high : ℕ) : Prop := p.Finds low ∨ (p.areas (p.size - 1)).addr ≤ high

/-- What fits but is not offered is in the last area, which wraps. -/
theorem Pool.Sorted.fits_cases (h : p.Sorted) {a : ℕ} (hfits : p.Fits low high size align a) :
    p.Offers low high size align a ∨ p.Wraps ∧ (p.areas (p.size - 1)).addr ≤ a := by
  obtain ⟨hdvd, hlo, hhi, i, hi, haddr, hfin⟩ := hfits
  rcases Nat.lt_or_eq_of_le (h.area i hi).le with hlt | heq
  · exact Or.inl ⟨hdvd, hlo, hhi, i, hi, hlt, haddr, hfin⟩
  · have hlast : i = p.size - 1 := by
      by_contra hne
      have := h.fin_lt hi fun _ => by omega
      omega
    subst hlast
    exact Or.inr ⟨⟨by omega, heq⟩, haddr⟩

/-- What is offered is before an area that wraps. -/
theorem Pool.Sorted.lt_of_offers (h : p.Sorted) (hw : p.Wraps) (hpos : 0 < size) {a : ℕ}
    (hoffers : p.Offers low high size align a) : a < (p.areas (p.size - 1)).addr := by
  obtain ⟨-, -, -, i, hi, hlt, -, hfin⟩ := hoffers
  have hne : i ≠ p.size - 1 := fun hc => Nat.ne_of_lt hlt (hc ▸ hw.2)
  have := h.gap i (p.size - 1) (by omega) (by omega)
  omega

/-- The lowest range that fits, when the pool offers any. -/
theorem Pool.Sorted.isLeast_fits (h : p.Sorted) (hpos : 0 < size) {a : ℕ}
    (hleast : IsLeast {a | p.Offers low high size align a} a) :
    IsLeast {a | p.Fits low high size align a} a := by
  refine ⟨hleast.1.fits, fun b hb => ?_⟩
  rcases h.fits_cases hb with hoffers | ⟨hw, hle⟩
  · exact hleast.2 hoffers
  · exact (Nat.le_of_lt (h.lt_of_offers hw hpos hleast.1)).trans hle

theorem exists_isLeast_fits {a : ℕ} (hfits : p.Fits low high size align a) :
    ∃ a, IsLeast {a | p.Fits low high size align a} a := by
  classical
  exact ⟨Nat.find ⟨a, hfits⟩, Nat.find_spec ⟨a, hfits⟩, fun b hb => Nat.find_min' ⟨a, hfits⟩ hb⟩

/-- Taking a range out is right if and only if the range can be taken out. -/
theorem Pool.Sorted.ensures_delete_iff (h : p.Sorted) (hpos : 0 < size) {a : ℕ}
    (hleast : IsLeast {a | p.Offers low high size align a} a) :
    Ensures (ballocPoolDelete a size) p (fun _ p' => Taken a size p p') ↔ p.Takes a size := by
  have hbefore := fun hw => h.lt_of_offers hw hpos hleast.1
  obtain ⟨-, -, -, i, hi, hlt, haddr, hfin⟩ := hleast.1
  constructor
  · intro hrun
    have hf : p.Finds a := by
      by_contra hf
      obtain ⟨p', hsize, hareas, htaken⟩ :=
        ensures_delete_behind (h.lowerBound_of_not_finds hf) hrun
      have hcovers : p'.Covers a := ⟨i, hsize ▸ hi, by rw [hareas i hi]; exact ⟨haddr, by omega⟩⟩
      exact ((htaken.covers a).1 hcovers).2 ⟨Nat.le_refl a, by omega⟩
    exact ⟨fun ⟨hfull, hin⟩ => h.not_ensures_delete hf hpos hfull hin hrun, hf, hbefore⟩
  · rintro ⟨hroom, hf, -⟩
    refine h.ensures_ballocPoolDelete hf hpos ?_ hi haddr hfin hlt
    rcases Nat.lt_or_eq_of_le h.size_le with hlt | heq
    · exact Or.inl hlt
    · exact Or.inr fun hin => hroom ⟨heq, hin⟩

theorem Pool.wraps_of_not_finds (hf : ¬p.Finds low) : p.Wraps := by
  by_contra hw
  exact hf fun hc => absurd hc hw

theorem Pool.low_pos_of_not_finds (hf : ¬p.Finds low) : 0 < low :=
  Nat.pos_of_ne_zero fun hc => hf fun _ => Or.inl hc

theorem Pool.Sorted.upperBound_eq (h : p.Sorted) (hpos : 0 < p.size)
    (hlast : (p.areas (p.size - 1)).addr ≤ high) : ballocUpperBound p high = p.size := by
  obtain ⟨hle, -, hfrom⟩ := h.upperBound high
  by_contra hne
  have := hfrom (p.size - 1) (by omega) (by omega)
  omega

/-- A search that passes over all areas takes no range that fits. -/
theorem Pool.Sorted.not_ensures_pass (h : p.Sorted) (hf : ¬p.Finds low)
    {Q : Option ℕ → Pool → Prop} (hend : (p.areas (p.size - 1)).addr ≤ high → ¬Q none p)
    (hQ : ∀ a p', Q (some a) p' → p.Fits low high size align a ∧ Taken a size p p') (hpos : 0 < size) :
    ¬Ensures (ballocAllocAlignedFromPool low high size align) p Q := by
  intro hrun
  have hsome := (Pool.wraps_of_not_finds hf).1
  rw [ballocAllocAlignedFromPool, ensures_bind, ensures_get, h.lowerBound_of_not_finds hf] at hrun
  by_cases hlast : (p.areas (p.size - 1)).addr ≤ high
  · rw [h.upperBound_eq hsome hlast, allocLoop, if_pos rfl, ensures_pure] at hrun
    exact hend hlast hrun
  · have hlt : ballocUpperBound p high < p.size := by
      by_contra hge
      exact hlast ((h.upperBound high).2.1 _ (by omega))
    obtain ⟨a, hdel⟩ := ensures_allocLoop_beyond hlt hrun
    have hposlow := Pool.low_pos_of_not_finds hf
    by_cases hfa : p.Finds a
    · obtain ⟨_, p', -, hq⟩ := hdel
      exact hf (hfa.mono hposlow (hQ a p' hq).1.2.1)
    · obtain ⟨p', hsize, hareas, hq⟩ := ensures_delete_behind (h.lowerBound_of_not_finds hfa) hdel
      obtain ⟨⟨-, -, -, i, hi, haddr, hfin⟩, htaken⟩ := hQ a p' hq
      have hcovers : p'.Covers a := ⟨i, hsize ▸ hi, by rw [hareas i hi]; exact ⟨haddr, by omega⟩⟩
      exact ((htaken.covers a).1 hcovers).2 ⟨Nat.le_refl a, by omega⟩

/-- **When the boot allocator is lowest-fit and complete.** If an address fits, the lowest range can be taken
out of the pool; if none does, the loop over the areas comes to its end. -/
theorem lowestFit_iff (h : s.free.Sorted) (hpos : 0 < size) (halign : ∃ k, align = 2 ^ k)
    (hhigh : high + align < 2 ^ 64) (hlow : low < high) :
    LowestFit low high size align s ↔
      (∀ a, IsLeast {a | s.free.Fits low high size align a} a → s.free.Takes a size) ∧
      ((∀ a, ¬s.free.Fits low high size align a) → size ≤ high - low → s.free.Ends low high) := by
  rw [LowestFit, ballocAllocAligned]
  by_cases hsmall : low ≥ high ∨ sub64 high low < size
  · -- no range between the bounds is that long
    rw [sub64_eq (by omega) (by omega)] at hsmall
    have hnone : ∀ a, ¬s.free.Fits low high size align a := by
      intro a ⟨_, hlo, hhi, _⟩
      omega
    rw [sub64_eq (by omega) (by omega), if_pos hsmall, ensures_pure]
    exact iff_of_true (Or.inr ⟨rfl, rfl, hnone⟩)
      ⟨fun a ha => absurd ha.1 (hnone a), fun _ hle => absurd hle (by omega)⟩
  have hroom : size ≤ high - low := by
    rw [sub64_eq (by omega) (by omega)] at hsmall
    omega
  rw [if_neg hsmall, ensures_onFree]
  by_cases hf : s.free.Finds low
  · rcases h.takesLowest hf hpos halign hhigh hlow with ⟨hnone, hrun⟩ | ⟨a, hleast, hrun⟩
    · rw [hrun]
      constructor
      · rintro (⟨_, hc, -⟩ | ⟨-, -, hnofit⟩)
        · exact nomatch hc
        · exact ⟨fun a ha => absurd ha.1 (hnofit a), fun _ _ => Or.inl hf⟩
      · rintro ⟨htakes, -⟩
        refine Or.inr ⟨rfl, rfl, fun b hb => ?_⟩
        -- the lowest range that fits would be in the area that wraps
        obtain ⟨a, ha⟩ := exists_isLeast_fits hb
        rcases h.fits_cases ha.1 with hoffers | ⟨hw, hle⟩
        · exact hnone a hoffers
        · exact absurd ((htakes a ha).2.2 hw) (Nat.not_lt.2 hle)
    · have hfits := h.isLeast_fits hpos hleast
      rw [hrun]
      constructor
      · intro hdel
        refine ⟨fun b hb => ?_, fun hnone => absurd hfits.1 (hnone a)⟩
        obtain rfl := hb.unique hfits
        refine (h.ensures_delete_iff hpos hleast).1 (hdel.mono fun _ p' hp' => ?_)
        rcases hp' with ⟨c, hc, -, -, htaken⟩ | ⟨hc, -⟩
        · obtain rfl := Option.some.inj hc
          exact htaken
        · exact nomatch hc
      · rintro ⟨htakes, -⟩
        exact ((h.ensures_delete_iff hpos hleast).2 (htakes a hfits)).mono fun _ p' hp' =>
          Or.inl ⟨a, rfl, hfits, rfl, hp'⟩
  · have hposlow := Pool.low_pos_of_not_finds hf
    have hsome := (Pool.wraps_of_not_finds hf).1
    by_cases hgood : (∀ a, ¬s.free.Fits low high size align a) ∧ (s.free.areas (s.free.size - 1)).addr ≤ high
    · -- nothing fits, and the loop ends at once
      obtain ⟨hnone, hlast⟩ := hgood
      rw [ballocAllocAlignedFromPool, ensures_bind, ensures_get, h.lowerBound_of_not_finds hf,
        h.upperBound_eq hsome hlast, allocLoop, if_pos rfl, ensures_pure]
      exact iff_of_true (Or.inr ⟨rfl, rfl, hnone⟩)
        ⟨fun a ha => absurd ha.1 (hnone a), fun _ _ => Or.inr hlast⟩
    · refine iff_of_false (h.not_ensures_pass hf (fun hlast hq => ?_) ?_ hpos) ?_
      · rcases hq with ⟨_, hc, -⟩ | ⟨-, -, hnone⟩
        · exact nomatch hc
        · exact hgood ⟨hnone, hlast⟩
      · rintro a p' (⟨b, hb, hleast, -, htaken⟩ | ⟨hc, -⟩)
        · obtain rfl := Option.some.inj hb
          exact ⟨hleast.1, htaken⟩
        · exact nomatch hc
      · rintro ⟨htakes, hends⟩
        by_cases hnone : ∀ a, ¬s.free.Fits low high size align a
        · exact hgood ⟨hnone, (hends hnone hroom).resolve_left hf⟩
        · push Not at hnone
          obtain ⟨b, hb⟩ := hnone
          obtain ⟨a, ha⟩ := exists_isLeast_fits hb
          exact hf ((htakes a ha).2.1.mono hposlow ha.1.2.1)

/-- Pools with `n` free areas of a page each, at every second page. -/
def pagesApart (n : ℕ) : Pools where
  all := ⟨fun _ => ⟨0, 0x200000⟩, 1⟩
  free := ⟨fun i => ⟨i * 0x2000, 0x1000⟩, n⟩

theorem poolOk_pagesApart (hn : n ≤ maxAreasCount) : PoolOk (pagesApart n).free where
  size_le := hn
  area i hi := by
    have hlt : i < n := hi
    unfold maxAreasCount at hn
    exact ⟨by change 0 < 0x1000; omega, by change i * 0x2000 + 0x1000 < 2 ^ 64; omega⟩
  gap i j hij _ := by
    change i * 0x2000 + 0x1000 < j * 0x2000
    omega

/-- From three free pages, 16 bytes above address 8 are taken. -/
theorem lowestFit_three : LowestFit 8 0x1000 16 8 (pagesApart 3) := by
  have hok := poolOk_pagesApart (n := 3) (by decide)
  exact (lowestFit_iff hok.sorted (by decide) ⟨3, rfl⟩ (by decide) (by decide)).2
    ⟨fun a _ => ⟨fun hc => absurd hc.1 (by decide), hok.finds a, fun hw => absurd hw hok.not_wraps⟩,
      fun _ _ => Or.inl (hok.finds 8)⟩

/-- With 256 free areas, an allocation in the middle of the first one stores a 257th. -/
theorem not_lowestFit_full : PoolOk (pagesApart 256).free ∧ ¬LowestFit 8 0x1000 16 8 (pagesApart 256) := by
  refine ⟨poolOk_pagesApart (by decide), fun hfit => ?_⟩
  have hfault : returns (ballocAllocAligned 8 0x1000 16 8) (pagesApart 256) (fun _ _ => true) = false := by
    decide
  obtain ⟨r, s', hrun, -⟩ := hfit
  rw [returns_iff.2 ⟨r, s', hrun, rfl⟩] at hfault
  exact nomatch hfault

/-- The last page of all addresses: nothing is allocated from it, since its end is computed as 0. -/
example : returns (ballocAllocAligned (2 ^ 64 - 0x1000) (2 ^ 64 - 16) 16 8)
    ⟨⟨fun _ => ⟨0, 0⟩, 0⟩, ⟨fun _ => ⟨2 ^ 64 - 0x1000, 0x1000⟩, 1⟩⟩ (fun r _ => r = none) = true := by
  decide

end

end Balloc

end Kernel64
