import Kernel64.Balloc.LowestFit

/-!
# Runs of the boot allocator

Starting from empty pools, every run of fewer than `MAX_AREAS_COUNT` operations keeps both pools in
order, and each operation does to the set of addresses what it is for.
-/

namespace Kernel64

namespace Balloc

section

variable {α : Type} {s s' : Pools} {p p' : Pool} {addr size low high align n i last : ℕ}
  {R : List (ℕ × ℕ)}

/-! ### Allocating -/

/-- What an allocation does to a pool: a range of it is taken out, or nothing has changed. -/
def Allocated (low high size align : ℕ) (p : Pool) (r : Option ℕ) (p' : Pool) : Prop :=
  (r = none ∧ p' = p) ∨ ∃ start, r = some start ∧ low ≤ start ∧ start + size ≤ high ∧
    align ∣ start ∧ (∀ x, start ≤ x → x < start + size → p.Covers x) ∧ Deleted start size p p'

/-- A range inside an area is covered. -/
theorem Pool.Contains.covers (h : p.Contains addr size) {x : ℕ} (h₁ : addr ≤ x)
    (h₂ : x < addr + size) : p.Covers x := by
  obtain ⟨i, hi, haddr, hfin⟩ := h
  exact ⟨i, hi, by omega, by omega⟩

/-- **`balloc_alloc_aligned`** takes an aligned range between the bounds out of the free memory, or
changes nothing. -/
theorem PoolOk.ensures_ballocAllocAligned (h : PoolOk s.free) (hpos : 0 < size)
    (halign : ∃ k, align = 2 ^ k) (hhigh : high + align < 2 ^ 64)
    (hroom : s.free.size < maxAreasCount) :
    Ensures (ballocAllocAligned low high size align) s fun r s' => s'.all = s.all ∧
      Allocated low high size align s.free r s'.free := by
  rw [ballocAllocAligned]
  by_cases hnone : low ≥ high ∨ sub64 high low < size
  · rw [if_pos hnone, ensures_pure]
    exact ⟨rfl, Or.inl ⟨rfl, rfl⟩⟩
  · have hlow : low < high := by omega
    rw [if_neg hnone, ensures_onFree]
    rcases h.takesLowest hpos halign hhigh hlow with ⟨-, hrun⟩ | ⟨a, ⟨hfits, -⟩, hrun⟩
    · rw [hrun]
      exact ⟨rfl, Or.inl ⟨rfl, rfl⟩⟩
    · obtain ⟨hdvd, hlo, hhi, hin⟩ := hfits.fits
      rw [hrun]
      refine (h.ensures_ballocPoolDelete hpos (Or.inl hroom) hin).mono fun _ p' hp' => ⟨rfl, ?_⟩
      exact Or.inr ⟨a, rfl, hlo, hhi, hdvd, fun x h₁ h₂ => hin.covers h₁ h₂, hp'⟩

/-- **`balloc_alloc_aligned`, when it returns.** -/
theorem PoolOk.yields_ballocAllocAligned (h : PoolOk s.free) (hpos : 0 < size) (halign : ∃ k, align = 2 ^ k)
    (hhigh : high + align < 2 ^ 64) :
    Yields (ballocAllocAligned low high size align) s fun r s' => s'.all = s.all ∧
      Allocated low high size align s.free r s'.free := by
  intro r s' hrun
  have hens : Ensures (ballocAllocAligned low high size align) s fun r₁ s₁ => r₁ = r ∧ s₁ = s' :=
    ⟨r, s', hrun, rfl, rfl⟩
  rw [ballocAllocAligned] at hens
  split_ifs at hens with hsmall
  · obtain ⟨rfl, rfl⟩ := ensures_pure.1 hens
    exact ⟨rfl, Or.inl ⟨rfl, rfl⟩⟩
  · rw [ensures_onFree] at hens
    have hlow : low < high := by omega
    rcases h.takesLowest hpos halign hhigh hlow with ⟨-, htakes⟩ | ⟨a, ⟨hfits, -⟩, htakes⟩
    · obtain ⟨rfl, rfl⟩ := (htakes _).1 hens
      exact ⟨rfl, Or.inl ⟨rfl, rfl⟩⟩
    · obtain ⟨hdvd, hlo, hhi, hin⟩ := hfits.fits
      -- a run that returns has not left the array of areas
      have hroom : s.free.size < maxAreasCount ∨ ¬s.free.Inside a size := by
        rcases Nat.lt_or_eq_of_le h.size_le with hlt | heq
        · exact Or.inl hlt
        · exact Or.inr fun hinside =>
            h.sorted.not_ensures_delete (h.finds a) hpos heq hinside ((htakes _).1 hens)
      obtain ⟨_, p', hdel, rfl, rfl⟩ := (htakes _).1 hens
      have hdeleted := (h.ensures_ballocPoolDelete hpos hroom hin).of_run hdel
      exact ⟨rfl, Or.inr ⟨a, rfl, hlo, hhi, hdvd, fun x h₁ h₂ => hin.covers h₁ h₂, hdeleted⟩⟩

/-! ### Runs -/

/-- One operation; `R` are the ranges handed out so far. A range may be freed only when it is one of
them, if `Strict` holds. -/
inductive BallocStep (Strict : Prop) : Pools → List (ℕ × ℕ) → Pools → List (ℕ × ℕ) → Prop
  | addRegion {s s' : Pools} {R : List (ℕ × ℕ)} {addr size : ℕ} (hpos : 0 < size)
      (hlt : addr + size < 2 ^ 64) (hcall : ballocAddRegion addr size s = .ok ((), s')) :
      BallocStep Strict s R s' R
  | free {s s' : Pools} {R : List (ℕ × ℕ)} {addr size : ℕ} (hpos : 0 < size)
      (hlt : addr + size < 2 ^ 64) (hstrict : Strict → (addr, size) ∈ R)
      (hcall : ballocFree addr size s = .ok ((), s')) : BallocStep Strict s R s' R
  | reserveRegion {s s' : Pools} {R : List (ℕ × ℕ)} {addr size : ℕ} (hpos : 0 < size)
      (hin : s.free.Contains addr size)
      (hcall : ballocReserveRegion addr size s = .ok ((), s')) :
      BallocStep Strict s R s' ((addr, size) :: R)
  | allocAligned {s s' : Pools} {R : List (ℕ × ℕ)} {low high size align : ℕ} {r : Option ℕ}
      (hpos : 0 < size) (halign : ∃ k, align = 2 ^ k) (hhigh : high + align < 2 ^ 64)
      (hcall : ballocAllocAligned low high size align s = .ok (r, s')) :
      BallocStep Strict s R s' ((r.map fun start => (start, size)).toList ++ R)

/-- Runs of `n` operations from empty pools. -/
inductive BallocRun (Strict : Prop) : ℕ → Pools → List (ℕ × ℕ) → Prop
  | start : BallocRun Strict 0 emptyPools []
  | step {n : ℕ} {s s' : Pools} {R R' : List (ℕ × ℕ)} (hrun : BallocRun Strict n s R)
      (hstep : BallocStep Strict s R s' R') : BallocRun Strict (n + 1) s' R'

/-- What holds after `n` operations. -/
structure PoolsOk (Strict : Prop) (n : ℕ) (s : Pools) (R : List (ℕ × ℕ)) : Prop where
  all : PoolOk s.all
  free : PoolOk s.free
  all_size : s.all.size ≤ n
  free_size : s.free.size ≤ n
  sub : Strict → ∀ x, s.free.Covers x → s.all.Covers x
  handed : Strict → ∀ r ∈ R, ∀ x, r.1 ≤ x → x < r.1 + r.2 → s.all.Covers x

theorem poolOk_empty : PoolOk ⟨fun _ => ⟨0, 0⟩, 0⟩ :=
  ⟨by decide, fun i hi => absurd hi (Nat.not_lt_zero i), fun i j _ hj => absurd hj (Nat.not_lt_zero j)⟩

/-- **`balloc_add_region`** adds the range to both pools. -/
theorem PoolOk.ensures_ballocAddRegion (hall : PoolOk s.all) (hfree : PoolOk s.free)
    (hpos : 0 < size) (hlt : addr + size < 2 ^ 64) (hroom : s.all.size < maxAreasCount)
    (hroom' : s.free.size < maxAreasCount) :
    Ensures (ballocAddRegion addr size) s fun _ s' => Inserted addr size s.all s'.all ∧
      Inserted addr size s.free s'.free := by
  rw [ballocAddRegion, ensures_bind, ensures_onAll]
  refine (hall.ensures_ballocPoolInsert hpos hlt hroom).mono fun _ p hp => ?_
  rw [ensures_onFree]
  exact (hfree.ensures_ballocPoolInsert hpos hlt hroom').mono fun _ p' hp' => ⟨hp, hp'⟩

/-- **`balloc_free`** adds the range to the free memory. -/
theorem PoolOk.ensures_ballocFree (hfree : PoolOk s.free) (hpos : 0 < size)
    (hlt : addr + size < 2 ^ 64) (hroom : s.free.size < maxAreasCount) :
    Ensures (ballocFree addr size) s fun _ s' => s'.all = s.all ∧
      Inserted addr size s.free s'.free := by
  rw [ballocFree, ensures_onFree]
  exact (hfree.ensures_ballocPoolInsert hpos hlt hroom).mono fun _ p hp => ⟨rfl, hp⟩

/-- **`balloc_reserve_region`** takes the range out of the free memory. -/
theorem PoolOk.ensures_ballocReserveRegion (hfree : PoolOk s.free) (hpos : 0 < size)
    (hin : s.free.Contains addr size) (hroom : s.free.size < maxAreasCount) :
    Ensures (ballocReserveRegion addr size) s fun _ s' => s'.all = s.all ∧
      Deleted addr size s.free s'.free := by
  rw [ballocReserveRegion, ensures_onFree]
  exact (hfree.ensures_ballocPoolDelete hpos (Or.inl hroom) hin).mono fun _ p hp => ⟨rfl, hp⟩

/-- One more operation. -/
theorem PoolsOk.step {Strict : Prop} {R' : List (ℕ × ℕ)} (h : PoolsOk Strict n s R)
    (hn : n + 1 < maxAreasCount) (hstep : BallocStep Strict s R s' R') :
    PoolsOk Strict (n + 1) s' R' := by
  have hall := h.all_size
  have hfree := h.free_size
  cases hstep with
  | addRegion hpos hlt hcall =>
    obtain ⟨⟨h₁, h₂, h₃⟩, h₄, h₅, h₆⟩ := (PoolOk.ensures_ballocAddRegion h.all h.free hpos hlt
      (by omega) (by omega)).of_run hcall
    refine ⟨h₁, h₄, by omega, by omega, fun hs x hx => ?_, fun hs r hr x hx₁ hx₂ => ?_⟩
    · rw [h₃]
      exact ((h₆ x).1 hx).imp_left (h.sub hs x)
    · exact (h₃ x).2 (Or.inl (h.handed hs r hr x hx₁ hx₂))
  | free hpos hlt hstrict hcall =>
    obtain ⟨hsame, h₁, h₂, h₃⟩ := (h.free.ensures_ballocFree hpos hlt (by omega)).of_run hcall
    refine ⟨hsame.symm ▸ h.all, h₁, by rw [hsame]; omega, by omega, fun hs x hx => ?_, ?_⟩
    · rw [hsame]
      rcases (h₃ x).1 hx with hx | hx
      · exact h.sub hs x hx
      · exact h.handed hs _ (hstrict hs) x hx.1 hx.2
    · rw [hsame]
      exact h.handed
  | reserveRegion hpos hin hcall =>
    obtain ⟨hsame, h₁, h₂, h₃⟩ :=
      (h.free.ensures_ballocReserveRegion hpos hin (by omega)).of_run hcall
    refine ⟨hsame.symm ▸ h.all, h₁, by rw [hsame]; omega, by omega, fun hs x hx => ?_,
      fun hs r hr x hx₁ hx₂ => ?_⟩
    · rw [hsame]
      exact h.sub hs x ((h₃ x).1 hx).1
    · rw [hsame]
      rcases List.mem_cons.1 hr with rfl | hr
      · exact h.sub hs x (hin.covers hx₁ hx₂)
      · exact h.handed hs r hr x hx₁ hx₂
  | allocAligned hpos halign hhigh hcall =>
    obtain ⟨hsame, hr⟩ :=
      (h.free.ensures_ballocAllocAligned hpos halign hhigh (by omega)).of_run hcall
    rcases hr with ⟨rfl, hfree'⟩ | ⟨start, rfl, -, -, -, hcov, h₁, h₂, h₃⟩
    · refine ⟨hsame.symm ▸ h.all, hfree'.symm ▸ h.free, by rw [hsame]; omega,
        by rw [hfree']; omega, ?_, ?_⟩
      · rw [hsame, hfree']
        exact h.sub
      · rw [hsame]
        exact h.handed
    · refine ⟨hsame.symm ▸ h.all, h₁, by rw [hsame]; omega, by omega, fun hs x hx => ?_,
        fun hs r hr x hx₁ hx₂ => ?_⟩
      · rw [hsame]
        exact h.sub hs x ((h₃ x).1 hx).1
      · rw [hsame]
        rcases List.mem_cons.1 hr with rfl | hr
        · exact h.sub hs x (hcov x hx₁ hx₂)
        · exact h.handed hs r hr x hx₁ hx₂

theorem BallocRun.poolsOk {Strict : Prop} (hrun : BallocRun Strict n s R)
    (hn : n < maxAreasCount) : PoolsOk Strict n s R := by
  induction hrun with
  | start =>
    refine ⟨poolOk_empty, poolOk_empty, Nat.le_refl 0, Nat.le_refl 0, fun _ x hx => ?_,
      fun _ r hr => absurd hr List.not_mem_nil⟩
    obtain ⟨i, hi, -⟩ := hx
    exact absurd hi (Nat.not_lt_zero i)
  | step hrun hstep ih => exact (ih (by omega)).step hn hstep

/-- **The pools are sets of addresses** after every run of fewer than `MAX_AREAS_COUNT` operations,
and the next operation, when it is not the one too many, does what it should to them. -/
theorem ballocRun_exact {Strict : Prop} (hrun : BallocRun Strict n s R)
    (hn : n < maxAreasCount) :
    (PoolOk s.all ∧ PoolOk s.free) ∧
    (Strict → ∀ x, s.free.Covers x → s.all.Covers x) ∧
    (n + 1 < maxAreasCount →
      (∀ addr size, 0 < size → addr + size < 2 ^ 64 →
        Ensures (ballocAddRegion addr size) s fun _ s' => Inserted addr size s.all s'.all ∧
          Inserted addr size s.free s'.free) ∧
      (∀ addr size, 0 < size → addr + size < 2 ^ 64 →
        Ensures (ballocFree addr size) s fun _ s' => s'.all = s.all ∧
          Inserted addr size s.free s'.free) ∧
      (∀ addr size, 0 < size → s.free.Contains addr size →
        Ensures (ballocReserveRegion addr size) s fun _ s' => s'.all = s.all ∧
          Deleted addr size s.free s'.free) ∧
      ∀ low high size align, 0 < size → (∃ k, align = 2 ^ k) → high + align < 2 ^ 64 →
        Ensures (ballocAllocAligned low high size align) s fun r s' => s'.all = s.all ∧
          Allocated low high size align s.free r s'.free) := by
  have h := hrun.poolsOk hn
  have hall := h.all_size
  have hfree := h.free_size
  refine ⟨⟨h.all, h.free⟩, h.sub, fun hn' => ⟨fun addr size hpos hlt => ?_,
    fun addr size hpos hlt => ?_, fun addr size hpos hin => ?_,
    fun low high size align hpos halign hhigh => ?_⟩⟩
  · exact PoolOk.ensures_ballocAddRegion h.all h.free hpos hlt (by omega) (by omega)
  · exact h.free.ensures_ballocFree hpos hlt (by omega)
  · exact h.free.ensures_ballocReserveRegion hpos hin (by omega)
  · exact h.free.ensures_ballocAllocAligned hpos halign hhigh (by omega)

/-- The pools after an operation. -/
def Pools.next (s : Pools) (m : BallocM α) : Pools :=
  match m s with
  | .ok (_, s') => s'
  | .error _ => s

theorem Pools.run_next {m : BallocM α} {a : α} [DecidableEq α]
    (h : returns m s (fun b _ => decide (b = a)) = true) : m s = .ok (a, s.next m) := by
  obtain ⟨b, s', hrun, hb⟩ := returns_iff.1 h
  obtain rfl := of_decide_eq_true hb
  rw [Pools.next, hrun]

/-- Two regions are added. -/
def regions : Pools :=
  (emptyPools.next (ballocAddRegion 0x1000 0x2000)).next (ballocAddRegion 0x8000 0x4000)

/-- A page of the first region is allocated, and one in the middle of the second reserved. -/
def pagesTaken : Pools :=
  (regions.next (ballocAllocAligned 0 0x20000 0x1000 0x1000)).next (ballocReserveRegion 0x9000 0x1000)

/-- The page of the first region is freed again. -/
theorem ballocRun_exact_freed : ∃ s, BallocRun True 5 s [(0x9000, 0x1000), (0x1000, 0x1000)] ∧
    (PoolOk s.all ∧ PoolOk s.free) ∧ ∀ x, s.free.Covers x → s.all.Covers x := by
  have hregions : BallocRun True 2 regions [] :=
    .step (.step .start (.addRegion (by decide) (by decide) (Pools.run_next (by decide))))
      (.addRegion (by decide) (by decide) (Pools.run_next (by decide)))
  have hpage : ballocAllocAligned 0 0x20000 0x1000 0x1000 regions = .ok (some 0x1000, _) :=
    Pools.run_next (by decide +kernel)
  have hin : (regions.next (ballocAllocAligned 0 0x20000 0x1000 0x1000)).free.Contains 0x9000 0x1000 :=
    ⟨1, by decide +kernel⟩
  have htaken : BallocRun True 4 pagesTaken [(0x9000, 0x1000), (0x1000, 0x1000)] :=
    .step (.step hregions (.allocAligned (by decide) ⟨12, rfl⟩ (by decide) hpage))
      (.reserveRegion (by decide) hin (Pools.run_next (by decide +kernel)))
  have hrun : BallocRun True 5 _ [(0x9000, 0x1000), (0x1000, 0x1000)] :=
    .step htaken (.free (by decide) (by decide) (fun _ => by decide)
      (Pools.run_next (m := ballocFree 0x1000 0x1000) (by decide +kernel)))
  have h := ballocRun_exact hrun (by decide)
  exact ⟨_, hrun, h.1, h.2.1 trivial⟩

end

end Balloc

end Kernel64
