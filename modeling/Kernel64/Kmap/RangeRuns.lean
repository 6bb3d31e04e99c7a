import Kernel64.Kmap.Runs

/-!
# Runs of the range allocator

After `setup_kmap_mapping`, ranges of the kmap area are allocated and freed in any order. The ranges in use
and the free ones tile the area, no two free ones are neighbours, and so an allocation fails only if there are
not that many free pages in a row.
-/

namespace Kernel64

namespace Paging

open Segment

/-- The state after `setup_kmap_mapping` and calls of `kmap_alloc_range` and `kmap_free_range`, with the
ranges in use, each with its length. -/
inductive RangeRun : List (ℕ × ℕ) → Kmap → Prop
  | setup {pml4 : Pfn} {rc : ℤ} {k k' : Kmap} : setupKmapMapping pml4 k = Except.ok (rc, k') → RangeRun [] k'
  | alloc {live : List (ℕ × ℕ)} {k k' : Kmap} {n r : ℕ} : RangeRun live k → 1 ≤ n →
      kmapAllocRange n k = Except.ok (some r, k') → RangeRun ((r, n) :: live) k'
  | full {live : List (ℕ × ℕ)} {k k' : Kmap} {n : ℕ} : RangeRun live k → 1 ≤ n →
      kmapAllocRange n k = Except.ok (none, k') → RangeRun live k'
  | free {live : List (ℕ × ℕ)} {k k' : Kmap} {x : ℕ × ℕ} : RangeRun live k → x ∈ live →
      kmapFreeRange x.1 x.2 k = Except.ok ((), k') → RangeRun (live.erase x) k'

/-- The `n` pages from `c` on are in none of the ranges in use. -/
def FreePages (live : List (ℕ × ℕ)) (c n : ℕ) : Prop :=
  c + n ≤ kmapPages ∧ ∀ i, c ≤ i → i < c + n → ∀ x ∈ live, ¬(x.1 ≤ i ∧ i < x.1 + x.2)

/-- The area is cut into the ranges in use and free ones, of which no two are neighbours. -/
structure LiveOk (k : Kmap) (live : List (ℕ × ℕ)) (l : List Segment) : Prop where
  ranges : RangesOk k l
  separate : Separate l
  nodup : live.Nodup
  used : ∀ g : Segment, g.free = false → (g ∈ l ↔ (g.start, g.len) ∈ live)

section

variable {live : List (ℕ × ℕ)} {k k' : Kmap} {l l' : List Segment} {n r c : ℕ} {x : ℕ × ℕ}

theorem LiveOk.mem_used (h : LiveOk k live l) (hx : x ∈ live) : ⟨x.1, x.2, false⟩ ∈ l :=
  (h.used _ rfl).2 hx

/-- A page in no range in use is in a free one. -/
theorem LiveOk.exists_free (h : LiveOk k live l) (hn : 0 < n) (hfree : FreePages live c n) :
    ∃ g ∈ l, g.free = true ∧ g.start ≤ c ∧ c + n ≤ g.stop := by
  refine h.ranges.row.exists_free h.separate hn fun i hlo hhi => ?_
  have hle := hfree.1
  obtain ⟨g, hg, hi⟩ := h.ranges.row.exists_mem (x := i) ⟨Nat.zero_le _, by omega⟩
  refine ⟨g, hg, ?_, hi⟩
  cases hgf : g.free with
  | true => rfl
  | false => exact absurd hi (hfree.2 i hlo hhi _ ((h.used g hgf).1 hg))

/-- The pages of a free range are in no range in use. -/
theorem LiveOk.freePages (h : LiveOk k live l) {g : Segment} (hg : g ∈ l) (hgf : g.free = true)
    (hn : n ≤ g.len) : FreePages live g.start n := by
  have hb := (h.ranges.row.bounds hg).2.1
  unfold stop at hb
  refine ⟨by omega, fun i hlo hhi x hx hi => ?_⟩
  have heq := h.ranges.row.eq_of_mem hg (h.mem_used hx) (x := i) ⟨hlo, by unfold stop; omega⟩ hi
  rw [heq] at hgf
  exact nomatch hgf

/-! ### Steps -/

theorem LiveOk.of_carved (h : LiveOk k live l) (hc : Carved k' l l' r n) : LiveOk k' ((r, n) :: live) l' := by
  refine ⟨hc.ok, hc.separate h.separate, List.nodup_cons.2 ⟨fun hmem => hc.new (h.mem_used hmem), h.nodup⟩, ?_⟩
  intro g hg
  rw [hc.used g hg, h.used g hg, List.mem_cons]
  refine or_congr ⟨fun heq => by rw [heq], fun heq => ?_⟩ Iff.rfl
  obtain ⟨start, len, free⟩ := g
  obtain ⟨rfl, rfl⟩ := Prod.mk.inj heq
  rw [show free = false from hg]

/-- **`kmap_alloc_range`** gives a range of free pages, and it gives none if there are no such pages. -/
theorem LiveOk.ensures_kmapAllocRange (h : LiveOk k live l) (hn : 1 ≤ n) :
    Ensures (kmapAllocRange n) k fun o k' =>
      (o = none ∧ k' = k ∧ ¬∃ c, FreePages live c n) ∨
        ∃ r l', o = some r ∧ FreePages live r n ∧ LiveOk k' ((r, n) :: live) l' := by
  refine (h.ranges.ensures_kmapAllocRange_complete hn).mono fun o k' ⟨_, ho⟩ => ?_
  rcases ho with ⟨ho, hk, hshort⟩ | ⟨r, l', ho, hc⟩
  · refine Or.inl ⟨ho, hk, fun ⟨c, hfree⟩ => ?_⟩
    obtain ⟨g, hg, hgf, hstart, hstop⟩ := h.exists_free hn hfree
    have := hshort g hg hgf
    unfold stop at hstop
    omega
  · obtain ⟨g, hg, hgf, rfl, hle⟩ := hc.was
    exact Or.inr ⟨g.start, l', ho, h.freePages hg hgf hle, h.of_carved hc⟩

/-- **`kmap_free_range`**, of a range in use. -/
theorem LiveOk.ensures_kmapFreeRange (h : LiveOk k live l) (hx : x ∈ live) :
    Ensures (kmapFreeRange x.1 x.2) k fun _ k' => ∃ l', LiveOk k' (live.erase x) l' := by
  obtain ⟨l₁, l₂, rfl⟩ := List.append_of_mem (h.mem_used hx)
  refine h.ranges.pending.ensures_kmapFreeRange.mono fun _ k' ⟨_, l', hl', hused, hsep⟩ => ?_
  obtain ⟨hsep₁, hsep₂, -⟩ := List.isChain_append.1 h.separate
  refine ⟨l', hl', hsep hsep₁ hsep₂.of_cons, h.nodup.erase x, fun g hg => ?_⟩
  rw [hused g hg, h.ranges.row.mem_others, h.used g hg, h.nodup.mem_erase_iff, and_comm]
  refine and_congr (not_congr ⟨fun heq => by rw [heq], fun heq => ?_⟩) Iff.rfl
  obtain ⟨start, len, free⟩ := g
  subst heq
  rw [show free = false from hg]

theorem yields_setup {pml4 : Pfn} : Yields (setupKmapMapping pml4) k fun _ k' => ∃ l, LiveOk k' [] l := by
  unfold setupKmapMapping
  refine Yields.bind (ensures_modify.2 ?_).yields
  refine Yields.bind (pending_all.ensures_kmapFreeRange.mono fun _ k₁ ⟨_, l, hl, hused, hsep⟩ => ?_).yields
  refine yields_onMemory fun rc s' _ => ⟨l, ⟨hl.row, hl.tagged, hl.listed.congr rfl⟩,
    hsep List.isChain_nil List.isChain_nil, List.nodup_nil, fun g hg => ?_⟩
  rw [hused g hg]
  exact iff_of_false List.not_mem_nil List.not_mem_nil

/-! ### Runs -/

theorem RangeRun.liveOk (hrun : RangeRun live k) : ∃ l, LiveOk k live l := by
  induction hrun with
  | setup hcall => exact yields_setup _ _ hcall
  | alloc _ hn hcall ih =>
    obtain ⟨l, h⟩ := ih
    rcases (h.ensures_kmapAllocRange hn).of_run hcall with ⟨hc, -⟩ | ⟨r, l', hr, -, h'⟩
    · exact nomatch hc
    · obtain rfl := Option.some.inj hr
      exact ⟨l', h'⟩
  | full _ hn hcall ih =>
    obtain ⟨l, h⟩ := ih
    rcases (h.ensures_kmapAllocRange hn).of_run hcall with ⟨-, rfl, -⟩ | ⟨r, l', hr, -⟩
    · exact ⟨l, h⟩
    · exact nomatch hr
  | free _ hx hcall ih =>
    obtain ⟨l, h⟩ := ih
    exact (h.ensures_kmapFreeRange hx).of_run hcall

/-- If no range is in use, one free range is the whole area. -/
theorem LiveOk.eq_singleton (h : LiveOk k [] l) : l = [⟨0, kmapPages, true⟩] := by
  have hfree : ∀ g ∈ l, g.free = true := by
    intro g hg
    cases hgf : g.free with
    | true => rfl
    | false => exact nomatch (h.used g hgf).1 hg
  have hrow := h.ranges.row
  have hpages := kmapPages_eq
  cases l with
  | nil =>
    rw [inRow_nil] at hrow
    omega
  | cons g l =>
    cases l with
    | nil =>
      obtain ⟨hstart, -, hstop⟩ := hrow
      have hgf := hfree g List.mem_cons_self
      obtain ⟨start, len, free⟩ := g
      unfold stop at hstop
      dsimp only at hstart hgf hstop
      rw [inRow_nil] at hstop
      rw [hgf, hstart, show len = kmapPages by omega]
    | cons g' l =>
      have hsep := (List.isChain_cons_cons.1 h.separate).1
      rw [hfree g (by simp), hfree g' (by simp)] at hsep
      rcases hsep with hc | hc
      all_goals exact nomatch hc

/-- **The kmap range allocator.** After `setup_kmap_mapping` and any calls of `kmap_alloc_range` and
`kmap_free_range`, the ranges in use and free ranges tile the area; the length of each is kept at both of its
ends; no two free ones are neighbours, and each is on the list of its order. An allocation returns, and it
gives none if and only if there are not that many free pages in a row; a range in use may be freed; and when
all are, one free range is the whole area. -/
theorem rangeRun_ranges (hrun : RangeRun live k) :
    ∃ l : List Segment, InRow 0 l kmapPages ∧ live.Nodup ∧
      (∀ g : Segment, g.free = false → (g ∈ l ↔ (g.start, g.len) ∈ live)) ∧
      (∀ g ∈ l, k.pages g.start = g.len ∧ k.pages (g.stop - 1) = g.len) ∧
      Separate l ∧
      (∀ order, (k.free order).Nodup ∧
        ∀ r, r ∈ k.free order ↔ ∃ g ∈ l, g.start = r ∧ g.free = true ∧ kmapOrder g.len = order) ∧
      (∀ n, 1 ≤ n → Ensures (kmapAllocRange n) k fun o _ =>
        (o = none ↔ ¬∃ c, FreePages live c n) ∧ ∀ r, o = some r → FreePages live r n) ∧
      (∀ x ∈ live, Ensures (kmapFreeRange x.1 x.2) k fun _ _ => True) ∧
      (live = [] → l = [⟨0, kmapPages, true⟩]) := by
  obtain ⟨l, h⟩ := hrun.liveOk
  refine ⟨l, h.ranges.row, h.nodup, h.used, ?_, h.separate, ?_, ?_, ?_, ?_⟩
  · intro g hg
    obtain ⟨hfirst, hlast, -⟩ := h.ranges.tagged g hg
    exact ⟨hfirst, hlast⟩
  · exact fun order => ⟨h.ranges.listed.nodup order, h.ranges.listed.mem order⟩
  · intro n hn
    refine (h.ensures_kmapAllocRange hn).mono fun o k' ho => ?_
    rcases ho with ⟨rfl, -, hnone⟩ | ⟨r, l', rfl, hfree, -⟩
    · exact ⟨iff_of_true rfl hnone, nofun⟩
    · refine ⟨iff_of_false nofun fun hno => hno ⟨r, hfree⟩, fun r' hr => ?_⟩
      obtain rfl := Option.some.inj hr
      exact hfree
  · intro x hx
    exact (h.ensures_kmapFreeRange hx).mono fun _ _ _ => trivial
  · rintro rfl
    exact h.eq_singleton

/-- The area with a table in place for each of its entries. -/
def linkedArea : Kmap :=
  let table := fun t _ => if t < 4 then pageEntry (t + 1) kmapFlags else .zero
  { kernelArea with phys := { kernelArea.phys with table := table } }

/-- Two ranges are allocated, and the first one is freed: then three pages are free at the start of the area,
and as many as are left after the second range. -/
theorem rangeRun_ranges_first : ∃ k, RangeRun [(3, 2)] k ∧
    Ensures (kmapAllocRange 4) k fun o _ => o ≠ none := by
  have hrun : returns (setupKmapMapping 1) linkedArea (fun _ k₀ =>
      returns (kmapAllocRange 3) k₀ (fun o k₁ => o = some 0 &&
        returns (kmapAllocRange 2) k₁ (fun o k₂ => o = some 3 &&
          returns (kmapFreeRange 0 3) k₂ (fun _ _ => true)))) = true := by
    decide +kernel
  obtain ⟨rc, k₀, hsetup, hr⟩ := returns_iff.1 hrun
  obtain ⟨o, k₁, hfirst, hr⟩ := returns_iff.1 hr
  simp only [Bool.and_eq_true, decide_eq_true_eq] at hr
  obtain ⟨rfl, hr⟩ := hr
  obtain ⟨o, k₂, hsecond, hr⟩ := returns_iff.1 hr
  simp only [Bool.and_eq_true, decide_eq_true_eq] at hr
  obtain ⟨rfl, hr⟩ := hr
  obtain ⟨⟨⟩, k₃, hfree, -⟩ := returns_iff.1 hr
  have hlive : RangeRun [(3, 2), (0, 3)] k₂ := ((RangeRun.setup hsetup).alloc (by decide) hfirst).alloc
    (by decide) hsecond
  have hlive₃ : RangeRun [(3, 2)] k₃ := hlive.free (x := (0, 3)) (by decide) hfree
  obtain ⟨l, -, -, -, -, -, -, halloc, -⟩ := rangeRun_ranges hlive₃
  refine ⟨k₃, hlive₃, (halloc 4 (by decide)).mono fun o _ ⟨hnone, _⟩ ho => hnone.1 ho ⟨5, by decide, ?_⟩⟩
  intro i hlo hhi x hx hi
  obtain rfl := List.mem_singleton.1 hx
  dsimp only at hi
  omega

end

end Paging

end Kernel64
