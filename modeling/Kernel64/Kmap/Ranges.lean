import Kernel64.Kmap.Model
import Kernel64.Lib.Segments
import Mathlib.Data.Nat.Log

/-!
# The ranges of the kmap area

The area is cut into ranges in a row (`RangesOk`): the length of each is kept at both of its ends, and the
lists have the free ones. Freeing a range joins it with its neighbours that are free, and allocating one cuts
it off a free one. The ranges that are in use are not changed by either.
-/

namespace Kernel64

namespace Paging

open Segment

/-- The fields of the ranges. -/
def Tagged (s : Kmap) (l : List Segment) : Prop :=
  ∀ g ∈ l, s.pages g.start = g.len ∧ s.pages (g.stop - 1) = g.len ∧ s.empty g.start = !g.free

/-- The lists have the free ranges. -/
structure Listed (s : Kmap) (l : List Segment) : Prop where
  nodup : ∀ order, (s.free order).Nodup
  mem : ∀ order r, r ∈ s.free order ↔ ∃ g ∈ l, g.start = r ∧ g.free = true ∧ kmapOrder g.len = order

/-- **The invariant of the ranges.** -/
structure RangesOk (s : Kmap) (l : List Segment) : Prop where
  row : InRow 0 l kmapPages
  tagged : Tagged s l
  listed : Listed s l

/-- A range between others that is on no list, and need not have its length in its fields. -/
structure Pending (s : Kmap) (l₁ : List Segment) (r n : ℕ) (l₂ : List Segment) : Prop where
  row : InRow 0 (l₁ ++ ⟨r, n, false⟩ :: l₂) kmapPages
  tagged : Tagged s (l₁ ++ l₂)
  listed : Listed s (l₁ ++ l₂)

/-- The ranges in use. -/
def SameUsed (l l' : List Segment) : Prop := ∀ g : Segment, g.free = false → (g ∈ l' ↔ g ∈ l)

section

variable {s s' : Kmap} {l l₁ l₂ : List Segment} {g h : Segment} {r n order : ℕ}

theorem kmapOrder_lt (n : ℕ) : kmapOrder n < kmapOrders := by
  unfold kmapOrder kmapOrders
  omega

/-! ### Fields -/

theorem ensures_loadPages (hr : r < kmapPages) {Q : ℕ → Kmap → Prop} :
    Ensures (loadPages r) s Q ↔ Q (s.pages r) s := by
  unfold loadPages
  rw [if_pos hr]
  simp only [ensures_bind, ensures_get, ensures_pure]

theorem ensures_storePages (hr : r < kmapPages) {Q : Unit → Kmap → Prop} :
    Ensures (storePages r n) s Q ↔ Q () { s with pages := Function.update s.pages r n } := by
  unfold storePages
  rw [if_pos hr, ensures_modify]

theorem ensures_linkEmpty (hr : r < kmapPages) {Q : Bool → Kmap → Prop} :
    Ensures (linkEmpty r) s Q ↔ Q (s.empty r) s := by
  unfold linkEmpty
  rw [if_pos hr]
  simp only [ensures_bind, ensures_get, ensures_pure]

theorem Listed.congr (h : Listed s l) (hfree : s'.free = s.free) : Listed s' l := by
  refine ⟨?_, ?_⟩
  · rw [hfree]
    exact h.nodup
  · rw [hfree]
    exact h.mem

/-- Taking a free range off its list. -/
theorem Listed.ensures_linkDel (h : Listed s (l₁ ++ g :: l₂)) (hfree : g.free = true)
    (hother : ∀ x ∈ l₁ ++ l₂, x.start ≠ g.start) :
    Ensures (linkDel g.start) s fun _ s' => s'.pages = s.pages ∧ s'.empty = s.empty ∧
      s'.phys = s.phys ∧ Listed s' (l₁ ++ l₂) := by
  have hg : g ∈ l₁ ++ g :: l₂ := List.mem_append_right _ List.mem_cons_self
  have hmem : g.start ∈ s.free (kmapOrder g.len) := (h.mem _ _).2 ⟨g, hg, rfl, hfree, rfl⟩
  unfold linkDel
  simp only [ensures_bind, ensures_get]
  rw [if_pos ⟨_, List.mem_range.2 (kmapOrder_lt _), hmem⟩, ensures_modify]
  refine ⟨rfl, rfl, rfl, fun order => (h.nodup order).erase _, fun order r => ?_⟩
  rw [(h.nodup order).mem_erase_iff, h.mem]
  constructor
  · rintro ⟨hne, x, hx, hstart, hrest⟩
    refine ⟨x, (mem_middle.1 hx).resolve_left ?_, hstart, hrest⟩
    rintro rfl
    exact hne hstart.symm
  · rintro ⟨x, hx, hstart, hrest⟩
    exact ⟨fun hc => hother x hx (hstart.trans hc), x, mem_middle.2 (Or.inr hx), hstart, hrest⟩

/-- Putting a range on its list. -/
theorem Listed.linkAdd (h : Listed s (l₁ ++ l₂)) (hfree : g.free = true)
    (hother : ∀ x ∈ l₁ ++ l₂, x.start ≠ g.start) :
    Listed { s with free := Function.update s.free (kmapOrder g.len) (g.start :: s.free (kmapOrder g.len)) }
      (l₁ ++ g :: l₂) := by
  have hnot : ∀ order, g.start ∉ s.free order := by
    intro order hc
    obtain ⟨x, hx, hstart, -⟩ := (h.mem _ _).1 hc
    exact hother x hx hstart
  refine ⟨fun order => ?_, fun order r => ?_⟩
  · dsimp only
    by_cases ho : order = kmapOrder g.len
    · subst ho
      rw [Function.update_self, List.nodup_cons]
      exact ⟨hnot _, h.nodup _⟩
    · rw [Function.update_of_ne ho]
      exact h.nodup order
  · have hold := h.mem order r
    have hnew : (∃ x ∈ l₁ ++ g :: l₂, x.start = r ∧ x.free = true ∧ kmapOrder x.len = order) ↔
        (g.start = r ∧ kmapOrder g.len = order) ∨ r ∈ s.free order := by
      rw [hold]
      constructor
      · intro ⟨x, hx, hstart, hxf, ho⟩
        rcases mem_middle.1 hx with rfl | hx
        · exact Or.inl ⟨hstart, ho⟩
        · exact Or.inr ⟨x, hx, hstart, hxf, ho⟩
      · rintro (⟨hstart, ho⟩ | ⟨x, hx, hrest⟩)
        · exact ⟨g, List.mem_append_right _ List.mem_cons_self, hstart, hfree, ho⟩
        · exact ⟨x, mem_middle.2 (Or.inr hx), hrest⟩
    rw [hnew]
    dsimp only
    by_cases ho : order = kmapOrder g.len
    · subst ho
      rw [Function.update_self, List.mem_cons]
      simp only [and_true, eq_comm]
    · rw [Function.update_of_ne ho]
      refine ⟨Or.inr, fun hc => hc.resolve_left fun hc => ho hc.2.symm⟩

/-! ### Freeing -/

/-- The other ranges do not reach into the one that is pending. -/
theorem Pending.apart (h : Pending s l₁ r n l₂) (hg : g ∈ l₁ ++ l₂) : g.stop ≤ r ∨ r + n ≤ g.start :=
  h.row.split hg

theorem Pending.bounds (h : Pending s l₁ r n l₂) : r + n ≤ kmapPages ∧ 0 < n := by
  have := h.row.bounds (List.mem_append_right l₁ (List.mem_cons_self (a := ⟨r, n, false⟩) (l := l₂)))
  exact this.2

theorem Pending.ensures_joinPrev (h : Pending s l₁ r n l₂) :
    Ensures (joinPrev r n) s fun x s' => s'.pages = s.pages ∧ s'.phys = s.phys ∧
      ∃ l, Pending s' l x.1 x.2 l₂ ∧ SameUsed l₁ l ∧
        (Separate l₁ → Separate l ∧ ∀ g ∈ l.getLast?, g.free = false) := by
  unfold joinPrev
  rcases List.eq_nil_or_concat l₁ with rfl | ⟨l, g, hl₁⟩
  · -- there is nothing before
    have hr : r = 0 := h.row.1
    rw [if_neg (by omega), ensures_pure]
    exact ⟨rfl, rfl, [], h, fun _ _ => Iff.rfl, fun hsep => ⟨hsep, nofun⟩⟩
  rw [List.concat_eq_append] at hl₁
  subst hl₁
  have hrow := h.row
  rw [List.append_assoc, List.singleton_append] at hrow
  obtain ⟨a, hl, hstart, hpos, hr, hn, hl₂⟩ := inRow_append.1 hrow
  have hstop : r = g.stop := hr
  have hg : g ∈ l ++ [g] ++ l₂ := by simp
  obtain ⟨htag, hback, hempty⟩ := h.tagged g hg
  have hb := h.bounds
  unfold stop at hstop hback
  -- the last page of the range before holds its length
  rw [if_pos (by omega), ensures_bind, ensures_loadPages (by omega)]
  have hload : s.pages (r - 1) = g.len := by
    rw [hstop]
    exact hback
  rw [hload, if_neg (by omega), show r - g.len = g.start by omega, ensures_bind,
    ensures_linkEmpty (by omega), hempty]
  -- only a free range is joined, and it leaves its list first
  cases hfree : g.free with
  | false =>
    rw [Bool.not_false, if_pos rfl, ensures_pure]
    refine ⟨rfl, rfl, l ++ [g], h, fun _ _ => Iff.rfl, fun hsep => ⟨hsep, fun x hx => ?_⟩⟩
    rw [List.getLast?_append, List.getLast?_singleton, Option.some_or] at hx
    exact Option.some.inj hx ▸ hfree
  | true =>
    rw [Bool.not_true, if_neg Bool.false_ne_true, ensures_bind]
    have hlisted := h.listed
    rw [List.append_assoc, List.singleton_append] at hlisted
    have hother : ∀ x ∈ l ++ l₂, x.start ≠ g.start := by
      intro x hx
      exact hrow.start_ne (mem_middle.2 (Or.inr hx))
    refine (hlisted.ensures_linkDel hfree hother).mono fun _ s' ⟨hp, he, hph, hlisted'⟩ => ?_
    have hload' : s'.pages g.start = g.len := by
      rw [hp]
      exact htag
    rw [ensures_bind, ensures_loadPages (by omega), ensures_pure, hload']
    refine ⟨hp, hph, l, ⟨?_, ?_, hlisted'⟩, ?_, fun hsep => ?_⟩
    · refine inRow_append.2 ⟨a, hl, hstart, ?_, ?_⟩
      · dsimp only
        omega
      unfold stop at hl₂ ⊢
      dsimp only
      rw [show g.start + (n + g.len) = r + n by omega]
      exact hl₂
    · intro x hx
      rw [hp, he]
      refine h.tagged x ?_
      rw [List.append_assoc]
      exact mem_middle.2 (Or.inr hx)
    · intro x hx
      rw [List.mem_append, List.mem_singleton]
      refine ⟨Or.inl, fun hc => hc.resolve_right ?_⟩
      rintro rfl
      rw [hfree] at hx
      exact nomatch hx
    · obtain ⟨hsep₁, -, hlast⟩ := List.isChain_append.1 hsep
      refine ⟨hsep₁, fun x hx => (hlast x hx g rfl).resolve_right ?_⟩
      rw [hfree]
      exact nofun

theorem Pending.ensures_joinNext (h : Pending s l₁ r n l₂) :
    Ensures (joinNext r n) s fun m s' => s'.pages = s.pages ∧ s'.phys = s.phys ∧
      ∃ l, Pending s' l₁ r m l ∧ SameUsed l₂ l ∧
        (Separate l₂ → Separate l ∧ ∀ g ∈ l.head?, g.free = false) := by
  unfold joinNext
  have hrow := h.row
  obtain ⟨a, hl₁, hstart, hpos, hl₂⟩ := inRow_append.1 hrow
  have hb := h.bounds
  cases l₂ with
  | nil =>
    -- there is nothing after it
    have hend : r + n = kmapPages := hl₂
    rw [if_neg (by omega), ensures_pure]
    exact ⟨rfl, rfl, [], h, fun _ _ => Iff.rfl, fun hsep => ⟨hsep, nofun⟩⟩
  | cons g l =>
    obtain ⟨hgs, hgpos, hl⟩ := hl₂
    have hgs' : g.start = r + n := hgs
    have hgb := (hrow.bounds (g := g) (by simp)).2.1
    unfold stop at hgb
    have hg : g ∈ l₁ ++ g :: l := by simp
    obtain ⟨htag, -, hempty⟩ := h.tagged g hg
    rw [if_pos (by omega), ← hgs', ensures_bind, ensures_linkEmpty (by omega), hempty]
    cases hfree : g.free with
    | false =>
      rw [Bool.not_false, if_pos rfl, ensures_pure]
      exact ⟨rfl, rfl, g :: l, h, fun _ _ => Iff.rfl,
        fun hsep => ⟨hsep, fun x hx => Option.some.inj hx ▸ hfree⟩⟩
    | true =>
      rw [Bool.not_true, if_neg Bool.false_ne_true, ensures_bind]
      have hother : ∀ x ∈ l₁ ++ l, x.start ≠ g.start := by
        intro x hx
        have hrow' : InRow 0 ((l₁ ++ [⟨r, n, false⟩]) ++ g :: l) kmapPages := by
          rw [List.append_assoc, List.singleton_append]
          exact hrow
        refine hrow'.start_ne ?_
        rw [List.append_assoc]
        exact mem_middle.2 (Or.inr hx)
      refine (h.listed.ensures_linkDel hfree hother).mono fun _ s' ⟨hp, he, hph, hlisted'⟩ => ?_
      have hload : s'.pages g.start = g.len := by
        rw [hp]
        exact htag
      rw [ensures_bind, ensures_loadPages (by omega), ensures_pure, hload]
      refine ⟨hp, hph, l, ⟨?_, ?_, hlisted'⟩, ?_, fun hsep => ?_⟩
      · refine inRow_append.2 ⟨a, hl₁, hstart, ?_, ?_⟩
        · dsimp only
          omega
        unfold stop at hl ⊢
        dsimp only
        rw [show r + (n + g.len) = g.start + g.len by omega]
        exact hl
      · intro x hx
        rw [hp, he]
        exact h.tagged x (mem_middle.2 (Or.inr hx))
      · intro x hx
        rw [List.mem_cons]
        refine ⟨Or.inr, fun hc => hc.resolve_left ?_⟩
        rintro rfl
        rw [hfree] at hx
        exact nomatch hx
      · obtain ⟨hhead, hsep'⟩ := List.isChain_cons.1 hsep
        refine ⟨hsep', fun x hx => (hhead x hx).resolve_left ?_⟩
        rw [hfree]
        exact nofun

/-- **`kmap_free_range`** -/
theorem Pending.ensures_kmapFreeRange (h : Pending s l₁ r n l₂) :
    Ensures (kmapFreeRange r n) s fun _ s' => s'.phys = s.phys ∧
      ∃ l, RangesOk s' l ∧ SameUsed (l₁ ++ l₂) l ∧ (Separate l₁ → Separate l₂ → Separate l) := by
  unfold kmapFreeRange
  rw [ensures_bind]
  refine h.ensures_joinPrev.mono fun ⟨r₁, n₁⟩ s₁ ⟨_, hph₁, l₁', h₁, hu₁, hsep₁⟩ => ?_
  dsimp only at h₁ ⊢
  rw [ensures_bind]
  refine h₁.ensures_joinNext.mono fun n₂ s₂ ⟨_, hph₂, l₂', h₂, hu₂, hsep₂⟩ => ?_
  have hb := h₂.bounds
  rw [ensures_bind, ensures_storePages (by omega), ensures_bind, ensures_storePages (by omega), linkAdd,
    ensures_modify]
  have hpos : ∀ x ∈ l₁' ++ l₂', 0 < x.len := fun x hx => h₂.row.pos hx
  refine ⟨hph₂.trans hph₁, l₁' ++ ⟨r₁, n₂, true⟩ :: l₂', ⟨?_, ?_, ?_⟩, ?_, fun hs₁ hs₂ => ?_⟩
  · obtain ⟨a, hl₁, hstart, hpos, hl₂⟩ := inRow_append.1 h₂.row
    exact inRow_append.2 ⟨a, hl₁, hstart, hpos, hl₂⟩
  · intro x hx
    dsimp only
    by_cases hx' : x ∈ l₁' ++ l₂'
    · have hap := h₂.apart hx'
      have hxp := hpos x hx'
      obtain ⟨ht₁, ht₂, ht₃⟩ := h₂.tagged x hx'
      unfold stop at hap ht₂ ⊢
      rw [Function.update_of_ne (by omega), Function.update_of_ne (by omega),
        Function.update_of_ne (by omega), Function.update_of_ne (by omega),
        Function.update_of_ne (by omega)]
      exact ⟨ht₁, ht₂, ht₃⟩
    · obtain rfl : x = ⟨r₁, n₂, true⟩ := (mem_middle.1 hx).resolve_right hx'
      refine ⟨?_, Function.update_self _ _ _, Function.update_self _ _ _⟩
      dsimp only
      by_cases hone : r₁ = r₁ + n₂ - 1
      · rw [← hone, Function.update_self]
      · rw [Function.update_of_ne hone, Function.update_self]
  · exact (h₂.listed.linkAdd (g := ⟨r₁, n₂, true⟩) rfl fun x hx => h₂.row.start_ne hx).congr rfl
  · intro x hx
    have h₁' := hu₁ x hx
    have h₂' := hu₂ x hx
    rw [mem_middle, List.mem_append, List.mem_append, h₁', h₂']
    refine ⟨fun hc => hc.resolve_left ?_, Or.inr⟩
    rintro rfl
    exact nomatch hx
  · -- the neighbours that are left are not free
    obtain ⟨hs₁', hlast⟩ := hsep₁ hs₁
    obtain ⟨hs₂', hhead⟩ := hsep₂ hs₂
    refine List.isChain_append.2 ⟨hs₁', List.isChain_cons.2 ⟨fun x hx => Or.inr (hhead x hx), hs₂'⟩, ?_⟩
    exact fun x hx y _ => Or.inl (hlast x hx)

/-! ### Allocating -/

/-- A range in use is on no list. -/
theorem Listed.insert_used (h : Listed s (l₁ ++ l₂)) (hg : g.free = false) : Listed s (l₁ ++ g :: l₂) := by
  refine ⟨h.nodup, fun order r => (h.mem order r).trans ⟨?_, ?_⟩⟩
  · intro ⟨x, hx, hrest⟩
    exact ⟨x, mem_middle.2 (Or.inr hx), hrest⟩
  · intro ⟨x, hx, hstart, hfree, ho⟩
    refine ⟨x, (mem_middle.1 hx).resolve_left ?_, hstart, hfree, ho⟩
    rintro rfl
    rw [hg] at hfree
    exact nomatch hfree

/-- A range in use may be freed. -/
theorem RangesOk.pending (h : RangesOk s (l₁ ++ ⟨r, n, false⟩ :: l₂)) : Pending s l₁ r n l₂ := by
  have hsub : ∀ g ∈ l₁ ++ l₂, g ∈ l₁ ++ ⟨r, n, false⟩ :: l₂ := fun g hg => (h.row.mem_others.1 hg).1
  refine ⟨h.row, fun g hg => h.tagged g (hsub g hg), h.listed.nodup, fun order r => ?_⟩
  rw [h.listed.mem]
  constructor
  · intro ⟨g, hg, hstart, hfree, ho⟩
    refine ⟨g, h.row.mem_others.2 ⟨hg, ?_⟩, hstart, hfree, ho⟩
    rintro rfl
    exact nomatch hfree
  · intro ⟨g, hg, hrest⟩
    exact ⟨g, hsub g hg, hrest⟩

/-- The whole area may be freed when the lists are empty. -/
theorem pending_all : Pending { s with free := fun _ => [] } [] 0 kmapPages [] := by
  refine ⟨⟨rfl, by decide, rfl⟩, fun g hg => (nomatch hg), fun _ => List.nodup_nil, fun order r => ?_⟩
  exact ⟨fun hc => (nomatch hc), fun ⟨g, hg, _⟩ => nomatch hg⟩

/-- What `kmap_alloc_range` gives: nothing, or a range that was not in use. -/
inductive Allocated (s : Kmap) (l : List Segment) (n : ℕ) (s' : Kmap) : Option ℕ → Prop
  | none : s' = s → Allocated s l n s' none
  | some {r : ℕ} {l' : List Segment} : RangesOk s' l' → ⟨r, n, false⟩ ∉ l →
      (∀ g : Segment, g.free = false → (g ∈ l' ↔ g = ⟨r, n, false⟩ ∨ g ∈ l)) →
      Allocated s l n s' (some r)

/-- The range `r` of `n` pages is cut off a free one. -/
structure Carved (s' : Kmap) (l l' : List Segment) (r n : ℕ) : Prop where
  ok : RangesOk s' l'
  was : ∃ g ∈ l, g.free = true ∧ g.start = r ∧ n ≤ g.len
  new : ⟨r, n, false⟩ ∉ l
  used : ∀ g : Segment, g.free = false → (g ∈ l' ↔ g = ⟨r, n, false⟩ ∨ g ∈ l)
  separate : Separate l → Separate l'

/-- Cutting a range off a free one. -/
theorem RangesOk.ensures_cut (h : RangesOk s (l₁ ++ g :: l₂)) (hfree : g.free = true) (hn : 0 < n)
    (hle : n ≤ g.len) :
    Ensures (do
      linkDel g.start
      linkInit g.start
      storePages g.start n
      storePages (g.start + n - 1) n
      if n < g.len then kmapFreeRange (g.start + n) (g.len - n)
      return some g.start : KmapM (Option ℕ)) s fun o s' =>
        s'.phys = s.phys ∧ ∃ l', o = some g.start ∧ Carved s' (l₁ ++ g :: l₂) l' g.start n := by
  have hgb := (h.row.bounds (g := g) (by simp)).2.1
  unfold stop at hgb
  have hpos : ∀ x ∈ l₁ ++ l₂, 0 < x.len := fun x hx => h.row.pos hx
  have hwas : ∃ x ∈ l₁ ++ g :: l₂, x.free = true ∧ x.start = g.start ∧ n ≤ x.len :=
    ⟨g, by simp, hfree, rfl, hle⟩
  rw [ensures_bind]
  refine (h.listed.ensures_linkDel hfree fun x hx => h.row.start_ne hx).mono fun _ s₁ ⟨hp, he, hph, hlisted⟩ => ?_
  rw [ensures_bind, linkInit, ensures_modify, ensures_bind, ensures_storePages (by omega), ensures_bind,
    ensures_storePages (by omega)]
  -- the range that is handed out, and the fields of the others
  set s₂ : Kmap := { s₁ with
    pages := Function.update (Function.update s₁.pages g.start n) (g.start + n - 1) n
    empty := Function.update s₁.empty g.start true } with hs₂
  have hlisted₂ : Listed s₂ (l₁ ++ ⟨g.start, n, false⟩ :: l₂) := (hlisted.insert_used rfl).congr rfl
  have htag₂ : Tagged s₂ (l₁ ++ ⟨g.start, n, false⟩ :: l₂) := by
    intro x hx
    rw [hs₂]
    dsimp only
    by_cases hx' : x ∈ l₁ ++ l₂
    · have hap := h.row.split hx'
      have hxp := hpos x hx'
      obtain ⟨ht₁, ht₂, ht₃⟩ := h.tagged x (mem_middle.2 (Or.inr hx'))
      unfold stop at hap ht₂ ⊢
      rw [hp, he, Function.update_of_ne (by omega), Function.update_of_ne (by omega),
        Function.update_of_ne (by omega), Function.update_of_ne (by omega),
        Function.update_of_ne (by omega)]
      exact ⟨ht₁, ht₂, ht₃⟩
    · obtain rfl : x = ⟨g.start, n, false⟩ := (mem_middle.1 hx).resolve_right hx'
      refine ⟨?_, Function.update_self _ _ _, Function.update_self _ _ _⟩
      dsimp only
      by_cases hone : g.start = g.start + n - 1
      · rw [← hone, Function.update_self]
      · rw [Function.update_of_ne hone, Function.update_self]
  obtain ⟨a, hl₁, hstart, -, hl₂⟩ := inRow_append.1 h.row
  have hnew : (⟨g.start, n, false⟩ : Segment) ∉ l₁ ++ g :: l₂ := by
    intro hc
    have := h.row.eq_of_start (h := g) hc (by simp) rfl
    rw [← this] at hfree
    exact nomatch hfree
  have hused : ∀ x : Segment, x.free = false →
      (x ∈ l₁ ++ ⟨g.start, n, false⟩ :: l₂ ↔ x = ⟨g.start, n, false⟩ ∨ x ∈ l₁ ++ g :: l₂) := by
    intro x hx
    have hxg : x ≠ g := by
      rintro rfl
      rw [hfree] at hx
      exact nomatch hx
    rw [mem_middle, mem_middle, or_iff_right hxg]
  by_cases hlt : n < g.len
  · rw [if_pos hlt, ensures_bind]
    have hpend : Pending s₂ (l₁ ++ [⟨g.start, n, false⟩]) (g.start + n) (g.len - n) l₂ := by
      refine ⟨?_, ?_, ?_⟩
      · rw [List.append_assoc, List.singleton_append]
        refine inRow_append.2 ⟨a, hl₁, hstart, hn, rfl, ?_, ?_⟩
        · dsimp only
          omega
        · unfold stop at hl₂ ⊢
          dsimp only
          rw [show g.start + n + (g.len - n) = g.start + g.len by omega]
          exact hl₂
      all_goals rw [List.append_assoc, List.singleton_append]
      · exact htag₂
      · exact hlisted₂
    refine hpend.ensures_kmapFreeRange.mono fun _ s₃ ⟨hph₃, l', h₃, hu, hsep⟩ => ?_
    refine ensures_pure.2 ⟨hph₃.trans hph, l', rfl, h₃, hwas, hnew, fun x hx => ?_, fun hs => ?_⟩
    · rw [hu x hx, List.append_assoc, List.singleton_append]
      exact hused x hx
    · obtain ⟨hs₁, hs₂, -⟩ := List.isChain_append.1 hs
      refine hsep ?_ hs₂.of_cons
      exact List.isChain_append.2 ⟨hs₁, List.isChain_singleton _,
        fun x _ y hy => Or.inr (Option.some.inj hy ▸ rfl)⟩
  · obtain rfl : n = g.len := by omega
    rw [if_neg hlt]
    refine ensures_pure.2 ⟨hph, _, rfl, ⟨?_, htag₂, hlisted₂⟩, hwas, hnew, hused, fun hs => ?_⟩
    · exact inRow_append.2 ⟨a, hl₁, hstart, hn, hl₂⟩
    · obtain ⟨hs₁, hs₂, -⟩ := List.isChain_append.1 hs
      exact List.isChain_append.2 ⟨hs₁, List.isChain_cons.2 ⟨fun _ _ => Or.inl rfl, hs₂.of_cons⟩,
        fun x _ y hy => Or.inr (Option.some.inj hy ▸ rfl)⟩

theorem kmapOrder_mono {m : ℕ} (h : n ≤ m) : kmapOrder n ≤ kmapOrder m := by
  unfold kmapOrder
  rw [Nat.log2_eq_log_two, Nat.log2_eq_log_two]
  exact min_le_min_right _ (Nat.log_mono_right h)

/-- **`kmap_alloc_range`** gives a range that was free, or there is no free range of that length. -/
theorem RangesOk.ensures_kmapAllocRange_complete (h : RangesOk s l) (hn : 0 < n) :
    Ensures (kmapAllocRange n) s fun o s' => s'.phys = s.phys ∧
      ((o = none ∧ s' = s ∧ ∀ g ∈ l, g.free = true → g.len < n) ∨
        ∃ r l', o = some r ∧ Carved s' l l' r n) := by
  unfold kmapAllocRange
  -- the free ranges on the lists that were searched are too short
  have hloop : ∀ k order, order + k = kmapOrders →
      (∀ g ∈ l, g.free = true → kmapOrder g.len < order → g.len < n) →
      Ensures (kmapAllocLoop n k order) s fun o s' => s'.phys = s.phys ∧
        ((o = none ∧ s' = s ∧ ∀ g ∈ l, g.free = true → g.len < n) ∨
          ∃ r l', o = some r ∧ Carved s' l l' r n) := by
    intro k
    induction k with
    | zero =>
      intro order horder hshort
      refine ensures_pure.2 ⟨rfl, Or.inl ⟨rfl, rfl, fun g hg hfree => hshort g hg hfree ?_⟩⟩
      have := kmapOrder_lt g.len
      omega
    | succ k ih =>
      intro order horder hshort
      unfold kmapAllocLoop kmapFindFreeRange
      simp only [ensures_bind, ensures_get, ensures_pure]
      cases hfind : (s.free order).find? fun r => decide (n ≤ s.pages r) with
      | none =>
        refine ih (order + 1) (by omega) fun g hg hfree hlt => ?_
        rcases Nat.lt_or_eq_of_le (Nat.lt_succ_iff.1 hlt) with hlt | heq
        · exact hshort g hg hfree hlt
        · have hnot := List.find?_eq_none.1 hfind g.start ((h.listed.mem _ _).2 ⟨g, hg, rfl, hfree, heq⟩)
          rw [(h.tagged g hg).1] at hnot
          simpa using hnot
      | some r =>
        have hmem := List.mem_of_find?_eq_some hfind
        have hfits := List.find?_some hfind
        obtain ⟨g, hg, rfl, hfree, -⟩ := (h.listed.mem order r).1 hmem
        have htag := (h.tagged g hg).1
        have hgb := (h.row.bounds hg).2
        rw [decide_eq_true_eq, htag] at hfits
        obtain ⟨l₁, l₂, rfl⟩ := List.append_of_mem hg
        dsimp only
        unfold stop at hgb
        rw [ensures_bind, ensures_loadPages (by omega), htag]
        refine (h.ensures_cut hfree hn hfits).mono fun o s' hr => ?_
        obtain ⟨hph, l', ho, hcarved⟩ := hr
        exact ⟨hph, Or.inr ⟨_, l', ho, hcarved⟩⟩
  refine hloop _ _ (by have := kmapOrder_lt n; omega) fun g _ _ hlt => ?_
  by_contra hge
  have := kmapOrder_mono (Nat.le_of_not_lt hge)
  omega

/-- **`kmap_alloc_range`** -/
theorem RangesOk.ensures_kmapAllocRange (h : RangesOk s l) (hn : 0 < n) :
    Ensures (kmapAllocRange n) s fun o s' => s'.phys = s.phys ∧ Allocated s l n s' o := by
  refine (h.ensures_kmapAllocRange_complete hn).mono fun o s' ⟨hph, ho⟩ => ⟨hph, ?_⟩
  rcases ho with ⟨rfl, rfl, -⟩ | ⟨r, l', rfl, hcarved⟩
  · exact .none rfl
  · exact .some hcarved.ok hcarved.new hcarved.used

end

end Paging

end Kernel64
