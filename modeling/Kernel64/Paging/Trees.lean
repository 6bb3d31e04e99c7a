import Kernel64.Paging.Walk

/-!
# Trees of page tables

The tables on the way to a page (`Under`), in any state of memory. Where no table is reached in two ways and
the allocator has none of them (`Tree`), an entry belongs to the pages of one slot: to link an empty table
changes no translation (`Links.grown`), and to store a leaf changes those of the slot only (`Tree.store`).
-/

namespace Kernel64

namespace Paging

/-- The table at a level on the way to page `p`. -/
inductive Under (table : Pfn → ℕ → Pte) (root : Pfn) (p : ℕ) : ℕ → Pfn → Prop where
  | top : Under table root p 3 root
  | step {k : ℕ} {t : Pfn} (h : Under table root p (k + 1) t) (hleads : (table t (digit p (k + 1))).Leads) :
    Under table root p k (table t (digit p (k + 1))).pfn

/-- The entries that lead to page `p` let it be written. -/
def Open (table : Pfn → ℕ → Pte) (root : Pfn) (p : ℕ) : Prop :=
  ∀ k t, Under table root p (k + 1) t → (table t (digit p (k + 1))).Leads →
    (table t (digit p (k + 1))).write = true

/-- The tables under the top one are reached in one way each, and are in use. -/
structure Tree (s : Phys) (root : Pfn) : Prop where
  inj : ∀ {p p' k k' t}, p < 2 ^ 36 → p' < 2 ^ 36 → Under s.table root p k t → Under s.table root p' k' t →
    k = k' ∧ p / 512 ^ (k + 1) = p' / 512 ^ (k + 1)
  busy : ∀ {p k t}, p < 2 ^ 36 → Under s.table root p k t → s.free t = false

section

variable {table table' : Pfn → ℕ → Pte} {s s' : Phys} {root t u pt : Pfn} {e : Pte} {p p' k k' addr : ℕ}

/-- The pages under an entry. -/
theorem group_eq_iff : p / 512 ^ k = p' / 512 ^ k ↔
    p / 512 ^ (k + 1) = p' / 512 ^ (k + 1) ∧ digit p k = digit p' k := by
  rw [← digit_group, ← digit_group, digit, digit]
  omega

theorem pmlIndex_eq_digit (hk : k ≤ 3) (addr : ℕ) : pmlIndex k addr = digit (pageDown addr) k := by
  have h := linear_eq addr
  have hr : addr % 4096 < 4096 := Nat.mod_lt _ (by omega)
  have hlt : ∀ j, pmlIndex j addr < 512 := fun j => Nat.mod_lt _ (by omega)
  have h0 := hlt 0
  have h1 := hlt 1
  have h2 := hlt 2
  have h3 := hlt 3
  unfold digit pageDown pageSize
  rw [h]
  interval_cases k
  all_goals
    norm_num
    omega

theorem pageDown_lt (addr : ℕ) : pageDown addr < 2 ^ 36 := by
  unfold pageDown linear pageSize
  omega

/-! ### The tables on the way -/

theorem Under.le (h : Under table root p k t) : k ≤ 3 := by
  induction h with
  | top => exact le_rfl
  | step h hleads ih => omega

/-- The entry on the way to a table. -/
theorem Under.parent (h : Under table root p k t) (hk : k < 3) :
    ∃ t', Under table root p (k + 1) t' ∧ (table t' (digit p (k + 1))).Leads ∧
      t = (table t' (digit p (k + 1))).pfn := by
  cases h with
  | top => omega
  | step h hleads => exact ⟨_, h, hleads, rfl⟩

theorem Under.unique (h : Under table root p k t) : ∀ {u}, Under table root p k u → t = u := by
  induction h with
  | top =>
    intro u hu
    cases hu with
    | top => rfl
    | step h _ => exact absurd h.le (by omega)
  | step h _ ih =>
    intro u hu
    obtain ⟨u', hu', -, rfl⟩ := hu.parent (by have := h.le; omega)
    rw [ih hu']

/-- Where there is a table on the way, there are those above it. -/
theorem Under.exists_above (h : Under table root p k t) (hk : k ≤ k') (hk' : k' ≤ 3) :
    ∃ u, Under table root p k' u := by
  induction k', hk using Nat.le_induction with
  | base => exact ⟨t, h⟩
  | succ k' _ ih =>
    obtain ⟨u, hu⟩ := ih (by omega)
    obtain ⟨u', hu', -⟩ := hu.parent (by omega)
    exact ⟨u', hu'⟩

/-- The pages of a table share it. -/
theorem Under.congr (h : Under table root p k t) :
    p / 512 ^ (k + 1) = p' / 512 ^ (k + 1) → Under table root p' k t := by
  induction h with
  | top => exact fun _ => .top
  | step h hleads ih =>
    intro hgroup
    obtain ⟨hup, hdigit⟩ := group_eq_iff.1 hgroup
    rw [hdigit] at hleads ⊢
    exact .step (ih hup) hleads

/-- Tables with the same entries on the way. -/
theorem Under.imp (hsame : ∀ k t, Under table root p (k + 1) t → (table t (digit p (k + 1))).Leads →
      table' t (digit p (k + 1)) = table t (digit p (k + 1))) (h : Under table root p k t) :
    Under table' root p k t := by
  induction h with
  | top => exact .top
  | step h hleads ih =>
    have heq := hsame _ _ h hleads
    rw [← heq] at hleads ⊢
    exact .step ih hleads

/-! ### Translation -/

/-- The translation of an address goes through the tables on the way to its page. -/
theorem Under.translate_eq (h : Under table root (pageDown addr) k t) :
    ∃ w, translate table root addr = translateFrom table addr k t w ∧
      (Open table root (pageDown addr) → w = true) := by
  induction h with
  | top => exact ⟨true, rfl, fun _ => rfl⟩
  | @step k t h hleads ih =>
    obtain ⟨w, hw, hopen⟩ := ih
    have hidx := pmlIndex_eq_digit h.le addr
    refine ⟨w && (table t (digit (pageDown addr) (k + 1))).write, ?_, fun ho => ?_⟩
    · rw [hw, translateFrom, hidx, if_pos hleads.1, if_neg hleads.2]
    · rw [hopen ho, ho k t h hleads]
      rfl

/-- Tables that are the same on the way to a page translate its addresses in the same way. -/
theorem translateFrom_congr (hsame : ∀ k t, Under table root (pageDown addr) k t →
      table' t (digit (pageDown addr) k) = table t (digit (pageDown addr) k)) :
    ∀ {k t} {w : Bool}, Under table root (pageDown addr) k t →
      translateFrom table' addr k t w = translateFrom table addr k t w
  | 0, t, w, h => by
    rw [translateFrom, translateFrom, pmlIndex_eq_digit h.le, hsame 0 t h]
  | k + 1, t, w, h => by
    rw [translateFrom, translateFrom, pmlIndex_eq_digit h.le, hsame (k + 1) t h]
    split_ifs with hpresent hlarge
    · rfl
    · exact translateFrom_congr hsame (.step h ⟨hpresent, hlarge⟩)
    · rfl

/-- Nothing is found through an empty table. -/
theorem translateFrom_zero (hzero : ∀ j, table t j = .zero) {w : Bool} :
    translateFrom table addr k t w = none := by
  cases k with
  | zero => rw [translateFrom, hzero, if_neg (by decide)]
  | succ k => rw [translateFrom, hzero, if_neg (by decide)]

/-- An address that is not translated: the entries on the way lead on, or are not present. -/
theorem Under.leads_of_none (h : Under table root (pageDown addr) k t)
    (hnone : translate table root addr = none) (hpresent : (table t (digit (pageDown addr) k)).present = true) :
    k ≠ 0 ∧ (table t (digit (pageDown addr) k)).Leads := by
  obtain ⟨w, hw, -⟩ := h.translate_eq
  rw [hw] at hnone
  cases k with
  | zero =>
    rw [translateFrom, pmlIndex_eq_digit h.le, if_pos hpresent] at hnone
    cases hnone
  | succ k =>
    refine ⟨Nat.succ_ne_zero k, hpresent, fun hlarge => ?_⟩
    rw [translateFrom, pmlIndex_eq_digit h.le, if_pos hpresent, if_pos hlarge] at hnone
    cases hnone

/-- The table at level 0 on the way to a page that is reached. -/
theorem Reaches.under {E : ℕ → ℕ → Pte} (h : Reaches table root E p) : ∀ {k}, k ≤ 3 →
    Under table root p k (tab root E k (p / 512 ^ (k + 1))) := by
  have hstep : ∀ {k}, k < 3 → Under table root p (k + 1) (tab root E (k + 1) (p / 512 ^ (k + 2))) →
      Under table root p k (tab root E k (p / 512 ^ (k + 1))) := by
    intro k hk hu
    obtain ⟨hentry, hpresent, hlarge⟩ := h k hk
    have hnext := Under.step hu
    rw [hentry] at hnext
    rw [tab_of_lt hk]
    exact hnext ⟨hpresent, by rw [hlarge]; exact Bool.false_ne_true⟩
  have h3 : Under table root p 3 (tab root E 3 (p / 512 ^ (3 + 1))) := .top
  have h2 := hstep (by omega) h3
  have h1 := hstep (by omega) h2
  intro k hk
  interval_cases k
  · exact hstep (by omega) h1
  · exact h1
  · exact h2
  · exact h3

/-- **The translation** of an address whose page is reached. -/
theorem Reaches.translate_eq {E : ℕ → ℕ → Pte} (h : Reaches table root E (pageDown addr))
    (hentry : table (E 0 (pageDown addr / 512)).pfn (pageDown addr % 512) = e) (hpresent : e.present = true) :
    ∃ w, translate table root addr = some (e.pfn, w) := by
  have hu := h.under (Nat.zero_le 3)
  obtain ⟨w, hw, -⟩ := hu.translate_eq
  have hdigit : pmlIndex 0 addr = pageDown addr % 512 := by
    rw [pmlIndex_eq_digit hu.le, digit, pow_zero, Nat.div_one]
  rw [tab_of_lt (by omega), pow_one] at hw
  rw [translateFrom, hdigit, hentry, if_pos hpresent] at hw
  exact ⟨_, hw⟩

/-! ### Linking an empty table -/

/-- The step links the table `pt`, which the allocator had, at an entry. -/
structure Links (s s' : Phys) (t : Pfn) (i : ℕ) (pt : Pfn) (e : Pte) : Prop where
  free : s.free pt = true
  table_eq : ∀ u j, s'.table u j = if u = t ∧ j = i then e else if u = pt then .zero else s.table u j
  free_eq : ∀ u, s'.free u = if u = pt then false else s.free u

/-- The step changes no translation, and keeps the tables there are. -/
structure Grown (root : Pfn) (s s' : Phys) : Prop where
  tree : Tree s' root
  under : ∀ {p k t}, p < 2 ^ 36 → Under s.table root p k t → Under s'.table root p k t
  translate : ∀ addr, translate s'.table root addr = translate s.table root addr
  opened : ∀ {p}, p < 2 ^ 36 → Open s.table root p → Open s'.table root p

theorem Tree.grown (h : Tree s root) (htable : s'.table = s.table) (hfree : s'.free = s.free) :
    Grown root s s' := by
  refine ⟨⟨?_, ?_⟩, ?_, ?_, ?_⟩
  · intro p p' k k' t
    rw [htable]
    exact h.inj
  · intro p k t
    rw [htable, hfree]
    exact h.busy
  · intro p k t _ hu
    rwa [htable]
  · intro addr
    rw [htable]
  · intro p _ ho
    rwa [htable]

theorem Grown.trans {s₁ s₂ s₃ : Phys} (h : Grown root s₁ s₂) (h' : Grown root s₂ s₃) : Grown root s₁ s₃ where
  tree := h'.tree
  under := fun hp hu => h'.under hp (h.under hp hu)
  translate := fun addr => (h'.translate addr).trans (h.translate addr)
  opened := fun hp ho => h'.opened hp (h.opened hp ho)

section

variable (h : Tree s root) (hp : p < 2 ^ 36) (ht : Under s.table root p (k + 1) t)
  (hl : Links s s' t (digit p (k + 1)) pt e)

include h in
theorem Links.ne_of_under (hl : Links s s' t (digit p (k + 1)) pt e) (hp' : p' < 2 ^ 36)
    (hu : Under s.table root p' k' u) : u ≠ pt := by
  rintro rfl
  have hbusy := h.busy hp' hu
  rw [hl.free] at hbusy
  cases hbusy

include h hl in
/-- The entries of the tables there were are the same but for one. -/
theorem Links.entry_eq (hp' : p' < 2 ^ 36) (hu : Under s.table root p' k' u) (j : ℕ) :
    s'.table u j = if u = t ∧ j = digit p (k + 1) then e else s.table u j := by
  rw [hl.table_eq, if_neg (hl.ne_of_under h hp' hu)]

include h hp ht in
/-- The pages whose way goes through the entry. -/
theorem Links.here (hp' : p' < 2 ^ 36) (hu : Under s.table root p' k' t) (hdigit : digit p' k' = digit p (k + 1)) :
    k' = k + 1 ∧ p' / 512 ^ (k + 1) = p / 512 ^ (k + 1) := by
  obtain ⟨rfl, hgroup⟩ := h.inj hp' hp hu ht
  exact ⟨rfl, group_eq_iff.2 ⟨hgroup, hdigit⟩⟩

include h hp ht hl in
/-- The tables after the step: those there were, and the new one. -/
theorem Links.under_cases (hp' : p' < 2 ^ 36) (hpfn : e.pfn = pt) (hu : Under s'.table root p' k' u) :
    Under s.table root p' k' u ∨ u = pt ∧ k' = k ∧ p' / 512 ^ (k + 1) = p / 512 ^ (k + 1) := by
  induction hu with
  | top => exact Or.inl .top
  | @step k' u hu hleads ih =>
    rcases ih with hold | ⟨rfl, -, -⟩
    · rw [hl.entry_eq h hp' hold] at hleads ⊢
      split_ifs at hleads ⊢ with hat
      · obtain ⟨rfl, hdigit⟩ := hat
        obtain ⟨hk, hgroup⟩ := Links.here h hp ht hp' hold hdigit
        exact Or.inr ⟨hpfn, by omega, hgroup⟩
      · exact Or.inl (.step hold hleads)
    · -- the new table is empty
      rw [hl.table_eq, if_neg fun hat => hl.ne_of_under h hp ht hat.1.symm, if_pos rfl] at hleads
      exact absurd hleads.1 (by decide)

include h hl in
/-- The tables there were are still there, when the entry was not present. -/
theorem Links.under (habsent : ¬(s.table t (digit p (k + 1))).present = true) (hp' : p' < 2 ^ 36)
    (hu : Under s.table root p' k' u) : Under s'.table root p' k' u := by
  refine hu.imp fun k' u hu hleads => ?_
  rw [hl.entry_eq h hp' hu, if_neg]
  rintro ⟨rfl, hdigit⟩
  rw [hdigit] at hleads
  exact habsent hleads.1

include h hp ht hl in
/-- The new table is on the way to the pages of its entry. -/
theorem Links.under_new (habsent : ¬(s.table t (digit p (k + 1))).present = true) (hleads : e.Leads)
    (hpfn : e.pfn = pt) : Under s'.table root p k pt := by
  have hentry : s'.table t (digit p (k + 1)) = e := by rw [hl.entry_eq h hp ht, if_pos ⟨rfl, rfl⟩]
  rw [← hpfn, ← hentry]
  exact .step (hl.under h habsent hp ht) (hentry.symm ▸ hleads)

include h hp ht hl in
theorem Links.translateFrom_eq (habsent : ¬(s.table t (digit p (k + 1))).present = true) (hleads : e.Leads)
    (hpfn : e.pfn = pt) : ∀ {k' u} {w : Bool}, Under s.table root (pageDown addr) k' u →
      translateFrom s'.table addr k' u w = translateFrom s.table addr k' u w
  | 0, u, w, hu => by
    have hentry : s'.table u (digit (pageDown addr) 0) = s.table u (digit (pageDown addr) 0) := by
      rw [hl.entry_eq h (pageDown_lt addr) hu, if_neg]
      rintro ⟨rfl, hdigit⟩
      exact absurd (Links.here h hp ht (pageDown_lt addr) hu hdigit).1 (by omega)
    rw [translateFrom, translateFrom, pmlIndex_eq_digit hu.le, hentry]
  | k' + 1, u, w, hu => by
    have hentry := hl.entry_eq h (pageDown_lt addr) hu (digit (pageDown addr) (k' + 1))
    rw [translateFrom, translateFrom, pmlIndex_eq_digit hu.le]
    by_cases hat : u = t ∧ digit (pageDown addr) (k' + 1) = digit p (k + 1)
    · -- nothing was there, and there is nothing in the new table
      rw [if_pos hat] at hentry
      obtain ⟨rfl, hdigit⟩ := hat
      rw [hentry, hdigit, if_pos hleads.1, if_neg hleads.2, if_neg habsent, hpfn]
      refine translateFrom_zero fun j => ?_
      rw [hl.table_eq, if_neg fun hat => hl.ne_of_under h hp ht hat.1.symm, if_pos rfl]
    · rw [if_neg hat] at hentry
      rw [hentry]
      split_ifs with hpresent hlarge
      · rfl
      · exact Links.translateFrom_eq habsent hleads hpfn (.step hu ⟨hpresent, hlarge⟩)
      · rfl

include h hp ht hl in
/-- **Linking** an empty table changes no translation. -/
theorem Links.grown (habsent : ¬(s.table t (digit p (k + 1))).present = true) (hleads : e.Leads)
    (hpfn : e.pfn = pt) (hwrite : e.write = true) : Grown root s s' := by
  refine ⟨⟨?_, ?_⟩, fun hp' hu => hl.under h habsent hp' hu, fun addr => ?_, ?_⟩
  · intro p₁ p₂ k₁ k₂ u hp₁ hp₂ hu₁ hu₂
    rcases hl.under_cases h hp ht hp₁ hpfn hu₁ with hold₁ | ⟨rfl, rfl, hg₁⟩
    · rcases hl.under_cases h hp ht hp₂ hpfn hu₂ with hold₂ | ⟨rfl, -, -⟩
      · exact h.inj hp₁ hp₂ hold₁ hold₂
      · exact absurd rfl (hl.ne_of_under h hp₁ hold₁)
    · rcases hl.under_cases h hp ht hp₂ hpfn hu₂ with hold₂ | ⟨-, rfl, hg₂⟩
      · exact absurd rfl (hl.ne_of_under h hp₂ hold₂)
      · exact ⟨rfl, hg₁.trans hg₂.symm⟩
  · intro p' k' u hp' hu
    rw [hl.free_eq]
    split_ifs with hne
    · rfl
    · exact h.busy hp' ((hl.under_cases h hp ht hp' hpfn hu).resolve_right fun hnew => hne hnew.1)
  · exact hl.translateFrom_eq h hp ht habsent hleads hpfn .top
  · intro p' hp' ho k' u hu hleads'
    rcases hl.under_cases h hp ht hp' hpfn hu with hold | ⟨rfl, -, -⟩
    · rw [hl.entry_eq h hp' hold] at hleads' ⊢
      split_ifs at hleads' ⊢ with hat
      · exact hwrite
      · exact ho k' u hold hleads'
    · rw [hl.table_eq, if_neg fun hat => hl.ne_of_under h hp ht hat.1.symm, if_pos rfl] at hleads'
      exact absurd hleads'.1 (by decide)

end

/-! ### Storing a leaf -/

/-- The step stores an entry. -/
structure Stores (s s' : Phys) (t : Pfn) (i : ℕ) (e : Pte) : Prop where
  table_eq : ∀ u j, s'.table u j = if u = t ∧ j = i then e else s.table u j
  free_eq : s'.free = s.free

section

variable (h : Tree s root) (hp : p < 2 ^ 36) (ht : Under s.table root p k t)
  (hs : Stores s s' t (digit p k) e) (hold : k = 0 ∨ ¬(s.table t (digit p k)).Leads) (hnew : k = 0 ∨ ¬e.Leads)

include h hp ht hs hold in
/-- The entries that lead to a table are the same. -/
theorem Stores.entry_of_leads (hp' : p' < 2 ^ 36) (hu : Under s.table root p' (k' + 1) u)
    (hleads : (s.table u (digit p' (k' + 1))).Leads) :
    s'.table u (digit p' (k' + 1)) = s.table u (digit p' (k' + 1)) := by
  rw [hs.table_eq, if_neg]
  rintro ⟨rfl, hdigit⟩
  obtain ⟨rfl, -⟩ := h.inj hp' hp hu ht
  rw [hdigit] at hleads
  exact hold.resolve_left (Nat.succ_ne_zero k') hleads

include h hp ht hs hold hnew in
/-- The tables are the same. -/
theorem Stores.under_iff (hp' : p' < 2 ^ 36) : Under s'.table root p' k' u ↔ Under s.table root p' k' u := by
  refine ⟨fun hu => ?_, Under.imp fun _ _ hu hleads => hs.entry_of_leads h hp ht hold hp' hu hleads⟩
  induction hu with
  | top => exact .top
  | @step k' u hu hleads ih =>
    rw [hs.table_eq] at hleads ⊢
    split_ifs at hleads ⊢ with hat
    · obtain ⟨rfl, hdigit⟩ := hat
      obtain ⟨rfl, -⟩ := h.inj hp' hp ih ht
      exact absurd hleads (hnew.resolve_left (Nat.succ_ne_zero k'))
    · exact .step ih hleads

include h hp ht hs hold hnew in
theorem Stores.tree : Tree s' root := by
  refine ⟨?_, ?_⟩
  · intro p₁ p₂ k₁ k₂ u hp₁ hp₂ hu₁ hu₂
    rw [hs.under_iff h hp ht hold hnew hp₁] at hu₁
    rw [hs.under_iff h hp ht hold hnew hp₂] at hu₂
    exact h.inj hp₁ hp₂ hu₁ hu₂
  · intro p' k' u hp' hu
    rw [hs.under_iff h hp ht hold hnew hp'] at hu
    rw [hs.free_eq]
    exact h.busy hp' hu

include h hp ht hs hold hnew in
theorem Stores.opened (hp' : p' < 2 ^ 36) (ho : Open s.table root p') : Open s'.table root p' := by
  intro k' u hu hleads
  rw [hs.under_iff h hp ht hold hnew hp'] at hu
  rw [hs.table_eq] at hleads ⊢
  split_ifs at hleads ⊢ with hat
  · obtain ⟨rfl, -⟩ := hat
    obtain ⟨rfl, -⟩ := h.inj hp' hp hu ht
    exact absurd hleads (hnew.resolve_left (Nat.succ_ne_zero k'))
  · exact ho k' u hu hleads

include h hp ht hs in
/-- The addresses of other slots are translated as before. -/
theorem Stores.translate_off (hout : pageDown addr / 512 ^ k ≠ p / 512 ^ k) :
    translate s'.table root addr = translate s.table root addr := by
  refine translateFrom_congr (fun k' u hu => ?_) .top
  rw [hs.table_eq, if_neg]
  rintro ⟨rfl, hdigit⟩
  obtain ⟨rfl, hgroup⟩ := h.inj (pageDown_lt addr) hp hu ht
  exact hout (group_eq_iff.2 ⟨hgroup, hdigit⟩)

include h hp ht hs hold hnew in
/-- The addresses of the slot are translated by the entry. -/
theorem Stores.translate_on (hin : pageDown addr / 512 ^ k = p / 512 ^ k) (hpresent : e.present = true)
    (ho : Open s.table root (pageDown addr)) :
    translate s'.table root addr = some (e.pfn + addr / pageSize % 512 ^ k, e.write) := by
  obtain ⟨hgroup, hdigit⟩ := group_eq_iff.1 hin
  have hu : Under s'.table root (pageDown addr) k t :=
    (hs.under_iff h hp ht hold hnew (pageDown_lt addr)).2 (ht.congr hgroup.symm)
  have hentry : s'.table t (pmlIndex k addr) = e := by
    rw [pmlIndex_eq_digit ht.le, hdigit, hs.table_eq, if_pos ⟨rfl, rfl⟩]
  obtain ⟨w, hw, hopen⟩ := hu.translate_eq
  rw [hw, hopen (hs.opened h hp ht hold hnew (pageDown_lt addr) ho)]
  cases k with
  | zero =>
    rw [translateFrom, hentry, if_pos hpresent, pow_zero, Nat.mod_one]
    rfl
  | succ k =>
    have hlarge : e.large = true := by
      by_contra hl
      exact hnew.resolve_left (Nat.succ_ne_zero k) ⟨hpresent, hl⟩
    rw [translateFrom, hentry, if_pos hpresent, if_pos hlarge, Bool.true_and]

end

/-! ### Slots -/

variable {it : PtIter}

/-- The page of a slot has the indices of the iterator. -/
theorem OnPath.digit_slotPage (h : OnPath table root it) (hk : k ≤ 3) : digit (slotPage it) k = it.idx k := by
  have h0 := h.idx_lt 0 (by omega)
  have h1 := h.idx_lt 1 (by omega)
  have h2 := h.idx_lt 2 (by omega)
  have h3 := h.idx_lt 3 (by omega)
  unfold digit slotPage
  interval_cases k
  all_goals
    norm_num
    omega

/-- The tables of an iterator are those on the way to its page. -/
theorem OnPath.under (h : OnPath table root it) (hk : it.level ≤ k) (hk3 : k ≤ 3) (ht : it.pt k = some t) :
    Under table root (slotPage it) k t := by
  -- by induction from the top
  obtain ⟨n, rfl⟩ : ∃ n, k = 3 - n := ⟨3 - k, by omega⟩
  induction n generalizing t with
  | zero =>
    obtain rfl := Option.some.inj (h.top.symm.trans ht)
    exact .top
  | succ n ih =>
    rcases Nat.lt_or_ge n 3 with hn | hn
    · have hup : 3 - (n + 1) + 1 = 3 - n := by omega
      obtain ⟨t', ht', hleads, hpt⟩ := h.inner (3 - (n + 1)) hk (by omega)
      rw [hup] at ht' hleads hpt
      obtain rfl := Option.some.inj (hpt.symm.trans ht)
      have hu := ih (by omega) (by omega) ht'
      rw [← hup] at hu hleads ⊢
      rw [← h.digit_slotPage (by omega)] at hleads ⊢
      exact .step hu hleads
    · rw [show 3 - (n + 1) = 3 - n by omega] at hk ht ⊢
      exact ih hk (by omega) ht

theorem OnPath.slotPage_mod (h : OnPath table root it) : slotPage it % 512 ^ it.level = 0 := by
  have hlevel := h.level_le
  have hzero := h.idx_zero
  unfold slotPage
  generalize it.level = l at *
  interval_cases l
  · exact Nat.mod_one _
  · have hz := hzero 0 (by omega)
    norm_num [hz]
    omega
  · have hz := hzero 0 (by omega)
    have hz' := hzero 1 (by omega)
    norm_num [hz, hz']
    omega
  · have hz := hzero 0 (by omega)
    have hz' := hzero 1 (by omega)
    have hz'' := hzero 2 (by omega)
    norm_num [hz, hz', hz'']

/-- The pages of a slot. -/
theorem OnPath.mem_slot_iff (h : OnPath table root it) : p / 512 ^ it.level = slotPage it / 512 ^ it.level ↔
    slotPage it ≤ p ∧ p < slotPage it + 512 ^ it.level := by
  obtain ⟨c, hc⟩ := Nat.dvd_of_mod_eq_zero h.slotPage_mod
  have hpos : 0 < 512 ^ it.level := Nat.pow_pos (by omega)
  rw [hc, Nat.mul_div_cancel_left c hpos, Nat.div_eq_iff hpos]
  rw [Nat.mul_comm c]
  omega

/-- Where the tables of the upper levels are there, an iterator goes down to level 1 at least. -/
theorem AtSlot.level_le_one (h : AtSlot table root it)
    (hp : p / 512 ^ it.level = slotPage it / 512 ^ it.level) (hu : Under table root p 1 u) : it.level ≤ 1 := by
  by_contra hlt
  have hle := h.level_le
  obtain ⟨t, ht, hstop⟩ := h.stop
  obtain ⟨u', hu'⟩ := hu.exists_above (show 1 ≤ it.level - 1 by omega) (by omega)
  obtain ⟨t', ht', hleads, -⟩ := hu'.parent (by omega)
  rw [Nat.sub_add_cancel (by omega)] at ht' hleads
  obtain ⟨hgroup, hdigit⟩ := group_eq_iff.1 hp
  obtain rfl := (ht'.congr hgroup).unique (h.under le_rfl hle ht)
  rw [hdigit, h.digit_slotPage hle] at hleads
  exact hstop.resolve_left (by omega) hleads

/-- An iterator goes on after the entry of its slot is stored. -/
theorem Stores.onPath (hs : Stores s s' t (it.idx it.level) e) (h : Tree s root) (hit : AtSlot s.table root it)
    (ht : it.pt it.level = some t) : OnPath s'.table root it := by
  have hu := hit.under le_rfl hit.level_le ht
  have hstop : it.level = 0 ∨ ¬(s.table t (digit (slotPage it) it.level)).Leads := by
    obtain ⟨t', ht', hstop⟩ := hit.stop
    obtain rfl := Option.some.inj (ht'.symm.trans ht)
    rwa [hit.digit_slotPage hit.level_le]
  rw [← hit.digit_slotPage hit.level_le] at hs
  refine { hit.toOnPath with inner := fun k hk hk3 => ?_ }
  obtain ⟨t', ht', hleads, hpt⟩ := hit.inner k hk hk3
  have hu' := hit.under (by omega) (by omega) ht'
  rw [← hit.digit_slotPage (by omega)] at hleads hpt ⊢
  have hsame := hs.entry_of_leads h hit.slotPage_lt hu hstop hit.slotPage_lt hu' hleads
  refine ⟨t', ht', ?_⟩
  rw [hsame]
  exact ⟨hleads, hpt⟩

end

end Paging

end Kernel64
