import Kernel64.Paging.Slots
import Kernel64.Paging.Tables

/-!
# Walking counted tables

Where the tables on the way to a page are there (`Reaches`), an iterator set to the page stands at its
entry at level 0 (`Reaches.ptIterSet_eq`), and the next one stands at the entry of the next page
(`ptIterNext_pathIter`). A loop over the slots of a range of such pages is thus a loop over the pages
(`ensures_slots`), as long as its body leaves the upper levels alone. Counted pages are of this kind.
-/

namespace Kernel64

namespace Paging

section

variable {s s' : Phys} {root : Pfn} {E : ℕ → ℕ → Pte} {C : Counts} {k g p : ℕ}

/-- The index of a page at a level. -/
def digit (p k : ℕ) : ℕ := p / 512 ^ k % 512

/-- The iterator at the entry of page `p`. -/
def pathIter (root : Pfn) (E : ℕ → ℕ → Pte) (p : ℕ) : PtIter where
  level := 0
  pt := fun k => if k ≤ 3 then some (tab root E k (p / 512 ^ (k + 1))) else none
  idx := fun k => if k ≤ 3 then digit p k else 0
  addr := canonical (4096 * p)

/-- The invariant of the tables says nothing about the entries at level 0. -/
theorem PtOk.congr (h : PtOk s root E C)
    (htable : ∀ k g, k < 3 → Live C (k + 1) g →
      s'.table (tab root E (k + 1) g) = s.table (tab root E (k + 1) g))
    (hu : ∀ k g, k < 3 → 0 < load C k g → s'.u (E k g).pfn = s.u (E k g).pfn)
    (hfree : ∀ k g, Live C k g → s'.free (tab root E k g) = false) : PtOk s' root E C := by
  refine ⟨h.mono, h.user, h.bound, fun k g hk hg hl => ?_, h.shape, fun k g hk hl => ?_, h.inj,
    hfree⟩
  · rw [htable k _ hk hl]
    exact h.entry k g hk hg hl
  · rw [hu k g hk hl]
    exact h.count k g hk hl

/-! ### Setting an iterator -/

theorem pmlIndex_page (k p : ℕ) : pmlIndex k (4096 * p) = digit p k := by
  rw [pmlIndex, digit, pow_add, ← Nat.div_div_eq_div_mul, show 2 ^ 12 = 4096 by rfl,
    Nat.mul_div_cancel_left p (by omega), pow_mul, show 2 ^ 9 = 512 by rfl]

theorem digit_group (p k : ℕ) : p / 512 ^ k / 512 = p / 512 ^ (k + 1) := by
  rw [Nat.div_div_eq_div_mul, ← pow_succ]

/-- A counted page is counted at every level. -/
theorem PtOk.load_pos_of_page (h : PtOk s root E C) (hp : 0 < load C 0 (p / 512)) (hk : k < 3) :
    0 < load C k (p / 512 ^ (k + 1)) := by
  induction k with
  | zero => simpa using hp
  | succ k ih =>
    have := h.live_parent (by omega : k < 3) (ih (by omega))
    rwa [digit_group, live_iff_of_lt hk] at this

/-- The entry on the way to a counted page. -/
theorem PtOk.entry_of_page (h : PtOk s root E C) (hp : 0 < load C 0 (p / 512)) (hk : k < 3) :
    s.table (tab root E (k + 1) (p / 512 ^ (k + 2))) (digit p (k + 1)) = E k (p / 512 ^ (k + 1)) ∧
      (E k (p / 512 ^ (k + 1))).present = true ∧ (E k (p / 512 ^ (k + 1))).large = false := by
  have hl := h.load_pos_of_page hp hk
  have hentry := h.entry k _ hk (h.group_lt hk hl) (h.live_parent hk hl)
  rw [digit_group, if_pos hl] at hentry
  exact ⟨hentry, h.shape k _ hk hl⟩

/-- The entries on the way to a page are there, and lead to its table. -/
def Reaches (table : Pfn → ℕ → Pte) (root : Pfn) (E : ℕ → ℕ → Pte) (p : ℕ) : Prop :=
  ∀ k < 3, table (tab root E (k + 1) (p / 512 ^ (k + 2))) (digit p (k + 1)) = E k (p / 512 ^ (k + 1)) ∧
    (E k (p / 512 ^ (k + 1))).present = true ∧ (E k (p / 512 ^ (k + 1))).large = false

theorem PtOk.reaches (h : PtOk s root E C) (hp : 0 < load C 0 (p / 512)) : Reaches s.table root E p :=
  fun _ hk => h.entry_of_page hp hk

/-- The descent to a page. -/
theorem Reaches.ptDescend_eq (h : Reaches s.table root E p) {d : ℕ → ℕ} :
    ∀ {k : ℕ} (_ : k ≤ 3) (_ : ∀ j < k, d j = digit p j) (it : PtIter),
      ptDescend s.table d k (s.table (tab root E k (p / 512 ^ (k + 1))) (digit p k)) it =
        { it with
          level := 0
          pt := fun j => if j < k then some (tab root E j (p / 512 ^ (j + 1))) else it.pt j
          idx := fun j => if j < k then digit p j else it.idx j }
  | 0, _, _, it => by simp [ptDescend]
  | k + 1, hk, hd, it => by
    obtain ⟨hentry, hpres, hlarge⟩ := h k (by omega)
    rw [ptDescend, hentry, if_pos ⟨hpres, by simp [hlarge]⟩, hd k (by omega),
      ← tab_of_lt (by omega), h.ptDescend_eq (by omega) (fun j hj => hd j (by omega))]
    simp only [PtIter.mk.injEq, true_and, and_true]
    constructor
    · funext j
      rcases Nat.lt_trichotomy j k with hj | rfl | hj
      · simp [hj, Nat.lt_succ_of_lt hj]
      · simp
      · simp [show ¬j < k by omega, show ¬j < k + 1 by omega, hj.ne']
    · funext j
      rcases Nat.lt_trichotomy j k with hj | rfl | hj
      · simp [hj, Nat.lt_succ_of_lt hj]
      · simp
      · simp [show ¬j < k by omega, show ¬j < k + 1 by omega, hj.ne']

/-- The address of a page, from its indices. -/
theorem ptIterAddr_digit (p : ℕ) {idx : ℕ → ℕ} (hp : p < 2 ^ 36) (hidx : ∀ j ≤ 3, idx j = digit p j) :
    ptIterAddr idx = canonical (4096 * p) := by
  rw [ptIterAddr, hidx 3 le_rfl, hidx 2 (by omega), hidx 1 (by omega), hidx 0 (by omega)]
  simp only [digit]
  congr 1
  norm_num
  omega

/-- **Setting an iterator** to an address of a page whose table is there. -/
theorem Reaches.ptIterSet_eq {addr : ℕ} (h : Reaches s.table root E p) (hlt : p < 2 ^ 36)
    (haddr : ∀ k ≤ 3, pmlIndex k addr = digit p k) : ptIterSet s.table root addr = pathIter root E p := by
  have hroot : tab root E 3 (p / 512 ^ (3 + 1)) = root := rfl
  have hdesc := h.ptDescend_eq (d := fun k => pmlIndex k addr) (k := 3) le_rfl
    (fun j hj => haddr j (by omega))
  rw [hroot] at hdesc
  simp only [ptIterSet, ptMaxLevel, haddr 3 le_rfl] at hdesc ⊢
  rw [hdesc, pathIter]
  simp only [PtIter.mk.injEq, true_and]
  refine ⟨?_, ?_, ?_⟩
  · funext j
    rcases Nat.lt_trichotomy j 3 with hj | rfl | hj
    · simp [hj, hj.le]
    · simp [tab]
    · simp [show ¬j < 3 by omega, show ¬j ≤ 3 by omega, hj.ne']
  · funext j
    rcases Nat.lt_trichotomy j 3 with hj | rfl | hj
    · simp [hj, hj.le]
    · simp
    · simp [show ¬j < 3 by omega, show ¬j ≤ 3 by omega, hj.ne']
  · refine ptIterAddr_digit p (by omega) fun j hj => ?_
    rcases Nat.lt_or_eq_of_le hj with hj | rfl
    · simp [hj]
    · simp

/-- Setting an iterator to a counted page. -/
theorem PtOk.ptIterSet_eq (h : PtOk s root E C) (hp : 0 < load C 0 (p / 512))
    (hlt : p < userPages) : ptIterSet s.table root (4096 * p) = pathIter root E p := by
  unfold userPages at hlt
  exact (h.reaches hp).ptIterSet_eq (by omega) fun k _ => pmlIndex_page k p

/-! ### The next slot -/

/-- The indices of the next page, when those below level `l` are the last ones and that at `l` is
not. -/
theorem digit_succ {l : ℕ} (hlast : ∀ j < l, digit p j = 511) (hl : digit p l ≠ 511) :
    (∀ j < l, digit (p + 1) j = 0) ∧ digit (p + 1) l = digit p l + 1 ∧
      (∀ j, l < j → digit (p + 1) j = digit p j) ∧
      ∀ j, l ≤ j → (p + 1) / 512 ^ (j + 1) = p / 512 ^ (j + 1) := by
  have hcarry : ∀ j ≤ l, (p + 1) / 512 ^ j = p / 512 ^ j + 1 := by
    intro j
    induction j with
    | zero => intro _; simp
    | succ j ih =>
      intro hj
      have hprev := ih (by omega)
      have hd := hlast j (by omega)
      rw [digit] at hd
      rw [← digit_group, ← digit_group, hprev]
      omega
  have hl' := hcarry l le_rfl
  rw [digit] at hl
  have hsame : ∀ j, l ≤ j → (p + 1) / 512 ^ (j + 1) = p / 512 ^ (j + 1) := by
    intro j hj
    induction j, hj using Nat.le_induction with
    | base =>
      rw [← digit_group, ← digit_group, hl']
      omega
    | succ j _ ih => rw [← digit_group, ← digit_group p, ih]
  refine ⟨fun j hj => ?_, ?_, fun j hj => ?_, hsame⟩
  · have hd := hlast j hj
    rw [digit] at hd ⊢
    rw [hcarry j hj.le]
    omega
  · rw [digit, digit, hl']
    omega
  · obtain ⟨m, rfl⟩ : ∃ m, j = m + 1 := ⟨j - 1, by omega⟩
    rw [digit, digit, hsame m (by omega)]

/-- The indices after a descent along first entries, at the level reached and above. -/
theorem ptDescend_idx (table : Pfn → ℕ → Pte) : ∀ (k : ℕ) (e : Pte) (it : PtIter),
    (ptDescend table (fun _ => 0) k e it).level ≤ k ∧
      ∀ j, (ptDescend table (fun _ => 0) k e it).level ≤ j →
        (ptDescend table (fun _ => 0) k e it).idx j = if j < k then 0 else it.idx j
  | 0, e, it => ⟨le_rfl, fun j _ => by simp [ptDescend]⟩
  | k + 1, e, it => by
    rw [ptDescend]
    split_ifs with h
    · obtain ⟨hle, hidx⟩ := ptDescend_idx table k (table e.pfn 0)
        { it with
          idx := Function.update it.idx k 0
          pt := Function.update it.pt k (some e.pfn) }
      refine ⟨by omega, fun j hj => ?_⟩
      rw [hidx j hj]
      rcases Nat.lt_trichotomy j k with hjk | rfl | hjk
      · simp [hjk, Nat.lt_succ_of_lt hjk]
      · simp
      · simp [show ¬j < k by omega, show ¬j < k + 1 by omega, hjk.ne']
    · refine ⟨le_rfl, fun j hj => ?_⟩
      rw [if_neg (by simpa using hj)]

/-- **The next slot** after that of page `p` starts at page `p + 1`, and is its entry at level 0 if
the table of that page is there. -/
theorem ptIterNext_pathIter (s : Phys) (root : Pfn) (E : ℕ → ℕ → Pte) (hlt : p + 1 < 2 ^ 36) :
    ∃ it, ptIterNext s.table (pathIter root E p) = some it ∧ it.addr = canonical (4096 * (p + 1)) ∧
      (Reaches s.table root E (p + 1) → it = pathIter root E (p + 1)) := by
  set idx := (pathIter root E p).idx with hidx_def
  have hidx : ∀ j ≤ 3, idx j = digit p j := fun j hj => by
    simp only [hidx_def, pathIter, hj, if_true]
  have hidx_out : ∀ j, 3 < j → idx j = 0 := fun j hj => by
    simp only [hidx_def, pathIter, show ¬j ≤ 3 by omega, if_false]
  obtain ⟨-, hl3, hlast, hstop⟩ := ptClimb_spec idx 3 0
  set l := ptClimb idx 3 0 with hl_def
  have hdl : digit p l ≠ 511 := by
    rcases Nat.lt_or_eq_of_le hl3 with hlt3 | heq
    · have := hstop hlt3
      rwa [hidx l (by omega)] at this
    · -- the last page of all is not among those asked for
      rw [Nat.zero_add] at heq
      intro hc
      have hall : ∀ j < 3, digit p j = 511 := fun j hj =>
        (hidx j (by omega)).symm.trans (hlast j (Nat.zero_le j) (heq ▸ hj))
      have h0 := hall 0 (by omega)
      have h1 := hall 1 (by omega)
      have h2 := hall 2 (by omega)
      rw [heq] at hc
      simp only [digit] at h0 h1 h2 hc
      norm_num at h0 h1 h2 hc
      omega
  obtain ⟨hlow, hat, hhigh, hgroup⟩ := digit_succ (p := p) (l := l)
    (fun j hj => (hidx j (by omega)).symm.trans (hlast j (Nat.zero_le j) hj)) hdl
  set e := s.table (tab root E l ((p + 1) / 512 ^ (l + 1))) (digit p l + 1) with he
  set it₀ : PtIter := { pathIter root E p with idx := Function.update idx l (digit p l + 1) }
  set it₁ := ptDescend s.table (fun _ => 0) l e it₀ with hit₁
  obtain ⟨hlevel, hidx₁⟩ := ptDescend_idx s.table l e it₀
  rw [← hit₁] at hlevel hidx₁
  have hpt : ((pathIter root E p).pt l).getD 0 = tab root E l ((p + 1) / 512 ^ (l + 1)) := by
    simp only [pathIter, show l ≤ 3 by omega, if_true, Option.getD_some, hgroup l le_rfl]
  -- the indices reached are those of the next page
  have hnext : ∀ j ≤ 3, (if j < it₁.level then 0 else it₁.idx j) = digit (p + 1) j := by
    intro j hj
    have hupd : ∀ j, l < j → it₀.idx j = idx j := fun j hj => Function.update_of_ne hj.ne' _ _
    by_cases hjl : j < it₁.level
    · rw [if_pos hjl, hlow j (by omega)]
    · rw [if_neg hjl, hidx₁ j (by omega)]
      rcases Nat.lt_trichotomy j l with hlt | rfl | hgt
      · rw [if_pos hlt, hlow j hlt]
      · rw [if_neg (lt_irrefl _), hat]
        exact Function.update_self _ _ _
      · rw [if_neg (by omega), hupd j hgt, hidx j hj, hhigh j hgt]
  have haddr : ptIterAddr (fun j => if j < it₁.level then 0 else it₁.idx j) =
      canonical (4096 * (p + 1)) := ptIterAddr_digit (p + 1) (by omega) hnext
  refine ⟨{ it₁ with
      pt := fun j => if j < it₁.level then none else it₁.pt j
      idx := fun j => if j < it₁.level then 0 else it₁.idx j
      addr := ptIterAddr fun j => if j < it₁.level then 0 else it₁.idx j }, ?_, ?_, fun hlive => ?_⟩
  · have hclimb : ptClimb (pathIter root E p).idx (ptMaxLevel - (pathIter root E p).level)
        (pathIter root E p).level = l := rfl
    have hidxl : (pathIter root E p).idx l = digit p l := hidx l (by omega)
    simp only [ptIterNext, hclimb, hidxl, hpt]
    rw [if_neg (show ¬digit p l = ptSize - 1 from hdl)]
  · exact haddr
  · have hfull : it₁ = { it₀ with
        level := 0
        pt := fun j => if j < l then some (tab root E j ((p + 1) / 512 ^ (j + 1))) else it₀.pt j
        idx := fun j => if j < l then digit (p + 1) j else it₀.idx j } :=
      by
        rw [hit₁, he, ← hat]
        exact hlive.ptDescend_eq (by omega) (fun j hj => (hlow j hj).symm) it₀
    rw [pathIter, ← haddr]
    have hlev0 : it₁.level = 0 := by rw [hfull]
    simp only [hlev0, Nat.not_lt_zero, if_false] at hnext ⊢
    simp only [PtIter.mk.injEq, true_and, and_true]
    constructor
    · funext j
      rw [hfull]
      by_cases hj : j < l
      · simp [hj, show j ≤ 3 by omega]
      · simp only [hj, if_false]
        simp only [it₀, pathIter, hgroup j (by omega)]
    · funext j
      by_cases hj : j ≤ 3
      · rw [hnext j hj, if_pos hj]
      · rw [if_neg hj, hfull]
        have hne : j ≠ l := by omega
        simp only [show ¬j < l by omega, if_false, it₀, Function.update_of_ne hne, hidx_out j
          (by omega)]

/-! ### Loops -/

theorem canonical_of_user (hp : p < userPages) : canonical (4096 * p) = 4096 * p := by
  unfold userPages at hp
  rw [canonical, if_pos (by omega)]

theorem canonical_of_upper {a : ℕ} (hlo : 2 ^ 47 ≤ a) (hhi : a < 2 ^ 48) :
    canonical a = a + (2 ^ 64 - 2 ^ 48) := by
  have hor := Nat.two_pow_add_eq_or_of_lt hhi 65535
  rw [canonical, if_neg (by omega), Nat.or_comm, show 2 ^ 64 - 2 ^ 48 = 2 ^ 48 * 65535 by norm_num, ← hor,
    Nat.add_comm]

theorem le_canonical (a : ℕ) : a ≤ canonical a := by
  rw [canonical]
  split_ifs
  · exact le_rfl
  · exact Nat.left_le_or

/-- **A loop over the slots** of pages whose tables are there runs through the pages, when its body
keeps the tables; it ends early when its body leaves it. -/
theorem ensures_slots {α : Type} {body : ℕ → PtIter → PhysM (Option α)} {a b fuel lo hi : ℕ}
    {I : ℕ → Phys → Prop} {R : α → Phys → Prop} (hab : a < b) (hb : b < 2 ^ 36) (hfuel : b - a < fuel)
    (hlo : ∀ k ≤ 3, pmlIndex k lo = digit a k) (hin : ∀ p, a ≤ p → p < b → canonical (4096 * p) < hi)
    (hend : hi ≤ canonical (4096 * b))
    (hpath : ∀ p q s, I q s → a ≤ p → p < b → Reaches s.table root E p)
    (hbody : ∀ p s, a ≤ p → p < b → I p s →
      Ensures (body (p - a) (pathIter root E p)) s fun r s' =>
        (r = none ∧ I (p + 1) s') ∨ ∃ x, r = some x ∧ R x s')
    (hstart : I a s) :
    Ensures (forEachSlotInRange fuel root lo hi body) s fun r s' =>
      (r = none ∧ I b s') ∨ ∃ x, r = some x ∧ R x s' := by
  have hloop : ∀ (n p : ℕ) (s : Phys), a ≤ p → p < b → b - p < n → I p s →
      Ensures (slotLoop body hi n (p - a) (some (pathIter root E p))) s fun r s' =>
        (r = none ∧ I b s') ∨ ∃ x, r = some x ∧ R x s' := by
    intro n
    induction n with
    | zero => intro p s _ _ hn; omega
    | succ n ih =>
      intro p s hap hpb hn hI
      rw [slotLoop, if_pos (show (pathIter root E p).addr < hi from hin p hap hpb), ensures_bind]
      refine (hbody p s hap hpb hI).mono fun r s' hr => ?_
      rcases hr with ⟨rfl, hI'⟩ | ⟨x, rfl, hR⟩
      · obtain ⟨it, hit, hitaddr, hnext⟩ := ptIterNext_pathIter s' root E (p := p) (by omega)
        simp only [ensures_bind, ensures_get, hit]
        rcases Nat.lt_or_ge (p + 1) b with hlt | hge
        · rw [hnext (hpath (p + 1) (p + 1) s' hI' (by omega) hlt), show p - a + 1 = p + 1 - a by omega]
          exact ih (p + 1) s' (by omega) hlt (by omega) hI'
        · obtain rfl : p + 1 = b := by omega
          obtain ⟨m, rfl⟩ : ∃ m, n = m + 1 := ⟨n - 1, by omega⟩
          rw [slotLoop, if_neg (by omega), ensures_pure]
          exact Or.inl ⟨rfl, hI'⟩
      · rw [ensures_pure]
        exact Or.inr ⟨x, rfl, hR⟩
  rw [forEachSlotInRange, ensures_bind, ensures_get,
    (hpath a a s hstart le_rfl hab).ptIterSet_eq (by omega) hlo]
  have := hloop fuel a s le_rfl hab hfuel hstart
  rwa [Nat.sub_self] at this

/-- A loop over counted pages. -/
theorem ensures_forEachSlot_leave {α : Type} {body : ℕ → PtIter → PhysM (Option α)}
    {a b fuel : ℕ} {I : ℕ → Phys → Prop} {R : α → Phys → Prop} (hab : a < b) (hb : b ≤ userPages)
    (hfuel : b - a < fuel) (hok : ∀ p s, I p s → PtOk s root E C)
    (hlive : ∀ p, a ≤ p → p < b → 0 < load C 0 (p / 512))
    (hbody : ∀ p s, a ≤ p → p < b → I p s →
      Ensures (body (p - a) (pathIter root E p)) s fun r s' =>
        (r = none ∧ I (p + 1) s') ∨ ∃ x, r = some x ∧ R x s')
    (hstart : I a s) :
    Ensures (forEachSlotInRange fuel root (4096 * a) (4096 * b) body) s fun r s' =>
      (r = none ∧ I b s') ∨ ∃ x, r = some x ∧ R x s' := by
  unfold userPages at hb
  refine ensures_slots hab (by omega) hfuel (fun k _ => pmlIndex_page k a) ?_ (le_canonical _) ?_ hbody
    hstart
  · intro p _ hpb
    rw [canonical_of_user (by unfold userPages; omega)]
    omega
  · exact fun p q s hI h₁ h₂ => (hok q s hI).reaches (hlive p h₁ h₂)

/-- A loop that runs to its end. -/
theorem ensures_forEachSlot {α : Type} {body : ℕ → PtIter → PhysM (Option α)} {a b fuel : ℕ}
    {I : ℕ → Phys → Prop} (hab : a < b) (hb : b ≤ userPages) (hfuel : b - a < fuel)
    (hok : ∀ p s, I p s → PtOk s root E C) (hlive : ∀ p, a ≤ p → p < b → 0 < load C 0 (p / 512))
    (hbody : ∀ p s, a ≤ p → p < b → I p s →
      Ensures (body (p - a) (pathIter root E p)) s fun r s' => r = none ∧ I (p + 1) s')
    (hstart : I a s) :
    Ensures (forEachSlotInRange fuel root (4096 * a) (4096 * b) body) s fun r s' =>
      r = none ∧ I b s' := by
  refine (ensures_forEachSlot_leave (R := fun _ _ => False) hab hb hfuel hok hlive
    (fun p s h₁ h₂ hI => (hbody p s h₁ h₂ hI).mono fun _ _ h => Or.inl h) hstart).mono ?_
  rintro r s' (h | ⟨x, -, hx⟩)
  · exact h
  · exact hx.elim

end

end Paging

end Kernel64
