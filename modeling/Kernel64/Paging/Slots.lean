import Kernel64.Paging.Model
import Mathlib.Tactic.IntervalCases

/-!
# The slots of page tables

An iterator stands at a slot, which is an entry where a walk through the tables stops, for all addresses of
the slot (`AtSlot`). The next slot begins where the slot ends, so that the slots from an address on partition
the rest of the address space.
-/

namespace Kernel64

namespace Paging

/-- The entry leads to a table. -/
def Pte.Leads (e : Pte) : Prop := e.present = true ∧ ¬e.large = true

instance (e : Pte) : Decidable e.Leads := inferInstanceAs (Decidable (_ ∧ _))

/-- The walk of the processor from a table at a level: the level, the table and the index of the entry where
it stops. -/
def walk (table : Pfn → ℕ → Pte) (addr : ℕ) : ℕ → Pfn → ℕ × Pfn × ℕ
  | 0, t => (0, t, pmlIndex 0 addr)
  | k + 1, t =>
    if (table t (pmlIndex (k + 1) addr)).Leads then walk table addr k (table t (pmlIndex (k + 1) addr)).pfn
    else (k + 1, t, pmlIndex (k + 1) addr)

/-- The search of the processor for the page of an address, from a table at level `k`; `w` says whether the
entries so far let it write. -/
def translateFrom (table : Pfn → ℕ → Pte) (addr : ℕ) : ℕ → Pfn → Bool → Option (Pfn × Bool)
  | 0, t, w =>
    let e := table t (pmlIndex 0 addr)
    if e.present then some (e.pfn, w && e.write) else none
  | k + 1, t, w =>
    let e := table t (pmlIndex (k + 1) addr)
    if e.present then
      if e.large then some (e.pfn + addr / pageSize % 512 ^ (k + 1), w && e.write)
      else translateFrom table addr k e.pfn (w && e.write)
    else none

/-- The page of an address, and whether it can be written. -/
def translate (table : Pfn → ℕ → Pte) (pml4 : Pfn) (addr : ℕ) : Option (Pfn × Bool) :=
  translateFrom table addr ptMaxLevel pml4 true

/-- The first page of a slot. -/
def slotPage (it : PtIter) : ℕ := it.idx 3 * 512 ^ 3 + it.idx 2 * 512 ^ 2 + it.idx 1 * 512 + it.idx 0

/-- The first address of a slot, of 48 bits. -/
def slotStart (it : PtIter) : ℕ := pageSize * slotPage it

/-- The bytes of a slot. -/
def slotSize (it : PtIter) : ℕ := pageSize * 512 ^ it.level

/-- The tables of an iterator are those on the way to its slot. -/
structure OnPath (table : Pfn → ℕ → Pte) (root : Pfn) (it : PtIter) : Prop where
  level_le : it.level ≤ 3
  top : it.pt 3 = some root
  inner : ∀ k, it.level ≤ k → k < 3 → ∃ t, it.pt (k + 1) = some t ∧ (table t (it.idx (k + 1))).Leads ∧
    it.pt k = some (table t (it.idx (k + 1))).pfn
  idx_lt : ∀ k ≤ 3, it.idx k < 512
  idx_zero : ∀ k < it.level, it.idx k = 0

/-- The iterator stands at a slot. -/
structure AtSlot (table : Pfn → ℕ → Pte) (root : Pfn) (it : PtIter) : Prop extends OnPath table root it where
  stop : ∃ t, it.pt it.level = some t ∧ (it.level = 0 ∨ ¬(table t (it.idx it.level)).Leads)
  addr : it.addr = canonical (slotStart it)

section

variable {table : Pfn → ℕ → Pte} {root : Pfn} {it it' : PtIter} {k addr : ℕ}

theorem OnPath.exists_pt (h : OnPath table root it) (hk : it.level ≤ k) (hk3 : k ≤ 3) :
    ∃ t, it.pt k = some t := by
  rcases Nat.lt_or_eq_of_le hk3 with hlt | rfl
  · obtain ⟨t, -, -, hpt⟩ := h.inner k hk hlt
    exact ⟨_, hpt⟩
  · exact ⟨root, h.top⟩

theorem ptIterAddr_eq (it : PtIter) : ptIterAddr it.idx = canonical (slotStart it) := by
  unfold ptIterAddr slotStart slotPage pageSize
  congr 1
  omega

theorem addr_eq_canonical (it : PtIter) : ({ it with addr := ptIterAddr it.idx } : PtIter).addr =
    canonical (slotStart { it with addr := ptIterAddr it.idx }) := by
  rw [← ptIterAddr_eq]

theorem OnPath.slotPage_lt (h : OnPath table root it) : slotPage it < 2 ^ 36 := by
  have h0 := h.idx_lt 0 (by omega)
  have h1 := h.idx_lt 1 (by omega)
  have h2 := h.idx_lt 2 (by omega)
  have h3 := h.idx_lt 3 (by omega)
  unfold slotPage
  omega

/-! ### Walking -/

/-- The indices of the addresses of a slot. -/
theorem OnPath.pmlIndex_eq (h : OnPath table root it) (hlo : slotStart it ≤ linear addr)
    (hhi : linear addr < slotStart it + slotSize it) (hk : it.level ≤ k) (hk3 : k ≤ 3) :
    pmlIndex k addr = it.idx k := by
  have h0 := h.idx_lt 0 (by omega)
  have h1 := h.idx_lt 1 (by omega)
  have h2 := h.idx_lt 2 (by omega)
  have h3 := h.idx_lt 3 (by omega)
  have hzero := h.idx_zero
  have hlevel := h.level_le
  unfold slotStart slotSize slotPage pageSize linear at *
  unfold pmlIndex
  generalize it.level = l at *
  interval_cases l
  · interval_cases k
    all_goals
      norm_num at hlo hhi ⊢
      omega
  · have hz0 := hzero 0 (by omega)
    interval_cases k
    all_goals
      norm_num at hlo hhi ⊢
      omega
  · have hz0 := hzero 0 (by omega)
    have hz1 := hzero 1 (by omega)
    interval_cases k
    all_goals
      norm_num at hlo hhi ⊢
      omega
  · have hz0 := hzero 0 (by omega)
    have hz1 := hzero 1 (by omega)
    have hz2 := hzero 2 (by omega)
    interval_cases k
    norm_num at hlo hhi ⊢
    omega

/-- **The walk** for an address of a slot stops at the entry of the slot. -/
theorem AtSlot.walk_eq (h : AtSlot table root it) (hlo : slotStart it ≤ linear addr)
    (hhi : linear addr < slotStart it + slotSize it) :
    ∃ t, it.pt it.level = some t ∧ walk table addr 3 root = (it.level, t, it.idx it.level) ∧
      (it.level = 0 ∨ ¬(table t (it.idx it.level)).Leads) := by
  obtain ⟨t, ht, hstop⟩ := h.stop
  refine ⟨t, ht, ?_, hstop⟩
  have hdown : ∀ k, it.level ≤ k → k ≤ 3 → ∀ t', it.pt k = some t' →
      walk table addr k t' = (it.level, t, it.idx it.level) := by
    intro k hk
    induction k, hk using Nat.le_induction with
    | base =>
      intro hle t' ht'
      obtain rfl := Option.some.inj (ht'.symm.trans ht)
      have hidx := h.pmlIndex_eq hlo hhi le_rfl h.level_le
      cases hl : it.level with
      | zero => rw [walk, ← hl, hidx]
      | succ l =>
        rw [hl] at hidx hstop
        rw [walk, hidx, if_neg (hstop.resolve_left (Nat.succ_ne_zero l))]
    | succ k hk ih =>
      intro hle t' ht'
      obtain ⟨t'', ht'', hleads, hpt⟩ := h.inner k hk (by omega)
      obtain rfl := Option.some.inj (ht''.symm.trans ht')
      rw [walk, h.pmlIndex_eq hlo hhi (by omega) hle, if_pos hleads]
      exact ih (by omega) _ hpt
  exact hdown 3 h.level_le le_rfl root h.top

/-! ### Descending -/

/-- An iterator on its way down, at the entry `e` of a table at level `k`. -/
structure Descending (table : Pfn → ℕ → Pte) (root : Pfn) (k : ℕ) (e : Pte) (it : PtIter) : Prop where
  le : k ≤ 3
  top : it.pt 3 = some root
  inner : ∀ j, k ≤ j → j < 3 → ∃ t, it.pt (j + 1) = some t ∧ (table t (it.idx (j + 1))).Leads ∧
    it.pt j = some (table t (it.idx (j + 1))).pfn
  entry : ∃ t, it.pt k = some t ∧ e = table t (it.idx k)

/-- Where a descent ends. -/
structure Descended (table : Pfn → ℕ → Pte) (root : Pfn) (d : ℕ → ℕ) (k : ℕ) (it it' : PtIter) : Prop where
  level_le : it'.level ≤ k
  top : it'.pt 3 = some root
  inner : ∀ j, it'.level ≤ j → j < 3 → ∃ t, it'.pt (j + 1) = some t ∧ (table t (it'.idx (j + 1))).Leads ∧
    it'.pt j = some (table t (it'.idx (j + 1))).pfn
  stop : ∃ t, it'.pt it'.level = some t ∧ (it'.level = 0 ∨ ¬(table t (it'.idx it'.level)).Leads)
  idx : ∀ j, it'.idx j = if it'.level ≤ j ∧ j < k then d j else it.idx j

theorem Descending.descended {d : ℕ → ℕ} : ∀ {k : ℕ} {e : Pte} {it : PtIter},
    Descending table root k e it → Descended table root d k it (ptDescend table d k e it)
  | 0, e, it, h => by
    obtain ⟨t, ht, -⟩ := h.entry
    exact ⟨le_rfl, h.top, h.inner, ⟨t, ht, Or.inl rfl⟩, fun j => by simp [ptDescend]⟩
  | k + 1, e, it, h => by
    have hle := h.le
    obtain ⟨t, ht, rfl⟩ := h.entry
    rw [ptDescend]
    split_ifs with hleads
    · set it₁ : PtIter := { it with
        idx := Function.update it.idx k (d k)
        pt := Function.update it.pt k (some (table t (it.idx (k + 1))).pfn) } with hit₁
      have hidx : ∀ j, k < j → it₁.idx j = it.idx j := fun j hj => Function.update_of_ne hj.ne' _ _
      have hpt : ∀ j, k < j → it₁.pt j = it.pt j := fun j hj => Function.update_of_ne hj.ne' _ _
      have hk : it₁.pt k = some (table t (it.idx (k + 1))).pfn := Function.update_self _ _ _
      have hself : it₁.idx k = d k := Function.update_self _ _ _
      have hnext : Descending table root k (table (table t (it.idx (k + 1))).pfn (d k)) it₁ := by
        refine ⟨by omega, (hpt 3 (by omega)).trans h.top, fun j hj hj3 => ?_, _, hk, by rw [hself]⟩
        rcases Nat.lt_or_eq_of_le hj with hlt | rfl
        · rw [hpt (j + 1) (by omega), hpt j hlt, hidx (j + 1) (by omega)]
          exact h.inner j hlt hj3
        · rw [hpt (k + 1) (by omega), hidx (k + 1) (by omega)]
          exact ⟨t, ht, hleads, hk⟩
      have hdesc := hnext.descended (d := d)
      refine ⟨hdesc.level_le.trans (Nat.le_succ k), hdesc.top, hdesc.inner, hdesc.stop, fun j => ?_⟩
      rw [hdesc.idx j]
      have hlk := hdesc.level_le
      rcases Nat.lt_trichotomy j k with hj | rfl | hj
      · simp only [hj, Nat.lt_succ_of_lt hj, and_true]
        split_ifs
        · rfl
        · exact Function.update_of_ne hj.ne _ _
      · rw [if_neg (by omega), if_pos ⟨hlk, Nat.lt_succ_self j⟩, hself]
      · rw [if_neg (by omega), if_neg (by omega), hidx j hj]
    · refine ⟨le_rfl, h.top, h.inner, ⟨t, ht, Or.inr hleads⟩, fun j => ?_⟩
      rw [if_neg (by dsimp only; omega)]

/-- The 48 bits of an address, from its indices. -/
theorem linear_eq (addr : ℕ) : linear addr =
    4096 * (pmlIndex 3 addr * 512 ^ 3 + pmlIndex 2 addr * 512 ^ 2 + pmlIndex 1 addr * 512 + pmlIndex 0 addr) +
      addr % 4096 := by
  have h1 : addr / 2 ^ 21 = addr / 2 ^ 12 / 512 := (Nat.div_div_eq_div_mul addr (2 ^ 12) 512).symm
  have h2 : addr / 2 ^ 30 = addr / 2 ^ 12 / 512 / 512 := by
    norm_num [Nat.div_div_eq_div_mul]
  have h3 : addr / 2 ^ 39 = addr / 2 ^ 12 / 512 / 512 / 512 := by
    norm_num [Nat.div_div_eq_div_mul]
  unfold linear pmlIndex
  norm_num at h1 h2 h3 ⊢
  omega

theorem linear_within (addr : ℕ) {l : ℕ} (hl : l ≤ 3) {idx : ℕ → ℕ}
    (hidx : ∀ j ≤ 3, idx j = if l ≤ j then pmlIndex j addr else 0) :
    pageSize * (idx 3 * 512 ^ 3 + idx 2 * 512 ^ 2 + idx 1 * 512 + idx 0) ≤ linear addr ∧
      linear addr < pageSize * (idx 3 * 512 ^ 3 + idx 2 * 512 ^ 2 + idx 1 * 512 + idx 0) +
        pageSize * 512 ^ l := by
  have hlt : ∀ j, pmlIndex j addr < 512 := fun j => Nat.mod_lt _ (by omega)
  have hr : addr % 4096 < 4096 := Nat.mod_lt _ (by omega)
  have h0 := hlt 0
  have h1 := hlt 1
  have h2 := hlt 2
  rw [linear_eq, hidx 0 (by omega), hidx 1 (by omega), hidx 2 (by omega), hidx 3 (by omega), pageSize]
  generalize addr % 4096 = r at *
  generalize pmlIndex 0 addr = d0 at *
  generalize pmlIndex 1 addr = d1 at *
  generalize pmlIndex 2 addr = d2 at *
  generalize pmlIndex 3 addr = d3 at *
  interval_cases l
  all_goals
    norm_num
    omega
/-- Where a descent along the indices of an address ends. -/
theorem Descended.atSlot (h : Descended table root (fun k => pmlIndex k addr) 3 it it')
    (hzero : ∀ j < 3, it.idx j = 0) (htop : it.idx 3 = pmlIndex 3 addr) :
    AtSlot table root { it' with addr := ptIterAddr it'.idx } ∧
      slotStart { it' with addr := ptIterAddr it'.idx } ≤ linear addr ∧
      linear addr < slotStart { it' with addr := ptIterAddr it'.idx } +
        slotSize { it' with addr := ptIterAddr it'.idx } := by
  have hlevel := h.level_le
  -- the indices are those of the address, down to the level of the slot
  have hidx : ∀ j ≤ 3, it'.idx j = if it'.level ≤ j then pmlIndex j addr else 0 := by
    intro j hj
    rw [h.idx j]
    rcases Nat.lt_or_eq_of_le hj with hlt | rfl
    · simp only [hlt, and_true]
      rw [hzero j hlt]
    · rw [if_neg (by omega), if_pos hlevel, htop]
  have hpath : OnPath table root { it' with addr := ptIterAddr it'.idx } := by
    refine ⟨hlevel, h.top, h.inner, fun j hj => ?_, fun j hj => ?_⟩
    · dsimp only
      rw [hidx j hj]
      split_ifs
      · exact Nat.mod_lt _ (by omega)
      · omega
    · dsimp only at hj ⊢
      rw [hidx j (by omega), if_neg (by omega)]
  have hwithin := linear_within addr hlevel hidx
  refine ⟨{ hpath with stop := h.stop, addr := addr_eq_canonical it' }, ?_⟩
  simp only [slotStart, slotSize, slotPage]
  exact hwithin

/-- **Setting an iterator** to an address: it stands at the slot of the address. -/
theorem atSlot_ptIterSet (table : Pfn → ℕ → Pte) (root : Pfn) (addr : ℕ) :
    AtSlot table root (ptIterSet table root addr) ∧ slotStart (ptIterSet table root addr) ≤ linear addr ∧
      linear addr < slotStart (ptIterSet table root addr) + slotSize (ptIterSet table root addr) := by
  unfold ptIterSet
  have hstart : Descending table root 3 (table root (pmlIndex 3 addr))
      { level := 0
        pt := Function.update (fun _ => none) ptMaxLevel (some root)
        idx := Function.update (fun _ => 0) ptMaxLevel (pmlIndex ptMaxLevel addr)
        addr := 0 } :=
    ⟨le_rfl, rfl, fun j h₁ h₂ => absurd h₂ (by omega), root, rfl, rfl⟩
  refine hstart.descended.atSlot (fun j hj => ?_) ?_
  · dsimp only
    exact Function.update_of_ne (show j ≠ ptMaxLevel from hj.ne) _ _
  · dsimp only
    exact Function.update_self ptMaxLevel _ _

/-! ### Going to the next slot -/

/-- Going up: the levels passed are at their last entry, the one reached is not, or is the top. -/
theorem ptClimb_spec (idx : ℕ → ℕ) : ∀ (n level : ℕ),
    level ≤ ptClimb idx n level ∧ ptClimb idx n level ≤ level + n ∧
      (∀ j, level ≤ j → j < ptClimb idx n level → idx j = ptSize - 1) ∧
      (ptClimb idx n level < level + n → idx (ptClimb idx n level) ≠ ptSize - 1)
  | 0, level => ⟨le_rfl, le_rfl, fun j h₁ h₂ => absurd h₂ (by rw [ptClimb]; omega),
      fun h => absurd h (by rw [ptClimb]; omega)⟩
  | n + 1, level => by
    rw [ptClimb]
    split_ifs with h
    · obtain ⟨h₁, h₂, h₃, h₄⟩ := ptClimb_spec idx n (level + 1)
      refine ⟨by omega, by omega, fun j hj hlt => ?_, fun hlt => h₄ (by omega)⟩
      rcases Nat.eq_or_lt_of_le hj with rfl | hj
      · exact h
      · exact h₃ j hj hlt
    · exact ⟨le_rfl, by omega, fun j h₁ h₂ => absurd h₂ (by omega), fun _ => h⟩

/-- The page after a slot whose indices from its level up to `l` are the last ones. -/
theorem slotPage_carry {idx idx' : ℕ → ℕ} {level l : ℕ} (hle : level ≤ l) (hl : l ≤ 3)
    (hzero : ∀ j < level, idx j = 0) (hlast : ∀ j, level ≤ j → j < l → idx j = 511)
    (hidx' : ∀ j ≤ 3, idx' j = if j < l then 0 else if j = l then idx l + 1 else idx j) :
    idx' 3 * 512 ^ 3 + idx' 2 * 512 ^ 2 + idx' 1 * 512 + idx' 0 =
      idx 3 * 512 ^ 3 + idx 2 * 512 ^ 2 + idx 1 * 512 + idx 0 + 512 ^ level := by
  rw [hidx' 0 (by omega), hidx' 1 (by omega), hidx' 2 (by omega), hidx' 3 (by omega)]
  have hval : ∀ j < l, idx j = if j < level then 0 else 511 := by
    intro j hj
    split_ifs with hlt
    · exact hzero j hlt
    · exact hlast j (by omega) hj
  interval_cases l
  · interval_cases level
    simp only [Nat.lt_irrefl, if_false, if_true]
    norm_num
    omega
  · rw [hval 0 (by omega)]
    interval_cases level
    all_goals
      norm_num
      omega
  · rw [hval 0 (by omega), hval 1 (by omega)]
    interval_cases level
    all_goals
      norm_num
      omega
  · rw [hval 0 (by omega), hval 1 (by omega), hval 2 (by omega)]
    interval_cases level
    all_goals
      norm_num
      omega

/-- **Going to the next slot**: it begins where the slot ends, and there is one until the end of the address
space. -/
theorem OnPath.ptIterNext (h : OnPath table root it) :
    (ptIterNext table it = none ∧ slotPage it + 512 ^ it.level = 2 ^ 36) ∨
      ∃ it', ptIterNext table it = some it' ∧ AtSlot table root it' ∧
        slotPage it' = slotPage it + 512 ^ it.level := by
  have hlevel := h.level_le
  obtain ⟨hle, hl3, hlast, hstop⟩ := ptClimb_spec it.idx (ptMaxLevel - it.level) it.level
  unfold Paging.ptIterNext
  set l := ptClimb it.idx (ptMaxLevel - it.level) it.level with hl
  have hmax : it.level + (ptMaxLevel - it.level) = 3 := by
    unfold ptMaxLevel
    omega
  rw [hmax] at hl3 hstop
  dsimp only
  split_ifs with hend
  · -- every index from the level of the slot up is the last one
    refine Or.inl ⟨rfl, ?_⟩
    have hl_eq : l = 3 := by
      by_contra hne
      exact hstop (by omega) hend
    rw [hl_eq] at hlast hend hle
    set idx' : ℕ → ℕ := fun j => if j < 3 then 0 else if j = 3 then it.idx 3 + 1 else it.idx j with hidx'
    have hcarry := slotPage_carry hle le_rfl h.idx_zero hlast fun j _ => congrFun hidx' j
    rw [slotPage, ← hcarry, hidx']
    norm_num [hend, ptSize]
  · obtain ⟨t, ht⟩ := h.exists_pt hle hl3
    set it₀ : PtIter := { it with idx := Function.update it.idx l (it.idx l + 1) } with hit₀
    have hidx₀ : ∀ j, j ≠ l → it₀.idx j = it.idx j := fun j hj => Function.update_of_ne hj _ _
    have hidxl : it₀.idx l = it.idx l + 1 := Function.update_self _ _ _
    rw [ht, Option.getD_some]
    -- from the next index of that level the walk goes down along first indices
    have hstart : Descending table root l (table t (it.idx l + 1)) it₀ := by
      refine ⟨hl3, h.top, fun j hj hj3 => ?_, t, ht, by rw [hidxl]⟩
      rw [hidx₀ (j + 1) (by omega)]
      exact h.inner j (hle.trans hj) hj3
    have hdesc := hstart.descended (d := fun _ => 0)
    set it₁ := ptDescend table (fun _ => 0) l (table t (it.idx l + 1)) it₀ with hit₁
    have hlevel₁ := hdesc.level_le
    have hkeep : ∀ j, it₁.level ≤ j → ¬j < it₁.level := fun j hj => by omega
    -- so the indices are those of the next page, as in a counter with a carry
    have hidx' : ∀ j, (if j < it₁.level then 0 else it₁.idx j) =
        if j < l then 0 else if j = l then it.idx l + 1 else it.idx j := by
      intro j
      rw [hdesc.idx j]
      rcases Nat.lt_trichotomy j l with hj | rfl | hj
      · simp only [hj, and_true, if_true]
        split_ifs
        · rfl
        · rfl
        · omega
      · rw [if_neg (by omega), if_neg (by omega), if_neg (lt_irrefl _), if_pos rfl, hidxl]
      · rw [if_neg (by omega), if_neg (by omega), if_neg (by omega), if_neg (by omega), hidx₀ j (by omega)]
    refine Or.inr ⟨_, rfl, ⟨⟨hlevel₁.trans hl3, ?_, fun j hj hj3 => ?_, fun j hj => ?_, fun j hj => if_pos hj⟩,
      ?_, ?_⟩, ?_⟩
    · exact (if_neg (hkeep 3 (hlevel₁.trans hl3))).trans hdesc.top
    · have hj' : it₁.level ≤ j := hj
      simp only [hkeep j hj', hkeep (j + 1) (by omega), if_false]
      exact hdesc.inner j hj hj3
    · dsimp only
      rw [hidx' j]
      have hjlt := h.idx_lt j hj
      have hllt := h.idx_lt l hl3
      unfold ptSize at hend
      split_ifs <;> omega
    · obtain ⟨t', ht', hstop'⟩ := hdesc.stop
      simp only [lt_irrefl, if_false]
      exact ⟨t', ht', hstop'⟩
    · rw [← ptIterAddr_eq]
    · have hcarry := slotPage_carry hle hl3 h.idx_zero hlast fun j _ => hidx' j
      simp only [slotPage]
      exact hcarry

/-! ### The slots from an address on -/

/-- The slots an iterator goes through, from one on to the last. -/
inductive Slots (table : Pfn → ℕ → Pte) : PtIter → List PtIter → Prop where
  | last {it : PtIter} (h : ptIterNext table it = none) : Slots table it [it]
  | cons {it it' : PtIter} {l : List PtIter} (h : ptIterNext table it = some it') (hl : Slots table it' l) :
    Slots table it (it :: l)

/-- The slots begin one where the other ends, from an address to another. -/
inductive Tiles : ℕ → List PtIter → ℕ → Prop where
  | nil (a : ℕ) : Tiles a [] a
  | cons {it : PtIter} {l : List PtIter} {b : ℕ} (h : Tiles (slotStart it + slotSize it) l b) :
    Tiles (slotStart it) (it :: l) b

/-- From a slot on, there are only finitely many. -/
theorem AtSlot.exists_slots (h : AtSlot table root it) :
    ∃ l, Slots table it l ∧ Tiles (slotStart it) l (2 ^ 48) ∧ ∀ it' ∈ l, AtSlot table root it' := by
  -- the pages left decrease
  induction hn : 2 ^ 36 - slotPage it using Nat.strong_induction_on generalizing it with
  | h n ih =>
    have hpos : 0 < 512 ^ it.level := Nat.pow_pos (by omega)
    have hend : slotStart it + slotSize it = pageSize * (slotPage it + 512 ^ it.level) := by
      rw [slotStart, slotSize, Nat.mul_add]
    rcases h.toOnPath.ptIterNext with ⟨hnone, hlast⟩ | ⟨it', hsome, hat, hnext⟩
    · refine ⟨[it], .last hnone, .cons ?_, by simpa using h⟩
      rw [hend, hlast]
      exact Tiles.nil _
    · have hle := hat.slotPage_lt
      obtain ⟨l, hslots, htiles, hall⟩ := ih _ (by omega) hat rfl
      refine ⟨it :: l, .cons hsome hslots, .cons ?_, ?_⟩
      · rwa [hend, ← hnext]
      · simpa using ⟨h, hall⟩

theorem slotSize_pos (it : PtIter) : 0 < slotSize it := Nat.mul_pos (by decide) (Nat.pow_pos (by omega))

theorem Tiles.le_slotStart {a b : ℕ} {l : List PtIter} (h : Tiles a l b) : ∀ it ∈ l, a ≤ slotStart it := by
  induction h with
  | nil a => simp
  | cons h ih =>
    intro it hit
    rcases List.mem_cons.mp hit with rfl | hit
    · exact le_rfl
    · exact le_of_add_le_left (ih it hit)

/-- Slots that tile a range do not overlap, and are in order. -/
theorem Tiles.pairwise {a b : ℕ} {l : List PtIter} (h : Tiles a l b) :
    l.Pairwise fun it it' => slotStart it + slotSize it ≤ slotStart it' := by
  induction h with
  | nil a => exact List.Pairwise.nil
  | cons h ih => exact List.pairwise_cons.mpr ⟨h.le_slotStart, ih⟩

/-- **Iterating is a partition** of the address space from an address on: the slots come in order and without
a gap, from the one with the address to the end, and the walk for any address of a slot stops at its entry. -/
theorem slots_partition (table : Pfn → ℕ → Pte) (pml4 : Pfn) (lo : ℕ) :
    ∃ l, Slots table (ptIterSet table pml4 lo) l ∧
      Tiles (slotStart (ptIterSet table pml4 lo)) l (2 ^ 48) ∧
      (l.Pairwise fun it it' => slotStart it < slotStart it' ∧ slotStart it + slotSize it ≤ slotStart it') ∧
      slotStart (ptIterSet table pml4 lo) ≤ linear lo ∧
      linear lo < slotStart (ptIterSet table pml4 lo) + slotSize (ptIterSet table pml4 lo) ∧
      ∀ it ∈ l, it.addr = canonical (slotStart it) ∧ ∀ addr, slotStart it ≤ linear addr →
        linear addr < slotStart it + slotSize it → ∃ t, it.pt it.level = some t ∧
          walk table addr 3 pml4 = (it.level, t, it.idx it.level) ∧
          (it.level = 0 ∨ (table t (it.idx it.level)).present = false ∨
            (table t (it.idx it.level)).large = true) := by
  obtain ⟨hat, hlo, hhi⟩ := atSlot_ptIterSet table pml4 lo
  obtain ⟨l, hslots, htiles, hall⟩ := hat.exists_slots
  refine ⟨l, hslots, htiles, ?_, hlo, hhi, fun it hit => ⟨(hall it hit).addr, fun addr h₁ h₂ => ?_⟩⟩
  · exact htiles.pairwise.imp fun {it it'} h => ⟨(Nat.lt_add_of_pos_right (slotSize_pos it)).trans_le h, h⟩
  · obtain ⟨t, ht, hwalk, hstop⟩ := (hall it hit).walk_eq h₁ h₂
    refine ⟨t, ht, hwalk, hstop.imp_right fun hn => ?_⟩
    rw [Pte.Leads, not_and_or, not_not] at hn
    simpa using hn

end

end Paging

end Kernel64
