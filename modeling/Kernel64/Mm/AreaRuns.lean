import Kernel64.Mm.Areas
import Kernel64.Paging.Levels

/-!
# Runs of `__mmap` and `__munmap` on the areas

The areas of an address space are an exact set of intervals: a call of `__mmap` that succeeds adds its range,
rounded to pages, and one of `__munmap` takes its range out. The ranges need not be aligned where the code does not
ask for it, so that a cut may leave an area that ends inside a page, and the tables may count fewer pages than the
areas have. A call of `__mmap` always returns; one of `__munmap` fails its assertions or returns, as soon as there is
memory for the area it splits off.
-/

namespace Kernel64

namespace Mm

open Paging Rb ColorTree

section

variable {B : ℕ → Prop} {w w' : World} {T : ℕ → ColorTree Ptr} {t : ColorTree Ptr}
  {m fuel begin stop perm x : ℕ}

theorem ensuresOr_onPhys {α : Type} {F : Fault → Prop} {c : PhysM α} {Q : α → World → Prop} :
    EnsuresOr F (onPhys c) w Q ↔ EnsuresOr F c w.phys fun a s => Q a (w.withPhys s) := by
  unfold EnsuresOr onPhys
  cases c w.phys with
  | error e => exact Iff.rfl
  | ok r => exact Iff.rfl

/-! ### Rounding to pages -/

theorem alignDown_le (x : ℕ) : alignDown x ≤ x := by
  rw [alignDown, pageSize]
  omega

theorem le_alignUp (h : x ≤ taskSize) : x ≤ alignUp x ∧ alignUp x ≤ taskSize := by
  rw [alignUp_eq h]
  exact ⟨le_alignTo (by decide), alignTo_le (m := 2 ^ 35) (by decide) h⟩

/-! ### Page tables -/

/-- The page tables, whatever they count. -/
def TablesOk (w : World) : Prop :=
  ∃ L, Leveled w.phys L ∧ ∀ m, w.mmUsed m = true → L (w.mm m).pt = some 3

theorem tablesOk_of_worksOn {L L' : Levels} {root : Pfn} {a b : ℕ} {s : Phys} (h : WorksOn 3 root a b s L w'.phys L')
    (hroots : ∀ m, w.mmUsed m = true → L (w.mm m).pt = some 3) (hpt : ∀ m, (w'.mm m).pt = (w.mm m).pt)
    (hused : w'.mmUsed = w.mmUsed) : TablesOk w' := by
  refine ⟨L', h.ok, fun m hm => ?_⟩
  rw [hpt m, h.level le_rfl]
  exact hroots m (hused ▸ hm)

theorem Touches.pt_eq (h : Touches m w w') (m' : ℕ) : (w'.mm m').pt = (w.mm m').pt := by
  by_cases hm : m' = m
  · rw [hm]
    exact h.pt
  · rw [h.other m' hm]

/-- The loop of `__munmap_pages`: it stops at a slot without a page table, and finds no page in the others. -/
theorem ensuresOr_munmapPages {s : Phys} {L : Levels} {root : Pfn} {addr count : ℕ} (h : Leveled s L)
    (hroot : L root = some 3) (hle : addr + count * pageSize ≤ taskSize) (hfuel : taskSize < fuel) :
    EnsuresOr (· = .assertion) (munmapPages fuel root addr count) s fun _ s' => s' = s := by
  have hend : (addr + count * pageSize) % 2 ^ 64 = addr + count * pageSize := by
    refine Nat.mod_eq_of_lt (hle.trans_lt ?_)
    unfold taskSize
    omega
  rw [munmapPages, hend]
  set hi := addr + count * pageSize with hhi
  have hloop : ∀ (body : ℕ → PtIter → PhysM (Option Unit)), (∀ i it, AtSlot s.table root it → it.addr < hi →
      EnsuresOr (· = .assertion) (body i it) s fun r s' => r = none ∧ s' = s) →
      ∀ (n i : ℕ) (it : Option PtIter), 1 ≤ n →
        (∀ it', it = some it' → AtSlot s.table root it' ∧ hi < slotStart it' + n) →
        EnsuresOr (· = .assertion) (slotLoop body hi n i it) s fun _ s' => s' = s := by
    intro body hbody n
    induction n with
    | zero => exact fun _ _ hn _ => absurd hn (by omega)
    | succ n ih =>
      intro i it _ hit
      cases it with
      | none => exact ensuresOr_pure.2 rfl
      | some it =>
        obtain ⟨hslot, hfar⟩ := hit it rfl
        rw [slotLoop]
        split_ifs with hlt
        swap
        · exact ensuresOr_pure.2 rfl
        have hstart : slotStart it ≤ it.addr := hslot.addr ▸ le_canonical (slotStart it)
        rw [ensuresOr_bind]
        refine (hbody i it hslot hlt).mono ?_
        rintro r s' ⟨rfl, rfl⟩
        rw [ensuresOr_bind, ensuresOr_get]
        refine ih (i + 1) _ (by omega) fun it' heq => ?_
        rcases hslot.ptIterNext with ⟨hnone, -⟩ | ⟨it'', hsome, hslot', hpage⟩
        · cases hnone.symm.trans heq
        · obtain rfl := Option.some.inj (hsome.symm.trans heq)
          have hpos : 0 < 512 ^ it.level := span_pos it.level
          refine ⟨hslot', ?_⟩
          unfold slotStart pageSize at hfar ⊢
          omega
  have hbound : hi < slotStart (ptIterSet s.table root addr) + fuel := by omega
  rw [ensuresOr_bind, dbgAssert]
  split_ifs with haligned
  swap
  · exact ensuresOr_throw.2 rfl
  rw [ensuresOr_pure, ensuresOr_bind, forEachSlotInRange, ensuresOr_bind, ensuresOr_get]
  refine (hloop _ (fun i it hslot hlt => ?_) fuel 0 _ (by omega) fun it' heq => ?_).mono fun _ s' hs => hs
  · rw [leafSlot, ensuresOr_bind, ensuresOr_bind, dbgAssert]
    split_ifs with hleaf
    swap
    · exact ensuresOr_throw.2 rfl
    rw [ensuresOr_pure]
    obtain ⟨t, ht, -⟩ := hslot.stop
    rw [ht]
    -- a leaf has no entries, so that nothing is stored
    have hstart : slotStart it ≤ it.addr := hslot.addr ▸ le_canonical (slotStart it)
    have htop : it.idx 3 < 256 := by
      unfold slotStart slotPage pageSize taskSize at *
      omega
    have hzero := h.leaf (hleaf ▸ h.level_pt hroot hslot.toOnPath htop le_rfl hslot.level_le ht)
      (hleaf ▸ hslot.idx_lt it.level hslot.level_le)
    have hsame : Function.update s.table t (Function.update (s.table t) (it.idx 0) .zero) = s.table := by
      rw [← hzero, Function.update_eq_self, Function.update_eq_self]
    simp only [ensuresOr_bind, ensuresOr_pure, ensuresOr_get, setEntry, ensuresOr_modify, hleaf, hzero, Pte.zero,
      Bool.false_eq_true, if_false, true_and]
    exact congrArg (fun f => ({ s with table := f } : Phys)) hsame
  · obtain rfl := Option.some.inj heq
    exact ⟨(atSlot_ptIterSet s.table root addr).1, hbound⟩

/-! ### Exact calls -/

/-- Some area meets the range. -/
def Meets (sp : Space) (t : ColorTree Ptr) (begin stop : ℕ) : Prop :=
  ∃ x perm, HasPerm sp t x perm ∧ begin ≤ x ∧ x < stop

/-- **`__lookup_vma`** finds an area exactly when one meets the range. -/
theorem AreasOk.lookupVma_hit_iff (h : AreasOk B w T) (hm : w.mmUsed m = true)
    (hlt : begin < stop) (hfuel : taskSize < fuel) :
    Ensures (lookupVma fuel m begin stop) w fun r w' => w' = w ∧
      (∀ p, r = .hit p → p ∈ (T m).inorder ∧ begin < ((w.mm m).area p).stop ∧
        ((w.mm m).area p).begin < stop) ∧
      ((∃ p, r = .hit p) ↔ Meets (w.mm m) (T m) begin stop) := by
  refine (h.ensures_lookupVma hm hfuel).mono ?_
  rintro r w' ⟨rfl, ⟨p, hp, rfl, h₁, h₂⟩ | ⟨path, hpath, rfl, hbefore, hafter⟩⟩
  · have hvlt := ((h.space m hm).area p hp).lt
    have hmeets : Meets (w'.mm m) (T m) begin stop :=
      ⟨max begin ((w'.mm m).area p).begin, _, ⟨p, hp, ⟨le_max_right _ _, max_lt h₁ hvlt⟩, rfl⟩,
        le_max_left _ _, max_lt hlt h₂⟩
    refine ⟨rfl, fun p' heq => ?_, iff_of_true ⟨p, rfl⟩ hmeets⟩
    injection heq with heq
    subst heq
    exact ⟨hp, h₁, h₂⟩
  · have hclear := (h.cleared_of_missing hpath hbefore hafter).hasPerm
    refine ⟨rfl, fun p heq => (nomatch heq), iff_of_false (fun ⟨p, heq⟩ => nomatch heq) ?_⟩
    intro ⟨x, perm, hx, hr⟩
    exact ((hclear x perm).1 hx).2 hr

/-- The outcomes of `__mmap`, on the areas. -/
structure MmapExact (m begin stop perm : ℕ) (w : World) (T : ℕ → ColorTree Ptr) (rc : ℤ)
    (w' : World) (t : ColorTree Ptr) : Prop where
  ok : AreasOk (fun _ => True) w' (Function.update T m t)
  mmUsed : w'.mmUsed = w.mmUsed
  result : rc = 0 ∨ rc = -EBUSY ∨ rc = -ENOMEM
  busy : rc = -EBUSY ↔ Meets (w.mm m) (T m) (alignDown begin) (alignUp stop)
  added : rc = 0 → ∀ x π, HasPerm (w'.mm m) t x π ↔ HasPerm (w.mm m) (T m) x π ∨
    (alignDown begin ≤ x ∧ x < alignUp stop ∧ perm = π)
  same : rc ≠ 0 → w'.mm = w.mm ∧ t = T m

/-- **`__mmap`** always returns, and adds the range to the areas when it returns 0. -/
theorem AreasOk.ensures_mmap (h : AreasOk (fun _ => True) w T) (htables : TablesOk w) (hm : w.mmUsed m = true)
    (hlt : begin < stop) (hle : stop ≤ taskSize) (hfuel : taskSize < fuel) :
    Ensures (mmap fuel m begin stop perm) w fun rc w' => TablesOk w' ∧ ∃ t,
      MmapExact m begin stop perm w T rc w' t := by
  have hdown := alignDown_le begin
  obtain ⟨hup, hup'⟩ := le_alignUp hle
  have hsame : ∀ {w' : World} {rc : ℤ}, rc ≠ 0 → w'.mm = w.mm → w'.mmUsed = w.mmUsed →
      w'.vmaUsed = w.vmaUsed → rc = -EBUSY ∨ rc = -ENOMEM →
      (rc = -EBUSY ↔ Meets (w.mm m) (T m) (alignDown begin) (alignUp stop)) →
      ∃ t, MmapExact m begin stop perm w T rc w' t := by
    intro w' rc hrc hmm hused hvma hresult hbusy
    refine ⟨T m, ?_, hused, Or.inr hresult, hbusy, fun heq => absurd heq hrc, fun _ => ⟨hmm, rfl⟩⟩
    rw [Function.update_eq_self]
    exact h.of_eq hmm hused hvma
  rw [mmap]
  simp only
  set lo := alignDown begin with hlo
  set hi := alignUp stop with hhi
  have hrange : lo < hi := by omega
  rw [ensures_bind]
  refine (h.ensures_lookupVma hm hfuel).mono ?_
  rintro r w₀ ⟨rfl, ⟨p, hp, rfl, h₁, h₂⟩ | ⟨path, hpath, rfl, hbefore, hafter⟩⟩
  · have hvlt := ((h.space m hm).area p hp).lt
    have hmeets : Meets (w₀.mm m) (T m) lo hi :=
      ⟨max lo ((w₀.mm m).area p).begin, _, ⟨p, hp, ⟨le_max_right _ _, max_lt h₁ hvlt⟩, rfl⟩,
        le_max_left _ _, max_lt hrange h₂⟩
    exact ensures_pure.2 ⟨htables, hsame (by decide) rfl rfl rfl (Or.inl rfl) (iff_of_true rfl hmeets)⟩
  have hnot : ¬Meets (w₀.mm m) (T m) lo hi := by
    rintro ⟨x, π, hx, hr⟩
    exact (((h.cleared_of_missing hpath hbefore hafter).hasPerm x π).1 hx).2 hr
  obtain ⟨L, hL, hroots⟩ := htables
  have hnomem : (-ENOMEM = -EBUSY ↔ Meets (w₀.mm m) (T m) lo hi) := iff_of_false (by decide) hnot
  dsimp only
  rw [ensures_bind, ensures_get, ensures_bind, ensures_onPhys]
  refine (hL.ensures_ptPopulateRange (hroots m hm) rfl hrange hup').mono ?_
  rintro rc s₁ ⟨hrc, L₁, h₁⟩
  split_ifs with hfail
  · obtain rfl := hrc.resolve_left hfail
    exact ensures_pure.2 ⟨tablesOk_of_worksOn h₁ hroots (fun _ => rfl) rfl,
      hsame hfail rfl rfl rfl (Or.inr rfl) hnomem⟩
  have hroots₁ : ∀ m, w₀.mmUsed m = true → L₁ (w₀.mm m).pt = some 3 := fun m hm => by
    rw [h₁.level le_rfl]
    exact hroots m hm
  rw [ensures_bind]
  refine ensures_allocVma.mono ?_
  rintro r w₁ (⟨p, rfl, haddr, hfree, rfl⟩ | ⟨rfl, -, rfl⟩)
  · have hareas : AreasOk (fun _ => True) ((w₀.withPhys s₁).asked 1) T := h.of_eq rfl rfl rfl
    have hlink := hareas.ensures_linkArea (v := ⟨lo, hi, perm, m⟩) hm hpath haddr hfree
      ⟨trivial, trivial, hrange, hup', rfl⟩ hbefore hafter hfuel
    rw [ensures_bind] at hlink
    dsimp only
    rw [ensures_bind]
    refine hlink.mono fun _ w₂ hw₂ => ?_
    rw [ensures_bind]
    refine hw₂.mono ?_
    rintro _ w₃ ⟨hphys, t, harea⟩
    have hwork : WorksOn 3 (w₀.mm m).pt lo lo s₁ L₁ w₃.phys L₁ :=
      h₁.ok.worksOn_of_eq (congrArg Phys.table hphys) (congrArg Phys.free hphys)
    refine ensures_pure.2 ⟨tablesOk_of_worksOn hwork hroots₁ harea.touches.pt_eq harea.touches.mmUsed, t, harea.areas,
      harea.touches.mmUsed, Or.inl rfl, iff_of_false (by decide) hnot, fun _ x π => ?_, fun hc => absurd rfl hc⟩
    rw [harea.hasPerm, Vma.Has, and_assoc]
    rfl
  · dsimp only
    rw [ensures_bind, ensures_onPhys]
    refine (h₁.ok.ensures_ptReleaseRange (hroots₁ m hm) hrange hup').mono ?_
    rintro _ s₂ ⟨L₂, h₂⟩
    exact ensures_pure.2 ⟨tablesOk_of_worksOn h₂ hroots₁ (fun _ => rfl) rfl,
      hsame (by decide) rfl rfl rfl (Or.inr rfl) hnomem⟩

/-- The outcome of `__munmap`, on the areas. -/
structure MunmapExact (m begin stop : ℕ) (w : World) (T : ℕ → ColorTree Ptr) (w' : World)
    (t : ColorTree Ptr) : Prop where
  ok : AreasOk (fun _ => True) w' (Function.update T m t)
  mmUsed : w'.mmUsed = w.mmUsed
  removed : ∀ x π, HasPerm (w'.mm m) t x π ↔ HasPerm (w.mm m) (T m) x π ∧
    ¬(begin ≤ x ∧ x < stop)

theorem Cleared.munmapExact {s : Phys} (h : Cleared (fun _ => True) m begin stop (w.withPhys s) T w' t) :
    MunmapExact m begin stop w T w' t := ⟨h.ok, h.recut.mmUsed, h.hasPerm⟩

/-- **The loop of `__munmap`** takes the range out of the areas; it only waits for memory. -/
theorem AreasOk.munmapLoop_exact (h : AreasOk (fun _ => True) w T) (hm : w.mmUsed m = true)
    (hlt : begin < stop) (hle : stop ≤ taskSize) (hfuel : taskSize + 1 < fuel) (s : Phys) :
    EnsuresUnless (Starved fuel w) (munmapLoop fuel m begin stop fuel) (w.withPhys s) fun _ w' =>
      Recut m (w.withPhys s) w' ∧ ∃ t, MunmapExact m begin stop w T w' t := by
  refine ((h.withPhys s).ensures_munmapLoop hm trivial trivial hlt hle hfuel).mono And.left ?_
  intro _ w' ⟨t, hcleared⟩
  exact ⟨hcleared.recut, t, hcleared.munmapExact⟩

/-- **`__munmap`** takes the range out of the areas. It stops at an assertion, or does not end when there is no
memory for the area it splits off. -/
theorem AreasOk.ensuresOr_munmap (h : AreasOk (fun _ => True) w T) (htables : TablesOk w) (hm : w.mmUsed m = true)
    (hlt : begin < stop) (hle : stop ≤ taskSize) (hfuel : taskSize + 1 < fuel) :
    EnsuresOr (fun e => e = .assertion ∨ e = .fuel ∧ Starved fuel w) (munmap fuel m begin stop) w
      fun _ w' => TablesOk w' ∧ ∃ t, MunmapExact m begin stop w T w' t := by
  obtain ⟨L, hL, hroots⟩ := htables
  have hcount : begin + (stop + 2 ^ 64 - begin) % 2 ^ 64 / pageSize * pageSize ≤ taskSize := by
    unfold taskSize at *
    rw [pageSize]
    omega
  rw [munmap, ensuresOr_bind, ensuresOr_get, ensuresOr_bind, ensuresOr_onPhys]
  refine ((ensuresOr_munmapPages hL (hroots m hm) hcount (by omega)).imp fun _ => Or.inl).mono ?_
  rintro _ s₁ rfl
  rw [ensuresOr_bind, ensuresOr_onPhys]
  refine (hL.ensures_ptReleaseRange (hroots m hm) hlt hle).ensuresOr.mono ?_
  rintro _ s₂ ⟨L₂, h₂⟩
  refine ((h.munmapLoop_exact hm hlt hle hfuel s₂).ensuresOr fun hs => Or.inr ⟨rfl, hs⟩).mono ?_
  rintro _ w' ⟨hrecut, hexact⟩
  have hphys : w'.phys = s₂ := hrecut.phys
  subst hphys
  exact ⟨tablesOk_of_worksOn h₂ hroots hrecut.pt_eq hrecut.mmUsed, hexact⟩

/-! ### Runs -/

/-- A call that returns. -/
inductive AreaStep : World → World → Prop
  | mmap {w w' : World} {fuel m begin stop perm : ℕ} {rc : ℤ} (hm : w.mmUsed m = true)
      (hlt : begin < stop) (hle : stop ≤ taskSize) (hfuel : taskSize + 1 < fuel)
      (hrun : Mm.mmap fuel m begin stop perm w = .ok (rc, w')) : AreaStep w w'
  | munmap {w w' : World} {fuel m begin stop : ℕ} (hm : w.mmUsed m = true)
      (hlt : begin < stop) (hle : stop ≤ taskSize) (hfuel : taskSize + 1 < fuel)
      (hrun : Mm.munmap fuel m begin stop w = .ok ((), w')) : AreaStep w w'

/-- The address spaces have no areas. -/
def NoAreas (w : World) : Prop := ∀ m, w.mmUsed m = true → (w.mm m).vma.root = 0#64

theorem NoAreas.areasOk (h : NoAreas w) : AreasOk B w fun _ => .nil where
  space := fun m hm => ⟨⟨h m hm, trivial, List.nodup_nil⟩, redBlack_iff.2 ⟨rfl, trivial, 0, rfl⟩,
    fun _ hp => absurd hp List.not_mem_nil, List.Pairwise.nil⟩
  used := fun _ _ _ hp => absurd hp List.not_mem_nil
  apart := fun _ _ _ _ _ hp _ => absurd hp List.not_mem_nil

/-- The address spaces are as `create_mm` leaves them: without areas, and with no entries of their own. -/
structure NewSpaces (w : World) : Prop where
  noAreas : NoAreas w
  busy : ∀ m, w.mmUsed m = true → w.phys.free (w.mm m).pt = false
  zero : ∀ m, w.mmUsed m = true → ∀ i < 256, w.phys.table (w.mm m).pt i = .zero

/-- There are no tables but the top ones. -/
theorem NewSpaces.tablesOk (h : NewSpaces w) : TablesOk w := by
  classical
  set L : Levels := fun t => if ∃ m, w.mmUsed m = true ∧ (w.mm m).pt = t then some 3 else none with hL
  have hlevel : ∀ {t k}, L t = some k → k = 3 ∧ ∃ m, w.mmUsed m = true ∧ (w.mm m).pt = t := by
    intro t k hl
    rw [hL] at hl
    dsimp only at hl
    split_ifs at hl with hroot
    exact ⟨(Option.some.inj hl).symm, hroot⟩
  have habsent : ∀ {t k i}, L t = some (k + 1) → Own (k + 1) i → ¬(w.phys.table t i).present = true := by
    intro t k i hl hi
    obtain ⟨hk, m, hm, rfl⟩ := hlevel hl
    rw [h.zero m hm i (hi.2 hk)]
    exact Bool.false_ne_true
  refine ⟨L, ⟨fun hl => ?_, fun hl => ?_, fun hl hi hpres => absurd hpres (habsent hl hi),
    fun hl _ hi _ hpres _ _ => absurd hpres (habsent hl hi)⟩, fun m hm => if_pos ⟨m, hm, rfl⟩⟩
  · obtain ⟨-, m, hm, rfl⟩ := hlevel hl
    exact h.busy m hm
  · exact absurd (hlevel hl).1 (by decide)

theorem AreasOk.step (h : AreasOk (fun _ => True) w T) (htables : TablesOk w) (hstep : AreaStep w w') :
    TablesOk w' ∧ ∃ T', AreasOk (fun _ => True) w' T' := by
  cases hstep with
  | mmap hm hlt hle hfuel hrun =>
    obtain ⟨htables', t, ht⟩ := (h.ensures_mmap htables hm hlt hle (by omega)).of_run hrun
    exact ⟨htables', _, ht.ok⟩
  | munmap hm hlt hle hfuel hrun =>
    obtain ⟨htables', t, ht⟩ := (h.ensuresOr_munmap htables hm hlt hle hfuel).of_run hrun
    exact ⟨htables', _, ht.ok⟩

theorem NewSpaces.run (h : NewSpaces w) (hrun : Relation.ReflTransGen AreaStep w w') :
    TablesOk w' ∧ ∃ T, AreasOk (fun _ => True) w' T := by
  induction hrun with
  | refl => exact ⟨h.tablesOk, _, h.noAreas.areasOk⟩
  | tail _ hstep ih =>
    obtain ⟨htables, T, hok⟩ := ih
    exact hok.step htables hstep

/-- What holds of an address space whose areas are in the tree `T m`: they are an exact set of intervals for each
of the calls that may come next. -/
structure ExactAreas (m : ℕ) (w : World) (T : ℕ → ColorTree Ptr) : Prop where
  areas : SpaceOk (fun _ => True) (w.mm m) (T m) m
  lookup : ∀ fuel begin stop, taskSize + 1 < fuel → begin < stop →
    Ensures (lookupVma fuel m begin stop) w fun r w' => w' = w ∧
      (∀ p, r = .hit p → p ∈ (T m).inorder ∧ begin < ((w.mm m).area p).stop ∧
        ((w.mm m).area p).begin < stop) ∧
      ((∃ p, r = .hit p) ↔ Meets (w.mm m) (T m) begin stop)
  mmap : ∀ fuel begin stop perm, taskSize + 1 < fuel → begin < stop → stop ≤ taskSize →
    Ensures (mmap fuel m begin stop perm) w fun rc w' => ∃ t,
      MmapExact m begin stop perm w T rc w' t
  munmap : ∀ fuel begin stop, taskSize + 1 < fuel → begin < stop → stop ≤ taskSize →
    EnsuresOr (fun e => e = .assertion ∨ e = .fuel ∧ Starved fuel w) (munmap fuel m begin stop) w
      fun _ w' => ∃ t, MunmapExact m begin stop w T w' t
  ends : (∃ n, Supplies w n) → ∃ enough, ∀ fuel begin stop, enough ≤ fuel → begin < stop → stop ≤ taskSize →
    (∀ s, Ensures (munmapLoop fuel m begin stop fuel) (w.withPhys s) fun _ w' =>
        ∃ t, MunmapExact m begin stop w T w' t) ∧
      EnsuresOr (· = .assertion) (Mm.munmap fuel m begin stop) w fun _ w' =>
        ∃ t, MunmapExact m begin stop w T w' t

/-- **The areas are a set of disjoint intervals**, in every state that calls of `__mmap` and `__munmap` reach. -/
theorem area_runs_exact (h : NewSpaces w) (hrun : Relation.ReflTransGen AreaStep w w') :
    ∃ T, ∀ m, w'.mmUsed m = true → ExactAreas m w' T := by
  obtain ⟨htables, T, hok⟩ := h.run hrun
  refine ⟨T, fun m hm => ⟨hok.space m hm, ?_, ?_, ?_, ?_⟩⟩
  · intro fuel begin stop hfuel hlt
    exact hok.lookupVma_hit_iff hm hlt (by omega)
  · intro fuel begin stop perm hfuel hlt hle
    exact (hok.ensures_mmap htables hm hlt hle (by omega)).mono fun _ _ => And.right
  · intro fuel begin stop hfuel hlt hle
    exact (hok.ensuresOr_munmap htables hm hlt hle hfuel).mono fun _ _ => And.right
  · intro ⟨n, hn⟩
    refine ⟨max (n + 1) (taskSize + 2), fun fuel begin stop hfuel hlt hle => ?_⟩
    have hfed : ¬Starved fuel w' := fun hstarved => hstarved n (by omega) hn
    refine ⟨fun s => ?_, ?_⟩
    · exact ((hok.munmapLoop_exact hm hlt hle (by omega) s).ensures hfed).mono fun _ _ => And.right
    · refine ((hok.ensuresOr_munmap htables hm hlt hle (by omega)).imp fun e he => ?_).mono fun _ _ => And.right
      exact he.resolve_right fun hc => hfed hc.2

/-- A state with one address space and no areas. -/
def oneSpace : World where
  phys := ⟨fun _ => 0#64, fun _ _ => .zero, fun _ _ => 0, fun p => 2 ≤ p, fun n => some (n + 2, 0#64)⟩
  mm := fun _ => ⟨⟨fun _ => ⟨0#64, 0#64, 0#64⟩, 0#64⟩, fun _ => ⟨0, 0, 0, 0⟩, 1⟩
  vmaUsed := fun _ => false
  vmaSupply := fun n => some (BitVec.ofNat 64 (64 * (n + 1)))
  mmUsed := fun m => m = 0
  mmSupply := fun n => some (n + 1)
  pml4 := 1
  zeroPage := 0

theorem newSpaces_oneSpace : NewSpaces oneSpace := ⟨fun _ _ => rfl, fun _ _ => rfl, fun _ _ _ _ => rfl⟩

/-- Three pages are mapped, and the one in the middle is unmapped: the area is split. -/
theorem area_runs_exact_split : ∃ w₁ w₂, mmap (taskSize + 2) 0 4096 16384 3 oneSpace = .ok (0, w₁) ∧
    munmap (taskSize + 2) 0 8192 12288 w₁ = .ok ((), w₂) ∧ ∃ T, ∀ m, w₂.mmUsed m = true → ExactAreas m w₂ T := by
  have hreturns : returns (do
      let rc ← mmap (taskSize + 2) 0 4096 16384 3
      munmap (taskSize + 2) 0 8192 12288
      return rc) oneSpace (fun rc _ => decide (rc = 0)) = true := by decide +kernel
  have hruns := returns_iff.1 hreturns
  simp only [ensures_bind, ensures_pure] at hruns
  obtain ⟨rc, w₁, hrun₁, _, w₂, hrun₂, hrc⟩ := hruns
  obtain rfl := of_decide_eq_true hrc
  have hused : oneSpace.mmUsed 0 = true := rfl
  obtain ⟨t, ht⟩ := ((newSpaces_oneSpace.noAreas.areasOk.ensures_mmap newSpaces_oneSpace.tablesOk hused
    (by decide) (by decide) (by decide)).of_run hrun₁).2
  refine ⟨w₁, w₂, hrun₁, hrun₂, area_runs_exact newSpaces_oneSpace (.tail (.single
    (.mmap hused (by decide) (by decide) (by decide) hrun₁)) (.munmap ?_ (by decide) (by decide) (by decide) hrun₂))⟩
  rw [ht.mmUsed]
  exact hused

end

end Mm

end Kernel64
