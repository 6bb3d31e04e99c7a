import Kernel64.Mm.Fork
import Kernel64.Mm.Private
import Kernel64.Mm.RefRuns

/-!
# Isolation after a fork

The processor reads and writes through the entries at level 0, and calls `mm_page_fault` when the
entry is absent or does not allow a write; a fault that succeeds is followed by the access. After
`copy_mm` the two address spaces read the same, and no access through one of them changes what is
read through the other: they share pages that neither can write (`Forest.Private`).

The counters of the pages have to stay below `2 ^ 63`, since `get_page` does not notice when a
counter overflows.
-/

namespace Kernel64

namespace Mm

open Paging Rb ColorTree

/-! ### Accesses -/

/-- The page that is written through an entry. -/
def storeTo (w : World) (m q : ℕ) : Option Pfn :=
  if w.mmUsed m = true ∧ q < userPages then
    match userPte w m q with
    | none => none
    | some e => if e.present ∧ e.write then some e.pfn else none
  else none

/-- Read a byte at an address. -/
def readByte (fuel m addr : ℕ) : MmM (Option UInt8) := do
  match mappedTo (← get) (m, addr / 4096) with
  | some f => return some ((← get).phys.bytes f (addr % 4096))
  | none => do
    if (← mmPageFault fuel m addr .read) ≠ 0 then return none
    match mappedTo (← get) (m, addr / 4096) with
    | some f => return some ((← get).phys.bytes f (addr % 4096))
    | none => throw .null

/-- Write a byte at an address. -/
def writeByte (fuel m addr : ℕ) (b : UInt8) : MmM ℤ := do
  match storeTo (← get) m (addr / 4096) with
  | some f => do
    modify fun w => { w with phys := wrote w.phys f (addr % 4096) b }
    return 0
  | none => do
    let rc ← mmPageFault fuel m addr .write
    if rc ≠ 0 then return rc
    match storeTo (← get) m (addr / 4096) with
    | some f => do
      modify fun w => { w with phys := wrote w.phys f (addr % 4096) b }
      return 0
    | none => throw .null

/-- What is read at an address; a page that is not mapped reads as zeros. -/
def byteAt (w : World) (m addr : ℕ) : UInt8 :=
  match mappedTo w (m, addr / 4096) with
  | some f => w.phys.bytes f (addr % 4096)
  | none => 0

section

variable {w w' : World} {T : ℕ → ColorTree Ptr} {E : ℕ → ℕ → ℕ → Pte} {m q fuel addr : ℕ}
  {S : Set ℕ} {x : Pfn → ℕ}

theorem WorldOk.byteAt_eq (h : WorldOk w T E) (m addr : ℕ) :
    byteAt w m addr = (forestOf w T E).byteAt w.phys m addr := by
  have hmap := congrFun h.mappedTo_eq (m, addr / 4096)
  exact congrArg (fun o => match o with | some f => w.phys.bytes f (addr % 4096) | none => 0) hmap

/-- The pages that can be written. -/
theorem WorldOk.storeTo_eq_some (h : WorldOk w T E) {f : Pfn} :
    storeTo w m q = some f ↔
      (forestOf w T E).Writes w.phys m q ∧ ((forestOf w T E).pte w.phys m q).pfn = f := by
  set F := forestOf w T E with hF
  rw [storeTo]
  constructor
  · intro hsome
    split_ifs at hsome with hin
    rw [h.userPte_eq hin.1 hin.2] at hsome
    by_cases hl : 0 < load (counts (F.dom m)) 0 (q / 512)
    · rw [if_pos hl] at hsome
      simp only [← hF] at hsome
      split_ifs at hsome with he
      have hq : q ∈ F.dom m := by
        by_contra hc
        have habs := h.pages.clear m hin.1 q ((live_iff_of_lt (by omega)).2 hl) hc
        exact Bool.false_ne_true (habs.symm.trans he.1)
      exact ⟨⟨hin.1, hq, he.1, he.2⟩, Option.some_inj.1 hsome⟩
    · rw [if_neg hl] at hsome
      exact nomatch hsome
  · rintro ⟨⟨hm, hq, hpres, hwrite⟩, rfl⟩
    have hlt : q < userPages := h.pages.user hm hq
    rw [if_pos ⟨hm, hlt⟩, h.userPte_of_mem hm hq]
    simp only [← hF, hpres, hwrite, and_self, if_true]

/-- **The state between accesses.** -/
structure Isolated (S : Set ℕ) (x : Pfn → ℕ) (w : World) (T : ℕ → ColorTree Ptr)
    (E : ℕ → ℕ → ℕ → Pte) : Prop where
  used : ∀ m ∈ S, w.mmUsed m = true
  areas : AreasOk Aligned w T
  pages : (forestOf w T E).Private S x w.phys

theorem Isolated.worldOk (h : Isolated S x w T E) : WorldOk w T E := ⟨h.areas, h.pages.ok⟩

/-- A page fault between accesses. -/
theorem Isolated.ensures_fault {access : Access} (h : Isolated S x w T E) (hm : m ∈ S)
    (hnw : ¬(forestOf w T E).Writes w.phys m (addr / 4096))
    (hread : access = .read → mappedTo w (m, addr / 4096) = none) (hfuel : taskSize < fuel) :
    Ensures (mmPageFault fuel m addr access) w fun rc w' => ∃ s', w' = w.withPhys s' ∧
      Isolated S x w' T E ∧ (∀ m' a, byteAt w' m' a = byteAt w m' a) ∧
      (addr / 4096 ∈ pagesOf (w.mm m) (T m) → access = .read → rc = 0) ∧
      (access = .read → rc = 0 → mappedTo w' (m, addr / 4096) ≠ none) ∧
      (access = .write → rc = 0 → (forestOf w T E).Writes s' m (addr / 4096)) := by
  refine (h.worldOk.ensures_mmPageFault (h.used m hm) hfuel).mono ?_
  rintro rc w' (⟨rfl, rfl, hout⟩ | ⟨p, hp, hhas, s', rfl, hfault⟩)
  · exact ⟨w'.phys, rfl, h, fun _ _ => rfl, fun hc => absurd hc hout,
      fun _ hc => absurd hc (by decide), fun _ hc => absurd hc (by decide)⟩
  · rw [h.worldOk.mappedTo_eq] at hread
    have hdone := hfault.faultless h.pages hm (h.used m hm) ⟨p, hp, hhas⟩ hnw hread
    have hiso : Isolated S x (w.withPhys s') T E :=
      ⟨h.used, h.areas.withPhys s', hdone.isPrivate⟩
    refine ⟨s', rfl, hiso, fun m' a => ?_, fun _ hacc => ?_, fun hacc _ => ?_, hdone.write⟩
    · rw [hiso.worldOk.byteAt_eq, h.worldOk.byteAt_eq]
      exact hdone.byteAt m' a
    · subst hacc
      cases hfault
      rfl
    · rw [hiso.worldOk.mappedTo_eq]
      exact hdone.read hacc

/-- **A read** gives what is there, and changes nothing that is read. -/
theorem Isolated.ensures_readByte (h : Isolated S x w T E) (hm : m ∈ S) (hfuel : taskSize < fuel) :
    Ensures (readByte fuel m addr) w fun r w' => (∃ s', w' = w.withPhys s') ∧ Isolated S x w' T E ∧
      (addr / 4096 ∈ pagesOf (w.mm m) (T m) → r = some (byteAt w m addr)) ∧
      ∀ m' a, byteAt w' m' a = byteAt w m' a := by
  rw [readByte]
  simp only [ensures_bind, ensures_get]
  cases hmap : mappedTo w (m, addr / 4096) with
  | some f =>
    simp only [ensures_bind, ensures_get, ensures_pure]
    refine ⟨⟨w.phys, rfl⟩, h, fun _ => ?_, fun _ _ => trivial⟩
    rw [byteAt, hmap]
  | none =>
    have hnw : ¬(forestOf w T E).Writes w.phys m (addr / 4096) := fun hw => by
      rw [h.worldOk.mappedTo_eq, hw.frame] at hmap
      cases hmap
    simp only [ensures_bind]
    refine (h.ensures_fault hm hnw (fun _ => hmap) hfuel).mono ?_
    rintro rc w' ⟨s', rfl, hiso, hbytes, hread, hmapped, -⟩
    by_cases hrc : rc = 0
    swap
    · rw [if_pos hrc]
      exact ensures_pure.2 ⟨⟨s', rfl⟩, hiso, fun hin => absurd (hread hin rfl) hrc, hbytes⟩
    · rw [if_neg (not_not.2 hrc)]
      simp only [ensures_bind, ensures_get]
      cases hmap' : mappedTo (w.withPhys s') (m, addr / 4096) with
      | none => exact absurd hmap' (hmapped rfl hrc)
      | some f =>
        simp only [ensures_bind, ensures_get, ensures_pure]
        refine ⟨⟨s', rfl⟩, hiso, fun _ => ?_, hbytes⟩
        rw [← hbytes, byteAt, hmap']

/-- Storing through an entry, between accesses. -/
theorem Isolated.store (h : Isolated S x w T E) (hm : m ∈ S) {f : Pfn}
    (hf : storeTo w m (addr / 4096) = some f) (b : UInt8) :
    Isolated S x (w.withPhys (wrote w.phys f (addr % 4096) b)) T E ∧
      ∀ m' a, ¬(m' = m ∧ a = addr) →
        byteAt (w.withPhys (wrote w.phys f (addr % 4096) b)) m' a = byteAt w m' a := by
  obtain ⟨hw, rfl⟩ := h.worldOk.storeTo_eq_some.1 hf
  obtain ⟨hpriv, hbytes⟩ := h.pages.store hm hw (Nat.mod_lt addr (by norm_num)) b
  have hiso : Isolated S x (w.withPhys (wrote w.phys ((forestOf w T E).pte w.phys m
      (addr / 4096)).pfn (addr % 4096) b)) T E := ⟨h.used, h.areas.withPhys _, hpriv⟩
  refine ⟨hiso, fun m' a hne => ?_⟩
  rw [hiso.worldOk.byteAt_eq, h.worldOk.byteAt_eq]
  refine (hbytes m' a).trans (if_neg fun hc => hne ⟨hc.1, ?_⟩)
  omega

/-- **A write** changes what is read at its own address, and nothing else. -/
theorem Isolated.ensures_writeByte {b : UInt8} (h : Isolated S x w T E) (hm : m ∈ S)
    (hfuel : taskSize < fuel) :
    Ensures (writeByte fuel m addr b) w fun _ w' => (∃ s', w' = w.withPhys s') ∧
      Isolated S x w' T E ∧ ∀ m' a, ¬(m' = m ∧ a = addr) → byteAt w' m' a = byteAt w m' a := by
  rw [writeByte]
  simp only [ensures_bind, ensures_get]
  cases hstore : storeTo w m (addr / 4096) with
  | some f =>
    simp only [ensures_bind, ensures_modify, ensures_pure]
    obtain ⟨h₁, h₂⟩ := h.store hm hstore b
    exact ⟨⟨_, rfl⟩, h₁, h₂⟩
  | none =>
    have hnw : ¬(forestOf w T E).Writes w.phys m (addr / 4096) := fun hw => by
      have := h.worldOk.storeTo_eq_some.2 ⟨hw, rfl⟩
      rw [hstore] at this
      cases this
    have hread : Access.write = .read → mappedTo w (m, addr / 4096) = none := (by simp)
    simp only [ensures_bind]
    refine (h.ensures_fault hm hnw hread hfuel).mono ?_
    rintro rc w' ⟨s', rfl, hiso, hbytes, -, -, hwrites⟩
    by_cases hrc : rc = 0
    swap
    · rw [if_pos hrc]
      exact ensures_pure.2 ⟨⟨s', rfl⟩, hiso, fun m' a _ => hbytes m' a⟩
    · rw [if_neg (not_not.2 hrc)]
      have hstore' := hiso.worldOk.storeTo_eq_some.2 ⟨hwrites rfl hrc, rfl⟩
      simp only [ensures_bind, ensures_get, hstore', ensures_modify, ensures_pure]
      obtain ⟨h₁, h₂⟩ := hiso.store hm hstore' b
      exact ⟨⟨_, rfl⟩, h₁, fun m' a hne => (h₂ m' a hne).trans (hbytes m' a)⟩

/-! ### Runs -/

/-- An access through an address space. -/
inductive MemAccess where
  | read (m addr : ℕ)
  | write (m addr : ℕ) (b : UInt8)

/-- The address space of an access. -/
def MemAccess.space : MemAccess → ℕ
  | read m _ => m
  | write m _ _ => m

/-- What an access does. -/
def MemAccess.run (fuel : ℕ) : MemAccess → MmM Unit
  | read m addr => do let _ ← readByte fuel m addr
  | write m addr b => do let _ ← writeByte fuel m addr b

/-- Accesses through the address spaces of `S`, one after the other. -/
inductive AccessRun (S : Set ℕ) : World → World → Prop
  | refl (w : World) : AccessRun S w w
  | tail {w w₁ w₂ : World} {a : MemAccess} {fuel : ℕ} (hrun : AccessRun S w w₁) (hS : a.space ∈ S)
      (hfuel : taskSize < fuel) (hstep : a.run fuel w₁ = .ok ((), w₂)) : AccessRun S w w₂

theorem Isolated.step {a : MemAccess} (h : Isolated S x w T E) (hS : a.space ∈ S)
    (hfuel : taskSize < fuel) (hstep : a.run fuel w = .ok ((), w')) :
    (∃ s', w' = w.withPhys s') ∧ Isolated S x w' T E := by
  cases a with
  | read m addr =>
    have hdone : Ensures (readByte fuel m addr) w fun _ w' =>
        (∃ s', w' = w.withPhys s') ∧ Isolated S x w' T E :=
      (h.ensures_readByte hS hfuel).mono fun _ _ hw => ⟨hw.1, hw.2.1⟩
    exact (ensures_dropped hdone).of_run hstep
  | write m addr b =>
    have hdone : Ensures (writeByte fuel m addr b) w fun _ w' =>
        (∃ s', w' = w.withPhys s') ∧ Isolated S x w' T E :=
      (h.ensures_writeByte hS hfuel).mono fun _ _ hw => ⟨hw.1, hw.2.1⟩
    exact (ensures_dropped hdone).of_run hstep

theorem AccessRun.isolated (hrun : AccessRun S w w') (h : Isolated S x w T E) :
    (∃ s', w' = w.withPhys s') ∧ Isolated S x w' T E := by
  induction hrun with
  | refl => exact ⟨⟨w.phys, rfl⟩, h⟩
  | tail _ hS hfuel hstep ih =>
    obtain ⟨⟨s₁, rfl⟩, h₁⟩ := ih
    obtain ⟨⟨s₂, rfl⟩, h₂⟩ := h₁.step hS hfuel hstep
    exact ⟨⟨s₂, rfl⟩, h₂⟩

/-! ### After a fork -/

/-- The counters are not below the number of mappings, and far from overflowing. -/
def Sufficient (w : World) : Prop :=
  ∀ f, (f = w.zeroPage ∨ ∃ i, mappedTo w i = some f) →
    refs (mappedTo w) f + (if f = w.zeroPage then 1 else 0) ≤ (w.phys.u f).toNat ∧
      (w.phys.u f).toNat < 2 ^ 63

/-- What the counters have in excess. -/
noncomputable def excess (w : World) (f : Pfn) : ℕ :=
  (w.phys.u f).toNat - (refs (mappedTo w) f + if f = w.zeroPage then 1 else 0)

theorem Sufficient.counted (hs : Sufficient w) (h : WorldOk w T E) :
    (forestOf w T E).Counted w.phys (excess w) := by
  intro f hf
  have hf' : f = w.zeroPage ∨ ∃ i, mappedTo w i = some f := by
    rw [h.mappedTo_eq, ← refs_pos_iff h.pages.sparse]
    exact hf.symm
  obtain ⟨hle, -⟩ := hs f hf'
  have htotal : (forestOf w T E).total w.phys (excess w) f =
      refs (mappedTo w) f + (if f = w.zeroPage then 1 else 0) + excess w f := by
    rw [h.mappedTo_eq]
    rfl
  rw [htotal, excess]
  omega

theorem Sufficient.excess_lt (hs : Sufficient w) (h : WorldOk w T E) (f : Pfn)
    (hf : (forestOf w T E).Held w.phys f) : excess w f < 2 ^ 63 := by
  have hf' : f = w.zeroPage ∨ ∃ i, mappedTo w i = some f := by
    rw [h.mappedTo_eq, ← refs_pos_iff h.pages.sparse]
    exact hf.symm
  exact lt_of_le_of_lt (Nat.sub_le _ _) (hs f hf').2

section Fork

variable {w₁ : World} {T₁ : ℕ → ColorTree Ptr} {E₁ : ℕ → ℕ → ℕ → Pte} {src dst : ℕ}

/-- What a page of `src` is mapped to is kept. -/
theorem Forks.frame_src (h : Forks src dst x (T src).inorder w T E w₁ T₁ E₁)
    (hsrc : w.mmUsed src = true) (hq : q ∈ pagesOf (w.mm src) (T src)) :
    (forestOf w₁ T₁ E₁).frame w₁.phys (src, q) = (forestOf w T E).frame w.phys (src, q) := by
  have hq₁ : q ∈ (forestOf w₁ T₁ E₁).dom src := h.mem_pages hq
  have hq₀ : q ∈ (forestOf w T E).dom src := hq
  have hm₁ : src ∈ (forestOf w₁ T₁ E₁).live := (congrFun h.touches.mmUsed src).trans hsrc
  have hm₀ : src ∈ (forestOf w T E).live := hsrc
  rw [Forest.frame_eq hm₁ hq₁, Forest.frame_eq hm₀ hq₀, h.source q hq, dimmed_present, dimmed_pfn]

/-- A page of `dst` is mapped to what that of `src` was. -/
theorem Forks.frame_dst (h : Forks src dst x (T src).inorder w T E w₁ T₁ E₁)
    (hsrc : w.mmUsed src = true) (hdst : w.mmUsed dst = true)
    (hq : q ∈ pagesOf (w.mm src) (T src)) :
    (forestOf w₁ T₁ E₁).frame w₁.phys (dst, q) = (forestOf w T E).frame w.phys (src, q) := by
  have hq₁ : q ∈ (forestOf w₁ T₁ E₁).dom dst := by
    change q ∈ pagesOf (w₁.mm dst) (T₁ dst)
    rw [h.pages]
    exact Or.inr hq
  have hq₀ : q ∈ (forestOf w T E).dom src := hq
  have hm₁ : dst ∈ (forestOf w₁ T₁ E₁).live := (congrFun h.touches.mmUsed dst).trans hdst
  have hm₀ : src ∈ (forestOf w T E).live := hsrc
  have hcopy := h.copy q hq
  rw [Forest.frame_eq hm₁ hq₁, Forest.frame_eq hm₀ hq₀]
  split_ifs at hcopy with hp
  · rw [hcopy, if_pos hp]
    rfl
  · rw [hcopy, if_neg hp]
    rfl

/-- The bytes of what is mapped are kept. -/
theorem Forks.bytes (h : Forks src dst x (T src).inorder w T E w₁ T₁ E₁) (hok : WorldOk w T E)
    {i : ℕ × ℕ} {f : Pfn} (hf : (forestOf w T E).frame w.phys i = some f) :
    w₁.phys.bytes f = w.phys.bytes f := by
  obtain ⟨h₁, h₂, -⟩ := hok.pages.busy i f hf
  exact (h.kept f h₂ h₁).2.2

/-- Both address spaces read what was read before. -/
theorem Forks.byteAt (h : Forks src dst x (T src).inorder w T E w₁ T₁ E₁) (hok : WorldOk w T E)
    (hsrc : w.mmUsed src = true) (hdst : w.mmUsed dst = true)
    (hq : addr / 4096 ∈ pagesOf (w.mm src) (T src)) :
    byteAt w₁ dst addr = Mm.byteAt w src addr ∧ Mm.byteAt w₁ src addr = Mm.byteAt w src addr := by
  rw [h.ok.byteAt_eq, h.ok.byteAt_eq, hok.byteAt_eq]
  exact ⟨Forest.byteAt_congr (h.frame_dst hsrc hdst hq) fun _ hf => h.bytes hok hf,
    Forest.byteAt_congr (h.frame_src hsrc hq) fun _ hf => h.bytes hok hf⟩

/-- After a fork nothing can be written through the two address spaces. -/
theorem Forks.isolated (h : Forks src dst x (T src).inorder w T E w₁ T₁ E₁) (hok : WorldOk w T E)
    (hsrc : w.mmUsed src = true) (hdst : w.mmUsed dst = true) (hnil : T dst = .nil)
    (hne : dst ≠ src) (hzero : ∀ i < 4096, w.phys.bytes w.zeroPage i = 0)
    (hx : x w.zeroPage < 2 ^ 63) : Isolated {src, dst} x w₁ T₁ E₁ := by
  have hnone : ∀ m ∈ ({src, dst} : Set ℕ), ∀ q, ¬(forestOf w₁ T₁ E₁).Writes w₁.phys m q := by
    rintro m (rfl | rfl) q ⟨-, hq, hpres, hwrite⟩
    · have hq₀ : q ∈ pagesOf (w.mm m) (T m) := by
        have : q ∈ pagesOf (w₁.mm m) (T₁ m) := hq
        rwa [h.touches.other m hne.symm, h.trees m hne.symm] at this
      rw [h.source q hq₀] at hpres hwrite
      rw [dimmed_present] at hpres
      rw [dimmed_of_present hpres] at hwrite
      exact Bool.false_ne_true hwrite
    · have hq₀ : q ∈ pagesOf (w.mm src) (T src) := by
        have : q ∈ pagesOf (w₁.mm m) (T₁ m) := hq
        rw [h.pages, hnil, pagesOf_nil, Set.empty_union] at this
        exact this
      have hcopy := h.copy q hq₀
      split_ifs at hcopy with hp
      · rw [hcopy] at hwrite
        exact Bool.false_ne_true hwrite
      · exact Bool.false_ne_true (hcopy.symm.trans hpres)
  refine ⟨?_, h.ok.areas, h.ok.pages, fun m hm q hw => absurd hw (hnone m hm q),
    fun f hf _ => h.counted f hf, ?_, ?_⟩
  · rintro m (rfl | rfl)
    · exact (congrFun h.touches.mmUsed m).trans hsrc
    · exact (congrFun h.touches.mmUsed m).trans hdst
  · have hz : (forestOf w₁ T₁ E₁).zero = w.zeroPage := h.touches.zeroPage
    obtain ⟨h₁, h₂, -⟩ := hok.pages.zero
    rw [hz, (h.kept w.zeroPage h₂ h₁).2.2]
    exact hzero
  · have hz : (forestOf w₁ T₁ E₁).zero = w.zeroPage := h.touches.zeroPage
    rwa [hz]

/-- **Isolation after a fork.** When `copy_mm` to a new address space returns 0, it has the areas
of the old one, both read what the old one read, and after any accesses through the two, a read
gives what is there and a write through one changes nothing that is read through the other. -/
theorem copyMm_isolates (h : WorldOk w T E) (hsrc : w.mmUsed src = true)
    (hdst : w.mmUsed dst = true) (hnil : T dst = .nil) (hne : dst ≠ src) (hs : Sufficient w)
    (hzero : ∀ i < 4096, w.phys.bytes w.zeroPage i = 0) (hfuel : taskSize + 1 < fuel) :
    Ensures (copyMm fuel dst src) w fun rc w₁ => rc = 0 →
      w₁.mm src = w.mm src ∧
      (∃ t, SpaceOk Aligned (w₁.mm dst) t dst ∧
        areaRanges (w₁.mm dst) t.inorder = areaRanges (w.mm src) (T src).inorder) ∧
      (∀ addr, addr / 4096 ∈ pagesOf (w.mm src) (T src) →
        byteAt w₁ dst addr = byteAt w src addr ∧ byteAt w₁ src addr = byteAt w src addr) ∧
      ∀ w₂ m m' addr fuel', AccessRun {src, dst} w₁ w₂ → m = src ∧ m' = dst ∨ m = dst ∧ m' = src →
        taskSize < fuel' →
        Ensures (readByte fuel' m addr) w₂ (fun r w₃ =>
          (addr / 4096 ∈ pagesOf (w.mm src) (T src) → r = some (byteAt w₂ m addr)) ∧
          ∀ m' a, byteAt w₃ m' a = byteAt w₂ m' a) ∧
        ∀ b, Ensures (writeByte fuel' m addr b) w₂ fun _ w₃ =>
          ∀ a, byteAt w₃ m' a = byteAt w₂ m' a := by
  refine (h.ensures_copyMm (hs.counted h) (hs.excess_lt h) hsrc hdst hfuel).mono ?_
  rintro rc w₁ ⟨l, T₁, E₁, hforks, hall⟩ hrc
  obtain rfl := hall hrc
  have hiso : Isolated {src, dst} (excess w) w₁ T₁ E₁ :=
    hforks.isolated h hsrc hdst hnil hne hzero (hs.excess_lt h w.zeroPage (Or.inr rfl))
  have hpages : ∀ m ∈ ({src, dst} : Set ℕ),
      pagesOf (w₁.mm m) (T₁ m) = pagesOf (w.mm src) (T src) := by
    rintro m (rfl | rfl)
    · rw [hforks.touches.other m hne.symm, hforks.trees m hne.symm]
    · rw [hforks.pages, hnil, pagesOf_nil, Set.empty_union]
      rfl
  refine ⟨hforks.touches.other src hne.symm, ⟨T₁ dst, ?_, ?_⟩,
    fun addr hq => hforks.byteAt h hsrc hdst hq,
    fun w₂ m m' addr fuel' hrun hm hfuel' => ?_⟩
  · exact hforks.ok.areas.space dst ((congrFun hforks.touches.mmUsed dst).trans hdst)
  · rw [hforks.ranges, hnil, inorder_nil, areaRanges_nil, Set.empty_union]
  · obtain ⟨⟨s₂, rfl⟩, hiso₂⟩ := hrun.isolated hiso
    have hmS : m ∈ ({src, dst} : Set ℕ) := by
      rcases hm with ⟨rfl, -⟩ | ⟨rfl, -⟩
      · exact Or.inl rfl
      · exact Or.inr rfl
    have hmm' : m' ≠ m := by
      rcases hm with ⟨rfl, rfl⟩ | ⟨rfl, rfl⟩
      · exact hne
      · exact hne.symm
    refine ⟨(hiso₂.ensures_readByte hmS hfuel').mono fun r w₃ hr => ⟨fun hq => hr.2.2.1 ?_, hr.2.2.2⟩,
      fun b => (hiso₂.ensures_writeByte hmS hfuel').mono fun r w₃ hr a => ?_⟩
    · rw [← hpages m hmS] at hq
      exact hq
    · exact hr.2.2 m' a fun hc => hmm' hc.1

/-- Counters that are right are sufficient. -/
theorem RefsOk.sufficient (h : RefsOk w T E) : Sufficient w := by
  intro f hf
  have hf' : (forestOf w T E).Held w.phys f := by
    rw [h.1.mappedTo_eq, ← refs_pos_iff h.1.pages.sparse] at hf
    exact hf.symm
  have hcount : (w.phys.u f).toNat = refs (mappedTo w) f + (if f = w.zeroPage then 1 else 0) := by
    rw [h.1.mappedTo_eq]
    exact h.2 f hf'
  have hle := h.1.pages.refs_le f
  rw [← h.1.mappedTo_eq] at hle
  rw [hcount]
  refine ⟨le_rfl, ?_⟩
  split_ifs <;> omega

end Fork

/-! ### An overflow -/

/-- The state with another counter of page 0. -/
def recount (w : World) (v : BitVec 64) : World :=
  { w with phys := { w.phys with u := Function.update w.phys.u 0 v } }

/-- The whole page holds zeros. -/
def isBlank (w : World) (f : Pfn) : Bool := (List.range 4096).all fun i => w.phys.bytes f i = 0

theorem isBlank_iff {f : Pfn} : isBlank w f = true ↔ ∀ i < 4096, w.phys.bytes f i = 0 := by
  simp only [isBlank, List.all_eq_true, List.mem_range, decide_eq_true_eq]

/-- An address space with two pages mapped to `zero_page`, and another one without areas. -/
theorem smallSpace_twoSpaces :
    returns ((PageCall.mmap 0 0 8192 1).run (taskSize + 2)) smallSpace (fun _ w₁ =>
      decide (w₁.mmUsed 0 = true ∧ mappedTo w₁ (0, 0) = none) &&
      returns ((PageCall.fault 0 0 .read).run (taskSize + 2)) w₁ fun _ w₂ =>
        decide (w₂.mmUsed 0 = true ∧ mappedTo w₂ (0, 1) = none) &&
        returns ((PageCall.fault 0 4096 .read).run (taskSize + 2)) w₂ fun _ w₃ =>
          returns createMm w₃ fun r w₄ => decide (r = some 1 ∧ w₄.mmUsed 0 = true ∧
            w₄.mmUsed 1 = true ∧ w₄.zeroPage = 0 ∧ isBlank w₄ 0 = true) &&
            (returns (copyMm (taskSize + 2) 1 0) w₄ (fun rc _ => decide (rc = 0)) &&
            returns (copyMm (taskSize + 2) 1 0) (recount w₄ (BitVec.allOnes 64)) fun rc w₅ =>
              decide (rc = 0 ∧ byteAt w₅ 0 0 = 0) &&
                returns (writeByte (taskSize + 2) 1 0 1) w₅ fun _ w₆ =>
                  decide (byteAt w₆ 0 0 = 1))) = true := by
  decide +kernel

/-- The state before the fork, and what it does there with two counters of `zero_page`. -/
structure TwoSpaces (w : World) (T : ℕ → ColorTree Ptr) (E : ℕ → ℕ → ℕ → Pte) : Prop where
  ok : RefsOk w T E
  used : w.mmUsed 0 = true ∧ w.mmUsed 1 = true
  nil : T 1 = .nil
  zeroPage : w.zeroPage = 0
  blank : ∀ i < 4096, w.phys.bytes 0 i = 0
  copied : ∃ w₁, copyMm (taskSize + 2) 1 0 w = .ok (0, w₁)
  leaked : ∃ w₁ w₂ rc, copyMm (taskSize + 2) 1 0 (recount w (.allOnes 64)) = .ok (0, w₁) ∧
    writeByte (taskSize + 2) 1 0 1 w₁ = .ok (rc, w₂) ∧ byteAt w₁ 0 0 = 0 ∧ byteAt w₂ 0 0 = 1

theorem exists_twoSpaces : ∃ w T E, TwoSpaces w T E := by
  obtain ⟨⟨⟩, w₁, hrun₁, hret₁⟩ := returns_iff.1 smallSpace_twoSpaces
  obtain ⟨hw₁, hnext₁⟩ := Bool.and_eq_true_iff.1 hret₁
  obtain ⟨hused₁, hnone₁⟩ := of_decide_eq_true hw₁
  obtain ⟨⟨⟩, w₂, hrun₂, hret₂⟩ := returns_iff.1 hnext₁
  obtain ⟨hw₂, hnext₂⟩ := Bool.and_eq_true_iff.1 hret₂
  obtain ⟨hused₂, hnone₂⟩ := of_decide_eq_true hw₂
  obtain ⟨⟨⟩, w₃, hrun₃, hret₃⟩ := returns_iff.1 hnext₂
  obtain ⟨r, w₄, hrun₄, hret₄⟩ := returns_iff.1 hret₃
  obtain ⟨hw₄, hnext₄⟩ := Bool.and_eq_true_iff.1 hret₄
  obtain ⟨rfl, hused₀, hused₁', hzero, hblank⟩ := of_decide_eq_true hw₄
  obtain ⟨hcopy, hleak⟩ := Bool.and_eq_true_iff.1 hnext₄
  have hfuel : taskSize + 1 < taskSize + 2 := by omega
  have hrun : CleanRun smallSpace w₃ :=
    .tail (c := .fault 0 4096 .read) (.tail (c := .fault 0 0 .read)
      (.tail (c := .mmap 0 0 8192 1) (.refl _) trivial
        ⟨_, hfuel, ⟨rfl, by norm_num, by norm_num [taskSize]⟩, hrun₁⟩) trivial
        ⟨_, hfuel, ⟨hused₁, fun _ => hnone₁⟩, hrun₂⟩) trivial
      ⟨_, hfuel, ⟨hused₂, fun _ => hnone₂⟩, hrun₃⟩
  have hstart : RefsOk smallSpace (fun _ => .nil) fun _ _ _ => .zero := empty_smallSpace.worldOk
  obtain ⟨T, E, h⟩ := hrun.refsOk hstart
  have hcreated := h.1.ensures_createMm.of_run hrun₄
  rcases hcreated with ⟨m, hm, hcreated⟩ | ⟨hc, -⟩
  swap
  · cases hc
  obtain rfl := Option.some_inj.1 hm
  obtain ⟨rc, w₅, hrun₅, hrc⟩ := returns_iff.1 hcopy
  obtain rfl := of_decide_eq_true hrc
  obtain ⟨rc, w₆, hrun₆, hret₆⟩ := returns_iff.1 hleak
  obtain ⟨hw₆, hnext₆⟩ := Bool.and_eq_true_iff.1 hret₆
  obtain ⟨rfl, hbefore⟩ := of_decide_eq_true hw₆
  obtain ⟨rc, w₇, hrun₇, hafter⟩ := returns_iff.1 hnext₆
  exact ⟨w₄, Function.update T 1 .nil, E, ⟨hcreated.ok, hcreated.keeps.counted h.1.pages h.2⟩,
    ⟨hused₀, hused₁'⟩, Function.update_self _ _ _, hzero, isBlank_iff.1 hblank, ⟨w₅, hrun₅⟩,
    w₆, w₇, rc, hrun₆, hrun₇, hbefore, of_decide_eq_true hafter⟩

theorem copyMm_isolates_twoPages : ∃ w w₁, copyMm (taskSize + 2) 1 0 w = .ok (0, w₁) ∧
    ∀ w₂, AccessRun {0, 1} w₁ w₂ → Ensures (writeByte (taskSize + 2) 1 0 1) w₂ fun _ w₃ =>
      ∀ a, byteAt w₃ 0 a = byteAt w₂ 0 a := by
  obtain ⟨w, T, E, h⟩ := exists_twoSpaces
  obtain ⟨w₁, hrun⟩ := h.copied
  have hblank : ∀ i < 4096, w.phys.bytes w.zeroPage i = 0 := by
    rw [h.zeroPage]
    exact h.blank
  obtain ⟨-, -, -, hiso⟩ := (copyMm_isolates h.ok.1 h.used.1 h.used.2 h.nil (by decide)
    h.ok.sufficient hblank (by omega)).of_run hrun rfl
  refine ⟨w, w₁, hrun, fun w₂ haccess => ?_⟩
  exact (hiso w₂ 1 0 0 (taskSize + 2) haccess (Or.inr ⟨rfl, rfl⟩) (by omega)).2 1

/-- **A counter that overflows.** The pages mapped by the address space have as many references as
mappings and more, and a write through the copy is read through the original. -/
theorem copyMm_leaks : ∃ w T E w₁ w₂ rc, WorldOk w T E ∧ w.mmUsed 0 = true ∧ w.mmUsed 1 = true ∧
    T 1 = .nil ∧ (∀ i < 4096, w.phys.bytes w.zeroPage i = 0) ∧
    (∀ f, (f = w.zeroPage ∨ ∃ i, mappedTo w i = some f) →
      refs (mappedTo w) f + (if f = w.zeroPage then 1 else 0) ≤ (w.phys.u f).toNat) ∧
    copyMm (taskSize + 2) 1 0 w = .ok (0, w₁) ∧
    writeByte (taskSize + 2) 1 0 1 w₁ = .ok (rc, w₂) ∧ byteAt w₂ 0 0 ≠ byteAt w₁ 0 0 := by
  obtain ⟨w, T, E, h⟩ := exists_twoSpaces
  obtain ⟨w₁, w₂, rc, hrun₁, hrun₂, hbefore, hafter⟩ := h.leaked
  have hmapped : mappedTo (recount w (.allOnes 64)) = mappedTo w := rfl
  have hok : (forestOf w T E).Ok (recount w (.allOnes 64)).phys := by
    refine h.ok.1.pages.congr (fun _ _ => rfl) (fun f hf => ?_) fun f hf =>
      ⟨h.ok.1.pages.freeLow f hf, h.ok.1.pages.of_free hf⟩
    have hne : f ≠ 0 := by
      rintro rfl
      have hz : (forestOf w T E).zero = 0 := h.zeroPage
      exact h.ok.1.pages.zero.1 (hz.symm ▸ hf)
    exact Function.update_of_ne hne _ _
  refine ⟨recount w (.allOnes 64), T, E, w₁, w₂, rc, ⟨h.ok.1.areas.of_eq rfl rfl rfl, hok⟩, h.used.1,
    h.used.2, h.nil, ?_, fun f hf => ?_, hrun₁, hrun₂, ?_⟩
  · have hz : (recount w (.allOnes 64)).zeroPage = 0 := h.zeroPage
    rw [hz]
    exact h.blank
  · rw [hmapped] at hf ⊢
    by_cases hfz : f = 0
    · subst hfz
      have hle := h.ok.1.pages.refs_le 0
      rw [← h.ok.1.mappedTo_eq] at hle
      have hu : (recount w (.allOnes 64)).phys.u 0 = BitVec.allOnes 64 := rfl
      rw [hu, BitVec.toNat_allOnes]
      split_ifs <;> omega
    · have hu : (recount w (.allOnes 64)).phys.u f = w.phys.u f := Function.update_of_ne hfz _ _
      rw [hu]
      exact (h.ok.sufficient f hf).1
  · rw [hbefore, hafter]
    decide

end

end Mm

end Kernel64
