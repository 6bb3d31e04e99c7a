import Kernel64.Mm.Faults

/-!
# Private pages

A page that can be written through some address spaces is mapped once, and the counters of the
others say how often they are mapped, or more. Page faults keep this (`Faulted.isPrivate`) and
change nothing that can be read.
-/

namespace Kernel64

namespace Mm

open Paging

section

variable {F : Forest} {S : Set ℕ} {x : Pfn → ℕ} {s s' : Phys} {m q m' q' : ℕ} {f p : Pfn}
  {flags : PteFlags}

/-- The page can be written through its entry. -/
def Forest.Writes (F : Forest) (s : Phys) (m q : ℕ) : Prop :=
  m ∈ F.live ∧ q ∈ F.dom m ∧ (F.pte s m q).present = true ∧ (F.pte s m q).write = true

/-- The byte that is read at an address: a page that is not mapped reads as zeros. -/
noncomputable def Forest.byteAt (F : Forest) (s : Phys) (m addr : ℕ) : UInt8 :=
  match F.frame s (m, addr / 4096) with
  | some f => s.bytes f (addr % 4096)
  | none => 0

/-- The same pages with the same bytes read the same. -/
theorem Forest.byteAt_congr {F' : Forest} {addr : ℕ}
    (hframe : F'.frame s' (m', addr / 4096) = F.frame s (m, addr / 4096))
    (hbytes : ∀ f, F.frame s (m, addr / 4096) = some f → s'.bytes f = s.bytes f) :
    F'.byteAt s' m' addr = F.byteAt s m addr := by
  rw [Forest.byteAt, Forest.byteAt, hframe]
  cases hf : F.frame s (m, addr / 4096) with
  | none => rfl
  | some f => exact congrFun (hbytes f hf) _

/-- Keeping the mappings keeps what is read. -/
theorem Forest.Keeps.byteAt {F' : Forest} (h : F.Keeps s F' s') (hok : F.Ok s) (m addr : ℕ) :
    F'.byteAt s' m addr = F.byteAt s m addr := by
  refine Forest.byteAt_congr (congrFun h.frame _) fun f hf => ?_
  obtain ⟨htable, hfree, -⟩ := hok.busy _ f hf
  exact (h.kept f hfree htable).2.2.2.2

/-- **Private pages.** What the address spaces of `S` can write is mapped once. -/
structure Forest.Private (F : Forest) (S : Set ℕ) (x : Pfn → ℕ) (s : Phys) : Prop where
  ok : F.Ok s
  own : ∀ m ∈ S, ∀ q, F.Writes s m q →
    refs (F.frame s) (F.pte s m q).pfn = 1 ∧ (F.pte s m q).pfn ≠ F.zero
  counted : ∀ f, F.Held s f → (∀ m ∈ S, ∀ q, F.Writes s m q → (F.pte s m q).pfn ≠ f) →
    (s.u f).toNat = F.total s x f
  zero : ∀ i < 4096, s.bytes F.zero i = 0
  bound : x F.zero < 2 ^ 63

theorem Forest.Writes.frame (h : F.Writes s m q) : F.frame s (m, q) = some (F.pte s m q).pfn :=
  Forest.frame_eq_some.2 ⟨h.1, h.2.1, h.2.2.1, rfl⟩

/-- No other page is mapped to what can be written. -/
theorem Forest.Private.alone (h : F.Private S x s) (hm : m ∈ S) (hw : F.Writes s m q)
    (hf : F.frame s (m', q') = some (F.pte s m q).pfn) : m' = m ∧ q' = q :=
  Prod.mk.inj (eq_of_refs_eq_one (h.own m hm q hw).1 hf hw.frame)

/-! ### Mapping one page anew -/

/-- The page `q` of `m` is mapped to `p`. -/
structure Forest.Remaps (F : Forest) (s : Phys) (m q : ℕ) (p : Pfn) (flags : PteFlags) (s' : Phys) :
    Prop where
  ok : F.Ok s'
  frame : F.frame s' = Function.update (F.frame s) (m, q) (some p)
  self : F.pte s' m q = pageEntry p flags
  other : ∀ m' ∈ F.live, ∀ q' ∈ F.dom m', ¬(m' = m ∧ q' = q) → F.pte s' m' q' = F.pte s m' q'

theorem Forest.Ok.remaps (h : F.Ok s) (hm : m ∈ F.live) (hq : q ∈ F.dom m) (hp : F.Mappable s p)
    (flags : PteFlags) : F.Remaps s m q p flags (F.mapped s m q p flags) := by
  have hpte : ∀ m' ∈ F.live, ∀ q', F.LiveAt m' 0 (q' / 512) →
      F.pte (F.mapped s m q p flags) m' q' =
        if m' = m ∧ q' = q then pageEntry p flags else F.pte s m' q' := fun m' hm' q' hl =>
    (h.get hp).pte_remapped hm hq hm' hl
  refine ⟨h.mapped hm hq hp, h.frame_mapped hm hq hp, ?_, fun m' hm' q' hq' hne => ?_⟩
  · rw [hpte m hm q (Forest.liveAt_of_mem hq), if_pos ⟨rfl, rfl⟩]
  · rw [hpte m' hm' q' (Forest.liveAt_of_mem hq'), if_neg hne]

/-- Putting a page afterwards changes no entry. -/
theorem Forest.Remaps.put (h : F.Remaps s m q p flags s') (hok : F.Ok (afterPut s' f)) :
    F.Remaps s m q p flags (afterPut s' f) :=
  ⟨hok, (F.frame_afterPut s' f).trans h.frame, h.self, h.other⟩

/-- Taking a free page before changes no entry. -/
theorem Forest.Remaps.after {s₁ : Phys} (h : F.Remaps s₁ m q p flags s') (hkeeps : F.Keeps s F s₁) :
    F.Remaps s m q p flags s' := by
  refine ⟨h.ok, ?_, h.self, fun m' hm' q' hq' hne => ?_⟩
  · rw [h.frame, hkeeps.frame]
  · rw [h.other m' hm' q' hq' hne]
    exact hkeeps.pte m' hm' q' hq' hq'

/-- Nothing that is read changes, when the new page holds what was read before. -/
theorem Forest.Remaps.byteAt (h : F.Remaps s m q p flags s')
    (hold : ∀ i g, F.frame s i = some g → s'.bytes g = s.bytes g)
    (hnew : ∀ i < 4096, s'.bytes p i =
      match F.frame s (m, q) with
      | some f => s.bytes f i
      | none => 0) (m' addr : ℕ) : F.byteAt s' m' addr = F.byteAt s m' addr := by
  by_cases heq : (m', addr / 4096) = (m, q)
  · rw [Forest.byteAt, Forest.byteAt, h.frame, heq, Function.update_self]
    exact hnew _ (Nat.mod_lt _ (by norm_num))
  · refine Forest.byteAt_congr ?_ (hold _)
    rw [h.frame, Function.update_of_ne heq]

theorem Forest.Remaps.writes_of (h : F.Remaps s m q p flags s') (hne : ¬(m' = m ∧ q' = q)) :
    F.Writes s' m' q' ↔ F.Writes s m' q' := by
  constructor
  · rintro ⟨h₁, h₂, h₃⟩
    rw [h.other m' h₁ q' h₂ hne] at h₃
    exact ⟨h₁, h₂, h₃⟩
  · rintro ⟨h₁, h₂, h₃⟩
    rw [← h.other m' h₁ q' h₂ hne] at h₃
    exact ⟨h₁, h₂, h₃⟩

/-- What could be written before is still mapped once. -/
theorem Forest.Remaps.refs_of (h : F.Remaps s m q p flags s') (hok : F.Ok s) {g : Pfn} (hgp : g ≠ p)
    (hg : F.frame s (m, q) ≠ some g) : refs (F.frame s') g = refs (F.frame s) g := by
  have := refs_update hok.sparse (m, q) (some p) g
  rw [← h.frame, if_neg hg, if_neg fun hc => hgp (Option.some_inj.1 hc).symm] at this
  exact this

/-- The new page is mapped once more, if it was not mapped there. -/
theorem Forest.Remaps.refs_self (h : F.Remaps s m q p flags s') (hok : F.Ok s)
    (hp : F.frame s (m, q) ≠ some p) : refs (F.frame s') p = refs (F.frame s) p + 1 := by
  have := refs_update hok.sparse (m, q) (some p) p
  rwa [← h.frame, if_neg hp, if_pos rfl] at this

/-- The pages of `S` stay private, when the new page is or cannot be written. -/
theorem Forest.Private.own_remaps (h : F.Private S x s) (hr : F.Remaps s m q p flags s')
    (hnw : ¬F.Writes s m q)
    (hp : ∀ m' ∈ S, ∀ q', F.Writes s m' q' → (F.pte s m' q').pfn ≠ p)
    (hown : flags.write = true → refs (F.frame s') p = 1 ∧ p ≠ F.zero) (m' : ℕ) (hm' : m' ∈ S)
    (q' : ℕ) (hw : F.Writes s' m' q') :
    refs (F.frame s') (F.pte s' m' q').pfn = 1 ∧ (F.pte s' m' q').pfn ≠ F.zero := by
  by_cases heq : m' = m ∧ q' = q
  · obtain ⟨rfl, rfl⟩ := heq
    have hwrite := hw.2.2.2
    rw [hr.self] at hwrite ⊢
    exact hown hwrite
  · have hold : F.Writes s m' q' := (hr.writes_of heq).1 hw
    rw [hr.other m' hw.1 q' hw.2.1 heq]
    obtain ⟨hone, hz⟩ := h.own m' hm' q' hold
    refine ⟨?_, hz⟩
    rw [hr.refs_of h.ok (hp m' hm' q' hold), hone]
    intro hc
    obtain ⟨rfl, rfl⟩ := h.alone hm' hold hc
    exact hnw hold

/-- A page without writers had none before. -/
theorem Forest.Remaps.no_writers (hr : F.Remaps s m q p flags s') (hnw : ¬F.Writes s m q) {g : Pfn}
    (hn : ∀ m' ∈ S, ∀ q', F.Writes s' m' q' → (F.pte s' m' q').pfn ≠ g) (m' : ℕ) (hm' : m' ∈ S)
    (q' : ℕ) (hw : F.Writes s m' q') : (F.pte s m' q').pfn ≠ g := by
  have hne : ¬(m' = m ∧ q' = q) := by
    rintro ⟨rfl, rfl⟩
    exact hnw hw
  have := hn m' hm' q' ((hr.writes_of hne).2 hw)
  rwa [hr.other m' hw.1 q' hw.2.1 hne] at this

/-- The page just mapped can be written. -/
theorem Forest.Remaps.writes_self (hr : F.Remaps s m q p flags s') (hm : m ∈ F.live)
    (hq : q ∈ F.dom m) (hflags : flags.write = true) : F.Writes s' m q := by
  refine ⟨hm, hq, ?_, ?_⟩
  · rw [hr.self]
    rfl
  · rw [hr.self]
    exact hflags

/-- What a page fault keeps, and what it does to the entry. -/
structure Forest.Faultless (F : Forest) (S : Set ℕ) (x : Pfn → ℕ) (m q : ℕ) (access : Access)
    (rc : ℤ) (s s' : Phys) : Prop where
  isPrivate : F.Private S x s'
  byteAt : ∀ m' addr, F.byteAt s' m' addr = F.byteAt s m' addr
  read : access = .read → F.frame s' (m, q) ≠ none
  write : access = .write → rc = 0 → F.Writes s' m q

section Outcomes

variable (h : F.Private S x s) (hS : m ∈ S) (hm : m ∈ F.live) (hq : q ∈ F.dom m)
  (hnw : ¬F.Writes s m q)

include h hm hq hnw in
/-- A read fault maps the page of zeros. -/
theorem Forest.Private.read (hnone : F.frame s (m, q) = none) :
    F.Faultless S x m q .read 0 s (F.mapped s m q F.zero readFlags) := by
  have hr := h.ok.remaps hm hq h.ok.zero readFlags
  have hzero : ∀ m' ∈ S, ∀ q', F.Writes s m' q' → (F.pte s m' q').pfn ≠ F.zero :=
    fun m' hm' q' hw => (h.own m' hm' q' hw).2
  have hcount := h.counted F.zero (Or.inr rfl) hzero
  refine ⟨⟨hr.ok, h.own_remaps hr hnw hzero nofun, fun g hg hn => ?_, h.zero, h.bound⟩,
    hr.byteAt (fun _ _ _ => rfl) fun i hi => ?_, fun _ => ?_, nofun⟩
  · by_cases hgz : g = F.zero
    · subst hgz
      have hlt : F.total s x F.zero + 1 < 2 ^ 64 := by
        have hle := h.ok.refs_le F.zero
        have hb := h.bound
        rw [Forest.total, if_pos rfl]
        omega
      have hself : (F.mapped s m q F.zero readFlags).u F.zero = s.u F.zero + 1#64 :=
        Function.update_self _ _ _
      have hrefs := hr.refs_self h.ok (by rw [hnone]; exact (Option.some_ne_none _).symm)
      rw [hself, toNat_add_one hcount hlt, Forest.total, Forest.total, hrefs]
      omega
    · have hrefs := hr.refs_of h.ok hgz (by rw [hnone]; exact (Option.some_ne_none _).symm)
      have hu : (F.mapped s m q F.zero readFlags).u g = s.u g := Function.update_of_ne hgz _ _
      have hold : F.Held s g := by rwa [Forest.Held, hrefs] at hg
      rw [hu, h.counted g hold (hr.no_writers hnw hn), Forest.total, Forest.total, hrefs]
  · rw [hnone]
    exact h.zero i hi
  · rw [hr.frame, Function.update_self]
    exact Option.some_ne_none _

include h hnw in
/-- A page that is mapped but cannot be written has no writer, and is counted. -/
theorem Forest.Private.counted_of_mapped (hf : F.frame s (m, q) = some f) :
    (∀ m' ∈ S, ∀ q', F.Writes s m' q' → (F.pte s m' q').pfn ≠ f) ∧
      (s.u f).toNat = F.total s x f := by
  have hno : ∀ m' ∈ S, ∀ q', F.Writes s m' q' → (F.pte s m' q').pfn ≠ f := by
    rintro m' hm' q' hw rfl
    obtain ⟨rfl, rfl⟩ := h.alone hm' hw hf
    exact hnw hw
  exact ⟨hno, h.counted f (Or.inl ((refs_pos_iff h.ok.sparse).2 ⟨_, hf⟩)) hno⟩

include h hm hq hnw in
/-- A page that nobody else uses is made writable. -/
theorem Forest.Private.reuse (hf : F.frame s (m, q) = some f) (hu : s.u f = 1#64) :
    F.Faultless S x m q .write 0 s (F.reused s m q f) := by
  obtain ⟨hok, hframe, hu', -⟩ := h.ok.reused hm hq hf hu
  have hr : F.Remaps s m q f writeFlags (F.reused s m q f) :=
    (h.ok.remaps hm hq (h.ok.busy _ _ hf) writeFlags).put hok
  obtain ⟨hno, hcount⟩ := h.counted_of_mapped hnw hf
  have hpos : 0 < refs (F.frame s) f := (refs_pos_iff h.ok.sparse).2 ⟨_, hf⟩
  have hone : refs (F.frame s) f = 1 ∧ f ≠ F.zero := by
    have hnat : (s.u f).toNat = 1 := congrArg BitVec.toNat hu
    rw [hnat, Forest.total] at hcount
    split_ifs at hcount with hz
    · omega
    · exact ⟨by omega, hz⟩
  have hself := hr.writes_self hm hq rfl
  refine ⟨⟨hok, h.own_remaps hr hnw hno fun _ => by rwa [hframe], fun g hg hn => ?_, h.zero,
    h.bound⟩, hr.byteAt (fun _ _ _ => rfl) fun i _ => ?_, (by simp), fun _ _ => hself⟩
  · rw [Forest.held_congr hframe] at hg
    rw [hu', Forest.total_congr hframe]
    exact h.counted g hg (hr.no_writers hnw hn)
  · rw [hf]
    rfl

include h hS hm hq hnw in
/-- A page that was free is mapped, with what was read before. -/
theorem Forest.Private.newPage (hp : s.free p = true) (hr : F.Remaps s m q p writeFlags s')
    (hbytes : ∀ g, g ≠ p → s'.bytes g = s.bytes g)
    (hnew : ∀ i < 4096, s'.bytes p i =
      match F.frame s (m, q) with
      | some f => s.bytes f i
      | none => 0)
    (hcount : ∀ g, g ≠ p → (s.u g).toNat = F.total s x g → (s'.u g).toNat = F.total s' x g) :
    F.Faultless S x m q .write 0 s s' := by
  obtain ⟨-, hz, hnone⟩ := h.ok.of_free hp
  have hbusy : ∀ i g, F.frame s i = some g → g ≠ p := fun i g hg =>
    ne_of_free (h.ok.busy i g hg) hp
  have hno : ∀ m' ∈ S, ∀ q', F.Writes s m' q' → (F.pte s m' q').pfn ≠ p := fun m' _ q' hw =>
    hbusy _ _ hw.frame
  have hself := hr.refs_self h.ok fun hc => hbusy _ _ hc rfl
  have hw := hr.writes_self hm hq rfl
  refine ⟨⟨hr.ok, h.own_remaps hr hnw hno fun _ => ⟨by omega, hz⟩, fun g hg hn => ?_, ?_, h.bound⟩,
    hr.byteAt (fun i g hg => hbytes g (hbusy i g hg)) hnew, nofun, fun _ _ => hw⟩
  · have hgp : g ≠ p := by
      rintro rfl
      refine hn m hS q hw ?_
      rw [hr.self]
      rfl
    have hold : F.Held s g := by
      refine hg.imp_left fun hpos => ?_
      have := refs_update h.ok.sparse (m, q) (some p) g
      rw [← hr.frame, if_neg fun hc => hgp (Option.some_inj.1 hc).symm] at this
      omega
    exact hcount g hgp (h.counted g hold (hr.no_writers hnw hn))
  · rw [hbytes F.zero (Ne.symm hz)]
    exact h.zero

include h hS hm hq hnw in
/-- A page that others may use is copied. -/
theorem Forest.Private.copy (hf : F.frame s (m, q) = some f) (hu : s.u f ≠ 1#64)
    (hp : s.free p = true) (word : BitVec 64) :
    F.Faultless S x m q .write 0 s (F.replaced s m q f p word) := by
  obtain ⟨hok, -, -⟩ := h.ok.replaced hm hq hf hu hp word
  have hkeeps : F.Keeps s F (copied s f p word) := h.ok.keeps_take hp copied_free elsewhere_copied
  have hnew : F.Mappable (copied s f p word) p := h.ok.mappable_take hp copied_free
  refine h.newPage hS hm hq hnw hp (((hkeeps.ok.remaps hm hq hnew writeFlags).after hkeeps).put hok)
    (fun g hg => Function.update_of_ne hg _ _) (fun i _ => ?_)
    fun g hgp => h.ok.counted_replaced hm hq hf hu hp hgp
  have hself : (F.replaced s m q f p word).bytes p = s.bytes f := Function.update_self _ _ _
  rw [hf, hself]

include h hS hm hq hnw in
/-- A new page is mapped where nothing was. -/
theorem Forest.Private.fresh (hf : F.frame s (m, q) = none) (hp : s.free p = true) :
    F.Faultless S x m q .write 0 s (F.mapped (allocated s p) m q p writeFlags) := by
  have hkeeps : F.Keeps s F (allocated s p) := h.ok.keeps_take hp allocated_free elsewhere_allocated
  have hnew : F.Mappable (allocated s p) p := h.ok.mappable_take hp allocated_free
  have hr : F.Remaps s m q p writeFlags (F.mapped (allocated s p) m q p writeFlags) :=
    (hkeeps.ok.remaps hm hq hnew writeFlags).after hkeeps
  refine h.newPage hS hm hq hnw hp hr (fun g hg => Function.update_of_ne hg _ _) (fun i _ => ?_)
    fun g hgp hg => ?_
  · have hself : (F.mapped (allocated s p) m q p writeFlags).bytes p = fun _ => 0 :=
      Function.update_self _ _ _
    rw [hf, hself]
  · have hu : (F.mapped (allocated s p) m q p writeFlags).u g = s.u g :=
      (Function.update_of_ne hgp _ _).trans (Function.update_of_ne hgp _ _)
    rw [hu, hg, Forest.total, Forest.total,
      hr.refs_of h.ok hgp (by rw [hf]; exact (Option.some_ne_none _).symm)]

include h in
/-- A fault that changes nothing but what the allocator will return. -/
theorem Forest.Private.failed {access : Access} {rc : ℤ} (hrc : rc ≠ 0)
    (hwrite : access = .write) (hok : F.Ok s') (htable : s'.table = s.table) (hu : s'.u = s.u)
    (hbytes : s'.bytes = s.bytes) : F.Faultless S x m q access rc s s' := by
  have hframe : F.frame s' = F.frame s := Forest.Ok.frame_congr fun f _ => by rw [htable]
  have hpte : ∀ m' q', F.pte s' m' q' = F.pte s m' q' := fun m' q' => by
    rw [Forest.pte, Forest.pte, htable]
  have hwrites : ∀ m' q', F.Writes s' m' q' ↔ F.Writes s m' q' := fun m' q' => by
    rw [Forest.Writes, Forest.Writes, hpte]
  refine ⟨⟨hok, fun m' hm' q' hw => ?_, fun g hg hn => ?_, ?_, h.bound⟩, fun m' addr => ?_,
    fun hc => (by cases hwrite.symm.trans hc), fun _ hc => absurd hc hrc⟩
  · rw [hframe, hpte]
    exact h.own m' hm' q' ((hwrites m' q').1 hw)
  · rw [hu, Forest.total_congr hframe]
    refine h.counted g ((Forest.held_congr hframe g).1 hg) fun m' hm' q' hw => ?_
    rw [← hpte]
    exact hn m' hm' q' ((hwrites m' q').2 hw)
  · rw [hbytes]
    exact h.zero
  · rw [Forest.byteAt, Forest.byteAt, hframe, hbytes]

include h hS hm hq hnw in
/-- **A page fault** changes nothing that is read, and keeps the pages private. -/
theorem Faulted.faultless {writable : Prop} {access : Access} {rc : ℤ}
    (hfault : Faulted F s m q writable access rc s')
    (hread : access = .read → F.frame s (m, q) = none) : F.Faultless S x m q access rc s s' := by
  cases hfault with
  | denied => exact h.failed (by decide) rfl h.ok rfl rfl rfl
  | noMemory => exact h.failed (by decide) rfl h.ok.keeps_refused.ok rfl rfl rfl
  | read => exact h.read hm hq hnw (hread rfl)
  | reuse _ hf hu => exact h.reuse hm hq hnw hf hu
  | copy _ hf hu _ hp => exact h.copy hS hm hq hnw hf hu hp _
  | fresh _ hf _ hp => exact h.fresh hS hm hq hnw hf hp

/-- The state after a byte of a page has been stored. -/
def wrote (s : Phys) (f : Pfn) (i : ℕ) (b : UInt8) : Phys :=
  { s with bytes := Function.update s.bytes f (Function.update (s.bytes f) i b) }

include h hS in
/-- Writing through an entry changes what is read at its own address only. -/
theorem Forest.Private.store {i : ℕ} (hw : F.Writes s m q) (hi : i < 4096) (b : UInt8) :
    F.Private S x (wrote s (F.pte s m q).pfn i b) ∧ ∀ m' addr,
      F.byteAt (wrote s (F.pte s m q).pfn i b) m' addr =
        if m' = m ∧ addr = 4096 * q + i then b else F.byteAt s m' addr := by
  set f := (F.pte s m q).pfn with hf
  obtain ⟨-, hz⟩ := h.own m hS q hw
  have hother : ∀ g, g ≠ f → (wrote s f i b).bytes g = s.bytes g := fun g hg =>
    Function.update_of_ne hg _ _
  have hself : (wrote s f i b).bytes f = Function.update (s.bytes f) i b :=
    Function.update_self _ _ _
  refine ⟨⟨h.ok.congr (fun _ _ => rfl) (fun _ _ => rfl) fun g hg =>
    ⟨h.ok.freeLow g hg, h.ok.of_free hg⟩, h.own, h.counted, ?_, h.bound⟩, fun m' addr => ?_⟩
  · rw [hother F.zero (Ne.symm hz)]
    exact h.zero
  · have hframe : F.frame (wrote s f i b) = F.frame s := Forest.Ok.frame_congr fun _ _ => rfl
    rw [Forest.byteAt, Forest.byteAt, hframe]
    split_ifs with heq
    · obtain ⟨rfl, rfl⟩ := heq
      have hdiv : (4096 * q + i) / 4096 = q := by omega
      have hmod : (4096 * q + i) % 4096 = i := by omega
      have hown : F.frame s (m', q) = some f := hw.frame
      rw [hdiv, hmod, hown]
      simp only [hself, Function.update_self]
    · cases hg : F.frame s (m', addr / 4096) with
      | none => rfl
      | some g =>
        by_cases hgf : g = f
        · subst hgf
          obtain ⟨rfl, hq'⟩ := h.alone hS hw hg
          have hne : addr % 4096 ≠ i := fun hc => heq ⟨rfl, by omega⟩
          simp only [hself, Function.update_of_ne hne]
        · simp only [hother g hgf]

end Outcomes

end

end Mm

end Kernel64
