import Kernel64.Exec.Load
import Kernel64.Mm.Granted
import Kernel64.Mm.Isolation
import Kernel64.Ramfs.Runs

/-!
# One segment of a program

`map_elf_phdr` fills the pages of a segment one after the other, with bytes of the file and zeros around them
(`segmentByte`), and maps each where nothing was mapped.
-/

namespace Kernel64

namespace Exec

open Paging Mm Ramfs Rb ColorTree

/-- The byte of a segment at an address: it comes from the file, or is zero. -/
def segmentByte (w : Writes) (phdr : ElfPhdr) (addr : ℕ) : UInt8 :=
  if phdr.pVaddr ≤ addr ∧ addr < phdr.pVaddr + phdr.pFilesz then lastWritten w (phdr.pOffset + (addr - phdr.pVaddr))
  else 0

/-- The pages from `a` to `b` of an address space hold what `content` says, and may be written as `write` says. All
other pages are as they were. -/
structure Filled (F : Forest) (m a b : ℕ) (content : ℕ → UInt8) (write : Bool) (s₀ s : Phys) : Prop where
  ok : F.Ok s
  byte : ∀ m' addr, F.byteAt s m' addr =
    if m' = m ∧ a ≤ addr / 4096 ∧ addr / 4096 < b then content addr else F.byteAt s₀ m' addr
  inside : ∀ q, a ≤ q → q < b → q ∈ F.dom m ∧ (F.pte s m q).write = write
  outside : ∀ q ∈ F.dom m, ¬(a ≤ q ∧ q < b) → F.pte s m q = F.pte s₀ m q

/-! ### Filling a page -/

section

variable {F : Forest} {s₀ s s₁ : Phys} {m a q : ℕ} {p : Pfn} {content : ℕ → UInt8} {flags : PteFlags}

theorem filled_self (h : F.Ok s) (m a : ℕ) (content : ℕ → UInt8) (write : Bool) :
    Filled F m a a content write s s := by
  refine ⟨h, fun m' addr => ?_, fun q h₁ h₂ => absurd h₁ (by omega), fun q _ _ => rfl⟩
  rw [if_neg (by omega)]

/-- One more page. -/
theorem Filled.next (h : Filled F m a q content flags.write s₀ s) (hm : m ∈ F.live) (hq : q ∈ F.dom m) (haq : a ≤ q)
    (hp : s.free p = true) (hbusy : s₁.free p = false) (hother : Elsewhere p s s₁)
    (hbytes : ∀ i < 4096, s₁.bytes p i = content (4096 * q + i)) :
    Filled F m a (q + 1) content flags.write s₀ (F.mapped s₁ m q p flags) := by
  have hkeeps : F.Keeps s F s₁ := h.ok.keeps_take hp hbusy hother
  have hr : F.Remaps s m q p flags (F.mapped s₁ m q p flags) :=
    (hkeeps.ok.remaps hm hq (h.ok.mappable_take hp hbusy) flags).after hkeeps
  refine ⟨hr.ok, fun m' addr => ?_, fun q' h₁ h₂ => ?_, fun q' hq' hn => ?_⟩
  · by_cases heq : (m', addr / 4096) = (m, q)
    · obtain ⟨rfl, hdiv⟩ := Prod.mk.inj heq
      rw [Forest.byteAt, hr.frame, heq, Function.update_self, if_pos ⟨rfl, by omega, by omega⟩]
      refine (hbytes _ (Nat.mod_lt _ (by norm_num))).trans (congrArg content ?_)
      omega
    · -- a page that is mapped already is not the new one
      have hsame : F.byteAt (F.mapped s₁ m q p flags) m' addr = F.byteAt s m' addr := by
        refine Forest.byteAt_congr ?_ fun f hf => (hother f (ne_of_free (h.ok.busy _ _ hf) hp)).2.2.2
        rw [hr.frame, Function.update_of_ne heq]
      have hnot : ¬(m' = m ∧ addr / 4096 = q) := fun hc => heq (Prod.ext hc.1 hc.2)
      refine hsame.trans ((h.byte m' addr).trans ?_)
      by_cases hin : m' = m ∧ a ≤ addr / 4096 ∧ addr / 4096 < q
      · rw [if_pos hin, if_pos ⟨hin.1, hin.2.1, by omega⟩]
      · rw [if_neg hin, if_neg (by omega)]
  · by_cases heq : q' = q
    · rw [heq, hr.self]
      exact ⟨hq, rfl⟩
    · obtain ⟨hdom, hwrite⟩ := h.inside q' h₁ (by omega)
      rw [hr.other m hm q' hdom (by omega)]
      exact ⟨hdom, hwrite⟩
  · rw [hr.other m hm q' hq' (by omega)]
    exact h.outside q' hq' (by omega)

end

/-! ### Rules -/

section

variable {α : Type} {s : LoadState} {Q : α → LoadState → Prop}

theorem ensures_onWorld {c : MmM α} :
    Ensures (onWorld c) s Q ↔ Ensures c s.world fun a w => Q a { s with world := w } := by
  unfold Ensures onWorld
  cases hc : c s.world with
  | error e => simp
  | ok r =>
    obtain ⟨a, w⟩ := r
    simp

theorem ensures_onFiles {c : FilesM α} :
    Ensures (onFiles c) s Q ↔ Ensures c s.files fun a f => Q a { s with files := f } := by
  unfold Ensures onFiles
  cases hc : c s.files with
  | error e => simp
  | ok r =>
    obtain ⟨a, f⟩ := r
    simp

end

/-- The state with the handle at another offset. -/
def LoadState.atOffset (s : LoadState) (h : ℕ) (x : ℤ) : LoadState :=
  { s with files := { s.files with file := Function.update s.files.file h { s.files.file h with offset := x } } }

section

variable {s : LoadState} {R : ℕ → ColorTree Ptr} {W : ℕ → Writes} {fuel h size : ℕ} {x y : ℤ}

@[simp]
theorem atOffset_atOffset : (s.atOffset h x).atOffset h y = s.atOffset h y := by
  simp [LoadState.atOffset]

@[simp]
theorem atOffset_node : ((s.atOffset h x).files.file h).node = (s.files.file h).node := by
  simp [LoadState.atOffset]

@[simp]
theorem atOffset_offset : ((s.atOffset h x).files.file h).offset = x := by
  simp [LoadState.atOffset]

@[simp]
theorem atOffset_world : (s.atOffset h x).world = s.world := rfl

theorem atOffset_self : s.atOffset h (s.files.file h).offset = s := by
  rw [LoadState.atOffset, Function.update_eq_self]

theorem filesOk_atOffset (hf : FilesOk s.files R W) (h₀ : 0 ≤ x) (h₁ : x ≤ maxOffset) :
    FilesOk (s.atOffset h x).files R W := hf.setFile h₀ h₁

/-- **`read_buf`** inside of a file stores the bytes at the offset of the handle. -/
theorem ensures_readBufFrom (hfuel : maxPages < fuel) : ∀ (n remain : ℕ) {s : LoadState}, FilesOk s.files R W →
    remain < n → (s.files.file h).offset + remain ≤ maxEnd (W (s.files.file h).node) →
    Ensures (readBufFrom fuel h n remain) s fun r s' =>
      r = (0, Buf.slice (lastWritten (W (s.files.file h).node)) (s.files.file h).offset.toNat remain) ∧
      s' = s.atOffset h ((s.files.file h).offset + remain)
  | 0, _, _, _, hlt, _ => absurd hlt (Nat.not_lt_zero _)
  | n + 1, remain, s, hf, hlt, hle => by
    obtain ⟨h₀, -⟩ := hf.offset h
    have hmax := hf.size_le (s.files.file h).node
    have hsize := hf.size (s.files.file h).node
    rw [readBufFrom]
    by_cases hzero : remain = 0
    · subst hzero
      rw [if_pos rfl, ensures_pure, Nat.cast_zero, add_zero, atOffset_self]
      exact ⟨rfl, rfl⟩
    rw [if_neg hzero, ensures_bind, ensures_onFiles]
    refine (hf.ensures_vfsRead hfuel remain).mono ?_
    rintro ⟨_, _⟩ _ ⟨k, hk, rfl, rfl, hend, -, rfl⟩
    have hpos : 0 < k := by
      refine Nat.pos_of_ne_zero fun hk0 => ?_
      rcases hend.1 hk0 with hc | hc <;> omega
    simp only
    rw [if_neg (by omega), if_neg (by omega), Int.toNat_natCast, ensures_bind]
    -- the turns after this one read the rest
    have hs₁ : ({ s with files := { s.files with
        file := Function.update s.files.file h
          { s.files.file h with offset := (s.files.file h).offset + k } } } : LoadState) =
        s.atOffset h ((s.files.file h).offset + k) := rfl
    rw [hs₁]
    have hrest := ensures_readBufFrom hfuel n (remain - k)
      (filesOk_atOffset (h := h) (x := (s.files.file h).offset + k) hf (by omega) (by omega)) (by omega)
      (by rw [atOffset_node, atOffset_offset]; omega)
    simp only [atOffset_node, atOffset_offset, atOffset_atOffset] at hrest
    refine hrest.mono ?_
    rintro _ _ ⟨rfl, rfl⟩
    refine ensures_pure.2 ⟨?_, ?_⟩
    · have hnat : ((s.files.file h).offset + k).toNat = (s.files.file h).offset.toNat + k := by omega
      rw [hnat, ← Buf.slice_append, Nat.add_sub_cancel' hk]
    · rw [show (s.files.file h).offset + k + ((remain - k : ℕ) : ℤ) = (s.files.file h).offset + remain by omega]

theorem ensures_readBuf (hfuel : maxPages < fuel) (hf : FilesOk s.files R W)
    (hle : (s.files.file h).offset + size ≤ maxEnd (W (s.files.file h).node)) :
    Ensures (readBuf fuel h size) s fun r s' =>
      r = (0, Buf.slice (lastWritten (W (s.files.file h).node)) (s.files.file h).offset.toNat size) ∧
      s' = s.atOffset h ((s.files.file h).offset + size) :=
  ensures_readBufFrom hfuel _ _ hf (Nat.lt_succ_self _) hle

/-- `read_buf` into a page, inside of a file. -/
theorem ensures_readIntoPage {p : Pfn} {off : ℕ} (hfuel : maxPages < fuel) (hf : FilesOk s.files R W)
    (hle : (s.files.file h).offset + size ≤ maxEnd (W (s.files.file h).node)) :
    Ensures (readIntoPage fuel h p off size) s fun rc s' => rc = 0 ∧ ∃ s₁,
      s' = ⟨s.world.withPhys s₁, (s.atOffset h ((s.files.file h).offset + size)).files⟩ ∧
      Elsewhere p s.world.phys s₁ ∧
      s₁.bytes p = (s.world.phys.bytes p).store off
        (Buf.slice (lastWritten (W (s.files.file h).node)) (s.files.file h).offset.toNat size) ∧
      s₁.free = s.world.phys.free ∧ s₁.supply = s.world.phys.supply := by
  rw [readIntoPage, ensures_bind]
  refine (ensures_readBuf hfuel hf hle).mono ?_
  rintro _ _ ⟨rfl, rfl⟩
  simp only [ensures_bind, ensures_onWorld, ensures_onPhys, ensures_modify, ensures_pure]
  exact ⟨trivial, _, rfl, fun t ht => ⟨rfl, rfl, rfl, Function.update_of_ne ht _ _⟩, Function.update_self _ _ _, rfl,
    rfl⟩

end

/-! ### The loop -/

/-- How many pages `n` bytes take. -/
def pagesFor (n : ℕ) : ℕ := (n + 4095) / 4096

/-- The next bytes of a segment, from the offset `x` of its file on, belong at `off` in the page `q`. -/
structure NextPage (phdr : ElfPhdr) (q off remain : ℕ) (x : ℤ) : Prop where
  offset : x = (phdr.pOffset + (4096 * q + off - phdr.pVaddr) : ℕ)
  le : phdr.pVaddr ≤ 4096 * q + off
  stop : 4096 * q + off + remain = phdr.pVaddr + phdr.pFilesz
  first : off = 0 ∨ 4096 * q + off = phdr.pVaddr

section

variable {w : World} {T : ℕ → ColorTree Ptr} {E : ℕ → ℕ → ℕ → Pte} {R : ℕ → ColorTree Ptr} {W : ℕ → Writes}
  {f fuel m h a b begin stop : ℕ} {phdr : ElfPhdr} {flags : PteFlags}

/-- What `read_buf` stores in a page is the part of the segment that belongs there. -/
theorem store_segment {v : Writes} {q off remain : ℕ} (hle : phdr.pVaddr ≤ 4096 * q + off)
    (hend : 4096 * q + off + remain = phdr.pVaddr + phdr.pFilesz) (hoff : off = 0 ∨ 4096 * q + off = phdr.pVaddr)
    {i : ℕ} (hi : i < 4096) :
    Buf.store (fun _ => 0) off (Buf.slice (lastWritten v) (phdr.pOffset + (4096 * q + off - phdr.pVaddr))
      (min remain (4096 - off))) i = segmentByte v phdr (4096 * q + i) := by
  rw [segmentByte]
  by_cases hin : off ≤ i ∧ i < off + min remain (4096 - off)
  · obtain ⟨j, rfl⟩ := Nat.exists_eq_add_of_le hin.1
    rw [Buf.store_inside (by rw [Buf.length_slice]; omega), Buf.getElem_slice, if_pos (by omega)]
    congr 1
    omega
  · rw [Buf.store_outside (by rw [Buf.length_slice]; omega), if_neg (by omega)]

/-- **The loop of `map_elf_phdr`** fills one page after the other. -/
theorem ensures_mapPagesFrom (hm : w.mmUsed m = true) (hb : b ≤ userPages)
    (hdom : ∀ q, a ≤ q → q < b → q ∈ pagesOf (w.mm m) (T m)) (hstop : phdr.pVaddr + phdr.pFilesz ≤ 4096 * b)
    (hfile : phdr.pOffset + phdr.pFilesz ≤ maxEnd (W f)) (hfuel : maxPages < fuel) :
    ∀ (n remain q off : ℕ) {s : Phys} {files : Files},
      Filled (forestOf w T E) m a q (segmentByte (W f) phdr) flags.write w.phys s → FilesOk files R W →
      (files.file h).node = f → (remain ≠ 0 → NextPage phdr q off remain (files.file h).offset) → a ≤ q →
      off < 4096 → (remain = 0 → off = 0) → remain < n → s.pages.Grants (pagesFor (off + remain)) →
      Ensures (mapPagesFrom fuel m h begin stop flags n (4096 * q) off remain) ⟨w.withPhys s, files⟩ fun rc s' =>
        rc = 0 ∧ ∃ s₁ files₁, s' = ⟨w.withPhys s₁, files₁⟩ ∧
          Filled (forestOf w T E) m a (q + pagesFor (off + remain)) (segmentByte (W f) phdr) flags.write w.phys s₁ ∧
          FilesOk files₁ R W ∧ (files₁.file h).node = f ∧ s₁.pages = s.pages.after (pagesFor (off + remain)) := by
  intro n
  induction n with
  | zero =>
    intro _ _ _ _ _ _ _ _ _ _ _ _ hlt
    exact absurd hlt (Nat.not_lt_zero _)
  | succ n ih =>
    intro remain q off s files hfilled hf hnode hpage haq hoff hlast hlt hg
    rw [mapPagesFrom]
    by_cases hzero : remain = 0
    · subst hzero
      obtain rfl := hlast rfl
      have hnone : pagesFor (0 + 0) = 0 := rfl
      rw [if_pos rfl, ensures_pure, hnone]
      exact ⟨rfl, s, files, rfl, hfilled, hf, hnode, Supply.after_zero.symm⟩
    obtain ⟨hpos, hle, hend, hfirst⟩ := hpage hzero
    have hqb : q < b := by omega
    have hone : pagesFor (off + remain) = 1 + pagesFor (0 + (remain - min remain (4096 - off))) := by
      unfold pagesFor
      omega
    rw [hone] at hg ⊢
    obtain ⟨hg₁, hg₂⟩ := Supply.grants_add.1 hg
    rw [Supply.after_add hg₁]
    rw [if_neg hzero, ensures_bind, ensures_onWorld, ensures_onPhys]
    refine (ensures_allocPages_granted hg₁).mono ?_
    rintro _ _ ⟨p, word, rfl, hp, rfl, hpages⟩
    simp only
    rw [ensures_bind, ensures_onWorld, ensures_onPhys, clearPage, ensures_modify, ensures_bind]
    have hsize : (files.file h).offset + (min remain (pageSize - off) : ℕ) ≤ maxEnd (W (files.file h).node) := by
      rw [hpos, hnode, pageSize]
      omega
    refine (ensures_readIntoPage hfuel hf hsize).mono ?_
    rintro _ _ ⟨rfl, s₁, rfl, hother, hbytes, hfree, hsupply⟩
    rw [if_neg (not_not.2 rfl), ensures_bind, ensures_onWorld, ensures_onPhys, setU, ensures_modify, ensures_bind,
      ensures_get, ensures_bind, ensures_onWorld, ensures_onPhys]
    -- the page is ready to be mapped
    set F := forestOf w T E with hF
    set s₂ : Phys := { s₁ with u := Function.update s₁.u p 0#64 } with hs₂
    have hother₂ : Elsewhere p s s₂ := fun t ht => by
      obtain ⟨h₁, h₂, h₃, h₄⟩ := hother t ht
      exact ⟨h₁.trans (Function.update_of_ne ht _ _), h₂.trans (Function.update_of_ne ht _ _),
        (Function.update_of_ne ht _ _).trans (h₃.trans (Function.update_of_ne ht _ _)),
        h₄.trans (Function.update_of_ne ht _ _)⟩
    have hbusy₂ : s₂.free p = false := (congrFun hfree p).trans (Function.update_self _ _ _)
    have hbytes₂ : ∀ i < 4096, s₂.bytes p i = segmentByte (W f) phdr (4096 * q + i) := by
      intro i hi
      have hclear : (Function.update s.bytes p fun _ => 0) p = fun _ => 0 := Function.update_self _ _ _
      rw [← store_segment hle hend hfirst hi]
      refine congrFun (hbytes.trans ?_) i
      rw [hnode, hpos, Int.toNat_natCast, pageSize]
      exact congrArg (fun c : Buf => c.store off _) hclear
    have hq : q ∈ F.dom m := hdom q haq hqb
    have hok₂ : F.Ok s₂ := (hfilled.ok.keeps_take hp hbusy₂ hother₂).ok
    have hmap : F.Mappable s₂ p := hfilled.ok.mappable_take hp hbusy₂
    have hfuel₁ : 1 < fuel := by
      unfold maxPages at hfuel
      omega
    refine (hok₂.ensures_mmapPages_one hm hq hmap hfuel₁).mono ?_
    rintro - _ rfl
    have hnext : (4096 * q + pageSize) % 2 ^ 64 = 4096 * (q + 1) := by
      unfold userPages at hb
      rw [pageSize]
      omega
    rw [hnext]
    have hpages₂ : (F.mapped s₂ m q p flags).pages = s.pages.after 1 := by
      have hsame : (F.mapped s₂ m q p flags).pages = (taken s p word).pages := by
        unfold Phys.pages
        rw [show (F.mapped s₂ m q p flags).free = s₁.free from rfl,
          show (F.mapped s₂ m q p flags).supply = s₁.supply from rfl, hfree, hsupply]
        rfl
      exact hsame.trans hpages
    have hx₀ : 0 ≤ (files.file h).offset := (hf.offset h).1
    have hx₁ : (files.file h).offset + (min remain (pageSize - off) : ℕ) ≤ maxOffset :=
      hsize.trans (Int.ofNat_le.2 (hf.size_le _))
    have hnextPage : Filled F m a (q + 1) (segmentByte (W f) phdr) flags.write w.phys (F.mapped s₂ m q p flags) :=
      hfilled.next hm hq haq hp hbusy₂ hother₂ hbytes₂
    have hturn := ih (remain - min remain (pageSize - off)) (q + 1) 0 hnextPage
      (filesOk_atOffset (s := ⟨w, files⟩) (h := h) hf (by omega) hx₁) (by rw [atOffset_node]; exact hnode)
      (fun hmore => ?_) (by omega) (by norm_num) (fun _ => rfl) (by rw [pageSize]; omega) (by rwa [hpages₂])
    swap
    · rw [pageSize] at hmore ⊢
      rw [atOffset_offset]
      exact ⟨by omega, by omega, by omega, Or.inl rfl⟩
    refine hturn.mono ?_
    rintro rc s' ⟨rfl, s₃, files₃, rfl, hfilled₃, hf₃, hnode₃, hpages₃⟩
    refine ⟨rfl, s₃, files₃, rfl, ?_, hf₃, hnode₃, hpages₂ ▸ hpages₃⟩
    rw [← Nat.add_assoc]
    exact hfilled₃

end

end Exec

end Kernel64
