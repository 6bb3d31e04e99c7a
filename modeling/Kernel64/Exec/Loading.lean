import Kernel64.Exec.Segment
import Mathlib.Order.CompletePartialOrder

/-!
# Loading a program

`Loads` says what loading some segments does to an address space. Each segment gets its area, its bytes and its
entries, and nothing else changes, so that segments that do not meet can be loaded one after the other
(`Loads.trans`).
-/

namespace Kernel64

namespace Exec

open Paging Mm Ramfs Rb ColorTree

/-! ### Segments -/

/-- The page where a segment starts. -/
def ElfPhdr.firstPage (phdr : ElfPhdr) : ℕ := phdr.pVaddr / 4096

/-- The page where a segment ends. -/
def ElfPhdr.endPage (phdr : ElfPhdr) : ℕ := pagesFor (phdr.pVaddr + phdr.pMemsz)

/-- The pages of a segment. -/
def ElfPhdr.pages (phdr : ElfPhdr) : Set ℕ := Set.Ico phdr.firstPage phdr.endPage

/-- How many of them hold bytes of the file. -/
def ElfPhdr.filePages (phdr : ElfPhdr) : ℕ :=
  if phdr.pFilesz = 0 then 0 else pagesFor (phdr.pVaddr % 4096 + phdr.pFilesz)

/-- A segment of a file of some size can be loaded. -/
structure ElfPhdr.Ok (phdr : ElfPhdr) (size : ℕ) : Prop where
  filesz : phdr.pFilesz ≤ phdr.pMemsz
  memsz : 0 < phdr.pMemsz
  inFile : phdr.pOffset + phdr.pFilesz ≤ size
  user : phdr.pVaddr + phdr.pMemsz ≤ taskSize

/-- **A segment is loaded**: it has its area, its bytes are those of the file and then zeros, and what is mapped can be
written when the segment can. -/
structure Loaded (v : Writes) (m : ℕ) (phdr : ElfPhdr) (w : World) (t : ColorTree Ptr) : Prop where
  area : ∃ p ∈ t.inorder, ((w.mm m).area p).begin = 4096 * phdr.firstPage ∧
    ((w.mm m).area p).stop = 4096 * phdr.endPage ∧ (((w.mm m).area p).writable ↔ phdr.Writable)
  file : ∀ i < phdr.pFilesz, byteAt w m (phdr.pVaddr + i) = lastWritten v (phdr.pOffset + i)
  zero : ∀ i, phdr.pFilesz ≤ i → i < phdr.pMemsz → byteAt w m (phdr.pVaddr + i) = 0
  write : ∀ q ∈ phdr.pages, ∀ e, userPte w m q = some e → e.present = true → (e.write = true ↔ phdr.Writable)

/-- Some segments have been loaded, and nothing else has changed. -/
structure Loads (v : Writes) (m : ℕ) (segments : List ElfPhdr) (w : World) (T : ℕ → ColorTree Ptr) (w' : World)
    (T' : ℕ → ColorTree Ptr) : Prop where
  ok : ∃ E', WorldOk w' T' E'
  mmUsed : w'.mmUsed = w.mmUsed
  pages : ∀ q, q ∈ pagesOf (w'.mm m) (T' m) ↔ q ∈ pagesOf (w.mm m) (T m) ∨ ∃ phdr ∈ segments, q ∈ phdr.pages
  areas : ∀ p ∈ (T m).inorder, p ∈ (T' m).inorder ∧ (w'.mm m).area p = (w.mm m).area p
  loaded : ∀ phdr ∈ segments, Loaded v m phdr w' (T' m)
  byte : ∀ m' addr, ¬(m' = m ∧ ∃ phdr ∈ segments, addr / 4096 ∈ phdr.pages) → byteAt w' m' addr = byteAt w m' addr
  pte : ∀ q ∈ pagesOf (w.mm m) (T m), (∀ phdr ∈ segments, q ∉ phdr.pages) → userPte w' m q = userPte w m q

section

variable {v : Writes} {m i : ℕ} {phdr : ElfPhdr} {w w₁ w₂ : World} {T T₁ T₂ : ℕ → ColorTree Ptr}
  {E : ℕ → ℕ → ℕ → Pte} {l₁ l₂ : List ElfPhdr}

theorem ElfPhdr.mem_pages (hi : i < phdr.pMemsz) : (phdr.pVaddr + i) / 4096 ∈ phdr.pages := by
  unfold ElfPhdr.pages ElfPhdr.firstPage ElfPhdr.endPage pagesFor
  rw [Set.mem_Ico]
  omega

theorem loads_nil (h : WorldOk w T E) : Loads v m [] w T w T where
  ok := ⟨E, h⟩
  mmUsed := rfl
  pages := fun q => by simp
  areas := fun _ hp => ⟨hp, rfl⟩
  loaded := fun _ hp => absurd hp List.not_mem_nil
  byte := fun _ _ _ => rfl
  pte := fun _ _ _ => rfl

/-- Loading other segments leaves a segment as it is. -/
theorem Loads.keeps_loaded (h₁ : Loads v m l₁ w T w₁ T₁) (h₂ : Loads v m l₂ w₁ T₁ w₂ T₂) (hp : phdr ∈ l₁)
    (hle : phdr.pFilesz ≤ phdr.pMemsz) (hdisj : ∀ b ∈ l₂, Disjoint phdr.pages b.pages) :
    Loaded v m phdr w₂ (T₂ m) := by
  obtain ⟨⟨p, hpt, hbegin, hstop, hwrite⟩, hfile, hzero, hpte⟩ := h₁.loaded phdr hp
  have hother : ∀ q ∈ phdr.pages, ∀ b ∈ l₂, q ∉ b.pages := fun q hq b hb hc =>
    Set.disjoint_left.1 (hdisj b hb) hq hc
  have hbyte : ∀ i < phdr.pMemsz, byteAt w₂ m (phdr.pVaddr + i) = byteAt w₁ m (phdr.pVaddr + i) := fun i hi =>
    h₂.byte m _ fun ⟨_, b, hb, hc⟩ => hother _ (ElfPhdr.mem_pages hi) b hb hc
  obtain ⟨hpt₂, harea₂⟩ := h₂.areas p hpt
  refine ⟨⟨p, hpt₂, ?_, ?_, ?_⟩, fun i hi => ?_, fun i h₃ h₄ => ?_, fun q hq e he => ?_⟩
  · rw [harea₂, hbegin]
  · rw [harea₂, hstop]
  · rw [harea₂]
    exact hwrite
  · rw [hbyte i (by omega), hfile i hi]
  · rw [hbyte i h₄, hzero i h₃ h₄]
  · rw [h₂.pte q ((h₁.pages q).2 (Or.inr ⟨phdr, hp, hq⟩)) (hother q hq)] at he
    exact hpte q hq e he

/-- **Loading segments one after the other.** -/
theorem Loads.trans (h₁ : Loads v m l₁ w T w₁ T₁) (h₂ : Loads v m l₂ w₁ T₁ w₂ T₂)
    (hle : ∀ a ∈ l₁, a.pFilesz ≤ a.pMemsz) (hdisj : ∀ a ∈ l₁, ∀ b ∈ l₂, Disjoint a.pages b.pages) :
    Loads v m (l₁ ++ l₂) w T w₂ T₂ where
  ok := h₂.ok
  mmUsed := h₂.mmUsed.trans h₁.mmUsed
  pages := fun q => by
    rw [h₂.pages, h₁.pages, or_assoc]
    refine or_congr_right ?_
    simp only [List.mem_append, or_and_right, exists_or]
  areas := fun p hp => by
    obtain ⟨hp₁, harea₁⟩ := h₁.areas p hp
    obtain ⟨hp₂, harea₂⟩ := h₂.areas p hp₁
    exact ⟨hp₂, harea₂.trans harea₁⟩
  loaded := fun phdr hp => by
    rcases List.mem_append.1 hp with hp | hp
    · exact h₁.keeps_loaded h₂ hp (hle phdr hp) (hdisj phdr hp)
    · exact h₂.loaded phdr hp
  byte := fun m' addr hn => by
    rw [h₂.byte m' addr fun ⟨hm, b, hb, hq⟩ => hn ⟨hm, b, List.mem_append_right _ hb, hq⟩]
    exact h₁.byte m' addr fun ⟨hm, b, hb, hq⟩ => hn ⟨hm, b, List.mem_append_left _ hb, hq⟩
  pte := fun q hq hn => by
    rw [h₂.pte q ((h₁.pages q).2 (Or.inl hq)) fun b hb => hn b (List.mem_append_right _ hb)]
    exact h₁.pte q hq fun b hb => hn b (List.mem_append_left _ hb)

end

/-! ### One segment -/

section

variable {w w₁ : World} {T : ℕ → ColorTree Ptr} {E : ℕ → ℕ → ℕ → Pte} {t : ColorTree Ptr} {E' : ℕ → ℕ → Pte}
  {s : Phys} {v : Writes} {m : ℕ} {phdr : ElfPhdr}

theorem segmentByte_file {i : ℕ} (hi : i < phdr.pFilesz) :
    segmentByte v phdr (phdr.pVaddr + i) = lastWritten v (phdr.pOffset + i) := by
  rw [segmentByte, if_pos (by omega), Nat.add_sub_cancel_left]

theorem segmentByte_zero {i : ℕ} (hi : phdr.pFilesz ≤ i) : segmentByte v phdr (phdr.pVaddr + i) = 0 := by
  rw [segmentByte, if_neg (by omega)]

/-- The pages with bytes of the file are the first ones. -/
theorem ElfPhdr.filePages_le (hle : phdr.pFilesz ≤ phdr.pMemsz) : phdr.firstPage + phdr.filePages ≤ phdr.endPage := by
  unfold ElfPhdr.firstPage ElfPhdr.filePages ElfPhdr.endPage pagesFor
  split_ifs <;> omega

/-- An area for a segment, and then its bytes. -/
theorem loads_of_filled (h : WorldOk w T E) (hm : w.mmUsed m = true) (hle : phdr.pFilesz ≤ phdr.pMemsz)
    (hclear : ∀ q ∈ phdr.pages, q ∉ pagesOf (w.mm m) (T m))
    (harea : NewArea Aligned m ⟨4096 * phdr.firstPage, 4096 * phdr.endPage, if phdr.Writable then 1 else 0, m⟩ w T w₁ t)
    (hok₁ : WorldOk w₁ (Function.update T m t) (Function.update E m E'))
    (hkeeps : (forestOf w T E).Keeps w.phys
      (forestOf w₁ (Function.update T m t) (Function.update E m E')) w₁.phys)
    (hfilled : Filled (forestOf w₁ (Function.update T m t) (Function.update E m E')) m phdr.firstPage
      (phdr.firstPage + phdr.filePages) (segmentByte v phdr) (decide phdr.Writable) w₁.phys s) :
    Loads v m [phdr] w T (w₁.withPhys s) (Function.update T m t) := by
  set T₁ := Function.update T m t with hT₁
  set F := forestOf w T E with hF
  set F₁ := forestOf w₁ T₁ (Function.update E m E') with hF₁
  have hfirst := ElfPhdr.filePages_le hle
  have ht : T₁ m = t := Function.update_self _ _ _
  have hmm : w₁.mmUsed m = true := by rwa [harea.touches.mmUsed]
  have hdom : F₁.dom m = F.dom m ∪ phdr.pages := (congrArg _ ht).trans (harea.pagesOf rfl rfl)
  have hok : WorldOk (w₁.withPhys s) T₁ (Function.update E m E') := ⟨hok₁.areas.withPhys s, hfilled.ok⟩
  -- what a byte is afterwards, wherever it is
  have hbyte : ∀ m' addr, byteAt (w₁.withPhys s) m' addr =
      if m' = m ∧ phdr.firstPage ≤ addr / 4096 ∧ addr / 4096 < phdr.firstPage + phdr.filePages then
        segmentByte v phdr addr
      else byteAt w m' addr := fun m' addr => by
    rw [hok.byteAt_eq, h.byteAt_eq, ← hkeeps.byteAt h.pages]
    exact hfilled.byte m' addr
  have hpte : ∀ q ∈ F₁.dom m, userPte (w₁.withPhys s) m q = some (F₁.pte s m q) := fun q hq =>
    hok.userPte_of_mem hmm hq
  obtain ⟨p, l₁, l₂, hold, hnew, hp, hother⟩ := harea.linked
  refine ⟨⟨_, hok⟩, harea.touches.mmUsed, fun q => ?_, fun p' hp' => ?_, ?_, fun m' addr hn => ?_, fun q hq hn => ?_⟩
  · have hmem : q ∈ F₁.dom m ↔ q ∈ F.dom m ∪ phdr.pages := by rw [hdom]
    simp only [List.mem_singleton, exists_eq_left]
    exact hmem
  · refine ⟨?_, hother p' hp'⟩
    rw [hold, List.mem_append] at hp'
    rw [ht, hnew, List.mem_append, List.mem_cons]
    tauto
  · simp only [List.mem_singleton, forall_eq]
    refine ⟨⟨p, ?_, ?_, ?_, ?_⟩, fun i hi => ?_, fun i h₁ h₂ => ?_, fun q hq e he hpres => ?_⟩
    · rw [ht, hnew]
      exact List.mem_append_right _ List.mem_cons_self
    · exact congrArg Vma.begin hp
    · exact congrArg Vma.stop hp
    · have hperm : ((w₁.withPhys s).mm m).area p = _ := hp
      rw [hperm, Vma.writable]
      split_ifs with hw <;> simp [hw]
    · rw [hbyte, if_pos, segmentByte_file hi]
      unfold ElfPhdr.firstPage ElfPhdr.filePages pagesFor
      rw [if_neg (by omega)]
      exact ⟨rfl, by omega, by omega⟩
    · rw [hbyte]
      split_ifs with hin
      · exact segmentByte_zero h₁
      · -- there is no page yet
        have hq := ElfPhdr.mem_pages h₂
        rw [h.byteAt_eq, Forest.byteAt, Forest.frame_eq_none fun _ hc => absurd hc (hclear _ hq)]
    · have hq₁ : q ∈ F₁.dom m := hdom ▸ Or.inr hq
      rw [hpte q hq₁, Option.some_inj] at he
      subst he
      by_cases hin : q < phdr.firstPage + phdr.filePages
      · rw [(hfilled.inside q hq.1 hin).2, decide_eq_true_iff]
      · -- there is no page yet
        rw [hfilled.outside q hq₁ fun hc => hin hc.2] at hpres
        have hnone : F₁.frame w₁.phys (m, q) = none := by
          rw [hkeeps.frame]
          exact Forest.frame_eq_none fun _ hc => absurd hc (hclear q hq)
        exact absurd (((Forest.frame_eq_none_iff hmm hq₁).1 hnone).symm.trans hpres) Bool.false_ne_true
  · -- other bytes and other pages
    rw [hbyte, if_neg]
    rintro ⟨rfl, h₁, h₂⟩
    exact hn ⟨rfl, phdr, List.mem_singleton_self _, h₁, by omega⟩
  · have hq₁ : q ∈ F₁.dom m := hdom ▸ Or.inl hq
    rw [hpte q hq₁, h.userPte_of_mem hm hq, hfilled.outside q hq₁, hkeeps.pte m hm q hq hq₁]
    rintro ⟨h₁, h₂⟩
    exact hn phdr (List.mem_singleton_self _) ⟨h₁, by omega⟩

end

section

variable {w : World} {T : ℕ → ColorTree Ptr} {E : ℕ → ℕ → ℕ → Pte} {R : ℕ → ColorTree Ptr} {W : ℕ → Writes}
  {files : Files} {fuel m h : ℕ} {phdr : ElfPhdr}

/-- The tables that a segment needs. -/
noncomputable def ElfPhdr.tables (phdr : ElfPhdr) (D : Set ℕ) : ℕ := newTables (counts D) 3 phdr.firstPage phdr.endPage

/-- **`map_elf_phdr`** loads a segment. It takes a page for each table that is missing, one for each page with bytes of
the file, and one area. -/
theorem ensures_mapElfPhdr (hok : WorldOk w T E) (hm : w.mmUsed m = true) (hf : FilesOk files R W)
    (hload : phdr.pType = ptLoad) (hphdr : phdr.Ok (maxEnd (W (files.file h).node)))
    (hclear : ∀ q ∈ phdr.pages, q ∉ pagesOf (w.mm m) (T m)) (hfuel : taskSize < fuel)
    (hpages : w.phys.pages.Grants (phdr.tables (pagesOf (w.mm m) (T m)) + phdr.filePages)) (hvmas : w.vmas.Grants 1) :
    Ensures (mapElfPhdr fuel m h phdr) ⟨w, files⟩ fun rc s' => rc = 0 ∧ ∃ T',
      Loads (W (files.file h).node) m [phdr] w T s'.world T' ∧ FilesOk s'.files R W ∧
      (s'.files.file h).node = (files.file h).node ∧
      s'.world.phys.pages = w.phys.pages.after (phdr.tables (pagesOf (w.mm m) (T m)) + phdr.filePages) ∧
      s'.world.vmas = w.vmas.after 1 := by
  obtain ⟨hle, hpos, hfile, huser⟩ := hphdr
  -- the pages are granted in the order in which they are asked for: tables first, contents then
  obtain ⟨hg₁, hg₂⟩ := Supply.grants_add.1 hpages
  have hab : phdr.firstPage < phdr.endPage := by
    unfold ElfPhdr.firstPage ElfPhdr.endPage pagesFor
    omega
  have hb : phdr.endPage ≤ userPages := by
    unfold taskSize at huser
    unfold ElfPhdr.endPage pagesFor userPages
    omega
  have hstop : (phdr.pVaddr + phdr.pMemsz) % 2 ^ 64 = phdr.pVaddr + phdr.pMemsz := by
    unfold taskSize at huser
    omega
  have hround : ∀ perm, mmap fuel m phdr.pVaddr (phdr.pVaddr + phdr.pMemsz) perm =
      mmap fuel m (4096 * phdr.firstPage) (4096 * phdr.endPage) perm := fun _ => mmap_aligned huser
  simp only [mapElfPhdr, hstop, hround]
  rw [if_neg (not_not.2 hload), ensures_bind, ensures_onWorld]
  refine ((hok.ensures_mmap hm hab hb hfuel).and_yields (hok.yields_mmap_granted hm hab hb hfuel
    (fun q h₁ h₂ => hclear q ⟨h₁, h₂⟩) hg₁ hvmas)).mono ?_
  rintro rc w₁ ⟨hmapped, rfl, hpages₁, hvmas₁⟩
  obtain ⟨-, t, E', harea, hok₁, hkeeps⟩ | ⟨hrc, -⟩ := hmapped
  swap
  · exact absurd rfl hrc
  set T₁ := Function.update T m t with hT₁
  set E₁ := Function.update E m E' with hE₁
  rw [Supply.after_add hg₁]
  rw [if_neg (not_not.2 rfl)]
  by_cases hzero : phdr.pFilesz = 0
  · -- nothing comes from the file
    have hnone : phdr.filePages = 0 := if_pos hzero
    rw [if_pos hzero, ensures_pure, hnone, Supply.after_zero]
    refine ⟨rfl, T₁, ?_, hf, rfl, hpages₁, hvmas₁⟩
    refine loads_of_filled hok hm hle hclear harea hok₁ hkeeps ?_
    rw [hnone]
    exact filled_self hok₁.pages _ _ _ _
  rw [if_neg hzero, ensures_bind, ensures_onFiles]
  have hx : phdr.pOffset ≤ maxOffset := ((Nat.le_add_right _ _).trans hfile).trans (hf.size_le _)
  have hx₁ : (phdr.pOffset : ℤ) ≤ maxOffset := Int.ofNat_le.2 hx
  rw [toInt_eq (Int.natCast_nonneg _) hx₁]
  refine (hf.ensures_seekSet hx).mono ?_
  rintro _ _ ⟨rfl, rfl⟩
  rw [if_neg (Int.natCast_nonneg _).not_gt]
  -- the loop starts inside of the first page, and stays in the area that was mapped
  have hmm₁ : w₁.mmUsed m = true := by rwa [harea.touches.mmUsed]
  have hcount : phdr.filePages = pagesFor (phdr.pVaddr % 4096 + phdr.pFilesz) := if_neg hzero
  have hdown : alignDown phdr.pVaddr = 4096 * phdr.firstPage := Nat.mul_comm _ _
  have hdom : ∀ q, phdr.firstPage ≤ q → q < phdr.endPage → q ∈ pagesOf (w₁.mm m) (T₁ m) := fun q h₁ h₂ => by
    rw [hT₁, Function.update_self, harea.pagesOf rfl rfl]
    exact Or.inr ⟨h₁, h₂⟩
  have hend : phdr.pVaddr + phdr.pFilesz ≤ 4096 * phdr.endPage := by
    unfold ElfPhdr.endPage pagesFor
    omega
  have hnext : NextPage phdr phdr.firstPage (phdr.pVaddr % 4096) phdr.pFilesz phdr.pOffset := by
    unfold ElfPhdr.firstPage
    exact ⟨by omega, by omega, by omega, Or.inr (by omega)⟩
  have hmore : maxPages < fuel := by
    unfold taskSize at hfuel
    unfold maxPages
    omega
  rw [hdown, pageSize]
  replace hg₂ : w₁.phys.pages.Grants (pagesFor (phdr.pVaddr % 4096 + phdr.pFilesz)) := by
    rw [hpages₁, ← hcount]
    exact hg₂
  refine (ensures_mapPagesFrom hmm₁ hb hdom hend hfile hmore (phdr.pFilesz + 1) phdr.pFilesz phdr.firstPage
    (phdr.pVaddr % 4096) (filled_self hok₁.pages m phdr.firstPage _ _)
    (filesOk_atOffset (s := ⟨w₁, files⟩) (h := h) hf (Int.natCast_nonneg _) hx₁) atOffset_node ?_ le_rfl
    (Nat.mod_lt _ (by norm_num)) (fun hc => absurd hc hzero) (Nat.lt_succ_self _) hg₂).mono ?_
  · intro _
    rw [atOffset_offset]
    exact hnext
  · rintro rc s' ⟨rfl, s₂, files₂, rfl, hfilled, hf₂, hnode₂, hpages₂⟩
    rw [← hcount] at hfilled hpages₂
    exact ⟨rfl, T₁, loads_of_filled hok hm hle hclear harea hok₁ hkeeps hfilled, hf₂, hnode₂,
      hpages₁ ▸ hpages₂, hvmas₁⟩

end

end Exec

end Kernel64
