import Kernel64.Exec.Loading

/-!
# The program in a file

`load_binary` reads the table of program headers, and loads the segments of the file. When they are apart and the
allocators have what they need (`demand`), the program is in the address space (`loadBinary_loads`).
-/

namespace Kernel64

namespace Exec

open Paging Mm Ramfs Rb ColorTree

/-- A program header in the table of a file. -/
def phdrAt (v : Writes) (hdr : ElfHdr) (i : ℕ) : ElfPhdr :=
  phdrOf (Buf.slice (lastWritten v) (hdr.ePhoff + i * hdr.ePhentsize) phdrSize)

/-- The segments with `PT_LOAD` among `n` program headers. -/
def segmentsFrom (v : Writes) (hdr : ElfHdr) (i n : ℕ) : List ElfPhdr :=
  ((List.range' i n).map (phdrAt v hdr)).filter fun phdr => phdr.pType = ptLoad

/-- The segments of a file. -/
def segments (v : Writes) (hdr : ElfHdr) : List ElfPhdr := segmentsFrom v hdr 0 hdr.ePhnum

/-- Segments of a file of some size that can be loaded besides the pages of `D`. -/
structure Fit (size : ℕ) (D : Set ℕ) (segments : List ElfPhdr) : Prop where
  ok : ∀ phdr ∈ segments, phdr.Ok size
  apart : segments.Pairwise fun a b => Disjoint a.pages b.pages
  clear : ∀ phdr ∈ segments, Disjoint phdr.pages D

/-- The pages of memory that segments need, when the pages of `D` have their tables. -/
noncomputable def demand : Set ℕ → List ElfPhdr → ℕ
  | _, [] => 0
  | D, phdr :: rest => phdr.tables D + phdr.filePages + demand (D ∪ phdr.pages) rest

/-- Some segments have been loaded, and the allocators have been called as often as this needs. -/
structure LoadDone (v : Writes) (m h : ℕ) (segments : List ElfPhdr) (R : ℕ → ColorTree Ptr) (W : ℕ → Writes)
    (s : LoadState) (T : ℕ → ColorTree Ptr) (s' : LoadState) (T' : ℕ → ColorTree Ptr) : Prop where
  loads : Loads v m segments s.world T s'.world T'
  files : FilesOk s'.files R W
  node : (s'.files.file h).node = (s.files.file h).node
  pages : s'.world.phys.pages = s.world.phys.pages.after (demand (pagesOf (s.world.mm m) (T m)) segments)
  vmas : s'.world.vmas = s.world.vmas.after segments.length

section

variable {s s₁ s₂ : LoadState} {T T₁ T₂ : ℕ → ColorTree Ptr} {E : ℕ → ℕ → ℕ → Pte}
  {R : ℕ → ColorTree Ptr} {W : ℕ → Writes} {v : Writes} {fuel m h i n size : ℕ} {phdr : ElfPhdr} {hdr : ElfHdr}
  {D : Set ℕ} {l : List ElfPhdr}

/-! ### The segments that are left -/

theorem segmentsFrom_succ : segmentsFrom v hdr i (n + 1) =
    if (phdrAt v hdr i).pType = ptLoad then phdrAt v hdr i :: segmentsFrom v hdr (i + 1) n
    else segmentsFrom v hdr (i + 1) n := by
  rw [segmentsFrom, List.range'_succ, List.map_cons, List.filter_cons]
  simp only [decide_eq_true_eq]
  rfl

theorem demand_singleton : demand D [phdr] = phdr.tables D + phdr.filePages := by
  rw [demand, demand, Nat.add_zero]

theorem demand_cons : demand D (phdr :: l) = demand D [phdr] + demand (D ∪ phdr.pages) l := by
  rw [demand_singleton, demand]

/-- The other segments fit besides the first one. -/
theorem Fit.tail (h : Fit size D (phdr :: l)) : Fit size (D ∪ phdr.pages) l := by
  obtain ⟨hfirst, hrest⟩ := List.pairwise_cons.1 h.apart
  refine ⟨fun b hb => h.ok b (List.mem_cons_of_mem _ hb), hrest, fun b hb => ?_⟩
  exact Set.disjoint_union_right.2 ⟨h.clear b (List.mem_cons_of_mem _ hb), (hfirst b hb).symm⟩

/-! ### Putting the parts together -/

/-- The pages of the address space after a segment has been loaded. -/
theorem Loads.pagesOf_eq {w w₁ : World} (h : Loads v m [phdr] w T w₁ T₁) :
    pagesOf (w₁.mm m) (T₁ m) = pagesOf (w.mm m) (T m) ∪ phdr.pages := by
  ext q
  rw [h.pages]
  simp only [List.mem_singleton, exists_eq_left]
  rfl

theorem loadDone_nil (hok : WorldOk s.world T E) (hf : FilesOk s.files R W) : LoadDone v m h [] R W s T s T :=
  ⟨loads_nil hok, hf, rfl, Supply.after_zero.symm, Supply.after_zero.symm⟩

/-- Where the handle is does not matter. -/
theorem LoadDone.of_atOffset {y : ℤ} (hdone : LoadDone v m h l R W (s.atOffset h y) T s₁ T₁) :
    LoadDone v m h l R W s T s₁ T₁ :=
  ⟨hdone.loads, hdone.files, hdone.node.trans atOffset_node, hdone.pages, hdone.vmas⟩

/-- One segment, and then the others. -/
theorem LoadDone.cons (hfit : Fit size D (phdr :: l))
    (hpages : s.world.phys.pages.Grants (demand (pagesOf (s.world.mm m) (T m)) [phdr]))
    (hvmas : s.world.vmas.Grants 1) (h₁ : LoadDone v m h [phdr] R W s T s₁ T₁) (h₂ : LoadDone v m h l R W s₁ T₁ s₂ T₂) :
    LoadDone v m h (phdr :: l) R W s T s₂ T₂ where
  loads := h₁.loads.trans h₂.loads (fun a ha => (hfit.ok a (by simp_all)).filesz) fun a ha b hb => by
    rw [List.mem_singleton.1 ha]
    exact (List.pairwise_cons.1 hfit.apart).1 b hb
  files := h₂.files
  node := h₂.node.trans h₁.node
  pages := by
    rw [h₂.pages, h₁.pages, h₁.loads.pagesOf_eq, ← Supply.after_add hpages, ← demand_cons]
  vmas := by
    rw [h₂.vmas, h₁.vmas, List.length_singleton, ← Supply.after_add hvmas, List.length_cons, Nat.add_comm]

/-! ### The loop -/

/-- Reading a program header. -/
theorem ensures_readElfPhdr (hfuel : maxPages < fuel) (hf : FilesOk s.files R W)
    (hx : (s.files.file h).offset = (hdr.ePhoff + i * hdr.ePhentsize : ℕ))
    (hle : hdr.ePhoff + i * hdr.ePhentsize + phdrSize ≤ maxEnd (W (s.files.file h).node)) :
    Ensures (readElfPhdr fuel h) s fun r s' => r = (0, phdrAt (W (s.files.file h).node) hdr i) ∧
      s' = s.atOffset h ((s.files.file h).offset + phdrSize) := by
  rw [readElfPhdr, ensures_bind]
  refine (ensures_readBuf hfuel hf (by rw [hx]; omega)).mono ?_
  rintro _ _ ⟨rfl, rfl⟩
  refine ensures_pure.2 ⟨?_, rfl⟩
  rw [hx, Int.toNat_natCast]
  rfl

/-- Loading one segment. -/
theorem ensures_mapElfPhdr_done (hok : WorldOk s.world T E) (hm : s.world.mmUsed m = true) (hf : FilesOk s.files R W)
    (hload : phdr.pType = ptLoad)
    (hfit : Fit (maxEnd (W (s.files.file h).node)) (pagesOf (s.world.mm m) (T m)) (phdr :: l))
    (hfuel : taskSize < fuel) (hpages : s.world.phys.pages.Grants (demand (pagesOf (s.world.mm m) (T m)) [phdr]))
    (hvmas : s.world.vmas.Grants 1) :
    Ensures (mapElfPhdr fuel m h phdr) s fun rc s' => rc = 0 ∧ ∃ T',
      LoadDone (W (s.files.file h).node) m h [phdr] R W s T s' T' := by
  have hclear := Set.disjoint_left.1 (hfit.clear phdr List.mem_cons_self)
  rw [demand_singleton] at hpages
  refine (ensures_mapElfPhdr hok hm hf hload (hfit.ok phdr List.mem_cons_self) (fun q hq => hclear hq) hfuel hpages
    hvmas).mono ?_
  rintro rc s' ⟨rfl, T', hloads, hf', hnode, hpages', hvmas'⟩
  rw [← demand_singleton] at hpages'
  exact ⟨rfl, T', hloads, hf', hnode, hpages', hvmas'⟩

/-- **The loop of `load_binary`** loads the segments of the headers that are left. -/
theorem ensures_loadFrom (hfuel : taskSize < fuel) : ∀ (n i : ℕ) {offset : ℤ} {s : LoadState}
    {T : ℕ → ColorTree Ptr} {E : ℕ → ℕ → ℕ → Pte}, WorldOk s.world T E → s.world.mmUsed m = true →
    FilesOk s.files R W → W (s.files.file h).node = v →
    (∀ j, i ≤ j → j < i + n → hdr.ePhoff + j * hdr.ePhentsize + phdrSize ≤ maxEnd v) →
    Fit (maxEnd v) (pagesOf (s.world.mm m) (T m)) (segmentsFrom v hdr i n) →
    s.world.phys.pages.Grants (demand (pagesOf (s.world.mm m) (T m)) (segmentsFrom v hdr i n)) →
    s.world.vmas.Grants (segmentsFrom v hdr i n).length →
    (n ≠ 0 → offset = (hdr.ePhoff + i * hdr.ePhentsize : ℕ)) →
    Ensures (loadFrom fuel m h hdr.ePhentsize n offset) s fun rc s' => rc = 0 ∧ ∃ T',
      LoadDone v m h (segmentsFrom v hdr i n) R W s T s' T' := by
  intro n
  induction n with
  | zero =>
    intro i offset s T E hok hm hf hv htable hfit hpages hvmas hoffset
    rw [loadFrom, ensures_pure]
    exact ⟨rfl, T, loadDone_nil hok hf⟩
  | succ n ih =>
    intro i offset s T E hok hm hf hv htable hfit hpages hvmas hoffset
    have hheader := htable i le_rfl (by omega)
    have hmax := hf.size_le (s.files.file h).node
    rw [hv] at hmax
    have hx : hdr.ePhoff + i * hdr.ePhentsize ≤ maxOffset := by omega
    have hmore : maxPages < fuel := by
      unfold taskSize at hfuel
      unfold maxPages
      omega
    obtain rfl := hoffset (Nat.succ_ne_zero n)
    rw [loadFrom, ensures_bind, ensures_onFiles]
    refine (hf.ensures_seekSet hx).mono ?_
    rintro _ _ ⟨rfl, rfl⟩
    rw [if_neg (Int.natCast_nonneg _).not_gt, ensures_bind]
    set x : ℤ := ((hdr.ePhoff + i * hdr.ePhentsize : ℕ) : ℤ) with hxdef
    have hf₁ : FilesOk (s.atOffset h x).files R W :=
      filesOk_atOffset hf (Int.natCast_nonneg _) (Int.ofNat_le.2 hx)
    have hv₁ : W ((s.atOffset h x).files.file h).node = v := by rwa [atOffset_node]
    refine (ensures_readElfPhdr (s := s.atOffset h x) hmore hf₁ atOffset_offset (hv₁ ▸ hheader)).mono ?_
    rintro _ _ ⟨rfl, rfl⟩
    simp only [hv₁, atOffset_offset, atOffset_atOffset]
    rw [if_neg (lt_irrefl 0), ensures_bind]
    -- the handle is at the end of the header
    set s₁ := s.atOffset h (x + phdrSize) with hs₁
    have hf₁ : FilesOk s₁.files R W := filesOk_atOffset hf (by omega) (by omega)
    have hv₁ : W (s₁.files.file h).node = v := by rwa [hs₁, atOffset_node]
    have hrest : n ≠ 0 → toInt (x + hdr.ePhentsize) = (hdr.ePhoff + (i + 1) * hdr.ePhentsize : ℕ) := fun hn => by
      have hnext := htable (i + 1) (Nat.le_succ i) (by omega)
      have hsum : x + hdr.ePhentsize = (hdr.ePhoff + (i + 1) * hdr.ePhentsize : ℕ) := by
        rw [hxdef, Nat.succ_mul]
        omega
      rw [hsum]
      exact toInt_eq (Int.natCast_nonneg _) (by omega)
    have htable₁ : ∀ j, i + 1 ≤ j → j < i + 1 + n → hdr.ePhoff + j * hdr.ePhentsize + phdrSize ≤ maxEnd v :=
      fun j h₁ h₂ => htable j (by omega) (by omega)
    rw [segmentsFrom_succ] at hfit hpages hvmas ⊢
    by_cases hload : (phdrAt v hdr i).pType = ptLoad
    · rw [if_pos hload] at hfit hpages hvmas ⊢
      rw [demand_cons] at hpages
      rw [List.length_cons, Nat.add_comm] at hvmas
      obtain ⟨hpages₁, hpages₂⟩ := Supply.grants_add.1 hpages
      obtain ⟨hvmas₁, hvmas₂⟩ := Supply.grants_add.1 hvmas
      have hfit₁ : Fit (maxEnd (W (s₁.files.file h).node)) (pagesOf (s₁.world.mm m) (T m))
          (phdrAt v hdr i :: segmentsFrom v hdr (i + 1) n) := hv₁ ▸ hfit
      refine (ensures_mapElfPhdr_done (s := s₁) hok hm hf₁ hload hfit₁ hfuel hpages₁ hvmas₁).mono ?_
      rintro rc s₂ ⟨rfl, T₂, hdone⟩
      rw [hv₁] at hdone
      rw [if_neg (lt_irrefl 0)]
      obtain ⟨E₂, hok₂⟩ := hdone.loads.ok
      have hm₂ : s₂.world.mmUsed m = true := by rwa [hdone.loads.mmUsed]
      have hv₂ : W (s₂.files.file h).node = v := by rwa [hdone.node]
      have hdom : pagesOf (s₂.world.mm m) (T₂ m) = pagesOf (s.world.mm m) (T m) ∪ (phdrAt v hdr i).pages :=
        hdone.loads.pagesOf_eq
      refine (ih (i + 1) hok₂ hm₂ hdone.files hv₂ htable₁ (hdom ▸ hfit.tail) ?_ ?_ hrest).mono ?_
      · rw [hdom, hdone.pages]
        exact hpages₂
      · rw [hdone.vmas]
        exact hvmas₂
      · rintro rc s' ⟨rfl, T', hdone'⟩
        have hall : LoadDone v m h (phdrAt v hdr i :: segmentsFrom v hdr (i + 1) n) R W s₁ T s' T' :=
          LoadDone.cons (s := s₁) hfit hpages₁ hvmas₁ hdone hdone'
        exact ⟨rfl, T', hall.of_atOffset⟩
    · rw [if_neg hload] at hfit hpages hvmas ⊢
      rw [mapElfPhdr, if_pos hload, ensures_pure, if_neg (lt_irrefl 0)]
      refine (ih (i + 1) (s := s₁) hok hm hf₁ hv₁ htable₁ hfit hpages hvmas hrest).mono ?_
      rintro rc s' ⟨rfl, T', hdone⟩
      exact ⟨rfl, T', hdone.of_atOffset⟩

/-- **Loading a program.** When the table of program headers is inside the file, the segments are inside it too, apart
and not where the address space has its areas, and no allocation fails, `load_binary` returns 0. Each segment has its
area and reads as the part of the file that it holds and then as zeros; nothing else changes. -/
theorem loadBinary_loads (hok : WorldOk s.world T E) (hm : s.world.mmUsed m = true) (hf : FilesOk s.files R W)
    (hv : W (s.files.file h).node = v)
    (htable : ∀ i < hdr.ePhnum, hdr.ePhoff + i * hdr.ePhentsize + phdrSize ≤ maxEnd v)
    (hfit : Fit (maxEnd v) (pagesOf (s.world.mm m) (T m)) (segments v hdr)) (hfuel : taskSize < fuel)
    (hpages : s.world.phys.pages.Grants (demand (pagesOf (s.world.mm m) (T m)) (segments v hdr)))
    (hvmas : s.world.vmas.Grants (segments v hdr).length) :
    Ensures (loadBinary fuel m h hdr) s fun rc s' => rc = 0 ∧ ∃ T',
      LoadDone v m h (segments v hdr) R W s T s' T' := by
  rw [loadBinary]
  refine ensures_loadFrom hfuel hdr.ePhnum 0 hok hm hf hv (fun j _ hj => htable j (by omega)) hfit hpages hvmas ?_
  intro hn
  have hmax := hf.size_le (s.files.file h).node
  rw [hv] at hmax
  have hfirst := htable 0 (Nat.pos_of_ne_zero hn)
  rw [Nat.zero_mul, Nat.add_zero] at hfirst ⊢
  exact toInt_eq (Int.natCast_nonneg _) (by omega)

end

/-! ### A small program -/

/-- A program header, and 20 bytes for a segment of 5000 bytes at `0x400ff0`. -/
def smallImage : List UInt8 :=
  [1, 0, 0, 0, 2, 0, 0, 0, 56, 0, 0, 0, 0, 0, 0, 0, 0xf0, 0x0f, 0x40, 0, 0, 0, 0, 0, 0, 0, 0, 0, 0, 0, 0, 0,
    20, 0, 0, 0, 0, 0, 0, 0, 0x88, 0x13, 0, 0, 0, 0, 0, 0, 0, 0, 0, 0, 0, 0, 0, 0] ++ List.replicate 20 9

/-- Its header. -/
def smallHdr : ElfHdr := ⟨0, 56, 1⟩

/-- Its segment. -/
def smallPhdr : ElfPhdr := ⟨1, 2, 56, 0x400ff0, 20, 5000⟩

theorem segments_smallImage : segments [(0, smallImage)] smallHdr = [smallPhdr] := by decide

/-- There is room for the segment. -/
theorem fit_smallPhdr : Fit (maxEnd [(0, smallImage)]) ∅ [smallPhdr] where
  ok := by
    simp only [List.mem_singleton, forall_eq]
    exact ⟨by decide, by decide, by decide, by decide⟩
  apart := List.pairwise_singleton _ _
  clear := fun _ _ => Set.disjoint_empty _

theorem smallSpace_grants {n : ℕ} (hn : n ≤ 62) : smallSpace.phys.pages.Grants n := by
  refine Supply.grants_of_injective (f := fun i => i + 2) (add_left_injective 2) (fun _ _ => rfl) fun i hi => ?_
  have hfree : 2 ≤ i + 2 ∧ i + 2 < 64 := ⟨by omega, by omega⟩
  exact decide_eq_true hfree

theorem demand_smallPhdr : demand ∅ [smallPhdr] ≤ 62 := by
  have hpages : smallPhdr.filePages = 2 := by decide
  have htables : smallPhdr.tables ∅ ≤ 3 * (smallPhdr.endPage - smallPhdr.firstPage) := newTables_le _ _ _ _
  have hcount : smallPhdr.endPage - smallPhdr.firstPage = 3 := by decide
  rw [demand_singleton]
  omega

/-- The file holds the program. -/
theorem exists_smallImage : ∃ files R W, FilesOk files R W ∧ (files.file 0).node = 0 ∧ W 0 = [(0, smallImage)] := by
  have hfuel : maxPages < maxPages + 1 := Nat.lt_succ_self _
  have hcall : returned 76 (vfsWrite (maxPages + 1) 0 smallImage twoHandles) = true := by decide
  obtain ⟨n, files, hrun, hpost⟩ := twoHandles_empty.filesOk.ensures_vfsWrite (h := 0) hfuel
    (show smallImage ≠ [] by decide) (by decide)
  rw [hrun, returned, decide_eq_true_eq] at hcall
  subst hcall
  obtain ⟨hc, -⟩ | ⟨-, -, hfile, R, hf⟩ := hpost
  · exact absurd hc (by decide)
  · refine ⟨files, R, _, hf, ?_, ?_⟩
    · rw [hfile]
      rfl
    · rfl

/-- It is loaded: the segment ends with the last byte of the file, and zeros. -/
theorem loadBinary_loads_smallImage : ∃ s, Ensures (loadBinary (taskSize + 1) 0 0 smallHdr) s fun rc s' => rc = 0 ∧
    byteAt s'.world 0 (0x400ff0 + 19) = 9 ∧ byteAt s'.world 0 (0x400ff0 + 20) = 0 := by
  obtain ⟨files, R, W, hf, hnode, hv⟩ := exists_smallImage
  have hstart : RefsOk smallSpace (fun _ => .nil) fun _ _ _ => .zero := empty_smallSpace.worldOk
  have hnil : pagesOf (smallSpace.mm 0) .nil = ∅ := pagesOf_nil _
  have htable : ∀ i < smallHdr.ePhnum, smallHdr.ePhoff + i * smallHdr.ePhentsize + phdrSize ≤
      maxEnd [(0, smallImage)] := by decide
  have hfit : Fit (maxEnd [(0, smallImage)]) (pagesOf (smallSpace.mm 0) .nil)
      (segments [(0, smallImage)] smallHdr) := by
    rw [segments_smallImage, hnil]
    exact fit_smallPhdr
  have hpages : smallSpace.phys.pages.Grants
      (demand (pagesOf (smallSpace.mm 0) .nil) (segments [(0, smallImage)] smallHdr)) := by
    rw [segments_smallImage, hnil]
    exact smallSpace_grants demand_smallPhdr
  have hvmas : smallSpace.vmas.Grants (segments [(0, smallImage)] smallHdr).length := by
    rw [segments_smallImage]
    exact Supply.grants_one.2 ⟨64#64, rfl, by decide⟩
  refine ⟨⟨smallSpace, files⟩, (loadBinary_loads (s := ⟨smallSpace, files⟩) hstart.1 rfl hf (hnode.symm ▸ hv) htable
    hfit (Nat.lt_succ_self _) hpages hvmas).mono ?_⟩
  rintro rc s' ⟨rfl, T', hdone⟩
  rw [segments_smallImage] at hdone
  have hloaded := hdone.loads.loaded smallPhdr (List.mem_singleton_self _)
  exact ⟨rfl, hloaded.file 19 (by decide), hloaded.zero 20 le_rfl (by decide)⟩

end Exec

end Kernel64
