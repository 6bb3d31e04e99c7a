import Kernel64.Exec.Layout
import Kernel64.Kmap.Runs
import Kernel64.Mm.Mapping
import Kernel64.Paging.Trees

/-!
# Arguments in the new address space

The window of `copy_args` and the pages below the end of the stack are the same memory, so that what is written
in the one (`ensures_copyStrings`) is found in the other (`copyArgs_argsOk`).
-/

namespace Kernel64

namespace Exec

open Paging Mm

/-! ### Writing through a window -/

/-- The bytes of the pages, one page after the other. -/
def Shows (s : Phys) (pages : List Pfn) (b : Buf) : Prop :=
  ∀ x < pageSize * pages.length, s.bytes (pages.getD (x / pageSize) 0) (x % pageSize) = b x

/-- The addresses from `buffer` on are those of the pages. -/
structure Maps (table : Pfn → ℕ → Pte) (pml4 : Pfn) (buffer : ℕ) (pages : List Pfn) : Prop where
  aligned : buffer % pageSize = 0
  nodup : pages.Nodup
  translate_eq : ∀ x < pageSize * pages.length,
    translate table pml4 (buffer + x) = some (pages.getD (x / pageSize) 0, true)

section

variable {s s' : Phys} {pml4 : Pfn} {buffer o : ℕ} {pages : List Pfn} {b : Buf} {l : List UInt8}
  {argv : List (List UInt8)}

/-- Storing a byte shows at its place only. -/
theorem Shows.update {v : UInt8} (h : Shows s pages b) (hnodup : pages.Nodup) (ho : o < pageSize * pages.length) :
    Shows { s with
      bytes := Function.update s.bytes (pages.getD (o / pageSize) 0)
        (Function.update (s.bytes (pages.getD (o / pageSize) 0)) (o % pageSize) v) } pages
      (Function.update b o v) := by
  intro x hx
  have hdiv : ∀ {y}, y < pageSize * pages.length → y / pageSize < pages.length := fun hy =>
    Nat.div_lt_of_lt_mul hy
  dsimp only
  rcases eq_or_ne x o with rfl | hne
  · rw [Function.update_self, Function.update_self, Function.update_self]
  · rw [Function.update_of_ne hne]
    rcases eq_or_ne (x / pageSize) (o / pageSize) with hpage | hpage
    · have hoff : x % pageSize ≠ o % pageSize := by
        unfold pageSize at *
        omega
      rw [hpage, Function.update_self, Function.update_of_ne hoff, ← hpage]
      exact h x hx
    · have hpfn : pages.getD (x / pageSize) 0 ≠ pages.getD (o / pageSize) 0 := by
        simp only [List.getD_eq_getElem?_getD, List.getElem?_eq_getElem (hdiv hx),
          List.getElem?_eq_getElem (hdiv ho), Option.getD_some]
        exact fun hc => hpage (hnodup.getElem_inj_iff.1 hc)
      rw [Function.update_of_ne hpfn]
      exact h x hx

/-- **Storing bytes** through a window. -/
theorem Maps.ensures_storeBytes (hm : Maps s.table pml4 buffer pages) (hs : Shows s pages b)
    (ho : o + l.length ≤ pageSize * pages.length) :
    Ensures (storeBytes pml4 (buffer + o) l) s fun _ s' => s'.table = s.table ∧ Shows s' pages (b.store o l) := by
  induction l generalizing s o b with
  | nil =>
    rw [storeBytes, ensures_pure, Buf.store_nil]
    exact ⟨rfl, hs⟩
  | cons v l ih =>
    simp only [List.length_cons] at ho
    have hmod : (buffer + o) % pageSize = o % pageSize := by
      have := hm.aligned
      rw [Nat.add_mod, this, Nat.zero_add, Nat.mod_mod]
    rw [storeBytes, ensures_bind, ensures_get, hm.translate_eq o (by omega), hmod]
    simp only [ensures_bind, ensures_modify]
    have hlt : o < pageSize * pages.length := by omega
    rw [Buf.store_cons, Nat.add_assoc]
    exact ih hm (hs.update hm.nodup hlt) (by omega)

/-- **Copying the strings** through a window. -/
theorem Maps.ensures_copyStrings {array data usrdata : ℕ} (hm : Maps s.table pml4 buffer pages)
    (hs : Shows s pages b) (harray : array + 8 * argv.length ≤ pageSize * pages.length)
    (hdata : data + stringBytes argv ≤ pageSize * pages.length) :
    Ensures (copyStrings pml4 argv (buffer + array) (buffer + data) usrdata) s fun _ s' =>
      s'.table = s.table ∧ Shows s' pages (layStrings b argv array data usrdata) := by
  induction argv generalizing s b array data usrdata with
  | nil =>
    rw [copyStrings, ensures_pure]
    exact ⟨rfl, hs⟩
  | cons arg argv ih =>
    simp only [List.length_cons, stringBytes_cons] at harray hdata
    rw [copyStrings]
    simp only [ensures_bind]
    refine (hm.ensures_storeBytes hs (by simp; omega)).mono fun _ s₁ hr => ?_
    obtain ⟨ht₁, hs₁⟩ := hr
    have hm₁ : Maps s₁.table pml4 buffer pages := ht₁ ▸ hm
    refine (hm₁.ensures_storeBytes hs₁ (by simp; omega)).mono fun _ s₂ hr => ?_
    obtain ⟨ht₂, hs₂⟩ := hr
    have hm₂ : Maps s₂.table pml4 buffer pages := ht₂ ▸ hm₁
    rw [Nat.add_assoc, Nat.add_assoc]
    refine (ih hm₂ hs₂ (by unfold ptrsz; omega) (by omega)).mono fun _ s' hr => ⟨?_, hr.2⟩
    rw [hr.1, ht₂, ht₁]

/-! ### Allocating -/

/-- The next calls of the allocator return the pages. -/
structure Supplies (s : Phys) (pages : List Pfn) : Prop where
  nodup : pages.Nodup
  free : ∀ p ∈ pages, s.free p = true
  supply : ∀ i (hi : i < pages.length), ∃ w, s.supply i = some (pages[i], w)

theorem Supplies.tail {p : Pfn} {u : Pfn → BitVec 64} (h : Supplies s (p :: pages)) :
    Supplies { s with
      free := Function.update s.free p false
      supply := fun n => s.supply (n + 1)
      u := u } pages := by
  obtain ⟨hp, hnodup⟩ := List.nodup_cons.1 h.nodup
  refine ⟨hnodup, fun q hq => ?_, fun i hi => h.supply (i + 1) (by simpa using hi)⟩
  have hne : q ≠ p := fun hc => hp (hc ▸ hq)
  dsimp only
  rw [Function.update_of_ne hne]
  exact h.free q (List.mem_cons_of_mem p hq)

/-- The loop that allocates the pages. -/
theorem Supplies.ensures_allocArgPages (h : Supplies s pages) :
    Ensures (allocArgPages pages.length) s fun r s' => r = (pages, true) ∧ s'.table = s.table := by
  induction pages generalizing s with
  | nil =>
    rw [List.length_nil, allocArgPages, ensures_pure]
    exact ⟨rfl, rfl⟩
  | cons p pages ih =>
    obtain ⟨w, hw⟩ := h.supply 0 (by simp)
    rw [List.getElem_cons_zero] at hw
    have hfree : s.free p = true := h.free p List.mem_cons_self
    rw [List.length_cons, allocArgPages, allocPages]
    simp only [ensures_bind, ensures_get, ensures_set, hw, hfree, if_true, ensures_modify, setU, ensures_pure]
    refine (ih h.tail).mono fun r s' hr => ?_
    obtain ⟨hr, ht⟩ := hr
    obtain ⟨pages', all⟩ := r
    obtain ⟨rfl, rfl⟩ := Prod.mk.inj hr
    exact ⟨rfl, ht⟩

/-! ### The window -/

variable {k k' : Kmap} {roots : Set Pfn} {e3 e2 : Pte} {e1 : ℕ → Pte} {ws : List Window} {w : Window}

/-- The area has a free range for the pages. -/
def Room (k : Kmap) (n : ℕ) : Prop := ∃ l, RangesOk k l ∧ ∃ g ∈ l, g.free = true ∧ n ≤ g.len

theorem Room.withPhys {n : ℕ} (h : Room k n) (s : Phys) : Room { k with phys := s } n := by
  obtain ⟨l, hl, hg⟩ := h
  exact ⟨l, ⟨hl.row, hl.tagged, hl.listed.congr rfl⟩, hg⟩

/-- The windows are there as long as the tables are the same. -/
theorem windowsOk_congr (h : WindowsOk k roots e3 e2 e1 ws) (htables : KmapTables s roots e3 e2 e1)
    (hleaf : ∀ j < kmapPages, leafEntry s e1 j = leafEntry k.phys e1 j) :
    WindowsOk { k with phys := s } roots e3 e2 e1 ws := by
  obtain ⟨l, hl, hused⟩ := h.ranges
  refine ⟨htables, ⟨l, ⟨hl.row, hl.tagged, hl.listed.congr rfl⟩, hused⟩, h.addr, h.nodup, fun w hw i hi => ?_,
    fun j hj hout => ?_⟩
  · have hb := h.bounds hw
    rw [hleaf _ (by omega)]
    exact h.mapped w hw i hi
  · rw [hleaf j hj]
    exact h.absent j hj hout

theorem kmapTables_congr (h : KmapTables s roots e3 e2 e1) (htop : ∀ root ∈ roots, s'.table root = s.table root)
    (h3 : s'.table e3.pfn = s.table e3.pfn) (h2 : s'.table e2.pfn = s.table e2.pfn) :
    KmapTables s' roots e3 e2 e1 :=
  { h with
    top := fun root hroot => by rw [htop root hroot]; exact h.top root hroot
    pml3 := by rw [h3]; exact h.pml3
    pml2 := fun k hk => by rw [h2]; exact h.pml2 k hk }

/-- `kmap` finds a window when there is room for one. -/
theorem Room.yields_kmap (h : Room k pages.length) (hpages : pages ≠ []) :
    Yields (kmap pml4 pages) k fun o _ => o ≠ none := by
  obtain ⟨l, hl, g, hg, hfree, hlen⟩ := h
  have hn := List.length_pos_of_ne_nil hpages
  unfold kmap
  refine Yields.bind ((hl.ensures_kmapAllocRange_complete hn).yields.mono ?_)
  rintro o k₁ ⟨-, ⟨rfl, -, hshort⟩ | ⟨r, l', rfl, -⟩⟩
  · exact absurd (hshort g hg hfree) (Nat.not_lt.2 hlen)
  · exact Yields.bind (yields_true fun _ _ => yields_pure (Option.some_ne_none _))

/-- The addresses of a window are those of its pages. -/
theorem maps_window (h : WindowsOk k roots e3 e2 e1 ws) (hroot : pml4 ∈ roots) (hw : w ∈ ws)
    (hnodup : w.pages.Nodup) : Maps k.phys.table pml4 w.addr w.pages := by
  have hb := h.bounds hw
  have haddr := h.addr w hw
  have hpages := kmapPages_eq
  have hsize : kmapSize = 536866816 := by decide
  have hbase : kmapBase = 0xffffffffe0000000 := kmapBase_eq
  refine ⟨?_, hnodup, fun x hx => ?_⟩
  · rw [haddr, kmap2virt, hbase]
    unfold pageSize
    omega
  · have hi : x / pageSize < w.pages.length := Nat.div_lt_of_lt_mul hx
    have hvirt : virt2kmap (w.addr + x) = w.start + x / pageSize := by
      rw [haddr, virt2kmap, kmap2virt, hbase]
      unfold pageSize
      omega
    have hlo : kmapBase ≤ w.addr + x := by
      rw [haddr, kmap2virt]
      omega
    have hhi : w.addr + x < kmapBase + kmapSize := by
      rw [haddr, kmap2virt, hsize]
      unfold pageSize at *
      omega
    rw [h.tables.translate_eq hroot hlo hhi, hvirt, h.mapped w hw _ hi, List.getD_eq_getElem?_getD,
      List.getElem?_eq_getElem hi]
    rfl

/-! ### The stack -/

/-- The tables of the pages from `a` to `c` of an address space, as populating them leaves them. -/
structure StackTables (table : Pfn → ℕ → Pte) (pt : Pfn) (E : ℕ → ℕ → Pte) (a c : ℕ) : Prop where
  reaches : ∀ p, a ≤ p → p < c → Reaches table pt E p
  inj : ∀ p q, a ≤ p → p < c → a ≤ q → q < c → (E 0 (p / 512)).pfn = (E 0 (q / 512)).pfn → p / 512 = q / 512
  apart : ∀ p q i, a ≤ p → p < c → a ≤ q → q < c → i < 3 → (E 0 (p / 512)).pfn ≠ tab pt E (i + 1) (q / 512 ^ (i + 2))

variable {pt : Pfn} {E : ℕ → ℕ → Pte} {a c n q fuel : ℕ} {flags : PteFlags} {e : Pte}

/-- The entry of a page at level 0. -/
def stackEntry (table : Pfn → ℕ → Pte) (E : ℕ → ℕ → Pte) (p : ℕ) : Pte := table (E 0 (p / 512)).pfn (p % 512)

/-- Counted tables are of this kind. -/
theorem stackTables_of_ptOk {C : Counts} (h : PtOk s pt E C) (hc : ∀ p, a ≤ p → p < c → 0 < load C 0 (p / 512)) :
    StackTables s.table pt E a c := by
  have htab : ∀ g, tab pt E 0 g = (E 0 g).pfn := fun g => tab_of_lt (by omega)
  have hlive : ∀ p, a ≤ p → p < c → ∀ i ≤ 3, Live C i (p / 512 ^ (i + 1)) := by
    intro p h₁ h₂ i hi
    rcases Nat.lt_or_eq_of_le hi with hlt | rfl
    · exact (live_iff_of_lt hlt).2 (h.load_pos_of_page (hc p h₁ h₂) hlt)
    · have := h.live_parent (show 2 < 3 by omega) (h.load_pos_of_page (hc p h₁ h₂) (by omega))
      rwa [digit_group] at this
  refine ⟨fun p h₁ h₂ => h.reaches (hc p h₁ h₂), fun p q hp₁ hp₂ hq₁ hq₂ heq => ?_,
    fun p q i hp₁ hp₂ hq₁ hq₂ hi heq => ?_⟩
  · rw [← htab, ← htab] at heq
    have := h.inj 0 _ 0 _ (hlive p hp₁ hp₂ 0 (by omega)) (hlive q hq₁ hq₂ 0 (by omega))
    simpa using this (by simpa using heq)
  · rw [← htab] at heq
    have := h.inj 0 _ (i + 1) _ (hlive p hp₁ hp₂ 0 (by omega)) (hlive q hq₁ hq₂ (i + 1) (by omega))
    exact absurd (this (by simpa using heq)).1 (by omega)

/-- Writing an entry at level 0 leaves the way to the pages alone. -/
theorem StackTables.store {t : Pfn → ℕ → Pte} (h : StackTables t pt E a c) (hq₁ : a ≤ q) (hq₂ : q < c) :
    StackTables (Function.update t (E 0 (q / 512)).pfn (Function.update (t (E 0 (q / 512)).pfn) (q % 512) e))
      pt E a c := by
  refine { h with reaches := fun p h₁ h₂ i hi => ?_ }
  rw [Function.update_of_ne (h.apart q p i hq₁ hq₂ h₁ h₂ hi).symm]
  exact h.reaches p h₁ h₂ i hi

theorem StackTables.stackEntry_store {t : Pfn → ℕ → Pte} (h : StackTables t pt E a c) (hq₁ : a ≤ q) (hq₂ : q < c)
    {p : ℕ} (hp₁ : a ≤ p) (hp₂ : p < c) :
    stackEntry (Function.update t (E 0 (q / 512)).pfn (Function.update (t (E 0 (q / 512)).pfn) (q % 512) e)) E p =
      if p = q then e else stackEntry t E p := by
  unfold stackEntry
  rw [update_entry_apply]
  refine if_congr ⟨fun hat => ?_, fun hat => ?_⟩ rfl rfl
  · have := h.inj p q hp₁ hp₂ hq₁ hq₂ hat.1
    omega
  · rw [hat]
    exact ⟨rfl, rfl⟩

/-- **Mapping the pages** in the new address space. -/
theorem StackTables.ensures_mmapPages (h : StackTables s.table pt E a c) (hq : a ≤ q) (hn : pages ≠ [])
    (hc : q + pages.length ≤ c) (hcu : c ≤ userPages) (hfuel : pages.length < fuel) :
    Ensures (mmapPages fuel pt (4096 * q) pages flags) s fun _ s' =>
      StackTables s'.table pt E a c ∧
      (∀ i (hi : i < pages.length), stackEntry s'.table E (q + i) = pageEntry pages[i] flags) ∧
      (∀ t, (∀ p, a ≤ p → p < c → t ≠ (E 0 (p / 512)).pfn) → s'.table t = s.table t) ∧ s'.bytes = s.bytes := by
  have hlen := List.length_pos_of_ne_nil hn
  have hend := range_end (a := q) (b := q + pages.length) (by omega) (by omega)
  rw [Nat.add_sub_cancel_left] at hend
  rw [mmapPages, dbgAssert, if_pos (pageSize_mul_mod q), hend]
  simp only [ensures_bind, ensures_pure]
  unfold userPages at hcu
  -- the entries of the pages passed are written
  let I : ℕ → Phys → Prop := fun p s' => StackTables s'.table pt E a c ∧
    (∀ i (hi : i < pages.length), q + i < p → stackEntry s'.table E (q + i) = pageEntry pages[i] flags) ∧
    (∀ t, (∀ p, a ≤ p → p < c → t ≠ (E 0 (p / 512)).pfn) → s'.table t = s.table t) ∧ s'.bytes = s.bytes
  refine Ensures.mono (ensures_slots (I := I) (R := fun _ _ => False) (a := q) (b := q + pages.length) (E := E)
    (by omega) (by omega) (by omega) (fun k _ => pmlIndex_page k q) ?_ (le_canonical _) ?_ ?_ ?_) ?_
  · intro p h₁ h₂
    rw [canonical_of_user (by unfold userPages; omega)]
    omega
  · exact fun p r s' hI h₁ h₂ => hI.1.reaches p (by omega) (by omega)
  · intro p s' h₁ h₂ ⟨hst, hentry, hoff, hbytes⟩
    have hidx : p - q < pages.length := by omega
    rw [ensures_bind, ensures_leafSlot_path, tab_of_lt (by omega)]
    simp only [List.getElem?_eq_getElem hidx, getPage, setU, setEntry, ensures_bind, ensures_get, ensures_modify,
      ensures_pure]
    refine Or.inl ⟨trivial, hst.store (by omega) (by omega), fun i hi hlt => ?_, fun t ht => ?_, hbytes⟩
    · dsimp only
      rw [hst.stackEntry_store (by omega) (by omega) (by omega) (by omega)]
      split_ifs with heq
      · have hi' : p - q = i := by omega
        simp only [hi']
      · exact hentry i hi (by omega)
    · dsimp only
      rw [Function.update_of_ne (ht p (by omega) (by omega))]
      exact hoff t ht
  · exact ⟨h, fun i _ hlt => absurd hlt (by omega), fun _ _ => rfl, rfl⟩
  · rintro o s' (⟨-, hI⟩ | ⟨_, _, hf⟩)
    · exact ⟨hI.1, fun i hi => hI.2.1 i hi (by omega), hI.2.2⟩
    · exact hf.elim

theorem StackTables.congr {t t' : Pfn → ℕ → Pte} (h : StackTables t pt E a c)
    (hupper : ∀ p i, a ≤ p → p < c → i < 3 →
      t' (tab pt E (i + 1) (p / 512 ^ (i + 2))) = t (tab pt E (i + 1) (p / 512 ^ (i + 2)))) :
    StackTables t' pt E a c := by
  refine { h with reaches := fun p h₁ h₂ i hi => ?_ }
  rw [hupper p i h₁ h₂ hi]
  exact h.reaches p h₁ h₂ i hi

/-! ### What the program sees -/

/-- The byte at an address of an address space. -/
def userByte (s : Phys) (pt : Pfn) (v : ℕ) : Option UInt8 :=
  (translate s.table pt v).map fun r => s.bytes r.1 (v % pageSize)

/-- The word at an address. -/
def WordAt (s : Phys) (pt : Pfn) (v x : ℕ) : Prop :=
  x < 2 ^ 64 ∧ ∀ j < 8, userByte s pt (v + j) = some (UInt8.ofNat (x / 256 ^ j))

/-- A copy of a string, with the byte that ends it. -/
def StringAt (s : Phys) (pt : Pfn) (v : ℕ) (str : List UInt8) : Prop :=
  (∀ j (hj : j < str.length), userByte s pt (v + j) = some str[j]) ∧ userByte s pt (v + str.length) = some 0

/-- **The arguments** in the address space of a program: the array of the addresses `ptr` of the strings, and the
strings above it, one after the other. -/
structure ArgsAt (s : Phys) (mm : ArgMm) (argv : List (List UInt8)) (ptr : ℕ → ℕ) : Prop where
  argc : mm.argc = argv.length
  pointer : mm.argvAddr = mm.stackPointer
  aligned : mm.argvAddr % 8 = 0
  array : ∀ i < argv.length, WordAt s mm.pt (mm.argvAddr + 8 * i) (ptr i)
  null : WordAt s mm.pt (mm.argvAddr + 8 * argv.length) 0
  strings : ∀ i (hi : i < argv.length), StringAt s mm.pt (ptr i) argv[i]
  above : ∀ i < argv.length, mm.argvAddr + 8 * (argv.length + 1) ≤ ptr i
  apart : ∀ i j (hi : i < argv.length), i < j → j < argv.length → ptr i + (argv[i].length + 1) ≤ ptr j
  below : ∀ i (hi : i < argv.length), ptr i + (argv[i].length + 1) ≤ mm.stack.stop
  inside : mm.stack.stop - argSize argv ≤ mm.argvAddr
  mapped : ∀ v, mm.stack.stop - argSize argv ≤ v → v < mm.stack.stop → ∃ p w, translate s.table mm.pt v = some (p, w)

/-- The bytes of the pages, at the addresses where they are mapped. -/
theorem StackTables.userByte_eq (h : StackTables s.table pt E a c) (hq : a ≤ q) (hc : q + pages.length ≤ c)
    (hcu : c ≤ userPages)
    (hentry : ∀ i (hi : i < pages.length), stackEntry s.table E (q + i) = pageEntry pages[i] flags)
    (hs : Shows s pages b) {x : ℕ} (hx : x < pageSize * pages.length) :
    (∃ p w, translate s.table pt (4096 * q + x) = some (p, w)) ∧ userByte s pt (4096 * q + x) = some (b x) := by
  unfold userPages at hcu
  have hi : x / 4096 < pages.length := Nat.div_lt_of_lt_mul hx
  have hpage : pageDown (4096 * q + x) = q + x / 4096 := by
    unfold pageDown linear pageSize
    omega
  have hmod : (4096 * q + x) % pageSize = x % pageSize := by
    unfold pageSize
    omega
  have hreach := h.reaches (q + x / 4096) (by omega) (by omega)
  have he := hentry _ hi
  unfold stackEntry at he
  rw [← hpage] at hreach he
  obtain ⟨w, hw⟩ := hreach.translate_eq he rfl
  refine ⟨⟨_, w, hw⟩, ?_⟩
  have hbyte := hs x hx
  rw [List.getD_eq_getElem?_getD, pageSize, List.getElem?_eq_getElem hi] at hbyte
  rw [userByte, hw, hmod]
  exact congrArg some hbyte

/-- **From the buffer to the arguments.** -/
theorem argsAt_of_buffer {mm : ArgMm} {base : ℕ} (hstop : mm.stack.stop = base + argSize argv)
    (hlt : mm.stack.stop < 2 ^ 64) (hbase : base % 4096 = 0)
    (hbuf : ∀ x < argSize argv, (∃ p w, translate s.table mm.pt (base + x) = some (p, w)) ∧
      userByte s mm.pt (base + x) = some (layStrings (fun _ => 0) argv
        (argSize argv - argBytes argv - 8 * (argv.length + 1)) (argSize argv - argBytes argv)
        (mm.stack.stop - argBytes argv) x))
    (hargc : mm.argc = argv.length) (hptr : mm.argvAddr = mm.stackPointer)
    (haddr : mm.argvAddr = mm.stack.stop - argBytes argv - (argv.length + 1) * ptrsz) :
    ArgsAt s mm argv fun i => mm.stack.stop - argBytes argv + stringBytes (argv.take i) := by
  obtain ⟨hb, hb8⟩ := argBytes_spec argv
  obtain ⟨hsize, hsize4⟩ := argSize_spec argv
  unfold ptrsz at haddr
  -- an address, and its place in the buffer
  have hbyte : ∀ v x, v = base + x → x < argSize argv → userByte s mm.pt v = some (layStrings (fun _ => 0) argv
      (argSize argv - argBytes argv - 8 * (argv.length + 1)) (argSize argv - argBytes argv)
      (mm.stack.stop - argBytes argv) x) := by
    rintro v x rfl hx
    exact (hbuf x hx).2
  have htake : ∀ i (hi : i < argv.length), stringBytes (argv.take i) + (argv[i].length + 1) ≤ stringBytes argv := by
    intro i hi
    rw [← stringBytes_take_succ hi]
    exact stringBytes_take_le (i + 1)
  set size := argSize argv
  set bytes := argBytes argv
  have hle : size - bytes - 8 * (argv.length + 1) + 8 * argv.length ≤ size - bytes := by omega
  constructor
  case argc => exact hargc
  case pointer => exact hptr
  case aligned => omega
  case array =>
    intro i hi
    have hi' := htake i hi
    refine ⟨by omega, fun j hj => ?_⟩
    rw [hbyte _ (size - bytes - 8 * (argv.length + 1) + 8 * i + j) (by omega) (by omega),
      (layStrings_inside hle hi).1 j hj]
  case null =>
    refine ⟨by omega, fun j hj => ?_⟩
    rw [hbyte _ (size - bytes - 8 * (argv.length + 1) + 8 * argv.length + j) (by omega) (by omega),
      layStrings_outside (by omega) (by omega), Nat.zero_div]
    rfl
  case strings =>
    intro i hi
    have hi' := htake i hi
    obtain ⟨-, hs, hz⟩ := @layStrings_inside (fun _ => 0) argv _ _ (mm.stack.stop - bytes) i hle hi
    refine ⟨fun j hj => ?_, ?_⟩
    · rw [hbyte _ (size - bytes + stringBytes (argv.take i) + j) (by omega) (by omega), hs j hj]
    · rw [hbyte _ (size - bytes + stringBytes (argv.take i) + argv[i].length) (by omega) (by omega), hz]
  case above =>
    intro i hi
    omega
  case apart =>
    intro i j hi hij hj
    have hmono : stringBytes (argv.take (i + 1)) ≤ stringBytes (argv.take j) := stringBytes_take_mono hij
    rw [stringBytes_take_succ hi] at hmono
    omega
  case below =>
    intro i hi
    have hi' := htake i hi
    omega
  case inside => omega
  case mapped =>
    intro v h₁ h₂
    have hv : base + (v - base) = v := by omega
    rw [← hv]
    exact (hbuf (v - base) (by omega)).1

/-! ### The call -/

/-- What `copy_args` finds: a stack whose tables are there, apart from those of the area of `kmap`. -/
structure StackReady (s : Phys) (mm : ArgMm) (E : ℕ → ℕ → Pte) (roots : Set Pfn) (e3 e2 : Pte) (e1 : ℕ → Pte) :
    Prop where
  tables : StackTables s.table mm.pt E (mm.stack.begin / 4096) (mm.stack.stop / 4096)
  begin_aligned : mm.stack.begin % 4096 = 0
  stop_aligned : mm.stack.stop % 4096 = 0
  user : mm.stack.stop ≤ taskSize
  upper : ∀ p i j, mm.stack.begin / 4096 ≤ p → p < mm.stack.stop / 4096 → i < 3 → j < 256 →
    tab mm.pt E (i + 1) (p / 512 ^ (i + 2)) ≠ (e1 j).pfn
  leaf : ∀ p, mm.stack.begin / 4096 ≤ p → p < mm.stack.stop / 4096 →
    (E 0 (p / 512)).pfn ∉ roots ∧ (E 0 (p / 512)).pfn ≠ e3.pfn ∧ (E 0 (p / 512)).pfn ≠ e2.pfn ∧
      ∀ j < 256, (E 0 (p / 512)).pfn ≠ (e1 j).pfn

variable {mm : ArgMm}

theorem StackReady.congr (h : StackReady s mm E roots e3 e2 e1) (hoff : OffArea e1 s s') :
    StackReady s' mm E roots e3 e2 e1 :=
  { h with
    tables := h.tables.congr fun p i h₁ h₂ hi => hoff.table _ fun j hj => h.upper p i j h₁ h₂ hi hj }

theorem StackReady.stackEntry_congr (h : StackReady s mm E roots e3 e2 e1) (hoff : OffArea e1 s s') {p : ℕ}
    (h₁ : mm.stack.begin / 4096 ≤ p) (h₂ : p < mm.stack.stop / 4096) :
    stackEntry s'.table E p = stackEntry s.table E p := by
  unfold stackEntry
  rw [hoff.table _ (h.leaf p h₁ h₂).2.2.2]

/-- **`copy_args`**: when the layout fits in the stack and no allocation fails, it returns 0, and the program finds
its arguments. -/
theorem ensures_copyArgs (h : WindowsOk k roots e3 e2 e1 ws) (hroot : pml4 ∈ roots)
    (hst : StackReady k.phys mm E roots e3 e2 e1) (hfit : argSize argv ≤ mm.stack.stop - mm.stack.begin)
    (hpages : Supplies k.phys pages) (hcount : argSize argv / pageSize = pages.length)
    (hroom : Room k pages.length) :
    Ensures (copyArgs pml4 true mm argv) k fun r k' => r.1 = 0 ∧ r.2.pt = mm.pt ∧ r.2.stack = mm.stack ∧
      WindowsOk k' roots e3 e2 e1 ws ∧ ∃ ptr, ArgsAt k'.phys r.2 argv ptr := by
  obtain ⟨hb, hb8⟩ := argBytes_spec argv
  obtain ⟨hsize, hsize4⟩ := argSize_spec argv
  have hne : pages ≠ [] := by
    rintro rfl
    rw [pageSize, List.length_nil] at hcount
    omega
  have hlen : argSize argv = pageSize * pages.length := by
    rw [← hcount, pageSize]
    omega
  have huser := hst.user
  have hbegin := hst.begin_aligned
  have hstop := hst.stop_aligned
  unfold taskSize at huser
  unfold copyArgs
  dsimp only
  rw [if_neg (by simp), hcount, ensures_bind, ensures_onMemory]
  refine hpages.ensures_allocArgPages.mono ?_
  rintro - s₁ ⟨rfl, ht₁⟩
  dsimp only
  rw [if_neg (by simp), ensures_bind]
  -- the window
  have h₁ : WindowsOk { k with phys := s₁ } roots e3 e2 e1 ws :=
    windowsOk_congr h (kmapTables_congr h.tables (fun _ _ => by rw [ht₁]) (by rw [ht₁]) (by rw [ht₁]))
      fun j _ => by rw [leafEntry, leafEntry, ht₁]
  have hst₁ : StackReady s₁ mm E roots e3 e2 e1 := { hst with tables := ht₁ ▸ hst.tables }
  refine ((h₁.ensures_kmap hroot hne).and_yields ((hroom.withPhys s₁).yields_kmap hne)).mono ?_
  rintro o k₂ ⟨⟨rfl, -⟩ | ⟨buffer, rfl, h₂, hoff₂⟩, hsome⟩
  · exact absurd rfl hsome
  have hst₂ := hst₁.congr hoff₂
  have hm₂ : Maps k₂.phys.table pml4 buffer pages := maps_window h₂ hroot List.mem_cons_self hpages.nodup
  -- the buffer is cleared, and the strings are copied
  have hclear : Ensures (storeBytes pml4 buffer (List.replicate (argSize argv) 0)) k₂.phys fun _ s₃ =>
      s₃.table = k₂.phys.table ∧ Shows s₃ pages fun _ => 0 := by
    have hshow : Shows k₂.phys pages fun x => k₂.phys.bytes (pages.getD (x / pageSize) 0) (x % pageSize) :=
      fun _ _ => rfl
    have hstore := hm₂.ensures_storeBytes (o := 0) (l := List.replicate (argSize argv) 0) hshow
      (by rw [List.length_replicate]; omega)
    refine hstore.mono fun _ s₃ hr => ⟨hr.1, fun x hx => ?_⟩
    have hin := Buf.store_inside (b := fun x => k₂.phys.bytes (pages.getD (x / pageSize) 0) (x % pageSize))
      (o := 0) (l := List.replicate (argSize argv) 0) (j := x) (by rw [List.length_replicate]; omega)
    rw [Nat.zero_add, List.getElem_replicate] at hin
    exact (hr.2 x hx).trans hin
  dsimp only
  rw [ensures_bind, ensures_onMemory]
  refine hclear.mono fun _ s₃ hr => ?_
  obtain ⟨ht₃, hs₃⟩ := hr
  have hm₃ : Maps s₃.table pml4 buffer pages := ht₃ ▸ hm₂
  have harray : buffer + (argSize argv - argBytes argv) - (argv.length + 1) * ptrsz =
      buffer + (argSize argv - argBytes argv - 8 * (argv.length + 1)) := by
    unfold ptrsz
    omega
  rw [harray, ensures_bind, ensures_onMemory]
  refine (hm₃.ensures_copyStrings hs₃ (by omega) (by omega)).mono fun _ s₄ hr => ?_
  obtain ⟨ht₄, hs₄⟩ := hr
  have hst₄ : StackReady s₄ mm E roots e3 e2 e1 := by
    have ht : s₄.table = k₂.phys.table := ht₄.trans ht₃
    exact { hst₂ with tables := ht ▸ hst₂.tables }
  -- the pages are mapped below the end of the stack
  have hq : mm.stack.stop - argSize argv = 4096 * ((mm.stack.stop - argSize argv) / 4096) := by omega
  set q := (mm.stack.stop - argSize argv) / 4096 with hq_def
  rw [hq, ensures_bind, ensures_onMemory]
  unfold pageSize at hlen
  refine (hst₄.tables.ensures_mmapPages (q := q) (by omega) hne (by omega) (by unfold userPages; omega)
    (Nat.lt_succ_self _)).mono fun _ s₅ hr => ?_
  obtain ⟨htables₅, hentry₅, hoff₅, hbytes₅⟩ := hr
  have hst₅ : StackReady s₅ mm E roots e3 e2 e1 := { hst₄ with tables := htables₅ }
  have ht : ∀ t, (∀ p, mm.stack.begin / 4096 ≤ p → p < mm.stack.stop / 4096 → t ≠ (E 0 (p / 512)).pfn) →
      s₅.table t = k₂.phys.table t := by
    intro t hout
    rw [hoff₅ t hout, ht₄, ht₃]
  have h₅ : WindowsOk { k₂ with phys := s₅ } roots e3 e2 e1 (⟨buffer, pages⟩ :: ws) := by
    refine windowsOk_congr h₂ (kmapTables_congr h₂.tables (fun root hr => ht _ fun p h₁ h₂ hc => ?_)
      (ht _ fun p h₁ h₂ => (hst₅.leaf p h₁ h₂).2.1.symm) (ht _ fun p h₁ h₂ => (hst₅.leaf p h₁ h₂).2.2.1.symm))
      fun j hj => ?_
    · exact (hst₅.leaf p h₁ h₂).1 (hc ▸ hr)
    · rw [kmapPages_eq] at hj
      rw [leafEntry, leafEntry, ht _ fun p h₁ h₂ => ((hst₅.leaf p h₁ h₂).2.2.2 (j / 512) (by omega)).symm]
  -- the window is closed, which leaves the stack alone
  rw [ensures_bind]
  refine (h₅.ensures_kunmap hroot List.mem_cons_self).mono fun _ k' hr => ?_
  obtain ⟨h', hoff'⟩ := hr
  rw [List.erase_cons_head] at h'
  refine ensures_pure.2 ⟨rfl, rfl, rfl, h', fun i => mm.stack.stop - argBytes argv + stringBytes (argv.take i), ?_⟩
  have hst' := hst₅.congr hoff'
  have hshows : Shows k'.phys pages (layStrings (fun _ => 0) argv
      (argSize argv - argBytes argv - 8 * (argv.length + 1)) (argSize argv - argBytes argv)
      (mm.stack.stop - argBytes argv)) := by
    intro x hx
    rw [hoff'.bytes, hbytes₅]
    exact hs₄ x hx
  have hentry : ∀ i (hi : i < pages.length),
      stackEntry k'.phys.table E (q + i) = pageEntry pages[i] ⟨true, true, false, false⟩ := by
    intro i hi
    rw [hst₅.stackEntry_congr hoff' (by omega) (by omega)]
    exact hentry₅ i hi
  refine argsAt_of_buffer (show mm.stack.stop = 4096 * q + argSize argv by omega) (by dsimp only; omega)
    (by omega) (fun x hx => ?_) rfl rfl rfl
  exact hst'.tables.userByte_eq (by omega) (by omega) (by unfold userPages; omega) hentry hshows
    (by unfold pageSize; omega)

/-! ### Two strings -/

/-- The kernel on the pages 1 to 3 with the tables of its area from page 16 on, and an address space on the pages 8 to
11 whose stack is at the end. -/
def twoSpaces : Kmap where
  pages j := if j = 0 ∨ j = kmapPages - 1 then kmapPages else 0
  empty _ := false
  free order := if order = kmapOrder kmapPages then [0] else []
  phys :=
    { u := fun _ => 0#64
      table := fun t i =>
        if (t = 1 ∨ t = 8) ∧ i = 511 then pageEntry 2 kmapFlags
        else if t = 2 ∧ i = 511 then pageEntry 3 kmapFlags
        else if t = 3 ∧ 256 ≤ i then pageEntry (16 + (i - 256)) kmapFlags
        else if t = 8 ∧ i = 255 then pageEntry 9 ptePtFlags
        else if (t = 9 ∨ t = 10) ∧ i = 511 then pageEntry (t + 1) ptePtFlags
        else .zero
      bytes := fun _ _ => 7
      free := fun p => decide (1000 ≤ p)
      supply := fun n => some (1000 + n, 0#64) }

/-- The entries on the way to the stack. -/
def stackWay (k : ℕ) (_ : ℕ) : Pte := pageEntry (11 - k) ptePtFlags

/-- The address space, with a stack of 2 MiB. -/
def newMm : ArgMm := ⟨8, ⟨2 ^ 47 - 2 ^ 21, 2 ^ 47, 1, 0⟩, 0, 0, 0⟩

theorem rangesOk_twoSpaces : RangesOk twoSpaces [⟨0, kmapPages, true⟩] := by
  refine ⟨⟨rfl, by decide, rfl⟩, fun g hg => ?_, ⟨fun order => ?_, fun order r => ?_⟩⟩
  · rw [List.mem_singleton] at hg
    subst hg
    decide
  · unfold twoSpaces
    dsimp only
    split_ifs
    · exact List.nodup_singleton 0
    · exact List.nodup_nil
  · unfold twoSpaces
    dsimp only
    split_ifs with horder
    · simp only [List.mem_singleton, exists_eq_left, horder, and_true]
      exact eq_comm
    · simp only [List.not_mem_nil, List.mem_singleton, exists_eq_left, false_iff]
      exact fun hc => horder hc.2.2.symm

theorem kmapTables_twoSpaces : KmapTables twoSpaces.phys {1, 8} (pageEntry 2 kmapFlags) (pageEntry 3 kmapFlags)
    fun j => pageEntry (16 + j) kmapFlags where
  top := by
    rintro root (rfl | rfl)
    · rfl
    · rfl
  pml3 := rfl
  pml2 := by
    intro j hj
    change twoSpaces.phys.table 3 (256 + j) = pageEntry (16 + j) kmapFlags
    simp [twoSpaces]
  linked3 := ⟨rfl, rfl, rfl⟩
  linked2 := ⟨rfl, rfl, rfl⟩
  linked1 := fun _ _ => ⟨rfl, rfl, rfl⟩
  inj := fun j j' _ _ heq => Nat.add_left_cancel heq
  apart := by
    intro j hj
    have hne : ∀ n : ℕ, n < 16 → 16 + j ≠ n := fun n hn => by omega
    refine ⟨?_, hne 2 (by omega), hne 3 (by omega)⟩
    rintro (hc | hc)
    · exact hne 1 (by omega) hc
    · exact hne 8 (by omega) hc

theorem windowsOk_twoSpaces : WindowsOk twoSpaces {1, 8} (pageEntry 2 kmapFlags) (pageEntry 3 kmapFlags)
    (fun j => pageEntry (16 + j) kmapFlags) [] := by
  refine ⟨kmapTables_twoSpaces, ⟨_, rangesOk_twoSpaces, fun g hg => ⟨fun hmem => ?_, fun ⟨w, hw, _⟩ => (nomatch hw)⟩⟩,
    fun w hw => (nomatch hw), List.nodup_nil, fun w hw => (nomatch hw), fun j hj _ => ?_⟩
  · rw [List.mem_singleton] at hmem
    subst hmem
    exact nomatch hg
  · have hne : ∀ n : ℕ, n < 16 → 16 + j / 512 ≠ n := fun n hn => by omega
    change twoSpaces.phys.table (16 + j / 512) (j % 512) = .zero
    simp [twoSpaces, hne]

theorem room_twoSpaces : Room twoSpaces 1 :=
  ⟨_, rangesOk_twoSpaces, ⟨0, kmapPages, true⟩, List.mem_singleton_self _, rfl, by decide⟩

theorem stackReady_twoSpaces : StackReady twoSpaces.phys newMm stackWay {1, 8} (pageEntry 2 kmapFlags)
    (pageEntry 3 kmapFlags) fun j => pageEntry (16 + j) kmapFlags := by
  have hbegin : newMm.stack.begin / 4096 = 2 ^ 35 - 512 := by decide
  have hstop : newMm.stack.stop / 4096 = 2 ^ 35 := by decide
  have hdigit : ∀ p, 2 ^ 35 - 512 ≤ p → p < 2 ^ 35 →
      digit p 3 = 255 ∧ digit p 2 = 511 ∧ digit p 1 = 511 ∧ p / 512 = 2 ^ 26 - 1 := by
    intro p h₁ h₂
    unfold digit
    norm_num
    omega
  have htab : ∀ i g, i < 3 → tab newMm.pt stackWay (i + 1) g = 10 - i := by
    intro i g hi
    interval_cases i
    · rfl
    · rfl
    · rfl
  refine ⟨⟨fun p h₁ h₂ i hi => ?_, fun p q hp₁ hp₂ hq₁ hq₂ _ => ?_, fun p q i _ _ _ _ hi => ?_⟩, by decide, by decide,
    by decide, fun p i j _ _ hi hj => ?_, fun p _ _ => ?_⟩
  · rw [hbegin] at h₁
    rw [hstop] at h₂
    obtain ⟨h3, h2, h1, -⟩ := hdigit p h₁ h₂
    rw [htab i _ hi]
    interval_cases i
    · rw [h1]
      exact ⟨rfl, rfl, rfl⟩
    · rw [h2]
      exact ⟨rfl, rfl, rfl⟩
    · rw [h3]
      exact ⟨rfl, rfl, rfl⟩
  · rw [hbegin] at hp₁ hq₁
    rw [hstop] at hp₂ hq₂
    rw [(hdigit p hp₁ hp₂).2.2.2, (hdigit q hq₁ hq₂).2.2.2]
  · rw [htab i _ hi]
    exact show (11 : ℕ) ≠ 10 - i by omega
  · rw [htab i _ hi]
    exact show (10 - i : ℕ) ≠ 16 + j by omega
  · refine ⟨?_, show (11 : ℕ) ≠ 2 by decide, show (11 : ℕ) ≠ 3 by decide, fun j _ => ?_⟩
    · rintro (hc | hc)
      · exact absurd hc (show (11 : ℕ) ≠ 1 by decide)
      · exact absurd hc (show (11 : ℕ) ≠ 8 by decide)
    · exact show (11 : ℕ) ≠ 16 + j by omega

theorem supplies_twoSpaces : Supplies twoSpaces.phys [1000] where
  nodup := List.nodup_singleton _
  free := by decide
  supply := by
    intro i hi
    obtain rfl : i = 0 := by simpa using hi
    exact ⟨_, rfl⟩

/-- The arguments `a` and `bc`. -/
theorem ensures_copyArgs_two : Ensures (copyArgs 1 true newMm [[97], [98, 99]]) twoSpaces fun r k' =>
    r.1 = 0 ∧ ∃ ptr, ArgsAt k'.phys r.2 [[97], [98, 99]] ptr :=
  (ensures_copyArgs windowsOk_twoSpaces (Set.mem_insert 1 {8}) stackReady_twoSpaces (by decide) supplies_twoSpaces
    (by decide) room_twoSpaces).mono fun _ _ h => ⟨h.1, h.2.2.2.2⟩


end

end Exec

end Kernel64
