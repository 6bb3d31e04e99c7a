import Kernel64.Ramfs.Files
import Mathlib.Data.List.Nodup
import Mathlib.Data.List.Perm.Subperm
import Mathlib.Data.List.Pairwise

/-!
# Files are sparse arrays of bytes

The writes to a file, the last one first, say what the file should hold: `lastWritten` is the byte
written last at a position, and `maxEnd` the largest end of a write. `FilesOk` says that the pages of
each file hold these bytes, and every call keeps it.
-/

namespace Kernel64

namespace Ramfs

open Rb ColorTree

/-! ### What was written -/

/-- The writes to a file, each with its position, the last one first. -/
abbrev Writes : Type := List (ℕ × List UInt8)

/-- The byte written last at a position, zero when there is none. -/
def lastWritten : Writes → ℕ → UInt8
  | [], _ => 0
  | (o, l) :: w, x => if o ≤ x ∧ x < o + l.length then l.getD (x - o) 0 else lastWritten w x

/-- The largest end of a write. -/
def maxEnd : Writes → ℕ
  | [] => 0
  | (o, l) :: w => max (o + l.length) (maxEnd w)

/-! ### Rules -/

section

variable {α : Type} {s s' : Files} {f h n index fuel : ℕ} {p : Ptr} {t : ColorTree Ptr}

theorem ensures_onPages {c : RbM α} {Q : α → Files → Prop} :
    Ensures (onPages f c) s Q ↔
      Ensures c (s.node f).pages fun a b => Q a (s.setNode f { s.node f with pages := b }) := by
  unfold Ensures onPages
  cases hc : c (s.node f).pages with
  | error e => simp
  | ok r =>
    obtain ⟨a, b⟩ := r
    simp

theorem setNode_self (s : Files) (f : ℕ) : s.setNode f (s.node f) = s := by
  rw [Files.setNode, Function.update_eq_self]

theorem setNode_node_self {nd : FileNode} : (s.setNode f nd).node f = nd := Function.update_self _ _ _

theorem setNode_node_of_ne {nd : FileNode} {f' : ℕ} (hne : f' ≠ f) :
    (s.setNode f nd).node f' = s.node f' := Function.update_of_ne hne _ _

/-! ### The invariant -/

/-- The number of pages of the largest file. -/
def maxPages : ℕ := 2 ^ 19

/-- The largest offset. -/
def maxOffset : ℕ := 2 ^ 31 - 1

/-- The pages of a file are in the tree `t`, in the order of their indices. -/
structure NodeOk (nd : FileNode) (t : ColorTree Ptr) : Prop where
  repr : Represents nd.pages t
  balanced : t.RedBlack
  sorted : t.inorder.Pairwise fun a b => nd.index a < nd.index b
  bound : ∀ p ∈ t.inorder, nd.index p < maxPages

/-- **Files that hold what was written to them**, for the writes `W`. -/
structure FilesOk (s : Files) (T : ℕ → ColorTree Ptr) (W : ℕ → Writes) : Prop where
  node : ∀ f, NodeOk (s.node f) (T f)
  used : ∀ f, ∀ p ∈ (T f).inorder, s.rpageUsed p = true ∧ s.pageUsed ((s.node f).page p) = true
  apart : ∀ f f' p p', p ∈ (T f).inorder → p' ∈ (T f').inorder →
    (s.node f).page p = (s.node f').page p' → f = f' ∧ p = p'
  data : ∀ f, ∀ p ∈ (T f).inorder, ∀ o < pageSize,
    s.bytes ((s.node f).page p) o = lastWritten (W f) (pageSize * (s.node f).index p + o)
  hole : ∀ f x, (∀ p ∈ (T f).inorder, (s.node f).index p ≠ x / pageSize) → lastWritten (W f) x = 0
  size : ∀ f, (s.node f).size = maxEnd (W f)
  size_le : ∀ f, maxEnd (W f) ≤ maxOffset
  offset : ∀ h, 0 ≤ (s.file h).offset ∧ (s.file h).offset ≤ maxOffset

theorem toPage_eq_none {nd : FileNode} : toPage nd index p = none ↔ nd.index p = index := by
  rw [toPage]
  split_ifs <;> simp_all

theorem toPage_eq_right {nd : FileNode} : toPage nd index p = some .right ↔ nd.index p < index := by
  rw [toPage]
  split_ifs <;> simp <;> omega

theorem toPage_eq_left {nd : FileNode} : toPage nd index p = some .left ↔ index < nd.index p := by
  rw [toPage]
  split_ifs <;> simp <;> omega

namespace NodeOk

variable {nd : FileNode}

theorem index_inj (h : NodeOk nd t) {p p' : Ptr} (hp : p ∈ t.inorder) (hp' : p' ∈ t.inorder)
    (heq : nd.index p = nd.index p') : p = p' := by
  by_contra hne
  have hsymm : Std.Symm fun x y => nd.index x ≠ nd.index y := ⟨fun _ _ hxy => Ne.symm hxy⟩
  have hall : t.inorder.Pairwise fun x y => nd.index x ≠ nd.index y := h.sorted.imp fun hxy => hxy.ne
  exact hall.forall hp hp' hne heq

theorem length_le (h : NodeOk nd t) : t.inorder.length ≤ maxPages := by
  have hinj : (t.inorder.map nd.index).Nodup :=
    (List.nodup_map_iff_inj_on h.repr.nodup).2 fun p hp p' hp' heq => h.index_inj hp hp' heq
  have hsub : t.inorder.map nd.index ⊆ List.range maxPages := by
    intro q hq
    obtain ⟨p, hp, rfl⟩ := List.mem_map.1 hq
    exact List.mem_range.2 (h.bound p hp)
  have := (hinj.subperm hsub).length_le
  rwa [List.length_map, List.length_range] at this

end NodeOk

/-- **Looking up a page** finds it, or the place where it belongs. -/
theorem ensures_lookupPage (hrepr : Represents (s.node f).pages t)
    (hsorted : t.inorder.Pairwise fun a b => (s.node f).index a < (s.node f).index b) (hfuel : t.inorder.length < fuel)
    (index : ℕ) :
    Ensures (ramfsLookupPage fuel f index) s fun r s' => s' = s ∧
      ((∃ p ∈ t.inorder, r = .hit p ∧ (s.node f).index p = index) ∨
        ∃ path, t = plug path .nil ∧ r = .missing (topPtr path) (slotOf path) ∧
          (∀ a ∈ TreePath.before path, (s.node f).index a < index) ∧
          ∀ a ∈ TreePath.after path, index < (s.node f).index a) := by
  have hguided : Guided (toPage (s.node f) index) t.inorder := by
    refine hsorted.imp fun {a b} hab => ?_
    rw [toPage_eq_right, toPage_eq_right, toPage_eq_left, toPage_eq_left]
    constructor <;> omega
  rw [ramfsLookupPage]
  simp only [ensures_bind, ensures_get, ensures_onPages]
  refine (ensures_searchTree hrepr hfuel hguided).mono ?_
  rintro r b ⟨rfl, hr⟩
  refine ⟨setNode_self s f, ?_⟩
  rcases hr with ⟨p, rfl, hp, hgo⟩ | ⟨path, ht, rfl, hb, ha⟩
  · exact Or.inl ⟨p, hp, rfl, toPage_eq_none.1 hgo⟩
  · exact Or.inr ⟨path, ht, rfl, fun a hmem => toPage_eq_right.1 (hb a hmem),
      fun a hmem => toPage_eq_left.1 (ha a hmem)⟩

theorem NodeOk.ensures_ramfsLookupPage (h : NodeOk (s.node f) t) (hfuel : maxPages < fuel)
    (index : ℕ) :
    Ensures (ramfsLookupPage fuel f index) s fun r s' => s' = s ∧
      ((∃ p ∈ t.inorder, r = .hit p ∧ (s.node f).index p = index) ∨
        ∃ path, t = plug path .nil ∧ r = .missing (topPtr path) (slotOf path) ∧
          (∀ a ∈ TreePath.before path, (s.node f).index a < index) ∧
          ∀ a ∈ TreePath.after path, index < (s.node f).index a) :=
  ensures_lookupPage h.repr h.sorted (lt_of_le_of_lt h.length_le hfuel) index

/-- A page that is linked where it belongs leaves the pages in order. -/
theorem sorted_insert {key : Ptr → ℕ} {l₁ l₂ : List Ptr} (hsorted : (l₁ ++ l₂).Pairwise fun a b => key a < key b)
    (hp : p ∉ l₁ ++ l₂) (hbefore : ∀ a ∈ l₁, key a < index) (hafter : ∀ a ∈ l₂, index < key a) :
    (l₁ ++ p :: l₂).Pairwise fun a b => Function.update key p index a < Function.update key p index b := by
  have hold : ∀ a ∈ l₁ ++ l₂, Function.update key p index a = key a := by
    intro a ha
    refine Function.update_of_ne ?_ _ _
    rintro rfl
    exact hp ha
  have hb := fun a ha => hold a (List.mem_append_left l₂ ha)
  have ha := fun a ha => hold a (List.mem_append_right l₁ ha)
  rw [List.pairwise_append] at hsorted
  obtain ⟨h₁, h₂, h₃⟩ := hsorted
  rw [List.pairwise_append, List.pairwise_cons]
  refine ⟨h₁.imp_of_mem fun {x y} hx hy hxy => ?_, ⟨fun x hx => ?_, h₂.imp_of_mem fun {x y} hx hy hxy => ?_⟩,
    fun x hx y hy => ?_⟩
  · rwa [hb x hx, hb y hy]
  · rw [Function.update_self, ha x hx]
    exact hafter x hx
  · rwa [ha x hx, ha y hy]
  · rcases List.mem_cons.1 hy with rfl | hy
    · rw [Function.update_self, hb x hx]
      exact hbefore x hx
    · rw [hb x hx, ha y hy]
      exact h₃ x hx y hy

/-! ### Offsets -/

theorem toInt_eq {x : ℤ} (h₀ : 0 ≤ x) (h₁ : x ≤ maxOffset) : toInt x = x := by
  unfold maxOffset at h₁
  rw [toInt, Int.bmod_eq_of_le (by omega) (by omega)]

/-- The page and the place of an offset. -/
theorem page_of_offset {x : ℤ} (h₀ : 0 ≤ x) (h₁ : x ≤ maxOffset) :
    x.toNat = pageSize * pageIndex x + pageOffset x ∧ pageOffset x < pageSize ∧
      pageIndex x < maxPages := by
  unfold maxOffset at h₁
  rw [pageIndex, pageOffset, pageSize, maxPages]
  omega

/-! ### Storing bytes -/

theorem lastWritten_cons_inside {w : Writes} {x j : ℕ} {l : List UInt8} (hj : j < l.length) :
    lastWritten ((x, l) :: w) (x + j) = l[j] := by
  rw [lastWritten, if_pos (by omega), Nat.add_sub_cancel_left, List.getD_eq_getElem?_getD,
    List.getElem?_eq_getElem hj, Option.getD_some]

theorem lastWritten_cons_outside {w : Writes} {x y : ℕ} {l : List UInt8}
    (hy : y < x ∨ x + l.length ≤ y) : lastWritten ((x, l) :: w) y = lastWritten w y := by
  rw [lastWritten, if_neg (by omega)]

/-- A position of another page. -/
theorem outside_of_page {i j off o n : ℕ} (hij : i ≠ j) (hoff : off + n ≤ pageSize) (ho : o < pageSize) :
    pageSize * j + o < pageSize * i + off ∨ pageSize * i + off + n ≤ pageSize * j + o := by
  unfold pageSize at *
  omega

/-- A page holds what is stored in it, and what it held elsewhere. -/
theorem store_lastWritten {b : Buf} {w : Writes} {i off : ℕ} {l : List UInt8}
    (hb : ∀ o < pageSize, b o = lastWritten w (pageSize * i + o)) {o : ℕ} (ho : o < pageSize) :
    b.store off l o = lastWritten ((pageSize * i + off, l) :: w) (pageSize * i + o) := by
  by_cases hin : off ≤ o ∧ o < off + l.length
  · obtain ⟨j, rfl⟩ := Nat.exists_eq_add_of_le hin.1
    have hj : j < l.length := by omega
    rw [Buf.store_inside hj, ← Nat.add_assoc, lastWritten_cons_inside hj]
  · rw [Buf.store_outside (by omega), lastWritten_cons_outside (by omega), hb o ho]

variable {T : ℕ → ColorTree Ptr} {W : ℕ → Writes}

/-- **Storing bytes** in a page of the file writes them at the offset of the handle. -/
theorem FilesOk.ensures_storeBytes {data : List UInt8} {off : ℕ} (hok : FilesOk s T W)
    (hp : p ∈ (T f).inorder) (hx : (s.file h).offset = (pageSize * (s.node f).index p + off : ℕ))
    (hoff : off + data.length ≤ pageSize)
    (hmax : (s.file h).offset + data.length ≤ maxOffset) :
    Ensures (storeBytes h f p off data) s fun n s' => n = data.length ∧
      FilesOk s' T (Function.update W f (((s.file h).offset.toNat, data) :: W f)) ∧
      s'.file = Function.update s.file h ⟨f, (s.file h).offset + data.length⟩ := by
  set x := pageSize * (s.node f).index p + off with hxdef
  have hend : toInt ((s.file h).offset + data.length) = (s.file h).offset + data.length :=
    toInt_eq (by omega) hmax
  rw [storeBytes]
  simp only [ensures_bind, ensures_modify, ensures_pure, hend]
  refine ⟨trivial, ?_, trivial⟩
  have hxnat : (s.file h).offset.toNat = x := by omega
  rw [hxnat]
  -- only the size of the file changes, to the largest end of what was written
  have hnode : ∀ f', ∃ sz : ℤ, (s.setNode f { s.node f with
      size := max ((s.file h).offset + data.length) (s.node f).size }).node f'
        = { s.node f' with size := sz } ∧ sz = maxEnd (Function.update W f ((x, data) :: W f) f') := by
    intro f'
    by_cases hf : f' = f
    · subst hf
      refine ⟨_, setNode_node_self, ?_⟩
      rw [Function.update_self, maxEnd, hok.size f', hx]
      omega
    · refine ⟨(s.node f').size, setNode_node_of_ne hf, ?_⟩
      rw [Function.update_of_ne hf, hok.size f']
  refine ⟨fun f' => ?_, fun f' p' hp' => ?_, fun f₁ f₂ p₁ p₂ h₁ h₂ heq => ?_, fun f' p' hp' o ho => ?_,
    fun f' y hy => ?_, fun f' => ?_, fun f' => ?_, fun h' => ?_⟩
  · obtain ⟨sz, hsz, -⟩ := hnode f'
    simp only [hsz]
    exact ⟨(hok.node f').repr, (hok.node f').balanced, (hok.node f').sorted, (hok.node f').bound⟩
  · obtain ⟨sz, hsz, -⟩ := hnode f'
    simp only [hsz]
    exact hok.used f' p' hp'
  · obtain ⟨sz₁, hsz₁, -⟩ := hnode f₁
    obtain ⟨sz₂, hsz₂, -⟩ := hnode f₂
    simp only [hsz₁, hsz₂] at heq
    exact hok.apart f₁ f₂ p₁ p₂ h₁ h₂ heq
  · obtain ⟨sz, hsz, -⟩ := hnode f'
    simp only [hsz]
    -- a byte of this page is new, and those of other pages are none of the bytes that were written
    by_cases hsame : f' = f ∧ p' = p
    · obtain ⟨rfl, rfl⟩ := hsame
      rw [Function.update_self, Function.update_self]
      exact store_lastWritten (hok.data f' p' hp') ho
    · have hpage : (s.node f').page p' ≠ (s.node f).page p := fun hc =>
        hsame (hok.apart f' f p' p hp' hp hc)
      rw [Function.update_of_ne hpage, hok.data f' p' hp' o ho]
      by_cases hf : f' = f
      · subst hf
        have hidx : (s.node f').index p ≠ (s.node f').index p' := fun hc =>
          hsame ⟨rfl, (hok.node f').index_inj hp' hp hc.symm⟩
        rw [Function.update_self, lastWritten_cons_outside (outside_of_page hidx hoff ho)]
      · rw [Function.update_of_ne hf]
  · have hy' : ∀ p' ∈ (T f').inorder, (s.node f').index p' ≠ y / pageSize := by
      obtain ⟨sz, hsz, -⟩ := hnode f'
      simpa only [hsz] using hy
    by_cases hf : f' = f
    · subst hf
      have hidx := hy' p hp
      have hmod : y = pageSize * (y / pageSize) + y % pageSize := (Nat.div_add_mod _ _).symm
      have hlt : y % pageSize < pageSize := Nat.mod_lt _ (by decide)
      rw [Function.update_self, lastWritten_cons_outside, hok.hole f' y hy']
      rw [hmod]
      exact outside_of_page hidx hoff hlt
    · rw [Function.update_of_ne hf]
      exact hok.hole f' y hy'
  · obtain ⟨sz, hsz, hend⟩ := hnode f'
    simp only [hsz]
    exact hend
  · by_cases hf : f' = f
    · subst hf
      have hle := hok.size_le f'
      rw [Function.update_self, maxEnd]
      omega
    · rw [Function.update_of_ne hf]
      exact hok.size_le f'
  · by_cases hh : h' = h
    · subst hh
      simp only [Function.update_self]
      omega
    · simp only [Function.update_of_ne hh]
      exact hok.offset h'

/-! ### New pages -/

/-- The files with a new page for the file `f`, not yet in its tree. -/
def Files.newPage (s : Files) (f : ℕ) (p : Ptr) (b index : ℕ) : Files :=
  { s.setNode f { s.node f with
      page := Function.update (s.node f).page p b
      index := Function.update (s.node f).index p index } with
    bytes := Function.update s.bytes b fun _ => 0
    rpageUsed := Function.update s.rpageUsed p true
    pageUsed := Function.update s.pageUsed b true }

/-- The files are as they were; only the allocators moved on. -/
structure SameFiles (s s' : Files) : Prop where
  node : s'.node = s.node
  file : s'.file = s.file
  bytes : s'.bytes = s.bytes
  rpageUsed : s'.rpageUsed = s.rpageUsed
  pageUsed : s'.pageUsed = s.pageUsed

theorem FilesOk.of_sameFiles (hok : FilesOk s T W) (hs : SameFiles s s') : FilesOk s' T W := by
  obtain ⟨hn, hf, hb, hr, hp⟩ := hs
  refine ⟨?_, ?_, ?_, ?_, ?_, ?_, hok.size_le, ?_⟩
  · simpa only [hn] using hok.node
  · simpa only [hn, hr, hp] using hok.used
  · simpa only [hn] using hok.apart
  · simpa only [hn, hb] using hok.data
  · simpa only [hn] using hok.hole
  · simpa only [hn] using hok.size
  · simpa only [hf] using hok.offset

/-- **Allocating a page** gives a zeroed one that was not in use, or changes nothing. -/
theorem ensures_ramfsAllocPage :
    Ensures (ramfsAllocPage f index) s fun r s' =>
      (r = none ∧ SameFiles s s') ∨ ∃ p b s₁, r = some p ∧ NodeAddr p ∧ s.rpageUsed p = false ∧
        s.pageUsed b = false ∧ SameFiles s s₁ ∧ s' = s₁.newPage f p b index := by
  rw [ramfsAllocPage, ensures_bind, allocRpage, noMemory]
  simp only [ensures_bind, ensures_get, ensures_set]
  cases hr : s.rpageSupply 0 with
  | none =>
    simp only [ensures_bind, ensures_modify, ensures_pure]
    exact Or.inl ⟨trivial, ⟨rfl, rfl, rfl, rfl, rfl⟩⟩
  | some p =>
    simp only [ensures_ite, ensures_bind, ensures_modify, ensures_pure]
    refine ⟨fun hfree => ?_, fun _ => Or.inl ⟨trivial, ⟨rfl, rfl, rfl, rfl, rfl⟩⟩⟩
    obtain ⟨h₀, h₁, hused⟩ := hfree
    have hback : Function.update (Function.update s.rpageUsed p true) p false = s.rpageUsed := by
      rw [Function.update_idem, ← hused, Function.update_eq_self]
    rw [allocPage, noMemory]
    simp only [ensures_bind, ensures_get, ensures_set]
    cases hb : s.pageSupply 0 with
    | none =>
      simp only [ensures_bind, ensures_modify, ensures_pure]
      exact Or.inl ⟨trivial, ⟨rfl, rfl, rfl, hback, rfl⟩⟩
    | some b =>
      simp only [ensures_ite, ensures_bind, ensures_modify, ensures_pure]
      refine ⟨fun hbfree => ?_, fun _ => Or.inl ⟨trivial, ⟨rfl, rfl, rfl, hback, rfl⟩⟩⟩
      exact Or.inr ⟨p, b, { s with rpageSupply := fun n => s.rpageSupply (n + 1)
                                   pageSupply := fun n => s.pageSupply (n + 1) },
        rfl, ⟨h₀, h₁⟩, hused, hbfree, ⟨rfl, rfl, rfl, rfl, rfl⟩, rfl⟩

/-- **Linking a new page** adds it to the tree of the file, which still holds what was written. -/
theorem FilesOk.ensures_linkPage {path : TreePath Ptr} {b : ℕ} (hok : FilesOk s T W)
    (hpath : T f = plug path .nil) (hp : NodeAddr p) (hpfree : s.rpageUsed p = false)
    (hbfree : s.pageUsed b = false) (hidx : index < maxPages)
    (hbefore : ∀ a ∈ TreePath.before path, (s.node f).index a < index)
    (hafter : ∀ a ∈ TreePath.after path, index < (s.node f).index a) (hfuel : maxPages < fuel) :
    Ensures (onPages f (do rbLink p (topPtr path) (slotOf path); rbInsert fuel p))
      (s.newPage f p b index) fun _ s' => ∃ t, p ∈ t.inorder ∧ (s'.node f).index p = index ∧
        FilesOk s' (Function.update T f t) W ∧ s'.file = s.file := by
  have hfresh : ∀ f', p ∉ (T f').inorder := fun f' hc =>
    Bool.false_ne_true (hpfree.symm.trans (hok.used f' p hc).1)
  have hunused : ∀ f', ∀ p' ∈ (T f').inorder, (s.node f').page p' ≠ b := fun f' p' hp' hc =>
    Bool.false_ne_true (hbfree.symm.trans (hc ▸ (hok.used f' p' hp').2))
  have hold : (T f).inorder = TreePath.before path ++ TreePath.after path := by
    rw [hpath, inorder_plug, inorder_nil, List.append_nil]
  rw [ensures_onPages]
  have hnode : (s.newPage f p b index).node f = { s.node f with
      page := Function.update (s.node f).page p b
      index := Function.update (s.node f).index p index } := setNode_node_self
  rw [hnode]
  have hfree : p ∉ (plug path .nil).inorder := hpath ▸ hfresh f
  refine (ensures_rbLink_rbInsert (hpath ▸ (hok.node f).repr) (hpath ▸ (hok.node f).balanced) hp hfree
    (lt_of_le_of_lt (hpath ▸ (hok.node f).length_le) hfuel)).mono ?_
  rintro - r ⟨t, hrepr, hbal, hin, -⟩
  have hmem : ∀ a, a ∈ t.inorder ↔ a = p ∨ a ∈ (T f).inorder := fun a => by
    rw [hin, hold]
    simp only [List.mem_append, List.mem_cons]
    tauto
  have hpt : p ∈ t.inorder := (hmem p).2 (Or.inl rfl)
  set s' := (s.newPage f p b index).setNode f { s.node f with
    pages := r
    page := Function.update (s.node f).page p b
    index := Function.update (s.node f).index p index } with hs'
  -- what each page of the new trees is: the new one, or an old one
  have hself : s'.node f = { s.node f with
      pages := r
      page := Function.update (s.node f).page p b
      index := Function.update (s.node f).index p index } := setNode_node_self
  have hother : ∀ f' ≠ f, s'.node f' = s.node f' := fun f' hf =>
    (setNode_node_of_ne hf).trans (setNode_node_of_ne hf)
  have hne : ∀ f', ∀ a ∈ (T f').inorder, a ≠ p := fun f' a ha hc => hfresh f' (hc ▸ ha)
  have hpage : ∀ f', ∀ a ∈ (T f').inorder, (s'.node f').page a = (s.node f').page a ∧
      (s'.node f').index a = (s.node f').index a := by
    intro f' a ha
    by_cases hf : f' = f
    · subst hf
      rw [hself]
      exact ⟨Function.update_of_ne (hne f' a ha) _ _, Function.update_of_ne (hne f' a ha) _ _⟩
    · rw [hother f' hf]
      exact ⟨rfl, rfl⟩
  have hpageSelf : (s'.node f).page p = b ∧ (s'.node f).index p = index := by
    rw [hself]
    exact ⟨Function.update_self _ _ _, Function.update_self _ _ _⟩
  have hcases : ∀ f', ∀ a ∈ (Function.update T f t f').inorder,
      (f' = f ∧ a = p) ∨ a ∈ (T f').inorder := by
    intro f' a ha
    by_cases hf : f' = f
    · subst hf
      rw [Function.update_self, hmem] at ha
      exact ha.imp_left fun h => ⟨rfl, h⟩
    · rw [Function.update_of_ne hf] at ha
      exact Or.inr ha
  have hold' : ∀ f', ∀ a ∈ (T f').inorder, a ∈ (Function.update T f t f').inorder := by
    intro f' a ha
    by_cases hf : f' = f
    · subst hf
      rw [Function.update_self]
      exact (hmem a).2 (Or.inr ha)
    · rwa [Function.update_of_ne hf]
  have hbytes : s'.bytes = Function.update s.bytes b fun _ => 0 := rfl
  refine ⟨t, hpt, hpageSelf.2, ⟨fun f' => ?_, fun f' a ha => ?_, fun f₁ f₂ p₁ p₂ h₁ h₂ heq => ?_,
    fun f' a ha o ho => ?_, fun f' y hy => ?_, fun f' => ?_, hok.size_le, hok.offset⟩, rfl⟩
  · by_cases hf : f' = f
    · subst hf
      rw [Function.update_self]
      refine ⟨?_, hbal, ?_, fun a ha' => ?_⟩
      · rw [hself]
        exact hrepr
      · rw [hin, hself]
        exact sorted_insert (hold ▸ (hok.node f').sorted) (hold ▸ hfresh f') hbefore hafter
      · rcases (hmem a).1 ha' with rfl | ha'
        · rwa [hpageSelf.2]
        · rw [(hpage f' a ha').2]
          exact (hok.node f').bound a ha'
    · rw [Function.update_of_ne hf, hother f' hf]
      exact hok.node f'
  · have hused : s'.rpageUsed = Function.update s.rpageUsed p true := rfl
    have hpused : s'.pageUsed = Function.update s.pageUsed b true := rfl
    rw [hused, hpused]
    rcases hcases f' a ha with ⟨rfl, rfl⟩ | ha'
    · rw [hpageSelf.1, Function.update_self, Function.update_self]
      exact ⟨rfl, rfl⟩
    · rw [(hpage f' a ha').1, Function.update_of_ne (hne f' a ha'),
        Function.update_of_ne (hunused f' a ha')]
      exact hok.used f' a ha'
  · rcases hcases f₁ p₁ h₁ with ⟨rfl, rfl⟩ | h₁' <;> rcases hcases f₂ p₂ h₂ with ⟨rfl, rfl⟩ | h₂'
    · exact ⟨rfl, rfl⟩
    · rw [hpageSelf.1, (hpage f₂ p₂ h₂').1] at heq
      exact absurd heq.symm (hunused f₂ p₂ h₂')
    · rw [hpageSelf.1, (hpage f₁ p₁ h₁').1] at heq
      exact absurd heq (hunused f₁ p₁ h₁')
    · rw [(hpage f₁ p₁ h₁').1, (hpage f₂ p₂ h₂').1] at heq
      exact hok.apart f₁ f₂ p₁ p₂ h₁' h₂' heq
  · rw [hbytes]
    rcases hcases f' a ha with ⟨rfl, rfl⟩ | ha'
    · rw [hpageSelf.1, hpageSelf.2, Function.update_self]
      -- no page had the index before, so nothing was written there
      refine (hok.hole f' _ fun q hq hc => ?_).symm
      have hdiv : (pageSize * index + o) / pageSize = index := by
        rw [Nat.mul_add_div (by decide), Nat.div_eq_of_lt ho, Nat.add_zero]
      rw [hdiv] at hc
      rcases List.mem_append.1 (hold ▸ hq) with hq | hq
      · exact (hbefore q hq).ne hc
      · exact (hafter q hq).ne' hc
    · rw [(hpage f' a ha').1, (hpage f' a ha').2, Function.update_of_ne (hunused f' a ha')]
      exact hok.data f' a ha' o ho
  · refine hok.hole f' y fun a ha => ?_
    rw [← (hpage f' a ha).2]
    exact hy a (hold' f' a ha)
  · by_cases hf : f' = f
    · subst hf
      rw [hself]
      exact hok.size f'
    · rw [hother f' hf]
      exact hok.size f'

/-! ### The calls -/

/-- The most bytes that one call moves at an offset. -/
def room (offset : ℤ) (size : ℕ) : ℕ := min (pageSize - pageOffset offset) size

/-- A write stores the bytes that there is room for at the offset of the handle, or fails for want of memory. -/
theorem FilesOk.ensures_vfsWrite_room (hok : FilesOk s T W) (hfuel : maxPages < fuel) {data : List UInt8}
    (hmax : (s.file h).offset + room (s.file h).offset data.length ≤ maxOffset) :
    Ensures (vfsWrite fuel h data) s fun n s' =>
      (n = -ENOMEM ∧ SameFiles s s') ∨
        (n = room (s.file h).offset data.length ∧
          s'.file = Function.update s.file h ⟨(s.file h).node, (s.file h).offset + n⟩ ∧
          ∃ T', FilesOk s' T' (Function.update W (s.file h).node
            (((s.file h).offset.toNat, data.take n.toNat) :: W (s.file h).node))) := by
  obtain ⟨h₀, h₁⟩ := hok.offset h
  obtain ⟨hx, hoff, hidx⟩ := page_of_offset h₀ h₁
  set x := (s.file h).offset with hxdef
  set sz := room x data.length with hsz
  have hsz₁ : sz ≤ data.length ∧ pageOffset x + sz ≤ pageSize := by
    rw [hsz, room]
    omega
  have htake : (data.take sz).length = sz := by
    rw [List.length_take]
    omega
  have hstore : ∀ {s₁ : Files} {T₁ : ℕ → ColorTree Ptr} {p : Ptr}, FilesOk s₁ T₁ W →
      s₁.file = s.file → p ∈ (T₁ (s.file h).node).inorder →
      (s₁.node (s.file h).node).index p = pageIndex x →
      Ensures (storeBytes h (s.file h).node p (pageOffset x) (data.take sz)) s₁ fun n s' =>
        (n = -ENOMEM ∧ SameFiles s s') ∨
        (n = sz ∧
          s'.file = Function.update s.file h ⟨(s.file h).node, x + n⟩ ∧
          ∃ T', FilesOk s' T' (Function.update W (s.file h).node
            ((x.toNat, data.take n.toNat) :: W (s.file h).node))) := by
    intro s₁ T₁ p hok₁ hfile hp hip
    have hoffset : (s₁.file h).offset = x := by rw [hfile]
    refine (hok₁.ensures_storeBytes hp ?_ ?_ ?_).mono fun n s' ⟨hn, hok', hfile'⟩ => ?_
    · rw [hoffset, hip]
      omega
    · rw [htake]
      omega
    · rw [hoffset, htake]
      exact hmax
    · rw [htake] at hn
      subst hn
      rw [hoffset] at hok' hfile'
      rw [htake, hfile] at hfile'
      exact Or.inr ⟨rfl, hfile', T₁, by simpa using hok'⟩
  rw [vfsWrite, ramfsWrite]
  simp only [ensures_bind, ensures_get]
  refine ((hok.node (s.file h).node).ensures_ramfsLookupPage hfuel _).mono ?_
  rintro r s₁ ⟨rfl, ⟨p, hp, rfl, hip⟩ | ⟨path, hpath, rfl, hbefore, hafter⟩⟩
  · exact hstore hok rfl hp hip
  · simp only [ensures_bind]
    refine ensures_ramfsAllocPage.mono ?_
    rintro _ s₂ (⟨rfl, hsame⟩ | ⟨p, b, s₂, rfl, haddr, hpfree, hbfree, hsame, rfl⟩)
    · rw [ensures_pure]
      exact Or.inl ⟨rfl, hsame⟩
    · simp only [ensures_bind]
      have hok₂ := hok.of_sameFiles hsame
      rw [← hsame.rpageUsed] at hpfree
      rw [← hsame.pageUsed] at hbfree
      rw [← hsame.node] at hbefore hafter
      refine (hok₂.ensures_linkPage hpath haddr hpfree hbfree hidx hbefore hafter hfuel).mono ?_
      rintro - s₃ ⟨t, hpt, hip, hok₃, hfile⟩
      refine hstore hok₃ (hfile.trans hsame.file) ?_ hip
      rwa [Function.update_self]

/-- **A write** stores the first `n` bytes at the offset of the handle, or fails for want of memory. -/
theorem FilesOk.ensures_vfsWrite (hok : FilesOk s T W) (hfuel : maxPages < fuel) {data : List UInt8}
    (hdata : data ≠ [])
    (hmax : (s.file h).offset + room (s.file h).offset data.length ≤ maxOffset) :
    Ensures (vfsWrite fuel h data) s fun n s' =>
      (n = -ENOMEM ∧ SameFiles s s') ∨
        (1 ≤ n ∧ n ≤ data.length ∧
          s'.file = Function.update s.file h ⟨(s.file h).node, (s.file h).offset + n⟩ ∧
          ∃ T', FilesOk s' T' (Function.update W (s.file h).node
            (((s.file h).offset.toNat, data.take n.toNat) :: W (s.file h).node))) := by
  have hlen : 0 < data.length := List.length_pos_of_ne_nil hdata
  obtain ⟨-, hoff, -⟩ := page_of_offset (hok.offset h).1 (hok.offset h).2
  refine (hok.ensures_vfsWrite_room hfuel hmax).mono fun n s' => Or.imp_right fun ⟨hn, hrest⟩ => ⟨?_, ?_, hrest⟩
  · rw [hn, room]
    omega
  · rw [hn, room]
    omega

/-- The bytes that a read of a file of some size returns. -/
def available (nodeSize offset : ℤ) (size : ℕ) : ℕ := min (room offset size) (nodeSize - offset).toNat

/-- A read returns the bytes written last, up to the end of the page and of the file. -/
theorem FilesOk.ensures_vfsRead_available (hok : FilesOk s T W) (hfuel : maxPages < fuel) (size : ℕ) {n : ℕ}
    (hn : n = available (s.node (s.file h).node).size (s.file h).offset size) :
    Ensures (vfsRead fuel h size) s fun r s' =>
      r = ((n : ℤ), Buf.slice (lastWritten (W (s.file h).node)) (s.file h).offset.toNat n) ∧
      s' = { s with
        file := Function.update s.file h { s.file h with offset := (s.file h).offset + n } } := by
  obtain ⟨h₀, h₁⟩ := hok.offset h
  obtain ⟨hx, hoff, hidx⟩ := page_of_offset h₀ h₁
  have hsize := hok.size (s.file h).node
  have hsizeLe := hok.size_le (s.file h).node
  set x := (s.file h).offset with hxdef
  set f := (s.file h).node with hf
  rw [vfsRead, ramfsRead]
  simp only [ensures_bind, ensures_get, ensures_ite, ge_iff_le, ensures_pure]
  refine ⟨fun hend => ?_, fun hbelow => ?_⟩
  · obtain rfl : n = 0 := by
      have hend' : (s.node f).size ≤ x := hend
      rw [hn, available]
      omega
    have hsame : (⟨f, x + ((0 : ℕ) : ℤ)⟩ : FsFile) = s.file h := by
      rw [hxdef, Nat.cast_zero, add_zero]
    rw [hsame, Function.update_eq_self]
    exact ⟨rfl, rfl⟩
  · have hbelow' : ¬(s.node f).size ≤ x := hbelow
    have hsz : min (min (pageSize - pageOffset x) size) ((s.node f).size - x).toNat = n := hn.symm
    rw [hsz]
    have hroom : pageOffset x + n ≤ pageSize ∧ x + n ≤ (s.node f).size := by omega
    have hend : toInt (x + n) = x + n := toInt_eq (by omega) (by omega)
    refine ((hok.node f).ensures_ramfsLookupPage hfuel _).mono ?_
    rintro r s₁ ⟨hs, hr⟩
    subst s₁
    simp only [ensures_modify]
    refine ⟨Prod.ext rfl ?_, by rw [hend]⟩
    rcases hr with ⟨p, hp, rfl, hip⟩ | ⟨path, hpath, rfl, hbefore, hafter⟩
    · refine Buf.slice_congr fun j hj => ?_
      have hj' : pageOffset x + j < pageSize := by omega
      rw [hok.data f p hp _ hj', hip, ← Nat.add_assoc, hx]
    · have hzero : ∀ j < n, lastWritten (W f) (x.toNat + j) = 0 := by
        intro j hj
        refine hok.hole f _ fun q hq hc => ?_
        have hdiv : (x.toNat + j) / pageSize = pageIndex x := by
          rw [hx, Nat.add_assoc, Nat.mul_add_div (by decide), Nat.div_eq_of_lt (by omega),
            Nat.add_zero]
        rw [hdiv] at hc
        rw [hpath, inorder_plug, inorder_nil, List.append_nil] at hq
        rcases List.mem_append.1 hq with hq | hq
        · exact (hbefore q hq).ne hc
        · exact (hafter q hq).ne' hc
      refine List.ext_getElem (by simp) fun j hj hj' => ?_
      rw [List.getElem_replicate, Buf.getElem_slice, hzero j (by simpa using hj)]

/-- **A read** gives the bytes written last at the offset of the handle, up to the size. -/
theorem FilesOk.ensures_vfsRead (hok : FilesOk s T W) (hfuel : maxPages < fuel) (size : ℕ) :
    Ensures (vfsRead fuel h size) s fun r s' => ∃ n ≤ size, r.1 = n ∧
      r.2 = Buf.slice (lastWritten (W (s.file h).node)) (s.file h).offset.toNat n ∧
      (n = 0 ↔ (s.node (s.file h).node).size ≤ (s.file h).offset ∨ size = 0) ∧
      (n ≠ 0 → (s.file h).offset + n ≤ (s.node (s.file h).node).size) ∧
      s' = { s with
        file := Function.update s.file h { s.file h with offset := (s.file h).offset + n } } := by
  obtain ⟨-, hoff, -⟩ := page_of_offset (hok.offset h).1 (hok.offset h).2
  refine (hok.ensures_vfsRead_available hfuel size rfl).mono fun r s' ⟨hr, hs'⟩ => ?_
  refine ⟨_, ?_, congrArg Prod.fst hr, congrArg Prod.snd hr, ?_, fun hne => ?_, hs'⟩
  · rw [available, room]
    omega
  · rw [available, room]
    omega
  · rw [available, room] at hne ⊢
    omega

/-- Where a seek goes. -/
def seekTarget (s : Files) (h : ℕ) (offset : ℤ) : Whence → ℤ
  | .set => offset
  | .cur => offset + (s.file h).offset
  | .fin => offset + (s.node (s.file h).node).size

/-- **A seek** moves its handle, not below zero. -/
theorem FilesOk.ensures_vfsSeek (hok : FilesOk s T W) {offset : ℤ} {whence : Whence}
    (hint : -2 ^ 31 ≤ offset) (hmax : seekTarget s h offset whence ≤ maxOffset) :
    Ensures (vfsSeek h offset whence) s fun r s' => r = max (seekTarget s h offset whence) 0 ∧
      s' = { s with
        file := Function.update s.file h
          { s.file h with offset := max (seekTarget s h offset whence) 0 } } := by
  obtain ⟨h₀, h₁⟩ := hok.offset h
  have hsize := hok.size (s.file h).node
  have hwrap : ∀ x : ℤ, -2 ^ 31 ≤ x → x ≤ maxOffset → toInt x = x := by
    intro x hlo hhi
    unfold maxOffset at hhi
    rw [toInt, Int.bmod_eq_of_le (by omega) (by omega)]
  rw [vfsSeek, vfsSeekDefault]
  simp only [ensures_bind, ensures_get, ensures_set, ensures_pure]
  cases whence with
  | set => exact ⟨rfl, rfl⟩
  | cur =>
    simp only [seekTarget] at hmax ⊢
    rw [hwrap _ (by omega) hmax]
    exact ⟨rfl, rfl⟩
  | fin =>
    simp only [seekTarget] at hmax ⊢
    rw [hwrap _ (by omega) hmax]
    exact ⟨rfl, rfl⟩

/-- A seek to a position. -/
theorem FilesOk.ensures_seekSet (hok : FilesOk s T W) {x : ℕ} (hx : x ≤ maxOffset) :
    Ensures (vfsSeek h x .set) s fun r s' => r = x ∧
      s' = { s with file := Function.update s.file h { s.file h with offset := x } } := by
  have hx₁ : seekTarget s h x .set ≤ maxOffset := Int.ofNat_le.2 hx
  have hx₀ : max (seekTarget s h x .set) 0 = (x : ℤ) := max_eq_left (Int.natCast_nonneg x)
  refine (hok.ensures_vfsSeek (le_trans (by norm_num) (Int.natCast_nonneg x)) hx₁).mono ?_
  rintro _ _ ⟨rfl, rfl⟩
  rw [hx₀]
  exact ⟨rfl, rfl⟩

end

end Ramfs

end Kernel64
