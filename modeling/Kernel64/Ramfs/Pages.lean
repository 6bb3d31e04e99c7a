import Kernel64.Ramfs.Runs

/-!
# Writes at any offset

A write adds to the offset of its handle without a look at the sum, which wraps; the page of a negative offset has an
index near the end of the numbers. Whatever the offsets were, the trees of the pages stay search trees and have at most
as many pages as there are offsets for, so that a write always returns, and stores a byte at least
(`PagesOk.ensures_vfsWrite`).
-/

namespace Kernel64

namespace Ramfs

open Rb ColorTree

/-- An `int`. -/
def IsInt (x : ℤ) : Prop := -2 ^ 31 ≤ x ∧ x < 2 ^ 31

/-- The pages of a file are in the tree `t`, in the order of their indices, each of them that of some offset. -/
structure TreeOk (nd : FileNode) (t : ColorTree Ptr) : Prop where
  repr : Represents nd.pages t
  balanced : t.RedBlack
  sorted : t.inorder.Pairwise fun a b => nd.index a < nd.index b
  index : ∀ p ∈ t.inorder, ∃ x, IsInt x ∧ nd.index p = pageIndex x

/-- **The trees of pages**, whatever the pages hold. -/
structure PagesOk (s : Files) (T : ℕ → ColorTree Ptr) : Prop where
  node : ∀ f, TreeOk (s.node f) (T f)
  used : ∀ f, ∀ p ∈ (T f).inorder, s.rpageUsed p = true

section

variable {s s' : Files} {f h fuel index b : ℕ} {p : Ptr} {t : ColorTree Ptr} {T : ℕ → ColorTree Ptr}
  {nd : FileNode} {data : List UInt8} {x : ℤ}

theorem isInt_zero : IsInt 0 := ⟨by decide, by decide⟩

theorem isInt_toInt (x : ℤ) : IsInt (toInt x) := by
  have hlo := Int.le_bmod (x := x) (m := 2 ^ 32) (by decide)
  have hhi := Int.bmod_lt (x := x) (m := 2 ^ 32) (by decide)
  unfold toInt IsInt
  omega

/-- The pages of offsets below zero come after the others. -/
theorem pageIndex_shift (hx : IsInt x) : (pageIndex x + maxPages) % 2 ^ 64 < 2 * maxPages ∧ pageIndex x < 2 ^ 64 := by
  unfold IsInt at hx
  unfold pageIndex pageSize maxPages
  omega

/-- A tree has at most as many pages as there are offsets for. -/
theorem TreeOk.length_le (h : TreeOk nd t) : t.inorder.length ≤ 2 * maxPages := by
  have hinj : (t.inorder.map fun p => (nd.index p + maxPages) % 2 ^ 64).Nodup := by
    rw [List.Nodup, List.pairwise_map]
    refine h.sorted.imp_of_mem fun {p q} hp hq hlt => ?_
    obtain ⟨x, hx, hpx⟩ := h.index p hp
    obtain ⟨y, hy, hqy⟩ := h.index q hq
    have h₁ := pageIndex_shift hx
    have h₂ := pageIndex_shift hy
    rw [← hpx] at h₁
    rw [← hqy] at h₂
    unfold maxPages at h₁ h₂ ⊢
    omega
  have hsub : (t.inorder.map fun p => (nd.index p + maxPages) % 2 ^ 64) ⊆ List.range (2 * maxPages) := by
    intro q hq
    obtain ⟨p, hp, rfl⟩ := List.mem_map.1 hq
    obtain ⟨x, hx, hpx⟩ := h.index p hp
    rw [List.mem_range, hpx]
    exact (pageIndex_shift hx).1
  have := (hinj.subperm hsub).length_le
  rwa [List.length_map, List.length_range] at this

/-- Only the pages of a node matter for its tree, and their indices. -/
theorem TreeOk.congr {nd' : FileNode} (h : TreeOk nd t) (hpages : nd'.pages = nd.pages)
    (hindex : nd'.index = nd.index) : TreeOk nd' t :=
  ⟨hpages ▸ h.repr, h.balanced, hindex ▸ h.sorted, hindex ▸ h.index⟩

theorem PagesOk.congr (hok : PagesOk s T) (hnode : ∀ f, (s'.node f).pages = (s.node f).pages ∧
    (s'.node f).index = (s.node f).index) (hused : s'.rpageUsed = s.rpageUsed) : PagesOk s' T :=
  ⟨fun f => (hok.node f).congr (hnode f).1 (hnode f).2, hused ▸ hok.used⟩

theorem Files.Empty.pagesOk (hs : s.Empty) : PagesOk s fun _ => .nil where
  node f := ⟨⟨(hs.node f).1, trivial, List.nodup_nil⟩, ColorTree.redBlack_iff.2 ⟨rfl, trivial, 0, rfl⟩,
    List.Pairwise.nil, fun _ hp => absurd hp List.not_mem_nil⟩
  used _ _ hp := absurd hp List.not_mem_nil

/-- **Linking a new page** at the place where it belongs. -/
theorem PagesOk.ensures_linkPage {path : TreePath Ptr} (hok : PagesOk s T) (hpath : T f = plug path .nil)
    (hp : NodeAddr p) (hpfree : s.rpageUsed p = false) (hx : IsInt x)
    (hbefore : ∀ a ∈ TreePath.before path, (s.node f).index a < pageIndex x)
    (hafter : ∀ a ∈ TreePath.after path, pageIndex x < (s.node f).index a) (hfuel : 2 * maxPages < fuel) :
    Ensures (onPages f (do rbLink p (topPtr path) (slotOf path); rbInsert fuel p))
      (s.newPage f p b (pageIndex x)) fun _ s' => (∃ T', PagesOk s' T') ∧ s'.file = s.file := by
  have hfresh : ∀ f', p ∉ (T f').inorder := fun f' hc =>
    Bool.false_ne_true (hpfree.symm.trans (hok.used f' p hc))
  have hold : (T f).inorder = TreePath.before path ++ TreePath.after path := by
    rw [hpath, inorder_plug, inorder_nil, List.append_nil]
  have hnode : (s.newPage f p b (pageIndex x)).node f = { s.node f with
      page := Function.update (s.node f).page p b
      index := Function.update (s.node f).index p (pageIndex x) } := setNode_node_self
  rw [ensures_onPages, hnode]
  have hfree : p ∉ (plug path .nil).inorder := hpath ▸ hfresh f
  refine (ensures_rbLink_rbInsert (hpath ▸ (hok.node f).repr) (hpath ▸ (hok.node f).balanced) hp hfree
    (lt_of_le_of_lt (hpath ▸ (hok.node f).length_le) hfuel)).mono ?_
  rintro - r ⟨t, hrepr, hbal, hin, -⟩
  have hmem : ∀ a ∈ t.inorder, a = p ∨ a ∈ (T f).inorder := by
    intro a ha
    rw [hin, List.mem_append, List.mem_cons] at ha
    rw [hold, List.mem_append]
    tauto
  refine ⟨⟨Function.update T f t, fun f' => ?_, fun f' a ha => ?_⟩, rfl⟩
  · by_cases hf : f' = f
    · subst hf
      rw [Function.update_self, setNode_node_self]
      refine ⟨hrepr, hbal, ?_, fun a ha => ?_⟩
      · rw [hin]
        exact sorted_insert (hold ▸ (hok.node f').sorted) (hold ▸ hfresh f') hbefore hafter
      · dsimp only
        rcases hmem a ha with rfl | ha
        · exact ⟨x, hx, Function.update_self _ _ _⟩
        · rw [Function.update_of_ne (ne_of_mem_of_not_mem ha (hfresh f'))]
          exact (hok.node f').index a ha
    · rw [Function.update_of_ne hf, setNode_node_of_ne hf]
      exact (setNode_node_of_ne (s := s) hf ▸ hok.node f' : TreeOk ((s.newPage f p b (pageIndex x)).node f') _)
  · have hused : Function.update s.rpageUsed p true a = true := by
      by_cases hap : a = p
      · rw [hap, Function.update_self]
      · rw [Function.update_of_ne hap]
        by_cases hf : f' = f
        · subst hf
          rw [Function.update_self] at ha
          exact hok.used f' a ((hmem a ha).resolve_left hap)
        · rw [Function.update_of_ne hf] at ha
          exact hok.used f' a ha
    exact hused

/-- **A write returns at any offset**, with the number of bytes that it stored, or with no memory. -/
theorem PagesOk.ensures_vfsWrite (hok : PagesOk s T) (hfuel : 2 * maxPages < fuel) (hx : IsInt (s.file h).offset) :
    Ensures (vfsWrite fuel h data) s fun n s' => (∃ T', PagesOk s' T') ∧
      ((n = -ENOMEM ∧ s'.file = s.file) ∨ (n = room (s.file h).offset data.length ∧
        s'.file = Function.update s.file h ⟨(s.file h).node, toInt ((s.file h).offset + n)⟩)) := by
  set x := (s.file h).offset with hxdef
  set sz := room x data.length with hsz
  have htake : (data.take sz).length = sz := by
    rw [List.length_take, hsz, room]
    omega
  have hstore : ∀ {s₁ : Files} {T₁ : ℕ → ColorTree Ptr} {p : Ptr}, PagesOk s₁ T₁ → s₁.file = s.file →
      Ensures (storeBytes h (s.file h).node p (pageOffset x) (data.take sz)) s₁ fun n s' => (∃ T', PagesOk s' T') ∧
        ((n = -ENOMEM ∧ s'.file = s.file) ∨ (n = sz ∧
          s'.file = Function.update s.file h ⟨(s.file h).node, toInt (x + n)⟩)) := by
    intro s₁ T₁ p hok₁ hfile
    rw [storeBytes]
    simp only [ensures_bind, ensures_modify, ensures_pure, htake]
    refine ⟨⟨T₁, hok₁.congr (fun f => ?_) rfl⟩, Or.inr ⟨trivial, by rw [hfile, hxdef]⟩⟩
    by_cases hf : f = (s.file h).node
    · rw [hf, setNode_node_self]
      exact ⟨rfl, rfl⟩
    · rw [setNode_node_of_ne hf]
      exact ⟨rfl, rfl⟩
  rw [vfsWrite, ramfsWrite]
  simp only [ensures_bind, ensures_get]
  have hnode := hok.node (s.file h).node
  refine (ensures_lookupPage hnode.repr hnode.sorted (lt_of_le_of_lt hnode.length_le hfuel) _).mono ?_
  rintro r s₁ ⟨rfl, ⟨p, hp, rfl, hip⟩ | ⟨path, hpath, rfl, hbefore, hafter⟩⟩
  · exact hstore hok rfl
  · simp only [ensures_bind]
    refine ensures_ramfsAllocPage.mono ?_
    rintro _ s₂ (⟨rfl, hsame⟩ | ⟨p, b, s₂, rfl, haddr, hpfree, -, hsame, rfl⟩)
    · rw [ensures_pure]
      refine ⟨⟨T, hok.congr (fun f => ?_) hsame.rpageUsed⟩, Or.inl ⟨rfl, hsame.file⟩⟩
      rw [hsame.node]
      exact ⟨rfl, rfl⟩
    · simp only [ensures_bind]
      have hok₂ : PagesOk s₂ T := by
        refine hok.congr (fun f => ?_) hsame.rpageUsed
        rw [hsame.node]
        exact ⟨rfl, rfl⟩
      rw [← hsame.rpageUsed] at hpfree
      rw [← hsame.node] at hbefore hafter
      refine (hok₂.ensures_linkPage hpath haddr hpfree hx hbefore hafter hfuel).mono ?_
      rintro - s₃ ⟨⟨T₃, hok₃⟩, hfile⟩
      exact hstore hok₃ (hfile.trans hsame.file)

end

end Ramfs

end Kernel64
