import Kernel64.RbTree.Model

/-!
# What the nodes in memory represent

`Represents s t`: the nodes reachable from the root pointer of `s` form the tree `t`, with
consistent child and parent pointers, colours in the parent words, and no node twice. The
labels of `t` are the addresses of the nodes, so that "the same node" is "the same label".

For each primitive operation there is one lemma about a tree `plug path t` with the operation
at its focus: reading a field (`Represents.load_focus`), recolouring (`ensures_rbSetColor`)
and rotating (`ensures_rbRotateLeft`, `ensures_rbRotateRight`). The loops of insertion and
removal are verified with these lemmas alone, never by looking at the memory.
-/

namespace Kernel64

open ColorTree

namespace Rb

/-! ### Words -/

/-- An address a node can have: not null, and even, which leaves bit `0` to the colour. -/
def NodeAddr (a : Ptr) : Prop := a ≠ 0#64 ∧ a &&& 1#64 = 0#64

theorem bit_and_one (c : Color) : c.bit &&& 1#64 = c.bit := by cases c <;> decide

theorem bit_and_not_one (c : Color) : c.bit &&& ~~~1#64 = 0#64 := by cases c <;> decide

/-- The colour bit of a packed parent word. -/
theorem packed_and_one {p : Ptr} (hp : p &&& 1#64 = 0#64) (c : Color) :
    (p ||| c.bit) &&& 1#64 = c.bit := by
  rw [BitVec.and_comm, BitVec.and_or_distrib_left, BitVec.and_comm _ p, hp,
    BitVec.and_comm _ c.bit, bit_and_one, BitVec.zero_or]

/-- The address in a packed parent word. -/
theorem packed_and_not_one {p : Ptr} (hp : p &&& 1#64 = 0#64) (c : Color) :
    (p ||| c.bit) &&& ~~~1#64 = p := by
  have h : p &&& ~~~1#64 = p := by
    have hsplit : p &&& (1#64 ||| ~~~1#64) = p := by
      rw [BitVec.or_not_self, BitVec.and_allOnes]
    rwa [BitVec.and_or_distrib_left, hp, BitVec.zero_or] at hsplit
  rw [BitVec.and_comm, BitVec.and_or_distrib_left, BitVec.and_comm _ p, h,
    BitVec.and_comm _ c.bit, bit_and_not_one, BitVec.or_zero]

@[simp] theorem bit_eq_zero {c : Color} : c.bit = 0#64 ↔ c = .red := by cases c <;> decide

/-! ### Trees in memory -/

/-- The address of the root node, null for the empty tree. -/
def rootPtr : ColorTree Ptr → Ptr
  | .nil => 0#64
  | .node _ _ a _ => a

@[simp] theorem rootPtr_nil : rootPtr .nil = 0#64 := rfl
@[simp] theorem rootPtr_node (c : Color) (l : ColorTree Ptr) (a : Ptr) (r : ColorTree Ptr) :
    rootPtr (.node c l a r) = a := rfl

@[simp] theorem rootPtr_sided (d : Side) (c : Color) (n : ColorTree Ptr) (a : Ptr)
    (f : ColorTree Ptr) : rootPtr (sided d c n a f) = a := by cases d <;> rfl

/-- The contents of a node with the child `n` on the side `d` and `f` on the other side. -/
def sidedNode (d : Side) (n f : Ptr) (w : BitVec 64) : RbNode :=
  match d with
  | .left => ⟨n, f, w⟩
  | .right => ⟨f, n, w⟩

@[simp] theorem sidedNode_parent (d : Side) (n f : Ptr) (w : BitVec 64) :
    (sidedNode d n f w).parent = w := by cases d <;> rfl

theorem sidedNode_flip (d : Side) (n f : Ptr) (w : BitVec 64) :
    sidedNode d.flip n f w = sidedNode d f n w := by cases d <;> rfl

/-- The nodes of `t` are in memory, linked to each other and to the parent `p`. -/
def Linked (h : Ptr → RbNode) : Ptr → ColorTree Ptr → Prop
  | _, .nil => True
  | p, .node c l a r =>
      NodeAddr a ∧ h a = ⟨rootPtr l, rootPtr r, p ||| c.bit⟩ ∧ Linked h a l ∧ Linked h a r

@[simp] theorem linked_nil (h : Ptr → RbNode) (p : Ptr) : Linked h p .nil := trivial

theorem linked_node {h : Ptr → RbNode} {p a : Ptr} {c : Color} {l r : ColorTree Ptr} :
    Linked h p (.node c l a r) ↔
      NodeAddr a ∧ h a = ⟨rootPtr l, rootPtr r, p ||| c.bit⟩ ∧ Linked h a l ∧ Linked h a r :=
  Iff.rfl

theorem linked_sided {h : Ptr → RbNode} {d : Side} {p a : Ptr} {c : Color}
    {n f : ColorTree Ptr} :
    Linked h p (sided d c n a f) ↔
      NodeAddr a ∧ h a = sidedNode d (rootPtr n) (rootPtr f) (p ||| c.bit) ∧ Linked h a n ∧
        Linked h a f := by
  cases d with
  | left => exact Iff.rfl
  | right => rw [sided_right, linked_node, and_comm (a := Linked h a n)]; rfl

theorem linked_congr {h h' : Ptr → RbNode} {p : Ptr} {t : ColorTree Ptr}
    (hh : ∀ a ∈ t.inorder, h' a = h a) : Linked h' p t ↔ Linked h p t := by
  induction t generalizing p with
  | nil => simp
  | node c l a r ihl ihr =>
    simp only [inorder_node, List.mem_append, List.mem_cons] at hh
    rw [linked_node, linked_node, hh a (by simp), ihl fun b hb => hh b (by simp [hb]),
      ihr fun b hb => hh b (by simp [hb])]

theorem linked_update {h : Ptr → RbNode} {p a : Ptr} {n : RbNode} {t : ColorTree Ptr}
    (ha : a ∉ t.inorder) : Linked (Function.update h a n) p t ↔ Linked h p t :=
  linked_congr fun _ hb => Function.update_of_ne (ne_of_mem_of_not_mem hb ha) _ _

theorem rootPtr_mem {t : ColorTree Ptr} (h : rootPtr t ≠ 0#64) : rootPtr t ∈ t.inorder := by
  cases t with
  | nil => exact absurd rfl h
  | node c l a r => simp

theorem rootPtr_eq_zero {h : Ptr → RbNode} {p : Ptr} {t : ColorTree Ptr}
    (ht : Linked h p t) : rootPtr t = 0#64 ↔ t = .nil := by
  cases t with
  | nil => simp
  | node c l a r => simpa using ht.1.1

/-- Distinct nodes: a root pointer does not point at a node outside its tree. -/
theorem rootPtr_ne {t : ColorTree Ptr} {a : Ptr} (ha : a ∉ t.inorder) (h0 : a ≠ 0#64) :
    rootPtr t ≠ a := by
  intro h
  exact ha (h ▸ rootPtr_mem (h ▸ h0))

/-! ### Paths in memory -/

/-- The address of the nearest ancestor, null at the root. -/
def topPtr : TreePath Ptr → Ptr
  | [] => 0#64
  | f :: _ => f.label

@[simp] theorem topPtr_nil : topPtr [] = 0#64 := rfl
@[simp] theorem topPtr_cons (f : TreeFrame Ptr) (path : TreePath Ptr) :
    topPtr (f :: path) = f.label := rfl

/-- The address of the root of the whole tree, when the position holds the node `x`. -/
def pathRoot : TreePath Ptr → Ptr → Ptr
  | [], x => x
  | f :: path, _ => pathRoot path f.label

/-- The ancestors of a position holding the node `x` are in memory, with the subtrees
hanging off them. -/
def LinkedPath (h : Ptr → RbNode) : Ptr → TreePath Ptr → Prop
  | _, [] => True
  | x, f :: path =>
      NodeAddr f.label ∧
        h f.label = sidedNode f.side x (rootPtr f.sib) (topPtr path ||| f.color.bit) ∧
          Linked h f.label f.sib ∧ LinkedPath h f.label path

theorem linked_plug {h : Ptr → RbNode} {path : TreePath Ptr} {t : ColorTree Ptr} :
    Linked h 0#64 (plug path t) ↔
      LinkedPath h (rootPtr t) path ∧ Linked h (topPtr path) t := by
  induction path generalizing t with
  | nil => simp [LinkedPath]
  | cons f path ih =>
    rw [plug_cons, ih, TreeFrame.attach, rootPtr_sided, linked_sided, LinkedPath, topPtr_cons]
    tauto

theorem rootPtr_plug (path : TreePath Ptr) (t : ColorTree Ptr) :
    rootPtr (plug path t) = pathRoot path (rootPtr t) := by
  induction path generalizing t with
  | nil => rfl
  | cons f path ih => rw [plug_cons, ih, TreeFrame.attach, rootPtr_sided]; rfl

/-- Below the root, the address of the root does not depend on the focus. -/
theorem pathRoot_congr {path : TreePath Ptr} (h : path ≠ []) (x y : Ptr) :
    pathRoot path x = pathRoot path y := by
  cases path with
  | nil => exact absurd rfl h
  | cons f path => rfl

theorem pathRoot_mem_labels {path : TreePath Ptr} (h : path ≠ []) (x : Ptr) :
    pathRoot path x ∈ TreePath.labels path := by
  induction path generalizing x with
  | nil => exact absurd rfl h
  | cons f path ih =>
    rw [TreePath.mem_labels_cons]
    cases path with
    | nil => exact Or.inl rfl
    | cons f' path => exact Or.inr (Or.inr (ih (by simp) f.label))

theorem linkedPath_congr {h h' : Ptr → RbNode} {x : Ptr} {path : TreePath Ptr}
    (hh : ∀ a ∈ TreePath.labels path, h' a = h a) :
    LinkedPath h' x path ↔ LinkedPath h x path := by
  induction path generalizing x with
  | nil => simp [LinkedPath]
  | cons f path ih =>
    rw [LinkedPath, LinkedPath, hh _ (TreePath.mem_labels_cons.mpr (Or.inl rfl)),
      linked_congr fun a ha => hh a (TreePath.mem_labels_cons.mpr (Or.inr (Or.inl ha))),
      ih fun a ha => hh a (TreePath.mem_labels_cons.mpr (Or.inr (Or.inr ha)))]

theorem linkedPath_update {h : Ptr → RbNode} {x a : Ptr} {n : RbNode} {path : TreePath Ptr}
    (ha : a ∉ TreePath.labels path) :
    LinkedPath (Function.update h a n) x path ↔ LinkedPath h x path :=
  linkedPath_congr fun _ hb => Function.update_of_ne (ne_of_mem_of_not_mem hb ha) _ _

theorem topPtr_and_one {h : Ptr → RbNode} {x : Ptr} {path : TreePath Ptr}
    (hp : LinkedPath h x path) : topPtr path &&& 1#64 = 0#64 := by
  cases path with
  | nil => decide
  | cons f path => exact hp.1.2

/-! ### The representation relation -/

/-- The memory `s` holds the tree `t`. -/
structure Represents (s : RbState) (t : ColorTree Ptr) : Prop where
  root : s.root = rootPtr t
  linked : Linked s.node 0#64 t
  nodup : t.inorder.Nodup

theorem represents_plug {s : RbState} {path : TreePath Ptr} {t : ColorTree Ptr} :
    Represents s (plug path t) ↔
      s.root = pathRoot path (rootPtr t) ∧ LinkedPath s.node (rootPtr t) path ∧
        Linked s.node (topPtr path) t ∧ (plug path t).inorder.Nodup := by
  constructor
  · rintro ⟨h1, h2, h3⟩
    exact ⟨(rootPtr_plug path t) ▸ h1, (linked_plug.mp h2).1, (linked_plug.mp h2).2, h3⟩
  · rintro ⟨h1, h2, h3, h4⟩
    exact ⟨(rootPtr_plug path t).symm ▸ h1, linked_plug.mpr ⟨h2, h3⟩, h4⟩

/-- The node at the focus, as it is in memory. -/
theorem Represents.focus {s : RbState} {path : TreePath Ptr} {d : Side} {c : Color}
    {n f : ColorTree Ptr} {a : Ptr} (h : Represents s (plug path (sided d c n a f))) :
    NodeAddr a ∧ s.node a = sidedNode d (rootPtr n) (rootPtr f) (topPtr path ||| c.bit) ∧
      topPtr path &&& 1#64 = 0#64 := by
  obtain ⟨-, hp, ht, -⟩ := represents_plug.mp h
  rw [linked_sided] at ht
  exact ⟨ht.1, ht.2.1, topPtr_and_one hp⟩

/-- The focus of a tree shares no node with the path to it. -/
theorem nodup_focus {path : TreePath Ptr} {d : Side} {c : Color} {n f : ColorTree Ptr}
    {a : Ptr} (h : (plug path (sided d c n a f)).inorder.Nodup) :
    a ∉ TreePath.labels path ∧ a ∉ n.inorder ∧ a ∉ f.inorder := by
  obtain ⟨-, hnd, hdisj⟩ := nodup_inorder_plug.mp h
  rw [nodup_inorder_sided] at hnd
  exact ⟨hdisj (mem_inorder_sided.mpr (Or.inl rfl)), hnd.1, hnd.2.1⟩

/-- Distinct subtrees have distinct roots, unless both are empty. -/
theorem rootPtr_ne_of_disjoint {h : Ptr → RbNode} {p : Ptr} {t u : ColorTree Ptr}
    (hu : Linked h p u) (hne : u ≠ .nil) (hd : t.inorder.Disjoint u.inorder) :
    rootPtr t ≠ rootPtr u := by
  intro heq
  have h0 : rootPtr u ≠ 0#64 := fun h0 => hne ((rootPtr_eq_zero hu).mp h0)
  exact hd (heq ▸ rootPtr_mem (heq.symm ▸ h0)) (rootPtr_mem h0)

/-- Below the root, the focus is not the root. -/
theorem Represents.rootPtr_ne_root {s : RbState} {path : TreePath Ptr} {t : ColorTree Ptr}
    (h : Represents s (plug path t)) (hpath : path ≠ []) : rootPtr t ≠ s.root := by
  obtain ⟨hroot, -, -, hnd⟩ := represents_plug.mp h
  have hmem := pathRoot_mem_labels hpath (rootPtr t)
  have h0 : s.root ≠ 0#64 := by
    rw [h.root, ne_eq, rootPtr_eq_zero h.linked]
    intro hnil
    have : pathRoot path (rootPtr t) ∈ (plug path t).inorder :=
      mem_inorder_plug.mpr (Or.inl hmem)
    simp [hnil] at this
  rw [hroot] at h0 ⊢
  exact rootPtr_ne (fun ht => (nodup_inorder_plug.mp hnd).2.2 ht hmem) h0

/-- From `s`, which held `t`, to `s'`, which holds `t'`: the same nodes in the same order, and
no node outside the tree touched. -/
structure Rebalanced (s : RbState) (t : ColorTree Ptr) (s' : RbState) (t' : ColorTree Ptr) :
    Prop where
  repr : Represents s' t'
  inorder : t'.inorder = t.inorder
  frame : ∀ a ∉ t.inorder, s'.node a = s.node a

theorem Represents.rebalanced_self {s : RbState} {t : ColorTree Ptr} (h : Represents s t) :
    Rebalanced s t s t := ⟨h, rfl, fun _ _ => rfl⟩

theorem Rebalanced.trans {s₁ s₂ s₃ : RbState} {t₁ t₂ t₃ : ColorTree Ptr}
    (h : Rebalanced s₁ t₁ s₂ t₂) (h' : Rebalanced s₂ t₂ s₃ t₃) : Rebalanced s₁ t₁ s₃ t₃ :=
  ⟨h'.repr, h'.inorder.trans h.inorder,
    fun a ha => (h'.frame a (h.inorder ▸ ha)).trans (h.frame a ha)⟩

/-- Replacing the subtree at the focus: what there is to show of the new state. -/
theorem Represents.rebalanced_plug {s s' : RbState} {path : TreePath Ptr}
    {t t' : ColorTree Ptr} (h : Represents s (plug path t)) (hin : t'.inorder = t.inorder)
    (hroot : s'.root = pathRoot path (rootPtr t'))
    (hpath : LinkedPath s'.node (rootPtr t') path) (ht : Linked s'.node (topPtr path) t')
    (hframe : ∀ a ∉ TreePath.labels path, a ∉ t.inorder → s'.node a = s.node a) :
    Rebalanced s (plug path t) s' (plug path t') := by
  have hin' : (plug path t').inorder = (plug path t).inorder := inorder_plug_congr hin
  refine ⟨represents_plug.mpr ⟨hroot, hpath, ht, hin' ▸ h.nodup⟩, hin', fun a ha => ?_⟩
  rw [mem_inorder_plug, not_or] at ha
  exact hframe a ha.1 ha.2

/-! ### Executing memory accesses -/

section Access

variable {s : RbState} {a b : Ptr}

@[simp] theorem ensures_load {Q : RbNode → RbState → Prop} :
    Ensures (load a) s Q ↔ a ≠ 0#64 ∧ Q (s.node a) s := by
  by_cases ha : a = 0#64 <;> simp [load, ha]

@[simp] theorem ensures_store {n : RbNode} {Q : Unit → RbState → Prop} :
    Ensures (store a n) s Q ↔ a ≠ 0#64 ∧ Q () (s.put a n) := by
  by_cases ha : a = 0#64 <;> simp [store, ha]

@[simp] theorem ensures_left {Q : Ptr → RbState → Prop} :
    Ensures (left a) s Q ↔ a ≠ 0#64 ∧ Q (s.node a).left s := by simp [left]

@[simp] theorem ensures_right {Q : Ptr → RbState → Prop} :
    Ensures (right a) s Q ↔ a ≠ 0#64 ∧ Q (s.node a).right s := by simp [right]

@[simp] theorem ensures_setLeft {Q : Unit → RbState → Prop} :
    Ensures (setLeft a b) s Q ↔
      a ≠ 0#64 ∧ Q () (s.put a { s.node a with left := b }) := by
  simp [setLeft]

@[simp] theorem ensures_setRight {Q : Unit → RbState → Prop} :
    Ensures (setRight a b) s Q ↔
      a ≠ 0#64 ∧ Q () (s.put a { s.node a with right := b }) := by
  simp [setRight]

@[simp] theorem ensures_setParentWord {w : BitVec 64} {Q : Unit → RbState → Prop} :
    Ensures (setParentWord a w) s Q ↔
      a ≠ 0#64 ∧ Q () (s.put a { s.node a with parent := w }) := by
  simp [setParentWord]

@[simp] theorem ensures_root {Q : Ptr → RbState → Prop} :
    Ensures root s Q ↔ Q s.root s := by simp [root]

@[simp] theorem ensures_setRoot {Q : Unit → RbState → Prop} :
    Ensures (setRoot a) s Q ↔ Q () { s with root := a } := by simp [setRoot]

@[simp] theorem ensures_rbParent {Q : Ptr → RbState → Prop} :
    Ensures (rbParent a) s Q ↔ a ≠ 0#64 ∧ Q ((s.node a).parent &&& ~~~1#64) s := by
  simp [rbParent]

@[simp] theorem ensures_rbSetParent {Q : Unit → RbState → Prop} :
    Ensures (rbSetParent a b) s Q ↔
      a ≠ 0#64 ∧
        Q () (s.put a { s.node a with parent := ((s.node a).parent &&& 1#64) ||| b }) := by
  simp [rbSetParent]

@[simp] theorem ensures_child {d : Side} {Q : Ptr → RbState → Prop} :
    Ensures (child d a) s Q ↔
      a ≠ 0#64 ∧ Q (match d with | .left => (s.node a).left | .right => (s.node a).right) s := by
  cases d <;> simp [child]

@[simp] theorem put_root (s : RbState) (a : Ptr) (n : RbNode) : (s.put a n).root = s.root :=
  rfl

@[simp] theorem put_node_self (s : RbState) (a : Ptr) (n : RbNode) :
    (s.put a n).node a = n := Function.update_self _ _ _

@[simp] theorem put_put (s : RbState) (a : Ptr) (m n : RbNode) :
    (s.put a m).put a n = s.put a n := by
  simp only [RbState.put, Function.update_idem]

theorem put_node_of_ne (s : RbState) {a b : Ptr} (n : RbNode) (h : b ≠ a) :
    (s.put a n).node b = s.node b := Function.update_of_ne h _ _

/-- Reading a child of a node whose contents are known. -/
theorem ensures_child_of_node {d : Side} {n f : Ptr} {w : BitVec 64} {Q : Ptr → RbState → Prop}
    (hn : s.node a = sidedNode d n f w) :
    (Ensures (child d a) s Q ↔ a ≠ 0#64 ∧ Q n s) ∧
      (Ensures (child d.flip a) s Q ↔ a ≠ 0#64 ∧ Q f s) := by
  cases d <;> simp [hn, sidedNode]

/-- Overwriting a child of a node whose contents are known. -/
theorem ensures_setChild_of_node {d : Side} {n f : Ptr} {w : BitVec 64}
    {Q : Unit → RbState → Prop} (hn : s.node a = sidedNode d n f w) :
    (Ensures (setChild d a b) s Q ↔ a ≠ 0#64 ∧ Q () (s.put a (sidedNode d b f w))) ∧
      (Ensures (setChild d.flip a b) s Q ↔
        a ≠ 0#64 ∧ Q () (s.put a (sidedNode d n b w))) := by
  cases d <;> simp [setChild, hn, sidedNode]

/-- Changing the parent of a node whose contents are known; the colour stays. -/
theorem ensures_rbSetParent_of_node {d : Side} {n f p : Ptr} {c : Color}
    {Q : Unit → RbState → Prop} (hn : s.node a = sidedNode d n f (p ||| c.bit))
    (hp : p &&& 1#64 = 0#64) :
    Ensures (rbSetParent a b) s Q ↔
      a ≠ 0#64 ∧ Q () (s.put a (sidedNode d n f (b ||| c.bit))) := by
  cases d <;> simp [hn, sidedNode, packed_and_one hp, BitVec.or_comm]

end Access

/-! ### Recolouring -/

theorem ensures_rbSetColor {s : RbState} {path : TreePath Ptr} {d : Side} {c : Color}
    {n f : ColorTree Ptr} {a : Ptr} (c' : Color)
    (h : Represents s (plug path (sided d c n a f))) :
    Ensures (rbSetColor a c') s fun _ s' =>
      Rebalanced s (plug path (sided d c n a f)) s' (plug path (sided d c' n a f)) := by
  obtain ⟨ha, hn, htop⟩ := h.focus
  obtain ⟨hroot, hpath, ht, hnd⟩ := represents_plug.mp h
  obtain ⟨-, -, hl, hr⟩ := linked_sided.mp ht
  obtain ⟨hap, hal, har⟩ := nodup_focus hnd
  have hn' : ({ s.node a with parent := ((s.node a).parent &&& ~~~1#64) ||| c'.bit } : RbNode)
      = sidedNode d (rootPtr n) (rootPtr f) (topPtr path ||| c'.bit) := by
    rw [hn, sidedNode_parent, packed_and_not_one htop]
    cases d <;> rfl
  simp only [rbSetColor, ensures_bind, ensures_load, ensures_setParentWord, hn']
  rw [rootPtr_sided] at hroot hpath
  refine ⟨ha.1, ha.1, h.rebalanced_plug (by cases d <;> rfl) ?_ ?_ ?_ fun b _ hb => ?_⟩
  · rw [rootPtr_sided]
    exact hroot
  · rw [rootPtr_sided]
    exact (linkedPath_update hap).mpr hpath
  · exact linked_sided.mpr ⟨ha, put_node_self _ _ _, (linked_update hal).mpr hl,
      (linked_update har).mpr hr⟩
  · exact put_node_of_ne _ _ fun hba => hb (hba ▸ mem_inorder_sided.mpr (Or.inl rfl))

/-! ### Rotating -/

/-- Overwriting the pointer at a position below the root. -/
theorem ensures_setChild_path {s : RbState} {f : TreeFrame Ptr} {path : TreePath Ptr}
    {x y : Ptr} (hp : LinkedPath s.node x (f :: path))
    (hnd : (TreePath.labels (f :: path)).Nodup) :
    Ensures (setChild f.side f.label y) s fun _ s' =>
      s'.root = s.root ∧ LinkedPath s'.node y (f :: path) ∧
        ∀ a ≠ f.label, s'.node a = s.node a := by
  obtain ⟨hfa, hfn, hsib, hup⟩ := hp
  obtain ⟨hfs, hfp⟩ := TreePath.nodup_labels_cons hnd
  rw [(ensures_setChild_of_node hfn).1]
  exact ⟨hfa.1, rfl, ⟨hfa, put_node_self _ _ _, (linked_update hfs).mpr hsib,
    (linkedPath_update hfp).mpr hup⟩, fun a ha => put_node_of_ne _ _ ha⟩

theorem ensures_replaceChild {s : RbState} {path : TreePath Ptr} {x y : Ptr}
    (hroot : s.root = pathRoot path x) (hp : LinkedPath s.node x path) (hx : x ≠ 0#64)
    (hxp : x ∉ TreePath.labels path) (hnd : (TreePath.labels path).Nodup) :
    Ensures (replaceChild (topPtr path) x y) s fun _ s' =>
      s'.root = pathRoot path y ∧ LinkedPath s'.node y path ∧
        ∀ a ∉ TreePath.labels path, s'.node a = s.node a := by
  cases path with
  | nil => simp [replaceChild, pathRoot, LinkedPath]
  | cons f path =>
    have hfa := hp.1
    have hfn := hp.2.1
    have hxs : rootPtr f.sib ≠ x :=
      rootPtr_ne (fun hm => hxp (TreePath.mem_labels_cons.mpr (Or.inr (Or.inl hm)))) hx
    have hset : Ensures (setChild f.side f.label y) s fun _ s' =>
        s'.root = pathRoot (f :: path) y ∧ LinkedPath s'.node y (f :: path) ∧
          ∀ a ∉ TreePath.labels (f :: path), s'.node a = s.node a :=
      (ensures_setChild_path hp hnd).mono fun _ s' ⟨hr, hl, hf⟩ => ⟨hr.trans hroot, hl,
        fun a ha => hf a fun hab => ha (TreePath.mem_labels_cons.mpr (Or.inl hab))⟩
    simp only [replaceChild, topPtr_cons, ne_eq, hfa.1, not_false_eq_true, if_true,
      ensures_bind, ensures_left, true_and, hfn]
    rcases f with ⟨_ | _, c, b, t⟩
    · simp only [sidedNode, if_true]
      exact hset
    · simp only [sidedNode, hxs, if_false]
      exact hset

theorem ensures_reparent {s : RbState} {t : ColorTree Ptr} {p q : Ptr}
    (h : Linked s.node q t) (hq : q &&& 1#64 = 0#64) (hnd : t.inorder.Nodup) :
    Ensures (reparent (rootPtr t) p) s fun _ s' =>
      s'.root = s.root ∧ Linked s'.node p t ∧ ∀ a ∉ t.inorder, s'.node a = s.node a := by
  cases t with
  | nil => simp [reparent]
  | node c l a r =>
    obtain ⟨ha, hn, hl, hr⟩ := h
    have hfocus : (plug [] (sided .left c l a r)).inorder.Nodup := hnd
    obtain ⟨-, hal, har⟩ := nodup_focus hfocus
    simp only [reparent, rootPtr_node, ne_eq, ha.1, not_false_eq_true, if_true,
      ensures_rbSetParent_of_node (d := .left) hn hq, true_and]
    exact ⟨rfl, ⟨ha, put_node_self _ _ _, (linked_update hal).mpr hl,
      (linked_update har).mpr hr⟩, fun b hb => put_node_of_ne _ _ fun hba => hb (by simp [hba])⟩

/-- The rotation of `x` to the side `d`: its child `r` on the other side takes its place and
passes its own subtree `B` on the side `d` to `x`. -/
theorem ensures_rbRotate {s : RbState} {path : TreePath Ptr} {d : Side} {c e : Color}
    {A B C : ColorTree Ptr} {x r : Ptr}
    (h : Represents s (plug path (sided d c A x (sided d e B r C)))) :
    Ensures (rbRotate d x) s fun _ s' =>
      Rebalanced s (plug path (sided d c A x (sided d e B r C))) s'
        (plug path (sided d e (sided d c A x B) r C)) := by
  obtain ⟨hxa, hnx, htop⟩ := h.focus
  obtain ⟨hroot, hpath, ht, hnd⟩ := represents_plug.mp h
  obtain ⟨-, -, hA, hr⟩ := linked_sided.mp ht
  obtain ⟨hra, hnr, hB, hC⟩ := linked_sided.mp hr
  have hx := hxa.1
  obtain ⟨hndp, hnd, hdisj⟩ := nodup_inorder_plug.mp hnd
  have hin : (sided d e (sided d c A x B) r C).inorder
      = (sided d c A x (sided d e B r C)).inorder := by cases d <;> simp
  -- every node named in the proof is different from every other
  have hmem : ∀ a ∈ TreePath.labels path, a ≠ x ∧ a ≠ r ∧ a ∉ B.inorder := by
    intro a ha
    have := List.disjoint_right.mp hdisj ha
    simp only [mem_inorder_sided, not_or] at this
    tauto
  have hout : ∀ a, a ∈ A.inorder ∨ a ∈ B.inorder ∨ a ∈ C.inorder →
      a ∉ TreePath.labels path := by
    intro a ha
    refine hdisj ?_
    simp only [mem_inorder_sided]
    tauto
  simp only [nodup_inorder_sided, mem_inorder_sided, not_or] at hnd
  obtain ⟨hxA, ⟨hxr, hxB, hxC⟩, -, ⟨hrB, hrC, hBnd, -, hBC⟩, hAsub⟩ := hnd
  have hrA : r ∉ A.inorder := fun hm => hAsub hm (mem_inorder_sided.mpr (Or.inl rfl))
  have hAB : ∀ a ∈ A.inorder, a ∉ B.inorder := fun a ha hb =>
    hAsub ha (mem_inorder_sided.mpr (Or.inr (Or.inl hb)))
  have hxp : x ∉ TreePath.labels path := fun hm => (hmem x hm).1 rfl
  have hrp : r ∉ TreePath.labels path := fun hm => (hmem r hm).2.1 rfl
  -- up to the change of `B`'s parent
  simp only [rootPtr_sided] at hnx
  simp only [rbRotate, ensures_bind, ensures_rbParent, (ensures_child_of_node hnx).2,
    (ensures_child_of_node hnr).1, (ensures_setChild_of_node hnx).2, hnx, sidedNode_parent,
    packed_and_not_one htop,
    (ensures_child_of_node (put_node_self s x (sidedNode d (rootPtr A) (rootPtr B)
      (topPtr path ||| c.bit)))).2]
  refine ⟨hx, hx, hra.1, hx, hx, ?_⟩
  refine (ensures_reparent (p := x) ((linked_update hxB).mpr hB) hra.2 hBnd).mono ?_
  rintro - s₁ ⟨hr₁, hB₁, hf₁⟩
  have hn₁r : s₁.node r = sidedNode d (rootPtr B) (rootPtr C) (x ||| e.bit) := by
    rw [hf₁ r hrB, put_node_of_ne _ _ (Ne.symm hxr), hnr]
  have hn₁x : s₁.node x = sidedNode d (rootPtr A) (rootPtr B) (topPtr path ||| c.bit) := by
    rw [hf₁ x hxB, put_node_self]
  -- up to the change of the pointer to `x`
  simp only [(ensures_setChild_of_node hn₁r).1,
    ensures_rbSetParent_of_node (put_node_self s₁ r (sidedNode d x (rootPtr C)
      (x ||| e.bit))) hxa.2, put_put]
  refine ⟨hra.1, hra.1, ?_⟩
  set s₂ := s₁.put r (sidedNode d x (rootPtr C) (topPtr path ||| e.bit)) with hs₂
  have hf₂ : ∀ a, a ≠ r → s₂.node a = s₁.node a := fun a ha => by
    rw [hs₂, put_node_of_ne _ _ ha]
  rw [rootPtr_sided] at hroot hpath
  have hpath₂ : LinkedPath s₂.node x path := by
    refine (linkedPath_congr fun a ha => ?_).mpr hpath
    rw [hf₂ a (hmem a ha).2.1, hf₁ a (hmem a ha).2.2, put_node_of_ne _ _ (hmem a ha).1]
  refine (ensures_replaceChild (s := s₂) (y := r) (hr₁.trans hroot) hpath₂ hx hxp hndp).mono ?_
  rintro - s₃ ⟨hr₃, hpath₃, hf₃⟩
  have hn₃x : s₃.node x = sidedNode d (rootPtr A) (rootPtr B) (topPtr path ||| c.bit) := by
    rw [hf₃ x hxp, hf₂ x hxr, hn₁x]
  rw [ensures_rbSetParent_of_node hn₃x htop]
  refine ⟨hx, h.rebalanced_plug hin ?_ ?_ ?_ ?_⟩
  · rw [rootPtr_sided]
    exact hr₃
  · rw [rootPtr_sided]
    exact (linkedPath_update hxp).mpr hpath₃
  · have hsame : ∀ a ∉ TreePath.labels path, a ≠ x → a ≠ r → a ∉ B.inorder →
        (s₃.put x (sidedNode d (rootPtr A) (rootPtr B) (r ||| c.bit))).node a = s.node a := by
      intro a hap hax har haB
      rw [put_node_of_ne _ _ hax, hf₃ a hap, hf₂ a har, hf₁ a haB, put_node_of_ne _ _ hax]
    refine linked_sided.mpr ⟨hra, ?_, linked_sided.mpr ⟨hxa, put_node_self _ _ _, ?_, ?_⟩, ?_⟩
    · rw [put_node_of_ne _ _ (Ne.symm hxr), hf₃ r hrp, hs₂, put_node_self, rootPtr_sided]
    · refine (linked_congr fun a ha => ?_).mpr hA
      exact hsame a (hout a (Or.inl ha)) (ne_of_mem_of_not_mem ha hxA)
        (ne_of_mem_of_not_mem ha hrA) (hAB a ha)
    · refine (linked_update hxB).mpr ((linked_congr fun a ha => ?_).mpr hB₁)
      rw [hf₃ a (hout a (Or.inr (Or.inl ha))), hf₂ a (ne_of_mem_of_not_mem ha hrB)]
    · refine (linked_congr fun a ha => ?_).mpr hC
      exact hsame a (hout a (Or.inr (Or.inr ha))) (ne_of_mem_of_not_mem ha hxC)
        (ne_of_mem_of_not_mem ha hrC) fun hb => hBC hb ha
  · intro a hap hat
    simp only [mem_inorder_sided, not_or] at hat
    obtain ⟨hax, -, har, haB, -⟩ := hat
    rw [put_node_of_ne _ _ hax, hf₃ a hap, hf₂ a har, hf₁ a haB, put_node_of_ne _ _ hax]

/-! ### Chaining -/

section Chain

variable {s₀ s : RbState} {t₀ : ColorTree Ptr} {path : TreePath Ptr} {d : Side} {c e : Color}
  {A B C : ColorTree Ptr} {a x r : Ptr}

/-- A recolouring at the end of a chain of rebalancing steps. -/
theorem Rebalanced.setColor (c' : Color) (h : Rebalanced s₀ t₀ s (plug path (sided d c A a B))) :
    Ensures (rbSetColor a c') s fun _ s' =>
      Rebalanced s₀ t₀ s' (plug path (sided d c' A a B)) :=
  (ensures_rbSetColor c' h.repr).mono fun _ _ h' => h.trans h'

/-- A rotation at the end of a chain of rebalancing steps. -/
theorem Rebalanced.rotate
    (h : Rebalanced s₀ t₀ s (plug path (sided d c A x (sided d e B r C)))) :
    Ensures (rbRotate d x) s fun _ s' =>
      Rebalanced s₀ t₀ s' (plug path (sided d e (sided d c A x B) r C)) :=
  (ensures_rbRotate h.repr).mono fun _ _ h' => h.trans h'

end Chain

end Rb

end Kernel64
