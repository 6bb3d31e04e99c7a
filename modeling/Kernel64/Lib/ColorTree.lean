import Mathlib.Data.Nat.Log
import Mathlib.Data.List.Nodup
import Mathlib.Tactic.Ring
import Mathlib.Tactic.Linarith

/-!
# Coloured binary trees and their zippers

Red-black trees over arbitrary labels, as a library: `ColorTree α` with its in-order sequence,
the red-black conditions, and the height bound `height_le_of_redBlack`.

A position in a tree is a `TreePath`: the list of frames from the position up to the root, each
with the colour and label of an ancestor and the subtree hanging off its other side.
`plug path t` puts `t` back at the position. Every condition on a plugged tree splits into
one on the subtree and one on the path (`blackHeight_plug`, `noRedRed_plug`,
`inorder_plug`), so a rebalancing loop that climbs with a violation at its focus can be
argued about one frame at a time.
-/

namespace Kernel64

/-- Node colours. -/
inductive Color where
  | red
  | black
  deriving DecidableEq, Repr

/-- The number of black nodes a node of this colour contributes to a path. -/
def Color.count : Color → ℕ
  | .red => 0
  | .black => 1

@[simp] theorem Color.count_red : Color.red.count = 0 := rfl
@[simp] theorem Color.count_black : Color.black.count = 1 := rfl

theorem Color.ne_red {c : Color} : c ≠ .red ↔ c = .black := by cases c <;> simp
theorem Color.ne_black {c : Color} : c ≠ .black ↔ c = .red := by cases c <;> simp

/-- The two sides of a node. -/
inductive Side where
  | left
  | right
  deriving DecidableEq, Repr

/-- The other side. -/
def Side.flip : Side → Side
  | .left => .right
  | .right => .left

@[simp] theorem Side.flip_left : Side.left.flip = .right := rfl
@[simp] theorem Side.flip_right : Side.right.flip = .left := rfl
@[simp] theorem Side.flip_flip (d : Side) : d.flip.flip = d := by cases d <;> rfl

/-- Coloured binary trees. -/
inductive ColorTree (α : Type) where
  | nil
  | node (c : Color) (l : ColorTree α) (a : α) (r : ColorTree α)
  deriving DecidableEq, Repr

namespace ColorTree

variable {α : Type}

/-- The colour of the root; the empty tree counts as black. -/
def color : ColorTree α → Color
  | nil => .black
  | node c _ _ _ => c

@[simp] theorem color_nil : (nil : ColorTree α).color = .black := rfl
@[simp] theorem color_node (c : Color) (l : ColorTree α) (a : α) (r : ColorTree α) :
    (node c l a r).color = c := rfl

/-- The labels from left to right. -/
def inorder : ColorTree α → List α
  | nil => []
  | node _ l a r => l.inorder ++ a :: r.inorder

@[simp] theorem inorder_nil : (nil : ColorTree α).inorder = [] := rfl
@[simp] theorem inorder_node (c : Color) (l : ColorTree α) (a : α) (r : ColorTree α) :
    (node c l a r).inorder = l.inorder ++ a :: r.inorder := rfl

/-- The node whose subtree on the side `d` is `n` and on the other side `f`. Arguments that
have a mirror image are made once, about `sided`. -/
def sided (d : Side) (c : Color) (n : ColorTree α) (a : α) (f : ColorTree α) : ColorTree α :=
  match d with
  | .left => node c n a f
  | .right => node c f a n

@[simp] theorem sided_left (c : Color) (n : ColorTree α) (a : α) (f : ColorTree α) :
    sided .left c n a f = node c n a f := rfl
@[simp] theorem sided_right (c : Color) (n : ColorTree α) (a : α) (f : ColorTree α) :
    sided .right c n a f = node c f a n := rfl

theorem sided_flip (d : Side) (c : Color) (n : ColorTree α) (a : α) (f : ColorTree α) :
    sided d.flip c n a f = sided d c f a n := by cases d <;> rfl

theorem exists_sided (d : Side) (c : Color) (l : ColorTree α) (a : α) (r : ColorTree α) :
    ∃ n f, node c l a r = sided d c n a f := by
  cases d with
  | left => exact ⟨l, r, rfl⟩
  | right => exact ⟨r, l, rfl⟩

@[simp] theorem color_sided (d : Side) (c : Color) (n : ColorTree α) (a : α)
    (f : ColorTree α) : (sided d c n a f).color = c := by cases d <;> rfl

theorem mem_inorder_sided {d : Side} {c : Color} {n f : ColorTree α} {a b : α} :
    b ∈ (sided d c n a f).inorder ↔ b = a ∨ b ∈ n.inorder ∨ b ∈ f.inorder := by
  cases d <;> simp only [sided, inorder_node, List.mem_append, List.mem_cons] <;> tauto

theorem nodup_inorder_sided {d : Side} {c : Color} {n f : ColorTree α} {a : α} :
    (sided d c n a f).inorder.Nodup ↔
      a ∉ n.inorder ∧ a ∉ f.inorder ∧ n.inorder.Nodup ∧ f.inorder.Nodup ∧
        n.inorder.Disjoint f.inorder := by
  cases d <;> simp only [sided, inorder_node, List.nodup_append, List.nodup_cons,
    List.mem_cons, List.Disjoint] <;> grind

/-- The number of nodes on a longest path from the root. -/
def height : ColorTree α → ℕ
  | nil => 0
  | node _ l _ r => max l.height r.height + 1

/-- The same tree with its root recoloured. -/
def recolor (c : Color) : ColorTree α → ColorTree α
  | nil => nil
  | node _ l a r => node c l a r

/-! ### The red-black conditions -/

/-- For each path from the root to an empty subtree, the number of black nodes on it. -/
def blackCounts : ColorTree α → List ℕ
  | nil => [0]
  | node c l _ r => (l.blackCounts ++ r.blackCounts).map (· + c.count)

/-- Every path from the root to an empty subtree has exactly `k` black nodes. -/
def BlackHeight : ColorTree α → ℕ → Prop
  | nil, k => k = 0
  | node c l _ r, k => ∃ j, k = j + c.count ∧ l.BlackHeight j ∧ r.BlackHeight j

/-- No red node has a red child. -/
def NoRedRed : ColorTree α → Prop
  | nil => True
  | node c l _ r =>
      (c = .red → l.color = .black ∧ r.color = .black) ∧ l.NoRedRed ∧ r.NoRedRed

/-- The red-black conditions: the root is black, no red node has a red child, and all paths
from the root to an empty subtree have equally many black nodes. -/
structure RedBlack (t : ColorTree α) : Prop where
  root : t.color = .black
  noRedRed : t.NoRedRed
  balanced : ∃ k, ∀ n ∈ t.blackCounts, n = k

@[simp] theorem blackHeight_nil {k : ℕ} : (nil : ColorTree α).BlackHeight k ↔ k = 0 := Iff.rfl

theorem blackHeight_node {c : Color} {l r : ColorTree α} {a : α} {k : ℕ} :
    (node c l a r).BlackHeight k ↔ ∃ j, k = j + c.count ∧ l.BlackHeight j ∧ r.BlackHeight j := Iff.rfl

@[simp] theorem blackHeight_red {l r : ColorTree α} {a : α} {k : ℕ} :
    (node .red l a r).BlackHeight k ↔ l.BlackHeight k ∧ r.BlackHeight k := by
  simp [blackHeight_node]

@[simp] theorem blackHeight_black {l r : ColorTree α} {a : α} {k : ℕ} :
    (node .black l a r).BlackHeight (k + 1) ↔ l.BlackHeight k ∧ r.BlackHeight k := by
  simp [blackHeight_node]

theorem blackHeight_sided {d : Side} {c : Color} {n f : ColorTree α} {a : α} {k : ℕ} :
    (sided d c n a f).BlackHeight k ↔
      ∃ j, k = j + c.count ∧ n.BlackHeight j ∧ f.BlackHeight j := by
  cases d <;> simp only [sided_left, sided_right, blackHeight_node, and_comm]

theorem noRedRed_node {c : Color} {l r : ColorTree α} {a : α} :
    (node c l a r).NoRedRed ↔
      (c = .red → l.color = .black ∧ r.color = .black) ∧ l.NoRedRed ∧ r.NoRedRed := Iff.rfl

theorem noRedRed_sided {d : Side} {c : Color} {n f : ColorTree α} {a : α} :
    (sided d c n a f).NoRedRed ↔
      (c = .red → n.color = .black ∧ f.color = .black) ∧ n.NoRedRed ∧ f.NoRedRed := by
  cases d <;> simp only [sided_left, sided_right, noRedRed_node, and_comm]

theorem blackCounts_nil : (nil : ColorTree α).blackCounts = [0] := rfl

theorem blackCounts_node {c : Color} {l r : ColorTree α} {a : α} :
    (node c l a r).blackCounts = (l.blackCounts ++ r.blackCounts).map (· + c.count) := rfl

theorem blackCounts_ne_nil (t : ColorTree α) : t.blackCounts ≠ [] := by
  cases t with
  | nil => simp [blackCounts_nil]
  | node c l a r =>
    have := blackCounts_ne_nil l
    simp [blackCounts_node, this]

theorem blackHeight_iff_blackCounts {t : ColorTree α} {k : ℕ} :
    t.BlackHeight k ↔ ∀ n ∈ t.blackCounts, n = k := by
  induction t generalizing k with
  | nil => simp [blackCounts_nil, eq_comm]
  | node c l a r ihl ihr =>
    simp only [blackHeight_node, ihl, ihr, blackCounts_node, List.mem_map, List.mem_append,
      forall_exists_index, and_imp, forall_apply_eq_imp_iff₂]
    constructor
    · rintro ⟨j, rfl, hl, hr⟩ n (hn | hn)
      · rw [hl n hn]
      · rw [hr n hn]
    · intro h
      obtain ⟨m, hm⟩ := List.exists_mem_of_ne_nil _ (blackCounts_ne_nil l)
      exact ⟨m, (h m (Or.inl hm)).symm,
        fun n hn => Nat.add_right_cancel ((h n (Or.inl hn)).trans (h m (Or.inl hm)).symm),
        fun n hn => Nat.add_right_cancel ((h n (Or.inr hn)).trans (h m (Or.inl hm)).symm)⟩

theorem redBlack_iff {t : ColorTree α} :
    t.RedBlack ↔ t.color = .black ∧ t.NoRedRed ∧ ∃ k, t.BlackHeight k := by
  constructor
  · rintro ⟨h1, h2, k, h3⟩
    exact ⟨h1, h2, k, blackHeight_iff_blackCounts.mpr h3⟩
  · rintro ⟨h1, h2, k, h3⟩
    exact ⟨h1, h2, k, blackHeight_iff_blackCounts.mp h3⟩

/-- A red subtree is not empty. -/
theorem exists_node_of_red {t : ColorTree α} (h : t.color = .red) : ∃ l a r, t = node .red l a r := by
  cases t with
  | nil => simp at h
  | node c l a r =>
    obtain rfl : c = .red := h
    exact ⟨l, a, r, rfl⟩

/-- A subtree with positive black height is not empty. -/
theorem BlackHeight.exists_node {t : ColorTree α} {k : ℕ} (h : t.BlackHeight (k + 1)) :
    ∃ c l a r, t = node c l a r := by
  cases t with
  | nil => simp at h
  | node c l a r => exact ⟨c, l, a, r, rfl⟩

/-! ### The height bound -/

theorem height_le_of_blackHeight {t : ColorTree α} {k : ℕ} (hk : t.BlackHeight k)
    (hrr : t.NoRedRed) : t.height + t.color.count ≤ 2 * k + 1 := by
  induction t generalizing k with
  | nil => simp [height]
  | node c l a r ihl ihr =>
    obtain ⟨hc, hl, hr⟩ := hrr
    obtain ⟨j, rfl, hlj, hrj⟩ := hk
    have h1 := ihl hlj hl
    have h2 := ihr hrj hr
    cases c with
    | red =>
      obtain ⟨hlc, hrc⟩ := hc rfl
      simp only [hlc, hrc, Color.count_black] at h1 h2
      simp only [height, color_node, Color.count_red]
      omega
    | black =>
      simp only [height, color_node, Color.count_black]
      omega

theorem pow_blackHeight_le {t : ColorTree α} {k : ℕ} (hk : t.BlackHeight k) :
    2 ^ k ≤ t.inorder.length + 1 := by
  induction t generalizing k with
  | nil => simp only [blackHeight_nil] at hk; subst hk; simp
  | node c l a r ihl ihr =>
    obtain ⟨j, rfl, hlj, hrj⟩ := hk
    have h1 := ihl hlj
    have h2 := ihr hrj
    simp only [inorder_node, List.length_append, List.length_cons]
    cases c with
    | red => simp only [Color.count_red, Nat.add_zero]; omega
    | black => simp only [Color.count_black, pow_succ]; omega

/-- **The height bound.** A red-black tree with `n` nodes has height at most
`2 * log₂ (n + 1)`. -/
theorem height_le_of_redBlack {t : ColorTree α} (h : t.RedBlack) :
    t.height ≤ 2 * Nat.log 2 (t.inorder.length + 1) := by
  obtain ⟨hroot, hrr, k, hk⟩ := redBlack_iff.mp h
  have h1 := height_le_of_blackHeight hk hrr
  rw [hroot, Color.count_black] at h1
  have h2 : k ≤ Nat.log 2 (t.inorder.length + 1) :=
    Nat.le_log_of_pow_le (by norm_num) (pow_blackHeight_le hk)
  omega

end ColorTree

/-! ### Zippers -/

/-- One ancestor of a position: the side the position is on, the ancestor's colour and
label, and its subtree on the other side. -/
structure TreeFrame (α : Type) where
  side : Side
  color : Color
  label : α
  sib : ColorTree α

/-- A position in a tree: its ancestors, nearest first. -/
abbrev TreePath (α : Type) : Type := List (TreeFrame α)

open ColorTree

variable {α : Type}

/-- The subtree at an ancestor whose child on the path is `t`. -/
def TreeFrame.attach (f : TreeFrame α) (t : ColorTree α) : ColorTree α :=
  sided f.side f.color t f.label f.sib

/-- The whole tree with `t` at the position. -/
def plug : TreePath α → ColorTree α → ColorTree α
  | [], t => t
  | f :: path, t => plug path (f.attach t)

@[simp] theorem plug_nil (t : ColorTree α) : plug [] t = t := rfl
@[simp] theorem plug_cons (f : TreeFrame α) (path : TreePath α) (t : ColorTree α) :
    plug (f :: path) t = plug path (f.attach t) := rfl

@[simp] theorem TreeFrame.attach_mk (d : Side) (c : Color) (a : α) (s t : ColorTree α) :
    TreeFrame.attach ⟨d, c, a, s⟩ t = sided d c t a s := rfl

@[simp] theorem TreeFrame.color_attach (f : TreeFrame α) (t : ColorTree α) :
    (f.attach t).color = f.color := color_sided _ _ _ _ _

theorem plug_append (p q : TreePath α) (t : ColorTree α) : plug (p ++ q) t = plug q (plug p t) := by
  induction p generalizing t with
  | nil => rfl
  | cons f p ih => exact ih _

/-- The labels to the left of the position. -/
def TreePath.before : TreePath α → List α
  | [] => []
  | ⟨.left, _, _, _⟩ :: path => TreePath.before path
  | ⟨.right, _, a, s⟩ :: path => TreePath.before path ++ (s.inorder ++ [a])

/-- The labels to the right of the position. -/
def TreePath.after : TreePath α → List α
  | [] => []
  | ⟨.left, _, a, s⟩ :: path => a :: s.inorder ++ TreePath.after path
  | ⟨.right, _, _, _⟩ :: path => TreePath.after path

@[simp] theorem TreePath.before_nil : TreePath.before ([] : TreePath α) = [] := rfl
@[simp] theorem TreePath.before_left (c : Color) (a : α) (s : ColorTree α) (path : TreePath α) :
    TreePath.before (⟨.left, c, a, s⟩ :: path) = TreePath.before path := rfl
@[simp] theorem TreePath.before_right (c : Color) (a : α) (s : ColorTree α) (path : TreePath α) :
    TreePath.before (⟨.right, c, a, s⟩ :: path) = TreePath.before path ++ (s.inorder ++ [a]) := rfl

@[simp] theorem TreePath.after_nil : TreePath.after ([] : TreePath α) = [] := rfl
@[simp] theorem TreePath.after_left (c : Color) (a : α) (s : ColorTree α) (path : TreePath α) :
    TreePath.after (⟨.left, c, a, s⟩ :: path) = a :: s.inorder ++ TreePath.after path := rfl
@[simp] theorem TreePath.after_right (c : Color) (a : α) (s : ColorTree α) (path : TreePath α) :
    TreePath.after (⟨.right, c, a, s⟩ :: path) = TreePath.after path := rfl

theorem inorder_plug (path : TreePath α) (t : ColorTree α) :
    (plug path t).inorder = TreePath.before path ++ t.inorder ++ TreePath.after path := by
  induction path generalizing t with
  | nil => simp
  | cons f path ih =>
    rcases f with ⟨_ | _, c, a, s⟩ <;> simp [ih, TreeFrame.attach]

/-! ### Reading from either side -/

/-- The labels in the order that starts on the side `d`. -/
def ColorTree.inorderFrom (d : Side) (t : ColorTree α) : List α :=
  match d with
  | .left => t.inorder
  | .right => t.inorder.reverse

/-- The labels beyond the position, in the order that starts on the side `d`. -/
def TreePath.beyond (d : Side) (path : TreePath α) : List α :=
  match d with
  | .left => TreePath.after path
  | .right => (TreePath.before path).reverse

@[simp] theorem ColorTree.inorderFrom_nil (d : Side) :
    (nil : ColorTree α).inorderFrom d = [] := by cases d <;> rfl

theorem ColorTree.inorderFrom_sided (d : Side) (c : Color) (n : ColorTree α) (a : α)
    (f : ColorTree α) :
    (sided d c n a f).inorderFrom d = n.inorderFrom d ++ a :: f.inorderFrom d := by
  cases d <;> simp [inorderFrom]

@[simp] theorem ColorTree.length_inorderFrom (d : Side) (t : ColorTree α) :
    (t.inorderFrom d).length = t.inorder.length := by cases d <;> simp [inorderFrom]

@[simp] theorem ColorTree.mem_inorderFrom {d : Side} {t : ColorTree α} {a : α} :
    a ∈ t.inorderFrom d ↔ a ∈ t.inorder := by cases d <;> simp [inorderFrom]

@[simp] theorem ColorTree.nodup_inorderFrom {d : Side} {t : ColorTree α} :
    (t.inorderFrom d).Nodup ↔ t.inorder.Nodup := by cases d <;> simp [inorderFrom]

@[simp] theorem TreePath.beyond_nil (d : Side) : TreePath.beyond d ([] : TreePath α) = [] := by
  cases d <;> rfl

theorem TreePath.beyond_cons (d : Side) (c : Color) (a : α) (s : ColorTree α)
    (path : TreePath α) :
    TreePath.beyond d (⟨d, c, a, s⟩ :: path) = a :: (s.inorderFrom d ++ TreePath.beyond d path) := by
  cases d <;> simp [TreePath.beyond, inorderFrom]

theorem TreePath.beyond_cons_flip (d : Side) (c : Color) (a : α) (s : ColorTree α)
    (path : TreePath α) :
    TreePath.beyond d (⟨d.flip, c, a, s⟩ :: path) = TreePath.beyond d path := by
  cases d <;> simp [TreePath.beyond]

theorem inorderFrom_plug (d : Side) (path : TreePath α) (t : ColorTree α) :
    (plug path t).inorderFrom d
      = (TreePath.beyond d.flip path).reverse ++ (t.inorderFrom d ++ TreePath.beyond d path) := by
  cases d <;> simp [TreePath.beyond, inorderFrom, inorder_plug]

/-- Replacing the subtree at a position by one with the same labels keeps the in-order
sequence of the whole tree. -/
theorem inorder_plug_congr {path : TreePath α} {t t' : ColorTree α} (h : t.inorder = t'.inorder) :
    (plug path t).inorder = (plug path t').inorder := by
  rw [inorder_plug, inorder_plug, h]

/-- The labels on the path and in the subtrees hanging off it. -/
def TreePath.labels (path : TreePath α) : List α := TreePath.before path ++ TreePath.after path

theorem TreePath.mem_labels_cons {f : TreeFrame α} {path : TreePath α} {a : α} :
    a ∈ TreePath.labels (f :: path) ↔
      a = f.label ∨ a ∈ f.sib.inorder ∨ a ∈ TreePath.labels path := by
  rcases f with ⟨_ | _, c, b, s⟩ <;>
    simp only [TreePath.labels, TreePath.before_left, TreePath.before_right, TreePath.after_left,
      TreePath.after_right, List.mem_append,
      List.mem_cons, List.not_mem_nil, or_false] <;> tauto

theorem TreePath.mem_labels_append {p q : TreePath α} {a : α} :
    a ∈ TreePath.labels (p ++ q) ↔ a ∈ TreePath.labels p ∨ a ∈ TreePath.labels q := by
  induction p with
  | nil => simp [TreePath.labels]
  | cons f p ih =>
    rw [List.cons_append, TreePath.mem_labels_cons, TreePath.mem_labels_cons, ih]
    tauto

theorem mem_inorder_plug {path : TreePath α} {t : ColorTree α} {a : α} :
    a ∈ (plug path t).inorder ↔ a ∈ TreePath.labels path ∨ a ∈ t.inorder := by
  simp only [inorder_plug, TreePath.labels, List.mem_append]
  tauto

theorem nodup_inorder_plug {path : TreePath α} {t : ColorTree α} :
    (plug path t).inorder.Nodup ↔
      (TreePath.labels path).Nodup ∧ t.inorder.Nodup ∧ t.inorder.Disjoint (TreePath.labels path) := by
  have hperm : (plug path t).inorder.Perm (t.inorder ++ TreePath.labels path) := by
    rw [inorder_plug, TreePath.labels, List.append_assoc, ← List.append_assoc t.inorder]
    refine (List.perm_append_comm_assoc _ _ _).trans ?_
    rw [List.append_assoc]
  rw [hperm.nodup_iff, List.nodup_append]
  constructor
  · rintro ⟨h1, h2, h3⟩
    exact ⟨h2, h1, fun a ha hb => h3 a ha a hb rfl⟩
  · rintro ⟨h1, h2, h3⟩
    exact ⟨h2, h1, fun a ha b hb hab => h3 ha (hab ▸ hb)⟩

theorem TreePath.nodup_labels_cons {f : TreeFrame α} {path : TreePath α}
    (h : (TreePath.labels (f :: path)).Nodup) :
    f.label ∉ f.sib.inorder ∧ f.label ∉ TreePath.labels path := by
  have hnd : (plug (f :: path) nil).inorder.Nodup := by
    rwa [inorder_plug, inorder_nil, List.append_nil]
  rw [plug_cons, nodup_inorder_plug, TreeFrame.attach, nodup_inorder_sided] at hnd
  exact ⟨hnd.2.1.2.1, hnd.2.2 (mem_inorder_sided.mpr (Or.inl rfl))⟩

/-- Every label of a tree is at some position. -/
theorem exists_plug_of_mem {t : ColorTree α} {a : α} (h : a ∈ t.inorder) :
    ∃ path c l r, t = plug path (node c l a r) := by
  induction t with
  | nil => simp at h
  | node c l b r ihl ihr =>
    simp only [inorder_node, List.mem_append, List.mem_cons] at h
    rcases h with h | rfl | h
    · obtain ⟨path, c', l', r', rfl⟩ := ihl h
      exact ⟨path ++ [⟨.left, c, b, r⟩], c', l', r', by simp [plug_append]⟩
    · exact ⟨[], c, l, r, rfl⟩
    · obtain ⟨path, c', l', r', rfl⟩ := ihr h
      exact ⟨path ++ [⟨.right, c, b, l⟩], c', l', r', by simp [plug_append]⟩

/-! ### Red-black conditions along a path -/

/-- Plugging a tree of black height `k` gives black height `K`. -/
def TreePath.BlackHeight : TreePath α → ℕ → ℕ → Prop
  | [], k, K => k = K
  | f :: path, k, K => f.sib.BlackHeight k ∧ TreePath.BlackHeight path (k + f.color.count) K

/-- No red node of the path has a red child, when the position itself has colour `c`. -/
def TreePath.NoRedRed : TreePath α → Color → Prop
  | [], _ => True
  | f :: path, c =>
      (f.color = .red → c = .black ∧ f.sib.color = .black) ∧ f.sib.NoRedRed ∧
        TreePath.NoRedRed path f.color

/-- The colour of the root of the whole tree, when the position itself has colour `c`. -/
def TreePath.rootColor : TreePath α → Color → Color
  | [], c => c
  | f :: path, _ => TreePath.rootColor path f.color

theorem color_plug (path : TreePath α) (t : ColorTree α) :
    (plug path t).color = TreePath.rootColor path t.color := by
  induction path generalizing t with
  | nil => rfl
  | cons f path ih => rw [plug_cons, ih, TreeFrame.color_attach]; rfl

theorem blackHeight_plug {path : TreePath α} {t : ColorTree α} {K : ℕ} :
    (plug path t).BlackHeight K ↔ ∃ k, t.BlackHeight k ∧ TreePath.BlackHeight path k K := by
  induction path generalizing t with
  | nil => simp [TreePath.BlackHeight]
  | cons f path ih =>
    simp only [plug_cons, ih, TreeFrame.attach, blackHeight_sided, TreePath.BlackHeight]
    constructor
    · rintro ⟨_, ⟨j, rfl, ht, hs⟩, hp⟩
      exact ⟨j, ht, hs, hp⟩
    · rintro ⟨k, ht, hs, hp⟩
      exact ⟨_, ⟨k, rfl, ht, hs⟩, hp⟩

theorem noRedRed_plug {path : TreePath α} {t : ColorTree α} :
    (plug path t).NoRedRed ↔ t.NoRedRed ∧ TreePath.NoRedRed path t.color := by
  induction path generalizing t with
  | nil => simp [TreePath.NoRedRed]
  | cons f path ih =>
    simp only [plug_cons, ih, TreeFrame.attach, noRedRed_sided, color_sided, TreePath.NoRedRed]
    tauto

/-- A path that tolerates some colour at its position tolerates black there. -/
theorem TreePath.NoRedRed.black {path : TreePath α} {c : Color} (h : TreePath.NoRedRed path c) :
    TreePath.NoRedRed path .black := by
  cases path with
  | nil => trivial
  | cons f path => exact ⟨fun hf => ⟨rfl, (h.1 hf).2⟩, h.2⟩

end Kernel64
