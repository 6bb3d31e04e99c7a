import Kernel64.Lib.Prog
import Kernel64.Lib.ColorTree

/-!
# The intrusive red-black tree

A model of `rbtree.c` and `rbtree.h` at the level of the nodes in memory: a node is three
machine words, its colour is bit `0` of the parent word, and every access through a pointer
faults on null. `struct rb_node` is embedded in other structures, so a node is known by its
address alone.

`struct rb_node **plink` is a `Slot`: the address of the root pointer or of a child pointer
of some node.
-/

namespace Kernel64

/-- A machine word holding an address; `0` is the null pointer. -/
abbrev Ptr : Type := BitVec 64

/-- `struct rb_node`. -/
structure RbNode where
  left : Ptr
  right : Ptr
  /-- The parent's address, with the colour in bit `0`. -/
  parent : BitVec 64
  deriving DecidableEq, Repr

/-- The memory the tree operations work on: all nodes, and one `struct rb_tree`. -/
structure RbState where
  node : Ptr → RbNode
  root : Ptr

/-- The memory with the node at `a` replaced. -/
def RbState.put (s : RbState) (a : Ptr) (n : RbNode) : RbState :=
  { s with node := Function.update s.node a n }

/-- `struct rb_node **`. -/
inductive Slot where
  | root
  | left (parent : Ptr)
  | right (parent : Ptr)
  deriving DecidableEq, Repr

/-- The colour bit: `RED` is `0`, `BLACK` is `1`. -/
def Color.bit : Color → BitVec 64
  | .red => 0#64
  | .black => 1#64

namespace Rb

/-- Programs over the tree nodes. -/
abbrev RbM (α : Type) : Type := Prog RbState α

/-! ### Memory access -/

/-- `*a`. -/
def load (a : Ptr) : RbM RbNode := do
  if a = 0#64 then throw .null
  return (← get).node a

/-- `*a = n`. -/
def store (a : Ptr) (n : RbNode) : RbM Unit := do
  if a = 0#64 then throw .null
  modify fun s => s.put a n

/-- `a->left`. -/
def left (a : Ptr) : RbM Ptr := do return (← load a).left

/-- `a->right`. -/
def right (a : Ptr) : RbM Ptr := do return (← load a).right

/-- `a->left = c`. -/
def setLeft (a c : Ptr) : RbM Unit := do store a { ← load a with left := c }

/-- `a->right = c`. -/
def setRight (a c : Ptr) : RbM Unit := do store a { ← load a with right := c }

/-- `a->parent = w`, the whole word. -/
def setParentWord (a : Ptr) (w : BitVec 64) : RbM Unit := do
  store a { ← load a with parent := w }

/-- `a->left` or `a->right`, for code that has a mirror image. -/
def child : Side → Ptr → RbM Ptr
  | .left => left
  | .right => right

/-- `a->left = c` or `a->right = c`, for code that has a mirror image. -/
def setChild : Side → Ptr → Ptr → RbM Unit
  | .left => setLeft
  | .right => setRight

/-- `tree->root`. -/
def root : RbM Ptr := do return (← get).root

/-- `tree->root = a`. -/
def setRoot (a : Ptr) : RbM Unit := modify fun s => { s with root := a }

/-- `*plink = a`. -/
def setSlot : Slot → Ptr → RbM Unit
  | .root, a => setRoot a
  | .left p, a => setLeft p a
  | .right p, a => setRight p a

/-! ### Colour and parent -/

def rbColor (node : Ptr) : RbM Color := do
  return if (← load node).parent &&& 1#64 = 0#64 then .red else .black

def rbSetColor (node : Ptr) (color : Color) : RbM Unit := do
  setParentWord node (((← load node).parent &&& ~~~1#64) ||| color.bit)

def rbSetRed (node : Ptr) : RbM Unit := rbSetColor node .red

def rbSetBlack (node : Ptr) : RbM Unit := rbSetColor node .black

def rbParent (node : Ptr) : RbM Ptr := do return (← load node).parent &&& ~~~1#64

def rbSetParent (child parent : Ptr) : RbM Unit := do
  setParentWord child (((← load child).parent &&& 1#64) ||| parent)

/-- A null pointer is not red. -/
def rbRed (node : Ptr) : RbM Bool := do
  if node = 0#64 then return false
  return (← rbColor node) = .red

def rbBlack (node : Ptr) : RbM Bool := do return !(← rbRed node)

/-- `if (child) rb_set_parent(child, parent)`. -/
def reparent (child parent : Ptr) : RbM Unit :=
  if child ≠ 0#64 then rbSetParent child parent else return ()

/-! ### Rotations -/

/-- The pointer of `p` to its child `x` becomes `y`; when `p` is null, `tree->root` does. -/
def replaceChild (p x y : Ptr) : RbM Unit := do
  if p ≠ 0#64 then
    if (← left p) = x then setLeft p y else setRight p y
  else
    setRoot y

/-- The rotation that moves `x` down to the side `d`. -/
def rbRotate (d : Side) (x : Ptr) : RbM Unit := do
  let p ← rbParent x
  let r ← child d.flip x
  setChild d.flip x (← child d r)
  reparent (← child d.flip x) x
  setChild d r x
  rbSetParent r p
  replaceChild p x r
  rbSetParent x r

def rbRotateLeft : Ptr → RbM Unit := rbRotate .left

def rbRotateRight : Ptr → RbM Unit := rbRotate .right

/-! ### Traversal -/

/-- The loop of `rb_rightmost`. -/
def rightmostLoop : ℕ → Ptr → RbM Ptr
  | 0, _ => throw .fuel
  | fuel + 1, node => do
    if (← right node) ≠ 0#64 then rightmostLoop fuel (← right node) else return node

def rbRightmost (fuel : ℕ) (node : Ptr) : RbM Ptr :=
  if node = 0#64 then return 0#64 else rightmostLoop fuel node

/-- The loop of `rb_leftmost`. -/
def leftmostLoop : ℕ → Ptr → RbM Ptr
  | 0, _ => throw .fuel
  | fuel + 1, node => do
    if (← left node) ≠ 0#64 then leftmostLoop fuel (← left node) else return node

def rbLeftmost (fuel : ℕ) (node : Ptr) : RbM Ptr :=
  if node = 0#64 then return 0#64 else leftmostLoop fuel node

/-- The climbing loop of `rb_next`: leave the right subtrees behind. -/
def nextLoop : ℕ → Ptr → Ptr → RbM Ptr
  | 0, _, _ => throw .fuel
  | fuel + 1, node, p => do
    if p = 0#64 then return p
    if (← right p) = node then nextLoop fuel p (← rbParent p) else return p

def rbNext (fuel : ℕ) (node : Ptr) : RbM Ptr := do
  if node = 0#64 then return 0#64
  if (← right node) ≠ 0#64 then rbLeftmost fuel (← right node)
  else nextLoop fuel node (← rbParent node)

/-- The climbing loop of `rb_prev`: leave the left subtrees behind. -/
def prevLoop : ℕ → Ptr → Ptr → RbM Ptr
  | 0, _, _ => throw .fuel
  | fuel + 1, node, p => do
    if p = 0#64 then return p
    if (← left p) = node then prevLoop fuel p (← rbParent p) else return p

def rbPrev (fuel : ℕ) (node : Ptr) : RbM Ptr := do
  if node = 0#64 then return 0#64
  if (← left node) ≠ 0#64 then rbRightmost fuel (← left node)
  else prevLoop fuel node (← rbParent node)

/-! ### Insertion -/

def rbLink (node parent : Ptr) (plink : Slot) : RbM Unit := do
  setParentWord node parent
  setRight node 0#64
  setLeft node 0#64
  setSlot plink node

/-- One half of the loop body of `rb_insert`, for a red parent `p` on the side `d` of the
grandparent `g`; `next` is the loop, for the `continue`. -/
def insertSide (d : Side) (next : Ptr → Ptr → RbM Unit) (node p g : Ptr) : RbM Unit := do
  let uncle ← child d.flip g
  if ← rbRed uncle then
    rbSetRed g
    rbSetBlack p
    rbSetBlack uncle
    next g (← rbParent g)
  else if node = (← child d.flip p) then
    rbRotate d p
    rbRotate d.flip g
    rbSetBlack node
    rbSetRed g
  else
    rbRotate d.flip g
    rbSetBlack p
    rbSetRed g

/-- The `while (rb_red(p))` loop of `rb_insert`. -/
def insertLoop : ℕ → Ptr → Ptr → RbM Unit
  | 0, _, _ => throw .fuel
  | fuel + 1, node, p => do
    if ← rbRed p then
      let g ← rbParent p
      if p = (← left g) then insertSide .left (insertLoop fuel) node p g
      else insertSide .right (insertLoop fuel) node p g
    else return ()

def rbInsert (fuel : ℕ) (node : Ptr) : RbM Unit := do
  insertLoop fuel node (← rbParent node)
  rbSetBlack (← root)

/-! ### Removal -/

/-- The sibling of a deficient child on the side `d` of `parent`, made black by a rotation
when it was red. -/
def blackSibling (d : Side) (parent : Ptr) : RbM Ptr := do
  let b ← child d.flip parent
  if ← rbRed b then
    rbSetBlack b
    rbSetRed parent
    rbRotate d parent
    child d.flip parent
  else return b

/-- The sibling `b` of a deficient child on the side `d` of `parent`, replaced by its child
on that side when its child on the other side is black. -/
def redNephew (d : Side) (parent b : Ptr) : RbM Ptr := do
  if ← rbBlack (← child d.flip b) then
    rbSetBlack (← child d b)
    rbSetRed b
    rbRotate d.flip b
    child d.flip parent
  else return b

/-- One half of the loop body of `rb_erase_fix`, for a deficient child on the side `d` of
`parent`; `next` is the loop. -/
def eraseFixSide (d : Side) (next : Ptr → Ptr → RbM Ptr) (parent : Ptr) : RbM Ptr := do
  let b ← blackSibling d parent
  if (← rbBlack (← child d b)) ∧ (← rbBlack (← child d.flip b)) then
    rbSetRed b
    next parent (← rbParent parent)
  else
    let b ← redNephew d parent b
    rbSetColor b (← rbColor parent)
    rbSetBlack parent
    if (← child d.flip b) ≠ 0#64 then
      rbSetBlack (← child d.flip b)
    rbRotate d parent
    root

/-- The loop of `rb_erase_fix`; returns the final value of `child`. -/
def eraseFixLoop : ℕ → Ptr → Ptr → RbM Ptr
  | 0, _, _ => throw .fuel
  | fuel + 1, child, parent => do
    if (← rbBlack child) ∧ child ≠ (← root) then
      if child = (← left parent) then eraseFixSide .left (eraseFixLoop fuel) parent
      else eraseFixSide .right (eraseFixLoop fuel) parent
    else return child

def rbEraseFix (fuel : ℕ) (child parent : Ptr) : RbM Unit := do
  let child ← eraseFixLoop fuel child parent
  if child ≠ 0#64 then rbSetBlack child

/-- `node->left ? node->left : node->right`. -/
def leftOrRight (node : Ptr) : RbM Ptr := do
  if (← left node) ≠ 0#64 then left node else right node

/-- The first half of `rb_erase`: take `node`, or its successor in its place, out of its
position. Returns `(p, c, x, color)`. -/
def unlink (fuel : ℕ) (node : Ptr) : RbM (Ptr × Ptr × Ptr × Color) := do
  if (← left node) ≠ 0#64 ∧ (← right node) ≠ 0#64 then
    let x ← rbNext fuel node
    let c ← right x
    let color ← rbColor x
    if x = (← right node) then
      setLeft x (← left node)
      setParentWord x (← load node).parent
      rbSetParent (← left x) x
      return (x, c, x, color)
    else
      let p ← rbParent x
      store x (← load node)
      setLeft p c
      reparent c p
      rbSetParent (← left x) x
      rbSetParent (← right x) x
      return (p, c, x, color)
  else
    let p ← rbParent node
    let color ← rbColor node
    let c ← leftOrRight node
    reparent c p
    return (p, c, c, color)

def rbErase (fuel : ℕ) (node : Ptr) : RbM Unit := do
  let (p, c, x, color) ← unlink fuel node
  replaceChild (← rbParent node) node x
  if color = .black then rbEraseFix fuel c p

end Rb

end Kernel64
