import Kernel64.Hwfs.Leaf

/-!
# Runs of `btree_insert`

`IsTree bs data l n ps`: block `n` is the root of a well-formed tree of height `l` whose leaves
hold, from left to right, the pairs `ps`. `InsertsCorrectly` is what an insertion into a tree is
for: it terminates, returns 0 and leaves a well-formed tree with the new pair in its place.

`btree_grow` stores the number of the new root in its own first item, instead of the number of the
old one, so that the descent from a root that has grown comes back to that root. Hence an insertion
is correct as long as everything inserted fits in the one leaf a tree starts with, and does not
return otherwise (`insertsCorrectly_iff_fits`).
-/

namespace Kernel64

namespace Hwfs

/-! ### Well-formed trees -/

/-- Block `n` is the root of a tree of height `l` that holds the pairs `ps`. -/
inductive IsTree (bs : ℕ) (data : ℕ → Buf) : ℕ → ℕ → Pairs → Prop
  | leaf {n : ℕ} {ps : Pairs} : IsLeaf bs (data n) ps → IsTree bs data 0 n ps
  | node {l n : ℕ} {child : ℕ → Pairs} :
    level (data n) = l + 1 →
    0 < count (data n) →
    count (data n) ≤ hwfsNodeFanout bs →
    (∀ i j, i ≤ j → j < count (data n) → itemKey (data n) i ≤ itemKey (data n) j) →
    (∀ i < count (data n), ∀ p ∈ child i, itemKey (data n) i ≤ p.1) →
    (∀ i, i + 1 < count (data n) → ∀ p ∈ child i, p.1 ≤ itemKey (data n) (i + 1)) →
    (∀ i < count (data n), IsTree bs data l (itemBlocknr (data n) i) (child i)) →
    IsTree bs data (l + 1) n ((List.range (count (data n))).flatMap child)

/-- The insertion of a pair into the tree terminates, returns 0, and leaves a well-formed tree that
holds the pairs of the old one with the new pair inserted in key order. -/
def InsertsCorrectly (s : BtState) (key : Key) (data : List UInt8) : Prop :=
  ∃ l ps, IsTree s.blockSize s.data l s.root ps ∧
    ∃ N, ∀ fuel ≥ N, Ensures (btreeInsert fuel key data) s fun rc s' =>
      rc = 0 ∧ ∃ l', IsTree s'.blockSize s'.data l' s'.root (ps.orderedInsert ByKey (key, data))

/-- The root of the tree is an empty leaf; the block size fits the 16 bits the super block has for
it and holds at least one item of a node; there is free space, the root is not part of it, and the
device can be read. -/
structure EmptyRoot (s : BtState) : Prop where
  level_eq : level (s.data s.root) = 0
  count_eq : count (s.data s.root) = 0
  le_blockSize : headerSize + itemSize ≤ s.blockSize
  blockSize_lt : s.blockSize < 2 ^ 16
  root_used : s.root < s.fs.next ∨ s.fs.count ≤ s.root
  next_lt : s.fs.next < s.fs.count
  count_lt : s.fs.count < 2 ^ 64
  readable : ∀ n, s.readable n = true

/-- The states reached from `s₀` by insertions that have returned, last one first. -/
inductive Reached (s₀ : BtState) : Pairs → BtState → Prop
  | start : Reached s₀ [] s₀
  | insert {ops : Pairs} {s s' : BtState} {fuel : ℕ} {key : Key} {data : List UInt8} {rc : ℤ} :
    Reached s₀ ops s → btreeInsert fuel key data s = .ok (rc, s') →
    Reached s₀ ((key, data) :: ops) s'

/-- The pairs and their headers fit in one leaf. -/
def FitsLeaf (bs : ℕ) (ps : Pairs) : Prop :=
  headerSize + (ps.map fun p => valueSize + p.2.length).sum ≤ bs

instance (bs : ℕ) (ps : Pairs) : Decidable (FitsLeaf bs ps) :=
  inferInstanceAs (Decidable (_ ≤ _))

/-! ### Insertion into the only leaf -/

/-- A leaf has room for a value exactly when the value and its header fit in the gap. -/
theorem IsLeaf.enoughRoom_iff {bs : ℕ} {b : Buf} {ps : Pairs} (h : IsLeaf bs b ps) (size : ℕ) :
    btreeEnoughRoom bs b size = true ↔
      valueAt (ps.length + 1) + dataLen ps ps.length + size ≤ bs := by
  have hsucc := valueAt_succ ps.length
  rw [btreeEnoughRoom, if_pos h.level_eq, decide_eq_true_iff, h.room_eq, valueSize]
  omega

/-- While everything fits in the root, an insertion only rewrites the root. -/
theorem ensures_btreeInsert_leaf {s : BtState} {ps : Pairs} (hbs : s.blockSize < 2 ^ 16)
    (hleaf : IsLeaf s.blockSize (s.data s.root) ps) (key : Key) (data : List UInt8)
    (hroom : valueAt (ps.length + 1) + dataLen ps ps.length + data.length ≤ s.blockSize)
    (fuel : ℕ) :
    Ensures (btreeInsert (fuel + 1) key data) s fun rc s' =>
      rc = 0 ∧ ∃ b, IsLeaf s.blockSize b (ps.orderedInsert ByKey (key, data)) ∧
        s' = { s with data := Function.update s.data s.root b } := by
  have henough := (hleaf.enoughRoom_iff data.length).2 hroom
  have hspec := leafInsert_spec hleaf hbs key data
  rw [if_neg (by omega)] at hspec
  obtain ⟨b, hinsert, hb⟩ := hspec
  have hlinks : Function.update (Function.update s.links s.root (s.links s.root + 1)) s.root
      (s.links s.root + 1 + -1) = s.links := by
    rw [Function.update_idem]
    funext n
    by_cases hn : n = s.root
    · subst hn
      rw [Function.update_self]
      omega
    · rw [Function.update_of_ne hn]
  simp only [btreeInsert, ensures_bind, ensures_get, henough, if_true, ensures_pure, ne_eq,
    not_true_eq_false, if_false, refBlock, addLinks, ensures_modify, insertLoop, hleaf.level_eq,
    btreeLeafInsert, putBlock, btreeLeafInsertNooverflow, hinsert, modifyData,
    Function.update_self, true_and]
  exact ⟨b, hb, by rw [hlinks]⟩

/-- Even then the descent takes one turn. -/
theorem not_ensures_btreeInsert_zero {s : BtState} {key : Key} {data : List UInt8}
    {Q : ℤ → BtState → Prop}
    (hroom : btreeEnoughRoom s.blockSize (s.data s.root) data.length = true) :
    ¬Ensures (btreeInsert 0 key data) s Q := by
  simp only [btreeInsert, ensures_bind, ensures_get, hroom, if_true, ensures_pure, ne_eq,
    not_true_eq_false, if_false, refBlock, addLinks, ensures_modify, insertLoop, ensures_throw,
    not_false_eq_true]

/-! ### Insertion into a root that has grown -/

/-- A node of one item that leads back to the node, in blocks of `bs` bytes. -/
structure SelfLoop (bs r : ℕ) (s : BtState) : Prop where
  blockSize_eq : s.blockSize = bs
  level_eq : level (s.data r) = 1
  count_eq : count (s.data r) = 1
  blocknr_eq : itemBlocknr (s.data r) 0 = r
  readable : s.readable r = true

/-- What bounds the choice of a child in a node of one item. -/
theorem btreeUpperBound_le_one {b : Buf} (hlevel : level b = 1) (hcount : count b = 1) (key : Key) :
    btreeUpperBound b key ≤ 1 := by
  rw [btreeUpperBound, if_neg (by omega), upperBoundLoop, hcount]
  refine (boundLoop_spec _ 0 1 fun i j _ hij hj hm => ?_).2.1
  obtain rfl : i = j := by omega
  exact hm

section

variable {bs r : ℕ} {s : BtState}

/-- The choice of a child leaves the loop as it is. -/
theorem SelfLoop.chooseSlot (h : SelfLoop bs r s) (key : Key) :
    Ensures (chooseSlot r key) s fun slot s' => slot = 0 ∧ SelfLoop bs r s' := by
  have hle := btreeUpperBound_le_one h.level_eq h.count_eq key
  rw [Hwfs.chooseSlot, ensures_bind, ensures_get, ensures_ite]
  refine ⟨fun _ => ?_, fun hne => ?_⟩
  · have hsix : itemAt 0 = 6 := rfl
    have hfield : ∀ w o, o + w ≤ 6 ∨ 23 ≤ o →
        (hwfsKeyToDisk (s.data r) (itemAt 0) key).field w o = (s.data r).field w o := by
      intro w o ho
      exact Buf.field_congr fun j hj => hwfsKeyToDisk_outside (by omega)
    simp only [modifyData, ensures_bind, ensures_modify, ensures_pure, true_and]
    refine ⟨h.blockSize_eq, ?_, ?_, ?_, h.readable⟩
    · simp only [Function.update_self, level]
      rw [hfield 2 0 (by omega)]
      exact h.level_eq
    · simp only [Function.update_self, count]
      rw [hfield 2 2 (by omega)]
      exact h.count_eq
    · simp only [Function.update_self, itemBlocknr]
      rw [hfield 8 _ (by omega)]
      exact h.blocknr_eq
  · rw [ensures_pure]
    exact ⟨by omega, h⟩

/-- Counting references does not touch the loop. -/
theorem SelfLoop.addLinks (h : SelfLoop bs r s) (n : ℕ) (d : ℤ) :
    Ensures (addLinks n d) s fun _ s' => SelfLoop bs r s' :=
  ensures_modify.2 ⟨h.blockSize_eq, h.level_eq, h.count_eq, h.blocknr_eq, h.readable⟩

theorem SelfLoop.putBlock (h : SelfLoop bs r s) (p : Option ℕ) :
    Ensures (putBlock p) s fun _ s' => SelfLoop bs r s' := by
  cases p with
  | none => exact ensures_pure.2 h
  | some n => exact h.addLinks n (-1)

theorem SelfLoop.getBlock (h : SelfLoop bs r s) :
    Ensures (getBlock r) s fun p s' => p = some r ∧ SelfLoop bs r s' := by
  rw [Hwfs.getBlock, ensures_bind, ensures_get, if_pos h.readable, ensures_bind]
  exact (h.addLinks r 1).mono fun _ _ h' => ensures_pure.2 ⟨rfl, h'⟩

theorem SelfLoop.refBlock (h : SelfLoop bs r s) :
    Ensures (refBlock r) s fun p s' => p = r ∧ SelfLoop bs r s' := by
  rw [Hwfs.refBlock, ensures_bind]
  exact (h.addLinks r 1).mono fun _ _ h' => ensures_pure.2 ⟨rfl, h'⟩

end

/-- The descent from a node that leads back to itself does not end. -/
theorem SelfLoop.not_ensures_insertLoop {bs r : ℕ} (key : Key) (data : List UInt8)
    {Q : ℤ → BtState → Prop} : ∀ (fuel : ℕ) {s : BtState} {parent : Option ℕ} (slot : ℕ),
    SelfLoop bs r s → 1 < (hwfsNodeFanout bs + (2 ^ 64 - 1)) % 2 ^ 64 ∨ parent = none →
      ¬Ensures (insertLoop key data fuel parent slot r) s Q
  | 0, _, _, _, _, _ => by simp [insertLoop]
  | fuel + 1, s, parent, slot, h, hroom => by
    have henough : btreeEnoughRoom s.blockSize (s.data r) data.length =
        decide (1 < (hwfsNodeFanout bs + (2 ^ 64 - 1)) % 2 ^ 64) := by
      rw [btreeEnoughRoom, h.level_eq, if_neg Nat.one_ne_zero, h.count_eq, h.blockSize_eq]
    rw [insertLoop, ensures_bind, ensures_get, h.level_eq, if_neg Nat.one_ne_zero, henough]
    by_cases hfan : 1 < (hwfsNodeFanout bs + (2 ^ 64 - 1)) % 2 ^ 64
    · simp only [hfan, decide_true, if_true, pure_bind]
      refine (h.putBlock parent).not_bind fun _ s₁ h₁ => ?_
      refine (h₁.chooseSlot key).not_bind fun slot' s₂ h₂ => ?_
      obtain ⟨rfl, h₂⟩ := h₂
      rw [ensures_bind, ensures_get, h₂.blocknr_eq]
      refine h₂.getBlock.not_bind fun p s₃ h₃ => ?_
      obtain ⟨rfl, h₃⟩ := h₃
      exact not_ensures_insertLoop key data fuel 0 h₃ (Or.inl hfan)
    · obtain rfl : parent = none := hroom.resolve_left hfan
      simp only [hfan, decide_false, Bool.false_eq_true, if_false, splitFull, deref, ensures_bind,
        ensures_throw, not_false_eq_true]

/-- The header and the pointer of a root that has grown. -/
theorem grownRoot_fields (b old : Buf) (src l n : ℕ) (hn : n < 2 ^ 64) :
    let c := setItemBlocknr (Buf.copy (setBlocks (setCount (setLevel b (l + 1)) 1) 0) (itemAt 0)
      old src 17) 0 n
    level c = (l + 1) % 2 ^ 16 ∧ count c = 1 ∧ itemBlocknr c 0 = n := by
  have hsix : itemAt 0 = 6 := rfl
  intro c
  have hhead : ∀ w o, o + w ≤ 6 →
      c.field w o = (setBlocks (setCount (setLevel b (l + 1)) 1) 0).field w o := by
    intro w o ho
    refine Buf.field_congr fun j hj => ?_
    simp only [c, setItemBlocknr]
    rw [Buf.setField_outside (by omega), Buf.copy_outside (by omega)]
  refine ⟨?_, ?_, ?_⟩
  · rw [level, hhead 2 0 (by omega), setBlocks, Buf.field_setField_of_disjoint (by omega), setCount,
      Buf.field_setField_of_disjoint (by omega), setLevel, Buf.field_setField]
    rfl
  · rw [count, hhead 2 2 (by omega), setBlocks, Buf.field_setField_of_disjoint (by omega), setCount,
      Buf.field_setField]
    rfl
  · simp only [itemBlocknr, c, setItemBlocknr]
    rw [Buf.field_setField]
    exact Nat.mod_eq_of_lt hn

/-- A root that grows leads back to itself. -/
theorem ensures_btreeGrow {s : BtState} (hroot : s.root ≠ s.fs.next)
    (hnext : s.fs.next < s.fs.count) (hcount : s.fs.count < 2 ^ 64)
    (hread : s.readable s.fs.next = true) (hlevel : level (s.data s.root) = 0) :
    Ensures btreeGrow s fun rc s' => rc = 0 ∧ SelfLoop s.blockSize s'.root s' := by
  simp only [btreeGrow, btreeAllocNode, getBlock, addLinks, modifyData, ensures_bind, ensures_get,
    hnext.ne, if_false, hread, if_true, ensures_modify, ensures_pure, deref, putBlock,
    Function.update_self, true_and, Function.update_of_ne hroot, hlevel]
  obtain ⟨hl, hc, hb⟩ := grownRoot_fields
    (setBlocks (Buf.store (s.data s.fs.next) 0 (List.replicate s.blockSize 0)) 1) (s.data s.root)
    (valueAt 0) 0 s.fs.next (by omega)
  refine ⟨rfl, ?_, ?_, ?_, hread⟩
  · simpa only [Function.update_self] using hl.trans (Nat.mod_eq_of_lt (by decide))
  · simpa only [Function.update_self] using hc
  · simpa only [Function.update_self] using hb

/-! ### Runs -/

/-- The invariant of a run: all that was inserted is in the root, which is a leaf. -/
structure InRoot (s₀ : BtState) (ops : Pairs) (s : BtState) : Prop where
  leaf : ∃ ps, ps.Perm ops ∧ IsLeaf s₀.blockSize (s.data s₀.root) ps
  same : ∃ data, s = { s₀ with data := data }

/-- The bytes a list of pairs needs, in terms of the layout of a leaf. -/
theorem fitsLeaf_cons_iff {bs : ℕ} {ps ops : Pairs} (hperm : ps.Perm ops) (key : Key)
    (data : List UInt8) : FitsLeaf bs ((key, data) :: ops) ↔
      valueAt (ps.length + 1) + dataLen ps ps.length + data.length ≤ bs := by
  have hsum : ∀ qs : Pairs, (qs.map fun p => valueSize + p.2.length).sum =
      valueSize * qs.length + (qs.map fun p => p.2.length).sum := by
    intro qs
    induction qs with
    | nil => rfl
    | cons q qs ih =>
      rw [List.map_cons, List.sum_cons, ih, List.map_cons, List.sum_cons, List.length_cons,
        Nat.mul_succ]
      omega
  have hdata : dataLen ps ps.length = (ops.map fun p => p.2.length).sum := by
    rw [dataLen, List.take_length]
    exact (hperm.map _).sum_eq
  rw [FitsLeaf, List.map_cons, List.sum_cons, hsum, hdata, ← hperm.length_eq, valueAt_succ, valueAt,
    valueSize]
  simp only
  omega

/-- One insertion from a state of the run: it stays in the root, or does not return. -/
theorem InRoot.insert {s₀ s : BtState} {ops : Pairs} (h₀ : EmptyRoot s₀) (h : InRoot s₀ ops s)
    (key : Key) (data : List UInt8) :
    (FitsLeaf s₀.blockSize ((key, data) :: ops) →
      btreeEnoughRoom s.blockSize (s.data s.root) data.length = true ∧
      ∃ ps, IsLeaf s.blockSize (s.data s.root) ps ∧ ∀ fuel,
        Ensures (btreeInsert (fuel + 1) key data) s fun rc s' =>
          rc = 0 ∧ InRoot s₀ ((key, data) :: ops) s' ∧
            IsLeaf s'.blockSize (s'.data s'.root) (ps.orderedInsert ByKey (key, data))) ∧
    (¬FitsLeaf s₀.blockSize ((key, data) :: ops) →
      ∀ fuel Q, ¬Ensures (btreeInsert fuel key data) s Q) := by
  obtain ⟨ps, hperm, hleaf⟩ := h.leaf
  obtain ⟨blocks, rfl⟩ := h.same
  rw [fitsLeaf_cons_iff hperm]
  refine ⟨fun hfits => ⟨(hleaf.enoughRoom_iff _).2 hfits, ps, hleaf, fun fuel => ?_⟩,
    fun hfull fuel Q => ?_⟩
  · have hinsert := ensures_btreeInsert_leaf (s := { s₀ with data := blocks }) h₀.blockSize_lt  hleaf key data hfits
      fuel
    refine hinsert.mono fun rc s' ⟨hrc, b, hb, hs'⟩ => ?_
    subst hs'
    have hroot : IsLeaf s₀.blockSize (Function.update blocks s₀.root b s₀.root)
        (ps.orderedInsert ByKey (key, data)) := by
      rw [Function.update_self]
      exact hb
    refine ⟨hrc, ⟨⟨_, ?_, hroot⟩, _, rfl⟩, hroot⟩
    exact (List.perm_orderedInsert ByKey (key, data) ps).trans (hperm.cons _)
  · have hroom : btreeEnoughRoom s₀.blockSize (blocks s₀.root) data.length = false := by
      rw [← Bool.not_eq_true, hleaf.enoughRoom_iff]
      exact hfull
    have hne : s₀.root ≠ s₀.fs.next := by
      have := h₀.root_used
      have := h₀.next_lt
      omega
    rw [btreeInsert, ensures_bind, ensures_get]
    simp only [hroom, Bool.false_eq_true, if_false]
    have hgrow := ensures_btreeGrow (s := { s₀ with data := blocks }) hne h₀.next_lt h₀.count_lt
      (h₀.readable _) hleaf.level_eq
    refine hgrow.not_bind fun rc s₁ ⟨hrc, h₁⟩ => ?_
    rw [hrc, if_neg (by simp), ensures_bind, ensures_get]
    refine h₁.refBlock.not_bind fun block s₂ ⟨hblock, h₂⟩ => ?_
    rw [hblock]
    exact h₂.not_ensures_insertLoop key data fuel 0 (Or.inr rfl)

/-- The empty root is the start of a run. -/
theorem EmptyRoot.inRoot {s₀ : BtState} (h₀ : EmptyRoot s₀) : InRoot s₀ [] s₀ := by
  refine ⟨⟨[], List.Perm.nil, ?_⟩, s₀.data, rfl⟩
  have hle := h₀.le_blockSize
  refine ⟨h₀.level_eq, h₀.count_eq, List.Pairwise.nil, ?_, fun i hi => absurd hi (Nat.not_lt_zero i),
    fun i hi => absurd hi (Nat.not_lt_zero i)⟩
  rw [List.length_nil, dataLen_zero, valueAt]
  omega

/-- Whatever has returned so far is in the root. -/
theorem Reached.inRoot {s₀ s : BtState} {ops : Pairs} (h₀ : EmptyRoot s₀) (h : Reached s₀ ops s) :
    InRoot s₀ ops s := by
  induction h with
  | start => exact h₀.inRoot
  | @insert ops s s' fuel key data rc _ hrun ih =>
    by_cases hfits : FitsLeaf s₀.blockSize ((key, data) :: ops)
    · obtain ⟨hroom, ps, -, hinsert⟩ := (ih.insert h₀ key data).1 hfits
      cases fuel with
      | zero => exact absurd ⟨rc, s', hrun, trivial⟩ (not_ensures_btreeInsert_zero hroom
          (Q := fun _ _ => True))
      | succ fuel => exact ((hinsert fuel).of_run hrun).2.1
    · exact absurd ⟨rc, s', hrun, trivial⟩ ((ih.insert h₀ key data).2 hfits fuel fun _ _ => True)

/-- A tree as `mkfs` sets it up, on a disk of eight blocks: the root is block 1, and blocks 3 to 7
are free. -/
def freshTree : BtState where
  blockSize := 4096
  data := fun _ => setBlocks (fun _ => 0) 1
  links := fun _ => 0
  readable := fun _ => true
  fs := ⟨8, 3⟩
  root := 1

theorem freshTree_emptyRoot : EmptyRoot freshTree where
  level_eq := by decide
  count_eq := by decide
  le_blockSize := by decide
  blockSize_lt := by decide
  root_used := by decide
  next_lt := by decide
  count_lt := by decide
  readable := fun _ => rfl

/-- The key of the low sentinel `mkfs` inserts first. -/
def lowSentinel : Key := ⟨0, 0, 0⟩

/-- The key of the high sentinel `mkfs` inserts next. -/
def highSentinel : Key := ⟨UInt64.ofNat (2 ^ 64 - 1), 255, UInt64.ofNat (2 ^ 64 - 1)⟩

/-- A first insertion into the tree, of data that fits in a leaf. -/
theorem freshTree_reaches (key : Key) (data : List UInt8) (h : FitsLeaf 4096 [(key, data)]) :
    ∃ s, Reached freshTree [(key, data)] s := by
  obtain ⟨-, ps, -, hinsert⟩ := (freshTree_emptyRoot.inRoot.insert freshTree_emptyRoot key data).1 h
  obtain ⟨rc, s, hrun, -⟩ := hinsert 0
  exact ⟨s, .insert .start hrun⟩

/-- **Insertion.** In every state reached from an empty leaf by insertions that have returned, a
further insertion does what it is for if and only if all pairs, the new one included, fit in one
leaf. -/
theorem insertsCorrectly_iff_fits {s₀ s : BtState} {ops : Pairs} (h₀ : EmptyRoot s₀)
    (h : Reached s₀ ops s) (key : Key) (data : List UInt8) :
    InsertsCorrectly s key data ↔ FitsLeaf s₀.blockSize ((key, data) :: ops) := by
  obtain ⟨hok, hfail⟩ := (h.inRoot h₀).insert h₀ key data
  constructor
  · rintro ⟨l, ps, -, N, hN⟩
    by_contra hfull
    exact hfail hfull N _ (hN N le_rfl)
  · intro hfits
    obtain ⟨-, ps, hleaf, hinsert⟩ := hok hfits
    refine ⟨0, ps, .leaf hleaf, 1, fun fuel hfuel => ?_⟩
    obtain ⟨m, rfl⟩ : ∃ m, fuel = m + 1 := ⟨fuel - 1, by omega⟩
    exact (hinsert m).mono fun rc s' ⟨hrc, _, hleaf'⟩ => ⟨hrc, 0, .leaf hleaf'⟩

/-- The two sentinels `mkfs` starts with. -/
theorem freshTree_insertsCorrectly : ∃ s, Reached freshTree [(lowSentinel, [])] s ∧
    InsertsCorrectly s highSentinel [] := by
  obtain ⟨s, hs⟩ := freshTree_reaches lowSentinel [] (by decide)
  exact ⟨s, hs, (insertsCorrectly_iff_fits freshTree_emptyRoot hs highSentinel []).2 (by decide)⟩

/-- Two values of 2048 bytes each fit in a leaf of 4096 bytes one by one, but the insertion of the
second one grows the root and does not return. -/
theorem second_insert_never_returns : ∃ data : List UInt8,
    FitsLeaf 4096 [(lowSentinel, data)] ∧ FitsLeaf 4096 [(highSentinel, data)] ∧
    ∃ s, Reached freshTree [(lowSentinel, data)] s ∧ ¬InsertsCorrectly s highSentinel data := by
  obtain ⟨data, hlen⟩ : ∃ data : List UInt8, data.length = 2048 :=
    ⟨List.replicate 2048 0, List.length_replicate⟩
  have hfits : ∀ key, FitsLeaf 4096 [(key, data)] := fun key => by
    simp only [FitsLeaf, headerSize, valueSize, List.map_cons, List.map_nil, List.sum_cons,
      List.sum_nil, hlen]
    omega
  obtain ⟨s, hs⟩ := freshTree_reaches lowSentinel data (hfits _)
  refine ⟨data, hfits _, hfits _, s, hs, ?_⟩
  rintro ⟨l, ps, -, N, hN⟩
  refine ((hs.inRoot freshTree_emptyRoot).insert freshTree_emptyRoot highSentinel _).2 ?_ N _
    (hN N le_rfl)
  simp only [FitsLeaf, headerSize, valueSize, List.map_cons, List.map_nil, List.sum_cons,
    List.sum_nil, hlen, freshTree]
  omega

end Hwfs

end Kernel64
