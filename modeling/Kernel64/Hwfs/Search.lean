import Kernel64.Hwfs.Leaf

/-!
# Searching any node

`btree_lower_bound` and `btree_upper_bound` search a leaf and an internal node by the same loop,
over values or over items. In a node whose keys do not decrease they count the keys below, or not
above, the key sought (`btreeBounds_count`). `boundReads` lists the slots the loop compares with:
they are slots of the node, and nothing else of the node matters.
-/

namespace Kernel64

namespace Hwfs

/-- The offset of slot `i`: of a value in a leaf, of an item in an internal node. -/
def slotAt (b : Buf) (i : ℕ) : ℕ := if level b = 0 then valueAt i else itemAt i

/-- The key in slot `i`. -/
def slotKey (b : Buf) (i : ℕ) : Key := hwfsKeyToHost b (slotAt b i)

/-- The keys of a node do not decrease. -/
def KeysSorted (b : Buf) : Prop := ∀ i j, i ≤ j → j < count b → slotKey b i ≤ slotKey b j

/-! ### The loop -/

/-- The slots that `boundLoop` compares with, in order. -/
def boundReads (after : ℕ → Bool) (pos len : ℕ) : List ℕ :=
  if len = 0 then []
  else if after (pos + len / 2) then
    (pos + len / 2) :: boundReads after (pos + len / 2 + 1) (len - len / 2 - 1)
  else (pos + len / 2) :: boundReads after pos (len / 2)
termination_by len

/-- The loop compares with slots of its range only. -/
theorem mem_boundReads {after : ℕ → Bool} {pos len m : ℕ} (h : m ∈ boundReads after pos len) :
    pos ≤ m ∧ m < pos + len := by
  fun_induction boundReads after pos len with
  | case1 pos => exact absurd h List.not_mem_nil
  | case2 pos len hlen hm ih =>
    rcases List.mem_cons.1 h with rfl | h
    · omega
    · have := ih h
      omega
  | case3 pos len hlen hm ih =>
    rcases List.mem_cons.1 h with rfl | h
    · omega
    · have := ih h
      omega

/-- The slots compared with determine the result. -/
theorem boundLoop_congr {after after' : ℕ → Bool} {pos len : ℕ}
    (h : ∀ m ∈ boundReads after pos len, after' m = after m) :
    boundLoop after' pos len = boundLoop after pos len := by
  fun_induction boundReads after pos len with
  | case1 pos => simp [boundLoop]
  | case2 pos len hlen hm ih =>
    have hhere := h _ List.mem_cons_self
    rw [boundLoop, if_neg hlen, hhere, if_pos hm, ih fun m hmem => h m (List.mem_cons_of_mem _ hmem)]
    rw [boundLoop.eq_def after pos len, if_neg hlen, if_pos hm]
  | case3 pos len hlen hm ih =>
    have hhere := h _ List.mem_cons_self
    rw [boundLoop, if_neg hlen, hhere, if_neg hm, ih fun m hmem => h m (List.mem_cons_of_mem _ hmem)]
    rw [boundLoop.eq_def after pos len, if_neg hlen, if_neg hm]

/-- An initial stretch that ends at `r` has `r` members. -/
theorem countP_range_eq {p : ℕ → Bool} {n r : ℕ} (hr : r ≤ n) (hlt : ∀ i < r, p i = true)
    (hge : ∀ i, r ≤ i → i < n → p i = false) : (List.range n).countP p = r := by
  obtain ⟨k, rfl⟩ := Nat.exists_eq_add_of_le hr
  rw [List.range_add, List.countP_append, List.countP_eq_length.2, List.countP_eq_zero.2,
    List.length_range, Nat.add_zero]
  · intro i hi
    obtain ⟨j, hj, rfl⟩ := List.mem_map.1 hi
    rw [hge _ (Nat.le_add_right r j) (Nat.add_lt_add_left (List.mem_range.1 hj) r)]
    exact Bool.false_ne_true
  · exact fun i hi => hlt i (List.mem_range.1 hi)

/-- When what is sought is the end of an initial stretch, the loop counts the stretch. -/
theorem boundLoop_count {after : ℕ → Bool} {n : ℕ}
    (h : ∀ i j, i ≤ j → j < n → after j = true → after i = true) :
    boundLoop after 0 n = (List.range n).countP after := by
  obtain ⟨-, hle, hlt, hge⟩ := boundLoop_spec after 0 n fun i j _ hij hj => h i j hij (by omega)
  refine (countP_range_eq (by omega) (fun i hi => hlt i (Nat.zero_le i) hi) ?_).symm
  exact fun i hri hi => hge i hri (by omega)

/-! ### Both bounds -/

/-- What `btree_lower_bound` asks of a slot. -/
def lowerAfter (b : Buf) (key : Key) (m : ℕ) : Bool := hwfsKeyCmp key b (slotAt b m) > 0

/-- What `btree_upper_bound` asks of a slot. -/
def upperAfter (b : Buf) (key : Key) (m : ℕ) : Bool := hwfsKeyCmp key b (slotAt b m) ≥ 0

/-- The slots that `btree_lower_bound` reads. -/
def lowerReads (b : Buf) (key : Key) : List ℕ := boundReads (lowerAfter b key) 0 (count b)

/-- The slots that `btree_upper_bound` reads. -/
def upperReads (b : Buf) (key : Key) : List ℕ := boundReads (upperAfter b key) 0 (count b)

theorem btreeLowerBound_eq (b : Buf) (key : Key) :
    btreeLowerBound b key = boundLoop (lowerAfter b key) 0 (count b) := by
  rw [btreeLowerBound, lowerBoundLoop, lowerBoundLoop, funext fun m => lowerAfter.eq_def b key m]
  by_cases hlevel : level b = 0 <;> simp [hlevel, slotAt, valueAt, itemAt]

theorem btreeUpperBound_eq (b : Buf) (key : Key) :
    btreeUpperBound b key = boundLoop (upperAfter b key) 0 (count b) := by
  rw [btreeUpperBound, upperBoundLoop, upperBoundLoop, funext fun m => upperAfter.eq_def b key m]
  by_cases hlevel : level b = 0 <;> simp [hlevel, slotAt, valueAt, itemAt]

theorem lowerAfter_iff {b : Buf} {key : Key} {m : ℕ} :
    lowerAfter b key m = true ↔ slotKey b m < key := by
  rw [lowerAfter, decide_eq_true_iff, hwfsKeyCmp, hwfsHostKeyCmp_pos, slotKey]

theorem upperAfter_iff {b : Buf} {key : Key} {m : ℕ} :
    upperAfter b key m = true ↔ slotKey b m ≤ key := by
  rw [upperAfter, decide_eq_true_iff, hwfsKeyCmp, hwfsHostKeyCmp_nonneg, slotKey]

/-- Two nodes with the same keys in the slots read have the same bounds. -/
theorem btreeLowerBound_congr {b c : Buf} {key : Key} (hcount : count c = count b)
    (hkey : ∀ m ∈ lowerReads b key, slotKey c m = slotKey b m) :
    btreeLowerBound c key = btreeLowerBound b key := by
  rw [btreeLowerBound_eq, btreeLowerBound_eq, hcount]
  refine boundLoop_congr fun m hm => ?_
  rw [Bool.eq_iff_iff, lowerAfter_iff, lowerAfter_iff, hkey m hm]

theorem btreeUpperBound_congr {b c : Buf} {key : Key} (hcount : count c = count b)
    (hkey : ∀ m ∈ upperReads b key, slotKey c m = slotKey b m) :
    btreeUpperBound c key = btreeUpperBound b key := by
  rw [btreeUpperBound_eq, btreeUpperBound_eq, hcount]
  refine boundLoop_congr fun m hm => ?_
  rw [Bool.eq_iff_iff, upperAfter_iff, upperAfter_iff, hkey m hm]

/-- **Searching a node.** In a node with sorted keys the bounds count the keys below and not above
the one sought. The slots read are slots of the node, and they alone decide the results. -/
theorem btreeBounds_count (b : Buf) (key : Key) (hsorted : KeysSorted b) :
    (btreeLowerBound b key = (List.range (count b)).countP fun i => slotKey b i < key) ∧
    (btreeUpperBound b key = (List.range (count b)).countP fun i => slotKey b i ≤ key) ∧
    (∀ m ∈ lowerReads b key ++ upperReads b key, m < count b) ∧
    ∀ c : Buf, count c = count b →
      (∀ m ∈ lowerReads b key ++ upperReads b key, slotKey c m = slotKey b m) →
      btreeLowerBound c key = btreeLowerBound b key ∧
        btreeUpperBound c key = btreeUpperBound b key := by
  refine ⟨?_, ?_, fun m hm => ?_, fun c hcount hkey => ⟨?_, ?_⟩⟩
  · rw [btreeLowerBound_eq, boundLoop_count]
    · exact List.countP_congr fun i _ => by rw [lowerAfter_iff, decide_eq_true_iff]
    · intro i j hij hj hm
      rw [lowerAfter_iff] at hm ⊢
      exact (hsorted i j hij hj).trans_lt hm
  · rw [btreeUpperBound_eq, boundLoop_count]
    · exact List.countP_congr fun i _ => by rw [upperAfter_iff, decide_eq_true_iff]
    · intro i j hij hj hm
      rw [upperAfter_iff] at hm ⊢
      exact (hsorted i j hij hj).trans hm
  · have hrange : m < 0 + count b := by
      rcases List.mem_append.1 hm with hm | hm
      · exact (mem_boundReads hm).2
      · exact (mem_boundReads hm).2
    omega
  · exact btreeLowerBound_congr hcount fun m hm => hkey m (List.mem_append_left _ hm)
  · exact btreeUpperBound_congr hcount fun m hm => hkey m (List.mem_append_right _ hm)

/-- An internal node with the keys 1, 2 and 2. -/
def threeItems : Buf := fun o =>
  if o = 0 then 1 else if o = 2 then 3
  else if o = itemAt 0 then 1 else if o = itemAt 1 ∨ o = itemAt 2 then 2 else 0

theorem keysSorted_threeItems : KeysSorted threeItems := by
  have hall : ∀ j < count threeItems, ∀ i < j + 1, slotKey threeItems i ≤ slotKey threeItems j := by
    decide
  exact fun i j hij hj => hall j hj i (Nat.lt_succ_of_le hij)

theorem btreeBounds_threeItems :
    btreeLowerBound threeItems ⟨2, 0, 0⟩ = 1 ∧ btreeUpperBound threeItems ⟨2, 0, 0⟩ = 3 := by
  obtain ⟨hlower, hupper, -⟩ := btreeBounds_count threeItems ⟨2, 0, 0⟩ keysSorted_threeItems
  exact ⟨hlower.trans (by decide), hupper.trans (by decide)⟩

end Hwfs

end Kernel64
