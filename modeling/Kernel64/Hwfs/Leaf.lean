import Kernel64.Hwfs.BTree
import Mathlib.Data.Prod.Lex
import Mathlib.Data.List.Sort
import Mathlib.Order.Lattice.Nat

/-!
# Searching a node and inserting into a leaf

Keys are ordered by their id, then type, then offset. `IsLeaf bs b ps` says that the block `b` is
a leaf that holds the pairs `ps`: their keys are sorted, and the data is packed in the order of the
values from the end of the block down. `leafInsert_spec`: an insertion into such a leaf fails
exactly when the gap is too small for the value and its header, and otherwise gives a leaf that
holds the pairs with the new one inserted in order.
-/

namespace Kernel64

namespace Hwfs

/-! ### The order of keys -/

/-- The fields of a key, in the order of their significance. -/
def Key.rank (k : Key) : ℕ ×ₗ ℕ ×ₗ ℕ :=
  toLex (k.id.toNat, toLex (k.type.toNat, k.offset.toNat))

theorem Key.rank_injective : Function.Injective Key.rank := by
  intro k l h
  obtain ⟨hid, hrest⟩ := Prod.mk.inj (toLex_inj.1 h)
  obtain ⟨htype, hoffset⟩ := Prod.mk.inj (toLex_inj.1 hrest)
  cases k
  cases l
  simp only [Key.mk.injEq]
  exact ⟨UInt64.toNat_inj.1 hid, UInt8.toNat_inj.1 htype, UInt64.toNat_inj.1 hoffset⟩

instance : LinearOrder Key := LinearOrder.lift' Key.rank Key.rank_injective

theorem Key.lt_def {k l : Key} : k < l ↔
    k.id.toNat < l.id.toNat ∨ k.id.toNat = l.id.toNat ∧
      (k.type.toNat < l.type.toNat ∨ k.type.toNat = l.type.toNat ∧
        k.offset.toNat < l.offset.toNat) := by
  change k.rank < l.rank ↔ _
  simp only [Key.rank, Prod.Lex.toLex_lt_toLex]

/-- `hwfs_host_key_cmp` compares in the order of keys. -/
theorem hwfsHostKeyCmp_pos {l r : Key} : hwfsHostKeyCmp l r > 0 ↔ r < l := by
  simp only [hwfsHostKeyCmp, Key.lt_def, UInt64.lt_iff_toNat_lt, UInt8.lt_iff_toNat_lt]
  split_ifs <;> omega

theorem hwfsHostKeyCmp_nonneg {l r : Key} : hwfsHostKeyCmp l r ≥ 0 ↔ r ≤ l := by
  rw [← not_lt, Key.lt_def]
  simp only [hwfsHostKeyCmp, UInt64.lt_iff_toNat_lt, UInt8.lt_iff_toNat_lt]
  split_ifs <;> omega

/-! ### Searching -/

/-- The loop finds where an initial stretch ends, given that what is sought is one. -/
theorem boundLoop_spec (after : ℕ → Bool) (pos len : ℕ)
    (hafter : ∀ i j, pos ≤ i → i ≤ j → j < pos + len → after j = true → after i = true) :
    pos ≤ boundLoop after pos len ∧ boundLoop after pos len ≤ pos + len ∧
      (∀ i, pos ≤ i → i < boundLoop after pos len → after i = true) ∧
      ∀ i, boundLoop after pos len ≤ i → i < pos + len → after i = false := by
  fun_induction boundLoop after pos len with
  | case1 pos =>
    refine ⟨le_rfl, by omega, fun i _ _ => by omega, fun i _ _ => by omega⟩
  | case2 pos len hlen hm ih =>
    obtain ⟨h₁, h₂, h₃, h₄⟩ := ih fun i j hi hij hj => hafter i j (by omega) hij (by omega)
    refine ⟨by omega, by omega, fun i hi hlt => ?_, fun i hle hlt => h₄ i hle (by omega)⟩
    rcases Nat.lt_or_ge (pos + len / 2) i with h | h
    · exact h₃ i (by omega) hlt
    · exact hafter i _ hi h (by omega) hm
  | case3 pos len hlen hm ih =>
    obtain ⟨h₁, h₂, h₃, h₄⟩ := ih fun i j hi hij hj => hafter i j hi hij (by omega)
    refine ⟨h₁, by omega, h₃, fun i hle hlt => ?_⟩
    rcases Nat.lt_or_ge i (pos + len / 2) with h | h
    · exact h₄ i hle h
    · by_contra hi
      exact hm (hafter _ i (by omega) h hlt (by simpa using hi))

/-! ### Fields of a value -/

/-- The bytes of a value determine it. -/
theorem hwfsValueToHost_congr {b c : Buf} {i j : ℕ}
    (h : ∀ x < valueSize, b (valueAt i + x) = c (valueAt j + x)) :
    hwfsValueToHost b i = hwfsValueToHost c j := by
  have hfield : ∀ w o, o + w ≤ 21 →
      b.field w (valueAt i + o) = c.field w (valueAt j + o) := by
    intro w o ho
    refine Buf.field_congr fun x hx => ?_
    rw [Nat.add_assoc, Nat.add_assoc]
    exact h _ (by unfold valueSize; omega)
  have hid := hfield 8 0 (by omega)
  have htype := h 8 (by decide)
  have hoff := hfield 8 9 (by omega)
  simp only [Nat.add_zero] at hid
  simp only [hwfsValueToHost, hwfsKeyToHost, hid, htype, hoff, hfield 2 17 (by omega),
    hfield 2 19 (by omega)]

/-- Values do not overlap. -/
theorem valueAt_succ (i : ℕ) : valueAt (i + 1) = valueAt i + 21 := by
  simp only [valueAt, valueSize]
  omega

theorem valueAt_le {i j : ℕ} (h : i ≤ j) : valueAt i ≤ valueAt j :=
  Nat.add_le_add_left (Nat.mul_le_mul_left _ h) _

theorem six_le_valueAt (i : ℕ) : 6 ≤ valueAt i := Nat.le_add_right _ _

/-- Distinct values are apart. -/
theorem valueAt_apart {i j : ℕ} (h : i ≠ j) :
    valueAt i + 21 ≤ valueAt j ∨ valueAt j + 21 ≤ valueAt i := by
  rcases Nat.lt_or_gt_of_ne h with h | h
  · exact Or.inl (valueAt_succ i ▸ valueAt_le h)
  · exact Or.inr (valueAt_succ j ▸ valueAt_le h)

/-- A key stored is the key read back. -/
theorem hwfsKeyToHost_toDisk (b : Buf) (o : ℕ) (key : Key) :
    hwfsKeyToHost (hwfsKeyToDisk b o key) o = key := by
  have htype : (hwfsKeyToDisk b o key) (o + 8) = key.type := by
    rw [hwfsKeyToDisk, Buf.setField_outside (by omega), Buf.setField, if_pos (by omega)]
    simp
  have hid : (hwfsKeyToDisk b o key).field 8 o = key.id.toNat := by
    rw [hwfsKeyToDisk, Buf.field_setField_of_disjoint (by omega),
      Buf.field_setField_of_disjoint (by omega), Buf.field_setField]
    exact Nat.mod_eq_of_lt key.id.toNat_lt
  have hoff : (hwfsKeyToDisk b o key).field 8 (o + 9) = key.offset.toNat := by
    rw [hwfsKeyToDisk, Buf.field_setField]
    exact Nat.mod_eq_of_lt key.offset.toNat_lt
  rw [hwfsKeyToHost, hid, htype, hoff, UInt64.ofNat_toNat, UInt64.ofNat_toNat]

theorem hwfsKeyToDisk_outside {b : Buf} {o i : ℕ} {key : Key} (h : i < o ∨ o + 17 ≤ i) :
    hwfsKeyToDisk b o key i = b i := by
  rw [hwfsKeyToDisk, Buf.setField_outside (by omega), Buf.setField_outside (by omega),
    Buf.setField_outside (by omega)]

theorem setValueOffset_outside {b : Buf} {i v x : ℕ} (h : x < valueAt i ∨ valueAt i + 21 ≤ x) :
    setValueOffset b i v x = b x :=
  Buf.setField_outside (by omega)

/-- Storing an offset changes that offset. -/
theorem hwfsValueToHost_setValueOffset (b : Buf) (i v : ℕ) :
    hwfsValueToHost (setValueOffset b i v) i =
      { hwfsValueToHost b i with offset := v % 2 ^ 16 } := by
  have hkey : hwfsKeyToHost (setValueOffset b i v) (valueAt i) = hwfsKeyToHost b (valueAt i) := by
    simp only [hwfsKeyToHost, setValueOffset]
    rw [Buf.field_setField_of_disjoint (by omega), Buf.field_setField_of_disjoint (by omega),
      Buf.setField_outside (by omega)]
  have hsize : (setValueOffset b i v).field 2 (valueAt i + 19) = b.field 2 (valueAt i + 19) :=
    Buf.field_setField_of_disjoint (by omega)
  have hoff : (setValueOffset b i v).field 2 (valueAt i + 17) = v % 2 ^ 16 :=
    Buf.field_setField _ _ _ _
  simp only [hwfsValueToHost, hkey, hsize, hoff]

theorem hwfsValueToHost_setValueOffset_of_ne {b : Buf} {i j v : ℕ} (h : i ≠ j) :
    hwfsValueToHost (setValueOffset b j v) i = hwfsValueToHost b i := by
  refine hwfsValueToHost_congr fun x hx => setValueOffset_outside ?_
  have := valueAt_apart h
  simp only [valueSize] at hx
  omega

/-! ### The steps of an insertion -/

/-- The value with its data moved down. -/
def Value.lowered (v : Value) (size : ℕ) : Value :=
  { v with offset := (v.offset + (2 ^ 16 - size % 2 ^ 16)) % 2 ^ 16 }

theorem Value.lowered_eq {v : Value} {size : ℕ} (h : size ≤ v.offset) (hv : v.offset < 2 ^ 16) :
    v.lowered size = { v with offset := v.offset - size } := by
  have : (v.offset + (2 ^ 16 - size % 2 ^ 16)) % 2 ^ 16 = v.offset - size := by omega
  rw [Value.lowered, this]

/-- The loop over the offsets lowers the values it visits and leaves the rest of the block. -/
theorem lowerOffsets_fold (size : ℕ) : ∀ (m a : ℕ) (b : Buf),
    let c := (List.range' a m).foldl
      (fun b i => setValueOffset b i (valueOffset b i + (2 ^ 16 - size % 2 ^ 16))) b
    (∀ i, hwfsValueToHost c i =
      if a ≤ i ∧ i < a + m then (hwfsValueToHost b i).lowered size else hwfsValueToHost b i) ∧
    ∀ x, x < valueAt a ∨ valueAt (a + m) ≤ x → c x = b x
  | 0, a, b => by
    refine ⟨fun i => ?_, fun x _ => rfl⟩
    rw [if_neg (by omega)]
    rfl
  | m + 1, a, b => by
    obtain ⟨hval, hframe⟩ := lowerOffsets_fold size m (a + 1)
      (setValueOffset b a (valueOffset b a + (2 ^ 16 - size % 2 ^ 16)))
    simp only [List.range'_succ, List.foldl_cons]
    refine ⟨fun i => ?_, fun x hx => ?_⟩
    · rw [hval i]
      by_cases hi : i = a
      · subst hi
        rw [if_neg (by omega), if_pos (by omega), hwfsValueToHost_setValueOffset]
        rfl
      · rw [hwfsValueToHost_setValueOffset_of_ne hi]
        have hiff : (a + 1 ≤ i ∧ i < a + 1 + m) ↔ (a ≤ i ∧ i < a + (m + 1)) := by omega
        simp only [hiff]
    · have hle : valueAt a + 21 ≤ valueAt (a + (m + 1)) := by
        rw [← valueAt_succ]
        exact valueAt_le (by omega)
      have hsucc := valueAt_succ a
      rw [hframe x (by rw [show a + 1 + m = a + (m + 1) by omega]; omega)]
      exact setValueOffset_outside (by omega)

/-- What `lowerOffsets` does to the values after `slot` and to the other bytes. -/
theorem lowerOffsets_spec (b : Buf) {slot n : ℕ} (size : ℕ) (hslot : slot ≤ n) :
    (∀ i, hwfsValueToHost (lowerOffsets b slot n size) i =
      if slot < i ∧ i ≤ n then (hwfsValueToHost b i).lowered size else hwfsValueToHost b i) ∧
    ∀ x, x < valueAt 0 ∨ valueAt (n + 1) ≤ x → lowerOffsets b slot n size x = b x := by
  obtain ⟨hval, hframe⟩ := lowerOffsets_fold size (n - slot) (slot + 1) b
  refine ⟨fun i => ?_, fun x hx => hframe x ?_⟩
  · have hiff : (slot + 1 ≤ i ∧ i < slot + 1 + (n - slot)) ↔ (slot < i ∧ i ≤ n) := by omega
    have hi := hval i
    simp only [hiff] at hi
    exact hi
  · have h₀ := valueAt_le (Nat.zero_le (slot + 1))
    rw [show slot + 1 + (n - slot) = n + 1 by omega]
    omega

/-- The last steps of an insertion: key, size and data of the new value. -/
def fillSlot (b : Buf) (slot : ℕ) (key : Key) (data : List UInt8) : Buf :=
  let b := hwfsKeyToDisk b (valueAt slot) key
  let b := setValueSize b slot data.length
  b.store (valueOffset b slot) data

/-- The last steps write the new value and its data, and nothing else. -/
theorem fillSlot_spec (b : Buf) {slot n : ℕ} (key : Key) (data : List UInt8) (hslot : slot ≤ n)
    (hoff : valueAt (n + 1) ≤ valueOffset b slot) (hsize : data.length < 2 ^ 16) :
    hwfsValueToHost (fillSlot b slot key data) slot =
      ⟨key, valueOffset b slot, data.length⟩ ∧
    (∀ i ≤ n, i ≠ slot → hwfsValueToHost (fillSlot b slot key data) i = hwfsValueToHost b i) ∧
    (∀ x, x < valueAt 0 ∨
        valueAt (n + 1) ≤ x ∧ (x < valueOffset b slot ∨ valueOffset b slot + data.length ≤ x) →
      fillSlot b slot key data x = b x) ∧
    ∀ j (h : j < data.length), fillSlot b slot key data (valueOffset b slot + j) = data[j] := by
  set c := setValueSize (hwfsKeyToDisk b (valueAt slot) key) slot data.length with hc
  have hframe : ∀ x, x < valueAt slot ∨ valueAt slot + 21 ≤ x → c x = b x := by
    intro x hx
    rw [hc, setValueSize, Buf.setField_outside (by omega), hwfsKeyToDisk_outside (by omega)]
  have hvalue : hwfsValueToHost c slot = ⟨key, valueOffset b slot, data.length⟩ := by
    have hkey : hwfsKeyToHost c (valueAt slot) = key := by
      rw [← hwfsKeyToHost_toDisk b (valueAt slot) key]
      simp only [hwfsKeyToHost, hc, setValueSize]
      rw [Buf.field_setField_of_disjoint (by omega), Buf.field_setField_of_disjoint (by omega),
        Buf.setField_outside (by omega)]
    have hoffset : c.field 2 (valueAt slot + 17) = valueOffset b slot := by
      rw [hc, setValueSize, Buf.field_setField_of_disjoint (by omega)]
      exact Buf.field_congr fun j hj => hwfsKeyToDisk_outside (by omega)
    have hlen : c.field 2 (valueAt slot + 19) = data.length := by
      rw [hc, setValueSize, Buf.field_setField]
      exact Nat.mod_eq_of_lt hsize
    simp only [hwfsValueToHost, hkey, hoffset, hlen]
  have hstore : fillSlot b slot key data = c.store (valueOffset b slot) data := by
    rw [fillSlot, ← hc, valueOffset, hvalue]
  have hbelow : ∀ x < valueAt (n + 1), fillSlot b slot key data x = c x := by
    intro x hx
    rw [hstore, Buf.store_outside (by omega)]
  have hle : ∀ i ≤ n, valueAt i + 21 ≤ valueAt (n + 1) := by
    intro i hi
    rw [← valueAt_succ]
    exact valueAt_le (by omega)
  refine ⟨?_, fun i hi hne => ?_, fun x hx => ?_, fun j hj => ?_⟩
  · rw [← hvalue]
    refine hwfsValueToHost_congr fun x hx => hbelow _ ?_
    have := hle slot hslot
    simp only [valueSize] at hx
    omega
  · refine hwfsValueToHost_congr fun x hx => ?_
    have := hle i hi
    have := valueAt_apart hne
    simp only [valueSize] at hx
    rw [hbelow _ (by omega), hframe _ (by omega)]
  · have := hle slot hslot
    have := valueAt_le (Nat.zero_le slot)
    rw [hstore, Buf.store_outside (by omega), hframe x (by omega)]
  · rw [hstore, Buf.store_inside hj]

/-- What making room at `slot` does: the values from `slot` on and their data move. -/
theorem shiftValues_spec {b : Buf} {slot n dataBegin dataEnd : ℕ} (size : ℕ) (hslot : slot < n)
    (hbegin : valueOffset b (n - 1) = dataBegin)
    (hend : valueOffset b slot + (hwfsValueToHost b slot).size = dataEnd)
    (hroom : valueAt (n + 1) + size ≤ dataBegin) (hle : dataBegin ≤ dataEnd)
    (hmax : dataEnd - size < 2 ^ 16) :
    valueOffset (shiftValues b slot n size) slot = dataEnd - size ∧
    (∀ i < slot, hwfsValueToHost (shiftValues b slot n size) i = hwfsValueToHost b i) ∧
    (∀ i, slot ≤ i → i < n →
      hwfsValueToHost (shiftValues b slot n size) (i + 1) = (hwfsValueToHost b i).lowered size) ∧
    (∀ x, x < valueAt 0 ∨ dataEnd - size ≤ x → shiftValues b slot n size x = b x) ∧
    ∀ x, dataBegin ≤ x → x < dataEnd → shiftValues b slot n size (x - size) = b x := by
  -- first the data moves down, then the values move up, then their offsets follow the data
  set c := b.move (dataBegin - size) dataBegin (dataEnd - dataBegin) with hc
  set d := c.move (valueAt (slot + 1)) (valueAt slot) ((n - slot) * valueSize) with hd
  have hshift : shiftValues b slot n size =
      setValueOffset (lowerOffsets d slot n size) slot (dataEnd - size) := by
    rw [shiftValues, hbegin, hend]
  obtain ⟨hlow, hlowframe⟩ := lowerOffsets_spec d size hslot.le
  have hc_low : ∀ x < valueAt (n + 1), c x = b x := fun x hx => by
    rw [hc, Buf.move_outside (by omega)]
  have hspan : valueAt (slot + 1) + (n - slot) * valueSize = valueAt (n + 1) := by
    simp only [valueAt, valueSize]
    omega
  have hd_out : ∀ x, x < valueAt (slot + 1) ∨ valueAt (n + 1) ≤ x → d x = c x := fun x hx => by
    rw [hd, Buf.move_outside (by omega)]
  have hstep : ∀ i, valueAt (i + 1) = valueAt i + 21 := valueAt_succ
  have hd_keep : ∀ i ≤ slot, hwfsValueToHost d i = hwfsValueToHost b i := by
    intro i hi
    have hin := valueAt_le (Nat.succ_le_succ hi)
    have hin' := valueAt_le (Nat.succ_le_succ hslot.le)
    have := hstep i
    refine hwfsValueToHost_congr fun x hx => ?_
    simp only [valueSize] at hx
    simp only [Nat.succ_eq_add_one] at hin hin'
    rw [hd_out _ (by omega), hc_low _ (by omega)]
  have hd_move : ∀ i, slot ≤ i → i < n → hwfsValueToHost d (i + 1) = hwfsValueToHost b i := by
    intro i hi hin
    have h₁ := valueAt_le hi
    have h₂ := valueAt_le (Nat.succ_le_succ hin)
    have := hstep i
    have := hstep slot
    have := hstep (i + 1)
    refine hwfsValueToHost_congr fun x hx => ?_
    simp only [valueSize] at hx
    simp only [Nat.succ_eq_add_one] at h₂
    have hdst : valueAt (i + 1) + x = valueAt (slot + 1) + (valueAt i - valueAt slot + x) := by
      omega
    have hsrc : valueAt slot + (valueAt i - valueAt slot + x) = valueAt i + x := by omega
    rw [hdst, hd, Buf.move_inside (by omega), hsrc, hc_low _ (by omega)]
  have hother : ∀ i, i ≠ slot → hwfsValueToHost (shiftValues b slot n size) i =
      hwfsValueToHost (lowerOffsets d slot n size) i := by
    intro i hi
    rw [hshift, hwfsValueToHost_setValueOffset_of_ne hi]
  have hslotle : valueAt slot + 21 ≤ valueAt (n + 1) := by
    rw [← valueAt_succ]
    exact valueAt_le (by omega)
  have h0le := valueAt_le (Nat.zero_le slot)
  -- what is above the values is only touched by the first move
  have hout : ∀ x, x < valueAt 0 ∨ valueAt (n + 1) ≤ x → shiftValues b slot n size x = c x := by
    intro x hx
    have := hstep slot
    rw [hshift, setValueOffset_outside (by omega), hlowframe x hx, hd_out x (by omega)]
  refine ⟨?_, fun i hi => ?_, fun i hi hin => ?_, fun x hx => ?_, fun x hx hlt => ?_⟩
  · rw [hshift, valueOffset, hwfsValueToHost_setValueOffset]
    exact Nat.mod_eq_of_lt hmax
  · rw [hother i (by omega), hlow, if_neg (by omega), hd_keep i hi.le]
  · rw [hother _ (by omega), hlow, if_pos (by omega), hd_move i hi hin]
  · rw [hout x (by omega), hc, Buf.move_outside (by omega)]
  · have hdst : x - size = dataBegin - size + (x - dataBegin) := by omega
    rw [hout _ (by omega), hdst, hc, Buf.move_inside (by omega),
      show dataBegin + (x - dataBegin) = x by omega]

/-- How an insertion changes the block: the values from `slot` on move up one place and their data,
between `dataBegin` and `dataEnd`, moves down to make room for the new one. -/
structure Inserted (b c : Buf) (slot n dataBegin dataEnd : ℕ) (key : Key) (data : List UInt8) :
    Prop where
  level_eq : level c = level b
  count_eq : count c = n + 1
  before : ∀ i < slot, hwfsValueToHost c i = hwfsValueToHost b i
  here : hwfsValueToHost c slot = ⟨key, dataEnd - data.length, data.length⟩
  after : ∀ i, slot ≤ i → i < n →
    hwfsValueToHost c (i + 1) = (hwfsValueToHost b i).lowered data.length
  upper : ∀ x, dataEnd ≤ x → c x = b x
  stored : ∀ j (h : j < data.length), c (dataEnd - data.length + j) = data[j]
  lower : ∀ x, dataBegin ≤ x → x < dataEnd → c (x - data.length) = b x

/-- The insertion, from the block with its room made. -/
theorem Inserted.of_fillSlot {b c : Buf} {slot n dataBegin dataEnd : ℕ} {key : Key}
    {data : List UInt8} (hslot : slot ≤ n)
    (hroom : valueAt (n + 1) + data.length ≤ dataBegin) (hle : dataBegin ≤ dataEnd)
    (hmax : dataEnd < 2 ^ 16) (hlevel : level c = level b) (hcount : count c = n + 1)
    (hoff : valueOffset c slot = dataEnd - data.length)
    (hbefore : ∀ i < slot, hwfsValueToHost c i = hwfsValueToHost b i)
    (hafter : ∀ i, slot ≤ i → i < n →
      hwfsValueToHost c (i + 1) = (hwfsValueToHost b i).lowered data.length)
    (hupper : ∀ x, dataEnd ≤ x → c x = b x)
    (hlower : ∀ x, dataBegin ≤ x → x < dataEnd → c (x - data.length) = b x) :
    Inserted b (fillSlot c slot key data) slot n dataBegin dataEnd key data := by
  obtain ⟨hhere, hother, hframe, hdata⟩ := fillSlot_spec c key data hslot (by omega)
    (by omega)
  rw [hoff] at hhere hframe hdata
  have hsix : valueAt 0 = 6 := rfl
  refine
    { level_eq := ?_
      count_eq := ?_
      before := fun i hi => by rw [hother i (by omega) (by omega), hbefore i hi]
      here := hhere
      after := fun i hi hin => by rw [hother _ (by omega) (by omega), hafter i hi hin]
      upper := fun x hx => by rw [hframe x (by omega), hupper x hx]
      stored := hdata
      lower := fun x hx hlt => by rw [hframe _ (by omega), hlower x hx hlt] }
  · rw [← hlevel]
    exact Buf.field_congr fun j hj => hframe _ (by omega)
  · rw [← hcount]
    exact Buf.field_congr fun j hj => hframe _ (by omega)

/-! ### Leaves -/

/-- The pairs a leaf holds. -/
abbrev Pairs : Type := List (Key × List UInt8)

/-- The order of pairs, by their keys. -/
def ByKey (p q : Key × List UInt8) : Prop := p.1 ≤ q.1

instance : DecidableRel ByKey := fun p q => inferInstanceAs (Decidable (p.1 ≤ q.1))

instance : IsTrans (Key × List UInt8) ByKey := ⟨fun _ _ _ h h' => le_trans h h'⟩

instance : Std.Total ByKey := ⟨fun p q => le_total p.1 q.1⟩

/-- The bytes of data in the first `i` pairs. -/
def dataLen (ps : Pairs) (i : ℕ) : ℕ := ((ps.take i).map fun p => p.2.length).sum

/-- The block `b` of `bs` bytes is a leaf that holds the pairs `ps`. -/
structure IsLeaf (bs : ℕ) (b : Buf) (ps : Pairs) : Prop where
  level_eq : level b = 0
  count_eq : count b = ps.length
  sorted : ps.Pairwise ByKey
  fits : valueAt ps.length + dataLen ps ps.length ≤ bs
  value_eq : ∀ i (h : i < ps.length), hwfsValueToHost b i =
    ⟨ps[i].1, bs - dataLen ps (i + 1), ps[i].2.length⟩
  data_eq : ∀ i (h : i < ps.length), b.slice (bs - dataLen ps (i + 1)) ps[i].2.length = ps[i].2

@[simp]
theorem dataLen_zero (ps : Pairs) : dataLen ps 0 = 0 := by
  simp [dataLen]

theorem dataLen_succ {ps : Pairs} {i : ℕ} (h : i < ps.length) :
    dataLen ps (i + 1) = dataLen ps i + ps[i].2.length := by
  rw [dataLen, List.take_add_one, List.getElem?_eq_getElem h,
    List.map_append, List.sum_append]
  simp only [dataLen, Option.toList_some, List.map_cons, List.map_nil, List.sum_cons, List.sum_nil,
    Nat.add_zero]

theorem dataLen_le {ps : Pairs} {i j : ℕ} (h : i ≤ j) (hj : j ≤ ps.length) :
    dataLen ps i ≤ dataLen ps j := by
  induction j, h using Nat.le_induction with
  | base => exact le_rfl
  | succ j _ ih => exact (ih (by omega)).trans (by rw [dataLen_succ (by omega)]; omega)

/-- The data before a pair inserted at `slot`. -/
theorem dataLen_insertIdx_of_le {ps : Pairs} {a : Key × List UInt8} {slot : ℕ}
    (hslot : slot ≤ ps.length) : ∀ {i : ℕ}, i ≤ slot →
      dataLen (ps.insertIdx slot a) i = dataLen ps i
  | 0, _ => by simp
  | i + 1, h => by
    rw [dataLen_succ (by rw [List.length_insertIdx_of_le_length hslot]; omega),
      dataLen_succ (by omega), dataLen_insertIdx_of_le hslot (by omega),
      List.getElem_insertIdx_of_lt (by omega)]

/-- The data up to a pair behind the one inserted at `slot`. -/
theorem dataLen_insertIdx_succ {ps : Pairs} {a : Key × List UInt8} {slot : ℕ}
    (hslot : slot ≤ ps.length) {i : ℕ} (hi : slot ≤ i) : i ≤ ps.length →
      dataLen (ps.insertIdx slot a) (i + 1) = dataLen ps i + a.2.length := by
  have hlen := List.length_insertIdx_of_le_length hslot a
  induction i, hi using Nat.le_induction with
  | base =>
    intro _
    rw [dataLen_succ (by omega), dataLen_insertIdx_of_le hslot le_rfl,
      List.getElem_insertIdx_self]
  | succ i hi ih =>
    intro hin
    rw [dataLen_succ (by omega), ih (by omega), dataLen_succ (by omega),
      List.getElem_insertIdx_of_gt (by omega)]
    simp only [Nat.add_sub_cancel]
    omega

/-- Inserting in order is inserting behind the initial stretch that comes before. -/
theorem orderedInsert_eq_insertIdx {α : Type} {r : α → α → Prop} [DecidableRel r] {a : α} :
    ∀ {l : List α} {i : ℕ} (hi : i ≤ l.length), (∀ j (h : j < i), ¬r a l[j]) →
      (∀ h : i < l.length, r a l[i]) → l.orderedInsert r a = l.insertIdx i a
  | [], i, hi, _, _ => by
    obtain rfl : i = 0 := Nat.le_zero.1 hi
    rfl
  | b :: l, 0, _, _, hr => List.orderedInsert_cons_of_le r l (hr (Nat.succ_pos _))
  | b :: l, i + 1, hi, hlt, hr => by
    have hb : ¬r a b := hlt 0 (Nat.succ_pos i)
    rw [List.orderedInsert_of_not_le r l hb, List.insertIdx_succ_cons,
      orderedInsert_eq_insertIdx (Nat.le_of_succ_le_succ hi)
        (fun j hj => hlt (j + 1) (Nat.succ_lt_succ hj)) fun h => hr (Nat.succ_lt_succ h)]

/-- The gap of a leaf. -/
theorem IsLeaf.room_eq {bs : ℕ} {b : Buf} {ps : Pairs} (h : IsLeaf bs b ps) :
    btreeLeafRoom bs b = (bs : ℤ) - dataLen ps ps.length - valueAt ps.length := by
  rw [btreeLeafRoom, h.count_eq]
  split_ifs with hn
  · rw [hn, dataLen_zero]
    simp [valueAt]
  · have hfits := h.fits
    rw [valueOffset, h.value_eq _ (by omega), Nat.sub_add_cancel (by omega)]
    simp only
    omega

/-- Where a pair belongs, and that inserting there is inserting in order. -/
theorem IsLeaf.lowerBound_spec {bs : ℕ} {b : Buf} {ps : Pairs} (h : IsLeaf bs b ps)
    (p : Key × List UInt8) :
    btreeLowerBound b p.1 ≤ ps.length ∧
      ps.orderedInsert ByKey p = ps.insertIdx (btreeLowerBound b p.1) p := by
  have hafter : ∀ m (hm : m < ps.length),
      decide (hwfsKeyCmp p.1 b (headerSize + valueSize * m) > 0) = true ↔ ps[m].1 < p.1 := by
    intro m hm
    have hkey := congrArg Value.key (h.value_eq m hm)
    simp only [hwfsValueToHost, valueAt] at hkey
    rw [decide_eq_true_iff, hwfsKeyCmp, hwfsHostKeyCmp_pos, hkey]
  have hsorted : ∀ i j (hij : i ≤ j) (hj : j < ps.length), ps[i].1 ≤ ps[j].1 := by
    intro i j hij hj
    rcases Nat.eq_or_lt_of_le hij with rfl | hlt
    · exact le_rfl
    · exact List.pairwise_iff_getElem.1 h.sorted i j (by omega) hj hlt
  rw [btreeLowerBound, if_pos h.level_eq, lowerBoundLoop, h.count_eq]
  obtain ⟨-, hle, hlt, hge⟩ := boundLoop_spec
    (fun m => decide (hwfsKeyCmp p.1 b (headerSize + valueSize * m) > 0)) 0 ps.length
    fun i j _ hij hj hm => (hafter i (by omega)).2
      ((hsorted i j hij (by omega)).trans_lt ((hafter j (by omega)).1 hm))
  set slot := boundLoop (fun m => decide (hwfsKeyCmp p.1 b (headerSize + valueSize * m) > 0)) 0
    ps.length
  refine ⟨by omega, orderedInsert_eq_insertIdx (by omega) (fun i hi => ?_) fun hslot => ?_⟩
  · exact not_le.2 ((hafter i (by omega)).1 (hlt i (Nat.zero_le i) hi))
  · refine not_lt.1 fun hn => ?_
    have := (hafter slot hslot).2 hn
    rw [hge slot le_rfl (by omega)] at this
    exact Bool.false_ne_true this

/-- An insertion where the pair belongs leaves a leaf with the pair inserted. -/
theorem Inserted.isLeaf {bs slot : ℕ} {b c : Buf} {ps : Pairs} {key : Key} {data : List UInt8}
    (hb : IsLeaf bs b ps) (hbs : bs < 2 ^ 16) (hslot : slot ≤ ps.length)
    (hroom : valueAt (ps.length + 1) + dataLen ps ps.length + data.length ≤ bs)
    (hsorted : (ps.insertIdx slot (key, data)).Pairwise ByKey)
    (h : Inserted b c slot ps.length (bs - dataLen ps ps.length) (bs - dataLen ps slot) key data) :
    IsLeaf bs c (ps.insertIdx slot (key, data)) := by
  have hlen := List.length_insertIdx_of_le_length hslot (key, data)
  have htotal := dataLen_insertIdx_succ (a := (key, data)) hslot hslot le_rfl
  have hslotle := dataLen_le hslot le_rfl
  simp only at htotal
  refine
    { level_eq := h.level_eq.trans hb.level_eq
      count_eq := by rw [h.count_eq, hlen]
      sorted := hsorted
      fits := by rw [hlen, htotal]; omega
      value_eq := fun i hi => ?_
      data_eq := fun i hi => ?_ }
  · rcases Nat.lt_trichotomy i slot with hlt | rfl | hgt
    · rw [h.before i hlt, hb.value_eq i (by omega), List.getElem_insertIdx_of_lt hlt,
        dataLen_insertIdx_of_le hslot hlt]
    · rw [h.here, List.getElem_insertIdx_self, dataLen_insertIdx_succ hslot le_rfl hslot,
        Nat.sub_add_eq]
    · obtain ⟨j, rfl⟩ : ∃ j, i = j + 1 := ⟨i - 1, by omega⟩
      have hj : j < ps.length := by omega
      have hjle := dataLen_le (show j + 1 ≤ ps.length by omega) le_rfl
      rw [h.after j (by omega) hj, hb.value_eq j hj, List.getElem_insertIdx_of_gt hgt,
        dataLen_insertIdx_succ hslot (by omega) (by omega),
        Value.lowered_eq (by simp only; omega) (by simp only; omega)]
      simp only [Nat.add_sub_cancel, Nat.sub_add_eq]
  · rcases Nat.lt_trichotomy i slot with hlt | rfl | hgt
    · have hlt' : i + 1 ≤ slot := hlt
      have hile := dataLen_le hlt' hslot
      rw [List.getElem_insertIdx_of_lt hlt, dataLen_insertIdx_of_le hslot hlt']
      refine Eq.trans (Buf.slice_congr fun j _ => h.upper _ ?_) (hb.data_eq i (by omega))
      omega
    · rw [List.getElem_insertIdx_self, dataLen_insertIdx_succ hslot le_rfl hslot, Nat.sub_add_eq]
      refine List.ext_getElem (by simp) fun j hj hj' => ?_
      rw [Buf.getElem_slice, h.stored j hj']
    · obtain ⟨k, rfl⟩ : ∃ k, i = k + 1 := ⟨i - 1, by omega⟩
      have hk : k < ps.length := by omega
      have hkle := dataLen_le (show k + 1 ≤ ps.length by omega) le_rfl
      have hkge := dataLen_le (show slot ≤ k by omega) hk.le
      have hksucc := dataLen_succ hk
      rw [List.getElem_insertIdx_of_gt hgt, dataLen_insertIdx_succ hslot (by omega) (by omega)]
      simp only [Nat.add_sub_cancel]
      refine Eq.trans (Buf.slice_congr fun j hj => ?_) (hb.data_eq k hk)
      have hlow := h.lower (bs - dataLen ps (k + 1) + j) (by omega) (by omega)
      rw [← hlow]
      congr 1
      omega

/-- The room made for a value, in each of the three cases of the insertion. -/
theorem IsLeaf.inserted {bs : ℕ} {b : Buf} {ps : Pairs} (hb : IsLeaf bs b ps) (hbs : bs < 2 ^ 16)
    (key : Key) (data : List UInt8)
    (hroom : valueAt (ps.length + 1) + dataLen ps ps.length + data.length ≤ bs) :
    ∃ c, leafInsert bs b key data = some c ∧
      Inserted b c (btreeLowerBound b key) ps.length (bs - dataLen ps ps.length)
        (bs - dataLen ps (btreeLowerBound b key)) key data := by
  obtain ⟨hslot, -⟩ := hb.lowerBound_spec (key, data)
  simp only at hslot
  set slot := btreeLowerBound b key with hslot_def
  set n := ps.length with hn
  have hsucc := valueAt_succ n
  have hDn := dataLen_le hslot le_rfl
  have hcond : ¬btreeLeafRoom bs b < valueSize + data.length := by
    rw [hb.room_eq, valueSize, ← hn]
    omega
  -- the header counts the new value before the room is made
  set c₀ := setCount b (n + 1) with hc₀
  have hc₀_frame : ∀ x, 6 ≤ x → c₀ x = b x := fun x hx => Buf.setField_outside (by omega)
  have hc₀_value : ∀ i, hwfsValueToHost c₀ i = hwfsValueToHost b i := fun i =>
    hwfsValueToHost_congr fun x _ => hc₀_frame _ (by have := six_le_valueAt i; omega)
  have hc₀_level : level c₀ = level b := Buf.field_setField_of_disjoint (by omega)
  have hn_lt : n + 1 < 2 ^ 16 := by
    have : valueAt (n + 1) = 6 + 21 * (n + 1) := rfl
    omega
  have hc₀_count : count c₀ = n + 1 := by
    rw [hc₀, count, setCount, Buf.field_setField]
    exact Nat.mod_eq_of_lt hn_lt
  have hhead : ∀ c : Buf, (∀ x < valueAt 0, c x = c₀ x) →
      level c = level b ∧ count c = n + 1 := by
    intro c hc
    have hsix : valueAt 0 = 6 := rfl
    rw [← hc₀_level, ← hc₀_count]
    exact ⟨Buf.field_congr fun j hj => hc _ (by omega),
      Buf.field_congr fun j hj => hc _ (by omega)⟩
  by_cases hlast : slot = n
  · set v := if n = 0 then bs - data.length else valueOffset c₀ (n - 1) - data.length with hv
    have hv_eq : v = bs - dataLen ps n - data.length := by
      rw [hv]
      split_ifs with h0
      · rw [h0, dataLen_zero, Nat.sub_zero]
      · rw [valueOffset, hc₀_value, hb.value_eq _ (by omega), Nat.sub_add_cancel (by omega)]
    refine ⟨fillSlot (setValueOffset c₀ slot v) slot key data, ?_, ?_⟩
    · rw [leafInsert, if_neg hcond, ← hslot_def, hb.count_eq, ← hn]
      simp only [hlast, ne_eq, not_true_eq_false, if_false, ← hc₀, hv]
      split_ifs <;> rfl
    · have hkeep : ∀ i < slot,
          hwfsValueToHost (setValueOffset c₀ slot v) i = hwfsValueToHost b i := fun i hi => by
        rw [hwfsValueToHost_setValueOffset_of_ne (by omega), hc₀_value]
      have hle0 := valueAt_le (Nat.zero_le slot)
      have hslotle : valueAt slot + 21 ≤ valueAt (n + 1) := by rw [hlast]; omega
      obtain ⟨hlev, hcnt⟩ := hhead (setValueOffset c₀ slot v) fun x hx =>
        setValueOffset_outside (by omega)
      refine Inserted.of_fillSlot hslot (by omega) (by omega) (by omega) hlev hcnt ?_ hkeep
        (fun i hi hin => by omega) (fun x hx => ?_) fun x hx hlt => ?_
      · rw [valueOffset, hwfsValueToHost_setValueOffset, hlast, ← hv_eq]
        exact Nat.mod_eq_of_lt (by omega)
      · rw [setValueOffset_outside (by omega), hc₀_frame _ (by omega)]
      · rw [hlast] at hlt
        omega
  · have hlt : slot < n := lt_of_le_of_ne hslot hlast
    have hDs := dataLen_succ hlt
    have hDle := dataLen_le (show slot + 1 ≤ n from hlt) le_rfl
    have hbegin : valueOffset c₀ (n - 1) = bs - dataLen ps n := by
      rw [valueOffset, hc₀_value, hb.value_eq _ (by omega), Nat.sub_add_cancel (by omega)]
    have hend : valueOffset c₀ slot + (hwfsValueToHost c₀ slot).size = bs - dataLen ps slot := by
      rw [valueOffset, hc₀_value, hb.value_eq slot hlt]
      simp only
      omega
    obtain ⟨hoff, hbefore, hafter, hframe, hlower⟩ := shiftValues_spec data.length
      hlt hbegin hend (by omega) (by omega) (by omega)
    obtain ⟨hlev, hcnt⟩ := hhead _ fun x hx => hframe x (Or.inl hx)
    refine ⟨fillSlot (shiftValues c₀ slot n data.length) slot key data, ?_, ?_⟩
    · rw [leafInsert, if_neg hcond, ← hslot_def, hb.count_eq, ← hn]
      simp only [ne_eq, hlast, not_false_eq_true, if_true]
      rfl
    · refine Inserted.of_fillSlot hslot (by omega) (by omega) (by omega) hlev hcnt hoff
        (fun i hi => by rw [hbefore i hi, hc₀_value])
        (fun i hi hin => by rw [hafter i hi hin, hc₀_value]) (fun x hx => ?_) fun x hx hxlt => ?_
      · rw [hframe x (by omega), hc₀_frame x (by omega)]
      · rw [hlower x hx hxlt, hc₀_frame x (by omega)]

/-- **Insertion into a leaf.** The insertion fails when the gap is too small for the value and its
header, and otherwise the leaf holds the pairs with the new one inserted in order. -/
theorem leafInsert_spec {bs : ℕ} {b : Buf} {ps : Pairs} (hb : IsLeaf bs b ps) (hbs : bs < 2 ^ 16)
    (key : Key) (data : List UInt8) :
    if bs < valueAt (ps.length + 1) + dataLen ps ps.length + data.length then
      leafInsert bs b key data = none
    else ∃ c, leafInsert bs b key data = some c ∧
      IsLeaf bs c (ps.orderedInsert ByKey (key, data)) := by
  have hsucc := valueAt_succ ps.length
  split_ifs with hroom
  · rw [leafInsert, if_pos]
    rw [hb.room_eq, valueSize]
    omega
  · obtain ⟨c, hc, hins⟩ := hb.inserted hbs key data (by omega)
    obtain ⟨hslot, heq⟩ := hb.lowerBound_spec (key, data)
    have hsorted := hb.sorted.orderedInsert (key, data)
    rw [heq] at hsorted ⊢
    exact ⟨c, hc, hins.isLeaf hb hbs hslot (by omega) hsorted⟩

/-! ### The size as an `int` -/

theorem toInt_of_lt {data : List UInt8} (hlt : valueSize + data.length < 2 ^ 31) :
    toInt (valueSize + (data.length : ℤ)) = valueSize + data.length := by
  rw [toInt, Int.bmod_eq_of_le (by omega) (by omega)]

/-- `btree_leaf_insert_nooverflow`, on the bytes of the leaf, with the size an `int`. C leaves the
overflow of the sum in the size test undefined; it wraps here, as it does on the processor. -/
def leafInsertInt (blockSize : ℕ) (b : Buf) (key : Key) (data : List UInt8) : Except Fault (Option Buf) :=
  -- the sum of the size and that of a header wraps
  if btreeLeafRoom blockSize b < toInt (valueSize + data.length) then .ok none
  -- `memcpy` leaves the block, wherever the data is copied to
  else if blockSize < data.length then .error .bounds
  else .ok (leafInsert blockSize b key data)

/-- The insertion fails, and the block is unchanged, when the gap is too small for the value and its header,
and otherwise the leaf holds the pairs with the new one inserted in order. -/
def InsertsPair (bs : ℕ) (b : Buf) (ps : Pairs) (key : Key) (data : List UInt8) : Prop :=
  if bs < valueAt (ps.length + 1) + dataLen ps ps.length + data.length then
    leafInsertInt bs b key data = .ok none
  else ∃ c, leafInsertInt bs b key data = .ok (some c) ∧ IsLeaf bs c (ps.orderedInsert ByKey (key, data))

theorem leafInsertInt_of_lt {bs : ℕ} {b : Buf} {ps : Pairs} {key : Key} {data : List UInt8}
    (hb : IsLeaf bs b ps) (hlt : valueSize + data.length < 2 ^ 31) :
    leafInsertInt bs b key data = .ok (leafInsert bs b key data) := by
  have hroom := hb.room_eq
  rw [leafInsertInt, toInt_of_lt hlt]
  split_ifs with hsmall hbig
  · rw [leafInsert, if_pos hsmall]
  · omega
  · rfl

/-- A size that overflows. The wrapped sum is negative, so that the gap seems large enough. -/
theorem not_insertsPair {bs : ℕ} {b : Buf} {ps : Pairs} {key : Key} {data : List UInt8} (hb : IsLeaf bs b ps)
    (hbs : bs < 2 ^ 16) (hlen : data.length < 2 ^ 31) (hge : 2 ^ 31 ≤ valueSize + data.length) :
    ¬InsertsPair bs b ps key data := by
  intro hins
  unfold valueSize at hge
  have hmod : toInt (21 + data.length) = 21 + data.length - 2 ^ 32 := by
    rw [toInt, ← Int.sub_bmod_right, Int.bmod_eq_of_le (by omega) (by omega)]
    rfl
  have hroom := hb.room_eq
  have hfits := hb.fits
  have hfault : leafInsertInt bs b key data = .error .bounds := by
    rw [leafInsertInt, valueSize, Nat.cast_ofNat, hmod, if_neg (by omega), if_pos (by omega)]
  rw [InsertsPair, hfault, if_pos (by omega)] at hins
  exact nomatch hins

/-- **Insertion into a leaf, with the size an `int`.** It does what it should if and only if the size of the
value and its header does not overflow. -/
theorem insertsPair_iff {bs : ℕ} {b : Buf} {ps : Pairs} {key : Key} {data : List UInt8} (hb : IsLeaf bs b ps)
    (hbs : bs < 2 ^ 16) (hlen : data.length < 2 ^ 31) :
    InsertsPair bs b ps key data ↔ valueSize + data.length < 2 ^ 31 := by
  constructor
  · intro hins
    by_contra hge
    exact not_insertsPair hb hbs hlen (Nat.le_of_not_lt hge) hins
  · intro hlt
    have hspec := leafInsert_spec hb hbs key data
    rw [InsertsPair, leafInsertInt_of_lt hb hlt]
    split_ifs at hspec ⊢ with hroom
    · rw [hspec]
    · obtain ⟨c, hc, hleaf⟩ := hspec
      exact ⟨c, by rw [hc], hleaf⟩

theorem isLeaf_empty : IsLeaf 512 (fun _ => 0) [] where
  level_eq := by decide
  count_eq := by decide
  sorted := List.Pairwise.nil
  fits := by decide
  value_eq _ h := nomatch h
  data_eq _ h := nomatch h

/-- A value of one byte is inserted into an empty leaf. -/
theorem insertsPair_byte : InsertsPair 512 (fun _ => 0) [] ⟨1, 2, 3⟩ [7] :=
  (insertsPair_iff isLeaf_empty (by decide) (by decide)).2 (by decide)

/-- The largest size overflows: the insertion into an empty leaf of 512 bytes does not fail. -/
theorem not_insertsPair_large : IsLeaf 512 (fun _ => 0) [] ∧
    ¬InsertsPair 512 (fun _ => 0) [] ⟨1, 2, 3⟩ (List.replicate (2 ^ 31 - 1) 7) := by
  refine ⟨isLeaf_empty, not_insertsPair isLeaf_empty (by decide) ?_ ?_⟩
  · rw [List.length_replicate]
    decide
  · rw [List.length_replicate]
    decide

end Hwfs

end Kernel64
