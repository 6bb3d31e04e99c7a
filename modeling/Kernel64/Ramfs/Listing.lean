import Kernel64.Ramfs.Directory
import Kernel64.Ramfs.Sparse
import Mathlib.Data.List.Lex

/-!
# Directories are listed in order

The names of a directory, as the successful calls made them, are the names in its tree, and the tree is
in the order of `strcmp` (`DirOk`). A call that lists the directory therefore hands out the next names
of one fixed list, and its handle counts how many were handed out.
-/

namespace Kernel64

namespace Ramfs

open Rb ColorTree

open Strings (charInt strcmp charInt_inj charInt_ne_zero strcmp_eq_zero_iff)

/-! ### The order of names -/

/-- The characters of a string with the zero that ends it, as numbers. -/
def key (l : List UInt8) : List ℤ := l.map charInt ++ [0]

theorem strcmp_lt_iff : ∀ {l r : List UInt8}, 0 ∉ l → 0 ∉ r → (strcmp l r < 0 ↔ key l < key r)
  | [], [], _, _ => by simp [strcmp, key]
  | [], b :: r, _, hr => by
    have hb : charInt b ≠ 0 := charInt_ne_zero fun hc => hr (hc ▸ List.mem_cons_self)
    simp only [strcmp, key, List.map_nil, List.nil_append, List.map_cons, List.cons_append,
      List.cons_lt_cons_iff]
    omega
  | a :: l, [], hl, _ => by
    have ha : charInt a ≠ 0 := charInt_ne_zero fun hc => hl (hc ▸ List.mem_cons_self)
    simp only [strcmp, key, List.map_nil, List.nil_append, List.map_cons, List.cons_append,
      List.cons_lt_cons_iff]
    omega
  | a :: l, b :: r, hl, hr => by
    have ih := strcmp_lt_iff (fun hc => hl (List.mem_cons_of_mem a hc))
      fun hc => hr (List.mem_cons_of_mem b hc)
    simp only [key] at ih
    simp only [strcmp, key, List.map_cons, List.cons_append, List.cons_lt_cons_iff, charInt_inj]
    by_cases hab : a = b
    · simp only [hab, if_true, ih, lt_irrefl, true_and, false_or]
    · simp only [hab, if_false, false_and, or_false]
      omega

namespace PathName

/-- The name comes before another one, by `strcmp`. -/
def Before (x y : PathName) : Prop := strcmp x.chars y.chars < 0

variable {x y z : PathName}

theorem before_iff : x.Before y ↔ key x.chars < key y.chars := strcmp_lt_iff x.nonzero y.nonzero

theorem Before.trans (h : x.Before y) (h' : y.Before z) : x.Before z :=
  before_iff.2 (lt_trans (before_iff.1 h) (before_iff.1 h'))

theorem Before.ne (h : x.Before y) : x ≠ y := fun hc =>
  lt_irrefl _ (before_iff.1 (hc ▸ h))

theorem strcmp_zero_iff : strcmp x.chars y.chars = 0 ↔ x = y := by
  rw [strcmp_eq_zero_iff x.nonzero y.nonzero]
  exact ⟨fun h => by cases x; cases y; cases h; rfl, fun h => h ▸ rfl⟩

/-- A name that is neither before nor the same comes after. -/
theorem before_of_not (hne : strcmp x.chars y.chars ≠ 0) (h : ¬x.Before y) : y.Before x := by
  rw [before_iff] at h ⊢
  refine lt_of_le_of_ne (not_lt.1 h) fun hc => hne ?_
  refine strcmp_zero_iff.2 ?_
  have hmap : y.chars = x.chars := by
    refine List.map_injective_iff.2 (fun a b hab => charInt_inj.1 hab) ?_
    exact List.append_cancel_right hc
  cases x
  cases y
  cases hmap
  rfl

end PathName

/-! ### Memory for entries -/

/-- As many entries as fit in the memory. -/
def maxEntries : ℕ := maxPhysSize / entrySize

theorem InMemory.nodeAddr {p : Ptr} (h : InMemory p) : NodeAddr p := by
  obtain ⟨hlow, -, hmod⟩ := h
  refine ⟨fun hc => ?_, ?_⟩
  · rw [hc] at hlow
    exact absurd hlow (by decide)
  · refine BitVec.eq_of_toNat_eq ?_
    rw [BitVec.toNat_and, show (1#64).toNat = 1 by decide, Nat.and_one_is_mod]
    simp only [BitVec.toNat_ofNat]
    omega

/-- **Entries that do not overlap** are few. -/
theorem length_le_maxEntries {l : List Ptr} (hin : ∀ p ∈ l, InMemory p) (hap : l.Pairwise Apart) :
    l.length ≤ maxEntries := by
  have hnd : (l.map fun p => (p.toNat - highBase) / entrySize).Nodup := by
    refine List.pairwise_map.2 (hap.imp_of_mem fun {p q} hp hq hpq => ?_)
    have hlow := (hin p hp).1
    have hlow' := (hin q hq).1
    unfold Apart entrySize at hpq
    unfold entrySize
    omega
  have hsub : (l.map fun p => (p.toNat - highBase) / entrySize) ⊆ List.range maxEntries := by
    intro k hk
    obtain ⟨p, hp, rfl⟩ := List.mem_map.1 hk
    obtain ⟨hlow, hhigh, -⟩ := hin p hp
    rw [List.mem_range]
    unfold maxEntries entrySize maxPhysSize at *
    omega
  have hle := (hnd.subperm hsub).length_le
  rwa [List.length_map, List.length_range] at hle

/-! ### The invariant -/

/-- **A directory with the names `N`**, whose entries are in the tree `t`. -/
structure DirOk (d : Dir) (t : ColorTree Ptr) (N : Set PathName) : Prop where
  repr : Represents d.children t
  balanced : t.RedBlack
  sorted : t.inorder.Pairwise fun a b => (d.entry a).name.Before (d.entry b).name
  live : ∀ p ∈ t.inorder, p ∈ d.live
  placed : ∀ p ∈ d.live, InMemory p
  apart : d.live.Pairwise Apart
  names : ∀ x, x ∈ N ↔ ∃ p ∈ t.inorder, (d.entry p).name = x

section

variable {α : Type} {d d' : Dir} {t : ColorTree Ptr} {N : Set PathName} {x : PathName} {p : Ptr}
  {fuel h : ℕ}

theorem ensures_onChildren {c : RbM α} {Q : α → Dir → Prop} :
    Ensures (onChildren c) d Q ↔
      Ensures c d.children fun a b => Q a { d with children := b } := by
  unfold Ensures onChildren
  cases hc : c d.children with
  | error e => simp
  | ok r =>
    obtain ⟨a, b⟩ := r
    simp

theorem toEntry_eq_none : toEntry d x p = none ↔ (d.entry p).name = x := by
  rw [toEntry, ← PathName.strcmp_zero_iff]
  split_ifs <;> simp_all

theorem toEntry_eq_right : toEntry d x p = some .right ↔ (d.entry p).name.Before x := by
  rw [toEntry, PathName.Before]
  split_ifs <;> simp <;> omega

theorem toEntry_eq_left : toEntry d x p = some .left ↔ x.Before (d.entry p).name := by
  constructor
  · intro hgo
    rw [toEntry] at hgo
    split_ifs at hgo with h₁ h₂
    · cases hgo
    · exact PathName.before_of_not h₁ h₂
  · intro hlt
    have hne : strcmp (d.entry p).name.chars x.chars ≠ 0 := fun hc =>
      hlt.ne (PathName.strcmp_zero_iff.1 hc).symm
    have hnot : ¬strcmp (d.entry p).name.chars x.chars < 0 := fun hc =>
      (PathName.Before.trans hlt hc).ne rfl
    rw [toEntry, if_neg hne, if_neg hnot]

namespace DirOk

theorem guided (hok : DirOk d t N) (x : PathName) : Guided (toEntry d x) t.inorder := by
  refine hok.sorted.imp fun {a b} hab => ?_
  rw [toEntry_eq_right, toEntry_eq_right, toEntry_eq_left, toEntry_eq_left]
  exact ⟨fun hb => hab.trans hb, fun ha => ha.trans hab⟩

theorem name_inj (hok : DirOk d t N) {p q : Ptr} (hp : p ∈ t.inorder) (hq : q ∈ t.inorder)
    (heq : (d.entry p).name = (d.entry q).name) : p = q := by
  by_contra hne
  have hsymm : Std.Symm fun a b => (d.entry a).name ≠ (d.entry b).name := ⟨fun _ _ hab => Ne.symm hab⟩
  have hall : t.inorder.Pairwise fun a b => (d.entry a).name ≠ (d.entry b).name :=
    hok.sorted.imp fun hab => hab.ne
  exact hall.forall hp hq hne heq

theorem length_le (hok : DirOk d t N) : t.inorder.length ≤ maxEntries := by
  have hlen := length_le_maxEntries hok.placed hok.apart
  exact (hok.repr.nodup.subperm hok.live).length_le.trans hlen

/-- **Looking up a name** finds its entry, or the place where it belongs. -/
theorem ensures_ramfsEntryLookup (hok : DirOk d t N) (hfuel : maxEntries < fuel) (x : PathName) :
    Ensures (ramfsEntryLookup fuel x) d fun r d' => d' = d ∧
      ((∃ p ∈ t.inorder, r = .hit p ∧ (d.entry p).name = x) ∨
        ∃ path, t = plug path .nil ∧ r = .missing (topPtr path) (slotOf path) ∧
          (∀ a ∈ TreePath.before path, (d.entry a).name.Before x) ∧
          ∀ a ∈ TreePath.after path, x.Before (d.entry a).name) := by
  rw [ramfsEntryLookup]
  simp only [ensures_bind, ensures_get, ensures_onChildren]
  refine (ensures_searchTree hok.repr (lt_of_le_of_lt hok.length_le hfuel) (hok.guided x)).mono ?_
  rintro r b ⟨rfl, hr⟩
  refine ⟨rfl, ?_⟩
  rcases hr with ⟨p, rfl, hp, hgo⟩ | ⟨path, ht, rfl, hb, ha⟩
  · exact Or.inl ⟨p, hp, rfl, toEntry_eq_none.1 hgo⟩
  · exact Or.inr ⟨path, ht, rfl, fun a hmem => toEntry_eq_right.1 (hb a hmem),
      fun a hmem => toEntry_eq_left.1 (ha a hmem)⟩

/-- **Linking a new entry** adds its name. -/
theorem ensures_ramfsEntryLink {path : TreePath Ptr} {n : ℕ} (hok : DirOk d (plug path .nil) N)
    (hfuel : maxEntries < fuel) (hp : InMemory p) (hap : ∀ q ∈ d.live, Apart p q)
    (hbefore : ∀ a ∈ TreePath.before path, (d.entry a).name.Before x)
    (hafter : ∀ a ∈ TreePath.after path, x.Before (d.entry a).name) :
    Ensures (ramfsEntryLink fuel p (topPtr path) (slotOf path))
      { d with live := p :: d.live, entry := Function.update d.entry p ⟨n, x⟩ } fun _ d' =>
        d'.offset = d.offset ∧ ∃ t, DirOk d' t (insert x N) := by
  have hold : (plug path .nil).inorder = TreePath.before path ++ TreePath.after path := by
    rw [inorder_plug, inorder_nil, List.append_nil]
  have hfresh : p ∉ (plug path .nil).inorder := fun hc => by
    have := hap p (hok.live p hc)
    unfold Apart entrySize at this
    omega
  have hentry : ∀ a ∈ (plug path .nil).inorder,
      Function.update d.entry p ⟨n, x⟩ a = d.entry a := fun a ha =>
    Function.update_of_ne (fun hc : a = p => hfresh (hc ▸ ha)) _ _
  have hb : ∀ a ∈ TreePath.before path, Function.update d.entry p ⟨n, x⟩ a = d.entry a := fun a ha =>
    hentry a (hold ▸ List.mem_append_left _ ha)
  have ha : ∀ a ∈ TreePath.after path, Function.update d.entry p ⟨n, x⟩ a = d.entry a := fun a ha =>
    hentry a (hold ▸ List.mem_append_right _ ha)
  simp only [ramfsEntryLink, ensures_bind, ensures_modify, ensures_onChildren]
  rw [← ensures_bind]
  refine (ensures_rbLink_rbInsert hok.repr hok.balanced hp.nodeAddr hfresh
    (lt_of_le_of_lt hok.length_le hfuel)).mono ?_
  rintro - b ⟨t, hrepr, hbal, hin, -⟩
  have hmem : ∀ a, a ∈ t.inorder ↔ a = p ∨ a ∈ (plug path .nil).inorder := fun a => by
    rw [hin, hold]
    simp only [List.mem_append, List.mem_cons]
    tauto
  refine ⟨trivial, t, hrepr, hbal, ?_, fun a hat => ?_, fun a hat => ?_, ?_, fun y => ?_⟩
  · have hsorted := hok.sorted
    rw [hold, List.pairwise_append] at hsorted
    obtain ⟨h₁, h₂, h₃⟩ := hsorted
    rw [hin]
    refine List.pairwise_append.2 ⟨?_, List.pairwise_cons.2 ⟨fun b hbm => ?_, ?_⟩, fun a ham b hbm => ?_⟩
    · exact h₁.imp_of_mem fun {a b} ham hbm hab => by simpa only [hb a ham, hb b hbm] using hab
    · simpa only [Function.update_self, ha b hbm] using hafter b hbm
    · exact h₂.imp_of_mem fun {a b} ham hbm hab => by simpa only [ha a ham, ha b hbm] using hab
    · rcases List.mem_cons.1 hbm with rfl | hbm
      · simpa only [Function.update_self, hb a ham] using hbefore a ham
      · simpa only [hb a ham, ha b hbm] using h₃ a ham b hbm
  · exact List.mem_cons.2 (((hmem a).1 hat).imp_right (hok.live a))
  · rcases List.mem_cons.1 hat with rfl | hat
    · exact hp
    · exact hok.placed a hat
  · exact List.pairwise_cons.2 ⟨hap, hok.apart⟩
  · rw [Set.mem_insert_iff, hok.names y]
    constructor
    · rintro (rfl | ⟨a, hat, rfl⟩)
      · exact ⟨p, (hmem p).2 (Or.inl rfl), by simp only [Function.update_self]⟩
      · exact ⟨a, (hmem a).2 (Or.inr hat), by simp only [hentry a hat]⟩
    · rintro ⟨a, hat, rfl⟩
      rcases (hmem a).1 hat with rfl | hat
      · exact Or.inl (by simp only [Function.update_self])
      · exact Or.inr ⟨a, hat, by simp only [hentry a hat]⟩

/-- **Unlinking a name** removes it. -/
theorem ensures_ramfsEntryUnlink (hok : DirOk d t N) (hfuel : maxEntries < fuel) (x : PathName) :
    Ensures (ramfsEntryUnlink fuel x) d fun rc d' => d'.offset = d.offset ∧
      ((rc = 0 ∧ ∃ t', DirOk d' t' (N \ {x})) ∨ (rc = -ENOENT ∧ x ∉ N ∧ d' = d)) := by
  rw [ramfsEntryUnlink, ensures_bind]
  refine (hok.ensures_ramfsEntryLookup hfuel x).mono ?_
  rintro r d' ⟨rfl, ⟨p, hp, rfl, rfl⟩ | ⟨path, rfl, rfl, hb, ha⟩⟩
  · simp only [ensures_bind, ensures_onChildren, ensures_modify, ramfsEntryDestroy, ensures_pure]
    refine (ensures_rbErase hok.repr hok.balanced hp (lt_of_le_of_lt hok.length_le hfuel)).mono ?_
    rintro - b ⟨t', hrepr, hbal, hin, -⟩
    have hmem : ∀ a, a ∈ t'.inorder ↔ a ≠ p ∧ a ∈ t.inorder := fun a => by
      rw [hin, hok.repr.nodup.mem_erase_iff]
    have hsub : t'.inorder.Sublist t.inorder := hin ▸ List.erase_sublist
    refine ⟨trivial, Or.inl ⟨trivial, t', hrepr, hbal, hok.sorted.sublist hsub, fun a hat => ?_,
      fun a hat => hok.placed a (List.mem_of_mem_erase hat), hok.apart.sublist List.erase_sublist,
      fun y => ?_⟩⟩
    · obtain ⟨hne, hat⟩ := (hmem a).1 hat
      exact (List.mem_erase_of_ne hne).2 (hok.live a hat)
    · rw [Set.mem_sdiff, Set.mem_singleton_iff, hok.names y]
      constructor
      · rintro ⟨⟨a, hat, rfl⟩, hne⟩
        exact ⟨a, (hmem a).2 ⟨fun hc => hne (hc ▸ rfl), hat⟩, rfl⟩
      · rintro ⟨a, hat, rfl⟩
        obtain ⟨hne, hat⟩ := (hmem a).1 hat
        exact ⟨⟨a, hat, rfl⟩, fun hc => hne (hok.name_inj hat hp hc)⟩
  · simp only [ensures_pure]
    refine ⟨trivial, Or.inr ⟨trivial, fun hx => ?_, trivial⟩⟩
    obtain ⟨a, hat, rfl⟩ := (hok.names x).1 hx
    rw [inorder_plug, inorder_nil, List.append_nil, List.mem_append] at hat
    rcases hat with hat | hat
    · exact (hb a hat).ne rfl
    · exact (ha a hat).ne rfl

/-- **Creating an entry** adds its name when it succeeds, and no name when it fails. -/
theorem ensures_newEntry {path : TreePath Ptr} {n : ℕ} {β : Type} {failed done : ℤ × β}
    (hok : DirOk d (plug path .nil) N) (hfuel : maxEntries < fuel)
    (hbefore : ∀ a ∈ TreePath.before path, (d.entry a).name.Before x)
    (hafter : ∀ a ∈ TreePath.after path, x.Before (d.entry a).name)
    (hfailed : failed.1 ≠ 0) (hdone : done.1 = 0) :
    Ensures (do
      match ← ramfsEntryCreate x n with
      | none => return failed
      | some p => do
        ramfsEntryLink fuel p (topPtr path) (slotOf path)
        return done) d fun r d' => d'.offset = d.offset ∧
          ∃ t, DirOk d' t (if r.1 = 0 then insert x N else N) := by
  have hkeep : ∀ d' : Dir, d'.children = d.children → d'.entry = d.entry → d'.live = d.live →
      ∃ t, DirOk d' t (if failed.1 = 0 then insert x N else N) := by
    intro d' hc he hl
    rw [if_neg hfailed]
    refine ⟨_, hc ▸ hok.repr, hok.balanced, ?_, ?_, ?_, ?_, ?_⟩
    · simpa only [he] using hok.sorted
    · simpa only [hl] using hok.live
    · simpa only [hl] using hok.placed
    · simpa only [hl] using hok.apart
    · simpa only [he] using hok.names
  simp only [ramfsEntryCreate, allocEntry, ensures_bind, ensures_get, ensures_set]
  cases hs : d.entrySupply 0 with
  | none =>
    simp only [ensures_pure, true_and]
    exact hkeep _ rfl rfl rfl
  | some p =>
    simp only [ensures_ite, ensures_bind, ensures_modify, ensures_pure]
    refine ⟨fun hnew => ?_, fun _ => ⟨trivial, hkeep _ rfl rfl rfl⟩⟩
    obtain ⟨hp, hall⟩ := hnew
    have hap : ∀ q ∈ d.live, Apart p q := by simpa using hall
    have hok' : DirOk { d with entrySupply := fun n => d.entrySupply (n + 1) } (plug path .nil) N :=
      ⟨hok.repr, hok.balanced, hok.sorted, hok.live, hok.placed, hok.apart, hok.names⟩
    refine (hok'.ensures_ramfsEntryLink hfuel hp hap hbefore hafter).mono fun _ d' hr => ?_
    obtain ⟨hoff, ht⟩ := hr
    rw [if_pos hdone]
    exact ⟨hoff, ht⟩

end DirOk

/-! ### Runs -/

/-- The calls that change a directory. -/
inductive DirCall where
  | create (entry : FsEntry)
  | mkdir (entry : FsEntry)
  | link (src dst : FsEntry)
  | unlink (entry : FsEntry)
  | rmdir (entry : FsEntry)

namespace DirCall

/-- A call, with its return code. -/
def perform (fuel : ℕ) : DirCall → DirM ℤ
  | .create entry => do return (← ramfsCreate fuel entry).1
  | .mkdir entry => do return (← ramfsMkdir fuel entry).1
  | .link src dst => do return (← ramfsLink fuel src dst).1
  | .unlink entry => ramfsUnlink fuel entry
  | .rmdir entry => ramfsRmdir fuel entry

/-- The names after a call that succeeded. -/
def names (N : Set PathName) : DirCall → Set PathName
  | .create entry => insert entry.name N
  | .mkdir entry => insert entry.name N
  | .link _ dst => insert dst.name N
  | .unlink entry => N \ {entry.name}
  | .rmdir entry => N \ {entry.name}

end DirCall

/-- **Runs of calls** on a directory, from an empty one, with the names that the calls that succeeded
left in it. -/
inductive DirRun (fuel : ℕ) : Set PathName → Dir → Prop
  | start {d : Dir} : d.children.root = 0#64 → d.live = [] → DirRun fuel ∅ d
  | call {N : Set PathName} {d d' : Dir} {rc : ℤ} (c : DirCall) :
      DirRun fuel N d → c.perform fuel d = .ok (rc, d') →
      DirRun fuel (if rc = 0 then c.names N else N) d'

namespace DirOk

theorem ensures_ramfsCreateOps (hok : DirOk d t N) (hfuel : maxEntries < fuel) (file : FsEntry)
    (kind : NodeKind) :
    Ensures (ramfsCreateOps fuel file kind) d fun r d' => d'.offset = d.offset ∧
      ∃ t', DirOk d' t' (if r.1 = 0 then insert file.name N else N) := by
  rw [ramfsCreateOps, ensures_bind]
  refine (hok.ensures_ramfsEntryLookup hfuel file.name).mono ?_
  rintro r d' ⟨rfl, ⟨p, -, rfl, -⟩ | ⟨path, rfl, rfl, hb, ha⟩⟩
  · simp only [ensures_pure]
    exact ⟨trivial, t, by simpa [EEXIST] using hok⟩
  · have hok' : DirOk { d' with nodeSupply := fun n => d'.nodeSupply (n + 1) } (plug path .nil) N :=
      ⟨hok.repr, hok.balanced, hok.sorted, hok.live, hok.placed, hok.apart, hok.names⟩
    dsimp only
    rw [ensures_bind, ramfsNodeCreate]
    simp only [ensures_bind, ensures_get, ensures_set, ensures_pure]
    cases d'.nodeSupply 0 with
    | none =>
      simp only [ensures_pure, true_and]
      exact ⟨_, by simpa [ENOMEM] using hok'⟩
    | some n => exact hok'.ensures_newEntry hfuel hb ha (by simp [ENOMEM]) rfl

theorem ensures_ramfsLink (hok : DirOk d t N) (hfuel : maxEntries < fuel) {src : FsEntry}
    (hsrc : src.node ≠ none) (dst : FsEntry) :
    Ensures (ramfsLink fuel src dst) d fun r d' => d'.offset = d.offset ∧
      ∃ t', DirOk d' t' (if r.1 = 0 then insert dst.name N else N) := by
  obtain ⟨⟨n, kind⟩, hn⟩ := Option.ne_none_iff_exists'.1 hsrc
  rw [ramfsLink, hn]
  dsimp only
  rw [ensures_ite]
  refine ⟨fun _ => ?_, fun _ => ?_⟩
  · simp only [ensures_pure, true_and]
    exact ⟨t, by simpa [ENOTSUP] using hok⟩
  · rw [ensures_bind]
    refine (hok.ensures_ramfsEntryLookup hfuel dst.name).mono ?_
    rintro r d' ⟨rfl, ⟨p, -, rfl, -⟩ | ⟨path, rfl, rfl, hb, ha⟩⟩
    · simp only [ensures_pure]
      exact ⟨trivial, t, by simpa [EEXIST] using hok⟩
    · exact hok.ensures_newEntry hfuel hb ha (by simp [ENOMEM]) rfl

/-- `ramfs_entry_unlink`, as the other calls. -/
theorem ensures_unlinkCall (hok : DirOk d t N) (hfuel : maxEntries < fuel) (x : PathName) :
    Ensures (ramfsEntryUnlink fuel x) d fun rc d' => d'.offset = d.offset ∧
      ∃ t', DirOk d' t' (if rc = 0 then N \ {x} else N) := by
  refine (hok.ensures_ramfsEntryUnlink hfuel x).mono ?_
  rintro rc d' ⟨hoff, ⟨rfl, ht⟩ | ⟨rfl, -, rfl⟩⟩
  · exact ⟨hoff, by simpa using ht⟩
  · exact ⟨hoff, t, by simpa [ENOENT] using hok⟩

/-- **A call** on a directory returns, unless it links an entry without a node. -/
theorem ensures_perform (hok : DirOk d t N) (hfuel : maxEntries < fuel) (c : DirCall)
    (hc : ∀ src dst, c = .link src dst → src.node ≠ none) :
    Ensures (c.perform fuel) d fun rc d' => d'.offset = d.offset ∧
      ∃ t', DirOk d' t' (if rc = 0 then c.names N else N) := by
  cases c with
  | create entry =>
    simp only [DirCall.perform, ensures_bind, ensures_pure, ramfsCreate]
    exact hok.ensures_ramfsCreateOps hfuel entry .file
  | mkdir entry =>
    simp only [DirCall.perform, ensures_bind, ensures_pure, ramfsMkdir]
    exact hok.ensures_ramfsCreateOps hfuel entry .dir
  | link src dst =>
    simp only [DirCall.perform, ensures_bind, ensures_pure]
    exact hok.ensures_ramfsLink hfuel (hc src dst rfl) dst
  | unlink entry =>
    rw [DirCall.perform, ramfsUnlink]
    cases entry.node with
    | none =>
      simp only [ensures_pure, true_and]
      exact ⟨t, by simpa [EINVAL] using hok⟩
    | some n =>
      simp only [ensures_ite, ensures_pure, true_and]
      exact ⟨fun _ => ⟨t, by simpa [ENOTSUP] using hok⟩, fun _ => hok.ensures_unlinkCall hfuel _⟩
  | rmdir entry => exact hok.ensures_unlinkCall hfuel entry.name

end DirOk

/-- **Every run keeps the directory sound.** -/
theorem DirRun.dirOk (hfuel : maxEntries < fuel) (hrun : DirRun fuel N d) : ∃ t, DirOk d t N := by
  induction hrun with
  | @start d hroot hlive =>
    refine ⟨.nil, ⟨hroot, trivial, List.nodup_nil⟩, redBlack_iff.2 ⟨rfl, trivial, 0, rfl⟩,
      List.Pairwise.nil, fun _ hp => absurd hp List.not_mem_nil, ?_, ?_, fun x => ?_⟩
    · rw [hlive]
      exact fun _ hp => absurd hp List.not_mem_nil
    · rw [hlive]
      exact List.Pairwise.nil
    · simp
  | @call N d d' rc c hrun hcall ih =>
    obtain ⟨t, hok⟩ := ih
    refine ((hok.ensures_perform hfuel c fun src dst hc hnode => ?_).of_run hcall).2
    -- a link of an entry without a node does not return
    rw [hc, DirCall.perform, ramfsLink, hnode] at hcall
    cases hcall

/-! ### Listing -/

/-- A copy of a name in an array of zeros is that name. -/
theorem stringIn_strncpy : ∀ {l : List UInt8} {m n : ℕ}, 0 ∉ l → l.length ≤ n → l.length < m →
    stringIn (strncpy (List.replicate m 0) l n) = l
  | [], m + 1, n, _, _, _ => by
    cases n <;> simp [strncpy, stringIn, List.replicate_succ]
  | a :: l, m + 1, n + 1, hl, hn, hm => by
    have ih := stringIn_strncpy (fun hc => hl (List.mem_cons_of_mem a hc))
      (Nat.le_of_succ_le_succ hn) (Nat.lt_of_succ_lt_succ hm)
    have ha : a ≠ 0 := fun hc => hl (hc ▸ List.mem_cons_self)
    rw [stringIn] at ih ⊢
    rw [List.replicate_succ, strncpy, List.takeWhile_cons_of_pos (by simpa using ha), ih]

theorem PathName.stringIn_dirent (x : PathName) : stringIn (strncpy (List.replicate maxPathLen 0) x.chars
    (min (maxPathLen - 1) x.chars.length)) = x.chars := by
  have hshort := x.short
  exact stringIn_strncpy x.nonzero (by omega) hshort

theorem toInt_natCast {n : ℕ} (h : n ≤ maxEntries) : toInt n = n :=
  toInt_eq (by omega) (by unfold maxEntries maxPhysSize entrySize at h; unfold maxOffset; omega)

section

variable {l₁ l₂ : List Ptr} {s : RbState}

/-- The nodes that are left begin with no null pointer. -/
theorem firstPtr_eq_zero (h : Represents s t) (hsplit : t.inorder = l₁ ++ l₂) :
    firstPtr l₂ = 0#64 ↔ l₂ = [] := by
  cases l₂ with
  | nil => simp
  | cons a l =>
    have ha : a ∈ t.inorder := by simp [hsplit]
    obtain ⟨path, c, L, R, rfl⟩ := exists_plug_of_mem ha
    have hne := (Represents.focus (d := .left) h).1.1
    simpa using hne

/-- **Skipping entries** from the first of `l₂`. -/
theorem ensures_skipLoop (h : Represents s t) (hfuel : t.inorder.length < fuel)
    (hmax : t.inorder.length ≤ maxEntries) :
    ∀ {k n : ℕ} {l₁ l₂ : List Ptr}, t.inorder = l₁ ++ l₂ → l₂.length < k → n ≤ l₂.length →
      Ensures (skipLoop fuel k (firstPtr l₂) n) s fun r s' => s' = s ∧ r = firstPtr (l₂.drop n) := by
  intro k
  induction k with
  | zero => exact fun _ hk => absurd hk (Nat.not_lt_zero _)
  | succ k ih =>
    intro n l₁ l₂ hsplit hk hn
    rw [skipLoop, ensures_ite, firstPtr_eq_zero h hsplit]
    refine ⟨fun hstop => ?_, fun hgo => ?_⟩
    · have hn0 : n = 0 := by
        rcases hstop with rfl | hstop
        · simpa using hn
        · exact_mod_cast hstop
      simp [hn0]
    · obtain ⟨hne, hn0⟩ := not_or.1 hgo
      obtain ⟨a, l, rfl⟩ := List.exists_cons_of_ne_nil hne
      obtain ⟨n, rfl⟩ := Nat.exists_eq_succ_of_ne_zero fun hc => hn0 (by exact_mod_cast hc)
      simp only [List.length_cons] at hk hn
      rw [ensures_bind, firstPtr_cons]
      refine (ensures_rbNext h hsplit hfuel).mono ?_
      rintro - s' ⟨rfl, rfl⟩
      have hlen : n ≤ maxEntries := by
        rw [hsplit, List.length_append, List.length_cons] at hmax
        omega
      have hdec : toInt (((n + 1 : ℕ) : ℤ) - 1) = (n : ℤ) := by
        rw [Nat.cast_add, Nat.cast_one, add_sub_cancel_right, toInt_natCast hlen]
      rw [Nat.succ_eq_add_one, hdec]
      exact ih (show t.inorder = (l₁ ++ [a]) ++ l by simpa using hsplit) (by omega) (by omega)

/-- The names in `n` elements of an array. -/
def stringsIn (entries : ℕ → List UInt8) (start n : ℕ) : List (List UInt8) :=
  (List.range n).map fun i => stringIn (entries (start + i))

theorem stringsIn_succ (entries : ℕ → List UInt8) (start n : ℕ) :
    stringsIn entries start (n + 1) =
      stringIn (entries start) :: stringsIn entries (start + 1) n := by
  rw [stringsIn, List.range_succ_eq_map, List.map_cons, List.map_map, stringsIn]
  refine congrArg _ (List.map_congr_left fun i _ => ?_)
  simp only [Function.comp_apply, Nat.succ_eq_add_one, Nat.add_assoc, Nat.add_comm 1 i]

/-- **Handing out names** from the first of `l₂`, as many as there is room for. -/
theorem ensures_emitLoop (name : Ptr → PathName) (h : Represents s t) (hfuel : t.inorder.length < fuel)
    (hmax : t.inorder.length ≤ maxEntries) :
    ∀ {k : ℕ} {l₁ l₂ : List Ptr} {c : ReaddirCtx}, t.inorder = l₁ ++ l₂ → l₂.length < k →
      c.pos ≤ c.count →
      Ensures (emitLoop readdirNextEntry name fuel k (firstPtr l₂) l₁.length c) s fun r s' => s' = s ∧
        r.1 = (l₁.length + min (c.count - c.pos) l₂.length : ℕ) ∧
        stringsIn r.2.entries c.pos (min (c.count - c.pos) l₂.length) =
          (l₂.take (c.count - c.pos)).map (fun p => (name p).chars) ∧
        ∀ i < c.pos, r.2.entries i = c.entries i := by
  intro k
  induction k with
  | zero => exact fun _ hk => absurd hk (Nat.not_lt_zero _)
  | succ k ih =>
    intro l₁ l₂ c hsplit hk hpos
    rw [emitLoop, ensures_ite, firstPtr_eq_zero h hsplit]
    refine ⟨fun hnil => ?_, fun hne => ?_⟩
    · simp [hnil, stringsIn]
    · obtain ⟨a, l, rfl⟩ := List.exists_cons_of_ne_nil hne
      simp only [List.length_cons] at hk
      rw [ensures_bind, firstPtr_cons]
      refine (ensures_rbNext h hsplit hfuel).mono ?_
      rintro - s' ⟨rfl, rfl⟩
      by_cases hroom : c.pos = c.count
      · simp [readdirNextEntry, hroom, stringsIn]
      · obtain ⟨m, hm⟩ : ∃ m, c.count - c.pos = m + 1 := ⟨c.count - c.pos - 1, by omega⟩
        have hinc : toInt ((l₁.length : ℤ) + 1) = ((l₁ ++ [a]).length : ℕ) := by
          rw [hsplit, List.length_append, List.length_cons] at hmax
          rw [List.length_append, List.length_singleton, ← Nat.cast_succ, toInt_natCast (by omega)]
        simp only [readdirNextEntry, ne_eq, hroom, not_false_eq_true, if_true, hinc]
        refine (ih (show t.inorder = (l₁ ++ [a]) ++ l by simpa using hsplit) (by omega)
          (by simp only; omega)).mono ?_
        rintro r s' ⟨rfl, hoff, hnames, hrest⟩
        have hm' : c.count - (c.pos + 1) = m := by omega
        have hself : r.2.entries c.pos = strncpy (List.replicate maxPathLen 0) (name a).chars
            (min (maxPathLen - 1) (name a).chars.length) :=
          (hrest c.pos (Nat.lt_succ_self _)).trans (Function.update_self _ _ _)
        refine ⟨rfl, ?_, ?_, fun i hi => ?_⟩
        · simp only [hm', List.length_append, List.length_singleton] at hoff
          rw [hoff, hm, List.length_cons]
          omega
        · rw [hm'] at hnames
          rw [hm, List.length_cons, Nat.add_min_add_right, stringsIn_succ, hnames, hself,
            PathName.stringIn_dirent, List.take_succ_cons, List.map_cons]
        · exact (hrest i (Nat.lt_succ_of_lt hi)).trans (Function.update_of_ne (Nat.ne_of_lt hi) _ _)

end

/-- The names of the entries in a tree. -/
def namesIn (d : Dir) (t : ColorTree Ptr) : List PathName := t.inorder.map fun p => (d.entry p).name

/-- **Listing a directory** from a handle that is at one of its entries, or at the end. -/
theorem DirOk.ensures_vfsReaddir {n : ℕ} (entries : ℕ → List UInt8) (count : ℕ) (hok : DirOk d t N)
    (hfuel : maxEntries < fuel) (hn : d.offset h = n) (hle : n ≤ t.inorder.length) :
    Ensures (vfsReaddir fuel h entries count) d fun r d' =>
      r.1 = (min count (t.inorder.length - n) : ℕ) ∧
      stringsIn r.2 0 (min count (t.inorder.length - n)) =
        (((namesIn d t).drop n).take count).map (·.chars) ∧
      d' = { d with
        offset := Function.update d.offset h (n + min count (t.inorder.length - n) : ℕ) } := by
  have hlen := lt_of_le_of_lt hok.length_le hfuel
  have hmax := hok.length_le
  have hfocus : Represents d.children (plug [] t) := hok.repr
  rw [vfsReaddir]
  simp only [ensures_bind, ensures_get, ramfsIterate, ensures_onChildren, hok.repr.root, hn]
  refine (ensures_rbLeftmost hfocus hlen).mono ?_
  rintro - s₁ ⟨rfl, rfl⟩
  refine (ensures_skipLoop hok.repr hlen hmax (List.nil_append _).symm hlen hle).mono ?_
  rintro - s₂ ⟨rfl, rfl⟩
  have hsplit : t.inorder = t.inorder.take n ++ t.inorder.drop n := (List.take_append_drop _ _).symm
  have htake : (t.inorder.take n).length = n := List.length_take_of_le hle
  have hemit := ensures_emitLoop (fun p => (d.entry p).name) (c := ⟨entries, count, 0⟩) hok.repr
    hlen hmax hsplit (lt_of_le_of_lt (by simp) hlen) (Nat.zero_le _)
  simp only [htake, Nat.sub_zero, List.length_drop] at hemit
  refine hemit.mono ?_
  rintro ⟨offset, ctx⟩ s₃ ⟨rfl, rfl, hnames, -⟩
  set m := min count (t.inorder.length - n) with hm
  have hmlen : m ≤ maxEntries := by omega
  have hstrings : stringsIn ctx.entries 0 m = (((namesIn d t).drop n).take count).map (·.chars) := by
    rw [hnames, namesIn, List.map_drop.symm, List.map_take.symm, List.map_map]
    rfl
  simp only [ensures_pure, ensures_ite, ensures_bind, ensures_modify]
  refine ⟨fun _ => ⟨?_, hstrings, trivial⟩, fun hsame => ?_⟩
  · rw [Nat.cast_add, add_sub_cancel_left, toInt_natCast hmlen]
  · have hm0 : m = 0 := by omega
    refine ⟨by simp [hm0], hstrings, ?_⟩
    rw [hm0, Nat.add_zero, ← hn, Function.update_eq_self]

/-- **Runs of calls that list a directory** through one handle, for some entries each, with the names
they returned. -/
inductive ReaddirRun (fuel h : ℕ) (d₀ : Dir) : List (List UInt8) → Dir → Prop
  | start : ReaddirRun fuel h d₀ [] d₀
  | readdir {l : List (List UInt8)} {d d' : Dir} {n : ℤ} {entries entries' : ℕ → List UInt8}
      {count : ℕ} : ReaddirRun fuel h d₀ l d → 1 ≤ count →
      vfsReaddir fuel h entries count d = .ok ((n, entries'), d') →
      ReaddirRun fuel h d₀ (l ++ stringsIn entries' 0 n.toNat) d'

/-- The handle counts the names that were returned. -/
theorem ReaddirRun.offset {l : List (List UInt8)} (hok : DirOk d t N) (hfuel : maxEntries < fuel)
    (h₀ : d.offset h = 0) (hrun : ReaddirRun fuel h d l d') :
    l.length ≤ t.inorder.length ∧ l = ((namesIn d t).take l.length).map (·.chars) ∧
      d' = { d with offset := Function.update d.offset h l.length } := by
  induction hrun with
  | start => simp [← h₀]
  | @readdir l d₁ d₂ n entries entries' count hrun hcount hcall ih =>
    obtain ⟨hle, hl, rfl⟩ := ih
    have hok' : DirOk { d with offset := Function.update d.offset h l.length } t N :=
      ⟨hok.repr, hok.balanced, hok.sorted, hok.live, hok.placed, hok.apart, hok.names⟩
    obtain ⟨hn, hstrings, hd⟩ :=
      (hok'.ensures_vfsReaddir entries count hfuel (Function.update_self _ _ _) hle).of_run hcall
    obtain rfl : n = (min count (t.inorder.length - l.length) : ℕ) := hn
    rw [Int.toNat_natCast]
    set m := min count (t.inorder.length - l.length) with hm
    have hnext : stringsIn entries' 0 m = (((namesIn d t).drop l.length).take m).map (·.chars) := by
      have hlen : ((namesIn d t).drop l.length).length = t.inorder.length - l.length := by
        rw [List.length_drop, namesIn, List.length_map]
      rw [hstrings, hm, ← hlen, ← List.take_eq_take_min]
      rfl
    have hlen : (l ++ stringsIn entries' 0 m).length = l.length + m := by
      rw [List.length_append, stringsIn, List.length_map, List.length_range]
    refine ⟨by omega, ?_, ?_⟩
    · rw [hlen, List.take_add, List.map_append, ← hl, hnext]
    · rw [hd, hlen, Function.update_idem]

/-- **A directory is listed exactly.** Its names are in one list `L`, strictly increasing by `strcmp`.
Whatever a run of calls returned is at the start of that list; the next call returns as many of the
names that are left as there is room for, and it returns zero exactly when every name was returned. -/
theorem readdirRun_exact (hfuel : maxEntries < fuel) (hdir : DirRun fuel N d) (h₀ : d.offset h = 0) :
    ∃ L : List PathName, L.Pairwise PathName.Before ∧ (∀ x, x ∈ L ↔ x ∈ N) ∧
      ∀ l d', ReaddirRun fuel h d l d' → l <+: L.map (·.chars) ∧
        ∀ entries count, 1 ≤ count → Ensures (vfsReaddir fuel h entries count) d' fun r _ =>
          r.1 = (min count (L.length - l.length) : ℕ) ∧
          l ++ stringsIn r.2 0 r.1.toNat <+: L.map (·.chars) ∧
          (r.1 = 0 ↔ l = L.map (·.chars)) := by
  obtain ⟨t, hok⟩ := hdir.dirOk hfuel
  have hlen : (namesIn d t).length = t.inorder.length := List.length_map _
  refine ⟨namesIn d t, List.pairwise_map.2 hok.sorted, fun x => ?_, fun l d' hrun => ?_⟩
  · rw [namesIn, List.mem_map, hok.names x]
  have hstart : ∀ l d', ReaddirRun fuel h d l d' → l <+: (namesIn d t).map (·.chars) := by
    intro l d' hrun
    obtain ⟨-, hl, -⟩ := hrun.offset hok hfuel h₀
    rw [hl]
    have hpre := List.take_prefix l.length (namesIn d t)
    exact hpre.map _
  refine ⟨hstart l d' hrun, fun entries count hcount => ?_⟩
  obtain ⟨hle, hl, hd'⟩ := hrun.offset hok hfuel h₀
  have hok' : DirOk d' t N := by
    rw [hd']
    exact ⟨hok.repr, hok.balanced, hok.sorted, hok.live, hok.placed, hok.apart, hok.names⟩
  have hoff : d'.offset h = l.length := by rw [hd']; exact Function.update_self _ _ _
  obtain ⟨⟨n, entries'⟩, d'', hcall, hn, -, -⟩ :=
    hok'.ensures_vfsReaddir entries count hfuel hoff hle
  refine ⟨(n, entries'), d'', hcall, by rw [hn, hlen], hstart _ _ (hrun.readdir hcount hcall), ?_⟩
  dsimp only at hn ⊢
  constructor
  · intro hn0
    have hend : l.length = t.inorder.length := by omega
    rw [hl, hend, ← hlen, List.take_length]
  · intro hall
    have hend : l.length = t.inorder.length := by rw [hall, List.length_map, hlen]
    rw [hn, hend]
    simp

end

/-- An empty directory with a handle, and memory for two entries. -/
def emptyDir : Dir where
  children := ⟨fun _ => ⟨0#64, 0#64, 0#64⟩, 0#64⟩
  entry _ := ⟨0, ⟨[], by decide, by decide⟩⟩
  refcount := 1
  size := 0
  offset _ := 0
  live := []
  entrySupply n := some (BitVec.ofNat 64 (highBase + entrySize * n))
  nodeSupply n := some n

/-- An entry with a name of one character. -/
def entryOf (c : UInt8) (hc : 0 ≠ c) : FsEntry :=
  ⟨⟨[c], by simpa using hc, by simp [maxPathLen]⟩, none⟩

/-- Two names are listed, one a call. -/
theorem readdirRun_exact_two : ∃ N d, N = insert (entryOf 97 (by decide)).name
      (insert (entryOf 98 (by decide)).name ∅) ∧ DirRun 238609295 N d ∧ d.offset 0 = 0 ∧
    ∃ L : List PathName, L.Pairwise PathName.Before ∧ (∀ x, x ∈ L ↔ x ∈ N) ∧
      Ensures (vfsReaddir 238609295 0 (fun _ => []) 1) d fun r _ =>
        r.1 = (min 1 L.length : ℕ) ∧ stringsIn r.2 0 r.1.toNat <+: L.map (·.chars) := by
  have hfuel : maxEntries < 238609295 := by decide
  have hrun : returns (do
      let rc ← (DirCall.create (entryOf 98 (by decide))).perform 238609295
      let rc' ← (DirCall.create (entryOf 97 (by decide))).perform 238609295
      return (rc, rc')) emptyDir (fun r d => decide (r = (0, 0)) && decide (d.offset 0 = 0)) = true := by
    decide +kernel
  simp only [returns_iff, ensures_bind, ensures_pure, Bool.and_eq_true, decide_eq_true_eq] at hrun
  obtain ⟨rc, d₁, h₁, rc', d₂, h₂, hrc, hoff⟩ := hrun
  obtain ⟨rfl, rfl⟩ := Prod.mk.inj hrc
  have hdir := ((DirRun.start (d := emptyDir) rfl rfl).call _ h₁).call _ h₂
  obtain ⟨L, hsorted, hnames, hlist⟩ := readdirRun_exact hfuel hdir hoff
  refine ⟨_, d₂, rfl, by simpa [DirCall.names] using hdir, hoff, L, hsorted,
    by simpa [DirCall.names] using hnames, ?_⟩
  refine ((hlist [] d₂ .start).2 (fun _ => []) 1 le_rfl).mono fun r _ hr => ?_
  obtain ⟨hn, hnext, _⟩ := hr
  exact ⟨by simpa using hn, by simpa using hnext⟩

end Ramfs

end Kernel64
