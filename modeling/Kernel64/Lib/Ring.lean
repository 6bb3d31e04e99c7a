import Mathlib.Logic.Function.Basic
import Mathlib.Data.List.Nodup
import Mathlib.Tactic.Common
import Mathlib.Algebra.Group.Nat.Defs

/-!
# Circular lists

Entries that point to the next and to the previous one. A list is a head with the entries after it
(`Circle`); an entry is put first or at the end or taken out, and a whole list is put in front of another
one. Lists that share no entry are a family (`Circles`), of which a step changes a few members
(`Circles.change`).
-/

namespace Kernel64

/-- The pointers of the entries. -/
@[ext]
structure Ring (α : Type) where
  next : α → α
  prev : α → α

namespace Ring

variable {α : Type} [DecidableEq α]

/-- A head without entries. -/
def init (r : Ring α) (head : α) : Ring α where
  next := Function.update r.next head head
  prev := Function.update r.prev head head

/-- Let an entry be followed by another one. -/
def join (r : Ring α) (a b : α) : Ring α where
  next := Function.update r.next a b
  prev := Function.update r.prev b a

/-- Put a new entry between two others. -/
def insert (r : Ring α) (new prev next : α) : Ring α := (r.join prev new).join new next

/-- Put a new entry first. -/
def add (r : Ring α) (new head : α) : Ring α := r.insert new head (r.next head)

/-- Put a new entry at the end. -/
def addTail (r : Ring α) (new head : α) : Ring α := r.insert new (r.prev head) head

/-- Take an entry out; its own pointers stay. -/
def remove (r : Ring α) (x : α) : Ring α := r.join (r.prev x) (r.next x)

/-- There are no entries after the head. -/
def empty (r : Ring α) (head : α) : Bool := r.next head = head

/-- Put the entries of a list in front of those of another one. -/
def splice (r : Ring α) (list head : α) : Ring α :=
  if r.empty list then r
  else ((r.join head (r.next list)).join (r.prev list) (r.next head)).init list

/-- The entries `l` lead from `a` to `b`. -/
def Path (r : Ring α) : α → List α → α → Prop
  | a, [], b => r.next a = b ∧ r.prev b = a
  | a, x :: l, b => (r.next a = x ∧ r.prev x = a) ∧ Path r x l b

/-- A list with its head. -/
structure Circle (r : Ring α) (head : α) (l : List α) : Prop where
  path : r.Path head l head
  nodup : (head :: l).Nodup

variable {r r' : Ring α} {a b c h k x : α} {l l₁ l₂ m : List α}

omit [DecidableEq α] in
theorem path_append : r.Path a (l₁ ++ b :: l₂) c ↔ r.Path a l₁ b ∧ r.Path b l₂ c := by
  induction l₁ generalizing a with
  | nil => exact Iff.rfl
  | cons x l ih =>
    simp only [List.cons_append, Path, ih]
    exact and_assoc.symm

omit [DecidableEq α] in
/-- A path depends on the pointers between its entries only. -/
theorem Path.congr (hp : r.Path a l b) (hnext : ∀ x ∈ a :: l, r'.next x = r.next x)
    (hprev : ∀ x ∈ b :: l, r'.prev x = r.prev x) : r'.Path a l b := by
  induction l generalizing a with
  | nil => exact ⟨(hnext a (by simp)).trans hp.1, (hprev b (by simp)).trans hp.2⟩
  | cons x l ih =>
    obtain ⟨⟨hn, hpr⟩, hp⟩ := hp
    refine ⟨⟨(hnext a (by simp)).trans hn, (hprev x (by simp)).trans hpr⟩, ih hp ?_ ?_⟩
    · exact fun y hy => hnext y (List.mem_cons_of_mem _ hy)
    · intro y hy
      refine hprev y ?_
      simp only [List.mem_cons] at hy ⊢
      tauto

omit [DecidableEq α] in
theorem Circle.congr (hc : r.Circle h l) (hnext : ∀ x ∈ h :: l, r'.next x = r.next x)
    (hprev : ∀ x ∈ h :: l, r'.prev x = r.prev x) : r'.Circle h l :=
  ⟨hc.path.congr hnext hprev, hc.nodup⟩

theorem circle_init (r : Ring α) (h : α) : (r.init h).Circle h [] :=
  ⟨⟨Function.update_self _ _ _, Function.update_self _ _ _⟩, List.nodup_singleton h⟩

/-- Initialising a head leaves the paths it is not on. -/
theorem Path.init (hp : r.Path a l b) (ha : k ∉ a :: l) (hb : k ∉ b :: l) : (r.init k).Path a l b :=
  hp.congr (fun _ hx => Function.update_of_ne (ne_of_mem_of_not_mem hx ha) _ _)
    fun _ hx => Function.update_of_ne (ne_of_mem_of_not_mem hx hb) _ _

theorem Circle.init (hc : r.Circle h l) (hk : k ∉ h :: l) : (r.init k).Circle h l :=
  ⟨hc.path.init hk hk, hc.nodup⟩

theorem join_next : (r.join a b).next a = b := Function.update_self _ _ _

theorem join_prev : (r.join a b).prev b = a := Function.update_self _ _ _

theorem join_next_of_ne (hne : x ≠ a) : (r.join a b).next x = r.next x := Function.update_of_ne hne _ _

theorem join_prev_of_ne (hne : x ≠ b) : (r.join a b).prev x = r.prev x := Function.update_of_ne hne _ _

/-- Two entries that are joined off a path. -/
theorem Path.join (hp : r.Path a l b) (hc : c ∉ a :: l) (hx : x ∉ b :: l) : (r.join c x).Path a l b :=
  hp.congr (fun _ hy => join_next_of_ne (ne_of_mem_of_not_mem hy hc))
    fun _ hy => join_prev_of_ne (ne_of_mem_of_not_mem hy hx)

/-- The first entry of a path follows another one. -/
theorem Path.rehead (hp : r.Path a l b) (hc : c ∉ l) (hl : l.Nodup) (hb : b ∉ l) :
    (r.join c (r.next a)).Path c l b := by
  cases l with
  | nil =>
    rw [hp.1]
    exact ⟨join_next, join_prev⟩
  | cons x l =>
    rw [hp.1.1]
    refine ⟨⟨join_next, join_prev⟩, hp.2.join hc ?_⟩
    simp only [List.mem_cons, not_or] at hb ⊢
    exact ⟨Ne.symm hb.1, (List.nodup_cons.1 hl).1⟩

theorem join_comm (hac : a ≠ c) (hbx : b ≠ x) : (r.join a b).join c x = (r.join c x).join a b := by
  refine Ring.ext ?_ ?_
  · exact Function.update_comm hac _ _ _
  · exact Function.update_comm hbx _ _ _

omit [DecidableEq α] in
theorem Path.next_mem (hp : r.Path a l b) : r.next a ∈ b :: l := by
  cases l with
  | nil => simp [hp.1]
  | cons x l => simp [hp.1.1]

omit [DecidableEq α] in
theorem Path.next_eq (hp : r.Path a l b) : r.next a = l.head?.getD b := by
  cases l with
  | nil => exact hp.1
  | cons x l => exact hp.1.1

omit [DecidableEq α] in
/-- The last entry of a list; if there is none, the head points to itself. -/
theorem Circle.last (hc : r.Circle h l) : (r.prev h = h ∧ l = []) ∨ ∃ l', l = l' ++ [r.prev h] := by
  rcases List.eq_nil_or_concat' l with rfl | ⟨l', x, rfl⟩
  · exact Or.inl ⟨hc.path.2, rfl⟩
  · exact Or.inr ⟨l', by rw [(path_append.1 hc.path).2.2]⟩

omit [DecidableEq α] in
theorem Path.prev_mem (hp : r.Path a l b) : r.prev b ∈ a :: l := by
  induction l generalizing a with
  | nil => simp [hp.2]
  | cons x l ih => exact List.mem_cons_of_mem _ (ih hp.2)

omit [DecidableEq α] in
theorem Circle.prev_mem (hc : r.Circle h l) : r.prev h ∈ h :: l := hc.path.prev_mem

omit [DecidableEq α] in
/-- The neighbours of an entry are on its list. -/
theorem Circle.neighbours_mem (hc : r.Circle h l) (hx : x ∈ l) : r.prev x ∈ h :: l ∧ r.next x ∈ h :: l := by
  obtain ⟨l₁, l₂, rfl⟩ := List.append_of_mem hx
  obtain ⟨hfront, hback⟩ := path_append.1 hc.path
  have hprev := hfront.prev_mem
  have hnext := hback.next_mem
  simp only [List.mem_cons, List.mem_append] at hprev hnext ⊢
  exact ⟨hprev.imp_right Or.inl, hnext.imp_right fun hmem => Or.inr (Or.inr hmem)⟩

/-- **Putting an entry first.** -/
theorem Circle.add (hc : r.Circle h l) (hx : x ∉ h :: l) : (r.add x h).Circle h (x :: l) := by
  obtain ⟨hh, hl⟩ := List.nodup_cons.1 hc.nodup
  obtain ⟨hxh, hxl⟩ := List.ne_and_not_mem_of_not_mem_cons hx
  have hne : x ≠ r.next h := (ne_of_mem_of_not_mem hc.path.next_mem hx).symm
  have hhx : h ∉ x :: l := List.not_mem_cons_of_ne_of_not_mem hxh.symm hh
  rw [Ring.add, insert, join_comm hxh.symm hne]
  refine ⟨⟨⟨join_next, join_prev⟩, (hc.path.rehead hxl hl hh).join hhx hx⟩, ?_⟩
  exact List.nodup_cons.2 ⟨hhx, List.nodup_cons.2 ⟨hxl, hl⟩⟩

/-- **Taking an entry out.** -/
theorem Circle.remove (hc : r.Circle h (l₁ ++ x :: l₂)) : (r.remove x).Circle h (l₁ ++ l₂) := by
  have hnodup := hc.nodup
  have hsub : (h :: (l₁ ++ l₂)).Sublist (h :: (l₁ ++ x :: l₂)) :=
    ((List.sublist_cons_self x l₂).append_left l₁).cons_cons h
  refine ⟨?_, hnodup.sublist hsub⟩
  simp only [List.nodup_cons, List.nodup_append, List.mem_append, List.mem_cons, not_or] at hnodup
  obtain ⟨⟨hl₁, -, hl₂⟩, hnodup₁, ⟨hx, hnodup₂⟩, hdisj⟩ := hnodup
  obtain ⟨hfront, hback⟩ := path_append.1 hc.path
  have hnext := hback.next_mem
  rw [Ring.remove]
  rcases List.eq_nil_or_concat' l₁ with rfl | ⟨l, y, rfl⟩
  · -- the entry is the first one
    rw [hfront.2]
    exact hback.rehead hl₂ hnodup₂ hl₂
  · -- there is one before it, which is joined with the one after it
    obtain ⟨hbefore, -, hprev⟩ := path_append.1 hfront
    rw [hprev, List.append_assoc, List.singleton_append]
    have hmem : y ∈ l ++ [y] := List.mem_append_right _ (List.mem_singleton_self y)
    have hy : y ∉ h :: l := by
      refine List.not_mem_cons_of_ne_of_not_mem (ne_of_mem_of_not_mem hmem hl₁) fun hyl => ?_
      exact (List.nodup_append.1 hnodup₁).2.2 y hyl y (List.mem_singleton_self y) rfl
    have hz : r.next x ∉ y :: l := by
      intro hc
      have hin : r.next x ∈ l ++ [y] := by
        rw [List.mem_append, List.mem_singleton]
        exact (List.mem_cons.1 hc).symm
      rcases List.mem_cons.1 hnext with heq | hnext
      · exact hl₁ (heq ▸ hin)
      · exact hdisj _ hin _ (Or.inr hnext) rfl
    refine path_append.2 ⟨hbefore.join hy hz, hback.rehead ?_ hnodup₂ hl₂⟩
    exact fun hc => hdisj y hmem y (Or.inr hc) rfl

/-- **Putting an entry at the end.** -/
theorem Circle.addTail (hc : r.Circle h l) (hx : x ∉ h :: l) : (r.addTail x h).Circle h (l ++ [x]) := by
  have hnodup := hc.nodup
  have hxh : x ≠ h := fun he => hx (he ▸ List.mem_cons_self)
  have hnew : (h :: (l ++ [x])).Nodup := by
    rw [← List.cons_append]
    exact List.nodup_append.2 ⟨hnodup, List.nodup_singleton x, fun y hy z hz he =>
      hx (List.mem_singleton.1 hz ▸ he ▸ hy)⟩
  refine ⟨path_append.2 ⟨?_, join_next, join_prev⟩, hnew⟩
  rw [Ring.addTail, insert]
  rcases hc.last with ⟨hlast, rfl⟩ | ⟨l', hl⟩
  · rw [hlast]
    exact ⟨(join_next_of_ne hxh.symm).trans join_next, (join_prev_of_ne hxh).trans join_prev⟩
  · -- the path ends at the entry that was last
    generalize r.prev h = y at hl ⊢
    subst hl
    have hp := (path_append.1 hc.path).1
    simp only [List.mem_cons, List.mem_append, List.nodup_cons, List.nodup_append, List.not_mem_nil,
      or_false, not_or] at hx hnodup
    have hy : y ∉ h :: l' := by
      simp only [List.mem_cons, not_or]
      exact ⟨Ne.symm hnodup.1.2, fun hmem => hnodup.2.2.2 y hmem y rfl rfl⟩
    have hh : h ∉ x :: l' := by
      simp only [List.mem_cons, not_or]
      exact ⟨hxh.symm, hnodup.1.1⟩
    have hin : x ∉ h :: l' := by
      simp only [List.mem_cons, not_or]
      exact ⟨hxh, hx.2.1⟩
    have hxy : x ∉ y :: l' := by
      simp only [List.mem_cons, not_or]
      exact ⟨hx.2.2, hx.2.1⟩
    refine path_append.2 ⟨(hp.join hy hxy).join hin ?_, ?_, ?_⟩
    · simp only [List.mem_cons, not_or]
      exact ⟨hnodup.1.2, hnodup.1.1⟩
    · exact (join_next_of_ne (Ne.symm hx.2.2)).trans join_next
    · exact (join_prev_of_ne hxh).trans join_prev

/-- The other lists are as before. -/
theorem Circle.addTail_other (hc : r.Circle k m) (hh : r.Circle h l) (hx : x ∉ k :: m)
    (hapart : ∀ y ∈ k :: m, y ∉ h :: l) : (r.addTail x h).Circle k m := by
  have hout : ∀ y ∈ h :: l, y ∉ k :: m := fun y hy hy' => hapart y hy' hy
  exact ⟨(hc.path.join (hout _ hh.prev_mem) hx).join hx (hout h List.mem_cons_self), hc.nodup⟩

/-- **Putting a list in front of another one.** -/
theorem Circle.splice (hc : r.Circle h l) (hk : r.Circle k m) (hapart : ∀ y ∈ k :: m, y ∉ h :: l) :
    (r.splice k h).Circle h (m ++ l) := by
  rw [Ring.splice, empty]
  rcases hk.last with ⟨-, rfl⟩ | ⟨m', hm⟩
  · rw [hk.path.1, decide_eq_true rfl, if_pos rfl]
    exact hc
  · have hnodup := List.nodup_cons.1 hk.nodup
    have hnodup' := List.nodup_cons.1 hc.nodup
    have hout : ∀ y ∈ h :: l, y ∉ k :: m := fun y hy hy' => hapart y hy' hy
    -- the list to splice has a first entry
    have hfirst : r.next k ∈ m := by
      have hmem := hk.path.next_mem
      cases m with
      | nil => simp at hm
      | cons y m =>
        rw [hk.path.1.1]
        exact List.mem_cons_self
    have hne : r.next k ≠ k := ne_of_mem_of_not_mem hfirst hnodup.1
    rw [if_neg (by simpa using hne)]
    have hnext := hc.path.next_mem
    generalize r.prev k = y at hm ⊢
    subst hm
    have hfront := (hk.path.rehead (c := h) (fun hmem => hapart h (by simp [hmem]) List.mem_cons_self) hnodup.2
      hnodup.1)
    have hback := hc.path.rehead (c := y) (fun hmem => hapart y (by simp) (List.mem_cons_of_mem _ hmem))
      hnodup'.2 hnodup'.1
    have hy : y ∉ h :: l := hapart y (by simp)
    have hh : h ∉ k :: (m' ++ [y]) := hout h List.mem_cons_self
    have hz : r.next h ∉ k :: (m' ++ [y]) := hout _ hnext
    have hym : y ∉ m' := fun hmem => (List.nodup_append.1 hnodup.2).2.2 y hmem y (by simp) rfl
    simp only [List.mem_cons, List.mem_append, List.not_mem_nil, or_false, not_or] at hy hh hz hnodup
    -- up to `y`, the last entry of `m`, the path is that of `k`, and from there on that of `h`
    refine ⟨?_, ?_⟩
    · rw [List.append_assoc, List.singleton_append, path_append]
      constructor
      · refine ((path_append.1 hfront).1.join ?_ ?_).init ?_ ?_
        · simpa using ⟨hy.1, hym⟩
        · simpa using ⟨hz.2.2, hz.2.1⟩
        · simpa using ⟨Ne.symm hh.1, hnodup.1.1⟩
        · simpa using ⟨hnodup.1.2, hnodup.1.1⟩
      · have hkh : r.next k ≠ r.next h := fun he => hapart _ (List.mem_cons_of_mem _ hfirst) (he ▸ hnext)
        rw [join_comm (Ne.symm hy.1) hkh]
        refine (hback.join ?_ (hapart _ (List.mem_cons_of_mem _ hfirst))).init ?_ ?_
        · simpa using ⟨Ne.symm hy.1, hnodup'.1⟩
        · simpa using ⟨hnodup.1.2, fun hmem => hapart k (by simp) (by simp [hmem])⟩
        · exact hapart k (by simp)
    · refine List.nodup_cons.2 ⟨?_, ?_⟩
      · simpa using ⟨hh.2.1, hh.2.2, hnodup'.1⟩
      · refine List.nodup_append.2 ⟨hnodup.2, hnodup'.2, fun a ha b hb he => ?_⟩
        exact hapart a (by simp only [List.mem_cons]; exact Or.inr ha) (by simp [he, hb])

/-- A list is empty when it has no entries. -/
theorem Circle.empty_iff (hc : r.Circle h l) : r.empty h = true ↔ l = [] := by
  rw [empty, decide_eq_true_iff, hc.path.next_eq]
  cases l with
  | nil => simp
  | cons x l =>
    have hne : x ≠ h := fun he => (List.nodup_cons.1 hc.nodup).1 (he ▸ List.mem_cons_self)
    simpa using hne

/-- The list that was put in front of another one is empty afterwards. -/
theorem Circle.splice_source (hk : r.Circle k m) : (r.splice k h).Circle k [] := by
  rw [Ring.splice]
  split_ifs with hempty
  · rwa [hk.empty_iff.1 hempty] at hk
  · exact circle_init _ k

/-- The other lists are as before, also when a list is spliced. -/
theorem Circle.splice_other {n : List α} (hc : r.Circle x n) (hh : r.Circle h l) (hk : r.Circle k m)
    (hxh : ∀ y ∈ h :: l, y ∉ x :: n) (hxk : ∀ y ∈ k :: m, y ∉ x :: n) : (r.splice k h).Circle x n := by
  rw [Ring.splice, empty]
  split_ifs with hempty
  · exact hc
  · have hfirst := hk.path.next_mem
    have hnext := hh.path.next_mem
    exact (Circle.mk ((hc.path.join (hxh h (by simp)) (hxk _ hfirst)).join (hxk _ hk.prev_mem) (hxh _ hnext))
      hc.nodup).init (hxk k (by simp))

/-! ### Families -/

section

variable {ι : Type} {head : ι → α} {entries entries' : ι → List α}

/-- Lists that share no entry. -/
structure Circles (r : Ring α) (head : ι → α) (entries : ι → List α) : Prop where
  circle : ∀ i, r.Circle (head i) (entries i)
  apart : ∀ i j x, x ∈ head i :: entries i → x ∈ head j :: entries j → i = j

omit [DecidableEq α] in
/-- **Changing some lists of a family.** The entries of those of `I` come from among them, and the pointers of
the others stay. -/
theorem Circles.change (hs : r.Circles head entries) (I : Set ι) (hcircle : ∀ i ∈ I, r'.Circle (head i) (entries' i))
    (hamong : ∀ i ∈ I, ∀ j ∈ I, ∀ x, x ∈ head i :: entries' i → x ∈ head j :: entries' j → i = j)
    (hfrom : ∀ i ∈ I, ∀ j ∉ I, ∀ x ∈ entries' i, x ∉ head j :: entries j)
    (hsame : ∀ i ∉ I, entries' i = entries i)
    (hptr : ∀ i ∉ I, ∀ x ∈ head i :: entries i, r'.next x = r.next x ∧ r'.prev x = r.prev x) :
    r'.Circles head entries' := by
  have hmixed : ∀ i ∈ I, ∀ j ∉ I, ∀ x, x ∈ head i :: entries' i → x ∉ head j :: entries' j := by
    intro i hi j hj x hx hxj
    rw [hsame j hj] at hxj
    rcases List.mem_cons.1 hx with rfl | hx
    · exact hj (hs.apart i j _ List.mem_cons_self hxj ▸ hi)
    · exact hfrom i hi j hj x hx hxj
  refine ⟨fun i => ?_, fun i j x hx hxj => ?_⟩
  · by_cases hi : i ∈ I
    · exact hcircle i hi
    · rw [hsame i hi]
      exact (hs.circle i).congr (fun x hx => (hptr i hi x hx).1) fun x hx => (hptr i hi x hx).2
  · by_cases hi : i ∈ I <;> by_cases hj : j ∈ I
    · exact hamong i hi j hj x hx hxj
    · exact absurd hxj (hmixed i hi j hj x hx)
    · exact absurd hx (hmixed j hj i hi x hxj)
    · rw [hsame i hi] at hx
      rw [hsame j hj] at hxj
      exact hs.apart i j x hx hxj

end

end Ring

end Kernel64
