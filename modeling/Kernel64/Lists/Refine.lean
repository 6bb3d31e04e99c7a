import Kernel64.Lists.Model
import Mathlib.Data.FinEnum

/-!
# Lists and sequences

The operations of `list.c` on a family of lists that share no entry are those on the sequences of their entries:
putting an entry first or last, taking it out, and moving all entries of a list to the front of another one. The
pointers of all other lists, and of everything that is on no list, stay as they are.
-/

namespace Kernel64

namespace Lists

variable {α ι : Type} [DecidableEq α]

/-- The pointers of the memory. -/
def ring (m : Links α) : Ring α := ⟨fun p => (m p).next, fun p => (m p).prev⟩

/-- **Lists in memory.** The list of each index has its head and its entries; no two lists share one. -/
def Family (m : Links α) (head : ι → α) (entries : ι → List α) : Prop := (ring m).Circles head entries

section

variable {m : Links α} {p new prev next entry list head : α}

/-! ### The pointers that are stored -/

theorem ring_setNext : ring (setNext m p next) = { ring m with next := Function.update (ring m).next p next } := by
  refine Ring.ext (funext fun x => ?_) (funext fun x => ?_)
  all_goals
    by_cases hx : x = p
    · subst hx
      simp [ring, setNext]
    · simp [ring, setNext, hx]

theorem ring_setPrev : ring (setPrev m p prev) = { ring m with prev := Function.update (ring m).prev p prev } := by
  refine Ring.ext (funext fun x => ?_) (funext fun x => ?_)
  all_goals
    by_cases hx : x = p
    · subst hx
      simp [ring, setPrev]
    · simp [ring, setPrev, hx]

theorem ring_listInit : ring (listInit m head) = (ring m).init head := by
  rw [listInit, ring_setNext, ring_setPrev]
  rfl

/-- `list_insert` joins the new entry with both of its neighbours. -/
theorem ring_listInsert (hne : new ≠ prev) : ring (listInsert m new prev next) = (ring m).insert new prev next := by
  simp only [listInsert, ring_setNext, ring_setPrev]
  refine Ring.ext ?_ rfl
  exact Function.update_comm hne _ _ _

theorem ring_listAdd (hne : new ≠ head) : ring (listAdd m new head) = (ring m).add new head := ring_listInsert hne

theorem ring_listAddTail (hne : new ≠ (m head).prev) : ring (listAddTail m new head) = (ring m).addTail new head :=
  ring_listInsert hne

theorem ring_listDel : ring (listDel m entry) = (ring m).remove entry := by
  simp only [listDel, listDel', ring_setNext, ring_setPrev]
  rfl

theorem ring_listSplice : ring (listSplice m list head) = (ring m).splice list head := by
  have hempty : listEmpty m list = (ring m).empty list := rfl
  rw [listSplice, Ring.splice, hempty]
  split_ifs
  · rfl
  · rw [ring_listInit]
    simp only [listSplice', ring_setNext, ring_setPrev]
    rfl

/-! ### The pointers that stay -/

theorem setNext_of_ne (hp : p ≠ entry) : setNext m entry next p = m p := Function.update_of_ne hp _ _

theorem setPrev_of_ne (hp : p ≠ entry) : setPrev m entry prev p = m p := Function.update_of_ne hp _ _

theorem listInsert_of_ne (hnew : p ≠ new) (hprev : p ≠ prev) (hnext : p ≠ next) :
    listInsert m new prev next p = m p := by
  rw [listInsert, setPrev_of_ne hnext, setNext_of_ne hprev, setNext_of_ne hnew, setPrev_of_ne hnew]

theorem listDel_of_ne (hprev : p ≠ (m entry).prev) (hnext : p ≠ (m entry).next) : listDel m entry p = m p := by
  rw [listDel, listDel', setPrev_of_ne hnext, setNext_of_ne hprev]

theorem listInit_of_ne (hp : p ≠ head) : listInit m head p = m p := by
  rw [listInit, setNext_of_ne hp, setPrev_of_ne hp]

theorem listSplice_of_ne (hlist : p ≠ list) (hfirst : p ≠ (m list).next) (hlast : p ≠ (m list).prev)
    (hhead : p ≠ head) (hnext : p ≠ (m head).next) : listSplice m list head p = m p := by
  rw [listSplice]
  split_ifs
  · rfl
  · rw [listInit_of_ne hlist, listSplice', setPrev_of_ne hnext, setNext_of_ne hlast, setNext_of_ne hhead,
      setPrev_of_ne hfirst]

end

/-! ### The operations on a family -/

section

variable {m : Links α} {head : ι → α} {entries : ι → List α} {i j : ι} {new entry p : α}

omit [DecidableEq α] in
/-- The neighbours of a head are on its list. -/
theorem Family.next_mem (h : Family m head entries) (i : ι) : (m (head i)).next ∈ head i :: entries i :=
  (h.circle i).path.next_mem

omit [DecidableEq α] in
theorem Family.prev_mem (h : Family m head entries) (i : ι) : (m (head i)).prev ∈ head i :: entries i :=
  (h.circle i).prev_mem

omit [DecidableEq α] in
/-- The addresses on other lists are not on a list. -/
theorem Family.not_mem (h : Family m head entries) (hne : j ≠ i) (hp : p ∈ head j :: entries j) :
    p ∉ head i :: entries i := fun hc => hne (h.apart j i p hp hc)

variable [DecidableEq ι]

omit [DecidableEq α] in
/-- **One list of a family changes.** Its entries are old ones and new ones that are on no list. -/
theorem Family.changeOne (h : Family m head entries) {m' : Links α} {l : List α} (hcircle : (ring m').Circle (head i) l)
    (hl : ∀ x ∈ l, x ∈ entries i ∨ ∀ j, x ∉ head j :: entries j)
    (hptr : ∀ j ≠ i, ∀ x ∈ head j :: entries j, m' x = m x) : Family m' head (Function.update entries i l) := by
  -- the other lists keep their entries, and their pointers are not written
  refine h.change {i} ?_ ?_ ?_ (fun j hj => Function.update_of_ne hj _ _) fun j hj x hx => ?_
  · rintro _ rfl
    rwa [Function.update_self]
  · rintro _ rfl _ rfl _ _ _
    rfl
  · rintro _ rfl j hj x hx
    rw [Function.update_self] at hx
    rcases hl x hx with hx | hx
    · exact h.not_mem (Ne.symm hj) (List.mem_cons_of_mem _ hx)
    · exact hx j
  · have hsame := hptr j hj x hx
    exact ⟨congrArg ListHead.next hsame, congrArg ListHead.prev hsame⟩

/-- What `list_insert` leaves alone, between neighbours on a list. -/
theorem listInsert_outside {l : List α} {prev next : α} (hprev : prev ∈ l) (hnext : next ∈ l) (hnew : p ≠ new)
    (hp : p ∉ l) : listInsert m new prev next p = m p :=
  listInsert_of_ne hnew (ne_of_mem_of_not_mem hprev hp).symm (ne_of_mem_of_not_mem hnext hp).symm

omit [DecidableEq ι] in
theorem Family.listAdd_outside (h : Family m head entries) (hnew : p ≠ new) (hp : p ∉ head i :: entries i) :
    listAdd m new (head i) p = m p := listInsert_outside List.mem_cons_self (h.next_mem i) hnew hp

omit [DecidableEq ι] in
theorem Family.listAddTail_outside (h : Family m head entries) (hnew : p ≠ new) (hp : p ∉ head i :: entries i) :
    listAddTail m new (head i) p = m p := listInsert_outside (h.prev_mem i) List.mem_cons_self hnew hp

/-- **`list_add`** puts an entry first. -/
theorem Family.add (h : Family m head entries) (hnew : ∀ j, new ∉ head j :: entries j) :
    Family (listAdd m new (head i)) head (Function.update entries i (new :: entries i)) := by
  refine h.changeOne ?_ (fun x hx => ?_) fun j hj x hx => ?_
  · rw [ring_listAdd (List.ne_of_not_mem_cons (hnew i))]
    exact (h.circle i).add (hnew i)
  · rcases List.mem_cons.1 hx with rfl | hx
    · exact Or.inr hnew
    · exact Or.inl hx
  · exact h.listAdd_outside (ne_of_mem_of_not_mem hx (hnew j)) (h.not_mem hj hx)

/-- **`list_add_tail`** puts an entry last. -/
theorem Family.addTail (h : Family m head entries) (hnew : ∀ j, new ∉ head j :: entries j) :
    Family (listAddTail m new (head i)) head (Function.update entries i (entries i ++ [new])) := by
  refine h.changeOne ?_ (fun x hx => ?_) fun j hj x hx => ?_
  · rw [ring_listAddTail (ne_of_mem_of_not_mem (h.prev_mem i) (hnew i)).symm]
    exact (h.circle i).addTail (hnew i)
  · rcases List.mem_append.1 hx with hx | hx
    · exact Or.inl hx
    · rw [List.mem_singleton] at hx
      exact Or.inr (hx ▸ hnew)
  · exact h.listAddTail_outside (ne_of_mem_of_not_mem hx (hnew j)) (h.not_mem hj hx)

omit [DecidableEq ι] in
theorem Family.listDel_outside (h : Family m head entries) (hentry : entry ∈ entries i)
    (hp : p ∉ head i :: entries i) : listDel m entry p = m p := by
  obtain ⟨hprev, hnext⟩ := (h.circle i).neighbours_mem hentry
  exact listDel_of_ne (ne_of_mem_of_not_mem hprev hp).symm (ne_of_mem_of_not_mem hnext hp).symm

/-- **`list_del`** takes an entry out. -/
theorem Family.del (h : Family m head entries) (hentry : entry ∈ entries i) :
    Family (listDel m entry) head (Function.update entries i ((entries i).erase entry)) := by
  refine h.changeOne ?_ (fun x hx => Or.inl (List.mem_of_mem_erase hx)) fun j hj x hx => ?_
  · rw [ring_listDel]
    obtain ⟨l₁, l₂, -, hl, herase⟩ := List.exists_erase_eq hentry
    have hcircle := h.circle i
    rw [hl] at hcircle
    rw [herase]
    exact hcircle.remove
  · exact h.listDel_outside hentry (h.not_mem hj hx)

omit [DecidableEq ι] in
theorem Family.listSplice_outside (h : Family m head entries) (hi : p ∉ head i :: entries i)
    (hj : p ∉ head j :: entries j) : listSplice m (head j) (head i) p = m p :=
  listSplice_of_ne (List.ne_of_not_mem_cons hj) (ne_of_mem_of_not_mem (h.next_mem j) hj).symm
    (ne_of_mem_of_not_mem (h.prev_mem j) hj).symm (List.ne_of_not_mem_cons hi)
    (ne_of_mem_of_not_mem (h.next_mem i) hi).symm

/-- **`list_splice`** moves all entries of a list to the front of another one. -/
theorem Family.splice (h : Family m head entries) (hne : i ≠ j) :
    Family (listSplice m (head j) (head i)) head
      (Function.update (Function.update entries j []) i (entries j ++ entries i)) := by
  have hi : Function.update (Function.update entries j []) i (entries j ++ entries i) i = entries j ++ entries i :=
    Function.update_self _ _ _
  have hj : Function.update (Function.update entries j []) i (entries j ++ entries i) j = [] := by
    rw [Function.update_of_ne hne.symm, Function.update_self]
  have hapart : ∀ x ∈ head j :: entries j, x ∉ head i :: entries i := fun x hx => h.not_mem hne.symm hx
  -- the entries that the two lists have afterwards
  have hmem : ∀ x ∈ head i :: (entries j ++ entries i), x ∈ head i :: entries i ∨ x ∈ entries j := by
    intro x hx
    simp only [List.mem_cons, List.mem_append] at hx ⊢
    tauto
  have hsource : ∀ x ∈ [head j], x ∉ head i :: (entries j ++ entries i) := by
    intro x hx hc
    rw [List.mem_singleton] at hx
    subst hx
    rcases hmem _ hc with hc | hc
    · exact hapart _ List.mem_cons_self hc
    · exact (List.nodup_cons.1 (h.circle j).nodup).1 hc
  refine h.change {i, j} ?_ ?_ ?_ (fun k hk => ?_) fun k hk x hx => ?_
  · --  rfl) _ (rfl|the two lists share nothing, for one of them is only its head now
    rintro _ (rfl | rfl)
    · rw [hi, ring_listSplice]
      exact (h.circle _).splice (h.circle _) hapart
    · rw [hj, ring_listSplice]
      exact (h.circle _).splice_source
  · rintro _ (rfl | rfl) _ (rfl | rfl) x hx hx'
    · rfl
    · rw [hi] at hx
      rw [hj] at hx'
      exact absurd hx (hsource x hx')
    · rw [hj] at hx
      rw [hi] at hx'
      exact absurd hx' (hsource x hx)
    · rfl
  · -- nor do they share anything with the others
    intro a ha k hk x hx
    obtain ⟨hki, hkj⟩ : k ≠ i ∧ k ≠ j := not_or.1 hk
    rcases ha with ha | ha
    · rw [ha, hi] at hx
      rcases List.mem_append.1 hx with hx | hx
      · exact h.not_mem hkj.symm (List.mem_cons_of_mem _ hx)
      · exact h.not_mem hki.symm (List.mem_cons_of_mem _ hx)
    · rw [show a = j from ha, hj] at hx
      exact absurd hx List.not_mem_nil
  · obtain ⟨hki, hkj⟩ : k ≠ i ∧ k ≠ j := not_or.1 hk
    rw [Function.update_of_ne hki, Function.update_of_ne hkj]
  · obtain ⟨hki, hkj⟩ : k ≠ i ∧ k ≠ j := not_or.1 hk
    have hsame : listSplice m (head j) (head i) x = m x :=
      h.listSplice_outside (h.not_mem hki hx) (h.not_mem hkj hx)
    exact ⟨congrArg ListHead.next hsame, congrArg ListHead.prev hsame⟩

/-- **Lists refine sequences.** On a family of lists that share no entry, `list_add` and `list_add_tail` insert an entry
that is on none of them, at the front and at the end, `list_del` removes an entry, and `list_splice` moves all
entries of a list, in their order, to the front of another one. All lists are sound afterwards, and the pointers of
the other lists, and of everything that is on no list, are as before. -/
theorem lists_refine (h : Family m head entries) :
    (∀ i new, (∀ j, new ∉ head j :: entries j) →
      Family (listAdd m new (head i)) head (Function.update entries i (new :: entries i)) ∧
      ∀ p, p ≠ new → p ∉ head i :: entries i → listAdd m new (head i) p = m p) ∧
    (∀ i new, (∀ j, new ∉ head j :: entries j) →
      Family (listAddTail m new (head i)) head (Function.update entries i (entries i ++ [new])) ∧
      ∀ p, p ≠ new → p ∉ head i :: entries i → listAddTail m new (head i) p = m p) ∧
    (∀ i entry, entry ∈ entries i →
      Family (listDel m entry) head (Function.update entries i ((entries i).erase entry)) ∧
      ∀ p, p ∉ head i :: entries i → listDel m entry p = m p) ∧
    ∀ i j, i ≠ j →
      Family (listSplice m (head j) (head i)) head
        (Function.update (Function.update entries j []) i (entries j ++ entries i)) ∧
      ∀ p, p ∉ head i :: entries i → p ∉ head j :: entries j → listSplice m (head j) (head i) p = m p :=
  ⟨fun _ _ hnew => ⟨h.add hnew, fun _ => h.listAdd_outside⟩,
    fun _ _ hnew => ⟨h.addTail hnew, fun _ => h.listAddTail_outside⟩,
    fun _ _ hentry => ⟨h.del hentry, fun _ => h.listDel_outside hentry⟩,
    fun _ _ hne => ⟨h.splice hne, fun _ => h.listSplice_outside⟩⟩

/-- Every address is a list without entries. -/
def noEntries : Links (BitVec 64) := fun p => ⟨p, p⟩

/-- The heads of two lists. -/
def twoHeads (i : Bool) : BitVec 64 := if i then 0x2000#64 else 0x1000#64

theorem family_noEntries : Family noEntries twoHeads fun _ => [] where
  circle := fun _ => ⟨⟨rfl, rfl⟩, List.nodup_singleton _⟩
  apart := fun i j x hx hx' => by
    rw [List.mem_singleton] at hx hx'
    subst hx
    revert i j
    decide

/-- An entry of the second list is taken out, or moved to the first one. -/
theorem lists_refine_twoHeads :
    Family (listDel (listAdd noEntries 0x3000#64 0x2000#64) 0x3000#64) twoHeads
      (Function.update (Function.update (fun _ => []) true [0x3000#64]) true []) ∧
    Family (listSplice (listAdd noEntries 0x3000#64 0x2000#64) 0x2000#64 0x1000#64) twoHeads
      (Function.update (Function.update (Function.update (fun _ => []) true [0x3000#64]) true [])
        false [0x3000#64]) := by
  have hone : Family (listAdd noEntries 0x3000#64 0x2000#64) twoHeads
        (Function.update (fun _ => []) true [0x3000#64]) :=
    family_noEntries.add (i := true) (by decide)
  obtain ⟨-, -, hdel, hsplice⟩ := lists_refine hone
  exact ⟨(hdel true 0x3000#64 (by decide)).1, (hsplice false true (by decide)).1⟩

/-! ### Reading -/

omit [DecidableEq ι] in
theorem Family.listEmpty_iff (h : Family m head entries) : listEmpty m (head i) = true ↔ entries i = [] :=
  (h.circle i).empty_iff

omit [DecidableEq α] [DecidableEq ι] in
theorem Family.listFirst_eq (h : Family m head entries) : listFirst m (head i) = (entries i).head?.getD (head i) :=
  (h.circle i).path.next_eq

omit [DecidableEq ι] in
/-- The loop of `list_size` counts what is left of the path to the head. -/
theorem listSizeFrom_eq {a : α} {l : List α} {fuel size : ℕ} {b : α} (hpath : (ring m).Path a l b) (hb : b ∉ l)
    (hfuel : l.length < fuel) :
    listSizeFrom m b fuel (m a).next (size % 2 ^ 64) = some ((size + l.length) % 2 ^ 64) := by
  induction l generalizing a fuel size with
  | nil =>
    obtain ⟨n, rfl⟩ := Nat.exists_eq_succ_of_ne_zero (Nat.ne_zero_of_lt hfuel)
    have hnext : (m a).next = b := hpath.1
    rw [listSizeFrom, if_pos hnext, List.length_nil, Nat.add_zero]
  | cons x l ih =>
    obtain ⟨n, rfl⟩ := Nat.exists_eq_succ_of_ne_zero (Nat.ne_zero_of_lt hfuel)
    have hnext : (m a).next = x := hpath.1.1
    obtain ⟨hbx, hbl⟩ := List.ne_and_not_mem_of_not_mem_cons hb
    rw [listSizeFrom, hnext, if_neg (Ne.symm hbx), Nat.mod_add_mod, ih hpath.2 hbl (Nat.lt_of_succ_lt_succ hfuel),
      List.length_cons, Nat.add_assoc, Nat.add_comm 1]

omit [DecidableEq ι] in
/-- **`list_size`** counts the entries. -/
theorem Family.listSize_eq {fuel : ℕ} (h : Family m head entries) (hfuel : (entries i).length < fuel) :
    listSize fuel m (head i) = some ((entries i).length % 2 ^ 64) := by
  have hsize : listSizeFrom m (head i) fuel (m (head i)).next (0 % 2 ^ 64) = some ((0 + (entries i).length) % 2 ^ 64) :=
    listSizeFrom_eq (h.circle i).path (List.nodup_cons.1 (h.circle i).nodup).1 hfuel
  rwa [Nat.zero_add] at hsize

omit [DecidableEq ι] in
/-- There are not as many addresses as `list_size` could count. -/
theorem Family.listSize_eq_length {m : Links (BitVec 64)} {head : ι → BitVec 64} {entries : ι → List (BitVec 64)}
    {fuel : ℕ} (h : Family m head entries) (hfuel : (entries i).length < fuel) :
    listSize fuel m (head i) = some (entries i).length := by
  have hcard : (head i :: entries i).length ≤ 2 ^ 64 := by
    rw [← FinEnum.card_bitVec, FinEnum.card_eq_fintypeCard]
    exact (h.circle i).nodup.length_le_card
  rw [h.listSize_eq hfuel, Nat.mod_eq_of_lt hcard]

/-! ### Runs -/

/-- A call on the lists of a family. -/
inductive ListCall (ι α : Type)
  | add (i : ι) (new : α)
  | addTail (i : ι) (new : α)
  | del (entry : α)
  | splice (i j : ι)

namespace ListCall

/-- What a call does to the memory. -/
def run (head : ι → α) : ListCall ι α → Links α → Links α
  | add i new, m => listAdd m new (head i)
  | addTail i new, m => listAddTail m new (head i)
  | del entry, m => listDel m entry
  | splice i j, m => listSplice m (head j) (head i)

/-- What it does to the sequences. -/
def apply : ListCall ι α → (ι → List α) → ι → List α
  | add i new, entries => Function.update entries i (new :: entries i)
  | addTail i new, entries => Function.update entries i (entries i ++ [new])
  | del entry, entries => fun i => (entries i).erase entry
  | splice i j, entries => Function.update (Function.update entries j []) i (entries j ++ entries i)

/-- A new entry is on no list, one that is taken out is on a list, and no list is put in front of itself. -/
def Allowed (head : ι → α) (entries : ι → List α) : ListCall ι α → Prop
  | add _ new => ∀ j, new ∉ head j :: entries j
  | addTail _ new => ∀ j, new ∉ head j :: entries j
  | del entry => ∃ i, entry ∈ entries i
  | splice i j => i ≠ j

end ListCall

/-- A call on sound lists leaves sound lists. -/
theorem Family.step (h : Family m head entries) {c : ListCall ι α} (hc : c.Allowed head entries) :
    Family (c.run head m) head (c.apply entries) := by
  cases c with
  | add i new => exact h.add hc
  | addTail i new => exact h.addTail hc
  | del entry =>
    obtain ⟨i, hi⟩ := hc
    have herase : (fun j => (entries j).erase entry) = Function.update entries i ((entries i).erase entry) := by
      funext j
      by_cases hj : j = i
      · subst hj
        rw [Function.update_self]
      · have hnot : entry ∉ entries j := fun hmem =>
          h.not_mem hj (List.mem_cons_of_mem _ hmem) (List.mem_cons_of_mem _ hi)
        rw [Function.update_of_ne hj, List.erase_of_not_mem hnot]
    have hdel := h.del hi
    rw [← herase] at hdel
    exact hdel
  | splice i j => exact h.splice hc

/-- Calls, one after the other, with the sequences that the lists hold. -/
inductive ListRun (head : ι → α) : Links α → (ι → List α) → Links α → (ι → List α) → Prop
  | refl (m : Links α) (entries : ι → List α) : ListRun head m entries m entries
  | tail {m m' : Links α} {entries entries' : ι → List α} {c : ListCall ι α} (hrun : ListRun head m entries m' entries')
      (hc : c.Allowed head entries') : ListRun head m entries (c.run head m') (c.apply entries')

/-- **Every run refines the sequences.** -/
theorem Family.run {m' : Links α} {entries' : ι → List α} (h : Family m head entries)
    (hrun : ListRun head m entries m' entries') : Family m' head entries' := by
  induction hrun with
  | refl => exact h
  | tail _ hc ih => exact (ih h).step hc

end

/-! ### New heads -/

/-- **`list_init`** makes one more list, which is empty. -/
theorem Family.init {m : Links α} {head : ι → α} {entries : ι → List α} {new : α} (h : Family m head entries)
    (hnew : ∀ j, new ∉ head j :: entries j) :
    Family (listInit m new) (fun o : Option ι => o.elim new head) fun o => o.elim [] entries := by
  refine ⟨fun o => ?_, fun o o' x hx hx' => ?_⟩
  · rw [ring_listInit]
    cases o with
    | none => exact Ring.circle_init _ new
    | some i => exact (h.circle i).init (hnew i)
  · cases o with
    | none =>
      obtain rfl := List.mem_singleton.1 hx
      cases o' with
      | none => rfl
      | some j => exact absurd hx' (hnew j)
    | some i =>
      cases o' with
      | none =>
        obtain rfl := List.mem_singleton.1 hx'
        exact absurd hx (hnew i)
      | some j => exact congrArg some (h.apart i j x hx hx')

end Lists

end Kernel64
