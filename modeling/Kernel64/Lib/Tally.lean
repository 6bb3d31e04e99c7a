import Kernel64.Lib.Prog

/-!
# Programs that count

A program may count in its state what goes wrong, without ever reading the count. `CountsUp count m P` says that `m`
takes nothing off the count, and that it has added to it when it returns a result that satisfies `P`: so a result with
`P` says that something went wrong on the way. The rules follow the program, and the count is the only thing that they
say of the state.
-/

namespace Kernel64

variable {σ α β : Type} {count : σ → ℕ} {P : α → Prop} {Q : β → Prop} {m : Prog σ α} {s t : σ}

/-- From `s` the program takes nothing off the count, and adds to it before it returns a result with `P`. -/
def CountsUpAt (count : σ → ℕ) (m : Prog σ α) (P : α → Prop) (s : σ) : Prop :=
  Yields m s fun a s' => count s ≤ count s' ∧ (P a → count s < count s')

@[inherit_doc CountsUpAt]
def CountsUp (count : σ → ℕ) (m : Prog σ α) (P : α → Prop) : Prop := ∀ s, CountsUpAt count m P s

theorem CountsUp.mono {R : α → Prop} (h : CountsUp count m P) (hRP : ∀ a, R a → P a) : CountsUp count m R :=
  fun s => (h s).mono fun a _ ha => ⟨ha.1, fun hR => ha.2 (hRP a hR)⟩

theorem countsUp_pure {a : α} (h : ¬P a) : CountsUp count (pure a : Prog σ α) P :=
  fun _ => yields_pure ⟨Nat.le_refl _, fun hP => absurd hP h⟩

theorem countsUp_throw {e : Fault} : CountsUp count (throw e : Prog σ α) P := fun _ => yields_throw

/-- A sequence has counted something when one of its parts has. -/
theorem CountsUpAt.bind {f : α → Prog σ β} (hm : CountsUpAt count m P s)
    (hf : ∀ a, CountsUp count (f a) fun b => Q b ∧ ¬P a) : CountsUpAt count (m >>= f) Q s := by
  refine Yields.bind (hm.mono fun a s₁ h₁ => (hf a s₁).mono fun b s₂ h₂ => ⟨Nat.le_trans h₁.1 h₂.1, fun hQ => ?_⟩)
  by_cases hP : P a
  · exact Nat.lt_of_lt_of_le (h₁.2 hP) h₂.1
  · exact Nat.lt_of_le_of_lt h₁.1 (h₂.2 ⟨hQ, hP⟩)

theorem CountsUp.bind {f : α → Prog σ β} (hm : CountsUp count m P)
    (hf : ∀ a, CountsUp count (f a) fun b => Q b ∧ ¬P a) : CountsUp count (m >>= f) Q := fun s => (hm s).bind hf

/-- A first part that may count, and of which nothing is told. -/
theorem CountsUp.seq {f : α → Prog σ β} (hm : CountsUp count m fun _ => False) (hf : ∀ a, CountsUp count (f a) Q) :
    CountsUp count (m >>= f) Q := hm.bind fun a => (hf a).mono fun _ h => h.1

/-- What follows a first part that has counted something need not count. -/
theorem CountsUp.after {f : α → Prog σ β} (hm : CountsUp count m fun _ => True)
    (hf : ∀ a, CountsUp count (f a) fun _ => False) : CountsUp count (m >>= f) Q :=
  hm.bind fun a => (hf a).mono fun _ h => h.2 trivial

/-- The state is read, and the program goes on from there. -/
theorem countsUp_get {f : σ → Prog σ β} (hf : ∀ s, CountsUpAt count (f s) Q s) : CountsUp count (get >>= f) Q := by
  intro s b s' hrun
  exact hf s b s' hrun

theorem countsUpAt_set (h : count s ≤ count t) : CountsUpAt count (set t : Prog σ PUnit) (fun _ => False) s := by
  intro a s' hrun
  obtain ⟨-, rfl⟩ := Prod.mk.inj (Except.ok.inj hrun)
  exact ⟨h, False.elim⟩

theorem countsUp_modify {f : σ → σ} (h : ∀ s, count s ≤ count (f s)) :
    CountsUp count (modify f : Prog σ PUnit) fun _ => False := fun s => countsUpAt_set (h s)

/-- A change of the state comes first. -/
theorem countsUp_modify_seq {f : σ → σ} {g : PUnit → Prog σ β} (h : ∀ s, count s ≤ count (f s))
    (hg : ∀ a, CountsUp count (g a) Q) : CountsUp count (modify f >>= g) Q := (countsUp_modify h).seq hg

@[inherit_doc countsUp_modify_seq]
theorem countsUpAt_set_seq {g : PUnit → Prog σ β} (h : count s ≤ count t) (hg : ∀ a, CountsUp count (g a) Q) :
    CountsUpAt count (set t >>= g) Q s := (countsUpAt_set h).bind fun a => (hg a).mono fun _ h => h.1

/-- Something is counted. -/
theorem countsUp_add {f : σ → σ} (h : ∀ s, count s < count (f s)) :
    CountsUp count (modify f : Prog σ PUnit) fun _ => True := by
  intro s a s' hrun
  obtain ⟨-, rfl⟩ := Prod.mk.inj (Except.ok.inj hrun)
  exact ⟨Nat.le_of_lt (h s), fun _ => h s⟩

theorem countsUpAt_ite {c : Prop} [Decidable c] {m n : Prog σ α} (hm : c → CountsUpAt count m P s)
    (hn : ¬c → CountsUpAt count n P s) : CountsUpAt count (if c then m else n) P s := by
  split
  · next hc => exact hm hc
  · next hc => exact hn hc

theorem countsUp_ite {c : Prop} [Decidable c] {m n : Prog σ α} (hm : c → CountsUp count m P)
    (hn : ¬c → CountsUp count n P) : CountsUp count (if c then m else n) P :=
  fun s => countsUpAt_ite (fun hc => hm hc s) fun hc => hn hc s

theorem countsUp_forM {m : α → Prog σ PUnit} : ∀ {l : List α}, (∀ a ∈ l, CountsUp count (m a) fun _ => False) →
    CountsUp count (l.forM m) fun _ => False
  | [], _ => countsUp_pure id
  | a :: _, h => (h a List.mem_cons_self).seq fun _ => countsUp_forM fun b hb => h b (List.mem_cons_of_mem _ hb)

end Kernel64
