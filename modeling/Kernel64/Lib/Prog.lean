import Mathlib.Logic.Function.Basic
import Mathlib.Tactic.Common

/-!
# Faulting state programs

Imperative code is embedded as `Prog σ α = StateT σ (Except Fault) α`: a program over the
state `σ` either returns a value and a new state or stops with a `Fault`. A loop is a
recursion on a fuel argument, and running out of fuel is a fault of its own, so that
"terminates, and never faults" is one statement: `Ensures m s Q`, *the run of `m` from `s`
returns, and what it returns satisfies `Q`*.

The `ensures_*` equations push `Ensures` through the program constructors. They are the
rules of the weakest-precondition calculus, stated as equivalences so that `simp` executes
a straight-line program symbolically.
-/

namespace Kernel64

/-- The ways a run can stop without a result. -/
inductive Fault where
  /-- A null pointer was dereferenced. -/
  | null
  /-- A debug assertion failed; the code then spins forever. -/
  | assertion
  /-- Memory outside an array was accessed. -/
  | bounds
  /-- Memory was given back to an allocator that already had it. -/
  | doubleFree
  /-- Memory that its owner gave up was accessed. -/
  | dangling
  /-- The fuel of a loop ran out. -/
  | fuel
  deriving DecidableEq, Repr

/-- Programs over a state `σ` that may fault. -/
abbrev Prog (σ : Type) (α : Type) : Type := StateT σ (Except Fault) α

variable {σ α β : Type}

/-- The run of `m` from `s` returns, and its result and final state satisfy `Q`. -/
def Ensures (m : Prog σ α) (s : σ) (Q : α → σ → Prop) : Prop :=
  ∃ a s', m s = Except.ok (a, s') ∧ Q a s'

/-- The run of `m` from `s` stops with the fault `e`. -/
def Faults (m : Prog σ α) (s : σ) (e : Fault) : Prop := m s = Except.error e

/-! ### Rules -/

@[simp]
theorem ensures_pure {a : α} {s : σ} {Q : α → σ → Prop} :
    Ensures (pure a : Prog σ α) s Q ↔ Q a s := by
  constructor
  · rintro ⟨b, s', h, hQ⟩
    injection h with h
    obtain ⟨rfl, rfl⟩ := Prod.mk.inj h
    exact hQ
  · exact fun hQ => ⟨a, s, rfl, hQ⟩

@[simp]
theorem ensures_bind {m : Prog σ α} {f : α → Prog σ β} {s : σ} {Q : β → σ → Prop} :
    Ensures (m >>= f) s Q ↔ Ensures m s fun a s' => Ensures (f a) s' Q := by
  have hrun : (m >>= f) s = (m s).bind fun r => f r.1 r.2 := rfl
  constructor
  · rintro ⟨b, s', h, hQ⟩
    rw [hrun] at h
    cases hm : m s with
    | error e => rw [hm] at h; cases h
    | ok r =>
      rw [hm] at h
      exact ⟨r.1, r.2, hm, b, s', h, hQ⟩
  · rintro ⟨a, s₁, hm, b, s', h, hQ⟩
    refine ⟨b, s', ?_, hQ⟩
    rw [hrun, hm]
    exact h

@[simp]
theorem ensures_map {m : Prog σ α} {f : α → β} {s : σ} {Q : β → σ → Prop} :
    Ensures (f <$> m) s Q ↔ Ensures m s fun a s' => Q (f a) s' := by
  rw [← bind_pure_comp, ensures_bind]
  simp only [ensures_pure]

@[simp]
theorem ensures_get {s : σ} {Q : σ → σ → Prop} :
    Ensures (get : Prog σ σ) s Q ↔ Q s s :=
  ensures_pure (a := s)

@[simp]
theorem ensures_set {s t : σ} {Q : PUnit → σ → Prop} :
    Ensures (set t : Prog σ PUnit) s Q ↔ Q ⟨⟩ t :=
  ensures_pure (a := PUnit.unit) (s := t)

@[simp]
theorem ensures_modify {f : σ → σ} {s : σ} {Q : PUnit → σ → Prop} :
    Ensures (modify f : Prog σ PUnit) s Q ↔ Q ⟨⟩ (f s) :=
  ensures_pure (a := PUnit.unit) (s := f s)

@[simp]
theorem ensures_throw {e : Fault} {s : σ} {Q : α → σ → Prop} :
    Ensures (throw e : Prog σ α) s Q ↔ False :=
  ⟨fun ⟨_, _, h, _⟩ => (nomatch h), False.elim⟩

theorem ensures_ite {c : Prop} [Decidable c] {m n : Prog σ α} {s : σ} {Q : α → σ → Prop} :
    Ensures (if c then m else n) s Q ↔ (c → Ensures m s Q) ∧ (¬c → Ensures n s Q) := by
  by_cases hc : c <;> simp [hc]

/-- The rule of consequence. -/
theorem Ensures.mono {m : Prog σ α} {s : σ} {Q R : α → σ → Prop} (h : Ensures m s Q)
    (hQR : ∀ a s', Q a s' → R a s') : Ensures m s R := by
  obtain ⟨a, s', hm, hQ⟩ := h
  exact ⟨a, s', hm, hQR a s' hQ⟩

/-- A run has one result: whatever `Ensures` holds of it holds of the value returned. -/
theorem Ensures.of_run {m : Prog σ α} {s : σ} {Q : α → σ → Prop} (h : Ensures m s Q)
    {a : α} {s' : σ} (hm : m s = Except.ok (a, s')) : Q a s' := by
  obtain ⟨b, t, hm', hQ⟩ := h
  rw [hm] at hm'
  injection hm' with hm'
  obtain ⟨rfl, rfl⟩ := Prod.mk.inj hm'
  exact hQ

/-- Conditions that agree on the run. -/
theorem ensures_congr {m : Prog σ α} {s : σ} {Q R : α → σ → Prop}
    (h : ∀ a s', m s = Except.ok (a, s') → (Q a s' ↔ R a s')) : Ensures m s Q ↔ Ensures m s R :=
  ⟨fun ⟨a, s', hm, hQ⟩ => ⟨a, s', hm, (h a s' hm).1 hQ⟩, fun ⟨a, s', hm, hR⟩ => ⟨a, s', hm, (h a s' hm).2 hR⟩⟩

/-- Run a program, and test what it returns. -/
def returns (m : Prog σ α) (s : σ) (p : α → σ → Bool) : Bool :=
  match m s with
  | .ok (a, s') => p a s'
  | .error _ => false

theorem returns_iff {m : Prog σ α} {s : σ} {p : α → σ → Bool} :
    returns m s p = true ↔ Ensures m s fun a s' => p a s' = true := by
  unfold returns Ensures
  cases m s with
  | error e => exact ⟨nofun, fun ⟨_, _, h, _⟩ => nomatch h⟩
  | ok r => exact ⟨fun h => ⟨r.1, r.2, rfl, h⟩, fun ⟨_, _, h, hp⟩ => by cases h; exact hp⟩

/-! ### Loops that may not end -/

/-- The run returns with `Q`, or it never ends, and then `P` holds. -/
def EnsuresUnless (P : Prop) (m : Prog σ α) (s : σ) (Q : α → σ → Prop) : Prop :=
  Ensures m s Q ∨ (P ∧ Faults m s .fuel)

theorem EnsuresUnless.ensures {P : Prop} {m : Prog σ α} {s : σ} {Q : α → σ → Prop}
    (h : EnsuresUnless P m s Q) (hP : ¬P) : Ensures m s Q :=
  h.resolve_right fun hc => hP hc.1

theorem EnsuresUnless.mono {P P' : Prop} {m : Prog σ α} {s : σ} {Q R : α → σ → Prop}
    (h : EnsuresUnless P m s Q) (hP : P → P') (hQR : ∀ a s', Q a s' → R a s') :
    EnsuresUnless P' m s R :=
  h.imp (fun h => h.mono hQR) fun h => ⟨hP h.1, h.2⟩

theorem EnsuresUnless.bind {P : Prop} {m : Prog σ α} {f : α → Prog σ β} {s : σ}
    {Q : β → σ → Prop} (h : EnsuresUnless P m s fun a s' => EnsuresUnless P (f a) s' Q) :
    EnsuresUnless P (m >>= f) s Q := by
  have hrun : (m >>= f) s = (m s).bind fun r => f r.1 r.2 := rfl
  rcases h with ⟨a, s', hm, h⟩ | ⟨hP, hm⟩
  · rcases h with h | ⟨hP, hf⟩
    · exact Or.inl (ensures_bind.2 ⟨a, s', hm, h⟩)
    · refine Or.inr ⟨hP, ?_⟩
      rw [Faults, hrun, hm]
      exact hf
  · refine Or.inr ⟨hP, ?_⟩
    rw [Faults] at hm ⊢
    rw [hrun, hm]
    rfl

/-- A first part that ends. -/
theorem Ensures.bindUnless {P : Prop} {m : Prog σ α} {f : α → Prog σ β} {s : σ}
    {Q : β → σ → Prop} (h : Ensures m s fun a s' => EnsuresUnless P (f a) s' Q) :
    EnsuresUnless P (m >>= f) s Q :=
  EnsuresUnless.bind (Or.inl h)

/-! ### Faults that are allowed -/

/-- The run returns with `Q`, or it stops with a fault that satisfies `F`. -/
def EnsuresOr (F : Fault → Prop) (m : Prog σ α) (s : σ) (Q : α → σ → Prop) : Prop :=
  match m s with
  | .ok (a, s') => Q a s'
  | .error e => F e

section

variable {F : Fault → Prop} {s : σ}

@[simp]
theorem ensuresOr_pure {a : α} {Q : α → σ → Prop} :
    EnsuresOr F (pure a : Prog σ α) s Q ↔ Q a s := Iff.rfl

@[simp]
theorem ensuresOr_bind {m : Prog σ α} {f : α → Prog σ β} {Q : β → σ → Prop} :
    EnsuresOr F (m >>= f) s Q ↔ EnsuresOr F m s fun a s' => EnsuresOr F (f a) s' Q := by
  have hrun : (m >>= f) s = (m s).bind fun r => f r.1 r.2 := rfl
  unfold EnsuresOr
  rw [hrun]
  cases m s with
  | error e => exact Iff.rfl
  | ok r => exact Iff.rfl

@[simp]
theorem ensuresOr_get {Q : σ → σ → Prop} : EnsuresOr F (get : Prog σ σ) s Q ↔ Q s s := Iff.rfl

@[simp]
theorem ensuresOr_set {t : σ} {Q : PUnit → σ → Prop} :
    EnsuresOr F (set t : Prog σ PUnit) s Q ↔ Q ⟨⟩ t := Iff.rfl

@[simp]
theorem ensuresOr_modify {f : σ → σ} {Q : PUnit → σ → Prop} :
    EnsuresOr F (modify f : Prog σ PUnit) s Q ↔ Q ⟨⟩ (f s) := Iff.rfl

@[simp]
theorem ensuresOr_throw {e : Fault} {Q : α → σ → Prop} :
    EnsuresOr F (throw e : Prog σ α) s Q ↔ F e := Iff.rfl

theorem ensuresOr_ite {c : Prop} [Decidable c] {m n : Prog σ α} {Q : α → σ → Prop} :
    EnsuresOr F (if c then m else n) s Q ↔ (c → EnsuresOr F m s Q) ∧ (¬c → EnsuresOr F n s Q) := by
  by_cases hc : c <;> simp [hc]

theorem EnsuresOr.mono {m : Prog σ α} {Q R : α → σ → Prop} (h : EnsuresOr F m s Q)
    (hQR : ∀ a s', Q a s' → R a s') : EnsuresOr F m s R := by
  unfold EnsuresOr at h ⊢
  cases hm : m s with
  | error e =>
    rw [hm] at h
    exact h
  | ok r =>
    rw [hm] at h
    exact hQR r.1 r.2 h

/-- More faults may be allowed. -/
theorem EnsuresOr.imp {F' : Fault → Prop} {m : Prog σ α} {Q : α → σ → Prop} (h : EnsuresOr F m s Q)
    (hF : ∀ e, F e → F' e) : EnsuresOr F' m s Q := by
  unfold EnsuresOr at h ⊢
  cases hm : m s with
  | error e =>
    rw [hm] at h
    exact hF e h
  | ok r =>
    rw [hm] at h
    exact h

/-- What a run gives, with the run. -/
theorem EnsuresOr.with_run {m : Prog σ α} {Q : α → σ → Prop} (h : EnsuresOr F m s Q) :
    EnsuresOr F m s fun a s' => m s = Except.ok (a, s') ∧ Q a s' := by
  unfold EnsuresOr at h ⊢
  cases hm : m s with
  | error e =>
    rw [hm] at h
    exact h
  | ok r =>
    rw [hm] at h
    exact ⟨rfl, h⟩

theorem EnsuresOr.ensures {m : Prog σ α} {Q : α → σ → Prop} (h : EnsuresOr F m s Q)
    (hF : ∀ e, ¬F e) : Ensures m s Q := by
  unfold EnsuresOr at h
  cases hm : m s with
  | error e =>
    rw [hm] at h
    exact absurd h (hF e)
  | ok r =>
    rw [hm] at h
    exact ⟨r.1, r.2, hm, h⟩

theorem Ensures.ensuresOr {m : Prog σ α} {Q : α → σ → Prop} (h : Ensures m s Q) : EnsuresOr F m s Q := by
  obtain ⟨a, s', hm, hQ⟩ := h
  unfold EnsuresOr
  rw [hm]
  exact hQ

theorem EnsuresOr.of_run {m : Prog σ α} {Q : α → σ → Prop} (h : EnsuresOr F m s Q) {a : α} {s' : σ}
    (hm : m s = Except.ok (a, s')) : Q a s' := by
  unfold EnsuresOr at h
  rw [hm] at h
  exact h

/-- Running out of fuel may be one of the faults that are allowed. -/
theorem EnsuresUnless.ensuresOr {P : Prop} {m : Prog σ α} {Q : α → σ → Prop} (h : EnsuresUnless P m s Q)
    (hF : P → F .fuel) : EnsuresOr F m s Q := by
  rcases h with h | ⟨hP, h⟩
  · exact h.ensuresOr
  · unfold EnsuresOr
    rw [h]
    exact hF hP

/-- Any run: nothing is known of what it returns. -/
theorem ensuresOr_any {m : Prog σ α} {Q : α → σ → Prop} (h : ∀ a s', Q a s') :
    EnsuresOr (fun _ => True) m s Q := by
  unfold EnsuresOr
  cases m s with
  | error e => trivial
  | ok r => exact h r.1 r.2

theorem ensuresOr_of_run {m : Prog σ α} {Q : α → σ → Prop} {a : α} {s' : σ} (hm : m s = Except.ok (a, s')) :
    EnsuresOr F m s Q ↔ Q a s' := by
  unfold EnsuresOr
  rw [hm]

end

theorem bind_of_run {m : Prog σ α} {f : α → Prog σ β} {s s' : σ} {a : α} (hm : m s = Except.ok (a, s')) :
    (m >>= f) s = f a s' := by
  have hrun : (m >>= f) s = (m s).bind fun r => f r.1 r.2 := rfl
  rw [hrun, hm]
  rfl

/-- A fault of the first part is one of the whole. -/
theorem Faults.bind {m : Prog σ α} {f : α → Prog σ β} {s : σ} {e : Fault} (h : Faults m s e) :
    Faults (m >>= f) s e := by
  have hrun : (m >>= f) s = (m s).bind fun r => f r.1 r.2 := rfl
  rw [Faults, hrun, h]
  rfl

/-- So is a fault of the second part, when the first one returns. -/
theorem faults_bind_run {m : Prog σ α} {f : α → Prog σ β} {s s' : σ} {e : Fault} {a : α}
    (hm : m s = Except.ok (a, s')) (h : Faults (f a) s' e) : Faults (m >>= f) s e :=
  (bind_of_run hm).trans h

/-- A run that stops with a fault does not return. -/
theorem Faults.not_ensures {m : Prog σ α} {s : σ} {e : Fault} {Q : α → σ → Prop} (h : Faults m s e) :
    ¬Ensures m s Q := fun ⟨_, _, hrun, _⟩ => nomatch h.symm.trans hrun

/-! ### Runs that may fault -/

/-- Whenever the run of `m` from `s` returns, its result and final state satisfy `Q`. -/
def Yields (m : Prog σ α) (s : σ) (Q : α → σ → Prop) : Prop :=
  ∀ a s', m s = Except.ok (a, s') → Q a s'

theorem Ensures.yields {m : Prog σ α} {s : σ} {Q : α → σ → Prop} (h : Ensures m s Q) :
    Yields m s Q := fun _ _ hm => h.of_run hm

/-- What holds whenever the run returns holds of the run that does. -/
theorem Ensures.and_yields {m : Prog σ α} {s : σ} {Q R : α → σ → Prop} (h : Ensures m s Q)
    (hy : Yields m s R) : Ensures m s fun a s' => Q a s' ∧ R a s' := by
  obtain ⟨a, s', hm, hq⟩ := h
  exact ⟨a, s', hm, hq, hy a s' hm⟩

theorem EnsuresUnless.yields {P : Prop} {m : Prog σ α} {s : σ} {Q : α → σ → Prop}
    (h : EnsuresUnless P m s Q) : Yields m s Q := by
  rcases h with h | ⟨-, h⟩
  · exact h.yields
  · intro a s' hm
    rw [Faults, hm] at h
    exact nomatch h

theorem yields_pure {a : α} {s : σ} {Q : α → σ → Prop} (h : Q a s) :
    Yields (pure a : Prog σ α) s Q :=
  (ensures_pure.2 h).yields

theorem yields_throw {e : Fault} {s : σ} {Q : α → σ → Prop} :
    Yields (throw e : Prog σ α) s Q :=
  fun _ _ h => nomatch h

/-- The runs of a sequence are the runs of its second part after those of its first. -/
theorem Yields.bind {m : Prog σ α} {f : α → Prog σ β} {s : σ} {Q : β → σ → Prop}
    (h : Yields m s fun a s' => Yields (f a) s' Q) : Yields (m >>= f) s Q := by
  intro b s' hrun
  obtain ⟨a, s₁, hm, hf⟩ := ensures_bind.1 (⟨b, s', hrun, rfl, rfl⟩ :
    Ensures (m >>= f) s fun b₁ s₁ => b₁ = b ∧ s₁ = s')
  obtain ⟨b₁, s₂, hf, rfl, rfl⟩ := hf
  exact h a s₁ hm b₁ s₂ hf

theorem Yields.mono {m : Prog σ α} {s : σ} {Q R : α → σ → Prop} (h : Yields m s Q)
    (hQR : ∀ a s', Q a s' → R a s') : Yields m s R := fun a s' hm => hQR a s' (h a s' hm)

/-- Any run: nothing is known of what it returns. -/
theorem yields_true {m : Prog σ α} {s : σ} {Q : α → σ → Prop} (h : ∀ a s', Q a s') :
    Yields m s Q := fun a s' _ => h a s'

/-- A sequence does not return when what follows its first part never does. -/
theorem Ensures.not_bind {m : Prog σ α} {f : α → Prog σ β} {s : σ} {P : α → σ → Prop}
    {Q : β → σ → Prop} (h : Ensures m s P) (hf : ∀ a s', P a s' → ¬Ensures (f a) s' Q) :
    ¬Ensures (m >>= f) s Q := by
  intro hbind
  rw [ensures_bind] at hbind
  obtain ⟨a, s', hm, hP⟩ := h
  exact hf a s' hP (hbind.of_run hm)

/-! ### Invariants of programs -/

/-- The program keeps `I`, whatever it does, and the faults that it stops with satisfy `F`. What it returns satisfies
`P`. -/
def Keeps (I : σ → Prop) (F : Fault → Prop) (m : Prog σ α) (P : α → Prop) : Prop :=
  ∀ s, I s → EnsuresOr F m s fun a s' => I s' ∧ P a

section

variable {I : σ → Prop} {F : Fault → Prop} {P : α → Prop} {Q : β → Prop}

theorem keeps_pure {a : α} (h : P a) : Keeps I F (pure a) P := fun _ hs => ensuresOr_pure.2 ⟨hs, h⟩

theorem keeps_throw {e : Fault} (h : F e) : Keeps I F (throw e : Prog σ α) P := fun _ _ => ensuresOr_throw.2 h

theorem Keeps.bind {m : Prog σ α} {f : α → Prog σ β} (hm : Keeps I F m P) (hf : ∀ a, P a → Keeps I F (f a) Q) :
    Keeps I F (m >>= f) Q := fun s hs => ensuresOr_bind.2 ((hm s hs).mono fun a s' h => hf a h.2 s' h.1)

/-- What is read is a state that satisfies the invariant. -/
theorem keeps_get : Keeps I F (get : Prog σ σ) I := fun _ hs => ensuresOr_get.2 ⟨hs, hs⟩

theorem keeps_modify {f : σ → σ} (h : ∀ s, I s → I (f s)) : Keeps I F (modify f : Prog σ PUnit) fun _ => True :=
  fun s hs => ensuresOr_modify.2 ⟨h s hs, trivial⟩

theorem keeps_set {t : σ} (h : I t) : Keeps I F (set t : Prog σ PUnit) fun _ => True :=
  fun _ _ => ensuresOr_set.2 ⟨h, trivial⟩

theorem keeps_ite {c : Prop} [Decidable c] {m n : Prog σ α} (hm : c → Keeps I F m P) (hn : ¬c → Keeps I F n P) :
    Keeps I F (if c then m else n) P := by
  split
  · next hc => exact hm hc
  · next hc => exact hn hc

theorem Keeps.mono {m : Prog σ α} {R : α → Prop} (h : Keeps I F m P) (hPR : ∀ a, P a → R a) : Keeps I F m R :=
  fun s hs => (h s hs).mono fun a _ ha => ⟨ha.1, hPR a ha.2⟩

theorem keeps_forM {m : α → Prog σ PUnit} : ∀ {l : List α}, (∀ a ∈ l, Keeps I F (m a) fun _ => True) →
    Keeps I F (l.forM m) fun _ => True
  | [], _ => keeps_pure trivial
  | a :: _, h => (h a List.mem_cons_self).bind fun _ _ => keeps_forM fun b hb => h b (List.mem_cons_of_mem _ hb)

end

end Kernel64
