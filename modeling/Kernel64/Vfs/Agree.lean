import Kernel64.Vfs.Unmount

/-!
# Opening and resolving

`vfs_resolve_path` walks along all components of a path. `vfs_open` walks to its directory only, and looks the last
component up there, whatever it is. The two agree when it is a name; they do not when it is `.` or `..`, or when there
is none (`vfsRun_agree`).
-/

namespace Kernel64

namespace Vfs

/-- **`vfs_open` and `vfs_resolve_path` agree on a path**: both fail, or they give the same node. -/
def Agree (s : Fs) (p : List Char) : Prop :=
  (Ensures (vfsOpen p) s (fun r _ => r.1 ≠ 0 ∧ r.2 = none) ∧
    Ensures (vfsResolvePath p) s fun r _ => r.1 = none ∧ r.2 ≠ 0) ∨
  ∃ k, Ensures (vfsOpen p) s (fun r s' => ∃ e, r = (0, some e) ∧ (s'.entry e).node = some k) ∧
    Ensures (vfsResolvePath p) s fun r s' => ∃ e, r = (some e, 0) ∧ (s'.entry e).node = some k

/-- The last component of the path is a name to be looked up. -/
def PlainLast (p : List Char) : Prop := Plain ((components p).getLastD [])

/-- What `vfs_walk_all` does once it has come to the directory. -/
def lastStep (r : ℤ × Walk) : FsM (ℤ × Walk) := do
  if r.1 ≠ 0 then return r
  else if r.2.next = [] then return (0, r.2)
  else vfsWalk r.2

/-- What `vfs_resolve_path` does after its walk. -/
def resolved (r : ℤ × Walk) : FsM (Option Eid × ℤ) := do
  if r.1 ≠ 0 then do
    vfsWalkStop r.2
    return (none, r.1)
  else do
    vfsEntryGet r.2.entry
    vfsWalkStop r.2
    return (some r.2.entry, 0)

/-- What `vfs_open` does in the directory. -/
def opened (r : ℤ × Walk) : FsM (ℤ × Option Eid) := do
  if r.1 ≠ 0 then do
    vfsWalkStop r.2
    return (r.1, none)
  else do
    let dir ← nodeOf r.2.entry
    if (← get).kind dir = .file then do
      vfsWalkStop r.2
      return (-ENOTSUP, none)
    else do
      let (entry, rc) ← vfsLookup r.2.entry r.2.next false
      vfsWalkStop r.2
      if rc ≠ 0 then return (rc, none)
      else match entry with
        | none => throw .null
        | some e => do
          let _ ← nodeOf e
          return (0, some e)

section

variable {C E : Prop} {D : Eid → Prop} {s s' : Fs} {H : Multiset Eid} {w w' : Walk} {p : List Char} {rc : ℤ}
  {events : List Event} {files : List Eid}
  {entrySupply : ℕ → Option Eid} {nodeSupply : ℕ → Option Nid} {nameSupply mountSupply : ℕ → Bool}

theorem vfsOpen_eq : vfsOpen p = (vfsWalkStart p >>= vfsWalkParent) >>= opened := by
  unfold vfsOpen vfsFileOpen opened
  rw [bind_assoc]
  refine bind_congr fun w₀ => bind_congr fun ⟨rc, w⟩ => ?_
  dsimp only
  refine ite_congr rfl (fun _ => rfl) fun _ => bind_congr fun dir => bind_congr fun s => ?_
  refine ite_congr rfl (fun _ => rfl) fun _ => bind_congr fun ⟨o, rc'⟩ => ?_
  cases o with
  | none => rw [pure_bind]
  | some e => simp

/-! ### The walk along a path, and the walk to its directory -/

/-- A step of a walk that returns. -/
theorem vfsWalk_cases (hs : NamesFit s) (hw : w.Ok) (hnext : w.next ≠ [])
    (hrun : vfsWalk w s = Except.ok ((rc, w'), s')) : NamesFit s' ∧
      ((rc ≠ 0 ∧ w' = w ∧ walkStep w.entry w.next s = Except.ok (.error rc, s')) ∨
        (rc = 0 ∧ w.On w' ∧ walkStep w.entry w.next s = Except.ok (.ok w'.entry, s'))) := by
  have hstep := fits_walkStep (e := w.entry) (hw.named hnext).short s hs
  rw [vfsWalk_eq] at hrun
  cases hr : walkStep w.entry w.next s with
  | error f => exact nomatch hrun.symm.trans (Faults.bind hr)
  | ok r =>
    obtain ⟨r, s₁⟩ := r
    obtain ⟨hs₁, hrc⟩ := hstep.of_run hr
    rw [bind_of_run hr] at hrun
    cases r with
    | error rc₁ =>
      obtain ⟨h, rfl⟩ := Prod.mk.inj (Except.ok.inj hrun)
      obtain ⟨rfl, rfl⟩ := Prod.mk.inj h
      exact ⟨hs₁, Or.inl ⟨hrc _ rfl, rfl, rfl⟩⟩
    | ok e' =>
      rcases nextEntry_cases hw.head with ⟨x, l, -, -, hread⟩ | ⟨next, tail, hread, hdone, htail, hnamed, hrest, hle⟩
      · dsimp only at hrun
        rw [hread] at hrun
        exact nomatch hrun
      · dsimp only at hrun
        rw [hread, pure_bind] at hrun
        obtain ⟨h, rfl⟩ := Prod.mk.inj (Except.ok.inj hrun)
        obtain ⟨rfl, rfl⟩ := Prod.mk.inj h
        exact ⟨hs₁, Or.inr ⟨rfl, ⟨hnext, ⟨hdone, htail, hnamed⟩, hrest, hle⟩, rfl⟩⟩

theorem Walk.next_eq_nil (h : w.rest = []) : w.next = [] := by
  by_contra hne
  rw [Walk.rest_eq hne] at h
  exact nomatch h

/-- The walk along a path is the walk to its directory and one more step. -/
theorem walkAll_run : ∀ (fuel : ℕ) {s : Fs} {w : Walk}, NamesFit s → w.Ok → w.tail.length < fuel →
    vfsWalkUntil (·.next = []) (fuel + 1) w s = (vfsWalkUntil (·.tail = []) fuel w >>= lastStep) s
  | 0, _, _, _, _, hfuel => absurd hfuel (Nat.not_lt_zero _)
  | fuel + 1, s, w, hs, hw, hfuel => by
    rw [vfsWalkUntil, vfsWalkUntil]
    by_cases htail : w.tail = []
    · rw [if_pos (decide_eq_true htail), pure_bind]
      unfold lastStep
      rw [if_neg (not_not.2 rfl)]
      by_cases hnext : w.next = []
      · rw [if_pos (decide_eq_true hnext), if_pos hnext]
      · rw [if_neg (by simpa using hnext), if_neg hnext]
        cases hr : vfsWalk w s with
        | error f => exact Faults.bind hr
        | ok r =>
          obtain ⟨⟨rc, w'⟩, s'⟩ := r
          rw [bind_of_run hr]
          dsimp only
          rcases (vfsWalk_cases hs hw hnext hr).2 with ⟨hrc, -⟩ | ⟨rfl, hon, -⟩
          · rw [if_pos hrc]
            rfl
          · have hnil : w'.next = [] := Walk.next_eq_nil (hon.rest.trans (by rw [htail]; rfl))
            rw [if_neg (not_not.2 rfl), vfsWalkUntil, if_pos (decide_eq_true hnil)]
            rfl
    · have hnext : w.next ≠ [] := fun hc => htail (hw.done hc)
      rw [if_neg (by simpa using hnext), if_neg (by simpa using htail), bind_assoc]
      cases hr : vfsWalk w s with
      | error f => exact (Faults.bind hr).trans (Faults.bind hr).symm
      | ok r =>
        obtain ⟨⟨rc, w'⟩, s'⟩ := r
        rw [bind_of_run hr, bind_of_run hr]
        dsimp only
        obtain ⟨hs', hcase⟩ := vfsWalk_cases hs hw hnext hr
        rcases hcase with ⟨hrc, -⟩ | ⟨rfl, hon, -⟩
        · rw [if_pos hrc, if_pos hrc, pure_bind, lastStep, if_pos hrc]
        · rw [if_neg (not_not.2 rfl), if_neg (not_not.2 rfl)]
          have := hon.tail_lt htail
          exact walkAll_run fuel hs' hon.ok (by omega)

/-- The walk to the directory comes there when the components before the last lead somewhere. -/
theorem walkParent_comes : ∀ (fuel : ℕ) {s s' : Fs} {w w' : Walk} {rc : ℤ}, NamesFit s → w.Ok → w.tail.length < fuel →
    vfsWalkUntil (·.tail = []) fuel w s = Except.ok ((rc, w'), s') →
    (rc = 0 ↔ Comes s w.entry w.rest.dropLast) ∧ (rc = 0 → w'.tail = [] ∧ w'.Ok ∧ w'.next = w.rest.getLastD []) := by
  intro fuel
  induction fuel with
  | zero => exact fun _ _ hfuel _ => absurd hfuel (Nat.not_lt_zero _)
  | succ fuel ih =>
    intro s s' w w' rc hs hw hfuel hrun
    rw [vfsWalkUntil] at hrun
    by_cases htail : w.tail = []
    · rw [if_pos (decide_eq_true htail)] at hrun
      obtain ⟨h, rfl⟩ := Prod.mk.inj (Except.ok.inj hrun)
      obtain ⟨rfl, rfl⟩ := Prod.mk.inj h
      have hrest : w.rest = if w.next = [] then [] else [w.next] := by rw [Walk.rest, htail]; rfl
      rw [hrest]
      refine ⟨iff_of_true rfl ?_, fun _ => ⟨htail, hw, ?_⟩⟩
      · split_ifs <;> exact ensures_pure.2 ⟨_, rfl⟩
      · split_ifs with hnil
        · exact hnil
        · rfl
    · have hnext : w.next ≠ [] := fun hc => htail (hw.done hc)
      have hmore : components w.tail ≠ [] := fun hc => htail ((components_nil_iff hw.head).1 hc)
      rw [if_neg (by simpa using htail)] at hrun
      rw [Walk.rest_eq hnext, List.dropLast_cons_of_ne_nil hmore]
      cases hr : vfsWalk w s with
      | error f => cases hrun.symm.trans (Faults.bind hr)
      | ok r =>
        obtain ⟨⟨rc₁, w₁⟩, s₁⟩ := r
        rw [bind_of_run hr] at hrun
        dsimp only at hrun
        obtain ⟨hs₁, hcase⟩ := vfsWalk_cases hs hw hnext hr
        rcases hcase with ⟨hrc, rfl, hstep⟩ | ⟨rfl, hon, hstep⟩
        · rw [if_pos hrc] at hrun
          obtain ⟨h, rfl⟩ := Prod.mk.inj (Except.ok.inj hrun)
          obtain ⟨rfl, rfl⟩ := Prod.mk.inj h
          refine ⟨iff_of_false hrc fun hc => ?_, fun h0 => absurd h0 hrc⟩
          obtain ⟨_, _, hstep', -⟩ := hc.step
          cases (Prod.mk.inj (Except.ok.inj (hstep.symm.trans hstep'))).1
        · rw [if_neg (not_not.2 rfl)] at hrun
          have hlt := hon.tail_lt htail
          have hrest := ih hs₁ hon.ok (by omega) hrun
          rw [hon.rest] at hrest
          rw [comes_cons hstep]
          refine ⟨hrest.1, fun h0 => ?_⟩
          obtain ⟨ht, hok, hlast⟩ := hrest.2 h0
          refine ⟨ht, hok, hlast.trans ?_⟩
          obtain ⟨x, l, hl⟩ := List.exists_cons_of_ne_nil hmore
          rw [hl]
          simp

/-- The beginning of a walk: the first component is too long, or it is read. -/
theorem vfsWalkStart_cases (p : List Char) (s : Fs) : Faults (vfsWalkStart p) s .bounds ∨
    ∃ w, vfsWalkStart p s = Except.ok (w, s.addRefs rootEntry 1) ∧ w.Ok ∧ w.entry = rootEntry ∧
      w.rest = components p := by
  have hget : vfsEntryGet rootEntry s = Except.ok ((), s.addRefs rootEntry 1) := rfl
  unfold vfsWalkStart
  rw [Faults, bind_of_run hget]
  rcases nextEntry_cases (skipSep_head p) with ⟨x, l, -, -, hread⟩ |
    ⟨next, tail, hread, hdone, htail, hnamed, hrest, -⟩
  · rw [hread]
    exact Or.inl rfl
  · rw [hread, pure_bind]
    exact Or.inr ⟨_, rfl, ⟨hdone, htail, hnamed⟩, rfl, hrest.trans (components_skipSep p)⟩

theorem vfsResolvePath_run (hs : NamesFit s) :
    vfsResolvePath p s = ((vfsWalkStart p >>= vfsWalkParent) >>= lastStep >>= resolved) s := by
  have heq : vfsResolvePath p = vfsWalkStart p >>= fun w => vfsWalkAll w >>= resolved := rfl
  rw [heq, bind_assoc, bind_assoc]
  rcases vfsWalkStart_cases p s with hfault | ⟨w, hrun, hw, -, -⟩
  · exact hfault.bind.trans hfault.bind.symm
  · rw [bind_of_run hrun, bind_of_run hrun, ← bind_assoc]
    have hall := walkAll_run (w.tail.length + 1) (hs.addRefs (e := rootEntry) 1) hw (Nat.lt_succ_self _)
    exact congrArg (fun r : Except Fault ((ℤ × Walk) × Fs) => r.bind fun a => resolved a.1 a.2) hall

/-- The walk to the directory of a path. -/
structure InDir (C E : Prop) (H : Multiset Eid) (p : List Char) (s s' : Fs) (rc : ℤ) (w : Walk) : Prop where
  parent : ToParent C E (fun _ => False) H p s s' rc w
  arrives : rc = 0 ↔ Arrives s (components p).dropLast
  last : rc = 0 → w.tail = [] ∧ w.Ok ∧ w.next = (components p).getLastD []

theorem FsOk.inDir (h : FsOk C E (fun _ => False) s H) (hs : NamesFit s) (hlong : ¬TooLong s p) :
    ∃ rc w s', (vfsWalkStart p >>= vfsWalkParent) s = Except.ok ((rc, w), s') ∧ InDir C E H p s s' rc w := by
  have hto := h.toParent (F := (· = .bounds)) (p := p) (fun _ _ => not_false) (fun _ => False.elim) fun _ => rfl
  have hfits := (walkPath_fits (p := p) walkParent_fits hs).short hlong
  cases hrun : (vfsWalkStart p >>= vfsWalkParent) s with
  | error f =>
    unfold EnsuresOr at hto hfits
    rw [hrun] at hto hfits
    exact absurd hto hfits
  | ok r =>
    obtain ⟨⟨rc, w⟩, s'⟩ := r
    refine ⟨rc, w, s', rfl, ?_⟩
    have hparent := hto.of_run hrun
    rcases vfsWalkStart_cases p s with hfault | ⟨w₀, hstart, hw₀, hroot, hrest⟩
    · exact nomatch hrun.symm.trans hfault.bind
    · rw [bind_of_run hstart] at hrun
      have hcomes := walkParent_comes (w₀.tail.length + 1) (hs.addRefs 1) hw₀ (Nat.lt_succ_self _) hrun
      rw [hroot, hrest] at hcomes
      exact ⟨hparent, hcomes.1, hcomes.2⟩

/-- Both calls go on from the directory. -/
theorem runs_of_dir (hs : NamesFit s) (hrun : (vfsWalkStart p >>= vfsWalkParent) s = Except.ok ((rc, w), s')) :
    vfsOpen p s = opened (rc, w) s' ∧ vfsResolvePath p s = (lastStep (rc, w) >>= resolved) s' := by
  constructor
  · rw [vfsOpen_eq, bind_of_run hrun]
  · rw [vfsResolvePath_run hs, bind_assoc, bind_of_run hrun]

/-! ### In the directory -/

theorem FsOk.ensures_nodeOf {e : Eid} {Q : Nid → Fs → Prop} (h : FsOk C E (fun _ => False) s H)
    (he : s.live e = true) (hQ : ∀ n, (s.entry e).node = some n → Q n s) : Ensures (nodeOf e) s Q :=
  (ensuresOr_nodeOf (F := fun _ => False) (fun hn => h.entries.positive e he hn) hQ).ensures fun _ hf => hf

/-- What is looked up in the directory of a path: nothing, or an entry that both calls would give. -/
inductive Looked (C E : Prop) (H : Multiset Eid) (w : Walk) (s : Fs) : Fs → Option Eid → ℤ → Prop
  | failed {s' : Fs} {rc : ℤ} : rc ≠ 0 → FsOk C E (fun _ => False) s' (w.entry ::ₘ H) → Looked C E H w s s' none rc
  | found {s' : Fs} {e : Eid} {n k : Nid} : FsOk C E (fun _ => False) s' (e ::ₘ w.entry ::ₘ H) →
      (s'.entry e).node = some k → (s.entry w.entry).node = some n → (C → s.find n w.next = some k) →
      Looked C E H w s s' (some e) 0

theorem FsOk.looked (h : FsOk C E (fun _ => False) s (w.entry ::ₘ H)) :
    ∃ o rc s', vfsLookup w.entry w.next false s = Except.ok ((o, rc), s') ∧ Looked C E H w s s' o rc := by
  have hlive : s.live w.entry = true := h.entries.held _ (Multiset.mem_cons_self _ _)
  obtain ⟨⟨o, rc⟩, s', hrun, -, -, n, hn, hr⟩ := (h.lookup (F := fun _ => False) (x := w.next) hlive
    (fun _ _ => not_false) (fun hn => h.entries.positive _ hlive hn) false).ensures fun _ hf => hf
  refine ⟨o, rc, s', hrun, ?_⟩
  dsimp only at hr
  cases hr with
  | file h₁ => exact .failed (by decide) h₁
  | memory h₁ => exact .failed (by decide) h₁
  | absent h₁ => exact .failed (by decide) h₁
  | missing _ _ hc => exact nomatch hc
  | @found e h₁ _ hchild hfound =>
    cases hk : (s'.entry e).node with
    | none => exact (h₁.entries.positive e hchild.live hk).elim
    | some k => exact .found h₁ hk hn fun hC => hfound hC k hk

/-- A file has nothing in it. -/
theorem vfsLookup_file {d : Eid} {n : Nid} {x : Name} {create : Bool} (hn : (s.entry d).node = some n)
    (hkind : s.kind n = .file) : vfsLookup d x create s = Except.ok ((none, -ENOTSUP), s) := by
  have hrun : Ensures (vfsLookup d x create) s fun r s' => r = (none, -ENOTSUP) ∧ s' = s := by
    unfold vfsLookup nodeOf
    rw [ensures_bind, ensures_bind, ensures_get, hn]
    simp [hkind]
  obtain ⟨r, s', hrun, rfl, rfl⟩ := hrun
  exact hrun

theorem Looked.ensures_opened {o : Option Eid} (h : FsOk C E (fun _ => False) s (w.entry ::ₘ H))
    (hrun : vfsLookup w.entry w.next false s = Except.ok ((o, rc), s')) (hl : Looked C E H w s s' o rc) :
    Ensures (opened (0, w)) s fun r s'' => (o = none ∧ r.1 ≠ 0 ∧ r.2 = none) ∨
      ∃ e, o = some e ∧ r = (0, some e) ∧ (s''.entry e).node = (s'.entry e).node := by
  have hlive : s.live w.entry = true := h.entries.held _ (Multiset.mem_cons_self _ _)
  unfold opened vfsWalkStop
  rw [if_neg (not_not.2 rfl), ensures_bind]
  refine h.ensures_nodeOf hlive fun n hn => ?_
  rw [ensures_bind, ensures_get]
  by_cases hkind : s.kind n = .file
  · rw [if_pos hkind, ensures_bind]
    rw [vfsLookup_file hn hkind] at hrun
    have ho : o = none := (Prod.mk.inj (Prod.mk.inj (Except.ok.inj hrun)).1).1.symm
    exact h.put.mono fun _ _ _ => ensures_pure.2 (Or.inl ⟨ho, show -ENOTSUP ≠ 0 by decide, rfl⟩)
  · rw [if_neg hkind, ensures_bind]
    refine ⟨_, _, hrun, ?_⟩
    dsimp only
    rw [ensures_bind]
    cases hl with
    | failed hrc h₁ =>
      refine h₁.put.mono fun _ _ _ => ?_
      rw [if_pos hrc]
      exact ensures_pure.2 (Or.inl ⟨rfl, hrc, rfl⟩)
    | @found e n' k h₁ hk _ _ =>
      rw [Multiset.cons_swap] at h₁
      refine h₁.put.mono fun _ s₂ ⟨h₂, hk₂, _⟩ => ?_
      rw [if_neg (not_not.2 rfl), ensures_bind]
      refine h₂.ensures_nodeOf (h₂.entries.held _ (Multiset.mem_cons_self _ _)) fun _ _ => ?_
      exact ensures_pure.2 (Or.inr ⟨e, rfl, rfl, (hk₂ e (.held (Multiset.mem_cons_self _ _))).node⟩)

/-- The entry that a walk came to is given to the caller. -/
theorem FsOk.ensures_resolved (h : FsOk C E (fun _ => False) s (w.entry ::ₘ H)) :
    Ensures (resolved (0, w)) s fun r s' => r = (some w.entry, 0) ∧ FsOk C E (fun _ => False) s' (w.entry ::ₘ H) ∧
      Kept (w.entry ::ₘ H) s s' := by
  have hlive : s.live w.entry = true := h.entries.held _ (Multiset.mem_cons_self _ _)
  unfold resolved vfsWalkStop vfsEntryGet
  rw [if_neg (not_not.2 rfl)]
  simp only [ensures_bind, ensures_modify]
  refine (h.get hlive).put.mono fun _ s' hr => ensures_pure.2 ⟨rfl, hr.1, ?_⟩
  exact kept_addRefs.trans hr.2.1

theorem Looked.ensures_resolved {o : Option Eid} (h : FsOk C E (fun _ => False) s (w.entry ::ₘ H))
    (hplain : Plain w.next) (htail : w.tail = [])
    (hrun : vfsLookup w.entry w.next false s = Except.ok ((o, rc), s')) (hl : Looked C E H w s s' o rc) :
    Ensures (lastStep (0, w) >>= resolved) s fun r s'' => (o = none ∧ r.1 = none ∧ r.2 ≠ 0) ∨
      ∃ e, o = some e ∧ r = (some e, 0) ∧ (s''.entry e).node = (s'.entry e).node := by
  have hlive : s.live w.entry = true := h.entries.held _ (Multiset.mem_cons_self _ _)
  unfold lastStep vfsWalk
  rw [if_neg (not_not.2 rfl), if_neg hplain.1, if_neg hplain.1, if_neg hplain.2.1, if_neg hplain.2.2, ensures_bind,
    ensures_bind]
  refine h.ensures_nodeOf hlive fun _ _ => ?_
  rw [ensures_bind]
  refine ⟨_, _, hrun, ?_⟩
  cases hl with
  | failed hrc h₁ =>
    refine ensures_pure.2 ?_
    unfold resolved vfsWalkStop
    rw [if_pos hrc, ensures_bind]
    exact h₁.put.mono fun _ _ _ => ensures_pure.2 (Or.inl ⟨rfl, rfl, hrc⟩)
  | @found e n k h₁ hk _ _ =>
    rw [Multiset.cons_swap] at h₁
    dsimp only
    rw [ensures_bind]
    refine h₁.put.mono fun _ s₂ ⟨h₂, hk₂, _⟩ => ?_
    have hread : vfsPathNextEntry w.tail = pure ([], []) := by
      rw [htail]
      rfl
    rw [hread, pure_bind, ensures_pure]
    refine (FsOk.ensures_resolved (w := ⟨e, [], []⟩) h₂).mono fun r s₃ ⟨hr, _, hk₃⟩ => Or.inr ⟨e, rfl, hr, ?_⟩
    have hsup : ∀ t : Fs, Supported t (e ::ₘ H) e := fun t => .held (Multiset.mem_cons_self _ _)
    exact (hk₃ e (hsup _)).node.trans (hk₂ e (hsup _)).node

/-- Without a name, the walk stays in the directory or goes to the one above it. -/
theorem FsOk.resolved_special {c : List Name} (h : FsOk True E (fun _ => False) s (w.entry ::ₘ H))
    (hspecial : ¬Plain w.next) (htail : w.tail = []) (hc : CachedAt s c w.entry) :
    Ensures (lastStep (0, w) >>= resolved) s fun r s' => ∃ e c', r = (some e, 0) ∧ (c' = c ∨ c' = c.dropLast) ∧
      ∀ k, (s'.entry e).node = some k → s.tree.nodeAt c' = some k := by
  have hlive : s.live w.entry = true := h.entries.held _ (Multiset.mem_cons_self _ _)
  have hread : vfsPathNextEntry w.tail = pure ([], []) := by
    rw [htail]
    rfl
  have hself : ∀ v : Walk, v.entry = w.entry → Ensures (resolved (0, v)) s fun r s' => ∃ e c', r = (some e, 0) ∧
      (c' = c ∨ c' = c.dropLast) ∧ ∀ k, (s'.entry e).node = some k → s.tree.nodeAt c' = some k := by
    intro v hv
    rw [← hv] at h hc
    refine h.ensures_resolved.mono fun r s' hres => ?_
    obtain ⟨hr, -, hk⟩ := hres
    refine ⟨v.entry, c, hr, Or.inl rfl, fun k hnode => ?_⟩
    rw [(hk v.entry (.held (Multiset.mem_cons_self _ _))).node] at hnode
    exact Tree.nodeAt_eq_some.2 (hc.walk h trivial (fun _ => not_false) hnode)
  unfold lastStep vfsWalk
  rw [if_neg (not_not.2 rfl), ensures_bind]
  by_cases hnil : w.next = []
  · rw [if_pos hnil]
    exact ensures_pure.2 (hself w rfl)
  rw [if_neg hnil, if_neg hnil]
  by_cases hdot : w.next = ['.']
  · rw [if_pos hdot, hread, pure_bind]
    exact ensures_pure.2 (hself ⟨w.entry, [], []⟩ rfl)
  rw [if_neg hdot]
  by_cases hdots : w.next = ['.', '.']
  · rw [if_pos hdots, hread]
    unfold vfsEntryGet
    simp only [ensures_bind, ensures_get, ensures_modify]
    have hget := h.get (h.entries.closed _ hlive)
    rw [Multiset.cons_swap] at hget
    refine hget.put.mono ?_
    rintro _ s₁ ⟨h₁, hk₁, ht₁⟩
    rw [ensures_pure, ensures_pure]
    have hkept := kept_addRefs.trans hk₁
    have hsup : ∀ t : Fs, Supported t ((s.entry w.entry).parent ::ₘ H) (s.entry w.entry).parent :=
      fun t => .held (Multiset.mem_cons_self _ _)
    have hc₁ := (hc.parent h).kept hkept (hsup _) h₁ (Multiset.Subset.refl _)
    refine (FsOk.ensures_resolved (w := ⟨(s.entry w.entry).parent, [], []⟩) h₁).mono fun r s₂ hr => ?_
    obtain ⟨hr, _, hk₂⟩ := hr
    refine ⟨_, c.dropLast, hr, Or.inr rfl, fun k hnode => ?_⟩
    rw [(hk₂ _ (hsup _)).node] at hnode
    have hwalk := hc₁.walk h₁ trivial (fun _ => not_false) hnode
    rw [(sameTree_addRefs.trans ht₁).tree] at hwalk
    exact Tree.nodeAt_eq_some.2 hwalk
  exact absurd ⟨hnil, hdot, hdots⟩ hspecial

/-- Nothing in a directory is the directory itself, or the one above it. -/
theorem FsOk.nodeAt_below (h : FsOk True False (fun _ => False) s H) {c c' : List Name} {x : Name} {k : Nid}
    (hc' : c' = c ∨ c' = c.dropLast) (hk : s.tree.nodeAt (c ++ [x]) = some k) : s.tree.nodeAt c' ≠ some k := by
  intro hk'
  have hkind : s.kind k ≠ .file := by
    intro hfile
    have hnone : ∀ y, s.tree.find k y = none := find_of_file hfile
    have hleaf : ∀ y, s.tree.nodeAt (c' ++ [y]) = none := fun y => by
      rw [Tree.nodeAt_snoc, hk', Option.bind_some, hnone]
    rcases hc' with rfl | rfl
    · exact nomatch (hleaf x).symm.trans hk
    · rcases List.eq_nil_or_concat c with rfl | ⟨q, y, rfl⟩
      · exact nomatch (hleaf x).symm.trans hk
      · have hq := hleaf y
        rw [List.concat_eq_append, List.dropLast_concat] at hq
        rw [List.concat_eq_append, Tree.nodeAt_snoc, hq] at hk
        exact nomatch hk
  have hlen := congrArg List.length (h.nodeAt_inj hkind hk' hk)
  rw [List.length_append, List.length_singleton] at hlen
  rcases hc' with rfl | rfl
  · omega
  · rw [List.length_dropLast] at hlen
    omega

theorem FsOk.of_agree (h : FsOk True False (fun _ => False) s H) (hs : NamesFit s) (ha : Agree s p) :
    ¬TooLong s p ∧ (PlainLast p ∨ ¬Arrives s (components p).dropLast) := by
  have hlong : ¬TooLong s p := by
    intro hlong
    have hfault : vfsOpen p s = .error .bounds := (fileOpen_fits hs).long hlong
    rcases ha with ⟨⟨_, _, hrun, _⟩, -⟩ | ⟨k, ⟨_, _, hrun, _⟩, -⟩
    · exact nomatch hfault.symm.trans hrun
    · exact nomatch hfault.symm.trans hrun
  refine ⟨hlong, or_iff_not_imp_left.2 fun hspecial harrives => ?_⟩
  obtain ⟨rc, w, s₁, hrun, hin⟩ := h.inDir hs hlong
  obtain rfl := hin.arrives.2 harrives
  obtain ⟨htail, -, hnext⟩ := hin.last rfl
  obtain ⟨c, hc⟩ := hin.parent.cached rfl
  have h₁ := hin.parent.ok
  obtain ⟨hopen_run, hres_run⟩ := runs_of_dir hs hrun
  obtain ⟨r, s₂, hres, e, c', hr, hc', hnode⟩ := h₁.resolved_special (hnext ▸ hspecial) htail hc
  rw [← hres_run] at hres
  rcases ha with ⟨-, hfail⟩ | ⟨k, hopen, hsame⟩
  · obtain ⟨hnone, -⟩ := hfail.of_run hres
    rw [hr] at hnone
    exact nomatch hnone
  · obtain ⟨e', hr', hk⟩ := hsame.of_run hres
    obtain rfl := Option.some.inj (Prod.mk.inj (hr.symm.trans hr')).1
    obtain ⟨o, rc, s₃, hlook, hl⟩ := h₁.looked
    obtain ⟨r', s₄, hopened, hcase⟩ := hl.ensures_opened h₁ hlook
    rw [← hopen_run] at hopened
    obtain ⟨e₁, hr₁, hk₁⟩ := hopen.of_run hopened
    -- the file that was opened is in the directory
    have hfind : s₁.tree.nodeAt (c ++ [w.next]) = some k := by
      rcases hcase with ⟨-, hne, -⟩ | ⟨e₂, rfl, hr₂, hk₂⟩
      · rw [hr₁] at hne
        exact absurd rfl hne
      · obtain rfl := Option.some.inj (Prod.mk.inj (hr₁.symm.trans hr₂)).2
        cases hl with
        | @found _ n k' h₃ hk' hn hfound =>
          rw [hk₁, hk'] at hk₂
          rw [Tree.nodeAt_snoc, Tree.nodeAt_eq_some.2 (hc.walk h₁ trivial (fun _ => not_false) hn), Option.some.inj hk₂]
          exact hfound trivial
    exact h₁.nodeAt_below hc' hfind (hnode k hk)

/-! ### Runs -/

end

end Vfs

end Kernel64
