import Kernel64.Vfs.Buffers

/-!
# Paths that stop before a component that does not fit

A call with a component that is too long for the buffers is right exactly when it never comes to it: the walk along the
components before the first such one stops with an error code (`vfsRun_inBuffers_iff`). The walk may also stop for good,
at an entry without a node, and then the call does not return.
-/

namespace Kernel64

namespace Vfs

/-- A component of the path is too long for the buffers. -/
def LongPath (p : List Char) : Prop := ∃ x ∈ components p, maxPathLen ≤ x.length

/-- Walking from the entry `e` along the components before the first one that is too long gives an error code. -/
def Stuck (s : Fs) (e : Eid) (l : List Name) : Prop :=
  Ensures (walkNames e (l.takeWhile fun x => x.length < maxPathLen)) s fun r _ => ∃ rc, r = .error rc

/-- The walk along a path gives an error code before a component that is too long. -/
def Stops (s : Fs) (p : List Char) : Prop := Stuck (s.addRefs rootEntry 1) rootEntry (components p)

/-- The walks of the call give an error code before a component that is too long. The new path of `vfs_link` is walked
when the old one is resolved. -/
def Call.Stops (s : Fs) : Call → Prop
  | .link p q => (LongPath p → Vfs.Stops s p) ∧ (¬LongPath p → LongPath q →
      Ensures (vfsResolvePath p) s fun r s' => r.1 = none ∨ Vfs.Stops s' q)
  | c => ∀ p ∈ c.paths, LongPath p → Vfs.Stops s p

/-- **Every name that the call writes is in its buffer**, and the call returns an error code when a component of a path
does not fit. -/
def Call.InBuffers (files : List Eid) (c : Call) (s : Fs) : Prop :=
  EnsuresOr (· ≠ .bounds) (vfsCall files c) s (fun _ => NamesFit) ∧
    (¬c.Short → Ensures (vfsCall files c) s fun r _ => r.1.1 ≠ 0)

section

variable {s s' : Fs} {e : Eid} {x : Name} {l : List Name} {p q : List Char} {c : Call} {files : List Eid}
  {H : Multiset Eid} {α β : Type}

theorem not_longPath : ¬LongPath p ↔ ∀ x ∈ components p, x.length < maxPathLen := by
  unfold LongPath
  simp only [not_exists, not_and, not_le]

/-! ### Walks that stop -/

theorem not_stuck_of_long (hx : maxPathLen ≤ x.length) : ¬Stuck s e (x :: l) := by
  unfold Stuck
  rw [List.takeWhile_cons_of_neg (by simpa using hx), walkNames, ensures_pure]
  rintro ⟨_, h⟩
  cases h

theorem stuck_cons (hx : x.length < maxPathLen) : Stuck s e (x :: l) ↔
    Ensures (walkStep e x) s fun r s' => ∀ e', r = .ok e' → Stuck s' e' l := by
  unfold Stuck
  rw [List.takeWhile_cons_of_pos (by simpa using hx), walkNames, ensures_bind]
  refine ⟨fun h => h.mono fun r s' hr => ?_, fun h => h.mono fun r s' hr => ?_⟩
  · rintro e' rfl
    exact hr
  · cases r with
    | error rc => exact ensures_pure.2 ⟨rc, rfl⟩
    | ok e' => exact hr e' rfl

theorem stuck_cons_of_run {e' : Eid} (hx : x.length < maxPathLen)
    (hrun : walkStep e x s = Except.ok (.ok e', s')) : Stuck s e (x :: l) ↔ Stuck s' e' l := by
  rw [stuck_cons hx]
  constructor
  · exact fun h => h.of_run hrun e' rfl
  · intro h
    refine ⟨_, s', hrun, fun e₁ he => ?_⟩
    rwa [← Except.ok.inj he]

/-- The next component was read, so the one that is too long comes after it. -/
theorem long_ahead {tail : List Char} (hlong : ∃ y ∈ l, maxPathLen ≤ y.length) (hnamed : x ≠ [] → Named x)
    (hrest : (if x = [] then [] else x :: components tail) = l) :
    x ≠ [] ∧ ∃ y ∈ components tail, maxPathLen ≤ y.length := by
  obtain ⟨y, hy, hlen⟩ := hlong
  have hnil : x ≠ [] := by
    rintro rfl
    rw [if_pos rfl] at hrest
    rw [← hrest] at hy
    exact nomatch hy
  rw [if_neg hnil] at hrest
  rw [← hrest] at hy
  refine ⟨hnil, y, (List.mem_cons.1 hy).resolve_left ?_, hlen⟩
  rintro rfl
  exact absurd (hnamed hnil).short (Nat.not_lt.2 hlen)

/-- A walk with a component ahead that is too long. -/
theorem walkUntil_stuck {stop : Walk → Bool} (μ : Walk → ℕ)
    (hstop : ∀ w : Walk, w.Ok → stop w = true → w.tail = [])
    (hgo : ∀ w : Walk, w.Ok → stop w = false → w.next ≠ [])
    (hμ : ∀ w w' : Walk, stop w = false → w.On w' → μ w' < μ w) : ∀ (fuel : ℕ) {s : Fs} {w : Walk},
    NamesFit s → w.Ok → μ w < fuel → (∃ x ∈ components w.tail, maxPathLen ≤ x.length) →
    ((Ensures (vfsWalkUntil stop fuel w) s fun r _ => r.1 ≠ 0) ↔ Stuck s w.entry (w.next :: components w.tail))
  | 0, _, _, _, _, hfuel, _ => absurd hfuel (Nat.not_lt_zero _)
  | fuel + 1, s, w, hs, hw, hfuel, hlong => by
    have hst : stop w = false := by
      refine Bool.eq_false_iff.2 fun hst => ?_
      rw [hstop w hw hst] at hlong
      obtain ⟨x, hx, -⟩ := hlong
      exact absurd hx List.not_mem_nil
    have hnext := hgo w hw hst
    have hshort := (hw.named hnext).short
    rw [vfsWalkUntil, hst, if_neg Bool.false_ne_true, vfsWalk_eq, bind_assoc, ensures_bind]
    have hstep := fits_walkStep (e := w.entry) hshort s hs
    cases hrun : walkStep w.entry w.next s with
    | error b =>
      -- neither walk returns
      have hnone : ∀ {Q : Except ℤ Eid → Fs → Prop}, ¬Ensures (walkStep w.entry w.next) s Q :=
        Faults.not_ensures hrun
      rw [stuck_cons hshort]
      exact iff_of_false hnone hnone
    | ok r =>
      obtain ⟨r, s₁⟩ := r
      obtain ⟨hs₁, hrc⟩ := hstep.of_run hrun
      cases r with
      | error rc =>
        refine iff_of_true ⟨_, s₁, hrun, ?_⟩ ((stuck_cons hshort).2 ⟨_, s₁, hrun, fun _ he => (by cases he)⟩)
        dsimp only
        rw [pure_bind, if_pos (hrc rc rfl)]
        exact ensures_pure.2 (hrc rc rfl)
      | ok e' =>
        rw [stuck_cons_of_run hshort hrun]
        rcases nextEntry_cases hw.head with ⟨x, l, hcomp, hlen, hread⟩ |
          ⟨next, tail, hread, hdone, htail, hnamed, hrest, hle⟩
        · -- the next component is written past the end of the buffer
          rw [hcomp]
          refine iff_of_false (fun h => ?_) (not_stuck_of_long hlen)
          have h' := h.of_run hrun
          dsimp only at h'
          rw [hread] at h'
          obtain ⟨_, _, h', _⟩ := h'
          cases h'
        · obtain ⟨hnil, hlong'⟩ := long_ahead hlong hnamed hrest
          rw [if_neg hnil] at hrest
          have hok : Walk.Ok ⟨e', next, tail⟩ := ⟨hdone, htail, hnamed⟩
          have hon : w.On ⟨e', next, tail⟩ := ⟨hnext, hok, by rw [Walk.rest_eq hnil, hrest], hle⟩
          have ih := walkUntil_stuck μ hstop hgo hμ fuel hs₁ hok (by have := hμ w _ hst hon; omega) hlong'
          rw [← hrest, ← ih]
          constructor
          · intro h
            have h' := h.of_run hrun
            dsimp only at h'
            rwa [hread, pure_bind, pure_bind] at h'
          · intro h
            refine ⟨_, s₁, hrun, ?_⟩
            dsimp only
            rwa [hread, pure_bind, pure_bind]

theorem walkParent_stuck {w : Walk} (hs : NamesFit s) (hw : w.Ok)
    (hlong : ∃ x ∈ components w.tail, maxPathLen ≤ x.length) :
    (Ensures (vfsWalkParent w) s fun r _ => r.1 ≠ 0) ↔ Stuck s w.entry (w.next :: components w.tail) := by
  refine walkUntil_stuck (fun w => w.tail.length) ?_ ?_ ?_ _ hs hw (Nat.lt_succ_self _) hlong
  · intro w' _ hst
    simpa using hst
  · intro w' hw' hst hnil
    exact absurd (hw'.done hnil) (by simpa using hst)
  · exact fun w₁ w₂ hst hon => hon.tail_lt (by simpa using hst)

theorem walkAll_stuck {w : Walk} (hs : NamesFit s) (hw : w.Ok)
    (hlong : ∃ x ∈ components w.tail, maxPathLen ≤ x.length) :
    (Ensures (vfsWalkAll w) s fun r _ => r.1 ≠ 0) ↔ Stuck s w.entry (w.next :: components w.tail) := by
  refine walkUntil_stuck (fun w => w.tail.length + if w.next = [] then 0 else 1) ?_ ?_ ?_ _ hs hw ?_ hlong
  · exact fun w' hw' hst => hw'.done (by simpa using hst)
  · intro w' _ hst
    simpa using hst
  · exact fun w₁ w₂ _ hon => hon.rest_lt
  · split_ifs <;> omega

/-- A walk along a path, by the loop `walk`. -/
theorem walkPath_stops {walk : Walk → FsM (ℤ × Walk)} (hwalk : ∀ {s : Fs} {w : Walk}, NamesFit s → w.Ok →
      (∃ x ∈ components w.tail, maxPathLen ≤ x.length) →
      ((Ensures (walk w) s fun r _ => r.1 ≠ 0) ↔ Stuck s w.entry (w.next :: components w.tail)))
    (hs : NamesFit s) (hlong : LongPath p) :
    (Ensures (vfsWalkStart p >>= walk) s fun r _ => r.1 ≠ 0) ↔ Stops s p := by
  have hrun : vfsEntryGet rootEntry s = Except.ok ((), s.addRefs rootEntry 1) := rfl
  rw [vfsWalkStart, bind_assoc]
  unfold Stops
  rcases nextEntry_cases (skipSep_head p) with ⟨x, l, hcomp, hlen, hread⟩ |
    ⟨next, tail, hread, hdone, htail, hnamed, hrest, -⟩
  · rw [components_skipSep] at hcomp
    rw [hcomp]
    refine iff_of_false (fun h => ?_) (not_stuck_of_long hlen)
    have hbounds : Faults (vfsEntryGet rootEntry >>= fun _ =>
        (vfsPathNextEntry (vfsPathSkipSep p) >>= fun r => pure ⟨rootEntry, r.1, r.2⟩) >>= walk) s .bounds := by
      refine faults_bind_run hrun ?_
      rw [hread]
      rfl
    exact hbounds.not_ensures h
  · rw [components_skipSep] at hrest
    obtain ⟨hnil, hlong'⟩ := long_ahead hlong hnamed hrest
    rw [if_neg hnil] at hrest
    have hok : Walk.Ok ⟨rootEntry, next, tail⟩ := ⟨hdone, htail, hnamed⟩
    rw [← hrest, ← hwalk (hs.addRefs 1) hok hlong', ensures_bind, hread, pure_bind, pure_bind]
    exact ⟨fun h => h.of_run hrun, fun h => ⟨_, _, hrun, h⟩⟩

/-! ### Calls that stop -/

/-- A call goes on after its walk; where the walk fails, so does the call. -/
theorem WalkFits.stops {P : Prop} {m : FsM (ℤ × Walk)} {f : ℤ × Walk → FsM α} {ok : α → Prop}
    (h : WalkFits P (components p) m s) (hlong : LongPath p)
    (hm : Yields m s fun r s' => FsOk False False (fun _ => True) s' (r.2.entry ::ₘ H))
    (hbad : ∀ rc w s', rc ≠ 0 → FsOk False False (fun _ => True) s' (w.entry ::ₘ H) →
      Ensures (f (rc, w)) s' fun a _ => ¬ok a) :
    (Ensures (m >>= f) s fun a _ => ¬ok a) ↔ Ensures m s fun r _ => r.1 ≠ 0 := by
  rw [ensures_bind]
  constructor
  · intro ⟨r, s', hrun, _⟩
    refine ⟨r, s', hrun, fun h0 => ?_⟩
    have hP : ¬P := fun hP => nomatch hrun.symm.trans (h.long hP)
    obtain ⟨x, hx, hlen⟩ := hlong
    exact absurd (((h.short hP).of_run hrun).2.2 h0 x hx) (Nat.not_lt.2 hlen)
  · intro ⟨r, s', hrun, hr⟩
    obtain ⟨rc, w⟩ := r
    exact ⟨_, s', hrun, hbad rc w s' hr (hm _ s' hrun)⟩

variable (hs : NamesFit s) (h : FsOk False False (fun _ => True) s H)

include h in
theorem yields_toParent : Yields (vfsWalkStart p >>= vfsWalkParent) s fun r s' =>
    FsOk False False (fun _ => True) s' (r.2.entry ::ₘ H) := fun _ _ hrun =>
  ((h.toParent (F := fun _ => True) False.elim (fun _ _ => trivial) fun _ => trivial).of_run hrun).ok

include h in
theorem yields_toEnd : Yields (vfsWalkStart p >>= vfsWalkAll) s fun r s' =>
    FsOk False False (fun _ => True) s' (r.2.entry ::ₘ H) := by
  have hor : EnsuresOr (fun _ => True) (vfsWalkStart p >>= vfsWalkAll) s fun r s' =>
      FsOk False False (fun _ => True) s' (r.2.entry ::ₘ H) := by
    rw [ensuresOr_bind]
    refine (h.walkStart fun _ => trivial).mono fun w s₁ h₁ => ?_
    refine (h₁.1.walkAll h₁.2.2.2.1 False.elim (fun _ _ => trivial) fun _ => trivial).mono ?_
    exact fun _ _ ⟨_, h₂⟩ => h₂.ok
  exact fun r s' hrun => hor.of_run hrun

include hs h

theorem fileOpen_stops {create : Bool} (hlong : LongPath p) :
    (Ensures (vfsFileOpen p create) s fun r _ => r.1 ≠ 0) ↔ Stops s p := by
  rw [← walkPath_stops walkParent_stuck hs hlong]
  unfold vfsFileOpen
  rw [← bind_assoc]
  refine (walkPath_fits walkParent_fits hs).stops hlong (yields_toParent h) fun rc w s' hrc h' => ?_
  dsimp only
  rw [if_pos hrc, ensures_bind]
  exact h'.put.mono fun _ _ _ => ensures_pure.2 hrc

theorem mkdir_stops (hlong : LongPath p) : (Ensures (vfsMkdir p) s fun rc _ => rc ≠ 0) ↔ Stops s p := by
  rw [← walkPath_stops walkParent_stuck hs hlong]
  unfold vfsMkdir
  rw [← bind_assoc]
  refine (walkPath_fits walkParent_fits hs).stops hlong (yields_toParent h) fun rc w s' hrc h' => ?_
  dsimp only
  rw [if_pos hrc, ensures_bind]
  exact h'.put.mono fun _ _ _ => ensures_pure.2 hrc

theorem resolve_stops (hlong : LongPath p) :
    (Ensures (vfsResolvePath p) s fun r _ => r.1 = none) ↔ Stops s p := by
  rw [← walkPath_stops walkAll_stuck hs hlong]
  unfold vfsResolvePath
  rw [← bind_assoc]
  simp only [← not_ne_iff (b := (none : Option Eid))]
  refine (walkPath_fits walkAll_fits hs).stops hlong (yields_toEnd h) fun rc w s' hrc h' => ?_
  dsimp only
  rw [if_pos hrc, ensures_bind]
  exact h'.put.mono fun _ _ _ => ensures_pure.2 (not_not.2 rfl)

/-- A call that resolves a path and fails where that fails. -/
theorem resolve_bind_stops {f : Option Eid × ℤ → FsM ℤ} (hf : ∀ rc, f (none, rc) = pure rc)
    (hlong : LongPath p) : (Ensures (vfsResolvePath p >>= f) s fun rc _ => rc ≠ 0) ↔ Stops s p := by
  rw [← resolve_stops hs h hlong, ensures_bind]
  constructor
  · intro ⟨r, s', hrun, _⟩
    refine ⟨r, s', hrun, of_not_not fun hsome => ?_⟩
    have hP : ¬TooLong s p := fun hP => nomatch hrun.symm.trans ((resolve_fits hs).long hP)
    obtain ⟨x, hx, hlen⟩ := hlong
    exact absurd ((((resolve_fits hs).short hP).of_run hrun).2 hsome x hx) (Nat.not_lt.2 hlen)
  · intro ⟨r, s', hrun, hnone⟩
    obtain ⟨o, rc⟩ := r
    obtain rfl : o = none := hnone
    refine ⟨_, s', hrun, ?_⟩
    show Ensures (f (none, rc)) s' _
    rw [hf]
    exact ensures_pure.2 (yields_resolve _ _ hrun rfl)

theorem remove_stops {op : Nid → Eid → FsM ℤ} (hlong : LongPath p) :
    (Ensures (vfsRemove op p) s fun rc _ => rc ≠ 0) ↔ Stops s p :=
  resolve_bind_stops hs h (fun _ => rfl) hlong

/-- The old path of `vfs_link` is resolved first. -/
theorem link_stops_old (hlong : LongPath p) : (Ensures (vfsLink p q) s fun rc _ => rc ≠ 0) ↔ Stops s p :=
  resolve_bind_stops hs h (fun _ => rfl) hlong

/-- The new path is walked when the old one was resolved. -/
theorem link_stops_new (hshort : ¬LongPath p) (hlong : LongPath q) :
    (Ensures (vfsLink p q) s fun rc _ => rc ≠ 0) ↔
      Ensures (vfsResolvePath p) s fun r s' => r.1 = none ∨ Stops s' q := by
  have hP : ¬TooLong s p := by
    rintro ⟨c, x, c', hl, hx, -⟩
    exact hshort ⟨x, hl ▸ List.mem_append_right _ List.mem_cons_self, hx⟩
  unfold vfsLink
  rw [ensures_bind]
  refine ensures_congr fun r s₁ hrun => ?_
  obtain ⟨o, rc⟩ := r
  have hs₁ := (((resolve_fits hs).short hP).of_run hrun).1
  cases o with
  | none => exact iff_of_true (ensures_pure.2 (yields_resolve _ _ hrun rfl)) (Or.inl rfl)
  | some old =>
    obtain ⟨-, -, hres⟩ :=
      (h.resolve (F := fun _ => True) False.elim (fun _ _ => trivial) fun _ => trivial).of_run hrun
    obtain ⟨e, he, h₁, -⟩ := hres.resolve_left fun hc => nomatch hc.1
    obtain rfl := Option.some.inj he
    dsimp only
    rw [or_iff_right (Option.some_ne_none _), ← walkPath_stops walkParent_stuck hs₁ hlong, ← bind_assoc]
    refine (walkPath_fits walkParent_fits hs₁).stops hlong (yields_toParent h₁) fun rc w s' hrc h' => ?_
    dsimp only
    rw [if_pos hrc, ensures_bind]
    refine h'.put.mono fun _ s₂ h₂ => ?_
    rw [ensures_bind]
    exact h₂.1.put.mono fun _ _ _ => ensures_pure.2 hrc

omit hs h in
/-- A call with one path. -/
theorem one_stops {r : α → ℤ} {m : FsM α} (hone : c.paths = [p])
    (hc : c.Stops s ↔ ∀ q ∈ c.paths, LongPath q → Stops s q)
    (hm : LongPath p → ((Ensures m s fun a _ => r a ≠ 0) ↔ Stops s p)) :
    (¬c.Short → Ensures m s fun a _ => r a ≠ 0) ↔ c.Stops s := by
  have hlong : ¬c.Short ↔ LongPath p := by
    unfold Call.Short
    rw [hone, List.forall_mem_singleton, ← not_longPath, not_not]
  rw [hc, hone, List.forall_mem_singleton, hlong]
  exact forall_congr' hm

/-- **A call with a component that does not fit** returns an error code exactly when its walks stop before it. -/
theorem call_stops :
    (¬c.Short → Ensures (vfsCall files c) s fun r _ => r.1.1 ≠ 0) ↔ c.Stops s := by
  have hfile : ∀ {m : FsM (ℤ × Option Eid)}, (Ensures (m >>= fileOf files) s fun r _ => r.1.1 ≠ 0) ↔
      Ensures m s fun r _ => r.1 ≠ 0 := by
    intro m
    rw [ensures_bind]
    refine ensures_congr fun r s' _ => ?_
    unfold fileOf
    cases r.2 with
    | none => exact ensures_pure
    | some e =>
      dsimp only
      rw [ensures_bind, ensures_get, ensures_pure]
  have hcode : ∀ {m : FsM ℤ}, (Ensures (m >>= fun rc => pure ((rc, none), files) :
      FsM ((ℤ × Option Nid) × List Eid)) s fun r _ => r.1.1 ≠ 0) ↔ Ensures m s fun rc _ => rc ≠ 0 := by
    intro m
    rw [ensures_bind]
    exact ensures_congr fun rc s' _ => ensures_pure
  cases c with
  | openFile p => exact one_stops rfl Iff.rfl fun hlong => hfile.trans (fileOpen_stops hs h hlong)
  | createFile p => exact one_stops rfl Iff.rfl fun hlong => hfile.trans (fileOpen_stops hs h hlong)
  | link p q =>
    have hlong : ¬(Call.link p q).Short ↔ LongPath p ∨ LongPath q := by
      unfold Call.Short Call.paths
      rw [List.forall_mem_cons, List.forall_mem_singleton, ← not_longPath, ← not_longPath, not_and_or, not_not,
        not_not]
    unfold Call.Stops vfsCall
    rw [hlong, hcode]
    by_cases hp : LongPath p
    · rw [link_stops_old hs h hp]
      exact ⟨fun hst => ⟨fun _ => hst (Or.inl hp), fun hc => absurd hp hc⟩, fun hst _ => hst.1 hp⟩
    · refine ⟨fun hst => ⟨fun hc => absurd hc hp, fun _ hq => ?_⟩, fun hst hq => ?_⟩
      · exact (link_stops_new hs h hp hq).1 (hst (Or.inr hq))
      · have hq := hq.resolve_left hp
        exact (link_stops_new hs h hp hq).2 (hst.2 hp hq)
  | unlink p => exact one_stops rfl Iff.rfl fun hlong => hcode.trans (remove_stops hs h hlong)
  | mkdir p => exact one_stops rfl Iff.rfl fun hlong => hcode.trans (mkdir_stops hs h hlong)
  | rmdir p => exact one_stops rfl Iff.rfl fun hlong => hcode.trans (remove_stops hs h hlong)
  | release i => exact iff_of_true (fun hc => absurd (fun p hp => nomatch hp) hc) fun p hp => nomatch hp
  | mount y => exact iff_of_true (fun hc => absurd (fun p hp => nomatch hp) hc) fun p hp => nomatch hp
  | umount y => exact iff_of_true (fun hc => absurd (fun p hp => nomatch hp) hc) fun p hp => nomatch hp

omit h in
/-- A call that returns has written no name past the end of a buffer. -/
theorem Call.inBuffers_of_returns (hc : ¬c.Short → Ensures (vfsCall files c) s fun r _ => r.1.1 ≠ 0) :
    c.InBuffers files s := by
  have hfits : PathFits (c.TooLong s) _ (vfsCall files c) _ s := call_fits hs
  have hlong : ¬c.TooLong s := by
    intro hlong
    refine (hfits.long hlong).not_ensures (hc fun hshort => ?_)
    have hpath : ∀ {s : Fs} {p : List Char}, p ∈ c.paths → ¬Vfs.TooLong s p := by
      rintro s p hp ⟨d, x, d', hl, hx, -⟩
      exact absurd (hshort p hp x (hl ▸ List.mem_append_right _ List.mem_cons_self)) (Nat.not_lt.2 hx)
    cases c with
    | link p q =>
      rcases hlong with hlong | ⟨_, _, _, _, hlong⟩
      · exact hpath List.mem_cons_self hlong
      · exact hpath (List.mem_cons_of_mem _ List.mem_cons_self) hlong
    | _ =>
      obtain ⟨p, hp, hlong⟩ := hlong
      exact hpath hp hlong
  exact ⟨(hfits.short hlong).mono fun _ _ hr => hr.1, hc⟩

omit h in
/-- A call that comes to a component that is too long writes it past the end of the buffer. -/
theorem Call.not_inBuffers_of_tooLong (hlong : c.TooLong s) : ¬c.InBuffers files s := by
  have hfits : PathFits (c.TooLong s) _ (vfsCall files c) _ s := call_fits hs
  have hfault : vfsCall files c s = .error .bounds := hfits.long hlong
  intro hin
  have hor := hin.1
  unfold EnsuresOr at hor
  rw [hfault] at hor
  exact hor rfl

theorem Call.inBuffers_iff : c.InBuffers files s ↔ c.Stops s := by
  have hstops : (¬c.Short → Ensures (vfsCall files c) s fun r _ => r.1.1 ≠ 0) ↔ c.Stops s := call_stops hs h
  rw [← hstops]
  exact ⟨fun hin => hin.2, fun hc => Call.inBuffers_of_returns hs hc⟩

end

/-! ### Runs -/

variable {s : Fs} {files : List Eid} {events : List Event} {entrySupply : ℕ → Option Eid}
  {nodeSupply : ℕ → Option Nid} {nameSupply mountSupply : ℕ → Bool}

/-- **The components of paths and their buffers.** In every run the names are in their buffers. The next call writes
no name past the end of one, and returns an error code when a component does not fit, exactly when its walks give an
error code before they come to one that is too long. -/
theorem vfsRun_inBuffers_iff
    (hrun : VfsRun (setupVfs entrySupply nodeSupply nameSupply mountSupply) events s files) :
    NamesFit s ∧ ∀ c : Call, c.InBuffers files s ↔ c.Stops s := by
  have hs := hrun.namesFit namesFit_setupVfs
  obtain ⟨L, h⟩ := hrun.fsOk_any (E := False) False.elim
  exact ⟨hs, fun c => Call.inBuffers_iff hs h⟩

/-- A name of one character too many. -/
def longName : Name := List.replicate maxPathLen 'a'

theorem length_longName : longName.length = maxPathLen := List.length_replicate

/-- A path that is one such name is written past the end of the buffer. -/
theorem not_inBuffers_longName : ¬(Call.openFile longName).InBuffers [] roomy := by
  have hcomp : components longName = [longName] := by decide +kernel
  have hlong : (Call.openFile longName).TooLong roomy :=
    ⟨longName, List.mem_singleton_self _, [], longName, [], hcomp, length_longName.ge,
      ensures_pure.2 ⟨rootEntry, rfl⟩⟩
  exact Call.not_inBuffers_of_tooLong namesFit_setupVfs hlong

/-- After a mount: the last component is too long, and the one before it is not in the directory. -/
theorem vfsRun_inBuffers_behindNothing : ∃ events s, VfsRun roomy events s [] ∧
    events.map Event.call = [.mount ['m']] ∧
    (Call.mkdir ('m' :: '/' :: 'x' :: '/' :: longName)).InBuffers [] s := by
  have hrun : returns (vfsCall [] (.mount ['m'])) roomy (fun r s =>
      r = ((0, none), []) && returns (walkNames rootEntry [['m'], ['x']]) (s.addRefs rootEntry 1) fun r _ =>
        !r.isOk) = true := by decide
  obtain ⟨r, s, hcall, hr⟩ := returns_iff.1 hrun
  simp only [Bool.and_eq_true, decide_eq_true_eq] at hr
  obtain ⟨rfl, hwalk⟩ := hr
  have hrun₁ := VfsRun.start.call hcall
  refine ⟨_, s, hrun₁, rfl, ((vfsRun_inBuffers_iff hrun₁).2 _).2 fun p hp _ => ?_⟩
  have hshort : (components ('m' :: '/' :: 'x' :: '/' :: longName)).takeWhile (fun x => x.length < maxPathLen) =
      [['m'], ['x']] := by decide +kernel
  rw [List.mem_singleton.1 hp]
  unfold Stops Stuck
  rw [hshort]
  refine (returns_iff.1 hwalk).mono fun r _ hr => ?_
  cases r with
  | error rc => exact ⟨rc, rfl⟩
  | ok e => exact nomatch hr

end Vfs

end Kernel64
