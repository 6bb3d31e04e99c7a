import Kernel64.Vfs.Stops

/-!
# Calls that make a directory or a file

`vfs_mkdir` and `vfs_create` return exactly when their walk to the directory of the path does, and the entry that it
comes to has a node (`FsOk.ensures_vfsMkdir_iff`, `FsOk.ensures_vfsCreate_iff`); all that they do after the walk
returns.
-/

namespace Kernel64

namespace Vfs

/-- **The directory of the path is entered, or the walk to it gives an error code**: it comes to no component that is
too long, and to no entry without a node. -/
def Enters (s : Fs) (p : List Char) : Prop :=
  (LongPath p → Stops s p) ∧ (¬LongPath p → Ensures (walkNames rootEntry (components p).dropLast)
    (s.addRefs rootEntry 1) fun r s' => ∀ e, r = .ok e → (s'.entry e).node ≠ none)

section

variable {s s' : Fs} {p : List Char} {H : Multiset Eid} {P : Eid → Fs → Prop}

/-- A walk over components that all fit. -/
theorem walkUntil_returns : ∀ (fuel : ℕ) {s : Fs} {w : Walk}, NamesFit s → w.Ok → w.tail.length < fuel →
    (∀ x ∈ components w.tail, x.length < maxPathLen) →
    ((Ensures (vfsWalkUntil (·.tail = []) fuel w) s fun r s' => r.1 = 0 → P r.2.entry s') ↔
      Ensures (walkNames w.entry w.rest.dropLast) s fun r s' => ∀ e, r = .ok e → P e s')
  | 0, _, _, _, _, hfuel, _ => absurd hfuel (Nat.not_lt_zero _)
  | fuel + 1, s, w, hs, hw, hfuel, hall => by
    rw [vfsWalkUntil]
    by_cases htail : w.tail = []
    · have hdone : w.rest.dropLast = [] := by
        unfold Walk.rest
        split_ifs
        · rfl
        · rw [htail]
          rfl
      rw [hdone, walkNames, if_pos (by simpa using htail), ensures_pure, ensures_pure]
      exact ⟨fun h e he => Except.ok.inj he ▸ h rfl, fun h _ => h _ rfl⟩
    · have hnext : w.next ≠ [] := fun hnil => htail (hw.done hnil)
      have hmore : components w.tail ≠ [] := fun hc => htail ((components_nil_iff hw.head).1 hc)
      have hshort := (hw.named hnext).short
      rw [if_neg (by simpa using htail), vfsWalk_eq, bind_assoc, ensures_bind, Walk.rest_eq hnext,
        List.dropLast_cons_of_ne_nil hmore, walkNames, ensures_bind]
      refine ensures_congr fun r s₁ hrun => ?_
      obtain ⟨hs₁, hrc⟩ := (fits_walkStep (e := w.entry) hshort s hs).of_run hrun
      cases r with
      | error rc =>
        dsimp only
        rw [pure_bind, if_pos (hrc rc rfl), ensures_pure, ensures_pure]
        exact iff_of_true (fun h0 => absurd h0 (hrc rc rfl)) fun _ he => (by cases he)
      | ok e' =>
        rcases nextEntry_cases hw.head with ⟨x, l, hcomp, hlen, -⟩ |
          ⟨next, tail, hread, hdone, hhead, hnamed, hrest, hle⟩
        · exact absurd (hall x (hcomp ▸ List.mem_cons_self)) (Nat.not_lt.2 hlen)
        · have hok : Walk.Ok ⟨e', next, tail⟩ := ⟨hdone, hhead, hnamed⟩
          have hon : w.On ⟨e', next, tail⟩ := ⟨hnext, hok, hrest, hle⟩
          have hlt : tail.length < w.tail.length := hon.tail_lt htail
          have hall' : ∀ x ∈ components tail, x.length < maxPathLen := fun x hx =>
            hall x (hrest ▸ hok.mem_rest hx)
          have ih := walkUntil_returns fuel hs₁ hok (by dsimp only; omega) hall'
          dsimp only
          rw [hread, pure_bind, pure_bind, ← hrest]
          exact ih

/-- **The walk to the directory of a path** returns, at an entry with a node or with an error code. -/
theorem enters_iff (hs : NamesFit s) :
    (Ensures (vfsWalkStart p >>= vfsWalkParent) s fun r s' => r.1 = 0 → (s'.entry r.2.entry).node ≠ none) ↔
      Enters s p := by
  have hfits := walkPath_fits (p := p) walkParent_fits hs
  by_cases hlong : LongPath p
  · -- a walk that returns has not come to the component that is too long
    have hne : ∀ r s', (vfsWalkStart p >>= vfsWalkParent) s = Except.ok (r, s') → r.1 ≠ 0 := by
      intro r s' hrun h0
      have hP : ¬TooLong s p := fun hP => nomatch hrun.symm.trans (hfits.long hP)
      obtain ⟨x, hx, hlen⟩ := hlong
      exact absurd (((hfits.short hP).of_run hrun).2.2 h0 x hx) (Nat.not_lt.2 hlen)
    unfold Enters
    rw [and_iff_left (fun hc => absurd hlong hc), forall_prop_of_true hlong,
      ← walkPath_stops walkParent_stuck hs hlong]
    exact ensures_congr fun r s' hrun => iff_of_true (fun h0 => absurd h0 (hne r s' hrun)) (hne r s' hrun)
  · have hall := not_longPath.1 hlong
    unfold Enters
    rw [and_iff_right (fun hc => absurd hc hlong), forall_prop_of_true hlong, vfsWalkStart, bind_assoc]
    rcases nextEntry_cases (skipSep_head p) with ⟨x, l, hcomp, hlen, -⟩ |
      ⟨next, tail, hread, hdone, hhead, hnamed, hrest, -⟩
    · rw [components_skipSep] at hcomp
      exact absurd (hall x (hcomp ▸ List.mem_cons_self)) (Nat.not_lt.2 hlen)
    · rw [components_skipSep] at hrest
      have hok : Walk.Ok ⟨rootEntry, next, tail⟩ := ⟨hdone, hhead, hnamed⟩
      have hwalk := walkUntil_returns (P := fun e s' => (s'.entry e).node ≠ none) (tail.length + 1)
        (hs.addRefs (e := rootEntry) 1) hok (Nat.lt_succ_self _)
        fun x hx => hall x (hrest ▸ hok.mem_rest hx)
      have hrun : vfsEntryGet rootEntry s = Except.ok ((), s.addRefs rootEntry 1) := rfl
      rw [ensures_bind, hread, pure_bind, pure_bind, ← hrest]
      exact ⟨fun h => hwalk.1 (h.of_run hrun), fun h => ⟨_, _, hrun, hwalk.2 h⟩⟩

/-- What the walk gives, when the call returns exactly where it leads. -/
theorem Enters.ledTo (hp : Enters s p) (hs : NamesFit s) (h : FsOk False False (fun _ => True) s H) :
    EnsuresOr (fun _ => False) (vfsWalkStart p >>= vfsWalkParent) s
      (LedTo False False (fun _ => True) (fun _ => False) H p s) := by
  obtain ⟨r, s₁, hrun, hnode⟩ := (enters_iff hs).2 hp
  refine (ensuresOr_of_run hrun).2 ⟨?_, hnode⟩
  exact (h.toParent (F := fun _ => True) False.elim (fun _ _ => trivial) fun _ => trivial).of_run hrun

/-- A call that uses the directory of a path returns only when the walk has entered it. -/
theorem enters_of_returns {α : Type} {f : ℤ × Walk → FsM α} {Q : α → Fs → Prop} (hs : NamesFit s)
    (h : Ensures ((vfsWalkStart p >>= vfsWalkParent) >>= f) s Q) (hf : ∀ w, ∃ g, f (0, w) = nodeOf w.entry >>= g) :
    Enters s p := by
  rw [ensures_bind] at h
  refine (enters_iff hs).1 (h.mono fun r s₁ hr h0 hnone => ?_)
  obtain ⟨rc, w⟩ := r
  obtain rfl : rc = 0 := h0
  obtain ⟨g, hg⟩ := hf w
  unfold nodeOf at hg
  rw [hg, ensures_bind, ensures_bind, ensures_get, hnone, ensures_throw] at hr
  exact hr

theorem enters_of_vfsMkdir {Q : ℤ → Fs → Prop} (hs : NamesFit s) (h : Ensures (vfsMkdir p) s Q) : Enters s p := by
  unfold vfsMkdir at h
  rw [← bind_assoc] at h
  exact enters_of_returns hs h fun w => ⟨_, rfl⟩

/-- **`vfs_mkdir` returns** exactly when its walk enters the directory. -/
theorem FsOk.ensures_vfsMkdir_iff (h : FsOk False False (fun _ => True) s H) (hs : NamesFit s) :
    (Ensures (vfsMkdir p) s fun _ _ => True) ↔ Enters s p := by
  refine ⟨enters_of_vfsMkdir hs, fun hp => ?_⟩
  exact ((h.mkdirFrom False.elim (hp.ledTo hs h)).ensures fun _ hf => hf).mono fun _ _ _ => trivial

theorem enters_of_vfsCreate {Q : ℤ × Option Eid → Fs → Prop} (hs : NamesFit s) (h : Ensures (vfsCreate p) s Q) :
    Enters s p := by
  unfold vfsCreate vfsFileOpen at h
  rw [← bind_assoc] at h
  exact enters_of_returns hs h fun w => ⟨_, rfl⟩

/-- **`vfs_create` returns** exactly when its walk enters the directory; a file that it opens has a node. -/
theorem FsOk.ensures_vfsCreate_iff (h : FsOk False False (fun _ => True) s H) (hs : NamesFit s) :
    (Ensures (vfsCreate p) s fun r s' => ∀ e, r.2 = some e → ∃ n, (s'.entry e).node = some n) ↔ Enters s p := by
  refine ⟨enters_of_vfsCreate hs, fun hp => ?_⟩
  have hopen := (h.fileOpenFrom False.elim true nofun (hp.ledTo hs h)).ensures fun _ hf => hf
  refine hopen.mono fun r s' hr e he => ?_
  obtain ⟨rc, o⟩ := r
  obtain ⟨-, -, hr, -⟩ := hr
  dsimp only at hr he
  cases hr with
  | failed => exact nomatch he
  | opened _ hm => exact ⟨_, Option.some.inj he ▸ hm⟩
  | leaked => exact nomatch he

end

end Vfs

end Kernel64
