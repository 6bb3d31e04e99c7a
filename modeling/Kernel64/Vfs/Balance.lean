import Kernel64.Vfs.Runs

/-!
# The references after a call

A call that takes a path gives back what it took, but for the reference of a file that it opens
(`vfsRun_balanced`), as long as no `vfs_create` fails to make a file that is missing. The references on the
nodes of `ramfs` are never in balance (`vfsRun_nodes_balanced_iff`): `ramfs_node_create` takes one too many.
-/

namespace Kernel64

namespace Vfs

/-- The references on an entry that are not those of the entries below it. -/
noncomputable def outside (s : Fs) (e : Eid) : ℤ :=
  if s.live e then (s.entry e).refcount - refs (up s s.live) e - (if e = rootEntry then 1 else 0) else 0

/-- A call gave back the references that it took, but for the one of a file that it opened; that one is
dropped when the file is released. -/
def Balanced (files : List Eid) (c : Call) (s : Fs) (r : (ℤ × Option Nid) × List Eid) (s' : Fs) : Prop :=
  (r.2 = files ∧ SameCounts s s' ∧ (r.1.1 = 0 → ∀ p, c ≠ .openFile p ∧ c ≠ .createFile p)) ∨
  ∃ e m, r = ((0, some m), e :: files) ∧ (s'.entry e).node = some m ∧
    (∀ y, outside s' y = outside s y + if y = e then 1 else 0) ∧
    Ensures (vfsRelease e) s' fun _ s'' => SameCounts s s''

/-- No component of a path is too long for the buffer, and a file that is created is there or can be made. -/
structure Call.Safe (s : Fs) (c : Call) : Prop where
  short : ∀ p ∈ c.paths, ∀ x ∈ components p, x.length < maxPathLen
  create : ∀ p, c = .createFile p → CreateSafe s p

/-- As many references on each node as there are names, entries and mounts for it, and some. -/
def NodesBalanced (s : Fs) : Prop :=
  ∀ n, s.nodeLive n = true →
    s.nodeRefs n = (refs (nodesOf s s.live) n + refs (namesOf s) n + mountsOf s n : ℕ) ∧
    0 < refs (nodesOf s s.live) n + refs (namesOf s) n + mountsOf s n

section

variable {C E : Prop} {D : Eid → Prop} {s s₀ s' : Fs} {H L : Multiset Eid} {c : Call} {files : List Eid}
  {events : List Event} {entrySupply : ℕ → Option Eid} {nodeSupply : ℕ → Option Nid}
  {nameSupply mountSupply : ℕ → Bool}

/-! ### The beginning -/

theorem refs_none {ι β : Type*} {φ : ι → Option β} (h : ∀ i, φ i = none) (b : β) :
    Sparse φ ∧ refs φ b = 0 := by
  have hsparse : Sparse φ := by
    refine Set.finite_empty.subset fun i hi => hi (h i)
  refine ⟨hsparse, (refs_eq_zero_iff hsparse).2 fun i hi => ?_⟩
  rw [h i] at hi
  exact nomatch hi

theorem setupVfs_live {e : Eid} :
    (setupVfs entrySupply nodeSupply nameSupply mountSupply).live e = true ↔ e = rootEntry :=
  decide_eq_true_iff

theorem fsOk_setupVfs (hC : ¬C) :
    FsOk C E D (setupVfs entrySupply nodeSupply nameSupply mountSupply) 0 where
  coherent hc := absurd hc hC
  bare _ _ := rfl
  entries := by
    have hup : ∀ e, up (setupVfs entrySupply nodeSupply nameSupply mountSupply)
        (setupVfs entrySupply nodeSupply nameSupply mountSupply).live e = none :=
      fun e => if_neg fun hc => hc.2 (setupVfs_live.1 hc.1)
    constructor
    case root_mem => exact setupVfs_live.2 rfl
    case root_parent => rfl
    case root_cached => rfl
    case root_node => rfl
    case finite =>
      exact (Set.finite_singleton rootEntry).subset fun e he => setupVfs_live.1 he
    case live => exact fun e he => he
    case closed => exact fun e he => setupVfs_live.2 rfl
    case deeper => exact fun e he hroot => absurd (setupVfs_live.1 he) hroot
    case counted =>
      intro e he
      rw [(refs_none hup e).2, setupVfs_live.1 he]
      rfl
    case pos => exact fun _ _ => Int.one_pos
    case held => exact fun e he => absurd he (Multiset.notMem_zero e)
    case cache_iff =>
      intro d x e hd
      exact iff_of_false nofun fun hc => nomatch hc.2.1
    case positive => exact fun e _ hn => nomatch hn
  nodes := by
    have hnodes : ∀ e, e ≠ rootEntry → nodesOf (setupVfs entrySupply nodeSupply nameSupply mountSupply)
        (setupVfs entrySupply nodeSupply nameSupply mountSupply).live e = none :=
      fun e he => if_neg fun hc => he (setupVfs_live.1 hc)
    constructor
    case sparse =>
      refine (Set.finite_singleton rootEntry).subset fun e he => ?_
      by_contra hne
      exact he (hnodes e hne)
    case names_sparse => exact (refs_none (fun _ => rfl) rootNode).1
    case root_dead => rfl
    case root_kind => rfl
    case kinds => exact fun n hn => nomatch hn
    case pointed =>
      intro e n hroot he
      rw [hnodes e hroot] at he
      exact nomatch he
    case named => exact fun _ _ h => nomatch h
    case mounted => exact fun x hx => nomatch hx
    case held => exact fun n hn => absurd hn (Multiset.notMem_zero n)
    case counted => exact fun n hn => nomatch hn

/-! ### The references on the entries -/

theorem FsOk.outside_eq (h : FsOk C E D s H) (e : Eid) : outside s e = H.count e := by
  unfold outside
  cases he : s.live e with
  | true =>
    rw [if_pos rfl, h.entries.counted e he]
    push_cast
    omega
  | false =>
    rw [if_neg Bool.false_ne_true, Multiset.count_eq_zero.2]
    · rfl
    · intro hc
      rw [h.entries.held e hc] at he
      exact nomatch he

/-- A call that leaves nothing behind returns. -/
theorem FsOk.callSafe (h : FsOk False False (fun _ => False) s files) (hsafe : c.Safe s) :
    Ensures (vfsCall files c) s fun r s' =>
      Called False False (fun _ => False) 0 files c s s' r.1 r.2 := by
  have hlong : ¬∃ p ∈ c.paths, ∃ x ∈ components p, maxPathLen ≤ x.length := by
    intro ⟨p, hp, x, hx, hlen⟩
    have := hsafe.short p hp x hx
    omega
  rw [← add_zero (files : Multiset Eid)] at h
  have hcall := h.call (F := fun _ => False) False.elim (fun _ => False.elim) hlong False.elim False.elim
  exact (hcall.mono fun _ _ hr => hr.1).ensures fun _ hc => hc

theorem Called.ok {r : ℤ × Option Nid} {files' : List Eid}
    (h : Called C E (fun _ => False) 0 files c s s' r files')
    (hsafe : ∀ p, c = .createFile p → CreateSafe s p) : FsOk C E (fun _ => False) s' files' := by
  cases h with
  | same h₁ => rwa [add_zero] at h₁
  | opened h₁ => rwa [add_zero] at h₁
  | released _ _ h₁ => rwa [add_zero] at h₁
  | leaked _ _ hwhy =>
    obtain ⟨p, hc, hnot⟩ := hwhy.resolve_left not_false
    exact absurd (hsafe p hc) hnot

theorem Called.balanced {r : (ℤ × Option Nid) × List Eid}
    (h : Called False False (fun _ => False) 0 files c s s' r.1 r.2)
    (hs : FsOk False False (fun _ => False) s files) (hsafe : c.Safe s) (hpath : c.paths ≠ []) :
    Balanced files c s r s' := by
  obtain ⟨r, files'⟩ := r
  dsimp only at h
  cases h with
  | same h₁ hk hopen =>
    rw [add_zero] at h₁ hk
    exact Or.inl ⟨rfl, hs.same h₁ hk, hopen⟩
  | @opened e m h₁ hk hm =>
    rw [add_zero] at h₁ hk
    refine Or.inr ⟨e, m, rfl, hm, fun y => ?_, h₁.put.mono fun _ s₂ ⟨h₂, hk₂, _⟩ => ?_⟩
    · rw [h₁.outside_eq, hs.outside_eq, Multiset.count_cons]
      split_ifs <;> push_cast <;> omega
    · exact hs.same h₂ (hk.trans hk₂.up)
  | released hc _ h₁ =>
    rw [hc] at hpath
    exact absurd rfl hpath
  | leaked _ _ hwhy =>
    obtain ⟨p, hc, hnot⟩ := hwhy.resolve_left not_false
    exact absurd (hsafe.create p hc) hnot

theorem VfsRun.fsOk (hrun : VfsRun (setupVfs entrySupply nodeSupply nameSupply mountSupply) events s files)
    (hsafe : ∀ ev ∈ events, ev.call.Safe ev.before) : FsOk False False (fun _ => False) s files := by
  induction hrun with
  | start => exact fsOk_setupVfs not_false
  | call hrun hcall ih =>
    have hlast := hsafe _ (List.mem_append_right _ (List.mem_singleton_self _))
    have h := ih fun ev hev => hsafe ev (List.mem_append_left _ hev)
    exact ((h.callSafe hlast).of_run hcall).ok hlast.create

/-- All calls together. -/
theorem VfsRun.fsOk_any (hE : E → ∀ ev ∈ events, ¬ev.call.Mounts ev.before)
    (hrun : VfsRun (setupVfs entrySupply nodeSupply nameSupply mountSupply) events s files) :
    ∃ L : Multiset Eid, FsOk False E (fun _ => True) s (files + L) := by
  induction hrun with
  | start => exact ⟨0, fsOk_setupVfs not_false⟩
  | @call events s s' files files' c r hrun hcall ih =>
    obtain ⟨L, h⟩ := ih fun hc ev hev => hE hc ev (List.mem_append_left _ hev)
    have hm : E → ¬c.Mounts s := fun hc =>
      hE hc _ (List.mem_append_right _ (List.mem_singleton_self _))
    have hcalled := h.call (F := fun _ => True) False.elim (fun _ _ => trivial) (fun _ => trivial)
      False.elim hm
    cases (hcalled.of_run hcall).1 with
    | same h₁ => exact ⟨L, h₁⟩
    | opened h₁ =>
      refine ⟨L, ?_⟩
      rw [← Multiset.cons_coe, Multiset.cons_add]
      exact h₁
    | released _ _ h₁ => exact ⟨L, h₁⟩
    | @leaked rc e _ h₁ =>
      refine ⟨e ::ₘ L, ?_⟩
      rw [Multiset.add_cons]
      exact { h₁ with entries := { h₁.entries with positive := fun _ _ _ => trivial } }

/-- A node that was given out has a reference too many. -/
theorem FsOk.not_nodesBalanced {n : Nid} (h : FsOk C E D s H) (hn : s.nodeLive n = true) :
    ¬NodesBalanced s := by
  intro hb
  have hcount := h.nodes.counted n hn
  rw [(hb n hn).1] at hcount
  have hz : Multiset.count n (0 : Multiset Nid) = 0 := Multiset.count_zero n
  rw [hz] at hcount
  omega

/-- **The references on the nodes of `ramfs`** are in balance over a whole run if and only if no mount of it
made a node: every node that is made has a reference too many from then on. -/
theorem vfsRun_nodes_balanced_iff
    (hrun : VfsRun (setupVfs entrySupply nodeSupply nameSupply mountSupply) events s files) :
    ((∀ ev ∈ events, NodesBalanced ev.before) ∧ NodesBalanced s) ↔
      ∀ ev ∈ events, ¬ev.call.Mounts ev.before := by
  constructor
  · intro hb
    induction hrun with
    | start => exact fun ev hev => nomatch hev
    | @call events s s' files files' c r hrun hcall ih =>
      intro ev hev
      rcases List.mem_append.1 hev with hev | hev
      · refine ih ⟨fun ev' hev' => hb.1 ev' (List.mem_append_left _ hev'), ?_⟩ ev hev
        exact hb.1 _ (List.mem_append_right _ (List.mem_singleton_self _))
      · rw [List.mem_singleton.1 hev]
        intro hm
        obtain ⟨L, h⟩ := hrun.fsOk_any (E := False) False.elim
        cases c with
        | mount x =>
          have hstep : Ensures (vfsCall files (.mount x)) s fun _ s' =>
              FsOk False False (fun _ => True) s' (files + L) ∧ ∃ n, s'.nodeLive n = true := by
            unfold vfsCall
            rw [ensures_bind]
            refine (h.mount False.elim).mono fun _ s₁ h₁ => ensures_pure.2 ⟨h₁.1, h₁.2.2.2 hm⟩
          obtain ⟨h', n, hn⟩ := hstep.of_run hcall
          exact h'.not_nodesBalanced hn hb.2
        | _ => exact hm
  · intro hm
    have hnone : ∀ {events s files},
        VfsRun (setupVfs entrySupply nodeSupply nameSupply mountSupply) events s files →
        (∀ ev ∈ events, ¬ev.call.Mounts ev.before) → NodesBalanced s := by
      intro events s files hrun hm n hn
      obtain ⟨L, h⟩ := hrun.fsOk_any (E := True) fun _ => hm
      rw [h.bare trivial n] at hn
      exact nomatch hn
    refine ⟨?_, hnone hrun hm⟩
    induction hrun with
    | start => exact fun ev hev => nomatch hev
    | call hrun _ ih =>
      intro ev hev
      have hm' := fun ev' hev' => hm ev' (List.mem_append_left _ hev')
      rcases List.mem_append.1 hev with hev | hev
      · exact ih hm' ev hev
      · rw [List.mem_singleton.1 hev]
        exact hnone hrun hm'

end

/-! ### Examples -/

/-- The file systems after `setup_vfs`, with memory for everything. -/
def roomy : Fs := setupVfs (fun i => some (i + 1)) (fun i => some (i + 1)) (fun _ => true) fun _ => true

/-- A file is made, released and unlinked. Nothing knows its node any more, but a reference is left on it,
and it is not released. -/
theorem vfsRun_nodes_unbalanced : ∃ events s files, VfsRun roomy events s files ∧
    events.map Event.call = [.mount ['m'], .createFile ['/', 'm', '/', 'f'], .release 0,
      .unlink ['/', 'm', '/', 'f']] ∧
    s.nodeLive 2 = true ∧ s.nodeRefs 2 = 1 ∧
    refs (nodesOf s s.live) 2 = 0 ∧ refs (namesOf s) 2 = 0 ∧ mountsOf s 2 = 0 ∧ ¬NodesBalanced s := by
  have hrun : returns (vfsCall [] (.mount ['m'])) roomy (fun r₁ s₁ =>
      r₁ = ((0, none), []) &&
      returns (vfsCall [] (.createFile ['/', 'm', '/', 'f'])) s₁ (fun r₂ s₂ =>
        r₂ = ((0, some 2), [2]) &&
        returns (vfsCall [2] (.release 0)) s₂ (fun r₃ s₃ =>
          r₃ = ((0, none), []) &&
          returns (vfsCall [] (.unlink ['/', 'm', '/', 'f'])) s₃ (fun r₄ s₄ =>
            r₄ = ((0, none), []) && s₄.nodeLive 2 && decide (s₄.nodeRefs 2 = 1))))) = true := by
    decide +kernel
  obtain ⟨r₁, s₁, hcall₁, hr₁⟩ := returns_iff.1 hrun
  simp only [Bool.and_eq_true, decide_eq_true_eq] at hr₁
  obtain ⟨rfl, hr₁⟩ := hr₁
  obtain ⟨r₂, s₂, hcall₂, hr₂⟩ := returns_iff.1 hr₁
  simp only [Bool.and_eq_true, decide_eq_true_eq] at hr₂
  obtain ⟨rfl, hr₂⟩ := hr₂
  obtain ⟨r₃, s₃, hcall₃, hr₃⟩ := returns_iff.1 hr₂
  simp only [Bool.and_eq_true, decide_eq_true_eq] at hr₃
  obtain ⟨rfl, hr₃⟩ := hr₃
  obtain ⟨r₄, s₄, hcall₄, hr₄⟩ := returns_iff.1 hr₃
  simp only [Bool.and_eq_true, decide_eq_true_eq] at hr₄
  obtain ⟨⟨rfl, hlive⟩, hrefs⟩ := hr₄
  have hrun₄ := (((VfsRun.start.call hcall₁).call hcall₂).call hcall₃).call hcall₄
  obtain ⟨L, h⟩ := hrun₄.fsOk_any (E := False) False.elim
  have hcount := h.nodes.counted 2 hlive
  rw [hrefs] at hcount
  refine ⟨_, s₄, [], hrun₄, rfl, hlive, hrefs, ?_, ?_, ?_, h.not_nodesBalanced hlive⟩
  all_goals omega

/-- Without a mount the references are in balance. -/
theorem vfsRun_nodes_balanced_noMount : ∃ events s files, VfsRun roomy events s files ∧
    events.map Event.call = [.openFile ['/', 'f']] ∧
    ((∀ ev ∈ events, NodesBalanced ev.before) ∧ NodesBalanced s) := by
  have hrun : returns (vfsCall [] (.openFile ['/', 'f'])) roomy (fun r _ =>
      r = ((-ENOENT, none), [])) = true := by decide
  obtain ⟨r, s, hcall, hr⟩ := returns_iff.1 hrun
  rw [decide_eq_true_eq] at hr
  subst hr
  have hrun₁ := VfsRun.start.call hcall
  refine ⟨_, s, [], hrun₁, rfl, (vfsRun_nodes_balanced_iff hrun₁).2 fun ev hev hm => ?_⟩
  rw [List.mem_singleton.1 hev] at hm
  exact hm

end Vfs

end Kernel64
