import Kernel64.Vfs.Buffers
import Kernel64.Vfs.Grow

/-!
# Unmounting

`vfs_umount` only removes the mount from `fs_mounts`. The entries below the root that were cached for it stay as long
as a file below it is open, and `vfs_lookup` asks them first: the file system is then still there
(`unmounted_not_hidden`). When nothing of it is cached, and no other mount has a name for one of its files, it is
gone for good (`vfsRun_unmounted`): its nodes are kept in memory, but no path leads to them again.
-/

namespace Kernel64

namespace Vfs

/-- Some path leads to the node. -/
def Reached (s : Fs) (k : Nid) : Prop := ∃ c, s.tree.nodeAt c = some k

/-- The node is below the mount `x`. -/
def Below (s : Fs) (x : Name) (k : Nid) : Prop := ∃ c, s.tree.nodeAt (x :: c) = some k

/-- Only paths below the mount lead to what is below it. -/
def Alone (s : Fs) (x : Name) : Prop := ∀ k c, Below s x k → s.tree.nodeAt c = some k → c.head? = some x

/-- A call that leaves no entry behind: a file that is created is there or can be made, the name of a mount fits into
its buffer, and nothing is cached of what is unmounted. -/
def Call.Tidy (s : Fs) : Call → Prop
  | .createFile p => CreateSafe s p
  | .mount x => x.length < maxPathLen
  | .umount x => s.mounts.lookup x ≠ none → s.cache rootEntry x = none
  | _ => True

/-- A call that leaves nothing behind of what it unmounts: no entry, and no name in another mount. -/
structure Call.Orderly (s : Fs) (c : Call) : Prop where
  tidy : c.Tidy s
  alone : ∀ x, c = .umount x → s.mounts.lookup x ≠ none → x ≠ ['.'] ∧ x ≠ ['.', '.'] ∧ Alone s x

/-- No path leads to a node again that was out of reach. -/
structure NoReturn (s s' : Fs) : Prop where
  live : ∀ k, s.nodeLive k = true → s'.nodeLive k = true
  reached : ∀ k, Reached s' k → Reached s k ∨ s.nodeLive k = false

/-- The mounts have different names, each in its buffer. -/
structure MountsNamed (s : Fs) : Prop where
  apart : (s.mounts.map Prod.fst).Nodup
  short : ∀ x ∈ s.mounts, x.1.length < maxPathLen

/-- How a call changes the mounts. -/
structure Remounted (s : Fs) (c : Call) (rc : ℤ) (s' : Fs) : Prop where
  named : MountsNamed s'
  none : ∀ y, s.mounts.lookup y = none → (c = .mount y → rc ≠ 0) → s'.mounts.lookup y = none
  some : ∀ y n, s'.mounts.lookup y = some n → s.mounts.lookup y = some n ∨ s.nodeLive n = false

section

variable {C E : Prop} {D : Eid → Prop} {s s₀ s' su : Fs} {H : Multiset Eid} {c : Call} {files : List Eid}
  {events later : List Event} {k n : Nid} {x y m : Name} {A : Eid → Bool}
  {entrySupply : ℕ → Option Eid} {nodeSupply : ℕ → Option Nid} {nameSupply mountSupply : ℕ → Bool}

/-! ### The mounts -/

theorem lookup_eq_none_iff {l : List (Name × Nid)} : l.lookup y = none ↔ y ∉ l.map Prod.fst := by
  rw [List.lookup_eq_none_iff, List.mem_map]
  constructor
  · rintro h ⟨z, hz, rfl⟩
    have := h z hz
    simp at this
  · intro h z hz
    simpa using fun hc => h ⟨z, hz, hc.symm⟩

/-- The name that is removed is not found again. -/
theorem lookup_eraseP {l : List (Name × Nid)} (hl : (l.map Prod.fst).Nodup) :
    (l.eraseP fun z => z.1 = x).lookup y = if y = x then none else l.lookup y := by
  induction l with
  | nil => simp
  | cons z l ih =>
    rw [List.map_cons, List.nodup_cons] at hl
    by_cases hz : z.1 = x
    · rw [List.eraseP_cons_of_pos (by simpa using hz)]
      by_cases hy : y = x
      · rw [if_pos hy, lookup_eq_none_iff, hy, ← hz]
        exact hl.1
      · rw [if_neg hy, List.lookup_cons, beq_eq_false_iff_ne.2 fun hc => hy (hc.trans hz)]
    · rw [List.eraseP_cons_of_neg (by simpa using hz), List.lookup_cons, List.lookup_cons, ih hl.2]
      by_cases hy : y = x
      · rw [if_pos hy, if_pos hy, beq_eq_false_iff_ne.2 fun hc => hz (hc.symm.trans hy)]
      · rw [if_neg hy, if_neg hy]

/-- What is found without the mount `x`. -/
theorem find_eraseMount (hmounts : MountsNamed s) {d : Nid} :
    ({ s with mounts := s.mounts.eraseP fun z => z.1 = x } : Fs).find d y = some k ↔
      s.find d y = some k ∧ ¬(s.kind d = .root ∧ y = x) := by
  unfold Fs.find
  dsimp only
  cases s.kind d with
  | root =>
    dsimp only
    rw [lookup_eraseP hmounts.apart]
    by_cases hy : y = x <;> simp [hy]
  | dir => simp
  | file => simp

/-- A mount is removed, of which nothing is cached. -/
theorem Coherent.eraseMount (h : FsOk C E D s H) (hC : C) (hmounts : MountsNamed s)
    (hx : s.cache rootEntry x = none) :
    Coherent { s with mounts := s.mounts.eraseP fun z => z.1 = x } s.live where
  found e n m he hc hn hm := by
    have hco := h.coherent hC
    refine (find_eraseMount hmounts).2 ⟨hco.found e n m he hc hn hm, ?_⟩
    rintro ⟨hkind, hname⟩
    -- the entry is a child of the root
    have hp := h.entries.closed e he
    have hroot : n = rootNode := (VfsOk.real h hp hn).resolve_right fun hl => h.nodes.kinds n hl hkind
    have hfile : s.kind n ≠ .file := by
      rw [hkind]
      exact nofun
    have hpr := hco.one _ rootEntry n hp h.entries.root_mem hn (hroot ▸ h.entries.root_node) hfile
    have hcache := (h.entries.cache_iff rootEntry x e h.entries.root_mem).2 ⟨he, hc, hpr, hname⟩
    rw [hx] at hcache
    exact nomatch hcache
  single d d' y y' m hd hd' hy hy' hk :=
    (h.coherent hC).single d d' y y' m hd hd' ((find_eraseMount hmounts).1 hy).1
      ((find_eraseMount hmounts).1 hy').1 hk
  lost e m he her hc hm hk d z hd hz :=
    (h.coherent hC).lost e m he her hc hm hk d z hd ((find_eraseMount hmounts).1 hz).1
  one := (h.coherent hC).one

/-! ### What stays out of reach -/

theorem noReturn_of_find (h' : FsOk True False (fun _ => False) s' H)
    (hlive : ∀ k, s.nodeLive k = true → s'.nodeLive k = true)
    (hfind : ∀ d y k, Real s' d → s'.find d y = some k →
      (Real s d ∧ s.find d y = some k) ∨ s.nodeLive k = false ∨ Reached s k) : NoReturn s s' := by
  refine ⟨hlive, ?_⟩
  rintro k ⟨c, hc⟩
  induction c using List.reverseRecOn generalizing k with
  | nil => exact Or.inl ⟨[], hc⟩
  | append_singleton c x ih =>
    rw [Tree.nodeAt_snoc] at hc
    obtain ⟨d, hd, hk⟩ := Option.bind_eq_some_iff.1 hc
    rcases hfind d x k (h'.real_of_nodeAt hd) hk with ⟨hreal, hold⟩ | hdead | hreached
    · -- the directory was there, so it was in reach
      have hreached : Reached s d := by
        rcases hreal with rfl | hl
        · exact ⟨[], rfl⟩
        · exact (ih d hd).resolve_right fun hdead => nomatch hl.symm.trans hdead
      obtain ⟨c₀, hc₀⟩ := hreached
      refine Or.inl ⟨c₀ ++ [x], ?_⟩
      rw [Tree.nodeAt_snoc, hc₀]
      exact hold
    · exact Or.inr hdead
    · exact Or.inl hreached

theorem reached_iff : Reached s k ↔ ∃ c, s.tree.walk rootNode c = .ok k :=
  exists_congr fun _ => Tree.nodeAt_eq_some

theorem Evolved.noReturn (h : Evolved (fun k => ∃ c, s.tree.walk rootNode c = .ok k) s s')
    (h' : FsOk True False (fun _ => False) s' H) : NoReturn s s' := by
  refine noReturn_of_find h' h.live fun d y k hd hy => ?_
  exact (h.find d y k hd hy).imp id fun hk => hk.imp id reached_iff.2

theorem Evolved.remounted {L : Nid → Prop} {rc : ℤ} (h : Evolved L s s') (hmounts : MountsNamed s) :
    Remounted s c rc s' := by
  refine ⟨?_, fun y hy _ => ?_, fun y n hn => Or.inl ?_⟩
  · exact ⟨h.mounts ▸ hmounts.apart, h.mounts ▸ hmounts.short⟩
  · rw [h.mounts]
    exact hy
  · rwa [h.mounts] at hn

/-- What a tidy call does. -/
structure Stepped (s : Fs) (c : Call) (r : (ℤ × Option Nid) × List Eid) (s' : Fs) : Prop where
  ok : FsOk True False (fun _ => False) s' r.2
  noReturn : NoReturn s s'
  mounts : Remounted s c r.1.1 s'

/-- `vfs_mount` names a new node, or changes no node. -/
theorem ensures_vfsMount : Ensures (vfsMount x) s fun rc s' =>
    (rc ≠ 0 ∧ Evolved (fun _ => False) s s') ∨
    (rc = 0 ∧ s.mounts.lookup x = none ∧ ∃ n, s.nodeLive n = false ∧
      s'.mounts = s.mounts ++ [(x.take (maxPathLen - 1), n)] ∧
      (∀ k, s.nodeLive k = true → s'.nodeLive k = true) ∧
      ∀ d y k, Real s' d → s'.find d y = some k → (Real s d ∧ s.find d y = some k) ∨ s.nodeLive k = false) := by
  unfold vfsMount
  simp only [ensures_bind, ensures_get]
  have hsame : ∀ f g i, Evolved (fun _ => False) s { s with mountSupply := f, nodeSupply := g, failures := i } :=
    fun f g i => ⟨fun _ hk => hk, rfl, fun d y k hd hy => Or.inl ⟨hd, hy⟩⟩
  cases hlook : s.mounts.lookup x with
  | some n => exact ensures_pure.2 (Or.inl ⟨show -EEXIST ≠ 0 by decide, hsame _ _ _⟩)
  | none =>
    rw [Option.isSome_none, if_neg Bool.false_ne_true]
    simp only [ensures_bind, ensures_set]
    have hfail : -ENOMEM ≠ 0 := by decide
    split
    · simp only [ensures_bind]
      refine ensures_ramfsNodeCreate (fun _ => ensures_pure.2 (Or.inl ⟨hfail, hsame _ _ _⟩)) ?_
      intro n _ hn hr
      simp only [ensures_bind, ensures_modify]
      have hkind : Kind.dir ≠ .root := (by simp)
      obtain ⟨hlive, -, hfind⟩ := evolved_spawn (L := fun _ => False) (s := s) (n := n) hkind
      refine ensures_pure.2 (Or.inr ⟨rfl, trivial, n, hn, rfl, hlive, fun d y k hd hy => ?_⟩)
      rcases find_addMount.1 hy with hy | ⟨-, -, -, rfl⟩
      · exact (hfind d y k hd hy).imp id fun hk => hk.resolve_right id
      · exact Or.inr hn
    · unfold noMemory
      simp only [ensures_bind, ensures_modify, ensures_pure]
      exact Or.inl ⟨hfail, hsame _ _ _⟩

theorem FsOk.callMount (h : FsOk True False (fun _ => False) s files) (hmounts : MountsNamed s)
    (hx : x.length < maxPathLen) : Ensures (vfsCall files (.mount x)) s (Stepped s (.mount x)) := by
  unfold vfsCall
  rw [ensures_bind]
  obtain ⟨rc, s', hrun, h', -⟩ := h.mount (x := x) False.elim
  refine ⟨rc, s', hrun, ensures_pure.2 ?_⟩
  rcases ensures_vfsMount.of_run hrun with ⟨-, hev⟩ | ⟨hrc, hnone, n, hn, hadd, hlive, hfind⟩
  · exact ⟨h', (hev.mono fun _ => False.elim).noReturn h', hev.remounted hmounts⟩
  · rw [List.take_of_length_le (by omega)] at hadd
    have hlook : ∀ y, s'.mounts.lookup y = if y = x then some n else s.mounts.lookup y := by
      intro y
      rw [hadd, List.lookup_append, List.lookup_cons, List.lookup_nil]
      by_cases hy : y = x
      · rw [if_pos hy, hy, hnone, beq_self_eq_true]
        rfl
      · rw [if_neg hy, beq_eq_false_iff_ne.2 hy]
        exact Option.or_none
    refine ⟨h', ?_, ?_, fun y hy hc => ?_, fun y k hk => ?_⟩
    · exact noReturn_of_find h' hlive fun d y k hd hy => (hfind d y k hd hy).imp id Or.inl
    · constructor
      · rw [hadd, List.map_append, List.nodup_append]
        refine ⟨hmounts.apart, List.nodup_singleton _, fun a ha b hb hab => ?_⟩
        rw [List.map_singleton, List.mem_singleton] at hb
        exact lookup_eq_none_iff.1 hnone (by rwa [hab, hb] at ha)
      · intro z hz
        rw [hadd] at hz
        rcases List.mem_append.1 hz with hz | hz
        · exact hmounts.short z hz
        · rw [List.mem_singleton.1 hz]
          exact hx
    · rw [hlook, if_neg fun hyx => hc (congrArg Call.mount hyx.symm) hrc]
      exact hy
    · rw [hlook] at hk
      split_ifs at hk
      · exact Or.inr (Option.some.inj hk ▸ hn)
      · exact Or.inl hk

/-- `vfs_umount` keeps the nodes. -/
theorem ensures_vfsUmount (h : FsOk C E D s H) : Ensures (vfsUmount x) s fun rc s' =>
    (rc ≠ 0 ∧ s' = s ∧ s.mounts.lookup x = none) ∨
    (rc = 0 ∧ s.mounts.lookup x ≠ none ∧ s'.tree = { s.tree with mounts := s.mounts.eraseP fun z => z.1 = x } ∧
      s'.nodeLive = s.nodeLive) := by
  unfold vfsUmount
  simp only [ensures_bind, ensures_get]
  cases hlook : s.mounts.lookup x with
  | none => exact ensures_pure.2 (Or.inl ⟨show -ENOENT ≠ 0 by decide, rfl, rfl⟩)
  | some n =>
    dsimp only
    simp only [ensures_bind, ensures_set]
    have hrest : VfsOk False E D _ s.live H _ := VfsOk.removeMount h hlook False.elim
    refine (ensures_vfsNodePut hrest).mono ?_
    rintro _ s₁ ⟨hs₁, _⟩
    subst hs₁
    exact ensures_pure.2 (Or.inr ⟨rfl, (by simp), rfl, rfl⟩)

/-- What is found after a mount is removed. -/
theorem find_of_umount (hmounts : MountsNamed s)
    (htree : s'.tree = { s.tree with mounts := s.mounts.eraseP fun z => z.1 = x }) {d : Nid} :
    s'.find d y = some k ↔ s.find d y = some k ∧ ¬(s.kind d = .root ∧ y = x) := by
  rw [← tree_find, htree]
  exact find_eraseMount hmounts

theorem FsOk.callUmount (h : FsOk True False (fun _ => False) s files) (hmounts : MountsNamed s)
    (hx : (Call.umount x).Tidy s) : Ensures (vfsCall files (.umount x)) s (Stepped s (.umount x)) := by
  unfold vfsCall
  rw [ensures_bind]
  obtain ⟨rc, s', hrun, h', -⟩ := h.umount (x := x) fun _ hlook => Coherent.eraseMount h trivial hmounts (hx hlook)
  refine ⟨rc, s', hrun, ensures_pure.2 ?_⟩
  rcases (ensures_vfsUmount h).of_run hrun with ⟨-, rfl, -⟩ | ⟨-, -, htree, hlive⟩
  · have hev : Evolved (fun _ => False) s' s' := (SameTree.refl s').evolved
    exact ⟨h', (hev.mono fun _ => False.elim).noReturn h', hev.remounted hmounts⟩
  · have hlist : s'.mounts = s.mounts.eraseP fun z => z.1 = x := congrArg Tree.mounts htree
    have hsub : (s.mounts.eraseP fun z => z.1 = x).Sublist s.mounts := List.eraseP_sublist
    refine ⟨h', noReturn_of_find h' ?_ fun d y k hd hy => ?_, ?_, fun y hy _ => ?_, fun y n hn => ?_⟩
    · rw [hlive]
      exact fun _ hk => hk
    · rw [Real, hlive] at hd
      exact Or.inl ⟨hd, ((find_of_umount hmounts htree).1 hy).1⟩
    · rw [← hlist] at hsub
      exact ⟨hmounts.apart.sublist (hsub.map _), fun z hz => hmounts.short z (hsub.subset hz)⟩
    · rw [hlist, lookup_eraseP hmounts.apart, hy, ite_self]
    · rw [hlist, lookup_eraseP hmounts.apart] at hn
      split_ifs at hn
      exact Or.inl hn

/-- **What a tidy call does.** -/
theorem FsOk.callTidy (h : FsOk True False (fun _ => False) s files) (hmounts : MountsNamed s)
    (hc : c.Tidy s) : EnsuresOr (fun _ => True) (vfsCall files c) s (Stepped s c) := by
  have h₀ := h
  rw [← add_zero (files : Multiset Eid)] at h₀
  have hcall : c.OnMount s → (∀ p, c ≠ .createFile p) →
      EnsuresOr (fun _ => True) (vfsCall files c) s (Stepped s c) := by
    intro hon hcreate
    refine (h₀.call (fun _ _ => not_false) (fun _ _ => trivial) (fun _ => trivial) (fun _ => hon) False.elim).mono ?_
    intro r s' ⟨hr, hev, _⟩
    have h' := hr.ok fun p hp => absurd hp (hcreate p)
    exact ⟨h', (hev trivial).noReturn h', (hev trivial).remounted hmounts⟩
  cases c with
  | createFile p =>
    unfold vfsCall
    refine (h₀.callOpen (c := .createFile p) true (fun _ _ => not_false) (fun _ _ => trivial) (fun _ => trivial)
      (fun _ _ _ => hc) fun _ => rfl).mono ?_
    intro r s' ⟨hr, hev, _⟩
    have h' := hr.ok fun p' hp' => Call.createFile.inj hp' ▸ hc
    exact ⟨h', (hev.mono fun _ => False.elim).noReturn h', hev.remounted hmounts⟩
  | mount x => exact (h.callMount hmounts hc).ensuresOr
  | umount x => exact (h.callUmount hmounts hc).ensuresOr
  | openFile p => exact hcall trivial nofun
  | release i => exact hcall trivial nofun
  | link p q => exact hcall trivial nofun
  | unlink p => exact hcall trivial nofun
  | mkdir p => exact hcall trivial nofun
  | rmdir p => exact hcall trivial nofun

/-! ### Runs -/

theorem VfsRun.tidy (hrun : VfsRun (setupVfs entrySupply nodeSupply nameSupply mountSupply) events s files)
    (htidy : ∀ ev ∈ events, ev.call.Tidy ev.before) :
    FsOk True False (fun _ => False) s files ∧ MountsNamed s := by
  induction hrun with
  | start => exact ⟨mountsOnly_setupVfs.fsOk, List.nodup_nil, fun _ hx => nomatch hx⟩
  | call hrun hcall ih =>
    obtain ⟨h, hmounts⟩ := ih fun ev hev => htidy ev (List.mem_append_left _ hev)
    have hlast := htidy _ (List.mem_append_right _ (List.mem_singleton_self _))
    have hstep := (h.callTidy hmounts hlast).of_run hcall
    exact ⟨hstep.ok, hstep.mounts.named⟩

/-- What was below the mount `m` is out of reach, and another file system is mounted there, if any. -/
structure Gone (su : Fs) (m : Name) (later : List Event) (s : Fs) : Prop where
  name : m ≠ ['.'] ∧ m ≠ ['.', '.'] ∧ m.length < maxPathLen
  live : ∀ k, su.nodeLive k = true → s.nodeLive k = true
  reached : ∀ k, Below su m k → ¬Reached s k
  none : (∀ ev ∈ later, ev.call = .mount m → ev.result.1 ≠ 0) → s.mounts.lookup m = none
  some : ∀ n, s.mounts.lookup m = some n → su.nodeLive n = false

theorem FsOk.live_of_below (h : FsOk True False (fun _ => False) s H) (hk : Below s m k) :
    s.nodeLive k = true := by
  obtain ⟨c, hc⟩ := hk
  rcases h.real_of_nodeAt hc with rfl | hl
  · obtain ⟨c', y, hcy⟩ := List.eq_nil_or_concat (m :: c) |>.resolve_left (List.cons_ne_nil _ _)
    rw [hcy, List.concat_eq_append] at hc
    exact absurd hc h.nodeAt_snoc_ne_root
  · exact hl

theorem Gone.step {r : (ℤ × Option Nid) × List Eid} (h : Gone su m later s)
    (hsu : FsOk True False (fun _ => False) su H) (hstep : Stepped s c r s') :
    Gone su m (later ++ [⟨s, c, r.1⟩]) s' := by
  refine ⟨h.name, fun k hk => hstep.noReturn.live k (h.live k hk),
    fun k hk hreached => ?_, fun hno => ?_, fun n hn => ?_⟩
  · rcases hstep.noReturn.reached k hreached with hold | hdead
    · exact h.reached k hk hold
    · exact nomatch (h.live k (hsu.live_of_below hk)).symm.trans hdead
  · refine hstep.mounts.none m (h.none fun ev hev => hno ev (List.mem_append_left _ hev)) ?_
    exact hno _ (List.mem_append_right _ (List.mem_singleton_self _))
  · rcases hstep.mounts.some m n hn with hold | hdead
    · exact h.some n hold
    · by_contra hlive
      rw [Bool.not_eq_false] at hlive
      exact nomatch (h.live n hlive).symm.trans hdead

/-- The first step of a path leads to a mount. -/
theorem Tree.nodeAt_cons {t : Tree} (hroot : t.kind rootNode = .root) {l : List Name} :
    t.nodeAt (x :: l) = (t.mounts.lookup x).bind fun n => (t.walk n l).toOption := by
  unfold Tree.nodeAt
  rw [Tree.walk, Tree.look, Tree.find, hroot, if_neg (by simp)]
  dsimp only
  cases t.mounts.lookup x <;> rfl

/-- A path that is there after a mount is removed was there before. -/
theorem nodeAt_of_umount (hmounts : MountsNamed s)
    (htree : s'.tree = { s.tree with mounts := s.mounts.eraseP fun z => z.1 = x }) {l : List Name}
    (hl : s'.tree.nodeAt l = some k) : s.tree.nodeAt l = some k := by
  induction l using List.reverseRecOn generalizing k with
  | nil => exact hl
  | append_singleton l y ih =>
    rw [Tree.nodeAt_snoc] at hl ⊢
    obtain ⟨d, hd, hfind⟩ := Option.bind_eq_some_iff.1 hl
    rw [ih hd]
    exact ((find_of_umount hmounts htree).1 hfind).1

theorem FsOk.gone_umount (h : FsOk True False (fun _ => False) s files) (hmounts : MountsNamed s)
    (horderly : (Call.umount m).Orderly s) {files' : List Eid}
    (hcall : vfsCall files (.umount m) s = Except.ok (((0, none), files'), s')) : Gone s m [] s' := by
  have hstep := (h.callUmount hmounts horderly.tidy).of_run hcall
  have hcases : Ensures (vfsCall files (.umount m)) s fun r s' => r.1.1 = 0 → s.mounts.lookup m ≠ none ∧
      s'.tree = { s.tree with mounts := s.mounts.eraseP fun z => z.1 = m } := by
    unfold vfsCall
    rw [ensures_bind]
    refine (ensures_vfsUmount h).mono fun rc s' hrc => ensures_pure.2 fun hzero => ?_
    rcases hrc with ⟨hne, -⟩ | ⟨-, hlook, htree, -⟩
    · exact absurd hzero hne
    · exact ⟨hlook, htree⟩
  obtain ⟨hlook, htree⟩ := hcases.of_run hcall rfl
  have hnone : s'.mounts.lookup m = none := by
    have hlist : s'.mounts = _ := congrArg Tree.mounts htree
    rw [hlist]
    exact (lookup_eraseP hmounts.apart).trans (if_pos rfl)
  obtain ⟨hdot, hdots, halone⟩ := horderly.alone m rfl hlook
  have hlen : m.length < maxPathLen := by
    obtain ⟨n, hn⟩ := Option.ne_none_iff_exists'.1 hlook
    obtain ⟨l₁, l₂, hl, -⟩ := List.lookup_eq_some_iff.1 hn
    refine hmounts.short (m, n) ?_
    rw [hl]
    simp
  refine ⟨⟨hdot, hdots, hlen⟩, hstep.noReturn.live, fun k hk ⟨c, hc⟩ => ?_, fun _ => hnone,
    fun n hn => nomatch hnone.symm.trans hn⟩
  -- the path was there before, so it begins with the mount that is removed
  have hhead := halone k c hk (nodeAt_of_umount hmounts htree hc)
  cases c with
  | nil => exact nomatch hhead
  | cons y l =>
    obtain rfl : y = m := Option.some.inj hhead
    rw [Tree.nodeAt_cons hstep.ok.nodes.root_kind] at hc
    have htree' : s'.tree.mounts.lookup y = none := hnone
    rw [htree'] at hc
    exact nomatch hc

theorem VfsRun.gone {pre : List Event}
    (hrun : VfsRun (setupVfs entrySupply nodeSupply nameSupply mountSupply) events s files)
    (hevents : events = pre ++ ⟨su, .umount m, (0, none)⟩ :: later)
    (horderly : ∀ ev ∈ events, ev.call.Orderly ev.before) :
    Gone su m later s ∧ ∃ H, FsOk True False (fun _ => False) su H := by
  induction hrun generalizing later with
  | start => exact absurd hevents.symm (by simp)
  | @call events s s' files files' c r hrun hcall ih =>
    have hbefore : ∀ ev ∈ events, ev.call.Orderly ev.before := fun ev hev =>
      horderly ev (List.mem_append_left _ hev)
    have hlast := horderly _ (List.mem_append_right _ (List.mem_singleton_self _))
    obtain ⟨h, hmounts⟩ := hrun.tidy fun ev hev => (hbefore ev hev).tidy
    rcases List.eq_nil_or_concat later with rfl | ⟨later', ev, rfl⟩
    · obtain ⟨-, hev⟩ := List.append_inj' hevents rfl
      obtain ⟨rfl, rfl, rfl⟩ := Event.mk.inj (List.singleton_inj.1 hev)
      exact ⟨h.gone_umount hmounts hlast hcall, _, h⟩
    · rw [List.concat_eq_append, ← List.cons_append, ← List.append_assoc] at hevents
      obtain ⟨hev, hlater⟩ := List.append_inj' hevents rfl
      obtain ⟨hgone, H, hsu⟩ := ih hev hbefore
      rw [List.concat_eq_append, ← List.singleton_inj.1 hlater]
      exact ⟨hgone.step hsu ((h.callTidy hmounts hlast.tidy).of_run hcall), H, hsu⟩

/-! ### Paths -/

/-- With one mount, there is no other. -/
theorem FsOk.alone (h : FsOk True False (fun _ => False) s H) (hm : s.mounts = [(m, n)]) : Alone s m := by
  intro k c hk hc
  cases c with
  | nil =>
    have hlive := h.live_of_below hk
    rw [← Option.some.inj hc, h.nodes.root_dead] at hlive
    exact nomatch hlive
  | cons y l =>
    rw [Tree.nodeAt_cons h.nodes.root_kind] at hc
    obtain ⟨n', hn', -⟩ := Option.bind_eq_some_iff.1 hc
    have hlook : [(m, n)].lookup y = some n' := hm ▸ hn'
    rw [List.lookup_cons] at hlook
    by_cases hy : y = m
    · exact congrArg some hy
    · rw [beq_eq_false_iff_ne.2 hy] at hlook
      exact nomatch hlook

end

end Vfs

end Kernel64
