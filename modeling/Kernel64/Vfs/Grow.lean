import Kernel64.Vfs.Reach

/-!
# New files and directories

`Tree.nodeAt` is the node that a path leads to. A call that makes a file or a directory gives the node at
one path, and keeps the nodes at all others (`Grows`), since a directory has one path only.
-/

namespace Kernel64

namespace Vfs

/-- The node that the components lead to from the root. -/
def Tree.nodeAt (t : Tree) (c : List Name) : Option Nid := (t.walk rootNode c).toOption

/-- A node is made at a path, and the nodes at the other paths stay. -/
structure Grows (s s' : Fs) (c : List Name) (kind : Kind) (n : Nid) : Prop where
  dead : s.nodeLive n = false
  live : s'.nodeLive n = true
  new : s'.kind n = kind
  nodeAt : ∀ c', s'.tree.nodeAt c' = if c' = c then some n else s.tree.nodeAt c'
  kind : ∀ k, Real s k → s'.kind k = s.kind k

section

variable {s s' : Fs} {t : Tree} {H : Multiset Eid} {c c' : List Name} {d n m k : Nid} {x y : Name}
  {kind : Kind}

theorem Tree.nodeAt_eq_some : t.nodeAt c = some n ↔ t.walk rootNode c = .ok n := by
  unfold Tree.nodeAt
  cases t.walk rootNode c with
  | error rc => exact ⟨nofun, nofun⟩
  | ok m => exact ⟨fun h => congrArg Except.ok (Option.some.inj h), fun h => congrArg some (Except.ok.inj h)⟩

theorem Tree.nodeAt_nil : t.nodeAt [] = some rootNode := rfl

theorem Tree.nodeAt_snoc : t.nodeAt (c ++ [x]) = (t.nodeAt c).bind fun k => t.find k x := by
  cases hc : t.nodeAt c with
  | none =>
    unfold Tree.nodeAt at hc ⊢
    rw [Tree.walk_append]
    cases hw : t.walk rootNode c with
    | error rc => rfl
    | ok m =>
      rw [hw] at hc
      exact nomatch hc
  | some k =>
    rw [Option.bind_some]
    refine Option.ext fun m => ?_
    rw [Tree.nodeAt_eq_some, Tree.walk_snoc (Tree.nodeAt_eq_some.1 hc), Tree.look_eq_ok]

theorem FsOk.real_of_nodeAt (h : FsOk True False (fun _ => False) s H) (hc : s.tree.nodeAt c = some d) :
    Real s d := by
  induction c using List.reverseRecOn generalizing d with
  | nil => exact Or.inl (Option.some.inj hc).symm
  | append_singleton c x ih =>
    rw [Tree.nodeAt_snoc] at hc
    obtain ⟨k, -, hfind⟩ := Option.bind_eq_some_iff.1 hc
    exact Or.inr (h.nodes.live_of_find hfind)

/-- A path below the root does not lead to the root. -/
theorem FsOk.nodeAt_snoc_ne_root (h : FsOk True False (fun _ => False) s H) :
    s.tree.nodeAt (c ++ [x]) ≠ some rootNode := by
  rw [Tree.nodeAt_snoc]
  intro hc
  obtain ⟨k, -, hfind⟩ := Option.bind_eq_some_iff.1 hc
  have hlive := h.nodes.live_of_find hfind
  rw [h.nodes.root_dead] at hlive
  exact nomatch hlive

/-- **One path leads to a directory.** -/
theorem FsOk.nodeAt_inj (h : FsOk True False (fun _ => False) s H) (hkind : s.kind d ≠ .file)
    (hc : s.tree.nodeAt c = some d) (hc' : s.tree.nodeAt c' = some d) : c = c' := by
  induction c using List.reverseRecOn generalizing c' d with
  | nil =>
    rcases List.eq_nil_or_concat c' with rfl | ⟨q, y, rfl⟩
    · rfl
    · rw [← Option.some.inj hc, List.concat_eq_append] at hc'
      exact absurd hc' h.nodeAt_snoc_ne_root
  | append_singleton p x ih =>
    rcases List.eq_nil_or_concat c' with rfl | ⟨q, y, rfl⟩
    · rw [← Option.some.inj hc'] at hc
      exact absurd hc h.nodeAt_snoc_ne_root
    · rw [List.concat_eq_append] at hc' ⊢
      rw [Tree.nodeAt_snoc] at hc hc'
      obtain ⟨k, hk, hfind⟩ := Option.bind_eq_some_iff.1 hc
      obtain ⟨k', hk', hfind'⟩ := Option.bind_eq_some_iff.1 hc'
      obtain ⟨rfl, rfl⟩ := (h.coherent trivial).single k k' x y d (h.real_of_nodeAt hk)
        (h.real_of_nodeAt hk') hfind hfind' hkind
      have hdir : s.kind k ≠ .file := fun hf => by
        have hnone : s.tree.find k x = none := find_of_file hf x
        exact nomatch hnone.symm.trans hfind
      rw [ih hdir hk hk']

/-- What is found in the trees after a node is made. -/
theorem Tree.find_make (hdir : t.kind d = .dir) (hd : d ≠ n) (hmake : t.make d x kind = ((0, some n), s'.tree))
    (hkind : kind ≠ .root) :
    s'.kind = Function.update t.kind n kind ∧ (∀ z, s'.tree.find n z = none) ∧
      ∀ k, k ≠ n → ∀ z, s'.tree.find k z = if k = d ∧ z = x then some n else t.find k z := by
  unfold Tree.make at hmake
  split at hmake
  · exact nomatch hmake
  · obtain ⟨hn, htree⟩ := Prod.mk.inj hmake
    obtain rfl := Option.some.inj (Prod.mk.inj hn).2
    have hdir' := (Function.update_of_ne hd kind t.kind).trans hdir
    rw [← htree]
    refine ⟨congrArg Tree.kind htree.symm, fun z => ?_, fun k hk z => ?_⟩
    · rw [Tree.find_link hdir', if_neg fun hc => hd hc.1.symm]
      unfold Tree.find
      dsimp only
      rw [Function.update_self, Function.update_self]
      cases kind with
      | root => exact absurd rfl hkind
      | dir => rfl
      | file => rfl
    · rw [Tree.find_link hdir']
      congr 1
      unfold Tree.find
      dsimp only
      rw [Function.update_of_ne hk, Function.update_of_ne hk]

/-- **A node that is made in a directory** is at the path of the directory, followed by its name. -/
theorem FsOk.grows (h : FsOk True False (fun _ => False) s H) {H' : Multiset Eid}
    (h' : FsOk True False (fun _ => False) s' H') (hkind : kind ≠ .root)
    (hc : s.tree.nodeAt c = some d) (hdir : s.kind d = .dir) (hnew : s.tree.nodeAt (c ++ [x]) = none)
    (hdead : s.nodeLive n = false) (hroot : n ≠ rootNode)
    (hmake : s.tree.make d x kind = ((0, some n), s'.tree)) : Grows s s' (c ++ [x]) kind n := by
  have hne : ∀ k, Real s k → k ≠ n := by
    rintro k hk rfl
    rcases hk with hk | hk
    · exact hroot hk
    · rw [hdead] at hk
      exact nomatch hk
  obtain ⟨hkinds, hleaf, hfind⟩ := Tree.find_make hdir (hne d (h.real_of_nodeAt hc)) hmake hkind
  have hat : ∀ c', s'.tree.nodeAt c' = if c' = c ++ [x] then some n else s.tree.nodeAt c' := by
    intro c'
    induction c' using List.reverseRecOn with
    | nil => rw [if_neg (by simp), Tree.nodeAt_nil, Tree.nodeAt_nil]
    | append_singleton p y ih =>
      have hiff : p ++ [y] = c ++ [x] ↔ p = c ∧ y = x := by
        constructor
        · intro heq
          obtain ⟨hp, hy⟩ := List.append_inj' heq rfl
          exact ⟨hp, List.singleton_inj.1 hy⟩
        · rintro ⟨rfl, rfl⟩
          rfl
      rw [Tree.nodeAt_snoc, Tree.nodeAt_snoc, ih, if_congr hiff rfl rfl]
      by_cases hp : p = c ++ [x]
      · -- there is nothing below the new node
        rw [if_pos hp, hp, hnew, Option.bind_some, hleaf, Option.bind_none, if_neg]
        rintro ⟨hpc, -⟩
        simp at hpc
      · rw [if_neg hp]
        cases hk : s.tree.nodeAt p with
        | none =>
          rw [Option.bind_none, Option.bind_none, if_neg]
          rintro ⟨rfl, -⟩
          exact nomatch hk.symm.trans hc
        | some k =>
          rw [Option.bind_some, Option.bind_some, hfind k (hne k (h.real_of_nodeAt hk))]
          refine if_congr (and_congr_left fun _ => ?_) rfl rfl
          constructor
          · rintro rfl
            exact h.nodeAt_inj (by rw [hdir]; exact nofun) hk hc
          · rintro rfl
            exact Option.some.inj (hk.symm.trans hc)
  refine ⟨hdead, ?_, ?_, hat, ?_⟩
  · have hn : s'.tree.nodeAt (c ++ [x]) = some n := by rw [hat, if_pos rfl]
    exact (h'.real_of_nodeAt hn).resolve_left hroot
  · rw [hkinds, Function.update_self]
  · intro k hk
    rw [hkinds, Function.update_of_ne (hne k hk)]
    rfl

/-! ### Calls that make a node -/

/-- A path below a mount, without `.` and `..`. -/
structure BelowMount (c : List Name) (x : Name) : Prop where
  ne_nil : c ≠ []
  named : ∀ y ∈ c ++ [x], Named y
  undotted : Undotted (c ++ [x])

theorem BelowMount.components (hc : BelowMount c x) : components (pathOf (c ++ [x])) = c ++ [x] :=
  components_pathOf hc.named

theorem BelowMount.deep (hc : BelowMount c x) : Deep (pathOf (c ++ [x])) := by
  have hpos := List.length_pos_of_ne_nil hc.ne_nil
  refine ⟨?_, ?_⟩
  · rw [hc.components]
    exact hc.undotted
  · rw [hc.components, List.length_append, List.length_singleton]
    omega

theorem BelowMount.short (hc : BelowMount c x) :
    ¬∃ y ∈ Vfs.components (pathOf (c ++ [x])), maxPathLen ≤ y.length := by
  rw [hc.components]
  intro ⟨y, hy, hlen⟩
  have := (hc.named y hy).short
  omega

/-- The node that a call made is the next one. -/
theorem Makes.make (hmakes : Makes s kind t) (hmake : s.tree.make d x kind = ((0, some n), t)) :
    s.nodeLive n = false ∧ n ≠ rootNode := by
  obtain ⟨d', x', n', -, -, hdead, hroot, hmake'⟩ := hmakes
  unfold Tree.make at hmake hmake'
  split at hmake
  · exact nomatch hmake
  · next hn =>
    rw [hn] at hmake'
    obtain ⟨h₁, -⟩ := Prod.mk.inj hmake
    obtain ⟨h₂, -⟩ := Prod.mk.inj hmake'
    obtain rfl := Option.some.inj (Prod.mk.inj h₁).2
    obtain rfl := Option.some.inj (Prod.mk.inj h₂).2
    exact ⟨hdead, hroot⟩

/-- What makes a node does so in the directory of the path. -/
theorem FsOk.grows_of_make (h : FsOk True False (fun _ => False) s H) {H' : Multiset Eid}
    (h' : FsOk True False (fun _ => False) s' H') (hkind : kind ≠ .root)
    (hc : s.tree.nodeAt c = some d) (hdir : s.kind d = .dir) (hnew : s.tree.nodeAt (c ++ [x]) = none)
    (hmake : s.tree.make d x kind = ((0, some n), s'.tree))
    (hmakes : s'.tree = s.tree ∨ Makes s kind s'.tree) : Grows s s' (c ++ [x]) kind n := by
  rcases hmakes with hsame | hmakes
  · -- the name would have been there
    have hkind' : s.tree.kind d = .dir := hdir
    rw [Tree.nodeAt_snoc, hc, Option.bind_some, Tree.find_of_dir hkind'] at hnew
    unfold Tree.make at hmake
    split at hmake
    · exact nomatch hmake
    · rw [hsame] at hmake
      have hnames := congrArg (fun r => (r.2.names d).lookup x) hmake
      dsimp only [Tree.link] at hnames
      rw [Function.update_self, List.lookup_cons, beq_self_eq_true, hnew] at hnames
      exact nomatch hnames
  · obtain ⟨hdead, hroot⟩ := hmakes.make hmake
    exact h.grows h' hkind hc hdir hnew hdead hroot hmake

/-- **`vfs_mkdir`** makes the directory, or there is no memory. -/
theorem FsOk.ensures_vfsMkdir (h : FsOk True False (fun _ => False) s H) (hp : BelowMount c x)
    (hc : s.tree.nodeAt c = some d) (hdir : s.kind d = .dir) (hnew : s.tree.nodeAt (c ++ [x]) = none) :
    Ensures (vfsMkdir (pathOf (c ++ [x]))) s fun rc s' => rc = -ENOMEM ∨
      (rc = 0 ∧ FsOk True False (fun _ => False) s' H ∧ ∃ n, Grows s s' (c ++ [x]) .dir n) := by
  have hcall := (h.mkdir (F := fun _ => False) (fun _ _ => not_false) (fun _ => False.elim)
    hp.short).ensures fun _ hf => hf
  refine hcall.mono fun rc s' ⟨h', _, _, htree, hmakes⟩ => or_iff_not_imp_left.2 fun hmem => ?_
  have ht := (htree trivial hp.deep.deepDir).resolve_left hmem
  have hkind : s.tree.kind d = .dir := hdir
  have hfind : s.tree.find d x = none := by
    rw [Tree.nodeAt_snoc, hc] at hnew
    exact hnew
  unfold Tree.mkdir at ht
  rw [hp.components, List.dropLast_concat, List.getLastD_concat, Tree.nodeAt_eq_some.1 hc] at ht
  dsimp only at ht
  rw [if_neg (not_not.2 hkind), hfind] at ht
  obtain ⟨hrc, hs'⟩ := Prod.mk.inj ht
  cases hm : s.tree.nodeSupply 0 with
  | none =>
    rw [Tree.make, hm] at hrc
    exact absurd hrc.symm hmem
  | some n =>
    have hmake : s.tree.make d x .dir = ((0, some n), s'.tree) := by
      rw [← hs', Tree.make, hm]
    rw [hmake] at hrc
    exact ⟨hrc.symm, h', n, h.grows_of_make h' nofun hc hdir hnew hmake
      ((hmakes trivial).resolve_left hmem)⟩

/-- **`vfs_create`** makes the file, or there is no memory. -/
theorem FsOk.ensures_vfsCreate (h : FsOk True False (fun _ => False) s H) (hp : BelowMount c x)
    (hc : s.tree.nodeAt c = some d) (hdir : s.kind d = .dir) (hnew : s.tree.nodeAt (c ++ [x]) = none) :
    Ensures (vfsCreate (pathOf (c ++ [x]))) s fun r s' => r = (-ENOMEM, none) ∨
      ∃ e n, r = (0, some e) ∧ FsOk True False (fun _ => False) s' (e ::ₘ H) ∧
        (s'.entry e).node = some n ∧ Grows s s' (c ++ [x]) .file n := by
  have hcall := (h.fileOpen (F := fun _ => False) (fun _ _ => not_false) (fun _ => False.elim)
    hp.short true).ensures fun _ hf => hf
  have hfind : s.tree.find d x = none := by
    rw [Tree.nodeAt_snoc, hc] at hnew
    exact hnew
  have hopen : s.tree.fileOpen (pathOf (c ++ [x])) true = s.tree.make d x .file := by
    have hkind : s.tree.kind d = .dir := hdir
    unfold Tree.fileOpen
    rw [hp.components, List.dropLast_concat, List.getLastD_concat, Tree.nodeAt_eq_some.1 hc]
    dsimp only
    rw [hkind, hfind, if_neg nofun, if_neg nofun, if_neg nofun]
  refine hcall.mono fun ⟨rc, o⟩ s' ⟨_, _, hopened, hmakes⟩ => ?_
  dsimp only at hopened hmakes
  cases hopened with
  | @failed rc hrc h' htree =>
    refine Or.inl ?_
    rcases htree trivial hp.deep.deepDir with hmem | ht
    · rw [hmem]
    · rw [hopen, Tree.make] at ht
      split at ht
      · exact (Prod.mk.inj ht).1.symm
      · exact nomatch (Prod.mk.inj (Prod.mk.inj ht).1).2
  | @opened e n h' hn htree =>
    have hmake := (htree trivial hp.deep.deepDir)
    rw [hopen] at hmake
    have hmakes' := ((hmakes trivial).resolve_left (by decide)).imp_right And.right
    exact Or.inr ⟨e, n, rfl, h', hn, h.grows_of_make h' nofun hc hdir hnew hmake hmakes'⟩
  | leaked _ _ _ hmem _ => exact Or.inl (by rw [hmem trivial hp.deep.deepDir])

/-- **`vfs_open`** gives the node at the path, or there is no memory. -/
theorem FsOk.ensures_vfsOpen (h : FsOk True False (fun _ => False) s H) (hp : BelowMount c x)
    (hn : s.tree.nodeAt (c ++ [x]) = some n) :
    Ensures (vfsOpen (pathOf (c ++ [x]))) s fun r s' => r = (-ENOMEM, none) ∨
      ∃ e, r = (0, some e) ∧ FsOk True False (fun _ => False) s' (e ::ₘ H) ∧
        (s'.entry e).node = some n ∧ s'.tree = s.tree := by
  have hcall := (h.fileOpen (F := fun _ => False) (fun _ _ => not_false) (fun _ => False.elim)
    hp.short false).ensures fun _ hf => hf
  have hopen : s.tree.fileOpen (pathOf (c ++ [x])) false = ((0, some n), s.tree) := by
    rw [Tree.nodeAt_snoc] at hn
    obtain ⟨d, hd, hfind⟩ := Option.bind_eq_some_iff.1 hn
    have hkind : s.tree.kind d ≠ .file := fun hf => by
      have hnone : s.tree.find d x = none := find_of_file hf x
      exact nomatch hnone.symm.trans hfind
    unfold Tree.fileOpen
    rw [hp.components, List.dropLast_concat, List.getLastD_concat, Tree.nodeAt_eq_some.1 hd]
    dsimp only
    rw [if_neg hkind, hfind]
  refine hcall.mono fun ⟨rc, o⟩ s' ⟨_, _, hopened, hmakes⟩ => ?_
  dsimp only at hopened hmakes
  cases hopened with
  | @failed rc hrc h' htree =>
    refine Or.inl ?_
    rcases htree trivial hp.deep.deepDir with hmem | ht
    · rw [hmem]
    · rw [hopen] at ht
      exact nomatch (Prod.mk.inj (Prod.mk.inj ht).1).2
  | @opened e m h' hm htree =>
    have ht := htree trivial hp.deep.deepDir
    rw [hopen] at ht
    obtain ⟨hr, hs'⟩ := Prod.mk.inj ht
    obtain rfl := Option.some.inj (Prod.mk.inj hr).2
    exact Or.inr ⟨e, rfl, h', hm, hs'.symm⟩
  | leaked _ _ _ hmem _ => exact Or.inl (by rw [hmem trivial hp.deep.deepDir])

end

end Vfs

end Kernel64
