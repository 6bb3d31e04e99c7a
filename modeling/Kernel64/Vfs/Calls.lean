import Kernel64.Vfs.Nodes

/-!
# The calls

Each call gives back the references that it took, with one exception: when `vfs_create` cannot make the
file, the entry that it looked up for it stays. The trees change as they do without entries, as long as the
entries are coherent.
-/

namespace Kernel64

namespace Vfs

section

variable {C E : Prop} {D : Eid → Prop} {s s₁ s' : Fs} {H H₁ : Multiset Eid} {e d : Eid} {n : Nid}
  {x : Name} {F : Fault → Prop} {p : List Char}

/-! ### An entry without a node -/

theorem FsOk.weaken (h : FsOk C E D s H) : FsOk C E (fun y => D y ∨ y = e) s H :=
  { h with entries := { h.entries with positive := fun y hy hn => Or.inl (h.entries.positive y hy hn) } }

theorem FsOk.live_of_kept {D' : Eid → Prop} (h : FsOk C E D s H) (h₁ : FsOk C E D' s₁ H₁)
    (hsub : H ⊆ H₁) (hk : KeptUp H s s₁) (he : s₁.live e = false) : s.live e = false := by
  by_contra hc
  have hsup : Supported s H e := h.live_iff.1 (by simpa using hc)
  rw [h₁.live_iff.2 ((hsup.kept hk).mono hsub)] at he
  exact nomatch he

/-- An entry that was allowed to be without a node, or is gone. -/
theorem FsOk.settle (h : FsOk C E D s H) (h' : FsOk C E (fun y => D y ∨ y = e) s' H)
    (hk : KeptUp H s s') (he : D e ∨ s.live e = false) : FsOk C E D s' H := by
  rcases he with he | he
  · exact { h' with
      entries := { h'.entries with
        positive := fun y hy hn => (h'.entries.positive y hy hn).elim id fun hye => hye ▸ he } }
  · exact h'.restore (by rw [h.live_eq h' hk, he])

/-- What a lookup gives when it leaves an entry without a node. -/
structure Blank (C E : Prop) (D : Eid → Prop) (H : Multiset Eid) (d : Eid) (x : Name) (s : Fs) (n : Nid)
    (s' : Fs) (e : Eid) : Prop where
  ok : FsOk C E (fun y => D y ∨ y = e) s' (e ::ₘ H)
  child : Child s' d x e
  blank : (s'.entry e).node = none
  gone : D e ∨ (s.live e = false ∧ s.entrySupply 0 = some e ∧ s.find n x = none ∧ s.cache d x = none)
  absent : C → s.find n x = none
  leaf : C → ∀ y, s'.live y = true → (s'.entry y).parent ≠ e

/-- Looking up an entry to be made. -/
theorem Lookup.blank {rc : ℤ} (h : Lookup C E D H d x true s n s' (some e) rc) (hCD : C → ∀ y, ¬D y)
    (hnone : (s'.entry e).node = none) : Blank C E D H d x s n s' e := by
  cases h with
  | found h₁ hkind hchild hfound =>
    have hDe : D e := h₁.entries.positive e hchild.live hnone
    exact ⟨h₁.weaken, hchild, hnone, Or.inl hDe, fun hC => absurd hDe (hCD hC e),
      fun hC => absurd hDe (hCD hC e)⟩
  | missing h₁ hkind hcreate hfind hchild hblank hcache hsupply hlive hleaf =>
    exact ⟨h₁, hchild, hnone, Or.inr ⟨hlive, hsupply, hfind, hcache⟩, fun _ => hfind, fun _ => hleaf⟩

/-- Looking up an entry that has a node. -/
theorem Lookup.node {rc : ℤ} {m : Nid} {create : Bool} (h : Lookup C E D H d x create s n s' (some e) rc)
    (hm : (s'.entry e).node = some m) :
    rc = 0 ∧ FsOk C E D s' (e ::ₘ H) ∧ s.kind n ≠ .file ∧ (C → s.find n x = some m) := by
  cases h with
  | found h₁ hkind hchild hfound => exact ⟨rfl, h₁, hkind, fun hC => hfound hC m hm⟩
  | missing _ _ _ _ _ hblank =>
    rw [hblank] at hm
    exact nomatch hm

/-- A path with a directory below the root, and without `.` and `..`. -/
structure Deep (p : List Char) : Prop where
  undotted : Undotted (components p)
  deep : 2 ≤ (components p).length

theorem Deep.ne_nil (h : Deep p) : components p ≠ [] := fun hc => by
  have := h.deep
  rw [hc] at this
  exact nomatch this

/-- A path to a directory below the root, without `.` and `..`, and any name in it. -/
structure DeepDir (p : List Char) : Prop where
  undotted : Undotted (components p).dropLast
  deep : 2 ≤ (components p).length

theorem Deep.deepDir (h : Deep p) : DeepDir p :=
  ⟨fun x hx => h.undotted x (List.dropLast_subset _ hx), h.deep⟩

theorem DeepDir.ne_nil (h : DeepDir p) : components p ≠ [] := fun hc => by
  have := h.deep
  rw [hc] at this
  exact nomatch this

theorem DeepDir.dropLast_ne_nil (h : DeepDir p) : (components p).dropLast ≠ [] := fun hc => by
  have := congrArg List.length hc
  rw [List.length_dropLast] at this
  have := h.deep
  simp only [List.length_nil] at *
  omega

/-! ### How the trees change -/

/-- A directory that a path leads to, and a name for it. -/
structure Site (s : Fs) (d : Nid) (x : Name) : Prop where
  walk : ∃ c, PlainPath c ∧ s.tree.walk rootNode c = .ok d
  dir : s.kind d = .dir
  name : Named x

/-- A node is made, and named in a directory. -/
def Makes (s : Fs) (kind : Kind) (t : Tree) : Prop :=
  ∃ d x n, Site s d x ∧ (s.names d).lookup x = none ∧ s.nodeLive n = false ∧ n ≠ rootNode ∧
    s.tree.make d x kind = ((0, some n), t)

/-- A file gets a name in a directory. -/
def Links (s : Fs) (t : Tree) : Prop :=
  ∃ d x m, Site s d x ∧ (s.names d).lookup x = none ∧ s.kind m = .file ∧ t = s.tree.link d x m

/-- A path names the node `m` in the node `d`. -/
def NamedIn (s : Fs) (p : List Char) (d m : Nid) : Prop :=
  ∃ e rc s₁, vfsResolvePath p s = Except.ok ((some e, rc), s₁) ∧ (s₁.entry e).node = some m ∧
    (s₁.entry (s₁.entry e).parent).node = some d

/-- The name at a path is removed; it is the one of the node `m`. -/
def Removes (s : Fs) (p : List Char) (m : Nid) (t : Tree) : Prop :=
  ∃ d x, NamedIn s p d m ∧ Site s d x ∧ (s.names d).lookup x = some m ∧ t = s.tree.unlink d x

/-- An entry in use has a node, unless it is one of those that were left behind without one. -/
theorem FsOk.null_of_node (h : FsOk C E D s H) (hnull : ∀ y, D y → F .null) (he : e ∈ H)
    (hn : (s.entry e).node = none) : F .null :=
  hnull e (h.entries.positive e (h.entries.held e he) hn)

/-- Stopping a walk, while an entry is held. -/
theorem FsOk.stop {w : Walk} (h : FsOk C E D s (e ::ₘ w.entry ::ₘ H)) :
    Ensures (vfsWalkStop w) s fun _ s' => FsOk C E D s' (e ::ₘ H) ∧ Kept (e ::ₘ H) s s' ∧
      SameTree s s' := by
  rw [Multiset.cons_swap] at h
  exact h.put

theorem keptUp_of_parent (h : ∀ y, (s'.entry y).parent = (s.entry y).parent) : KeptUp H s s' :=
  fun y _ => h y

/-- The walk to the directory of a path has reached the node `n`. -/
structure AtDir (C E : Prop) (D : Eid → Prop) (H : Multiset Eid) (p : List Char) (s s₁ : Fs) (w : Walk)
    (n : Nid) : Prop where
  ok : FsOk C E D s₁ (w.entry ::ₘ H)
  tree : SameTree s s₁
  kept : Kept H s s₁
  node : (s₁.entry w.entry).node = some n
  next : C → DeepDir p → w.next = (components p).getLastD []
  walk : C → DeepDir p → s.tree.walk rootNode (components p).dropLast = .ok n
  below : C → DeepDir p → s₁.kind n ≠ .root
  cached : ∃ c, CachedAt s₁ c w.entry
  named : s₁.kind n = .dir → Named w.next

theorem AtDir.live {w : Walk} (h : AtDir C E D H p s s₁ w n) : s₁.live w.entry = true :=
  h.ok.entries.held _ (Multiset.mem_cons_self _ _)

theorem ToParent.atDir {w : Walk} (h : ToParent C E D H p s s₁ 0 w)
    (hn : (s₁.entry w.entry).node = some n) : AtDir C E D H p s s₁ w n := by
  have hplaced := fun hC (hp : DeepDir p) => (h.placed hC hp.undotted hp.ne_nil).1 rfl
  refine ⟨h.ok, h.tree, h.kept, hn, fun hC hp => (hplaced hC hp).1, fun hC hp => ?_, fun hC hp hc => ?_,
    h.cached rfl, fun hdir => (h.named rfl).resolve_left fun hc => ?_⟩
  · obtain ⟨-, m, hm⟩ := hplaced hC hp
    rw [← h.tree.tree, hm.walk]
    exact congrArg _ (Option.some.inj (hm.node.symm.trans hn))
  · obtain ⟨-, m, hm⟩ := hplaced hC hp
    rcases hm.last with ⟨hnil, -⟩ | ⟨c', y, q, -, -, hchild, -⟩
    · exact hp.dropLast_ne_nil hnil
    · have hlive := h.ok.nodes.pointed w.entry n (hchild.ne_root h.ok)
        ((if_pos hchild.live).trans hn)
      exact h.ok.nodes.kinds n hlive hc
  · rw [hc, h.ok.entries.root_node] at hn
    rw [← Option.some.inj hn, h.ok.nodes.root_kind] at hdir
    exact nomatch hdir

/-- The walk has led to a directory, and to a name for it. -/
theorem AtDir.site {w : Walk} (hd : AtDir C E D H p s s₁ w n) (hC : C) (hD : ∀ y, ¬D y)
    (hdir : s₁.kind n = .dir) : Site s n w.next := by
  obtain ⟨c, hc⟩ := hd.cached
  refine ⟨⟨c, hc.plainPath, ?_⟩, (congrFun hd.tree.kind n).symm.trans hdir, hd.named hdir⟩
  rw [← hd.tree.tree]
  exact hc.walk hd.ok hC hD hd.node

/-- A directory of `ramfs` is a node that was given out. -/
theorem AtDir.nodeLive {w : Walk} (h : AtDir C E D H p s s₁ w n) (hdir : s₁.kind n ≠ .root) :
    s₁.nodeLive n = true := by
  refine (VfsOk.real h.ok h.live h.node).resolve_left fun hc => ?_
  rw [hc] at hdir
  exact hdir h.ok.nodes.root_kind

/-- **Making a node** for an entry without one, in the directory that the walk has reached. -/
theorem AtDir.create {w : Walk} {s₂ : Fs} {kind : Kind} (h : FsOk C E D s H)
    (hd : AtDir C E D H p s s₁ w n) (hk : Kept (w.entry ::ₘ H) s₁ s₂) (ht : SameTree s₁ s₂)
    (hb : Blank C E D (w.entry ::ₘ H) w.entry w.next s₁ n s₂ e) (hdir : s₁.kind n = .dir)
    (hkind : kind ≠ .root) (hCD : C → ∀ y, ¬D y) :
    Ensures (ramfsCreateOps n e kind) s₂ fun rc s₃ => KeptUp H s s₃ ∧ Evolved (fun _ => False) s s₃ ∧
      ((rc = 0 ∧ FsOk C E D s₃ (e ::ₘ w.entry ::ₘ H) ∧ ∃ m, (s₃.entry e).node = some m ∧
          (C → DeepDir p → s.tree.make n ((components p).getLastD []) kind = ((0, some m), s₃.tree)) ∧
          (C → Makes s kind s₃.tree)) ∨
        (rc ≠ 0 ∧ FsOk C E (fun y => D y ∨ y = e) s₃ (e ::ₘ w.entry ::ₘ H) ∧
          (C → rc = -ENOMEM) ∧ (D e ∨ (s.live e = false ∧ ¬(s₁.NodeReady ∧ s₁.nameSupply 0 = true))))) := by
  have hwe : w.entry ∈ w.entry ::ₘ H := Multiset.mem_cons_self _ _
  have hdir₂ : s₂.kind n = .dir := (congrFun ht.kind n).trans hdir
  have hlive₂ : s₂.nodeLive n = true := by
    rw [ht.nodeLive]
    refine hd.nodeLive ?_
    rw [hdir]
    simp
  have hlook : s₁.find n w.next = none → (s₂.names n).lookup (s₂.entry e).name = none := by
    intro hf
    rw [← ht.find, Fs.find, hdir₂] at hf
    rw [hb.child.name]
    exact hf
  refine (hb.ok.createOps hb.child.live (hb.child.ne_root hb.ok) hb.blank hlive₂ hdir₂ hkind
    fun hC => ⟨hb.child.cached, hb.leaf hC, ?_⟩).mono ?_
  · rw [hb.child.parent, (hk _ (.held hwe)).node]
    exact hd.node
  rintro rc s₃ ⟨hpar, _, hev, hcase⟩
  have hk₃ : KeptUp H s s₃ :=
    (hd.kept.trans (hk.mono (Multiset.subset_cons _ _))).up.trans (keptUp_of_parent hpar)
  refine ⟨hk₃, hev.before (hd.tree.trans ht), ?_⟩
  rcases hcase with ⟨hrc, h₃, m, hm, hmake, hfresh⟩ | ⟨hrc, h₃, hnot, herr⟩
  · rw [hb.child.name, (hd.tree.trans ht).tree] at hmake
    rw [(hd.tree.trans ht).nodeLive] at hfresh
    refine Or.inl ⟨hrc, h₃, m, hm, fun hC hp => ?_, fun hC => ?_⟩
    · rw [← hd.next hC hp]
      exact hmake
    · have hf := hlook (hb.absent hC)
      rw [hb.child.name, (hd.tree.trans ht).names] at hf
      exact ⟨n, w.next, m, hd.site hC (hCD hC) hdir, hf, hfresh.1, hfresh.2, hmake⟩
  · refine Or.inr ⟨hrc, h₃, fun hC => ?_, ?_⟩
    · exact herr.resolve_right fun hne => hne (hlook (hb.absent hC))
    · refine hb.gone.imp id fun hgone => ?_
      obtain ⟨hlive, -, hf, -⟩ := hgone
      refine ⟨?_, fun hready => hnot ⟨hlook hf, ?_, ?_⟩⟩
      · exact h.live_of_kept hd.ok (Multiset.subset_cons _ _) hd.kept.up hlive
      · obtain ⟨m, hm⟩ := hready.1
        refine ⟨m, ?_⟩
        rw [ht.nodeSupply, ht.nodeLive]
        exact hm
      · rw [ht.nameSupply]
        exact hready.2

/-- The walk to the directory of a path, and whether the entry that it comes to has a node. -/
def LedTo (C E : Prop) (D : Eid → Prop) (F : Fault → Prop) (H : Multiset Eid) (p : List Char) (s : Fs)
    (r : ℤ × Walk) (s₁ : Fs) : Prop :=
  ToParent C E D H p s s₁ r.1 r.2 ∧ (r.1 = 0 → (s₁.entry r.2.entry).node = none → F .null)

theorem FsOk.ledTo (h : FsOk C E D s H) (hCD : C → ∀ y, ¬D y) (hnull : ∀ y, D y → F .null)
    (hlong : (∃ x ∈ components p, maxPathLen ≤ x.length) → F .bounds) :
    EnsuresOr F (vfsWalkStart p >>= vfsWalkParent) s (LedTo C E D F H p s) :=
  (h.toParent hCD hnull hlong).mono fun _ _ h₁ =>
    ⟨h₁, fun _ => h₁.ok.null_of_node hnull (Multiset.mem_cons_self _ _)⟩

/-- `vfs_mkdir`, after its walk. -/
theorem FsOk.mkdirFrom (h : FsOk C E D s H) (hCD : C → ∀ y, ¬D y)
    (hwalk : EnsuresOr F (vfsWalkStart p >>= vfsWalkParent) s (LedTo C E D F H p s)) :
    EnsuresOr F (vfsMkdir p) s fun rc s' => FsOk C E D s' H ∧ KeptUp H s s' ∧
      Evolved (fun _ => False) s s' ∧
      (C → DeepDir p → rc = -ENOMEM ∨ s.tree.mkdir p = (rc, s'.tree)) ∧
      (C → rc = -ENOMEM ∨ s'.tree = s.tree ∨ Makes s .dir s'.tree) := by
  unfold vfsMkdir
  rw [← bind_assoc, ensuresOr_bind]
  refine hwalk.mono ?_
  intro ⟨rc, w⟩ s₁ ⟨h₁, hnw⟩
  dsimp only at h₁ hnw ⊢
  by_cases hrc : rc = 0
  swap
  · -- the directory was not reached
    rw [if_pos hrc, ensuresOr_bind]
    refine h₁.ok.put.ensuresOr.mono fun _ s₂ ⟨h₂, hk₂, ht₂⟩ => ?_
    refine ensuresOr_pure.2 ⟨h₂, (h₁.kept.trans hk₂).up, (h₁.tree.trans ht₂).evolved, fun hC hp => ?_,
      fun _ => Or.inr (Or.inl (h₁.tree.trans ht₂).tree)⟩
    refine ((h₁.placed hC hp.undotted hp.ne_nil).2 hrc).imp id fun herr => ?_
    rw [(h₁.tree.trans ht₂).tree, Tree.mkdir, herr]
  subst hrc
  rw [if_neg (not_not.2 rfl), ensuresOr_bind]
  have hnw := hnw rfl
  refine ensuresOr_nodeOf hnw fun n hn => ?_
  have hd := h₁.atDir hn
  rw [ensuresOr_bind, ensuresOr_get]
  by_cases hdir : s₁.kind n = .dir
  swap
  · rw [if_pos hdir, ensuresOr_bind]
    refine h₁.ok.put.ensuresOr.mono fun _ s₂ ⟨h₂, hk₂, ht₂⟩ => ?_
    refine ensuresOr_pure.2 ⟨h₂, (h₁.kept.trans hk₂).up, (h₁.tree.trans ht₂).evolved, fun hC hp => Or.inr ?_,
      fun _ => Or.inr (Or.inl (h₁.tree.trans ht₂).tree)⟩
    rw [(h₁.tree.trans ht₂).tree, Tree.mkdir, hd.walk hC hp]
    exact if_pos fun hc => hdir ((congrFun h₁.tree.kind n).trans hc)
  have hkind : s.tree.kind n = .dir := (congrFun h₁.tree.kind n).symm.trans hdir
  rw [if_neg (not_not.2 hdir), ensuresOr_bind]
  refine (h₁.ok.lookup hd.live hCD hnw true).mono ?_
  intro ⟨o, rc₂⟩ s₂ ⟨ht₂, hk₂, n', hn', hlook⟩
  obtain rfl : n' = n := Option.some.inj (hn'.symm.trans hn)
  have hk₁₂ : KeptUp H s s₂ := h₁.kept.up.trans (hk₂.mono (Multiset.subset_cons _ _)).up
  dsimp only at hlook
  cases o with
  | none =>
    dsimp only
    rw [ensuresOr_bind]
    cases hlook with
    | file _ hkind =>
      rw [hdir] at hkind
      exact nomatch hkind
    | absent _ _ hcreate => exact nomatch hcreate
    | memory h₂ _ =>
      refine h₂.put.ensuresOr.mono fun _ s₃ ⟨h₃, hk₃, ht₃⟩ => ?_
      exact ensuresOr_pure.2 ⟨h₃, hk₁₂.trans hk₃.up, (h₁.tree.trans (ht₂.trans ht₃)).evolved,
        fun _ _ => Or.inl rfl, fun _ => Or.inl rfl⟩
  | some e =>
    dsimp only
    rw [ensuresOr_bind, ensuresOr_get]
    cases hnode : (s₂.entry e).node with
    | some m =>
      obtain ⟨-, h₂, -, hfind⟩ := hlook.node hnode
      rw [Option.isSome_some, if_pos rfl, ensuresOr_bind, ensuresOr_pure, ensuresOr_bind]
      refine h₂.stop.ensuresOr.mono fun _ s₃ ⟨h₃, hk₃, ht₃⟩ => ?_
      rw [ensuresOr_bind]
      refine h₃.put.ensuresOr.mono fun _ s₄ ⟨h₄, hk₄, ht₄⟩ => ?_
      refine ensuresOr_pure.2 ⟨h₄, ?_, (h₁.tree.trans (ht₂.trans (ht₃.trans ht₄))).evolved, fun hC hp => Or.inr ?_,
        fun _ => Or.inr (Or.inl (h₁.tree.trans (ht₂.trans (ht₃.trans ht₄))).tree)⟩
      · exact (hk₁₂.trans (hk₃.mono (Multiset.subset_cons _ _)).up).trans hk₄.up
      · have hf : s.tree.find n' w.next = some m := by
          rw [← h₁.tree.tree]
          exact hfind hC
        rw [(h₁.tree.trans (ht₂.trans (ht₃.trans ht₄))).tree, Tree.mkdir, hd.walk hC hp, ← hd.next hC hp]
        dsimp only
        rw [if_neg (not_not.2 hkind), hf]
    | none =>
      have hb := hlook.blank hCD hnode
      rw [Option.isSome_none, if_neg Bool.false_ne_true, ensuresOr_bind]
      refine (AtDir.create h hd hk₂ ht₂ hb hdir (show Kind.dir ≠ .root from nofun)
        hCD).ensuresOr.mono ?_
      intro rc₃ s₃ ⟨hk₃, hev, hcase⟩
      rw [ensuresOr_bind]
      rcases hcase with ⟨hrc₃, h₃, m, -, hmake, hmakes⟩ | ⟨-, h₃, herr, hgone⟩
      · refine h₃.stop.ensuresOr.mono fun _ s₄ ⟨h₄, hk₄, ht₄⟩ => ?_
        rw [ensuresOr_bind]
        refine h₄.put.ensuresOr.mono fun _ s₅ ⟨h₅, hk₅, ht₅⟩ => ?_
        refine ensuresOr_pure.2 ⟨h₅, ?_, hev.after (ht₄.trans ht₅), fun hC hp => Or.inr ?_,
          fun hC => Or.inr (Or.inr ?_)⟩
        rotate_left 2
        · rw [(ht₄.trans ht₅).tree]
          exact hmakes hC
        · exact (hk₃.trans (hk₄.mono (Multiset.subset_cons _ _)).up).trans hk₅.up
        · have hf : s.tree.find n' ((components p).getLastD []) = none := by
            rw [← h₁.tree.tree, ← hd.next hC hp]
            exact hb.absent hC
          rw [(ht₄.trans ht₅).tree, Tree.mkdir, hd.walk hC hp]
          dsimp only
          rw [if_neg (not_not.2 hkind), hf, hmake hC hp, hrc₃]
      · refine h₃.stop.ensuresOr.mono fun _ s₄ ⟨h₄, hk₄, ht₄⟩ => ?_
        rw [ensuresOr_bind]
        refine h₄.put.ensuresOr.mono fun _ s₅ ⟨h₅, hk₅, ht₅⟩ => ?_
        have hk' : KeptUp H s s₅ := (hk₃.trans (hk₄.mono (Multiset.subset_cons _ _)).up).trans hk₅.up
        exact ensuresOr_pure.2 ⟨h.settle h₅ hk' (hgone.imp id And.left), hk', hev.after (ht₄.trans ht₅),
          fun hC _ => Or.inl (herr hC), fun hC => Or.inl (herr hC)⟩

/-- **`vfs_mkdir`** -/
theorem FsOk.mkdir (h : FsOk C E D s H) (hCD : C → ∀ y, ¬D y) (hnull : ∀ y, D y → F .null)
    (hlong : (∃ x ∈ components p, maxPathLen ≤ x.length) → F .bounds) :
    EnsuresOr F (vfsMkdir p) s fun rc s' => FsOk C E D s' H ∧ KeptUp H s s' ∧
      Evolved (fun _ => False) s s' ∧
      (C → DeepDir p → rc = -ENOMEM ∨ s.tree.mkdir p = (rc, s'.tree)) ∧
      (C → rc = -ENOMEM ∨ s'.tree = s.tree ∨ Makes s .dir s'.tree) :=
  h.mkdirFrom hCD (h.ledTo hCD hnull hlong)

/-- A file that is missing from the directory of a path can be made there: the directory is not the root,
and there is memory for the node and for its name. -/
def CreateSafe (s : Fs) (p : List Char) : Prop :=
  ∀ w s₁ n e, (vfsWalkStart p >>= vfsWalkParent) s = Except.ok ((0, w), s₁) →
    (s₁.entry w.entry).node = some n → s₁.kind n ≠ .file → s₁.cache w.entry w.next = none →
    s₁.find n w.next = none → s₁.entrySupply 0 = some e → s₁.live e = false →
    s₁.kind n = .dir ∧ s₁.NodeReady ∧ s₁.nameSupply 0 = true

/-- The directory of a path is the root. -/
def AtRoot (s : Fs) (p : List Char) : Prop :=
  ∃ w s₁ n, (vfsWalkStart p >>= vfsWalkParent) s = Except.ok ((0, w), s₁) ∧
    (s₁.entry w.entry).node = some n ∧ s₁.kind n = .root

theorem FsOk.not_atRoot (h : FsOk C E D s H) (hCD : C → ∀ y, ¬D y) (hC : C) (hp : DeepDir p) :
    ¬AtRoot s p := by
  intro ⟨w, s₁, n, hrun, hn, hroot⟩
  have h₁ := (h.toParent (F := fun _ => True) hCD (fun _ _ => trivial) fun _ => trivial).of_run hrun
  exact (h₁.atDir hn).below hC hp hroot

/-- What `vfs_file_open` gives: a file, a failure, or a failure that leaves an entry behind. -/
inductive Opened (C E : Prop) (D : Eid → Prop) (H : Multiset Eid) (p : List Char) (create : Bool)
    (s s' : Fs) : ℤ → Option Eid → Prop
  | failed {rc : ℤ} : rc ≠ 0 → FsOk C E D s' H →
      (C → DeepDir p → rc = -ENOMEM ∨ s.tree.fileOpen p create = ((rc, none), s'.tree)) →
      Opened C E D H p create s s' rc none
  | opened {e : Eid} {m : Nid} : FsOk C E D s' (e ::ₘ H) → (s'.entry e).node = some m →
      (C → DeepDir p → s.tree.fileOpen p create = ((0, some m), s'.tree)) →
      Opened C E D H p create s s' 0 (some e)
  | leaked {rc : ℤ} {e : Eid} : rc ≠ 0 → FsOk C E (fun y => D y ∨ y = e) s' (e ::ₘ H) →
      (D e ∨ (create = true ∧ ¬CreateSafe s p)) → (C → DeepDir p → rc = -ENOMEM) →
      (C → rc = -ENOMEM ∨ AtRoot s p) → Opened C E D H p create s s' rc none

/-- `vfs_file_open`, after its walk. A file that is made has a node; one that was there may have none. -/
theorem FsOk.fileOpenFrom (h : FsOk C E D s H) (hCD : C → ∀ y, ¬D y) (create : Bool)
    (hnull : create = false → ∀ y, D y → F .null)
    (hwalk : EnsuresOr F (vfsWalkStart p >>= vfsWalkParent) s (LedTo C E D F H p s)) :
    EnsuresOr F (vfsFileOpen p create) s fun r s' => KeptUp H s s' ∧ Evolved (fun _ => False) s s' ∧
      Opened C E D H p create s s' r.1 r.2 ∧
      (C → r.1 = -ENOMEM ∨ s'.tree = s.tree ∨ (create = true ∧ Makes s .file s'.tree)) := by
  unfold vfsFileOpen
  rw [← bind_assoc, ensuresOr_bind]
  refine hwalk.with_run.mono ?_
  intro ⟨rc, w⟩ s₁ ⟨hrun, h₁, hnw⟩
  dsimp only at h₁ hnw ⊢
  by_cases hrc : rc = 0
  swap
  · -- the directory was not reached
    rw [if_pos hrc, ensuresOr_bind]
    refine h₁.ok.put.ensuresOr.mono fun _ s₂ ⟨h₂, hk₂, ht₂⟩ => ?_
    refine ensuresOr_pure.2 ⟨(h₁.kept.trans hk₂).up, (h₁.tree.trans ht₂).evolved, .failed hrc h₂ fun hC hp => ?_,
      fun _ => Or.inr (Or.inl (h₁.tree.trans ht₂).tree)⟩
    refine ((h₁.placed hC hp.undotted hp.ne_nil).2 hrc).imp id fun herr => ?_
    rw [(h₁.tree.trans ht₂).tree, Tree.fileOpen, herr]
  subst hrc
  rw [if_neg (not_not.2 rfl), ensuresOr_bind]
  have hnw := hnw rfl
  refine ensuresOr_nodeOf hnw fun n hn => ?_
  have hd := h₁.atDir hn
  rw [ensuresOr_bind, ensuresOr_get]
  by_cases hfile : s₁.kind n = .file
  · rw [if_pos hfile, ensuresOr_bind]
    refine h₁.ok.put.ensuresOr.mono fun _ s₂ ⟨h₂, hk₂, ht₂⟩ => ?_
    refine ensuresOr_pure.2 ⟨(h₁.kept.trans hk₂).up, (h₁.tree.trans ht₂).evolved,
      .failed (show -ENOTSUP ≠ 0 by decide) h₂ fun hC hp => Or.inr ?_,
      fun _ => Or.inr (Or.inl (h₁.tree.trans ht₂).tree)⟩
    rw [(h₁.tree.trans ht₂).tree, Tree.fileOpen, hd.walk hC hp]
    exact if_pos ((congrFun h₁.tree.kind n).symm.trans hfile)
  have hfile' : s.tree.kind n ≠ .file := fun hc => hfile ((congrFun h₁.tree.kind n).trans hc)
  rw [if_neg hfile, ensuresOr_bind]
  refine (h₁.ok.lookup hd.live hCD hnw create).mono ?_
  intro ⟨o, rc₂⟩ s₂ ⟨ht₂, hk₂, n', hn', hlook⟩
  obtain rfl : n' = n := Option.some.inj (hn'.symm.trans hn)
  have hk₁₂ : KeptUp H s s₂ := h₁.kept.up.trans (hk₂.mono (Multiset.subset_cons _ _)).up
  dsimp only at hlook
  cases o with
  | none =>
    dsimp only
    rw [ensuresOr_bind, ensuresOr_pure, ensuresOr_bind]
    cases hlook with
    | file _ hkind => exact absurd hkind hfile
    | absent h₂ _ hcreate hfind =>
      refine h₂.put.ensuresOr.mono fun _ s₃ ⟨h₃, hk₃, ht₃⟩ => ?_
      have hrc : -ENOENT ≠ 0 := by decide
      rw [if_pos hrc]
      refine ensuresOr_pure.2 ⟨hk₁₂.trans hk₃.up, (h₁.tree.trans (ht₂.trans ht₃)).evolved,
        .failed hrc h₃ fun hC hp => Or.inr ?_,
        fun _ => Or.inr (Or.inl (h₁.tree.trans (ht₂.trans ht₃)).tree)⟩
      have hf : s.tree.find n' ((components p).getLastD []) = none := by
        rw [← h₁.tree.tree, ← hd.next hC hp]
        exact hfind
      rw [(h₁.tree.trans (ht₂.trans ht₃)).tree, Tree.fileOpen, hd.walk hC hp]
      dsimp only
      rw [if_neg hfile', hf]
      exact if_pos hcreate
    | memory h₂ _ =>
      refine h₂.put.ensuresOr.mono fun _ s₃ ⟨h₃, hk₃, ht₃⟩ => ?_
      have hrc : -ENOMEM ≠ 0 := by decide
      rw [if_pos hrc]
      exact ensuresOr_pure.2 ⟨hk₁₂.trans hk₃.up, (h₁.tree.trans (ht₂.trans ht₃)).evolved,
        .failed hrc h₃ fun _ _ => Or.inl rfl, fun _ => Or.inl rfl⟩
  | some e =>
    dsimp only
    rw [ensuresOr_bind, ensuresOr_get]
    cases hnode : (s₂.entry e).node with
    | some m =>
      obtain ⟨hrc₂, h₂, -, hfind⟩ := hlook.node hnode
      rw [if_neg fun hc => (nomatch hc.2), ensuresOr_bind, ensuresOr_pure, ensuresOr_bind]
      refine h₂.stop.ensuresOr.mono fun _ s₃ ⟨h₃, hk₃, ht₃⟩ => ?_
      have hm : (s₃.entry e).node = some m :=
        (hk₃ e (.held (Multiset.mem_cons_self _ _))).node.trans hnode
      rw [if_neg (not_not.2 hrc₂), ensuresOr_bind]
      refine ensuresOr_nodeOf (fun hc => ?_) fun _ _ => ?_
      · rw [hm] at hc
        exact nomatch hc
      refine ensuresOr_pure.2 ⟨hk₁₂.trans (hk₃.mono (Multiset.subset_cons _ _)).up,
        (h₁.tree.trans (ht₂.trans ht₃)).evolved, .opened h₃ hm fun hC hp => ?_,
        fun _ => Or.inr (Or.inl (h₁.tree.trans (ht₂.trans ht₃)).tree)⟩
      have hf : s.tree.find n' ((components p).getLastD []) = some m := by
        rw [← h₁.tree.tree, ← hd.next hC hp]
        exact hfind hC
      rw [(h₁.tree.trans (ht₂.trans ht₃)).tree, Tree.fileOpen, hd.walk hC hp]
      dsimp only
      rw [if_neg hfile', hf]
    | none =>
      cases create with
      | false =>
        -- an entry that an earlier call left behind
        cases hlook with
        | missing _ _ hcreate => exact nomatch hcreate
        | found h₂ _ hchild _ =>
          have hDe : D e := h₂.entries.positive e hchild.live hnode
          rw [if_neg fun hc => (nomatch hc.1), ensuresOr_bind, ensuresOr_pure, ensuresOr_bind]
          refine h₂.stop.ensuresOr.mono fun _ s₃ ⟨h₃, hk₃, ht₃⟩ => ?_
          rw [if_neg (not_not.2 rfl), ensuresOr_bind]
          refine ensuresOr_nodeOf (fun _ => hnull rfl e hDe) fun m hm => ?_
          rw [(hk₃ e (.held (Multiset.mem_cons_self _ _))).node, hnode] at hm
          exact nomatch hm
      | true =>
        have hb := hlook.blank hCD hnode
        rw [if_pos ⟨rfl, rfl⟩]
        by_cases hroot : s₂.kind n' = .root
        · have hroot₁ : s₁.kind n' = .root := (congrFun ht₂.kind n').symm.trans hroot
          have hrc : -ENOTSUP ≠ 0 := by decide
          rw [if_pos hroot, ensuresOr_bind, ensuresOr_pure, ensuresOr_bind]
          refine hb.ok.stop.ensuresOr.mono fun _ s₃ ⟨h₃, hk₃, ht₃⟩ => ?_
          rw [if_pos hrc]
          refine ensuresOr_pure.2 ⟨hk₁₂.trans (hk₃.mono (Multiset.subset_cons _ _)).up,
            (h₁.tree.trans (ht₂.trans ht₃)).evolved,
            .leaked hrc h₃ ?_ (fun hC hp => absurd hroot₁ (hd.below hC hp))
              fun _ => Or.inr ⟨w, s₁, n', hrun, hn, hroot₁⟩,
            fun _ => Or.inr (Or.inl (h₁.tree.trans (ht₂.trans ht₃)).tree)⟩
          refine hb.gone.imp id fun ⟨hlive, hsupply, hfind, hcache⟩ => ⟨rfl, fun hsafe => ?_⟩
          have hdir := (hsafe w s₁ n' e hrun hn hfile hcache hfind hsupply hlive).1
          rw [hroot₁] at hdir
          exact nomatch hdir
        · have hdir : s₁.kind n' = .dir := by
            rw [ht₂.kind] at hroot
            cases hk : s₁.kind n' with
            | root => exact absurd hk hroot
            | dir => rfl
            | file => exact absurd hk hfile
          rw [if_neg hroot, ensuresOr_bind]
          refine (AtDir.create h hd hk₂ ht₂ hb hdir (show Kind.file ≠ .root from nofun)
            hCD).ensuresOr.mono ?_
          intro rc₃ s₃ ⟨hk₃, hev, hcase⟩
          rw [ensuresOr_bind]
          rcases hcase with ⟨hrc₃, h₃, m, hm, hmake, hmakes⟩ | ⟨hrc₃, h₃, herr, hgone⟩
          · refine h₃.stop.ensuresOr.mono fun _ s₄ ⟨h₄, hk₄, ht₄⟩ => ?_
            have hm₄ : (s₄.entry e).node = some m :=
              (hk₄ e (.held (Multiset.mem_cons_self _ _))).node.trans hm
            rw [if_neg (not_not.2 hrc₃), ensuresOr_bind]
            refine ensuresOr_nodeOf (fun hc => ?_) fun _ _ => ?_
            · rw [hm₄] at hc
              exact nomatch hc
            refine ensuresOr_pure.2 ⟨hk₃.trans (hk₄.mono (Multiset.subset_cons _ _)).up, hev.after ht₄,
              .opened h₄ hm₄ fun hC hp => ?_, fun hC => Or.inr (Or.inr ⟨rfl, ht₄.tree ▸ hmakes hC⟩)⟩
            have hf : s.tree.find n' ((components p).getLastD []) = none := by
              rw [← h₁.tree.tree, ← hd.next hC hp]
              exact hb.absent hC
            have hkind : s.tree.kind n' = .dir := (congrFun h₁.tree.kind n').symm.trans hdir
            rw [ht₄.tree, Tree.fileOpen, hd.walk hC hp]
            dsimp only
            rw [if_neg hfile', hf, if_neg Bool.true_eq_false.mp, if_neg (by rw [hkind]; exact nofun)]
            exact hmake hC hp
          · refine h₃.stop.ensuresOr.mono fun _ s₄ ⟨h₄, hk₄, ht₄⟩ => ?_
            rw [if_pos hrc₃]
            refine ensuresOr_pure.2 ⟨hk₃.trans (hk₄.mono (Multiset.subset_cons _ _)).up, hev.after ht₄,
              .leaked hrc₃ h₄ ?_ (fun hC _ => herr hC) fun hC => Or.inl (herr hC),
              fun hC => Or.inl (herr hC)⟩
            rcases hgone with hDe | ⟨-, hnot⟩
            · exact Or.inl hDe
            · refine hb.gone.imp id fun ⟨hlive, hsupply, hfind, hcache⟩ => ⟨rfl, fun hsafe => hnot ?_⟩
              exact (hsafe w s₁ n' e hrun hn hfile hcache hfind hsupply hlive).2

/-- **`vfs_file_open`** -/
theorem FsOk.fileOpen (h : FsOk C E D s H) (hCD : C → ∀ y, ¬D y) (hnull : ∀ y, D y → F .null)
    (hlong : (∃ x ∈ components p, maxPathLen ≤ x.length) → F .bounds) (create : Bool) :
    EnsuresOr F (vfsFileOpen p create) s fun r s' => KeptUp H s s' ∧ Evolved (fun _ => False) s s' ∧
      Opened C E D H p create s s' r.1 r.2 ∧
      (C → r.1 = -ENOMEM ∨ s'.tree = s.tree ∨ (create = true ∧ Makes s .file s'.tree)) :=
  h.fileOpenFrom hCD create (fun _ => hnull) (h.ledTo hCD hnull hlong)

/-- Dropping an entry, while another one is held. -/
theorem FsOk.putOther {old : Eid} (h : FsOk C E D s (e ::ₘ old ::ₘ H)) :
    Ensures (vfsEntryPut old) s fun _ s' => FsOk C E D s' (e ::ₘ H) ∧ Kept (e ::ₘ H) s s' ∧
      SameTree s s' := by
  rw [Multiset.cons_swap] at h
  exact h.put

/-- The way out of `vfs_link` drops the walk, the old entry and the new one. -/
theorem FsOk.leave {old : Eid} {w : Walk} {rc : ℤ} {Q : ℤ → Fs → Prop}
    (h : FsOk C E D s (e ::ₘ w.entry ::ₘ old ::ₘ H))
    (hQ : ∀ s', FsOk C E D s' H → KeptUp H s s' → SameTree s s' → Q rc s') :
    EnsuresOr F (do
      vfsWalkStop w
      vfsEntryPut old
      vfsEntryPut e
      return rc : FsM ℤ) s Q := by
  rw [ensuresOr_bind]
  refine h.stop.ensuresOr.mono fun _ s₁ hr => ?_
  obtain ⟨h₁, hk₁, ht₁⟩ := hr
  rw [ensuresOr_bind]
  refine h₁.putOther.ensuresOr.mono fun _ s₂ hr => ?_
  obtain ⟨h₂, hk₂, ht₂⟩ := hr
  rw [ensuresOr_bind]
  refine h₂.put.ensuresOr.mono fun _ s₃ hr => ?_
  obtain ⟨h₃, hk₃, ht₃⟩ := hr
  have hsub : H ⊆ e ::ₘ old ::ₘ H := fun y hy => Multiset.mem_cons_of_mem (Multiset.mem_cons_of_mem hy)
  have hk : KeptUp H s s₃ := ((hk₁.mono hsub).up.trans (hk₂.mono (Multiset.subset_cons _ _)).up).trans hk₃.up
  exact ensuresOr_pure.2 (hQ s₃ h₃ hk (ht₁.trans (ht₂.trans ht₃)))

/-- **`vfs_link`** -/
theorem FsOk.hardLink {q : List Char} (h : FsOk C E D s H) (hCD : C → ∀ y, ¬D y)
    (hnull : ∀ y, D y → F .null)
    (hlong : (∃ x ∈ components p ++ components q, maxPathLen ≤ x.length) → F .bounds) :
    EnsuresOr F (vfsLink p q) s fun rc s' => FsOk C E D s' H ∧ KeptUp H s s' ∧
      Evolved (fun k => C → ∃ c, s.tree.walk rootNode c = .ok k) s s' ∧
      (C → Deep p → DeepDir q → rc = -ENOMEM ∨ s.tree.hardLink p q = (rc, s'.tree)) ∧
      (C → rc = -ENOMEM ∨ s'.tree = s.tree ∨ Links s s'.tree) := by
  have hlongp : (∃ x ∈ components p, maxPathLen ≤ x.length) → F .bounds := by
    rintro ⟨x, hx, hlen⟩
    exact hlong ⟨x, List.mem_append_left _ hx, hlen⟩
  have hlongq : (∃ x ∈ components q, maxPathLen ≤ x.length) → F .bounds := by
    rintro ⟨x, hx, hlen⟩
    exact hlong ⟨x, List.mem_append_right _ hx, hlen⟩
  unfold vfsLink
  rw [ensuresOr_bind]
  refine (h.resolve hCD hnull hlongp).mono ?_
  rintro ⟨o, rc⟩ s₀ ⟨ht₀, hk₀, hcase⟩
  dsimp only at hcase
  rcases hcase with ⟨rfl, -, h₀, herr⟩ | ⟨old, rfl, h₀, hplaced, cold, hcold⟩
  · refine ensuresOr_pure.2 ⟨h₀, hk₀.up, ht₀.evolved, fun hC hp _ => (herr hC hp.undotted).imp id fun he => ?_,
      fun _ => Or.inr (Or.inl ht₀.tree)⟩
    rw [ht₀.tree, Tree.hardLink, he]
  dsimp only
  rw [ensuresOr_bind]
  refine (ensuresOr_bind.1 (h₀.toParent hCD hnull hlongq)).mono fun w₀ s₁' hw₀ => ?_
  rw [ensuresOr_bind]
  refine hw₀.mono ?_
  rintro ⟨rc, w⟩ s₁ h₁
  dsimp only at h₁ ⊢
  have hk₁ : KeptUp H s s₁ := hk₀.up.trans (h₁.kept.mono (Multiset.subset_cons _ _)).up
  -- every way out drops the walk and the old entry
  have hout : ∀ {s₂ : Fs}, FsOk C E D s₂ (w.entry ::ₘ old ::ₘ H) → KeptUp H s s₂ → SameTree s s₂ →
      ∀ rc : ℤ, (C → Deep p → DeepDir q → rc = -ENOMEM ∨ s.tree.hardLink p q = (rc, s.tree)) →
      EnsuresOr F (do
        vfsWalkStop w
        vfsEntryPut old
        return rc : FsM ℤ) s₂ fun rc s' => FsOk C E D s' H ∧ KeptUp H s s' ∧
          Evolved (fun k => C → ∃ c, s.tree.walk rootNode c = .ok k) s s' ∧
          (C → Deep p → DeepDir q → rc = -ENOMEM ∨ s.tree.hardLink p q = (rc, s'.tree)) ∧
          (C → rc = -ENOMEM ∨ s'.tree = s.tree ∨ Links s s'.tree) := by
    intro s₂ h₂ hk₂ ht₂ rc hrc
    rw [ensuresOr_bind]
    refine h₂.put.ensuresOr.mono fun _ s₃ hr => ?_
    obtain ⟨h₃, hk₃, ht₃⟩ := hr
    rw [ensuresOr_bind]
    refine h₃.put.ensuresOr.mono fun _ s₄ hr => ?_
    obtain ⟨h₄, hk₄, ht₄⟩ := hr
    have ht := (ht₂.trans (ht₃.trans ht₄)).tree
    refine ensuresOr_pure.2 ⟨h₄, ?_, (ht₂.trans (ht₃.trans ht₄)).evolved, ?_, fun _ => Or.inr (Or.inl ht)⟩
    · exact (hk₂.trans (hk₃.mono (Multiset.subset_cons _ _)).up).trans hk₄.up
    · rw [ht]
      exact hrc
  have hwalk₀ : C → Deep p → ∃ m, s.tree.walk rootNode (components p) = .ok m ∧
      (s₁.entry old).node = some m := by
    intro hC hp
    obtain ⟨m, hm⟩ := hplaced hC hp.undotted
    refine ⟨m, ht₀.tree ▸ hm.walk, ?_⟩
    exact (h₁.kept old (.held (Multiset.mem_cons_self _ _))).node.trans hm.node
  by_cases hrc : rc = 0
  swap
  · -- the directory was not reached
    rw [if_pos hrc]
    refine hout h₁.ok hk₁ (ht₀.trans h₁.tree) rc fun hC hp hq => ?_
    obtain ⟨m, hm, -⟩ := hwalk₀ hC hp
    refine ((h₁.placed hC hq.undotted hq.ne_nil).2 hrc).imp id fun herr => ?_
    rw [ht₀.tree] at herr
    rw [Tree.hardLink, hm, herr]
  subst hrc
  rw [if_neg (not_not.2 rfl), ensuresOr_bind]
  have hnw := h₁.ok.null_of_node hnull (Multiset.mem_cons_self _ _)
  refine ensuresOr_nodeOf hnw fun n hn => ?_
  have hd := h₁.atDir hn
  have hwalk : C → DeepDir q → s.tree.walk rootNode (components q).dropLast = .ok n :=
    fun hC hq => ht₀.tree ▸ hd.walk hC hq
  rw [ensuresOr_bind, ensuresOr_get]
  by_cases hdir : s₁.kind n = .dir
  swap
  · rw [if_pos hdir]
    refine hout h₁.ok hk₁ (ht₀.trans h₁.tree) _ fun hC hp hq => Or.inr ?_
    obtain ⟨m, hm, -⟩ := hwalk₀ hC hp
    rw [Tree.hardLink, hm, hwalk hC hq]
    exact if_pos fun hc => hdir ((congrFun (ht₀.trans h₁.tree).kind n).trans hc)
  have hkind : s.tree.kind n = .dir := (congrFun (ht₀.trans h₁.tree).kind n).symm.trans hdir
  rw [if_neg (not_not.2 hdir), ensuresOr_bind]
  refine (h₁.ok.lookup hd.live hCD hnw true).mono ?_
  rintro ⟨o, rc₂⟩ s₂ ⟨ht₂, hk₂, n', hn', hlook⟩
  obtain rfl : n' = n := Option.some.inj (hn'.symm.trans hn)
  have hk₁₂ : KeptUp H s s₂ := hk₁.trans
    ((hk₂.mono (Multiset.subset_cons _ _)).mono (Multiset.subset_cons _ _)).up
  have ht₁₂ : SameTree s s₂ := ht₀.trans (h₁.tree.trans ht₂)
  dsimp only at hlook
  cases o with
  | none =>
    cases hlook with
    | file _ hkind =>
      rw [hdir] at hkind
      cases hkind
    | absent _ _ hcreate => cases hcreate
    | memory h₂ _ => exact hout h₂ hk₁₂ ht₁₂ _ fun _ _ _ => Or.inl rfl
  | some e =>
    dsimp only
    rw [ensuresOr_bind, ensuresOr_get]
    cases hnode : (s₂.entry e).node with
    | some m =>
      obtain ⟨-, h₂, -, hfind⟩ := hlook.node hnode
      rw [Option.isSome_some, if_pos rfl, ensuresOr_bind, ensuresOr_pure]
      refine h₂.leave fun s₃ h₃ hk₃ ht₃ => ?_
      refine ⟨h₃, hk₁₂.trans hk₃, (ht₁₂.trans ht₃).evolved, fun hC hp hq => Or.inr ?_,
        fun _ => Or.inr (Or.inl (ht₁₂.trans ht₃).tree)⟩
      obtain ⟨m', hm', -⟩ := hwalk₀ hC hp
      have hf : s.tree.find n' ((components q).getLastD []) = some m := by
        rw [← (ht₀.trans h₁.tree).tree, ← hd.next hC hq]
        exact hfind hC
      rw [(ht₁₂.trans ht₃).tree, Tree.hardLink, hm', hwalk hC hq]
      dsimp only
      rw [if_neg (not_not.2 hkind), hf]
    | none =>
      have hb := hlook.blank hCD hnode
      have hmem : old ∈ w.entry ::ₘ old ::ₘ H := Multiset.mem_cons_of_mem (Multiset.mem_cons_self _ _)
      have hold : (s₂.entry old).node = (s₁.entry old).node := (hk₂ old (.held hmem)).node
      have hnold : (s₂.entry old).node = none → F .null := fun hc =>
        h₁.ok.null_of_node hnull hmem (hold ▸ hc)
      have hdir₂ : s₂.kind n' = .dir := (congrFun ht₂.kind n').trans hdir
      have hgone : D e ∨ s.live e = false := hb.gone.imp id fun hg =>
        h.live_of_kept h₁.ok (fun y hy => Multiset.mem_cons_of_mem (Multiset.mem_cons_of_mem hy)) hk₁ hg.1
      rw [Option.isSome_none, if_neg Bool.false_ne_true, ensuresOr_bind]
      refine (hb.ok.ramfsLink hb.child.live (hb.child.ne_root hb.ok) hnode hdir₂ (fun hC =>
        ⟨hb.child.cached, hb.leaf hC, ?_⟩) (hb.ok.entries.held _ (Multiset.mem_cons_of_mem hmem))
        hnold).mono ?_
      · rw [hb.child.parent, (hk₂ _ (.held (Multiset.mem_cons_self _ _))).node]
        exact hn
      rintro rc₃ s₃ ⟨hpar, _, hev, m, hm, hcase⟩
      -- the file that is linked is at the end of a path
      have hev' : Evolved (fun k => C → ∃ c, s.tree.walk rootNode c = .ok k) s s₃ := by
        refine (hev.before ht₁₂).mono fun k hk hC => ⟨cold, ?_⟩
        rw [hold, (h₁.kept old (.held (Multiset.mem_cons_self _ _))).node] at hk
        rw [← ht₀.tree]
        exact hcold.walk h₀ hC (hCD hC) hk
      have hk₃ : KeptUp H s s₃ := hk₁₂.trans (keptUp_of_parent hpar)
      have hf : C → DeepDir q → s.tree.find n' ((components q).getLastD []) = none := fun hC hq => by
        rw [← (ht₀.trans h₁.tree).tree, ← hd.next hC hq]
        exact hb.absent hC
      have hmm : C → Deep p → s.tree.walk rootNode (components p) = .ok m := fun hC hp => by
        obtain ⟨m', hm', hnode'⟩ := hwalk₀ hC hp
        rw [hold, hnode'] at hm
        rw [hm', Option.some.inj hm]
      rcases hcase with ⟨hrc₃, h₃, hfile, htree⟩ | ⟨-, h₃, herr⟩
      · refine h₃.leave fun s₄ h₄ hk₄ ht₄ => ?_
        have hfile' : s.tree.kind m = .file := (congrFun ht₁₂.kind m).symm.trans hfile
        rw [hb.child.name, ht₁₂.tree, ← ht₄.tree] at htree
        refine ⟨h₄, hk₃.trans hk₄, hev'.after ht₄, fun hC hp hq => Or.inr ?_, fun hC => Or.inr (Or.inr ?_)⟩
        · rw [hd.next hC hq] at htree
          rw [htree, Tree.hardLink, hmm hC hp, hwalk hC hq]
          dsimp only
          rw [if_neg (not_not.2 hkind), hf hC hq, hrc₃]
          exact if_neg (not_not.2 hfile')
        · have hsite := hd.site hC (hCD hC) hdir
          have hfn := hb.absent hC
          rw [← ht₂.find, Fs.find, hdir₂, ht₁₂.names] at hfn
          refine ⟨n', w.next, m, ⟨?_, hkind, hsite.name⟩, hfn, hfile', htree⟩
          rw [← ht₀.tree]
          exact hsite.walk
      · refine h₃.leave fun s₄ h₄ hk₄ ht₄ => ?_
        have hk' : KeptUp H s s₄ := hk₃.trans hk₄
        have hlk : C → (s₂.names n').lookup (s₂.entry e).name = none := by
          intro hC
          have hfind := hb.absent hC
          rw [← ht₂.find, Fs.find, hdir₂] at hfind
          rw [hb.child.name]
          exact hfind
        refine ⟨h.settle h₄ hk' hgone, hk', hev'.after ht₄, fun hC hp hq => herr.imp id fun hno => ?_,
          fun hC => herr.imp id fun hno => Or.inl ?_⟩
        all_goals obtain ⟨hrc₃, hfile, rfl⟩ := hno.resolve_right fun hc => hc (hlk hC)
        · have hfile' : s.tree.kind m ≠ .file := fun hc => hfile ((congrFun ht₁₂.kind m).trans hc)
          rw [(ht₁₂.trans ht₄).tree, Tree.hardLink, hmm hC hp, hwalk hC hq]
          dsimp only
          rw [if_neg (not_not.2 hkind), hf hC hq, hrc₃]
          exact if_pos hfile'
        · exact (ht₁₂.trans ht₄).tree

/-- **`vfs_unlink`** and **`vfs_rmdir`** -/
theorem FsOk.remove (h : FsOk C E D s H) (hCD : C → ∀ y, ¬D y) (hnull : ∀ y, D y → F .null)
    (hlong : (∃ x ∈ components p, maxPathLen ≤ x.length) → F .bounds) {op : Nid → Eid → FsM ℤ}
    {filesOnly : Bool} (hop : ∀ {s : Fs} {H : Multiset Eid} {e : Eid} {dir : Nid}, FsOk C E D s H →
      s.live e = true → (s.entry (s.entry e).parent).node = some dir → s.kind dir = .dir →
      (C → (s.entry e).cached = true) →
      Ensures (op dir e) s fun rc s' => Removed C E D H dir e filesOnly s s' rc) :
    EnsuresOr F (vfsRemove op p) s fun rc s' => FsOk C E D s' H ∧ KeptUp H s s' ∧
      Evolved (fun _ => False) s s' ∧
      (C → Deep p → rc = -ENOMEM ∨ s.tree.remove p filesOnly = (rc, s'.tree)) ∧
      (C → s'.tree = s.tree ∨ ∃ m, (filesOnly = true → s.kind m = .file) ∧ Removes s p m s'.tree) := by
  unfold vfsRemove
  rw [ensuresOr_bind]
  refine (h.resolve hCD hnull hlong).with_run.mono ?_
  rintro ⟨o, rc⟩ s₁ ⟨hrun, ht₁, hk₁, hcase⟩
  dsimp only at hcase
  rcases hcase with ⟨rfl, -, h₁, herr⟩ | ⟨e, rfl, h₁, hplaced, c, hcached⟩
  · refine ensuresOr_pure.2 ⟨h₁, hk₁.up, ht₁.evolved, fun hC hp => (herr hC hp.undotted).imp id fun he => ?_,
      fun _ => Or.inl ht₁.tree⟩
    rw [ht₁.tree, Tree.remove, he]
  have he : s₁.live e = true := h₁.entries.held e (Multiset.mem_cons_self _ _)
  dsimp only
  simp only [ensuresOr_bind, ensuresOr_get]
  refine ensuresOr_nodeOf (fun hn => hnull _ (h₁.entries.positive _ (h₁.entries.closed e he) hn))
    fun n hn => ?_
  -- where the entry is, and what it is called
  have hplace : C → Deep p → Child s₁ (s₁.entry e).parent ((components p).getLastD []) e ∧
      s.tree.walk rootNode (components p).dropLast = .ok n ∧
      ∃ m, s.tree.walk rootNode (components p) = .ok m ∧ (s₁.entry e).node = some m := by
    intro hC hp
    obtain ⟨m, hm⟩ := hplaced hC hp.undotted
    rcases hm.last with ⟨hnil, -⟩ | ⟨c', y, q, hc, hw, hchild, hq⟩
    · exact absurd hnil hp.ne_nil
    · have hqn : q = n := Option.some.inj (hq.symm.trans hn)
      refine ⟨?_, ?_, m, ht₁.tree ▸ hm.walk, hm.node⟩
      · rw [hc, List.getLastD_concat]
        exact hchild
      · rw [hc, List.dropLast_concat, ← hqn]
        exact ht₁.tree ▸ hw
  by_cases hdir : s₁.kind n = .dir
  swap
  · rw [if_pos hdir, ensuresOr_bind]
    refine h₁.put.ensuresOr.mono fun _ s₂ hr => ?_
    obtain ⟨h₂, hk₂, ht₂⟩ := hr
    refine ensuresOr_pure.2 ⟨h₂, (hk₁.trans hk₂).up, (ht₁.trans ht₂).evolved, fun hC hp => Or.inr ?_,
      fun _ => Or.inl (ht₁.trans ht₂).tree⟩
    obtain ⟨-, hw, m, hm, -⟩ := hplace hC hp
    rw [(ht₁.trans ht₂).tree, Tree.remove, hm, hw]
    exact if_pos fun hc => hdir ((congrFun ht₁.kind n).trans hc)
  have hkind : s.tree.kind n = .dir := (congrFun ht₁.kind n).symm.trans hdir
  -- an entry below a directory of `ramfs` is cached there
  obtain ⟨c', x, hparent, hchild, hnamed⟩ : ∃ c' x, CachedAt s₁ c' (s₁.entry e).parent ∧
      Child s₁ (s₁.entry e).parent x e ∧ Named x := by
    cases hcached with
    | root =>
      rw [h₁.entries.root_parent, h₁.entries.root_node] at hn
      rw [← Option.some.inj hn, h₁.nodes.root_kind] at hdir
      cases hdir
    | child hparent hchild _ hnamed => exact ⟨_, _, hparent, hchild, hnamed⟩
  rw [if_neg (not_not.2 hdir), ensuresOr_bind]
  refine (hop h₁ he hn hdir fun _ => hchild.cached).ensuresOr.mono ?_
  intro rc s₂ h₂
  rw [ensuresOr_bind]
  refine h₂.ok.put.ensuresOr.mono fun _ s₃ hr => ?_
  obtain ⟨h₃, hk₃, ht₃⟩ := hr
  have hk : KeptUp H s s₃ :=
    (hk₁.up.trans (h₂.kept.mono (Multiset.subset_cons _ _))).trans hk₃.up
  have htree : ∀ m, C → (s₁.entry e).node = some m → (s.names n).lookup x = some m ∧
      if filesOnly = true ∧ s.kind m ≠ .file then rc = -ENOTSUP ∧ s₃.tree = s.tree
      else rc = 0 ∧ s₃.tree = s.tree.unlink n x := by
    intro m hC hnode
    have hfound := (h₁.coherent hC).found e n m he hchild.cached hn hnode
    rw [Fs.find, hdir] at hfound
    have := h₂.tree m hnode fun hc => by cases hc.symm.trans hfound
    rw [hchild.name, ht₁.tree, ht₁.kind, ← ht₃.tree] at this
    rw [hchild.name] at hfound
    exact ⟨ht₁.names ▸ hfound, this⟩
  refine ensuresOr_pure.2 ⟨h₃, hk, (h₂.evolved.before ht₁).after ht₃, fun hC hp => Or.inr ?_, fun hC => ?_⟩
  · obtain ⟨hlast, hw, m, hm, hnode⟩ := hplace hC hp
    have htm := (htree m hC hnode).2
    rw [← hchild.name, hlast.name] at htm
    rw [Tree.remove, hm, hw]
    dsimp only
    rw [if_neg (not_not.2 hkind)]
    have hkm : s.kind m = s.tree.kind m := rfl
    rw [hkm] at htm
    split_ifs at htm with hcond
    · rw [if_pos hcond, htm.1, htm.2]
    · rw [if_neg hcond, htm.1, htm.2]
  · cases hnode : (s₁.entry e).node with
    | none => exact absurd (h₁.entries.positive e he hnode) (hCD hC e)
    | some m =>
      obtain ⟨hfound, htm⟩ := htree m hC hnode
      split_ifs at htm with hcond
      · exact Or.inl htm.2
      · refine Or.inr ⟨m, fun hfiles => by_contra fun hc => hcond ⟨hfiles, hc⟩, n, x,
          ⟨e, _, s₁, hrun, hnode, hn⟩, ⟨⟨c', hparent.plainPath, ?_⟩, hkind, hnamed⟩, hfound, htm.2⟩
        rw [← ht₁.tree]
        exact hparent.walk h₁ hC (hCD hC) hn

end

end Vfs

end Kernel64
