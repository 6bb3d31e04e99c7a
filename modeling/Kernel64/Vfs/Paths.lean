import Kernel64.Vfs.Lookup
import Kernel64.Vfs.Reference

/-!
# Walking along a path

A walk holds the entry that it has come to. While the entries are coherent it is the entry of the node that
the directory trees give for the components so far (`Placed`), unless a component is `.` or `..`.
-/

namespace Kernel64

namespace Vfs

/-! ### Components -/

theorem components_slash (p : List Char) : components ('/' :: p) = components p := by
  unfold components List.splitOn
  rw [List.splitOnP_cons_eq_if_modifyHead]
  simp

theorem components_skipSep (p : List Char) : components (vfsPathSkipSep p) = components p := by
  unfold vfsPathSkipSep
  induction p with
  | nil => rfl
  | cons c p ih =>
    by_cases hc : c = '/'
    · subst hc
      rw [List.dropWhile_cons_of_pos (by decide), ih, components_slash]
    · rw [List.dropWhile_cons_of_neg (by simpa using hc)]

/-- The first component of a path, and the path after it. -/
theorem components_eq {p : List Char} (hhead : p.head? ≠ some '/') (hp : p ≠ []) :
    components p = p.takeWhile (· ≠ '/') :: components (p.dropWhile (· ≠ '/')) := by
  have hmem : ∀ c ∈ p.takeWhile (· ≠ '/'), (c == '/') = false := by
    intro c hc
    have := List.all_eq_true.1 (List.all_takeWhile (p := (· ≠ '/')) (l := p)) c hc
    simpa using this
  have hne : p.takeWhile (· ≠ '/') ≠ [] := by
    cases p with
    | nil => exact absurd rfl hp
    | cons c p =>
      have hc : c ≠ '/' := fun hc => hhead (by rw [hc]; rfl)
      rw [List.takeWhile_cons_of_pos (by simpa using hc)]
      exact List.cons_ne_nil _ _
  have hsplit := List.takeWhile_append_dropWhile (p := (· ≠ '/')) (l := p)
  cases hd : p.dropWhile (· ≠ '/') with
  | nil =>
    rw [hd, List.append_nil] at hsplit
    conv_lhs => rw [← hsplit]
    unfold components List.splitOn
    rw [List.splitOnP_eq_singleton hmem, List.filter_cons_of_pos (by simpa using hne)]
    rfl
  | cons c q =>
    have hc : c = '/' := by
      have := List.head?_dropWhile_not (p := (· ≠ '/')) (l := p)
      rw [hd] at this
      simpa using this
    subst hc
    rw [hd] at hsplit
    conv_lhs => rw [← hsplit]
    rw [components_slash]
    unfold components List.splitOn
    rw [List.splitOnP_append_cons_of_forall_mem hmem '/' (by decide),
      List.filter_cons_of_pos (by simpa using hne)]

/-- A name that a path can give. -/
structure Named (x : Name) : Prop where
  ne_nil : x ≠ []
  slash : '/' ∉ x
  short : x.length < maxPathLen

/-- The components that a walk has still to take. -/
def Walk.rest (w : Walk) : List Name := if w.next = [] then [] else w.next :: components w.tail

/-- A walk has read a component, unless there is none. -/
structure Walk.Ok (w : Walk) : Prop where
  done : w.next = [] → w.tail = []
  head : w.tail.head? ≠ some '/'
  named : w.next ≠ [] → Named w.next

theorem skipSep_head (p : List Char) : (vfsPathSkipSep p).head? ≠ some '/' := by
  intro hc
  have := List.head?_dropWhile_not (p := (· = '/')) (l := p)
  unfold vfsPathSkipSep at hc
  rw [hc] at this
  simp at this

section

variable {C E : Prop} {D : Eid → Prop} {s s' s'' : Fs} {H H' : Multiset Eid} {e d : Eid} {n m : Nid}
  {x : Name} {F : Fault → Prop} {w : Walk} {p : List Char} {c : List Name}

theorem components_nil_iff (hhead : p.head? ≠ some '/') : components p = [] ↔ p = [] := by
  constructor
  · intro hc
    by_contra hp
    rw [components_eq hhead hp] at hc
    exact nomatch hc
  · rintro rfl
    rfl

/-- Reading the next component: it is too long for the buffer, or it is read. -/
theorem nextEntry_cases (hhead : p.head? ≠ some '/') :
    (∃ x l, components p = x :: l ∧ maxPathLen ≤ x.length ∧ vfsPathNextEntry p = throw .bounds) ∨
    ∃ next tail, vfsPathNextEntry p = pure (next, tail) ∧ (next = [] → tail = []) ∧ tail.head? ≠ some '/' ∧
      (next ≠ [] → Named next) ∧ (if next = [] then [] else next :: components tail) = components p ∧
      tail.length + (if next = [] then 0 else 1) ≤ p.length := by
  unfold vfsPathNextEntry
  by_cases hp : p = []
  · subst hp
    rw [if_pos (by decide)]
    exact Or.inr ⟨[], [], rfl, fun _ => rfl, nofun, fun hc => absurd rfl hc, rfl, Nat.le_refl _⟩
  · have hcomp := components_eq hhead hp
    have hne : p.takeWhile (· ≠ '/') ≠ [] := by
      intro hc
      have hfil : p.takeWhile (· ≠ '/') ∈ components p := hcomp ▸ List.mem_cons_self
      rw [hc, components] at hfil
      simp at hfil
    dsimp only
    split
    · next hshort =>
      have hslash : '/' ∉ p.takeWhile (· ≠ '/') := fun hc => by
        have := List.all_eq_true.1 (List.all_takeWhile (p := (· ≠ '/')) (l := p)) '/' hc
        exact nomatch this
      refine Or.inr ⟨_, _, rfl, fun hc => absurd hc hne, skipSep_head _, fun _ => ⟨hne, hslash, hshort⟩, ?_, ?_⟩
      · rw [if_neg hne, components_skipSep]
        exact hcomp.symm
      · rw [if_neg hne]
        have hlen := congrArg List.length (List.takeWhile_append_dropWhile (p := (· ≠ '/')) (l := p))
        rw [List.length_append] at hlen
        have hpos := List.length_pos_of_ne_nil hne
        have hle : (vfsPathSkipSep (p.dropWhile (· ≠ '/'))).length ≤ (p.dropWhile (· ≠ '/')).length :=
          (List.dropWhile_suffix _).length_le
        omega
    · next hshort => exact Or.inl ⟨_, _, hcomp, by omega, rfl⟩

@[inherit_doc nextEntry_cases]
theorem ensuresOr_nextEntry (hhead : p.head? ≠ some '/')
    (hlong : (∃ x ∈ components p, maxPathLen ≤ x.length) → F .bounds) {Q : Name × List Char → Fs → Prop}
    (hQ : ∀ next tail, (next = [] → tail = []) → tail.head? ≠ some '/' → (next ≠ [] → Named next) →
      (if next = [] then [] else next :: components tail) = components p →
      tail.length + (if next = [] then 0 else 1) ≤ p.length → Q (next, tail) s) :
    EnsuresOr F (vfsPathNextEntry p) s Q := by
  rcases nextEntry_cases hhead with ⟨x, l, hcomp, hlen, hread⟩ | ⟨next, tail, hread, hdone, htail, hnamed, hrest, hle⟩
  · rw [hread, ensuresOr_throw]
    exact hlong ⟨x, hcomp ▸ List.mem_cons_self, hlen⟩
  · rw [hread, ensuresOr_pure]
    exact hQ next tail hdone htail hnamed hrest hle

/-! ### Walks on the directory trees -/

theorem SameTree.tree (h : SameTree s s') : s'.tree = s.tree := by
  unfold Fs.tree
  rw [h.kind, h.names, h.mounts, h.nodeSupply]

theorem tree_find : s.tree.find n x = s.find n x := rfl

theorem Tree.walk_append {t : Tree} {c' : List Name} : ∀ {c : List Name} {n : Nid},
    t.walk n (c ++ c') = match t.walk n c with
      | .error rc => .error rc
      | .ok m => t.walk m c'
  | [], _ => rfl
  | x :: c, n => by
    rw [List.cons_append, Tree.walk, Tree.walk]
    cases t.look n x with
    | error rc => rfl
    | ok m => exact Tree.walk_append

theorem Tree.walk_snoc {t : Tree} (hc : t.walk n c = .ok m) : t.walk n (c ++ [x]) = t.look m x := by
  rw [Tree.walk_append, hc]
  dsimp only
  rw [Tree.walk]
  cases t.look m x <;> rfl

/-- The entry `e` is the one of the components `c`, whose node is `m`. -/
structure Placed (s : Fs) (c : List Name) (e : Eid) (m : Nid) : Prop where
  walk : s.tree.walk rootNode c = .ok m
  node : (s.entry e).node = some m
  last : (c = [] ∧ e = rootEntry) ∨ ∃ c' x n, c = c' ++ [x] ∧ s.tree.walk rootNode c' = .ok n ∧
    Child s (s.entry e).parent x e ∧ (s.entry (s.entry e).parent).node = some n

/-- A component that is looked up. -/
def Plain (x : Name) : Prop := x ≠ [] ∧ x ≠ ['.'] ∧ x ≠ ['.', '.']

/-- The entry `e` is cached at the components `c`, and so are all those above it. -/
inductive CachedAt (s : Fs) : List Name → Eid → Prop
  | root : CachedAt s [] rootEntry
  | child {c : List Name} {x : Name} {e : Eid} : CachedAt s c (s.entry e).parent →
      Child s (s.entry e).parent x e → Plain x → Named x → CachedAt s (c ++ [x]) e

theorem CachedAt.kept (h : CachedAt s c e) (hk : Kept H s s') (he : Supported s H e)
    (hs' : FsOk C E D s' H') (hsub : H ⊆ H') : CachedAt s' c e := by
  induction h with
  | root => exact .root
  | @child c x e _ hchild hplain hnamed ih =>
    have hal := hk e he
    rw [← hal.parent] at ih
    refine .child (ih (hal.parent ▸ he.parent)) ⟨?_, rfl, ?_, ?_⟩ hplain hnamed
    · exact hs'.entries.mem_of_supported ((he.kept hk.up).mono hsub)
    · exact hal.name.trans hchild.name
    · exact hal.cached.trans hchild.cached

theorem CachedAt.parent (h : CachedAt s c e) (hs : FsOk C E D s H) :
    CachedAt s c.dropLast (s.entry e).parent := by
  cases h with
  | root =>
    rw [hs.entries.root_parent]
    exact .root
  | child hp _ _ _ =>
    rw [List.dropLast_concat]
    exact hp

/-- The components lead through the trees as they are, each of them a name to be looked up. -/
def PlainPath (c : List Name) : Prop := ∀ x ∈ c, Plain x ∧ Named x

theorem CachedAt.plainPath (h : CachedAt s c e) : PlainPath c := by
  induction h with
  | root => exact fun _ hx => (nomatch hx)
  | child _ _ hplain hnamed ih =>
    intro y hy
    rcases List.mem_append.1 hy with hy | hy
    · exact ih y hy
    · rw [List.mem_singleton.1 hy]
      exact ⟨hplain, hnamed⟩

/-- The node of a cached entry is the one that its components lead to. -/
theorem CachedAt.walk (h : CachedAt s c e) (hs : FsOk C E D s H) (hC : C) (hD : ∀ y, ¬D y)
    (hm : (s.entry e).node = some m) : s.tree.walk rootNode c = .ok m := by
  induction h generalizing m with
  | root =>
    rw [hs.entries.root_node] at hm
    exact congrArg _ (Option.some.inj hm)
  | @child c x e _ hchild _ _ ih =>
    have hlive := hs.entries.closed e hchild.live
    cases hn : (s.entry (s.entry e).parent).node with
    | none => exact absurd (hs.entries.positive _ hlive hn) (hD _)
    | some n =>
      have hfound := (hs.coherent hC).found e n m hchild.live hchild.cached hn hm
      rw [hchild.name] at hfound
      rw [Tree.walk_snoc (ih hn), Tree.look, tree_find, hfound]
      refine if_neg fun hfile => ?_
      have hkind : s.kind n = .file := hfile
      rw [Fs.find, hkind] at hfound
      exact nomatch hfound

theorem FsOk.placed_root (h : FsOk C E D s H) : Placed s [] rootEntry rootNode :=
  ⟨rfl, h.entries.root_node, Or.inl ⟨rfl, rfl⟩⟩

theorem Placed.kept (h : Placed s c e m) (ht : SameTree s s') (hk : Kept H s s')
    (he : Supported s H e) (hs' : FsOk C E D s' H) : Placed s' c e m := by
  have hal := hk e he
  refine ⟨ht.tree ▸ h.walk, hal.node.trans h.node, ?_⟩
  refine h.last.imp id ?_
  intro ⟨c', x, n, hc, hw, hchild, hn⟩
  refine ⟨c', x, n, hc, ht.tree ▸ hw, ⟨?_, rfl, ?_, ?_⟩, ?_⟩
  · exact hs'.entries.mem_of_supported (he.kept hk.up)
  · exact hal.name.trans hchild.name
  · exact hal.cached.trans hchild.cached
  · rw [hal.parent]
    exact (hk _ he.parent).node.trans hn

/-- The walk has taken a component. -/
structure Walk.On (w w' : Walk) : Prop where
  next : w.next ≠ []
  ok : w'.Ok
  rest : w'.rest = components w.tail
  shorter : w'.tail.length + (if w'.next = [] then 0 else 1) ≤ w.tail.length

/-- What a step of a walk gives. -/
structure Walked (C E : Prop) (D : Eid → Prop) (H : Multiset Eid) (s : Fs) (w : Walk) (s' : Fs)
    (rc : ℤ) (w' : Walk) : Prop where
  ok : FsOk C E D s' (w'.entry ::ₘ H)
  tree : SameTree s s'
  kept : Kept H s s'
  on : (rc = 0 ∧ w.On w') ∨ (rc ≠ 0 ∧ w' = w)
  placed : C → ∀ c n, Placed s c w.entry n → Plain w.next →
    (rc = 0 → ∃ m, Placed s' (c ++ [w.next]) w'.entry m) ∧
    (rc ≠ 0 → rc = -ENOMEM ∨ s.tree.look n w.next = .error rc)
  cached : ∀ c, CachedAt s c w.entry → rc = 0 → ∃ c', CachedAt s' c' w'.entry

theorem FsOk.walk (h : FsOk C E D s (w.entry ::ₘ H)) (hw : w.Ok) (hCD : C → ∀ y, ¬D y)
    (hnull : ∀ y, D y → F .null)
    (hlong : (∃ x ∈ components w.tail, maxPathLen ≤ x.length) → F .bounds) :
    EnsuresOr F (vfsWalk w) s fun r s' => Walked C E D H s w s' r.1 r.2 := by
  have hlive : s.live w.entry = true := h.entries.held _ (Multiset.mem_cons_self _ _)
  unfold vfsWalk
  by_cases hnil : w.next = []
  · rw [if_pos hnil]
    exact ensuresOr_pure.2 ⟨h, SameTree.refl s, Kept.refl H s, Or.inr ⟨show -ENOENT ≠ 0 by decide, rfl⟩,
      fun _ _ _ _ hp => absurd hnil hp.1, fun c hc _ => ⟨c, hc⟩⟩
  rw [if_neg hnil]
  -- `.` stays, and `..` takes the parent of the entry, which for the root is the root
  by_cases hdot : w.next = ['.']
  · rw [if_pos hdot, ensuresOr_bind]
    refine ensuresOr_nextEntry hw.head hlong fun next tail hdone hhead hnamed hrest hlen => ?_
    exact ensuresOr_pure.2 ⟨h, SameTree.refl s, Kept.refl H s,
      Or.inl ⟨rfl, hnil, ⟨hdone, hhead, hnamed⟩, hrest, hlen⟩, fun _ _ _ _ hp => absurd hdot hp.2.1,
      fun c hc _ => ⟨c, hc⟩⟩
  rw [if_neg hdot]
  by_cases hdots : w.next = ['.', '.']
  · rw [if_pos hdots]
    unfold vfsEntryGet
    simp only [ensuresOr_bind, ensuresOr_get, ensuresOr_modify]
    have hget := h.get (h.entries.closed _ hlive)
    rw [Multiset.cons_swap] at hget
    refine hget.put.ensuresOr.mono ?_
    rintro _ s' ⟨h', hk, ht⟩
    refine ensuresOr_nextEntry hw.head hlong fun next tail hdone hhead hnamed hrest hlen => ?_
    have hk' := kept_addRefs.trans hk
    refine ensuresOr_pure.2 ⟨h', sameTree_addRefs.trans ht, hk'.mono (Multiset.subset_cons _ _),
      Or.inl ⟨rfl, hnil, ⟨hdone, hhead, hnamed⟩, hrest, hlen⟩, fun _ _ _ _ hp => absurd hdots hp.2.2, ?_⟩
    intro c hc _
    exact ⟨c.dropLast, (hc.parent h).kept hk' (.held (Multiset.mem_cons_self _ _)) h' (Multiset.Subset.refl _)⟩
  rw [if_neg hdots, ensuresOr_bind]
  have hD : (s.entry w.entry).node = none → F .null :=
    fun hnone => hnull _ (h.entries.positive _ hlive hnone)
  refine ensuresOr_nodeOf hD fun _ _ => ?_
  rw [ensuresOr_bind]
  refine (h.lookup hlive hCD hD false).mono ?_
  rintro ⟨o, rc⟩ s₁ ⟨ht₁, hk₁, n, hn, hlook⟩
  dsimp only at hlook
  have hplaced : ∀ c n', Placed s c w.entry n' → n' = n := fun c n' hp =>
    Option.some.inj (hp.node.symm.trans hn)
  have hfail : ∀ {rc}, FsOk C E D s₁ (w.entry ::ₘ H) → rc ≠ 0 →
      (rc = -ENOMEM ∨ s.tree.look n w.next = .error rc) → Walked C E D H s w s₁ rc w := by
    intro rc h₁ hrc hc
    refine ⟨h₁, ht₁, hk₁.mono (Multiset.subset_cons _ _), Or.inr ⟨hrc, rfl⟩, ?_,
      fun _ _ h0 => absurd h0 hrc⟩
    intro _ c n' hp _
    rw [hplaced c n' hp]
    exact ⟨fun h0 => absurd h0 hrc, fun _ => hc⟩
  -- the walk only stops at an entry that has a node
  cases hlook with
  | file h₁ hkind => exact ensuresOr_pure.2 (hfail h₁ (show -ENOTSUP ≠ 0 by decide) (Or.inr (if_pos hkind)))
  | memory h₁ hkind => exact ensuresOr_pure.2 (hfail h₁ (show -ENOMEM ≠ 0 by decide) (Or.inl rfl))
  | absent h₁ hkind _ hfind =>
    refine ensuresOr_pure.2 (hfail h₁ (show -ENOENT ≠ 0 by decide) (Or.inr ((if_neg hkind).trans ?_)))
    rw [tree_find, hfind]
  | missing _ _ hc => cases hc
  | @found e h₁ hkind hchild hfound =>
    dsimp only
    rw [ensuresOr_bind]
    -- the reference moves from the directory to the entry that was found
    rw [Multiset.cons_swap] at h₁
    refine h₁.put.ensuresOr.mono ?_
    rintro _ s₂ ⟨h₂, hk₂, ht₂⟩
    rw [ensuresOr_bind]
    refine ensuresOr_nextEntry hw.head hlong fun next tail hdone hhead hnamed hrest hlen => ?_
    have hsup : Supported s₁ (e ::ₘ H) e := .held (Multiset.mem_cons_self _ _)
    have hal := hk₂ e hsup
    have hpar := hk₂ _ hsup.parent
    have hwe := hk₁ w.entry (.held (Multiset.mem_cons_self _ _))
    refine ensuresOr_pure.2 ⟨h₂, ht₁.trans ht₂, ?_,
      Or.inl ⟨rfl, hnil, ⟨hdone, hhead, hnamed⟩, hrest, hlen⟩, ?_, ?_⟩
    · exact (hk₁.mono (Multiset.subset_cons _ _)).trans (hk₂.mono (Multiset.subset_cons _ _))
    · intro hC c n' hp _
      refine ⟨fun _ => ?_, fun hc => absurd rfl hc⟩
      have hn' := hplaced c n' hp
      subst hn'
      cases hm : (s₁.entry e).node with
      | none => exact absurd (h₁.entries.positive e hchild.live hm) (hCD hC e)
      | some m =>
        have hlk : s.tree.look n' w.next = .ok m := by
          refine (if_neg hkind).trans ?_
          rw [tree_find, hfound hC m hm]
        have htree : s₂.tree = s.tree := (ht₁.trans ht₂).tree
        refine ⟨m, ?_, hal.node.trans hm, Or.inr ⟨c, w.next, n', rfl, ?_, ⟨?_, rfl, ?_, ?_⟩, ?_⟩⟩
        · rw [htree, Tree.walk_snoc hp.walk]
          exact hlk
        · rw [htree]
          exact hp.walk
        · exact h₂.entries.held _ (Multiset.mem_cons_self _ _)
        · exact hal.name.trans hchild.name
        · exact hal.cached.trans hchild.cached
        · rw [hal.parent, hpar.node, hchild.parent, hwe.node]
          exact hn
    · intro c hc _
      have hc₁ := hc.kept hk₁ (.held (Multiset.mem_cons_self _ _)) h₁
        (Multiset.cons_subset_cons (Multiset.subset_cons _ _))
      rw [← hchild.parent] at hc₁
      have hchild' : Child s₁ (s₁.entry e).parent w.next e := by
        rw [hchild.parent]
        exact hchild
      exact ⟨_, (hc₁.child hchild' ⟨hnil, hdot, hdots⟩ (hw.named hnil)).kept hk₂ hsup h₂
        (Multiset.Subset.refl _)⟩

/-- No component is `.` or `..`. -/
def Undotted (c : List Name) : Prop := ∀ x ∈ c, x ≠ ['.'] ∧ x ≠ ['.', '.']

/-- What a walk up to a place where `stop` holds gives; it takes the components `c`. -/
structure WalkedTo (C E : Prop) (D : Eid → Prop) (H : Multiset Eid) (stop : Walk → Bool) (s : Fs)
    (w : Walk) (s' : Fs) (rc : ℤ) (w' : Walk) (c : List Name) : Prop where
  ok : FsOk C E D s' (w'.entry ::ₘ H)
  tree : SameTree s s'
  kept : Kept H s s'
  walk : w'.Ok
  rest : w.rest = c ++ w'.rest
  came : (c = [] ∧ w' = w) ∨ ∃ w₀ : Walk, w₀.Ok ∧ stop w₀ = false ∧ w'.rest = components w₀.tail
  stop_iff : rc = 0 ↔ stop w' = true
  placed : C → ∀ c₀ n, Placed s c₀ w.entry n →
    (rc = 0 → Undotted c → ∃ m, Placed s' (c₀ ++ c) w'.entry m) ∧
    (rc ≠ 0 → Undotted (c ++ [w'.next]) →
      rc = -ENOMEM ∨ s.tree.walk rootNode (c₀ ++ c ++ [w'.next]) = .error rc)
  cached : ∀ c₀, CachedAt s c₀ w.entry → rc = 0 → ∃ c', CachedAt s' c' w'.entry

theorem Walk.Ok.mem_rest (hw : w.Ok) (hx : x ∈ components w.tail) : x ∈ w.rest := by
  unfold Walk.rest
  split
  · next hnil =>
    rw [hw.done hnil] at hx
    exact hx
  · exact List.mem_cons_of_mem _ hx

theorem Walk.rest_eq (hnext : w.next ≠ []) : w.rest = w.next :: components w.tail := if_neg hnext

theorem FsOk.walkUntil {stop : Walk → Bool} (μ : Walk → ℕ) (hCD : C → ∀ y, ¬D y)
    (hnull : ∀ y, D y → F .null) (hstop : ∀ w : Walk, w.Ok → stop w = false → w.next ≠ [])
    (hμ : ∀ w w' : Walk, stop w = false → w.On w' → μ w' < μ w) : ∀ (fuel : ℕ) {s : Fs} {w : Walk},
    FsOk C E D s (w.entry ::ₘ H) → w.Ok → μ w < fuel →
    ((∃ x ∈ components w.tail, maxPathLen ≤ x.length) → F .bounds) →
    EnsuresOr F (vfsWalkUntil stop fuel w) s fun r s' =>
      ∃ c, WalkedTo C E D H stop s w s' r.1 r.2 c := by
  intro fuel
  induction fuel with
  | zero => exact fun _ _ hfuel => absurd hfuel (Nat.not_lt_zero _)
  | succ fuel ih =>
    intro s w h hw hfuel hlong
    unfold vfsWalkUntil
    cases hs : stop w with
    | true =>
      refine ensuresOr_pure.2 ⟨[], h, SameTree.refl s, Kept.refl H s, hw, rfl,
        Or.inl ⟨rfl, rfl⟩, iff_of_true rfl hs, ?_, fun c₀ hc _ => ⟨c₀, hc⟩⟩
      intro _ c₀ n hp
      rw [List.append_nil]
      exact ⟨fun _ _ => ⟨n, hp⟩, fun hc => absurd rfl hc⟩
    | false =>
      have hnext := hstop w hw hs
      rw [if_neg Bool.false_ne_true, ensuresOr_bind]
      refine (h.walk hw hCD hnull hlong).mono ?_
      intro ⟨rc, w₁⟩ s₁ h₁
      dsimp only at h₁ ⊢
      have hplain : ∀ {c : List Name}, Undotted (w.next :: c) → Plain w.next := fun hu =>
        ⟨hnext, hu w.next List.mem_cons_self⟩
      rcases h₁.on with ⟨hrc, hon⟩ | ⟨hrc, hw₁⟩
      · -- one component was taken, and the rest by induction
        rw [if_neg (not_not.2 hrc)]
        have hlong₁ : (∃ x ∈ components w₁.tail, maxPathLen ≤ x.length) → F .bounds :=
          fun ⟨x, hx, hlen⟩ => hlong ⟨x, hon.rest ▸ hon.ok.mem_rest hx, hlen⟩
        have hlt := hμ w w₁ hs hon
        refine (ih h₁.ok hon.ok (by omega) hlong₁).mono ?_
        intro ⟨rc', w₂⟩ s₂ ⟨c, h₂⟩
        refine ⟨w.next :: c, h₂.ok, h₁.tree.trans h₂.tree, h₁.kept.trans h₂.kept, h₂.walk, ?_,
          Or.inr ?_, h₂.stop_iff, ?_, ?_⟩
        · rw [Walk.rest_eq hnext, ← hon.rest, h₂.rest]
          rfl
        · rcases h₂.came with ⟨rfl, -⟩ | hcame
          · exact ⟨w, hw, hs, h₂.rest.symm.trans hon.rest⟩
          · exact hcame
        · intro hC c₀ n hp
          have hafter : Plain w.next → ∃ m, Placed s₁ (c₀ ++ [w.next]) w₁.entry m :=
            fun hpl => (h₁.placed hC c₀ n hp hpl).1 hrc
          refine ⟨fun hrc' hu => ?_, fun hrc' hu => ?_⟩
          · obtain ⟨m, hp₁⟩ := hafter (hplain hu)
            have := (h₂.placed hC (c₀ ++ [w.next]) m hp₁).1 hrc' fun x hx =>
              hu x (List.mem_cons_of_mem _ hx)
            rwa [List.append_assoc, List.singleton_append] at this
          · obtain ⟨m, hp₁⟩ := hafter (hplain hu)
            have := (h₂.placed hC (c₀ ++ [w.next]) m hp₁).2 hrc' fun x hx =>
              hu x (List.mem_cons_of_mem _ hx)
            rwa [List.append_assoc c₀, List.singleton_append, h₁.tree.tree] at this
        · intro c₀ hc hrc'
          obtain ⟨c₁, hc₁⟩ := h₁.cached c₀ hc hrc
          exact h₂.cached c₁ hc₁ hrc'
      · -- the walk fails where the lookup does
        rw [if_pos hrc]
        subst hw₁
        refine ensuresOr_pure.2 ⟨[], h₁.ok, h₁.tree, h₁.kept, hw, rfl, Or.inl ⟨rfl, rfl⟩, ?_, ?_,
          fun _ _ h0 => absurd h0 hrc⟩
        · exact iff_of_false hrc (by rw [hs]; exact Bool.false_ne_true)
        · intro hC c₀ n hp
          rw [List.append_nil]
          refine ⟨fun h0 => absurd h0 hrc, fun _ hu => ?_⟩
          rw [Tree.walk_snoc hp.walk]
          exact (h₁.placed hC c₀ n hp (hplain hu)).2 hrc

/-- Less is left to read. -/
theorem Walk.On.tail_lt {w' : Walk} (hon : w.On w') (htail : w.tail ≠ []) : w'.tail.length < w.tail.length := by
  have hshort := hon.shorter
  by_cases hnil : w'.next = []
  · -- then nothing was left to read
    have hpos := List.length_pos_of_ne_nil htail
    rw [hon.ok.done hnil]
    exact hpos
  · rw [if_neg hnil] at hshort
    exact hshort

theorem Walk.On.rest_lt {w' : Walk} (hon : w.On w') :
    (w'.tail.length + if w'.next = [] then 0 else 1) < w.tail.length + if w.next = [] then 0 else 1 := by
  have hshort := hon.shorter
  rw [if_neg hon.next]
  omega

/-- The components of a path, but for the last, and the last one. -/
theorem FsOk.walkParent (h : FsOk C E D s (w.entry ::ₘ H)) (hw : w.Ok) (hCD : C → ∀ y, ¬D y)
    (hnull : ∀ y, D y → F .null)
    (hlong : (∃ x ∈ components w.tail, maxPathLen ≤ x.length) → F .bounds) :
    EnsuresOr F (vfsWalkParent w) s fun r s' =>
      ∃ c, WalkedTo C E D H (·.tail = []) s w s' r.1 r.2 c := by
  unfold vfsWalkParent
  refine FsOk.walkUntil (fun w => w.tail.length) hCD hnull ?_ ?_ _ h hw (Nat.lt_succ_self _) hlong
  · intro w' hw' hs hnil
    exact absurd (hw'.done hnil) (by simpa using hs)
  · exact fun w₁ w₂ hs hon => hon.tail_lt (by simpa using hs)

theorem FsOk.walkAll (h : FsOk C E D s (w.entry ::ₘ H)) (hw : w.Ok) (hCD : C → ∀ y, ¬D y)
    (hnull : ∀ y, D y → F .null)
    (hlong : (∃ x ∈ components w.tail, maxPathLen ≤ x.length) → F .bounds) :
    EnsuresOr F (vfsWalkAll w) s fun r s' =>
      ∃ c, WalkedTo C E D H (·.next = []) s w s' r.1 r.2 c := by
  unfold vfsWalkAll
  refine FsOk.walkUntil (fun w => w.tail.length + if w.next = [] then 0 else 1) hCD hnull ?_ ?_ _ h hw ?_
    hlong
  · intro w' _ hs
    simpa using hs
  · exact fun w₁ w₂ _ hon => hon.rest_lt
  · split_ifs <;> omega

/-- `vfs_walk_start` -/
theorem FsOk.walkStart (h : FsOk C E D s H)
    (hlong : (∃ x ∈ components p, maxPathLen ≤ x.length) → F .bounds) :
    EnsuresOr F (vfsWalkStart p) s fun w s' => FsOk C E D s' (w.entry ::ₘ H) ∧ SameTree s s' ∧
      Kept H s s' ∧ w.Ok ∧ w.entry = rootEntry ∧ w.rest = components p := by
  unfold vfsWalkStart vfsEntryGet
  simp only [ensuresOr_bind, ensuresOr_modify]
  refine ensuresOr_nextEntry (skipSep_head p) (by rw [components_skipSep]; exact hlong) ?_
  intro next tail hdone hhead hnamed hrest _
  rw [components_skipSep] at hrest
  exact ensuresOr_pure.2 ⟨h.get h.entries.root_mem, sameTree_addRefs, kept_addRefs, ⟨hdone, hhead, hnamed⟩, rfl,
    hrest⟩

/-- What walking to the directory of a path gives. -/
structure ToParent (C E : Prop) (D : Eid → Prop) (H : Multiset Eid) (p : List Char) (s s' : Fs) (rc : ℤ)
    (w : Walk) : Prop where
  ok : FsOk C E D s' (w.entry ::ₘ H)
  tree : SameTree s s'
  kept : Kept H s s'
  placed : C → Undotted (components p).dropLast → components p ≠ [] →
    (rc = 0 → w.next = (components p).getLastD [] ∧ ∃ m, Placed s' (components p).dropLast w.entry m) ∧
    (rc ≠ 0 → rc = -ENOMEM ∨ s.tree.walk rootNode (components p).dropLast = .error rc)
  cached : rc = 0 → ∃ c, CachedAt s' c w.entry
  named : rc = 0 → w.entry = rootEntry ∨ Named w.next

theorem Tree.walk_error {t : Tree} {rc : ℤ} {c' : List Name} (h : t.walk n c = .error rc) :
    t.walk n (c ++ c') = .error rc := by
  rw [Tree.walk_append, h]

/-- **Walking to the directory of a path.** -/
theorem FsOk.toParent (h : FsOk C E D s H) (hCD : C → ∀ y, ¬D y) (hnull : ∀ y, D y → F .null)
    (hlong : (∃ x ∈ components p, maxPathLen ≤ x.length) → F .bounds) :
    EnsuresOr F (vfsWalkStart p >>= vfsWalkParent) s fun r s' => ToParent C E D H p s s' r.1 r.2 := by
  rw [ensuresOr_bind]
  refine (h.walkStart hlong).mono ?_
  intro w₀ s₁ ⟨h₁, ht₁, hk₁, hw₀, hroot, hrest⟩
  have hlong₁ : (∃ x ∈ components w₀.tail, maxPathLen ≤ x.length) → F .bounds :=
    fun ⟨x, hx, hlen⟩ => hlong ⟨x, hrest ▸ hw₀.mem_rest hx, hlen⟩
  refine (h₁.walkParent hw₀ hCD hnull hlong₁).mono ?_
  intro ⟨rc, w⟩ s₂ ⟨c, h₂⟩
  have hcomp : components p = c ++ w.rest := hrest.symm.trans h₂.rest
  have hstop := h₂.stop_iff
  -- the walk has read a component, unless there is none
  have hread : w.next = [] → components p = [] ∧ w.entry = rootEntry := by
    intro hnil
    have hr : w.rest = [] := if_pos hnil
    rcases h₂.came with ⟨rfl, hw⟩ | ⟨w', hw', hs', hr'⟩
    · dsimp only at hw
      exact ⟨hcomp.trans hr, hw ▸ hroot⟩
    · have htail' : w'.tail ≠ [] := by simpa using hs'
      exact absurd ((components_nil_iff hw'.head).1 (hr'.symm.trans hr)) htail'
  refine ⟨h₂.ok, ht₁.trans h₂.tree, hk₁.trans h₂.kept, fun hC hu hne => ?_,
    h₂.cached [] (hroot ▸ .root), fun _ => ?_⟩
  swap
  · by_cases hnil : w.next = []
    · exact Or.inl (hread hnil).2
    · exact Or.inr (h₂.walk.named hnil)
  have hplaced := h₂.placed hC [] rootNode (hroot ▸ h₁.placed_root)
  rw [List.nil_append] at hplaced
  dsimp only at hplaced hstop ⊢
  by_cases hrc : rc = 0
  · have htail : w.tail = [] := by simpa using hstop.1 hrc
    have hnext : w.next ≠ [] := fun hnil => hne (hread hnil).1
    have hr : w.rest = [w.next] := by
      rw [Walk.rest_eq hnext, htail]
      rfl
    rw [hcomp, hr, List.dropLast_concat] at hu ⊢
    refine ⟨fun _ => ⟨?_, hplaced.1 hrc hu⟩, fun hc => absurd hrc hc⟩
    simp
  · refine ⟨fun hc => absurd hc hrc, fun _ => ?_⟩
    have htail : w.tail ≠ [] := fun hc => hrc (hstop.2 (by simpa using hc))
    have hnext : w.next ≠ [] := fun hc => htail (h₂.walk.done hc)
    have hmore : components w.tail ≠ [] := fun hc => htail ((components_nil_iff h₂.walk.head).1 hc)
    rw [hcomp, Walk.rest_eq hnext, List.dropLast_append_of_ne_nil (List.cons_ne_nil _ _),
      List.dropLast_cons_of_ne_nil hmore, ← List.singleton_append, ← List.append_assoc] at hu ⊢
    refine (hplaced.2 hrc fun x hx => hu x (List.mem_append_left _ hx)).imp id fun herr => ?_
    rw [ht₁.tree] at herr
    exact Tree.walk_error herr

/-- **`vfs_resolve_path`** -/
theorem FsOk.resolve (h : FsOk C E D s H) (hCD : C → ∀ y, ¬D y) (hnull : ∀ y, D y → F .null)
    (hlong : (∃ x ∈ components p, maxPathLen ≤ x.length) → F .bounds) :
    EnsuresOr F (vfsResolvePath p) s fun r s' => SameTree s s' ∧ Kept H s s' ∧
      ((r.1 = none ∧ r.2 ≠ 0 ∧ FsOk C E D s' H ∧ (C → Undotted (components p) →
        r.2 = -ENOMEM ∨ s.tree.walk rootNode (components p) = .error r.2)) ∨
      ∃ e, r.1 = some e ∧ FsOk C E D s' (e ::ₘ H) ∧ (C → Undotted (components p) →
        ∃ m, Placed s' (components p) e m) ∧ ∃ c, CachedAt s' c e) := by
  unfold vfsResolvePath
  rw [ensuresOr_bind]
  refine (h.walkStart hlong).mono ?_
  rintro w₀ s₁ ⟨h₁, ht₁, hk₁, hw₀, hroot, hrest⟩
  have hlong₁ : (∃ x ∈ components w₀.tail, maxPathLen ≤ x.length) → F .bounds := by
    rintro ⟨x, hx, hlen⟩
    exact hlong ⟨x, hrest ▸ hw₀.mem_rest hx, hlen⟩
  rw [ensuresOr_bind]
  refine (h₁.walkAll hw₀ hCD hnull hlong₁).mono ?_
  rintro ⟨rc, w⟩ s₂ ⟨c, h₂⟩
  have hplaced := fun hC => h₂.placed hC [] rootNode (hroot ▸ h₁.placed_root)
  simp only [List.nil_append] at hplaced
  have hcomp : components p = c ++ w.rest := hrest.symm.trans h₂.rest
  have hstop := h₂.stop_iff
  dsimp only at hplaced hstop ⊢
  unfold vfsWalkStop
  by_cases hrc : rc = 0
  · have hnext : w.next = [] := by simpa using hstop.1 hrc
    have hr : w.rest = [] := if_pos hnext
    rw [hr, List.append_nil] at hcomp
    rw [if_neg (not_not.2 hrc)]
    unfold vfsEntryGet
    simp only [ensuresOr_bind, ensuresOr_modify]
    have hlive := h₂.ok.entries.held w.entry (Multiset.mem_cons_self _ _)
    refine ((h₂.ok.get hlive).put).ensuresOr.mono ?_
    rintro _ s₃ ⟨h₃, hk₃, ht₃⟩
    have hk : Kept (w.entry ::ₘ H) s₂ s₃ := kept_addRefs.trans hk₃
    have ht : SameTree s₂ s₃ := sameTree_addRefs.trans ht₃
    refine ensuresOr_pure.2 ⟨ht₁.trans (h₂.tree.trans ht), ?_, Or.inr ⟨_, rfl, h₃, fun hC hu => ?_, ?_⟩⟩
    · exact (hk₁.trans h₂.kept).trans (hk.mono (Multiset.subset_cons _ _))
    · obtain ⟨m, hp⟩ := (hplaced hC).1 hrc (hcomp ▸ hu)
      exact ⟨m, (hcomp ▸ hp).kept ht hk (.held (Multiset.mem_cons_self _ _)) h₃⟩
    · obtain ⟨c', hc'⟩ := h₂.cached [] (hroot ▸ .root) hrc
      exact ⟨c', hc'.kept hk (.held (Multiset.mem_cons_self _ _)) h₃ (Multiset.Subset.refl _)⟩
  · rw [if_pos hrc, ensuresOr_bind]
    refine h₂.ok.put.ensuresOr.mono ?_
    rintro _ s₃ ⟨h₃, hk₃, ht₃⟩
    refine ensuresOr_pure.2 ⟨ht₁.trans (h₂.tree.trans ht₃), (hk₁.trans h₂.kept).trans hk₃,
      Or.inl ⟨rfl, hrc, h₃, fun hC hu => ?_⟩⟩
    have hnext : w.next ≠ [] := fun hc => hrc (hstop.2 (by simpa using hc))
    rw [hcomp, Walk.rest_eq hnext, ← List.singleton_append, ← List.append_assoc] at hu ⊢
    refine ((hplaced hC).2 hrc fun x hx => hu x (List.mem_append_left _ hx)).imp id fun herr => ?_
    rw [ht₁.tree] at herr
    exact Tree.walk_error herr

end

end Vfs

end Kernel64
