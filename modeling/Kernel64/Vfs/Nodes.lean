import Kernel64.Vfs.Paths

/-!
# Making, naming and removing nodes

The parts of the operations of `ramfs`: a new node, a name for it, and the removal of a name with the entry
that was cached for it. `ramfs_node_create` leaves two references on a node, of which one is never dropped.
-/

namespace Kernel64

namespace Vfs

section

variable {C E : Prop} {D : Eid → Prop} {s s' : Fs} {A : Eid → Bool} {H : Multiset Eid}
  {N : Multiset Nid} {e d p : Eid} {n m dir : Nid} {x : Name} {F : Fault → Prop} {kind : Kind}

/-- What `kmem_cache_alloc(ramfs_node_cache)` returns next can be used. -/
def Fs.NodeReady (s : Fs) : Prop :=
  ∃ n, s.nodeSupply 0 = some n ∧ s.nodeLive n = false ∧ n ≠ rootNode

/-- The state with a new node. -/
def Fs.spawn (s : Fs) (n : Nid) (kind : Kind) : Fs :=
  { s with
    kind := Function.update s.kind n kind
    nodeRefs := Function.update s.nodeRefs n 2
    names := Function.update s.names n []
    nodeLive := Function.update s.nodeLive n true
    nodeCount := s.nodeCount + 1
    nodeSupply := fun i => s.nodeSupply (i + 1) }

theorem ensures_ramfsNodeCreate {Q : Option Nid → Fs → Prop}
    (hnone : ¬s.NodeReady →
      Q none { s with nodeSupply := fun i => s.nodeSupply (i + 1), failures := s.failures + 1 })
    (hsome : ∀ n, s.nodeSupply 0 = some n → s.nodeLive n = false → n ≠ rootNode →
      Q (some n) (s.spawn n kind)) : Ensures (ramfsNodeCreate kind) s Q := by
  unfold ramfsNodeCreate noMemory
  simp only [ensures_bind, ensures_get, ensures_set]
  cases hs : s.nodeSupply 0 with
  | none =>
    simp only [ensures_bind, ensures_modify, ensures_pure]
    refine hnone ?_
    rintro ⟨n, hn, _⟩
    rw [hs] at hn
    cases hn
  | some n =>
    dsimp only
    by_cases hn : s.nodeLive n = false ∧ n ≠ rootNode
    · rw [if_pos hn]
      unfold vfsNodeGet
      simp only [ensures_bind, ensures_modify, ensures_pure]
      have hstate := hsome n hs hn.1 hn.2
      convert hstate using 1
      simp only [Fs.spawn, Fs.addNodeRefs, Function.update_self, Function.update_idem]
      rfl
    · rw [if_neg hn]
      simp only [ensures_bind, ensures_modify, ensures_pure]
      refine hnone ?_
      rintro ⟨m, hm, hlive⟩
      rw [hs] at hm
      exact hn (Option.some.inj hm ▸ hlive)

/-- Nobody knows a node that is not given out. -/
theorem VfsOk.unknown (h : VfsOk C E D s A H N) (hn : s.nodeLive n = false) (hroot : n ≠ rootNode) :
    (∀ y, A y = true → (s.entry y).node ≠ some n) ∧ (∀ q, namesOf s q ≠ some n) ∧
      (∀ y ∈ s.mounts, y.2 ≠ n) ∧ n ∉ N ∧ ¬Real s n := by
  have hdead : ¬s.nodeLive n = true := by
    rw [hn]
    exact Bool.false_ne_true
  refine ⟨fun y hy hc => ?_, fun q hc => hdead (h.nodes.named q n hc), fun y hy hc => ?_,
    fun hc => hdead (h.nodes.held n hc), fun hc => hc.elim hroot hdead⟩
  · rcases h.real hy hc with hc | hc
    · exact hroot hc
    · exact hdead hc
  · exact hdead (hc ▸ h.nodes.mounted y hy)

theorem namesOf_spawn (q : Nid × Name) :
    namesOf (s.spawn n kind) q = if q.1 = n then none else namesOf s q := by
  unfold namesOf Fs.spawn
  by_cases hq : q.1 = n <;> simp [hq]

theorem NodesOk.spawn (h : VfsOk C E D s A H N) (hn : s.nodeLive n = false) (hroot : n ≠ rootNode)
    (hkind : kind ≠ .root) : NodesOk (s.spawn n kind) A (n ::ₘ N) := by
  obtain ⟨hentries, hnames, hmounts, hN, -⟩ := h.unknown hn hroot
  have hlive : ∀ m, (s.spawn n kind).nodeLive m = true ↔ m = n ∨ s.nodeLive m = true :=
    fun m => update_true
  have hnodes : nodesOf (s.spawn n kind) A = nodesOf s A := rfl
  have hle : ∀ m, refs (namesOf (s.spawn n kind)) m ≤ refs (namesOf s) m := by
    intro m
    refine refs_le_refs h.nodes.names_sparse fun q hq => ?_
    rw [namesOf_spawn] at hq
    split_ifs at hq
    exact hq
  constructor
  case sparse => exact h.nodes.sparse
  case names_sparse =>
    refine h.nodes.names_sparse.subset fun q hq hc => hq ?_
    rw [namesOf_spawn, hc, ite_self]
  case root_dead =>
    exact (Function.update_of_ne hroot.symm _ _).trans h.nodes.root_dead
  case root_kind =>
    exact (Function.update_of_ne hroot.symm _ _).trans h.nodes.root_kind
  case kinds =>
    intro m hm
    by_cases hmn : m = n
    · rw [hmn]
      exact fun hc => hkind ((Function.update_self _ _ _).symm.trans hc)
    · have := h.nodes.kinds m (((hlive m).1 hm).resolve_left hmn)
      exact fun hc => this ((Function.update_of_ne hmn _ _).symm.trans hc)
  case pointed => exact fun y m hyr hy => (hlive m).2 (Or.inr (h.nodes.pointed y m hyr hy))
  case named =>
    intro q m hq
    rw [namesOf_spawn] at hq
    split_ifs at hq
    exact (hlive m).2 (Or.inr (h.nodes.named q m hq))
  case mounted => exact fun y hy => (hlive _).2 (Or.inr (h.nodes.mounted y hy))
  case held =>
    intro m hm
    exact (hlive m).2 ((Multiset.mem_cons.1 hm).imp id (h.nodes.held m))
  case counted =>
    intro m hm
    rw [Multiset.count_cons, hnodes]
    change _ ≤ (Function.update s.nodeRefs n 2 m : ℤ)
    have hcm : mountsOf (s.spawn n kind) m = mountsOf s m := rfl
    rw [hcm]
    by_cases hmn : m = n
    · -- only the caller knows the new node
      have h₁ : refs (nodesOf s A) n = 0 := (refs_eq_zero_iff h.nodes.sparse).2 fun y hy => by
        rw [nodesOf] at hy
        split_ifs at hy with hAy
        exact hentries y hAy hy
      have h₂ : refs (namesOf (s.spawn n kind)) n = 0 := by
        have h₀ := (refs_eq_zero_iff h.nodes.names_sparse).2 hnames
        have := hle n
        omega
      have h₃ : mountsOf s n = 0 := List.countP_eq_zero.2 fun y hy => by simpa using hmounts y hy
      rw [hmn, h₁, h₂, h₃, Multiset.count_eq_zero.2 hN, Function.update_self, if_pos rfl]
      decide
    · have hcount := h.nodes.counted m (((hlive m).1 hm).resolve_left hmn)
      have := hle m
      rw [if_neg hmn, Function.update_of_ne hmn]
      push_cast at hcount ⊢
      omega

/-- A new node has nothing in it. -/
theorem find_spawn (hkind : kind ≠ .root) (m : Nid) (y : Name) :
    (s.spawn n kind).find m y = if m = n then none else s.find m y := by
  unfold Fs.find Fs.spawn
  by_cases hm : m = n
  · subst hm
    rw [if_pos rfl]
    cases kind with
    | root => exact absurd rfl hkind
    | dir => simp
    | file => simp
  · simp [hm]

theorem Coherent.spawn (h : VfsOk C E D s A H N) (hC : C) (hn : s.nodeLive n = false)
    (hroot : n ≠ rootNode) (hkind : kind ≠ .root) : Coherent (s.spawn n kind) A := by
  have hco := h.coherent hC
  obtain ⟨hentries, -, -, -, hreal⟩ := h.unknown hn hroot
  have hkind' : ∀ m, m ≠ n → (s.spawn n kind).kind m = s.kind m :=
    fun m hm => Function.update_of_ne hm _ _
  have hfind : ∀ m y r, (s.spawn n kind).find m y = some r → m ≠ n ∧ s.find m y = some r := by
    intro m y r hr
    rw [find_spawn hkind] at hr
    split_ifs at hr with hm
    exact ⟨hm, hr⟩
  have hold : ∀ m, m ≠ n → Real (s.spawn n kind) m → Real s m := by
    intro m hm hr
    refine hr.imp id fun hl => ?_
    exact (Function.update_of_ne hm _ _).symm.trans hl
  have hlive : ∀ m y r, s.find m y = some r → r ≠ n := by
    intro m y r hr hc
    have := h.nodes.live_of_find hr
    rw [hc, hn] at this
    exact nomatch this
  constructor
  case found =>
    intro y q m hy hc hq hm
    have hqn : q ≠ n := fun hc => hentries _ (h.entries.closed y hy) (hc ▸ hq)
    rw [find_spawn hkind, if_neg hqn]
    exact hco.found y q m hy hc hq hm
  case single =>
    intro d d' y y' m hd hd' hy hy' hk
    obtain ⟨hdn, hy⟩ := hfind d y m hy
    obtain ⟨hdn', hy'⟩ := hfind d' y' m hy'
    rw [hkind' m (hlive d y m hy)] at hk
    exact hco.single d d' y y' m (hold d hdn hd) (hold d' hdn' hd') hy hy' hk
  case lost =>
    intro y m hy hyr hc hm hk d z hd hz
    obtain ⟨hdn, hz⟩ := hfind d z m hz
    rw [hkind' m (hlive d z m hz)] at hk
    exact hco.lost y m hy hyr hc hm hk d z (hold d hdn hd) hz
  case one =>
    intro y y' m hy hy' hm hm' hk
    have hmn : m ≠ n := fun hc => hentries y hy (hc ▸ hm)
    rw [hkind' m hmn] at hk
    exact hco.one y y' m hy hy' hm hm' hk

/-- **A new node**: its maker holds one of the two references. -/
theorem VfsOk.spawn (h : VfsOk C E D s A H N) (hE : ¬E) (hn : s.nodeLive n = false)
    (hroot : n ≠ rootNode) (hkind : kind ≠ .root) :
    VfsOk C E D (s.spawn n kind) A H (n ::ₘ N) where
  entries := { h.entries with }
  nodes := NodesOk.spawn h hn hroot hkind
  coherent hC := Coherent.spawn h hC hn hroot hkind
  bare hE' := absurd hE' hE

theorem VfsOk.withSupplies (h : VfsOk C E D s A H N) (f : ℕ → Option Nid) (g k : ℕ → Bool) (i : ℕ) :
    VfsOk C E D { s with nodeSupply := f, nameSupply := g, mountSupply := k, failures := i } A H N where
  entries := { h.entries with }
  nodes := { h.nodes with }
  coherent hC :=
    { found := (h.coherent hC).found
      single := (h.coherent hC).single
      lost := (h.coherent hC).lost
      one := (h.coherent hC).one }
  bare := h.bare

/-! ### Names -/

/-- The state after `ramfs_entry_link`. -/
def Fs.addName (s : Fs) (dir : Nid) (x : Name) (n : Nid) : Fs :=
  { s.addNodeRefs dir 1 with names := Function.update s.names dir ((x, n) :: s.names dir) }

theorem namesOf_addName :
    namesOf (s.addName dir x n) = Function.update (namesOf s) (dir, x) (some n) := by
  funext q
  obtain ⟨d, y⟩ := q
  unfold namesOf Fs.addName
  by_cases hd : d = dir
  · subst hd
    by_cases hy : y = x
    · subst hy
      simp
    · have hq : ((d, y) : Nid × Name) ≠ (d, x) := fun hc => hy (Prod.mk.inj hc).2
      have hbeq : (y == x) = false := by simpa using hy
      simp [Function.update_of_ne hq, hbeq, List.lookup_cons]
  · simp [hd]

theorem find_addName (hdir : s.kind dir = .dir) (m : Nid) (y : Name) :
    (s.addName dir x n).find m y = if m = dir ∧ y = x then some n else s.find m y := by
  have hnames := congrFun (namesOf_addName : namesOf (s.addName dir x n) = _) (m, y)
  unfold namesOf at hnames
  have hkind : (s.addName dir x n).kind = s.kind := rfl
  have hmounts : (s.addName dir x n).mounts = s.mounts := rfl
  unfold Fs.find
  rw [hkind, hmounts]
  dsimp only at hnames
  rw [hnames]
  by_cases hq : m = dir ∧ y = x
  · obtain ⟨rfl, rfl⟩ := hq
    rw [hdir, Function.update_self, if_pos ⟨rfl, rfl⟩]
  · have hq' : ((m, y) : Nid × Name) ≠ (dir, x) := fun hc => hq (Prod.mk.inj hc)
    rw [if_neg hq, Function.update_of_ne hq']

/-- **Naming a node** whose reference is held. -/
theorem VfsOk.addName (h : VfsOk C E D s A H (n ::ₘ N)) (hdir : s.kind dir = .dir)
    (hnone : (s.names dir).lookup x = none)
    (hnew : C → s.kind n ≠ .file → (∀ d y, Real s d → s.find d y ≠ some n) ∧
      ∀ y, A y = true → (s.entry y).node ≠ some n) : VfsOk C E D (s.addName dir x n) A H N where
  entries := { h.entries with }
  bare := h.bare
  nodes :=
    { h.nodes with
      names_sparse := by
        rw [namesOf_addName]
        exact h.nodes.names_sparse.update _ _
      named := fun q m hq => by
        rw [namesOf_addName] at hq
        -- the name takes the reference that was held
        by_cases hqd : q = (dir, x)
        · rw [hqd, Function.update_self] at hq
          exact Option.some.inj hq ▸ h.nodes.held n (Multiset.mem_cons_self _ _)
        · rw [Function.update_of_ne hqd] at hq
          exact h.nodes.named q m hq
      held := fun m hm => h.nodes.held m (Multiset.mem_cons_of_mem hm)
      counted := fun m hm => by
        have hcount := h.nodes.counted m hm
        have hrefs := refs_update h.nodes.names_sparse (dir, x) (some n) m
        have hold : namesOf s (dir, x) = none := hnone
        have hnr : (s.addName dir x n).nodeRefs m = s.nodeRefs m + if m = dir then 1 else 0 :=
          addNodeRefs_nodeRefs m
        rw [hold] at hrefs
        simp only [reduceCtorEq, if_false, Nat.add_zero, Option.some.injEq, eq_comm (a := n)] at hrefs
        rw [Multiset.count_cons] at hcount
        rw [namesOf_addName, hrefs, hnr]
        change ((1 + refs (nodesOf s A) m + _ + mountsOf s m + _ : ℕ) : ℤ) ≤ _
        push_cast at hcount ⊢
        split_ifs at hcount ⊢ <;> omega }
  coherent hC := by
    have hco := h.coherent hC
    have hfind := find_addName (s := s) (x := x) (n := n) hdir
    have hold : s.find dir x = none := by
      unfold Fs.find
      rw [hdir]
      exact hnone
    constructor
    case found =>
      intro y q m hy hc hq hm
      have hyf := hco.found y q m hy hc hq hm
      rw [hfind, if_neg]
      · exact hyf
      · intro hc
        change q = dir ∧ (s.entry y).name = x at hc
        rw [hc.1, hc.2, hold] at hyf
        exact nomatch hyf
    case single =>
      intro d d' y y' m hd hd' hy hy' hk
      rw [hfind] at hy hy'
      split_ifs at hy hy' with h₁ h₂ h₂
      · exact ⟨h₁.1.trans h₂.1.symm, h₁.2.trans h₂.2.symm⟩
      · rw [← Option.some.inj hy] at hy' hk
        exact absurd hy' ((hnew hC hk).1 d' y' hd')
      · rw [← Option.some.inj hy'] at hy hk
        exact absurd hy ((hnew hC hk).1 d y hd)
      · exact hco.single d d' y y' m hd hd' hy hy' hk
    case lost =>
      intro y m hy hyr hc hm hk d z hd hz
      rw [hfind] at hz
      split_ifs at hz with h₁
      · rw [← Option.some.inj hz] at hm hk
        exact (hnew hC hk).2 y hy hm
      · exact hco.lost y m hy hyr hc hm hk d z hd hz
    case one => exact hco.one

/-! ### Removing a name -/

theorem lookup_filter_ne (l : List (Name × Nid)) (y : Name) :
    (l.filter fun z => z.1 ≠ x).lookup y = if y = x then none else l.lookup y := by
  induction l with
  | nil => simp
  | cons z l ih =>
    by_cases hz : z.1 = x
    · rw [List.filter_cons_of_neg (by simpa using hz), ih]
      by_cases hy : y = x
      · rw [if_pos hy, if_pos hy]
      · have hbeq : (y == z.1) = false := by simpa [hz] using hy
        rw [if_neg hy, if_neg hy, List.lookup_cons, hbeq]
    · rw [List.filter_cons_of_pos (by simpa using hz), List.lookup_cons, List.lookup_cons, ih]
      by_cases hy : y = z.1
      · have hyx : y ≠ x := fun hc => hz (hy ▸ hc)
        rw [if_neg hyx, if_neg hyx]
      · have hbeq : (y == z.1) = false := by simpa using hy
        rw [hbeq]

/-- The state with a name removed from a directory. -/
def Fs.unname (s : Fs) (dir : Nid) (x : Name) : Fs :=
  { s with names := Function.update s.names dir ((s.names dir).filter fun y => y.1 ≠ x) }

theorem namesOf_unname : namesOf (s.unname dir x) = Function.update (namesOf s) (dir, x) none := by
  funext q
  obtain ⟨d, y⟩ := q
  unfold namesOf Fs.unname
  by_cases hd : d = dir
  · subst hd
    dsimp only
    rw [Function.update_self, lookup_filter_ne]
    by_cases hy : y = x
    · rw [if_pos hy, hy, Function.update_self]
    · have hq : ((d, y) : Nid × Name) ≠ (d, x) := fun hc => hy (Prod.mk.inj hc).2
      rw [if_neg hy, Function.update_of_ne hq]
  · have hq : ((d, y) : Nid × Name) ≠ (dir, x) := fun hc => hd (Prod.mk.inj hc).1
    simp [hd]

theorem find_unname (hdir : s.kind dir = .dir) (m : Nid) (y : Name) :
    (s.unname dir x).find m y = if m = dir ∧ y = x then none else s.find m y := by
  have hnames := congrFun (namesOf_unname : namesOf (s.unname dir x) = _) (m, y)
  unfold namesOf at hnames
  have hkind : (s.unname dir x).kind = s.kind := rfl
  have hmounts : (s.unname dir x).mounts = s.mounts := rfl
  unfold Fs.find
  rw [hkind, hmounts]
  dsimp only at hnames
  rw [hnames]
  by_cases hq : m = dir ∧ y = x
  · obtain ⟨rfl, rfl⟩ := hq
    rw [hdir, Function.update_self, if_pos ⟨rfl, rfl⟩]
  · have hq' : ((m, y) : Nid × Name) ≠ (dir, x) := fun hc => hq (Prod.mk.inj hc)
    rw [if_neg hq, Function.update_of_ne hq']

/-- The reference of a name that is removed. -/
theorem VfsOk.unname (h : VfsOk C E D s A H N) (hlook : (s.names dir).lookup x = some n) :
    VfsOk False E D (s.unname dir x) A H (n ::ₘ N) where
  entries := { h.entries with }
  bare := h.bare
  coherent := False.elim
  nodes :=
    { h.nodes with
      names_sparse := by
        rw [namesOf_unname]
        exact h.nodes.names_sparse.update _ _
      named := fun q m hq => by
        rw [namesOf_unname] at hq
        have hqd : q ≠ (dir, x) := fun hc => by
          rw [hc, Function.update_self] at hq
          exact nomatch hq
        rw [Function.update_of_ne hqd] at hq
        exact h.nodes.named q m hq
      held := fun m hm => by
        rcases Multiset.mem_cons.1 hm with rfl | hm
        · exact h.nodes.named (dir, x) m hlook
        · exact h.nodes.held m hm
      counted := fun m hm => by
        have hcount := h.nodes.counted m hm
        have hrefs := refs_update_none_add h.nodes.names_sparse (dir, x) m
        have hold : namesOf s (dir, x) = some n := hlook
        rw [hold] at hrefs
        simp only [Option.some.injEq, eq_comm (a := n)] at hrefs
        rw [namesOf_unname, Multiset.count_cons]
        change ((1 + refs (nodesOf s A) m + _ + mountsOf s m + _ : ℕ) : ℤ) ≤ s.nodeRefs m
        refine le_trans ?_ hcount
        norm_cast
        omega }

theorem detach_self (y : Eid) : Alike { s.entry y with cached := false }
    { (s.detach e d).entry y with cached := false } ∧
    ((s.detach e d).entry y).refcount = (s.entry y).refcount := by
  by_cases hy : y = e
  · subst hy
    unfold Fs.detach
    split
    · simp only [Fs.setEntry, Function.update_self]
      exact ⟨Alike.refl _, trivial⟩
    · exact ⟨Alike.refl _, rfl⟩
  · rw [detach_entry_of_ne hy]
    exact ⟨Alike.refl _, rfl⟩

theorem detach_cached : ((s.detach e d).entry e).cached = false := by
  unfold Fs.detach
  split
  · simp [Fs.setEntry]
  · next hc => simpa using hc

/-- An entry leaves the tree of its directory. -/
theorem EntriesOk.detach (h : EntriesOk D s A H) (he : A e = true) :
    EntriesOk D (s.detach e (s.entry e).parent) A H := by
  have hparent : ∀ y, ((s.detach e (s.entry e).parent).entry y).parent = (s.entry y).parent :=
    fun y => (detach_self y).1.parent
  have hdepth : ∀ y, ((s.detach e (s.entry e).parent).entry y).depth = (s.entry y).depth :=
    fun y => (detach_self y).1.depth
  have hnode : ∀ y, ((s.detach e (s.entry e).parent).entry y).node = (s.entry y).node :=
    fun y => (detach_self y).1.node
  have hup : up (s.detach e (s.entry e).parent) A = up s A := by
    funext y
    rw [up, up, hparent]
  constructor
  case root_mem => exact h.root_mem
  case root_parent => rw [hparent]; exact h.root_parent
  case root_cached =>
    by_cases hr : rootEntry = e
    · rw [hr]
      exact detach_cached
    · rw [detach_entry_of_ne hr]
      exact h.root_cached
  case root_node => rw [hnode]; exact h.root_node
  case finite => exact h.finite
  case live => rw [detach_live]; exact h.live
  case closed =>
    intro y hy
    rw [hparent]
    exact h.closed y hy
  case deeper =>
    intro y hy hyr
    rw [hparent, hdepth, hdepth]
    exact h.deeper y hy hyr
  case counted =>
    intro y hy
    rw [hup, (detach_self y).2]
    exact h.counted y hy
  case pos =>
    intro y hy
    rw [(detach_self y).2]
    exact h.pos y hy
  case held => exact h.held
  case positive =>
    intro y hy hnone
    rw [hnode] at hnone
    exact h.positive y hy hnone
  case cache_iff =>
    intro d x y hd
    have hiff := fun z => h.cache_iff d x z hd
    rw [detach_cache]
    by_cases hye : y = e
    · subst hye
      refine iff_of_false (fun hc => ?_) fun hc => ?_
      · split_ifs at hc with hcond
        obtain ⟨-, hcached, hp, hname⟩ := (hiff y).1 hc
        exact hcond ⟨hcached, hp.symm, hname.symm⟩
      · cases detach_cached.symm.trans hc.2.1
    · rw [detach_entry_of_ne hye]
      split_ifs with hcond
      · obtain ⟨hcached, rfl, rfl⟩ := hcond
        refine iff_of_false (by simp) fun hc => hye ?_
        have hy := (hiff y).2 hc
        rw [(hiff e).2 ⟨he, hcached, rfl, rfl⟩] at hy
        exact (Option.some.inj hy).symm
      · exact hiff y

theorem VfsOk.detach (h : VfsOk False E D s A H N) (he : A e = true) :
    VfsOk False E D (s.detach e (s.entry e).parent) A H N where
  entries := h.entries.detach he
  nodes := by
    refine h.nodes.congr sameTree_detach detach_nodeRefs ?_
    funext y
    have hnode : ((s.detach e (s.entry e).parent).entry y).node = (s.entry y).node :=
      (detach_self y).1.node
    rw [nodesOf, nodesOf, hnode]
  coherent := False.elim
  bare hE := by
    rw [sameTree_detach.nodeLive]
    exact h.bare hE

/-- The state after `ramfs_entry_unlink` of the name of an entry. -/
def Fs.remove (s : Fs) (dir : Nid) (e : Eid) (n : Nid) : Fs :=
  ((s.unname dir (s.entry e).name).addNodeRefs n (-1)).detach e (s.entry e).parent

theorem remove_find (hdir : s.kind dir = .dir) (m : Nid) (y : Name) :
    (s.remove dir e n).find m y = if m = dir ∧ y = (s.entry e).name then none else s.find m y := by
  rw [Fs.remove, sameTree_detach.find, sameTree_addNodeRefs.find, find_unname hdir]

/-- The entry of the name leaves with it, and no other one stands for it. -/
theorem Coherent.remove (h : VfsOk C E D s A H N) (hC : C) (he : A e = true)
    (hcached : (s.entry e).cached = true) (hp : (s.entry (s.entry e).parent).node = some dir)
    (hdir : s.kind dir = .dir) : Coherent (s.remove dir e n) A := by
  have hco := h.coherent hC
  have hfile : s.kind dir ≠ .file := by
    rw [hdir]
    exact nofun
  have hnode : ∀ y, ((s.remove dir e n).entry y).node = (s.entry y).node :=
    fun y => (detach_self (s := (s.unname dir (s.entry e).name).addNodeRefs n (-1)) y).1.node
  have hparent : ∀ y, ((s.remove dir e n).entry y).parent = (s.entry y).parent :=
    fun y => (detach_self (s := (s.unname dir (s.entry e).name).addNodeRefs n (-1)) y).1.parent
  have hentry : ∀ y, y ≠ e → (s.remove dir e n).entry y = s.entry y :=
    fun y hy => detach_entry_of_ne hy
  have hkind : (s.remove dir e n).kind = s.kind := sameTree_detach.kind
  have hlive : (s.remove dir e n).nodeLive = s.nodeLive := sameTree_detach.nodeLive
  have hfind : ∀ m y r, (s.remove dir e n).find m y = some r →
      s.find m y = some r ∧ ¬(m = dir ∧ y = (s.entry e).name) := by
    intro m y r hr
    rw [remove_find hdir] at hr
    split_ifs at hr with hcond
    exact ⟨hr, hcond⟩
  constructor
  case found =>
    intro y q m hy hc hq hm
    have hye : y ≠ e := fun hye => by
      rw [hye] at hc
      exact nomatch detach_cached.symm.trans hc
    rw [hparent, hnode] at hq
    rw [hnode] at hm
    rw [hentry y hye] at hc ⊢
    have hyf := hco.found y q m hy hc hq hm
    rw [remove_find hdir, if_neg]
    · exact hyf
    · intro ⟨hqd, hname⟩
      have hpp := hco.one _ _ dir (h.entries.closed y hy) (h.entries.closed e he) (hqd ▸ hq) hp hfile
      have hyc := (h.entries.cache_iff _ _ y (h.entries.closed e he)).2 ⟨hy, hc, hpp, hname⟩
      have hec := (h.entries.cache_iff _ _ e (h.entries.closed e he)).2 ⟨he, hcached, rfl, rfl⟩
      exact hye (Option.some.inj (hyc.symm.trans hec))
  case single =>
    intro d d' y y' m hd hd' hy hy' hk
    rw [Real, hlive] at hd hd'
    rw [hkind] at hk
    exact hco.single d d' y y' m hd hd' (hfind d y m hy).1 (hfind d' y' m hy').1 hk
  case lost =>
    intro y m hy hyr hc hm hk d z hd hz
    rw [Real, hlive] at hd
    rw [hkind] at hk
    rw [hnode] at hm
    obtain ⟨hz, hcond⟩ := hfind d z m hz
    by_cases hye : y = e
    · -- a directory had this name only
      rw [hye] at hm
      have hef := hco.found e dir m he hcached hp hm
      exact hcond (hco.single d dir z _ m hd (h.real (h.entries.closed e he) hp) hz hef hk)
    · rw [hentry y hye] at hc
      exact hco.lost y m hy hyr hc hm hk d z hd hz
  case one =>
    intro y y' m hy hy' hm hm' hk
    rw [hnode] at hm hm'
    rw [hkind] at hk
    exact hco.one y y' m hy hy' hm hm' hk

/-! ### How the nodes change -/

/-- The nodes that were there stay. What is found in a node was found there before, or it is new, or it satisfies
`L`. -/
structure Evolved (L : Nid → Prop) (s s' : Fs) : Prop where
  live : ∀ k, s.nodeLive k = true → s'.nodeLive k = true
  mounts : s'.mounts = s.mounts
  find : ∀ d y k, Real s' d → s'.find d y = some k →
    (Real s d ∧ s.find d y = some k) ∨ s.nodeLive k = false ∨ L k

theorem SameTree.evolved {L : Nid → Prop} (ht : SameTree s s') : Evolved L s s' := by
  refine ⟨fun k hk => ?_, ht.mounts, fun d y k hd hy => Or.inl ⟨?_, ?_⟩⟩
  · rw [ht.nodeLive]
    exact hk
  · rwa [Real, ht.nodeLive] at hd
  · rwa [ht.find] at hy

theorem Evolved.before {L : Nid → Prop} {s₁ : Fs} (h : Evolved L s₁ s') (ht : SameTree s s₁) : Evolved L s s' := by
  refine ⟨fun k hk => h.live k ?_, h.mounts.trans ht.mounts, fun d y k hd hy => ?_⟩
  · rw [ht.nodeLive]
    exact hk
  · have hfind := h.find d y k hd hy
    rwa [Real, ht.nodeLive, ht.find] at hfind

theorem Evolved.after {L : Nid → Prop} {s₁ : Fs} (h : Evolved L s s₁) (ht : SameTree s₁ s') : Evolved L s s' := by
  refine ⟨fun k hk => ?_, ht.mounts.trans h.mounts, fun d y k hd hy => ?_⟩
  · rw [ht.nodeLive]
    exact h.live k hk
  · rw [Real, ht.nodeLive] at hd
    rw [ht.find] at hy
    exact h.find d y k hd hy

theorem Evolved.mono {L L' : Nid → Prop} (h : Evolved L s s') (hL : ∀ k, L k → L' k) : Evolved L' s s' :=
  ⟨h.live, h.mounts, fun d y k hd hy => (h.find d y k hd hy).imp id fun hk => hk.imp id (hL k)⟩

theorem evolved_spawn {L : Nid → Prop} (hkind : kind ≠ .root) : Evolved L s (s.spawn n kind) := by
  refine ⟨fun k hk => ?_, rfl, fun d y k hd hy => Or.inl ?_⟩
  · by_cases hkn : k = n
    · rw [hkn]
      exact Function.update_self _ _ _
    · exact (Function.update_of_ne hkn _ _).trans hk
  · rw [find_spawn hkind] at hy
    split_ifs at hy with hdn
    exact ⟨hd.imp id fun hl => (Function.update_of_ne hdn _ _).symm.trans hl, hy⟩

theorem Evolved.addName {L : Nid → Prop} {s₁ : Fs} (h : Evolved L s s₁) (hdir : s₁.kind dir = .dir)
    (hn : s.nodeLive n = false ∨ L n) : Evolved L s (s₁.addName dir x n) := by
  refine ⟨h.live, h.mounts, fun d y k hd hy => ?_⟩
  rw [find_addName hdir] at hy
  split_ifs at hy with hdy
  · rw [← Option.some.inj hy]
    exact Or.inr hn
  · exact h.find d y k hd hy

theorem evolved_unname {L : Nid → Prop} (hdir : s.kind dir = .dir) : Evolved L s (s.unname dir x) := by
  refine ⟨fun _ hk => hk, rfl, fun d y k hd hy => Or.inl ⟨hd, ?_⟩⟩
  rw [find_unname hdir] at hy
  split_ifs at hy
  exact hy

/-- **`ramfs_entry_unlink`** -/
theorem FsOk.entryUnlink (h : FsOk C E D s H) (he : s.live e = true)
    (hp : (s.entry (s.entry e).parent).node = some dir) (hdir : s.kind dir = .dir)
    (hcached : C → (s.entry e).cached = true) :
    Ensures (ramfsEntryUnlink dir e) s fun rc s' => FsOk C E D s' H ∧ KeptUp H s s' ∧
      Evolved (fun _ => False) s s' ∧
      ((rc = -ENOENT ∧ s' = s ∧ (s.names dir).lookup (s.entry e).name = none) ∨
        (rc = 0 ∧ ∃ n, (s.names dir).lookup (s.entry e).name = some n ∧
          s'.tree = s.tree.unlink dir (s.entry e).name)) := by
  unfold ramfsEntryUnlink
  simp only [ensures_bind, ensures_get]
  cases hlook : (s.names dir).lookup (s.entry e).name with
  | none => exact ensures_pure.2 ⟨h, fun _ _ => rfl, (SameTree.refl s).evolved, Or.inl ⟨rfl, rfl, rfl⟩⟩
  | some n =>
    have hu := VfsOk.unname h hlook
    dsimp only
    simp only [ensures_bind, ensures_set]
    refine (ensures_vfsNodePut hu).mono ?_
    rintro _ s₁ ⟨hs₁, h₁⟩
    subst hs₁
    rw [ensures_vfsEntryDetach, ensures_pure]
    have hd : VfsOk False E D (s.remove dir e n) s.live H 0 := h₁.detach he
    have hlive : (s.remove dir e n).live = s.live := detach_live
    have hok : FsOk C E D (s.remove dir e n) H := by
      unfold FsOk
      rw [hlive]
      exact ⟨hd.entries, hd.nodes, fun hC => Coherent.remove h hC he (hcached hC) hp hdir, hd.bare⟩
    refine ⟨hok, fun y _ => ?_, ?_, Or.inr ⟨rfl, n, rfl, ?_⟩⟩
    · exact (detach_self (s := (s.unname dir (s.entry e).name).addNodeRefs n (-1)) y).1.parent
    · exact ((evolved_unname hdir).after sameTree_addNodeRefs).after sameTree_detach
    · exact (sameTree_detach (s := (s.unname dir (s.entry e).name).addNodeRefs n (-1))).tree

/-! ### The operations -/

@[simp]
theorem ensures_ramfsEntryAlloc {Q : Bool → Fs → Prop} : Ensures ramfsEntryAlloc s Q ↔
    Q (s.nameSupply 0) { s with
      nameSupply := fun i => s.nameSupply (i + 1)
      failures := s.failures + if s.nameSupply 0 = true then 0 else 1 } := by
  unfold ramfsEntryAlloc noMemory
  simp only [ensures_bind, ensures_get, ensures_set]
  cases s.nameSupply 0 with
  | true => exact ensures_pure
  | false => simp only [Bool.false_eq_true, if_false, ensures_bind, ensures_modify, ensures_pure]

@[simp]
theorem ensures_ramfsEntryLink {Q : Unit → Fs → Prop} :
    Ensures (ramfsEntryLink dir x n) s Q ↔ Q () (s.addName dir x n) := ensures_modify

/-- **`ramfs_create_ops`** for an entry without a node. -/
theorem FsOk.createOps (h : FsOk C E (fun y => D y ∨ y = e) s H) (he : s.live e = true)
    (hroot : e ≠ rootEntry) (hblank : (s.entry e).node = none) (hlive : s.nodeLive dir = true)
    (hdir : s.kind dir = .dir) (hkind : kind ≠ .root)
    (hC : C → (s.entry e).cached = true ∧ (∀ y, s.live y = true → (s.entry y).parent ≠ e) ∧
      (s.entry (s.entry e).parent).node = some dir) :
    Ensures (ramfsCreateOps dir e kind) s fun rc s' =>
      (∀ y, (s'.entry y).parent = (s.entry y).parent) ∧ s'.live = s.live ∧ Evolved (fun _ => False) s s' ∧
      ((rc = 0 ∧ FsOk C E D s' H ∧ ∃ n, (s'.entry e).node = some n ∧
          s.tree.make dir (s.entry e).name kind = ((0, some n), s'.tree) ∧
          s.nodeLive n = false ∧ n ≠ rootNode) ∨
        (rc ≠ 0 ∧ FsOk C E (fun y => D y ∨ y = e) s' H ∧
          ¬((s.names dir).lookup (s.entry e).name = none ∧ s.NodeReady ∧ s.nameSupply 0 = true) ∧
          (rc = -ENOMEM ∨ (s.names dir).lookup (s.entry e).name ≠ none))) := by
  have hE : ¬E := fun hE => by
    rw [h.bare hE dir] at hlive
    cases hlive
  unfold ramfsCreateOps
  simp only [ensures_bind, ensures_get]
  cases hlook : (s.names dir).lookup (s.entry e).name with
  | some m =>
    exact ensures_pure.2 ⟨fun _ => rfl, rfl, (SameTree.refl s).evolved, Or.inr ⟨show -EEXIST ≠ 0 by decide, h,
      fun hc => (by cases hc.1), Or.inr (Option.some_ne_none m)⟩⟩
  | none =>
    rw [Option.isSome_none, if_neg Bool.false_ne_true]
    simp only [ensures_bind]
    refine ensures_ramfsNodeCreate ?_ ?_
    · intro hready
      refine ensures_pure.2 ⟨fun _ => rfl, rfl, ⟨fun _ hk => hk, rfl, fun _ _ _ hd hy => Or.inl ⟨hd, hy⟩⟩,
        Or.inr ⟨show -ENOMEM ≠ 0 by decide, ?_, fun hc => hready hc.2.1, Or.inl rfl⟩⟩
      exact VfsOk.withSupplies h _ s.nameSupply s.mountSupply _
    · intro n hsupply hn hnr
      -- the node is made, named, and pointed to by the entry
      obtain ⟨hentries, -, -, -, -⟩ := VfsOk.unknown h hn hnr
      have hdn : dir ≠ n := fun hc => by
        rw [hc, hn] at hlive
        cases hlive
      have h₁ := (VfsOk.spawn h hE hn hnr hkind).withSupplies
        (s.spawn n kind).nodeSupply (fun i => s.nameSupply (i + 1)) s.mountSupply
        (s.failures + if s.nameSupply 0 = true then 0 else 1)
      simp only [ensures_bind, ensures_ramfsEntryAlloc]
      change Ensures (if s.nameSupply 0 = true then _ else _) _ _
      by_cases hname : s.nameSupply 0 = true
      · rw [if_pos hname]
        simp only [ensures_bind, ensures_ramfsEntryLink, ensures_pointTo, ensures_pure]
        have hnames : (s.spawn n kind).names dir = s.names dir := Function.update_of_ne hdn _ _
        have hkd : (s.spawn n kind).kind dir = .dir := (Function.update_of_ne hdn _ _).trans hdir
        have h₂ := h₁.addName (x := (s.entry e).name) hkd ((congrArg _ hnames).trans hlook) (by
          intro _ _
          refine ⟨fun d y _ hy => ?_, hentries⟩
          change (s.spawn n kind).find d y = some n at hy
          rw [find_spawn hkind] at hy
          split_ifs at hy
          have := h.nodes.live_of_find hy
          rw [hn] at this
          cases this)
        have h₃ := h₂.point he hroot hblank (Function.update_self _ _ _) (m := n) (by
          intro hc
          obtain ⟨hcached, hleaf, hp⟩ := hC hc
          exact ⟨hcached, hleaf, dir, hp, (find_addName hkd _ _).trans (if_pos ⟨rfl, rfl⟩)⟩)
          fun _ _ => hentries
        have hev : Evolved (fun _ => False) s ((s.spawn n kind).addName dir (s.entry e).name n) :=
          (evolved_spawn hkind).addName hkd (Or.inl hn)
        refine ⟨fun y => (point_alike y).1.parent, rfl, ⟨hev.live, hev.mounts, hev.find⟩,
          Or.inl ⟨trivial, h₃, n, ?_, ?_, hn, hnr⟩⟩
        · rw [point_self]
        · unfold Tree.make
          have hst : s.tree.nodeSupply 0 = some n := hsupply
          rw [hst]
          rfl
      · rw [if_neg hname]
        simp only [ensures_bind]
        -- no memory for the name: the node goes again
        refine (ensures_vfsNodePut h₁).mono ?_
        rintro _ s₂ ⟨hs₂, h₂⟩
        subst hs₂
        have hev : Evolved (fun _ => False) s (s.spawn n kind) := evolved_spawn hkind
        exact ensures_pure.2 ⟨fun _ => rfl, rfl, ⟨hev.live, hev.mounts, hev.find⟩,
          Or.inr ⟨show -ENOMEM ≠ 0 by decide, h₂, fun hc => hname hc.2.2, Or.inl rfl⟩⟩

/-- **`ramfs_link`** -/
theorem FsOk.ramfsLink {src : Eid} (h : FsOk C E (fun y => D y ∨ y = e) s H) (he : s.live e = true)
    (hroot : e ≠ rootEntry) (hblank : (s.entry e).node = none) (hdir : s.kind dir = .dir)
    (hC : C → (s.entry e).cached = true ∧ (∀ y, s.live y = true → (s.entry y).parent ≠ e) ∧
      (s.entry (s.entry e).parent).node = some dir)
    (hsrc : s.live src = true) (hnull : (s.entry src).node = none → F .null) :
    EnsuresOr F (ramfsLink src dir e) s fun rc s' =>
      (∀ y, (s'.entry y).parent = (s.entry y).parent) ∧ s'.live = s.live ∧
      Evolved (fun k => (s.entry src).node = some k) s s' ∧
      ∃ n, (s.entry src).node = some n ∧
      ((rc = 0 ∧ FsOk C E D s' H ∧ s.kind n = .file ∧
          s'.tree = s.tree.link dir (s.entry e).name n) ∨
        (rc ≠ 0 ∧ FsOk C E (fun y => D y ∨ y = e) s' H ∧
          (rc = -ENOMEM ∨ (rc = -ENOTSUP ∧ s.kind n ≠ .file ∧ s' = s) ∨
            (s.names dir).lookup (s.entry e).name ≠ none))) := by
  unfold Vfs.ramfsLink
  rw [ensuresOr_bind]
  refine ensuresOr_nodeOf hnull fun n hn => ?_
  simp only [ensuresOr_bind, ensuresOr_get]
  by_cases hfile : s.kind n = .file
  · rw [if_neg (not_not.2 hfile), if_neg (not_not.2 hdir)]
    have hlive : s.nodeLive n = true := by
      refine (VfsOk.real h hsrc hn).resolve_left fun hc => ?_
      rw [hc, h.nodes.root_kind] at hfile
      cases hfile
    have hnotdir : s.kind n ≠ .file → False := fun hc => hc hfile
    cases hlook : (s.names dir).lookup (s.entry e).name with
    | some m =>
      exact ensuresOr_pure.2 ⟨fun _ => rfl, rfl, (SameTree.refl s).evolved, n, hn,
        Or.inr ⟨show -EEXIST ≠ 0 by decide, h,
        Or.inr (Or.inr (Option.some_ne_none m))⟩⟩
    | none =>
      rw [Option.isSome_none, if_neg Bool.false_ne_true]
      unfold vfsNodeGet
      simp only [ensuresOr_bind, ensuresOr_modify]
      refine (ensures_ramfsEntryAlloc.2 ?_).ensuresOr
      have h₁ := (VfsOk.nodeGet h hlive).withSupplies s.nodeSupply (fun i => s.nameSupply (i + 1))
        s.mountSupply (s.failures + if s.nameSupply 0 = true then 0 else 1)
      change EnsuresOr F (if s.nameSupply 0 = true then _ else _) _ _
      by_cases hname : s.nameSupply 0 = true
      · rw [if_pos hname]
        have h₂ := h₁.addName (x := (s.entry e).name) hdir hlook fun _ hc => (hnotdir hc).elim
        have h₃ := h₂.point he hroot hblank hlive (m := n) (by
          intro hc
          obtain ⟨hcached, hleaf, hp⟩ := hC hc
          exact ⟨hcached, hleaf, dir, hp, (find_addName hdir _ _).trans (if_pos ⟨rfl, rfl⟩)⟩)
          fun _ hc => (hnotdir hc).elim
        rw [ensuresOr_bind]
        refine (ensures_ramfsEntryLink.2 ?_).ensuresOr
        rw [ensuresOr_bind]
        refine (ensures_pointTo.2 ?_).ensuresOr
        have hev : Evolved (fun k => (s.entry src).node = some k) s (s.addName dir (s.entry e).name n) :=
          (SameTree.refl s).evolved.addName hdir (Or.inr hn)
        exact ensuresOr_pure.2 ⟨fun y => (point_alike y).1.parent, rfl, ⟨hev.live, hev.mounts, hev.find⟩, n, hn,
          Or.inl ⟨rfl, h₃, hfile, rfl⟩⟩
      · rw [if_neg hname, ensuresOr_bind]
        refine (ensures_vfsNodePut h₁).ensuresOr.mono ?_
        rintro _ s₂ ⟨hs₂, h₂⟩
        subst hs₂
        exact ensuresOr_pure.2 ⟨fun _ => rfl, rfl, ⟨fun _ hk => hk, rfl, fun _ _ _ hd hy => Or.inl ⟨hd, hy⟩⟩, n, hn,
          Or.inr ⟨show -ENOMEM ≠ 0 by decide, h₂, Or.inl rfl⟩⟩
  · rw [if_pos hfile]
    exact ensuresOr_pure.2 ⟨fun _ => rfl, rfl, (SameTree.refl s).evolved, n, hn, Or.inr ⟨show -ENOTSUP ≠ 0 by decide, h,
      Or.inr (Or.inl ⟨rfl, hfile, rfl⟩)⟩⟩

/-- What `ramfs_unlink` and `ramfs_rmdir` do to an entry of a directory. -/
structure Removed (C E : Prop) (D : Eid → Prop) (H : Multiset Eid) (dir : Nid) (e : Eid)
    (filesOnly : Bool) (s s' : Fs) (rc : ℤ) : Prop where
  ok : FsOk C E D s' H
  kept : KeptUp H s s'
  evolved : Evolved (fun _ => False) s s'
  tree : ∀ m, (s.entry e).node = some m → (s.names dir).lookup (s.entry e).name ≠ none →
    if filesOnly = true ∧ s.kind m ≠ .file then rc = -ENOTSUP ∧ s'.tree = s.tree
    else rc = 0 ∧ s'.tree = s.tree.unlink dir (s.entry e).name

theorem FsOk.ramfsRmdir (h : FsOk C E D s H) (he : s.live e = true)
    (hp : (s.entry (s.entry e).parent).node = some dir) (hdir : s.kind dir = .dir)
    (hcached : C → (s.entry e).cached = true) :
    Ensures (ramfsRmdir dir e) s fun rc s' => Removed C E D H dir e false s s' rc := by
  unfold Vfs.ramfsRmdir
  rw [ensures_bind, ensures_get, if_neg (not_not.2 hdir)]
  refine (h.entryUnlink he hp hdir hcached).mono ?_
  intro rc s' ⟨h', hk, hev, hcase⟩
  refine ⟨h', hk, hev, fun m _ hlook => ?_⟩
  rw [if_neg fun hc => nomatch hc.1]
  rcases hcase with ⟨-, -, hnone⟩ | ⟨hrc, n, -, htree⟩
  · exact absurd hnone hlook
  · exact ⟨hrc, htree⟩

theorem FsOk.ramfsUnlink (h : FsOk C E D s H) (he : s.live e = true)
    (hp : (s.entry (s.entry e).parent).node = some dir) (hdir : s.kind dir = .dir)
    (hcached : C → (s.entry e).cached = true) :
    Ensures (ramfsUnlink dir e) s fun rc s' => Removed C E D H dir e true s s' rc := by
  unfold Vfs.ramfsUnlink
  rw [ensures_bind, ensures_get, if_neg (not_not.2 hdir)]
  cases hn : (s.entry e).node with
  | none =>
    refine ensures_pure.2 ⟨h, fun _ _ => rfl, (SameTree.refl s).evolved, fun m hm => ?_⟩
    rw [hn] at hm
    exact nomatch hm
  | some n =>
    dsimp only
    by_cases hfile : s.kind n = .file
    · rw [if_neg (not_not.2 hfile)]
      refine (h.entryUnlink he hp hdir hcached).mono ?_
      intro rc s' ⟨h', hk, hev, hcase⟩
      refine ⟨h', hk, hev, fun m hm hlook => ?_⟩
      rw [hn] at hm
      rw [← Option.some.inj hm, if_neg fun hc => hc.2 hfile]
      rcases hcase with ⟨-, -, hnone⟩ | ⟨hrc, n, -, htree⟩
      · exact absurd hnone hlook
      · exact ⟨hrc, htree⟩
    · rw [if_pos hfile]
      refine ensures_pure.2 ⟨h, fun _ _ => rfl, (SameTree.refl s).evolved, fun m hm _ => ?_⟩
      rw [hn] at hm
      rw [← Option.some.inj hm, if_pos ⟨rfl, hfile⟩]
      exact ⟨rfl, rfl⟩

/-! ### Mounts -/

/-- What is found once there is another mount. -/
theorem find_addMount {d : Nid} {y : Name} {k : Nid} :
    ({ s with mounts := s.mounts ++ [(x, n)] } : Fs).find d y = some k ↔
      s.find d y = some k ∨ (s.kind d = .root ∧ s.mounts.lookup y = none ∧ y = x ∧ k = n) := by
  unfold Fs.find
  dsimp only
  cases s.kind d with
  | root =>
    dsimp only
    rw [List.lookup_append, List.lookup_cons, List.lookup_nil]
    cases s.mounts.lookup y with
    | some m => simp
    | none =>
      by_cases hy : y = x
      · simp [hy, eq_comm]
      · rw [beq_eq_false_iff_ne.2 hy]
        simp [hy]
  | dir => simp
  | file => simp

/-- A new node is mounted. -/
theorem Coherent.addMount (hco : Coherent s A) (hkinds : ∀ d, Real s d → s.kind d = .root → d = rootNode)
    (hfind : ∀ d y, Real s d → s.find d y ≠ some n) (hentry : ∀ y, A y = true → (s.entry y).node ≠ some n) :
    Coherent { s with mounts := s.mounts ++ [(x, n)] } A where
  found y q m hy hc hq hm := find_addMount.2 (Or.inl (hco.found y q m hy hc hq hm))
  single d d' y y' m hd hd' hy hy' hk := by
    rcases find_addMount.1 hy with h₁ | ⟨hr, -, rfl, rfl⟩
    · rcases find_addMount.1 hy' with h₂ | ⟨-, -, -, rfl⟩
      · exact hco.single d d' y y' m hd hd' h₁ h₂ hk
      · exact absurd h₁ (hfind d y hd)
    · rcases find_addMount.1 hy' with h₂ | ⟨hr', -, rfl, -⟩
      · exact absurd h₂ (hfind d' y' hd')
      · exact ⟨(hkinds d hd hr).trans (hkinds d' hd' hr').symm, rfl⟩
  lost y m hy hyr hc hm hk d z hd hz := by
    rcases find_addMount.1 hz with hz | ⟨-, -, -, rfl⟩
    · exact hco.lost y m hy hyr hc hm hk d z hd hz
    · exact hentry y hy hm
  one := hco.one

theorem VfsOk.addMount (h : VfsOk C E D s A H (n ::ₘ N))
    (hnew : C → (∀ d y, Real s d → s.find d y ≠ some n) ∧ ∀ y, A y = true → (s.entry y).node ≠ some n) :
    VfsOk C E D { s with mounts := s.mounts ++ [(x, n)] } A H N where
  entries := { h.entries with }
  bare := h.bare
  coherent hC := by
    refine (h.coherent hC).addMount (fun d hd hr => ?_) (hnew hC).1 (hnew hC).2
    exact hd.resolve_right fun hl => h.nodes.kinds d hl hr
  nodes :=
    { h.nodes with
      mounted := fun y hy => by
        rcases List.mem_append.1 hy with hy | hy
        · exact h.nodes.mounted y hy
        · rw [List.mem_singleton.1 hy]
          exact h.nodes.held n (Multiset.mem_cons_self _ _)
      held := fun m hm => h.nodes.held m (Multiset.mem_cons_of_mem hm)
      counted := fun m hm => by
        have hcount := h.nodes.counted m hm
        rw [Multiset.count_cons] at hcount
        refine le_trans (Int.ofNat_le.2 ?_) hcount
        have hmounts : mountsOf { s with mounts := s.mounts ++ [(x, n)] } m =
            mountsOf s m + if m = n then 1 else 0 := by
          unfold mountsOf
          rw [List.countP_append, List.countP_singleton]
          simp only [decide_eq_true_eq, eq_comm (a := n)]
        rw [hmounts]
        change 1 + refs (nodesOf s A) m + refs (namesOf s) m + _ + _ ≤ _
        omega }

/-- The reference of a mount that is removed. -/
theorem VfsOk.removeMount {C' : Prop} (h : VfsOk C E D s A H N) (hlook : s.mounts.lookup x = some n)
    (hC : C' → Coherent { s with mounts := s.mounts.eraseP fun y => y.1 = x } A) :
    VfsOk C' E D { s with mounts := s.mounts.eraseP fun y => y.1 = x } A H (n ::ₘ N) := by
  obtain ⟨l₁, l₂, hl, hnone⟩ := List.lookup_eq_some_iff.1 hlook
  have herase : (s.mounts.eraseP fun y => y.1 = x) = l₁ ++ l₂ := by
    rw [hl, List.eraseP_append_right _ (fun y hy => ?_), List.eraseP_cons_of_pos (by simp)]
    have hne : (x == y.1) = false := by simpa using hnone y hy
    have hne' : ¬y.1 = x := fun hc => beq_eq_false_iff_ne.1 hne hc.symm
    simpa using hne'
  have hsub : ∀ y ∈ s.mounts.eraseP fun y => y.1 = x, y ∈ s.mounts :=
    fun y hy => List.mem_of_mem_eraseP hy
  refine ⟨{ h.entries with }, ?_, hC, h.bare⟩
  exact
    { h.nodes with
      mounted := fun y hy => h.nodes.mounted y (hsub y hy)
      held := fun m hm => by
        rcases Multiset.mem_cons.1 hm with rfl | hm
        · refine h.nodes.mounted (x, m) ?_
          rw [hl]
          simp
        · exact h.nodes.held m hm
      counted := fun m hm => by
        have hcount := h.nodes.counted m hm
        refine le_trans (Int.ofNat_le.2 ?_) hcount
        have hmounts : mountsOf s m = mountsOf { s with mounts := s.mounts.eraseP fun y => y.1 = x } m +
            if m = n then 1 else 0 := by
          unfold mountsOf
          dsimp only
          rw [herase, hl, List.countP_append, List.countP_append, List.countP_cons]
          simp only [decide_eq_true_eq, eq_comm (a := n)]
          omega
        rw [hmounts, Multiset.count_cons]
        change 1 + refs (nodesOf s A) m + refs (namesOf s) m + _ + _ ≤ _
        omega }

/-- A mount that makes a node. -/
def Mounts (s : Fs) (x : Name) : Prop :=
  s.mounts.lookup x = none ∧ s.mountSupply 0 = true ∧ s.NodeReady

/-- **`vfs_mount`** -/
theorem FsOk.mount (h : FsOk C E D s H) (hE : E → ¬Mounts s x) :
    Ensures (vfsMount x) s fun _ s' => FsOk C E D s' H ∧ s'.entry = s.entry ∧ s'.live = s.live ∧
      (Mounts s x → ∃ n, s'.nodeLive n = true) := by
  unfold vfsMount
  simp only [ensures_bind, ensures_get]
  cases hlook : s.mounts.lookup x with
  | some n =>
    rw [Option.isSome_some, if_pos rfl]
    refine ensures_pure.2 ⟨h, rfl, rfl, fun hm => ?_⟩
    cases hlook.symm.trans hm.1
  | none =>
    rw [Option.isSome_none, if_neg Bool.false_ne_true]
    simp only [ensures_bind, ensures_set]
    have h₁ := VfsOk.withSupplies h s.nodeSupply s.nameSupply (fun i => s.mountSupply (i + 1)) s.failures
    by_cases hm : s.mountSupply 0 = true
    · rw [if_pos hm]
      simp only [ensures_bind]
      refine ensures_ramfsNodeCreate ?_ ?_
      · intro hready
        exact ensures_pure.2 ⟨VfsOk.withSupplies h _ _ _ _, rfl, rfl, fun hc => absurd hc.2.2 hready⟩
      · intro n hs hn hr
        have hnotE : ¬E := fun hc => hE hc ⟨hlook, hm, n, hs, hn, hr⟩
        have hkind : Kind.dir ≠ .root := (by simp)
        have h₂ := h₁.spawn hnotE hn hr hkind
        obtain ⟨hentries, -, -, -, -⟩ := VfsOk.unknown h hn hr
        simp only [ensures_bind, ensures_modify, ensures_pure]
        refine ⟨h₂.addMount fun _ => ⟨fun d y _ hy => ?_, hentries⟩, rfl, rfl, fun _ => ⟨n, Function.update_self _ _ _⟩⟩
        rw [find_spawn hkind] at hy
        split_ifs at hy
        have hlive := h₁.nodes.live_of_find hy
        cases hn.symm.trans hlive
    · rw [if_neg hm]
      unfold noMemory
      simp only [ensures_bind, ensures_modify, ensures_pure]
      exact ⟨VfsOk.withSupplies h _ _ _ _, trivial, trivial, fun hc => absurd hc.2.1 hm⟩

/-- **`vfs_umount`** -/
theorem FsOk.umount (h : FsOk C E D s H)
    (hC : C → s.mounts.lookup x ≠ none →
      Coherent { s with mounts := s.mounts.eraseP fun y => y.1 = x } s.live) :
    Ensures (vfsUmount x) s fun _ s' => FsOk C E D s' H ∧ s'.entry = s.entry ∧ s'.live = s.live ∧
      s'.nodeLive = s.nodeLive := by
  unfold vfsUmount
  simp only [ensures_bind, ensures_get]
  cases hlook : s.mounts.lookup x with
  | none => exact ensures_pure.2 ⟨h, rfl, rfl, rfl⟩
  | some n =>
    dsimp only
    simp only [ensures_bind, ensures_set]
    have hC' : C → Coherent { s with mounts := s.mounts.eraseP fun y => y.1 = x } s.live := fun hc =>
      hC hc (hlook ▸ Option.some_ne_none n)
    refine (ensures_vfsNodePut (VfsOk.removeMount h hlook hC')).mono ?_
    rintro _ s₁ ⟨hs₁, h₁⟩
    subst hs₁
    exact ensures_pure.2 ⟨h₁, rfl, rfl, rfl⟩

end

end Vfs

end Kernel64
