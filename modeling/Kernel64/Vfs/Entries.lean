import Kernel64.Vfs.Model
import Kernel64.Lib.Refs
import Mathlib.Data.Multiset.Count

/-!
# The invariant of the entries and the nodes

`EntriesOk D s A H` counts the references on the entries: those in `H`, which open files and local
variables hold, and one for each child. `NodesOk s A N` does the same for the nodes, where the count may
be too high. `A` are the entries that are counted: all of the live ones, except those that `vfs_entry_put`
is about to free. Entries in `D` may be without a node.

`Coherent s A` says that the cached entries are the ones that a lookup would find. It is only kept while
nothing is mounted and unmounted, so `VfsOk` asks for it under a condition `C`; a condition `E` says that
there is no node of `ramfs`.
-/

namespace Kernel64

namespace Vfs

/-- The entry that another one keeps alive. -/
def up (s : Fs) (A : Eid → Bool) (e : Eid) : Option Eid :=
  if A e = true ∧ e ≠ rootEntry then some (s.entry e).parent else none

/-- The node that an entry keeps alive. -/
def nodesOf (s : Fs) (A : Eid → Bool) (e : Eid) : Option Nid :=
  if A e then (s.entry e).node else none

/-- The node that a name in a directory keeps alive. -/
def namesOf (s : Fs) (p : Nid × Name) : Option Nid := (s.names p.1).lookup p.2

/-- How many mounts a node is the root of. -/
def mountsOf (s : Fs) (n : Nid) : ℕ := s.mounts.countP (·.2 = n)

/-- The references on the entries. -/
structure EntriesOk (D : Eid → Prop) (s : Fs) (A : Eid → Bool) (H : Multiset Eid) : Prop where
  root_mem : A rootEntry = true
  root_parent : (s.entry rootEntry).parent = rootEntry
  root_cached : (s.entry rootEntry).cached = false
  root_node : (s.entry rootEntry).node = some rootNode
  finite : {e | A e = true}.Finite
  live : ∀ e, A e = true → s.live e = true
  closed : ∀ e, A e = true → A (s.entry e).parent = true
  deeper : ∀ e, A e = true → e ≠ rootEntry → (s.entry (s.entry e).parent).depth < (s.entry e).depth
  counted : ∀ e, A e = true → (s.entry e).refcount =
    (H.count e + refs (up s A) e + (if e = rootEntry then 1 else 0) : ℕ)
  pos : ∀ e, A e = true → 0 < (s.entry e).refcount
  held : ∀ e ∈ H, A e = true
  cache_iff : ∀ d x e, A d = true → (s.cache d x = some e ↔
    A e = true ∧ (s.entry e).cached = true ∧ (s.entry e).parent = d ∧ (s.entry e).name = x)
  positive : ∀ e, A e = true → (s.entry e).node = none → D e

/-- The references on the nodes. -/
structure NodesOk (s : Fs) (A : Eid → Bool) (N : Multiset Nid) : Prop where
  sparse : Sparse (nodesOf s A)
  names_sparse : Sparse (namesOf s)
  root_dead : s.nodeLive rootNode = false
  root_kind : s.kind rootNode = .root
  kinds : ∀ n, s.nodeLive n = true → s.kind n ≠ .root
  pointed : ∀ e n, e ≠ rootEntry → nodesOf s A e = some n → s.nodeLive n = true
  named : ∀ p n, namesOf s p = some n → s.nodeLive n = true
  mounted : ∀ x ∈ s.mounts, s.nodeLive x.2 = true
  held : ∀ n ∈ N, s.nodeLive n = true
  counted : ∀ n, s.nodeLive n = true →
    (1 + refs (nodesOf s A) n + refs (namesOf s) n + mountsOf s n + N.count n : ℕ) ≤ s.nodeRefs n

/-- The root of the file systems, or a node of `ramfs`. -/
def Real (s : Fs) (n : Nid) : Prop := n = rootNode ∨ s.nodeLive n = true

/-- The cached entries are what a lookup finds. A directory has one name and at most one entry. -/
structure Coherent (s : Fs) (A : Eid → Bool) : Prop where
  found : ∀ e n m, A e = true → (s.entry e).cached = true → (s.entry (s.entry e).parent).node = some n →
    (s.entry e).node = some m → s.find n (s.entry e).name = some m
  single : ∀ d d' x x' n, Real s d → Real s d' → s.find d x = some n → s.find d' x' = some n →
    s.kind n ≠ .file → d = d' ∧ x = x'
  lost : ∀ e n, A e = true → e ≠ rootEntry → (s.entry e).cached = false → (s.entry e).node = some n →
    s.kind n ≠ .file → ∀ d x, Real s d → s.find d x ≠ some n
  one : ∀ e e' n, A e = true → A e' = true → (s.entry e).node = some n → (s.entry e').node = some n →
    s.kind n ≠ .file → e = e'

/-- **The invariant of the file systems.** -/
structure VfsOk (C E : Prop) (D : Eid → Prop) (s : Fs) (A : Eid → Bool) (H : Multiset Eid)
    (N : Multiset Nid) : Prop where
  entries : EntriesOk D s A H
  nodes : NodesOk s A N
  coherent : C → Coherent s A
  bare : E → ∀ n, s.nodeLive n = false

section

variable {C E : Prop} {D : Eid → Prop} {s s' : Fs} {A A' : Eid → Bool} {H H₀ : Multiset Eid}
  {N : Multiset Nid} {e d : Eid} {n m : Nid} {x : Name} {k : ℤ}

/-! ### Changes of a state -/

@[simp]
theorem addRefs_parent (y : Eid) : ((s.addRefs e k).entry y).parent = (s.entry y).parent := by
  by_cases hy : y = e <;> simp [Fs.addRefs, Fs.setEntry, hy]

@[simp]
theorem addRefs_node (y : Eid) : ((s.addRefs e k).entry y).node = (s.entry y).node := by
  by_cases hy : y = e <;> simp [Fs.addRefs, Fs.setEntry, hy]

@[simp]
theorem addRefs_name (y : Eid) : ((s.addRefs e k).entry y).name = (s.entry y).name := by
  by_cases hy : y = e <;> simp [Fs.addRefs, Fs.setEntry, hy]

@[simp]
theorem addRefs_cached (y : Eid) : ((s.addRefs e k).entry y).cached = (s.entry y).cached := by
  by_cases hy : y = e <;> simp [Fs.addRefs, Fs.setEntry, hy]

@[simp]
theorem addRefs_depth (y : Eid) : ((s.addRefs e k).entry y).depth = (s.entry y).depth := by
  by_cases hy : y = e <;> simp [Fs.addRefs, Fs.setEntry, hy]

theorem addRefs_refcount (y : Eid) : ((s.addRefs e k).entry y).refcount =
    (s.entry y).refcount + if y = e then k else 0 := by
  by_cases hy : y = e <;> simp [Fs.addRefs, Fs.setEntry, hy]

/-- The state after `__vfs_entry_detach`. -/
def Fs.detach (s : Fs) (e dir : Eid) : Fs :=
  if (s.entry e).cached then
    (s.setCache dir (s.entry e).name none).setEntry e { s.entry e with cached := false }
  else s

@[simp]
theorem ensures_vfsEntryDetach {Q : Unit → Fs → Prop} :
    Ensures (vfsEntryDetach e d) s Q ↔ Q () (s.detach e d) := by
  unfold vfsEntryDetach Fs.detach
  simp only [ensures_bind, ensures_get]
  split <;> simp

/-- Two states with the same nodes in the same places, but for the references on them. -/
structure SameTree (s s' : Fs) : Prop where
  kind : s'.kind = s.kind
  names : s'.names = s.names
  mounts : s'.mounts = s.mounts
  nodeLive : s'.nodeLive = s.nodeLive
  nodeSupply : s'.nodeSupply = s.nodeSupply
  nameSupply : s'.nameSupply = s.nameSupply

theorem SameTree.refl (s : Fs) : SameTree s s := ⟨rfl, rfl, rfl, rfl, rfl, rfl⟩

theorem SameTree.trans {s'' : Fs} (h : SameTree s s') (h' : SameTree s' s'') : SameTree s s'' :=
  ⟨h'.kind.trans h.kind, h'.names.trans h.names, h'.mounts.trans h.mounts,
    h'.nodeLive.trans h.nodeLive, h'.nodeSupply.trans h.nodeSupply, h'.nameSupply.trans h.nameSupply⟩

theorem SameTree.find (h : SameTree s s') (n : Nid) (x : Name) : s'.find n x = s.find n x := by
  unfold Fs.find
  rw [h.kind, h.names, h.mounts]

/-- Two entries that differ in the references on them only. -/
structure Alike (v v' : Entry) : Prop where
  parent : v'.parent = v.parent
  node : v'.node = v.node
  name : v'.name = v.name
  cached : v'.cached = v.cached
  depth : v'.depth = v.depth

theorem Alike.refl (v : Entry) : Alike v v := ⟨rfl, rfl, rfl, rfl, rfl⟩

theorem Alike.trans {v v' v'' : Entry} (h : Alike v v') (h' : Alike v' v'') : Alike v v'' :=
  ⟨h'.parent.trans h.parent, h'.node.trans h.node, h'.name.trans h.name, h'.cached.trans h.cached,
    h'.depth.trans h.depth⟩

theorem alike_addRefs (y : Eid) : Alike (s.entry y) ((s.addRefs e k).entry y) :=
  ⟨addRefs_parent y, addRefs_node y, addRefs_name y, addRefs_cached y, addRefs_depth y⟩

/-- The tree is the same, and so are the entries with a node. -/
theorem Coherent.mono (h : Coherent s A) (ht : SameTree s s')
    (hA : ∀ y, A' y = true → (s'.entry y).node ≠ none → A y = true ∧ Alike (s.entry y) (s'.entry y))
    (hclosed : ∀ y, A' y = true → A' (s'.entry y).parent = true) : Coherent s' A' where
  found y n m hy hc hn hm := by
    obtain ⟨hAy, hal⟩ := hA y hy (hm ▸ Option.some_ne_none m)
    have hp := (hA _ (hclosed y hy) (hn ▸ Option.some_ne_none n)).2.node
    rw [hp, hal.parent] at hn
    rw [hal.cached] at hc
    rw [hal.node] at hm
    rw [ht.find, hal.name]
    exact h.found y n m hAy hc hn hm
  single d d' y y' n hd hd' hy hy' hk := by
    rw [Real, ht.nodeLive] at hd hd'
    rw [ht.find] at hy hy'
    rw [ht.kind] at hk
    exact h.single d d' y y' n hd hd' hy hy' hk
  lost y n hy hroot hc hn hk d z hd := by
    obtain ⟨hAy, hal⟩ := hA y hy (hn ▸ Option.some_ne_none n)
    rw [hal.cached] at hc
    rw [hal.node] at hn
    rw [ht.kind] at hk
    rw [Real, ht.nodeLive] at hd
    rw [ht.find]
    exact h.lost y n hAy hroot hc hn hk d z hd
  one y y' n hy hy' hn hn' hk := by
    obtain ⟨hAy, hal⟩ := hA y hy (hn ▸ Option.some_ne_none n)
    obtain ⟨hAy', hal'⟩ := hA y' hy' (hn' ▸ Option.some_ne_none n)
    rw [hal.node] at hn
    rw [hal'.node] at hn'
    rw [ht.kind] at hk
    exact h.one y y' n hAy hAy' hn hn' hk

/-- The nodes do not see other changes of the entries. -/
theorem NodesOk.congr (h : NodesOk s A N) (ht : SameTree s s') (hrefs : s'.nodeRefs = s.nodeRefs)
    (hnodes : nodesOf s' A' = nodesOf s A) : NodesOk s' A' N := by
  have hnames : namesOf s' = namesOf s := by
    funext p
    rw [namesOf, namesOf, ht.names]
  have hmounts : mountsOf s' = mountsOf s := by
    funext n
    rw [mountsOf, mountsOf, ht.mounts]
  constructor
  case sparse => exact hnodes ▸ h.sparse
  case names_sparse => exact hnames ▸ h.names_sparse
  case root_dead => exact ht.nodeLive ▸ h.root_dead
  case root_kind => exact ht.kind ▸ h.root_kind
  case kinds => rw [ht.nodeLive, ht.kind]; exact h.kinds
  case pointed => rw [ht.nodeLive, hnodes]; exact h.pointed
  case named => rw [ht.nodeLive, hnames]; exact h.named
  case mounted => rw [ht.nodeLive, ht.mounts]; exact h.mounted
  case held => rw [ht.nodeLive]; exact h.held
  case counted => rw [ht.nodeLive, hnodes, hnames, hmounts, hrefs]; exact h.counted

/-! ### Taking a reference -/

theorem nodesOf_addRefs : nodesOf (s.addRefs e k) A = nodesOf s A := by
  funext y
  simp only [nodesOf, addRefs_node]

theorem sameTree_addRefs : SameTree s (s.addRefs e k) := ⟨rfl, rfl, rfl, rfl, rfl, rfl⟩

/-- A change of the references on the entries alone. -/
theorem EntriesOk.recount {H' : Multiset Eid} (h : EntriesOk D s A H) (hlive : s'.live = s.live)
    (hcache : s'.cache = s.cache) (hsame : ∀ y, Alike (s.entry y) (s'.entry y))
    (hcounted : ∀ y, A y = true → (s'.entry y).refcount =
      (H'.count y + refs (up s A) y + (if y = rootEntry then 1 else 0) : ℕ))
    (hpos : ∀ y, A y = true → 0 < (s'.entry y).refcount) (hheld : ∀ y ∈ H', A y = true) :
    EntriesOk D s' A H' where
  root_mem := h.root_mem
  root_parent := (hsame rootEntry).parent.trans h.root_parent
  root_cached := (hsame rootEntry).cached.trans h.root_cached
  root_node := (hsame rootEntry).node.trans h.root_node
  finite := h.finite
  live := hlive ▸ h.live
  closed y hy := (hsame y).parent ▸ h.closed y hy
  deeper y hy hroot := by
    rw [(hsame y).parent, (hsame y).depth, (hsame _).depth]
    exact h.deeper y hy hroot
  counted y hy := by
    have hup : up s' A = up s A := by
      funext z
      rw [up, up, (hsame z).parent]
    rw [hup]
    exact hcounted y hy
  pos := hpos
  held := hheld
  cache_iff d x y hd := by
    rw [hcache, (hsame y).cached, (hsame y).parent, (hsame y).name]
    exact h.cache_iff d x y hd
  positive y hy hnone := h.positive y hy ((hsame y).node ▸ hnone)

/-- The same for the file systems. -/
theorem VfsOk.recount {H' : Multiset Eid} (h : VfsOk C E D s A H N)
    (hentries : EntriesOk D (s.addRefs e k) A H') : VfsOk C E D (s.addRefs e k) A H' N where
  entries := hentries
  nodes := h.nodes.congr sameTree_addRefs rfl nodesOf_addRefs
  coherent hC := (h.coherent hC).mono sameTree_addRefs (fun y hy _ => ⟨hy, alike_addRefs y⟩)
    hentries.closed
  bare := h.bare

theorem VfsOk.get (h : VfsOk C E D s A H N) (he : A e = true) :
    VfsOk C E D (s.addRefs e 1) A (e ::ₘ H) N := by
  refine h.recount (h.entries.recount rfl rfl alike_addRefs ?_ ?_ ?_)
  · intro y hy
    rw [addRefs_refcount, h.entries.counted y hy, Multiset.count_cons]
    split_ifs <;> push_cast <;> omega
  · intro y hy
    have hpos := h.entries.pos y hy
    rw [addRefs_refcount]
    split_ifs <;> omega
  · intro y hy
    rcases Multiset.mem_cons.1 hy with rfl | hy
    · exact he
    · exact h.entries.held y hy

/-! ### Dropping a reference -/

/-- Some reference is left. -/
theorem VfsOk.drop (h : VfsOk C E D s A (e ::ₘ H) N) (hmore : (s.entry e).refcount ≠ 1) :
    VfsOk C E D (s.addRefs e (-1)) A H N := by
  refine h.recount (h.entries.recount rfl rfl alike_addRefs ?_ ?_ ?_)
  · intro y hy
    have hcount := h.entries.counted y hy
    rw [Multiset.count_cons] at hcount
    rw [addRefs_refcount, hcount]
    split_ifs <;> push_cast <;> omega
  · intro y hy
    have hpos := h.entries.pos y hy
    rw [addRefs_refcount]
    split_ifs with hye
    · rw [hye] at hpos ⊢
      omega
    · omega
  · exact fun y hy => h.entries.held y (Multiset.mem_cons_of_mem hy)

theorem EntriesOk.sparse (h : EntriesOk D s A H) : Sparse (up s A) :=
  h.finite.subset fun y hy => by
    by_contra hA
    exact hy (if_neg fun hc => hA hc.1)

/-- What the last reference on an entry leaves. -/
theorem EntriesOk.last (h : EntriesOk D s A (e ::ₘ H)) (hlast : (s.entry e).refcount = 1) :
    e ≠ rootEntry ∧ e ∉ H ∧ ∀ y, A y = true → (s.entry y).parent ≠ e := by
  have hcount := h.counted e (h.held e (Multiset.mem_cons_self e H))
  rw [hlast, Multiset.count_cons_self] at hcount
  have hroot : e ≠ rootEntry := fun hc => by
    rw [if_pos hc] at hcount
    omega
  rw [if_neg hroot] at hcount
  have hzero : refs (up s A) e = 0 := by omega
  refine ⟨hroot, fun hc => ?_, fun y hy hp => ?_⟩
  · have := Multiset.count_pos.2 hc
    omega
  · by_cases hyr : y = rootEntry
    · rw [hyr, h.root_parent] at hp
      exact hroot hp.symm
    · refine (refs_eq_zero_iff h.sparse).1 hzero y ?_
      rw [up, if_pos ⟨hy, hyr⟩, hp]

@[simp]
theorem detach_entry_of_ne {y : Eid} (hy : y ≠ e) : (s.detach e d).entry y = s.entry y := by
  unfold Fs.detach
  split
  · exact Function.update_of_ne hy _ _
  · rfl

theorem detach_cache (d' : Eid) (x : Name) : (s.detach e d).cache d' x =
    if (s.entry e).cached = true ∧ d' = d ∧ x = (s.entry e).name then none else s.cache d' x := by
  unfold Fs.detach
  by_cases hc : (s.entry e).cached = true
  · rw [if_pos hc]
    by_cases hd : d' = d
    · subst hd
      by_cases hx : x = (s.entry e).name <;> simp [Fs.setEntry, Fs.setCache, hx, hc]
    · simp [Fs.setEntry, Fs.setCache, hd]
  · rw [if_neg hc, if_neg fun h => hc h.1]

theorem detach_live : (s.detach e d).live = s.live := by
  unfold Fs.detach
  split <;> rfl

theorem detach_nodeRefs : (s.detach e d).nodeRefs = s.nodeRefs := by
  unfold Fs.detach
  split <;> rfl

theorem sameTree_detach : SameTree s (s.detach e d) := by
  unfold Fs.detach
  split <;> exact ⟨rfl, rfl, rfl, rfl, rfl, rfl⟩

/-- The state with an entry that has no reference any more, detached from its directory. -/
def Fs.bury (s : Fs) (e : Eid) : Fs := (s.addRefs e (-1)).detach e (s.entry e).parent

theorem bury_entry {y : Eid} (hy : y ≠ e) : (s.bury e).entry y = s.entry y := by
  rw [Fs.bury, detach_entry_of_ne hy, Fs.addRefs]
  exact Function.update_of_ne hy _ _

theorem sameTree_bury : SameTree s (s.bury e) := sameTree_addRefs.trans sameTree_detach

theorem update_false {y : Eid} : Function.update A e false y = true ↔ y ≠ e ∧ A y = true := by
  by_cases hy : y = e <;> simp [hy]

theorem EntriesOk.bury (h : EntriesOk D s A (e ::ₘ H)) (hlast : (s.entry e).refcount = 1) :
    EntriesOk D (s.bury e) (Function.update A e false) ((s.entry e).parent ::ₘ H) := by
  obtain ⟨hroot, hH, hchild⟩ := h.last hlast
  have he : A e = true := h.held e (Multiset.mem_cons_self e H)
  -- the reference that the entry had on its parent is held from now on
  have hup : up (s.bury e) (Function.update A e false) = Function.update (up s A) e none := by
    funext y
    by_cases hy : y = e
    · subst hy
      simp [up]
    · simp [up, hy, bury_entry]
  constructor
  case root_mem => exact update_false.2 ⟨hroot.symm, h.root_mem⟩
  case root_parent => rw [bury_entry hroot.symm]; exact h.root_parent
  case root_cached => rw [bury_entry hroot.symm]; exact h.root_cached
  case root_node => rw [bury_entry hroot.symm]; exact h.root_node
  case finite => exact h.finite.subset fun y hy => (update_false.1 hy).2
  case live =>
    intro y hy
    rw [Fs.bury, detach_live]
    exact h.live y (update_false.1 hy).2
  case closed =>
    intro y hy
    obtain ⟨hye, hAy⟩ := update_false.1 hy
    rw [bury_entry hye]
    exact update_false.2 ⟨hchild y hAy, h.closed y hAy⟩
  case deeper =>
    intro y hy hyr
    obtain ⟨hye, hAy⟩ := update_false.1 hy
    rw [bury_entry hye, bury_entry (hchild y hAy)]
    exact h.deeper y hAy hyr
  case counted =>
    intro y hy
    obtain ⟨hye, hAy⟩ := update_false.1 hy
    have hcount := h.counted y hAy
    have hrefs := refs_update_none_add h.sparse e y
    rw [Multiset.count_cons_of_ne hye] at hcount
    have hupe : up s A e = some (s.entry e).parent := if_pos ⟨he, hroot⟩
    rw [hupe] at hrefs
    rw [bury_entry hye, hup, hcount, Multiset.count_cons]
    simp only [Option.some.injEq, eq_comm (b := y)] at hrefs
    norm_cast
    omega
  case pos =>
    intro y hy
    obtain ⟨hye, hAy⟩ := update_false.1 hy
    rw [bury_entry hye]
    exact h.pos y hAy
  case held =>
    intro y hy
    rcases Multiset.mem_cons.1 hy with rfl | hy
    · exact update_false.2 ⟨hchild e he, h.closed e he⟩
    · exact update_false.2 ⟨fun hc => hH (hc ▸ hy), h.held y (Multiset.mem_cons_of_mem hy)⟩
  case cache_iff =>
    intro d x y hd
    obtain ⟨hde, hAd⟩ := update_false.1 hd
    have hiff := fun z => h.cache_iff d x z hAd
    have hme := (hiff e).2
    rw [Fs.bury, detach_cache, addRefs_cached, addRefs_name, update_false]
    by_cases hye : y = e
    · subst hye
      -- the name of the entry is not cached any more
      refine iff_of_false (fun hc => ?_) fun hc => hc.1.1 rfl
      split_ifs at hc with hcond
      obtain ⟨-, hcached, hparent, hname⟩ := (hiff y).1 hc
      exact hcond ⟨hcached, hparent.symm, hname.symm⟩
    · rw [detach_entry_of_ne hye, Fs.addRefs, Fs.setEntry]
      dsimp only
      rw [Function.update_of_ne hye]
      split_ifs with hcond
      · obtain ⟨hcached, rfl, rfl⟩ := hcond
        refine iff_of_false nofun fun hc => hye ?_
        have hy := (hiff y).2 ⟨hc.1.2, hc.2⟩
        rw [hme ⟨he, hcached, rfl, rfl⟩] at hy
        exact (Option.some.inj hy).symm
      · rw [hiff y, and_assoc]
        exact (and_iff_right hye).symm
  case positive =>
    intro y hy hnone
    obtain ⟨hye, hAy⟩ := update_false.1 hy
    rw [bury_entry hye] at hnone
    exact h.positive y hAy hnone

theorem NodesOk.bury (h : NodesOk s A N) (he : A e = true) (hroot : e ≠ rootEntry) :
    NodesOk (s.bury e) (Function.update A e false) ((s.entry e).node.elim N (· ::ₘ N)) := by
  have ht : SameTree s (s.bury e) := sameTree_bury
  have hnodes : nodesOf (s.bury e) (Function.update A e false) =
      Function.update (nodesOf s A) e none := by
    funext y
    by_cases hy : y = e
    · subst hy
      simp [nodesOf]
    · simp [nodesOf, hy, bury_entry]
  have hnode : nodesOf s A e = (s.entry e).node := if_pos he
  have hnames : namesOf (s.bury e) = namesOf s := by
    funext p
    rw [namesOf, namesOf, ht.names]
  have hmounts : mountsOf (s.bury e) = mountsOf s := by
    funext n
    rw [mountsOf, mountsOf, ht.mounts]
  constructor
  case sparse => rw [hnodes]; exact h.sparse.update e none
  case names_sparse => exact hnames ▸ h.names_sparse
  case root_dead => exact ht.nodeLive ▸ h.root_dead
  case root_kind => exact ht.kind ▸ h.root_kind
  case kinds => rw [ht.nodeLive, ht.kind]; exact h.kinds
  case pointed =>
    intro y n hyr hy
    have hye : y ≠ e := fun hc => by
      rw [hc, hnodes, Function.update_self] at hy
      exact nomatch hy
    rw [hnodes, Function.update_of_ne hye] at hy
    rw [ht.nodeLive]
    exact h.pointed y n hyr hy
  case named => rw [ht.nodeLive, hnames]; exact h.named
  case mounted => rw [ht.nodeLive, ht.mounts]; exact h.mounted
  case held =>
    intro n hn
    rw [ht.nodeLive]
    cases hm : (s.entry e).node with
    | none =>
      rw [hm] at hn
      exact h.held n hn
    | some m =>
      rw [hm] at hn
      rcases Multiset.mem_cons.1 hn with rfl | hn
      · exact h.pointed e n hroot (hnode.trans hm)
      · exact h.held n hn
  case counted =>
    intro n hn
    rw [ht.nodeLive] at hn
    have hcount := h.counted n hn
    have hrefs := refs_update_none_add h.sparse e n
    have hN : ((s.entry e).node.elim N (· ::ₘ N)).count n =
        N.count n + if (s.entry e).node = some n then 1 else 0 := by
      cases hm : (s.entry e).node with
      | none => simp
      | some m =>
        rw [Option.elim_some, Multiset.count_cons]
        simp only [Option.some.injEq, eq_comm (a := n)]
    rw [hnode] at hrefs
    rw [hnodes, hnames, hmounts, hN, Fs.bury, detach_nodeRefs]
    refine le_trans ?_ hcount
    norm_cast
    omega

theorem VfsOk.bury (h : VfsOk C E D s A (e ::ₘ H) N) (hlast : (s.entry e).refcount = 1) :
    VfsOk C E D (s.bury e) (Function.update A e false) ((s.entry e).parent ::ₘ H)
      ((s.entry e).node.elim N (· ::ₘ N)) where
  entries := h.entries.bury hlast
  nodes := h.nodes.bury (h.entries.held e (Multiset.mem_cons_self e H)) (h.entries.last hlast).1
  coherent hC := by
    refine (h.coherent hC).mono sameTree_bury ?_ (h.entries.bury hlast).closed
    intro y hy _
    obtain ⟨hye, hAy⟩ := update_false.1 hy
    rw [bury_entry hye]
    exact ⟨hAy, Alike.refl _⟩
  bare hE := by
    rw [sameTree_bury.nodeLive]
    exact h.bare hE

/-! ### Nodes -/

theorem sameTree_addNodeRefs : SameTree s (s.addNodeRefs n k) := ⟨rfl, rfl, rfl, rfl, rfl, rfl⟩

theorem addNodeRefs_nodeRefs (m : Nid) : (s.addNodeRefs n k).nodeRefs m =
    s.nodeRefs m + if m = n then k else 0 := by
  by_cases hm : m = n <;> simp [Fs.addNodeRefs, hm]

/-- A change of the references on a node alone. -/
theorem VfsOk.renode {N' : Multiset Nid} (h : VfsOk C E D s A H N)
    (hheld : ∀ m ∈ N', s.nodeLive m = true)
    (hcounted : ∀ m, s.nodeLive m = true → (N'.count m : ℤ) ≤ N.count m + if m = n then k else 0) :
    VfsOk C E D (s.addNodeRefs n k) A H N' where
  entries := h.entries.recount rfl rfl (fun _ => Alike.refl _) h.entries.counted h.entries.pos
    h.entries.held
  nodes :=
    { h.nodes with
      held := hheld
      counted := fun m hm => by
        have hcount := h.nodes.counted m hm
        have hle := hcounted m hm
        rw [addNodeRefs_nodeRefs]
        push_cast at hcount ⊢
        change _ + (refs (nodesOf s A) m : ℤ) + refs (namesOf s) m + mountsOf s m + _ ≤ _ at hcount ⊢
        omega }
  coherent hC := (h.coherent hC).mono sameTree_addNodeRefs (fun y hy _ => ⟨hy, Alike.refl _⟩)
    h.entries.closed
  bare := h.bare

theorem VfsOk.nodeGet (h : VfsOk C E D s A H N) (hn : s.nodeLive n = true) :
    VfsOk C E D (s.addNodeRefs n 1) A H (n ::ₘ N) := by
  refine h.renode (fun m hm => ?_) fun m _ => ?_
  · rcases Multiset.mem_cons.1 hm with rfl | hm
    · exact hn
    · exact h.nodes.held m hm
  · rw [Multiset.count_cons]
    split_ifs <;> push_cast <;> omega

/-- A node that is counted keeps a reference. -/
theorem ensures_vfsNodePut (h : VfsOk C E D s A H (n ::ₘ N)) :
    Ensures (vfsNodePut n) s fun _ s' => s' = s.addNodeRefs n (-1) ∧ VfsOk C E D s' A H N := by
  have hn : s.nodeLive n = true := h.nodes.held n (Multiset.mem_cons_self n N)
  have hcount := h.nodes.counted n hn
  rw [Multiset.count_cons_self] at hcount
  have hmore : (s.addNodeRefs n (-1)).nodeRefs n ≠ 0 := by
    rw [addNodeRefs_nodeRefs, if_pos rfl]
    omega
  unfold vfsNodePut
  simp only [ensures_bind, ensures_get]
  unfold vfsNodePutFrom
  simp only [ensures_bind, ensures_modify, ensures_get]
  rw [if_neg hmore, ensures_pure]
  refine ⟨rfl, h.renode (fun m hm => h.nodes.held m (Multiset.mem_cons_of_mem hm)) fun m _ => ?_⟩
  rw [Multiset.count_cons]
  split_ifs <;> push_cast <;> omega

/-! ### `vfs_entry_put` -/

/-- What changes when references are dropped: entries are freed. -/
structure PutFrame (A A' : Eid → Bool) (s s' : Fs) : Prop where
  sub : ∀ y, A' y = true → A y = true
  live : ∀ y, s'.live y = (s.live y && (!A y || A' y))
  tree : SameTree s s'
  alike : ∀ y, A' y = true → Alike (s.entry y) (s'.entry y)

theorem VfsOk.free (h : VfsOk C E D s A H N) (he : A e = false) :
    VfsOk C E D { s with live := Function.update s.live e false } A H N where
  entries :=
    { h.entries with
      live := fun y hy => by
        have hye : y ≠ e := fun hc => by
          rw [hc, he] at hy
          exact nomatch hy
        exact (Function.update_of_ne hye _ _).trans (h.entries.live y hy) }
  nodes := { h.nodes with }
  coherent hC := (h.coherent hC).mono ⟨rfl, rfl, rfl, rfl, rfl, rfl⟩ (fun y hy _ => ⟨hy, Alike.refl _⟩)
    h.entries.closed
  bare := h.bare

/-- **Dropping a reference** frees the entries above that have no other. -/
theorem ensures_vfsEntryPutFrom : ∀ (fuel : ℕ) {s : Fs} {A : Eid → Bool} {H : Multiset Eid}
    {N : Multiset Nid} {e : Eid}, VfsOk C E D s A (e ::ₘ H) N → (s.entry e).depth < fuel →
    Ensures (vfsEntryPutFrom fuel e) s fun _ s' =>
      ∃ A', VfsOk C E D s' A' H N ∧ PutFrame A A' s s' := by
  intro fuel
  induction fuel with
  | zero => exact fun _ hfuel => absurd hfuel (Nat.not_lt_zero _)
  | succ fuel ih =>
    intro s A H N e h hfuel
    have he : A e = true := h.entries.held e (Multiset.mem_cons_self e H)
    unfold vfsEntryPutFrom
    simp only [ensures_bind, ensures_modify, ensures_get, addRefs_refcount, addRefs_parent,
      addRefs_node, if_true]
    by_cases hlast : (s.entry e).refcount = 1
    · obtain ⟨hroot, -, hchild⟩ := h.entries.last hlast
      rw [if_pos (by omega)]
      simp only [ensures_bind, ensures_vfsEntryDetach]
      have hb := h.bury hlast
      have hdepth : ((s.bury e).entry (s.entry e).parent).depth < fuel := by
        rw [bury_entry (hchild e he)]
        have := h.entries.deeper e he hroot
        omega
      refine (ih hb hdepth).mono ?_
      rintro _ s₁ ⟨A₁, h₁, hframe⟩
      have hA₁ : A₁ e = false := by
        by_contra hc
        have := hframe.sub e (by simpa using hc)
        rw [Function.update_self] at this
        cases this
      have hdone : ∀ s₂, VfsOk C E D s₂ A₁ H N → SameTree s₁ s₂ → s₂.entry = s₁.entry →
          s₂.live = s₁.live → PutFrame A A₁ s { s₂ with live := Function.update s₂.live e false } := by
        intro s₂ h₂ ht hentry hlive
        refine ⟨?_, ?_, ?_, ?_⟩
        · exact fun y hy => (update_false.1 (hframe.sub y hy)).2
        · intro y
          by_cases hy : y = e
          · subst hy
            simp [he, hA₁]
          · dsimp only
            rw [Function.update_of_ne hy, hlive, hframe.live, Function.update_of_ne hy, Fs.bury,
              detach_live]
            rfl
        · exact sameTree_bury.trans (hframe.tree.trans (ht.trans ⟨rfl, rfl, rfl, rfl, rfl, rfl⟩))
        · intro y hy
          have hal := hframe.alike y hy
          rw [bury_entry (update_false.1 (hframe.sub y hy)).1] at hal
          dsimp only
          rw [hentry]
          exact hal
      -- the reference on the node goes last
      cases hn : (s.entry e).node with
      | none =>
        rw [hn] at h₁
        exact ensures_modify.2 ⟨A₁, h₁.free hA₁, hdone s₁ h₁ (SameTree.refl _) rfl rfl⟩
      | some n =>
        rw [hn] at h₁
        simp only [ensures_bind]
        refine (ensures_vfsNodePut h₁).mono ?_
        rintro _ s₂ ⟨hs₂, h₂⟩
        subst hs₂
        exact ensures_modify.2 ⟨A₁, h₂.free hA₁, hdone _ h₂ sameTree_addNodeRefs rfl rfl⟩
    · rw [if_neg (by omega), ensures_pure]
      refine ⟨A, h.drop hlast, fun _ hy => hy, fun y => ?_, sameTree_addRefs, fun y _ => alike_addRefs y⟩
      cases hy : A y <;> simp [Fs.addRefs, Fs.setEntry]

theorem ensures_vfsEntryPut (h : VfsOk C E D s A (e ::ₘ H) N) :
    Ensures (vfsEntryPut e) s fun _ s' => ∃ A', VfsOk C E D s' A' H N ∧ PutFrame A A' s s' := by
  unfold vfsEntryPut
  rw [ensures_bind, ensures_get]
  exact ensures_vfsEntryPutFrom _ h (Nat.lt_succ_self _)

end

end Vfs

end Kernel64
