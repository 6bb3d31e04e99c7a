import Kernel64.Vfs.Transparency

/-!
# No file is lost

A file stays where a call named it, at a path that opens it, until `vfs_unlink` removes that name. This needs
a check that `vfs_rmdir` does not make: what it removes has to be an empty directory.
-/

namespace Kernel64

namespace Vfs

/-- The names of files that calls have given: the directory, the name and the file. -/
abbrev Names := Set (Nid × Name × Nid)

/-- The names of files after a call: `vfs_create` and `vfs_link` give names, and `vfs_unlink` takes them. -/
def Call.named (s s' : Fs) (N : Names) : Call → Names
  | .createFile _ => N ∪ {y | (s.names y.1).lookup y.2.1 = none ∧ (s'.names y.1).lookup y.2.1 = some y.2.2}
  | .link _ _ => N ∪ {y | (s.names y.1).lookup y.2.1 = none ∧ (s'.names y.1).lookup y.2.1 = some y.2.2}
  | .unlink _ => N \ {y | (s.names y.1).lookup y.2.1 = some y.2.2 ∧ (s'.names y.1).lookup y.2.1 = none}
  | _ => N

/-- **Runs in which no allocation fails**, with the names of files given in them. -/
inductive NamedRun (P : Fs → Call → Prop) (s₀ : Fs) : Names → Fs → List Eid → Prop
  | start : NamedRun P s₀ ∅ s₀ []
  | call {N : Names} {s s' : Fs} {files files' : List Eid} {c : Call} {r : ℤ × Option Nid} :
      NamedRun P s₀ N s files → P s c → vfsCall files c s = Except.ok ((r, files'), s') →
      s'.failures = s.failures → NamedRun P s₀ (c.named s s' N) s' files'

/-- What `vfs_rmdir` removes from a directory is an empty directory. -/
def Call.Spares (s : Fs) : Call → Prop
  | .rmdir p => ∀ d m, NamedIn s p d m → s.kind d = .dir → s.kind m = .dir ∧ s.names m = []
  | _ => True

/-- The files are at their names. -/
def Held (s : Fs) (N : Names) : Prop :=
  ∀ d x n, (d, x, n) ∈ N → Site s d x ∧ (s.names d).lookup x = some n ∧ s.kind n = .file

section

variable {s s' s₀ : Fs} {t t' : Tree} {N : Names} {c : Call} {files files' : List Eid} {d n m k : Nid}
  {x y : Name} {p : List Char} {r : ℤ × Option Nid} {entrySupply : ℕ → Option Eid}
  {nodeSupply : ℕ → Option Nid} {nameSupply mountSupply : ℕ → Bool} {events : List Event}

/-! ### Walks on trees that change -/

theorem Tree.look_eq_ok : t.look n x = .ok m ↔ t.find n x = some m := by
  unfold Tree.look
  by_cases hfile : t.kind n = .file
  · rw [if_pos hfile, Tree.find, hfile]
    exact ⟨nofun, nofun⟩
  · rw [if_neg hfile]
    cases t.find n x with
    | none => exact ⟨nofun, nofun⟩
    | some k => exact ⟨fun h => congrArg some (Except.ok.inj h), fun h => congrArg _ (Option.some.inj h)⟩

theorem Tree.find_of_dir (hdir : t.kind n = .dir) : t.find n x = (t.names n).lookup x := by
  rw [Tree.find, hdir]

/-- A walk goes on as before, on a tree that has its steps. -/
theorem Tree.walk_of_steps (P : Nid → Prop)
    (hstep : ∀ n x m, P n → t.find n x = some m → P m ∧ t'.find n x = some m) :
    ∀ (c : List Name) {n : Nid}, P n → t.walk n c = .ok m → P m ∧ t'.walk n c = .ok m := by
  intro c
  induction c with
  | nil => exact fun hn h => ⟨Except.ok.inj h ▸ hn, h⟩
  | cons x c ih =>
    intro n hn h
    rw [Tree.walk] at h ⊢
    cases hl : t.look n x with
    | error rc =>
      rw [hl] at h
      cases h
    | ok k =>
      rw [hl] at h
      obtain ⟨hk, hfind⟩ := hstep n x k hn (Tree.look_eq_ok.1 hl)
      rw [Tree.look_eq_ok.2 hfind]
      exact ih hk h

theorem Tree.find_link (hdir : t.kind d = .dir) :
    (t.link d x n).find k y = if k = d ∧ y = x then some n else t.find k y := by
  unfold Tree.find Tree.link
  dsimp only
  by_cases hk : k = d
  · subst hk
    rw [hdir, Function.update_self, List.lookup_cons]
    by_cases hy : y = x
    · rw [if_pos ⟨rfl, hy⟩, hy, beq_self_eq_true]
    · rw [if_neg fun hc => hy hc.2, beq_eq_false_iff_ne.2 hy]
  · rw [if_neg fun hc => hk hc.1, Function.update_of_ne hk]

theorem Tree.find_unlink (hdir : t.kind d = .dir) :
    (t.unlink d x).find k y = if k = d ∧ y = x then none else t.find k y := by
  unfold Tree.find Tree.unlink
  dsimp only
  by_cases hk : k = d
  · subst hk
    rw [hdir, Function.update_self]
    dsimp only
    rw [lookup_filter_ne]
    by_cases hy : y = x
    · rw [if_pos hy, if_pos ⟨rfl, hy⟩]
    · rw [if_neg hy, if_neg fun hc => hy hc.2]
  · rw [if_neg fun hc => hk hc.1, Function.update_of_ne hk]

/-- A walk does not take the last name of a node below which there is nothing, unless it ends there. -/
theorem Tree.walk_unlink (hdir : t.kind d = .dir) (hx : t.find d x = some k)
    (hleaf : ∀ y, t.find k y = none) (hm : m ≠ k) : ∀ (c : List Name) {n : Nid},
    t.walk n c = .ok m → (t.unlink d x).walk n c = .ok m := by
  intro c
  induction c with
  | nil => exact id
  | cons y c ih =>
    intro n h
    rw [Tree.walk] at h ⊢
    cases hl : t.look n y with
    | error rc =>
      rw [hl] at h
      cases h
    | ok j =>
      rw [hl] at h
      dsimp only at h
      have hfind := Tree.look_eq_ok.1 hl
      by_cases hedge : n = d ∧ y = x
      · -- past this name there is nothing
        obtain ⟨rfl, rfl⟩ := hedge
        obtain rfl : j = k := Option.some.inj (hfind.symm.trans hx)
        cases c with
        | nil => exact absurd (Except.ok.inj h).symm hm
        | cons z c =>
          rw [Tree.walk] at h
          cases hz : t.look j z with
          | error rc =>
            rw [hz] at h
            cases h
          | ok i => exact absurd (Tree.look_eq_ok.1 hz) (by rw [hleaf]; simp)
      · have hfind' : (t.unlink d x).find n y = some j := by
          rw [Tree.find_unlink hdir, if_neg hedge]
          exact hfind
        rw [Tree.look_eq_ok.2 hfind']
        exact ih h

/-! ### One call -/

/-- A call on the mounted file systems, when no allocation fails. -/
theorem FsOk.callChanged (h : FsOk True False (fun _ => False) s files) (hc : c.OnMount s)
    (hcall : vfsCall files c s = Except.ok ((r, files'), s')) (hmem : s'.failures = s.failures) :
    FsOk True False (fun _ => False) s' files' ∧ Changed s s'.tree c := by
  rw [← add_zero (files : Multiset Eid)] at h
  have hstep := h.call (F := fun _ => True) (c := c) (fun _ _ => not_false) (fun _ => False.elim)
    (fun _ => trivial) (fun _ => hc) False.elim
  obtain ⟨hr, -, -, hch⟩ := hstep.of_run hcall
  have hrc := ne_noMemory hcall hmem
  refine ⟨?_, (hch trivial).resolve_left hrc⟩
  dsimp only at hr
  cases hr with
  | same h₁ => rwa [add_zero] at h₁
  | opened h₁ => rwa [add_zero] at h₁
  | released _ _ h₁ => rwa [add_zero] at h₁
  | leaked _ _ _ hleak => exact absurd (hleak trivial) hrc

theorem FsOk.real_of_walk {c : List Name} (h : FsOk True False (fun _ => False) s files)
    (hwalk : s.tree.walk rootNode c = .ok d) : Real s d := by
  have hstep : ∀ n x m, Real s n → s.tree.find n x = some m → Real s m ∧ s.tree.find n x = some m :=
    fun _ _ _ _ hfind => ⟨Or.inr (h.nodes.live_of_find hfind), hfind⟩
  exact (Tree.walk_of_steps (Real s) hstep c (Or.inl rfl) hwalk).1

theorem FsOk.live_of_site (h : FsOk True False (fun _ => False) s files) (hsite : Site s d x) :
    s.nodeLive d = true := by
  obtain ⟨c, -, hwalk⟩ := hsite.walk
  refine (h.real_of_walk hwalk).resolve_left fun hc => ?_
  have hdir := hsite.dir
  rw [hc, h.nodes.root_kind] at hdir
  exact nomatch hdir

/-- What is found in the trees after a node is made: the node, and nothing in it. -/
theorem Makes.cases {kind : Kind} (h : FsOk True False (fun _ => False) s files) (hmakes : Makes s kind t) :
    ∃ d x n, Site s d x ∧ s.find d x = none ∧ s.nodeLive n = false ∧ n ≠ rootNode ∧
      t.kind = Function.update s.kind n kind ∧ t.mounts = s.mounts ∧ t.names n = [] ∧
      ∀ k, k ≠ n → t.names k = if k = d then (x, n) :: s.names d else s.names k := by
  obtain ⟨d, x, n, hsite, hnone, hdead, hroot, hmake⟩ := hmakes
  have hdn : d ≠ n := fun hc => by
    have hlive := h.live_of_site hsite
    rw [hc, hdead] at hlive
    exact nomatch hlive
  unfold Tree.make at hmake
  split at hmake
  · exact nomatch hmake
  · obtain ⟨hn, rfl⟩ := Prod.mk.inj hmake
    obtain rfl := Option.some.inj (Prod.mk.inj hn).2
    refine ⟨d, x, _, hsite, ?_, hdead, hroot, rfl, rfl, ?_, fun k hk => ?_⟩
    · rw [Fs.find, hsite.dir]
      exact hnone
    all_goals dsimp only [Tree.link]
    · rw [Function.update_of_ne hdn.symm, Function.update_self]
    · by_cases hkd : k = d
      · rw [if_pos hkd, hkd, Function.update_self, Function.update_of_ne hdn]
        rfl
      · rw [if_neg hkd, Function.update_of_ne hkd, Function.update_of_ne hk]
        rfl

/-- The trees have what they had, and maybe more. -/
def Grown (s : Fs) (t : Tree) : Prop :=
  ∀ k, Real s k → t.kind k = s.kind k ∧ ∀ y m, s.find k y = some m → t.find k y = some m

theorem Makes.grown {kind : Kind} (h : FsOk True False (fun _ => False) s files) (hmakes : Makes s kind t) :
    Grown s t := by
  obtain ⟨d, x, n, hsite, hnone, hdead, hroot, hkind, hmounts, -, hnames⟩ := hmakes.cases h
  intro k hk
  have hkn : k ≠ n := by
    rintro rfl
    rcases hk with hk | hk
    · exact hroot hk
    · rw [hdead] at hk
      cases hk
  have hkk : t.kind k = s.kind k := by rw [hkind, Function.update_of_ne hkn]
  refine ⟨hkk, fun y m hy => ?_⟩
  rw [Tree.find, hkk, hmounts, hnames k hkn]
  rw [Fs.find] at hy
  by_cases hkd : k = d
  · subst hkd
    rw [Fs.find, hsite.dir] at hnone
    rw [hsite.dir] at hy ⊢
    dsimp only at hy hnone ⊢
    have hyx : y ≠ x := by
      rintro rfl
      rw [hnone] at hy
      cases hy
    rw [if_pos rfl, List.lookup_cons, beq_eq_false_iff_ne.2 hyx]
    exact hy
  · rw [if_neg hkd]
    exact hy

theorem Links.grown (hlinks : Links s t) : Grown s t := by
  obtain ⟨d, x, m, hsite, hnone, -, rfl⟩ := hlinks
  refine fun k _ => ⟨rfl, fun y n hy => ?_⟩
  have hdir : s.tree.kind d = .dir := hsite.dir
  rw [Tree.find_link hdir, if_neg]
  · exact hy
  · rintro ⟨rfl, rfl⟩
    rw [Fs.find, hsite.dir] at hy
    cases hnone.symm.trans hy

theorem Grown.walk {c : List Name} (hg : Grown s t) (h : FsOk True False (fun _ => False) s files)
    (hwalk : s.tree.walk rootNode c = .ok m) : t.walk rootNode c = .ok m := by
  have hstep : ∀ n x m, Real s n → s.tree.find n x = some m → Real s m ∧ t.find n x = some m :=
    fun n x m hn hfind => ⟨Or.inr (h.nodes.live_of_find hfind), (hg n hn).2 x m hfind⟩
  exact (Tree.walk_of_steps (Real s) hstep c (Or.inl rfl) hwalk).2

theorem Grown.site (hg : Grown s s'.tree) (h : FsOk True False (fun _ => False) s files)
    (hsite : Site s d x) : Site s' d x := by
  have hlive := h.live_of_site hsite
  obtain ⟨c, hc, hwalk⟩ := hsite.walk
  exact ⟨⟨c, hc, hg.walk h hwalk⟩, (hg d (Or.inr hlive)).1.trans hsite.dir, hsite.name⟩

/-- What was at a name still is. -/
theorem Grown.held (hg : Grown s s'.tree) (h : FsOk True False (fun _ => False) s files) (hheld : Held s N) :
    Held s' N := by
  intro d x n hmem
  obtain ⟨hsite, hlook, hfile⟩ := hheld d x n hmem
  have hlive := h.live_of_site hsite
  have hfind : s.find d x = some n := by
    rw [Fs.find, hsite.dir]
    exact hlook
  have hsite' := hg.site h hsite
  have hfind' := (hg d (Or.inr hlive)).2 x n hfind
  have hdir' : s'.tree.kind d = .dir := hsite'.dir
  rw [Tree.find_of_dir hdir'] at hfind'
  exact ⟨hsite', hfind', (hg n (Or.inr (h.nodes.live_of_find hfind))).1.trans hfile⟩

/-- A name that the trees got. -/
theorem Makes.new {kind : Kind} (h : FsOk True False (fun _ => False) s files)
    (hmakes : Makes s kind s'.tree) (hold : (s.names d).lookup x = none)
    (hnew : (s'.names d).lookup x = some n) : Site s d x ∧ s'.kind n = kind := by
  obtain ⟨d', x', n', hsite, -, -, -, hkind, -, hempty, hnames⟩ := hmakes.cases h
  have hdn : d ≠ n' := by
    rintro rfl
    have hnil : s'.names d = [] := hempty
    rw [hnil] at hnew
    exact nomatch hnew
  have hd : s'.names d = if d = d' then (x', n') :: s.names d' else s.names d := hnames d hdn
  rw [hd] at hnew
  split_ifs at hnew with hdd
  · subst hdd
    rw [List.lookup_cons] at hnew
    split at hnew
    · next hx =>
      rw [eq_of_beq hx, ← Option.some.inj hnew]
      exact ⟨hsite, (congrFun hkind n').trans (Function.update_self _ _ _)⟩
    · exact nomatch hold.symm.trans hnew
  · exact nomatch hold.symm.trans hnew

theorem Links.new (hlinks : Links s s'.tree) (hold : (s.names d).lookup x = none)
    (hnew : (s'.names d).lookup x = some n) : Site s d x ∧ s'.kind n = .file := by
  obtain ⟨d', x', m, hsite, -, hfile, htree⟩ := hlinks
  have hd : s'.names d = Function.update s.names d' ((x', m) :: s.names d') d :=
    congrFun (congrArg Tree.names htree) d
  have hkind : s'.kind = s.kind := congrArg Tree.kind htree
  by_cases hdd : d = d'
  · subst hdd
    rw [hd, Function.update_self, List.lookup_cons] at hnew
    split at hnew
    · next hx =>
      rw [eq_of_beq hx, ← Option.some.inj hnew, hkind]
      exact ⟨hsite, hfile⟩
    · exact nomatch hold.symm.trans hnew
  · rw [hd, Function.update_of_ne hdd] at hnew
    exact nomatch hold.symm.trans hnew

/-! ### Names that are removed -/

/-- Removing the name of a node with nothing below it keeps the paths to the others. -/
theorem Removes.walk {c : List Name} (hrem : Removes s p k t) (hleaf : ∀ y, s.find k y = none) (hm : m ≠ k)
    (hwalk : s.tree.walk rootNode c = .ok m) : t.walk rootNode c = .ok m := by
  obtain ⟨d, x, -, hsite, hlook, rfl⟩ := hrem
  have hdir : s.tree.kind d = .dir := hsite.dir
  refine Tree.walk_unlink hdir ?_ hleaf hm c hwalk
  rw [Tree.find_of_dir hdir]
  exact hlook

/-- The names that stay are where they were. -/
theorem Removes.held (hrem : Removes s p k s'.tree) (hleaf : ∀ y, s.find k y = none) (hheld : Held s N) :
    ∀ d x n, (d, x, n) ∈ N → (s'.names d).lookup x ≠ none ∨ n ≠ k →
      Site s' d x ∧ (s'.names d).lookup x = some n ∧ s'.kind n = .file := by
  intro d x n hmem hstay
  obtain ⟨hsite, hlook, hfile⟩ := hheld d x n hmem
  obtain ⟨c, hc, hwalk⟩ := hsite.walk
  have hdk : d ≠ k := by
    rintro rfl
    have := hleaf x
    rw [Fs.find, hsite.dir] at this
    cases this.symm.trans hlook
  have hwalk' := hrem.walk hleaf hdk hwalk
  obtain ⟨d', x', -, -, hlook', htree⟩ := hrem
  have hkind : s'.kind = s.kind := congrArg Tree.kind htree
  have hnames : s'.names = Function.update s.names d' ((s.names d').filter fun y => y.1 ≠ x') :=
    congrArg Tree.names htree
  refine ⟨⟨⟨c, hc, hwalk'⟩, ?_, hsite.name⟩, ?_, ?_⟩
  · rw [hkind]
    exact hsite.dir
  · rw [hnames] at hstay ⊢
    by_cases hd : d = d'
    · subst hd
      rw [Function.update_self, lookup_filter_ne] at hstay ⊢
      by_cases hx : x = x'
      · rw [if_pos hx] at hstay
        subst hx
        exact absurd (Option.some.inj (hlook.symm.trans hlook')) (hstay.resolve_left fun hc => hc rfl)
      · rw [if_neg hx]
        exact hlook
    · rw [Function.update_of_ne hd]
      exact hlook
  · rw [hkind]
    exact hfile

theorem find_of_file (hfile : s.kind k = .file) (y : Name) : s.find k y = none := by
  rw [Fs.find, hfile]

theorem find_of_empty (hdir : s.kind k = .dir) (hnil : s.names k = []) (y : Name) : s.find k y = none := by
  rw [Fs.find, hdir, hnil]
  exact List.lookup_nil

/-- **A call keeps the files at their names.** -/
theorem Held.call (hheld : Held s N) (h : FsOk True False (fun _ => False) s files)
    (hch : Changed s s'.tree c) (hsp : c.Spares s) : Held s' (c.named s s' N) := by
  -- the names that were there before the call, and those that it gave
  have hadd : Grown s s'.tree → (∀ d x n, (s.names d).lookup x = none → (s'.names d).lookup x = some n →
      Site s d x ∧ s'.kind n = .file) →
      Held s' (N ∪ {y | (s.names y.1).lookup y.2.1 = none ∧ (s'.names y.1).lookup y.2.1 = some y.2.2}) := by
    intro hg hnew d x n hmem
    rcases hmem with hmem | ⟨hold, hlook⟩
    · exact hg.held h hheld d x n hmem
    · obtain ⟨hsite, hfile⟩ := hnew d x n hold hlook
      exact ⟨hg.site h hsite, hlook, hfile⟩
  cases hch with
  | same ht =>
    have hg : Grown s s'.tree := by
      rw [ht]
      exact fun k _ => ⟨rfl, fun _ _ hy => hy⟩
    have hnames : s'.names = s.names := congrArg Tree.names ht
    have hnone : ∀ d x n, (s.names d).lookup x = none → (s'.names d).lookup x = some n →
        Site s d x ∧ s'.kind n = .file := by
      intro d x n hold hnew
      rw [hnames, hold] at hnew
      exact nomatch hnew
    cases c with
    | createFile p => exact hadd hg hnone
    | link p q => exact hadd hg hnone
    | unlink p => exact fun d x n hmem => hg.held h hheld d x n hmem.1
    | _ => exact hg.held h hheld
  | create hmakes => exact hadd (hmakes.grown h) fun d x n hold hnew => hmakes.new h hold hnew
  | mkdir hmakes => exact (hmakes.grown h).held h hheld
  | link hlinks => exact hadd hlinks.grown fun d x n hold hnew => hlinks.new hold hnew
  | @unlink p k hfile hrem =>
    intro d x n ⟨hmem, hstay⟩
    refine hrem.held (find_of_file hfile) hheld d x n hmem (Or.inl fun hc => hstay ⟨?_, hc⟩)
    exact (hheld d x n hmem).2.1
  | @rmdir p k hrem =>
    obtain ⟨d', x', hin, hsite, -⟩ := id hrem
    obtain ⟨hdir, hnil⟩ := hsp d' k hin hsite.dir
    intro d x n hmem
    refine hrem.held (find_of_empty hdir hnil) hheld d x n hmem (Or.inr fun hc => ?_)
    have hfile := (hheld d x n hmem).2.2
    rw [hc, hdir] at hfile
    exact nomatch hfile

/-- The path with the given components. -/
def pathOf (c : List Name) : List Char := ['/'].intercalate c

theorem components_pathOf {c : List Name} (hc : ∀ x ∈ c, Named x) : components (pathOf c) = c := by
  unfold components pathOf
  by_cases hnil : c = []
  · subst hnil
    rfl
  · rw [List.splitOn_intercalate '/' (fun x hx => (hc x hx).slash) hnil]
    exact List.filter_eq_self.2 fun x hx => by simpa using (hc x hx).ne_nil

theorem NamedRun.sound (h₀ : FsOk True False (fun _ => False) s₀ 0)
    (hrun : NamedRun (fun s c => c.OnMount s ∧ c.Spares s) s₀ N s files) :
    FsOk True False (fun _ => False) s files ∧ Held s N := by
  induction hrun with
  | start => exact ⟨h₀, fun _ _ _ hmem => absurd hmem (Set.notMem_empty _)⟩
  | call _ hc hcall hmem ih =>
    obtain ⟨h, hheld⟩ := ih
    obtain ⟨h', hch⟩ := h.callChanged hc.1 hcall hmem
    exact ⟨h', hheld.call h hch hc.2⟩

end

end Vfs

end Kernel64
