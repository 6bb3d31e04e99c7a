import Kernel64.Vfs.Calls

/-!
# Runs of calls

A run makes calls one after the other, on the file systems and the files that are open. What one call does
(`FsOk.call`) is said once; the results over whole runs follow from it.
-/

namespace Kernel64

namespace Vfs

/-- The calls. A file that is released is given by its place among the open files. -/
inductive Call where
  | openFile (path : List Char)
  | createFile (path : List Char)
  | release (i : ℕ)
  | link (oldpath newpath : List Char)
  | unlink (path : List Char)
  | mkdir (path : List Char)
  | rmdir (path : List Char)
  | mount (name : Name)
  | umount (name : Name)

/-- The paths of a call. -/
def Call.paths : Call → List (List Char)
  | .openFile p => [p]
  | .createFile p => [p]
  | .release _ => []
  | .link p q => [p, q]
  | .unlink p => [p]
  | .mkdir p => [p]
  | .rmdir p => [p]
  | .mount _ => []
  | .umount _ => []

/-- The file that a call opened, with its node. -/
def fileOf (files : List Eid) (r : ℤ × Option Eid) : FsM ((ℤ × Option Nid) × List Eid) := do
  match r.2 with
  | none => return ((r.1, none), files)
  | some e => return ((r.1, ((← get).entry e).node), e :: files)

/-- A call, with what it returns, the node that it opens and the files that are open after it. -/
def vfsCall (files : List Eid) : Call → FsM ((ℤ × Option Nid) × List Eid)
  | .openFile p => do fileOf files (← vfsOpen p)
  | .createFile p => do fileOf files (← vfsCreate p)
  | .release i =>
    match files[i]? with
    | none => return ((0, none), files)
    | some e => do
      vfsRelease e
      return ((0, none), files.eraseIdx i)
  | .link p q => do return ((← vfsLink p q, none), files)
  | .unlink p => do return ((← vfsUnlink p, none), files)
  | .mkdir p => do return ((← vfsMkdir p, none), files)
  | .rmdir p => do return ((← vfsRmdir p, none), files)
  | .mount x => do return ((← vfsMount x, none), files)
  | .umount x => do return ((← vfsUmount x, none), files)

/-- A call on the directory trees alone. -/
def Tree.call (t : Tree) : Call → (ℤ × Option Nid) × Tree
  | .openFile p => t.fileOpen p false
  | .createFile p => t.fileOpen p true
  | .link p q => (((t.hardLink p q).1, none), (t.hardLink p q).2)
  | .unlink p => (((t.remove p true).1, none), (t.remove p true).2)
  | .mkdir p => (((t.mkdir p).1, none), (t.mkdir p).2)
  | .rmdir p => (((t.remove p false).1, none), (t.remove p false).2)
  | _ => ((0, none), t)

/-- A call on the trees, below a mount. -/
def Call.OnTree : Call → Prop
  | .mount _ => False
  | .umount _ => False
  | c => ∀ p ∈ c.paths, Deep p

/-- A call on the file systems that are mounted: it makes no file in the root. -/
def Call.OnMount (s : Fs) : Call → Prop
  | .mount _ => False
  | .umount _ => False
  | .createFile p => ¬AtRoot s p
  | _ => True

/-- How a call changes the trees. -/
inductive Changed (s : Fs) (t : Tree) : Call → Prop
  | same {c : Call} : t = s.tree → Changed s t c
  | create {p : List Char} : Makes s .file t → Changed s t (.createFile p)
  | mkdir {p : List Char} : Makes s .dir t → Changed s t (.mkdir p)
  | link {p q : List Char} : Links s t → Changed s t (.link p q)
  | unlink {p : List Char} {m : Nid} : s.kind m = .file → Removes s p m t → Changed s t (.unlink p)
  | rmdir {p : List Char} {m : Nid} : Removes s p m t → Changed s t (.rmdir p)

/-- A mount that makes a node. -/
def Call.Mounts (s : Fs) : Call → Prop
  | .mount x => Vfs.Mounts s x
  | _ => False

/-- A call that has been made: the file systems before it, and what it gave. -/
structure Event where
  before : Fs
  call : Call
  result : ℤ × Option Nid

/-- **Runs of calls**, from the file systems `s₀`. -/
inductive VfsRun (s₀ : Fs) : List Event → Fs → List Eid → Prop
  | start : VfsRun s₀ [] s₀ []
  | call {events : List Event} {s s' : Fs} {files files' : List Eid} {c : Call} {r : ℤ × Option Nid} :
      VfsRun s₀ events s files → vfsCall files c s = Except.ok ((r, files'), s') →
      VfsRun s₀ (events ++ [⟨s, c, r⟩]) s' files'

section

variable {C E : Prop} {D : Eid → Prop} {s s₀ s' : Fs} {H : Multiset Eid} {F : Fault → Prop} {c : Call}
  {files : List Eid} {events : List Event}

/-- What a call gives. The references in `L` were left behind by earlier calls. -/
inductive Called (C E : Prop) (D : Eid → Prop) (L : Multiset Eid) (files : List Eid) (c : Call) (s s' : Fs) :
    ℤ × Option Nid → List Eid → Prop
  | same {rc : ℤ} : FsOk C E D s' (files + L) → KeptUp (files + L) s s' →
      (rc = 0 → ∀ p, c ≠ .openFile p ∧ c ≠ .createFile p) → Called C E D L files c s s' (rc, none) files
  | opened {e : Eid} {m : Nid} : FsOk C E D s' (e ::ₘ (files + L)) → KeptUp (files + L) s s' →
      (s'.entry e).node = some m → Called C E D L files c s s' (0, some m) (e :: files)
  | released {e : Eid} {i : ℕ} : c = .release i → files[i]? = some e →
      FsOk C E D s' (files.eraseIdx i + L) → Called C E D L files c s s' (0, none) (files.eraseIdx i)
  | leaked {rc : ℤ} {e : Eid} : rc ≠ 0 → FsOk C E (fun y => D y ∨ y = e) s' (e ::ₘ (files + L)) →
      (D e ∨ ∃ p, c = .createFile p ∧ ¬CreateSafe s p) → (C → rc = -ENOMEM) →
      Called C E D L files c s s' (rc, none) files

theorem FsOk.onMount (h : FsOk C E D s H) (hCD : C → ∀ y, ¬D y) (hC : C) (hc : c.OnTree) : c.OnMount s := by
  cases c with
  | createFile p => exact h.not_atRoot hCD hC (hc p (List.mem_singleton_self p)).deepDir
  | mount x => exact hc
  | umount x => exact hc
  | _ => exact trivial

theorem FsOk.of_not {C' : Prop} (h : FsOk C E D s H) (hC : ¬C') : FsOk C' E D s H :=
  { h with coherent := fun hc => absurd hc hC }

/-- The file of a call that opens one. -/
theorem FsOk.callOpen {L : Multiset Eid} {p : List Char} (create : Bool) (h : FsOk C E D s (files + L))
    (hCD : C → ∀ y, ¬D y) (hnull : ∀ y, D y → F .null)
    (hlong : (∃ x ∈ components p, maxPathLen ≤ x.length) → F .bounds)
    (hC : C → create = true → AtRoot s p → CreateSafe s p)
    (hc : create = true → c = .createFile p) :
    EnsuresOr F (vfsFileOpen p create >>= fileOf files) s fun r s' => Called C E D L files c s s' r.1 r.2 ∧
      Evolved (fun _ => False) s s' ∧
      (C → DeepDir p → r.1.1 = -ENOMEM ∨ s.tree.fileOpen p create = (r.1, s'.tree)) ∧
      (C → r.1.1 = -ENOMEM ∨ s'.tree = s.tree ∨ (create = true ∧ Makes s .file s'.tree)) := by
  rw [ensuresOr_bind]
  refine (h.fileOpen hCD hnull hlong create).mono ?_
  intro ⟨rc, o⟩ s₁ ⟨hk, hev, hopened, hmakes⟩
  unfold fileOf
  dsimp only at hopened
  cases hopened with
  | failed hrc h₁ htree => exact ensuresOr_pure.2 ⟨.same h₁ hk fun h0 => absurd h0 hrc, hev, htree, hmakes⟩
  | @opened e m h₁ hm htree =>
    dsimp only
    rw [ensuresOr_bind, ensuresOr_get, ensuresOr_pure, hm]
    exact ⟨.opened h₁ hk hm, hev, fun hc hp => Or.inr (htree hc hp), hmakes⟩
  | leaked hrc h₁ hwhy _ hmem =>
    have hmem' : C → rc = -ENOMEM := fun hc =>
      (hmem hc).resolve_right fun hat =>
        (hwhy.resolve_left (hCD hc _)).2 (hC hc (hwhy.resolve_left (hCD hc _)).1 hat)
    refine ensuresOr_pure.2 ⟨.leaked hrc h₁ (hwhy.imp id fun hw => ⟨p, hc hw.1, hw.2⟩) hmem', hev,
      fun hc _ => Or.inl (hmem' hc), hmakes⟩

/-- **What a call does.** -/
theorem FsOk.call {L : Multiset Eid} (h : FsOk C E D s (files + L)) (hCD : C → ∀ y, ¬D y)
    (hnull : ∀ y, D y → F .null)
    (hlong : (∃ p ∈ c.paths, ∃ x ∈ components p, maxPathLen ≤ x.length) → F .bounds)
    (hC : C → c.OnMount s) (hE : E → ¬c.Mounts s) :
    EnsuresOr F (vfsCall files c) s fun r s' => Called C E D L files c s s' r.1 r.2 ∧
      (C → Evolved (fun k => ∃ c, s.tree.walk rootNode c = .ok k) s s') ∧
      (C → c.OnTree → r.1.1 = -ENOMEM ∨ s.tree.call c = (r.1, s'.tree)) ∧
      (C → r.1.1 = -ENOMEM ∨ Changed s s'.tree c) := by
  have hlong₁ : ∀ p ∈ c.paths, (∃ x ∈ components p, maxPathLen ≤ x.length) → F .bounds :=
    fun p hp hx => hlong ⟨p, hp, hx⟩
  cases c with
  | openFile p =>
    have hp := hlong₁ p (List.mem_singleton_self p)
    refine (h.callOpen (c := .openFile p) false hCD hnull hp (fun _ => nofun) nofun).mono
      fun r s' ⟨hr, hev, ht, hch⟩ => ?_
    refine ⟨hr, fun _ => hev.mono fun _ => False.elim,
      fun hc hon => ht hc (hon p (List.mem_singleton_self p)).deepDir, fun hc => ?_⟩
    exact (hch hc).imp id fun hs => .same (hs.resolve_right fun hm => nomatch hm.1)
  | createFile p =>
    have hp := hlong₁ p (List.mem_singleton_self p)
    refine (h.callOpen true hCD hnull hp (fun hc _ hat => absurd hat (hC hc)) fun _ => rfl).mono
      fun r s' ⟨hr, hev, ht, hch⟩ => ?_
    refine ⟨hr, fun _ => hev.mono fun _ => False.elim,
      fun hc hon => ht hc (hon p (List.mem_singleton_self p)).deepDir, fun hc => ?_⟩
    exact (hch hc).imp id fun hs => hs.elim .same fun hm => .create hm.2
  | release i =>
    unfold vfsCall
    dsimp only
    cases hi : files[i]? with
    | none =>
      exact ensuresOr_pure.2 ⟨.same h (fun _ _ => rfl) fun _ _ => ⟨nofun, nofun⟩,
        fun _ => (SameTree.refl s).evolved, fun _ _ => Or.inr rfl, fun _ => Or.inr (.same rfl)⟩
    | some e =>
      have hperm : (files : Multiset Eid) = e ::ₘ (files.eraseIdx i : Multiset Eid) := by
        obtain ⟨hlt, rfl⟩ := List.getElem?_eq_some_iff.1 hi
        exact Multiset.coe_eq_coe.2 (List.getElem_cons_eraseIdx_perm hlt).symm
      rw [hperm, Multiset.cons_add] at h
      dsimp only
      rw [ensuresOr_bind]
      refine h.put.ensuresOr.mono fun _ s₁ ⟨h₁, _, ht₁⟩ => ?_
      refine ensuresOr_pure.2 ⟨.released rfl hi h₁, fun _ => ht₁.evolved, fun _ _ => Or.inr ?_,
        fun _ => Or.inr (.same ht₁.tree)⟩
      rw [ht₁.tree]
      rfl
  | link p q =>
    unfold vfsCall
    rw [ensuresOr_bind]
    refine (h.hardLink hCD hnull ?_).mono ?_
    · intro ⟨x, hx, hlen⟩
      rcases List.mem_append.1 hx with hx | hx
      · exact hlong₁ p List.mem_cons_self ⟨x, hx, hlen⟩
      · exact hlong₁ q (List.mem_cons_of_mem _ List.mem_cons_self) ⟨x, hx, hlen⟩
    · intro rc s₁ ⟨h₁, hk, hev, htree, hlinks⟩
      refine ensuresOr_pure.2 ⟨.same h₁ hk fun _ _ => ⟨nofun, nofun⟩,
        fun hc => hev.mono fun _ hk => hk hc, fun hc hon => ?_,
        fun hc => (hlinks hc).imp id fun hs => hs.elim .same .link⟩
      have hdeep : ∀ p' ∈ [p, q], Deep p' := hon
      refine (htree hc (hdeep p List.mem_cons_self)
        (hdeep q (List.mem_cons_of_mem _ List.mem_cons_self)).deepDir).imp id fun ht => ?_
      rw [Tree.call, ht]
  | unlink p =>
    unfold vfsCall vfsUnlink
    rw [ensuresOr_bind]
    have hp := hlong₁ p (List.mem_singleton_self p)
    refine (h.remove hCD hnull hp FsOk.ramfsUnlink).mono ?_
    intro rc s₁ ⟨h₁, hk, hev, htree, hremoves⟩
    refine ensuresOr_pure.2 ⟨.same h₁ hk fun _ _ => ⟨nofun, nofun⟩, fun _ => hev.mono fun _ => False.elim,
      fun hc hon => ?_,
      fun hc => Or.inr ((hremoves hc).elim .same fun ⟨_, hm, hr⟩ => .unlink (hm rfl) hr)⟩
    refine (htree hc (hon p (List.mem_singleton_self p))).imp id fun ht => ?_
    rw [Tree.call, ht]
  | mkdir p =>
    unfold vfsCall
    rw [ensuresOr_bind]
    refine (h.mkdir hCD hnull (hlong₁ p (List.mem_singleton_self p))).mono ?_
    intro rc s₁ ⟨h₁, hk, hev, htree, hmakes⟩
    refine ensuresOr_pure.2 ⟨.same h₁ hk fun _ _ => ⟨nofun, nofun⟩, fun _ => hev.mono fun _ => False.elim,
      fun hc hon => ?_,
      fun hc => (hmakes hc).imp id fun hs => hs.elim .same .mkdir⟩
    refine (htree hc (hon p (List.mem_singleton_self p)).deepDir).imp id fun ht => ?_
    rw [Tree.call, ht]
  | rmdir p =>
    unfold vfsCall vfsRmdir
    rw [ensuresOr_bind]
    have hp := hlong₁ p (List.mem_singleton_self p)
    refine (h.remove hCD hnull hp FsOk.ramfsRmdir).mono ?_
    intro rc s₁ ⟨h₁, hk, hev, htree, hremoves⟩
    refine ensuresOr_pure.2 ⟨.same h₁ hk fun _ _ => ⟨nofun, nofun⟩, fun _ => hev.mono fun _ => False.elim,
      fun hc hon => ?_,
      fun hc => Or.inr ((hremoves hc).elim .same fun ⟨_, _, hr⟩ => .rmdir hr)⟩
    refine (htree hc (hon p (List.mem_singleton_self p))).imp id fun ht => ?_
    rw [Tree.call, ht]
  | mount x =>
    have hnot : ¬C := hC
    unfold vfsCall
    rw [ensuresOr_bind]
    refine ((h.of_not not_false).mount hE).ensuresOr.mono ?_
    intro rc s₁ ⟨h₁, hentry, hlive, _⟩
    refine ensuresOr_pure.2 ⟨.same (h₁.of_not hnot) (fun y _ => by rw [hentry])
      fun _ _ => ⟨nofun, nofun⟩, fun hc => absurd hc hnot, fun hc => absurd hc hnot, fun hc => absurd hc hnot⟩
  | umount x =>
    have hnot : ¬C := hC
    unfold vfsCall
    rw [ensuresOr_bind]
    refine ((h.of_not not_false).umount False.elim).ensuresOr.mono ?_
    intro rc s₁ ⟨h₁, hentry, hlive, _⟩
    refine ensuresOr_pure.2 ⟨.same (h₁.of_not hnot) (fun y _ => by rw [hentry])
      fun _ _ => ⟨nofun, nofun⟩, fun hc => absurd hc hnot, fun hc => absurd hc hnot, fun hc => absurd hc hnot⟩

end

end Vfs

end Kernel64
