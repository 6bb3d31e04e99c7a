import Kernel64.Initramfs.Model
import Kernel64.Ramfs.Runs
import Kernel64.Vfs.Grow
import Kernel64.Vfs.Memory

/-!
# Making a directory and a file

`create_dir` and `create_file` on the joined state: the directory or the file is at its path, the file has
the bytes that were given, and everything else is as it was; or an allocation failed on the way.
-/

namespace Kernel64

namespace Initramfs

open Vfs Ramfs

/-- How many allocations have failed, in the trees and in the files. -/
def State.failures (s : State) : ℕ := s.fs.failures + s.files.failures

/-- The trees and the files are sound, and the files hold the writes `W`. -/
structure Sound (s : State) (W : ℕ → Writes) : Prop where
  fs : FsOk True False (fun _ => False) s.fs 0
  files : ∃ T, FilesOk s.files T W

/-- The writes leave these bytes in a file. -/
structure Holds (w : Writes) (data : List UInt8) : Prop where
  size : maxEnd w = data.length
  byte : ∀ i (hi : i < data.length), lastWritten w i = data[i]

/-! ### Rules -/

section

variable {α : Type} {s : State} {Q : α → State → Prop}

theorem ensures_onFs {m : FsM α} : Ensures (onFs m) s Q ↔
    Ensures m s.fs fun a fs => Q a { s with fs := fs, files := clearNew s.fs fs s.files } := by
  unfold Ensures onFs
  cases hm : m s.fs with
  | error e => simp
  | ok r =>
    obtain ⟨a, fs⟩ := r
    simp

theorem ensures_onFiles {m : FilesM α} : Ensures (onFiles m) s Q ↔
    Ensures m s.files fun a files => Q a { s with files := files } := by
  unfold Ensures onFiles
  cases hm : m s.files with
  | error e => simp
  | ok r =>
    obtain ⟨a, files⟩ := r
    simp

theorem countsUp_onFiles {m : FilesM α} {P : α → Prop} (hm : CountsUp Files.failures m P) :
    CountsUp State.failures (onFiles m) P := by
  intro s a s' hrun
  unfold onFiles at hrun
  cases hm' : m s.files with
  | error e =>
    rw [hm'] at hrun
    exact nomatch hrun
  | ok r =>
    obtain ⟨b, files⟩ := r
    rw [hm', Except.ok.injEq, Prod.mk.injEq] at hrun
    obtain ⟨rfl, rfl⟩ := hrun
    obtain ⟨hle, hlt⟩ := hm s.files b files hm'
    exact ⟨Nat.add_le_add_left hle _, fun hP => Nat.add_lt_add_left (hlt hP) _⟩

/-- A file is not written to its end only when an allocation failed, or there is no `write`. -/
theorem countsUp_writeFileFrom {fuel h : ℕ} : ∀ (N : ℕ) (data : List UInt8),
    CountsUp State.failures (writeFileFrom fuel h N data) (· = -ENOMEM)
  | 0, _ => countsUp_throw
  | N + 1, data => by
    have hzero : ¬(0 : ℤ) = -ENOMEM := by decide
    have hwrite : CountsUp State.failures (vfsWrite fuel h data) (· = -ENOMEM) := by
      refine countsUp_get fun s => countsUpAt_ite (fun _ => countsUp_onFiles countsUp_vfsWrite s) fun _ => ?_
      exact countsUp_pure (P := (· = -ENOMEM)) (by decide) s
    rw [writeFileFrom]
    refine countsUp_ite (fun _ => countsUp_pure hzero) fun _ =>
      hwrite.bind fun rc => countsUp_ite (fun _ => ?_) fun _ => ?_
    · exact countsUp_pure fun h => h.2 h.1
    · exact (countsUp_writeFileFrom N _).mono fun _ h => h.1

end

section

variable {old new : Fs} {files : Files} {T : ℕ → ColorTree Ptr} {W : ℕ → Writes}

theorem clearNew_same (h : new.nodeLive = old.nodeLive) : clearNew old new files = files := by
  unfold clearNew
  rw [h]
  have hnode : (fun n => if old.nodeLive n = false ∧ old.nodeLive n = true then
      { files.node n with pages := ⟨(files.node n).pages.node, 0#64⟩, size := 0 } else files.node n) =
      files.node := by
    funext n
    rw [if_neg]
    rintro ⟨h₁, h₂⟩
    rw [h₁] at h₂
    exact nomatch h₂
  rw [hnode]

/-- The new nodes have no bytes. -/
theorem filesOk_clearNew (old new : Fs) (hok : FilesOk files T W) : ∃ T', FilesOk (clearNew old new files) T'
    fun n => if old.nodeLive n = false ∧ new.nodeLive n = true then [] else W n := by
  classical
  refine ⟨fun n => if old.nodeLive n = false ∧ new.nodeLive n = true then .nil else T n, ?_⟩
  -- a page in one of the new trees is in one of the old trees, of a node that stays
  have hmem : ∀ n p, p ∈ (if old.nodeLive n = false ∧ new.nodeLive n = true then ColorTree.nil
      else T n).inorder → p ∈ (T n).inorder ∧ ¬(old.nodeLive n = false ∧ new.nodeLive n = true) := by
    intro n p hp
    split_ifs at hp with hn
    · exact absurd hp List.not_mem_nil
    · exact ⟨hp, hn⟩
  have hnode : ∀ n, ¬(old.nodeLive n = false ∧ new.nodeLive n = true) →
      (clearNew old new files).node n = files.node n := fun n hn => if_neg hn
  constructor
  case node =>
    intro n
    by_cases hn : old.nodeLive n = false ∧ new.nodeLive n = true
    · dsimp only [clearNew]
      rw [if_pos hn, if_pos hn]
      exact ⟨⟨rfl, trivial, List.nodup_nil⟩, ColorTree.redBlack_iff.2 ⟨rfl, trivial, 0, rfl⟩,
        List.Pairwise.nil, fun _ hp => absurd hp List.not_mem_nil⟩
    · rw [hnode n hn, if_neg hn]
      exact hok.node n
  case used =>
    intro n p hp
    obtain ⟨hp, hn⟩ := hmem n p hp
    rw [hnode n hn]
    exact hok.used n p hp
  case apart =>
    intro n n' p p' hp hp' heq
    obtain ⟨hp, hn⟩ := hmem n p hp
    obtain ⟨hp', hn'⟩ := hmem n' p' hp'
    rw [hnode n hn, hnode n' hn'] at heq
    exact hok.apart n n' p p' hp hp' heq
  case data =>
    intro n p hp o ho
    obtain ⟨hp, hn⟩ := hmem n p hp
    rw [hnode n hn, if_neg hn]
    exact hok.data n p hp o ho
  case hole =>
    intro n x hx
    by_cases hn : old.nodeLive n = false ∧ new.nodeLive n = true
    · rw [if_pos hn]
      rfl
    · rw [hnode n hn, if_neg hn] at hx
      rw [if_neg hn]
      exact hok.hole n x hx
  case size =>
    intro n
    by_cases hn : old.nodeLive n = false ∧ new.nodeLive n = true
    · dsimp only [clearNew]
      rw [if_pos hn, if_pos hn]
      rfl
    · rw [hnode n hn, if_neg hn]
      exact hok.size n
  case size_le =>
    intro n
    split_ifs with hn
    · exact Nat.zero_le _
    · exact hok.size_le n
  case offset => exact hok.offset

end

/-! ### The bytes of a file -/

section

variable {w : Writes} {data l : List UInt8}

theorem holds_nil : Holds [] [] := ⟨rfl, fun _ hi => absurd hi (Nat.not_lt_zero _)⟩

/-- A write at the end adds its bytes. -/
theorem Holds.append (h : Holds w data) (l : List UInt8) : Holds ((data.length, l) :: w) (data ++ l) where
  size := by
    rw [maxEnd, h.size, List.length_append]
    omega
  byte i hi := by
    rw [List.length_append] at hi
    rw [lastWritten]
    by_cases hlt : i < data.length
    · rw [if_neg (by omega), h.byte i hlt, List.getElem_append_left hlt]
    · rw [if_pos (by omega), List.getElem_append_right (by omega), List.getD_eq_getElem?_getD,
        List.getElem?_eq_getElem, Option.getD_some]

theorem Holds.slice (h : Holds w data) {o n : ℕ} (hle : o + n ≤ data.length) :
    Buf.slice (lastWritten w) o n = (data.drop o).take n := by
  refine List.ext_getElem (by simp; omega) fun j hj _ => ?_
  rw [Buf.length_slice] at hj
  rw [Buf.getElem_slice, h.byte _ (by omega), List.getElem_take, List.getElem_drop]

end

/-! ### Writing a file -/

section

variable {s : State} {T : ℕ → ColorTree Ptr} {W : ℕ → Writes} {fuel h n : ℕ}

/-- **Writing** adds the bytes to the file, or there is no memory. -/
theorem ensures_writeFileFrom (hfuel : maxPages < fuel) : ∀ (N : ℕ) (data pre : List UInt8) {s : State}
    {T : ℕ → ColorTree Ptr} {W : ℕ → Writes}, FilesOk s.files T W → s.fs.kind n = .file →
    s.files.file h = ⟨n, pre.length⟩ → Holds (W n) pre → (pre ++ data).length ≤ maxOffset →
    data.length < N →
    Ensures (writeFileFrom fuel h N data) s fun rc s' => s'.fs = s.fs ∧ s'.reports = s.reports ∧
      (rc = -ENOMEM ∨ rc = 0 ∧ ∃ T' w, FilesOk s'.files T' (Function.update W n w) ∧
        Holds w (pre ++ data)) := by
  intro N
  induction N with
  | zero => exact fun _ _ _ _ _ _ _ _ _ _ hN => absurd hN (Nat.not_lt_zero _)
  | succ N ih =>
    intro data pre s T W hok hkind hfile hpre hmax hN
    unfold writeFileFrom
    by_cases hdata : data = []
    · subst hdata
      rw [if_pos rfl, ensures_pure]
      refine ⟨rfl, rfl, Or.inr ⟨rfl, T, W n, ?_, ?_⟩⟩
      · rwa [Function.update_eq_self]
      · rwa [List.append_nil]
    · rw [if_neg hdata, ensures_bind]
      unfold vfsWrite
      rw [ensures_bind, ensures_get, hfile, if_pos hkind, ensures_onFiles]
      have hroom : (s.files.file h).offset + room (s.files.file h).offset data.length ≤ maxOffset := by
        have : room (s.files.file h).offset data.length ≤ data.length := min_le_right _ _
        rw [List.length_append] at hmax
        rw [hfile] at this ⊢
        dsimp only at this ⊢
        omega
      refine (hok.ensures_vfsWrite hfuel hdata hroom).mono fun rc files' hw => ?_
      rcases hw with ⟨rfl, -⟩ | ⟨h₁, hle, hfile', T', hok'⟩
      · rw [if_pos (by decide), ensures_pure]
        exact ⟨rfl, rfl, Or.inl rfl⟩
      · rw [if_neg (by omega)]
        rw [hfile] at hfile' hok'
        dsimp only at hfile' hok'
        rw [Int.toNat_natCast] at hok'
        set k := rc.toNat with hk
        have hrc : rc = k := by omega
        have hlen : (pre ++ data.take k).length = pre.length + k := by
          rw [List.length_append, List.length_take]
          omega
        -- the bytes that are left
        have hrest := ih (data.drop k) (pre ++ data.take k)
          (s := { s with files := files' }) hok' hkind
          (by
            rw [hfile', Function.update_self, hlen, hrc]
            push_cast
            rfl)
          (by
            rw [Function.update_self]
            exact hpre.append _)
          (by
            rw [List.append_assoc, List.take_append_drop]
            exact hmax)
          (by
            rw [List.length_drop]
            omega)
        refine hrest.mono fun rc' s' ⟨hfs, hrep, hcase⟩ => ⟨hfs, hrep, hcase.imp id ?_⟩
        rintro ⟨h0, T'', w, hok'', hw⟩
        rw [Function.update_idem] at hok''
        rw [List.append_assoc, List.take_append_drop] at hw
        exact ⟨h0, T'', w, hok'', hw⟩

end

/-! ### Making a directory and a file -/

section

variable {s : State} {W : ℕ → Writes} {fuel d : ℕ} {c : List Name} {x : Name}

theorem grows_of_sameTree {s₀ s₁ s₂ : Fs} {kind : Kind} {n : Nid} (h : Grows s₀ s₁ c kind n)
    (ht : SameTree s₁ s₂) : Grows s₀ s₂ c kind n := by
  refine ⟨h.dead, ?_, ?_, fun c' => ?_, fun k hk => ?_⟩
  · rw [ht.nodeLive]
    exact h.live
  · rw [ht.kind]
    exact h.new
  · rw [ht.tree]
    exact h.nodeAt c'
  · rw [ht.kind]
    exact h.kind k hk

/-- A node that was there is not a new one. -/
theorem not_new {old new : Fs} {H : Multiset Eid} {k : Nid} (h : FsOk True False (fun _ => False) new H)
    (hk : Real old k) : ¬(old.nodeLive k = false ∧ new.nodeLive k = true) := by
  rintro ⟨hdead, hlive⟩
  rcases hk with rfl | hk
  · rw [h.nodes.root_dead] at hlive
    exact nomatch hlive
  · rw [hdead] at hk
    exact nomatch hk

/-- **`create_dir`** makes the directory, unless an allocation fails. -/
theorem Sound.ensures_createDir (hs : Sound s W) (hp : BelowMount c x) (hc : s.fs.tree.nodeAt c = some d)
    (hdir : s.fs.kind d = .dir) (hnew : s.fs.tree.nodeAt (c ++ [x]) = none) :
    Ensures (createDir (pathOf (c ++ [x]))) s fun _ s' => s.failures < s'.failures ∨
      (s'.reports = s.reports ∧ ∃ W' n, Sound s' W' ∧ Grows s.fs s'.fs (c ++ [x]) .dir n ∧
        ∀ k, Real s.fs k → W' k = W k) := by
  unfold createDir
  rw [ensures_bind, ensures_onFs]
  have hmkdir := (hs.fs.ensures_vfsMkdir hp hc hdir hnew).and_yields (tallies_vfsMkdir s.fs)
  refine hmkdir.mono fun rc fs' hmk => ?_
  obtain ⟨hmk, -, hfail⟩ := hmk
  rcases hmk with rfl | ⟨rfl, h', n, hgrow⟩
  · rw [if_pos (by decide), ensures_modify]
    exact Or.inl (Nat.add_lt_add_right (hfail rfl) _)
  · rw [if_neg (by decide), ensures_pure]
    obtain ⟨T, hT⟩ := hs.files
    exact Or.inr ⟨rfl, _, n, ⟨h', filesOk_clearNew _ _ hT⟩, hgrow, fun k hk => if_neg (not_new h' hk)⟩

/-- **Opening a file** that is at a path, or was made there, sets a handle to its start. -/
theorem ensures_vfsFileOpen {create : Bool} {h : ℕ} {p : List Char} {R : ℤ × Option Eid → Fs → Prop}
    {Q : ℤ × Option Eid → State → Prop} (hopen : Ensures (Vfs.vfsFileOpen p create) s.fs R)
    (hnone : ∀ rc fs, R (rc, none) fs →
      Q (rc, none) { s with fs := fs, files := clearNew s.fs fs s.files })
    (hsome : ∀ rc e fs, R (rc, some e) fs → ∃ n, (fs.entry e).node = some n ∧
      Q (rc, some e) { s with fs := fs, files := { clearNew s.fs fs s.files with
        file := Function.update s.files.file h ⟨n, 0⟩ } }) :
    Ensures (vfsFileOpen p create h) s Q := by
  unfold vfsFileOpen
  rw [ensures_bind, ensures_onFs]
  refine hopen.mono fun ⟨rc, o⟩ fs hR => ?_
  cases o with
  | none => exact ensures_pure.2 (hnone rc fs hR)
  | some e =>
    obtain ⟨n, hn, hQ⟩ := hsome rc e fs hR
    dsimp only
    unfold nodeOf
    rw [ensures_bind, ensures_onFs, ensures_bind, ensures_get, hn, ensures_pure, ensures_bind,
      ensures_onFiles, ensures_modify, ensures_pure, clearNew_same rfl]
    exact hQ

/-- **`create_file`** makes the file with its bytes, unless an allocation fails. -/
theorem Sound.ensures_createFile (hfuel : maxPages < fuel) (hs : Sound s W) (hp : BelowMount c x)
    (hc : s.fs.tree.nodeAt c = some d) (hdir : s.fs.kind d = .dir)
    (hnew : s.fs.tree.nodeAt (c ++ [x]) = none) {data : List UInt8} (hdata : data.length ≤ maxOffset) :
    Ensures (createFile fuel (pathOf (c ++ [x])) data) s fun _ s' => s.failures < s'.failures ∨
      (s'.reports = s.reports ∧ ∃ W' n, Sound s' W' ∧ Grows s.fs s'.fs (c ++ [x]) .file n ∧
        Holds (W' n) data ∧ ∀ k, Real s.fs k → W' k = W k) := by
  obtain ⟨T, hT⟩ := hs.files
  unfold createFile
  rw [ensures_bind]
  have hopen := (hs.fs.ensures_vfsCreate hp hc hdir hnew).and_yields (tallies_vfsFileOpen s.fs)
  refine ensures_vfsFileOpen hopen ?_ ?_
  · intro rc fs hR
    obtain ⟨hR, -, hfail⟩ := hR
    dsimp only
    rw [ensures_modify]
    refine Or.inl (Nat.add_lt_add_right (hfail ?_) _)
    rcases hR with hR | ⟨e, n, hR, -⟩
    · exact (Prod.mk.inj hR).1
    · exact nomatch (Prod.mk.inj hR).2
  · intro rc e fs hR
    obtain ⟨hR, hle, -⟩ := hR
    rcases hR with hR | ⟨e', n, hR, h', hn, hgrow⟩
    · exact nomatch (Prod.mk.inj hR).2
    obtain ⟨rfl, he⟩ := Prod.mk.inj hR
    obtain rfl := Option.some.inj he
    refine ⟨n, hn, ?_⟩
    -- the new file is empty, and the handle is at its start
    obtain ⟨T₁, hT₁⟩ := filesOk_clearNew s.fs fs hT
    have hT₂ := hT₁.setFile (h := localFile) (v := ⟨n, 0⟩) le_rfl (Int.natCast_nonneg _)
    dsimp only
    rw [ensures_bind]
    unfold writeFile
    have hwrite := ensures_writeFileFrom (h := localFile) (n := n) hfuel (data.length + 1) data []
      (s := { s with fs := fs, files := { clearNew s.fs fs s.files with
        file := Function.update s.files.file localFile ⟨n, 0⟩ } }) hT₂ hgrow.new
      (by
        dsimp only
        rw [Function.update_self, List.length_nil, Nat.cast_zero])
      (by
        rw [if_pos ⟨hgrow.dead, hgrow.live⟩]
        exact holds_nil)
      hdata (Nat.lt_succ_self _)
    refine (hwrite.and_yields (countsUp_writeFileFrom _ _ _)).mono fun rc s₁ hr => ?_
    obtain ⟨⟨hfs, hrep, hcase⟩, -, hfail⟩ := hr
    -- the handle is released, whatever was written
    have hput : Ensures (onFs (vfsRelease e)) s₁ fun _ s' => s'.reports = s₁.reports ∧
        s'.files = s₁.files ∧ FsOk True False (fun _ => False) s'.fs 0 ∧ SameTree fs s'.fs := by
      rw [ensures_onFs, hfs]
      exact h'.put.mono fun _ fs' ⟨h'', _, ht⟩ => ⟨rfl, clearNew_same ht.nodeLive, h'', ht⟩
    rcases hcase with rfl | ⟨rfl, T', w, hok, hw⟩
    · rw [if_pos (by decide), ensures_bind, ensures_modify, ensures_onFs]
      rw [ensures_onFs] at hput
      refine (hput.and_yields (tallies_vfsEntryPut s₁.fs)).mono fun _ fs' hr => Or.inl ?_
      have hopened : s.failures ≤ fs.failures + s.files.failures := Nat.add_le_add_right hle _
      exact (hopened.trans_lt (hfail rfl)).trans_le (Nat.add_le_add_right hr.2.1 _)
    · rw [if_neg (by decide)]
      refine hput.mono fun _ s' ⟨hrep', hfiles, h'', ht⟩ => Or.inr ⟨hrep'.trans hrep, _, n,
        ⟨h'', T', by rw [hfiles]; exact hok⟩, grows_of_sameTree hgrow ht, ?_, fun k hk => ?_⟩
      · rw [Function.update_self]
        exact hw
      · have hkn : k ≠ n := by
          rintro rfl
          exact not_new h' hk ⟨hgrow.dead, hgrow.live⟩
        rw [Function.update_of_ne hkn, if_neg (not_new h' hk)]

end

end Initramfs

end Kernel64
