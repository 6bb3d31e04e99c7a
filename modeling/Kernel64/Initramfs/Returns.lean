import Kernel64.Initramfs.Contents
import Kernel64.Ramfs.Pages
import Kernel64.Vfs.Enters

/-!
# When `create_dir` and `create_file` return

In any state that calls on the file systems can lead to, `create_dir` and `create_file` return exactly when the walk to
the directory of the name does (`Ready.ensures_createDir_iff`, `Ready.ensures_createFile_iff`), and leave such a state.
The loop of `write_file` always ends, whatever is written and however long it is.
-/

namespace Kernel64

namespace Initramfs

open Vfs Ramfs

/-- **A state that calls lead to**: the trees after some calls, and sound trees of pages. -/
structure Ready (fs₀ : Fs) (s : State) : Prop where
  fs : ∃ events files, VfsRun fs₀ events s.fs files
  files : ∃ T, PagesOk s.files T

section

variable {s s' : State} {fs₀ fs : Fs} {name : List Char} {data : List UInt8} {fuel h : ℕ} {T : ℕ → ColorTree Ptr}
  {entrySupply : ℕ → Option Eid} {nodeSupply : ℕ → Option Nid} {nameSupply mountSupply : ℕ → Bool}

/-- The new nodes have no pages. -/
theorem pagesOk_clearNew (old new : Fs) {files : Files} (hok : PagesOk files T) :
    ∃ T', PagesOk (clearNew old new files) T' := by
  classical
  refine ⟨fun n => if old.nodeLive n = false ∧ new.nodeLive n = true then .nil else T n, fun n => ?_, fun n p hp => ?_⟩
  · unfold clearNew
    dsimp only
    split_ifs
    · exact ⟨⟨rfl, trivial, List.nodup_nil⟩, ColorTree.redBlack_iff.2 ⟨rfl, trivial, 0, rfl⟩, List.Pairwise.nil,
        fun _ hp => absurd hp List.not_mem_nil⟩
    · exact hok.node n
  · split_ifs at hp
    · exact absurd hp List.not_mem_nil
    · exact hok.used n p hp

/-! ### Writing -/

/-- **`write_file` returns**, whatever the offset of the handle is. -/
theorem ensures_writeFileFrom_any (hfuel : 2 * maxPages < fuel) : ∀ (N : ℕ) (data : List UInt8) {s : State}
    {T : ℕ → ColorTree Ptr}, PagesOk s.files T → IsInt (s.files.file h).offset → data.length < N →
    Ensures (writeFileFrom fuel h N data) s fun _ s' => s'.fs = s.fs ∧ ∃ T', PagesOk s'.files T' := by
  intro N
  induction N with
  | zero => exact fun _ _ _ _ _ hN => absurd hN (Nat.not_lt_zero _)
  | succ N ih =>
    intro data s T hok hint hN
    unfold writeFileFrom
    by_cases hdata : data = []
    · rw [if_pos hdata, ensures_pure]
      exact ⟨rfl, T, hok⟩
    rw [if_neg hdata, ensures_bind]
    unfold vfsWrite
    rw [ensures_bind, ensures_get]
    by_cases hkind : s.fs.kind (s.files.file h).node = .file
    · rw [if_pos hkind, ensures_onFiles]
      refine (hok.ensures_vfsWrite hfuel hint).mono fun rc files' hw => ?_
      obtain ⟨⟨T', hok'⟩, hw⟩ := hw
      rcases hw with ⟨rfl, -⟩ | ⟨hrc, hfile⟩
      · rw [if_pos (by decide), ensures_pure]
        exact ⟨rfl, T', hok'⟩
      · -- at least one byte was stored
        have hlen := List.length_pos_of_ne_nil hdata
        have hroom : 1 ≤ room (s.files.file h).offset data.length := by
          unfold room pageOffset pageSize
          omega
        rw [if_neg (by omega)]
        refine (ih (data.drop rc.toNat) (s := { s with files := files' }) hok' ?_ ?_).mono fun _ _ hr => hr
        · rw [hfile, Function.update_self]
          exact isInt_toInt _
        · rw [List.length_drop]
          omega
    · rw [if_neg hkind, ensures_pure, if_pos (by decide), ensures_pure]
      exact ⟨rfl, T, hok⟩

/-! ### Calls -/

theorem Ready.namesFit (hs : Ready (setupVfs entrySupply nodeSupply nameSupply mountSupply) s) : NamesFit s.fs := by
  obtain ⟨_, _, hrun⟩ := hs.fs
  exact hrun.namesFit namesFit_setupVfs

theorem Ready.fsOk (hs : Ready (setupVfs entrySupply nodeSupply nameSupply mountSupply) s) :
    ∃ H, FsOk False False (fun _ => True) s.fs H := by
  obtain ⟨_, _, hrun⟩ := hs.fs
  obtain ⟨L, h⟩ := hrun.fsOk_any (E := False) False.elim
  exact ⟨_, h⟩

/-- **`create_dir` returns** exactly when its walk enters the directory. -/
theorem Ready.ensures_createDir_iff (hs : Ready (setupVfs entrySupply nodeSupply nameSupply mountSupply) s) :
    (Ensures (createDir name) s fun _ s' => Ready (setupVfs entrySupply nodeSupply nameSupply mountSupply) s') ↔
      Enters s.fs name := by
  obtain ⟨H, hfs⟩ := hs.fsOk
  obtain ⟨T, hT⟩ := hs.files
  unfold createDir
  rw [ensures_bind, ensures_onFs]
  constructor
  · exact enters_of_vfsMkdir hs.namesFit
  intro hp
  obtain ⟨rc, fs', hrun, -⟩ := (hfs.ensures_vfsMkdir_iff hs.namesFit).2 hp
  have hready : Ready (setupVfs entrySupply nodeSupply nameSupply mountSupply)
      { s with fs := fs', files := clearNew s.fs fs' s.files } := by
    obtain ⟨_, files, hcalls⟩ := hs.fs
    have hcall : vfsCall files (.mkdir name) s.fs = Except.ok (((rc, none), files), fs') := bind_of_run hrun
    exact ⟨⟨_, _, hcalls.call hcall⟩, pagesOk_clearNew s.fs fs' hT⟩
  refine ⟨rc, fs', hrun, ensures_ite.2 ⟨fun _ => ?_, fun _ => ?_⟩⟩
  · exact ensures_modify.2 ⟨hready.fs, hready.files⟩
  · exact ensures_pure.2 hready

theorem enters_of_createDir {Q : Unit → State → Prop} (hs : NamesFit s.fs) (h : Ensures (createDir name) s Q) :
    Enters s.fs name := by
  unfold createDir at h
  rw [ensures_bind, ensures_onFs] at h
  exact enters_of_vfsMkdir hs h

theorem enters_of_createFile {Q : Unit → State → Prop} (hs : NamesFit s.fs)
    (h : Ensures (createFile fuel name data) s Q) : Enters s.fs name := by
  unfold createFile vfsFileOpen at h
  rw [ensures_bind, ensures_bind, ensures_onFs] at h
  exact enters_of_vfsCreate hs h

/-- **`create_file` returns** exactly when its walk enters the directory. -/
theorem Ready.ensures_createFile_iff (hs : Ready (setupVfs entrySupply nodeSupply nameSupply mountSupply) s)
    (hfuel : 2 * maxPages < fuel) :
    (Ensures (createFile fuel name data) s fun _ s' =>
      Ready (setupVfs entrySupply nodeSupply nameSupply mountSupply) s') ↔ Enters s.fs name := by
  refine ⟨enters_of_createFile hs.namesFit, fun hp => ?_⟩
  obtain ⟨H, hfs⟩ := hs.fsOk
  obtain ⟨T, hT⟩ := hs.files
  obtain ⟨_, files, hcalls⟩ := hs.fs
  obtain ⟨r, fs', hrun, hnode⟩ := (hfs.ensures_vfsCreate_iff hs.namesFit).2 hp
  have hopen : Ensures (Vfs.vfsFileOpen name true) s.fs fun r' fs'' => r' = r ∧ fs'' = fs' := ⟨r, fs', hrun, rfl, rfl⟩
  unfold createFile
  rw [ensures_bind]
  refine ensures_vfsFileOpen hopen ?_ ?_
  · rintro rc fs₁ ⟨rfl, rfl⟩
    have hcall : vfsCall files (.createFile name) s.fs = Except.ok (((rc, none), files), fs₁) := bind_of_run hrun
    exact ensures_modify.2 ⟨⟨_, _, hcalls.call hcall⟩, pagesOk_clearNew s.fs fs₁ hT⟩
  · rintro rc e fs₁ ⟨rfl, rfl⟩
    obtain ⟨n, hn⟩ := hnode e rfl
    refine ⟨n, hn, ?_⟩
    have hcall : vfsCall files (.createFile name) s.fs = Except.ok (((rc, (fs₁.entry e).node), e :: files), fs₁) :=
      bind_of_run hrun
    have hopened := hcalls.call hcall
    -- the handle is at the start of the file
    obtain ⟨T₁, hT₁⟩ := pagesOk_clearNew s.fs fs₁ hT
    dsimp only
    rw [ensures_bind]
    unfold writeFile
    have hwrite := ensures_writeFileFrom_any (h := localFile) hfuel (data.length + 1) data
      (s := { s with fs := fs₁, files := { clearNew s.fs fs₁ s.files with
        file := Function.update s.files.file localFile ⟨n, 0⟩ } })
      (hT₁.congr (fun _ => ⟨rfl, rfl⟩) rfl)
      (by
        dsimp only
        rw [Function.update_self]
        exact isInt_zero)
      (Nat.lt_succ_self _)
    refine hwrite.mono fun rc' s₁ hr => ?_
    obtain ⟨hfs₁, T₂, hT₂⟩ := hr
    -- the handle is released, whatever was written
    have hput : Ensures (onFs (vfsRelease e)) s₁ fun _ s' =>
        Ready (setupVfs entrySupply nodeSupply nameSupply mountSupply) s' := by
      obtain ⟨L, h₁⟩ := hopened.fsOk_any (E := False) False.elim
      rw [← Multiset.cons_coe, Multiset.cons_add] at h₁
      rw [ensures_onFs, hfs₁]
      obtain ⟨_, fs₂, hrel, -⟩ := h₁.put
      have hcall' : vfsCall (e :: files) (.release 0) fs₁ = Except.ok (((0, none), files), fs₂) := bind_of_run hrel
      exact ⟨_, fs₂, hrel, ⟨_, _, hopened.call hcall'⟩, pagesOk_clearNew _ fs₂ hT₂⟩
    split_ifs
    · rw [ensures_bind, ensures_modify]
      rw [ensures_onFs] at hput ⊢
      exact hput.mono fun _ _ hr => ⟨hr.fs, hr.files⟩
    · exact hput

end

end Initramfs

end Kernel64
