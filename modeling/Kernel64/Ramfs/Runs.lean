import Kernel64.Lib.Tally
import Kernel64.Ramfs.Sparse

/-!
# Files over whole runs

A run starts with empty files and handles at their beginning, and makes any calls through any
handles, as long as no offset grows past `maxOffset`. A write fails only when an allocation does, and
then it changes nothing.
-/

namespace Kernel64

namespace Ramfs

/-- No file has a page, and every handle is at the beginning. -/
structure Files.Empty (s : Files) : Prop where
  node : ∀ f, (s.node f).pages.root = 0#64 ∧ (s.node f).size = 0
  file : ∀ h, (s.file h).offset = 0

/-- **Runs of calls**, from the files `s₀`, with the writes made to each file. -/
inductive FilesRun (fuel : ℕ) (s₀ : Files) : (ℕ → Writes) → Files → Prop
  | start : FilesRun fuel s₀ (fun _ => []) s₀
  | write {W : ℕ → Writes} {s s' : Files} {h : ℕ} {data : List UInt8} {n : ℤ} :
      FilesRun fuel s₀ W s → data ≠ [] →
      (s.file h).offset + room (s.file h).offset data.length ≤ maxOffset →
      vfsWrite fuel h data s = .ok (n, s') → n ≠ -ENOMEM →
      FilesRun fuel s₀ (Function.update W (s.file h).node
        (((s.file h).offset.toNat, data.take n.toNat) :: W (s.file h).node)) s'
  | refused {W : ℕ → Writes} {s s' : Files} {h : ℕ} {data : List UInt8} :
      FilesRun fuel s₀ W s → data ≠ [] →
      (s.file h).offset + room (s.file h).offset data.length ≤ maxOffset →
      vfsWrite fuel h data s = .ok (-ENOMEM, s') → FilesRun fuel s₀ W s'
  | read {W : ℕ → Writes} {s s' : Files} {h size : ℕ} {r : ℤ × List UInt8} :
      FilesRun fuel s₀ W s → vfsRead fuel h size s = .ok (r, s') → FilesRun fuel s₀ W s'
  | seek {W : ℕ → Writes} {s s' : Files} {h : ℕ} {offset r : ℤ} {whence : Whence} :
      FilesRun fuel s₀ W s → -2 ^ 31 ≤ offset → seekTarget s h offset whence ≤ maxOffset →
      vfsSeek h offset whence s = .ok (r, s') → FilesRun fuel s₀ W s'

section

variable {s s₀ : Files} {fuel h : ℕ} {T : ℕ → ColorTree Ptr} {W : ℕ → Writes}

theorem Files.Empty.filesOk (hs : s.Empty) : FilesOk s (fun _ => .nil) fun _ => [] where
  node f := ⟨⟨(hs.node f).1, trivial, List.nodup_nil⟩, ColorTree.redBlack_iff.2 ⟨rfl, trivial, 0, rfl⟩,
    List.Pairwise.nil,
    fun _ hp => absurd hp List.not_mem_nil⟩
  used _ _ hp := absurd hp List.not_mem_nil
  apart _ _ _ _ hp := absurd hp List.not_mem_nil
  data _ _ hp := absurd hp List.not_mem_nil
  hole _ _ _ := rfl
  size f := (hs.node f).2
  size_le _ := Nat.zero_le _
  offset h := by
    rw [hs.file h]
    exact ⟨le_rfl, by decide⟩

/-- Setting a handle changes no file. -/
theorem FilesOk.setFile (hok : FilesOk s T W) {v : FsFile} (h₀ : 0 ≤ v.offset) (h₁ : v.offset ≤ maxOffset) :
    FilesOk { s with file := Function.update s.file h v } T W := by
  refine ⟨hok.node, hok.used, hok.apart, hok.data, hok.hole, hok.size, hok.size_le, fun h' => ?_⟩
  by_cases hh : h' = h
  · subst hh
    simp only [Function.update_self]
    exact ⟨h₀, h₁⟩
  · simp only [Function.update_of_ne hh]
    exact hok.offset h'

/-- A read moves its handle to the end of what it read. -/
theorem FilesOk.setFile_add (hok : FilesOk s T W) {n : ℕ}
    (hle : n ≠ 0 → (s.file h).offset + n ≤ (s.node (s.file h).node).size) :
    FilesOk { s with file := Function.update s.file h { s.file h with offset := (s.file h).offset + n } } T W := by
  obtain ⟨h₀, h₁⟩ := hok.offset h
  have hsize := hok.size (s.file h).node
  have hsizeLe := hok.size_le (s.file h).node
  refine hok.setFile (by dsimp only; omega) ?_
  dsimp only
  by_cases hn : n = 0
  · omega
  · have := hle hn
    omega

/-! ### Memory -/

theorem countsUp_onPages {α : Type} {c : Rb.RbM α} {f : ℕ} :
    CountsUp Files.failures (onPages f c) fun _ => False := by
  intro s a s' hrun
  rw [onPages] at hrun
  cases hc : c (s.node f).pages with
  | error e =>
    rw [hc] at hrun
    exact nomatch hrun
  | ok r =>
    rw [hc, Except.ok.injEq, Prod.mk.injEq] at hrun
    exact ⟨hrun.2 ▸ le_rfl, False.elim⟩

theorem countsUp_noMemory : CountsUp Files.failures noMemory fun _ => True :=
  countsUp_add fun s => Nat.lt_succ_self s.failures

/-- There is no page only when there was no memory for it. -/
theorem countsUp_ramfsAllocPage {f index : ℕ} : CountsUp Files.failures (ramfsAllocPage f index) (· = none) := by
  have hnone : ∀ {α : Type}, CountsUp Files.failures (do noMemory; return none) fun o : Option α => o = none :=
    countsUp_noMemory.after fun _ => countsUp_pure id
  have hrpage : CountsUp Files.failures allocRpage (· = none) := by
    refine countsUp_get fun s => countsUpAt_set_seq le_rfl fun _ => ?_
    cases s.rpageSupply 0 with
    | none => exact hnone
    | some p =>
      refine countsUp_ite (fun _ => ?_) fun _ => hnone
      exact countsUp_modify_seq (fun _ => le_rfl) fun _ => countsUp_pure nofun
  have hpage : CountsUp Files.failures allocPage (· = none) := by
    refine countsUp_get fun s => countsUpAt_set_seq le_rfl fun _ => ?_
    cases s.pageSupply 0 with
    | none => exact hnone
    | some b =>
      refine countsUp_ite (fun _ => ?_) fun _ => hnone
      exact countsUp_modify_seq (fun _ => le_rfl) fun _ => countsUp_pure nofun
  refine hrpage.bind fun o => ?_
  cases o with
  | none => exact countsUp_pure fun h => h.2 rfl
  | some p =>
    refine CountsUp.mono ?_ fun _ h => h.1
    refine hpage.bind fun o => ?_
    cases o with
    | none => exact countsUp_modify_seq (fun _ => le_rfl) fun _ => countsUp_pure fun h => h.2 rfl
    | some b => exact countsUp_modify_seq (fun _ => le_rfl) fun _ => countsUp_pure nofun

/-- **A write returns `-ENOMEM` only when an allocation failed in it.** -/
theorem countsUp_vfsWrite {data : List UInt8} : CountsUp Files.failures (vfsWrite fuel h data) (· = -ENOMEM) := by
  have hstore : ∀ (f : ℕ) (p : Ptr) (off : ℕ) (l : List UInt8),
      CountsUp Files.failures (storeBytes h f p off l) (· = -ENOMEM) := fun f p off l =>
    countsUp_modify_seq (fun _ => le_rfl) fun _ => countsUp_pure fun h => by
      rw [ENOMEM] at h
      omega
  refine countsUp_get fun s => ?_
  have hlookup : CountsUp Files.failures (ramfsLookupPage fuel (s.file h).node (pageIndex (s.file h).offset))
      fun _ => False := countsUp_get fun _ => countsUp_onPages _
  refine hlookup.seq (fun found => ?_) s
  cases found with
  | hit p => exact hstore _ _ _ _
  | missing parent plink =>
    refine countsUp_ramfsAllocPage.bind fun o => ?_
    cases o with
    | none => exact countsUp_pure fun h => h.2 rfl
    | some p => exact countsUp_onPages.seq fun _ => (hstore _ _ _ _).mono fun _ h => h.1

/-! ### Runs -/

/-- **Every run keeps the files sound**, and their pages hold the writes of the run. -/
theorem FilesRun.filesOk (hfuel : maxPages < fuel) (hs : s₀.Empty) (hrun : FilesRun fuel s₀ W s) :
    ∃ T, FilesOk s T W := by
  induction hrun with
  | start => exact ⟨_, hs.filesOk⟩
  | write hrun hdata hmax hcall hn ih =>
    obtain ⟨T, hok⟩ := ih
    rcases (hok.ensures_vfsWrite hfuel hdata hmax).of_run hcall with ⟨hc, -⟩ | ⟨-, -, -, hok'⟩
    · exact absurd hc hn
    · exact hok'
  | refused hrun hdata hmax hcall ih =>
    obtain ⟨T, hok⟩ := ih
    rcases (hok.ensures_vfsWrite hfuel hdata hmax).of_run hcall with ⟨-, hsame⟩ | ⟨h₁, -⟩
    · exact ⟨T, hok.of_sameFiles hsame⟩
    · rw [ENOMEM] at h₁
      omega
  | @read W s s' h size r hrun hcall ih =>
    obtain ⟨T, hok⟩ := ih
    obtain ⟨n, -, -, -, -, hle, rfl⟩ := (hok.ensures_vfsRead hfuel size).of_run hcall
    exact ⟨T, hok.setFile_add hle⟩
  | seek hrun hint hmax hcall ih =>
    obtain ⟨T, hok⟩ := ih
    obtain ⟨-, rfl⟩ := (hok.ensures_vfsSeek hint hmax).of_run hcall
    exact ⟨T, hok.setFile (le_max_right _ _) (max_le hmax (Int.natCast_nonneg _))⟩

/-- **Files are sparse arrays of bytes.** After any run of calls through any handles, the size of each
file is the largest end of a write to it, and each call returns. A write of some bytes stores the first
`n ≥ 1` of them at the offset of its handle, unless an allocation fails, and then nothing changes. A
read gives the bytes written last at the positions it covers, zero where there are none, and never one
at or past the size; it gives none exactly at or past the end, or when none are asked for. A write and
a read advance only their own handle, and by the count they return; a seek only moves its handle. -/
theorem filesRun_sparse (hfuel : maxPages < fuel) (hs : s₀.Empty) (hrun : FilesRun fuel s₀ W s) :
    (∀ f, (s.node f).size = maxEnd (W f)) ∧
      (∀ h data, data ≠ [] →
        (s.file h).offset + room (s.file h).offset data.length ≤ maxOffset →
        Ensures (vfsWrite fuel h data) s fun n s' =>
          (n = -ENOMEM ∧ s.failures < s'.failures ∧ SameFiles s s' ∧ FilesRun fuel s₀ W s') ∨
          (1 ≤ n ∧ n ≤ data.length ∧
            FilesRun fuel s₀ (Function.update W (s.file h).node
              (((s.file h).offset.toNat, data.take n.toNat) :: W (s.file h).node)) s' ∧
            s'.file = Function.update s.file h ⟨(s.file h).node, (s.file h).offset + n⟩)) ∧
      (∀ h size, Ensures (vfsRead fuel h size) s fun r s' => ∃ n ≤ size, r.1 = n ∧
        r.2 = Buf.slice (lastWritten (W (s.file h).node)) (s.file h).offset.toNat n ∧
        (n = 0 ↔ (s.node (s.file h).node).size ≤ (s.file h).offset ∨ size = 0) ∧
        (n ≠ 0 → (s.file h).offset + n ≤ (s.node (s.file h).node).size) ∧
        s' = { s with
          file := Function.update s.file h { s.file h with offset := (s.file h).offset + n } }) ∧
      ∀ h offset whence, -2 ^ 31 ≤ offset → seekTarget s h offset whence ≤ maxOffset →
        Ensures (vfsSeek h offset whence) s fun r s' => r = max (seekTarget s h offset whence) 0 ∧
          s' = { s with
            file := Function.update s.file h
              { s.file h with offset := max (seekTarget s h offset whence) 0 } } := by
  obtain ⟨T, hok⟩ := hrun.filesOk hfuel hs
  refine ⟨hok.size, fun h data hdata hmax => ?_, fun h size => hok.ensures_vfsRead hfuel size,
    fun h offset whence hint hmax => hok.ensures_vfsSeek hint hmax⟩
  obtain ⟨n, s', hcall, hn⟩ := hok.ensures_vfsWrite hfuel hdata hmax
  refine ⟨n, s', hcall, ?_⟩
  rcases hn with ⟨rfl, hsame⟩ | ⟨h₁, hle, hfile, -⟩
  · exact Or.inl ⟨rfl, (countsUp_vfsWrite s _ _ hcall).2 rfl, hsame, hrun.refused hdata hmax hcall⟩
  · refine Or.inr ⟨h₁, hle, hrun.write hdata hmax hcall fun hc => ?_, hfile⟩
    rw [ENOMEM] at hc
    omega

end

/-- One file with two handles, and memory for one page. -/
def twoHandles : Files where
  node _ := ⟨⟨fun _ => ⟨0#64, 0#64, 0#64⟩, 0#64⟩, fun _ => 0, fun _ => 0, 0⟩
  file _ := ⟨0, 0⟩
  bytes _ _ := 7
  rpageUsed _ := false
  rpageSupply _ := some 8#64
  pageUsed _ := false
  pageSupply _ := some 0
  failures := 0

theorem twoHandles_empty : twoHandles.Empty := ⟨fun _ => ⟨rfl, rfl⟩, fun _ => rfl⟩

/-- Whether a call returned a count. -/
def returned {α : Type} (n : α) [DecidableEq α] (r : Except Fault (α × Files)) : Bool :=
  match r with
  | .ok (m, _) => decide (m = n)
  | .error _ => false

/-- What is written through one handle is read through the other. -/
theorem filesRun_sparse_twoHandles :
    ∃ s, FilesRun 524289 twoHandles (Function.update (fun _ => []) 0 [(0, [1, 2])]) s ∧
      (s.node 0).size = 2 ∧
      Ensures (vfsRead 524289 1 5) s fun r _ => ∃ n : ℕ, n ≤ 5 ∧ r.1 = n ∧
        r.2 = Buf.slice (lastWritten [(0, [1, 2])]) 0 n := by
  have hfuel : maxPages < 524289 := by decide
  have hcall : returned 2 (vfsWrite 524289 0 [1, 2] twoHandles) = true := by decide
  have hwrite := (filesRun_sparse hfuel twoHandles_empty .start).2.1 0 [1, 2] (by decide) (by decide)
  obtain ⟨n, s, hrun, hpost⟩ := hwrite
  rw [hrun, returned, decide_eq_true_eq] at hcall
  subst hcall
  rcases hpost with ⟨hc, -⟩ | ⟨-, -, hrun', hfile⟩
  · exact absurd hc (by decide)
  · have hsparse := filesRun_sparse hfuel twoHandles_empty hrun'
    have h1 : s.file 1 = ⟨0, 0⟩ := by rw [hfile]; rfl
    refine ⟨s, hrun', hsparse.1 0, (hsparse.2.2.1 1 5).mono fun r _ ⟨n, hn, h₁, h₂, _⟩ => ?_⟩
    rw [h1] at h₂
    exact ⟨n, hn, h₁, h₂⟩

end Ramfs

end Kernel64
