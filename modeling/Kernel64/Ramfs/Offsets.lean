import Kernel64.Ramfs.Runs

/-!
# Offsets of any size

The calls on files with no limit on the offsets: a seek may go anywhere an `int` can say, and a write may start
anywhere. The sum that a seek computes wraps, and a negative one is replaced by zero, so that a seek always leads to
an offset in range. A write adds the bytes it has stored to the offset and does not look at the sum: when the bytes
end past `maxOffset`, the offset becomes negative and the size does not grow.

As long as every write ends in range, the offsets and the sizes are in range, and what was written is read back
(`callRun_inRange`).
-/

namespace Kernel64

namespace Ramfs

open Rb

/-- The bytes that a write would store end in range. -/
def Fitting (s : Files) (h : ℕ) (data : List UInt8) : Prop :=
  (s.file h).offset + room (s.file h).offset data.length ≤ maxOffset

/-- **Runs of calls**, with the writes accepted by each file. Every write meets the condition `P`. -/
inductive CallRun (P : Files → ℕ → List UInt8 → Prop) (fuel : ℕ) (s₀ : Files) : (ℕ → Writes) → Files → Prop
  | start : CallRun P fuel s₀ (fun _ => []) s₀
  | write {W : ℕ → Writes} {s s' : Files} {h : ℕ} {data : List UInt8} {n : ℤ} :
      CallRun P fuel s₀ W s → P s h data → vfsWrite fuel h data s = .ok (n, s') → n ≠ -ENOMEM →
      CallRun P fuel s₀ (Function.update W (s.file h).node
        (((s.file h).offset.toNat, data.take n.toNat) :: W (s.file h).node)) s'
  | refused {W : ℕ → Writes} {s s' : Files} {h : ℕ} {data : List UInt8} :
      CallRun P fuel s₀ W s → P s h data → vfsWrite fuel h data s = .ok (-ENOMEM, s') → CallRun P fuel s₀ W s'
  | read {W : ℕ → Writes} {s s' : Files} {h size : ℕ} {r : ℤ × List UInt8} :
      CallRun P fuel s₀ W s → vfsRead fuel h size s = .ok (r, s') → CallRun P fuel s₀ W s'
  | seek {W : ℕ → Writes} {s s' : Files} {h : ℕ} {offset r : ℤ} {whence : Whence} :
      CallRun P fuel s₀ W s → -2 ^ 31 ≤ offset → offset < 2 ^ 31 →
      vfsSeek h offset whence s = .ok (r, s') → CallRun P fuel s₀ W s'

/-- The bytes are read at a position of a file, through any handle. -/
def ReadsBack (fuel : ℕ) (s : Files) (f x : ℕ) (l : List UInt8) : Prop :=
  ∀ h, (s.file h).node = f →
    Ensures (do let _ ← vfsSeek h x .set; vfsRead fuel h l.length) s fun r _ => r = ((l.length : ℤ), l)

/-- **Offsets in range**, and the writes `W` that are not overwritten can be read back. -/
structure InRange (fuel : ℕ) (s : Files) (W : ℕ → Writes) : Prop where
  offset : ∀ h, 0 ≤ (s.file h).offset
  size : ∀ f, 0 ≤ (s.node f).size
  index : ∀ f, ∃ t, Represents (s.node f).pages t ∧ ∀ p ∈ t.inorder, pageSize * (s.node f).index p < 2 ^ 31
  readBack : ∀ f x l later earlier, W f = later ++ (x, l) :: earlier → l ≠ [] →
    (∀ v ∈ later, v.1 + v.2.length ≤ x ∨ x + l.length ≤ v.1) → ReadsBack fuel s f x l

section

variable {s s' s₀ : Files} {fuel h f x : ℕ} {T : ℕ → ColorTree Ptr} {W : ℕ → Writes} {w later earlier : Writes}
  {l data : List UInt8}

/-! ### Any seek -/

theorem toInt_le (x : ℤ) : toInt x ≤ maxOffset := by
  have := Int.bmod_lt (x := x) (m := 2 ^ 32) (by decide)
  unfold toInt maxOffset
  omega

/-- **Any seek** leaves its handle in range. -/
theorem FilesOk.ensures_vfsSeek_any (hok : FilesOk s T W) {offset : ℤ} (hlt : offset < 2 ^ 31) (whence : Whence) :
    Ensures (vfsSeek h offset whence) s fun _ s' => FilesOk s' T W := by
  have hset : ∀ x : ℤ, x ≤ maxOffset →
      FilesOk { s with file := Function.update s.file h { s.file h with offset := max x 0 } } T W := fun x hx =>
    hok.setFile (le_max_right _ _) (max_le hx (Int.natCast_nonneg _))
  rw [vfsSeek, vfsSeekDefault]
  simp only [ensures_bind, ensures_get, ensures_set, ensures_pure]
  cases whence with
  | set => exact hset offset (by unfold maxOffset; omega)
  | cur => exact hset _ (toInt_le _)
  | fin => exact hset _ (toInt_le _)

/-! ### Reading back -/

/-- Later writes elsewhere change nothing. -/
theorem lastWritten_append {y : ℕ} (h : ∀ v ∈ later, y < v.1 ∨ v.1 + v.2.length ≤ y) :
    lastWritten (later ++ w) y = lastWritten w y := by
  induction later with
  | nil => rfl
  | cons v later ih =>
    rw [List.cons_append, lastWritten_cons_outside (h v List.mem_cons_self)]
    exact ih fun v' hv' => h v' (List.mem_cons_of_mem _ hv')

theorem maxEnd_of_mem {v : ℕ × List UInt8} (hv : v ∈ w) : v.1 + v.2.length ≤ maxEnd w := by
  induction w with
  | nil => exact absurd hv List.not_mem_nil
  | cons v' w ih =>
    rw [maxEnd]
    rcases List.mem_cons.1 hv with rfl | hv
    · exact le_max_left _ _
    · exact (ih hv).trans (le_max_right _ _)

/-- A write that fits in a page, and was not overwritten, is read back. -/
theorem FilesOk.readsBack (hok : FilesOk s T W) (hfuel : maxPages < fuel) (hW : W f = later ++ (x, l) :: earlier)
    (hl : l ≠ []) (hlater : ∀ v ∈ later, v.1 + v.2.length ≤ x ∨ x + l.length ≤ v.1)
    (hpage : x % pageSize + l.length ≤ pageSize) : ReadsBack fuel s f x l := by
  intro h hnode
  have hlen := List.length_pos_of_ne_nil hl
  have hend : x + l.length ≤ maxEnd (W f) := maxEnd_of_mem (v := (x, l)) (by rw [hW]; simp)
  have hmax := hok.size_le f
  have hx : x ≤ maxOffset := by omega
  rw [ensures_bind]
  refine (hok.ensures_seekSet hx).mono ?_
  rintro _ s₁ ⟨-, rfl⟩
  have hok₁ := hok.setFile (h := h) (v := { s.file h with offset := (x : ℤ) }) (Int.natCast_nonneg x)
    (Int.ofNat_le.2 hx)
  have hsize : (s.node f).size = maxEnd (W f) := hok.size f
  -- neither the end of the page nor that of the file cuts the read short
  have hall : l.length = available (s.node f).size x l.length := by
    unfold pageSize at hpage
    rw [available, room, pageOffset, hsize, pageSize]
    omega
  refine (hok₁.ensures_vfsRead_available hfuel (h := h) l.length (n := l.length) ?_).mono fun r _ hr => ?_
  · simp only [Function.update_self, hnode]
    exact hall
  · rw [hr.1]
    simp only [Function.update_self, hnode, Int.toNat_natCast, Prod.mk.injEq, true_and]
    refine List.ext_getElem (by simp) fun j _ hj => ?_
    rw [Buf.getElem_slice, hW, lastWritten_append fun v hv => ?_, lastWritten_cons_inside hj]
    have := hlater v hv
    omega

/-! ### Writes past the end of the range -/

theorem yields_onPages_file {α : Type} {c : RbM α} : Yields (onPages f c) s fun _ s' => s'.file = s.file := by
  intro a s' hrun
  rw [onPages] at hrun
  cases hc : c (s.node f).pages with
  | error e =>
    rw [hc] at hrun
    cases hrun
  | ok r =>
    rw [hc, Except.ok.injEq, Prod.mk.injEq] at hrun
    exact hrun.2 ▸ rfl

/-- Wherever a write starts, it adds the number of bytes it stored to the offset, and the sum wraps. -/
theorem yields_vfsWrite_offset : Yields (vfsWrite fuel h data) s fun n s' => n = -ENOMEM ∨
    (s'.file h).offset = toInt ((s.file h).offset + room (s.file h).offset data.length) := by
  have hstore : ∀ {s₁ : Files} {p : Ptr}, s₁.file = s.file →
      Yields (storeBytes h (s.file h).node p (pageOffset (s.file h).offset)
        (data.take (room (s.file h).offset data.length))) s₁ fun n s' => n = -ENOMEM ∨
          (s'.file h).offset = toInt ((s.file h).offset + room (s.file h).offset data.length) := by
    intro s₁ p hfile
    have hlen : (data.take (room (s.file h).offset data.length)).length = room (s.file h).offset data.length := by
      rw [List.length_take, room]
      omega
    rw [storeBytes]
    refine Ensures.yields ?_
    simp only [ensures_bind, ensures_modify, ensures_pure, Function.update_self, hfile, hlen, or_true]
  rw [vfsWrite, ramfsWrite]
  refine Yields.bind (ensures_get.2 ?_).yields
  refine Yields.bind ?_
  rw [ramfsLookupPage]
  refine Yields.bind (ensures_get.2 ?_).yields
  refine yields_onPages_file.mono fun found s₁ hfile => ?_
  cases found with
  | hit p => exact hstore hfile
  | missing parent plink =>
    refine Yields.bind (ensures_ramfsAllocPage.yields.mono ?_)
    rintro _ s₂ (⟨rfl, -⟩ | ⟨p, b, s₃, rfl, -, -, -, hsame, rfl⟩)
    · exact yields_pure (Or.inl rfl)
    · refine Yields.bind (yields_onPages_file.mono fun _ s₄ hfile' => ?_)
      exact hstore (hfile'.trans (hsame.file.trans hfile))

/-- The sum wraps exactly when the bytes do not end in range. -/
theorem toInt_nonneg_iff {x : ℤ} (h₀ : 0 ≤ x) (h₁ : x < 2 ^ 32) : 0 ≤ toInt x ↔ x ≤ maxOffset := by
  unfold maxOffset
  rw [toInt, Int.bmod_def]
  split_ifs <;> omega

/-! ### Runs -/

/-- The accepted writes lie in one page each. -/
def Paged (W : ℕ → Writes) : Prop := ∀ f, ∀ v ∈ W f, v.1 % pageSize + v.2.length ≤ pageSize

theorem Paged.update (h : Paged W) (hpage : x % pageSize + l.length ≤ pageSize) :
    Paged (Function.update W f ((x, l) :: W f)) := by
  intro f' v hv
  by_cases hf : f' = f
  · subst hf
    rw [Function.update_self] at hv
    rcases List.mem_cons.1 hv with rfl | hv
    · exact hpage
    · exact h f' v hv
  · rw [Function.update_of_ne hf] at hv
    exact h f' v hv

/-- **A run whose writes end in range** keeps the files sound. -/
theorem CallRun.sound (hfuel : maxPages < fuel) (hs : s₀.Empty) (hrun : CallRun Fitting fuel s₀ W s) :
    (∃ T, FilesOk s T W) ∧ Paged W := by
  induction hrun with
  | start => exact ⟨⟨_, hs.filesOk⟩, fun _ _ hv => absurd hv List.not_mem_nil⟩
  | @write W s s' h data n hrun hfit hcall hn ih =>
    obtain ⟨⟨T, hok⟩, hpaged⟩ := ih
    rcases (hok.ensures_vfsWrite_room hfuel hfit).of_run hcall with ⟨hc, -⟩ | ⟨hroom, -, hok'⟩
    · exact absurd hc hn
    · refine ⟨hok', hpaged.update ?_⟩
      obtain ⟨hx, hoff, -⟩ := page_of_offset (hok.offset h).1 (hok.offset h).2
      have hmod : (s.file h).offset.toNat % pageSize = pageOffset (s.file h).offset := by
        rw [hx, Nat.mul_add_mod, Nat.mod_eq_of_lt hoff]
      rw [hmod, List.length_take, hroom, room]
      omega
  | refused hrun hfit hcall ih =>
    obtain ⟨⟨T, hok⟩, hpaged⟩ := ih
    rcases (hok.ensures_vfsWrite_room hfuel hfit).of_run hcall with ⟨-, hsame⟩ | ⟨hroom, -⟩
    · exact ⟨⟨T, hok.of_sameFiles hsame⟩, hpaged⟩
    · rw [ENOMEM] at hroom
      omega
  | @read W s s' h size r hrun hcall ih =>
    obtain ⟨⟨T, hok⟩, hpaged⟩ := ih
    obtain ⟨n, -, -, -, -, hle, rfl⟩ := (hok.ensures_vfsRead hfuel size).of_run hcall
    exact ⟨⟨T, hok.setFile_add hle⟩, hpaged⟩
  | seek hrun hlo hhi hcall ih =>
    obtain ⟨⟨T, hok⟩, hpaged⟩ := ih
    exact ⟨⟨T, (hok.ensures_vfsSeek_any hhi _).of_run hcall⟩, hpaged⟩

/-- **Offsets stay in range** in every run whose writes end in range, and what was written is read back; and a further
write that is not refused leaves its handle in range exactly when it ends in range. -/
theorem callRun_inRange (hfuel : maxPages < fuel) (hs : s₀.Empty) (hrun : CallRun Fitting fuel s₀ W s) :
    InRange fuel s W ∧ ∀ h data n s', vfsWrite fuel h data s = .ok (n, s') → n ≠ -ENOMEM →
      (0 ≤ (s'.file h).offset ↔ Fitting s h data) := by
  obtain ⟨⟨T, hok⟩, hpaged⟩ := hrun.sound hfuel hs
  refine ⟨⟨fun h => (hok.offset h).1, fun f => ?_, fun f => ⟨T f, (hok.node f).repr, fun p hp => ?_⟩,
    fun f x l later earlier hW hl hlater => ?_⟩, fun h data n s' hcall hn => ?_⟩
  · rw [hok.size f]
    exact Int.natCast_nonneg _
  · have := (hok.node f).bound p hp
    unfold maxPages at this
    unfold pageSize
    omega
  · exact hok.readsBack hfuel hW hl hlater (hpaged f (x, l) (by rw [hW]; simp))
  · have hoffset := (yields_vfsWrite_offset n s' hcall).resolve_left hn
    obtain ⟨h₀, h₁⟩ := hok.offset h
    obtain ⟨-, hoff, -⟩ := page_of_offset h₀ h₁
    rw [hoffset, toInt_nonneg_iff (by omega) ?_, Fitting]
    unfold maxOffset at h₁
    rw [room, pageSize]
    omega

end

/-- A write at the last offset is accepted, and its handle is then at a negative offset. -/
theorem not_inRange_lastOffset : ¬∀ W s, CallRun (fun _ _ _ => True) 524289 twoHandles W s → InRange 524289 s W := by
  have hcalls : returns (do let _ ← vfsSeek 0 (2 ^ 31 - 1) .set; vfsWrite 524289 0 [1]) twoHandles
      (fun n s => decide (n = 1 ∧ (s.file 0).offset < 0)) = true := by decide
  rw [returns_iff, ensures_bind] at hcalls
  obtain ⟨r, s, hseek, n, s', hwrite, hn⟩ := hcalls
  obtain ⟨rfl, hneg⟩ := of_decide_eq_true hn
  intro hall
  have hstart : CallRun (fun _ _ _ => True) 524289 twoHandles (fun _ => []) twoHandles := .start
  have hrun := (hstart.seek (by decide) (by decide) hseek).write trivial hwrite (by decide)
  have := (hall _ _ hrun).offset 0
  omega

/-- What is written at a low offset is read back. -/
theorem callRun_inRange_twoHandles : ∃ s, CallRun Fitting 524289 twoHandles
    (Function.update (fun _ => []) 0 [(0, [1, 2])]) s ∧ ReadsBack 524289 s 0 0 [1, 2] := by
  have hfuel : maxPages < 524289 := by decide
  have hcall : returns (vfsWrite 524289 0 [1, 2]) twoHandles (fun n _ => decide (n = 2)) = true := by decide
  obtain ⟨n, s, hwrite, hn⟩ := returns_iff.1 hcall
  obtain rfl := of_decide_eq_true hn
  have hfit : Fitting twoHandles 0 [1, 2] := by
    unfold Fitting
    decide
  have hrun := CallRun.start.write hfit hwrite (by decide)
  exact ⟨s, hrun, (callRun_inRange hfuel twoHandles_empty hrun).1.readBack 0 0 [1, 2] [] [] rfl (by decide) nofun⟩

end Ramfs

end Kernel64
