import Kernel64.Lib.Tally
import Kernel64.Vfs.Runs

/-!
# Allocations that fail

The file systems count the allocations that failed. No call takes anything off the count, and a call returns `-ENOMEM`
only after it has added to it (`vfsCall_counts`): in a run in which the count stays as it is, no call returns `-ENOMEM`.
-/

namespace Kernel64

namespace Vfs

/-- The program takes nothing off the number of failed allocations, and adds to it before it returns a result with
`P`. -/
abbrev Tallies {α : Type} (m : FsM α) (P : α → Prop) : Prop := CountsUp Fs.failures m P

section

variable {s s' s₀ : Fs} {e d : Eid} {n m : Nid} {x : Name} {kind : Kind} {create : Bool} {p q : List Char} {c : Call}
  {files : List Eid} {events : List Event} {P : ℤ → Prop}

theorem tallies_noMemory : Tallies noMemory fun _ => True := countsUp_add fun s => Nat.lt_succ_self s.failures

theorem tallies_vfsNodePutFrom : ∀ (fuel : ℕ) (n : Nid), Tallies (vfsNodePutFrom fuel n) fun _ => False
  | 0, _ => countsUp_throw
  | fuel + 1, n => by
    rw [vfsNodePutFrom]
    refine countsUp_modify_seq (fun _ => le_rfl) fun _ => countsUp_get fun s => ?_
    refine countsUpAt_ite (fun _ => ?_) fun _ => countsUp_pure id _
    cases s.kind n with
    | root => exact countsUp_throw _
    | file =>
      have hdone : Tallies (modify fun s : Fs => { s with nodeLive := Function.update s.nodeLive n false })
          fun _ => False := countsUp_modify fun _ => le_rfl
      exact hdone s
    | dir =>
      refine CountsUp.seq (countsUp_forM fun x _ => tallies_vfsNodePutFrom fuel x.2) (fun _ => ?_) _
      exact countsUp_modify fun _ => le_rfl

theorem tallies_vfsNodePut : Tallies (vfsNodePut n) fun _ => False :=
  countsUp_get fun _ => tallies_vfsNodePutFrom _ _ _

theorem tallies_vfsNodeGet : Tallies (vfsNodeGet n) fun _ => False := countsUp_modify fun _ => le_rfl

theorem tallies_nodeOf : Tallies (nodeOf e) fun _ => False := by
  refine countsUp_get fun s => ?_
  cases (s.entry e).node with
  | none => exact countsUp_throw _
  | some n => exact countsUp_pure id _

theorem tallies_vfsEntryGet : Tallies (vfsEntryGet e) fun _ => False := countsUp_modify fun _ => le_rfl

/-- There is no entry only when there was no memory. -/
theorem tallies_vfsEntryCreate : Tallies (vfsEntryCreate x) (· = none) := by
  have hnone : Tallies (do noMemory; return none) fun o : Option Eid => o = none :=
    tallies_noMemory.after fun _ => countsUp_pure id
  refine countsUp_get fun s => countsUpAt_set_seq le_rfl fun _ => ?_
  cases s.entrySupply 0 with
  | none => exact hnone
  | some e =>
    refine countsUp_ite (fun _ => ?_) fun _ => hnone
    exact countsUp_modify_seq (fun _ => le_rfl) fun _ => countsUp_pure nofun

theorem tallies_vfsEntryDetach : Tallies (vfsEntryDetach e d) fun _ => False :=
  countsUp_get fun _ => countsUpAt_ite (fun _ => countsUpAt_set le_rfl) fun _ => countsUp_pure id _

theorem tallies_vfsEntryPutFrom : ∀ (fuel : ℕ) (e : Eid), Tallies (vfsEntryPutFrom fuel e) fun _ => False
  | 0, _ => countsUp_throw
  | fuel + 1, e => by
    rw [vfsEntryPutFrom]
    refine countsUp_modify_seq (fun _ => le_rfl) fun _ => countsUp_get fun s => ?_
    refine countsUpAt_ite (fun _ => ?_) fun _ => countsUp_pure id _
    refine tallies_vfsEntryDetach.seq (fun _ => (tallies_vfsEntryPutFrom fuel _).seq fun _ => ?_) _
    have hdone : Tallies (modify fun s : Fs => { s with live := Function.update s.live e false }) fun _ => False :=
      countsUp_modify fun _ => le_rfl
    cases (s.entry e).node with
    | none => exact hdone
    | some n => exact tallies_vfsNodePut.seq fun _ => hdone

theorem tallies_vfsEntryPut : Tallies (vfsEntryPut e) fun _ => False :=
  countsUp_get fun _ => tallies_vfsEntryPutFrom _ _ _

theorem tallies_opsLookup : Tallies (opsLookup n e) (· = -ENOMEM) := by
  refine countsUp_get fun s => ?_
  cases s.find n (s.entry e).name with
  | none => exact countsUp_pure (by decide) _
  | some m =>
    refine countsUpAt_set_seq le_rfl fun _ => ?_
    exact tallies_vfsNodeGet.seq fun _ => countsUp_pure (by decide)

theorem tallies_linkEntry : Tallies (linkEntry d e) fun _ => False :=
  countsUp_modify_seq (fun _ => le_rfl) fun _ => tallies_vfsEntryGet.seq fun _ => countsUp_modify fun _ => le_rfl

theorem tallies_vfsLookup : Tallies (vfsLookup d x create) (·.2 = -ENOMEM) := by
  refine tallies_nodeOf.seq fun n => countsUp_get fun s => ?_
  refine countsUpAt_ite (fun _ => countsUp_pure (by decide) _) fun _ => ?_
  cases s.cache d x with
  | some e =>
    have hzero : ¬(0 : ℤ) = -ENOMEM := by decide
    exact tallies_vfsEntryGet.seq (fun _ => countsUp_pure (P := fun r : Option Eid × ℤ => r.2 = -ENOMEM) hzero) s
  | none =>
    refine tallies_vfsEntryCreate.bind (fun o => ?_) _
    cases o with
    | none => exact countsUp_pure fun h => h.2 rfl
    | some e =>
      refine CountsUp.mono ?_ fun _ h => h.1
      refine tallies_linkEntry.seq fun _ => tallies_opsLookup.bind fun rc => countsUp_ite (fun _ => ?_) fun _ => ?_
      · exact tallies_vfsEntryPut.seq fun _ => countsUp_pure fun h => h.2 h.1
      · exact countsUp_pure fun h => h.2 h.1

/-! ### The operations of `ramfs` -/

/-- There is no node only when there was no memory. -/
theorem tallies_ramfsNodeCreate : Tallies (ramfsNodeCreate kind) (· = none) := by
  have hnone : Tallies (do noMemory; return none) fun o : Option Nid => o = none :=
    tallies_noMemory.after fun _ => countsUp_pure id
  refine countsUp_get fun s => countsUpAt_set_seq le_rfl fun _ => ?_
  cases s.nodeSupply 0 with
  | none => exact hnone
  | some n =>
    refine countsUp_ite (fun _ => ?_) fun _ => hnone
    exact countsUp_modify_seq (fun _ => le_rfl) fun _ => tallies_vfsNodeGet.seq fun _ => countsUp_pure nofun

theorem tallies_ramfsEntryAlloc : Tallies ramfsEntryAlloc (· = false) := by
  refine countsUp_get fun s => countsUpAt_set_seq le_rfl fun _ => ?_
  refine countsUp_ite (fun _ => countsUp_pure (by simp)) fun _ => ?_
  exact tallies_noMemory.after fun _ => countsUp_pure id

theorem tallies_ramfsEntryLink : Tallies (ramfsEntryLink n x m) fun _ => False := countsUp_modify fun _ => le_rfl

theorem tallies_pointTo : Tallies (pointTo e n) fun _ => False :=
  countsUp_modify_seq (fun _ => le_rfl) fun _ => tallies_vfsNodeGet

theorem tallies_ramfsCreateOps : Tallies (ramfsCreateOps n e kind) (· = -ENOMEM) := by
  refine countsUp_get fun s => countsUpAt_ite (fun _ => countsUp_pure (by decide) _) fun _ => ?_
  refine tallies_ramfsNodeCreate.bind (fun o => ?_) _
  cases o with
  | none => exact countsUp_pure fun h => h.2 rfl
  | some m =>
    refine CountsUp.mono ?_ fun _ h => h.1
    refine tallies_ramfsEntryAlloc.bind fun b => countsUp_ite (fun _ => ?_) fun hb => ?_
    · refine tallies_ramfsEntryLink.seq fun _ => tallies_pointTo.seq fun _ => countsUp_pure fun h => ?_
      exact absurd h.1 (by decide)
    · exact tallies_vfsNodePut.seq fun _ => countsUp_pure fun h => h.2 (Bool.eq_false_iff.2 hb)

theorem tallies_ramfsLink : Tallies (ramfsLink d n e) (· = -ENOMEM) := by
  refine tallies_nodeOf.seq fun m => countsUp_get fun s => ?_
  refine countsUpAt_ite (fun _ => countsUp_pure (by decide) _) fun _ => ?_
  refine countsUpAt_ite (fun _ => countsUp_pure (by decide) _) fun _ => ?_
  refine countsUpAt_ite (fun _ => countsUp_pure (by decide) _) fun _ => ?_
  refine tallies_vfsNodeGet.seq (fun _ => ?_) _
  refine tallies_ramfsEntryAlloc.bind fun b => countsUp_ite (fun _ => ?_) fun hb => ?_
  · refine tallies_ramfsEntryLink.seq fun _ => tallies_pointTo.seq fun _ => countsUp_pure fun h => ?_
    exact absurd h.1 (by decide)
  · exact tallies_vfsNodePut.seq fun _ => countsUp_pure fun h => h.2 (Bool.eq_false_iff.2 hb)

theorem tallies_ramfsEntryUnlink : Tallies (ramfsEntryUnlink n e) (· = -ENOMEM) := by
  refine countsUp_get fun s => ?_
  dsimp only
  cases (s.names n).lookup (s.entry e).name with
  | none => exact countsUp_pure (by decide) _
  | some m =>
    refine countsUpAt_set_seq le_rfl fun _ => ?_
    exact tallies_vfsNodePut.seq fun _ => tallies_vfsEntryDetach.seq fun _ => countsUp_pure (by decide)

theorem tallies_ramfsUnlink : Tallies (ramfsUnlink n e) (· = -ENOMEM) := by
  refine countsUp_get fun s => countsUpAt_ite (fun _ => countsUp_pure (by decide) _) fun _ => ?_
  cases (s.entry e).node with
  | none => exact countsUp_pure (by decide) _
  | some m => exact countsUpAt_ite (fun _ => countsUp_pure (by decide) _) fun _ => tallies_ramfsEntryUnlink _

theorem tallies_ramfsRmdir : Tallies (ramfsRmdir n e) (· = -ENOMEM) :=
  countsUp_get fun _ => countsUpAt_ite (fun _ => countsUp_pure (by decide) _) fun _ => tallies_ramfsEntryUnlink _

/-! ### Walks -/

theorem tallies_vfsPathNextEntry {full : List Char} : Tallies (vfsPathNextEntry full) fun _ => False :=
  countsUp_ite (fun _ => countsUp_pure id) fun _ => countsUp_throw

theorem tallies_vfsWalkStart : Tallies (vfsWalkStart p) fun _ => False :=
  tallies_vfsEntryGet.seq fun _ => tallies_vfsPathNextEntry.seq fun _ => countsUp_pure id

theorem tallies_vfsWalk {w : Walk} : Tallies (vfsWalk w) (·.1 = -ENOMEM) := by
  have hzero : ¬(0 : ℤ) = -ENOMEM := by decide
  refine countsUp_ite (fun _ => countsUp_pure (show ¬-ENOENT = -ENOMEM by decide)) fun _ => ?_
  refine countsUp_ite (fun _ => tallies_vfsPathNextEntry.seq fun _ => countsUp_pure hzero) fun _ =>
    countsUp_ite (fun _ => ?_) fun _ => ?_
  · refine countsUp_get fun s => ?_
    refine tallies_vfsEntryGet.seq (fun _ => tallies_vfsEntryPut.seq fun _ => ?_) s
    exact tallies_vfsPathNextEntry.seq fun _ => countsUp_pure hzero
  · refine tallies_nodeOf.seq fun _ => tallies_vfsLookup.bind fun r => ?_
    obtain ⟨o, rc⟩ := r
    cases o with
    | none => exact countsUp_pure fun h => h.2 h.1
    | some e =>
      refine (tallies_vfsEntryPut.seq fun _ => ?_).mono fun _ h => h.1
      exact tallies_vfsPathNextEntry.seq fun _ => countsUp_pure hzero

theorem tallies_vfsWalkUntil {stop : Walk → Bool} : ∀ (fuel : ℕ) (w : Walk),
    Tallies (vfsWalkUntil stop fuel w) (·.1 = -ENOMEM)
  | 0, _ => countsUp_throw
  | fuel + 1, w => by
    rw [vfsWalkUntil]
    refine countsUp_ite (fun _ => countsUp_pure (show ¬(0 : ℤ) = -ENOMEM by decide)) fun _ => ?_
    refine tallies_vfsWalk.bind fun r => countsUp_ite (fun _ => ?_) fun _ => ?_
    · exact countsUp_pure fun h => h.2 h.1
    · exact (tallies_vfsWalkUntil fuel r.2).mono fun _ h => h.1

theorem tallies_vfsWalkAll (w : Walk) : Tallies (vfsWalkAll w) (·.1 = -ENOMEM) := tallies_vfsWalkUntil _ w

theorem tallies_vfsWalkParent (w : Walk) : Tallies (vfsWalkParent w) (·.1 = -ENOMEM) := tallies_vfsWalkUntil _ w

theorem tallies_vfsWalkStop {w : Walk} : Tallies (vfsWalkStop w) fun _ => False := tallies_vfsEntryPut

theorem tallies_vfsResolvePath : Tallies (vfsResolvePath p) (·.2 = -ENOMEM) := by
  unfold vfsResolvePath
  refine tallies_vfsWalkStart.seq fun w₀ => (tallies_vfsWalkAll w₀).bind fun r => ?_
  obtain ⟨rc, w⟩ := r
  refine countsUp_ite (fun _ => ?_) fun _ => ?_
  · exact tallies_vfsWalkStop.seq fun _ => countsUp_pure fun h => h.2 h.1
  · refine tallies_vfsEntryGet.seq fun _ => tallies_vfsWalkStop.seq fun _ => countsUp_pure fun h => ?_
    exact absurd h.1 (show ¬(0 : ℤ) = -ENOMEM by decide)

/-! ### Calls -/

theorem tallies_vfsFileOpen : Tallies (vfsFileOpen p create) (·.1 = -ENOMEM) := by
  have hzero : ¬(0 : ℤ) = -ENOMEM := by decide
  have hnotsup : ¬-ENOTSUP = -ENOMEM := by decide
  refine tallies_vfsWalkStart.seq fun w₀ => (tallies_vfsWalkParent w₀).bind fun r => ?_
  obtain ⟨rc, w⟩ := r
  refine countsUp_ite (fun _ => ?_) fun _ => CountsUp.mono ?_ fun _ h => h.1
  · exact tallies_vfsWalkStop.seq fun _ => countsUp_pure fun h => h.2 h.1
  refine tallies_nodeOf.seq fun dir => countsUp_get fun s => countsUpAt_ite (fun _ => ?_) fun _ => ?_
  · exact tallies_vfsWalkStop.seq (fun _ => countsUp_pure (P := fun r : ℤ × Option Eid => r.1 = -ENOMEM) hnotsup) s
  refine tallies_vfsLookup.bind (fun ⟨o, rc₁⟩ => ?_) s
  cases o with
  | none =>
    -- the error of the lookup is returned
    dsimp only
    rw [pure_bind]
    refine tallies_vfsWalkStop.seq fun _ =>
      countsUp_ite (fun _ => countsUp_pure fun h => h.2 h.1) fun _ => countsUp_throw
  | some e =>
    have hstop : ∀ rc₂ : ℤ, Tallies (do
        vfsWalkStop w
        if rc₂ ≠ 0 then return (rc₂, none)
        else do
          let _ ← nodeOf e
          return (0, some e)) fun r => r.1 = -ENOMEM ∧ ¬rc₂ = -ENOMEM := fun rc₂ => by
      refine tallies_vfsWalkStop.seq fun _ => countsUp_ite (fun _ => countsUp_pure fun h => h.2 h.1) fun _ => ?_
      exact tallies_nodeOf.seq fun _ => countsUp_pure fun h => hzero h.1
    dsimp only
    refine countsUp_get fun s₃ => countsUpAt_ite (fun _ => countsUpAt_ite (fun _ => ?_) fun _ => ?_) fun _ => ?_
    · rw [pure_bind]
      exact (hstop _).mono (fun _ h => ⟨h.1, hnotsup⟩) _
    · exact (tallies_ramfsCreateOps.bind fun rc₂ => (hstop rc₂).mono fun _ h => ⟨h.1.1, h.2⟩) _
    · rw [pure_bind]
      exact (hstop _).mono (fun _ h => h) _

theorem tallies_vfsLink : Tallies (vfsLink p q) (· = -ENOMEM) := by
  have hnotsup : ¬-ENOTSUP = -ENOMEM := by decide
  have hexist : ¬-EEXIST = -ENOMEM := by decide
  refine tallies_vfsResolvePath.bind fun ⟨o, rc⟩ => ?_
  cases o with
  | none => exact countsUp_pure fun h => h.2 h.1
  | some old =>
    refine CountsUp.mono ?_ fun _ h => h.1
    refine tallies_vfsWalkStart.seq fun w₀ => (tallies_vfsWalkParent w₀).bind fun r => ?_
    obtain ⟨rc, w⟩ := r
    have hput : ∀ rc₁ : ℤ, Tallies (do vfsWalkStop w; vfsEntryPut old; return rc₁)
        fun r => r = -ENOMEM ∧ ¬rc₁ = -ENOMEM := fun rc₁ =>
      tallies_vfsWalkStop.seq fun _ => tallies_vfsEntryPut.seq fun _ => countsUp_pure fun h => h.2 h.1
    refine countsUp_ite (fun _ => hput rc) fun _ => CountsUp.mono ?_ fun _ h => h.1
    refine tallies_nodeOf.seq fun dir => countsUp_get fun s => countsUpAt_ite (fun _ => ?_) fun _ => ?_
    · exact (hput _).mono (fun _ h => ⟨h, hnotsup⟩) s
    refine tallies_vfsLookup.bind (fun ⟨o, rc₁⟩ => ?_) s
    cases o with
    | none => exact hput rc₁
    | some e =>
      have hstop : ∀ rc₂ : ℤ, Tallies (do vfsWalkStop w; vfsEntryPut old; vfsEntryPut e; return rc₂)
          fun r => r = -ENOMEM ∧ ¬rc₂ = -ENOMEM := fun rc₂ =>
        tallies_vfsWalkStop.seq fun _ => tallies_vfsEntryPut.seq fun _ => tallies_vfsEntryPut.seq fun _ =>
          countsUp_pure fun h => h.2 h.1
      refine CountsUp.mono ?_ fun _ h => h.1
      refine countsUp_get fun s₄ => countsUpAt_ite (fun _ => ?_) fun _ => ?_
      · rw [pure_bind]
        exact (hstop _).mono (fun _ h => ⟨h, hexist⟩) _
      · exact (tallies_ramfsLink.bind fun rc₂ => hstop rc₂) _

theorem tallies_vfsRemove {op : Nid → Eid → FsM ℤ} (hop : ∀ n e, Tallies (op n e) (· = -ENOMEM)) :
    Tallies (vfsRemove op p) (· = -ENOMEM) := by
  have hnotsup : ¬-ENOTSUP = -ENOMEM := by decide
  refine tallies_vfsResolvePath.bind fun ⟨o, rc⟩ => ?_
  cases o with
  | none => exact countsUp_pure fun h => h.2 h.1
  | some e =>
    refine CountsUp.mono ?_ fun _ h => h.1
    refine countsUp_get fun s => ?_
    refine tallies_nodeOf.seq (fun dir => countsUp_get fun s₂ => countsUpAt_ite (fun _ => ?_) fun _ => ?_) s
    · exact tallies_vfsEntryPut.seq (fun _ => countsUp_pure (P := (· = -ENOMEM)) hnotsup) s₂
    · exact (hop dir e).bind (fun rc₁ => tallies_vfsEntryPut.seq fun _ => countsUp_pure fun h => h.2 h.1) s₂

theorem tallies_vfsMkdir : Tallies (vfsMkdir p) (· = -ENOMEM) := by
  have hnotsup : ¬-ENOTSUP = -ENOMEM := by decide
  have hexist : ¬-EEXIST = -ENOMEM := by decide
  refine tallies_vfsWalkStart.seq fun w₀ => (tallies_vfsWalkParent w₀).bind fun r => ?_
  obtain ⟨rc, w⟩ := r
  refine countsUp_ite (fun _ => ?_) fun _ => CountsUp.mono ?_ fun _ h => h.1
  · exact tallies_vfsWalkStop.seq fun _ => countsUp_pure fun h => h.2 h.1
  refine tallies_nodeOf.seq fun dir => countsUp_get fun s => countsUpAt_ite (fun _ => ?_) fun _ => ?_
  · exact tallies_vfsWalkStop.seq (fun _ => countsUp_pure (P := (· = -ENOMEM)) hnotsup) s
  refine tallies_vfsLookup.bind (fun ⟨o, rc₁⟩ => ?_) s
  cases o with
  | none => exact tallies_vfsWalkStop.seq fun _ => countsUp_pure fun h => h.2 h.1
  | some e =>
    have hstop : ∀ rc₂ : ℤ, Tallies (do vfsWalkStop w; vfsEntryPut e; return rc₂)
        fun r => r = -ENOMEM ∧ ¬rc₂ = -ENOMEM := fun rc₂ =>
      tallies_vfsWalkStop.seq fun _ => tallies_vfsEntryPut.seq fun _ => countsUp_pure fun h => h.2 h.1
    refine CountsUp.mono ?_ fun _ h => h.1
    refine countsUp_get fun s₄ => countsUpAt_ite (fun _ => ?_) fun _ => ?_
    · rw [pure_bind]
      exact (hstop _).mono (fun _ h => ⟨h, hexist⟩) _
    · exact (tallies_ramfsCreateOps.bind fun rc₂ => hstop rc₂) _

theorem tallies_vfsMount : Tallies (vfsMount x) (· = -ENOMEM) := by
  refine countsUp_get fun s => countsUpAt_ite (fun _ => countsUp_pure (by decide) _) fun _ => ?_
  refine countsUpAt_set_seq le_rfl fun _ => ?_
  refine countsUp_ite (fun _ => ?_) fun _ => tallies_noMemory.after fun _ => countsUp_pure id
  refine tallies_ramfsNodeCreate.bind fun o => ?_
  cases o with
  | none => exact countsUp_pure fun h => h.2 rfl
  | some n => exact countsUp_modify_seq (fun _ => le_rfl) fun _ => countsUp_pure fun h => absurd h.1 (by decide)

theorem tallies_vfsUmount : Tallies (vfsUmount x) (· = -ENOMEM) := by
  refine countsUp_get fun s => ?_
  cases s.mounts.lookup x with
  | none => exact countsUp_pure (by decide) _
  | some n =>
    refine countsUpAt_set_seq le_rfl fun _ => ?_
    exact tallies_vfsNodePut.seq fun _ => countsUp_pure (by decide)

theorem tallies_fileOf {r : ℤ × Option Eid} : Tallies (fileOf files r) fun r' => r'.1.1 = -ENOMEM ∧ ¬r.1 = -ENOMEM := by
  unfold fileOf
  cases r.2 with
  | none => exact countsUp_pure fun h => h.2 h.1
  | some e => exact countsUp_get fun _ => countsUp_pure (fun h => h.2 h.1) _

/-- **A call returns `-ENOMEM` only when an allocation failed in it.** -/
theorem vfsCall_tallies : Tallies (vfsCall files c) (·.1.1 = -ENOMEM) := by
  have hreturn : ∀ {m : FsM ℤ}, Tallies m (· = -ENOMEM) →
      Tallies (do return ((← m, none), files) : FsM ((ℤ × Option Nid) × List Eid)) (·.1.1 = -ENOMEM) :=
    fun hm => hm.bind fun rc => countsUp_pure fun h => h.2 h.1
  cases c with
  | openFile p => exact tallies_vfsFileOpen.bind fun r => tallies_fileOf
  | createFile p => exact tallies_vfsFileOpen.bind fun r => tallies_fileOf
  | link p q => exact hreturn tallies_vfsLink
  | unlink p => exact hreturn (tallies_vfsRemove fun _ _ => tallies_ramfsUnlink)
  | mkdir p => exact hreturn tallies_vfsMkdir
  | rmdir p => exact hreturn (tallies_vfsRemove fun _ _ => tallies_ramfsRmdir)
  | release i =>
    have hzero : ¬(0 : ℤ) = -ENOMEM := by decide
    unfold vfsCall
    dsimp only
    cases files[i]? with
    | none => exact countsUp_pure hzero
    | some e => exact tallies_vfsEntryPut.seq fun _ => countsUp_pure hzero
  | mount x => exact hreturn tallies_vfsMount
  | umount x => exact hreturn tallies_vfsUmount

/-- A call in which no allocation fails does not return `-ENOMEM`. -/
theorem ne_noMemory {files' : List Eid} {r : ℤ × Option Nid} (hcall : vfsCall files c s = Except.ok ((r, files'), s'))
    (hmem : s'.failures = s.failures) : r.1 ≠ -ENOMEM :=
  fun hrc => absurd hmem ((vfsCall_tallies s _ _ hcall).2 hrc).ne'

end

end Vfs

end Kernel64
