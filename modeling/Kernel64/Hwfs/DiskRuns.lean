import Mathlib.Data.List.Pairwise
import Kernel64.Hwfs.DiskCache

/-!
# Runs of the block cache

Clients get blocks, change the contents of blocks they hold, and take and drop references. What
they see is the array `content`: it starts as the device, and only a holder changes it. As long as
no eviction disturbs the slot found by the miss that causes it, the cache refines this array.

Otherwise it does not. With room for two blocks, blocks `1` and `2` cached and `2` unused, the
slot for block `3` is the right child of block `2`, which is then evicted and reused for block `3`:
the new block becomes its own child and is never found again.
-/

namespace Kernel64

namespace Hwfs

open ColorTree Rb

variable {δ : Type}

/-- What a client does. -/
inductive DiskEvent (δ : Type)
  | get (fuel : ℕ) (env : DiskEnv) (n : ℕ) (p : Ptr)
  | modify (p : Ptr) (v : δ)
  | ref (p : Ptr)
  | put (fuel : ℕ) (p : Ptr)

/-- One call, or a store into a block that is held. References are balanced: only a block with a
reference is stored to, referenced again or put. -/
inductive DiskStep (threshold : ℕ) : DiskRun δ → DiskEvent δ → DiskRun δ → Prop
  | get {σ : DiskRun δ} {fuel : ℕ} {env : DiskEnv} {n : ℕ} {p : Ptr} {s' : DiskIo δ}
      (hfuel : σ.io.blockCount < fuel) (hw : Works fuel env σ.io)
      (hrun : diskGetBlock fuel threshold env n σ.io = .ok (p, s')) :
      DiskStep threshold σ (.get fuel env n p)
        ⟨s', Function.update σ.refs p (σ.refs p + 1), σ.content⟩
  | modify {σ : DiskRun δ} {p : Ptr} {v : δ} (hp : 0 < σ.refs p) :
      DiskStep threshold σ (.modify p v)
        ⟨{ σ.io with block := Function.update σ.io.block p { σ.io.block p with data := v } },
          σ.refs, Function.update σ.content (σ.io.block p).blocknr v⟩
  | ref {σ : DiskRun δ} {p r : Ptr} {s' : DiskIo δ} (hp : 0 < σ.refs p)
      (hrun : diskRefBlock p σ.io = .ok (r, s')) :
      DiskStep threshold σ (.ref p)
        ⟨s', Function.update σ.refs p (σ.refs p + 1), σ.content⟩
  | put {σ : DiskRun δ} {fuel : ℕ} {p : Ptr} {s' : DiskIo δ} (hfuel : σ.io.blockCount < fuel)
      (hp : 0 < σ.refs p) (hrun : diskPutBlock fuel threshold true p σ.io = .ok ((), s')) :
      DiskStep threshold σ (.put fuel p)
        ⟨s', Function.update σ.refs p (σ.refs p - 1), σ.content⟩

/-- The states reached from a new cache by steps that satisfy `P`. -/
inductive DiskReachable (threshold : ℕ) (P : DiskRun δ → DiskEvent δ → Prop) : DiskRun δ → Prop
  | init (nodes : Ptr → RbNode) (block : Ptr → DiskBlock δ) (device : ℕ → δ) :
      DiskReachable threshold P ⟨setupDiskIo nodes block device, fun _ => 0, device⟩
  | step {σ σ' : DiskRun δ} {e : DiskEvent δ} (h : DiskReachable threshold P σ) (hP : P σ e)
      (hstep : DiskStep threshold σ e σ') : DiskReachable threshold P σ'

/-- A miss that evicts a block finds the same slot without that block. -/
def Harmless (threshold : ℕ) (σ : DiskRun δ) : DiskEvent δ → Prop
  | .get fuel env n _ => Evicts threshold env σ.io → Undisturbed fuel σ.io n
  | _ => True

theorem diskInv_init (nodes : Ptr → RbNode) (block : Ptr → DiskBlock δ) (device : ℕ → δ) :
    DiskInv ⟨setupDiskIo nodes block device, fun _ => 0, device⟩ := by
  refine ⟨.nil, ⟨⟨rfl, trivial, List.nodup_nil⟩, redBlack_iff.mpr ⟨rfl, trivial, 0, rfl⟩,
    List.Pairwise.nil, by simp, by simp, by simp, fun _ _ => rfl⟩, ⟨List.nodup_nil, ?_⟩, rfl⟩
  simp [setupDiskIo]

/-- A store into a held block changes the array at its number. -/
theorem DiskInv.modify {σ : DiskRun δ} (h : DiskInv σ) {p : Ptr} {v : δ} (hp : 0 < σ.refs p) :
    DiskInv ⟨{ σ.io with block := Function.update σ.io.block p { σ.io.block p with data := v } },
      σ.refs, Function.update σ.content (σ.io.block p).blocknr v⟩ := by
  obtain ⟨t, hcore, hl, hcount⟩ := h
  have hmem : p ∈ t.inorder := by
    by_contra hout
    have := hcore.unused p hout
    omega
  have hsame : ∀ q, (Function.update σ.io.block p { σ.io.block p with data := v } q).blocknr
        = (σ.io.block q).blocknr ∧
      (Function.update σ.io.block p { σ.io.block p with data := v } q).links
        = (σ.io.block q).links := fun q => by
    by_cases hq : q = p
    · subst hq
      rw [Function.update_self]
      exact ⟨rfl, rfl⟩
    · rw [Function.update_of_ne hq]
      exact ⟨rfl, rfl⟩
  -- a block number is cached once
  have hinj : ∀ q ∈ t.inorder, q ≠ p → (σ.io.block q).blocknr ≠ (σ.io.block p).blocknr := by
    intro q hq hne heq
    have hpw : t.inorder.Pairwise fun a b => (σ.io.block a).blocknr ≠ (σ.io.block b).blocknr :=
      hcore.sorted.imp fun hab => hab.ne
    have hsymm : Std.Symm fun a b : Ptr => (σ.io.block a).blocknr ≠ (σ.io.block b).blocknr :=
      ⟨fun _ _ h => h.symm⟩
    exact hpw.forall hq hmem hne heq
  refine ⟨t, ⟨hcore.repr, hcore.redBlack, ?_, fun q hq => ?_, hcore.unused, fun q hq => ?_,
    fun m hm => ?_⟩, ⟨hl.nodup, fun q => ?_⟩, hcount⟩
  · simpa only [(hsame _).1] using hcore.sorted
  · rw [(hsame q).2]
    exact hcore.links q hq
  · by_cases hqp : q = p
    · subst hqp
      simp
    · simp only [Function.update_of_ne hqp, Function.update_of_ne (hinj q hq hqp)]
      exact hcore.cached q hq
  · have hne : m ≠ (σ.io.block p).blocknr := by
      have := hm p hmem
      rw [(hsame p).1] at this
      exact this.symm
    simp only [Function.update_of_ne hne]
    exact hcore.stored m fun q hq => by
      have := hm q hq
      rwa [(hsame q).1] at this
  · rw [(hsame q).2]
    exact hl.mem_iff q

/-- **One step** keeps the invariant. -/
theorem DiskStep.inv {threshold : ℕ} {σ σ' : DiskRun δ} {e : DiskEvent δ}
    (hstep : DiskStep threshold σ e σ') (hP : Harmless threshold σ e) (h : DiskInv σ) :
    DiskInv σ' := by
  cases hstep with
  | get hfuel hw hrun => exact ((ensures_diskGetBlock h hfuel hw _ hP).of_run hrun).inv
  | modify hp => exact h.modify hp
  | ref hp hrun => exact (ensures_diskRefBlock h hp).of_run hrun
  | put hfuel hp hrun => exact (ensures_diskPutBlock h hfuel hp).of_run hrun

theorem DiskReachable.inv {threshold : ℕ} {σ : DiskRun δ}
    (h : DiskReachable threshold (Harmless threshold) σ) : DiskInv σ := by
  induction h with
  | init nodes block device => exact diskInv_init nodes block device
  | step _ hP hstep ih => exact hstep.inv hP ih

end Hwfs

end Kernel64
