import Kernel64.Vfs.Balance
import Kernel64.Vfs.Memory

/-!
# The entries do not show

Once file systems are mounted, any calls on paths below them return what they return on the directory trees
alone, and open the same nodes, however long the files are kept open, as long as no allocation fails.
-/

namespace Kernel64

namespace Vfs

/-- Calls on the directory trees alone, with what each of them gives. -/
def Tree.calls (t : Tree) : List Call → List (ℤ × Option Nid) × Tree
  | [] => ([], t)
  | c :: cs => ((t.call c).1 :: ((t.call c).2.calls cs).1, ((t.call c).2.calls cs).2)

/-- No component of a path is too long for the buffer. -/
def Call.Short (c : Call) : Prop := ∀ p ∈ c.paths, ∀ x ∈ components p, x.length < maxPathLen

/-- There is no entry but the root, and nothing but mounts in the trees. -/
structure MountsOnly (s : Fs) : Prop where
  ok : FsOk False False (fun _ => False) s 0
  live : ∀ e, s.live e = true → e = rootEntry
  names : ∀ d, s.names d = []
  nodup : (s.mounts.map Prod.snd).Nodup

section

variable {s s₀ : Fs} {c : Call} {files : List Eid} {events : List Event} {t : Tree} {x : Name}
  {entrySupply : ℕ → Option Eid} {nodeSupply : ℕ → Option Nid} {nameSupply mountSupply : ℕ → Bool}

theorem Tree.calls_append (c : Call) : ∀ (cs : List Call) (t : Tree), t.calls (cs ++ [c]) =
    ((t.calls cs).1 ++ [((t.calls cs).2.call c).1], ((t.calls cs).2.call c).2)
  | [], _ => rfl
  | c' :: cs, t => by
    rw [List.cons_append, Tree.calls, Tree.calls_append c cs]
    rfl

/-! ### Mounts -/

theorem ensures_vfsMount_tree : Ensures (vfsMount x) s fun _ s' =>
    (∀ d, s'.names d = s.names d ∨ s'.names d = []) ∧
      (s'.mounts = s.mounts ∨ ∃ y n, s.nodeLive n = false ∧ s'.mounts = s.mounts ++ [(y, n)]) := by
  unfold vfsMount
  simp only [ensures_bind, ensures_get]
  cases (s.mounts.lookup x).isSome with
  | true => exact ensures_pure.2 ⟨fun _ => Or.inl rfl, Or.inl rfl⟩
  | false =>
    rw [if_neg Bool.false_ne_true]
    simp only [ensures_bind, ensures_set]
    split
    · simp only [ensures_bind]
      refine ensures_ramfsNodeCreate ?_ ?_
      · exact fun _ => ensures_pure.2 ⟨fun _ => Or.inl rfl, Or.inl rfl⟩
      · intro n _ hn _
        simp only [ensures_bind, ensures_modify, ensures_pure]
        refine ⟨fun d => ?_, Or.inr ⟨_, n, hn, rfl⟩⟩
        by_cases hd : d = n
        · exact Or.inr (hd ▸ Function.update_self _ _ _)
        · exact Or.inl (Function.update_of_ne hd _ _)
    · exact ensures_pure.2 ⟨fun _ => Or.inl rfl, Or.inl rfl⟩

theorem mountsOnly_setupVfs : MountsOnly (setupVfs entrySupply nodeSupply nameSupply mountSupply) where
  ok := fsOk_setupVfs not_false
  live _ he := setupVfs_live.1 he
  names _ := rfl
  nodup := List.nodup_nil

theorem MountsOnly.mount (h : MountsOnly s) : Ensures (vfsMount x) s fun _ s' => MountsOnly s' := by
  obtain ⟨rc, s', hrun, h', hentry, hlive, -⟩ := h.ok.mount (x := x) False.elim
  refine ⟨rc, s', hrun, h', ?_, ?_, ?_⟩
  · intro e he
    rw [hlive] at he
    exact h.live e he
  all_goals obtain ⟨hnames, hmounts⟩ := ensures_vfsMount_tree.of_run hrun
  · intro d
    rcases hnames d with hd | hd
    · rw [hd, h.names d]
    · exact hd
  · rcases hmounts with hm | ⟨y, n, hn, hm⟩
    · rw [hm]
      exact h.nodup
    · rw [hm, List.map_append, List.nodup_append]
      refine ⟨h.nodup, List.nodup_singleton _, ?_⟩
      intro m hm' m' hmem
      obtain ⟨z, hz, rfl⟩ := List.mem_map.1 hm'
      rw [List.mem_singleton.1 hmem]
      intro hc
      have := h.ok.nodes.mounted z hz
      rw [hc, hn] at this
      exact nomatch this

/-- Mounts alone make coherent file systems. -/
theorem MountsOnly.fsOk (h : MountsOnly s) : FsOk True False (fun _ => False) s 0 := by
  refine ⟨h.ok.entries, h.ok.nodes, fun _ => ?_, h.ok.bare⟩
  have hfind : ∀ d y n, Real s d → s.find d y = some n → d = rootNode ∧ (y, n) ∈ s.mounts := by
    intro d y n hd hy
    unfold Fs.find at hy
    split at hy
    · next hk =>
      refine ⟨hd.resolve_right fun hl => h.ok.nodes.kinds d hl hk, ?_⟩
      obtain ⟨l₁, l₂, hl, -⟩ := List.lookup_eq_some_iff.1 hy
      rw [hl]
      simp
    · rw [h.names d] at hy
      exact nomatch hy
    · exact nomatch hy
  constructor
  case found =>
    intro e n m he hc
    rw [h.live e he, h.ok.entries.root_cached] at hc
    exact nomatch hc
  case single =>
    intro d d' y y' n hd hd' hy hy' _
    obtain ⟨rfl, hm⟩ := hfind d y n hd hy
    obtain ⟨rfl, hm'⟩ := hfind d' y' n hd' hy'
    refine ⟨rfl, ?_⟩
    have := List.inj_on_of_nodup_map h.nodup hm hm' rfl
    exact (Prod.mk.inj this).1
  case lost => exact fun e n he hroot => absurd (h.live e he) hroot
  case one => exact fun e e' n he he' _ _ _ => (h.live e he).trans (h.live e' he').symm

theorem VfsRun.mountsOnly
    (hrun : VfsRun (setupVfs entrySupply nodeSupply nameSupply mountSupply) events s files)
    (hmounts : ∀ ev ∈ events, ∃ x, ev.call = .mount x) : MountsOnly s := by
  induction hrun with
  | start => exact mountsOnly_setupVfs
  | @call events s s' files files' c r hrun hcall ih =>
    have h := ih fun ev hev => hmounts ev (List.mem_append_left _ hev)
    obtain ⟨x, hx⟩ := hmounts _ (List.mem_append_right _ (List.mem_singleton_self _))
    dsimp only at hx
    subst hx
    have hstep : Ensures (vfsCall files (.mount x)) s fun _ s' => MountsOnly s' := by
      unfold vfsCall
      rw [ensures_bind]
      exact h.mount.mono fun _ _ h' => ensures_pure.2 h'
    exact hstep.of_run hcall

/-! ### Calls on the trees -/

/-- A call on the trees returns, and gives what it gives without entries. -/
theorem FsOk.callTree (h : FsOk True False (fun _ => False) s files) (hc : c.OnTree) (hshort : c.Short) :
    Ensures (vfsCall files c) s fun r s' => r.1.1 = -ENOMEM ∨
      (s.tree.call c = (r.1, s'.tree) ∧ FsOk True False (fun _ => False) s' r.2) := by
  have hlong : ¬∃ p ∈ c.paths, ∃ x ∈ components p, maxPathLen ≤ x.length := by
    intro ⟨p, hp, x, hx, hlen⟩
    have := hshort p hp x hx
    omega
  rw [← add_zero (files : Multiset Eid)] at h
  have hcall := (h.call (F := fun _ => False) (fun _ _ => not_false) (fun _ => False.elim) hlong
    (fun _ => h.onMount (fun _ _ => not_false) trivial hc) False.elim).ensures fun _ hf => hf
  refine hcall.mono fun ⟨r, files'⟩ s' ⟨hr, _, htree, _⟩ => ?_
  refine or_iff_not_imp_left.2 fun hmem => ⟨(htree trivial hc).resolve_left hmem, ?_⟩
  dsimp only at hr hmem ⊢
  cases hr with
  | same h₁ => rwa [add_zero] at h₁
  | opened h₁ => rwa [add_zero] at h₁
  | released _ _ h₁ => rwa [add_zero] at h₁
  | leaked _ _ _ hrc => exact absurd (hrc trivial) hmem

theorem VfsRun.tree (hrun : VfsRun s₀ events s files) (h₀ : FsOk True False (fun _ => False) s₀ 0)
    (htree : ∀ ev ∈ events, ev.call.OnTree ∧ ev.call.Short)
    (hmem : ∀ ev ∈ events, ev.result.1 ≠ -ENOMEM) :
    FsOk True False (fun _ => False) s files ∧
      s₀.tree.calls (events.map Event.call) = (events.map Event.result, s.tree) := by
  induction hrun with
  | start => exact ⟨h₀, rfl⟩
  | @call events s s' files files' c r hrun hcall ih =>
    obtain ⟨h, hcalls⟩ := ih (fun ev hev => htree ev (List.mem_append_left _ hev))
      fun ev hev => hmem ev (List.mem_append_left _ hev)
    have hlast : (⟨s, c, r⟩ : Event) ∈ events ++ [⟨s, c, r⟩] :=
      List.mem_append_right _ (List.mem_singleton_self _)
    obtain ⟨hc, hshort⟩ := htree _ hlast
    obtain ⟨hstep, h'⟩ := ((h.callTree hc hshort).of_run hcall).resolve_left (hmem _ hlast)
    refine ⟨h', ?_⟩
    rw [List.map_append, List.map_append, List.map_singleton, List.map_singleton, Tree.calls_append,
      hcalls]
    dsimp only
    rw [hstep]

end

end Vfs

end Kernel64
