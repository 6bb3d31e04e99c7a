import Kernel64.Slab.Create

/-!
# The life of a large slab

`kmem_large_slab_create` pushes its tags on the chain `slab->free` of the header that `slab_cache` hands out, without
setting that pointer first, and `kmem_large_slab_release` walks the chain until a null pointer. So the chain ends where
the previous user of the memory left off: a slab is built and torn down as it should exactly when that was a null
pointer (`largeSlab_lifeOk_iff`). The chain `slab->busy` also ends in garbage, but nobody walks it to its end.
-/

namespace Kernel64

namespace Kmem

/-- Following `next` from `p` on meets the entries of `l`, in this order, and then comes to `e`. -/
def ChainTo (next : ℕ → ℕ) (e : ℕ) : ℕ → List ℕ → Prop
  | p, [] => p = e
  | p, a :: l => p = a ∧ ChainTo next e (next a) l

/-- The tags of the first `n` requests. -/
def tagsUpTo (env : KmemEnv) (n : ℕ) : List ℕ := (List.range n).filterMap env.tag

/-- The free chain of a slab without live objects: one tag for each object, and then a null pointer. -/
structure FullChain (c : KmemCache) (env : KmemEnv) (page a : ℕ) (s : KmemState) (T : List ℕ) : Prop where
  chain : ChainTo (fun t => (s.tag t).next) 0 (s.slab a).freeTag T
  length : T.length = objectCount c
  tags : T.Perm (tagsUpTo env (objectCount c))
  nodup : T.Nodup
  objects : (T.map fun t => (s.tag t).ptr).Perm (objects c page)
  distinct : (T.map fun t => (s.tag t).ptr).Nodup
  apart : ∀ t ∈ T, ∀ u ∈ T, t ≠ u → (s.tag t).ptr + c.objectSize ≤ (s.tag u).ptr ∨
    (s.tag u).ptr + c.objectSize ≤ (s.tag t).ptr

/-- Calls of `alloc` and `free` on the slab `a`, with the objects that are live after them. -/
inductive SlabRun (c : KmemCache) (a : ℕ) (s₀ : KmemState) : KmemState → List ℕ → Prop
  | start : SlabRun c a s₀ s₀ []
  | alloc {s s' : KmemState} {L : List ℕ} {p : ℕ} : SlabRun c a s₀ s L → L.length < objectCount c →
      largeSlabAlloc a s = Except.ok (p, s') → SlabRun c a s₀ s' (p :: L)
  | free {s s' : KmemState} {L : List ℕ} {p : ℕ} : SlabRun c a s₀ s L → p ∈ L →
      largeSlabFree a p s = Except.ok ((), s') → SlabRun c a s₀ s' (L.erase p)

/-- The slab structure `a` and the tags were given back, each once, and nothing else. -/
def GivenBack (a : ℕ) (tags : List ℕ) (s s' : KmemState) : Prop :=
  ∃ l, l.Perm tags ∧ s'.returned = a :: (l ++ s.returned)

/-- **The life of a large slab.** When all requests for tags succeed, the slab has a tag for each object, and
`kmem_large_slab_destroy` gives back what was taken for it, whatever was allocated and freed before. When the request
`n` is the first one to fail, what was taken up to then is given back. -/
structure LifeOk (fuel : ℕ) (c : KmemCache) (env : KmemEnv) (page : ℕ) (s : KmemState) : Prop where
  created : ∀ a, env.slab = some a → (∀ i < objectCount c, env.tag i ≠ none) →
    Ensures (largeSlabCreate fuel c env page) s fun r s₁ => r = some a ∧ ∃ T, FullChain c env page a s₁ T ∧
      ∀ s₂, SlabRun c a s₁ s₂ [] → Ensures (largeSlabRelease a fuel) s₂ fun _ s₃ => GivenBack a T s₂ s₃
  failed : ∀ a n, env.slab = some a → n < objectCount c → env.tag n = none → (∀ i < n, env.tag i ≠ none) →
    Ensures (largeSlabCreate fuel c env page) s fun r s₁ => r = none ∧ GivenBack a (tagsUpTo env n) s s₁
  refused : env.slab = none → Ensures (largeSlabCreate fuel c env page) s fun r s₁ => r = none ∧ s₁ = s

/-- `tag_cache` hands out memory, and none of it twice. -/
structure TagsDistinct (env : KmemEnv) : Prop where
  ne_null : ∀ i t, env.tag i = some t → t ≠ 0
  inj : ∀ i j t, env.tag i = some t → env.tag j = some t → i = j

section

variable {c : KmemCache} {env : KmemEnv} {s s' : KmemState} {fuel page a e i n t : ℕ} {T B L : List ℕ}
  {next next' : ℕ → ℕ} {p : ℕ}

/-! ### Chains -/

theorem chainTo_congr (h : ∀ b ∈ T, next' b = next b) : ChainTo next' e p T ↔ ChainTo next e p T := by
  induction T generalizing p with
  | nil => exact Iff.rfl
  | cons b l ih => rw [ChainTo, ChainTo, h b (by simp), ih fun d hd => h d (List.mem_cons_of_mem _ hd)]

theorem ChainTo.push (h : ChainTo next e p T) (hself : next' a = p) (hother : ∀ b ∈ T, next' b = next b) :
    ChainTo next' e a (a :: T) := by
  refine ⟨rfl, ?_⟩
  rw [hself]
  exact (chainTo_congr hother).2 h

/-- Two chains of one length from the same place end in the same place. -/
theorem ChainTo.unique {e' : ℕ} {T' : List ℕ} (h : ChainTo next e p T) (h' : ChainTo next e' p T')
    (hlen : T.length = T'.length) : e = e' := by
  induction T generalizing p T' with
  | nil =>
    obtain rfl := List.length_eq_zero_iff.1 hlen.symm
    exact h.symm.trans h'
  | cons b l ih =>
    cases T' with
    | nil => exact nomatch hlen
    | cons b' l' =>
      obtain ⟨rfl, h⟩ := h
      obtain ⟨rfl, h'⟩ := h'
      exact ih h h' (Nat.succ.inj hlen)

theorem tagsUpTo_succ (ht : env.tag n = some t) : tagsUpTo env (n + 1) = tagsUpTo env n ++ [t] := by
  simp [tagsUpTo, List.range_succ, List.filterMap_append, ht]

theorem mem_tagsUpTo : t ∈ tagsUpTo env n ↔ ∃ i < n, env.tag i = some t := by
  simp [tagsUpTo, List.mem_filterMap]

/-! ### Releasing a slab -/

/-- The state after the first tag of the free chain was given back. -/
def popTag (s : KmemState) (a : ℕ) : KmemState :=
  { putSlab s a (fun slab => { slab with freeTag := (s.tag (s.slab a).freeTag).next }) with
    returned := (s.slab a).freeTag :: s.returned }

/-- A round of the loop of `kmem_large_slab_release`. -/
theorem largeSlabRelease_run (hne : (s.slab a).freeTag ≠ 0) :
    largeSlabRelease a (fuel + 1) s = largeSlabRelease a fuel (popTag s a) := by
  have hget : (get : KmemM KmemState) s = Except.ok (s, s) := rfl
  have hload : loadTag (s.slab a).freeTag s = Except.ok (s.tag (s.slab a).freeTag, s) := by
    unfold loadTag
    rw [if_neg hne]
    rfl
  rw [largeSlabRelease, bind_of_run hget, if_neg hne, bind_of_run hload]
  rfl

theorem largeSlabRelease_end (hnull : (s.slab a).freeTag = 0) :
    largeSlabRelease a (fuel + 1) s = Except.ok ((), { s with returned := a :: s.returned }) := by
  have hget : (get : KmemM KmemState) s = Except.ok (s, s) := rfl
  rw [largeSlabRelease, bind_of_run hget, if_pos hnull]
  rfl

theorem popTag_freeTag : ((popTag s a).slab a).freeTag = (s.tag (s.slab a).freeTag).next := by
  simp [popTag]

/-- The slab and the tags of its free chain are given back. -/
theorem ensures_largeSlabRelease (h : ChainTo (fun t => (s.tag t).next) 0 (s.slab a).freeTag T) (hT : ∀ t ∈ T, t ≠ 0)
    (hfuel : T.length < fuel) : Ensures (largeSlabRelease a fuel) s fun _ s' => GivenBack a T s s' := by
  induction fuel generalizing s T with
  | zero => exact absurd hfuel (Nat.not_lt_zero _)
  | succ fuel ih =>
    unfold Ensures
    cases T with
    | nil =>
      rw [largeSlabRelease_end h]
      exact ⟨_, _, rfl, [], List.Perm.refl _, rfl⟩
    | cons t T =>
      obtain ⟨hhead, hrest⟩ := h
      have hne : (s.slab a).freeTag ≠ 0 := hhead ▸ hT t List.mem_cons_self
      rw [largeSlabRelease_run hne]
      refine (ih ?_ (fun u hu => hT u (List.mem_cons_of_mem _ hu)) (Nat.lt_of_succ_lt_succ hfuel)).mono ?_
      · rw [popTag_freeTag, hhead]
        exact hrest
      · rintro _ s' ⟨l, hl, hs'⟩
        refine ⟨l ++ [t], (List.perm_append_singleton t l).trans (hl.cons t), ?_⟩
        rw [hs', List.append_assoc, ← hhead]
        rfl

/-- A release that returns has given back the slab structure and some tags, and more than those of the chain unless it
ends in a null pointer. -/
theorem yields_largeSlabRelease (h : ChainTo (fun t => (s.tag t).next) e (s.slab a).freeTag T) (hT : ∀ t ∈ T, t ≠ 0) :
    Yields (largeSlabRelease a fuel) s fun _ s' =>
      ∃ l, s'.returned = a :: (l ++ s.returned) ∧ T.length ≤ l.length ∧ (e ≠ 0 → T.length < l.length) := by
  induction fuel generalizing s T e with
  | zero => exact yields_throw
  | succ fuel ih =>
    intro r s' hrun
    by_cases hne : (s.slab a).freeTag = 0
    · rw [largeSlabRelease_end hne] at hrun
      obtain ⟨-, rfl⟩ := Prod.mk.inj (Except.ok.inj hrun)
      cases T with
      | nil => exact ⟨[], rfl, le_rfl, fun he => absurd (h.symm.trans hne) he⟩
      | cons t T => exact absurd (h.1.symm.trans hne) (hT t List.mem_cons_self)
    · rw [largeSlabRelease_run hne] at hrun
      cases T with
      | nil =>
        -- nothing is known of the chain from here on
        obtain ⟨l, hl, -⟩ := ih (s := popTag s a) (T := []) rfl nofun r s' hrun
        refine ⟨l ++ [(s.slab a).freeTag], ?_, Nat.zero_le _, fun _ => by simp⟩
        rw [hl, List.append_assoc]
        rfl
      | cons t T =>
        obtain ⟨hhead, hrest⟩ := h
        have hpop : ChainTo (fun t => ((popTag s a).tag t).next) e ((popTag s a).slab a).freeTag T := by
          rw [popTag_freeTag, hhead]
          exact hrest
        obtain ⟨l, hl, hle, hlt⟩ := ih hpop (fun u hu => hT u (List.mem_cons_of_mem _ hu)) r s' hrun
        refine ⟨l ++ [(s.slab a).freeTag], ?_, ?_, fun he => ?_⟩
        · rw [hl, List.append_assoc]
          rfl
        · rw [List.length_append]
          exact Nat.add_le_add_right hle 1
        · rw [List.length_append]
          exact Nat.add_lt_add_right (hlt he) 1

/-- More than the tags is given back when the chain does not end in a null pointer. -/
theorem not_givenBack {tags : List ℕ} (h : ChainTo (fun t => (s.tag t).next) e (s.slab a).freeTag T)
    (hT : ∀ t ∈ T, t ≠ 0) (he : e ≠ 0) (hlen : tags.length = T.length) {r : Unit}
    (hrun : largeSlabRelease a fuel s = Except.ok (r, s')) : ¬GivenBack a tags s s' := by
  rintro ⟨l', hl', hs'⟩
  obtain ⟨l, hl, -, hlt⟩ := yields_largeSlabRelease h hT r s' hrun
  rw [hl, List.cons.injEq] at hs'
  have heq := congrArg List.length hs'.2
  rw [List.length_append, List.length_append, hl'.length_eq] at heq
  have := hlt he
  omega

/-! ### Building a slab -/

/-- The state after a tag was pushed on the free chain. -/
def pushTag (s : KmemState) (a t ptr : ℕ) : KmemState :=
  putSlab { s with tag := Function.update s.tag t ⟨(s.slab a).freeTag, ptr⟩ } a fun slab => { slab with freeTag := t }

/-- The free chain after `i` tags were pushed, on top of what the header held in the state `s₀`. -/
structure Pushed (c : KmemCache) (env : KmemEnv) (page a : ℕ) (s₀ : KmemState) (i : ℕ) (s : KmemState) (T : List ℕ) :
    Prop where
  chain : ChainTo (fun t => (s.tag t).next) (s₀.slab a).freeTag (s.slab a).freeTag T
  tags : T.reverse = tagsUpTo env i
  length : T.length = i
  ptr : T.map (fun t => (s.tag t).ptr) = firstObjects c page i
  returned : s.returned = s₀.returned

variable {s₀ : KmemState}

theorem Pushed.mem (h : Pushed c env page a s₀ i s T) (ht : t ∈ T) : ∃ j < i, env.tag j = some t := by
  rw [← mem_tagsUpTo, ← h.tags]
  exact List.mem_reverse.2 ht

theorem Pushed.ne_null (h : Pushed c env page a s₀ i s T) (henv : TagsDistinct env) : ∀ t ∈ T, t ≠ 0 := by
  intro t ht
  obtain ⟨j, -, hj⟩ := h.mem ht
  exact henv.ne_null j t hj

theorem TagsDistinct.nodup (henv : TagsDistinct env) (n : ℕ) : (tagsUpTo env n).Nodup := by
  refine List.Nodup.filterMap (fun i j t hi hj => ?_) List.nodup_range
  exact henv.inj i j t hi hj

theorem Pushed.step (h : Pushed c env page a s₀ i s T) (henv : TagsDistinct env) (ht : env.tag i = some t) :
    Pushed c env page a s₀ (i + 1) (pushTag s a t (pageAddr page + i * stride c)) (t :: T) := by
  -- a tag is handed out once
  have hfresh : ∀ u ∈ T, u ≠ t := by
    rintro u hu rfl
    obtain ⟨j, hj, hju⟩ := h.mem hu
    exact hj.ne (henv.inj j i u hju ht)
  refine ⟨?_, ?_, ?_, ?_, h.returned⟩
  · simp only [pushTag, putSlab_self]
    refine h.chain.push ?_ fun u hu => ?_
    · simp [putSlab]
    · simp [putSlab, Function.update_of_ne (hfresh u hu)]
  · rw [List.reverse_cons, h.tags, tagsUpTo_succ ht]
  · rw [List.length_cons, h.length]
  · rw [List.map_cons, firstObjects_succ, ← h.ptr]
    congr 1
    · simp [pushTag, putSlab]
    · exact List.map_congr_left fun u hu => by simp [pushTag, putSlab, Function.update_of_ne (hfresh u hu)]

/-- The loop of `kmem_large_slab_create` goes on while there are tags. -/
theorem largeCreateLoop_run (fuel : ℕ) (hk : c.kind = .large) (henv : TagsDistinct env) {m : ℕ}
    (hm : i + m = objectCount c)
    (h : Pushed c env page a s₀ i s T) :
    ((∀ j < objectCount c, env.tag j ≠ none) → ∃ s' T', Pushed c env page a s₀ (objectCount c) s' T' ∧
      largeCreateLoop fuel c env a m i (pageAddr page + i * stride c) s = Except.ok (some a, s')) ∧
    ∀ n < objectCount c, i ≤ n → env.tag n = none → (∀ j < n, env.tag j ≠ none) →
      ∃ s' T', Pushed c env page a s₀ n s' T' ∧
        largeCreateLoop fuel c env a m i (pageAddr page + i * stride c) s =
          (largeSlabRelease a fuel >>= fun _ => pure none) s' := by
  induction m generalizing i s T with
  | zero =>
    obtain rfl : i = objectCount c := hm
    exact ⟨fun _ => ⟨s, T, h, rfl⟩, fun n hn hin => absurd hn (Nat.not_lt.2 hin)⟩
  | succ m ih =>
    cases ht : env.tag i with
    | none =>
      refine ⟨fun hall => absurd ht (hall i (by omega)), fun n hn hin hnone hbefore => ?_⟩
      have hni : n = i := by
        by_contra hne
        exact hbefore i (by omega) ht
      subst hni
      refine ⟨s, T, h, ?_⟩
      rw [largeCreateLoop]
      simp only [ht]
    | some t =>
      have hs : stride c = c.objectSize := by simp only [stride, hk]
      have hnext := ih (i := i + 1) (by omega) (h.step henv ht)
      rw [Nat.add_mul, Nat.one_mul, ← Nat.add_assoc] at hnext
      have hrun : largeCreateLoop fuel c env a (m + 1) i (pageAddr page + i * stride c) s =
          largeCreateLoop fuel c env a m (i + 1) (pageAddr page + i * stride c + stride c)
            (pushTag s a t (pageAddr page + i * stride c)) := by
        rw [largeCreateLoop, hs]
        simp only [ht]
        rfl
      rw [hrun]
      refine ⟨hnext.1, fun n hn hin hnone => hnext.2 n hn ?_ hnone⟩
      refine lt_of_le_of_ne hin ?_
      rintro rfl
      cases hnone.symm.trans ht

/-- The start of `kmem_large_slab_create`: the counters are set, and the chains are not. -/
theorem largeSlabCreate_run (fuel page : ℕ) (s : KmemState) (hk : c.kind = .large) (henv : TagsDistinct env)
    (ha : env.slab = some a) :
    ((∀ j < objectCount c, env.tag j ≠ none) → ∃ s' T', Pushed c env page a s (objectCount c) s' T' ∧
      largeSlabCreate fuel c env page s = Except.ok (some a, s')) ∧
    ∀ n < objectCount c, env.tag n = none → (∀ j < n, env.tag j ≠ none) →
      ∃ s' T', Pushed c env page a s n s' T' ∧
        largeSlabCreate fuel c env page s = (largeSlabRelease a fuel >>= fun _ => pure none) s' := by
  have hcount : slabBytes c / c.objectSize = objectCount c := by
    simp only [objectCount, objectBytes, stride, hk]
  have hrun : largeSlabCreate fuel c env page s = largeCreateLoop fuel c env a (objectCount c) 0
      (pageAddr page + 0 * stride c)
      (putSlab s a fun slab => { slab with total := objectCount c, free := objectCount c }) := by
    rw [largeSlabCreate, ha, Nat.zero_mul, Nat.add_zero, ← hcount]
    rfl
  have hstart : Pushed c env page a s 0
      (putSlab s a fun slab => { slab with total := objectCount c, free := objectCount c }) [] :=
    ⟨by simp [ChainTo], rfl, rfl, rfl, rfl⟩
  have hloop := largeCreateLoop_run fuel hk henv (Nat.zero_add _) hstart
  rw [hrun]
  exact ⟨hloop.1, fun n hn => hloop.2 n hn (Nat.zero_le n)⟩

/-! ### Using a slab -/

/-- The tags of a slab: those of its free objects, and one for each live object. -/
structure TagsInv (a : ℕ) (tags : List ℕ) (s : KmemState) (L : List ℕ) : Prop where
  chains : ∃ T B b, ChainTo (fun t => (s.tag t).next) 0 (s.slab a).freeTag T ∧
    ChainTo (fun t => (s.tag t).next) b (s.slab a).busyTag B ∧ B.length = L.length ∧ (T ++ B).Perm tags

theorem TagsInv.alloc {tags : List ℕ} (h : TagsInv a tags s L) (hnd : tags.Nodup) (h0 : ∀ t ∈ tags, t ≠ 0)
    (hlen : L.length < tags.length) :
    Ensures (largeSlabAlloc a) s fun p s' => TagsInv a tags s' (p :: L) := by
  obtain ⟨T, B, b, hT, hB, hL, hperm⟩ := h.chains
  have hlen' := hperm.length_eq
  rw [List.length_append] at hlen'
  cases T with
  | nil =>
    rw [List.length_nil] at hlen'
    omega
  | cons t T =>
    obtain ⟨hhead, hrest⟩ := hT
    have hnd' := hperm.nodup_iff.2 hnd
    rw [List.cons_append, List.nodup_cons] at hnd'
    have ht : t ≠ 0 := h0 t (hperm.mem_iff.1 (by simp))
    simp only [largeSlabAlloc, ensures_bind, ensures_get, ensures_loadTag, hhead, ensures_modifySlab, ensures_storeTag,
      ensures_pure, ne_eq, ht, not_false_eq_true, true_and]
    have hTne : ∀ u ∈ T, u ≠ t := fun u hu hut => hnd'.1 (hut ▸ List.mem_append_left _ hu)
    have hBne : ∀ u ∈ B, u ≠ t := fun u hu hut => hnd'.1 (hut ▸ List.mem_append_right _ hu)
    refine ⟨T, t :: B, b, ?_, ?_, ?_, List.perm_middle.trans hperm⟩
    · simp only [putSlab, Function.update_self]
      refine (chainTo_congr fun u hu => ?_).2 hrest
      rw [Function.update_of_ne (hTne u hu)]
    · simp only [putSlab, Function.update_self]
      refine hB.push ?_ fun u hu => ?_
      · rw [Function.update_self]
      · rw [Function.update_of_ne (hBne u hu)]
    · rw [List.length_cons, List.length_cons, hL]

theorem TagsInv.free {tags : List ℕ} (h : TagsInv a tags s L) (hnd : tags.Nodup) (h0 : ∀ t ∈ tags, t ≠ 0) (hp : p ∈ L) :
    Ensures (largeSlabFree a p) s fun _ s' => TagsInv a tags s' (L.erase p) := by
  obtain ⟨T, B, b, hT, hB, hL, hperm⟩ := h.chains
  have hLpos : 0 < L.length := List.length_pos_of_mem hp
  cases B with
  | nil =>
    rw [← hL] at hLpos
    exact absurd hLpos (lt_irrefl _)
  | cons t B =>
    obtain ⟨hhead, hrest⟩ := hB
    have hperm' : (t :: (T ++ B)).Perm tags := List.perm_middle.symm.trans hperm
    have hnd' := hperm'.nodup_iff.2 hnd
    rw [List.nodup_cons] at hnd'
    have ht : t ≠ 0 := h0 t (hperm'.mem_iff.1 (by simp))
    simp only [largeSlabFree, ensures_bind, ensures_get, ensures_loadTag, hhead, ensures_modifySlab, ensures_storeTag,
      ne_eq, ht, not_false_eq_true, true_and]
    have hTne : ∀ u ∈ T, u ≠ t := fun u hu hut => hnd'.1 (hut ▸ List.mem_append_left _ hu)
    have hBne : ∀ u ∈ B, u ≠ t := fun u hu hut => hnd'.1 (hut ▸ List.mem_append_right _ hu)
    refine ⟨t :: T, B, b, ?_, ?_, ?_, hperm'⟩
    · simp only [putSlab, Function.update_self]
      refine hT.push ?_ fun u hu => ?_
      · rw [Function.update_self]
      · rw [Function.update_of_ne (hTne u hu)]
    · simp only [putSlab, Function.update_self]
      refine (chainTo_congr fun u hu => ?_).2 hrest
      rw [Function.update_of_ne (hBne u hu)]
    · rw [List.length_erase_of_mem hp, ← hL, List.length_cons, Nat.add_sub_cancel]

theorem SlabRun.tagsInv {tags : List ℕ} (hrun : SlabRun c a s₀ s L) (h₀ : TagsInv a tags s₀ []) (hnd : tags.Nodup)
    (h0 : ∀ t ∈ tags, t ≠ 0) (hlen : tags.length = objectCount c) : TagsInv a tags s L := by
  induction hrun with
  | start => exact h₀
  | alloc _ hL hcall ih => exact (ih.alloc hnd h0 (hlen ▸ hL)).of_run hcall
  | free _ hp hcall ih => exact (ih.free hnd h0 hp).of_run hcall

/-! ### The life of a slab -/

theorem objects_nodup_of_pos (hk : c.kind = .large) (hpos : 0 < c.objectSize) (page : ℕ) : (objects c page).Nodup := by
  have hs : stride c = c.objectSize := by simp only [stride, hk]
  refine List.Nodup.map (fun i j h => ?_) List.nodup_range
  exact Nat.eq_of_mul_eq_mul_right (hs ▸ hpos) (Nat.add_left_cancel h)

theorem lifeOk_of_null (hk : c.kind = .large) (hpos : 0 < c.objectSize) (henv : TagsDistinct env)
    (hfuel : objectCount c < fuel)
    (hnull : ∀ a, env.slab = some a → (s.slab a).freeTag = 0) : LifeOk fuel c env page s where
  created a ha hall := by
    obtain ⟨s₁, T, hT, hrun⟩ := (largeSlabCreate_run fuel page s hk henv ha).1 hall
    have hchain := hT.chain
    rw [hnull a ha] at hchain
    have hperm : T.Perm (tagsUpTo env (objectCount c)) := hT.tags ▸ (List.reverse_perm T).symm
    have hnd : T.Nodup := hperm.nodup_iff.2 (henv.nodup _)
    have hobjects : (T.map fun t => (s₁.tag t).ptr).Perm (objects c page) := by
      rw [hT.ptr]
      exact firstObjects_perm c page
    have hdistinct := hobjects.nodup_iff.2 (objects_nodup_of_pos hk hpos page)
    refine ⟨_, s₁, hrun, rfl, T, ⟨hchain, hT.length, hperm, hnd, hobjects, hdistinct, ?_⟩, fun s₂ hs₂ => ?_⟩
    · intro t ht u hu htu
      have hs : stride c = c.objectSize := by simp only [stride, hk]
      have hmem : ∀ v ∈ T, (s₁.tag v).ptr ∈ objects c page := fun v hv => hobjects.mem_iff.1 (List.mem_map_of_mem hv)
      rw [← hs]
      exact apart_of_mem_objects (hmem t ht) (hmem u hu) fun heq => htu (List.inj_on_of_nodup_map hdistinct ht hu heq)
    · have hinv : TagsInv a T s₁ [] := ⟨⟨T, [], _, hchain, rfl, rfl, by rw [List.append_nil]⟩⟩
      obtain ⟨T', B, b, hT', -, hB, hperm'⟩ := (hs₂.tagsInv hinv hnd (hT.ne_null henv) hT.length).chains
      obtain rfl := List.length_eq_zero_iff.1 hB
      rw [List.append_nil] at hperm'
      have hlen := hperm'.length_eq.trans hT.length
      refine (ensures_largeSlabRelease hT' (fun t ht => ?_) (by omega)).mono ?_
      · exact hT.ne_null henv t (hperm'.mem_iff.1 ht)
      · rintro _ s₃ ⟨l, hl, hs₃⟩
        exact ⟨l, hl.trans hperm', hs₃⟩
  failed a n ha hn hnone hbefore := by
    obtain ⟨s₁, T, hT, hrun⟩ :=
      (largeSlabCreate_run fuel page s hk henv ha).2 n hn hnone hbefore
    have hchain := hT.chain
    rw [hnull a ha] at hchain
    unfold Ensures
    rw [hrun]
    change Ensures _ s₁ _
    rw [ensures_bind]
    have hlen := hT.length
    refine (ensures_largeSlabRelease hchain (hT.ne_null henv) (by omega)).mono ?_
    rintro _ s₂ ⟨l, hl, hs₂⟩
    refine ensures_pure.2 ⟨rfl, l, hl.trans (hT.tags ▸ (List.reverse_perm T).symm), ?_⟩
    rw [hs₂, hT.returned]
  refused hnone := by
    unfold largeSlabCreate
    rw [hnone]
    exact ensures_pure.2 ⟨rfl, rfl⟩

/-- **A large slab is built and torn down as it should exactly when the memory for it held a null pointer** where its
free chain ends. -/
theorem largeSlab_lifeOk_iff (hk : c.kind = .large) (hpos : 0 < c.objectSize) (henv : TagsDistinct env)
    (hfuel : objectCount c < fuel) :
    LifeOk fuel c env page s ↔ ∀ a, env.slab = some a → (s.slab a).freeTag = 0 := by
  refine ⟨fun h a ha => ?_, lifeOk_of_null hk hpos henv hfuel⟩
  by_contra hne
  by_cases hall : ∀ i < objectCount c, env.tag i ≠ none
  · obtain ⟨s₁, T, hT, hrun⟩ := (largeSlabCreate_run fuel page s hk henv ha).1 hall
    obtain ⟨-, T', hfull, -⟩ := (h.created a ha hall).of_run hrun
    exact hne (hT.chain.unique hfull.chain (hT.length.trans hfull.length.symm))
  · push Not at hall
    classical
    -- the first request that fails
    have hfirst := Nat.find_spec hall
    have hbefore : ∀ i < Nat.find hall, env.tag i ≠ none := fun i hi hnone =>
      Nat.find_min hall hi ⟨hi.trans hfirst.1, hnone⟩
    obtain ⟨s₁, T, hT, hrun⟩ := (largeSlabCreate_run fuel page s hk henv ha).2 _ hfirst.1
      hfirst.2 hbefore
    obtain ⟨r, s₂, hcreate, -, hback⟩ := h.failed a _ ha hfirst.1 hfirst.2 hbefore
    rw [hrun] at hcreate
    obtain ⟨u, s₃, hrelease, hs₂⟩ : Ensures (largeSlabRelease a fuel) s₁ fun _ s₃ => s₃ = s₂ := by
      have hens : Ensures (largeSlabRelease a fuel >>= fun _ => pure none) s₁ fun _ s₃ => s₃ = s₂ :=
        ⟨r, s₂, hcreate, rfl⟩
      rw [ensures_bind] at hens
      exact hens.mono fun _ s₃ h => (ensures_pure (Q := fun _ t => t = s₂)).1 h
    subst hs₂
    have hlen : (tagsUpTo env (Nat.find hall)).length = T.length := by rw [← hT.tags, List.length_reverse]
    refine not_givenBack hT.chain (hT.ne_null henv) hne hlen hrelease ?_
    obtain ⟨l, hl, hs₃⟩ := hback
    exact ⟨l, hl, by rw [hs₃, hT.returned]⟩

/-- A cache for objects of two pages. -/
def twoPages : KmemCache := largeCacheInit 8192 8

/-- Memory whose slab structures were used before: `slab->free` points to a tag on the page 4. -/
def usedMemory : KmemState where
  slab _ := ⟨0, 0, 0, 0, pageAddr 4, 0⟩
  border _ := 0
  tag _ := ⟨0, 0⟩
  pageSlab _ := 0
  freeList := []
  partList := []
  fullList := []
  freed := []
  returned := []
  origin _ := 0

/-- A structure on the page 2 is handed out for a slab, and `n` tags from the page 3. -/
def tagsFrom (n : ℕ) : KmemEnv where
  pages := some 1
  slab := some (pageAddr 2)
  tag i := if i < n then some (pageAddr 3 + 24 * i) else none

theorem tagsDistinct_tagsFrom (n : ℕ) : TagsDistinct (tagsFrom n) := by
  constructor
  · intro i t ht
    simp only [tagsFrom] at ht
    split_ifs at ht
    have := Option.some.inj ht
    unfold pageAddr highBase at this
    omega
  · intro i j t hi hj
    simp only [tagsFrom] at hi hj
    split_ifs at hi hj
    have := (Option.some.inj hi).trans (Option.some.inj hj).symm
    omega

/-- The first request for a tag fails, and the pointer that was left in the memory is given back to `tag_cache`. -/
theorem not_lifeOk_usedMemory : ¬LifeOk 100 twoPages (tagsFrom 0) 1 usedMemory ∧
    Ensures (largeSlabCreate 100 twoPages (tagsFrom 0) 1) usedMemory fun r s' =>
      r = none ∧ s'.returned = [pageAddr 2, pageAddr 4] := by
  have hrun : returns (largeSlabCreate 100 twoPages (tagsFrom 0) 1) usedMemory (fun r s' =>
      r = none && decide (s'.returned = [pageAddr 2, pageAddr 4])) = true := by decide
  obtain ⟨r, s', hcreate, hr⟩ := returns_iff.1 hrun
  simp only [Bool.and_eq_true, decide_eq_true_eq] at hr
  refine ⟨fun h => ?_, r, s', hcreate, hr⟩
  obtain ⟨-, l, hl, hs'⟩ := (h.failed (pageAddr 2) 0 rfl (by decide) rfl nofun).of_run hcreate
  obtain rfl := hl.eq_nil
  rw [hr.2] at hs'
  exact nomatch hs'

/-- The same memory, cleared. -/
theorem largeSlab_lifeOk_cleared :
    LifeOk 100 twoPages (tagsFrom 100) 1 { usedMemory with slab := fun _ => ⟨0, 0, 0, 0, 0, 0⟩ } := by
  have hcount : objectCount twoPages < 100 := by decide
  exact (largeSlab_lifeOk_iff rfl (by decide) (tagsDistinct_tagsFrom 100) hcount).2 fun _ _ => rfl

end

end Kmem

end Kernel64
