import Kernel64.Slab.Layout

/-!
# New slabs

`kmem_small_slab_create` threads the border tags of all objects into one chain, and
`kmem_large_slab_create` does the same with tags from another cache. Either way every object of
the new slab is free. `Created` is what the construction leaves alone, and `adopt` is the rest of
`kmem_cache_grow`: the back pointers of the pages and the `pages` field of the header.
-/

namespace Kernel64

namespace Kmem

variable {c : KmemCache} {size align : ℕ} {s : KmemState} {env : KmemEnv} {page a : ℕ}

/-- The tags of a new slab. -/
def NewTag (c : KmemCache) (env : KmemEnv) (page t : ℕ) : Prop :=
  match c.kind with
  | .small => ∃ p ∈ objects c page, t = p + c.objectSize
  | .large => ∃ i < objectCount c, env.tag i = some t

/-- The header of a new slab. -/
def NewSlab (c : KmemCache) (env : KmemEnv) (page a : ℕ) : Prop :=
  match c.kind with
  | .small => a = pageAddr page + objectBytes c
  | .large => env.slab = some a

/-- The caches for slab structures and tags serve a large slab: every request succeeds, and no
two tags are the same. -/
structure Served (c : KmemCache) (env : KmemEnv) : Prop where
  slab : c.kind = .large → ∃ a, env.slab = some a ∧ a ≠ 0
  tag : c.kind = .large → ∀ i < objectCount c, ∃ t, env.tag i = some t ∧ t ≠ 0
  tag_inj : ∀ i j t, env.tag i = some t → env.tag j = some t → i = j

/-- What the construction of a slab leaves alone. -/
structure Created (c : KmemCache) (env : KmemEnv) (page a : ℕ) (s s' : KmemState) : Prop where
  slab : ∀ b ≠ a, s'.slab b = s.slab b
  border : ∀ t, ¬ NewTag c env page t → s'.border t = s.border t
  tag : ∀ t, ¬ NewTag c env page t → s'.tag t = s.tag t
  pageSlab : s'.pageSlab = s.pageSlab
  freeList : s'.freeList = s.freeList
  partList : s'.partList = s.partList
  fullList : s'.fullList = s.fullList
  freed : s'.freed = s.freed
  origin : s'.origin = s.origin

theorem Created.trans {s₁ s₂ s₃ : KmemState} (h : Created c env page a s₁ s₂)
    (h' : Created c env page a s₂ s₃) : Created c env page a s₁ s₃ where
  slab b hb := (h'.slab b hb).trans (h.slab b hb)
  border t ht := (h'.border t ht).trans (h.border t ht)
  tag t ht := (h'.tag t ht).trans (h.tag t ht)
  pageSlab := h'.pageSlab.trans h.pageSlab
  freeList := h'.freeList.trans h.freeList
  partList := h'.partList.trans h.partList
  fullList := h'.fullList.trans h.fullList
  freed := h'.freed.trans h.freed
  origin := h'.origin.trans h.origin

theorem Created.putSlab (s : KmemState) (f : KmemSlab → KmemSlab) :
    Created c env page a s (putSlab s a f) :=
  ⟨fun _ hb => putSlab_of_ne hb, fun _ _ => rfl, fun _ _ => rfl, rfl, rfl, rfl, rfl, rfl, rfl⟩

/-- The state after the pages were tied to their new slab. -/
def adopt (c : KmemCache) (s : KmemState) (page a : ℕ) : KmemState :=
  { s with
    slab := Function.update s.slab a { s.slab a with pages := page }
    pageSlab := fun q => if page ≤ q ∧ q < page + 2 ^ c.order then a else s.pageSlab q }

/-- The first `i` objects, latest first. -/
def firstObjects (c : KmemCache) (page i : ℕ) : List ℕ :=
  ((List.range i).map fun j => pageAddr page + j * stride c).reverse

theorem firstObjects_succ (c : KmemCache) (page i : ℕ) :
    firstObjects c page (i + 1) = (pageAddr page + i * stride c) :: firstObjects c page i := by
  simp [firstObjects, List.range_succ]

theorem firstObjects_perm (c : KmemCache) (page : ℕ) :
    (firstObjects c page (objectCount c)).Perm (objects c page) :=
  List.reverse_perm _

/-! ### Small slabs -/

/-- The header after `i` objects were chained. -/
structure SmallProgress (c : KmemCache) (env : KmemEnv) (page a : ℕ) (s : KmemState) (i : ℕ)
    (s' : KmemState) : Prop where
  created : Created c env page a s s'
  total : (s'.slab a).total = i
  free : (s'.slab a).free = i
  chain : Chain s'.border (s'.slab a).freeList
    ((firstObjects c page i).map (· + c.objectSize))

/-- The loop goes on while there is room for an object. -/
theorem room_iff (hc : CacheOk c size align) (hk : c.kind = .small) (page i : ℕ) :
    pageAddr page + i * stride c + c.paddedSize ≤ pageAddr page + objectBytes c ↔
      i < objectCount c := by
  have hs : stride c = c.paddedSize := by simp only [stride, hk]
  rw [objectCount, Nat.lt_iff_add_one_le, Nat.le_div_iff_mul_le (stride_pos hc), Nat.add_mul,
    Nat.one_mul, hs]
  omega

theorem SmallProgress.step (hc : CacheOk c size align) (hk : c.kind = .small) {i : ℕ}
    {s₀ : KmemState} (hi : i < objectCount c) (h : SmallProgress c env page a s₀ i s) :
    Ensures (do
      smallSlabFree c a (pageAddr page + i * stride c)
      modifySlab a fun slab => { slab with total := slab.total + 1, free := slab.free + 1 }) s
      fun _ s' => SmallProgress c env page a s₀ (i + 1) s' := by
  have hp : pageAddr page + i * stride c ∈ objects c page :=
    List.mem_map_of_mem (List.mem_range.mpr hi)
  simp only [smallSlabFree, ensures_bind, ensures_modify, ensures_modifySlab]
  refine ⟨h.created.trans ⟨fun b hb => by simp [Kmem.putSlab, hb], fun t ht => ?_, fun _ _ => rfl,
    rfl, rfl, rfl, rfl, rfl, rfl⟩, by simp [Kmem.putSlab, h.total], by simp [Kmem.putSlab, h.free],
    ?_⟩
  · have hne : t ≠ pageAddr page + i * stride c + c.objectSize := by
      rintro rfl
      refine ht ?_
      simp only [NewTag, hk]
      exact ⟨_, hp, rfl⟩
    exact Function.update_of_ne hne ..
  · simp only [Kmem.putSlab, Function.update_self, firstObjects_succ, List.map_cons]
    refine chain_push h.chain (Function.update_self ..) fun t ht => ?_
    obtain ⟨q, hq, rfl⟩ := List.mem_map.mp ht
    -- the objects chained before lie below
    rw [firstObjects, List.mem_reverse] at hq
    obtain ⟨j, hj, rfl⟩ := List.mem_map.mp hq
    have hlt := Nat.mul_lt_mul_of_pos_right (List.mem_range.mp hj) (stride_pos hc)
    exact Function.update_of_ne (by omega) ..

theorem ensures_smallCreateLoop (hc : CacheOk c size align) (hk : c.kind = .small)
    {s₀ : KmemState} {i fuel : ℕ} (hi : i ≤ objectCount c) (hfuel : objectCount c < fuel + i)
    (h : SmallProgress c env page (pageAddr page + objectBytes c) s₀ i s) :
    Ensures (smallCreateLoop c (pageAddr page + objectBytes c) fuel (pageAddr page + i * stride c))
      s fun _ s' =>
        SmallProgress c env page (pageAddr page + objectBytes c) s₀ (objectCount c) s' := by
  induction fuel generalizing i s with
  | zero => omega
  | succ fuel ih =>
    have hs : stride c = c.paddedSize := by simp only [stride, hk]
    rw [smallCreateLoop]
    simp only [room_iff hc hk]
    split_ifs with hlt
    · have hstep := h.step hc hk hlt
      rw [ensures_bind] at hstep ⊢
      refine hstep.mono fun _ s₁ h₁ => ?_
      rw [ensures_bind]
      refine h₁.mono fun _ s₂ h₂ => ?_
      have hnext := ih (i := i + 1) hlt (by omega) h₂
      rw [Nat.add_mul, Nat.one_mul, ← Nat.add_assoc] at hnext
      rw [← hs]
      exact hnext
    · obtain rfl : i = objectCount c := by omega
      rw [ensures_pure]
      exact h

/-- A slab was built at `a` and waits to be adopted. -/
def Built (c : KmemCache) (env : KmemEnv) (page : ℕ) (s : KmemState) (r : Option ℕ)
    (s' : KmemState) : Prop :=
  ∃ a, r = some a ∧ NewSlab c env page a ∧ Created c env page a s s' ∧
    (s'.slab a).total = objectCount c ∧ (s'.slab a).free = objectCount c ∧
    ∀ owner, (∀ t, NewTag c env page t → owner t = a) →
      SlabInv c (adopt c s' page a) owner a []

/-- The back pointers of an adopted slab. -/
theorem adopt_backPtr (c : KmemCache) (s : KmemState) (page a : ℕ) :
    ∀ i < 2 ^ c.order, (adopt c s page a).pageSlab (((adopt c s page a).slab a).pages + i) = a := by
  intro i hi
  simp only [adopt, Function.update_self]
  rw [if_pos ⟨Nat.le_add_right _ _, Nat.add_lt_add_left hi _⟩]

theorem ensures_smallSlabCreate (hc : CacheOk c size align) (hk : c.kind = .small)
    (page : ℕ) (s : KmemState) :
    Ensures (smallSlabCreate c page) s (Built c env page s) := by
  have hbytes : slabBytes c - smallSlabSize = objectBytes c := by simp only [objectBytes, hk]
  have hcount : objectCount c < objectBytes c + 1 := Nat.lt_succ_of_le (Nat.div_le_self _ _)
  simp only [smallSlabCreate, hbytes, ensures_bind, ensures_modifySlab, ensures_pure]
  have hstart : SmallProgress c env page (pageAddr page + objectBytes c) s 0
      (putSlab s (pageAddr page + objectBytes c) fun slab =>
        { slab with total := 0, free := 0, freeList := 0 }) :=
    ⟨Created.putSlab _ _, by simp, by simp, trivial⟩
  have hloop := ensures_smallCreateLoop hc hk (Nat.zero_le _) hcount hstart
  simp only [Nat.zero_mul, Nat.add_zero] at hloop
  have hnew : NewSlab c env page (pageAddr page + objectBytes c) := by simp only [NewSlab, hk]
  generalize hat : pageAddr page + objectBytes c = a at hloop hnew ⊢
  refine hloop.mono fun _ s' h => ⟨a, rfl, hnew, h.created, h.total, h.free, fun owner howner => ?_⟩
  refine ⟨?_, adopt_backPtr c s' page a, firstObjects c page (objectCount c), ?_, ?_, ?_⟩
  · rw [adopt]
    simp only [Function.update_self, h.total]
  · simpa [adopt] using firstObjects_perm c page
  · simp [adopt, h.free, firstObjects]
  · simp only [SlabTags, hk, adopt, Function.update_self]
    refine ⟨hat.symm, h.chain, fun p hp => howner _ ?_⟩
    simp only [NewTag, hk]
    exact ⟨p, hp, rfl⟩

/-! ### Large slabs -/

/-- The chain after the first `i` tags were pushed, on top of whatever the header held. -/
structure LargeProgress (c : KmemCache) (env : KmemEnv) (page a : ℕ) (s : KmemState) (i : ℕ)
    (s' : KmemState) : Prop where
  created : Created c env page a s s'
  total : (s'.slab a).total = objectCount c
  free : (s'.slab a).free = objectCount c
  chain : ∃ T : List ℕ, Chain (fun t => (s'.tag t).next) (s'.slab a).freeTag T ∧
    T.map (fun t => (s'.tag t).ptr) = firstObjects c page i ∧ T.Nodup ∧
    ∀ t ∈ T, t ≠ 0 ∧ ∃ j < i, env.tag j = some t

theorem LargeProgress.step (hk : c.kind = .large) (henv : Served c env) {i t : ℕ} {s₀ : KmemState}
    (hi : i < objectCount c) (ht : env.tag i = some t) (ht0 : t ≠ 0)
    (h : LargeProgress c env page a s₀ i s) :
    LargeProgress c env page a s₀ (i + 1)
      (putSlab
        { s with
          tag := Function.update s.tag t ⟨(s.slab a).freeTag, pageAddr page + i * stride c⟩ }
        a fun slab => { slab with freeTag := t }) := by
  obtain ⟨T, hT, hptr, hnd, htags⟩ := h.chain
  -- a tag is handed out once
  have hfresh : ∀ u ∈ T, u ≠ t := by
    rintro u hu rfl
    obtain ⟨j, hj, hju⟩ := (htags u hu).2
    exact hj.ne (henv.tag_inj j i u hju ht)
  refine ⟨h.created.trans ⟨fun b hb => by simp [Kmem.putSlab, hb], fun _ _ => rfl, fun u hu => ?_,
    rfl, rfl, rfl, rfl, rfl, rfl⟩, by simp [Kmem.putSlab, h.total], by simp [Kmem.putSlab, h.free],
    t :: T, ?_, ?_, ?_, ?_⟩
  · have hne : u ≠ t := by
      rintro rfl
      refine hu ?_
      simp only [NewTag, hk]
      exact ⟨i, hi, ht⟩
    exact Function.update_of_ne hne ..
  · simp only [Kmem.putSlab, Function.update_self]
    refine chain_push hT ?_ fun u hu => ?_
    · rw [Function.update_self]
    · rw [Function.update_of_ne (hfresh u hu)]
  · simp only [Kmem.putSlab, List.map_cons, Function.update_self, firstObjects_succ, ← hptr]
    congr 1
    exact List.map_congr_left fun u hu => by rw [Function.update_of_ne (hfresh u hu)]
  · exact List.nodup_cons.mpr ⟨fun hmem => hfresh t hmem rfl, hnd⟩
  · intro u hu
    rcases List.mem_cons.mp hu with rfl | hu
    · exact ⟨ht0, i, Nat.lt_succ_self i, ht⟩
    · obtain ⟨h0, j, hj, hju⟩ := htags u hu
      exact ⟨h0, j, Nat.lt_succ_of_lt hj, hju⟩

theorem ensures_largeCreateLoop (hk : c.kind = .large) (henv : Served c env) {fuel : ℕ}
    {s₀ : KmemState} {m i : ℕ} (hm : i + m = objectCount c)
    (h : LargeProgress c env page a s₀ i s) :
    Ensures (largeCreateLoop fuel c env a m i (pageAddr page + i * stride c)) s fun r s' =>
      r = some a ∧ LargeProgress c env page a s₀ (objectCount c) s' := by
  induction m generalizing i s with
  | zero =>
    obtain rfl : i = objectCount c := hm
    simp only [largeCreateLoop, ensures_pure, true_and]
    exact h
  | succ m ih =>
    obtain ⟨t, ht, ht0⟩ := henv.tag hk i (by omega)
    have hs : stride c = c.objectSize := by simp only [stride, hk]
    have hnext := ih (i := i + 1) (by omega) (h.step hk henv (by omega) ht ht0)
    rw [Nat.add_mul, Nat.one_mul, ← Nat.add_assoc] at hnext
    simp only [largeCreateLoop, ht, ensures_bind, ensures_get, ensures_storeTag,
      ensures_modifySlab, ← hs]
    exact hnext

theorem ensures_largeSlabCreate (hk : c.kind = .large) (henv : Served c env) (fuel page : ℕ)
    (s : KmemState) : Ensures (largeSlabCreate fuel c env page) s (Built c env page s) := by
  obtain ⟨a, ha, -⟩ := henv.slab hk
  have hcount : slabBytes c / c.objectSize = objectCount c := by
    simp only [objectCount, objectBytes, stride, hk]
  simp only [largeSlabCreate, ha, ensures_bind, ensures_modifySlab, hcount]
  have hstart : LargeProgress c env page a s 0 (putSlab s a fun slab =>
      { slab with total := objectCount c, free := objectCount c }) :=
    ⟨Created.putSlab _ _, by simp, by simp, [], trivial, rfl, List.nodup_nil, by simp⟩
  have hloop : Ensures (largeCreateLoop fuel c env a (objectCount c) 0
      (pageAddr page + 0 * stride c)) _ _ :=
    ensures_largeCreateLoop hk henv (Nat.zero_add _) hstart
  rw [Nat.zero_mul, Nat.add_zero] at hloop
  refine hloop.mono ?_
  rintro _ s' ⟨rfl, h⟩
  refine ⟨a, rfl, ?_, h.created, h.total, h.free, fun owner howner => ?_⟩
  · simp only [NewSlab, hk]
    exact ha
  obtain ⟨T, hT, hptr, hnd, htags⟩ := h.chain
  refine ⟨by simp [adopt, h.total], adopt_backPtr c s' page a, firstObjects c page (objectCount c),
    ?_, ?_, ?_⟩
  · simpa [adopt] using firstObjects_perm c page
  · simp [adopt, h.free, firstObjects]
  · simp only [SlabTags, hk, adopt, Function.update_self]
    refine ⟨T, [], hT, hptr, trivial, rfl, by simpa using hnd, fun t ht => ?_⟩
    rw [List.append_nil] at ht
    refine ⟨(htags t ht).1, howner t ?_⟩
    simp only [NewTag, hk]
    exact (htags t ht).2

/-- **Building a slab.** -/
theorem ensures_slabCreate (hc : CacheOk c size align) (henv : Served c env) (fuel page : ℕ)
    (s : KmemState) : Ensures (slabCreate fuel c env page) s (Built c env page s) := by
  rw [slabCreate]
  cases hk : c.kind with
  | small => exact ensures_smallSlabCreate hc hk page s
  | large => exact ensures_largeSlabCreate hk henv fuel page s

end Kmem

end Kernel64
