import Kernel64.Slab.Model
import Mathlib.Data.List.Nodup

/-!
# One slab

The objects of a slab lie at the multiples of a stride from the start of its pages. At any time
they fall into the free ones, which a chain of tags lists in the order they will be handed out,
and the live ones. `SlabInv` states this for both layouts. Taking an object off the chain and
putting one back are proved here, together with what they leave alone (`OnlySlab`).
-/

namespace Kernel64

namespace Kmem

/-! ### Geometry -/

/-- The distance of two objects. -/
def stride (c : KmemCache) : ℕ :=
  match c.kind with
  | .small => c.paddedSize
  | .large => c.objectSize

/-- The bytes of a slab that objects and border tags may use. -/
def objectBytes (c : KmemCache) : ℕ :=
  match c.kind with
  | .small => slabBytes c - smallSlabSize
  | .large => slabBytes c

/-- The number of objects of a slab. -/
def objectCount (c : KmemCache) : ℕ :=
  objectBytes c / stride c

/-- The objects of the slab on the block of pages from `page` on. -/
def objects (c : KmemCache) (page : ℕ) : List ℕ :=
  (List.range (objectCount c)).map fun i => pageAddr page + i * stride c

/-- What the two initialisers promise of a cache for objects of `size` bytes. -/
structure CacheOk (c : KmemCache) (size align : ℕ) : Prop where
  size_le : size ≤ c.objectSize
  size_pos : 0 < c.objectSize
  align_dvd : align ∣ stride c
  align_dvd_eight : align ∣ 8
  border : c.kind = .small → c.objectSize + 8 ≤ c.paddedSize
  header : c.kind = .small → smallSlabSize ≤ slabBytes c
  count : c.order < buddyOrders → 2 ≤ objectCount c

theorem smallCacheInit_ok {size align : ℕ} (hsize : 0 < size) (hle : size ≤ 512)
    (halign : align ∣ 8) : CacheOk (smallCacheInit size align) size align := by
  have hal : max align 8 = 8 := max_eq_right (Nat.le_of_dvd (by decide) halign)
  have h₁ : size ≤ alignTo size 8 := le_alignTo (by decide)
  have h₂ : alignTo size 8 ≤ 8 * 64 := alignTo_le (by decide) hle
  have h₃ : alignTo size 8 + 8 ≤ alignTo (alignTo size 8 + 8) 8 := le_alignTo (by decide)
  have h₄ : alignTo (alignTo size 8 + 8) 8 ≤ 8 * 65 := alignTo_le (by decide) (by omega)
  simp only [smallCacheInit, hal]
  refine ⟨h₁, hsize.trans_le h₁, halign.trans (alignTo_dvd _ _), halign, fun _ => h₃,
    fun _ => by simp [smallSlabSize, slabBytes, pageSize], fun _ => ?_⟩
  simp only [objectCount, objectBytes, stride, slabBytes, pageSize, smallSlabSize]
  rw [Nat.le_div_iff_mul_le (by omega)]
  omega

theorem largeCacheOrder_spec {objectSize : ℕ} (h : largeCacheOrder objectSize < buddyOrders) :
    8 ≤ pageSize * 2 ^ largeCacheOrder objectSize / objectSize := by
  rw [largeCacheOrder] at h ⊢
  cases hfind : (List.range buddyOrders).find? fun order =>
      decide (pageSize * 2 ^ order / objectSize ≥ 8) with
  | none =>
    rw [hfind] at h
    exact absurd h (lt_irrefl _)
  | some order =>
    have hsome := List.find?_some hfind
    exact of_decide_eq_true hsome

theorem largeCacheInit_ok {size align : ℕ} (hsize : 0 < size) (halign : align ∣ 8) :
    CacheOk (largeCacheInit size align) size align := by
  have hpos : 0 < align := Nat.pos_of_dvd_of_pos halign (by decide)
  have h₁ : size ≤ alignTo size align := le_alignTo hpos
  simp only [largeCacheInit]
  refine ⟨h₁, hsize.trans_le h₁, alignTo_dvd _ _, halign, (nomatch ·),
    (nomatch ·), fun h => ?_⟩
  have := largeCacheOrder_spec h
  simp only [objectCount, objectBytes, stride, slabBytes]
  omega

/-- **Geometry.** Every cache that is created has room for two objects in a slab. -/
theorem cacheCreate_ok {size align : ℕ} (hsize : 0 < size) (halign : align ∣ 8) :
    CacheOk (cacheCreate size align) size align := by
  rw [cacheCreate]
  split_ifs with h
  · exact smallCacheInit_ok hsize h halign
  · exact largeCacheInit_ok hsize halign

section Objects

variable {c : KmemCache} {size align page p q : ℕ}

theorem stride_pos (hc : CacheOk c size align) : 0 < stride c := by
  have hpos := hc.size_pos
  rw [stride]
  split
  · have := hc.border (by assumption)
    omega
  · exact hpos

theorem objectSize_le_stride (hc : CacheOk c size align) : c.objectSize ≤ stride c := by
  rw [stride]
  split
  · have := hc.border (by assumption)
    omega
  · exact le_rfl

/-- An object and what is behind it up to the next one lie in the usable part of the slab. -/
theorem bounds_of_mem_objects (hp : p ∈ objects c page) :
    pageAddr page ≤ p ∧ p + stride c ≤ pageAddr page + objectBytes c := by
  obtain ⟨i, hi, rfl⟩ := List.mem_map.mp hp
  have hi' : i < objectCount c := List.mem_range.mp hi
  have hle : (i + 1) * stride c ≤ objectBytes c :=
    (Nat.mul_le_mul_right _ hi').trans (Nat.div_mul_le_self _ _)
  rw [Nat.add_mul, Nat.one_mul] at hle
  omega

theorem objectBytes_le (c : KmemCache) : objectBytes c ≤ slabBytes c := by
  rw [objectBytes]
  split
  · exact Nat.sub_le _ _
  · exact le_rfl

/-- Two objects of a slab are a stride apart. -/
theorem apart_of_mem_objects (hp : p ∈ objects c page) (hq : q ∈ objects c page) (hne : p ≠ q) :
    p + stride c ≤ q ∨ q + stride c ≤ p := by
  obtain ⟨i, -, rfl⟩ := List.mem_map.mp hp
  obtain ⟨j, -, rfl⟩ := List.mem_map.mp hq
  rcases Nat.lt_trichotomy i j with h | rfl | h
  · have := Nat.mul_le_mul_right (stride c) h
    rw [Nat.succ_mul] at this
    omega
  · exact absurd rfl hne
  · have := Nat.mul_le_mul_right (stride c) h
    rw [Nat.succ_mul] at this
    omega

theorem objects_nodup (hc : CacheOk c size align) (page : ℕ) : (objects c page).Nodup := by
  refine List.Nodup.map (fun i j h => ?_) List.nodup_range
  exact Nat.eq_of_mul_eq_mul_right (stride_pos hc) (Nat.add_left_cancel h)

theorem objects_length (c : KmemCache) (page : ℕ) : (objects c page).length = objectCount c := by
  simp [objects]

theorem align_dvd_of_mem_objects (hc : CacheOk c size align) (hp : p ∈ objects c page) :
    align ∣ p := by
  obtain ⟨i, -, rfl⟩ := List.mem_map.mp hp
  have hbase : (8 : ℕ) ∣ pageAddr page := by
    rw [pageAddr]
    exact Nat.dvd_add (Nat.dvd_mul_left_of_dvd (by decide) page) (by decide)
  exact Nat.dvd_add (hc.align_dvd_eight.trans hbase) (Nat.dvd_mul_left_of_dvd hc.align_dvd i)

/-- The page an address inside a slab lies on. -/
theorem addrPfn_of_bounds (hp : pageAddr page ≤ p) (hp' : p < pageAddr page + slabBytes c) :
    ∃ i < 2 ^ c.order, addrPfn p = page + i := by
  have hpos : 0 < pageSize := by decide
  rw [slabBytes] at hp'
  refine ⟨(p - pageAddr page) / pageSize, ?_, ?_⟩
  · rw [Nat.div_lt_iff_lt_mul hpos, Nat.mul_comm]
    omega
  · have hsplit : p - highBase = (p - pageAddr page) + page * pageSize := by
      rw [pageAddr] at hp ⊢
      omega
    rw [addrPfn, hsplit, Nat.add_mul_div_right _ _ hpos, Nat.add_comm]

end Objects

/-! ### Chains -/

/-- The entries of `l`, in this order, are what following `next` from `p` on meets. -/
def Chain (next : ℕ → ℕ) : ℕ → List ℕ → Prop
  | _, [] => True
  | p, a :: l => p = a ∧ Chain next (next a) l

theorem chain_congr {next next' : ℕ → ℕ} {p : ℕ} {l : List ℕ}
    (h : ∀ a ∈ l, next' a = next a) : Chain next' p l ↔ Chain next p l := by
  induction l generalizing p with
  | nil => exact Iff.rfl
  | cons a l ih =>
    rw [Chain, Chain, h a (by simp), ih fun b hb => h b (List.mem_cons_of_mem _ hb)]

/-- Pushing a new entry on a chain. -/
theorem chain_push {next next' : ℕ → ℕ} {p a : ℕ} {l : List ℕ} (h : Chain next p l)
    (hself : next' a = p) (hother : ∀ b ∈ l, next' b = next b) : Chain next' a (a :: l) := by
  refine ⟨rfl, ?_⟩
  rw [hself]
  exact (chain_congr hother).mpr h

/-! ### The invariant of a slab -/

/-- How the free objects `F` of the slab `a` are chained. The tags a large slab does not need for
its free objects wait on the `busy` chain, one for each live object. -/
def SlabTags (c : KmemCache) (s : KmemState) (owner : ℕ → ℕ) (a : ℕ) (F L : List ℕ) : Prop :=
  match c.kind with
  | .small =>
    a = pageAddr (s.slab a).pages + objectBytes c ∧
    Chain s.border (s.slab a).freeList (F.map (· + c.objectSize)) ∧
    ∀ p ∈ objects c (s.slab a).pages, owner (p + c.objectSize) = a
  | .large =>
    ∃ T B, Chain (fun t => (s.tag t).next) (s.slab a).freeTag T ∧
      T.map (fun t => (s.tag t).ptr) = F ∧
      Chain (fun t => (s.tag t).next) (s.slab a).busyTag B ∧ B.length = L.length ∧
      (T ++ B).Nodup ∧ ∀ t ∈ T ++ B, t ≠ 0 ∧ owner t = a

/-- The slab at `a` has the live objects `L`; all its other objects are chained for use. -/
structure SlabInv (c : KmemCache) (s : KmemState) (owner : ℕ → ℕ) (a : ℕ) (L : List ℕ) :
    Prop where
  total : (s.slab a).total = objectCount c
  backPtr : ∀ i < 2 ^ c.order, s.pageSlab ((s.slab a).pages + i) = a
  chained : ∃ F, (F ++ L).Perm (objects c (s.slab a).pages) ∧ (s.slab a).free = F.length ∧
    SlabTags c s owner a F L

/-- What an operation on one slab leaves alone. -/
structure OnlySlab (owner : ℕ → ℕ) (a : ℕ) (s s' : KmemState) : Prop where
  slab : ∀ b ≠ a, s'.slab b = s.slab b
  pages : (s'.slab a).pages = (s.slab a).pages
  border : ∀ t, owner t ≠ a → s'.border t = s.border t
  tag : ∀ t, owner t ≠ a → s'.tag t = s.tag t
  pageSlab : s'.pageSlab = s.pageSlab
  freeList : s'.freeList = s.freeList
  partList : s'.partList = s.partList
  fullList : s'.fullList = s.fullList
  freed : s'.freed = s.freed

/-- The invariant of a slab reads its header, its tags and the back pointers of its pages. -/
theorem SlabInv.congr {c : KmemCache} {s s' : KmemState} {owner owner' : ℕ → ℕ} {b : ℕ}
    {L : List ℕ} (h : SlabInv c s owner b L) (hslab : s'.slab b = s.slab b)
    (hpage : ∀ i < 2 ^ c.order,
      s'.pageSlab ((s.slab b).pages + i) = s.pageSlab ((s.slab b).pages + i))
    (hborder : ∀ p ∈ objects c (s.slab b).pages, c.kind = .small →
      s'.border (p + c.objectSize) = s.border (p + c.objectSize) ∧
      owner' (p + c.objectSize) = owner (p + c.objectSize))
    (htag : c.kind = .large → ∀ t, owner t = b → s'.tag t = s.tag t ∧ owner' t = b) :
    SlabInv c s' owner' b L := by
  obtain ⟨htotal, hback, F, hperm, hfree, htags⟩ := h
  refine ⟨hslab ▸ htotal, fun i hi => ?_, F, hslab ▸ hperm, hslab ▸ hfree, ?_⟩
  · rw [hslab, hpage i hi]
    exact hback i hi
  · rw [SlabTags] at htags ⊢
    rw [hslab]
    cases hk : c.kind with
    | small =>
      simp only [hk] at htags ⊢
      obtain ⟨ha, hchain, howner⟩ := htags
      refine ⟨ha, (chain_congr fun t ht => ?_).mpr hchain, fun p hp => ?_⟩
      · obtain ⟨p, hp, rfl⟩ := List.mem_map.mp ht
        exact (hborder p (hperm.mem_iff.mp (List.mem_append_left _ hp)) hk).1
      · rw [(hborder p hp hk).2]
        exact howner p hp
    | large =>
      simp only [hk] at htags ⊢
      obtain ⟨T, B, hT, hF, hB, hlen, hnd, hown⟩ := htags
      have htag' : ∀ t ∈ T ++ B, s'.tag t = s.tag t := fun t ht => (htag hk t (hown t ht).2).1
      refine ⟨T, B, (chain_congr fun t ht => ?_).mpr hT, ?_, (chain_congr fun t ht => ?_).mpr hB,
        hlen, hnd, fun t ht => ⟨(hown t ht).1, (htag hk t (hown t ht).2).2⟩⟩
      · rw [htag' t (List.mem_append_left _ ht)]
      · rw [← hF]
        exact List.map_congr_left fun t ht => by rw [htag' t (List.mem_append_left _ ht)]
      · rw [htag' t (List.mem_append_right _ ht)]

/-- Another slab does not notice. -/
theorem SlabInv.of_onlySlab {c : KmemCache} {s s' : KmemState} {owner : ℕ → ℕ} {a b : ℕ}
    {L : List ℕ} (h : SlabInv c s owner b L) (ho : OnlySlab owner a s s') (hne : b ≠ a) :
    SlabInv c s' owner b L := by
  obtain ⟨-, -, F, -, -, htags⟩ := id h
  refine h.congr (ho.slab b hne) (fun i _ => by rw [ho.pageSlab]) (fun p hp hk => ⟨?_, rfl⟩)
    fun _ t ht => ⟨ho.tag t (ht.symm ▸ hne), ht⟩
  simp only [SlabTags, hk] at htags
  refine ho.border _ ?_
  rw [htags.2.2 p hp]
  exact hne

/-! ### Executing memory accesses -/

/-- The state after a header was rewritten. -/
def putSlab (s : KmemState) (a : ℕ) (f : KmemSlab → KmemSlab) : KmemState :=
  { s with slab := Function.update s.slab a (f (s.slab a)) }

section Access

variable {s : KmemState} {a t : ℕ} {f : KmemSlab → KmemSlab}

@[simp] theorem putSlab_self : (putSlab s a f).slab a = f (s.slab a) :=
  Function.update_self ..

theorem putSlab_of_ne {b : ℕ} (h : b ≠ a) : (putSlab s a f).slab b = s.slab b :=
  Function.update_of_ne h ..

@[simp] theorem ensures_modifySlab {Q : Unit → KmemState → Prop} :
    Ensures (modifySlab a f) s Q ↔ Q () (putSlab s a f) :=
  ensures_modify

@[simp] theorem ensures_borderNext {Q : ℕ → KmemState → Prop} :
    Ensures (borderNext t) s Q ↔ t ≠ 0 ∧ Q (s.border t) s := by
  by_cases h : t = 0 <;> simp [borderNext, h]

@[simp] theorem ensures_loadTag {Q : KmemTag → KmemState → Prop} :
    Ensures (loadTag t) s Q ↔ t ≠ 0 ∧ Q (s.tag t) s := by
  by_cases h : t = 0 <;> simp [loadTag, h]

@[simp] theorem ensures_storeTag {v : KmemTag} {Q : Unit → KmemState → Prop} :
    Ensures (storeTag t v) s Q ↔ Q () { s with tag := Function.update s.tag t v } :=
  ensures_modify

end Access

/-! ### Taking and returning an object -/

section OneSlab

variable {c : KmemCache} {size align : ℕ} {s : KmemState} {owner : ℕ → ℕ} {a p : ℕ}
  {L : List ℕ}

/-- The object `p` was taken from the slab `a`, whose counter is still to be lowered. -/
structure Taken (c : KmemCache) (owner : ℕ → ℕ) (a : ℕ) (L : List ℕ) (s : KmemState) (p : ℕ)
    (s' : KmemState) : Prop where
  mem : p ∈ objects c (s.slab a).pages
  fresh : p ∉ L
  inv : SlabInv c (putSlab s' a fun slab => { slab with free := slab.free - 1 }) owner a (p :: L)
  only : OnlySlab owner a s s'
  free : (s'.slab a).free = (s.slab a).free
  total : (s'.slab a).total = (s.slab a).total
  origin : s'.origin = Function.update s.origin p a

/-- The object at the head of the chain is not live. -/
theorem fresh_of_perm (hc : CacheOk c size align) {F : List ℕ} {page : ℕ}
    (hperm : (p :: F ++ L).Perm (objects c page)) : p ∈ objects c page ∧ p ∉ L := by
  have hnd : (p :: F ++ L).Nodup := hperm.nodup_iff.mpr (objects_nodup hc page)
  refine ⟨hperm.mem_iff.mp (by simp), fun hL => ?_⟩
  exact (List.nodup_cons.mp hnd).1 (List.mem_append_right _ hL)

theorem ensures_smallSlabAlloc (hc : CacheOk c size align) (hk : c.kind = .small)
    (h : SlabInv c s owner a L) (hfree : 0 < (s.slab a).free) :
    Ensures (slabAlloc c a) s fun p s' => Taken c owner a L s p s' := by
  obtain ⟨htotal, hback, F, hperm, hF, htags⟩ := h
  simp only [SlabTags, hk] at htags
  obtain ⟨ha, hchain, howner⟩ := htags
  cases F with
  | nil =>
    rw [hF] at hfree
    exact absurd hfree (lt_irrefl _)
  | cons q F =>
    obtain ⟨hhead, hrest⟩ := hchain
    obtain ⟨hmem, hfresh⟩ := fresh_of_perm hc hperm
    have hq : (s.slab a).freeList - c.objectSize = q := by
      rw [hhead]
      exact Nat.add_sub_cancel _ _
    have hne : (s.slab a).freeList ≠ 0 := by
      rw [hhead]
      exact (Nat.add_pos_right _ hc.size_pos).ne'
    simp only [slabAlloc, hk, smallSlabAlloc, ensures_bind, ensures_get, ensures_borderNext,
      ensures_modifySlab, ensures_pure, ensures_modify, ne_eq, hne, not_false_eq_true, true_and, hq]
    have hperm' : (F ++ q :: L).Perm (objects c (s.slab a).pages) :=
      List.perm_middle.trans hperm
    refine ⟨hmem, hfresh, ⟨by simpa [putSlab] using htotal, by simpa [putSlab] using hback, F, ?_,
      ?_, ?_⟩, ⟨fun b hb => by simp [putSlab, hb], by simp, fun _ _ => rfl, fun _ _ => rfl, rfl,
      rfl, rfl, rfl, rfl⟩, by simp, by simp, rfl⟩
    · simpa [putSlab] using hperm'
    · simp [putSlab, hF]
    · simp only [SlabTags, hk, putSlab, Function.update_self]
      rw [hhead]
      exact ⟨ha, hrest, howner⟩

theorem ensures_largeSlabAlloc (hc : CacheOk c size align) (hk : c.kind = .large)
    (h : SlabInv c s owner a L) (hfree : 0 < (s.slab a).free) :
    Ensures (slabAlloc c a) s fun p s' => Taken c owner a L s p s' := by
  obtain ⟨htotal, hback, F, hperm, hF, htags⟩ := h
  simp only [SlabTags, hk] at htags
  obtain ⟨T, B, hT, rfl, hB, hlen, hnd, hown⟩ := htags
  cases T with
  | nil =>
    rw [hF] at hfree
    exact absurd hfree (lt_irrefl _)
  | cons t T =>
    obtain ⟨hhead, hrest⟩ := hT
    rw [List.map_cons] at hperm
    obtain ⟨hmem, hfresh⟩ := fresh_of_perm hc hperm
    rw [List.cons_append, List.nodup_cons] at hnd
    have ht := hown t (by simp)
    simp only [slabAlloc, hk, largeSlabAlloc, ensures_bind, ensures_get, ensures_loadTag, hhead,
      ensures_modifySlab, ensures_storeTag, ensures_pure, ensures_modify, ne_eq, ht.1,
      not_false_eq_true, true_and]
    -- the tag of the object moves from the free to the busy chain
    have hTne : ∀ u ∈ T, u ≠ t := fun u hu hut =>
      hnd.1 (hut ▸ List.mem_append_left _ hu)
    have hBne : ∀ u ∈ B, u ≠ t := fun u hu hut =>
      hnd.1 (hut ▸ List.mem_append_right _ hu)
    have hperm' : (T.map (fun t => (s.tag t).ptr) ++ (s.tag t).ptr :: L).Perm
        (objects c (s.slab a).pages) := List.perm_middle.trans hperm
    refine ⟨hmem, hfresh, ⟨by simpa [putSlab] using htotal, by simpa [putSlab] using hback,
      T.map (fun t => (s.tag t).ptr), ?_, ?_, ?_⟩, ⟨fun b hb => ?_, by simp [putSlab],
      fun _ _ => rfl, fun u hu => ?_, rfl, rfl, rfl, rfl, rfl⟩, by simp [putSlab],
      by simp [putSlab], rfl⟩
    · simpa [putSlab] using hperm'
    · simp [putSlab, hF]
    · simp only [SlabTags, hk, putSlab, Function.update_self]
      refine ⟨T, t :: B, (chain_congr fun u hu => ?_).mpr hrest, ?_, chain_push hB ?_ ?_, ?_, ?_,
        fun u hu => hown u ?_⟩
      · rw [Function.update_of_ne (hTne u hu)]
      · exact List.map_congr_left fun u hu => by rw [Function.update_of_ne (hTne u hu)]
      · rw [Function.update_self]
      · exact fun u hu => by rw [Function.update_of_ne (hBne u hu)]
      · rw [List.length_cons, List.length_cons, hlen]
      · exact (List.perm_middle.nodup_iff).mpr (List.nodup_cons.mpr hnd)
      · exact List.perm_middle.mem_iff.mp hu
    · simp [putSlab, Function.update_of_ne hb]
    · have hut : u ≠ t := fun hut => hu (hut ▸ ht.2)
      exact Function.update_of_ne hut ..

/-- **Taking an object.** -/
theorem ensures_slabAlloc (hc : CacheOk c size align) (h : SlabInv c s owner a L)
    (hfree : 0 < (s.slab a).free) :
    Ensures (slabAlloc c a) s fun p s' => Taken c owner a L s p s' := by
  cases hk : c.kind with
  | small => exact ensures_smallSlabAlloc hc hk h hfree
  | large => exact ensures_largeSlabAlloc hc hk h hfree

/-- The live object `p` was returned to the slab `a`, whose counter is still to be raised. -/
structure Returned (c : KmemCache) (owner : ℕ → ℕ) (a : ℕ) (L : List ℕ) (s : KmemState) (p : ℕ)
    (s' : KmemState) : Prop where
  inv : SlabInv c (putSlab s' a fun slab => { slab with free := slab.free + 1 }) owner a
    (L.erase p)
  only : OnlySlab owner a s s'
  free : (s'.slab a).free = (s.slab a).free
  total : (s'.slab a).total = (s.slab a).total
  origin : s'.origin = s.origin

theorem perm_return {F : List ℕ} {page : ℕ} (hperm : (F ++ L).Perm (objects c page))
    (hp : p ∈ L) : (p :: F ++ L.erase p).Perm (objects c page) := by
  refine List.Perm.trans ?_ hperm
  rw [List.cons_append]
  exact List.perm_middle.symm.trans ((List.perm_cons_erase hp).symm.append_left F)

theorem ensures_smallSlabFree (hc : CacheOk c size align) (hk : c.kind = .small)
    (h : SlabInv c s owner a L) (hp : p ∈ L) :
    Ensures (slabFree c a p) s fun _ s' => Returned c owner a L s p s' := by
  obtain ⟨htotal, hback, F, hperm, hF, htags⟩ := h
  simp only [SlabTags, hk] at htags
  obtain ⟨ha, hchain, howner⟩ := htags
  have hperm' := perm_return hperm hp
  have hnd : (p :: F ++ L.erase p).Nodup := hperm'.nodup_iff.mpr (objects_nodup hc _)
  have hmem : p ∈ objects c (s.slab a).pages := hperm'.mem_iff.mp (by simp)
  simp only [slabFree, hk, smallSlabFree, ensures_bind, ensures_modify, ensures_modifySlab]
  refine ⟨⟨by simpa [putSlab] using htotal, by simpa [putSlab] using hback, p :: F, ?_, ?_, ?_⟩,
    ⟨fun b hb => by simp [putSlab, hb], by simp, fun t ht => ?_, fun _ _ => rfl, rfl, rfl, rfl, rfl,
      rfl⟩, by simp, by simp, rfl⟩
  · simpa [putSlab] using hperm'
  · simp [putSlab, hF]
  · simp only [SlabTags, hk, putSlab, Function.update_self]
    refine ⟨ha, chain_push hchain (Function.update_self ..) fun t ht => ?_, howner⟩
    obtain ⟨q, hq, rfl⟩ := List.mem_map.mp ht
    have hne : q ≠ p := by
      rintro rfl
      exact (List.nodup_cons.mp hnd).1 (List.mem_append_left _ hq)
    exact Function.update_of_ne (fun h => hne (Nat.add_right_cancel h)) ..
  · have hne : t ≠ p + c.objectSize := by
      rintro rfl
      exact ht (howner p hmem)
    exact Function.update_of_ne hne ..

theorem ensures_largeSlabFree (hk : c.kind = .large) (h : SlabInv c s owner a L) (hp : p ∈ L) :
    Ensures (slabFree c a p) s fun _ s' => Returned c owner a L s p s' := by
  obtain ⟨htotal, hback, F, hperm, hF, htags⟩ := h
  simp only [SlabTags, hk] at htags
  obtain ⟨T, B, hT, rfl, hB, hlen, hnd, hown⟩ := htags
  have hperm' := perm_return hperm hp
  have hLpos : 0 < L.length := List.length_pos_of_mem hp
  cases B with
  | nil =>
    rw [← hlen] at hLpos
    exact absurd hLpos (lt_irrefl _)
  | cons t B =>
    obtain ⟨hhead, hrest⟩ := hB
    have hnd' : (t :: (T ++ B)).Nodup := List.perm_middle.nodup_iff.mp hnd
    have ht := hown t (by simp)
    simp only [slabFree, hk, largeSlabFree, ensures_bind, ensures_get, ensures_loadTag, hhead,
      ensures_modifySlab, ensures_storeTag, ne_eq, ht.1, not_false_eq_true, true_and]
    have hTne : ∀ u ∈ T, u ≠ t := fun u hu hut =>
      (List.nodup_cons.mp hnd').1 (hut ▸ List.mem_append_left _ hu)
    have hBne : ∀ u ∈ B, u ≠ t := fun u hu hut =>
      (List.nodup_cons.mp hnd').1 (hut ▸ List.mem_append_right _ hu)
    refine ⟨⟨by simpa [putSlab] using htotal, by simpa [putSlab] using hback,
      p :: T.map (fun t => (s.tag t).ptr), ?_, ?_, ?_⟩, ⟨fun b hb => ?_, by simp [putSlab],
      fun _ _ => rfl, fun u hu => ?_, rfl, rfl, rfl, rfl, rfl⟩, by simp [putSlab],
      by simp [putSlab], rfl⟩
    · simpa [putSlab] using hperm'
    · simp [putSlab, hF]
    · simp only [SlabTags, hk, putSlab, Function.update_self]
      refine ⟨t :: T, B, chain_push hT ?_ ?_, ?_, (chain_congr fun u hu => ?_).mpr hrest, ?_,
        hnd', fun u hu => hown u (List.perm_middle.mem_iff.mpr hu)⟩
      · rw [Function.update_self]
      · exact fun u hu => by rw [Function.update_of_ne (hTne u hu)]
      · rw [List.map_cons, Function.update_self]
        congr 1
        exact List.map_congr_left fun u hu => by rw [Function.update_of_ne (hTne u hu)]
      · rw [Function.update_of_ne (hBne u hu)]
      · rw [List.length_erase_of_mem hp, ← hlen, List.length_cons, Nat.add_sub_cancel]
    · simp [putSlab, Function.update_of_ne hb]
    · have hut : u ≠ t := fun hut => hu (hut ▸ ht.2)
      exact Function.update_of_ne hut ..

/-- **Returning an object.** -/
theorem ensures_slabFree (hc : CacheOk c size align) (h : SlabInv c s owner a L) (hp : p ∈ L) :
    Ensures (slabFree c a p) s fun _ s' => Returned c owner a L s p s' := by
  cases hk : c.kind with
  | small => exact ensures_smallSlabFree hc hk h hp
  | large => exact ensures_largeSlabFree hk h hp

end OneSlab

end Kmem

end Kernel64
