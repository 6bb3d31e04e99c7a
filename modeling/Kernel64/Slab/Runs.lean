import Kernel64.Slab.Cache

/-!
# Runs of a cache

`KmemStep` are the calls on a cache and, between calls, stores of a client into an object it
holds. Any sequence of them from a new cache keeps `KmemInv`, and from it follows what the clients
of the slab allocator rely on.
-/

namespace Kernel64

namespace Kmem

/-- One call, or a store of a client into an object of `size` bytes. -/
inductive KmemStep (c : KmemCache) (size : ℕ) : KmemRun → KmemRun → Prop
  | alloc {σ : KmemRun} {env : KmemEnv} {fuel : ℕ} {r : Option ℕ} {s' : KmemState}
      (hf : Fresh c σ env) (hrun : cacheAlloc fuel c env σ.state = .ok (r, s')) :
      KmemStep c size σ ⟨s', r.toList ++ σ.live, newStructs c env ++ σ.handed⟩
  | free {σ : KmemRun} {p : ℕ} {s' : KmemState} (hp : p ∈ σ.live)
      (hrun : cacheFree c p σ.state = .ok ((), s')) :
      KmemStep c size σ ⟨s', σ.live.erase p, σ.handed⟩
  | reap {σ : KmemRun} {fuel : ℕ} {s' : KmemState} (hsize : size ≤ pageSize / 8)
      (hrun : cacheReap fuel c σ.state = .ok ((), s')) :
      KmemStep c size σ ⟨s', σ.live, σ.handed⟩
  | store {σ : KmemRun} {p : ℕ} {s' : KmemState} (hp : p ∈ σ.live)
      (hst : Stored size p σ.state s') :
      KmemStep c size σ ⟨s', σ.live, σ.handed⟩

/-- The states of a cache reached by any sequence of calls, from empty lists and memory with any
contents. -/
inductive KmemReachable (c : KmemCache) (size : ℕ) : KmemRun → Prop
  | init (s : KmemState) (hfree : s.freeList = []) (hpart : s.partList = [])
      (hfull : s.fullList = []) : KmemReachable c size ⟨s, [], []⟩
  | step {σ σ' : KmemRun} (h : KmemReachable c size σ) (hstep : KmemStep c size σ σ') :
      KmemReachable c size σ'

section

variable {size align : ℕ} {σ σ' : KmemRun}

theorem kmemInv_init {c : KmemCache} (s : KmemState) (hfree : s.freeList = [])
    (hpart : s.partList = []) (hfull : s.fullList = []) :
    KmemInv c ⟨s, [], []⟩ fun _ => 0 := by
  have hnone : slabs s = [] := by simp [slabs, hfree, hpart, hfull]
  refine ⟨⟨hnone ▸ List.nodup_nil, fun home a ha => ?_⟩, ?_, ?_, ?_, List.nodup_nil, by simp, ?_,
    by simp, by simp⟩
  · have hmem := mem_slabs.mpr ⟨home, ha⟩
    rw [hnone] at hmem
    exact absurd hmem List.not_mem_nil
  all_goals simp [hnone]

/-- Only small caches are reaped. -/
theorem cacheCreate_small (h : size ≤ pageSize / 8) : (cacheCreate size align).kind = .small := by
  rw [cacheCreate, if_pos h]
  rfl

/-- **One call** keeps the invariant. -/
theorem KmemStep.inv (hsize : 0 < size) (halign : align ∣ 8)
    (hstep : KmemStep (cacheCreate size align) size σ σ')
    (h : ∃ owner, KmemInv (cacheCreate size align) σ owner) :
    ∃ owner, KmemInv (cacheCreate size align) σ' owner := by
  have hc := cacheCreate_ok hsize halign
  obtain ⟨owner, h⟩ := h
  cases hstep with
  | alloc hf hrun => exact ((ensures_cacheAlloc hc hf h _).of_run hrun).2
  | free hp hrun => exact ⟨owner, ((ensures_cacheFree hc h hp).of_run hrun).1⟩
  | @reap fuel s' hle hrun =>
    have hk : (cacheCreate size align).kind = .small := cacheCreate_small hle
    have hreap : Ensures (cacheReap fuel (cacheCreate size align)) σ.state fun _ s' =>
        KmemInv (cacheCreate size align) ⟨s', σ.live, σ.handed⟩ owner :=
      (ensures_cacheReap hk).mpr (h.reaped hc hk)
    exact ⟨owner, hreap.of_run hrun⟩
  | store hp hst => exact ⟨owner, h.stored hc hp hst⟩

theorem KmemReachable.inv (hsize : 0 < size) (halign : align ∣ 8)
    (h : KmemReachable (cacheCreate size align) size σ) :
    ∃ owner, KmemInv (cacheCreate size align) σ owner := by
  induction h with
  | init s hfree hpart hfull => exact ⟨_, kmemInv_init s hfree hpart hfull⟩
  | step _ hstep ih => exact hstep.inv hsize halign ih

/-- The slabs of the free list are the first of all, and those without live objects. -/
theorem KmemInv.filter_slabs {c : KmemCache} {owner : ℕ → ℕ} (hc : CacheOk c size align)
    (h : KmemInv c σ owner) :
    (slabs σ.state).filter (fun a => liveOf σ a = []) = σ.state.freeList := by
  have hnd := h.listed.nodup
  have hfree : σ.state.freeList.filter (fun a => liveOf σ a = []) = σ.state.freeList := by
    refine List.filter_eq_self.mpr fun a ha => decide_eq_true ?_
    exact (h.mem_freeList_iff hc (mem_slabs.mpr ⟨.free, ha⟩)).mpr ha
  have hrest : (σ.state.partList ++ σ.state.fullList).filter (fun a => liveOf σ a = []) = [] := by
    refine List.filter_eq_nil_iff.mpr fun a ha hnil => ?_
    have hmem : a ∈ slabs σ.state := by
      rw [slabs, List.append_assoc]
      exact List.mem_append_right _ ha
    have hon := (h.mem_freeList_iff hc hmem).mp (of_decide_eq_true hnil)
    rw [slabs, List.append_assoc, List.nodup_append] at hnd
    exact hnd.2.2 a hon a ha rfl
  rw [slabs, List.append_assoc, List.filter_append, hfree, hrest, List.append_nil]

end

/-- What the clients of a cache rely on. -/
structure CacheGuarantee (c : KmemCache) (size align : ℕ) (σ : KmemRun) : Prop where
  /-- A live object lies inside the pages of its slab and is aligned. -/
  inside : ∀ p ∈ σ.live, σ.state.origin p ∈ slabs σ.state ∧
    pageAddr (σ.state.slab (σ.state.origin p)).pages ≤ p ∧
    p + size ≤ pageAddr (σ.state.slab (σ.state.origin p)).pages + slabBytes c ∧ align ∣ p
  /-- Two live objects do not overlap. -/
  apart : σ.live.Nodup ∧ ∀ p ∈ σ.live, ∀ q ∈ σ.live, p ≠ q → Clear p size q size
  /-- A live object overlaps no slab header and no border tag stored in the pages. -/
  private_bytes : c.kind = .small → ∀ p ∈ σ.live, ∀ a ∈ slabs σ.state,
    Clear p size a smallSlabSize ∧
    ∀ q ∈ objects c (σ.state.slab a).pages, Clear p size (q + c.objectSize) 8
  /-- Each slab is on exactly one list, by its counters. -/
  lists : (slabs σ.state).Nodup ∧ ∀ a ∈ slabs σ.state,
    (a ∈ σ.state.freeList ↔ (σ.state.slab a).free = (σ.state.slab a).total) ∧
    (a ∈ σ.state.partList ↔
      0 < (σ.state.slab a).free ∧ (σ.state.slab a).free < (σ.state.slab a).total) ∧
    (a ∈ σ.state.fullList ↔ (σ.state.slab a).free = 0)
  /-- The counters count the live objects. -/
  counts : ∀ a ∈ slabs σ.state,
    (σ.state.slab a).total - (σ.state.slab a).free = (liveOf σ a).length
  /-- `kmem_get_slab` finds the slab an object came from. -/
  finds : ∀ p ∈ σ.live,
    getSlab p σ.state = .ok (σ.state.origin p, σ.state)
  /-- No call faults. -/
  allocs : ∀ env fuel, Fresh c σ env → ∃ r s', cacheAlloc fuel c env σ.state = .ok (r, s')
  frees : ∀ p ∈ σ.live, ∃ s', cacheFree c p σ.state = .ok ((), s')
  /-- Reaping gives back the pages of the slabs without live objects, each once, and no others. -/
  reaps : size ≤ pageSize / 8 → ∀ fuel, ∃ s', cacheReap fuel c σ.state = .ok ((), s') ∧
    ∃ l, s'.freed = l ++ σ.state.freed ∧ l.Nodup ∧
      l.Perm (((slabs σ.state).filter fun a => liveOf σ a = []).map
        fun a => (σ.state.slab a).pages) ∧
      (slabs s').Perm ((slabs σ.state).filter fun a => liveOf σ a ≠ [])

theorem KmemInv.lists {c : KmemCache} {size align : ℕ} {σ : KmemRun} {owner : ℕ → ℕ} {a : ℕ}
    (hc : CacheOk c size align) (h : KmemInv c σ owner) (ha : a ∈ slabs σ.state) :
    (a ∈ σ.state.freeList ↔ (σ.state.slab a).free = (σ.state.slab a).total) ∧
    (a ∈ σ.state.partList ↔
      0 < (σ.state.slab a).free ∧ (σ.state.slab a).free < (σ.state.slab a).total) ∧
    (a ∈ σ.state.fullList ↔ (σ.state.slab a).free = 0) := by
  have htwo : 2 ≤ (σ.state.slab a).total := by
    rw [(h.slab a ha).total]
    exact hc.count (h.order_lt a ha)
  have hfree : a ∈ σ.state.freeList → (σ.state.slab a).free = (σ.state.slab a).total :=
    h.listed.fits .free a
  have hpart : a ∈ σ.state.partList →
      0 < (σ.state.slab a).free ∧ (σ.state.slab a).free < (σ.state.slab a).total :=
    h.listed.fits .part a
  have hfull : a ∈ σ.state.fullList → (σ.state.slab a).free = 0 := h.listed.fits .full a
  -- the three conditions exclude each other, and the slab is on some list
  obtain ⟨home, hhome⟩ := mem_slabs.mp ha
  refine ⟨⟨hfree, fun heq => ?_⟩, ⟨hpart, fun hlt => ?_⟩, ⟨hfull, fun hz => ?_⟩⟩
  · cases home with
    | free => exact hhome
    | part => have := hpart hhome; omega
    | full => have := hfull hhome; omega
  · cases home with
    | free => have := hfree hhome; omega
    | part => exact hhome
    | full => have := hfull hhome; omega
  · cases home with
    | free => have := hfree hhome; omega
    | part => have := hpart hhome; omega
    | full => exact hhome

theorem KmemInv.reaps {c : KmemCache} {size align : ℕ} {σ : KmemRun} {owner : ℕ → ℕ}
    (hc : CacheOk c size align) (h : KmemInv c σ owner) (hk : c.kind = .small) (fuel : ℕ) :
    ∃ s', cacheReap fuel c σ.state = .ok ((), s') ∧
      ∃ l, s'.freed = l ++ σ.state.freed ∧ l.Nodup ∧
        l.Perm (((slabs σ.state).filter fun a => liveOf σ a = []).map
          fun a => (σ.state.slab a).pages) ∧
        (slabs s').Perm ((slabs σ.state).filter fun a => liveOf σ a ≠ []) := by
  have hrun : Ensures (cacheReap fuel c) σ.state fun _ s' => s' = Kmem.reaped σ.state :=
    (ensures_cacheReap hk).mpr rfl
  obtain ⟨_, s', hok, rfl⟩ := hrun
  have hnd := h.listed.nodup
  have hsub : ∀ a ∈ σ.state.freeList, a ∈ slabs σ.state := fun a ha => mem_slabs.mpr ⟨.free, ha⟩
  have hfreeNd : σ.state.freeList.Nodup := by
    rw [slabs, List.append_assoc] at hnd
    exact (List.nodup_append.mp hnd).1
  refine ⟨_, hok, (σ.state.freeList.map fun a => (σ.state.slab a).pages).reverse, rfl, ?_, ?_, ?_⟩
  · rw [List.nodup_reverse]
    exact List.Nodup.map_on (fun a ha b hb heq => h.pages_injective (hsub a ha) (hsub b hb) heq)
      hfreeNd
  · rw [h.filter_slabs hc]
    exact List.reverse_perm _
  · refine (List.perm_ext_iff_of_nodup (h.reaped hc hk).listed.nodup (hnd.filter _)).mpr
      fun a => ?_
    have hiff := h.mem_freeList_iff hc (a := a)
    simp only [slabs, List.append_assoc, List.nodup_append] at hnd
    simp only [slabs, Kmem.reaped, List.mem_filter, List.mem_append, List.nil_append, ne_eq,
      decide_not, Bool.not_eq_true', decide_eq_false_iff_not] at hiff ⊢
    grind

/-- **Slab invariant.** In every state a cache for objects of `size` bytes reaches, its objects
are apart from each other and from all bookkeeping, its lists and counters are right, objects find
their slabs, and reaping gives back exactly the unused slabs. -/
theorem cache_guarantee (size align : ℕ) (hsize : 1 ≤ size) (_hle : size ≤ 2 ^ 32)
    (halign : ∃ k ≤ 3, align = 2 ^ k) (σ : KmemRun)
    (h : KmemReachable (cacheCreate size align) size σ) :
    CacheGuarantee (cacheCreate size align) size align σ := by
  have hdvd : align ∣ 8 := by
    obtain ⟨k, hk, rfl⟩ := halign
    exact Nat.pow_dvd_pow 2 hk
  have hc := cacheCreate_ok hsize hdvd
  obtain ⟨owner, hinv⟩ := h.inv hsize hdvd
  refine ⟨fun p hp => ?_, ⟨hinv.live_nodup, fun p hp q hq hne => ?_⟩, fun hk p hp a ha => ?_,
    ⟨hinv.listed.nodup, fun a ha => hinv.lists hc ha⟩, fun a ha => ?_, fun p hp => ?_,
    fun env fuel hf => ?_, fun p hp => ?_, fun hle fuel => ?_⟩
  · obtain ⟨h₁, h₂⟩ := hinv.live_inside hc hp
    have hbytes := objectBytes_le (cacheCreate size align)
    have hsz := hc.size_le
    exact ⟨hinv.origin p hp, h₁, by omega, align_dvd_of_mem_objects hc (hinv.mem_objects hp)⟩
  · exact hinv.clear_live hc hp hq (Ne.symm hne)
  · exact ⟨hinv.clear_header hc hp hk ha, fun q hq => hinv.clear_border hc hp hk ha hq⟩
  · have := (hinv.slab a ha).free_add_length
    omega
  · rw [← hinv.pageSlab_eq hc hp]
    rfl
  · obtain ⟨r, s', hrun, -⟩ := ensures_cacheAlloc hc hf hinv fuel
    exact ⟨r, s', hrun⟩
  · obtain ⟨_, s', hrun, -⟩ := ensures_cacheFree hc hinv hp
    exact ⟨s', hrun⟩
  · exact hinv.reaps hc (cacheCreate_small hle) fuel

/-- Empty lists and zeroed memory. -/
def emptyCache : KmemState where
  slab := fun _ => ⟨0, 0, 0, 0, 0, 0⟩
  border := fun _ => 0
  tag := fun _ => ⟨0, 0⟩
  pageSlab := fun _ => 0
  freeList := []
  partList := []
  fullList := []
  freed := []
  returned := []
  origin := fun _ => 0

/-- A call during which the page allocator hands out page `1`. -/
def pageOne : KmemEnv where
  pages := some 1
  slab := none
  tag := fun _ => none

/-- The cache for objects of 512 bytes after one allocation. -/
def oneObject : KmemRun :=
  match cacheAlloc 0 (cacheCreate 512 8) pageOne emptyCache with
  | .ok (r, s') => ⟨s', r.toList, []⟩
  | .error _ => ⟨emptyCache, [], []⟩

theorem fresh_pageOne : Fresh (cacheCreate 512 8) ⟨emptyCache, [], []⟩ pageOne := by
  refine ⟨⟨?_, ?_, ?_⟩, ?_, ?_, ?_, ?_, ?_⟩
  all_goals simp [pageOne, slabs, emptyCache, newStructs, cacheCreate, smallCacheInit, pageSize,
    buddyOrders]

theorem oneObject_reachable : KmemReachable (cacheCreate 512 8) 512 oneObject := by
  have hinit : KmemReachable (cacheCreate 512 8) 512 ⟨emptyCache, [], []⟩ :=
    .init emptyCache rfl rfl rfl
  rw [oneObject]
  split
  · rename_i r s' hrun
    refine .step hinit ?_
    have hstep : KmemStep (cacheCreate 512 8) 512 ⟨emptyCache, [], []⟩ ⟨s', r.toList ++ [], []⟩ :=
      .alloc fresh_pageOne hrun
    rw [List.append_nil] at hstep
    exact hstep
  · exact hinit

theorem oneObject_guarantee : oneObject.live = [highBase + 7216] ∧
    CacheGuarantee (cacheCreate 512 8) 512 8 oneObject :=
  ⟨by decide, cache_guarantee 512 8 (by decide) (by decide) ⟨3, le_rfl, rfl⟩ oneObject
    oneObject_reachable⟩

end Kmem

end Kernel64
