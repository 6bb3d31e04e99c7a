import Kernel64.Slab.Create

/-!
# The slabs of a cache

A `KmemRun` is the state of a cache with what its clients know: the live objects, and the
structures the caches behind a large cache have handed out. The invariant `KmemInv` ties the lists
to the counters, each slab to its objects, and keeps the slabs on disjoint pages. Each call keeps
it: an allocation or a release works on one slab (`KmemInv.step`), growth adds a slab that the
others do not notice, reaping drops the slabs without live objects, and a store of a client into
its own object reaches no header and no tag.
-/

namespace Kernel64

namespace Kmem

/-! ### Lists -/

/-- The three lists of a cache. -/
inductive Home
  | free
  | part
  | full

/-- The list a slab belongs on, by its counters. -/
def Home.Fits (slab : KmemSlab) : Home → Prop
  | .free => slab.free = slab.total
  | .part => 0 < slab.free ∧ slab.free < slab.total
  | .full => slab.free = 0

/-- The entries of a list. -/
def homeList (s : KmemState) : Home → List ℕ
  | .free => s.freeList
  | .part => s.partList
  | .full => s.fullList

/-- All slabs of the cache. -/
def slabs (s : KmemState) : List ℕ :=
  s.freeList ++ s.partList ++ s.fullList

/-- The state after a slab went to the front of a list. -/
def moved (s : KmemState) (a : ℕ) (home : Home) : KmemState :=
  { s with
    freeList := match home with
      | .free => a :: s.freeList.erase a
      | _ => s.freeList.erase a
    partList := match home with
      | .part => a :: s.partList.erase a
      | _ => s.partList.erase a
    fullList := match home with
      | .full => a :: s.fullList.erase a
      | _ => s.fullList.erase a }

/-- Each slab is on exactly one list, the one its counters say. -/
structure Listed (s : KmemState) : Prop where
  nodup : (slabs s).Nodup
  fits : ∀ home, ∀ a ∈ homeList s home, home.Fits (s.slab a)

theorem mem_slabs {s : KmemState} {a : ℕ} : a ∈ slabs s ↔ ∃ home, a ∈ homeList s home := by
  simp only [slabs, List.mem_append]
  constructor
  · rintro ((h | h) | h)
    · exact ⟨.free, h⟩
    · exact ⟨.part, h⟩
    · exact ⟨.full, h⟩
  · rintro ⟨home, h⟩
    cases home with
    | free => exact Or.inl (Or.inl h)
    | part => exact Or.inl (Or.inr h)
    | full => exact Or.inr h

/-- Moving a slab to the front of a list permutes the slabs. -/
theorem slabs_moved_perm {s : KmemState} {a : ℕ} (home : Home) (ha : a ∈ slabs s)
    (hnd : (slabs s).Nodup) : (slabs (moved s a home)).Perm (slabs s) := by
  refine (List.perm_ext_iff_of_nodup ?_ hnd).mpr fun b => ?_
  · simp only [slabs, List.nodup_append, List.mem_append] at hnd ha
    cases home <;> simp only [slabs, moved, List.nodup_append] <;> grind
  · simp only [slabs, List.mem_append] at ha ⊢
    simp only [slabs, List.nodup_append] at hnd
    cases home <;> simp only [moved] <;> grind

theorem slabs_congr {s s' : KmemState} (h : ∀ home, homeList s' home = homeList s home) :
    slabs s' = slabs s := by
  have h₁ := h .free
  have h₂ := h .part
  have h₃ := h .full
  simp only [homeList] at h₁ h₂ h₃
  rw [slabs, slabs, h₁, h₂, h₃]

/-- Moving a slab changes no membership. -/
theorem mem_slabs_moved {s s' : KmemState} {a : ℕ} (home : Home) (h : Listed s)
    (ha : a ∈ slabs s) (hlists : ∀ home, homeList s' home = homeList s home) (b : ℕ) :
    b ∈ slabs (moved s' a home) ↔ b ∈ slabs s := by
  have hslabs := slabs_congr hlists
  rw [(slabs_moved_perm home (hslabs ▸ ha) (hslabs ▸ h.nodup)).mem_iff, hslabs]

/-- A slab whose counters changed goes to the list they now say. -/
theorem Listed.moved {s s' : KmemState} {a : ℕ} (home : Home) (h : Listed s) (ha : a ∈ slabs s)
    (hlists : ∀ home, homeList s' home = homeList s home) (hslab : ∀ b ≠ a, s'.slab b = s.slab b)
    (hfits : home.Fits (s'.slab a)) : Listed (moved s' a home) := by
  have hslabs := slabs_congr hlists
  have hnd : (slabs s').Nodup := hslabs ▸ h.nodup
  refine ⟨(slabs_moved_perm home (hslabs ▸ ha) hnd).nodup_iff.mpr hnd, fun home' b hb => ?_⟩
  -- a slab on a list is the one moved there, or was there before
  have hcase : (b = a ∧ home' = home) ∨ (b ≠ a ∧ b ∈ homeList s' home') := by
    have hnd' := hnd
    simp only [slabs, List.nodup_append] at hnd'
    cases home <;> cases home' <;> simp only [homeList, Kmem.moved] at hb ⊢ <;> grind
  rcases hcase with ⟨rfl, rfl⟩ | ⟨hne, hb⟩
  · exact hfits
  · have hfit := h.fits home' b (hlists home' ▸ hb)
    rw [← hslab b hne] at hfit
    exact hfit

/-- A slab whose counters changed may stay where they still say. -/
theorem Listed.stay {s s' : KmemState} {a : ℕ} (home : Home) (h : Listed s)
    (ha : a ∈ homeList s home) (hlists : ∀ home, homeList s' home = homeList s home)
    (hslab : ∀ b ≠ a, s'.slab b = s.slab b) (hfits : home.Fits (s'.slab a)) : Listed s' := by
  refine ⟨slabs_congr hlists ▸ h.nodup, fun home' b hb => ?_⟩
  rw [hlists] at hb
  by_cases hne : b = a
  · subst hne
    have hsame : home' = home := by
      have hnd' := h.nodup
      simp only [slabs, List.nodup_append] at hnd'
      cases home <;> cases home' <;> simp only [homeList] at ha hb <;> grind
    exact hsame ▸ hfits
  · rw [hslab b hne]
    exact h.fits home' b hb

/-! ### The invariant -/

/-- A cache and what its clients know about it. -/
structure KmemRun where
  state : KmemState
  /-- the objects handed out and not returned -/
  live : List ℕ
  /-- the slab structures and tags handed out for a large cache, with their sizes -/
  handed : List (ℕ × ℕ)

/-- The live objects of a slab. -/
def liveOf (σ : KmemRun) (a : ℕ) : List ℕ :=
  σ.live.filter fun p => σ.state.origin p = a

/-- The bytes `[x, x + n)` lie outside the pages of the slab. -/
def Outside (c : KmemCache) (page x n : ℕ) : Prop :=
  x + n ≤ pageAddr page ∨ pageAddr page + slabBytes c ≤ x

/-- The blocks of two slabs share no page. -/
def PagesApart (c : KmemCache) (page page' : ℕ) : Prop :=
  ∀ i < 2 ^ c.order, ∀ j < 2 ^ c.order, page + i ≠ page' + j

/-- What every reachable state of a cache keeps. -/
structure KmemInv (c : KmemCache) (σ : KmemRun) (owner : ℕ → ℕ) : Prop where
  listed : Listed σ.state
  slab : ∀ a ∈ slabs σ.state, SlabInv c σ.state owner a (liveOf σ a)
  apart : ∀ a ∈ slabs σ.state, ∀ b ∈ slabs σ.state, a ≠ b →
    PagesApart c (σ.state.slab a).pages (σ.state.slab b).pages
  order_lt : ∀ a ∈ slabs σ.state, c.order < buddyOrders
  live_nodup : σ.live.Nodup
  origin : ∀ p ∈ σ.live, σ.state.origin p ∈ slabs σ.state
  handed_slab : c.kind = .large → ∀ a ∈ slabs σ.state, a ≠ 0 ∧ (a, 72) ∈ σ.handed
  handed_tag : c.kind = .large → ∀ t, owner t ≠ 0 → (t, 16) ∈ σ.handed
  outside : ∀ x ∈ σ.handed, ∀ a ∈ slabs σ.state,
    Outside c (σ.state.slab a).pages x.1 x.2

section Inv

variable {c : KmemCache} {size align : ℕ} {σ : KmemRun} {owner : ℕ → ℕ} {a p : ℕ}

/-- Changing the lists alone does not matter to a slab. -/
theorem SlabInv.moved {s : KmemState} {b : ℕ} {L : List ℕ} (h : SlabInv c s owner b L)
    (home : Home) : SlabInv c (Kmem.moved s a home) owner b L :=
  h.congr rfl (fun _ _ => rfl) (fun _ _ _ => ⟨rfl, rfl⟩) fun _ _ ht => ⟨rfl, ht⟩

/-- **Step on one slab.** An operation on the slab `a` keeps the invariant when it keeps that of
`a` itself, whatever it does to the order of the lists. -/
theorem KmemInv.step {s' : KmemState} {live' : List ℕ} (h : KmemInv c σ owner)
    (hslab : ∀ b ≠ a, s'.slab b = σ.state.slab b)
    (hpages : (s'.slab a).pages = (σ.state.slab a).pages) (hlisted : Listed s')
    (hperm : ∀ b, b ∈ slabs s' ↔ b ∈ slabs σ.state)
    (hother : ∀ b ≠ a, b ∈ slabs σ.state → SlabInv c s' owner b (liveOf σ b))
    (hself : SlabInv c s' owner a (liveOf ⟨s', live', σ.handed⟩ a)) (hnodup : live'.Nodup)
    (horigin : ∀ p ∈ live', s'.origin p ∈ slabs σ.state)
    (hlive : ∀ b ≠ a, liveOf ⟨s', live', σ.handed⟩ b = liveOf σ b) :
    KmemInv c ⟨s', live', σ.handed⟩ owner := by
  have hpg : ∀ b, (s'.slab b).pages = (σ.state.slab b).pages := fun b => by
    by_cases hb : b = a
    · rw [hb, hpages]
    · rw [hslab b hb]
  refine ⟨hlisted, fun b hb => ?_, fun b hb d hd hne => ?_, fun b hb => h.order_lt b ?_, hnodup,
    fun q hq => (hperm _).mpr (horigin q hq), fun hk b hb => h.handed_slab hk b ?_,
    h.handed_tag, fun x hx b hb => ?_⟩
  · by_cases hba : b = a
    · exact hba ▸ hself
    · rw [hlive b hba]
      exact hother b hba ((hperm b).mp hb)
  · rw [hpg, hpg]
    exact h.apart b ((hperm b).mp hb) d ((hperm d).mp hd) hne
  · exact (hperm b).mp hb
  · exact (hperm b).mp hb
  · rw [hpg]
    exact h.outside x hx b ((hperm b).mp hb)

/-- A live object is an object of the slab it came from. -/
theorem KmemInv.mem_objects (h : KmemInv c σ owner) (hp : p ∈ σ.live) :
    p ∈ objects c (σ.state.slab (σ.state.origin p)).pages := by
  obtain ⟨-, -, F, hperm, -⟩ := h.slab _ (h.origin p hp)
  refine hperm.mem_iff.mp (List.mem_append_right _ ?_)
  exact List.mem_filter.mpr ⟨hp, by simp⟩

/-- The free objects of a slab and its live ones make up the whole. -/
theorem SlabInv.free_add_length {s : KmemState} {L : List ℕ} (h : SlabInv c s owner a L) :
    (s.slab a).free + L.length = (s.slab a).total := by
  obtain ⟨htotal, -, F, hperm, hfree, -⟩ := h
  have := hperm.length_eq
  rw [List.length_append, objects_length] at this
  omega

/-- The objects of two slabs on disjoint pages are disjoint. -/
theorem not_mem_objects_of_apart {page page' : ℕ} (hc : CacheOk c size align)
    (hap : PagesApart c page page') (hp : p ∈ objects c page) : p ∉ objects c page' := by
  intro hp'
  have hs := stride_pos hc
  have hle := objectBytes_le c
  obtain ⟨h₁, h₂⟩ := bounds_of_mem_objects hp
  obtain ⟨h₁', h₂'⟩ := bounds_of_mem_objects hp'
  obtain ⟨i, hi, hpi⟩ := addrPfn_of_bounds (c := c) h₁ (by omega)
  obtain ⟨j, hj, hpj⟩ := addrPfn_of_bounds (c := c) h₁' (by omega)
  exact hap i hi j hj (hpi.symm.trans hpj)

/-! ### Growth -/

/-- The structures handed out for a new slab of a large cache. -/
def newStructs (c : KmemCache) (env : KmemEnv) : List (ℕ × ℕ) :=
  match c.kind with
  | .small => []
  | .large => env.slab.toList.map (·, 72) ++
    ((List.range (objectCount c)).filterMap env.tag).map (·, 16)

/-- What the allocators behind a cache promise: the page allocator knows the order and hands out
pages not in use; the structures of a large slab are served, are not in use either, and lie on
pages of their own. -/
structure Fresh (c : KmemCache) (σ : KmemRun) (env : KmemEnv) : Prop where
  served : Served c env
  order_lt : ∀ page, env.pages = some page → c.order < buddyOrders
  apart : ∀ page, env.pages = some page → ∀ a ∈ slabs σ.state,
    PagesApart c page (σ.state.slab a).pages
  unused : ∀ x ∈ newStructs c env, x ∉ σ.handed
  outside_new : ∀ page, env.pages = some page → ∀ x ∈ newStructs c env ++ σ.handed,
    Outside c page x.1 x.2
  outside_old : ∀ x ∈ newStructs c env, ∀ a ∈ slabs σ.state,
    Outside c (σ.state.slab a).pages x.1 x.2

theorem mem_newStructs_slab {env : KmemEnv} {page : ℕ} (hk : c.kind = .large)
    (h : NewSlab c env page a) : (a, 72) ∈ newStructs c env := by
  simp only [NewSlab, hk] at h
  simp [newStructs, hk, h]

theorem mem_newStructs_tag {env : KmemEnv} {page t : ℕ} (hk : c.kind = .large)
    (h : NewTag c env page t) : (t, 16) ∈ newStructs c env := by
  simp only [NewTag, hk] at h
  obtain ⟨i, hi, ht⟩ := h
  simp only [newStructs, hk, List.mem_append, List.mem_map, List.mem_filterMap, List.mem_range]
  exact Or.inr ⟨t, ⟨i, hi, ht⟩, rfl⟩

/-- A border tag lies on the pages of its slab. -/
theorem addrPfn_border (hc : CacheOk c size align) (hk : c.kind = .small) {page : ℕ}
    (hp : p ∈ objects c page) : ∃ i < 2 ^ c.order, addrPfn (p + c.objectSize) = page + i := by
  obtain ⟨h₁, h₂⟩ := bounds_of_mem_objects hp
  have hle := objectBytes_le c
  have hb := hc.border hk
  have hs : stride c = c.paddedSize := by simp only [stride, hk]
  exact addrPfn_of_bounds (by omega) (by omega)

/-- The header of a new slab is none of the old ones. -/
theorem Fresh.newSlab_ne {env : KmemEnv} {page b : ℕ} (hf : Fresh c σ env) (h : KmemInv c σ owner)
    (hpage : env.pages = some page) (ha : NewSlab c env page a) (hb : b ∈ slabs σ.state) :
    b ≠ a := by
  rintro rfl
  cases hk : c.kind with
  | small =>
    simp only [NewSlab, hk] at ha
    obtain ⟨-, -, F, -, -, htags⟩ := h.slab b hb
    simp only [SlabTags, hk] at htags
    have heq : pageAddr page = pageAddr (σ.state.slab b).pages :=
      Nat.add_right_cancel (ha.symm.trans htags.1)
    have hsame : page = (σ.state.slab b).pages :=
      Nat.eq_of_mul_eq_mul_right (by decide) (Nat.add_right_cancel heq)
    exact hf.apart page hpage b hb 0 (Nat.two_pow_pos _) 0 (Nat.two_pow_pos _)
      (by rw [hsame])
  | large =>
    exact hf.unused _ (mem_newStructs_slab hk ha) (h.handed_slab hk b hb).2

/-- A tag of an old slab is none of the new ones. -/
theorem Fresh.not_newTag_border {env : KmemEnv} {page b : ℕ} (hc : CacheOk c size align)
    (hf : Fresh c σ env) (hpage : env.pages = some page) (hb : b ∈ slabs σ.state)
    (hk : c.kind = .small) (hp : p ∈ objects c (σ.state.slab b).pages) :
    ¬ NewTag c env page (p + c.objectSize) := by
  intro ht
  simp only [NewTag, hk] at ht
  obtain ⟨q, hq, heq⟩ := ht
  obtain ⟨i, hi, hpi⟩ := addrPfn_border hc hk hp
  obtain ⟨j, hj, hqj⟩ := addrPfn_border hc hk hq
  refine hf.apart page hpage b hb j hj i hi ?_
  rw [← hpi, ← hqj, heq]

open Classical in
/-- The tags of a new slab change hands. -/
noncomputable def newOwner (c : KmemCache) (env : KmemEnv) (page a : ℕ) (owner : ℕ → ℕ) : ℕ → ℕ :=
  fun t => if NewTag c env page t then a else owner t

/-- The old slabs do not notice a new one. -/
theorem SlabInv.of_grown {env : KmemEnv} {page b : ℕ} {s₁ : KmemState} {L : List ℕ}
    (hc : CacheOk c size align) (hf : Fresh c σ env) (h : KmemInv c σ owner)
    (hpage : env.pages = some page) (hnew : NewSlab c env page a)
    (hcr : Created c env page a σ.state s₁) (hb : b ∈ slabs σ.state)
    (hinv : SlabInv c σ.state owner b L) :
    SlabInv c { adopt c s₁ page a with freeList := a :: σ.state.freeList }
      (newOwner c env page a owner) b L := by
  have hne : b ≠ a := hf.newSlab_ne h hpage hnew hb
  refine hinv.congr ?_ (fun i hi => ?_) (fun p hp hk => ?_) fun hk t ht => ?_
  · simp only [adopt, Function.update_of_ne hne]
    exact hcr.slab b hne
  · have hout : ¬ (page ≤ (σ.state.slab b).pages + i ∧
        (σ.state.slab b).pages + i < page + 2 ^ c.order) := by
      rintro ⟨h₁, h₂⟩
      refine hf.apart page hpage b hb ((σ.state.slab b).pages + i - page) ?_ i hi ?_ <;> omega
    simp only [adopt, hout, if_false, hcr.pageSlab]
  · have hold := hf.not_newTag_border hc hpage hb hk hp
    exact ⟨hcr.border _ hold, if_neg hold⟩
  · have hold : ¬ NewTag c env page t := fun htag =>
      hf.unused _ (mem_newStructs_tag hk htag)
        (h.handed_tag hk t (ht.symm ▸ (h.handed_slab hk b hb).1))
    exact ⟨hcr.tag t hold, (if_neg hold).trans ht⟩

/-- **Growth.** The new slab joins the free list. -/
theorem KmemInv.grown {env : KmemEnv} {page : ℕ} {s₁ : KmemState} (hc : CacheOk c size align)
    (hf : Fresh c σ env) (h : KmemInv c σ owner) (hpage : env.pages = some page)
    (hnew : NewSlab c env page a) (hcr : Created c env page a σ.state s₁)
    (htotal : (s₁.slab a).total = objectCount c) (hfree : (s₁.slab a).free = objectCount c)
    (hinv : ∀ owner, (∀ t, NewTag c env page t → owner t = a) →
      SlabInv c (adopt c s₁ page a) owner a []) :
    KmemInv c ⟨{ adopt c s₁ page a with freeList := a :: σ.state.freeList }, σ.live,
      newStructs c env ++ σ.handed⟩ (newOwner c env page a owner) := by
  -- the slabs so far are what they were
  have hne : ∀ b ∈ slabs σ.state, b ≠ a := fun b hb => hf.newSlab_ne h hpage hnew hb
  set s' : KmemState := { adopt c s₁ page a with freeList := a :: σ.state.freeList } with hs'
  have hslabs : slabs s' = a :: slabs σ.state := by
    simp [hs', slabs, adopt, hcr.partList, hcr.fullList]
  have hold : ∀ b ∈ slabs σ.state, s'.slab b = σ.state.slab b := fun b hb => by
    simp only [hs', adopt, Function.update_of_ne (hne b hb)]
    exact hcr.slab b (hne b hb)
  have hself : s'.slab a = { s₁.slab a with pages := page } := by simp [hs', adopt]
  have hlive : ∀ b, liveOf ⟨s', σ.live, newStructs c env ++ σ.handed⟩ b = liveOf σ b := fun b => by
    simp only [liveOf, hs', adopt, hcr.origin]
  have hnone : liveOf σ a = [] := by
    refine List.filter_eq_nil_iff.mpr fun p hp => ?_
    simpa using hne _ (h.origin p hp)
  have hmem : ∀ b ∈ slabs s', b = a ∨ b ∈ slabs σ.state := fun b hb => by
    rw [hslabs] at hb
    exact List.mem_cons.mp hb
  refine ⟨⟨?_, ?_⟩, fun b hb => ?_, fun b hb d hd hbd => ?_, fun b hb => hf.order_lt page hpage,
    h.live_nodup, fun p hp => ?_, fun hk b hb => ?_, fun hk t ht => ?_, fun x hx b hb => ?_⟩
  · rw [hslabs]
    exact List.nodup_cons.mpr ⟨fun ha => hne a ha rfl, h.listed.nodup⟩
  · intro home b hb
    have hpart : homeList s' .part = homeList σ.state .part := hcr.partList
    have hfull : homeList s' .full = homeList σ.state .full := hcr.fullList
    rcases hmem b (mem_slabs.mpr ⟨home, hb⟩) with heq | hb'
    · have hnew' : home = .free := by
        have hout : a ∉ slabs σ.state := fun ha => hne a ha rfl
        rw [mem_slabs, not_exists] at hout
        rw [heq] at hb
        cases home with
        | free => rfl
        | part => exact absurd (hpart ▸ hb) (hout .part)
        | full => exact absurd (hfull ▸ hb) (hout .full)
      rw [hnew', heq, hself]
      exact hfree.trans htotal.symm
    · have hb'' : b ∈ homeList σ.state home := by
        cases home with
        | free => exact (List.mem_cons.mp hb).resolve_left (hne b hb')
        | part => exact hpart ▸ hb
        | full => exact hfull ▸ hb
      rw [hold b hb']
      exact h.listed.fits home b hb''
  · -- its objects and their tags
    rw [hlive]
    rcases hmem b hb with rfl | hb
    · rw [hnone]
      exact (hinv _ fun t ht => if_pos ht).congr rfl (fun _ _ => rfl)
        (fun _ _ _ => ⟨rfl, rfl⟩) fun _ _ ht => ⟨rfl, ht⟩
    · exact SlabInv.of_grown hc hf h hpage hnew hcr hb (h.slab b hb)
  · rcases hmem b hb with hb' | hb' <;> rcases hmem d hd with hd' | hd'
    · exact absurd (hb'.trans hd'.symm) hbd
    · rw [hb', hself, hold d hd']
      exact hf.apart page hpage d hd'
    · rw [hd', hself, hold b hb']
      exact fun i hi j hj heq => hf.apart page hpage b hb' j hj i hi heq.symm
    · rw [hold b hb', hold d hd']
      exact h.apart b hb' d hd' hbd
  · rw [hslabs]
    refine List.mem_cons_of_mem _ ?_
    simp only [hs', adopt, hcr.origin]
    exact h.origin p hp
  · rcases hmem b hb with rfl | hb
    · obtain ⟨a, ha, h0⟩ := hf.served.slab hk
      have hslab := id hnew
      simp only [NewSlab, hk, ha] at hslab
      exact ⟨Option.some.inj hslab ▸ h0, List.mem_append_left _ (mem_newStructs_slab hk hnew)⟩
    · exact ⟨(h.handed_slab hk b hb).1, List.mem_append_right _ (h.handed_slab hk b hb).2⟩
  · by_cases htag : NewTag c env page t
    · exact List.mem_append_left _ (mem_newStructs_tag hk htag)
    · rw [newOwner, if_neg htag] at ht
      exact List.mem_append_right _ (h.handed_tag hk t ht)
  · rcases hmem b hb with rfl | hb
    · rw [hself]
      exact hf.outside_new page hpage x hx
    · rw [hold b hb]
      rcases List.mem_append.mp hx with hx | hx
      · exact hf.outside_old x hx b hb
      · exact h.outside x hx b hb

/-! ### Allocation -/

theorem Taken.not_mem_live {s₁ : KmemState} (hc : CacheOk c size align) (h : KmemInv c σ owner)
    (ha : a ∈ slabs σ.state) (ht : Taken c owner a (liveOf σ a) σ.state p s₁) : p ∉ σ.live := by
  intro hp
  by_cases horig : σ.state.origin p = a
  · exact ht.fresh (List.mem_filter.mpr ⟨hp, by simp [horig]⟩)
  · exact not_mem_objects_of_apart hc (h.apart _ (h.origin p hp) a ha horig) (h.mem_objects hp)
      ht.mem

/-- The object taken from `a` joins the live ones. -/
theorem KmemInv.taken {s₁ s' : KmemState} (hc : CacheOk c size align) (h : KmemInv c σ owner)
    (ha : a ∈ slabs σ.state) (ht : Taken c owner a (liveOf σ a) σ.state p s₁)
    (hslab : s'.slab = (putSlab s₁ a fun slab => { slab with free := slab.free - 1 }).slab)
    (horig : s'.origin = s₁.origin)
    (hinv : ∀ b L, SlabInv c (putSlab s₁ a fun slab => { slab with free := slab.free - 1 }) owner
      b L → SlabInv c s' owner b L)
    (hlisted : Listed s') (hperm : ∀ b, b ∈ slabs s' ↔ b ∈ slabs σ.state) :
    KmemInv c ⟨s', p :: σ.live, σ.handed⟩ owner := by
  have hp := ht.not_mem_live hc h ha
  have horigin : ∀ q ∈ σ.live, s'.origin q = σ.state.origin q := fun q hq => by
    have hne : q ≠ p := ne_of_mem_of_not_mem hq hp
    rw [horig, ht.origin, Function.update_of_ne hne]
  have hself : s'.origin p = a := by rw [horig, ht.origin, Function.update_self]
  have hfilter : ∀ b, (σ.live.filter fun q => s'.origin q = b) = liveOf σ b := fun b =>
    List.filter_congr fun q hq => by rw [horigin q hq]
  have honly : OnlySlab owner a σ.state
      (putSlab s₁ a fun slab => { slab with free := slab.free - 1 }) := by
    refine { ht.only with slab := fun b hb => ?_, pages := ?_ }
    · rw [putSlab_of_ne hb, ht.only.slab b hb]
    · rw [putSlab_self, ht.only.pages]
  refine h.step (a := a) (fun b hb => by rw [hslab, honly.slab b hb])
    (by rw [hslab, honly.pages]) hlisted hperm
    (fun b hb hmem => hinv b _ ((h.slab b hmem).of_onlySlab honly hb)) (hinv a _ ?_)
    (List.nodup_cons.mpr ⟨hp, h.live_nodup⟩) (fun q hq => ?_) fun b hb => ?_
  · have hlive : liveOf ⟨s', p :: σ.live, σ.handed⟩ a = p :: liveOf σ a := by
      rw [liveOf, List.filter_cons_of_pos (by simp [hself]), hfilter]
    rw [hlive]
    exact ht.inv
  · rcases List.mem_cons.mp hq with rfl | hq
    · exact hself ▸ ha
    · exact horigin q hq ▸ h.origin q hq
  · rw [liveOf, List.filter_cons_of_neg (by simp [hself, Ne.symm hb]), hfilter]

theorem homeList_of_onlySlab {s s' : KmemState} (h : OnlySlab owner a s s') (home : Home) :
    homeList s' home = homeList s home := by
  cases home with
  | free => exact h.freeList
  | part => exact h.partList
  | full => exact h.fullList

/-- The state after an object was returned by `kmem_cache_alloc`. -/
def Allocated (c : KmemCache) (σ : KmemRun) (owner : ℕ → ℕ) (r : Option ℕ) (s' : KmemState) :
    Prop :=
  ∃ p, r = some p ∧ KmemInv c ⟨s', p :: σ.live, σ.handed⟩ owner ∧ s'.freed = σ.state.freed

theorem ensures_allocPart (hc : CacheOk c size align) (h : KmemInv c σ owner)
    (ha : a ∈ σ.state.partList) :
    Ensures (allocPart c a) σ.state (Allocated c σ owner) := by
  have hmem : a ∈ slabs σ.state := mem_slabs.mpr ⟨.part, ha⟩
  obtain ⟨hpos, hlt⟩ := h.listed.fits .part a ha
  rw [allocPart, ensures_bind]
  refine (ensures_slabAlloc hc (h.slab a hmem) hpos).mono fun p s₁ ht => ?_
  have hlists : ∀ home, homeList (putSlab s₁ a fun slab => { slab with free := slab.free - 1 }) home
      = homeList σ.state home := fun home => homeList_of_onlySlab ht.only home
  have hslab : ∀ b ≠ a, (putSlab s₁ a fun slab => { slab with free := slab.free - 1 }).slab b
      = σ.state.slab b := fun b hb => by rw [putSlab_of_ne hb, ht.only.slab b hb]
  have hcounts : ((putSlab s₁ a fun slab => { slab with free := slab.free - 1 }).slab a).free
      = (σ.state.slab a).free - 1 := by rw [putSlab_self, ht.free]
  have htotal : ((putSlab s₁ a fun slab => { slab with free := slab.free - 1 }).slab a).total
      = (σ.state.slab a).total := by rw [putSlab_self, ht.total]
  simp only [ensures_bind, ensures_modifySlab, ensures_get, ensures_ite, ensures_modify,
    ensures_pure, listDel]
  refine ⟨fun hzero => ⟨p, rfl, ?_, ht.only.freed⟩, fun hzero => ⟨p, rfl, ?_, ht.only.freed⟩⟩
  · have hlisted := h.listed.moved .full hmem hlists hslab hzero
    exact h.taken hc hmem ht rfl rfl (fun b L hb => hb.moved .full) hlisted
      (mem_slabs_moved .full h.listed hmem hlists)
  · refine h.taken hc hmem ht rfl rfl (fun b L hb => hb) ?_ fun b => ?_
    · exact h.listed.stay .part ha hlists hslab
        ⟨Nat.pos_of_ne_zero hzero, by rw [hcounts, htotal]; omega⟩
    · rw [slabs_congr hlists]

theorem ensures_allocFree (hc : CacheOk c size align) (h : KmemInv c σ owner)
    (ha : a ∈ σ.state.freeList) :
    Ensures (allocFree c a) σ.state (Allocated c σ owner) := by
  have hmem : a ∈ slabs σ.state := mem_slabs.mpr ⟨.free, ha⟩
  have hfull : (σ.state.slab a).free = (σ.state.slab a).total := h.listed.fits .free a ha
  -- a slab has room for two objects, so it does not fill up at once
  have htwo : 2 ≤ (σ.state.slab a).total := by
    rw [(h.slab a hmem).total]
    exact hc.count (h.order_lt a hmem)
  rw [allocFree, ensures_bind]
  refine (ensures_slabAlloc hc (h.slab a hmem) (by omega)).mono fun p s₁ ht => ?_
  have hlists : ∀ home, homeList (putSlab s₁ a fun slab => { slab with free := slab.free - 1 }) home
      = homeList σ.state home := fun home => homeList_of_onlySlab ht.only home
  have hslab : ∀ b ≠ a, (putSlab s₁ a fun slab => { slab with free := slab.free - 1 }).slab b
      = σ.state.slab b := fun b hb => by rw [putSlab_of_ne hb, ht.only.slab b hb]
  simp only [ensures_bind, ensures_modifySlab, ensures_modify, ensures_pure, listDel]
  have hlisted := h.listed.moved .part hmem hlists hslab (by
    rw [putSlab_self]
    simp only [Home.Fits, ht.free, ht.total]
    omega)
  exact ⟨p, rfl, h.taken hc hmem ht rfl rfl (fun b L hb => hb.moved .part) hlisted
    (mem_slabs_moved .part h.listed hmem hlists), ht.only.freed⟩

/-- Tying the pages to a slab, page by page. -/
theorem ensures_setPageSlab {s : KmemState} {page : ℕ} (m : ℕ) {Q : Unit → KmemState → Prop} :
    Ensures (setPageSlab page a m) s Q ↔
      Q () { s with
        pageSlab := fun q => if page ≤ q ∧ q < page + m then a else s.pageSlab q } := by
  induction m generalizing Q with
  | zero =>
    have hnone : ∀ q, ¬ (page ≤ q ∧ q < page + 0) := by omega
    simp only [setPageSlab, ensures_pure, hnone, if_false]
  | succ m ih =>
    simp only [setPageSlab, ensures_bind, ih, ensures_modify]
    have hstep : Function.update (fun q => if page ≤ q ∧ q < page + m then a else s.pageSlab q)
        (page + m) a = fun q => if page ≤ q ∧ q < page + (m + 1) then a else s.pageSlab q := by
      funext q
      by_cases hq : q = page + m
      · subst hq
        rw [Function.update_self, if_pos (by omega)]
      · rw [Function.update_of_ne hq]
        exact if_congr (by omega) rfl rfl
    rw [hstep]

theorem ensures_cacheGrow {env : KmemEnv} (hc : CacheOk c size align) (hf : Fresh c σ env)
    (h : KmemInv c σ owner) (fuel : ℕ) :
    Ensures (cacheGrow fuel c env) σ.state fun ok s' =>
      (ok = false ∧ s' = σ.state) ∨
      (ok = true ∧ ∃ a owner', s'.freeList = a :: σ.state.freeList ∧
        s'.freed = σ.state.freed ∧
        KmemInv c ⟨s', σ.live, newStructs c env ++ σ.handed⟩ owner') := by
  rw [cacheGrow]
  cases hpage : env.pages with
  | none => simp
  | some page =>
    simp only [ensures_bind]
    refine (ensures_slabCreate hc hf.served fuel page σ.state).mono ?_
    rintro _ s₁ ⟨a, rfl, hnew, hcr, htotal, hfree, hinv⟩
    simp only [ensures_bind, ensures_setPageSlab, ensures_modifySlab, ensures_modify, ensures_pure]
    refine Or.inr ⟨trivial, a, newOwner c env page a owner, ?_, hcr.freed, ?_⟩
    · exact congrArg (a :: ·) hcr.freeList
    · have hgrown := h.grown hc hf hpage hnew hcr htotal hfree hinv
      rw [← hcr.freeList] at hgrown
      exact hgrown

/-- A grown cache forgets nothing when it does not use what it was offered. -/
theorem KmemInv.handed_append (h : KmemInv c σ owner) {l : List (ℕ × ℕ)}
    (hl : ∀ x ∈ l, ∀ a ∈ slabs σ.state, Outside c (σ.state.slab a).pages x.1 x.2) :
    KmemInv c ⟨σ.state, σ.live, l ++ σ.handed⟩ owner where
  listed := h.listed
  slab := h.slab
  apart := h.apart
  order_lt := h.order_lt
  live_nodup := h.live_nodup
  origin := h.origin
  handed_slab hk a ha := ⟨(h.handed_slab hk a ha).1, List.mem_append_right _ (h.handed_slab hk a ha).2⟩
  handed_tag hk t ht := List.mem_append_right _ (h.handed_tag hk t ht)
  outside x hx a ha := by
    rcases List.mem_append.mp hx with hx | hx
    · exact hl x hx a ha
    · exact h.outside x hx a ha

/-- **Allocation.** The call returns, with an object or not. -/
theorem ensures_cacheAlloc {env : KmemEnv} (hc : CacheOk c size align) (hf : Fresh c σ env)
    (h : KmemInv c σ owner) (fuel : ℕ) :
    Ensures (cacheAlloc fuel c env) σ.state fun r s' => s'.freed = σ.state.freed ∧
      ∃ owner', KmemInv c ⟨s', r.toList ++ σ.live, newStructs c env ++ σ.handed⟩ owner' := by
  have h' := h.handed_append hf.outside_old
  rw [cacheAlloc, ensures_bind, ensures_get]
  cases hpart : σ.state.partList with
  | cons a l =>
    have hmem : a ∈ σ.state.partList := by simp [hpart]
    refine (ensures_allocPart hc h' hmem).mono ?_
    rintro _ s' ⟨p, rfl, hinv, hfreed⟩
    exact ⟨hfreed, owner, hinv⟩
  | nil =>
    simp only [ensures_bind]
    have hgrow : Ensures (growIfEmpty fuel c env) σ.state fun ok s' =>
        s'.freed = σ.state.freed ∧ (∃ owner',
          KmemInv c ⟨s', σ.live, newStructs c env ++ σ.handed⟩ owner') ∧
        (ok = true → s'.freeList ≠ []) := by
      rw [growIfEmpty, ensures_bind, ensures_get]
      cases hfree : σ.state.freeList with
      | cons a l =>
        rw [ensures_pure]
        exact ⟨rfl, ⟨owner, h'⟩, fun _ => by simp [hfree]⟩
      | nil =>
        refine (ensures_cacheGrow hc hf h fuel).mono ?_
        rintro ok s' (⟨rfl, rfl⟩ | ⟨rfl, a, owner', hlist, hfreed, hinv⟩)
        · exact ⟨rfl, ⟨owner, h'⟩, by simp⟩
        · exact ⟨hfreed, ⟨owner', hinv⟩, fun _ => by simp [hlist]⟩
    refine hgrow.mono ?_
    rintro ok s₁ ⟨hfreed, ⟨owner', hinv⟩, hne⟩
    cases ok with
    | false =>
      simp only [Bool.false_eq_true, if_false, ensures_pure]
      exact ⟨hfreed, owner', hinv⟩
    | true =>
      simp only [if_true, ensures_bind, ensures_get]
      cases hlist : s₁.freeList with
      | nil => exact absurd hlist (hne rfl)
      | cons a l =>
        have hmem : a ∈ s₁.freeList := by simp [hlist]
        refine (ensures_allocFree hc hinv hmem).mono ?_
        rintro _ s' ⟨p, rfl, hinv', hfreed'⟩
        exact ⟨hfreed'.trans hfreed, owner', hinv'⟩

/-! ### Release -/

/-- The page an object lies on leads back to the slab it came from. -/
theorem KmemInv.pageSlab_eq (hc : CacheOk c size align) (h : KmemInv c σ owner)
    (hp : p ∈ σ.live) : σ.state.pageSlab (addrPfn p) = σ.state.origin p := by
  have hs := stride_pos hc
  have hle := objectBytes_le c
  obtain ⟨h₁, h₂⟩ := bounds_of_mem_objects (h.mem_objects hp)
  obtain ⟨i, hi, hpfn⟩ := addrPfn_of_bounds (c := c) h₁ (by omega)
  rw [hpfn]
  exact (h.slab _ (h.origin p hp)).backPtr i hi

/-- The object returned to `a` leaves the live ones. -/
theorem KmemInv.returned {s₁ s' : KmemState} (h : KmemInv c σ owner)
    (ha : σ.state.origin p = a) (hr : Returned c owner a (liveOf σ a) σ.state p s₁)
    (hslab : s'.slab = (putSlab s₁ a fun slab => { slab with free := slab.free + 1 }).slab)
    (horig : s'.origin = s₁.origin)
    (hinv : ∀ b L, SlabInv c (putSlab s₁ a fun slab => { slab with free := slab.free + 1 }) owner
      b L → SlabInv c s' owner b L)
    (hlisted : Listed s') (hperm : ∀ b, b ∈ slabs s' ↔ b ∈ slabs σ.state) :
    KmemInv c ⟨s', σ.live.erase p, σ.handed⟩ owner := by
  have horigin : s'.origin = σ.state.origin := horig.trans hr.origin
  have hlive : ∀ b, liveOf ⟨s', σ.live.erase p, σ.handed⟩ b = (liveOf σ b).erase p := fun b => by
    rw [liveOf, liveOf, (h.live_nodup.filter _).erase_eq_filter, h.live_nodup.erase_eq_filter,
      List.filter_filter, List.filter_filter, horigin]
    exact List.filter_congr fun q _ => Bool.and_comm _ _
  have honly : OnlySlab owner a σ.state
      (putSlab s₁ a fun slab => { slab with free := slab.free + 1 }) := by
    refine { hr.only with slab := fun b hb => ?_, pages := ?_ }
    · rw [putSlab_of_ne hb, hr.only.slab b hb]
    · rw [putSlab_self, hr.only.pages]
  refine h.step (a := a) (fun b hb => by rw [hslab, honly.slab b hb])
    (by rw [hslab, honly.pages]) hlisted hperm
    (fun b hb hmem => hinv b _ ((h.slab b hmem).of_onlySlab honly hb)) (hinv a _ ?_)
    (h.live_nodup.erase p) (fun q hq => ?_) fun b hb => ?_
  · rw [hlive]
    exact hr.inv
  · rw [horigin]
    exact h.origin q (List.mem_of_mem_erase hq)
  · rw [hlive]
    refine List.erase_of_not_mem fun hmem => hb ?_
    have hpb := (List.mem_filter.mp hmem).2
    exact (of_decide_eq_true hpb).symm.trans ha

/-- **Release.** -/
theorem ensures_cacheFree (hc : CacheOk c size align) (h : KmemInv c σ owner) (hp : p ∈ σ.live) :
    Ensures (cacheFree c p) σ.state fun _ s' =>
      KmemInv c ⟨s', σ.live.erase p, σ.handed⟩ owner ∧ s'.freed = σ.state.freed := by
  have hmem := h.origin p hp
  have hL : p ∈ liveOf σ (σ.state.origin p) := List.mem_filter.mpr ⟨hp, by simp⟩
  have hback := h.pageSlab_eq hc hp
  simp only [cacheFree, getSlab, ensures_bind, ensures_get, ensures_pure, hback]
  generalize ha : σ.state.origin p = a at hmem hL
  refine (ensures_slabFree hc (h.slab a hmem) hL).mono fun _ s₁ hr => ?_
  have hlists : ∀ home, homeList (putSlab s₁ a fun slab => { slab with free := slab.free + 1 }) home
      = homeList σ.state home := fun home => homeList_of_onlySlab hr.only home
  have hslab : ∀ b ≠ a, (putSlab s₁ a fun slab => { slab with free := slab.free + 1 }).slab b
      = σ.state.slab b := fun b hb => by rw [putSlab_of_ne hb, hr.only.slab b hb]
  have hfree : ((putSlab s₁ a fun slab => { slab with free := slab.free + 1 }).slab a).free
      = (σ.state.slab a).free + 1 := by rw [putSlab_self, hr.free]
  have htotal : ((putSlab s₁ a fun slab => { slab with free := slab.free + 1 }).slab a).total
      = (σ.state.slab a).total := by rw [putSlab_self, hr.total]
  have hsum := (h.slab a hmem).free_add_length
  have hLpos : 0 < (liveOf σ a).length := List.length_pos_of_mem hL
  have htwo : 2 ≤ (σ.state.slab a).total := by
    rw [(h.slab a hmem).total]
    exact hc.count (h.order_lt a hmem)
  simp only [ensures_modifySlab, relistFreed, ensures_bind, ensures_get, ensures_ite, listDel,
    ensures_modify, hfree, htotal]
  refine ⟨fun hall => ⟨?_, hr.only.freed⟩, fun hall => ⟨fun hone => ⟨?_, hr.only.freed⟩,
    fun hone => ?_⟩⟩
  · have hlisted := h.listed.moved .free hmem hlists hslab (by
      simp only [Home.Fits, hfree, htotal]
      exact hall)
    exact h.returned ha hr rfl rfl (fun b L hb => hb.moved .free) hlisted
      (mem_slabs_moved .free h.listed hmem hlists)
  · have hlisted := h.listed.moved .part hmem hlists hslab (by
      simp only [Home.Fits, hfree, htotal]
      omega)
    exact h.returned ha hr rfl rfl (fun b L hb => hb.moved .part) hlisted
      (mem_slabs_moved .part h.listed hmem hlists)
  · -- the slab was on the partial list and stays there
    obtain ⟨home, hhome⟩ := mem_slabs.mp hmem
    have hfit := h.listed.fits home a hhome
    have hpart : home = .part := by
      cases home with
      | free =>
        simp only [Home.Fits] at hfit
        omega
      | part => rfl
      | full =>
        simp only [Home.Fits] at hfit
        omega
    subst hpart
    rw [ensures_pure]
    refine ⟨h.returned ha hr rfl rfl (fun b L hb => hb) ?_ fun b => ?_, hr.only.freed⟩
    · refine h.listed.stay .part hhome hlists hslab ?_
      simp only [Home.Fits, hfree, htotal] at hfit ⊢
      omega
    · rw [slabs_congr hlists]

/-! ### Reaping -/

theorem ensures_reapLoop (hk : c.kind = .small) {fuel : ℕ} {l : List ℕ} {s : KmemState}
    {Q : Unit → KmemState → Prop} :
    Ensures (reapLoop fuel c l) s Q ↔
      Q () { s with freed := (l.map fun a => (s.slab a).pages).reverse ++ s.freed } := by
  induction l generalizing s with
  | nil => simp [reapLoop]
  | cons a l ih =>
    simp only [reapLoop, slabDestroy, hk, ensures_bind, ensures_get, ensures_pure, ensures_modify,
      ih, List.map_cons, List.reverse_cons, List.append_assoc, List.singleton_append]

/-- The slabs without live objects are those on the free list. -/
theorem KmemInv.mem_freeList_iff (hc : CacheOk c size align) (h : KmemInv c σ owner)
    (ha : a ∈ slabs σ.state) : liveOf σ a = [] ↔ a ∈ σ.state.freeList := by
  have hsum := (h.slab a ha).free_add_length
  have htwo : 2 ≤ (σ.state.slab a).total := by
    rw [(h.slab a ha).total]
    exact hc.count (h.order_lt a ha)
  constructor
  · intro hnil
    rw [hnil, List.length_nil] at hsum
    obtain ⟨home, hhome⟩ := mem_slabs.mp ha
    have hfit := h.listed.fits home a hhome
    cases home with
    | free => exact hhome
    | part =>
      simp only [Home.Fits] at hfit
      omega
    | full =>
      simp only [Home.Fits] at hfit
      omega
  · intro hfree
    have hfit : (σ.state.slab a).free = (σ.state.slab a).total := h.listed.fits .free a hfree
    exact List.eq_nil_of_length_eq_zero (by omega)

/-- The state after `kmem_cache_reap`. -/
def reaped (s : KmemState) : KmemState :=
  { s with
    freeList := []
    freed := (s.freeList.map fun a => (s.slab a).pages).reverse ++ s.freed }

/-- **Reaping** a small cache keeps the slabs with live objects. -/
theorem KmemInv.reaped (hc : CacheOk c size align) (hk : c.kind = .small)
    (h : KmemInv c σ owner) : KmemInv c ⟨Kmem.reaped σ.state, σ.live, σ.handed⟩ owner := by
  have hsub : ∀ a ∈ slabs (Kmem.reaped σ.state), a ∈ slabs σ.state := fun a ha => by
    simp only [slabs, Kmem.reaped, List.nil_append, List.mem_append] at ha ⊢
    tauto
  have hlarge : c.kind ≠ .large := by simp [hk]
  refine ⟨⟨?_, fun home a ha => ?_⟩, fun a ha => ?_, fun a ha b hb => h.apart a (hsub a ha) b
    (hsub b hb), fun a ha => h.order_lt a (hsub a ha), h.live_nodup, fun p hp => ?_,
    fun hk' => absurd hk' hlarge, fun hk' => absurd hk' hlarge, fun x hx a ha =>
    h.outside x hx a (hsub a ha)⟩
  · have hnd := h.listed.nodup
    simp only [slabs, Kmem.reaped, List.nil_append, List.append_assoc] at hnd ⊢
    exact (List.nodup_append.mp hnd).2.1
  · cases home with
    | free => exact absurd ha List.not_mem_nil
    | part => exact h.listed.fits .part a ha
    | full => exact h.listed.fits .full a ha
  · exact (h.slab a (hsub a ha)).congr rfl (fun _ _ => rfl) (fun _ _ _ => ⟨rfl, rfl⟩)
      fun _ _ ht => ⟨rfl, ht⟩
  · -- a slab with a live object is not on the free list
    have hmem := h.origin p hp
    have hL : p ∈ liveOf σ (σ.state.origin p) := List.mem_filter.mpr ⟨hp, by simp⟩
    have hfree : σ.state.origin p ∉ σ.state.freeList := fun hf => by
      rw [(h.mem_freeList_iff hc hmem).mpr hf] at hL
      exact List.not_mem_nil hL
    simp only [slabs, Kmem.reaped, List.nil_append, List.mem_append] at hmem ⊢
    tauto

theorem ensures_cacheReap (hk : c.kind = .small) {fuel : ℕ} {s : KmemState}
    {Q : Unit → KmemState → Prop} :
    Ensures (cacheReap fuel c) s Q ↔ Q () (Kmem.reaped s) := by
  simp only [cacheReap, ensures_bind, ensures_get, ensures_modify, ensures_reapLoop hk,
    Kmem.reaped]

/-- The blocks of the slabs are all different. -/
theorem KmemInv.pages_injective (h : KmemInv c σ owner) {b : ℕ} (ha : a ∈ slabs σ.state)
    (hb : b ∈ slabs σ.state) (heq : (σ.state.slab a).pages = (σ.state.slab b).pages) : a = b := by
  by_contra hne
  exact h.apart a ha b hb hne 0 (Nat.two_pow_pos _) 0 (Nat.two_pow_pos _) (by rw [heq])

/-! ### Stores -/

/-- The byte ranges `[x, x + n)` and `[y, y + m)` are disjoint. -/
def Clear (x n y m : ℕ) : Prop :=
  x + n ≤ y ∨ y + m ≤ x

/-- A client stored into the bytes of its object, and into no others. -/
structure Stored (size p : ℕ) (s s' : KmemState) : Prop where
  slab : ∀ a n, n = smallSlabSize ∨ n = 72 → Clear p size a n → s'.slab a = s.slab a
  border : ∀ t, Clear p size t 8 → s'.border t = s.border t
  tag : ∀ t, Clear p size t 16 → s'.tag t = s.tag t
  pageSlab : s'.pageSlab = s.pageSlab
  freeList : s'.freeList = s.freeList
  partList : s'.partList = s.partList
  fullList : s'.fullList = s.fullList
  freed : s'.freed = s.freed
  origin : s'.origin = s.origin

/-- Blocks without a common page have no byte in common. -/
theorem PagesApart.regions {page page' : ℕ} (h : PagesApart c page page') :
    pageAddr page + slabBytes c ≤ pageAddr page' ∨ pageAddr page' + slabBytes c ≤ pageAddr page := by
  have hpos := Nat.two_pow_pos c.order
  have hcase : page + 2 ^ c.order ≤ page' ∨ page' + 2 ^ c.order ≤ page := by
    by_contra hcon
    rcases Nat.le_total page page' with hle | hle
    · exact h (page' - page) (by omega) 0 hpos (by omega)
    · exact h 0 hpos (page - page') (by omega) (by omega)
  rw [slabBytes, pageAddr, pageAddr, Nat.mul_comm pageSize]
  rcases hcase with hle | hle
  · have := Nat.mul_le_mul_right pageSize hle
    rw [Nat.add_mul] at this
    omega
  · have := Nat.mul_le_mul_right pageSize hle
    rw [Nat.add_mul] at this
    omega

section Clear

variable (hc : CacheOk c size align) (h : KmemInv c σ owner) (hp : p ∈ σ.live)
include hc h hp

/-- A live object lies inside the usable part of its slab. -/
theorem KmemInv.live_inside :
    pageAddr (σ.state.slab (σ.state.origin p)).pages ≤ p ∧
      p + c.objectSize ≤ pageAddr (σ.state.slab (σ.state.origin p)).pages + objectBytes c := by
  obtain ⟨h₁, h₂⟩ := bounds_of_mem_objects (h.mem_objects hp)
  have := objectSize_le_stride hc
  exact ⟨h₁, by omega⟩

/-- Two live objects do not overlap. -/
theorem KmemInv.clear_live {q : ℕ} (hq : q ∈ σ.live) (hne : q ≠ p) : Clear p size q size := by
  have hs := objectSize_le_stride hc
  have hsize := hc.size_le
  by_cases hsame : σ.state.origin q = σ.state.origin p
  · have hqm := h.mem_objects hq
    rw [hsame] at hqm
    rcases apart_of_mem_objects (h.mem_objects hp) hqm (Ne.symm hne) with hle | hle
    · exact Or.inl (by omega)
    · exact Or.inr (by omega)
  · have hreg := (h.apart _ (h.origin q hq) _ (h.origin p hp) hsame).regions
    have hle := objectBytes_le c
    obtain ⟨h₁, h₂⟩ := h.live_inside hc hp
    obtain ⟨h₃, h₄⟩ := h.live_inside hc hq
    unfold Clear
    omega

/-- A live object overlaps no header stored in the pages. -/
theorem KmemInv.clear_header (hk : c.kind = .small) (ha : a ∈ slabs σ.state) :
    Clear p size a smallSlabSize := by
  have hsize := hc.size_le
  obtain ⟨h₁, h₂⟩ := h.live_inside hc hp
  obtain ⟨-, -, F, -, -, htags⟩ := h.slab a ha
  simp only [SlabTags, hk] at htags
  have hat := htags.1
  have hend : objectBytes c + smallSlabSize = slabBytes c := by
    simp only [objectBytes, hk]
    exact Nat.sub_add_cancel (hc.header hk)
  by_cases hsame : a = σ.state.origin p
  · rw [← hsame] at h₂
    exact Or.inl (by omega)
  · have hreg := (h.apart _ ha _ (h.origin p hp) hsame).regions
    unfold Clear
    omega

/-- A live object overlaps no border tag. -/
theorem KmemInv.clear_border (hk : c.kind = .small) (ha : a ∈ slabs σ.state) {q : ℕ}
    (hq : q ∈ objects c (σ.state.slab a).pages) : Clear p size (q + c.objectSize) 8 := by
  have hsize := hc.size_le
  have hborder := hc.border hk
  have hs : stride c = c.paddedSize := by simp only [stride, hk]
  by_cases hsame : a = σ.state.origin p
  · rw [hsame] at hq
    by_cases hqp : q = p
    · exact Or.inl (by omega)
    · rcases apart_of_mem_objects (h.mem_objects hp) hq (Ne.symm hqp) with hle | hle
      · exact Or.inl (by omega)
      · exact Or.inr (by omega)
  · have hreg := (h.apart _ ha _ (h.origin p hp) hsame).regions
    have hle := objectBytes_le c
    obtain ⟨h₁, h₂⟩ := h.live_inside hc hp
    obtain ⟨h₃, h₄⟩ := bounds_of_mem_objects hq
    unfold Clear
    omega

/-- A live object overlaps no structure kept outside the pages. -/
theorem KmemInv.clear_handed {x : ℕ × ℕ} (hx : x ∈ σ.handed) : Clear p size x.1 x.2 := by
  have hsize := hc.size_le
  have hle := objectBytes_le c
  obtain ⟨h₁, h₂⟩ := h.live_inside hc hp
  have hout := h.outside x hx _ (h.origin p hp)
  unfold Outside at hout
  unfold Clear
  omega

/-- **Stores** of a client into its object are not seen by the cache. -/
theorem KmemInv.stored {s' : KmemState} (hst : Stored size p σ.state s') :
    KmemInv c ⟨s', σ.live, σ.handed⟩ owner := by
  have hlists : ∀ home, homeList s' home = homeList σ.state home := fun home => by
    cases home with
    | free => exact hst.freeList
    | part => exact hst.partList
    | full => exact hst.fullList
  have hslabs := slabs_congr hlists
  have hslab : ∀ a ∈ slabs σ.state, s'.slab a = σ.state.slab a := fun a ha => by
    cases hk : c.kind with
    | small => exact hst.slab a _ (Or.inl rfl) (h.clear_header hc hp hk ha)
    | large =>
      exact hst.slab a 72 (Or.inr rfl) (h.clear_handed hc hp (h.handed_slab hk a ha).2)
  have hlive : ∀ b, liveOf ⟨s', σ.live, σ.handed⟩ b = liveOf σ b := fun b => by
    simp only [liveOf, hst.origin]
  refine ⟨⟨hslabs ▸ h.listed.nodup, fun home a ha => ?_⟩, fun a ha => ?_, fun a ha b hb hne => ?_,
    fun a ha => h.order_lt a (hslabs ▸ ha), h.live_nodup, fun q hq => ?_, fun hk a ha =>
    h.handed_slab hk a (hslabs ▸ ha), h.handed_tag, fun x hx a ha => ?_⟩
  · rw [hlists] at ha
    rw [hslab a (mem_slabs.mpr ⟨home, ha⟩)]
    exact h.listed.fits home a ha
  · have ha' : a ∈ slabs σ.state := hslabs ▸ ha
    rw [hlive]
    refine (h.slab a ha').congr (hslab a ha') (fun i _ => by rw [hst.pageSlab])
      (fun q hq hk => ⟨hst.border _ (h.clear_border hc hp hk ha' hq), rfl⟩)
      fun hk t ht => ⟨hst.tag t ?_, ht⟩
    exact h.clear_handed hc hp (h.handed_tag hk t (ht.symm ▸ (h.handed_slab hk a ha').1))
  · have ha' : a ∈ slabs σ.state := hslabs ▸ ha
    have hb' : b ∈ slabs σ.state := hslabs ▸ hb
    rw [hslab a ha', hslab b hb']
    exact h.apart a ha' b hb' hne
  · rw [hslabs, hst.origin]
    exact h.origin q hq
  · have ha' : a ∈ slabs σ.state := hslabs ▸ ha
    rw [hslab a ha']
    exact h.outside x hx a ha'

end Clear

end Inv

end Kmem

end Kernel64
