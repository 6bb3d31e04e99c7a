import Kernel64.Zones.Runs

/-!
# Page frames and their pages

`pfn2page` takes the first node that ends after a page frame, and does not look where the node begins. So it
finds the page of every page frame of a node, and nothing above the nodes, but a page frame in a gap before a
node has a page outside of the node's array.
-/

namespace Kernel64

namespace Zones

open Balloc (Pool Pools PoolOk sub64 align64 maxAreasCount)

/-- The page frame is in a node. -/
def Covered (m : Memory) (pfn : ℕ) : Prop :=
  ∃ i < m.memoryNodes, (m.nodes i).beginPfn ≤ pfn ∧ pfn < (m.nodes i).endPfn

/-- The page is in the array of its node. -/
def IsPage (m : Memory) (page : ℕ × ℕ) : Prop :=
  page.1 < m.memoryNodes ∧ page.2 < (m.nodes page.1).nodePfns

/-- `pfn2page` finds the page of a page frame if there is one, and `page2pfn` tells the pages apart. -/
structure LookupOk (m : Memory) (pfn : ℕ) : Prop where
  found : Covered m pfn → ∃ page, pfn2page m pfn = some page ∧ page2pfn m page = some pfn
  missing : ¬Covered m pfn → pfn2page m pfn = none
  distinct : ∀ p q, IsPage m p → IsPage m q → page2pfn m p = page2pfn m q → p = q

/-- No two nodes overlap. -/
def NodesApart (m : Memory) : Prop :=
  ∀ i j, i < m.memoryNodes → j < m.memoryNodes → i ≠ j →
    (m.nodes i).endPfn ≤ (m.nodes j).beginPfn ∨ (m.nodes j).endPfn ≤ (m.nodes i).beginPfn

/-- The first node that ends after the page frame begins after it, too. -/
def InGap (m : Memory) (pfn : ℕ) : Prop :=
  ∃ i < m.memoryNodes, (∀ j < i, (m.nodes j).endPfn ≤ pfn) ∧ pfn < (m.nodes i).beginPfn

section

variable {all : Pool} {m : Memory} {l : List Span} {i j pfn : ℕ}

theorem pfnNode_eq_some : pfnNode m pfn = some i ↔
    i < m.memoryNodes ∧ pfn < (m.nodes i).endPfn ∧ ∀ j < i, (m.nodes j).endPfn ≤ pfn := by
  rw [pfnNode, List.find?_range_eq_some]
  simp only [Bool.not_eq_true', decide_eq_false_iff_not, not_le, List.mem_range, Bool.not_not,
    decide_eq_true_eq]
  tauto

theorem pfnNode_eq_none : pfnNode m pfn = none ↔ ∀ i < m.memoryNodes, (m.nodes i).endPfn ≤ pfn := by
  rw [pfnNode, List.find?_eq_none]
  simp

/-- The bounds of a node. -/
theorem Made.bounds (h : Made (poolSpans all all.size) m) (hi : i < m.memoryNodes) :
    (m.nodes i).beginPfn < (m.nodes i).endPfn ∧ (m.nodes i).endPfn ≤ 2 ^ 24 := by
  rw [h.count] at hi
  have hok := ok_of_mem_poolSpans (List.getElem_mem hi)
  have hlt := hok.lt
  have hle := hok.le
  obtain ⟨a, ha⟩ := hok.begin_dvd
  obtain ⟨b, hb⟩ := hok.stop_dvd
  rw [h.begin i hi, h.stop i hi]
  unfold maxPhysSize at hle
  unfold pageSize at ha hb ⊢
  omega

/-- The page frame of a page. -/
theorem Made.page2pfn_eq (h : Made (poolSpans all all.size) m) {p : ℕ × ℕ} (hp : IsPage m p) :
    page2pfn m p = some ((m.nodes p.1).beginPfn + p.2) := by
  have hid := h.id p.1 (h.count ▸ hp.1) p.2
  unfold IsPage at hp
  rw [page2pfn, if_pos hp, hid, if_pos rfl]

theorem Made.isPage_iff (h : Made (poolSpans all all.size) m) {p : ℕ × ℕ} : IsPage m p ↔
    p.1 < m.memoryNodes ∧ (m.nodes p.1).beginPfn + p.2 < (m.nodes p.1).endPfn := by
  refine and_congr_right fun hi => ?_
  have := (h.bounds hi).1
  rw [MemoryNode.nodePfns]
  omega

/-- **A page frame that is not in a gap** has its page. -/
theorem Made.lookup_of_not_inGap (h : Made (poolSpans all all.size) m) (hgap : ¬InGap m pfn) :
    (Covered m pfn → ∃ page, pfn2page m pfn = some page ∧ page2pfn m page = some pfn) ∧
      (¬Covered m pfn → pfn2page m pfn = none) := by
  cases hnode : pfnNode m pfn with
  | none =>
    rw [pfn2page, hnode]
    refine ⟨fun ⟨i, hi, _, hlt⟩ => ?_, fun _ => rfl⟩
    have := pfnNode_eq_none.1 hnode i hi
    omega
  | some i =>
    obtain ⟨hi, hlt, hbefore⟩ := pfnNode_eq_some.1 hnode
    have hle : (m.nodes i).beginPfn ≤ pfn := by
      by_contra hc
      exact hgap ⟨i, hi, hbefore, Nat.lt_of_not_le hc⟩
    have hend := (h.bounds hi).2
    rw [pfn2page, hnode]
    refine ⟨fun _ => ⟨_, rfl, ?_⟩, fun hnot => absurd ⟨i, hi, hle, hlt⟩ hnot⟩
    rw [Balloc.sub64_eq hle (by omega), h.page2pfn_eq (h.isPage_iff.2 ⟨hi, by dsimp only; omega⟩)]
    exact congrArg some (Nat.add_sub_cancel' hle)

/-- **A page frame in a gap** is taken for a page outside of the node's array. -/
theorem Made.pfn2page_of_inGap (h : Made (poolSpans all all.size) m) (hgap : InGap m pfn) :
    ∃ page, pfn2page m pfn = some page ∧ ¬IsPage m page := by
  obtain ⟨i, hi, hbefore, hlt⟩ := hgap
  obtain ⟨hbe, hend⟩ := h.bounds hi
  have hnode : pfnNode m pfn = some i := pfnNode_eq_some.2 ⟨hi, by omega, hbefore⟩
  rw [pfn2page, hnode]
  refine ⟨_, rfl, fun hpage => ?_⟩
  have := (h.isPage_iff.1 hpage).2
  unfold sub64 at this
  dsimp only at this
  omega

theorem Made.distinct_iff (h : Made (poolSpans all all.size) m) :
    (∀ p q, IsPage m p → IsPage m q → page2pfn m p = page2pfn m q → p = q) ↔ NodesApart m := by
  constructor
  · intro hdist i j hi hj hne
    by_contra hc
    rw [not_or, not_le, not_le] at hc
    have hbi := h.bounds hi
    have hbj := h.bounds hj
    -- a page frame of both nodes
    have hp : IsPage m (i, max (m.nodes i).beginPfn (m.nodes j).beginPfn - (m.nodes i).beginPfn) :=
      h.isPage_iff.2 ⟨hi, by dsimp only; omega⟩
    have hq : IsPage m (j, max (m.nodes i).beginPfn (m.nodes j).beginPfn - (m.nodes j).beginPfn) :=
      h.isPage_iff.2 ⟨hj, by dsimp only; omega⟩
    refine hne (congrArg Prod.fst (hdist _ _ hp hq ?_))
    rw [h.page2pfn_eq hp, h.page2pfn_eq hq]
    dsimp only
    congr 1
    omega
  · intro hapart ⟨i, p⟩ ⟨j, q⟩ hp hq heq
    rw [h.page2pfn_eq hp, h.page2pfn_eq hq] at heq
    have heq := Option.some.inj heq
    have hp := h.isPage_iff.1 hp
    have hq := h.isPage_iff.1 hq
    dsimp only at heq hp hq
    obtain rfl : i = j := by
      by_contra hne
      have := hapart i j hp.1 hq.1 hne
      omega
    rw [Nat.add_left_cancel heq]

/-! ### Sorted regions -/

/-- The spans of a region lie in it. -/
theorem regionSpans_bounds {addr size : ℕ} {s : Span} (hs : s ∈ regionSpans addr size) :
    regionBegin addr ≤ s.begin ∧ s.stop ≤ regionEnd addr size := by
  rw [regionSpans] at hs
  split_ifs at hs with hempty hcross
  · simp at hs
  · simp only [List.mem_cons, List.not_mem_nil, or_false] at hs
    rcases hs with rfl | rfl
    · exact ⟨le_rfl, hcross.2.le⟩
    · exact ⟨hcross.1.le, le_rfl⟩
  · obtain rfl := List.mem_singleton.1 hs
    exact ⟨le_rfl, le_rfl⟩
  · obtain rfl := List.mem_singleton.1 hs
    exact ⟨le_rfl, le_rfl⟩

theorem pairwise_regionSpans (addr size : ℕ) :
    (regionSpans addr size).Pairwise fun s t => s.stop ≤ t.begin := by
  rw [regionSpans]
  split_ifs
  · exact List.Pairwise.nil
  · exact List.pairwise_pair.2 le_rfl
  · exact List.pairwise_singleton _ _
  · exact List.pairwise_singleton _ _

theorem le_regionBegin {addr : ℕ} (h : addr + pageSize ≤ 2 ^ 64) : addr ≤ regionBegin addr :=
  (Balloc.align64_spec (k := 12) h).1

theorem regionEnd_le_fin {a : Balloc.Area} (h : a.Ok) : regionEnd a.addr a.size ≤ a.fin := by
  refine (min_le_left _ _).trans ((Nat.div_mul_le_self _ _).trans_eq ?_)
  exact h.stop_eq

/-- The regions begin before the last page of the address space. -/
def Rounds (p : Pool) : Prop := ∀ i < p.size, (p.areas i).addr + pageSize ≤ 2 ^ 64

/-- The nodes of sorted regions are sorted. -/
theorem pairwise_poolSpans {p : Pool} (h : PoolOk p) (hround : Rounds p) :
    ∀ k ≤ p.size, (poolSpans p k).Pairwise fun s t => s.stop ≤ t.begin
  | 0, _ => List.Pairwise.nil
  | k + 1, hk => by
    rw [poolSpans_succ, List.pairwise_append]
    refine ⟨pairwise_poolSpans h hround k (by omega), ?_, fun s hs t ht => ?_⟩
    · exact pairwise_regionSpans _ _
    · obtain ⟨i, hi, hs⟩ := List.mem_flatMap.1 hs
      have hi := List.mem_range.1 hi
      have hstop := (regionSpans_bounds hs).2.trans (regionEnd_le_fin (h.area i (by omega)))
      have hbegin := (le_regionBegin (hround k hk)).trans (regionSpans_bounds ht).1
      have := h.gap i k hi hk
      omega

/-- The nodes are in the order of their page frames. -/
theorem Made.sorted (h : Made (poolSpans all all.size) m) (hall : PoolOk all) (hround : Rounds all)
    (hij : i < j) (hj : j < m.memoryNodes) : (m.nodes i).endPfn ≤ (m.nodes j).beginPfn := by
  rw [h.count] at hj
  rw [h.begin j hj, h.stop i (hij.trans hj)]
  refine Nat.div_le_div_right ?_
  exact List.pairwise_iff_getElem.1 (pairwise_poolSpans hall hround _ le_rfl) i j (hij.trans hj) hj hij

/-! ### Runs -/

/-- **Looking up a page frame.** In every state of a run, the page of a page frame is found, or none is if it
has none, and the pages have different page frames, if and only if the nodes do not overlap and the page frame
is not in a gap before a node. The nodes of sorted regions do not overlap, and then the page frames in a gap
are those in no node, before the end of one. -/
theorem zoneRun_lookup (hrun : ZoneRun all m) (pfn : ℕ) :
    (LookupOk m pfn ↔ NodesApart m ∧ ¬InGap m pfn) ∧
    (PoolOk all → Rounds all → NodesApart m ∧
      (InGap m pfn ↔ ¬Covered m pfn ∧ ∃ i < m.memoryNodes, pfn < (m.nodes i).endPfn)) := by
  have h := hrun.made.1
  refine ⟨⟨fun hok => ⟨h.distinct_iff.1 hok.distinct, fun hgap => ?_⟩, fun ⟨hapart, hgap⟩ => ?_⟩,
    fun hall hround => ⟨fun i j hi hj hne => ?_, ⟨fun hgap => ?_, fun ⟨hnot, i, hi, hlt⟩ => ?_⟩⟩⟩
  · obtain ⟨page, hpage, hout⟩ := h.pfn2page_of_inGap hgap
    by_cases hcov : Covered m pfn
    · obtain ⟨page', hpage', hpfn⟩ := hok.found hcov
      obtain rfl := Option.some.inj (hpage.symm.trans hpage')
      unfold IsPage at hout
      rw [page2pfn, if_neg hout] at hpfn
      exact nomatch hpfn
    · rw [hok.missing hcov] at hpage
      exact nomatch hpage
  · obtain ⟨hfound, hmissing⟩ := h.lookup_of_not_inGap hgap
    exact ⟨hfound, hmissing, h.distinct_iff.2 hapart⟩
  · rcases Nat.lt_or_gt_of_ne hne with hlt | hlt
    · exact Or.inl (h.sorted hall hround hlt hj)
    · exact Or.inr (h.sorted hall hround hlt hi)
  · obtain ⟨i, hi, hbefore, hlt⟩ := hgap
    refine ⟨fun ⟨j, hj, hbegin, hend⟩ => ?_, i, hi, hlt.trans (h.bounds hi).1⟩
    rcases Nat.lt_trichotomy j i with hji | rfl | hij
    · have := hbefore j hji
      omega
    · omega
    · have := h.sorted hall hround hij hj
      have := (h.bounds hi).1
      omega
  · -- the first of the nodes that end after the page frame
    cases hnode : pfnNode m pfn with
    | none =>
      have := pfnNode_eq_none.1 hnode i hi
      omega
    | some j =>
      obtain ⟨hj, hltj, hbefore⟩ := pfnNode_eq_some.1 hnode
      refine ⟨j, hj, hbefore, ?_⟩
      by_contra hc
      exact hnot ⟨j, hj, Nat.le_of_not_lt hc, hltj⟩

/-- The page frames 1, 2, 5 and 6: the page of page frame 5 is found. -/
theorem zoneRun_lookup_five : ∃ m, ZoneRun twoRegions.pools.all m ∧ LookupOk m 5 := by
  have hrun : returns setupBuddy twoRegions (fun _ m => m.memoryNodes = 2 &&
      decide ((m.nodes 0).beginPfn ≤ 5 ∧ (m.nodes 1).beginPfn ≤ 5)) = true := by
    decide +kernel
  obtain ⟨⟨⟩, m, hsetup, hm⟩ := returns_iff.1 hrun
  simp only [Bool.and_eq_true, decide_eq_true_eq] at hm
  obtain ⟨hcount, h₀, h₁⟩ := hm
  have hzone : ZoneRun twoRegions.pools.all m := .setup rfl circle_twoRegions rfl hsetup
  have hround : ∀ i < 2, (twoRegions.pools.all.areas i).addr + pageSize ≤ 2 ^ 64 := by decide
  obtain ⟨hiff, hsorted⟩ := zoneRun_lookup hzone 5
  refine ⟨m, hzone, hiff.2 ⟨(hsorted poolOk_twoRegions hround).1, fun ⟨i, hi, _, hlt⟩ => ?_⟩⟩
  rw [hcount] at hi
  rcases i with _ | _ | i
  · exact absurd hlt (Nat.not_lt_of_ge h₀)
  · exact absurd hlt (Nat.not_lt_of_ge h₁)
  · omega

/-- Page frame 4 is in no node, but it has a page: one before the array of the second node. -/
theorem not_lookupOk_four : ∃ m, ZoneRun twoRegions.pools.all m ∧ PoolOk twoRegions.pools.all ∧ ¬LookupOk m 4 := by
  have hrun : returns setupBuddy twoRegions (fun _ m => m.memoryNodes = 2 &&
      decide (((m.nodes 0).endPfn = 3 ∧ (m.nodes 1).beginPfn = 5) ∧ pfn2page m 4 ≠ none)) = true := by
    decide +kernel
  obtain ⟨⟨⟩, m, hsetup, hm⟩ := returns_iff.1 hrun
  simp only [Bool.and_eq_true, decide_eq_true_eq] at hm
  obtain ⟨hcount, ⟨h₀, h₁⟩, hpage⟩ := hm
  refine ⟨m, .setup rfl circle_twoRegions rfl hsetup, poolOk_twoRegions, fun hok => hpage (hok.missing ?_)⟩
  intro ⟨i, hi, hbegin, hend⟩
  rw [hcount] at hi
  rcases i with _ | _ | i
  · rw [h₀] at hend
    omega
  · rw [h₁] at hbegin
    omega
  · omega

end

end Zones

end Kernel64
