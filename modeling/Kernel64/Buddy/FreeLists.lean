import Kernel64.Buddy.Model
import Kernel64.Lists.Refine

/-!
# The free lists in memory

The free lists of a node are the lists of `list.h` whose heads are in `node->free_list` and whose entries are the
fields `link` of the page structures. What `list_add` and `list_del` do to them is what `MemoryNode.listAdd` and
`MemoryNode.listDel` say.
-/

namespace Kernel64

open Kernel64.Lists

/-- The free lists of a node in memory, by the addresses of the heads and of the fields `link`. -/
structure MemoryNode.InMemory {α : Type} [DecidableEq α] (n : MemoryNode) (m : Links α) (head link : ℕ → α) : Prop where
  lists : Family m head fun order => (n.freeList order).map link
  link_inj : link.Injective
  head_ne : ∀ order pfn, head order ≠ link pfn

namespace MemoryNode.InMemory

variable {α : Type} [DecidableEq α] {n : MemoryNode} {m : Links α} {head link : ℕ → α} {order pfn : ℕ}

/-- A page that is on no free list has its field `link` on none. -/
theorem not_mem (h : n.InMemory m head link) (hpfn : ∀ k, pfn ∉ n.freeList k) (k : ℕ) :
    link pfn ∉ head k :: (n.freeList k).map link := by
  rw [List.mem_cons, List.mem_map_of_injective h.link_inj]
  rintro (heq | hmem)
  · exact h.head_ne k pfn heq.symm
  · exact hpfn k hmem

/-- **`list_add(&page->link, &node->free_list[order])`** -/
theorem listAdd (h : n.InMemory m head link) (hpfn : ∀ k, pfn ∉ n.freeList k) :
    (n.listAdd pfn order).InMemory (Lists.listAdd m (link pfn) (head order)) head link := by
  refine ⟨?_, h.link_inj, h.head_ne⟩
  have hentries : (fun k => ((n.listAdd pfn order).freeList k).map link) =
      Function.update (fun k => (n.freeList k).map link) order (link pfn :: (n.freeList order).map link) := by
    funext k
    by_cases hk : k = order
    · subst hk
      simp [MemoryNode.listAdd]
    · simp [MemoryNode.listAdd, hk]
  rw [hentries]
  exact h.lists.add (h.not_mem hpfn)

/-- **`list_del(&page->link)`** -/
theorem listDel (h : n.InMemory m head link) (hpfn : pfn ∈ n.freeList order) :
    (n.listDel pfn).InMemory (Lists.listDel m (link pfn)) head link := by
  refine ⟨?_, h.link_inj, h.head_ne⟩
  have hentries : (fun k => ((n.listDel pfn).freeList k).map link) =
      fun k => ((n.freeList k).map link).erase (link pfn) := funext fun _ => List.map_erase h.link_inj _
  have hallowed : (ListCall.del (link pfn)).Allowed head fun k => (n.freeList k).map link :=
    ⟨order, List.mem_map_of_mem hpfn⟩
  rw [hentries]
  exact h.lists.step hallowed

/-- `list_empty(&node->free_list[order])` -/
theorem listEmpty_iff (h : n.InMemory m head link) :
    listEmpty m (head order) = true ↔ n.freeList order = [] := by
  rw [h.lists.listEmpty_iff, List.map_eq_nil_iff]

/-- `list_first(&node->free_list[order])`, of a list with entries. -/
theorem listFirst_eq {l : List ℕ} (h : n.InMemory m head link) (hl : n.freeList order = pfn :: l) :
    listFirst m (head order) = link pfn := by
  rw [h.lists.listFirst_eq, hl]
  rfl

end MemoryNode.InMemory

end Kernel64
