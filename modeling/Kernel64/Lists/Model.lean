import Kernel64.Lib.Ring

/-!
# Intrusive lists (`list.c`)

A `struct list_head` is embedded in other structures, so that it is known by its address alone. Each operation is the
stores of the code, in their order: addresses that look different in the code may be the same, as in a list without
entries, where the head is its own next and previous entry.
-/

namespace Kernel64

namespace Lists

/-- A `struct list_head`. -/
structure ListHead (α : Type) where
  next : α
  prev : α
  deriving DecidableEq, Repr

/-- The memory that the lists are in, by the addresses of the `struct list_head`s. -/
abbrev Links (α : Type) : Type := α → ListHead α

variable {α : Type} [DecidableEq α]

/-- `entry->next = next` -/
def setNext (m : Links α) (entry next : α) : Links α := Function.update m entry { m entry with next := next }

/-- `entry->prev = prev` -/
def setPrev (m : Links α) (entry prev : α) : Links α := Function.update m entry { m entry with prev := prev }

/-- `list_init` -/
def listInit (m : Links α) (head : α) : Links α := setNext (setPrev m head head) head head

/-- `list_insert` -/
def listInsert (m : Links α) (new prev next : α) : Links α :=
  let m := setPrev m new prev
  let m := setNext m new next
  let m := setNext m prev new
  setPrev m next new

/-- `list_add` -/
def listAdd (m : Links α) (new head : α) : Links α := listInsert m new head (m head).next

/-- `list_add_tail` -/
def listAddTail (m : Links α) (new head : α) : Links α := listInsert m new (m head).prev head

/-- `__list_del` -/
def listDel' (m : Links α) (prev next : α) : Links α := setPrev (setNext m prev next) next prev

/-- `list_del` -/
def listDel (m : Links α) (entry : α) : Links α := listDel' m (m entry).prev (m entry).next

/-- `__list_splice` -/
def listSplice' (m : Links α) (list prev next : α) : Links α :=
  let first := (m list).next
  let last := (m list).prev
  let m := setPrev m first prev
  let m := setNext m prev first
  let m := setNext m last next
  setPrev m next last

/-- `list_empty` -/
def listEmpty (m : Links α) (head : α) : Bool := (m head).next = head

/-- `list_splice` -/
def listSplice (m : Links α) (list head : α) : Links α :=
  if listEmpty m list then m else listInit (listSplice' m list head (m head).next) list

/-- `list_first` -/
def listFirst (m : Links α) (head : α) : α := (m head).next

/-- The loop of `list_size`. -/
def listSizeFrom (m : Links α) (head : α) : ℕ → α → ℕ → Option ℕ
  | 0, _, _ => none
  | fuel + 1, pos, size => if pos = head then some size else listSizeFrom m head fuel (m pos).next ((size + 1) % 2 ^ 64)

/-- `list_size` -/
def listSize (fuel : ℕ) (m : Links α) (head : α) : Option ℕ := listSizeFrom m head fuel (m head).next 0

end Lists

end Kernel64
