import Kernel64.Kmap.Model
import Kernel64.Mm.Model
import Kernel64.Paging.Slots

/-!
# Passing arguments to a program (`exec.c`)

`setup_stack` makes an area at the end of a new address space, and `copy_args` lays out the arguments of the
program at the end of the area: the strings, and below them the array of their addresses. It writes them through a
window of `kmap`, whose addresses are translated by the tables of the processor, and then maps the pages of the
window in the new address space.

A string is the list of its bytes before the one that ends it. The sizes are those of a layout that fits in a
stack, which are far from the end of a `size_t`.
-/

namespace Kernel64

namespace Exec

open Paging Mm

/-- `sizeof(char *)`, which is `ALIGN_OF(void *)` as well. -/
def ptrsz : ℕ := 8

/-- A `struct mm`, as far as arguments are concerned. -/
structure ArgMm where
  pt : Pfn
  stack : Vma
  stackPointer : ℕ
  argvAddr : ℕ
  argc : ℕ

/-! ### The stack -/

/-- `setup_stack`, with the area it leaves in `mm->stack`. -/
def setupStack (fuel m size : ℕ) : MmM (ℤ × Option Ptr) := do
  let stackBegin := taskSize - alignUp size
  let rc ← mmap fuel m stackBegin taskSize 1
  if rc ≠ 0 then return (rc, none)
  match ← lookupVma fuel m (alignDown stackBegin) (alignDown stackBegin + 1) with
  | .missing _ _ => throw .assertion
  | .hit p => return (0, some p)

/-! ### Memory seen by the processor -/

/-- Store bytes one after the other, through the tables at `pml4`. -/
def storeBytes (pml4 : Pfn) : ℕ → List UInt8 → PhysM Unit
  | _, [] => return
  | addr, b :: l => do
    match translate (← get).table pml4 addr with
    | some (p, true) => do
      modify fun s => { s with
        bytes := Function.update s.bytes p (Function.update (s.bytes p) (addr % pageSize) b) }
      storeBytes pml4 (addr + 1) l
    | _ => throw .null

/-- The bytes of a `uintptr_t`. -/
def wordBytes (v : ℕ) : List UInt8 := (List.range ptrsz).map fun j => UInt8.ofNat (v / 256 ^ j)

/-! ### Arguments -/

/-- The loop that allocates the pages: the pages it has got, and whether these are all. -/
def allocArgPages : ℕ → PhysM (List Pfn × Bool)
  | 0 => return ([], true)
  | n + 1 => do
    match ← allocPages with
    | none => return ([], false)
    | some p => do
      setU p 0#64
      let (pages, all) ← allocArgPages n
      return (p :: pages, all)

/-- The loop at `out`. -/
def freeArgPages : List Pfn → PhysM Unit
  | [] => return
  | p :: pages => do
    freePages p
    freeArgPages pages

/-- The loop that copies the strings. -/
def copyStrings (pml4 : Pfn) : List (List UInt8) → ℕ → ℕ → ℕ → PhysM Unit
  | [], _, _, _ => return
  | arg :: argv, array, data, usrdata => do
    let len := arg.length + 1
    storeBytes pml4 array (wordBytes usrdata)
    storeBytes pml4 data (arg ++ [0])
    copyStrings pml4 argv (array + ptrsz) (data + len) (usrdata + len)

/-- The variable `bytes` of `copy_args`, once it is aligned. -/
def argBytes (argv : List (List UInt8)) : ℕ := alignTo (argv.map fun arg => arg.length + 1).sum ptrsz

/-- The variable `size` of `copy_args`. -/
def argSize (argv : List (List UInt8)) : ℕ := alignTo (argBytes argv + ptrsz * (argv.length + 1)) pageSize

/-- `copy_args`, with the tables of the processor and whether `kmem_alloc` returns memory. -/
def copyArgs (pml4 : Pfn) (kmem : Bool) (mm : ArgMm) (argv : List (List UInt8)) : KmapM (ℤ × ArgMm) := do
  let argc := argv.length
  let bytes := argBytes argv
  let size := argSize argv
  let count := size / pageSize
  if ¬kmem then return (-ENOMEM, mm)
  let (pages, all) ← onMemory (allocArgPages count)
  if ¬all then
    onMemory (freeArgPages pages)
    return (-ENOMEM, mm)
  match ← kmap pml4 pages with
  | none => do
    onMemory (freeArgPages pages)
    return (-ENOMEM, mm)
  | some buffer => do
    let data := buffer + (size - bytes)
    let usrdata := mm.stack.stop - bytes
    let array := data - (argc + 1) * ptrsz
    let usrarray := usrdata - (argc + 1) * ptrsz
    onMemory (storeBytes pml4 buffer (List.replicate size 0))
    onMemory (copyStrings pml4 argv array data usrdata)
    onMemory (mmapPages (count + 1) mm.pt (mm.stack.stop - size) pages ⟨true, true, false, false⟩)
    let mm := { mm with
      stackPointer := usrarray
      argvAddr := usrarray
      argc := argc }
    kunmap pml4 buffer
    return (0, mm)

end Exec

end Kernel64
