/-
The constants of the kernel configuration that the process and memory
code reads and that the repository does not contain: the address space
layout, the sizes of the process areas and the place of the image of the
root process.

A `Platform` carries what the code takes for granted about them as
fields: the kernel area starts on a section boundary, the copy window
`FIXMAP_MAPPING` is a page of the kernel area, the areas of the first
process are whole pages below the kernel area, and the stack is not
empty.
-/
import Mathlib.Tactic.Common

namespace SyeLabs

/-- `PAGE_SIZE` and `PAGE_SHIFT`. -/
def pageSize : Nat := 4096

/-- `TTB_SECT_SIZE`: the megabyte an L1 entry covers. -/
def sectSize : Nat := 1048576

/-- The size of the address space. -/
def addrSpace : Nat := 4294967296

/-- `ALIGN_UP(n, PAGE_SIZE)`. -/
def alignUp (n : Nat) : Nat := (n + 4095) / 4096 * 4096

/-- Rounding up to pages stays within a limit on a page boundary. -/
theorem alignUp_add_le {q n m : Nat} (hq : q % 4096 = 0)
    (hm : m % 4096 = 0) (h : q + n ≤ m) : q + alignUp n ≤ m := by
  unfold alignUp
  omega

/-- `PROC_THREAD_MAX`. -/
def procThreadMax : Nat := 32

structure Platform where
  /-- `CONFIG_KERNEL_VADDR`, where the kernel area begins. -/
  kernelVaddr : Nat
  /-- `USER_SPACE_VADDR`, where the root process is mapped. -/
  userSpaceVaddr : Nat
  /-- `FIXMAP_MAPPING`, the window pages are copied through. -/
  fixmapMapping : Nat
  /-- `arch_get_args_base()`, the argument page above the stack. -/
  argsBase : Nat
  /-- `THREAD_STACK_SIZE`. -/
  threadStackSize : Nat
  /-- `HEAP_SIZE`. -/
  heapSize : Nat
  /-- `__pa(__root_proc_start)`. -/
  rootProcStart : Nat
  /-- `__root_proc_end - __root_proc_start`. -/
  rootProcSize : Nat
  kernelVaddr_aligned : kernelVaddr % 1048576 = 0
  kernelVaddr_le : kernelVaddr ≤ 4294967296
  fixmapMapping_aligned : fixmapMapping % 4096 = 0
  fixmapMapping_kernel : kernelVaddr ≤ fixmapMapping
  fixmapMapping_lt : fixmapMapping < 4294967296
  argsBase_aligned : argsBase % 4096 = 0
  argsBase_user : argsBase + 4096 ≤ kernelVaddr
  threadStackSize_pos : 0 < threadStackSize
  stack_fits : alignUp (procThreadMax * threadStackSize) ≤ argsBase
  userSpaceVaddr_aligned : userSpaceVaddr % 4096 = 0
  rootProcStart_aligned : rootProcStart % 4096 = 0
  rootProcSize_pos : 0 < rootProcSize
  rootProc_user : userSpaceVaddr + rootProcSize ≤ kernelVaddr
  rootProc_lt : rootProcStart + rootProcSize ≤ 4294967296

/-- `PROC_STACK_SIZE`. -/
def Platform.procStackSize (P : Platform) : Nat :=
  procThreadMax * P.threadStackSize

/-- `l1pte_index(CONFIG_KERNEL_VADDR)`: the number of user entries of an
L1 table. -/
def Platform.userSlots (P : Platform) : Nat := P.kernelVaddr / 1048576

/-- A layout of the usual shape: the kernel at 3 GB, one-page thread
stacks below the argument page, a heap of two pages. -/
def Platform.sample : Platform where
  kernelVaddr := 0xC0000000
  userSpaceVaddr := 0x1000
  fixmapMapping := 0xF0000000
  argsBase := 0xBFFFF000
  threadStackSize := 4096
  heapSize := 8192
  rootProcStart := 0x80000000
  rootProcSize := 8192
  kernelVaddr_aligned := rfl
  kernelVaddr_le := by decide
  fixmapMapping_aligned := rfl
  fixmapMapping_kernel := by decide
  fixmapMapping_lt := by decide
  argsBase_aligned := rfl
  argsBase_user := by decide
  threadStackSize_pos := by decide
  stack_fits := by decide
  userSpaceVaddr_aligned := rfl
  rootProcStart_aligned := rfl
  rootProcSize_pos := by decide
  rootProc_user := by decide
  rootProc_lt := by decide

/-- A small layout: two megabytes of user space, and one page each of
stack, heap and root image. -/
def Platform.small : Platform where
  kernelVaddr := 0x200000
  userSpaceVaddr := 0x1000
  fixmapMapping := 0x300000
  argsBase := 0x1FF000
  threadStackSize := 128
  heapSize := 4096
  rootProcStart := 0x80000000
  rootProcSize := 4096
  kernelVaddr_aligned := rfl
  kernelVaddr_le := by decide
  fixmapMapping_aligned := rfl
  fixmapMapping_kernel := by decide
  fixmapMapping_lt := by decide
  argsBase_aligned := rfl
  argsBase_user := by decide
  threadStackSize_pos := by decide
  stack_fits := by decide
  userSpaceVaddr_aligned := rfl
  rootProcStart_aligned := rfl
  rootProcSize_pos := by decide
  rootProc_user := by decide
  rootProc_lt := by decide

end SyeLabs
