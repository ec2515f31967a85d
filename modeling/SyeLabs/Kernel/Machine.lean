/-
The memory of the machine and what the calls of the process code do to
it: page tables, frames and the contents of the frames.

A call that fails an assertion or a `BUG_ON`, or copies through a page
that is not mapped, has no result. The pages that `post_setup_image` and
`load_process` fill belong to the image of their process; that they
write there is left out, as nothing in page tables or frame accounts
depends on it.
-/
import SyeLabs.Kernel.Frames
import SyeLabs.Lib.Run
import SyeLabs.Mmu.ReleaseMapping
import SyeLabs.Process.Basic

namespace SyeLabs.Kernel

open Lib Mmu Process

/-- The parts of the memory manager that the repository lacks: the page
table hardware with its heap, and the pool of page frames. -/
structure Board (P : Platform) (H F : Type*) where
  hw : Hardware H
  pool : Allocator F (FrameOk P)

/-- The memory of the machine. -/
structure Machine (H F : Type*) where
  tables : PageTables H
  frames : Frames F
  page : Nat → Nat → UInt8

variable {P : Platform} {H F : Type*} (B : Board P H F)

-- =============================================================== the functions

/-- `new_root_pgtable`. -/
def newRootPgtable (t : PageTables H) (g : Pgtable) : PageTables H :=
  { t with l1 := Function.update t.l1 g fun _ => 0 }

/-- `pgtable_copy_kernel_area`. -/
def pgtableCopyKernelArea (P : Platform) (t : PageTables H) (g : Pgtable) :
    PageTables H :=
  { t with
    l1 := Function.update t.l1 g fun i =>
      if P.userSlots ≤ i ∧ i < 4096 then t.l1 .sys i else t.l1 g i }

/-- One turn of the loop of `allocate_page`. -/
def allocateOne (p virtAddr i : Nat) (m : Machine H F) :
    Option (Machine H F) :=
  (getFreePage B.pool m.frames).bind fun r =>
    (createMapping B.hw m.tables (some (.proc p))
      ((virtAddr + i * 4096) % addrSpace) (r.1 * 4096) 4096 false).map
        fun t => { m with tables := t, frames := addPageToProc r.2 p r.1 }

/-- `allocate_page`. -/
def allocatePage (m : Machine H F) (p virtAddr nrPages : Nat) :
    Option (Machine H F) :=
  forRange nrPages (allocateOne B p virtAddr) m

/-- `memcpy(dst, src, PAGE_SIZE)` on page addresses, through table
`cur`. -/
def copyPage (cur : Pgtable) (dst src : Nat) (m : Machine H F) :
    Option (Machine H F) :=
  (frameAt m.tables cur dst).bind fun d =>
    (frameAt m.tables cur src).map fun s =>
      { m with page := Function.update m.page d (m.page s) }

/-- `pte_index_to_vaddr`. -/
def pteIndexToVaddr (i j : Nat) : Nat := i * 1048576 + j * 4096

/-- The body of the inner loop of `duplicate_user_space`: entry `j` of
the L2 tables whose first words are `l2pgtable` and `l2pgtableDst`. -/
def copyEntry (cur : Pgtable) (dst i l2pgtable l2pgtableDst j : Nat)
    (m : Machine H F) : Option (Machine H F) :=
  if m.tables.l2 (l2pgtable + j) ≠ 0 then
    (getFreePage B.pool m.frames).bind fun r =>
      (createMapping B.hw m.tables (some cur) P.fixmapMapping (r.1 * 4096)
        4096 false).bind fun t =>
          copyPage cur P.fixmapMapping (pteIndexToVaddr i j)
            { m with
              tables := t.setL2 (l2pgtableDst + j)
                (r.1 * 4096 % addrSpace + B.hw.attrs.small false)
              frames := addPageToProc r.2 dst r.1 }
  else some m

/-- The body of the outer loop of `duplicate_user_space`. -/
def copySlot (cur : Pgtable) (src dst i : Nat) (m : Machine H F) :
    Option (Machine H F) :=
  let w := m.tables.l1 (.proc src) i
  if w ≠ 0 then
    -- `BUG_ON(l1pte_is_sect(*l1pte))`
    if l1pteIsSect w then none
    else
      (newL2 B.hw m.tables (.proc dst) i false).bind fun t =>
        forRange 256
          (copyEntry B cur dst i (l2pteFirst w)
            (l2pteFirst (t.l1 (.proc dst) i)))
          { m with tables := t }
  else some m

/-- `duplicate_user_space`, with `cur` the current page table. -/
def duplicateUserSpace (cur : Pgtable) (m : Machine H F) (src dst : Nat) :
    Option (Machine H F) :=
  (forRange P.userSlots (copySlot B cur src dst) m).bind fun m =>
    (releaseMapping B.hw m.tables (some cur) P.fixmapMapping 4096).map
      fun t => { m with tables := t }

/-- What a call of the process code does to the memory. A process forks
on its own page table. -/
def call (m : Machine H F) : Call → Option (Machine H F)
  | .newRootPgtable p =>
      let t := newRootPgtable m.tables (.proc p)
      some { m with tables := pgtableCopyKernelArea P t (.proc p) }
  | .mapRootImage p =>
      (createMapping B.hw m.tables (some (.proc p)) P.userSpaceVaddr
        P.rootProcStart P.rootProcSize false).map
          fun t => { m with tables := t }
  | .allocatePage p virtAddr nrPages => allocatePage B m p virtAddr nrPages
  | .duplicateUserSpace src dst =>
      duplicateUserSpace B (.proc src) m src dst
  | .resetRootPgtable p _ =>
      some { m with
        tables := resetRootPgtable B.hw m.tables (.proc p) P.userSlots }
  | .releaseProcPages p =>
      some { m with frames := releaseProcPages B.pool m.frames p }
  | .postSetupImage _ | .loadProcess | .ready _ | .threadExit _ => some m

/-- A list of calls, in order. -/
def calls (m : Machine H F) (cs : List Call) : Option (Machine H F) :=
  run (call B) m cs

/-- The small layout with lists as allocators. -/
def Board.small :
    Board .small (FreeList BlockOk) (FreeList (FrameOk .small)) where
  hw := .sample
  pool := freeList (FrameOk .small)

end SyeLabs.Kernel
