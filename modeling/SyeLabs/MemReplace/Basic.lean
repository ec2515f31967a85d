/-
The page replacement simulator `memreplace.c`: sixteen pages, three of
them resident, replaced by LRU or by the working-set clock.

# The packed table

`page_table[i]` packs a page number, a reference bit, a swap bit and a
valid bit into one byte, and the two clocks `tdu` and `tvc` are bytes
too. All of them are `BitVec 8`, so the counter wraps where the
source's does.

# The loops

The scan of `replaceLRU` is a left fold over the sixteen indices with
the two locals it updates; the scan of `replaceWSC` also clears
reference bits and can stop early, so it is a recursion over the
indices left to visit.
-/
import Mathlib.Data.List.FinRange
import Mathlib.Logic.Function.Basic

namespace SyeLabs.MemReplace

-- =================================================================== bit table

/-- A page number, as the callers of the replacement functions have
checked it. -/
abbrev Page := Fin 16

/-- `DELTA`. -/
def delta : Int := 2

def refBitMask : BitVec 8 := 0x04
def swapBitMask : BitVec 8 := 0x02
def validBitMask : BitVec 8 := 0x01

/-- `CHECK_MASK`. -/
def checkMask (x mask : BitVec 8) : Bool := (x &&& mask) == mask

/-- `SET_MASK`. -/
def setMask (x mask : BitVec 8) : BitVec 8 := x ||| mask

/-- `UNSET_MASK`. -/
def unsetMask (x mask : BitVec 8) : BitVec 8 := x &&& ~~~ mask

/-- `UNLOAD_PAGE`. -/
def unloadPage (x : BitVec 8) : BitVec 8 :=
  setMask (unsetMask x validBitMask) swapBitMask

/-- The globals of the program. -/
structure Table where
  pageTable : Page → BitVec 8
  tdu : Page → BitVec 8
  tvc : BitVec 8

/-- The page is resident. -/
def Table.valid (s : Table) (p : Page) : Bool :=
  checkMask (s.pageTable p) validBitMask

-- ================================================================== replaceLRU

/-- One iteration of the scan of `replaceLRU`, over the locals
`page_to_swap` and `min`. -/
def lruScanStep (s : Table) (acc : Option Page × BitVec 8) (i : Page) :
    Option Page × BitVec 8 :=
  if s.valid i && (acc.1.isNone || s.tdu i < acc.2) then
    (some i, if s.tdu i < acc.2 then s.tdu i else acc.2)
  else
    acc

/-- The page the scan settles on; `min` starts at `tvc`. -/
def lruVictim (s : Table) : Option Page :=
  ((List.finRange 16).foldl (lruScanStep s) (none, s.tvc)).1

/-- `UNLOAD_PAGE(page_table[page_to_swap])`, when a page was found. -/
def unload (s : Table) (victim : Option Page) : Table :=
  match victim with
  | some p =>
      { s with
        pageTable :=
          Function.update s.pageTable p (unloadPage (s.pageTable p)) }
  | none => s

/-- `replaceLRU`. -/
def replaceLRU (s : Table) : Table := unload s (lruVictim s)

/-- `inc_compteur`. -/
def incCompteur (s : Table) (p : Page) : Table :=
  { s with tdu := Function.update s.tdu p s.tvc, tvc := s.tvc + 1 }

-- ================================================================== replaceWSC

/-- The scan of `replaceWSC` over the indices left to visit: the first
resident page is kept as the fallback, reference bits are cleared on
the way, and an unreferenced page older than `DELTA` ends the scan. -/
def wscScan (tdu : Page → BitVec 8) (tvc : BitVec 8) :
    List Page → (Page → BitVec 8) → Option Page →
      (Page → BitVec 8) × Option Page
  | [], pt, swap => (pt, swap)
  | i :: is, pt, swap =>
      if checkMask (pt i) validBitMask then
        let swap := if swap.isNone then some i else swap
        if checkMask (pt i) refBitMask then
          wscScan tdu tvc is
            (Function.update pt i (unsetMask (pt i) refBitMask)) swap
        else if (tvc.toNat : Int) - (tdu i).toNat > delta then
          (pt, some i)
        else
          wscScan tdu tvc is pt swap
      else
        wscScan tdu tvc is pt swap

/-- `replaceWSC`. -/
def replaceWSC (s : Table) : Table :=
  let scan := wscScan s.tdu s.tvc (List.finRange 16) s.pageTable none
  unload { s with pageTable := scan.1 } scan.2

/-- `updateTDU`. -/
def updateTDU (s : Table) : Table :=
  { s with
    tdu := fun i =>
      if checkMask (s.pageTable i) refBitMask then s.tvc else s.tdu i }

-- ======================================================================== main

/-- `init_page_table` over the zero-initialised arrays. -/
def initPageTable : Table where
  pageTable := fun i =>
    let pt := BitVec.ofNat 8 ((i.val &&& 0xF) <<< 4)
    if i.val = 0 ∨ i.val = 1 ∨ i.val = 2 then setMask pt validBitMask
    else if i.val = 3 then setMask pt swapBitMask
    else pt
  tdu := fun _ => 0
  tvc := 0

/-- The algorithm the command line selects. -/
inductive Mode
  | lru
  | wsc
  deriving DecidableEq, Repr

/-- What `main` does before it marks the accessed page: replace on a
fault and advance the clocks. -/
def account (m : Mode) (s : Table) (p : Page) : Table :=
  match m with
  | .lru => incCompteur (if s.valid p then s else replaceLRU s) p
  | .wsc =>
      let s := updateTDU (if s.valid p then s else replaceWSC s)
      { s with tvc := s.tvc + 1 }

/-- One turn of the loop of `main` on a page number it accepts. -/
def access (m : Mode) (s : Table) (p : Page) : Table :=
  let s := account m s p
  { s with
    pageTable := Function.update s.pageTable p
      (unsetMask (setMask (s.pageTable p) (validBitMask ||| refBitMask))
        swapBitMask) }

/-- A sequence of accesses from the initial table. -/
def run (m : Mode) (ps : List Page) : Table :=
  ps.foldl (access m) initPageTable

@[simp] theorem run_nil (m : Mode) : run m [] = initPageTable := rfl

theorem run_snoc (m : Mode) (ps : List Page) (p : Page) :
    run m (ps ++ [p]) = access m (run m ps) p := by
  unfold run
  rw [List.foldl_append]
  rfl

-- ================================================================= bit algebra

/-- Unloading clears the valid bit. -/
theorem checkMask_unloadPage (x : BitVec 8) :
    checkMask (unloadPage x) validBitMask = false := by
  revert x
  decide

/-- The marks `main` sets make the page resident. -/
theorem checkMask_marked (x : BitVec 8) :
    checkMask (unsetMask (setMask x (validBitMask ||| refBitMask))
      swapBitMask) validBitMask = true := by
  revert x
  decide

/-- Unloading a page leaves every other page's residency alone. -/
theorem unload_valid (s : Table) (v p : Page) :
    (unload s (some v)).valid p = (s.valid p && decide (p ≠ v)) := by
  by_cases hp : p = v
  · subst hp
    simp [unload, Table.valid, checkMask_unloadPage]
  · simp [unload, Table.valid, hp]

@[simp] theorem unload_tdu (s : Table) (v : Option Page) :
    (unload s v).tdu = s.tdu := by
  cases v <;> rfl

@[simp] theorem unload_tvc (s : Table) (v : Option Page) :
    (unload s v).tvc = s.tvc := by
  cases v <;> rfl

end SyeLabs.MemReplace
