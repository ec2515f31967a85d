/-
The paged-memory simulator `memsim.c`: a page table of 16-bit entries,
a main memory of page frames, and byte loads and stores through them.

# The builds

The source selects its behaviour with two preprocessor switches.
`Build` carries them as data, so that one definition of each function
serves every build: step 2 is `⟨true, false⟩`, step 3 is
`⟨true, true⟩` and step 4, the default, is `⟨false, false⟩`.

# The macros

`HIGH6` is `(x) >> (3) & (0x7)`: with C's precedence, three bits of the
address starting at bit 3, whatever its name says. `HIGH8`, `LOW8` and
`LOW10` select what their names say. All four are kept as written.
-/
import Mathlib.Logic.Function.Basic
import SyeLabs.Lib.Loop

namespace SyeLabs.MemSim

-- =============================================================== configuration

/-- The two preprocessor switches of the source. -/
structure Build where
  memorySizeSmall : Bool
  memoryPteAttributesActive : Bool

/-- The switches as the repository sets them (step 4). -/
def defaultBuild : Build := ⟨false, false⟩

/-- The switches of step 3. -/
def step3Build : Build := ⟨true, true⟩

/-- `MEMORY_PAGE_NUM`. -/
def memoryPageNum (b : Build) : Nat := if b.memorySizeSmall then 256 else 64

/-- `MEMORY_PAGE_SIZE`. -/
def memoryPageSize (b : Build) : Nat := if b.memorySizeSmall then 256 else 1024

def validBit : BitVec 16 := 1
def rwxBits : BitVec 16 := 0x06
def rPattern : BitVec 16 := 0b01
def wPattern : BitVec 16 := 0b10
def rwxPattern : BitVec 16 := 0b00

def high8 {w : Nat} (x : BitVec w) : BitVec w := (x >>> 8) &&& 0xFF#w
def low8 {w : Nat} (x : BitVec w) : BitVec w := x &&& 0xFF#w
def high6 {w : Nat} (x : BitVec w) : BitVec w := (x >>> 3) &&& 0x7#w
def low10 {w : Nat} (x : BitVec w) : BitVec w := x &&& 0x3FF#w

-- ======================================================================= state

/-- The two global arrays. -/
structure Sim where
  pageTable : Nat → BitVec 16
  mainMem : Nat → Nat → BitVec 8

/-- The arrays before `main` runs: zero-initialised storage. -/
def staticInit : Sim := ⟨fun _ => 0, fun _ _ => 0⟩

/-- The index into `page_table` that a virtual address selects. -/
def pageIndex (b : Build) (vaddr : BitVec 16) : Nat :=
  (if b.memorySizeSmall then high8 vaddr else high6 vaddr).toNat

/-- The row of `main_mem` that a page table entry selects. -/
def frameIndex (b : Build) (pte : BitVec 16) : Nat :=
  (if b.memorySizeSmall then high8 pte else high6 pte).toNat

/-- The column of `main_mem` that a virtual address selects. -/
def offsetIndex (b : Build) (vaddr : BitVec 32) : Nat :=
  (if b.memorySizeSmall then low8 vaddr else low10 vaddr).toNat

/-- Write one byte of main memory. -/
def setMem (s : Sim) (frame offset : Nat) (byte : BitVec 8) : Sim :=
  { s with
    mainMem := Function.update s.mainMem frame
      (Function.update (s.mainMem frame) offset byte) }

-- =================================================================== functions

/-- `virt_to_pte`: the result code and what `*pte` holds afterwards.
The pointer argument is `none` when it is null. -/
def virtToPte (b : Build) (s : Sim) (vaddr : BitVec 16)
    (pte : Option (BitVec 16)) : Int × Option (BitVec 16) :=
  match pte with
  | none => (-1, none)
  | some _ => (0, some (s.pageTable (pageIndex b vaddr)))

/-- The entry `get_byte` and `store_byte` read into their local `pte`. -/
def localPte (b : Build) (s : Sim) (vaddr : BitVec 32) : BitVec 16 :=
  ((virtToPte b s (vaddr.setWidth 16) (some 0)).2).getD 0

/-- The attribute field both functions extract. -/
def rwxOf (pte : BitVec 16) : BitVec 16 := (pte &&& rwxBits) >>> 1

/-- `get_byte`: the result code and what `*byte` holds afterwards. -/
def getByte (b : Build) (s : Sim) (vaddr : BitVec 32)
    (byte : Option (BitVec 8)) : Int × Option (BitVec 8) :=
  match byte with
  | none => (-1, none)
  | some old =>
      let pte := localPte b s vaddr
      if b.memoryPteAttributesActive
          && (rwxOf pte != rPattern && rwxOf pte != rwxPattern) then
        (-1, some old)
      else if b.memoryPteAttributesActive
          && ((pte >>> 0) &&& 1) != validBit then
        (-1, some old)
      else
        (0, some (s.mainMem (frameIndex b pte) (offsetIndex b vaddr)))

/-- What the validity test of `store_byte` computes. `!=` binds tighter
than `&`, so the entry is masked with the outcome of a comparison of
two constants, not compared with the valid bit. -/
def storeMask (pte : BitVec 16) : BitVec 16 :=
  pte &&& (if (1#16 <<< 0) >>> 0 != validBit then 1 else 0)

/-- `store_byte`: the result code and the state afterwards. -/
def storeByte (b : Build) (s : Sim) (vaddr : BitVec 32)
    (byte : BitVec 8) : Int × Sim :=
  let pte := localPte b s vaddr
  if b.memoryPteAttributesActive
      && (rwxOf pte != wPattern && rwxOf pte != rwxPattern) then
    (-1, s)
  else if b.memoryPteAttributesActive && storeMask pte != 0 then
    (-1, s)
  else
    (0, setMem s (frameIndex b pte) (offsetIndex b vaddr) byte)

/-- The attribute bits step 3 adds to entry `i`. -/
def pteAttributes (i : Nat) (pte : BitVec 16) : BitVec 16 :=
  let pte := if 10 ≤ i ∧ i ≤ 12 then pte ||| (rPattern <<< 1) else pte
  let pte := pte ||| validBit
  if 5 ≤ i ∧ i ≤ 8 then pte ||| ~~~ validBit else pte

/-- What one iteration of `init_page_table` leaves in entry `i`: the
frames in reverse order, with the attributes of step 3. -/
def initPte (b : Build) (i : Nat) : BitVec 16 :=
  let rShift := if b.memorySizeSmall then 8 else 10
  let pte := BitVec.ofNat 16 ((memoryPageNum b - 1 - i) <<< rShift)
  if b.memoryPteAttributesActive then pteAttributes i pte else pte

/-- `init_page_table`. -/
def initPageTable (b : Build) (s : Sim) : Sim :=
  { s with
    pageTable := (List.range (memoryPageNum b)).foldl
      (fun pt i => Function.update pt i (initPte b i)) s.pageTable }

/-- `init_page_table` writes every entry of the table once. -/
theorem initPageTable_pageTable (b : Build) (s : Sim) :
    (initPageTable b s).pageTable
      = fun i => if i < memoryPageNum b then initPte b i else s.pageTable i :=
  Lib.foldl_range_update (fun i _ => initPte b i) s.pageTable
    (memoryPageNum b)

@[simp] theorem initPageTable_mainMem (b : Build) (s : Sim) :
    (initPageTable b s).mainMem = s.mainMem := rfl

/-- A store leaves the page table alone. -/
@[simp] theorem storeByte_pageTable (b : Build) (s : Sim)
    (vaddr : BitVec 32) (byte : BitVec 8) :
    (storeByte b s vaddr byte).2.pageTable = s.pageTable := by
  unfold storeByte
  dsimp only
  split
  · rfl
  · split <;> rfl

-- ======================================================================== runs

/-- A sequence of `store_byte` calls, in order. -/
def storeAll (b : Build) (s : Sim) (ops : List (BitVec 32 × BitVec 8)) :
    Sim :=
  ops.foldl (fun s op => (storeByte b s op.1 op.2).2) s

theorem storeAll_snoc (b : Build) (s : Sim)
    (ops : List (BitVec 32 × BitVec 8)) (op : BitVec 32 × BitVec 8) :
    storeAll b s (ops ++ [op])
      = (storeByte b (storeAll b s ops) op.1 op.2).2 := by
  unfold storeAll
  rw [List.foldl_append]
  rfl

/-- No store sequence changes the page table. -/
@[simp] theorem storeAll_pageTable (b : Build) (s : Sim)
    (ops : List (BitVec 32 × BitVec 8)) :
    (storeAll b s ops).pageTable = s.pageTable := by
  induction ops generalizing s with
  | nil => rfl
  | cons op ops ih =>
      show (storeAll b (storeByte b s op.1 op.2).2 ops).pageTable = _
      rw [ih, storeByte_pageTable]

/-- The state `main` starts its stores from. -/
def booted (b : Build) : Sim := initPageTable b staticInit

end SyeLabs.MemSim
