/-
Page tables in memory and the walk the hardware makes through them.

# Memory

The L1 tables are the system table and one for each process. The L2
tables are 1 KB blocks of the kernel heap, so `l2` is the memory of the
heap as words by word number: entry `x` of the table in block `b` is
word `256 * b + x`. Blocks are numbered by physical address; `__pa` and
`__va` are undone by that. An L1 word names the block of its table
without a check that there is one, as `*l1pte & TTB_L1_PAGE_ADDR_MASK`
does.

Addresses are exact numbers up to 2^32. A range that ends at the top of
the address space ends at 2^32 here and at 0 in the code; the code only
compares the two for equality.

# What the repository lacks

The attribute bits and the heap are not part of it. `PteAttrs` says that
the `set_*_dcache` helpers set the type bits and stay within the bits
below the address; the heap is any allocator of blocks.
-/
import Mathlib.Logic.Function.Basic
import SyeLabs.Lib.Alloc
import SyeLabs.Platform

namespace SyeLabs.Mmu

open Lib

-- ================================================================== the tables

/-- An L1 table. -/
inductive Pgtable
  | sys
  | proc (p : Nat)
  deriving DecidableEq, Repr

/-- The bits the `set_*_dcache` helpers set, by `nocache`. -/
structure PteAttrs where
  /-- `L1_SECT_DCACHE_*`. -/
  sect : Bool → Nat
  /-- `L1_PAGE_DCACHE_*`. -/
  page : Bool → Nat
  /-- `L2_DCACHE_*`. -/
  small : Bool → Nat
  sect_lt : ∀ b, sect b < 1048576
  sect_type : ∀ b, sect b % 4 = 2
  page_lt : ∀ b, page b < 1024
  page_type : ∀ b, page b % 4 = 1
  small_lt : ∀ b, small b < 4096
  small_type : ∀ b, 2 ≤ small b % 4

/-- The block numbers of the heap: not the null pointer, and below the
end of the physical address space. -/
def BlockOk (b : Nat) : Prop := 0 < b ∧ b < 4194304

instance : DecidablePred BlockOk := fun b =>
  inferInstanceAs (Decidable (0 < b ∧ b < 4194304))

/-- The parts of the memory manager that the repository lacks. -/
structure Hardware (H : Type*) where
  attrs : PteAttrs
  /-- `memalign(1 KB, 1 KB)` and `free`. -/
  heap : Allocator H BlockOk

/-- The page tables, the heap their L2 tables come from and the cached
translations. -/
structure PageTables (H : Type*) where
  l1 : Pgtable → Nat → Nat
  l2 : Nat → Nat
  heap : H
  tlb : List (Nat × Nat)

variable {H : Type*}

/-- `l1pte_index`. -/
def l1pteIndex (addr : Nat) : Nat := addr / 1048576

/-- `l1pte_is_sect`. -/
def l1pteIsSect (w : Nat) : Bool := w % 4 = 2

/-- The type bits of an L1 word that holds the address of an L2 table. -/
def l1pteIsTable (w : Nat) : Bool := w % 4 = 1

/-- The block of the L2 table of an L1 word. -/
def l2Block (w : Nat) : Nat := w / 1024

/-- `l2pte_first`. -/
def l2pteFirst (w : Nat) : Nat := l2Block w * 256

/-- `l2pte_offset`. -/
def l2pteOffset (w addr : Nat) : Nat := l2pteFirst w + addr / 4096 % 256

/-- `*l1pte = w`. -/
def PageTables.setL1 (t : PageTables H) (g : Pgtable) (i w : Nat) :
    PageTables H :=
  { t with l1 := Function.update t.l1 g (Function.update (t.l1 g) i w) }

/-- `*l2pte = w`. -/
def PageTables.setL2 (t : PageTables H) (x w : Nat) : PageTables H :=
  { t with l2 := Function.update t.l2 x w }

/-- `memset(l2pte, 0, l2pgtable_size)` on block `b`. -/
def PageTables.clearL2 (t : PageTables H) (b : Nat) : PageTables H :=
  { t with l2 := fun x => if x / 256 = b then 0 else t.l2 x }

@[simp] theorem setL1_l2 (t : PageTables H) (g : Pgtable) (i w : Nat) :
    (t.setL1 g i w).l2 = t.l2 := rfl

@[simp] theorem setL1_heap (t : PageTables H) (g : Pgtable) (i w : Nat) :
    (t.setL1 g i w).heap = t.heap := rfl

@[simp] theorem setL1_self (t : PageTables H) (g : Pgtable) (i w : Nat) :
    (t.setL1 g i w).l1 g i = w := by
  simp [PageTables.setL1]

theorem setL1_other {g g' : Pgtable} {i j : Nat} (t : PageTables H) (w : Nat)
    (h : ¬ (g' = g ∧ j = i)) : (t.setL1 g i w).l1 g' j = t.l1 g' j := by
  by_cases hg : g' = g
  · subst hg
    have hj : j ≠ i := fun hj => h ⟨rfl, hj⟩
    simp [PageTables.setL1, hj]
  · simp [PageTables.setL1, hg]

@[simp] theorem setL2_l1 (t : PageTables H) (x w : Nat) :
    (t.setL2 x w).l1 = t.l1 := rfl

@[simp] theorem setL2_heap (t : PageTables H) (x w : Nat) :
    (t.setL2 x w).heap = t.heap := rfl

@[simp] theorem setL2_self (t : PageTables H) (x w : Nat) :
    (t.setL2 x w).l2 x = w := by
  simp [PageTables.setL2]

theorem setL2_other {x y : Nat} (t : PageTables H) (w : Nat) (h : y ≠ x) :
    (t.setL2 x w).l2 y = t.l2 y := by
  simp [PageTables.setL2, h]

@[simp] theorem clearL2_l1 (t : PageTables H) (b : Nat) :
    (t.clearL2 b).l1 = t.l1 := rfl

-- ==================================================================== the walk

/-- What an L2 word says of an address: a small page, a large page or
nothing. -/
def l2Walk (e addr : Nat) : Option Nat :=
  if 2 ≤ e % 4 then some (e / 4096 * 4096 + addr % 4096)
  else if e % 4 = 1 then some (e / 65536 * 65536 + addr % 65536)
  else none

/-- The two-level walk of the hardware. -/
def walk (t : PageTables H) (g : Pgtable) (addr : Nat) : Option Nat :=
  let w := t.l1 g (l1pteIndex addr)
  if l1pteIsSect w then some (w / 1048576 * 1048576 + addr % 1048576)
  else if l1pteIsTable w then l2Walk (t.l2 (l2pteOffset w addr)) addr
  else none

/-- The frame that holds the page at `addr`. -/
def frameAt (t : PageTables H) (g : Pgtable) (addr : Nat) : Option Nat :=
  (walk t g addr).map (· / 4096)

/-- The walk reads one L1 word and one L2 word. -/
theorem walk_congr {t t' : PageTables H} {g g' : Pgtable} {addr : Nat}
    (h1 : t'.l1 g' (l1pteIndex addr) = t.l1 g (l1pteIndex addr))
    (h2 : l1pteIsTable (t.l1 g (l1pteIndex addr)) →
      t'.l2 (l2pteOffset (t.l1 g (l1pteIndex addr)) addr)
        = t.l2 (l2pteOffset (t.l1 g (l1pteIndex addr)) addr)) :
    walk t' g' addr = walk t g addr := by
  unfold walk
  simp only [h1]
  split
  · rfl
  · split
    next ht => rw [h2 ht]
    next => rfl

theorem walk_of_sect {t : PageTables H} {g : Pgtable} {addr : Nat}
    (h : l1pteIsSect (t.l1 g (l1pteIndex addr))) :
    walk t g addr
      = some (t.l1 g (l1pteIndex addr) / 1048576 * 1048576
        + addr % 1048576) :=
  if_pos h

theorem walk_of_table {t : PageTables H} {g : Pgtable} {addr : Nat}
    (h : l1pteIsTable (t.l1 g (l1pteIndex addr))) :
    walk t g addr
      = l2Walk (t.l2 (l2pteOffset (t.l1 g (l1pteIndex addr)) addr))
        addr := by
  have hs : ¬ l1pteIsSect (t.l1 g (l1pteIndex addr)) := by
    simp only [l1pteIsTable, l1pteIsSect, decide_eq_true_eq] at h ⊢
    omega
  simp only [walk, if_neg hs, if_pos h]

theorem walk_of_empty {t : PageTables H} {g : Pgtable} {addr : Nat}
    (h : t.l1 g (l1pteIndex addr) = 0) : walk t g addr = none := by
  simp [walk, h, l1pteIsSect, l1pteIsTable]

/-- An L2 word for a small page. -/
theorem l2Walk_small {base attr addr : Nat} (hbase : base % 4096 = 0)
    (hattr : attr < 4096) (htype : 2 ≤ attr % 4) :
    l2Walk (base + attr) addr = some (base + addr % 4096) := by
  have h4 : 2 ≤ (base + attr) % 4 := by omega
  rw [l2Walk, if_pos h4]
  congr 1
  omega

@[simp] theorem l2Walk_zero (addr : Nat) : l2Walk 0 addr = none := by
  simp [l2Walk]

-- ================================================================= the entries

/-- Entry `x` of the L2 table in slot `i`. -/
def entry (t : PageTables H) (g : Pgtable) (i x : Nat) : Nat :=
  t.l2 (l2Block (t.l1 g i) * 256 + x)

theorem entry_setL2_self {t : PageTables H} {g : Pgtable} {i x b : Nat}
    (w : Nat) (hb : l2Block (t.l1 g i) = b) :
    entry (t.setL2 (b * 256 + x) w) g i x = w := by
  rw [entry, setL2_l1, hb, setL2_self]

theorem entry_setL2_other {t : PageTables H} {g : Pgtable}
    {i x y b : Nat} (w : Nat) (hx : x < 256) (hy : y < 256)
    (h : l2Block (t.l1 g i) = b → y ≠ x) :
    entry (t.setL2 (b * 256 + x) w) g i y = entry t g i y := by
  rw [entry, setL2_l1, setL2_other _ _ (by omega), entry]

/-- Entries of equal tables. -/
theorem entry_congr {t t' : PageTables H} {g : Pgtable} {i x : Nat}
    (h1 : t'.l1 g i = t.l1 g i)
    (h2 : t'.l2 (l2Block (t.l1 g i) * 256 + x)
      = t.l2 (l2Block (t.l1 g i) * 256 + x)) :
    entry t' g i x = entry t g i x := by
  rw [entry, h1, h2, entry]

/-- The walk through the L2 table of a slot. -/
theorem walk_of_entry {t : PageTables H} {g : Pgtable} {v : Nat}
    (ht : l1pteIsTable (t.l1 g (l1pteIndex v))) :
    walk t g v = l2Walk (entry t g (l1pteIndex v) (v / 4096 % 256)) v :=
  walk_of_table ht

-- ========================================================== well-formed tables

/-- A slot is empty, a section, or the address of an L2 table in use. -/
def SlotOk (M : Hardware H) (t : PageTables H) (w : Nat) : Prop :=
  w = 0 ∨ l1pteIsSect w ∨ (l1pteIsTable w ∧ M.heap.live t.heap (l2Block w))

/-- An L1 table is well formed: its slots are, and no two of them share
an L2 table. -/
structure WellFormed (M : Hardware H) (t : PageTables H) (g : Pgtable) :
    Prop where
  slot : ∀ i, i < 4096 → SlotOk M t (t.l1 g i)
  owned : ∀ i j, i < 4096 → j < 4096 → i ≠ j → l1pteIsTable (t.l1 g i) →
    l1pteIsTable (t.l1 g j) → l2Block (t.l1 g i) ≠ l2Block (t.l1 g j)

theorem not_isSect_of_isTable {w : Nat} (h : l1pteIsTable w) :
    ¬ l1pteIsSect w := by
  simp only [l1pteIsTable, l1pteIsSect, decide_eq_true_eq] at h ⊢
  omega

theorem WellFormed.live {M : Hardware H} {t : PageTables H} {g : Pgtable}
    (wf : WellFormed M t g) {i : Nat} (hi : i < 4096)
    (h : l1pteIsTable (t.l1 g i)) :
    M.heap.live t.heap (l2Block (t.l1 g i)) := by
  rcases wf.slot i hi with h0 | hs | ⟨-, hl⟩
  · rw [h0] at h
    cases h
  · exact absurd hs (not_isSect_of_isTable h)
  · exact hl

end SyeLabs.Mmu
