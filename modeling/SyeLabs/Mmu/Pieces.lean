/-
The cursor of the loops of `create_mapping` and `release_mapping`.

Both functions go through the slots of their range; `AtPiece` is where
they are, and says what the piece at the cursor covers. It takes nothing
for granted about the tables.
-/
import SyeLabs.Mmu.ReleaseMapping

namespace SyeLabs.Mmu

open Lib

variable {H : Type*} {M : Hardware H}

-- ======================================================= the cursor over slots

/-- The cursor of a loop over the pieces of `[lo, hi)`. -/
structure AtPiece (lo hi i addr : Nat) : Prop where
  lo_le : lo ≤ addr
  lt_hi : addr < hi
  slot : i = addr / 1048576
  start : addr = lo ∨ addr % 1048576 = 0

/-- The bounds of the piece. -/
theorem AtPiece.bounds {lo hi i addr : Nat} (h : AtPiece lo hi i addr) :
    lo / 1048576 ≤ i ∧ i * 1048576 < hi
      ∧ addr = max lo (i * 1048576)
      ∧ l1sectAddrEnd addr hi = min hi ((i + 1) * 1048576)
      ∧ addr < l1sectAddrEnd addr hi := by
  obtain ⟨hlo, hhi, hslot, hstart⟩ := h
  unfold l1sectAddrEnd
  omega

/-- It lies in its slot, and in the range. -/
theorem AtPiece.inside {lo hi i addr : Nat} (h : AtPiece lo hi i addr) :
    i * 1048576 ≤ addr ∧ l1sectAddrEnd addr hi ≤ (i + 1) * 1048576
      ∧ l1sectAddrEnd addr hi ≤ hi := by
  obtain ⟨-, -, haddr, hnext, -⟩ := h.bounds
  refine ⟨?_, ?_, ?_⟩
  · rw [haddr]
    exact Nat.le_max_right _ _
  · rw [hnext]
    exact Nat.min_le_right _ _
  · rw [hnext]
    exact Nat.min_le_left _ _

theorem AtPiece.l1pteIndex_eq {lo hi i addr a : Nat}
    (h : AtPiece lo hi i addr) (ha : addr ≤ a)
    (ha' : a < l1sectAddrEnd addr hi) : l1pteIndex a = i := by
  obtain ⟨hle, hlt, -⟩ := h.inside
  exact Nat.div_eq_of_lt_le (Nat.le_trans hle ha)
    (Nat.lt_of_lt_of_le ha' hlt)

/-- A piece of a range of pages is one of pages. -/
theorem AtPiece.pages {lo hi i addr : Nat} (h : AtPiece lo hi i addr)
    (hlo : lo % 4096 = 0) (hhi : hi % 4096 = 0) :
    addr % 4096 = 0 ∧ l1sectAddrEnd addr hi % 4096 = 0 := by
  obtain ⟨-, -, haddr, hnext, -⟩ := h.bounds
  omega

/-- A piece that is a section takes a slot of the range. -/
theorem AtPiece.whole {lo hi i addr : Nat} (h : AtPiece lo hi i addr)
    (haddr : addr % 1048576 = 0)
    (hnext : l1sectAddrEnd addr hi % 1048576 = 0) :
    lo ≤ i * 1048576 ∧ (i + 1) * 1048576 ≤ hi := by
  obtain ⟨hlo, hhi, hslot, -⟩ := h
  unfold l1sectAddrEnd at hnext
  omega

/-- The test of `alloc_init_section` at the cursor of the loop. -/
theorem AtPiece.sectPiece_iff {lo hi phys i addr p : Nat}
    (h : AtPiece lo hi i addr) (hphys : p = phys + (addr - lo)) :
    SectPiece lo hi phys i ↔ Aligned addr (l1sectAddrEnd addr hi) p := by
  obtain ⟨-, -, haddr, hnext, -⟩ := h.bounds
  have hle := h.lo_le
  rw [SectPiece, ← haddr, ← hnext, ← hphys]

/-- The piece after it, unless it is the last one. -/
theorem AtPiece.next {lo hi i addr : Nat} (h : AtPiece lo hi i addr)
    (hne : l1sectAddrEnd addr hi ≠ hi) :
    AtPiece lo hi (i + 1) (l1sectAddrEnd addr hi) := by
  obtain ⟨hlo, hhi, hslot, hstart⟩ := h
  unfold l1sectAddrEnd at hne ⊢
  constructor <;> omega

theorem AtPiece.first {lo hi : Nat} (h : lo < hi) :
    AtPiece lo hi (l1pteIndex lo) lo :=
  ⟨Nat.le_refl lo, h, rfl, Or.inl rfl⟩

end SyeLabs.Mmu
