/-
The default build as a map from addresses to bytes, and how far it is
one.

In this build `HIGH6` picks bits 5..3, so a 16-bit address selects one
of the first eight page table entries, and each of those, shifted into
place by ten, selects row 0 of `main_mem` again (`localPte_default`,
`frameIndex_default`). What is left of the address is its ten low bits:
the memory is one kilobyte large and the address space wraps over it 64
times. The store and load functions are therefore the general
cells-behind-a-translation of `Lib.CellMap` at the translation
`v ↦ v % 1024`, and the memory is the intended map exactly for the
store sequences that leave equal bytes at equal residues.
-/
import Mathlib.Tactic.IntervalCases
import SyeLabs.Lib.CellMap
import SyeLabs.MemSim.Basic

namespace SyeLabs.MemSim

open Lib (refMap cellMap)

-- ======================================================= where an address goes

/-- The index macros as arithmetic. -/
theorem high6_toNat {w : Nat} (hw : 3 ≤ w) (x : BitVec w) :
    (high6 x).toNat = x.toNat / 8 % 8 := by
  have h7 : 7 % 2 ^ w = 2 ^ 3 - 1 := by
    have hlt : 7 < 2 ^ w := by
      calc 7 < 2 ^ 3 := by decide
        _ ≤ 2 ^ w := Nat.pow_le_pow_right (by decide) hw
    exact Nat.mod_eq_of_lt hlt
  unfold high6
  rw [BitVec.toNat_and, BitVec.toNat_ushiftRight, BitVec.toNat_ofNat, h7,
    Nat.and_two_pow_sub_one_eq_mod, Nat.shiftRight_eq_div_pow]

theorem low10_toNat (x : BitVec 32) : (low10 x).toNat = x.toNat % 1024 := by
  unfold low10
  rw [BitVec.toNat_and]
  exact Nat.and_two_pow_sub_one_eq_mod x.toNat 10

/-- Every entry of the default build selects row 0: the ten-bit shift
of `init_page_table` clears the bits `HIGH6` reads. -/
theorem frameIndex_initPte {i : Nat} (hi : i < 8) :
    frameIndex defaultBuild (initPte defaultBuild i) = 0 := by
  interval_cases i <;> rfl

/-- A virtual address selects one of the first eight entries. -/
theorem pageIndex_default (vaddr : BitVec 16) :
    pageIndex defaultBuild vaddr < 8 := by
  have h : pageIndex defaultBuild vaddr = (high6 vaddr).toNat := rfl
  rw [h, high6_toNat (by decide)]
  omega

/-- Through any page table that is still the initial one, every address
reaches row 0. -/
theorem frameIndex_default {s : Sim}
    (hs : s.pageTable = (booted defaultBuild).pageTable)
    (vaddr : BitVec 32) :
    frameIndex defaultBuild (localPte defaultBuild s vaddr) = 0 := by
  have hidx := pageIndex_default (vaddr.setWidth 16)
  have hpte : localPte defaultBuild s vaddr
      = initPte defaultBuild (pageIndex defaultBuild (vaddr.setWidth 16)) := by
    show s.pageTable _ = _
    rw [hs, booted, initPageTable_pageTable]
    exact if_pos (Nat.lt_of_lt_of_le hidx (by decide))
  rw [hpte]
  exact frameIndex_initPte hidx

theorem offsetIndex_default (vaddr : BitVec 32) :
    offsetIndex defaultBuild vaddr = vaddr.toNat % 1024 :=
  low10_toNat vaddr

-- ===================================================== the one-kilobyte memory

/-- A load returns the byte of the cell its residue selects. -/
theorem getByte_default {s : Sim}
    (hs : s.pageTable = (booted defaultBuild).pageTable)
    (vaddr : BitVec 32) (old : BitVec 8) :
    getByte defaultBuild s vaddr (some old)
      = (0, some (s.mainMem 0 (vaddr.toNat % 1024))) := by
  show (0, some (s.mainMem (frameIndex defaultBuild _)
    (offsetIndex defaultBuild vaddr))) = _
  rw [frameIndex_default hs, offsetIndex_default]

/-- A store succeeds and writes the cell its residue selects. -/
theorem storeByte_default {s : Sim}
    (hs : s.pageTable = (booted defaultBuild).pageTable)
    (vaddr : BitVec 32) (byte : BitVec 8) :
    storeByte defaultBuild s vaddr byte
      = (0, setMem s 0 (vaddr.toNat % 1024) byte) := by
  show (0, setMem s (frameIndex defaultBuild _)
    (offsetIndex defaultBuild vaddr) byte) = _
  rw [frameIndex_default hs, offsetIndex_default]

/-- A store sequence leaves in row 0 the cells of the translation
`v ↦ v % 1024`. -/
theorem storeAll_default (ops : List (BitVec 32 × BitVec 8)) :
    (storeAll defaultBuild (booted defaultBuild) ops).mainMem 0
      = cellMap (fun v : BitVec 32 => v.toNat % 1024) 0 ops := by
  induction ops using List.reverseRecOn with
  | nil => rfl
  | append_singleton ops op ih =>
      rw [storeAll_snoc, Lib.cellMap_snoc, ← ih,
        storeByte_default (storeAll_pageTable _ _ _)]
      simp [setMem]

-- ================================================= the map, and when it is one

/-- After the stores `ops` every 16-bit address reads as the map the
stores describe, whatever the caller's byte held before. -/
def BehavesAsMap (ops : List (BitVec 32 × BitVec 8)) : Prop :=
  ∀ (v : BitVec 32) (old : BitVec 8), v.toNat < 65536 →
    getByte defaultBuild (storeAll defaultBuild (booted defaultBuild) ops)
      v (some old) = (0, some (refMap 0 ops v))

/-- The default memory is the map of its stores exactly when the map
gives equal bytes to addresses that are equal modulo 1024. -/
theorem behavesAsMap_iff {ops : List (BitVec 32 × BitVec 8)}
    (hops : ∀ op ∈ ops, op.1.toNat < 65536) :
    BehavesAsMap ops ↔
      ∀ v w : BitVec 32, v.toNat < 65536 → w.toNat < 65536 →
        v.toNat % 1024 = w.toNat % 1024 →
        refMap (0 : BitVec 8) ops v = refMap 0 ops w := by
  have hcells := Lib.cellMap_agrees_iff
    (fun v : BitVec 32 => v.toNat % 1024) (0 : BitVec 8)
    (D := fun v => v.toNat < 65536) hops
  refine Iff.trans ?_ hcells
  have hread : ∀ (v : BitVec 32) (old : BitVec 8),
      getByte defaultBuild (storeAll defaultBuild (booted defaultBuild) ops)
        v (some old)
        = (0, some (cellMap (fun v : BitVec 32 => v.toNat % 1024) 0 ops
            (v.toNat % 1024))) := by
    intro v old
    rw [getByte_default (storeAll_pageTable _ _ _), storeAll_default]
  constructor
  · intro h v hv
    have := h v 0 hv
    rw [hread] at this
    simpa using this
  · intro h v old hv
    rw [hread, h v hv]

/-- The same byte stored at every address of one residue. -/
def sevens : List (BitVec 32 × BitVec 8) :=
  (List.range 64).map fun k => (BitVec.ofNat 32 (k * 1024), 7)

/-- Such a sequence: each of its stores can be read back where it was
made, and nowhere else. -/
theorem behavesAsMap_sevens :
    BehavesAsMap sevens ∧ refMap (0 : BitVec 8) sevens 0x400 = 7
      ∧ refMap (0 : BitVec 8) sevens 0x401 = 0 := by
  have hmem : ∀ op ∈ sevens, ∃ k, k < 64 ∧ op.1.toNat = k * 1024
      ∧ op.2 = 7 := by
    intro op hop
    obtain ⟨k, hk, rfl⟩ := List.mem_map.mp hop
    have hlt := List.mem_range.mp hk
    refine ⟨k, hlt, ?_, rfl⟩
    rw [BitVec.toNat_ofNat]
    exact Nat.mod_eq_of_lt (by omega)
  have hseven : ∀ v : BitVec 32, v.toNat < 65536 → v.toNat % 1024 = 0 →
      refMap (0 : BitVec 8) sevens v = 7 := by
    intro v hv hzero
    refine Lib.refMap_of_stored 0 (fun op hop _ => ?_) ?_
    · obtain ⟨k, -, -, hbyte⟩ := hmem op hop
      exact hbyte
    · have haddr : BitVec.ofNat 32 (v.toNat / 1024 * 1024) = v := by
        apply BitVec.eq_of_toNat_eq
        rw [BitVec.toNat_ofNat]
        omega
      exact ⟨(v, 7), List.mem_map.mpr ⟨v.toNat / 1024,
        List.mem_range.mpr (by omega), by rw [haddr]⟩, rfl⟩
  have hother : ∀ v : BitVec 32, v.toNat % 1024 ≠ 0 →
      refMap (0 : BitVec 8) sevens v = 0 := by
    intro v hzero
    refine Lib.refMap_of_not_stored 0 fun op hop heq => hzero ?_
    obtain ⟨k, -, haddr, -⟩ := hmem op hop
    rw [← heq, haddr]
    exact Nat.mul_mod_left k 1024
  refine ⟨(behavesAsMap_iff fun op hop => ?_).mpr fun v w hv hw h => ?_,
    hseven _ (by decide) (by decide), hother _ (by decide)⟩
  · obtain ⟨k, hk, haddr, -⟩ := hmem op hop
    omega
  · by_cases hzero : v.toNat % 1024 = 0
    · rw [hseven v hv hzero, hseven w hw (h ▸ hzero)]
    · rw [hother v hzero, hother w (h ▸ hzero)]

/-- A byte stored at address 0 is read back at address 1024, where
nothing was stored. -/
theorem not_behavesAsMap_alias : ¬ BehavesAsMap [(0x0000, 1)] := by
  intro h
  have hload := h 1024 0 (by decide)
  have hread : getByte defaultBuild
      (storeAll defaultBuild (booted defaultBuild) [(0x0000, 1)]) 1024
      (some 0) = (0, some 1) := by
    rw [getByte_default (storeAll_pageTable _ _ _), storeAll_default]
    rfl
  rw [hread] at hload
  exact absurd hload (by decide)

end SyeLabs.MemSim
