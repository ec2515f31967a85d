/-
The step 3 build after `init_page_table`, against the memory it is meant
to be.

`refCall` is the intended memory: one byte for each of the 65536
addresses, 0 at first, with pages 5..8 out of reach and pages 10..12
read only. `init_page_table` marks pages 5..8 by setting every bit of
their entries (`page_table[i] |= ~VALID_BIT` over an entry whose valid
bit is already set), so they are valid pages with attribute X: neither
test lets them through (`initPte_unmapped`). Every other page has a frame
of its own (`initPte_mapped`), and the two memories stay in step
(`Refines`).
-/
import SyeLabs.MemSim.Protection

namespace SyeLabs.MemSim

open Lib

-- ========================================================= the intended memory

/-- The page of an address. -/
def pageOf (vaddr : BitVec 32) : Nat := vaddr.toNat / 256 % 256

/-- Pages 5..8 are out of reach. -/
def Unmapped (page : Nat) : Prop := 5 ≤ page ∧ page ≤ 8

/-- Pages 10..12 are read only. -/
def ReadOnly (page : Nat) : Prop := 10 ≤ page ∧ page ≤ 12

instance (page : Nat) : Decidable (Unmapped page) :=
  inferInstanceAs (Decidable (_ ∧ _))

instance (page : Nat) : Decidable (ReadOnly page) :=
  inferInstanceAs (Decidable (_ ∧ _))

/-- A memory of 65536 bytes. -/
abbrev RefMem := BitVec 16 → BitVec 8

/-- One call of the intended memory. -/
def refCall (m : RefMem) : Call → Answer × RefMem
  | .getByte vaddr (some old) =>
      if Unmapped (pageOf vaddr) then (⟨-1, some old⟩, m)
      else (⟨0, some (m (vaddr.setWidth 16))⟩, m)
  | .getByte _ none => (⟨-1, none⟩, m)
  | .storeByte vaddr byte =>
      if Unmapped (pageOf vaddr) ∨ ReadOnly (pageOf vaddr) then
        (⟨-1, none⟩, m)
      else (⟨0, none⟩, Function.update m (vaddr.setWidth 16) byte)

-- ================================================================= the entries

/-- Pages 5..8 have attribute X. -/
theorem initPte_unmapped {i : Nat} (hi : Unmapped i) :
    pteAttr (initPte step3Build i) = .x := by
  obtain ⟨h5, h8⟩ := hi
  interval_cases i <;> decide

/-- The entry of any other page is valid, its attribute R or ALL, and its
frame counts from the end. -/
theorem initPte_mapped {i : Nat} (hlt : i < 256) (hi : ¬ Unmapped i) :
    pteValid (initPte step3Build i) = true
      ∧ pteAttr (initPte step3Build i) = (if ReadOnly i then .r else .all)
      ∧ frameIndex step3Build (initPte step3Build i) = 255 - i := by
  have hall : ∀ i : Fin 256, ¬ Unmapped i.val →
      pteValid (initPte step3Build i.val) = true
        ∧ pteAttr (initPte step3Build i.val)
          = (if ReadOnly i.val then .r else .all)
        ∧ frameIndex step3Build (initPte step3Build i.val)
          = 255 - i.val := by decide +kernel
  exact hall ⟨i, hlt⟩ hi

theorem high8_toNat (x : BitVec 16) :
    (high8 x).toNat = x.toNat / 256 % 256 := by
  unfold high8
  rw [BitVec.toNat_and, BitVec.toNat_ushiftRight, Nat.shiftRight_eq_div_pow]
  exact Nat.and_two_pow_sub_one_eq_mod (x.toNat / 2 ^ 8) 8

theorem offsetIndex_step3 (vaddr : BitVec 32) :
    offsetIndex step3Build vaddr = vaddr.toNat % 256 := by
  show (low8 vaddr).toNat = _
  unfold low8
  rw [BitVec.toNat_and]
  exact Nat.and_two_pow_sub_one_eq_mod vaddr.toNat 8

/-- The entry an address goes through while the page table is the initial
one. -/
theorem localPte_step3 {s : Sim}
    (hs : s.pageTable = (booted step3Build).pageTable)
    (vaddr : BitVec 32) :
    localPte step3Build s vaddr = initPte step3Build (pageOf vaddr) := by
  have hidx : pageIndex step3Build (vaddr.setWidth 16) = pageOf vaddr := by
    show (high8 (vaddr.setWidth 16)).toNat = _
    rw [high8_toNat, BitVec.toNat_setWidth]
    unfold pageOf
    omega
  have hlt : pageOf vaddr < 256 := Nat.mod_lt _ (by decide)
  show s.pageTable _ = _
  rw [hs, booted, initPageTable_pageTable, hidx]
  exact if_pos hlt

/-- The readable pages. -/
theorem readable_step3_iff {s : Sim}
    (hs : s.pageTable = (booted step3Build).pageTable)
    (vaddr : BitVec 32) :
    s.readable vaddr ↔ ¬ Unmapped (pageOf vaddr) := by
  have hlt : pageOf vaddr < 256 := Nat.mod_lt _ (by decide)
  unfold Sim.readable
  rw [localPte_step3 hs]
  constructor
  · intro h hun
    rw [initPte_unmapped hun] at h
    exact absurd h.2 (by decide)
  · intro hun
    obtain ⟨hvalid, hattr, -⟩ := initPte_mapped hlt hun
    refine ⟨hvalid, ?_⟩
    rw [hattr]
    split
    · exact Or.inl rfl
    · exact Or.inr rfl

/-- The pages a store gets through to. -/
theorem writableAttr_step3_iff {s : Sim}
    (hs : s.pageTable = (booted step3Build).pageTable)
    (vaddr : BitVec 32) :
    s.writableAttr vaddr
      ↔ ¬ (Unmapped (pageOf vaddr) ∨ ReadOnly (pageOf vaddr)) := by
  have hlt : pageOf vaddr < 256 := Nat.mod_lt _ (by decide)
  unfold Sim.writableAttr
  rw [localPte_step3 hs]
  by_cases hun : Unmapped (pageOf vaddr)
  · rw [initPte_unmapped hun]
    exact iff_of_false (by decide) (not_not_intro (Or.inl hun))
  · obtain ⟨-, hattr, -⟩ := initPte_mapped hlt hun
    rw [hattr]
    by_cases hro : ReadOnly (pageOf vaddr)
    · rw [if_pos hro]
      exact iff_of_false (by decide) (not_not_intro (Or.inr hro))
    · rw [if_neg hro]
      exact iff_of_true (by decide) (not_or_intro hun hro)

-- ============================================================== the simulation

/-- The page table is the initial one, and every byte in reach is in the
frame its page has. -/
structure Refines (s : Sim) (m : RefMem) : Prop where
  table : s.pageTable = (booted step3Build).pageTable
  cells : ∀ a : BitVec 16, ¬ Unmapped (a.toNat / 256) →
    s.mainMem (255 - a.toNat / 256) (a.toNat % 256) = m a

/-- The cell of an address in reach. -/
theorem Refines.cell {s : Sim} {m : RefMem} (h : Refines s m)
    {vaddr : BitVec 32} (hun : ¬ Unmapped (pageOf vaddr)) :
    frameIndex step3Build (localPte step3Build s vaddr)
        = 255 - (vaddr.setWidth 16).toNat / 256
      ∧ offsetIndex step3Build vaddr = (vaddr.setWidth 16).toNat % 256
      ∧ pageOf vaddr = (vaddr.setWidth 16).toNat / 256 := by
  have hlt : pageOf vaddr < 256 := Nat.mod_lt _ (by decide)
  have hpage : pageOf vaddr = (vaddr.setWidth 16).toNat / 256 := by
    rw [BitVec.toNat_setWidth]
    unfold pageOf
    omega
  refine ⟨?_, ?_, hpage⟩
  · rw [localPte_step3 h.table, (initPte_mapped hlt hun).2.2, hpage]
  · rw [offsetIndex_step3, BitVec.toNat_setWidth]
    omega

/-- A store in both memories. -/
theorem Refines.store {s : Sim} {m : RefMem} (h : Refines s m)
    {vaddr : BitVec 32} (byte : BitVec 8)
    (hun : ¬ Unmapped (pageOf vaddr)) :
    Refines (setMem s (frameIndex step3Build (localPte step3Build s vaddr))
        (offsetIndex step3Build vaddr) byte)
      (Function.update m (vaddr.setWidth 16) byte) := by
  obtain ⟨hframe, hoffset, -⟩ := h.cell hun
  refine ⟨h.table, fun a ha => ?_⟩
  have hlt := a.isLt
  have hlt' := (vaddr.setWidth 16).isLt
  simp only [setMem, hframe, hoffset]
  by_cases hav : a = vaddr.setWidth 16
  · subst hav
    rw [Function.update_self, Function.update_self, Function.update_self]
  · have hne : a.toNat ≠ (vaddr.setWidth 16).toNat :=
      fun heq => hav (BitVec.eq_of_toNat_eq heq)
    rw [Function.update_of_ne hav, ← h.cells a ha]
    by_cases hf : 255 - a.toNat / 256
        = 255 - (vaddr.setWidth 16).toNat / 256
    · rw [hf, Function.update_self, Function.update_of_ne (by omega)]
    · rw [Function.update_of_ne hf]

/-- One call in both memories. -/
theorem refines_call {s : Sim} {m : RefMem} (c : Call) (h : Refines s m) :
    (call step3Build s c).1 = (refCall m c).1
      ∧ Refines (call step3Build s c).2 (refCall m c).2 := by
  cases c with
  | getByte vaddr byte =>
      cases byte with
      | none => exact ⟨rfl, h⟩
      | some old =>
          have hread := readable_step3_iff h.table vaddr
          by_cases hun : Unmapped (pageOf vaddr)
          · have hno : ¬ s.readable vaddr := fun hr => hread.mp hr hun
            simp only [call, getByte_step3, if_neg hno, refCall, if_pos hun]
            exact ⟨trivial, h⟩
          · obtain ⟨hframe, hoffset, hpage⟩ := h.cell hun
            have hcell := h.cells (vaddr.setWidth 16)
              (by rw [← hpage]; exact hun)
            simp only [call, getByte_step3, if_pos (hread.mpr hun), refCall,
              if_neg hun, hframe, hoffset, hcell]
            exact ⟨trivial, h⟩
  | storeByte vaddr byte =>
      have hwrite := writableAttr_step3_iff h.table vaddr
      by_cases hno : Unmapped (pageOf vaddr) ∨ ReadOnly (pageOf vaddr)
      · have hattr : ¬ s.writableAttr vaddr := fun hw => hwrite.mp hw hno
        simp only [call, storeByte_step3, if_neg hattr, refCall, if_pos hno]
        exact ⟨trivial, h⟩
      · simp only [call, storeByte_step3, if_pos (hwrite.mpr hno), refCall,
          if_neg hno]
        exact ⟨trivial, h.store byte fun hun => hno (Or.inl hun)⟩

theorem refines_booted : Refines (booted step3Build) (fun _ => 0) :=
  ⟨rfl, fun _ _ => rfl⟩

/-- A call that fails leaves memory and byte as they are. -/
def FailsClean (s : Sim) (c : Call) : Prop :=
  (call step3Build s c).1.code ≠ 0 →
    call step3Build s c = (⟨-1, c.byte⟩, s)

theorem failsClean (s : Sim) (c : Call) : FailsClean s c := by
  intro hcode
  cases c with
  | getByte vaddr byte =>
      cases byte with
      | none => rfl
      | some old =>
          by_cases hread : s.readable vaddr
          · simp only [call, getByte_step3, if_pos hread] at hcode
            exact absurd rfl hcode
          · simp only [call, getByte_step3, if_neg hread]
            rfl
  | storeByte vaddr byte =>
      by_cases hattr : s.writableAttr vaddr
      · simp only [call, storeByte_step3, if_pos hattr] at hcode
        exact absurd rfl hcode
      · simp only [call, storeByte_step3, if_neg hattr]
        rfl

/-- After `init_page_table` every sequence of calls is answered as the
intended memory answers it, and a call that fails returns -1 and changes
neither the memory nor the caller's byte. -/
theorem step3_refines (calls : List Call) :
    answers (call step3Build) (booted step3Build) calls
        = answers refCall (fun _ => 0) calls
      ∧ Throughout (call step3Build) FailsClean (booted step3Build) calls :=
  ⟨(answers_eq_of_simulation (fun _ _ c h => refines_call c h)
    refines_booted calls).1, fun _ c _ _ => failsClean _ c⟩

end SyeLabs.MemSim
