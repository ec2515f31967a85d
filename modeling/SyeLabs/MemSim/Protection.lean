/-
The step 3 build and the permissions of its page table entries.

# Calls

A run is a sequence of `get_byte` and `store_byte` calls (`Call`), each
of which answers with a result code and what the caller's byte holds
afterwards.

# Two tests

`get_byte` and `store_byte` test the attributes and the valid bit with
expressions of their own. Read as one table of permissions
(`Sim.readable`, `Sim.writable`) the loads are right (`getByte_step3`);
the stores test the attributes only (`storeByte_step3`), because `!=`
binds tighter than `&`.
-/
import Mathlib.Tactic.IntervalCases
import SyeLabs.Lib.Mealy
import SyeLabs.MemSim.Basic

namespace SyeLabs.MemSim

open Lib

-- ======================================================================= calls

/-- A call of the interface. The caller's byte of a load is `none` for a
null pointer. -/
inductive Call
  | getByte (vaddr : BitVec 32) (byte : Option (BitVec 8))
  | storeByte (vaddr : BitVec 32) (byte : BitVec 8)

/-- The result code, and what the caller's byte holds afterwards. -/
structure Answer where
  code : Int
  byte : Option (BitVec 8)

/-- What the caller's byte holds before the call. -/
def Call.byte : Call → Option (BitVec 8)
  | .getByte _ byte => byte
  | .storeByte _ _ => none

/-- One call. -/
def call (b : Build) (s : Sim) : Call → Answer × Sim
  | .getByte vaddr byte =>
      let r := getByte b s vaddr byte
      (⟨r.1, r.2⟩, s)
  | .storeByte vaddr byte =>
      let r := storeByte b s vaddr byte
      (⟨r.1, none⟩, r.2)

/-- No call changes the page table. -/
theorem call_pageTable (b : Build) (s : Sim) (c : Call) :
    (call b s c).2.pageTable = s.pageTable := by
  cases c with
  | getByte vaddr byte => rfl
  | storeByte vaddr byte => exact storeByte_pageTable b s vaddr byte

-- ================================================================= permissions

/-- What the attribute bits 2..1 of an entry allow. -/
inductive Attr
  | all
  | r
  | w
  | x
  deriving DecidableEq

/-- The valid bit of an entry. -/
def pteValid (pte : BitVec 16) : Bool := pte.toNat % 2 == 1

/-- The attribute of an entry: 00 = ALL, 01 = R, 10 = W, 11 = X. -/
def pteAttr (pte : BitVec 16) : Attr :=
  match pte.toNat / 2 % 4 with
  | 0 => .all
  | 1 => .r
  | 2 => .w
  | _ => .x

/-- The page may be read: its entry is valid and R or ALL. -/
def Sim.readable (s : Sim) (vaddr : BitVec 32) : Prop :=
  pteValid (localPte step3Build s vaddr) = true
    ∧ (pteAttr (localPte step3Build s vaddr) = .r
      ∨ pteAttr (localPte step3Build s vaddr) = .all)

/-- The attribute of the page is W or ALL. -/
def Sim.writableAttr (s : Sim) (vaddr : BitVec 32) : Prop :=
  pteAttr (localPte step3Build s vaddr) = .w
    ∨ pteAttr (localPte step3Build s vaddr) = .all

/-- The page may be written: its entry is valid and W or ALL. -/
def Sim.writable (s : Sim) (vaddr : BitVec 32) : Prop :=
  pteValid (localPte step3Build s vaddr) = true ∧ s.writableAttr vaddr

instance (s : Sim) (vaddr : BitVec 32) : Decidable (s.readable vaddr) :=
  inferInstanceAs (Decidable (_ ∧ _))

instance (s : Sim) (vaddr : BitVec 32) : Decidable (s.writableAttr vaddr) :=
  inferInstanceAs (Decidable (_ ∨ _))

instance (s : Sim) (vaddr : BitVec 32) : Decidable (s.writable vaddr) :=
  inferInstanceAs (Decidable (_ ∧ _))

-- =============================================================== the two tests

theorem rwxOf_toNat (pte : BitVec 16) :
    (rwxOf pte).toNat = pte.toNat / 2 % 4 := by
  have hshift : rwxOf pte = (pte >>> 1) &&& 3#16 := by
    unfold rwxOf rwxBits
    rw [BitVec.ushiftRight_and_distrib]
    rfl
  rw [hshift, BitVec.toNat_and, BitVec.toNat_ushiftRight,
    Nat.shiftRight_eq_div_pow]
  exact Nat.and_two_pow_sub_one_eq_mod _ 2

/-- The attribute test of `get_byte`. -/
theorem rwxOf_read_iff (pte : BitVec 16) :
    (rwxOf pte != rPattern && rwxOf pte != rwxPattern) = true
      ↔ ¬ (pteAttr pte = .r ∨ pteAttr pte = .all) := by
  have hlt : pte.toNat / 2 % 4 < 4 := Nat.mod_lt _ (by decide)
  have hr : rPattern.toNat = 1 := rfl
  have hall : rwxPattern.toNat = 0 := rfl
  simp only [Bool.and_eq_true, bne_iff_ne, ne_eq, BitVec.toNat_eq,
    rwxOf_toNat, hr, hall, pteAttr]
  interval_cases pte.toNat / 2 % 4 <;> decide

/-- The attribute test of `store_byte`. -/
theorem rwxOf_write_iff (pte : BitVec 16) :
    (rwxOf pte != wPattern && rwxOf pte != rwxPattern) = true
      ↔ ¬ (pteAttr pte = .w ∨ pteAttr pte = .all) := by
  have hlt : pte.toNat / 2 % 4 < 4 := Nat.mod_lt _ (by decide)
  have hw : wPattern.toNat = 2 := rfl
  have hall : rwxPattern.toNat = 0 := rfl
  simp only [Bool.and_eq_true, bne_iff_ne, ne_eq, BitVec.toNat_eq,
    rwxOf_toNat, hw, hall, pteAttr]
  interval_cases pte.toNat / 2 % 4 <;> decide

/-- The validity test of `get_byte`. -/
theorem valid_read_iff (pte : BitVec 16) :
    (((pte >>> 0) &&& 1) != validBit) = true ↔ pteValid pte = false := by
  have hone : ((pte >>> 0) &&& 1).toNat = pte.toNat % 2 := by
    rw [BitVec.toNat_and]
    exact Nat.and_two_pow_sub_one_eq_mod pte.toNat 1
  have hvalid : validBit.toNat = 1 := rfl
  simp only [bne_iff_ne, ne_eq, BitVec.toNat_eq, hone, hvalid, pteValid,
    beq_eq_false_iff_ne]

/-- The validity test of `store_byte` never fails. -/
theorem storeMask_eq_zero (pte : BitVec 16) : storeMask pte = 0 := by
  have hsame : ((1#16 <<< 0) >>> 0 != validBit) = false := by decide
  unfold storeMask
  rw [hsame]
  exact BitVec.and_zero

/-- A load succeeds exactly on the readable pages. -/
theorem getByte_step3 (s : Sim) (vaddr : BitVec 32) (old : BitVec 8) :
    getByte step3Build s vaddr (some old)
      = if s.readable vaddr then
          (0, some (s.mainMem
            (frameIndex step3Build (localPte step3Build s vaddr))
            (offsetIndex step3Build vaddr)))
        else (-1, some old) := by
  have hactive : step3Build.memoryPteAttributesActive = true := rfl
  unfold getByte
  simp only [hactive, Bool.true_and]
  by_cases hattr : pteAttr (localPte step3Build s vaddr) = .r
      ∨ pteAttr (localPte step3Build s vaddr) = .all
  · rw [if_neg fun h => (rwxOf_read_iff _).mp h hattr]
    cases hvalid : pteValid (localPte step3Build s vaddr) with
    | false =>
        have hread : ¬ s.readable vaddr :=
          fun h => Bool.false_ne_true (hvalid.symm.trans h.1)
        rw [if_pos ((valid_read_iff _).mpr hvalid), if_neg hread]
    | true =>
        have htest : ¬ ((localPte step3Build s vaddr >>> 0 &&& 1)
            != validBit) = true := by
          rw [valid_read_iff, hvalid]
          decide
        have hread : s.readable vaddr := ⟨hvalid, hattr⟩
        rw [if_neg htest, if_pos hread]
  · have hread : ¬ s.readable vaddr := fun h => hattr h.2
    rw [if_pos ((rwxOf_read_iff _).mpr hattr), if_neg hread]

/-- A store succeeds on every page whose attribute is W or ALL. -/
theorem storeByte_step3 (s : Sim) (vaddr : BitVec 32) (byte : BitVec 8) :
    storeByte step3Build s vaddr byte
      = if s.writableAttr vaddr then
          (0, setMem s (frameIndex step3Build (localPte step3Build s vaddr))
            (offsetIndex step3Build vaddr) byte)
        else (-1, s) := by
  have hactive : step3Build.memoryPteAttributesActive = true := rfl
  unfold storeByte
  simp only [hactive, Bool.true_and, storeMask_eq_zero]
  by_cases hattr : s.writableAttr vaddr
  · rw [if_neg fun h => (rwxOf_write_iff _).mp h hattr, if_pos hattr]
    rfl
  · rw [if_pos ((rwxOf_write_iff _).mpr hattr), if_neg hattr]

-- ======================================================== protection, and when

/-- What the page table permits. -/
def Permitted (s : Sim) : Call → Prop
  | .getByte vaddr byte => byte.isSome ∧ s.readable vaddr
  | .storeByte vaddr _ => s.writable vaddr

/-- What protection asks of one call. -/
structure Guarded (s : Sim) (c : Call) : Prop where
  /-- A byte changes only through a permitted store. -/
  changes : ∀ f o, (call step3Build s c).2.mainMem f o ≠ s.mainMem f o →
    Permitted s c ∧ ∃ vaddr byte, c = .storeByte vaddr byte
  /-- A byte is returned only through a permitted load. -/
  returns : ∀ vaddr byte, c = .getByte vaddr byte →
    (call step3Build s c).1.code = 0 → Permitted s c
  /-- Any other call fails and changes nothing. -/
  fails : ¬ Permitted s c → call step3Build s c = (⟨-1, c.byte⟩, s)

/-- A load is guarded. -/
theorem guarded_getByte (s : Sim) (vaddr : BitVec 32)
    (byte : Option (BitVec 8)) : Guarded s (.getByte vaddr byte) := by
  have hcases : Permitted s (.getByte vaddr byte)
      ∨ call step3Build s (.getByte vaddr byte) = (⟨-1, byte⟩, s) := by
    cases byte with
    | none => exact Or.inr rfl
    | some old =>
        by_cases hread : s.readable vaddr
        · exact Or.inl ⟨rfl, hread⟩
        · right
          simp only [call, getByte_step3, if_neg hread]
  refine ⟨fun f o h => absurd rfl h, fun _ _ _ hcode => ?_,
    fun hn => hcases.resolve_left hn⟩
  rcases hcases with h | h
  · exact h
  · rw [h] at hcode
    cases hcode

/-- A store is guarded exactly when its page is not one with the valid
bit clear and attribute W or ALL. -/
theorem guarded_storeByte_iff (s : Sim) (vaddr : BitVec 32)
    (byte : BitVec 8) : Guarded s (.storeByte vaddr byte)
      ↔ (s.writableAttr vaddr →
          pteValid (localPte step3Build s vaddr) = true) := by
  by_cases hattr : s.writableAttr vaddr
  · constructor
    · intro h _
      by_contra hvalid
      have hfail := h.fails fun hp => hvalid hp.1
      simp only [call, storeByte_step3, if_pos hattr] at hfail
      have hcode : (0 : Int) = -1 := congrArg (fun r => r.1.code) hfail
      exact absurd hcode (by decide)
    · intro hvalid
      have hp : Permitted s (.storeByte vaddr byte) := ⟨hvalid hattr, hattr⟩
      exact ⟨fun _ _ _ => ⟨hp, vaddr, byte, rfl⟩, fun _ _ _ _ => hp,
        fun hn => absurd hp hn⟩
  · have hfail : call step3Build s (.storeByte vaddr byte)
        = (⟨-1, none⟩, s) := by
      simp only [call, storeByte_step3, if_neg hattr]
    refine iff_of_true ⟨fun f o h => ?_, fun _ _ hc => ?_, fun _ => hfail⟩
      fun h => absurd h hattr
    · rw [hfail] at h
      exact absurd rfl h
    · cases hc

/-- Whatever the page table holds: every call of a sequence is guarded
exactly when no store of it goes through an entry with the valid bit
clear and attribute W or ALL. -/
theorem protection_iff (s : Sim) (calls : List Call) :
    Throughout (call step3Build) Guarded s calls
      ↔ ∀ vaddr byte, .storeByte vaddr byte ∈ calls →
          s.writableAttr vaddr →
          pteValid (localPte step3Build s vaddr) = true := by
  have hlocal : ∀ t : Sim, t.pageTable = s.pageTable → ∀ vaddr,
      localPte step3Build t vaddr = localPte step3Build s vaddr := by
    intro t ht vaddr
    show t.pageTable _ = s.pageTable _
    rw [ht]
  have hcalls : Throughout (call step3Build) Guarded s calls
      ↔ ∀ c ∈ calls, ∀ vaddr byte, c = .storeByte vaddr byte →
        s.writableAttr vaddr →
        pteValid (localPte step3Build s vaddr) = true :=
    throughout_iff_forall
    (I := fun t => t.pageTable = s.pageTable)
    (D := fun c => ∀ vaddr byte, c = .storeByte vaddr byte →
      s.writableAttr vaddr →
      pteValid (localPte step3Build s vaddr) = true)
    (fun t c ht => (call_pageTable _ t c).trans ht)
    (fun t c ht => by
      cases c with
      | getByte vaddr byte =>
          exact iff_of_true (guarded_getByte t vaddr byte) nofun
      | storeByte vaddr byte =>
          rw [guarded_storeByte_iff, Sim.writableAttr, hlocal t ht]
          constructor
          · intro h v b hc
            cases hc
            exact h
          · exact fun h => h vaddr byte rfl)
    rfl calls
  rw [hcalls]
  constructor
  · exact fun h vaddr byte hmem => h _ hmem vaddr byte rfl
  · intro h c hc vaddr byte heq
    subst heq
    exact h vaddr byte hc

/-- Through an entry of zeros, not valid and open to all, a store writes
the memory. -/
theorem not_guarded_invalid_store :
    (call step3Build staticInit (.storeByte 0x0000 1)).1.code = 0
      ∧ (call step3Build staticInit (.storeByte 0x0000 1)).2.mainMem 0 0 = 1
      ∧ ¬ Throughout (call step3Build) Guarded staticInit
          [.storeByte 0x0000 1] := by
  refine ⟨rfl, rfl, fun h => ?_⟩
  have hstore := h [] (.storeByte 0x0000 1) [] rfl
  have hvalid := (guarded_storeByte_iff staticInit 0x0000 1).mp hstore
    (by decide)
  exact absurd hvalid (by decide)

end SyeLabs.MemSim
