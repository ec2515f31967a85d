/-
`mmu_configure`: the system table before the MMU is switched on.

The function empties the table and then writes sections into it: the
megabyte the kernel is running in at its own address, the window of 64
megabytes at `CONFIG_KERNEL_VADDR`, the megabyte of the device tree and
that of the serial port, both at their own addresses. No slot is reserved
for any of them, so a later one replaces an earlier one.

# What the repository lacks

The base of the memory and the address of the serial port are
configuration (`BootConfig`). Neither the address of the device tree nor
that of the serial port need be the start of a section, and the function
stores them as they are and leaves the rest to `set_l1_pte_sect_dcache`:
`SectHelper` says that the helper keeps the address bits and makes a
section of an address of a word.
-/
import SyeLabs.Mmu.Basic

namespace SyeLabs.Mmu

open Lib

variable {H : Type*} {P : Platform}

-- ================================================================ the function

/-- `set_l1_pte_sect_dcache`: the word it leaves of `w`, by `nocache`. -/
structure SectHelper where
  word : Nat → Bool → Nat
  address : ∀ w b, word w b / 1048576 = w / 1048576
  type : ∀ w b, w % 4 = 0 → word w b % 4 = 2

/-- The configuration `mmu_configure` reads. -/
structure BootConfig (P : Platform) where
  /-- `CONFIG_RAM_BASE`. -/
  ramBase : Nat
  /-- `CONFIG_UART_LL_PADDR`. -/
  uartLlPaddr : Nat
  ramBase_aligned : ramBase % 1048576 = 0
  ramBase_lt : ramBase + 67108864 ≤ 4294967296
  window_lt : P.kernelVaddr + 67108864 ≤ 4294967296
  uartLlPaddr_aligned : uartLlPaddr % 4 = 0
  uartLlPaddr_lt : uartLlPaddr < 4294967296

/-- `__pgtable[i] = 0` for all entries. -/
def PageTables.clearL1 (t : PageTables H) (g : Pgtable) : PageTables H :=
  { t with
    l1 := Function.update t.l1 g fun i => if i < 4096 then 0 else t.l1 g i }

/-- `__pgtable[i] = w` and `set_l1_pte_sect_dcache(&__pgtable[i], ..)`. -/
def setSect (S : SectHelper) (t : PageTables H) (i w : Nat)
    (nocache : Bool) : PageTables H :=
  t.setL1 .sys i (S.word w nocache)

/-- `mmu_configure`. -/
def mmuConfigure (S : SectHelper) (C : BootConfig P) (t : PageTables H)
    (fdtAddr : Nat) : PageTables H :=
  let t := t.clearL1 .sys
  let t := setSect S t (l1pteIndex C.ramBase) C.ramBase false
  let t := (List.range 64).foldl
    (fun t i => setSect S t (l1pteIndex P.kernelVaddr + i)
      (C.ramBase + i * sectSize) false) t
  let t := setSect S t (l1pteIndex fdtAddr) fdtAddr false
  setSect S t (l1pteIndex C.uartLlPaddr) C.uartLlPaddr true

-- =================================================================== the slots

variable (S : SectHelper) (C : BootConfig P)

/-- The slot of an address is one of the 64 of the window. -/
def InWindow (P : Platform) (i : Nat) : Prop :=
  P.userSlots ≤ i ∧ i < P.userSlots + 64

instance (i : Nat) : Decidable (InWindow P i) :=
  inferInstanceAs (Decidable (_ ∧ _))

/-- The word of each slot: of several sections with one slot the last one
written stays. -/
def bootWord (fdtAddr i : Nat) : Nat :=
  if i = l1pteIndex C.uartLlPaddr then S.word C.uartLlPaddr true
  else if i = l1pteIndex fdtAddr then S.word fdtAddr false
  else if InWindow P i then
    S.word (C.ramBase + (i - P.userSlots) * sectSize) false
  else if i = l1pteIndex C.ramBase then S.word C.ramBase false
  else 0

theorem setSect_l1 (t : PageTables H) (i w j : Nat) (nocache : Bool) :
    (setSect S t i w nocache).l1 .sys j
      = if j = i then S.word w nocache else t.l1 .sys j := by
  unfold setSect
  by_cases hj : j = i
  · subst hj
    rw [if_pos rfl, setL1_self]
  · rw [if_neg hj, setL1_other _ _ fun h => hj h.2]

/-- The window, slot by slot. -/
theorem setWindow_l1 (t : PageTables H) (j n : Nat) :
    ((List.range n).foldl (fun t i => setSect S t (l1pteIndex P.kernelVaddr
      + i) (C.ramBase + i * sectSize) false) t).l1 .sys j
      = if P.userSlots ≤ j ∧ j < P.userSlots + n then
          S.word (C.ramBase + (j - P.userSlots) * sectSize) false
        else t.l1 .sys j := by
  induction n with
  | zero =>
      have hj : ¬ (P.userSlots ≤ j ∧ j < P.userSlots + 0) := by omega
      rw [if_neg hj]
      rfl
  | succ n ih =>
      rw [List.range_succ, List.foldl_append, List.foldl_cons, List.foldl_nil,
        setSect_l1, ih]
      have hslot : l1pteIndex P.kernelVaddr = P.userSlots := rfl
      rw [hslot]
      by_cases hj : j = P.userSlots + n
      · have hin : P.userSlots ≤ j ∧ j < P.userSlots + (n + 1) := by omega
        rw [if_pos hj, if_pos hin, hj, Nat.add_sub_cancel_left]
      · have hin : (P.userSlots ≤ j ∧ j < P.userSlots + n)
            ↔ (P.userSlots ≤ j ∧ j < P.userSlots + (n + 1)) := by omega
        rw [if_neg hj, if_congr hin rfl rfl]

/-- What `mmu_configure` leaves in each slot. -/
theorem mmuConfigure_slot (t : PageTables H) (fdtAddr : Nat) {i : Nat}
    (hi : i < 4096) :
    (mmuConfigure S C t fdtAddr).l1 .sys i = bootWord S C fdtAddr i := by
  have hclear : (t.clearL1 .sys).l1 .sys i = 0 := by
    simp only [PageTables.clearL1, Function.update_self, if_pos hi]
  unfold mmuConfigure bootWord InWindow
  dsimp only
  rw [setSect_l1, setSect_l1, setWindow_l1, setSect_l1, hclear]
  rfl

-- ==================================================================== the walk

/-- The addresses the kernel finds mapped when the MMU is on. -/
def bootMap (fdtAddr v : Nat) : Option Nat :=
  let i := l1pteIndex v
  if i = l1pteIndex C.uartLlPaddr ∨ i = l1pteIndex fdtAddr then some v
  else if InWindow P i then some (C.ramBase + (v - P.kernelVaddr))
  else if i = l1pteIndex C.ramBase then some v
  else none

variable {S} {C}

/-- A slot with the section of an address maps its megabyte there. -/
theorem walk_of_sectWord {t : PageTables H} {g : Pgtable} {v w : Nat}
    {nocache : Bool} (hw : w % 4 = 0)
    (h : t.l1 g (l1pteIndex v) = S.word w nocache) :
    walk t g v = some (w / 1048576 * 1048576 + v % 1048576) := by
  have hs : l1pteIsSect (t.l1 g (l1pteIndex v)) := by
    rw [h, l1pteIsSect, S.type w nocache hw]
    rfl
  rw [walk_of_sect hs, h, S.address]

/-- A table with the words of `mmu_configure` in the slot of an address
maps it as configured. -/
theorem walk_of_bootWord {t : PageTables H} {g : Pgtable} {fdtAddr v : Nat}
    (hfdt : fdtAddr % 4 = 0)
    (h : t.l1 g (l1pteIndex v) = bootWord S C fdtAddr (l1pteIndex v)) :
    walk t g v = bootMap C fdtAddr v := by
  have hram := C.ramBase_aligned
  -- the megabyte of an address, at its own place
  have hself : ∀ {w : Nat} {nocache : Bool}, w % 4 = 0 →
      l1pteIndex v = l1pteIndex w →
      t.l1 g (l1pteIndex v) = S.word w nocache → walk t g v = some v := by
    intro w nocache hw hi hword
    rw [walk_of_sectWord hw hword, Option.some.injEq]
    unfold l1pteIndex at hi
    omega
  unfold bootWord at h
  unfold bootMap
  dsimp only
  by_cases huart : l1pteIndex v = l1pteIndex C.uartLlPaddr
  · rw [if_pos huart] at h
    rw [if_pos (Or.inl huart)]
    exact hself C.uartLlPaddr_aligned huart h
  · rw [if_neg huart] at h
    by_cases hf : l1pteIndex v = l1pteIndex fdtAddr
    · rw [if_pos hf] at h
      rw [if_pos (Or.inr hf)]
      exact hself hfdt hf h
    · rw [if_neg hf] at h
      rw [if_neg fun he => he.elim huart hf]
      by_cases hin : InWindow P (l1pteIndex v)
      · rw [if_pos hin] at h
        unfold sectSize at h
        rw [if_pos hin, walk_of_sectWord (by omega) h, Option.some.injEq]
        have hk := P.kernelVaddr_aligned
        obtain ⟨hlo, -⟩ := hin
        unfold Platform.userSlots l1pteIndex at *
        omega
      · rw [if_neg hin] at h ⊢
        by_cases hr : l1pteIndex v = l1pteIndex C.ramBase
        · rw [if_pos hr] at h ⊢
          exact hself (by omega) hr h
        · rw [if_neg hr] at h ⊢
          exact walk_of_empty h

/-- A word of `mmu_configure` is empty or a section. -/
theorem bootWord_cases {fdtAddr : Nat} (hfdt : fdtAddr % 4 = 0) (i : Nat) :
    bootWord S C fdtAddr i = 0 ∨ l1pteIsSect (bootWord S C fdtAddr i) := by
  have hram := C.ramBase_aligned
  have hsect : ∀ w nocache, w % 4 = 0 → l1pteIsSect (S.word w nocache) := by
    intro w nocache hw
    rw [l1pteIsSect, S.type w nocache hw]
    rfl
  unfold bootWord sectSize
  split
  · exact Or.inr (hsect _ _ C.uartLlPaddr_aligned)
  · split
    · exact Or.inr (hsect _ _ hfdt)
    · split
      · exact Or.inr (hsect _ _ (by omega))
      · split
        · exact Or.inr (hsect _ _ (by omega))
        · exact Or.inl rfl

/-- The system table is well formed. -/
theorem mmuConfigure_wellFormed {M : Hardware H} (t : PageTables H)
    {fdtAddr : Nat} (hfdt : fdtAddr % 4 = 0) :
    WellFormed M (mmuConfigure S C t fdtAddr) .sys := by
  refine ⟨fun i hi => ?_, fun i j hi _ _ ht _ => ?_⟩
  · rw [mmuConfigure_slot S C t fdtAddr hi]
    exact (bootWord_cases hfdt i).imp_right Or.inl
  · rw [mmuConfigure_slot S C t fdtAddr hi] at ht
    rcases bootWord_cases (S := S) (C := C) hfdt i with h0 | hs
    · rw [h0] at ht
      cases ht
    · exact absurd hs (not_isSect_of_isTable ht)

/-- A helper that replaces the bits below the address. -/
def SectHelper.sample : SectHelper where
  word := fun w _ => w / 1048576 * 1048576 + 2
  address := fun w _ => by omega
  type := fun w _ _ => by omega

end SyeLabs.Mmu
