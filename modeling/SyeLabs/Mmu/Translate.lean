/-
`do_translate`, the walk of the kernel in software, beside the walk of
the hardware.

`virt_to_phys_pt` takes the offset within a page before it looks at the
slot and puts the same offset on a section, whose offset has twenty bits:
in a section it is right about the first page only. An L2 word it reads
as a small page whatever its type says. Everywhere else the two walks
agree (`virtToPhysPt_iff`), so after `create_mapping` the translation is
right about the whole range exactly if no piece of it became a section.
-/
import SyeLabs.Mmu.Shape

namespace SyeLabs.Mmu

open Lib

variable {H : Type*} {M : Hardware H}

-- =============================================================== the functions

/-- `virt_to_phys_pt`, with `g` the current page table. Without a result
it has run into `BUG_ON`. -/
def virtToPhysPt (t : PageTables H) (g : Pgtable) (vaddr : Nat) :
    Option Nat :=
  let l1pte := t.l1 g (l1pteIndex vaddr)
  let offset := vaddr % 4096
  if l1pte = 0 then none
  else if l1pteIsSect l1pte then some (l1pte / 1048576 * 1048576 ||| offset)
  else
    let l2pte := t.l2 (l2pteOffset l1pte vaddr)
    some (l2pte / 4096 * 4096 ||| offset)

/-- `do_translate`. -/
def doTranslate (t : PageTables H) (g : Pgtable) (vaddr : Nat) :
    Option Nat :=
  virtToPhysPt t g vaddr

-- =============================================================== the condition

/-- The address lies in the first page of its section, if it is one, and
in the page of that number of its large page, if it is one. -/
def OffsetKept (t : PageTables H) (g : Pgtable) (vaddr : Nat) : Prop :=
  (l1pteIsSect (t.l1 g (l1pteIndex vaddr)) → vaddr % 1048576 < 4096)
  ∧ (l1pteIsTable (t.l1 g (l1pteIndex vaddr)) →
      entry t g (l1pteIndex vaddr) (vaddr / 4096 % 256) % 4 = 1 →
      entry t g (l1pteIndex vaddr) (vaddr / 4096 % 256) / 4096 % 16
        = vaddr / 4096 % 16)

-- =============================================================== the two walks

/-- An offset within a page, put on the address of the page. -/
theorem or_offset {base addr : Nat} (hbase : base % 4096 = 0) :
    base ||| addr % 4096 = base + addr % 4096 := by
  have hor := Nat.two_pow_add_eq_or_of_lt (i := 12)
    (Nat.mod_lt addr (by decide)) (base / 4096)
  have hmul : 2 ^ 12 * (base / 4096) = base := by
    rw [show 2 ^ 12 = 4096 from rfl]
    omega
  rw [hmul] at hor
  exact hor.symm

/-- A large page is sixteen small ones. -/
theorem largePage_split (e v : Nat) :
    e / 4096 * 4096 = e / 65536 * 65536 + e / 4096 % 16 * 4096
      ∧ v % 65536 = v / 4096 % 16 * 4096 + v % 4096 := by
  have hmod : v % 65536 = v % 4096 + 4096 * (v / 4096 % 16) :=
    Nat.mod_mul (a := 4096) (b := 16)
  refine ⟨by omega, ?_⟩
  rw [hmod, Nat.add_comm, Nat.mul_comm]

theorem virtToPhysPt_of_sect {t : PageTables H} {g : Pgtable} {v : Nat}
    (h : l1pteIsSect (t.l1 g (l1pteIndex v))) :
    virtToPhysPt t g v
      = some (t.l1 g (l1pteIndex v) / 1048576 * 1048576 + v % 4096) := by
  have hne : t.l1 g (l1pteIndex v) ≠ 0 := by
    intro h0
    rw [h0] at h
    cases h
  unfold virtToPhysPt
  dsimp only
  rw [if_neg hne, if_pos h, or_offset (by omega)]

theorem virtToPhysPt_of_entry {t : PageTables H} {g : Pgtable} {v : Nat}
    (h : l1pteIsTable (t.l1 g (l1pteIndex v))) :
    virtToPhysPt t g v
      = some (entry t g (l1pteIndex v) (v / 4096 % 256) / 4096 * 4096
        + v % 4096) := by
  have hne : t.l1 g (l1pteIndex v) ≠ 0 := by
    intro h0
    rw [h0] at h
    cases h
  unfold virtToPhysPt
  dsimp only
  rw [if_neg hne, if_neg (not_isSect_of_isTable h),
    or_offset (Nat.mul_mod_left _ 4096), l2pteOffset_eq, entry]

/-- On a mapped address the two walks agree exactly if its offset is one
within a page. -/
theorem virtToPhysPt_iff {t : PageTables H} {g : Pgtable} {v p : Nat}
    (h : walk t g v = some p) :
    virtToPhysPt t g v = some p ↔ OffsetKept t g v := by
  unfold OffsetKept
  by_cases hs : l1pteIsSect (t.l1 g (l1pteIndex v))
  · rw [walk_of_sect hs, Option.some.injEq] at h
    rw [virtToPhysPt_of_sect hs, Option.some.injEq]
    constructor
    · intro heq
      refine ⟨fun _ => by omega, fun ht => ?_⟩
      exact absurd hs (not_isSect_of_isTable ht)
    · intro hkept
      have := hkept.1 hs
      omega
  · by_cases ht : l1pteIsTable (t.l1 g (l1pteIndex v))
    · rw [walk_of_entry ht] at h
      rw [virtToPhysPt_of_entry ht, Option.some.injEq]
      generalize entry t g (l1pteIndex v) (v / 4096 % 256) = e at h ⊢
      unfold l2Walk at h
      split at h
      next hsmall =>
        -- a small page
        rw [Option.some.injEq] at h
        refine ⟨fun _ => ⟨fun h' => absurd h' hs, fun _ hlarge => ?_⟩,
          fun _ => h⟩
        exact absurd hlarge (by omega)
      next hsmall =>
        split at h
        next hlarge =>
          -- a large page
          rw [Option.some.injEq] at h
          obtain ⟨he, hv⟩ := largePage_split e v
          rw [← h, he, hv, ← Nat.add_assoc, Nat.add_right_cancel_iff,
            Nat.add_left_cancel_iff,
            Nat.mul_left_inj (by decide : 4096 ≠ 0)]
          constructor
          · exact fun heq => ⟨fun h' => absurd h' hs, fun _ _ => heq⟩
          · exact fun hkept => hkept.2 ht hlarge
        next => cases h
    · unfold walk at h
      simp only [if_neg hs, if_neg ht] at h
      cases h

/-- A small page keeps its offset, a section only in its first page. -/
theorem offsetKept_of_small {t : PageTables H} {g : Pgtable} {v : Nat}
    (h : SmallAt t g v) : OffsetKept t g v := by
  obtain ⟨ht, he⟩ := h
  refine ⟨fun hs => absurd hs (not_isSect_of_isTable ht), fun _ hlarge => ?_⟩
  rw [hlarge] at he
  exact absurd he (by decide)

-- ======================================================== after create_mapping

/-- After `create_mapping` the software translation of the range is right
exactly if no piece of it has become a section. -/
theorem createMapping_translated {t t' : PageTables H}
    {pgtable : Option Pgtable} {virt phys size : Nat} {nocache : Bool}
    (wf : WellFormed M t (pgtable.getD .sys)) (hsize : 1 ≤ size)
    (hvirt4 : virt % 4096 = 0) (hphys4 : phys % 4096 = 0)
    (hvirt : virt + size ≤ addrSpace) (hphys : phys + size ≤ addrSpace)
    (hsect : ∀ i, virt / 1048576 ≤ i → i * 1048576 < pageEnd virt size →
      l1pteIsSect (t.l1 (pgtable.getD .sys) i) →
      SectPiece virt (pageEnd virt size) phys i)
    (h : createMapping M t pgtable virt phys size nocache = some t') :
    (∀ k, k < size → doTranslate t' (pgtable.getD .sys) (virt + k)
        = some (phys + k))
      ↔ ∀ i, ¬ (virt ≤ i * 1048576
        ∧ (i + 1) * 1048576 ≤ pageEnd virt size
        ∧ (phys + (i * 1048576 - virt)) % 1048576 = 0) := by
  obtain ⟨-, hhi4, hlt, -, -, hend⟩ := pageEnd_bounds hsize hvirt
  have hstart : pageStart virt = virt := by
    unfold pageStart
    omega
  have hshort : pageEnd virt size < virt + size + 4096 := by
    unfold pageEnd alignUp
    omega
  have hbase : phys / 4096 * 4096 = phys := by omega
  have halign : virt % 4096 = phys % 4096 := hvirt4.trans hphys4.symm
  have hsect' : ∀ i, pageStart virt / 1048576 ≤ i →
      i * 1048576 < pageEnd virt size →
      l1pteIsSect (t.l1 (pgtable.getD .sys) i) →
      SectPiece (pageStart virt) (pageEnd virt size) phys i := by
    rw [hstart]
    exact hsect
  have hm := createMapping_remapped wf hsize halign hvirt hphys hsect' h
  have hshape := createMapping_shaped wf hsize halign hvirt hphys
    hsect' h
  rw [hstart] at hm hshape
  rw [hbase] at hm
  unfold doTranslate
  constructor
  · intro htrans i hi
    -- the second page of the section
    obtain ⟨hle, hfit, hal⟩ := hi
    obtain ⟨k, hk⟩ : ∃ k, virt + k = i * 1048576 + 4096 :=
      ⟨i * 1048576 + 4096 - virt, by omega⟩
    have hk' : k < size := by omega
    have hvi : l1pteIndex (virt + k) = i := by
      unfold l1pteIndex
      omega
    have hpiece : SectPiece virt (pageEnd virt size) phys
        (l1pteIndex (virt + k)) := by
      rw [hvi]
      exact (sectPiece_iff (by omega) (by omega)).mpr ⟨hle, hfit, hal⟩
    have hwalk := hm.inside (virt + k) (by omega) (by omega)
    rw [Nat.add_sub_cancel_left] at hwalk
    have hkept := (virtToPhysPt_iff hwalk).mp (htrans k hk')
    have := hkept.1 ((hshape (virt + k) (by omega) (by omega)).1 hpiece)
    omega
  · intro hno k hk
    have hwalk := hm.inside (virt + k) (by omega) (by omega)
    rw [Nat.add_sub_cancel_left] at hwalk
    refine (virtToPhysPt_iff hwalk).mpr (offsetKept_of_small ?_)
    apply (hshape (virt + k) (by omega) (by omega)).2
    intro hpiece
    refine hno _ ((sectPiece_iff ?_ ?_).mp hpiece)
    · exact Nat.div_le_div_right (Nat.le_add_right _ _)
    · unfold l1pteIndex
      omega

variable (M)

/-- The two walks agree on a mapped address exactly if its offset in its
section or large page is one within a page; after `create_mapping`, which
is right about its range, `do_translate` is so exactly if the range has
no megabyte that is aligned in both address spaces. -/
theorem do_translate_iff :
    (∀ (t : PageTables H) (g : Pgtable) (v p : Nat), walk t g v = some p →
      (doTranslate t g v = some p ↔ OffsetKept t g v))
    ∧ ∀ (t t' : PageTables H) (pgtable : Option Pgtable)
      (virt phys size : Nat) (nocache : Bool),
      WellFormed M t (pgtable.getD .sys) → 1 ≤ size →
      virt % 4096 = 0 → phys % 4096 = 0 → virt + size ≤ addrSpace →
      phys + size ≤ addrSpace →
      (∀ i, virt / 1048576 ≤ i → i * 1048576 < pageEnd virt size →
        l1pteIsSect (t.l1 (pgtable.getD .sys) i) →
        SectPiece virt (pageEnd virt size) phys i) →
      createMapping M t pgtable virt phys size nocache = some t' →
      ((∀ k, k < size → doTranslate t' (pgtable.getD .sys) (virt + k)
          = some (phys + k))
        ↔ ∀ i, ¬ (virt ≤ i * 1048576
          ∧ (i + 1) * 1048576 ≤ pageEnd virt size
          ∧ (phys + (i * 1048576 - virt)) % 1048576 = 0)) :=
  ⟨fun _ _ _ _ h => virtToPhysPt_iff h,
    fun _ _ _ _ _ _ _ wf hsize hvirt4 hphys4 hvirt hphys hsect h =>
      createMapping_translated wf hsize hvirt4 hphys4 hvirt hphys hsect h⟩

/-- One page of the heap of a process, as the lab translates it. -/
theorem do_translate_iff_page :
    ∃ t', createMapping .sample .sample (some (.proc 1)) 0x22000 0x80005000
        4096 false = some t'
      ∧ (doTranslate t' (.proc 1) 0x22010 = some 0x80005010
        ↔ OffsetKept t' (.proc 1) 0x22010)
      ∧ ∀ k, k < 4096 →
        doTranslate t' (.proc 1) (0x22000 + k) = some (0x80005000 + k) := by
  have hret : (createMapping .sample .sample (some (.proc 1)) 0x22000
      0x80005000 4096 false).isSome = true := rfl
  obtain ⟨t', ht'⟩ := Option.isSome_iff_exists.mp hret
  have wf : WellFormed .sample PageTables.sample (.proc 1) :=
    ⟨fun _ _ => Or.inl rfl, fun _ _ _ _ _ h => by cases h⟩
  have hall := ((do_translate_iff Hardware.sample).2 .sample t'
    (some (.proc 1)) 0x22000 0x80005000 4096 false wf (by decide)
    (by decide) (by decide) (by decide) (by decide)
    (fun _ _ _ h => by cases h) ht').mpr fun i hi => by
      have hend : pageEnd 0x22000 4096 = 0x23000 := rfl
      omega
  refine ⟨t', ht', (do_translate_iff Hardware.sample).1 t' _ _ _ ?_, hall⟩
  cases ht'
  rfl

/-- In the second page of a section the software translation is that of
the first. -/
theorem section_offset_lost :
    ∃ t', createMapping .sample .sample (some (.proc 1)) 0x100000 0x80000000
        0x100000 false = some t'
      ∧ walk t' (.proc 1) 0x101000 = some 0x80001000
      ∧ doTranslate t' (.proc 1) 0x101000 = some 0x80000000 := by
  have hret : (createMapping .sample .sample (some (.proc 1)) 0x100000
      0x80000000 0x100000 false).isSome = true := rfl
  obtain ⟨t', ht'⟩ := Option.isSome_iff_exists.mp hret
  refine ⟨t', ht', ?_⟩
  cases ht'
  exact ⟨rfl, rfl⟩

end SyeLabs.Mmu
