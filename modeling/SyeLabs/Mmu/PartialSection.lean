/-
Changing a part of a section.

Neither `alloc_init_pte` nor `free_l2_mapping` looks at the type of the
word in the slot: a section is taken for the address of an L2 table, and
the first words of the memory it maps are written as the entries of one.
`create_mapping` leaves the slot as it is, so the rest of the section
translates as before; `release_mapping` empties the slot if the memory it
took for a table holds no other word, and the section is gone.

# Writes

A word counts as written if some value put there first does not survive
the call. Which words are written is then a matter of the slots and of
the heap alone, and both conditions are exact: `CreateSafe` and
`ReleaseSafe` hold if and only if the block behind every slot that is
used as a table is one.
-/
import SyeLabs.Mmu.Effects

namespace SyeLabs.Mmu

open Lib

variable {H : Type*}

-- ======================================================== statement vocabulary

/-- Block `b` is an L2 table: a slot of an L1 table refers to it. -/
def IsL2Table (t : PageTables H) (b : Nat) : Prop :=
  ∃ g i, i < 4096 ∧ l1pteIsTable (t.l1 g i) ∧ l2Block (t.l1 g i) = b

/-- The sections that `[lo, hi)` covers in part translate outside of it as
before. -/
def SectionsKept (t t' : PageTables H) (g : Pgtable) (lo hi : Nat) :
    Prop :=
  ∀ v, v < addrSpace → l1pteIsSect (t.l1 g (l1pteIndex v)) →
    PartOf lo hi (l1pteIndex v) → v < lo ∨ hi ≤ v →
    walk t' g v = walk t g v

/-- `create_mapping` keeps the sections it covers in part, and writes only
words of L2 tables and of those it allocates. -/
structure CreateSafe (M : Hardware H) (t : PageTables H)
    (pgtable : Option Pgtable) (virt phys size : Nat) (nocache : Bool) :
    Prop where
  kept : ∀ t', createMapping M t pgtable virt phys size nocache = some t' →
    SectionsKept t t' (pgtable.getD .sys) (pageStart virt)
      (pageEnd virt size)
  writes : ∀ y w t',
    createMapping M (t.setL2 y w) pgtable virt phys size nocache
      = some t' → t'.l2 y ≠ w →
    IsL2Table t (y / 256)
      ∨ (¬ M.heap.live t.heap (y / 256) ∧ M.heap.live t'.heap (y / 256))

/-- `release_mapping` keeps the sections it covers in part, and writes
only words of L2 tables. -/
structure ReleaseSafe (M : Hardware H) (t : PageTables H)
    (pgtable : Option Pgtable) (virt size : Nat) : Prop where
  kept : ∀ t', releaseMapping M t pgtable virt size = some t' →
    SectionsKept t t' (pgtable.getD .sys) (pageStart virt)
      (pageEnd virt size)
  writes : ∀ y w t', releaseMapping M (t.setL2 y w) pgtable virt size
    = some t' → t'.l2 y ≠ w → IsL2Table t (y / 256)

-- ============================================================== the conditions

/-- Every slot that goes through `alloc_init_pte` is empty, or its word
names a block that is an L2 table or becomes one in the call. -/
def TablesUsed (M : Hardware H) (t : PageTables H) (g : Pgtable)
    (lo hi phys : Nat) : Prop :=
  ∀ i, PteSlot lo hi phys i → t.l1 g i ≠ 0 →
    IsL2Table t (l2Block (t.l1 g i))
      ∨ l2Block (t.l1 g i) ∈ M.heap.next
        (newTables t g lo hi phys ((hi - 1) / 1048576 + 1)) t.heap

/-- Every slot covered in part names an L2 table, and a section keeps a
word of it. -/
def TablesReleased (t : PageTables H) (g : Pgtable) (lo hi : Nat) : Prop :=
  ∀ i, PartOf lo hi i → IsL2Table t (l2Block (t.l1 g i))
    ∧ (l1pteIsSect (t.l1 g i) → WordLeft t g lo hi i)

-- ============================================================== create_mapping

/-- `create_mapping` is safe exactly if it uses no slot as a table that is
none. -/
theorem createSafe_iff {M : Hardware H} {t : PageTables H}
    {pgtable : Option Pgtable} {virt phys size : Nat} {nocache : Bool}
    (hsize : 1 ≤ size) (hvirt : virt + size ≤ addrSpace)
    (hret : ∃ t', createMapping M t pgtable virt phys size nocache
      = some t') :
    CreateSafe M t pgtable virt phys size nocache
      ↔ TablesUsed M t (pgtable.getD .sys) (pageStart virt)
        (pageEnd virt size) phys := by
  have hrun := fun u : PageTables H => createMapping_creating (M := M)
    (t := u) pgtable phys nocache hsize hvirt
  -- the units allocated depend on the slots and the heap only
  obtain ⟨bs, h', htakes, hlen⟩ : ∃ bs h', M.heap.Takes t.heap bs h'
      ∧ bs.length = newTables t (pgtable.getD .sys) (pageStart virt)
        (pageEnd virt size) phys ((pageEnd virt size - 1) / 1048576 + 1) := by
    obtain ⟨t', ht'⟩ := hret
    obtain ⟨s, hs, -, hc⟩ := (hrun t).1 t' ht'
    obtain ⟨bs, htook, hbs⟩ := hc.took
    rw [hs] at hbs
    exact ⟨bs, s.t.heap, htook, hbs⟩
  have hnext := htakes.next_eq
  rw [hlen] at hnext
  have hfresh : ∀ {y w : Nat} {s : SectCursor H} {b : Nat},
      s.l1pte = (pageEnd virt size - 1) / 1048576 + 1 →
      Creating M (t.setL2 y w) (pgtable.getD .sys) (pageStart virt)
        (pageEnd virt size) phys s →
      ((¬ M.heap.live t.heap b ∧ M.heap.live s.t.heap b) ↔ b ∈ bs) := by
    intro y w s b hs hc
    obtain ⟨cs, htook, hcs⟩ := hc.took
    rw [hs] at hcs
    have hcs' := htook.next_eq
    rw [hcs] at hcs'
    have heq : cs = bs := hcs'.symm.trans hnext
    rw [htook.live, heq]
    constructor
    · exact fun hb => hb.2.resolve_right hb.1
    · exact fun hb => ⟨htakes.fresh hb, Or.inl hb⟩
  unfold TablesUsed
  rw [hnext]
  constructor
  · intro hsafe i hi hne
    obtain ⟨y, hy⟩ : ∃ y, y = l2pteOffset (t.l1 (pgtable.getD .sys) i)
        (max (pageStart virt) (i * 1048576)) := ⟨_, rfl⟩
    have hblock : y / 256 = l2Block (t.l1 (pgtable.getD .sys) i) := by
      rw [hy, l2pteOffset_eq]
      omega
    obtain ⟨t', ht'⟩ := (hrun (t.setL2 y 0)).2 ⟨bs, h', htakes, hlen⟩
    obtain ⟨s, hs, rfl, hc⟩ := (hrun (t.setL2 y 0)).1 t' ht'
    have hlt : i < s.l1pte := by
      have := hi.2.1
      omega
    rcases hc.filled i hi hlt hne with hb | hsmall
    · exact Or.inr ((hfresh hs hc).mp hb)
    · rw [setL2_l1, ← hy] at hsmall
      have hwrite := hsafe.writes y 0 _ ht' (by
        rw [invalSys_l2]
        intro h0
        rw [h0] at hsmall
        exact absurd hsmall (by decide))
      rw [invalSys_heap, hblock] at hwrite
      exact hwrite.imp_right (hfresh hs hc).mp
  · intro hused
    constructor
    · intro t' ht' v hv hsect hpart _
      obtain ⟨s, -, rfl, hc⟩ := (hrun t).1 t' ht'
      have hne : t.l1 (pgtable.getD .sys) (l1pteIndex v) ≠ 0 := by
        intro h0
        rw [h0] at hsect
        cases hsect
      have hslot := hc.slots (pgtable.getD .sys) (l1pteIndex v)
        (Or.inr (Or.inr (Or.inr ⟨hne, (hpart.pteSlot phys).2.2⟩)))
      refine walk_congr (by rw [invalSys_l1, hslot]) fun ht => ?_
      exact absurd hsect (not_isSect_of_isTable ht)
    · intro y w t' ht' hne
      obtain ⟨s, hs, rfl, hc⟩ := (hrun (t.setL2 y w)).1 t' ht'
      rw [invalSys_l2] at hne
      rw [invalSys_heap]
      rcases hc.words y (by rwa [setL2_self]) with
        ⟨a, -, -, hslot, hne', hy⟩ | hb
      · have hb : y / 256 = l2Block (t.l1 (pgtable.getD .sys)
            (l1pteIndex a)) := by
          rw [hy, setL2_l1, l2pteOffset_eq]
          omega
        rw [hb]
        exact (hused _ hslot hne').imp_right (hfresh hs hc).mpr
      · exact Or.inr hb

-- ============================================================= release_mapping

/-- `release_mapping` is safe exactly if every slot covered in part names
an L2 table, and the sections among them keep a word of it. -/
theorem releaseSafe_iff {M : Hardware H} {t : PageTables H}
    {pgtable : Option Pgtable} {virt size : Nat}
    (hsize : 1 ≤ size) (hvirt : virt + size ≤ addrSpace) :
    ReleaseSafe M t pgtable virt size
      ↔ TablesReleased t (pgtable.getD .sys) (pageStart virt)
        (pageEnd virt size) := by
  obtain ⟨-, -, hrange, hspace, -, -⟩ := pageEnd_bounds hsize hvirt
  have hrun := fun u : PageTables H => releaseMapping_releasing (M := M)
    (t := u) pgtable hsize hvirt
  -- an address of the megabyte that is not in the range
  have houtside : ∀ i, PartOf (pageStart virt) (pageEnd virt size) i →
      ∃ v, v < addrSpace ∧ l1pteIndex v = i
        ∧ (v < pageStart virt ∨ pageEnd virt size ≤ v) := by
    intro i hi
    obtain ⟨hle, hlt, hpart⟩ := hi
    unfold addrSpace at hspace ⊢
    unfold l1pteIndex
    by_cases hstart : pageStart virt ≤ i * 1048576
    · exact ⟨(i + 1) * 1048576 - 1, by omega, by omega, by omega⟩
    · exact ⟨i * 1048576, by omega, by omega, by omega⟩
  constructor
  · intro hsafe i hi
    constructor
    · obtain ⟨y, hy⟩ : ∃ y, y = l2pteOffset (t.l1 (pgtable.getD .sys) i)
          (max (pageStart virt) (i * 1048576)) := ⟨_, rfl⟩
      have hblock : y / 256 = l2Block (t.l1 (pgtable.getD .sys) i) := by
        rw [hy, l2pteOffset_eq]
        omega
      have hai : l1pteIndex (max (pageStart virt) (i * 1048576)) = i := by
        have := hi.1
        unfold l1pteIndex
        omega
      obtain ⟨t', ht'⟩ := (hrun (t.setL2 y 1)).2 trivial
      obtain ⟨s, hs, rfl, hc⟩ := (hrun (t.setL2 y 1)).1 t' ht'
      have hzero := hc.cleared y ⟨max (pageStart virt) (i * 1048576),
        Nat.le_max_left _ _, by have := hi.2.1; omega, by
          have := hi.2.1
          omega, hai.symm ▸ hi, by rw [hai, setL2_l1]; exact hy⟩
      have hwrite := hsafe.writes y 1 _ ht' (by
        rw [hzero]
        decide)
      rw [← hblock]
      exact hwrite
    · intro hsect
      obtain ⟨t', ht'⟩ := (hrun t).2 trivial
      obtain ⟨s, hs, rfl, hc⟩ := (hrun t).1 t' ht'
      obtain ⟨v, hv, hvi, hout⟩ := houtside i hi
      subst hvi
      have hlt : l1pteIndex v < s.l1pte := by
        have := hi.2.1
        omega
      rcases hc.left _ hi hlt with hleft | ⟨-, h0⟩
      · exact hleft.1
      · -- the slot is empty, and the section gone
        have hwalk := hsafe.kept _ ht' v hv hsect hi hout
        rw [walk_of_empty h0, walk_of_sect hsect] at hwalk
        cases hwalk
  · intro hreleased
    constructor
    · intro t' ht' v hv hsect hpart _
      obtain ⟨s, hs, rfl, hc⟩ := (hrun t).1 t' ht'
      have hlt : l1pteIndex v < s.l1pte := by
        have := hpart.2.1
        omega
      have hl1 : s.t.l1 (pgtable.getD .sys) (l1pteIndex v)
          = t.l1 (pgtable.getD .sys) (l1pteIndex v) := by
        rcases hc.left _ hpart hlt with ⟨-, heq⟩ | ⟨hno, -⟩
        · exact heq
        · exact absurd ((hreleased _ hpart).2 hsect) hno
      exact walk_congr hl1 fun ht =>
        absurd hsect (not_isSect_of_isTable ht)
    · intro y w t' ht' hne
      obtain ⟨s, hs, rfl, hc⟩ := (hrun (t.setL2 y w)).1 t' ht'
      by_cases hcl : ClearedBelow (t.setL2 y w) (pgtable.getD .sys)
          (pageStart virt) (pageEnd virt size) s.l1pte y
      · obtain ⟨a, -, -, -, hpart, hy⟩ := hcl
        rw [setL2_l1] at hy
        have hblock : y / 256
            = l2Block (t.l1 (pgtable.getD .sys) (l1pteIndex a)) := by
          rw [hy, l2pteOffset_eq]
          omega
        rw [hblock]
        exact (hreleased _ hpart).1
      · rw [hc.kept y hcl, setL2_self] at hne
        exact absurd rfl hne

-- ================================================================== both calls

/-- A call that changes a part of a section keeps the rest of it and
writes nothing but L2 tables exactly if the words it takes for the
addresses of L2 tables are that. -/
theorem partial_section_iff (M : Hardware H) (t : PageTables H)
    (pgtable : Option Pgtable) (virt phys size : Nat) (nocache : Bool)
    (hsize : 1 ≤ size) (hvirt : virt + size ≤ addrSpace) :
    ((∃ t', createMapping M t pgtable virt phys size nocache = some t') →
      (CreateSafe M t pgtable virt phys size nocache
        ↔ TablesUsed M t (pgtable.getD .sys) (pageStart virt)
          (pageEnd virt size) phys))
    ∧ (ReleaseSafe M t pgtable virt size
      ↔ TablesReleased t (pgtable.getD .sys) (pageStart virt)
        (pageEnd virt size)) :=
  ⟨fun hret => createSafe_iff hsize hvirt hret, releaseSafe_iff hsize hvirt⟩

/-- An L2 table in the first megabyte and a section in the second. -/
def PageTables.sectioned : PageTables (FreeList BlockOk) where
  l1 := fun _ i => if i = 0 then 0x1C01 else if i = 1 then 0x80000002 else 0
  l2 := fun _ => 0
  heap := ⟨[9, 5, 6], by decide, by decide⟩
  tlb := []

/-- A page of the first megabyte. -/
theorem partial_section_iff_page :
    CreateSafe .sample .sectioned (some (.proc 1)) 0x5000 0x90000000 4096
        false
      ∧ ReleaseSafe .sample .sectioned (some (.proc 1)) 0x5000 4096 := by
  obtain ⟨hcreate, hrelease⟩ := partial_section_iff .sample .sectioned
    (some (.proc 1)) 0x5000 0x90000000 4096 false (by decide) (by decide)
  have hret : (createMapping .sample .sectioned (some (.proc 1)) 0x5000
      0x90000000 4096 false).isSome = true := rfl
  have hend : pageEnd 0x5000 4096 = 0x6000 := rfl
  have htable : IsL2Table PageTables.sectioned (l2Block 0x1C01) :=
    ⟨.sys, 0, by decide, rfl, rfl⟩
  refine ⟨(hcreate (Option.isSome_iff_exists.mp hret)).mpr ?_,
    hrelease.mpr ?_⟩
  · intro i hi _
    have hi0 : i = 0 := by
      have := hi.2.1
      omega
    subst hi0
    exact Or.inl htable
  · intro i hi
    have hi0 : i = 0 := by
      have := hi.2.1
      omega
    subst hi0
    exact ⟨htable, fun hs => by cases hs⟩

/-- Mapping or releasing the first page of the section takes the memory
it maps for an L2 table; as that memory is zero, releasing the page
releases the section. -/
theorem section_taken_for_table :
    ¬ CreateSafe .sample .sectioned (some (.proc 1)) 0x100000 0x90000000
        4096 false
      ∧ ¬ ReleaseSafe .sample .sectioned (some (.proc 1)) 0x100000 4096
      ∧ walk PageTables.sectioned (.proc 1) 0x101000 = some 0x80001000
      ∧ (releaseMapping .sample .sectioned (some (.proc 1)) 0x100000
        4096).bind (walk · (.proc 1) 0x101000) = none := by
  have hret : (createMapping .sample .sectioned (some (.proc 1)) 0x100000
      0x90000000 4096 false).isSome = true := rfl
  have hnone : ¬ IsL2Table PageTables.sectioned (l2Block 0x80000002) := by
    intro h
    obtain ⟨g, i, -, ht, hb⟩ := h
    simp only [PageTables.sectioned] at ht hb
    by_cases h0 : i = 0
    · rw [if_pos h0] at hb
      cases hb
    · rw [if_neg h0] at ht
      by_cases h1 : i = 1
      · rw [if_pos h1] at ht
        cases ht
      · rw [if_neg h1] at ht
        cases ht
  have hzero : ∀ x y, (PageTables.sectioned.setL2 x 0).l2 y = 0 := by
    intro x y
    by_cases hy : y = x
    · rw [hy, setL2_self]
    · rw [setL2_other _ _ hy]
      rfl
  refine ⟨fun h => ?_, fun h => ?_, rfl, ?_⟩
  · have hused := (createSafe_iff (by decide) (by decide)
      (Option.isSome_iff_exists.mp hret)).mp h 1 (by decide) (by decide)
    rcases hused with htable | hnew
    · exact hnone htable
    · cases hnew
  · exact hnone ((releaseSafe_iff (by decide) (by decide)).mp h 1
      ⟨by decide, by decide, by decide⟩).1
  · rw [releaseMapping_page _ _ _ rfl, Option.bind_some]
    apply walk_of_empty
    rw [freeIfEmpty_of_empty]
    · exact setL1_self _ _ _ _
    · exact fun x _ => hzero _ _

end SyeLabs.Mmu
