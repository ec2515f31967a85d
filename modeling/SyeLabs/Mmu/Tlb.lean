/-
The cached translations.

The TLB is a cache of the walk through the current table. The functions
that change a table leave it as it is, but for `v7_inval_tlb` at the end
of `create_mapping`, which is called for the system table only; so the
contents of the TLB before a call stand for its contents at the end of
the loop as well, whatever accesses were made in between.
-/
import SyeLabs.Lib.Cache
import SyeLabs.Mmu.Effects

namespace SyeLabs.Mmu

open Lib

variable {H : Type*}

-- ======================================================== statement vocabulary

/-- The frame of a page, as the table says. -/
def pageFrame (t : PageTables H) (g : Pgtable) (v : Nat) : Option Nat :=
  frameAt t g (v * 4096)

/-- The tables with other cached translations. -/
def PageTables.withTlb (t : PageTables H) (c : List (Nat × Nat)) :
    PageTables H :=
  { t with tlb := c }

/-- No cached translation of a page of `[lo, hi)` differs from what table
`g` says. -/
def NoStale (t : PageTables H) (g : Pgtable) (lo hi : Nat) : Prop :=
  ∀ v, lo ≤ v * 4096 → v * 4096 < hi → Coherent (pageFrame t g) t.tlb v

/-- `release_mapping` of `[lo, hi)` leaves the section that page `v` lies
in, as it is covered in part and a word is left in the block taken for
its L2 table. -/
def SectionLeft (t : PageTables H) (g : Pgtable) (lo hi v : Nat) : Prop :=
  l1pteIsSect (t.l1 g (l1pteIndex (v * 4096)))
    ∧ PartOf lo hi (l1pteIndex (v * 4096))
    ∧ WordLeft t g lo hi (l1pteIndex (v * 4096))

-- ======================================================= the TLB plays no part

section
variable (M : Hardware H) (t : PageTables H) (c : List (Nat × Nat))

@[simp] theorem withTlb_l1 : (t.withTlb c).l1 = t.l1 := rfl

@[simp] theorem withTlb_tlb : (t.withTlb c).tlb = c := rfl

theorem withTlb_self : t.withTlb t.tlb = t := rfl

theorem newL2_withTlb (g : Pgtable) (i : Nat) (nocache : Bool) :
    newL2 M (t.withTlb c) g i nocache
      = (newL2 M t g i nocache).map (·.withTlb c) := by
  unfold newL2
  rw [Option.map_map]
  rfl

theorem ensureL2_withTlb (g : Pgtable) (i : Nat) (nocache : Bool) :
    ensureL2 M (t.withTlb c) g i nocache
      = (ensureL2 M t g i nocache).map (·.withTlb c) := by
  unfold ensureL2
  rw [withTlb_l1]
  split
  · exact newL2_withTlb M t c g i nocache
  · rfl

theorem setPtes_withTlb (nocache : Bool) (end_ : Nat) (s : PteCursor H) :
    setPtes M nocache end_ { s with t := s.t.withTlb c }
      = (setPtes M nocache end_ s).map
        fun s => { s with t := s.t.withTlb c } := by
  unfold setPtes
  exact doWhile_map _ (f := fun s : PteCursor H =>
    { s with t := s.t.withTlb c }) (fun _ => rfl) (fun _ => rfl) 1048576 s

theorem allocInitPte_withTlb (g : Pgtable) (l1pte addr end_ pfn : Nat)
    (nocache : Bool) :
    allocInitPte M (t.withTlb c) g l1pte addr end_ pfn nocache
      = (allocInitPte M t g l1pte addr end_ pfn nocache).map
        (·.withTlb c) := by
  unfold allocInitPte
  rw [ensureL2_withTlb]
  cases ensureL2 M t g l1pte nocache with
  | none => rfl
  | some u =>
      rw [Option.map_some, Option.bind_some, Option.bind_some, withTlb_l1,
        setPtes_withTlb M c nocache end_
          ⟨u, l2pteOffset (u.l1 g l1pte) addr, addr, pfn⟩,
        Option.map_map, Option.map_map]
      rfl

theorem setSects_withTlb (g : Pgtable) (nocache : Bool) (end_ : Nat)
    (s : SectCursor H) :
    setSects M g nocache end_ { s with t := s.t.withTlb c }
      = (setSects M g nocache end_ s).map
        fun s => { s with t := s.t.withTlb c } := by
  unfold setSects
  exact doWhile_map _ (f := fun s : SectCursor H =>
    { s with t := s.t.withTlb c }) (fun _ => rfl) (fun _ => rfl) 4097 s

theorem allocInitSection_withTlb (g : Pgtable)
    (l1pte addr end_ phys : Nat) (nocache : Bool) :
    allocInitSection M (t.withTlb c) g l1pte addr end_ phys nocache
      = (allocInitSection M t g l1pte addr end_ phys nocache).map
        (·.withTlb c) := by
  unfold allocInitSection
  split
  · rw [setSects_withTlb M c g nocache end_ ⟨t, l1pte, addr, phys⟩,
      Option.map_map, Option.map_map]
    rfl
  · exact allocInitPte_withTlb M t c g _ _ _ _ nocache

theorem mapPiece_withTlb (g : Pgtable) (end_ : Nat) (nocache : Bool)
    (s : SectCursor H) :
    mapPiece M g end_ nocache { s with t := s.t.withTlb c }
      = (mapPiece M g end_ nocache s).map
        fun s => { s with t := s.t.withTlb c } := by
  unfold mapPiece
  dsimp only
  rw [allocInitSection_withTlb, Option.map_map, Option.map_map]
  rfl

/-- `create_mapping` on other contents of the TLB. -/
theorem createMapping_withTlb (pgtable : Option Pgtable)
    (virt phys size : Nat) (nocache : Bool) :
    createMapping M (t.withTlb c) pgtable virt phys size nocache
      = (createMapping M t pgtable virt phys size nocache).map
        (·.withTlb (if pgtable.getD .sys = .sys then [] else c)) := by
  have hloop := doWhile_map
    (fun s : SectCursor H => s.addr ≠ pageEnd virt size)
    (mapPiece_withTlb M c (pgtable.getD .sys) (pageEnd virt size) nocache)
    (fun _ => rfl) 4097
    ⟨t, l1pteIndex (pageStart virt), pageStart virt, phys⟩
  unfold createMapping
  dsimp only at hloop ⊢
  rw [hloop, Option.map_map, Option.map_map]
  refine congrArg (Option.map · _) (funext fun s => ?_)
  unfold invalSys
  dsimp only [Function.comp_apply]
  split <;> rfl

theorem clearSects_withTlb (g : Pgtable) (end_ : Nat) (s : SlotCursor H) :
    clearSects g end_ { s with t := s.t.withTlb c }
      = (clearSects g end_ s).map
        fun s => { s with t := s.t.withTlb c } := by
  unfold clearSects
  exact doWhile_map _ (f := fun s : SlotCursor H =>
    { s with t := s.t.withTlb c }) (fun _ => rfl) (fun _ => rfl) 4097 s

theorem clearPtes_withTlb (end_ : Nat) (s : ClearCursor H) :
    clearPtes end_ { s with t := s.t.withTlb c }
      = (clearPtes end_ s).map fun s => { s with t := s.t.withTlb c } := by
  unfold clearPtes
  exact doWhile_map _ (f := fun s : ClearCursor H =>
    { s with t := s.t.withTlb c }) (fun _ => rfl) (fun _ => rfl) 1048576 s

theorem freeIfEmpty_withTlb (g : Pgtable) (i : Nat) :
    freeIfEmpty M (t.withTlb c) g i = (freeIfEmpty M t g i).withTlb c := by
  unfold freeIfEmpty
  dsimp only
  rw [apply_ite (PageTables.withTlb · c)]
  rfl

theorem freeL1Mapping_withTlb (g : Pgtable) (l1pte addr end_ : Nat) :
    freeL1Mapping M (t.withTlb c) g l1pte addr end_
      = (freeL1Mapping M t g l1pte addr end_).map (·.withTlb c) := by
  unfold freeL1Mapping
  split
  · rw [clearSects_withTlb c g end_ ⟨t, l1pte, addr⟩, Option.map_map,
      Option.map_map]
    rfl
  · unfold freeL2Mapping
    rw [withTlb_l1, clearPtes_withTlb c end_
      ⟨t, l2pteOffset (t.l1 g l1pte) addr, addr⟩, Option.map_map,
      Option.map_map]
    exact congrArg (Option.map · _)
      (funext fun s => freeIfEmpty_withTlb M s.t c g l1pte)

theorem releasePiece_withTlb (g : Pgtable) (end_ : Nat)
    (s : SlotCursor H) :
    releasePiece M g end_ { s with t := s.t.withTlb c }
      = (releasePiece M g end_ s).map
        fun s => { s with t := s.t.withTlb c } := by
  unfold releasePiece
  dsimp only
  rw [freeL1Mapping_withTlb, Option.map_map, Option.map_map]
  rfl

/-- `release_mapping` on other contents of the TLB. -/
theorem releaseMapping_withTlb (pgtable : Option Pgtable)
    (virt size : Nat) :
    releaseMapping M (t.withTlb c) pgtable virt size
      = (releaseMapping M t pgtable virt size).map (·.withTlb c) := by
  have hloop := doWhile_map
    (fun s : SlotCursor H => s.addr ≠ pageEnd virt size)
    (releasePiece_withTlb M c (pgtable.getD .sys) (pageEnd virt size))
    (fun _ => rfl) 4097
    ⟨t, l1pteIndex (pageStart virt), pageStart virt⟩
  unfold releaseMapping
  dsimp only at hloop ⊢
  rw [hloop, Option.map_map, Option.map_map]
  rfl

end

-- =========================================================== what stays cached

variable {M : Hardware H} {t t' : PageTables H}

/-- `create_mapping` empties the TLB for the system table only. -/
theorem createMapping_tlb {pgtable : Option Pgtable} {virt phys size : Nat}
    {nocache : Bool}
    (h : createMapping M t pgtable virt phys size nocache = some t') :
    t'.tlb = if pgtable.getD .sys = .sys then [] else t.tlb := by
  have hmap := createMapping_withTlb M t t.tlb pgtable virt phys size nocache
  rw [withTlb_self, h, Option.map_some, Option.some.injEq] at hmap
  rw [hmap, withTlb_tlb]

theorem releaseMapping_tlb {pgtable : Option Pgtable} {virt size : Nat}
    (h : releaseMapping M t pgtable virt size = some t') :
    t'.tlb = t.tlb := by
  have hmap := releaseMapping_withTlb M t t.tlb pgtable virt size
  rw [withTlb_self, h, Option.map_some, Option.some.injEq] at hmap
  rw [hmap, withTlb_tlb]

/-- Whatever the tables hold: only for the system table is nothing stale
left of any contents of the TLB. -/
theorem create_noStale_all_iff {pgtable : Option Pgtable}
    {virt phys size : Nat} {nocache : Bool} (hsize : 1 ≤ size)
    (hvirt : virt + size ≤ addrSpace)
    (h : createMapping M t pgtable virt phys size nocache = some t') :
    (∀ c u, createMapping M (t.withTlb c) pgtable virt phys size nocache
        = some u →
      NoStale u (pgtable.getD .sys) (pageStart virt) (pageEnd virt size))
      ↔ pgtable.getD .sys = .sys := by
  obtain ⟨-, -, hlt, -⟩ := pageEnd_bounds hsize hvirt
  constructor
  · intro hall
    by_contra hg
    -- cache for the first page a frame that is not the one it is given
    obtain ⟨f, hf⟩ : ∃ f,
        pageFrame t' (pgtable.getD .sys) (virt / 4096) ≠ some f := by
      cases pageFrame t' (pgtable.getD .sys) (virt / 4096) with
      | none => exact ⟨0, nofun⟩
      | some x => exact ⟨x + 1, by simp⟩
    have hrun := createMapping_withTlb M t [(virt / 4096, f)] pgtable virt
      phys size nocache
    rw [h, Option.map_some, if_neg hg] at hrun
    exact hf (hall _ _ hrun (virt / 4096) (Nat.le_refl _) hlt f
      List.mem_cons_self)
  · intro hg c u hu v _ _
    rw [createMapping_tlb hu, if_pos hg]
    exact coherent_nil

/-- For one contents of the TLB: nothing stale is left if what is cached
of the range is what it is mapped to. -/
theorem create_noStale_iff {pgtable : Option Pgtable}
    {virt phys size : Nat} {nocache : Bool}
    (wf : WellFormed M t (pgtable.getD .sys)) (hsize : 1 ≤ size)
    (halign : virt % 4096 = phys % 4096) (hvirt : virt + size ≤ addrSpace)
    (hphys : phys + size ≤ addrSpace)
    (hsect : ∀ i, pageStart virt / 1048576 ≤ i →
      i * 1048576 < pageEnd virt size →
      l1pteIsSect (t.l1 (pgtable.getD .sys) i) →
      SectPiece (pageStart virt) (pageEnd virt size) phys i)
    (h : createMapping M t pgtable virt phys size nocache = some t') :
    NoStale t' (pgtable.getD .sys) (pageStart virt) (pageEnd virt size)
      ↔ pgtable.getD .sys = .sys
        ∨ ∀ e ∈ t.tlb, pageStart virt ≤ e.1 * 4096 →
          e.1 * 4096 < pageEnd virt size →
          e.2 = phys / 4096 + (e.1 - virt / 4096) := by
  have hm := createMapping_remapped wf hsize halign hvirt hphys hsect h
  have hframe : ∀ v, pageStart virt ≤ v * 4096 →
      v * 4096 < pageEnd virt size → pageFrame t' (pgtable.getD .sys) v
        = some (phys / 4096 + (v - virt / 4096)) := by
    intro v hlo hhi
    rw [pageFrame, frameAt, hm.inside _ hlo hhi, Option.map_some]
    unfold pageStart at hlo ⊢
    congr 1
    omega
  rw [NoStale, createMapping_tlb h]
  constructor
  · intro hno
    refine or_iff_not_imp_left.mpr fun hg e he hlo hhi => ?_
    rw [if_neg hg] at hno
    have heq := hno e.1 hlo hhi e.2 he
    rw [hframe e.1 hlo hhi] at heq
    exact (Option.some.inj heq).symm
  · intro hcached v hlo hhi f hf
    split at hf
    · cases hf
    next hg =>
      rw [hframe v hlo hhi]
      exact congrArg some (hcached.resolve_left hg (v, f) hf hlo hhi).symm

/-- Releasing unmaps a page, unless it leaves its section. -/
theorem releaseMapping_walk {pgtable : Option Pgtable} {virt size a : Nat}
    (hsize : 1 ≤ size) (hvirt : virt + size ≤ addrSpace)
    (h : releaseMapping M t pgtable virt size = some t')
    (hlo : pageStart virt ≤ a) (hhi : a < pageEnd virt size) :
    (l1pteIsSect (t.l1 (pgtable.getD .sys) (l1pteIndex a))
        ∧ PartOf (pageStart virt) (pageEnd virt size) (l1pteIndex a)
        ∧ WordLeft t (pgtable.getD .sys) (pageStart virt)
          (pageEnd virt size) (l1pteIndex a)
        ∧ walk t' (pgtable.getD .sys) a = walk t (pgtable.getD .sys) a)
      ∨ (¬ (l1pteIsSect (t.l1 (pgtable.getD .sys) (l1pteIndex a))
          ∧ PartOf (pageStart virt) (pageEnd virt size) (l1pteIndex a)
          ∧ WordLeft t (pgtable.getD .sys) (pageStart virt)
            (pageEnd virt size) (l1pteIndex a))
        ∧ walk t' (pgtable.getD .sys) a = none) := by
  obtain ⟨u, hu, rfl, hr⟩ :=
    (releaseMapping_releasing pgtable hsize hvirt).1 t' h
  have hbelow : l1pteIndex a < u.l1pte := by
    unfold l1pteIndex
    omega
  have hle : pageStart virt / 1048576 ≤ l1pteIndex a := by
    unfold l1pteIndex
    omega
  by_cases hpart : PartOf (pageStart virt) (pageEnd virt size)
      (l1pteIndex a)
  · rcases hr.left _ hpart hbelow with ⟨hleft, heq⟩ | ⟨hleft, h0⟩
    · by_cases hs : l1pteIsSect (t.l1 (pgtable.getD .sys) (l1pteIndex a))
      · refine Or.inl ⟨hs, hpart, hleft, walk_congr heq fun ht => ?_⟩
        exact absurd hs (not_isSect_of_isTable ht)
      · refine Or.inr ⟨fun hn => hs hn.1, ?_⟩
        by_cases ht : l1pteIsTable (t.l1 (pgtable.getD .sys)
            (l1pteIndex a))
        · rw [walk_of_table (heq ▸ ht), hr.cleared, l2Walk_zero]
          rw [heq]
          exact ⟨a, hlo, hhi, hbelow, hpart, rfl⟩
        · simp only [walk, heq, if_neg hs, if_neg ht]
    · exact Or.inr ⟨fun hn => hleft hn.2.2, walk_of_empty h0⟩
  · exact Or.inr ⟨fun hn => hpart hn.2.1,
      walk_of_empty (hr.whole _ hle hbelow hpart)⟩

/-- Nothing stale is left if of the range only sections that stay are
cached, and those rightly. -/
theorem release_noStale_iff {pgtable : Option Pgtable} {virt size : Nat}
    (hsize : 1 ≤ size) (hvirt : virt + size ≤ addrSpace)
    (h : releaseMapping M t pgtable virt size = some t') :
    NoStale t' (pgtable.getD .sys) (pageStart virt) (pageEnd virt size)
      ↔ ∀ e ∈ t.tlb, pageStart virt ≤ e.1 * 4096 →
        e.1 * 4096 < pageEnd virt size →
        SectionLeft t (pgtable.getD .sys) (pageStart virt)
            (pageEnd virt size) e.1
          ∧ pageFrame t (pgtable.getD .sys) e.1 = some e.2 := by
  rw [NoStale, releaseMapping_tlb h]
  have hstep : ∀ v f, pageStart virt ≤ v * 4096 →
      v * 4096 < pageEnd virt size →
      (pageFrame t' (pgtable.getD .sys) v = some f
        ↔ SectionLeft t (pgtable.getD .sys) (pageStart virt)
            (pageEnd virt size) v
          ∧ pageFrame t (pgtable.getD .sys) v = some f) := by
    intro v f hlo hhi
    unfold pageFrame frameAt SectionLeft
    rcases releaseMapping_walk hsize hvirt h hlo hhi with
      ⟨hs, hpart, hleft, hwalk⟩ | ⟨hno, hwalk⟩
    · rw [hwalk]
      exact (and_iff_right ⟨hs, hpart, hleft⟩).symm
    · rw [hwalk]
      exact iff_of_false (fun hn => nomatch hn) fun hn => hno hn.1
  constructor
  · intro hno e he hlo hhi
    exact (hstep _ _ hlo hhi).mp (hno e.1 hlo hhi e.2 he)
  · intro hcached v hlo hhi f hf
    exact (hstep _ _ hlo hhi).mpr (hcached (v, f) hf hlo hhi)

end SyeLabs.Mmu
