/-
The form `create_mapping` gives the slots of its range: a section for a
piece that is a megabyte in both address spaces, small pages for every
other one.

`Remapped` says where the addresses of a range go; what translates them
otherwise than the hardware does, or takes them back, depends on the form
as well. Each piece puts its own slot in form, and the pieces after it
touch neither the slot nor the table it refers to.
-/
import SyeLabs.Mmu.Pieces

namespace SyeLabs.Mmu

open Lib

variable {H : Type*} {M : Hardware H} {avail : Prop}

-- ==================================================================== the form

/-- A piece that is a section is a whole megabyte of the range, with an
aligned one behind it. -/
theorem sectPiece_iff {lo hi phys i : Nat} (hi' : lo / 1048576 ≤ i)
    (hlt : i * 1048576 < hi) :
    SectPiece lo hi phys i ↔ lo ≤ i * 1048576
      ∧ (i + 1) * 1048576 ≤ hi
      ∧ (phys + (i * 1048576 - lo)) % 1048576 = 0 := by
  unfold SectPiece Aligned
  constructor
  · intro h
    obtain ⟨h1, h2, h3⟩ := h
    have hle : lo ≤ i * 1048576 := by omega
    rw [Nat.max_eq_right hle] at h3
    exact ⟨hle, by omega, h3⟩
  · intro h
    obtain ⟨h1, h2, h3⟩ := h
    rw [Nat.max_eq_right h1, Nat.min_eq_right h2]
    exact ⟨Nat.mul_mod_left _ _, Nat.mul_mod_left _ _, h3⟩

/-- A small page stands for `v` in the L2 table of its slot. -/
def SmallAt (t : PageTables H) (g : Pgtable) (v : Nat) : Prop :=
  l1pteIsTable (t.l1 g (l1pteIndex v))
    ∧ 2 ≤ entry t g (l1pteIndex v) (v / 4096 % 256) % 4

/-- The addresses up to `mid` of the range `[lo, hi)` are in the form that
mapping the range to `phys` gives them. -/
def Shaped (t : PageTables H) (g : Pgtable) (lo hi phys mid : Nat) : Prop :=
  ∀ v, lo ≤ v → v < mid →
    (SectPiece lo hi phys (l1pteIndex v) →
      l1pteIsSect (t.l1 g (l1pteIndex v)))
    ∧ (¬ SectPiece lo hi phys (l1pteIndex v) → SmallAt t g v)

/-- The loop of `alloc_init_pte` leaves small pages. -/
theorem allocInitPte_small {t t' : PageTables H} {g : Pgtable}
    {i addr end_ pfn : Nat} {nocache : Bool}
    (hslot : t.l1 g i ≠ 0 → l1pteIsTable (t.l1 g i))
    (haddr : addr % 4096 = 0) (hend : end_ % 4096 = 0)
    (hlo : i * 1048576 ≤ addr) (hlt : addr < end_)
    (hhi : end_ ≤ (i + 1) * 1048576)
    (h : allocInitPte M t g i addr end_ pfn nocache = some t') :
    ∀ v, addr ≤ v → v < end_ → SmallAt t' g v := by
  obtain ⟨t₁, hens, h⟩ := Option.bind_eq_some_iff.mp h
  obtain ⟨s, hs, rfl⟩ := Option.map_eq_some_iff.mp h
  obtain ⟨n, rfl⟩ : ∃ n, end_ = addr + (n + 1) * 4096 :=
    ⟨(end_ - addr) / 4096 - 1, by omega⟩
  have hfill := (setPtes_ensures t₁ nocache (l2pteOffset (t₁.l1 g i) addr)
    addr pfn n (by omega) : Ensures True _ _).1 s hs
  have htable : l1pteIsTable (t₁.l1 g i) := by
    unfold ensureL2 at hens
    split at hens
    next h0 =>
      obtain ⟨b, -, hword, -⟩ := newL2_eq hens
      rw [hword]
      exact l1Word_isTable M b nocache
    next hne =>
      cases hens
      exact hslot hne
  intro v hv hv'
  have hvi : l1pteIndex v = i := by
    unfold l1pteIndex
    omega
  rw [hfill]
  refine ⟨by rw [fillL2_l1, hvi]; exact htable, ?_⟩
  have hword : l2Block (t₁.l1 g i) * 256 + v / 4096 % 256
      = l2pteOffset (t₁.l1 g i) addr + (v - addr) / 4096 := by
    rw [l2pteOffset_eq]
    omega
  rw [entry, fillL2_l1, hvi, hword, fillL2_in M (by omega)]
  exact l2Word_type M _ nocache

/-- Mapping further on leaves a small page alone. -/
theorem SmallAt.remapped {t t' : PageTables H} {g : Pgtable}
    {v lo hi base : Nat} (h : SmallAt t g v) (wf : WellFormed M t g)
    (hm : Remapped M t t' g lo hi base) (hspace : lo < addrSpace)
    (hi' : hi ≤ addrSpace) (hv : v < lo) (hlo : lo % 1048576 = 0) :
    SmallAt t' g v := by
  obtain ⟨ht, he⟩ := h
  have hvi : l1pteIndex v < lo / 1048576 := by
    unfold l1pteIndex
    omega
  have hlt : ∀ {j}, j ≤ (hi - 1) / 1048576 → j < 4096 := by
    intro j hj
    unfold addrSpace at hi'
    omega
  have hv4 : l1pteIndex v < 4096 := by
    unfold addrSpace at hspace
    omega
  have hslot := hm.slots g (l1pteIndex v) (Or.inr (Or.inl hvi))
  refine ⟨hslot ▸ ht, ?_⟩
  rw [entry_congr hslot (hm.tables _ (wf.live hv4 ht) ?_ _
    (Nat.mod_lt _ (by decide)))]
  · exact he
  · intro j hj hj' htj
    exact wf.owned j _ (hlt hj') hv4 (by omega) htj ht

/-- One piece is put in form. -/
theorem mapPiece_shaped {g : Pgtable}
    {lo hi phys : Nat} {nocache : Bool} {s s' : SectCursor H}
    (hat : AtPiece lo hi s.l1pte s.addr) (hlo : lo % 4096 = 0)
    (hhi : hi % 4096 = 0) (hphys : s.phys = phys + (s.addr - lo))
    (hslot : s.t.l1 g s.l1pte ≠ 0 → l1pteIsSect (s.t.l1 g s.l1pte)
      ∨ l1pteIsTable (s.t.l1 g s.l1pte))
    (hsect : l1pteIsSect (s.t.l1 g s.l1pte) → SectPiece lo hi phys s.l1pte)
    (h : mapPiece M g hi nocache s = some s') :
    ∀ v, s.addr ≤ v → v < l1sectAddrEnd s.addr hi →
      (SectPiece lo hi phys (l1pteIndex v) →
        l1pteIsSect (s'.t.l1 g (l1pteIndex v)))
      ∧ (¬ SectPiece lo hi phys (l1pteIndex v) → SmallAt s'.t g v) := by
  obtain ⟨t', hpiece, rfl⟩ := Option.map_eq_some_iff.mp h
  obtain ⟨-, -, -, -, hnlt⟩ := hat.bounds
  obtain ⟨hin, hout, -⟩ := hat.inside
  obtain ⟨haddr4, hnext4⟩ := hat.pages hlo hhi
  have hform := hat.sectPiece_iff hphys
  intro v hv hv'
  rw [hat.l1pteIndex_eq hv hv']
  unfold allocInitSection at hpiece
  split at hpiece
  next hal =>
    obtain ⟨c, hc, rfl⟩ := Option.map_eq_some_iff.mp hpiece
    refine ⟨fun _ => ?_, fun hno => absurd (hform.mpr hal) hno⟩
    obtain ⟨h1, h2, h3⟩ := hal
    have hstart : s.addr = s.l1pte * 1048576 := by
      have := hat.slot
      omega
    have hend : l1sectAddrEnd s.addr hi = (s.l1pte + 1) * 1048576 := by
      omega
    rw [hend, hstart] at hc
    have hset := (setSects_ensures s.t g nocache s.l1pte s.phys
      : Ensures True _ _).1 c hc
    rw [hset, setL1_self]
    have htype := M.attrs.sect_type nocache
    simp only [l1pteIsSect, decide_eq_true_eq]
    unfold addrSpace
    omega
  next hal =>
    have hno : ¬ SectPiece lo hi phys s.l1pte := fun hs => hal (hform.mp hs)
    refine ⟨fun hs => absurd hs hno, fun _ => ?_⟩
    refine allocInitPte_small (fun hne => ?_) haddr4 hnext4 hin hnlt hout
      hpiece v hv hv'
    exact (hslot hne).resolve_left fun hs => hno (hsect hs)

/-- The piece at the cursor of `create_mapping`. -/
theorem Mapping.atPiece {t : PageTables H} {g : Pgtable}
    {lo hi phys k : Nat} {s : SectCursor H}
    (hI : Mapping M t g lo hi phys (k + 1) s) :
    AtPiece lo hi s.l1pte s.addr := by
  obtain ⟨hk, -⟩ | ⟨-, hlt, -, hpte, hstart⟩ := hI.left
  · cases hk
  · exact ⟨hI.lo_le, hlt, hpte, hstart⟩

/-- Its slot is well formed, and holds a section only if the piece is
one. -/
theorem Mapping.slot {t : PageTables H} {g : Pgtable}
    {lo hi phys k : Nat} {s : SectCursor H}
    (hI : Mapping M t g lo hi phys (k + 1) s) (wf : WellFormed M t g)
    (hspace : hi ≤ addrSpace)
    (hsect : ∀ i, lo / 1048576 ≤ i → i * 1048576 < hi →
      l1pteIsSect (t.l1 g i) → SectPiece lo hi phys i) :
    WellFormed M s.t g
      ∧ (s.t.l1 g s.l1pte ≠ 0 → l1pteIsSect (s.t.l1 g s.l1pte)
        ∨ l1pteIsTable (s.t.l1 g s.l1pte))
      ∧ (l1pteIsSect (s.t.l1 g s.l1pte) → SectPiece lo hi phys s.l1pte) := by
  obtain ⟨hle, hlt, haddr, -, -⟩ := hI.atPiece.bounds
  have hi4 : s.l1pte < 4096 := by
    unfold addrSpace at hspace
    omega
  have hwf : WellFormed M s.t g ∧ s.t.l1 g s.l1pte = t.l1 g s.l1pte := by
    rcases hI.done with ⟨-, ht⟩ | ⟨hlo', hm⟩
    · rw [ht]
      exact ⟨wf, rfl⟩
    · exact ⟨hm.wf, hm.slots g _ (Or.inr (Or.inr (by omega)))⟩
  refine ⟨hwf.1, fun hne => ?_, fun h => ?_⟩
  · rcases hwf.1.slot _ hi4 with h0 | h | h
    · exact absurd h0 hne
    · exact Or.inl h
    · exact Or.inr h.1
  · rw [hwf.2] at h
    exact hsect _ hle hlt h

/-- The pieces before stay in form, the next one is put in form. -/
theorem mapPiece_shaped_step {t : PageTables H} {g : Pgtable}
    {lo hi phys k : Nat} {nocache : Bool} {s s' : SectCursor H}
    (wf : WellFormed M t g) (hlo : lo % 4096 = 0) (hhi : hi % 4096 = 0)
    (hspace : hi ≤ addrSpace)
    (hphys : phys / 4096 * 4096 + (hi - lo) ≤ addrSpace)
    (hsect : ∀ i, lo / 1048576 ≤ i → i * 1048576 < hi →
      l1pteIsSect (t.l1 g i) → SectPiece lo hi phys i)
    (hI : Mapping M t g lo hi phys (k + 1) s)
    (hS : Shaped s.t g lo hi phys s.addr)
    (h : mapPiece M g hi nocache s = some s') :
    Shaped s'.t g lo hi phys s'.addr := by
  obtain ⟨hwf, hslot, hslot'⟩ := hI.slot wf hspace hsect
  have hat := hI.atPiece
  obtain ⟨-, -, hend⟩ := hat.inside
  obtain ⟨haddr, -, -, hm⟩ := (mapPiece_remapped nocache wf hlo hhi hspace
    hphys hsect False.elim hI : Ensures False _ _).1 s' h
  intro v hv hv'
  by_cases hold : v < s.addr
  · -- a piece before: the slots and tables from `s.addr` on are others
    have hmeg : s.addr % 1048576 = 0 := by
      rcases hat.start with heq | hmeg
      · omega
      · exact hmeg
    obtain ⟨hs, hp⟩ := hS v hv hold
    have hl1 : s'.t.l1 g (l1pteIndex v) = s.t.l1 g (l1pteIndex v) := by
      apply hm.slots
      refine Or.inr (Or.inl ?_)
      unfold l1pteIndex
      omega
    refine ⟨fun h => hl1 ▸ hs h, fun h => ?_⟩
    exact (hp h).remapped hwf hm (Nat.lt_of_lt_of_le hat.lt_hi hspace)
      (Nat.le_trans hend hspace) hold hmeg
  · rw [haddr] at hv'
    exact mapPiece_shaped hat hlo hhi hI.phys_eq hslot hslot' h v
      (Nat.le_of_not_lt hold) hv'

/-- `create_mapping` puts its range in form. -/
theorem createMapping_shaped {t t' : PageTables H}
    {pgtable : Option Pgtable} {virt phys size : Nat} {nocache : Bool}
    (wf : WellFormed M t (pgtable.getD .sys)) (hsize : 1 ≤ size)
    (halign : virt % 4096 = phys % 4096) (hvirt : virt + size ≤ addrSpace)
    (hphys : phys + size ≤ addrSpace)
    (hsect : ∀ i, pageStart virt / 1048576 ≤ i →
      i * 1048576 < pageEnd virt size →
      l1pteIsSect (t.l1 (pgtable.getD .sys) i) →
      SectPiece (pageStart virt) (pageEnd virt size) phys i)
    (h : createMapping M t pgtable virt phys size nocache = some t') :
    Shaped t' (pgtable.getD .sys) (pageStart virt) (pageEnd virt size) phys
      (pageEnd virt size) := by
  obtain ⟨hlo4, hhi4, hlt, hspace, -, -⟩ := pageEnd_bounds hsize hvirt
  have hfit := pageEnd_fit halign hphys
  obtain ⟨s, hs, rfl⟩ := Option.map_eq_some_iff.mp h
  have hloop : Ensures False (doWhile
      (mapPiece M (pgtable.getD .sys) (pageEnd virt size) nocache)
      (fun s => s.addr ≠ pageEnd virt size) 4097 _) _ := Ensures.doWhile
    (I := fun k s => Mapping M t (pgtable.getD .sys) (pageStart virt)
        (pageEnd virt size) phys k s
      ∧ Shaped s.t (pgtable.getD .sys) (pageStart virt) (pageEnd virt size)
        phys s.addr)
    ?_ ((pageEnd virt size - 1) / 1048576 - pageStart virt / 1048576) 4097
    ?_ ⟨Mapping.init t _ phys hlt,
      fun v hv hv' => absurd hv (Nat.not_le_of_lt hv')⟩
  · obtain ⟨hI, hS⟩ := hloop.1 s hs
    rw [hI.end_] at hS
    intro v hv hv'
    obtain ⟨h1, h2⟩ := hS v hv hv'
    unfold SmallAt entry
    rw [invalSys_l1, invalSys_l2]
    exact ⟨h1, h2⟩
  · intro k s hs
    obtain ⟨hI, hS⟩ := hs
    refine ⟨fun u hu => ?_, False.elim⟩
    obtain ⟨hagain, hI'⟩ := (mapPiece_step nocache wf hlo4 hhi4 hspace hfit
      hsect False.elim hI : Ensures False _ _).1 u hu
    exact ⟨hagain, hI', mapPiece_shaped_step wf hlo4 hhi4 hspace hfit hsect
      hI hS hu⟩
  · unfold addrSpace at hspace
    omega

end SyeLabs.Mmu
