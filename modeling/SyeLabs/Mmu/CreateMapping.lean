/-
`create_mapping` and the two functions under it.

# The cut

`create_mapping` cuts its range at the megabyte boundaries and hands each
piece, with the L1 slot it lies in, to `alloc_init_section`: a piece that
fills its slot and is aligned in both address spaces becomes a section,
any other one goes through the L2 table of the slot, which
`alloc_init_pte` allocates first if the slot is empty.

# The proof

`Remapped t t' g lo hi base` says what mapping the range `[lo, hi)` of
table `g` to `base` is to achieve: the walk inside and outside the range,
that the table stays well formed, and what is left alone in other tables
and in the heap. Each of the two kinds of piece is shown to achieve it
for its own range, and ranges that meet at a megabyte boundary compose
(`Remapped.trans`), which is the step of the loop.
-/
import SyeLabs.Lib.Loop
import SyeLabs.Mmu.Basic

namespace SyeLabs.Mmu

open Lib

variable {H : Type*} (M : Hardware H)

-- =============================================================== the functions

/-- Allocate and clear an L2 table and store its address in a slot. -/
def newL2 (t : PageTables H) (g : Pgtable) (i : Nat) (nocache : Bool) :
    Option (PageTables H) :=
  (M.heap.alloc t.heap).map fun r =>
    (PageTables.clearL2 { t with heap := r.2 } r.1).setL1 g i
      (r.1 * 1024 + M.attrs.page nocache)

/-- The first part of `alloc_init_pte`: an empty slot gets an L2 table. -/
def ensureL2 (t : PageTables H) (g : Pgtable) (i : Nat) (nocache : Bool) :
    Option (PageTables H) :=
  if t.l1 g i = 0 then newL2 M t g i nocache else some t

/-- The cursor of the loop of `alloc_init_pte`. -/
structure PteCursor (H : Type*) where
  t : PageTables H
  l2pte : Nat
  addr : Nat
  pfn : Nat

/-- The loop of `alloc_init_pte`. -/
def setPtes (nocache : Bool) (end_ : Nat) (s : PteCursor H) :
    Option (PteCursor H) :=
  doWhile
    (fun s => some
      { t := s.t.setL2 s.l2pte
          (s.pfn * 4096 % addrSpace + M.attrs.small nocache)
        l2pte := s.l2pte + 1
        addr := s.addr + 4096
        pfn := s.pfn + 1 })
    (fun s => s.addr ≠ end_) 1048576 s

/-- `alloc_init_pte`. -/
def allocInitPte (t : PageTables H) (g : Pgtable)
    (l1pte addr end_ pfn : Nat) (nocache : Bool) : Option (PageTables H) :=
  (ensureL2 M t g l1pte nocache).bind fun t =>
    (setPtes M nocache end_
      ⟨t, l2pteOffset (t.l1 g l1pte) addr, addr, pfn⟩).map PteCursor.t

/-- The cursor of the loops over L1 slots. -/
structure SectCursor (H : Type*) where
  t : PageTables H
  l1pte : Nat
  addr : Nat
  phys : Nat

/-- The loop of `alloc_init_section`. -/
def setSects (g : Pgtable) (nocache : Bool) (end_ : Nat)
    (s : SectCursor H) : Option (SectCursor H) :=
  doWhile
    (fun s => some
      { t := s.t.setL1 g s.l1pte
          (s.phys % addrSpace + M.attrs.sect nocache)
        l1pte := s.l1pte + 1
        addr := s.addr + 1048576
        phys := s.phys + 1048576 })
    (fun s => s.addr ≠ end_) 4097 s

/-- `alloc_init_section`. -/
def allocInitSection (t : PageTables H) (g : Pgtable)
    (l1pte addr end_ phys : Nat) (nocache : Bool) :
    Option (PageTables H) :=
  if addr % 1048576 = 0 ∧ end_ % 1048576 = 0 ∧ phys % 1048576 = 0 then
    (setSects M g nocache end_ ⟨t, l1pte, addr, phys⟩).map SectCursor.t
  else allocInitPte M t g l1pte addr end_ (phys / 4096) nocache

/-- `l1sect_addr_end`. -/
def l1sectAddrEnd (addr end_ : Nat) : Nat :=
  min end_ ((addr / 1048576 + 1) * 1048576)

/-- `virt_base & PAGE_MASK`. -/
def pageStart (virt : Nat) : Nat := virt / 4096 * 4096

/-- The end of the pages of a range. -/
def pageEnd (virt size : Nat) : Nat :=
  pageStart virt + alignUp (size + virt % 4096)

/-- The body of the loop of `create_mapping`. -/
def mapPiece (g : Pgtable) (end_ : Nat) (nocache : Bool)
    (s : SectCursor H) : Option (SectCursor H) :=
  let next := l1sectAddrEnd s.addr end_
  (allocInitSection M s.t g s.l1pte s.addr next s.phys nocache).map
    fun t =>
      { t
        l1pte := s.l1pte + 1
        addr := next
        phys := s.phys + (next - s.addr) }

/-- `v7_inval_tlb` after a change of the system table. -/
def invalSys (g : Pgtable) (t : PageTables H) : PageTables H :=
  if g = .sys then { t with tlb := [] } else t

/-- `create_mapping`; without a table it is the system table. -/
def createMapping (t : PageTables H) (pgtable : Option Pgtable)
    (virt phys size : Nat) (nocache : Bool) : Option (PageTables H) :=
  let g := pgtable.getD .sys
  let addr := pageStart virt
  let end_ := pageEnd virt size
  (doWhile (mapPiece M g end_ nocache) (fun s => s.addr ≠ end_) 4097
    ⟨t, l1pteIndex addr, addr, phys⟩).map fun s => invalSys g s.t

-- ========================================================== loops over entries

/-- The words `x .. x + n - 1` filled with consecutive frames. -/
def fillL2 (t : PageTables H) (nocache : Bool) (x n pfn : Nat) :
    PageTables H :=
  { t with
    l2 := fun y =>
      if x ≤ y ∧ y < x + n then
        (pfn + (y - x)) * 4096 % addrSpace + M.attrs.small nocache
      else t.l2 y }

@[simp] theorem fillL2_l1 (t : PageTables H) (nocache : Bool)
    (x n pfn : Nat) : (fillL2 M t nocache x n pfn).l1 = t.l1 := rfl

@[simp] theorem fillL2_heap (t : PageTables H) (nocache : Bool)
    (x n pfn : Nat) : (fillL2 M t nocache x n pfn).heap = t.heap := rfl

theorem fillL2_in {t : PageTables H} {nocache : Bool} {x n pfn k : Nat}
    (hk : k < n) :
    (fillL2 M t nocache x n pfn).l2 (x + k)
      = (pfn + k) * 4096 % addrSpace + M.attrs.small nocache := by
  have h : x ≤ x + k ∧ x + k < x + n := by omega
  simp only [fillL2, if_pos h, Nat.add_sub_cancel_left]

theorem fillL2_out {t : PageTables H} {nocache : Bool} {x n pfn y : Nat}
    (hy : y < x ∨ x + n ≤ y) :
    (fillL2 M t nocache x n pfn).l2 y = t.l2 y := by
  have h : ¬ (x ≤ y ∧ y < x + n) := by omega
  simp only [fillL2, if_neg h]

/-- One more word of a fill. -/
theorem fillL2_succ (t : PageTables H) (nocache : Bool) (x n pfn : Nat) :
    (fillL2 M t nocache x n pfn).setL2 (x + n)
        ((pfn + n) * 4096 % addrSpace + M.attrs.small nocache)
      = fillL2 M t nocache x (n + 1) pfn := by
  unfold fillL2 PageTables.setL2
  congr 1
  funext y
  by_cases hy : y = x + n
  · subst hy
    simp
  · have h : y < x + (n + 1) ↔ y < x + n := by omega
    simp [Function.update_of_ne hy, h]

theorem fillL2_zero (t : PageTables H) (nocache : Bool) (x pfn : Nat) :
    fillL2 M t nocache x 0 pfn = t := by
  have h : (fillL2 M t nocache x 0 pfn).l2 = t.l2 := by
    funext y
    exact fillL2_out M (by omega)
  show { t with l2 := (fillL2 M t nocache x 0 pfn).l2 } = t
  rw [h]

variable {M} {avail : Prop}

/-- The loop of `alloc_init_pte` fills one word for each page. -/
theorem setPtes_ensures (t : PageTables H) (nocache : Bool)
    (x addr pfn n : Nat) (hn : n < 1048576) :
    Ensures avail
      (setPtes M nocache (addr + (n + 1) * 4096) ⟨t, x, addr, pfn⟩)
      fun s => s.t = fillL2 M t nocache x (n + 1) pfn := by
  refine Ensures.mono
    (Ensures.doWhile
      (I := fun k (s : PteCursor H) => k ≤ n + 1
        ∧ s.l2pte = x + (n + 1 - k)
        ∧ s.addr = addr + (n + 1 - k) * 4096
        ∧ s.pfn = pfn + (n + 1 - k)
        ∧ s.t = fillL2 M t nocache x (n + 1 - k) pfn)
      ?_ n 1048576 hn ?_) ?_
  · intro k s h
    obtain ⟨hk, hx, ha, hp, ht⟩ := h
    have hstep : n + 1 - k = n + 1 - (k + 1) + 1 := by omega
    refine Ensures.some ⟨?_, by omega, ?_, ?_, ?_, ?_⟩
    · simp only [ha, ne_eq, decide_eq_true_eq]
      omega
    · simp only [hx, hstep, Nat.add_assoc]
    · simp only [ha]
      omega
    · simp only [hp, hstep, Nat.add_assoc]
    · simp only [hx, hp, ht, hstep]
      exact fillL2_succ M t nocache x _ pfn
  · simp [fillL2_zero]
  · intro s h
    obtain ⟨-, -, -, -, ht⟩ := h
    simpa using ht

/-- One turn of the loop of `alloc_init_section`. -/
theorem setSects_ensures (t : PageTables H) (g : Pgtable)
    (nocache : Bool) (i phys : Nat) :
    Ensures avail
      (setSects M g nocache ((i + 1) * 1048576)
        ⟨t, i, i * 1048576, phys⟩)
      fun s => s.t
        = t.setL1 g i (phys % addrSpace + M.attrs.sect nocache) := by
  refine Ensures.mono
    (Ensures.doWhile
      (I := fun k (s : SectCursor H) => k ≤ 1
        ∧ (k = 1 → s = ⟨t, i, i * 1048576, phys⟩)
        ∧ (k = 0 → s.t
          = t.setL1 g i (phys % addrSpace + M.attrs.sect nocache)))
      ?_ 0 4097 (by decide) ⟨Nat.le_refl 1, fun _ => rfl, nofun⟩)
    fun s hs => hs.2.2 rfl
  intro k s h
  obtain ⟨hk, hs, -⟩ := h
  obtain rfl : k = 0 := by omega
  obtain rfl := hs rfl
  exact Ensures.some
    ⟨by simp [Nat.succ_mul], Nat.zero_le 1, nofun, fun _ => rfl⟩

-- ======================================================= what a piece achieves

/-- `t'` maps the addresses `[lo, hi)` of table `g` to `base` on and is
`t` otherwise. -/
structure Remapped (M : Hardware H) (t t' : PageTables H) (g : Pgtable)
    (lo hi base : Nat) : Prop where
  wf : WellFormed M t' g
  inside : ∀ v, lo ≤ v → v < hi → walk t' g v = some (base + (v - lo))
  outside : ∀ v, v < addrSpace → v < lo ∨ hi ≤ v →
    walk t' g v = walk t g v
  /-- Slots of other tables, and of this one outside the range. -/
  slots : ∀ g' j, g' ≠ g ∨ j < lo / 1048576 ∨ (hi - 1) / 1048576 < j →
    t'.l1 g' j = t.l1 g' j
  /-- L2 tables in use that no slot of the range refers to. -/
  tables : ∀ b, M.heap.live t.heap b →
    (∀ j, lo / 1048576 ≤ j → j ≤ (hi - 1) / 1048576 →
      l1pteIsTable (t.l1 g j) → l2Block (t.l1 g j) ≠ b) →
    ∀ x, x < 256 → t'.l2 (b * 256 + x) = t.l2 (b * 256 + x)
  live : ∀ b, M.heap.live t.heap b → M.heap.live t'.heap b
  /-- A slot that changed refers to a newly allocated L2 table. -/
  fresh : ∀ j, l1pteIsTable (t'.l1 g j) →
    t'.l1 g j = t.l1 g j ∨ ¬ M.heap.live t.heap (l2Block (t'.l1 g j))
  /-- An entry is the old one, empty or a small page. -/
  entries : ∀ j x, j < 4096 → x < 256 → l1pteIsTable (t'.l1 g j) →
    (t'.l1 g j = t.l1 g j ∧ entry t' g j x = entry t g j x)
      ∨ entry t' g j x = 0 ∨ 2 ≤ entry t' g j x % 4

/-- Two ranges that meet at a megabyte boundary. -/
theorem Remapped.trans {t t' t'' : PageTables H} {g : Pgtable}
    {lo mid hi base base' : Nat} (h : Remapped M t t' g lo mid base)
    (h' : Remapped M t' t'' g mid hi base') (hlo : lo < mid)
    (hhi : mid < hi) (hspace : hi ≤ addrSpace) (hmid : mid % 1048576 = 0)
    (hbase : base' = base + (mid - lo)) :
    Remapped M t t'' g lo hi base where
  wf := h'.wf
  inside := by
    intro v hv hv'
    by_cases hvm : v < mid
    · rw [h'.outside v (by omega) (Or.inl hvm)]
      exact h.inside v hv hvm
    · rw [h'.inside v (by omega) hv', hbase]
      congr 1
      omega
  outside := by
    intro v hv hout
    rw [h'.outside v hv (by omega), h.outside v hv (by omega)]
  slots := by
    intro g' j hj
    rcases hj with hg | hj
    · rw [h'.slots g' j (Or.inl hg), h.slots g' j (Or.inl hg)]
    · rw [h'.slots g' j (Or.inr (by omega)),
        h.slots g' j (Or.inr (by omega))]
  tables := by
    intro b hb hne x hx
    have hkeep : ∀ j, mid / 1048576 ≤ j → t'.l1 g j = t.l1 g j :=
      fun j hj => h.slots g j (Or.inr (by omega))
    rw [h'.tables b (h.live b hb) _ x hx,
      h.tables b hb (fun j hj hj' => hne j hj (by omega)) x hx]
    intro j hj hj'
    rw [hkeep j hj]
    exact hne j (by omega) hj'
  live := fun b hb => h'.live b (h.live b hb)
  fresh := by
    intro j hj
    rcases h'.fresh j hj with heq | hnew
    · rw [heq] at hj ⊢
      exact h.fresh j hj
    · exact Or.inr fun hb => hnew (h.live _ hb)
  entries := by
    intro j x hj hx ht
    rcases h'.entries j x hj hx ht with ⟨hl1, he⟩ | hnew
    · rw [hl1] at ht ⊢
      rw [he]
      exact h.entries j x hj hx ht
    · exact Or.inr hnew

-- ========================================================= the table of a slot

/-- `t'` is `t` with an L2 table in slot `i` of table `g`: the one that
was there or a new and empty one. -/
structure TableReady (M : Hardware H) (t t' : PageTables H) (g : Pgtable)
    (i : Nat) : Prop where
  wf : WellFormed M t' g
  table : l1pteIsTable (t'.l1 g i)
  walk : ∀ v, v < addrSpace → walk t' g v = walk t g v
  slots : ∀ g' j, ¬ (g' = g ∧ j = i) → t'.l1 g' j = t.l1 g' j
  tables : ∀ b, M.heap.live t.heap b → ∀ x, x < 256 →
    t'.l2 (b * 256 + x) = t.l2 (b * 256 + x)
  live : ∀ b, M.heap.live t'.heap b ↔
    b = l2Block (t'.l1 g i) ∨ M.heap.live t.heap b
  fresh : t'.l1 g i = t.l1 g i ∨ ¬ M.heap.live t.heap (l2Block (t'.l1 g i))
  entries : ∀ j x, j < 4096 → x < 256 → l1pteIsTable (t'.l1 g j) →
    (t'.l1 g j = t.l1 g j ∧ entry t' g j x = entry t g j x)
      ∨ entry t' g j x = 0

theorem TableReady.of_table {t : PageTables H} {g : Pgtable} {i : Nat}
    (wf : WellFormed M t g) (hi : i < 4096)
    (h : l1pteIsTable (t.l1 g i)) : TableReady M t t g i where
  wf := wf
  table := h
  walk := fun _ _ => rfl
  slots := fun _ _ _ => rfl
  tables := fun _ _ _ _ => rfl
  live := fun _ => ⟨Or.inr, fun hb => hb.elim (fun he => he ▸ wf.live hi h) id⟩
  fresh := Or.inl rfl
  entries := fun _ _ _ _ _ => Or.inl ⟨rfl, rfl⟩

/-- The L1 word of a block. -/
theorem l1Word_isTable (M : Hardware H) (b : Nat) (nocache : Bool) :
    l1pteIsTable (b * 1024 + M.attrs.page nocache) := by
  have := M.attrs.page_type nocache
  simp only [l1pteIsTable, decide_eq_true_eq]
  omega

theorem l1Word_block (M : Hardware H) (b : Nat) (nocache : Bool) :
    l2Block (b * 1024 + M.attrs.page nocache) = b := by
  have := M.attrs.page_lt nocache
  unfold l2Block
  omega

/-- The slot holds a new table whose words are all zero; nothing else in
use has changed. -/
theorem newL2_eq {t t' : PageTables H} {g : Pgtable} {i : Nat}
    {nocache : Bool} (h : newL2 M t g i nocache = some t') :
    ∃ b, M.heap.alloc t.heap = some (b, t'.heap)
      ∧ t'.l1 g i = b * 1024 + M.attrs.page nocache
      ∧ (∀ g' j, ¬ (g' = g ∧ j = i) → t'.l1 g' j = t.l1 g' j)
      ∧ (∀ x, x < 256 → t'.l2 (b * 256 + x) = 0)
      ∧ ∀ c, c ≠ b → ∀ x, x < 256 →
        t'.l2 (c * 256 + x) = t.l2 (c * 256 + x) := by
  obtain ⟨⟨b, h'⟩, halloc, rfl⟩ := Option.map_eq_some_iff.mp h
  refine ⟨b, halloc, setL1_self _ _ _ _, fun g' j hj => ?_,
    fun x hx => ?_, fun c hc x hx => ?_⟩
  · exact setL1_other _ _ hj
  · have hb : (b * 256 + x) / 256 = b := by omega
    simp only [setL1_l2, PageTables.clearL2, hb, if_true]
  · have hb : ¬ (c * 256 + x) / 256 = b := by omega
    simp only [setL1_l2, PageTables.clearL2, if_neg hb]

/-- Every L2 word is a word of its block. -/
theorem l2pteOffset_eq (w addr : Nat) :
    l2pteOffset w addr = l2Block w * 256 + addr / 4096 % 256 := rfl

theorem newL2_ready {t : PageTables H} {g : Pgtable} {i : Nat}
    {nocache : Bool} (wf : WellFormed M t g) (h0 : t.l1 g i = 0)
    (havail : avail → ∃ r, M.heap.alloc t.heap = some r) :
    Ensures avail (newL2 M t g i nocache)
      fun t' => TableReady M t t' g i := by
  constructor
  · intro t' ht'
    obtain ⟨b, halloc, hword, hslots, hzero, htables⟩ := newL2_eq ht'
    have hblock : l2Block (t'.l1 g i) = b := by rw [hword, l1Word_block]
    have htable : l1pteIsTable (t'.l1 g i) := hword ▸ l1Word_isTable M b _
    have hkeep : ∀ c, M.heap.live t.heap c → ∀ x, x < 256 →
        t'.l2 (c * 256 + x) = t.l2 (c * 256 + x) :=
      fun c hc => htables c (M.heap.ne_of_alloc halloc hc)
    have hslot : ∀ j, j ≠ i → t'.l1 g j = t.l1 g j :=
      fun j hj => hslots g j fun h => hj h.2
    constructor
    case wf =>
      constructor
      · intro j hj
        by_cases hji : j = i
        · subst hji
          refine Or.inr (Or.inr ⟨htable, ?_⟩)
          rw [hblock]
          exact M.heap.live_self_of_alloc halloc
        · rw [hslot j hji]
          rcases wf.slot j hj with h | h | ⟨h, hl⟩
          · exact Or.inl h
          · exact Or.inr (Or.inl h)
          · exact Or.inr (Or.inr ⟨h, M.heap.live_of_alloc halloc hl⟩)
      · intro j k hj hk hjk htj htk
        by_cases hji : j = i
        · subst hji
          rw [hslot k hjk.symm] at htk ⊢
          rw [hblock]
          exact (M.heap.ne_of_alloc halloc (wf.live hk htk)).symm
        · rw [hslot j hji] at htj ⊢
          by_cases hki : k = i
          · subst hki
            rw [hblock]
            exact M.heap.ne_of_alloc halloc (wf.live hj htj)
          · rw [hslot k hki] at htk ⊢
            exact wf.owned j k hj hk hjk htj htk
    case walk =>
      intro v hv
      by_cases hvi : l1pteIndex v = i
      · have hx : v / 4096 % 256 < 256 := Nat.mod_lt _ (by decide)
        have hempty : walk t g v = none := walk_of_empty (hvi ▸ h0)
        have htable' : l1pteIsTable (t'.l1 g (l1pteIndex v)) :=
          hvi.symm ▸ htable
        rw [hempty, walk_of_table htable', hvi, l2pteOffset_eq, hblock,
          hzero _ hx, l2Walk_zero]
      · apply walk_congr (hslot _ hvi)
        intro ht
        have hi : l1pteIndex v < 4096 := by
          unfold l1pteIndex addrSpace at *
          omega
        exact hkeep _ (wf.live hi ht) _ (Nat.mod_lt _ (by decide))
    case live =>
      intro c
      rw [hblock]
      exact M.heap.alloc_live halloc c
    case fresh =>
      rw [hblock]
      exact Or.inr (M.heap.alloc_fresh halloc)
    case entries =>
      intro j x hj hx ht
      by_cases hji : j = i
      · subst hji
        rw [entry, hblock]
        exact Or.inr (hzero x hx)
      · rw [hslot j hji] at ht ⊢
        exact Or.inl ⟨rfl, entry_congr (hslot j hji)
          (hkeep _ (wf.live hj ht) x hx)⟩
    · exact htable
    · exact hslots
    · exact hkeep
  · intro hav
    obtain ⟨r, hr⟩ := havail hav
    exact ⟨_, Option.map_eq_some_iff.mpr ⟨r, hr, rfl⟩⟩

-- ============================================================== the two pieces

/-- The L2 word of a frame is that of a small page. -/
theorem l2Word_type (M : Hardware H) (f : Nat) (nocache : Bool) :
    2 ≤ (f * 4096 % addrSpace + M.attrs.small nocache) % 4 := by
  have := M.attrs.small_type nocache
  unfold addrSpace
  omega

/-- Filling words of the L2 table of a slot maps the pages they stand
for. -/
theorem fillL2_remapped {t : PageTables H} {g : Pgtable}
    {i addr n pfn : Nat} (nocache : Bool) (wf : WellFormed M t g)
    (hi : i < 4096) (ht : l1pteIsTable (t.l1 g i))
    (haddr : addr % 4096 = 0) (hlo : i * 1048576 ≤ addr) (hn : 0 < n)
    (hhi : addr + n * 4096 ≤ (i + 1) * 1048576)
    (hphys : (pfn + n) * 4096 ≤ addrSpace) :
    Remapped M t
      (fillL2 M t nocache (l2pteOffset (t.l1 g i) addr) n pfn) g addr
      (addr + n * 4096) (pfn * 4096) := by
  have hslot : addr / 1048576 = i := by omega
  have hslot' : (addr + n * 4096 - 1) / 1048576 = i := by omega
  -- the words filled are words of the block of the slot
  have hblock : ∀ c x, x < 256 → c ≠ l2Block (t.l1 g i) →
      c * 256 + x < l2pteOffset (t.l1 g i) addr
        ∨ l2pteOffset (t.l1 g i) addr + n ≤ c * 256 + x := by
    intro c x hx hc
    rw [l2pteOffset_eq]
    omega
  constructor
  case wf => exact ⟨wf.slot, wf.owned⟩
  case inside =>
    intro v hv hv'
    have hvi : l1pteIndex v = i := by
      unfold l1pteIndex
      omega
    obtain ⟨k, hk⟩ : ∃ k, k = (v - addr) / 4096 := ⟨_, rfl⟩
    have hoff : l2pteOffset (t.l1 g i) v
        = l2pteOffset (t.l1 g i) addr + k := by
      rw [l2pteOffset_eq, l2pteOffset_eq]
      omega
    have hfit : (pfn + k) * 4096 < addrSpace := by omega
    rw [walk_of_table (by rw [fillL2_l1, hvi]; exact ht), fillL2_l1, hvi,
      hoff, fillL2_in M (by omega), Nat.mod_eq_of_lt hfit,
      l2Walk_small (by omega) (M.attrs.small_lt _) (M.attrs.small_type _),
      Option.some.injEq]
    omega
  case outside =>
    intro v hv hout
    refine walk_congr rfl fun htv => fillL2_out M ?_
    by_cases hvi : l1pteIndex v = i
    · rw [hvi, l2pteOffset_eq, l2pteOffset_eq]
      unfold l1pteIndex at hvi
      omega
    · have hvlt : l1pteIndex v < 4096 := by
        unfold l1pteIndex addrSpace at *
        omega
      exact hblock _ _ (Nat.mod_lt _ (by decide))
        (wf.owned _ _ hvlt hi hvi htv ht)
  case tables =>
    intro b _ hne x hx
    exact fillL2_out M (hblock b x hx
      (hne i (by omega) (by omega) ht).symm)
  case entries =>
    intro j x _ _ _
    by_cases hin : l2pteOffset (t.l1 g i) addr
          ≤ l2Block (t.l1 g j) * 256 + x
        ∧ l2Block (t.l1 g j) * 256 + x
          < l2pteOffset (t.l1 g i) addr + n
    · refine Or.inr (Or.inr ?_)
      simp only [entry, fillL2, if_pos hin]
      exact l2Word_type M _ nocache
    · refine Or.inl ⟨rfl, ?_⟩
      simp only [entry, fillL2, if_neg hin]
  · exact fun _ _ _ => rfl
  · exact fun _ hb => hb
  · exact fun _ _ => Or.inl rfl

/-- A table made ready first does not show. -/
theorem TableReady.remapped {t t' t'' : PageTables H} {g : Pgtable}
    {i lo hi base : Nat} (hr : TableReady M t t' g i)
    (hm : Remapped M t' t'' g lo hi base) (hlo : lo / 1048576 = i)
    (hhi : (hi - 1) / 1048576 = i) : Remapped M t t'' g lo hi base where
  wf := hm.wf
  inside := hm.inside
  outside := fun v hv hout => (hm.outside v hv hout).trans (hr.walk v hv)
  slots := by
    intro g' j hj
    rw [hm.slots g' j hj]
    apply hr.slots g' j
    intro h
    obtain ⟨rfl, rfl⟩ := h
    rcases hj with h | h
    · exact h rfl
    · omega
  tables := by
    intro b hb hne x hx
    rw [hm.tables b ((hr.live b).mpr (Or.inr hb)) _ x hx,
      hr.tables b hb x hx]
    intro j hj hj' ht heq
    obtain rfl : j = i := by omega
    rcases hr.fresh with hsame | hnew
    · rw [hsame] at ht heq
      exact hne j hj hj' ht heq
    · exact hnew (heq.symm ▸ hb)
  live := fun b hb => hm.live b ((hr.live b).mpr (Or.inr hb))
  fresh := by
    intro j hj
    rcases hm.fresh j hj with heq | hnew
    · by_cases hji : j = i
      · subst hji
        rcases hr.fresh with hsame | hnew
        · exact Or.inl (heq.trans hsame)
        · exact Or.inr (heq ▸ hnew)
      · exact Or.inl (heq.trans (hr.slots g j fun h => hji h.2))
    · exact Or.inr fun hb => hnew ((hr.live _).mpr (Or.inr hb))
  entries := by
    intro j x hj hx ht
    rcases hm.entries j x hj hx ht with ⟨hl1, he⟩ | hnew
    · rw [hl1] at ht ⊢
      rw [he]
      exact (hr.entries j x hj hx ht).imp_right Or.inl
    · exact Or.inr hnew

/-- `alloc_init_pte` on a piece of one slot that holds no section. -/
theorem allocInitPte_remapped {t : PageTables H} {g : Pgtable}
    {i addr n pfn : Nat} (nocache : Bool) (wf : WellFormed M t g)
    (hi : i < 4096) (hs : ¬ l1pteIsSect (t.l1 g i))
    (haddr : addr % 4096 = 0) (hlo : i * 1048576 ≤ addr) (hn : 0 < n)
    (hhi : addr + n * 4096 ≤ (i + 1) * 1048576)
    (hphys : (pfn + n) * 4096 ≤ addrSpace)
    (havail : avail → ∃ r, M.heap.alloc t.heap = some r) :
    Ensures avail
      (allocInitPte M t g i addr (addr + n * 4096) pfn nocache)
      fun t' => Remapped M t t' g addr (addr + n * 4096) (pfn * 4096) := by
  have hready : Ensures avail (ensureL2 M t g i nocache)
      fun t' => TableReady M t t' g i := by
    unfold ensureL2
    rcases wf.slot i hi with h0 | h | ⟨ht, -⟩
    · rw [if_pos h0]
      exact newL2_ready wf h0 havail
    · exact absurd h hs
    · have hne : t.l1 g i ≠ 0 := by
        intro h0
        rw [h0] at ht
        cases ht
      rw [if_neg hne]
      exact Ensures.some (TableReady.of_table wf hi ht)
  apply hready.bind
  intro t' hr
  obtain ⟨m, rfl⟩ : ∃ m, n = m + 1 := ⟨n - 1, by omega⟩
  refine Ensures.map ((setPtes_ensures t' nocache
    (l2pteOffset (t'.l1 g i) addr) addr pfn m (by omega)).mono
      fun s hs => ?_)
  rw [hs]
  exact hr.remapped
    (fillL2_remapped nocache hr.wf hi hr.table haddr hlo hn hhi hphys)
    (by omega) (by omega)

/-- A section entry maps its megabyte. -/
theorem setL1_remapped {t : PageTables H} {g : Pgtable} {i phys : Nat}
    (nocache : Bool) (wf : WellFormed M t g) (hphys : phys % 1048576 = 0)
    (hlt : phys < addrSpace) :
    Remapped M t
      (t.setL1 g i (phys % addrSpace + M.attrs.sect nocache)) g
      (i * 1048576) ((i + 1) * 1048576) phys := by
  have hattr := M.attrs.sect_lt nocache
  have htype := M.attrs.sect_type nocache
  obtain ⟨w, hw⟩ : ∃ w, w = phys % addrSpace + M.attrs.sect nocache :=
    ⟨_, rfl⟩
  have hbase : w / 1048576 * 1048576 = phys := by
    rw [hw, Nat.mod_eq_of_lt hlt]
    omega
  have hsect : l1pteIsSect w := by
    rw [Nat.mod_eq_of_lt hlt] at hw
    simp only [l1pteIsSect, decide_eq_true_eq]
    omega
  rw [← hw]
  have hother : ∀ j, j ≠ i → (t.setL1 g i w).l1 g j = t.l1 g j :=
    fun j hj => setL1_other t w fun h => hj h.2
  have htable : ∀ j, l1pteIsTable ((t.setL1 g i w).l1 g j) →
      j ≠ i ∧ (t.setL1 g i w).l1 g j = t.l1 g j := by
    intro j hj
    have hji : j ≠ i := by
      intro heq
      subst heq
      rw [setL1_self] at hj
      exact not_isSect_of_isTable hj hsect
    exact ⟨hji, hother j hji⟩
  constructor
  case wf =>
    constructor
    · intro j hj
      by_cases hji : j = i
      · rw [hji, setL1_self]
        exact Or.inr (Or.inl hsect)
      · rw [hother j hji]
        exact wf.slot j hj
    · intro j k hj hk hjk htj htk
      obtain ⟨-, hj'⟩ := htable j htj
      obtain ⟨-, hk'⟩ := htable k htk
      rw [hj'] at htj ⊢
      rw [hk'] at htk ⊢
      exact wf.owned j k hj hk hjk htj htk
  case inside =>
    intro v hv hv'
    have hvi : l1pteIndex v = i := by
      unfold l1pteIndex
      omega
    rw [walk_of_sect (by rw [hvi, setL1_self]; exact hsect), hvi,
      setL1_self, hbase, Option.some.injEq]
    omega
  case outside =>
    intro v _ hout
    refine walk_congr (hother _ ?_) fun _ => rfl
    unfold l1pteIndex
    omega
  case slots =>
    intro g' j hj
    apply setL1_other t w
    intro h
    obtain ⟨rfl, rfl⟩ := h
    rcases hj with h | h
    · exact h rfl
    · omega
  case fresh => exact fun j hj => Or.inl (htable j hj).2
  case entries =>
    intro j x _ _ ht
    obtain ⟨-, hj⟩ := htable j ht
    exact Or.inl ⟨hj, entry_congr hj rfl⟩
  · exact fun _ _ _ _ _ => rfl
  · exact fun _ hb => hb

/-- The condition under which `alloc_init_section` sets section
entries. -/
def Aligned (addr end_ phys : Nat) : Prop :=
  addr % 1048576 = 0 ∧ end_ % 1048576 = 0 ∧ phys % 1048576 = 0

/-- `alloc_init_section` on a piece of one slot. -/
theorem allocInitSection_remapped {t : PageTables H} {g : Pgtable}
    (i addr end_ phys : Nat) (nocache : Bool) (wf : WellFormed M t g)
    (hi : i < 4096)
    (hs : l1pteIsSect (t.l1 g i) → Aligned addr end_ phys)
    (haddr : addr % 4096 = 0) (hend : end_ % 4096 = 0)
    (hlo : i * 1048576 ≤ addr) (hlt : addr < end_)
    (hhi : end_ ≤ (i + 1) * 1048576)
    (hphys : phys / 4096 * 4096 + (end_ - addr) ≤ addrSpace)
    (havail : avail → ∃ r, M.heap.alloc t.heap = some r) :
    Ensures avail (allocInitSection M t g i addr end_ phys nocache)
      fun t' => Remapped M t t' g addr end_ (phys / 4096 * 4096) := by
  unfold allocInitSection
  split
  next h =>
    obtain ⟨h1, h2, h3⟩ := h
    obtain rfl : addr = i * 1048576 := by omega
    obtain rfl : end_ = (i + 1) * 1048576 := by omega
    have hbase : phys / 4096 * 4096 = phys := by omega
    refine Ensures.map
      ((setSects_ensures t g nocache i phys).mono fun s hs => ?_)
    rw [hs, hbase]
    exact setL1_remapped nocache wf h3 (by omega)
  next h =>
    obtain ⟨n, hn⟩ : ∃ n, n = (end_ - addr) / 4096 := ⟨_, rfl⟩
    obtain rfl : end_ = addr + n * 4096 := by omega
    rw [Nat.add_sub_cancel_left, ← Nat.add_mul] at hphys
    exact allocInitPte_remapped nocache wf hi (fun h' => h (hs h')) haddr
      hlo (by omega) hhi hphys havail

-- ============================================================= the whole range

/-- The piece of the range in slot `i` takes the section path. -/
def SectPiece (lo hi phys i : Nat) : Prop :=
  Aligned (max lo (i * 1048576)) (min hi ((i + 1) * 1048576))
    (phys + (max lo (i * 1048576) - lo))

/-- The loop invariant of `create_mapping`, with `k` pieces to go. -/
structure Mapping (M : Hardware H) (t : PageTables H) (g : Pgtable)
    (lo hi phys k : Nat) (s : SectCursor H) : Prop where
  lo_le : lo ≤ s.addr
  phys_eq : s.phys = phys + (s.addr - lo)
  done : (s.addr = lo ∧ s.t = t)
    ∨ (lo < s.addr ∧ Remapped M t s.t g lo s.addr (phys / 4096 * 4096))
  left : (k = 0 ∧ s.addr = hi)
    ∨ (0 < k ∧ s.addr < hi ∧ s.addr / 1048576 + k = (hi - 1) / 1048576 + 1
      ∧ s.l1pte = s.addr / 1048576
      ∧ (s.addr = lo ∨ s.addr % 1048576 = 0))

/-- The piece at the cursor. -/
theorem Mapping.piece {t : PageTables H} {g : Pgtable}
    {lo hi phys k : Nat} {s : SectCursor H}
    (hI : Mapping M t g lo hi phys (k + 1) s) (hlo : lo % 4096 = 0)
    (hhi : hi % 4096 = 0) :
    s.addr < hi ∧ s.l1pte = s.addr / 1048576
      ∧ s.addr % 4096 = 0 ∧ l1sectAddrEnd s.addr hi % 4096 = 0
      ∧ s.addr < l1sectAddrEnd s.addr hi ∧ l1sectAddrEnd s.addr hi ≤ hi
      ∧ l1sectAddrEnd s.addr hi ≤ (s.l1pte + 1) * 1048576
      ∧ max lo (s.l1pte * 1048576) = s.addr := by
  have hge := hI.lo_le
  obtain ⟨hk, -⟩ | ⟨-, hlt, -, hpte, hstart⟩ := hI.left
  · cases hk
  rw [hpte]
  unfold l1sectAddrEnd
  refine ⟨hlt, rfl, ?_, ?_, ?_, Nat.min_le_left _ _, Nat.min_le_right _ _, ?_⟩
  · omega
  · omega
  · omega
  · omega

/-- The one after it, with `k` to go. -/
theorem Mapping.next {t : PageTables H} {g : Pgtable}
    {lo hi phys k : Nat} {s : SectCursor H}
    (hI : Mapping M t g lo hi phys (k + 1) s) :
    (l1sectAddrEnd s.addr hi ≠ hi ↔ k ≠ 0)
      ∧ ((k = 0 ∧ l1sectAddrEnd s.addr hi = hi)
        ∨ (0 < k ∧ l1sectAddrEnd s.addr hi < hi
          ∧ l1sectAddrEnd s.addr hi / 1048576 + k = (hi - 1) / 1048576 + 1
          ∧ s.l1pte + 1 = l1sectAddrEnd s.addr hi / 1048576
          ∧ (l1sectAddrEnd s.addr hi = lo
            ∨ l1sectAddrEnd s.addr hi % 1048576 = 0))) := by
  obtain ⟨hk, -⟩ | ⟨-, hlt, hcount, hpte, -⟩ := hI.left
  · cases hk
  unfold l1sectAddrEnd
  by_cases hlast : hi ≤ (s.addr / 1048576 + 1) * 1048576
  · rw [Nat.min_eq_left hlast]
    have hk : k = 0 := by omega
    exact ⟨by simp [hk], Or.inl ⟨hk, rfl⟩⟩
  · rw [Nat.min_eq_right (Nat.le_of_not_le hlast)]
    have hk : 0 < k := by omega
    have hdiv := Nat.mul_div_cancel (s.addr / 1048576 + 1)
      (by decide : 0 < 1048576)
    refine ⟨iff_of_true (by omega) (by omega), Or.inr ⟨hk, by omega, ?_, ?_,
      Or.inr (Nat.mul_mod_left _ _)⟩⟩
    · omega
    · rw [hdiv, hpte]

/-- One piece maps its own range. -/
theorem mapPiece_remapped {t : PageTables H} {g : Pgtable}
    {lo hi phys k : Nat} (nocache : Bool) {s : SectCursor H}
    (wf : WellFormed M t g) (hlo : lo % 4096 = 0) (hhi : hi % 4096 = 0)
    (hspace : hi ≤ addrSpace)
    (hphys : phys / 4096 * 4096 + (hi - lo) ≤ addrSpace)
    (hsect : ∀ i, lo / 1048576 ≤ i → i * 1048576 < hi →
      l1pteIsSect (t.l1 g i) → SectPiece lo hi phys i)
    (havail : avail → ∃ r, M.heap.alloc s.t.heap = some r)
    (hI : Mapping M t g lo hi phys (k + 1) s) :
    Ensures avail (mapPiece M g hi nocache s) fun s' =>
      s'.addr = l1sectAddrEnd s.addr hi ∧ s'.l1pte = s.l1pte + 1
        ∧ s'.phys = s.phys + (l1sectAddrEnd s.addr hi - s.addr)
        ∧ Remapped M s.t s'.t g s.addr (l1sectAddrEnd s.addr hi)
          (s.phys / 4096 * 4096) := by
  have hge := hI.lo_le
  obtain ⟨hlt, hpte, haddr, hn4, hnlt, hnhi, hnslot, hmax⟩ :=
    hI.piece hlo hhi
  have hslot : s.l1pte * 1048576 ≤ s.addr :=
    Nat.le_trans (Nat.le_max_right _ _) (Nat.le_of_eq hmax)
  have hbase : s.phys / 4096 * 4096
      = phys / 4096 * 4096 + (s.addr - lo) := by
    have hoff : (s.addr - lo) % 4096 = 0 := by omega
    rw [hI.phys_eq]
    omega
  have hi4 : s.l1pte < 4096 := by
    rw [hpte]
    exact Nat.div_lt_of_lt_mul (Nat.lt_of_lt_of_le hlt hspace)
  -- the slot of the piece is as it was at the start
  have hwf : WellFormed M s.t g ∧ s.t.l1 g s.l1pte = t.l1 g s.l1pte := by
    rcases hI.done with ⟨-, ht⟩ | ⟨hlo', hm⟩
    · rw [ht]
      exact ⟨wf, rfl⟩
    · exact ⟨hm.wf, hm.slots g _ (Or.inr (Or.inr (by omega)))⟩
  have hal : l1pteIsSect (s.t.l1 g s.l1pte) →
      Aligned s.addr (l1sectAddrEnd s.addr hi) s.phys := by
    rw [hwf.2]
    intro h
    have hle : lo / 1048576 ≤ s.l1pte := by
      rw [hpte]
      exact Nat.div_le_div_right hge
    have hpiece := hsect _ hle (Nat.lt_of_le_of_lt hslot hlt) h
    have hend : min hi ((s.l1pte + 1) * 1048576) = l1sectAddrEnd s.addr hi := by
      rw [hpte]
      rfl
    rw [SectPiece, hmax, hend, ← hI.phys_eq] at hpiece
    exact hpiece
  have hfit : s.phys / 4096 * 4096 + (l1sectAddrEnd s.addr hi - s.addr)
      ≤ addrSpace := by
    have hsub : s.addr - lo + (l1sectAddrEnd s.addr hi - s.addr) ≤ hi - lo := by
      omega
    rw [hbase, Nat.add_assoc]
    exact Nat.le_trans (Nat.add_le_add_left hsub _) hphys
  have hpiece := allocInitSection_remapped s.l1pte s.addr _ s.phys
    nocache hwf.1 hi4 hal haddr hn4 hslot hnlt hnslot hfit havail
  unfold mapPiece
  exact Ensures.map (hpiece.mono fun t' ht' => ⟨rfl, rfl, rfl, ht'⟩)

/-- One step of the loop. -/
theorem mapPiece_step {t : PageTables H} {g : Pgtable}
    {lo hi phys k : Nat} (nocache : Bool) {s : SectCursor H}
    (wf : WellFormed M t g) (hlo : lo % 4096 = 0) (hhi : hi % 4096 = 0)
    (hspace : hi ≤ addrSpace)
    (hphys : phys / 4096 * 4096 + (hi - lo) ≤ addrSpace)
    (hsect : ∀ i, lo / 1048576 ≤ i → i * 1048576 < hi →
      l1pteIsSect (t.l1 g i) → SectPiece lo hi phys i)
    (havail : avail → ∃ r, M.heap.alloc s.t.heap = some r)
    (hI : Mapping M t g lo hi phys (k + 1) s) :
    Ensures avail (mapPiece M g hi nocache s) fun s' =>
      (decide (s'.addr ≠ hi) = true ↔ k ≠ 0)
        ∧ Mapping M t g lo hi phys k s' := by
  have hge := hI.lo_le
  obtain ⟨hlt, hpte, -, -, hnlt, hnhi, -, hmax⟩ := hI.piece hlo hhi
  obtain ⟨hagain, hleft⟩ := hI.next
  refine (mapPiece_remapped nocache wf hlo hhi hspace hphys hsect havail
    hI).mono fun s' hs' => ?_
  obtain ⟨haddr', hpte', hphys', ht'⟩ := hs'
  rw [← haddr'] at ht' hagain hleft hnlt hnhi hphys'
  refine ⟨?_, ?_, ?_, ?_, ?_⟩
  · rw [decide_eq_true_iff]
    exact hagain
  · exact Nat.le_trans hge (Nat.le_of_lt hnlt)
  · rw [hphys', hI.phys_eq, Nat.add_assoc, Nat.add_comm (s.addr - lo),
      Nat.sub_add_sub_cancel (Nat.le_of_lt hnlt) hge]
  · refine Or.inr ⟨Nat.lt_of_le_of_lt hge hnlt, ?_⟩
    have hbase : s.phys / 4096 * 4096
        = phys / 4096 * 4096 + (s.addr - lo) := by
      rw [hI.phys_eq]
      omega
    rcases hI.done with ⟨hlo', ht⟩ | ⟨hlo', hm⟩
    · rw [hbase, hlo', Nat.sub_self, Nat.add_zero, ht] at ht'
      exact ht'
    · have hmeg : s.addr % 1048576 = 0 := by omega
      exact hm.trans ht' hlo' hnlt (Nat.le_trans hnhi hspace) hmeg hbase
  · rw [hpte']
    exact hleft

theorem Remapped.inval {t t' : PageTables H} {g g' : Pgtable}
    {lo hi base : Nat} (h : Remapped M t t' g lo hi base) :
    Remapped M t (invalSys g' t') g lo hi base := by
  unfold invalSys
  split
  · exact ⟨⟨h.wf.slot, h.wf.owned⟩, h.inside, h.outside, h.slots, h.tables,
      h.live, h.fresh, h.entries⟩
  · exact h

/-- The pages of a range that does not wrap. -/
theorem pageEnd_bounds {virt size : Nat} (hsize : 1 ≤ size)
    (hvirt : virt + size ≤ addrSpace) :
    pageStart virt % 4096 = 0 ∧ pageEnd virt size % 4096 = 0
      ∧ pageStart virt < pageEnd virt size
      ∧ pageEnd virt size ≤ addrSpace
      ∧ pageStart virt ≤ virt ∧ virt + size ≤ pageEnd virt size := by
  unfold pageEnd pageStart alignUp addrSpace at *
  omega

/-- The pages of a range that fits behind `phys` fit behind its page. -/
theorem pageEnd_fit {virt phys size : Nat}
    (halign : virt % 4096 = phys % 4096)
    (hphys : phys + size ≤ addrSpace) :
    phys / 4096 * 4096 + (pageEnd virt size - pageStart virt)
      ≤ addrSpace := by
  rw [pageEnd, Nat.add_sub_cancel_left]
  apply alignUp_add_le (Nat.mul_mod_left _ _) rfl
  have hbytes : phys / 4096 * 4096 + (size + virt % 4096)
      = phys + size := by omega
  rw [hbytes]
  exact hphys

/-- The loop at its start, with the slots of the range to go. -/
theorem Mapping.init (t : PageTables H) (g : Pgtable) {lo hi : Nat}
    (phys : Nat) (hlt : lo < hi) :
    Mapping M t g lo hi phys ((hi - 1) / 1048576 - lo / 1048576 + 1)
      ⟨t, l1pteIndex lo, lo, phys⟩ := by
  refine ⟨Nat.le_refl _, by simp, Or.inl ⟨rfl, rfl⟩, Or.inr ?_⟩
  refine ⟨Nat.succ_pos _, hlt, ?_, rfl, Or.inl rfl⟩
  dsimp only
  omega

/-- The loop at its end. -/
theorem Mapping.end_ {t : PageTables H} {g : Pgtable}
    {lo hi phys : Nat} {s : SectCursor H}
    (h : Mapping M t g lo hi phys 0 s) : s.addr = hi := by
  rcases h.left with ⟨-, h⟩ | ⟨h, -⟩
  · exact h
  · exact absurd h (Nat.lt_irrefl 0)

/-- `create_mapping` on a well-formed table maps its range, unless a
section entry stands where an L2 table is needed. -/
theorem createMapping_remapped {t t' : PageTables H}
    {pgtable : Option Pgtable} {virt phys size : Nat} {nocache : Bool}
    (wf : WellFormed M t (pgtable.getD .sys)) (hsize : 1 ≤ size)
    (halign : virt % 4096 = phys % 4096) (hvirt : virt + size ≤ addrSpace)
    (hphys : phys + size ≤ addrSpace)
    (hsect : ∀ i, pageStart virt / 1048576 ≤ i →
      i * 1048576 < pageEnd virt size →
      l1pteIsSect (t.l1 (pgtable.getD .sys) i) →
      SectPiece (pageStart virt) (pageEnd virt size) phys i)
    (h : createMapping M t pgtable virt phys size nocache = some t') :
    Remapped M t t' (pgtable.getD .sys) (pageStart virt)
      (pageEnd virt size) (phys / 4096 * 4096) := by
  obtain ⟨hlo4, hhi4, hlt, hspace, -, -⟩ := pageEnd_bounds hsize hvirt
  have hfit := pageEnd_fit halign hphys
  have hloop : Ensures False _ _ := Ensures.doWhile
    (I := Mapping M t (pgtable.getD .sys) (pageStart virt)
      (pageEnd virt size) phys)
    (fun k s hI => mapPiece_step nocache wf hlo4 hhi4 hspace hfit hsect
      False.elim hI)
    ((pageEnd virt size - 1) / 1048576 - pageStart virt / 1048576) 4097
    (by unfold addrSpace at hspace; omega) (Mapping.init t _ phys hlt)
  obtain ⟨s, hs, rfl⟩ := Option.map_eq_some_iff.mp h
  have hend := hloop.1 s hs
  have haddr := hend.end_
  rcases hend.done with ⟨hstart, -⟩ | ⟨-, hm⟩
  · omega
  · rw [haddr] at hm
    exact hm.inval

variable (M)

-- ==================================================================== one page

/-- Mapping one page: make sure of the L2 table of its slot and write one
word of it. -/
theorem createMapping_page (t : PageTables H) (g : Pgtable) {virt : Nat}
    (hvirt : virt % 4096 = 0) (f : Nat) (nocache : Bool) :
    createMapping M t (some g) virt (f * 4096) 4096 nocache
      = (ensureL2 M t g (l1pteIndex virt) nocache).map fun t' =>
        invalSys g (t'.setL2 (l2pteOffset (t'.l1 g (l1pteIndex virt)) virt)
          (f * 4096 % addrSpace + M.attrs.small nocache)) := by
  have hstart : pageStart virt = virt := by
    unfold pageStart
    omega
  have hend : pageEnd virt 4096 = virt + 4096 := by
    unfold pageEnd pageStart alignUp
    omega
  have hnext : l1sectAddrEnd virt (virt + 4096) = virt + 4096 := by
    unfold l1sectAddrEnd
    omega
  have hptes : ∀ t' : PageTables H,
      (setPtes M nocache (virt + 4096)
        ⟨t', l2pteOffset (t'.l1 g (l1pteIndex virt)) virt, virt, f⟩).map
          PteCursor.t
      = some (t'.setL2 (l2pteOffset (t'.l1 g (l1pteIndex virt)) virt)
          (f * 4096 % addrSpace + M.attrs.small nocache)) := by
    intro t'
    rw [setPtes, doWhile_once ?_ (by decide)]
    · rfl
    · intro s' h
      cases h
      simp
  have hpiece : allocInitSection M t g (l1pteIndex virt) virt (virt + 4096)
        (f * 4096) nocache
      = (ensureL2 M t g (l1pteIndex virt) nocache).map fun t' =>
        t'.setL2 (l2pteOffset (t'.l1 g (l1pteIndex virt)) virt)
          (f * 4096 % addrSpace + M.attrs.small nocache) := by
    have hnot : ¬ (virt % 1048576 = 0 ∧ (virt + 4096) % 1048576 = 0
        ∧ f * 4096 % 1048576 = 0) := by
      intro h
      obtain ⟨h, h', -⟩ := h
      omega
    rw [allocInitSection, if_neg hnot, allocInitPte,
      Nat.mul_div_cancel f (by decide)]
    cases ensureL2 M t g (l1pteIndex virt) nocache with
    | none => rfl
    | some t' => rw [Option.bind_some, hptes, Option.map_some]
  have hloop : ∀ s', mapPiece M g (virt + 4096) nocache
      ⟨t, l1pteIndex virt, virt, f * 4096⟩ = some s' →
      decide (s'.addr ≠ virt + 4096) = false := by
    intro s' hs'
    obtain ⟨t', -, rfl⟩ := Option.map_eq_some_iff.mp hs'
    simp [hnext]
  simp only [createMapping, Option.getD_some, hstart, hend]
  rw [doWhile_once hloop (by decide), mapPiece, hnext, hpiece]
  simp only [Option.map_map]
  rfl

/-- What mapping the page at `virt` to frame `f` writes: the L1 slot, if
it was empty, and one word of its L2 table. -/
structure PageMapped (M : Hardware H) (t t' : PageTables H) (g : Pgtable)
    (virt f : Nat) (nocache : Bool) : Prop where
  slots : ∀ g' j, ¬ (g' = g ∧ j = l1pteIndex virt) →
    t'.l1 g' j = t.l1 g' j
  kept : t.l1 g (l1pteIndex virt) ≠ 0 →
    t'.l1 g (l1pteIndex virt) = t.l1 g (l1pteIndex virt)
      ∧ t'.heap = t.heap
      ∧ ∀ x, x < 256 → x ≠ virt / 4096 % 256 →
        t'.l2 (l2pteFirst (t.l1 g (l1pteIndex virt)) + x)
          = t.l2 (l2pteFirst (t.l1 g (l1pteIndex virt)) + x)
  new : t.l1 g (l1pteIndex virt) = 0 →
    l1pteIsTable (t'.l1 g (l1pteIndex virt))
      ∧ ¬ M.heap.live t.heap (l2Block (t'.l1 g (l1pteIndex virt)))
      ∧ (∀ b, M.heap.live t'.heap b ↔
        b = l2Block (t'.l1 g (l1pteIndex virt)) ∨ M.heap.live t.heap b)
      ∧ ∀ x, x < 256 → x ≠ virt / 4096 % 256 →
        t'.l2 (l2pteFirst (t'.l1 g (l1pteIndex virt)) + x) = 0
  word : t'.l2 (l2pteOffset (t'.l1 g (l1pteIndex virt)) virt)
    = f * 4096 % addrSpace + M.attrs.small nocache
  others : ∀ b, b ≠ l2Block (t'.l1 g (l1pteIndex virt)) → ∀ x, x < 256 →
    t'.l2 (b * 256 + x) = t.l2 (b * 256 + x)

@[simp] theorem invalSys_l1 (g : Pgtable) (t : PageTables H) :
    (invalSys g t).l1 = t.l1 := by
  unfold invalSys
  split <;> rfl

@[simp] theorem invalSys_l2 (g : Pgtable) (t : PageTables H) :
    (invalSys g t).l2 = t.l2 := by
  unfold invalSys
  split <;> rfl

@[simp] theorem invalSys_heap (g : Pgtable) (t : PageTables H) :
    (invalSys g t).heap = t.heap := by
  unfold invalSys
  split <;> rfl

variable {M}

theorem createMapping_pageMapped {t t' : PageTables H} {g : Pgtable}
    {virt f : Nat} {nocache : Bool} (hvirt : virt % 4096 = 0)
    (h : createMapping M t (some g) virt (f * 4096) 4096 nocache
      = some t') : PageMapped M t t' g virt f nocache := by
  rw [createMapping_page M t g hvirt] at h
  obtain ⟨t₁, hens, rfl⟩ := Option.map_eq_some_iff.mp h
  have hx : virt / 4096 % 256 < 256 := Nat.mod_lt _ (by decide)
  have hother : ∀ b x, x < 256 →
      ¬ (b = l2Block (t₁.l1 g (l1pteIndex virt))
        ∧ x = virt / 4096 % 256) →
      b * 256 + x ≠ l2pteOffset (t₁.l1 g (l1pteIndex virt)) virt := by
    intro b x hxlt hne
    rw [l2pteOffset_eq]
    omega
  unfold ensureL2 at hens
  split at hens
  next h0 =>
    obtain ⟨b, halloc, hword, hslots, hzero, htables⟩ := newL2_eq hens
    have hblock : l2Block (t₁.l1 g (l1pteIndex virt)) = b := by
      rw [hword, l1Word_block]
    constructor
    case new =>
      intro _
      simp only [invalSys_l1, invalSys_l2, invalSys_heap, setL2_l1,
        setL2_heap, l2pteFirst, hblock]
      refine ⟨hword ▸ l1Word_isTable M b nocache,
        M.heap.alloc_fresh halloc, M.heap.alloc_live halloc, ?_⟩
      intro x hxlt hne
      rw [setL2_other _ _ (hother b x hxlt fun hbx => hne hbx.2)]
      exact hzero x hxlt
    case others =>
      intro c hc x hxlt
      simp only [invalSys_l1, setL2_l1] at hc
      rw [invalSys_l2, setL2_other _ _ (hother c x hxlt fun hbx => hc hbx.1)]
      exact htables c (hblock ▸ hc) x hxlt
    case slots =>
      intro g' j hj
      rw [invalSys_l1, setL2_l1]
      exact hslots g' j hj
    case word => simp
    case kept => exact fun hne => absurd h0 hne
  next hne =>
    cases hens
    constructor
    case new => exact fun h0 => absurd h0 hne
    case others =>
      intro c hc x hxlt
      simp only [invalSys_l1, setL2_l1] at hc
      rw [invalSys_l2, setL2_other _ _ (hother c x hxlt fun hbx => hc hbx.1)]
    case slots => exact fun g' j _ => by simp
    case word => simp
    case kept =>
      intro _
      refine ⟨by simp, by simp, fun x hxlt hxne => ?_⟩
      rw [invalSys_l2]
      exact setL2_other _ _ (hother _ x hxlt fun hbx => hxne hbx.2)

/-- The slot holds a table afterwards, which is none of the tables in use
before unless it was there. -/
theorem PageMapped.slot {t t' : PageTables H} {g : Pgtable} {virt f : Nat}
    {nocache : Bool} (pm : PageMapped M t t' g virt f nocache)
    (hw : t.l1 g (l1pteIndex virt) ≠ 0 →
      l1pteIsTable (t.l1 g (l1pteIndex virt))) :
    l1pteIsTable (t'.l1 g (l1pteIndex virt))
      ∧ (∀ b, M.heap.live t.heap b → M.heap.live t'.heap b)
      ∧ ∀ b, M.heap.live t.heap b →
        (t.l1 g (l1pteIndex virt) ≠ 0 →
          b ≠ l2Block (t.l1 g (l1pteIndex virt))) →
        b ≠ l2Block (t'.l1 g (l1pteIndex virt)) := by
  by_cases h0 : t.l1 g (l1pteIndex virt) = 0
  · obtain ⟨ht, hnl, hl, -⟩ := pm.new h0
    exact ⟨ht, fun b hb => (hl b).mpr (Or.inr hb),
      fun b hb _ heq => hnl (heq ▸ hb)⟩
  · obtain ⟨hsame, hheap, -⟩ := pm.kept h0
    rw [hsame]
    exact ⟨hw h0, fun b hb => hheap.symm ▸ hb, fun b _ hne => hne h0⟩

/-- The page is mapped to the frame. -/
theorem PageMapped.frameAt {t t' : PageTables H} {g : Pgtable}
    {virt f : Nat} {nocache : Bool}
    (pm : PageMapped M t t' g virt f nocache) (hf : f < 1048576)
    (ht : l1pteIsTable (t'.l1 g (l1pteIndex virt))) :
    frameAt t' g virt = some f := by
  have hfit : f * 4096 < addrSpace := by
    unfold addrSpace
    omega
  rw [Mmu.frameAt, walk_of_table ht, pm.word, Nat.mod_eq_of_lt hfit,
    l2Walk_small (Nat.mul_mod_left f 4096) (M.attrs.small_lt _)
      (M.attrs.small_type _), Option.map_some, Option.some.injEq]
  omega

/-- Hardware with the usual type bits and a heap that is a list. -/
def Hardware.sample : Hardware (FreeList BlockOk) where
  attrs :=
    { sect := fun _ => 2
      page := fun _ => 1
      small := fun _ => 2
      sect_lt := fun _ => by decide
      sect_type := fun _ => rfl
      page_lt := fun _ => by decide
      page_type := fun _ => rfl
      small_lt := fun _ => by decide
      small_type := fun _ => by decide }
  heap := freeList BlockOk

/-- Empty tables and four blocks of heap. -/
def PageTables.sample : PageTables (FreeList BlockOk) where
  l1 := fun _ _ => 0
  l2 := fun _ => 0
  heap := ⟨[7, 9, 5, 6], by decide, by decide⟩
  tlb := []

end SyeLabs.Mmu
