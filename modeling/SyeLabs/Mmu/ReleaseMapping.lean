/-
`release_mapping` and the functions under it, and `reset_root_pgtable`.

`free_l2_mapping` clears words of an L2 table and frees the table when
nothing is left in it. It takes the table from the L1 word without
looking at its type: on an empty slot it works on block 0 and hands that
to `free`.
-/
import SyeLabs.Mmu.CreateMapping

namespace SyeLabs.Mmu

open Lib

variable {H : Type*} (M : Hardware H)

-- =============================================================== the functions

/-- The cursor of the loop of `free_l2_mapping`. -/
structure ClearCursor (H : Type*) where
  t : PageTables H
  l2pte : Nat
  addr : Nat

/-- The loop of `free_l2_mapping`. -/
def clearPtes (end_ : Nat) (s : ClearCursor H) : Option (ClearCursor H) :=
  doWhile
    (fun s => some
      { t := s.t.setL2 s.l2pte 0
        l2pte := s.l2pte + 1
        addr := s.addr + 4096 })
    (fun s => s.addr ≠ end_) 1048576 s

/-- The end of `free_l2_mapping`: free the L2 table if it is empty. -/
def freeIfEmpty (t : PageTables H) (g : Pgtable) (l1pte : Nat) :
    PageTables H :=
  let first := l2pteFirst (t.l1 g l1pte)
  if (List.range 256).any fun i => t.l2 (first + i) ≠ 0 then t
  else
    PageTables.setL1
      { t with heap := M.heap.free t.heap (l2Block (t.l1 g l1pte)) }
      g l1pte 0

/-- `free_l2_mapping`. -/
def freeL2Mapping (t : PageTables H) (g : Pgtable)
    (l1pte addr end_ : Nat) : Option (PageTables H) :=
  (clearPtes end_ ⟨t, l2pteOffset (t.l1 g l1pte) addr, addr⟩).map fun s =>
    freeIfEmpty M s.t g l1pte

/-- The cursor of the loops over L1 slots that are cleared. -/
structure SlotCursor (H : Type*) where
  t : PageTables H
  l1pte : Nat
  addr : Nat

/-- The loop of `free_l1_mapping`. -/
def clearSects (g : Pgtable) (end_ : Nat) (s : SlotCursor H) :
    Option (SlotCursor H) :=
  doWhile
    (fun s => some
      { t := s.t.setL1 g s.l1pte 0
        l1pte := s.l1pte + 1
        addr := s.addr + 1048576 })
    (fun s => s.addr ≠ end_) 4097 s

/-- `free_l1_mapping`. -/
def freeL1Mapping (t : PageTables H) (g : Pgtable)
    (l1pte addr end_ : Nat) : Option (PageTables H) :=
  if addr % 1048576 = 0 ∧ end_ % 1048576 = 0 then
    (clearSects g end_ ⟨t, l1pte, addr⟩).map SlotCursor.t
  else freeL2Mapping M t g l1pte addr end_

/-- The body of the loop of `release_mapping`. -/
def releasePiece (g : Pgtable) (end_ : Nat) (s : SlotCursor H) :
    Option (SlotCursor H) :=
  let next := l1sectAddrEnd s.addr end_
  (freeL1Mapping M s.t g s.l1pte s.addr next).map fun t =>
    { t, l1pte := s.l1pte + 1, addr := next }

/-- `release_mapping`. -/
def releaseMapping (t : PageTables H) (pgtable : Option Pgtable)
    (virt size : Nat) : Option (PageTables H) :=
  let g := pgtable.getD .sys
  let addr := pageStart virt
  let end_ := pageEnd virt size
  (doWhile (releasePiece M g end_) (fun s => s.addr ≠ end_) 4097
    ⟨t, l1pteIndex addr, addr⟩).map SlotCursor.t

/-- One turn of the loop of `reset_root_pgtable`. -/
def resetSlot (g : Pgtable) (t : PageTables H) (i : Nat) : PageTables H :=
  let w := t.l1 g i
  if w ≠ 0 then
    let t :=
      if ¬ l1pteIsSect w then
        { t with heap := M.heap.free t.heap (l2Block w) }
      else t
    t.setL1 g i 0
  else t

/-- `reset_root_pgtable` on the `userSlots` entries of the user area. The
memory of the L1 table itself, which it frees for `remove`, is not part
of the model. -/
def resetRootPgtable (t : PageTables H) (g : Pgtable) (userSlots : Nat) :
    PageTables H :=
  (List.range userSlots).foldl (resetSlot M g) t

-- ==================================================================== one page

/-- Releasing one page: clear its word and free the table if that was
the last one. -/
theorem releaseMapping_page (t : PageTables H) (g : Pgtable) {virt : Nat}
    (hvirt : virt % 4096 = 0) :
    releaseMapping M t (some g) virt 4096
      = some (freeIfEmpty M
        (t.setL2 (l2pteOffset (t.l1 g (l1pteIndex virt)) virt) 0) g
        (l1pteIndex virt)) := by
  have hstart : pageStart virt = virt := by
    unfold pageStart
    omega
  have hend : pageEnd virt 4096 = virt + 4096 := by
    unfold pageEnd pageStart alignUp
    omega
  have hnext : l1sectAddrEnd virt (virt + 4096) = virt + 4096 := by
    unfold l1sectAddrEnd
    omega
  have hpiece : freeL1Mapping M t g (l1pteIndex virt) virt (virt + 4096)
      = some (freeIfEmpty M
        (t.setL2 (l2pteOffset (t.l1 g (l1pteIndex virt)) virt) 0) g
        (l1pteIndex virt)) := by
    have hnot : ¬ (virt % 1048576 = 0 ∧ (virt + 4096) % 1048576 = 0) := by
      intro h
      obtain ⟨h, h'⟩ := h
      omega
    rw [freeL1Mapping, if_neg hnot, freeL2Mapping, clearPtes,
      doWhile_once ?_ (by decide)]
    · rfl
    · intro s' h
      cases h
      simp
  have hloop : ∀ s', releasePiece M g (virt + 4096)
      ⟨t, l1pteIndex virt, virt⟩ = some s' →
      decide (s'.addr ≠ virt + 4096) = false := by
    intro s' hs'
    obtain ⟨t', -, rfl⟩ := Option.map_eq_some_iff.mp hs'
    simp [hnext]
  simp only [releaseMapping, Option.getD_some, hstart, hend]
  rw [doWhile_once hloop (by decide), releasePiece, hnext, hpiece,
    Option.map_some, Option.map_some]

variable {M}

/-- A table with a word left stays. -/
theorem freeIfEmpty_of_word {t : PageTables H} {g : Pgtable} {i x : Nat}
    (hx : x < 256) (h : t.l2 (l2pteFirst (t.l1 g i) + x) ≠ 0) :
    freeIfEmpty M t g i = t := by
  refine if_pos (List.any_eq_true.mpr ⟨x, List.mem_range.mpr hx, ?_⟩)
  exact decide_eq_true h

/-- A table without one is freed, and its slot emptied. -/
theorem freeIfEmpty_of_empty {t : PageTables H} {g : Pgtable} {i : Nat}
    (h : ∀ x, x < 256 → t.l2 (l2pteFirst (t.l1 g i) + x) = 0) :
    freeIfEmpty M t g i
      = PageTables.setL1
        { t with heap := M.heap.free t.heap (l2Block (t.l1 g i)) }
        g i 0 := by
  apply if_neg
  intro hany
  obtain ⟨x, hx, hne⟩ := List.any_eq_true.mp hany
  exact of_decide_eq_true hne (h x (List.mem_range.mp hx))

theorem freeIfEmpty_l2 (t : PageTables H) (g : Pgtable) (i : Nat) :
    (freeIfEmpty M t g i).l2 = t.l2 := by
  unfold freeIfEmpty
  dsimp only
  split <;> rfl

theorem freeIfEmpty_l1 (t : PageTables H) {g g' : Pgtable} {i j : Nat}
    (h : ¬ (g' = g ∧ j = i)) :
    (freeIfEmpty M t g i).l1 g' j = t.l1 g' j := by
  unfold freeIfEmpty
  dsimp only
  split
  · rfl
  · exact setL1_other _ _ h

-- ========================================================== reset_root_pgtable

/-- What `reset_root_pgtable` leaves after `n` slots. -/
structure Reset (M : Hardware H) (t t' : PageTables H) (g : Pgtable)
    (n : Nat) : Prop where
  l2 : t'.l2 = t.l2
  empty : ∀ i, i < n → t'.l1 g i = 0
  slots : ∀ g' j, ¬ (g' = g ∧ j < n) → t'.l1 g' j = t.l1 g' j
  live : ∀ b, M.heap.live t'.heap b ↔ M.heap.live t.heap b
    ∧ ∀ i, i < n → l1pteIsTable (t.l1 g i) → l2Block (t.l1 g i) ≠ b

/-- One slot: it is emptied, and its L2 table, if it holds one, freed. -/
theorem resetSlot_spec {t : PageTables H} {g : Pgtable} {i : Nat}
    (hslot : SlotOk M t (t.l1 g i)) :
    (resetSlot M g t i).l2 = t.l2 ∧ (resetSlot M g t i).l1 g i = 0
      ∧ (∀ g' j, ¬ (g' = g ∧ j = i) →
        (resetSlot M g t i).l1 g' j = t.l1 g' j)
      ∧ ∀ b, M.heap.live (resetSlot M g t i).heap b ↔ M.heap.live t.heap b
        ∧ (l1pteIsTable (t.l1 g i) → l2Block (t.l1 g i) ≠ b) := by
  rcases hslot with h0 | hs | ⟨ht, hl⟩
  · -- an empty slot
    have hnt : ¬ l1pteIsTable (t.l1 g i) := by
      rw [h0]
      decide
    have hstep : resetSlot M g t i = t := by
      rw [resetSlot, h0]
      exact if_neg (not_not_intro rfl)
    rw [hstep]
    exact ⟨rfl, h0, fun _ _ _ => rfl,
      fun b => ⟨fun hb => ⟨hb, fun h => absurd h hnt⟩, And.left⟩⟩
  · -- a section
    have hne : t.l1 g i ≠ 0 := by
      intro h0
      rw [h0] at hs
      cases hs
    have hnt : ¬ l1pteIsTable (t.l1 g i) :=
      fun h => not_isSect_of_isTable h hs
    have hstep : resetSlot M g t i = t.setL1 g i 0 := by
      rw [resetSlot]
      dsimp only
      rw [if_pos hne, if_neg (not_not_intro hs)]
    rw [hstep]
    refine ⟨rfl, setL1_self _ _ _ _, fun _ _ hj => setL1_other _ _ hj, ?_⟩
    exact fun b => ⟨fun hb => ⟨hb, fun h => absurd h hnt⟩, And.left⟩
  · -- an L2 table
    have hne : t.l1 g i ≠ 0 := by
      intro h0
      rw [h0] at ht
      cases ht
    have hstep : resetSlot M g t i
        = PageTables.setL1
          { t with heap := M.heap.free t.heap (l2Block (t.l1 g i)) }
          g i 0 := by
      rw [resetSlot]
      dsimp only
      rw [if_pos hne, if_pos (not_isSect_of_isTable ht)]
    rw [hstep]
    refine ⟨rfl, setL1_self _ _ _ _, fun _ _ hj => setL1_other _ _ hj,
      fun b => ?_⟩
    rw [setL1_heap, M.heap.free_live hl]
    constructor
    · intro h
      exact ⟨h.2, fun _ heq => h.1 heq.symm⟩
    · intro h
      exact ⟨fun heq => h.2 ht heq.symm, h.1⟩

/-- The next slot. -/
theorem Reset.step {t t' : PageTables H} {g : Pgtable} {n : Nat}
    (hr : Reset M t t' g n) (hslot : SlotOk M t (t.l1 g n))
    (howned : ∀ i, i < n → l1pteIsTable (t.l1 g i) →
      l1pteIsTable (t.l1 g n) → l2Block (t.l1 g i) ≠ l2Block (t.l1 g n)) :
    Reset M t (resetSlot M g t' n) g (n + 1) := by
  have hw : t'.l1 g n = t.l1 g n :=
    hr.slots g n fun h => Nat.lt_irrefl n h.2
  -- the slots before freed other tables
  have hslot' : SlotOk M t' (t'.l1 g n) := by
    rw [hw]
    rcases hslot with h0 | hs | ⟨ht, hl⟩
    · exact Or.inl h0
    · exact Or.inr (Or.inl hs)
    · exact Or.inr (Or.inr ⟨ht, (hr.live _).mpr
        ⟨hl, fun i hi hti => howned i hi hti ht⟩⟩)
  obtain ⟨hl2, hempty, hslots, hlive⟩ := resetSlot_spec hslot'
  rw [hw] at hlive
  constructor
  case l2 => exact hl2.trans hr.l2
  case empty =>
    intro i hi
    by_cases hin : i = n
    · rw [hin, hempty]
    · rw [hslots g i fun h => hin h.2]
      exact hr.empty i (by omega)
  case slots =>
    intro g' j hj
    rw [hslots g' j fun h => hj ⟨h.1, by omega⟩]
    exact hr.slots g' j fun h => hj ⟨h.1, by omega⟩
  case live =>
    intro b
    rw [hlive, hr.live]
    constructor
    · intro h
      obtain ⟨⟨hb, hi⟩, hn⟩ := h
      refine ⟨hb, fun i hin => ?_⟩
      by_cases heq : i = n
      · exact heq ▸ hn
      · exact hi i (by omega)
    · intro h
      obtain ⟨hb, hi⟩ := h
      exact ⟨⟨hb, fun i hin => hi i (by omega)⟩, hi n (by omega)⟩

/-- A table whose user slots are well formed is emptied, and exactly its
L2 tables are freed. -/
theorem resetRootPgtable_reset {t : PageTables H} {g : Pgtable} {n : Nat}
    (hslot : ∀ i, i < n → SlotOk M t (t.l1 g i))
    (howned : ∀ i j, i < n → j < n → i ≠ j → l1pteIsTable (t.l1 g i) →
      l1pteIsTable (t.l1 g j) → l2Block (t.l1 g i) ≠ l2Block (t.l1 g j)) :
    Reset M t (resetRootPgtable M t g n) g n := by
  unfold resetRootPgtable
  induction n with
  | zero =>
      exact ⟨rfl, fun i hi => absurd hi (Nat.not_lt_zero i),
        fun _ _ _ => rfl, fun b => ⟨fun h => ⟨h, fun i hi =>
          absurd hi (Nat.not_lt_zero i)⟩, And.left⟩⟩
  | succ n ih =>
      have hr := ih (fun i hi => hslot i (by omega))
        fun i j hi hj => howned i j (by omega) (by omega)
      rw [List.range_succ, List.foldl_append, List.foldl_cons,
        List.foldl_nil]
      exact hr.step (hslot n (Nat.lt_succ_self n))
        fun i hi => howned i n (by omega) (by omega) (by omega)

end SyeLabs.Mmu
