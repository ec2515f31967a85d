/-
What `create_mapping` and `release_mapping` change, whatever the tables
hold.

`Creating` and `Releasing` describe the tables after any number of turns
of the two loops: the slots and words that are not the old ones, what was
allocated and what was freed. Nothing is asked of the tables, so a slot
may name a block that is no L2 table, or that is named by another slot as
well; a result about well-formed tables reads off here where the blocks
of its slots lie.
-/
import SyeLabs.Mmu.Shape
import SyeLabs.Mmu.Steps

namespace SyeLabs.Mmu

open Lib

variable {H : Type*}

-- =================================================================== the slots

/-- The range `[lo, hi)` covers a part of megabyte `i` only. -/
def PartOf (lo hi i : Nat) : Prop :=
  lo / 1048576 ≤ i ∧ i * 1048576 < hi
    ∧ ¬ (lo ≤ i * 1048576 ∧ (i + 1) * 1048576 ≤ hi)

/-- The slots of `[lo, hi)` that go through `alloc_init_pte`. -/
def PteSlot (lo hi phys i : Nat) : Prop :=
  lo / 1048576 ≤ i ∧ i * 1048576 < hi ∧ ¬ SectPiece lo hi phys i

instance (lo hi phys : Nat) : DecidablePred (SectPiece lo hi phys) :=
  fun _ => inferInstanceAs (Decidable (_ ∧ _ ∧ _))

instance (lo hi phys : Nat) : DecidablePred (PteSlot lo hi phys) :=
  fun _ => inferInstanceAs (Decidable (_ ∧ _ ∧ _))

/-- How many of the slots below `k` need a new L2 table. -/
def newTables (t : PageTables H) (g : Pgtable) (lo hi phys k : Nat) : Nat :=
  ((List.range k).filter fun i => PteSlot lo hi phys i ∧ t.l1 g i = 0).length

/-- The words that releasing `[lo, hi)` clears in the slots below `k`. -/
def ClearedBelow (t : PageTables H) (g : Pgtable) (lo hi k y : Nat) :
    Prop :=
  ∃ a, lo ≤ a ∧ a < hi ∧ l1pteIndex a < k ∧ PartOf lo hi (l1pteIndex a)
    ∧ y = l2pteOffset (t.l1 g (l1pteIndex a)) a

/-- A word of the block of slot `i` is left when its piece has been
released. -/
def WordLeft (t : PageTables H) (g : Pgtable) (lo hi i : Nat) : Prop :=
  ∃ x, x < 256 ∧ t.l2 (l2pteFirst (t.l1 g i) + x) ≠ 0
    ∧ ¬ ClearedBelow t g lo hi (i + 1) (l2pteFirst (t.l1 g i) + x)

-- =============================================================== the addresses

/-- The words of a piece are those of its addresses. -/
theorem AtPiece.word_addr {lo hi i addr w y : Nat}
    (h : AtPiece lo hi i addr) (hlo : lo % 4096 = 0) (hhi : hi % 4096 = 0) :
    (l2pteOffset w addr ≤ y
        ∧ y < l2pteOffset w addr + (l1sectAddrEnd addr hi - addr) / 4096)
      ↔ ∃ a, lo ≤ a ∧ a < hi ∧ l1pteIndex a = i ∧ y = l2pteOffset w a := by
  obtain ⟨-, -, haddr, hnext, hnlt⟩ := h.bounds
  obtain ⟨hin, hout, hend⟩ := h.inside
  obtain ⟨haddr4, hnext4⟩ := h.pages hlo hhi
  have hge := h.lo_le
  constructor
  · intro hy
    obtain ⟨hy, hy'⟩ := hy
    obtain ⟨k, hk⟩ : ∃ k, y = l2pteOffset w addr + k :=
      ⟨y - l2pteOffset w addr, by omega⟩
    have hai : l1pteIndex (addr + k * 4096) = i :=
      h.l1pteIndex_eq (Nat.le_add_right _ _) (by omega)
    refine ⟨addr + k * 4096, by omega, by omega, hai, ?_⟩
    rw [hk, l2pteOffset_eq, l2pteOffset_eq]
    omega
  · intro hy
    obtain ⟨a, ha, ha', hai, rfl⟩ := hy
    rw [l2pteOffset_eq, l2pteOffset_eq]
    unfold l1pteIndex at hai
    omega

-- ============================================================== create_mapping

theorem newTables_succ (t : PageTables H) (g : Pgtable)
    (lo hi phys k : Nat) :
    newTables t g lo hi phys (k + 1) = newTables t g lo hi phys k
      + if PteSlot lo hi phys k ∧ t.l1 g k = 0 then 1 else 0 := by
  unfold newTables
  rw [List.range_succ, List.filter_append, List.length_append,
    List.filter_singleton]
  by_cases hc : PteSlot lo hi phys k ∧ t.l1 g k = 0
  · simp [hc]
  · simp only [if_neg hc, decide_eq_false hc, Bool.cond_false,
      List.length_nil]

theorem newTables_mono (t : PageTables H) (g : Pgtable) (lo hi phys : Nat)
    {k n : Nat} (h : k ≤ n) :
    newTables t g lo hi phys k ≤ newTables t g lo hi phys n := by
  induction n with
  | zero =>
      obtain rfl := Nat.le_zero.mp h
      exact Nat.le_refl _
  | succ n ih =>
      rcases Nat.lt_or_eq_of_le h with hlt | rfl
      · rw [newTables_succ]
        exact Nat.le_trans (ih (Nat.le_of_lt_succ hlt))
          (Nat.le_add_right _ _)
      · exact Nat.le_refl _

/-- No slot before the range needs one. -/
theorem newTables_start (t : PageTables H) (g : Pgtable)
    (lo hi phys : Nat) :
    newTables t g lo hi phys (lo / 1048576) = 0 := by
  unfold newTables
  rw [List.length_eq_zero_iff, List.filter_eq_nil_iff]
  intro i hi' h
  have hlt := List.mem_range.mp hi'
  exact absurd (of_decide_eq_true h).1.1 (Nat.not_le_of_lt hlt)

/-- The loop of `create_mapping`, whatever the tables hold: what it has
allocated, and which slots and words are not the old ones. -/
structure Creating (M : Hardware H) (t : PageTables H) (g : Pgtable)
    (lo hi phys : Nat) (s : SectCursor H) : Prop where
  phys_eq : s.phys = phys + (s.addr - lo)
  took : ∃ bs, M.heap.Takes t.heap bs s.t.heap
    ∧ bs.length = newTables t g lo hi phys s.l1pte
  slots : ∀ g' j, g' ≠ g ∨ j < lo / 1048576 ∨ s.l1pte ≤ j
      ∨ (t.l1 g j ≠ 0 ∧ ¬ SectPiece lo hi phys j) →
    s.t.l1 g' j = t.l1 g' j
  words : ∀ y, s.t.l2 y ≠ t.l2 y →
    (∃ a, lo ≤ a ∧ a < hi ∧ PteSlot lo hi phys (l1pteIndex a)
      ∧ t.l1 g (l1pteIndex a) ≠ 0
      ∧ y = l2pteOffset (t.l1 g (l1pteIndex a)) a)
    ∨ (¬ M.heap.live t.heap (y / 256) ∧ M.heap.live s.t.heap (y / 256))
  /-- The first word of a piece stays one of a small page, unless its
  block is given to another slot. -/
  filled : ∀ i, PteSlot lo hi phys i → i < s.l1pte → t.l1 g i ≠ 0 →
    (¬ M.heap.live t.heap (l2Block (t.l1 g i))
      ∧ M.heap.live s.t.heap (l2Block (t.l1 g i)))
    ∨ 2 ≤ s.t.l2 (l2pteOffset (t.l1 g i) (max lo (i * 1048576))) % 4

/-- One turn over a section. -/
theorem Creating.sect {t : PageTables H} {M : Hardware H} {g : Pgtable}
    {lo hi phys w : Nat} {s u : SectCursor H}
    (h : Creating M t g lo hi phys s) (hpiece : SectPiece lo hi phys s.l1pte)
    (hlo : lo / 1048576 ≤ s.l1pte) (hu : u.t = s.t.setL1 g s.l1pte w)
    (hpte : u.l1pte = s.l1pte + 1) (hphys : u.phys = phys + (u.addr - lo)) :
    Creating M t g lo hi phys u := by
  obtain ⟨bs, htook, hbs⟩ := h.took
  constructor
  case phys_eq => exact hphys
  case took =>
    rw [hu, setL1_heap, hpte, newTables_succ, if_neg fun hn => hn.1.2.2 hpiece]
    exact ⟨bs, htook, hbs⟩
  case slots =>
    intro g' j hj
    rw [hu, setL1_other]
    · exact h.slots g' j (hj.imp_right (Or.imp_right
        (Or.imp_left fun hj => by omega)))
    · intro heq
      rcases hj with hg | hj | hj | hj
      · exact hg heq.1
      · omega
      · omega
      · exact hj.2 (heq.2 ▸ hpiece)
  case words =>
    rw [hu]
    exact h.words
  case filled =>
    intro i hi' hilt hne
    rw [hu]
    refine h.filled i hi' ?_ hne
    have hne' : i ≠ s.l1pte := fun heq => hi'.2.2 (heq ▸ hpiece)
    omega

section Ptes

variable {t t₁ : PageTables H} {M : Hardware H} {g : Pgtable}
  {lo hi phys : Nat} {nocache : Bool} {s u : SectCursor H}

/-- The slot of a turn is as it was before the call. -/
theorem Creating.slot_old (h : Creating M t g lo hi phys s) :
    s.t.l1 g s.l1pte = t.l1 g s.l1pte :=
  h.slots g _ (Or.inr (Or.inr (Or.inl (Nat.le_refl _))))

theorem Creating.slot_kept (h : Creating M t g lo hi phys s)
    (hens : ensureL2 M s.t g s.l1pte nocache = some t₁)
    (hne : t.l1 g s.l1pte ≠ 0) : t₁.l1 g s.l1pte = t.l1 g s.l1pte :=
  (ensureL2_slot hens (Or.inl (h.slot_old ▸ hne))).trans h.slot_old

/-- The block of a new table was not in use before the call either. -/
theorem Creating.new_block (h : Creating M t g lo hi phys s)
    (hens : ensureL2 M s.t g s.l1pte nocache = some t₁)
    (h0 : s.t.l1 g s.l1pte = 0) :
    ¬ M.heap.live t.heap (l2Block (t₁.l1 g s.l1pte))
      ∧ M.heap.live t₁.heap (l2Block (t₁.l1 g s.l1pte)) := by
  obtain ⟨bs, htook, -⟩ := h.took
  obtain ⟨hfresh, hused⟩ := ensureL2_new hens h0
  exact ⟨fun hc => hfresh ((htook.live _).mpr (Or.inr hc)), hused⟩

theorem Creating.took_ptes (h : Creating M t g lo hi phys s)
    (hslot : PteSlot lo hi phys s.l1pte)
    (hens : ensureL2 M s.t g s.l1pte nocache = some t₁) :
    ∃ bs, M.heap.Takes t.heap bs t₁.heap
      ∧ bs.length = newTables t g lo hi phys (s.l1pte + 1) := by
  obtain ⟨bs, htook, hbs⟩ := h.took
  rw [newTables_succ]
  rcases ensureL2_cases hens with ⟨hne, rfl⟩ | ⟨h0, halloc, -⟩
  · rw [if_neg fun hn => hne (h.slot_old.trans hn.2)]
    exact ⟨bs, htook, hbs⟩
  · rw [if_pos ⟨hslot, h.slot_old.symm.trans h0⟩]
    exact ⟨_, htook.snoc halloc, by simp [hbs]⟩

/-- A word that is no longer the one before the call lies in the piece or
in a block taken since. -/
theorem Creating.words_ptes (h : Creating M t g lo hi phys s)
    (hat : AtPiece lo hi s.l1pte s.addr) (hlo : lo % 4096 = 0)
    (hhi : hi % 4096 = 0) (hslot : PteSlot lo hi phys s.l1pte)
    (hens : ensureL2 M s.t g s.l1pte nocache = some t₁) (y phys' : Nat)
    (hy : (fillL2 M t₁ nocache (l2pteOffset (t₁.l1 g s.l1pte) s.addr)
      ((l1sectAddrEnd s.addr hi - s.addr) / 4096) phys').l2 y ≠ t.l2 y) :
    (∃ a, lo ≤ a ∧ a < hi ∧ PteSlot lo hi phys (l1pteIndex a)
      ∧ t.l1 g (l1pteIndex a) ≠ 0
      ∧ y = l2pteOffset (t.l1 g (l1pteIndex a)) a)
    ∨ (¬ M.heap.live t.heap (y / 256) ∧ M.heap.live t₁.heap (y / 256)) := by
  by_cases hin : l2pteOffset (t₁.l1 g s.l1pte) s.addr ≤ y
      ∧ y < l2pteOffset (t₁.l1 g s.l1pte) s.addr
        + (l1sectAddrEnd s.addr hi - s.addr) / 4096
  · -- a word of the piece
    by_cases h0 : t.l1 g s.l1pte = 0
    · rw [hat.word_block hin.1 hin.2]
      exact Or.inr (h.new_block hens (h.slot_old.trans h0))
    · obtain ⟨a, ha, ha', hai, hy'⟩ := (hat.word_addr hlo hhi).mp hin
      rw [h.slot_kept hens h0] at hy'
      exact Or.inl ⟨a, ha, ha', hai.symm ▸ hslot, hai.symm ▸ h0,
        hai.symm ▸ hy'⟩
  · rw [fillL2_out M (by omega)] at hy
    by_cases hsame : t₁.l2 y = s.t.l2 y
    · rw [hsame] at hy
      exact (h.words y hy).imp_right
        fun hc => ⟨hc.1, ensureL2_live hens hc.2⟩
    · -- a word of the new table
      obtain ⟨h0, hb⟩ := ensureL2_word hens hsame
      rw [hb]
      exact Or.inr (h.new_block hens h0)

/-- The first word of a piece that is behind. -/
theorem Creating.filled_ptes (h : Creating M t g lo hi phys s)
    (hat : AtPiece lo hi s.l1pte s.addr) (hlo : lo % 4096 = 0)
    (hhi : hi % 4096 = 0)
    (hens : ensureL2 M s.t g s.l1pte nocache = some t₁) {i : Nat}
    (phys' : Nat) (hi' : PteSlot lo hi phys i) (hilt : i < s.l1pte + 1)
    (hne : t.l1 g i ≠ 0) :
    (¬ M.heap.live t.heap (l2Block (t.l1 g i))
      ∧ M.heap.live t₁.heap (l2Block (t.l1 g i)))
    ∨ 2 ≤ (fillL2 M t₁ nocache (l2pteOffset (t₁.l1 g s.l1pte) s.addr)
        ((l1sectAddrEnd s.addr hi - s.addr) / 4096) phys').l2
      (l2pteOffset (t.l1 g i) (max lo (i * 1048576))) % 4 := by
  obtain ⟨y, hy⟩ : ∃ y,
      y = l2pteOffset (t.l1 g i) (max lo (i * 1048576)) := ⟨_, rfl⟩
  have hblock : y / 256 = l2Block (t.l1 g i) := by
    rw [hy, l2pteOffset_eq]
    omega
  rw [← hy]
  by_cases hin : l2pteOffset (t₁.l1 g s.l1pte) s.addr ≤ y
      ∧ y < l2pteOffset (t₁.l1 g s.l1pte) s.addr
        + (l1sectAddrEnd s.addr hi - s.addr) / 4096
  · refine Or.inr ?_
    show 2 ≤ (if _ then _ else _) % 4
    rw [if_pos hin]
    exact l2Word_type M _ nocache
  · have hbefore : i < s.l1pte := by
      have hne' : i ≠ s.l1pte := by
        intro heq
        subst heq
        obtain ⟨hle, hlt, hstart, -, hnlt⟩ := hat.bounds
        rw [h.slot_kept hens hne, hy, ← hstart] at hin
        have := (hat.pages hlo hhi).1
        have := (hat.pages hlo hhi).2
        omega
      omega
    rw [fillL2_out M (by omega)]
    by_cases hsame : t₁.l2 y = s.t.l2 y
    · rw [hsame, hy]
      exact (h.filled i hi' hbefore hne).imp_left
        fun hc => ⟨hc.1, ensureL2_live hens hc.2⟩
    · -- the block has been given to the slot of this turn
      obtain ⟨h0, hb⟩ := ensureL2_word hens hsame
      rw [← hblock, hb]
      exact Or.inl (h.new_block hens h0)

/-- One turn over small pages. -/
theorem Creating.ptes (h : Creating M t g lo hi phys s)
    (hat : AtPiece lo hi s.l1pte s.addr) (hlo : lo % 4096 = 0)
    (hhi : hi % 4096 = 0) (hslot : PteSlot lo hi phys s.l1pte)
    (hens : ensureL2 M s.t g s.l1pte nocache = some t₁)
    (hu : u.t = fillL2 M t₁ nocache (l2pteOffset (t₁.l1 g s.l1pte) s.addr)
      ((l1sectAddrEnd s.addr hi - s.addr) / 4096) (s.phys / 4096))
    (hpte : u.l1pte = s.l1pte + 1) (hphys : u.phys = phys + (u.addr - lo)) :
    Creating M t g lo hi phys u := by
  obtain ⟨hle, hlt, -, -, -⟩ := hat.bounds
  constructor
  case phys_eq => exact hphys
  case took =>
    rw [hu, fillL2_heap, hpte]
    exact h.took_ptes hslot hens
  case slots =>
    intro g' j hj
    rw [hu, fillL2_l1, ensureL2_slot hens]
    · exact h.slots g' j (hj.imp_right (Or.imp_right
        (Or.imp_left fun hj => by omega)))
    · by_cases heq : g' = g ∧ j = s.l1pte
      · obtain ⟨rfl, rfl⟩ := heq
        rcases hj with hg | hj | hj | hj
        · exact absurd rfl hg
        · omega
        · omega
        · exact Or.inl (h.slot_old ▸ hj.1)
      · exact Or.inr heq
  case words =>
    intro y hy
    rw [hu] at hy ⊢
    rw [fillL2_heap]
    exact h.words_ptes hat hlo hhi hslot hens y _ hy
  case filled =>
    intro i hi' hilt hne
    rw [hu, fillL2_heap]
    exact h.filled_ptes hat hlo hhi hens _ hi' (hpte ▸ hilt) hne

end Ptes

/-- One turn. -/
theorem Creating.step {t : PageTables H} {M : Hardware H} {g : Pgtable}
    {lo hi phys : Nat} {nocache : Bool} {s u : SectCursor H}
    (h : Creating M t g lo hi phys s)
    (hat : AtPiece lo hi s.l1pte s.addr) (hlo : lo % 4096 = 0)
    (hhi : hi % 4096 = 0) (hstep : MapStep M g hi nocache s u.t)
    (hpte : u.l1pte = s.l1pte + 1)
    (haddr : u.addr = l1sectAddrEnd s.addr hi)
    (hphys : u.phys = s.phys + (l1sectAddrEnd s.addr hi - s.addr)) :
    Creating M t g lo hi phys u := by
  have hform := hat.sectPiece_iff h.phys_eq
  obtain ⟨hle, hlt, -, -, hnlt⟩ := hat.bounds
  have hphys' : u.phys = phys + (u.addr - lo) := by
    have hge := hat.lo_le
    rw [hphys, haddr, h.phys_eq]
    omega
  obtain ⟨t', hu⟩ : ∃ t', t' = u.t := ⟨_, rfl⟩
  rw [← hu] at hstep
  cases hstep with
  | sect hal => exact h.sect (hform.mpr hal) hle hu.symm hpte hphys'
  | ptes hal hens =>
      exact h.ptes hat hlo hhi ⟨hle, hlt, fun hs => hal (hform.mp hs)⟩ hens
        hu.symm hpte hphys'

/-- Before the first turn. -/
theorem Creating.init {M : Hardware H} (t : PageTables H) (g : Pgtable)
    (lo hi phys : Nat) :
    Creating M t g lo hi phys ⟨t, l1pteIndex lo, lo, phys⟩ := by
  refine ⟨by simp, ⟨[], rfl, ?_⟩, fun _ _ _ => rfl,
    fun _ hy => absurd rfl hy, ?_⟩
  · exact (newTables_start _ _ _ _ _).symm
  · intro i hi' hilt
    have hlt' : i < lo / 1048576 := hilt
    exact absurd hi'.1 (Nat.not_le_of_lt hlt')

/-- The whole loop, where there is memory for the tables it needs. -/
theorem createMapping_creating {t : PageTables H} {M : Hardware H}
    (pgtable : Option Pgtable) {virt size : Nat} (phys : Nat)
    (nocache : Bool) (hsize : 1 ≤ size) (hvirt : virt + size ≤ addrSpace) :
    Ensures
      (∃ cs h', M.heap.Takes t.heap cs h'
        ∧ cs.length = newTables t (pgtable.getD .sys) (pageStart virt)
          (pageEnd virt size) phys ((pageEnd virt size - 1) / 1048576 + 1))
      (createMapping M t pgtable virt phys size nocache) fun t' =>
        ∃ s : SectCursor H, s.l1pte = (pageEnd virt size - 1) / 1048576 + 1
          ∧ t' = invalSys (pgtable.getD .sys) s.t
          ∧ Creating M t (pgtable.getD .sys) (pageStart virt)
            (pageEnd virt size) phys s := by
  obtain ⟨hlo4, hhi4, hlt, hspace, -, -⟩ := pageEnd_bounds hsize hvirt
  unfold createMapping
  refine Ensures.map ((pieces_ensures SectCursor.l1pte SectCursor.addr
    (I := Creating M t (pgtable.getD .sys) (pageStart virt)
      (pageEnd virt size) phys) hspace ?_ ?_ (AtPiece.first hlt)).mono
        fun s hs => ⟨s, hs.2.2, rfl, hs.1⟩)
  · intro s hI hat
    refine (mapPiece_ensures hat hlo4 hhi4 ?_).mono fun u hu =>
      ⟨hI.step hat hlo4 hhi4 hu.1 hu.2.1 hu.2.2.1 hu.2.2.2, hu.2.1, hu.2.2.1⟩
    intro hav hal h0
    obtain ⟨cs, h', hcs, hlen⟩ := hav
    obtain ⟨bs, htook, hbs⟩ := hI.took
    obtain ⟨hle, hlt', -, -, -⟩ := hat.bounds
    have hslot : PteSlot (pageStart virt) (pageEnd virt size) phys s.l1pte :=
      ⟨hle, hlt', fun hs => hal ((hat.sectPiece_iff hI.phys_eq).mp hs)⟩
    rw [hI.slots _ _ (Or.inr (Or.inr (Or.inl (Nat.le_refl _))))] at h0
    apply htook.more hcs
    rw [hbs, hlen]
    have hsucc := newTables_succ t (pgtable.getD .sys) (pageStart virt)
      (pageEnd virt size) phys s.l1pte
    rw [if_pos ⟨hslot, h0⟩] at hsucc
    have hmono := newTables_mono t (pgtable.getD .sys) (pageStart virt)
      (pageEnd virt size) phys
      (show s.l1pte + 1 ≤ (pageEnd virt size - 1) / 1048576 + 1 by omega)
    omega
  · exact Creating.init t _ _ _ _

variable (M : Hardware H) in
/-- After `create_mapping` the walk sends the range to where it should,
is the old one outside the pages of the range, and the table is well
formed; the slots of the other tables are the old ones and a slot that
changed refers to memory that was free. The call returns if the heap has
a block for each empty slot that the range needs an L2 table for. -/
theorem create_mapping_correct (t : PageTables H)
    (pgtable : Option Pgtable) (virt phys size : Nat) (nocache : Bool)
    (wf : WellFormed M t (pgtable.getD .sys)) (hsize : 1 ≤ size)
    (halign : virt % 4096 = phys % 4096) (hvirt : virt + size ≤ addrSpace)
    (hphys : phys + size ≤ addrSpace)
    (hsect : ∀ i, pageStart virt / 1048576 ≤ i →
      i * 1048576 < pageEnd virt size →
      l1pteIsSect (t.l1 (pgtable.getD .sys) i) →
      SectPiece (pageStart virt) (pageEnd virt size) phys i) :
    (∀ t', createMapping M t pgtable virt phys size nocache = some t' →
      (∀ k, k < size →
        walk t' (pgtable.getD .sys) (virt + k) = some (phys + k))
      ∧ (∀ v, v < addrSpace → v < pageStart virt ∨ pageEnd virt size ≤ v →
        walk t' (pgtable.getD .sys) v = walk t (pgtable.getD .sys) v)
      ∧ WellFormed M t' (pgtable.getD .sys)
      ∧ (∀ g j, g ≠ pgtable.getD .sys → t'.l1 g j = t.l1 g j)
      ∧ ∀ j, l1pteIsTable (t'.l1 (pgtable.getD .sys) j) →
        t'.l1 (pgtable.getD .sys) j = t.l1 (pgtable.getD .sys) j
        ∨ ¬ M.heap.live t.heap (l2Block (t'.l1 (pgtable.getD .sys) j)))
    ∧ ((∃ bs h', M.heap.Takes t.heap bs h'
        ∧ bs.length = newTables t (pgtable.getD .sys) (pageStart virt)
          (pageEnd virt size) phys
          ((pageEnd virt size - 1) / 1048576 + 1)) →
      ∃ t', createMapping M t pgtable virt phys size nocache = some t') := by
  obtain ⟨-, -, -, -, hle, hge⟩ := pageEnd_bounds hsize hvirt
  refine ⟨fun t' ht' => ?_,
    (createMapping_creating pgtable phys nocache hsize hvirt).2⟩
  have hm := createMapping_remapped wf hsize halign hvirt hphys hsect ht'
  refine ⟨fun k hk => ?_, hm.outside, hm.wf,
    fun g j hg => hm.slots g j (Or.inl hg), hm.fresh⟩
  rw [hm.inside (virt + k) (by omega) (by omega), Option.some.injEq]
  unfold pageStart
  omega

/-- 8000 bytes from `0xFF010` on, across the first megabyte boundary: the
range needs two L2 tables, which the heap has. -/
theorem create_mapping_correct_two_slots :
    ∃ t', createMapping .sample .sample (some (.proc 1)) 0xFF010 0x80000010
        8000 false = some t'
      ∧ walk t' (.proc 1) (0xFF010 + 7999) = some (0x80000010 + 7999) := by
  have wf : WellFormed .sample PageTables.sample (.proc 1) :=
    ⟨fun _ _ => Or.inl rfl, fun _ _ _ _ _ h => by cases h⟩
  obtain ⟨hall, hret⟩ := create_mapping_correct .sample .sample
    (some (.proc 1)) 0xFF010 0x80000010 8000 false wf (by decide)
    (by decide) (by decide) (by decide) fun _ _ _ h => by cases h
  obtain ⟨t', ht'⟩ := hret ⟨[7, 9], _, ⟨_, rfl, _, rfl, rfl⟩, by decide⟩
  exact ⟨t', ht', (hall t' ht').1 7999 (by decide)⟩

/-- A slot covered in part goes through `alloc_init_pte`. -/
theorem PartOf.pteSlot {lo hi i : Nat} (h : PartOf lo hi i) (phys : Nat) :
    PteSlot lo hi phys i := by
  obtain ⟨hle, hlt, hpart⟩ := h
  refine ⟨hle, hlt, fun hs => hpart ?_⟩
  obtain ⟨h1, h2, -⟩ := (sectPiece_iff hle hlt).mp hs
  exact ⟨h1, h2⟩

-- ============================================================= release_mapping

/-- The test of `free_l1_mapping` at the cursor of the loop. -/
theorem AtPiece.partOf_iff {lo hi i addr : Nat} (h : AtPiece lo hi i addr) :
    PartOf lo hi i ↔ ¬ (addr % 1048576 = 0
      ∧ l1sectAddrEnd addr hi % 1048576 = 0) := by
  obtain ⟨hle, hlt, haddr, hnext, -⟩ := h.bounds
  constructor
  · intro hpart hal
    exact hpart.2.2 (h.whole hal.1 hal.2)
  · intro hal
    refine ⟨hle, hlt, fun hin => hal ?_⟩
    rw [hnext, haddr, Nat.max_eq_right hin.1, Nat.min_eq_right hin.2]
    exact ⟨Nat.mul_mod_left _ _, Nat.mul_mod_left _ _⟩

/-- A piece of a slot covered in part clears the words of its pages. -/
theorem clearedBelow_succ {t : PageTables H} {g : Pgtable}
    {lo hi i addr y : Nat} (hat : AtPiece lo hi i addr)
    (hlo : lo % 4096 = 0) (hhi : hi % 4096 = 0) (hpart : PartOf lo hi i) :
    ClearedBelow t g lo hi (i + 1) y ↔ ClearedBelow t g lo hi i y
      ∨ (l2pteOffset (t.l1 g i) addr ≤ y
        ∧ y < l2pteOffset (t.l1 g i) addr
          + (l1sectAddrEnd addr hi - addr) / 4096) := by
  rw [hat.word_addr hlo hhi]
  constructor
  · intro h
    obtain ⟨a, ha, ha', hai, hpa, hy⟩ := h
    by_cases hbelow : l1pteIndex a < i
    · exact Or.inl ⟨a, ha, ha', hbelow, hpa, hy⟩
    · have hai' : l1pteIndex a = i := by omega
      exact Or.inr ⟨a, ha, ha', hai', hai' ▸ hy⟩
  · intro h
    rcases h with ⟨a, ha, ha', hai, h⟩ | ⟨a, ha, ha', hai, hy⟩
    · exact ⟨a, ha, ha', Nat.lt_succ_of_lt hai, h⟩
    · subst hai
      exact ⟨a, ha, ha', Nat.lt_succ_self _, hpart, hy⟩

theorem clearedBelow_whole {t : PageTables H} {g : Pgtable}
    {lo hi i y : Nat} (hpart : ¬ PartOf lo hi i) :
    ClearedBelow t g lo hi (i + 1) y ↔ ClearedBelow t g lo hi i y := by
  constructor
  · intro h
    obtain ⟨a, ha, ha', hai, hpa, hy⟩ := h
    have hne : l1pteIndex a ≠ i := fun heq => hpart (heq ▸ hpa)
    exact ⟨a, ha, ha', by omega, hpa, hy⟩
  · intro h
    obtain ⟨a, ha, ha', hai, h⟩ := h
    exact ⟨a, ha, ha', Nat.lt_succ_of_lt hai, h⟩

/-- The loop of `release_mapping`, whatever the tables hold: which words
are cleared, and which slots emptied. -/
structure Releasing (M : Hardware H) (t : PageTables H) (g : Pgtable)
    (lo hi : Nat) (s : SlotCursor H) : Prop where
  slots : ∀ g' j, g' ≠ g ∨ j < lo / 1048576 ∨ s.l1pte ≤ j →
    s.t.l1 g' j = t.l1 g' j
  whole : ∀ i, lo / 1048576 ≤ i → i < s.l1pte → ¬ PartOf lo hi i →
    s.t.l1 g i = 0
  cleared : ∀ y, ClearedBelow t g lo hi s.l1pte y → s.t.l2 y = 0
  kept : ∀ y, ¬ ClearedBelow t g lo hi s.l1pte y → s.t.l2 y = t.l2 y
  left : ∀ i, PartOf lo hi i → i < s.l1pte →
    (WordLeft t g lo hi i ∧ s.t.l1 g i = t.l1 g i)
      ∨ (¬ WordLeft t g lo hi i ∧ s.t.l1 g i = 0)
  freed : ∃ is : List Nat, is.Nodup
    ∧ (∀ i, i ∈ is ↔ PartOf lo hi i ∧ i < s.l1pte ∧ ¬ WordLeft t g lo hi i)
    ∧ s.t.heap = (is.map fun i => l2Block (t.l1 g i)).foldl M.heap.free
      t.heap

/-- The slots whose tables are freed, after one more. -/
theorem freed_succ {P : Nat → Prop} (f : Nat → Nat) (free : H → Nat → H)
    (h : H) {is : List Nat} {k : Nat} (hnd : is.Nodup)
    (his : ∀ i, i ∈ is ↔ P i ∧ i < k) (hk : P k) :
    (is ++ [k]).Nodup ∧ (∀ i, i ∈ is ++ [k] ↔ P i ∧ i < k + 1)
      ∧ ((is ++ [k]).map f).foldl free h
        = free ((is.map f).foldl free h) (f k) := by
  refine ⟨?_, fun i => ?_, by simp⟩
  · rw [List.nodup_append]
    refine ⟨hnd, List.nodup_singleton k, fun a ha b hb heq => ?_⟩
    rw [List.mem_singleton] at hb
    subst heq hb
    exact Nat.lt_irrefl _ ((his _).mp ha).2
  · rw [List.mem_append, List.mem_singleton, his]
    constructor
    · rintro (hi | rfl)
      · exact ⟨hi.1, Nat.lt_succ_of_lt hi.2⟩
      · exact ⟨hk, Nat.lt_succ_self _⟩
    · intro hi
      rcases Nat.lt_or_eq_of_le (Nat.le_of_lt_succ hi.2) with hlt | heq
      · exact Or.inl ⟨hi.1, hlt⟩
      · exact Or.inr heq

/-- The end of `free_l2_mapping` at a slot whose words have been cleared. -/
theorem freeIfEmpty_cases {t e : PageTables H} {M : Hardware H}
    {g : Pgtable} {lo hi i : Nat} (hl1 : e.l1 g i = t.l1 g i)
    (hword : ∀ y, (ClearedBelow t g lo hi (i + 1) y → e.l2 y = 0)
      ∧ (¬ ClearedBelow t g lo hi (i + 1) y → e.l2 y = t.l2 y)) :
    (WordLeft t g lo hi i ∧ freeIfEmpty M e g i = e)
      ∨ (¬ WordLeft t g lo hi i ∧ freeIfEmpty M e g i
        = PageTables.setL1
          { e with heap := M.heap.free e.heap (l2Block (t.l1 g i)) }
          g i 0) := by
  have hleft : WordLeft t g lo hi i
      ↔ ∃ x, x < 256 ∧ e.l2 (l2pteFirst (t.l1 g i) + x) ≠ 0 := by
    refine exists_congr fun x => and_congr_right fun _ => ?_
    by_cases hc : ClearedBelow t g lo hi (i + 1)
        (l2pteFirst (t.l1 g i) + x)
    · rw [(hword _).1 hc]
      exact iff_of_false (fun hn => hn.2 hc) fun hn => hn rfl
    · rw [(hword _).2 hc]
      exact and_iff_left hc
  rw [hleft]
  by_cases hx : ∃ x, x < 256 ∧ e.l2 (l2pteFirst (t.l1 g i) + x) ≠ 0
  · refine Or.inl ⟨hx, ?_⟩
    obtain ⟨x, hlt, hne⟩ := hx
    rw [← hl1] at hne
    exact freeIfEmpty_of_word hlt hne
  · refine Or.inr ⟨hx, ?_⟩
    rw [freeIfEmpty_of_empty, hl1]
    intro x hlt
    rw [hl1]
    exact Classical.byContradiction fun hne => hx ⟨x, hlt, hne⟩

/-- One turn over a whole slot. -/
theorem Releasing.wholeSlot {t : PageTables H} {M : Hardware H} {g : Pgtable}
    {lo hi : Nat} {s u : SlotCursor H} (h : Releasing M t g lo hi s)
    (hge : lo / 1048576 ≤ s.l1pte) (hno : ¬ PartOf lo hi s.l1pte)
    (hu : u.t = s.t.setL1 g s.l1pte 0) (hpte : u.l1pte = s.l1pte + 1) :
    Releasing M t g lo hi u := by
  obtain ⟨is, hnd, his, hheap⟩ := h.freed
  have hslot : ∀ g' j, ¬ (g' = g ∧ j = s.l1pte) →
      (s.t.setL1 g s.l1pte 0).l1 g' j = s.t.l1 g' j :=
    fun g' j hj => setL1_other _ _ hj
  have hne : ∀ {i}, PartOf lo hi i → i ≠ s.l1pte :=
    fun hi' heq => hno (heq ▸ hi')
  constructor
  case slots =>
    intro g' j hj
    rw [hu, hslot g' j fun heq => ?_]
    · exact h.slots g' j (hj.imp_right fun hj => by omega)
    · rcases hj with hg | hj
      · exact hg heq.1
      · omega
  case whole =>
    intro i hle hlt hi'
    rw [hu]
    by_cases heq : i = s.l1pte
    · rw [heq, setL1_self]
    · rw [hslot g i fun hc => heq hc.2]
      exact h.whole i hle (by omega) hi'
  case cleared =>
    intro y hy
    rw [hpte, clearedBelow_whole hno] at hy
    rw [hu]
    exact h.cleared y hy
  case kept =>
    intro y hy
    rw [hpte, clearedBelow_whole hno] at hy
    rw [hu]
    exact h.kept y hy
  case left =>
    intro i hi' hlt
    have hne := hne hi'
    rw [hu, hslot g i fun hc => hne hc.2]
    exact h.left i hi' (by omega)
  case freed =>
    rw [hu, setL1_heap]
    refine ⟨is, hnd, fun i => ?_, hheap⟩
    rw [his]
    refine and_congr_right fun hi' => and_congr_left fun _ => ?_
    have hne := hne hi'
    omega

/-- One turn over a part of a slot. -/
theorem Releasing.partSlot {t : PageTables H} {M : Hardware H} {g : Pgtable}
    {lo hi : Nat} {s u : SlotCursor H} (h : Releasing M t g lo hi s)
    (hat : AtPiece lo hi s.l1pte s.addr) (hlo : lo % 4096 = 0)
    (hhi : hi % 4096 = 0) (hpart : PartOf lo hi s.l1pte)
    (hu : freeIfEmpty M (eraseL2 s.t (l2pteOffset (s.t.l1 g s.l1pte) s.addr)
      ((l1sectAddrEnd s.addr hi - s.addr) / 4096)) g s.l1pte = u.t)
    (hpte : u.l1pte = s.l1pte + 1) : Releasing M t g lo hi u := by
  have hold := h.slots g s.l1pte (Or.inr (Or.inr (Nat.le_refl _)))
  have hge := hat.bounds.1
  obtain ⟨is, hnd, his, hheap⟩ := h.freed
  obtain ⟨e, he⟩ : ∃ e, e = eraseL2 s.t
      (l2pteOffset (s.t.l1 g s.l1pte) s.addr)
      ((l1sectAddrEnd s.addr hi - s.addr) / 4096) := ⟨_, rfl⟩
  have hel1 : e.l1 = s.t.l1 := by rw [he, eraseL2_l1]
  have heheap : e.heap = s.t.heap := by rw [he, eraseL2_heap]
  rw [← he] at hu
  have hword : ∀ y,
      (ClearedBelow t g lo hi (s.l1pte + 1) y → e.l2 y = 0)
        ∧ (¬ ClearedBelow t g lo hi (s.l1pte + 1) y →
          e.l2 y = t.l2 y) := by
    intro y
    rw [he, hold, clearedBelow_succ hat hlo hhi hpart]
    by_cases hin : l2pteOffset (t.l1 g s.l1pte) s.addr ≤ y
        ∧ y < l2pteOffset (t.l1 g s.l1pte) s.addr
          + (l1sectAddrEnd s.addr hi - s.addr) / 4096
    · rw [eraseL2_in hin]
      exact ⟨fun _ => rfl, fun hn => absurd (Or.inr hin) hn⟩
    · rw [eraseL2_out (by omega)]
      constructor
      · exact fun hc => h.cleared y (hc.resolve_right hin)
      · exact fun hn => h.kept y fun hc => hn (Or.inl hc)
  have hcases := freeIfEmpty_cases (M := M)
    (show e.l1 g s.l1pte = t.l1 g s.l1pte by rw [hel1, hold]) hword
  rw [hu] at hcases
  have hslot : ∀ g' j, ¬ (g' = g ∧ j = s.l1pte) →
      u.t.l1 g' j = s.t.l1 g' j := by
    intro g' j hj
    rw [← hu, freeIfEmpty_l1 _ hj, hel1]
  have hl2 : u.t.l2 = e.l2 := by rw [← hu, freeIfEmpty_l2]
  constructor
  case slots =>
    intro g' j hj
    rw [hslot g' j fun heq => ?_]
    · exact h.slots g' j (hj.imp_right fun hj => by omega)
    · rcases hj with hg | hj
      · exact hg heq.1
      · omega
  case whole =>
    intro i hle hlt hi'
    have hne : i ≠ s.l1pte := fun heq => hi' (heq ▸ hpart)
    rw [hslot g i fun heq => hne heq.2]
    exact h.whole i hle (by omega) hi'
  case cleared =>
    rw [hpte, hl2]
    exact fun y hy => (hword y).1 hy
  case kept =>
    rw [hpte, hl2]
    exact fun y hy => (hword y).2 hy
  case left =>
    intro i hi' hlt
    by_cases hne : i = s.l1pte
    · subst hne
      rcases hcases with ⟨hwl, heq⟩ | ⟨hwl, heq⟩
      · exact Or.inl ⟨hwl, by rw [heq, hel1, hold]⟩
      · exact Or.inr ⟨hwl, by rw [heq, setL1_self]⟩
    · rw [hslot g i fun heq => hne heq.2]
      exact h.left i hi' (by omega)
  case freed =>
    rw [hpte]
    have his' : ∀ i, i ∈ is
        ↔ (PartOf lo hi i ∧ ¬ WordLeft t g lo hi i) ∧ i < s.l1pte := by
      intro i
      rw [his, and_assoc, and_comm (a := i < s.l1pte)]
    rcases hcases with ⟨hwl, heq⟩ | ⟨hwl, heq⟩
    · rw [heq, heheap]
      refine ⟨is, hnd, fun i => ?_, hheap⟩
      rw [his]
      refine and_congr_right fun _ => and_congr_left fun hno => ?_
      have hne : i ≠ s.l1pte := fun heq' => hno (heq' ▸ hwl)
      omega
    · obtain ⟨hnd', hmem, hfold⟩ := freed_succ
        (fun i => l2Block (t.l1 g i)) M.heap.free t.heap hnd his'
        ⟨hpart, hwl⟩
      refine ⟨_, hnd', fun i => ?_, ?_⟩
      · rw [hmem, and_assoc, and_comm (a := ¬ WordLeft t g lo hi i)]
      · rw [heq, hfold, ← hheap, setL1_heap, heheap]

/-- One turn. -/
theorem Releasing.step {t : PageTables H} {M : Hardware H} {g : Pgtable}
    {lo hi : Nat} {s u : SlotCursor H} (h : Releasing M t g lo hi s)
    (hat : AtPiece lo hi s.l1pte s.addr) (hlo : lo % 4096 = 0)
    (hhi : hi % 4096 = 0) (hstep : ReleaseStep M g hi s u.t)
    (hpte : u.l1pte = s.l1pte + 1) : Releasing M t g lo hi u := by
  obtain ⟨t', hu⟩ : ∃ t', t' = u.t := ⟨_, rfl⟩
  rw [← hu] at hstep
  cases hstep with
  | whole hal =>
      exact h.wholeSlot hat.bounds.1 (fun hp => hat.partOf_iff.mp hp hal)
        hu.symm hpte
  | part hal =>
      exact h.partSlot hat hlo hhi (hat.partOf_iff.mpr hal) hu hpte

/-- The whole loop, which always returns. -/
theorem releaseMapping_releasing {t : PageTables H} {M : Hardware H}
    (pgtable : Option Pgtable) {virt size : Nat}
    (hsize : 1 ≤ size) (hvirt : virt + size ≤ addrSpace) :
    Ensures True (releaseMapping M t pgtable virt size) fun t' =>
      ∃ s : SlotCursor H, s.l1pte = (pageEnd virt size - 1) / 1048576 + 1
        ∧ t' = s.t
        ∧ Releasing M t (pgtable.getD .sys) (pageStart virt)
          (pageEnd virt size) s := by
  obtain ⟨hlo4, hhi4, hlt, hspace, -, -⟩ := pageEnd_bounds hsize hvirt
  unfold releaseMapping
  refine Ensures.map ((pieces_ensures SlotCursor.l1pte SlotCursor.addr
    (I := Releasing M t (pgtable.getD .sys) (pageStart virt)
      (pageEnd virt size)) hspace ?_ ?_ (AtPiece.first hlt)).mono
        fun s hs => ⟨s, hs.2.2, rfl, hs.1⟩)
  · intro s hI hat
    exact (releasePiece_ensures hat hlo4 hhi4).mono fun u hu =>
      ⟨hI.step hat hlo4 hhi4 hu.1 hu.2.1, hu.2.1, hu.2.2⟩
  · have hnone : ∀ y, ¬ ClearedBelow t (pgtable.getD .sys) (pageStart virt)
        (pageEnd virt size) (l1pteIndex (pageStart virt)) y := by
      intro y hy
      obtain ⟨a, ha, -, hlt', -⟩ := hy
      unfold l1pteIndex at hlt'
      omega
    have hstart : ∀ {i}, pageStart virt / 1048576 ≤ i →
        ¬ i < l1pteIndex (pageStart virt) :=
      fun hle hlt => absurd hle (Nat.not_le_of_lt hlt)
    refine ⟨fun _ _ _ => rfl, fun i hle hlt _ => absurd hlt (hstart hle),
      fun y hy => absurd hy (hnone y), fun _ _ => rfl,
      fun i hi' hlt' => absurd hlt' (hstart hi'.1),
      [], List.nodup_nil, fun i => ?_, rfl⟩
    exact iff_of_false List.not_mem_nil
      fun hi' => hstart hi'.1.1 hi'.2.1

end SyeLabs.Mmu
