/-
`release_mapping` after `create_mapping` on a range that was unmapped.

# Two tests

`create_mapping` makes a section of a megabyte that is aligned in both
address spaces; `release_mapping` empties the slot of a megabyte that is
aligned in the virtual one. The translations come back either way, but a
megabyte without an aligned one behind it was given an L2 table, and
emptying its slot loses the table.

# The proof

`Created` says what `create_mapping` leaves in well-formed tables without
a section in the range: the slots and words that are not its own, and the
L2 tables it allocated. With what `Releasing` says of the call after it,
every slot is the old one again or empty.
-/
import SyeLabs.Mmu.Effects

namespace SyeLabs.Mmu

open Lib

variable {H : Type*} {M : Hardware H}

-- ======================================================== statement vocabulary

/-- `t''` is `t` again for the walk through `g`, and the L2 tables that
`t'` has beside those of `t` are accounted for. -/
structure RoundTrip (M : Hardware H) (t t' t'' : PageTables H)
    (g : Pgtable) : Prop where
  walk : ∀ v, v < addrSpace → walk t'' g v = walk t g v
  /-- No slot refers to a block that is not in use. -/
  wf : WellFormed M t'' g
  /-- A block in use that was allocated in between is the table of a
  slot. -/
  kept : ∀ b, ¬ M.heap.live t.heap b → M.heap.live t'.heap b →
    M.heap.live t''.heap b →
    ∃ i, i < 4096 ∧ l1pteIsTable (t''.l1 g i) ∧ l2Block (t''.l1 g i) = b
  /-- Only blocks in use are freed, each of them once. -/
  freed : ∃ bs : List Nat, t''.heap = bs.foldl M.heap.free t'.heap
    ∧ bs.Nodup ∧ ∀ b ∈ bs, M.heap.live t'.heap b

/-- Every megabyte of `[lo, hi)` without an entry has an aligned one
behind it when the range is mapped to `phys`. -/
def AlignedBehind (t : PageTables H) (g : Pgtable) (lo hi phys : Nat) :
    Prop :=
  ∀ i, lo ≤ i * 1048576 → (i + 1) * 1048576 ≤ hi → t.l1 g i = 0 →
    (phys + (i * 1048576 - lo)) % 1048576 = 0

/-- A non-empty range of pages that nothing is mapped in, and whose slots
hold no section, in a well-formed table. -/
structure Vacant (M : Hardware H) (t : PageTables H) (g : Pgtable)
    (lo hi : Nat) : Prop where
  wf : WellFormed M t g
  nonempty : lo < hi
  start : lo % 4096 = 0
  end_ : hi % 4096 = 0
  space : hi ≤ addrSpace
  unmapped : ∀ v, lo ≤ v → v < hi → walk t g v = none
  sections : ∀ i, lo / 1048576 ≤ i → i * 1048576 < hi →
    ¬ l1pteIsSect (t.l1 g i)

/-- A slot of the range holds nothing or an L2 table. -/
theorem Vacant.table {t : PageTables H} {g : Pgtable} {lo hi i : Nat}
    (hv : Vacant M t g lo hi) (hle : lo / 1048576 ≤ i)
    (hlt : i * 1048576 < hi) (hne : t.l1 g i ≠ 0) :
    i < 4096 ∧ l1pteIsTable (t.l1 g i) := by
  have hspace := hv.space
  have hi4 : i < 4096 := by
    unfold addrSpace at hspace
    omega
  refine ⟨hi4, ?_⟩
  rcases hv.wf.slot i hi4 with h0 | hs | ht
  · exact absurd h0 hne
  · exact absurd hs (hv.sections i hle hlt)
  · exact ht.1

-- ============================================================== the new tables

/-- A slot of the range that is given an L2 table. -/
def NewSlot (t : PageTables H) (g : Pgtable) (lo hi phys i : Nat) : Prop :=
  PteSlot lo hi phys i ∧ t.l1 g i = 0

/-- The L2 tables that the loop of `create_mapping` has allocated when it
has come to slot `k`. -/
structure Opened (M : Hardware H) (t t' : PageTables H) (g : Pgtable)
    (lo hi phys k : Nat) : Prop where
  table : ∀ i, NewSlot t g lo hi phys i → i < k →
    l1pteIsTable (t'.l1 g i)
      ∧ ¬ M.heap.live t.heap (l2Block (t'.l1 g i))
      ∧ M.heap.live t'.heap (l2Block (t'.l1 g i))
  apart : ∀ i j, NewSlot t g lo hi phys i → NewSlot t g lo hi phys j →
    i < k → j < k → i ≠ j → l2Block (t'.l1 g i) ≠ l2Block (t'.l1 g j)
  fresh : ∀ b, ¬ M.heap.live t.heap b → M.heap.live t'.heap b →
    ∃ i, NewSlot t g lo hi phys i ∧ i < k ∧ l2Block (t'.l1 g i) = b
  /-- They are empty but for the words of the range. -/
  blank : ∀ i, NewSlot t g lo hi phys i → i < k →
    ∀ y, y / 256 = l2Block (t'.l1 g i) → t'.l2 y = 0
      ∨ ∃ a, lo ≤ a ∧ a < hi ∧ l1pteIndex a = i
        ∧ y = l2pteOffset (t'.l1 g i) a

/-- One turn over a section, whose slot is none of the new ones. -/
theorem Opened.sect {t : PageTables H} {g : Pgtable} {lo hi phys w k : Nat}
    {t' : PageTables H} (h : Opened M t t' g lo hi phys k)
    (hpiece : SectPiece lo hi phys k) :
    Opened M t (t'.setL1 g k w) g lo hi phys (k + 1) := by
  have hne : ∀ {i}, NewSlot t g lo hi phys i → i ≠ k :=
    fun hi' heq => hi'.1.2.2 (heq ▸ hpiece)
  have hbefore : ∀ {i}, NewSlot t g lo hi phys i → i < k + 1 → i < k := by
    intro i hi' hlt'
    have := hne hi'
    omega
  have hslot : ∀ {i}, NewSlot t g lo hi phys i →
      (t'.setL1 g k w).l1 g i = t'.l1 g i :=
    fun hi' => setL1_other _ _ fun heq => hne hi' heq.2
  constructor
  case table =>
    intro i hi' hlt'
    rw [hslot hi', setL1_heap]
    exact h.table i hi' (hbefore hi' hlt')
  case apart =>
    intro i j hi' hj' hlti hltj
    rw [hslot hi', hslot hj']
    exact h.apart i j hi' hj' (hbefore hi' hlti) (hbefore hj' hltj)
  case fresh =>
    intro b hb hb'
    obtain ⟨i, hi', hlt', heq⟩ := h.fresh b hb hb'
    refine ⟨i, hi', Nat.lt_succ_of_lt hlt', ?_⟩
    rw [hslot hi']
    exact heq
  case blank =>
    intro i hi' hlt'
    rw [hslot hi', setL1_l2]
    exact h.blank i hi' (hbefore hi' hlt')

section Ptes

variable {t t₁ : PageTables H} {g : Pgtable} {lo hi phys : Nat}
  {nocache : Bool} {s : SectCursor H}

/-- The block of the slot, if it is new, is none of those in use. -/
theorem Opened.block_ne (hv : Vacant M t g lo hi)
    (hc : Creating M t g lo hi phys s)
    (h : Opened M t s.t g lo hi phys s.l1pte)
    (hpte : PteSlot lo hi phys s.l1pte)
    (hens : ensureL2 M s.t g s.l1pte nocache = some t₁) {i : Nat}
    (hi' : NewSlot t g lo hi phys i) (hlt' : i < s.l1pte) :
    l2Block (s.t.l1 g i) ≠ l2Block (t₁.l1 g s.l1pte) := by
  intro heq
  obtain ⟨-, hfresh, hused⟩ := h.table i hi' hlt'
  by_cases h0 : t.l1 g s.l1pte = 0
  · rw [heq] at hused
    exact (ensureL2_new hens (hc.slot_old.trans h0)).1 hused
  · rw [heq, hc.slot_kept hens h0] at hfresh
    obtain ⟨hi4, htable⟩ := hv.table hpte.1 hpte.2.1 h0
    exact hfresh (hv.wf.live hi4 htable)

/-- A slot behind is as it was. -/
theorem ensureL2_before (hens : ensureL2 M s.t g s.l1pte nocache = some t₁)
    {i : Nat} (hi' : i < s.l1pte) : t₁.l1 g i = s.t.l1 g i :=
  ensureL2_slot hens (Or.inr fun heq => Nat.ne_of_lt hi' heq.2)

/-- A block taken since the call belongs to a new slot. -/
theorem Opened.fresh_ptes (hc : Creating M t g lo hi phys s)
    (h : Opened M t s.t g lo hi phys s.l1pte)
    (hpte : PteSlot lo hi phys s.l1pte)
    (hens : ensureL2 M s.t g s.l1pte nocache = some t₁) {b : Nat}
    (hb : ¬ M.heap.live t.heap b) (hb' : M.heap.live t₁.heap b) :
    ∃ i, NewSlot t g lo hi phys i ∧ i < s.l1pte + 1
      ∧ l2Block (t₁.l1 g i) = b := by
  by_cases hbs : M.heap.live s.t.heap b
  · obtain ⟨i, hi', hlt', heq⟩ := h.fresh b hb hbs
    refine ⟨i, hi', Nat.lt_succ_of_lt hlt', ?_⟩
    rw [ensureL2_before hens hlt']
    exact heq
  · rcases ensureL2_cases hens with ⟨-, rfl⟩ | ⟨h0, halloc, -⟩
    · exact absurd hb' hbs
    · have hnew := ((M.heap.alloc_live halloc b).mp hb').resolve_right hbs
      exact ⟨s.l1pte, ⟨hpte, hc.slot_old.symm.trans h0⟩, Nat.lt_succ_self _,
        hnew.symm⟩

/-- A word of a new table is zero or one of the range. -/
theorem Opened.blank_ptes (hv : Vacant M t g lo hi)
    (hc : Creating M t g lo hi phys s)
    (h : Opened M t s.t g lo hi phys s.l1pte)
    (hat : AtPiece lo hi s.l1pte s.addr)
    (hpte : PteSlot lo hi phys s.l1pte)
    (hens : ensureL2 M s.t g s.l1pte nocache = some t₁) {i y : Nat}
    (phys' : Nat) (hi' : NewSlot t g lo hi phys i) (hlt' : i < s.l1pte + 1)
    (hy : y / 256 = l2Block (t₁.l1 g i)) :
    (fillL2 M t₁ nocache (l2pteOffset (t₁.l1 g s.l1pte) s.addr)
        ((l1sectAddrEnd s.addr hi - s.addr) / 4096) phys').l2 y = 0
      ∨ ∃ a, lo ≤ a ∧ a < hi ∧ l1pteIndex a = i
        ∧ y = l2pteOffset (t₁.l1 g i) a := by
  have hne := fun hlt'' => h.block_ne hv hc hpte hens hi' hlt''
  by_cases hin : l2pteOffset (t₁.l1 g s.l1pte) s.addr ≤ y
      ∧ y < l2pteOffset (t₁.l1 g s.l1pte) s.addr
        + (l1sectAddrEnd s.addr hi - s.addr) / 4096
  · have hyk := hat.word_block hin.1 hin.2
    rcases Nat.lt_succ_iff_lt_or_eq.mp hlt' with hlt' | rfl
    · rw [ensureL2_before hens hlt', hyk] at hy
      exact absurd hy.symm (hne hlt')
    · exact Or.inr ((hat.word_addr hv.start hv.end_).mp hin)
  · rw [fillL2_out M (by omega)]
    rcases Nat.lt_succ_iff_lt_or_eq.mp hlt' with hlt' | rfl
    · rw [ensureL2_before hens hlt'] at hy ⊢
      have hsame : t₁.l2 y = s.t.l2 y := by
        by_contra hdiff
        obtain ⟨-, hb⟩ := ensureL2_word hens hdiff
        exact hne hlt' (hy.symm.trans hb)
      rw [hsame]
      exact h.blank i hi' hlt' y hy
    · rcases ensureL2_cases hens with ⟨hused, -⟩ | ⟨-, -, -, -, hwords⟩
      · exact absurd (hc.slot_old.trans hi'.2) hused
      · exact Or.inl ((hwords y).1 hy)

/-- One turn over small pages. -/
theorem Opened.ptes (hv : Vacant M t g lo hi)
    (hc : Creating M t g lo hi phys s)
    (h : Opened M t s.t g lo hi phys s.l1pte)
    (hat : AtPiece lo hi s.l1pte s.addr)
    (hpte : PteSlot lo hi phys s.l1pte)
    (hens : ensureL2 M s.t g s.l1pte nocache = some t₁) :
    Opened M t (fillL2 M t₁ nocache (l2pteOffset (t₁.l1 g s.l1pte) s.addr)
      ((l1sectAddrEnd s.addr hi - s.addr) / 4096) (s.phys / 4096))
      g lo hi phys (s.l1pte + 1) := by
  have hne := fun i => h.block_ne hv hc hpte hens (i := i)
  constructor
  case table =>
    intro i hi' hlt'
    rw [fillL2_l1, fillL2_heap]
    rcases Nat.lt_succ_iff_lt_or_eq.mp hlt' with hlt' | rfl
    · rw [ensureL2_before hens hlt']
      obtain ⟨ht, hfresh, hused⟩ := h.table i hi' hlt'
      exact ⟨ht, hfresh, ensureL2_live hens hused⟩
    · rcases ensureL2_cases hens with ⟨hused, -⟩ | ⟨h0, -, ht, -⟩
      · exact absurd (hc.slot_old.trans hi'.2) hused
      · obtain ⟨hfresh, hused⟩ := hc.new_block hens h0
        exact ⟨ht, hfresh, hused⟩
  case apart =>
    intro i j hi' hj' hlti hltj hij
    rw [fillL2_l1]
    rcases Nat.lt_succ_iff_lt_or_eq.mp hlti with hlti | rfl
    · rw [ensureL2_before hens hlti]
      rcases Nat.lt_succ_iff_lt_or_eq.mp hltj with hltj | rfl
      · rw [ensureL2_before hens hltj]
        exact h.apart i j hi' hj' hlti hltj hij
      · exact hne i hi' hlti
    · rcases Nat.lt_succ_iff_lt_or_eq.mp hltj with hltj | rfl
      · rw [ensureL2_before hens hltj]
        exact (hne j hj' hltj).symm
      · exact absurd rfl hij
  case fresh =>
    intro b hb hb'
    rw [fillL2_heap] at hb'
    exact h.fresh_ptes hc hpte hens hb hb'
  case blank =>
    intro i hi' hlt' y hy
    rw [fillL2_l1] at hy ⊢
    exact h.blank_ptes hv hc hat hpte hens _ hi' hlt' hy

end Ptes

/-- One turn, over well-formed tables without a section in the range. -/
theorem Opened.step {t : PageTables H} {g : Pgtable} {lo hi phys : Nat}
    {nocache : Bool} {s u : SectCursor H} (hv : Vacant M t g lo hi)
    (hc : Creating M t g lo hi phys s)
    (h : Opened M t s.t g lo hi phys s.l1pte)
    (hat : AtPiece lo hi s.l1pte s.addr)
    (hstep : MapStep M g hi nocache s u.t)
    (hpte : u.l1pte = s.l1pte + 1) :
    Opened M t u.t g lo hi phys u.l1pte := by
  have hform := hat.sectPiece_iff hc.phys_eq
  obtain ⟨hle, hlt, -⟩ := hat.bounds
  rw [hpte]
  obtain ⟨t', hu⟩ : ∃ t', t' = u.t := ⟨_, rfl⟩
  rw [← hu] at hstep ⊢
  cases hstep with
  | sect hal => exact h.sect (hform.mpr hal)
  | ptes hal hens =>
      exact h.ptes hv hc hat ⟨hle, hlt, fun hs => hal (hform.mp hs)⟩ hens

/-- What `create_mapping` leaves. -/
structure Created (M : Hardware H) (t t' : PageTables H) (g : Pgtable)
    (lo hi phys : Nat) : Prop where
  live : ∀ b, M.heap.live t.heap b → M.heap.live t'.heap b
  slots : ∀ j, j < lo / 1048576 ∨ hi ≤ j * 1048576
      ∨ (t.l1 g j ≠ 0 ∧ ¬ SectPiece lo hi phys j) →
    t'.l1 g j = t.l1 g j
  words : ∀ y, M.heap.live t.heap (y / 256) → t'.l2 y ≠ t.l2 y →
    ∃ a, lo ≤ a ∧ a < hi ∧ PteSlot lo hi phys (l1pteIndex a)
      ∧ t.l1 g (l1pteIndex a) ≠ 0
      ∧ y = l2pteOffset (t.l1 g (l1pteIndex a)) a
  opened : Opened M t t' g lo hi phys ((hi - 1) / 1048576 + 1)

theorem createMapping_created {t t' : PageTables H}
    {pgtable : Option Pgtable} {virt phys size : Nat} {nocache : Bool}
    (hv : Vacant M t (pgtable.getD .sys) (pageStart virt)
      (pageEnd virt size))
    (hsize : 1 ≤ size) (hvirt : virt + size ≤ addrSpace)
    (h : createMapping M t pgtable virt phys size nocache = some t') :
    Created M t t' (pgtable.getD .sys) (pageStart virt)
      (pageEnd virt size) phys := by
  obtain ⟨hlo4, hhi4, hlt, hspace, -, -⟩ := pageEnd_bounds hsize hvirt
  obtain ⟨s, hs, rfl⟩ := Option.map_eq_some_iff.mp h
  have hloop : Ensures False (doWhile
      (mapPiece M (pgtable.getD .sys) (pageEnd virt size) nocache)
      (fun s => s.addr ≠ pageEnd virt size) 4097
      ⟨t, l1pteIndex (pageStart virt), pageStart virt, phys⟩) _ :=
    pieces_ensures SectCursor.l1pte SectCursor.addr
      (I := fun s => Creating M t (pgtable.getD .sys) (pageStart virt)
          (pageEnd virt size) phys s
        ∧ Opened M t s.t (pgtable.getD .sys) (pageStart virt)
          (pageEnd virt size) phys s.l1pte) hspace ?_ ⟨?_, ?_⟩
      (AtPiece.first hlt)
  · obtain ⟨⟨hc, ho⟩, -, hend⟩ := hloop.1 s hs
    obtain ⟨bs, htook, -⟩ := hc.took
    rw [hend] at ho
    constructor
    case live =>
      rw [invalSys_heap]
      exact fun b hb => (htook.live b).mpr (Or.inr hb)
    case slots =>
      intro j hj
      rw [invalSys_l1]
      apply hc.slots
      rw [hend]
      rcases hj with hj | hj | hj
      · exact Or.inr (Or.inl hj)
      · exact Or.inr (Or.inr (Or.inl (by omega)))
      · exact Or.inr (Or.inr (Or.inr hj))
    case words =>
      intro y hy hne
      rw [invalSys_l2] at hne
      exact (hc.words y hne).resolve_right fun hn => hn.1 hy
    case opened =>
      obtain ⟨h1, h2, h3, h4⟩ := ho
      constructor <;> simpa only [invalSys_l1, invalSys_l2, invalSys_heap]
  · intro s hs hat
    refine (mapPiece_ensures hat hlo4 hhi4 False.elim).mono fun u hu => ?_
    obtain ⟨hstep, hpte, haddr, hphys⟩ := hu
    exact ⟨⟨hs.1.step hat hlo4 hhi4 hstep hpte haddr hphys,
      hs.2.step hv hs.1 hat hstep hpte⟩, hpte,
      haddr⟩
  · exact Creating.init t _ _ _ _
  · have hnone : ∀ {i}, NewSlot t (pgtable.getD .sys) (pageStart virt)
        (pageEnd virt size) phys i → ¬ i < l1pteIndex (pageStart virt) :=
      fun hi' => Nat.not_lt_of_le hi'.1.1
    exact ⟨fun i hi' hlt' => absurd hlt' (hnone hi'),
      fun i j hi' _ hlt' => absurd hlt' (hnone hi'),
      fun b hb hb' => absurd hb' hb,
      fun i hi' hlt' => absurd hlt' (hnone hi')⟩

-- ============================================================== after creating

/-- A slot with an L2 table after `create_mapping`: the one it had, or a
new one. -/
def TableSlot (t t' : PageTables H) (g : Pgtable) (lo hi phys i : Nat) :
    Prop :=
  (i < 4096 ∧ l1pteIsTable (t.l1 g i) ∧ t'.l1 g i = t.l1 g i)
    ∨ NewSlot t g lo hi phys i

section
variable {t t' : PageTables H} {g : Pgtable} {lo hi phys i j : Nat}

theorem NewSlot.lt (h : NewSlot t g lo hi phys i) :
    i < (hi - 1) / 1048576 + 1 := by
  have := h.1.2.1
  omega

/-- The slots that are not made sections have one. -/
theorem Created.tableSlot (h : Created M t t' g lo hi phys)
    (hv : Vacant M t g lo hi) (hi' : PteSlot lo hi phys i) :
    TableSlot t t' g lo hi phys i := by
  by_cases h0 : t.l1 g i = 0
  · exact Or.inr ⟨hi', h0⟩
  · obtain ⟨hi4, htable⟩ := hv.table hi'.1 hi'.2.1 h0
    exact Or.inl ⟨hi4, htable, h.slots i (Or.inr (Or.inr ⟨h0, hi'.2.2⟩))⟩

/-- Their blocks are in use. -/
theorem Created.tableSlot_live (h : Created M t t' g lo hi phys)
    (hv : Vacant M t g lo hi) (hi' : TableSlot t t' g lo hi phys i) :
    M.heap.live t'.heap (l2Block (t'.l1 g i)) := by
  rcases hi' with ⟨hi4, htable, heq⟩ | hnew
  · rw [heq]
    exact h.live _ (hv.wf.live hi4 htable)
  · exact (h.opened.table i hnew hnew.lt).2.2

/-- And no block is that of two of them. -/
theorem Created.tableSlot_apart (h : Created M t t' g lo hi phys)
    (hv : Vacant M t g lo hi) (hi' : TableSlot t t' g lo hi phys i)
    (hj' : TableSlot t t' g lo hi phys j) (hne : i ≠ j) :
    l2Block (t'.l1 g i) ≠ l2Block (t'.l1 g j) := by
  have hmixed : ∀ {k l}, NewSlot t g lo hi phys k → l < 4096 →
      l1pteIsTable (t.l1 g l) →
      l2Block (t'.l1 g k) ≠ l2Block (t.l1 g l) := by
    intro k l hk hl htable heq
    have hfresh := (h.opened.table k hk hk.lt).2.1
    rw [heq] at hfresh
    exact hfresh (hv.wf.live hl htable)
  rcases hi' with ⟨hi4, hti, heqi⟩ | hnewi
  · rcases hj' with ⟨hj4, htj, heqj⟩ | hnewj
    · rw [heqi, heqj]
      exact hv.wf.owned i j hi4 hj4 hne hti htj
    · rw [heqi]
      exact (hmixed hnewj hi4 hti).symm
  · rcases hj' with ⟨hj4, htj, heqj⟩ | hnewj
    · rw [heqj]
      exact hmixed hnewi hj4 htj
    · exact h.opened.apart i j hnewi hnewj hnewi.lt hnewj.lt hne

/-- Addresses with one word are on one page. -/
theorem Created.same_page (h : Created M t t' g lo hi phys)
    (hv : Vacant M t g lo hi) {a v : Nat}
    (ha : TableSlot t t' g lo hi phys (l1pteIndex a))
    (hav : TableSlot t t' g lo hi phys (l1pteIndex v))
    (hword : l2pteOffset (t'.l1 g (l1pteIndex v)) v
      = l2pteOffset (t'.l1 g (l1pteIndex a)) a) : v / 4096 = a / 4096 := by
  rw [l2pteOffset_eq, l2pteOffset_eq] at hword
  have hindex : l1pteIndex v = l1pteIndex a := by
    by_contra hne
    exact h.tableSlot_apart hv hav ha hne (by omega)
  unfold l1pteIndex at hindex
  omega

/-- A word that is cleared afterwards is that of an address of the range. -/
theorem Created.cleared_addr (h : Created M t t' g lo hi phys)
    (hv : Vacant M t g lo hi) {k v : Nat}
    (hav : TableSlot t t' g lo hi phys (l1pteIndex v))
    (hcl : ClearedBelow t' g lo hi k
      (l2pteOffset (t'.l1 g (l1pteIndex v)) v)) : lo ≤ v ∧ v < hi := by
  obtain ⟨a, hlo, hhi, -, hpart, hword⟩ := hcl
  have hpage := h.same_page hv (h.tableSlot hv (hpart.pteSlot phys)) hav hword
  have := hv.start
  have := hv.end_
  omega

/-- The word of an address outside of the range is the old one. -/
theorem Created.word_kept (h : Created M t t' g lo hi phys)
    (hv : Vacant M t g lo hi) {v : Nat} (hv4 : l1pteIndex v < 4096)
    (htable : l1pteIsTable (t.l1 g (l1pteIndex v)))
    (heq : t'.l1 g (l1pteIndex v) = t.l1 g (l1pteIndex v))
    (hout : ¬ (lo ≤ v ∧ v < hi)) :
    t'.l2 (l2pteOffset (t.l1 g (l1pteIndex v)) v)
      = t.l2 (l2pteOffset (t.l1 g (l1pteIndex v)) v) := by
  by_contra hne
  have hblock : l2pteOffset (t.l1 g (l1pteIndex v)) v / 256
      = l2Block (t.l1 g (l1pteIndex v)) := by
    rw [l2pteOffset_eq]
    omega
  obtain ⟨a, hlo, hhi, hslot, ha0, hword⟩ := h.words _
    (by rw [hblock]; exact hv.wf.live hv4 htable) hne
  have ha := h.tableSlot hv hslot
  have hold : t'.l1 g (l1pteIndex a) = t.l1 g (l1pteIndex a) :=
    h.slots _ (Or.inr (Or.inr ⟨ha0, hslot.2.2⟩))
  rw [← heq, ← hold] at hword
  have hpage := h.same_page hv ha (Or.inl ⟨hv4, htable, heq⟩) hword
  have := hv.start
  have := hv.end_
  exact hout (by omega)

/-- A new table of a slot covered in part has no other words. -/
theorem Created.not_wordLeft (h : Created M t t' g lo hi phys)
    (hnew : NewSlot t g lo hi phys i) (hpart : PartOf lo hi i) :
    ¬ WordLeft t' g lo hi i := by
  intro hleft
  obtain ⟨x, hx, hne, hkept⟩ := hleft
  have hblock : (l2pteFirst (t'.l1 g i) + x) / 256 = l2Block (t'.l1 g i) := by
    unfold l2pteFirst
    omega
  rcases h.opened.blank i hnew hnew.lt _ hblock with h0 | ⟨a, ha, ha', hai, hy⟩
  · exact hne h0
  · subst hai
    exact hkept ⟨a, ha, ha', Nat.lt_succ_self _, hpart, hy⟩

end

-- ============================================================= after releasing

section
variable {t t' : PageTables H} {g : Pgtable} {lo hi phys i : Nat}
  {u : SlotCursor H}

/-- Every slot is empty or the old one, which was not changed either. -/
theorem slot_back (hv : Vacant M t g lo hi) (hc : Created M t t' g lo hi phys)
    (hr : Releasing M t' g lo hi u)
    (hend : u.l1pte = (hi - 1) / 1048576 + 1) (i : Nat) :
    (u.t.l1 g i = t.l1 g i ∧ t'.l1 g i = t.l1 g i
      ∧ (lo / 1048576 ≤ i → i * 1048576 < hi → WordLeft t' g lo hi i))
    ∨ (u.t.l1 g i = 0 ∧ lo / 1048576 ≤ i ∧ i * 1048576 < hi
      ∧ (PartOf lo hi i → ¬ WordLeft t' g lo hi i)) := by
  by_cases hin : lo / 1048576 ≤ i ∧ i * 1048576 < hi
  · obtain ⟨hle, hlt⟩ := hin
    have hbelow : i < u.l1pte := by omega
    by_cases hpart : PartOf lo hi i
    · rcases hr.left i hpart hbelow with ⟨hleft, heq⟩ | ⟨hleft, h0⟩
      · have hne : t.l1 g i ≠ 0 := fun h0 =>
          hc.not_wordLeft ⟨hpart.pteSlot phys, h0⟩ hpart hleft
        have hold := hc.slots i
          (Or.inr (Or.inr ⟨hne, (hpart.pteSlot phys).2.2⟩))
        exact Or.inl ⟨heq.trans hold, hold, fun _ _ => hleft⟩
      · exact Or.inr ⟨h0, hle, hlt, fun _ => hleft⟩
    · exact Or.inr ⟨hr.whole i hle hbelow hpart, hle, hlt,
        fun hp => absurd hp hpart⟩
  · have hout : i < lo / 1048576 ∨ hi ≤ i * 1048576 := by omega
    have hold := hc.slots i (by omega)
    refine Or.inl ⟨(hr.slots g i (Or.inr ?_)).trans hold, hold,
      fun hle hlt => absurd ⟨hle, hlt⟩ hin⟩
    have := hv.nonempty
    omega

/-- Releasing unmaps the range. -/
theorem walk_released (hv : Vacant M t g lo hi)
    (hc : Created M t t' g lo hi phys) (hr : Releasing M t' g lo hi u)
    (hend : u.l1pte = (hi - 1) / 1048576 + 1) {v : Nat} (hlo : lo ≤ v)
    (hhi : v < hi) : walk u.t g v = none := by
  have hle : lo / 1048576 ≤ l1pteIndex v := by
    unfold l1pteIndex
    omega
  have hlt : l1pteIndex v * 1048576 < hi := by
    unfold l1pteIndex
    omega
  have hbelow : l1pteIndex v < u.l1pte := by omega
  rcases slot_back hv hc hr hend (l1pteIndex v) with
    ⟨heq, hold, -⟩ | ⟨h0, -⟩
  · by_cases h0 : t.l1 g (l1pteIndex v) = 0
    · exact walk_of_empty (heq.trans h0)
    · have htable := (hv.table hle hlt h0).2
      have hpart : PartOf lo hi (l1pteIndex v) := by
        by_contra hno
        exact h0 (heq.symm.trans (hr.whole _ hle hbelow hno))
      rw [walk_of_table (heq ▸ htable), hr.cleared, l2Walk_zero]
      rw [heq, ← hold]
      exact ⟨v, hlo, hhi, hbelow, hpart, rfl⟩
  · exact walk_of_empty h0

/-- And brings back every other address. -/
theorem walk_kept (hv : Vacant M t g lo hi)
    (hc : Created M t t' g lo hi phys) (hr : Releasing M t' g lo hi u)
    (hend : u.l1pte = (hi - 1) / 1048576 + 1) {v : Nat}
    (hspace : v < addrSpace) (hout : ¬ (lo ≤ v ∧ v < hi)) :
    walk u.t g v = walk t g v := by
  have hv4 : l1pteIndex v < 4096 := by
    unfold l1pteIndex addrSpace at *
    omega
  rcases slot_back hv hc hr hend (l1pteIndex v) with
    ⟨heq, hold, -⟩ | ⟨h0, hle, hlt, hleft⟩
  · refine walk_congr heq fun htable => ?_
    rw [← hc.word_kept hv hv4 htable hold hout]
    apply hr.kept
    intro hcl
    rw [← hold] at hcl
    exact hout (hc.cleared_addr hv (Or.inl ⟨hv4, htable, hold⟩) hcl)
  · rw [walk_of_empty h0]
    by_cases hzero : t.l1 g (l1pteIndex v) = 0
    · exact (walk_of_empty hzero).symm
    · -- the table was freed, so the word of `v` was empty
      have htable := (hv.table hle hlt hzero).2
      have hpart : PartOf lo hi (l1pteIndex v) := by
        refine ⟨hle, hlt, fun hin => hout ?_⟩
        unfold l1pteIndex at hin
        omega
      have hold := hc.slots _
        (Or.inr (Or.inr ⟨hzero, (hpart.pteSlot phys).2.2⟩))
      have hword : t.l2 (l2pteOffset (t.l1 g (l1pteIndex v)) v) = 0 := by
        by_contra hne
        rw [← hc.word_kept hv hv4 htable hold hout, ← hold] at hne
        refine hleft hpart ⟨v / 4096 % 256, Nat.mod_lt _ (by decide), hne,
          fun hcl => hout ?_⟩
        exact hc.cleared_addr hv (Or.inl ⟨hv4, htable, hold⟩) hcl
      rw [walk_of_table htable, hword, l2Walk_zero]

/-- What is freed is in use, and freed once. -/
theorem freed_once (hv : Vacant M t g lo hi)
    (hc : Created M t t' g lo hi phys) (hr : Releasing M t' g lo hi u)
    (hend : u.l1pte = (hi - 1) / 1048576 + 1) :
    ∃ bs : List Nat, u.t.heap = bs.foldl M.heap.free t'.heap ∧ bs.Nodup
      ∧ (∀ b ∈ bs, M.heap.live t'.heap b)
      ∧ ∀ b, b ∈ bs ↔ ∃ i, PartOf lo hi i ∧ ¬ WordLeft t' g lo hi i
        ∧ l2Block (t'.l1 g i) = b := by
  obtain ⟨is, hnd, his, hheap⟩ := hr.freed
  have hslot : ∀ i ∈ is, TableSlot t t' g lo hi phys i := fun i hi' =>
    hc.tableSlot hv (((his i).mp hi').1.pteSlot phys)
  refine ⟨_, hheap, ?_, fun b hb => ?_, fun b => ?_⟩
  · refine List.Nodup.map_on (fun i hi' j hj' heq => ?_) hnd
    by_contra hne
    exact hc.tableSlot_apart hv (hslot i hi') (hslot j hj') hne heq
  · obtain ⟨i, hi', rfl⟩ := List.mem_map.mp hb
    exact hc.tableSlot_live hv (hslot i hi')
  · rw [List.mem_map]
    refine exists_congr fun i => ?_
    rw [his, and_assoc, and_assoc]
    refine and_congr_right fun hpart => and_iff_right ?_
    have := hpart.2.1
    omega

/-- The table is well formed again. -/
theorem wellFormed_back (hv : Vacant M t g lo hi)
    (hc : Created M t t' g lo hi phys) (hr : Releasing M t' g lo hi u)
    (hend : u.l1pte = (hi - 1) / 1048576 + 1) : WellFormed M u.t g := by
  obtain ⟨bs, hheap, hnd, hlive, hmem⟩ := freed_once hv hc hr hend
  have hback : ∀ i, u.t.l1 g i ≠ 0 →
      u.t.l1 g i = t.l1 g i ∧ t'.l1 g i = t.l1 g i
        ∧ (PartOf lo hi i → WordLeft t' g lo hi i) := by
    intro i hne
    rcases slot_back hv hc hr hend i with ⟨heq, hold, hleft⟩ | ⟨h0, -⟩
    · exact ⟨heq, hold, fun hpart => hleft hpart.1 hpart.2.1⟩
    · exact absurd h0 hne
  have htable : ∀ i, l1pteIsTable (u.t.l1 g i) → u.t.l1 g i ≠ 0 := by
    intro i ht h0
    rw [h0] at ht
    cases ht
  constructor
  case slot =>
    intro i hi4
    by_cases h0 : u.t.l1 g i = 0
    · exact Or.inl h0
    · obtain ⟨heq, hold, hleft⟩ := hback i h0
      rw [heq] at h0 ⊢
      refine Or.inr (((hv.wf.slot i hi4).resolve_left h0).imp_right
        fun ht => ⟨ht.1, ?_⟩)
      rw [hheap, Allocator.live_foldl_free hnd hlive]
      refine ⟨fun hb => ?_, hc.live _ ht.2⟩
      obtain ⟨j, hpart, hno, hb⟩ := (hmem _).mp hb
      have hne : j ≠ i := by
        intro hji
        rw [hji] at hpart hno
        exact hno (hleft hpart)
      rw [← hold] at hb
      exact hc.tableSlot_apart hv (hc.tableSlot hv (hpart.pteSlot phys))
        (Or.inl ⟨hi4, ht.1, hold⟩) hne hb
  case owned =>
    intro i j hi4 hj4 hne hti htj
    have hi' := (hback i (htable i hti)).1
    have hj' := (hback j (htable j htj)).1
    rw [hi'] at hti ⊢
    rw [hj'] at htj ⊢
    exact hv.wf.owned i j hi4 hj4 hne hti htj

/-- The round trip is one exactly if no table is given to a megabyte that
the range covers whole. -/
theorem roundTrip_iff (hv : Vacant M t g lo hi)
    (hc : Created M t t' g lo hi phys) (hr : Releasing M t' g lo hi u)
    (hend : u.l1pte = (hi - 1) / 1048576 + 1) :
    RoundTrip M t t' u.t g ↔ AlignedBehind t g lo hi phys := by
  obtain ⟨bs, hheap, hnd, hlive, hmem⟩ := freed_once hv hc hr hend
  have hafter := Allocator.live_foldl_free hnd hlive
  rw [← hheap] at hafter
  constructor
  · intro h i hlo' hhi' h0
    by_contra hphys
    have hlt : i * 1048576 < hi := by omega
    have hnew : NewSlot t g lo hi phys i := by
      refine ⟨⟨by omega, hlt, fun hs => hphys ?_⟩, h0⟩
      exact ((sectPiece_iff (by omega) hlt).mp hs).2.2
    obtain ⟨-, hfresh, hused⟩ := hc.opened.table i hnew hnew.lt
    -- its block is in use afterwards, and the table of no slot
    have hstill := (hafter (l2Block (t'.l1 g i))).mpr ⟨fun hb => ?_, hused⟩
    · obtain ⟨j, hj4, htable, hb⟩ := h.kept _ hfresh hused hstill
      rcases slot_back hv hc hr hend j with ⟨heq, -⟩ | ⟨hz, -⟩
      · rw [heq] at htable hb
        exact hfresh (hb ▸ hv.wf.live hj4 htable)
      · rw [hz] at htable
        cases htable
    · obtain ⟨j, hpart, -, hb⟩ := (hmem _).mp hb
      have hne : j ≠ i := fun hji => hpart.2.2 ⟨by rw [hji]; exact hlo',
        by rw [hji]; exact hhi'⟩
      exact hc.tableSlot_apart hv (hc.tableSlot hv (hpart.pteSlot phys))
        (Or.inr hnew) hne hb
  · intro hbehind
    constructor
    case walk =>
      intro v hspace
      by_cases hin : lo ≤ v ∧ v < hi
      · rw [walk_released hv hc hr hend hin.1 hin.2,
          hv.unmapped v hin.1 hin.2]
      · exact walk_kept hv hc hr hend hspace hin
    case wf => exact wellFormed_back hv hc hr hend
    case kept =>
      intro b hb hb' hb''
      obtain ⟨i, hnew, -, heq⟩ := hc.opened.fresh b hb hb'
      obtain ⟨⟨hle, hlt, hno⟩, h0⟩ := hnew
      have hpart : PartOf lo hi i := by
        refine ⟨hle, hlt, fun hin => hno ?_⟩
        exact (sectPiece_iff hle hlt).mpr
          ⟨hin.1, hin.2, hbehind i hin.1 hin.2 h0⟩
      refine absurd ((hmem b).mpr ⟨i, hpart, ?_, heq⟩)
        ((hafter b).mp hb'').1
      exact hc.not_wordLeft ⟨⟨hle, hlt, hno⟩, h0⟩ hpart
    case freed => exact ⟨bs, hheap, hnd, hlive⟩

end

-- ================================================================== both calls

/-- The two calls in a row, the second of which always returns. -/
theorem release_after_create {t t' : PageTables H}
    {pgtable : Option Pgtable} {virt phys size : Nat} {nocache : Bool}
    (hv : Vacant M t (pgtable.getD .sys) virt (virt + size))
    (h : createMapping M t pgtable virt phys size nocache = some t') :
    ∃ u : SlotCursor H, releaseMapping M t' pgtable virt size = some u.t
      ∧ u.l1pte = (virt + size - 1) / 1048576 + 1
      ∧ Created M t t' (pgtable.getD .sys) virt (virt + size) phys
      ∧ Releasing M t' (pgtable.getD .sys) virt (virt + size) u := by
  have hsize : 1 ≤ size := by
    have := hv.nonempty
    omega
  obtain ⟨hstart, hend⟩ : pageStart virt = virt
      ∧ pageEnd virt size = virt + size := by
    have := hv.start
    have := hv.end_
    unfold pageEnd pageStart alignUp
    omega
  have hc := createMapping_created (by rw [hstart, hend]; exact hv) hsize
    hv.space h
  have hrelease := releaseMapping_releasing (M := M) (t := t') pgtable hsize
    hv.space
  obtain ⟨t'', ht''⟩ := hrelease.2 trivial
  obtain ⟨u, hu, rfl, hr⟩ := hrelease.1 t'' ht''
  rw [hstart, hend] at hc hr
  rw [hend] at hu
  exact ⟨u, ht'', hu, hc, hr⟩

/-- `release_mapping` undoes `create_mapping` exactly if every megabyte
that was without an entry and is covered whole has an aligned one behind
it. -/
theorem release_create_iff (M : Hardware H) (t t' : PageTables H)
    (pgtable : Option Pgtable) (virt phys size : Nat) (nocache : Bool)
    (hv : Vacant M t (pgtable.getD .sys) virt (virt + size))
    (h : createMapping M t pgtable virt phys size nocache = some t') :
    ∃ t'', releaseMapping M t' pgtable virt size = some t''
      ∧ (RoundTrip M t t' t'' (pgtable.getD .sys)
        ↔ AlignedBehind t (pgtable.getD .sys) virt (virt + size) phys) := by
  obtain ⟨u, hrelease, hend, hc, hr⟩ := release_after_create hv h
  exact ⟨u.t, hrelease, roundTrip_iff hv hc hr hend⟩

/-- Nothing is mapped in the empty table. -/
theorem vacant_sample {g : Pgtable} {lo hi : Nat} (hlt : lo < hi)
    (hlo : lo % 4096 = 0) (hhi : hi % 4096 = 0) (hspace : hi ≤ addrSpace) :
    Vacant .sample PageTables.sample g lo hi where
  wf := ⟨fun _ _ => Or.inl rfl, fun _ _ _ _ _ h => by cases h⟩
  nonempty := hlt
  start := hlo
  end_ := hhi
  space := hspace
  unmapped := fun _ _ _ => walk_of_empty rfl
  sections := fun _ _ _ h => by cases h

/-- Two pages to both sides of a megabyte boundary come and go. -/
theorem release_create_iff_two_slots :
    ∃ t' t'', createMapping .sample .sample (some (.proc 1)) 0xFF000
        0x80000000 0x2000 false = some t'
      ∧ releaseMapping .sample t' (some (.proc 1)) 0xFF000 0x2000 = some t''
      ∧ RoundTrip .sample .sample t' t'' (.proc 1) := by
  have hret : (createMapping .sample .sample (some (.proc 1)) 0xFF000
      0x80000000 0x2000 false).isSome = true := rfl
  obtain ⟨t', ht'⟩ := Option.isSome_iff_exists.mp hret
  obtain ⟨t'', ht'', hiff⟩ := release_create_iff .sample .sample t'
    (some (.proc 1)) 0xFF000 0x80000000 0x2000 false
    (vacant_sample (by decide) (by decide) (by decide) (by decide)) ht'
  refine ⟨t', t'', ht', ht'', hiff.mpr fun i hlo hhi _ => ?_⟩
  omega

/-- A megabyte that is mapped to one that begins at a page boundary: its
L2 table stays in use and no slot refers to it. -/
theorem whole_megabyte_leaks :
    ∃ t' t'', createMapping .sample .sample (some (.proc 1)) 0x100000
        0x80001000 0x100000 false = some t'
      ∧ releaseMapping .sample t' (some (.proc 1)) 0x100000 0x100000
        = some t''
      ∧ ¬ RoundTrip .sample .sample t' t'' (.proc 1) := by
  have hend : pageEnd 0x100000 0x100000 = 0x200000 := rfl
  have hcreate := createMapping_creating (M := .sample)
    (t := PageTables.sample) (some (.proc 1)) 0x80001000 false
    (show 1 ≤ 0x100000 by decide) (show 0x100000 + 0x100000 ≤ addrSpace by
      decide)
  obtain ⟨t', ht'⟩ := hcreate.2 ⟨[7], _, ⟨_, rfl, rfl⟩, by
    rw [hend]
    decide⟩
  have hv : Vacant .sample PageTables.sample (.proc 1) 0x100000
      (0x100000 + 0x100000) :=
    vacant_sample (by decide) (by decide) (by decide) (by decide)
  obtain ⟨u, hrelease, hlast, hc, hr⟩ := release_after_create hv ht'
  refine ⟨t', u.t, ht', hrelease, fun h => ?_⟩
  have hbehind := (roundTrip_iff hv hc hr hlast).mp h 1 (by decide)
    (by decide) rfl
  exact absurd hbehind (by decide)

end SyeLabs.Mmu
