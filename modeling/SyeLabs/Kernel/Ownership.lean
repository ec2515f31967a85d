/-
Who owns the L2 tables of the user area.

# The runs

New tables, `allocate_page`, `duplicate_user_space` and
`reset_root_pgtable`, in any order and over any number of processes. The
heap keeps a log of `memalign` and `free`, so that a statement can say
which tables were obtained and not freed, and what a call frees. A fork
is made by a program, which runs from a page of its own (`HasPage`): a
call of `duplicate_user_space` names an address at which the parent has
one. From a table without pages the call would close a copy window it
never opened, and hand block 0 to `free`.

# The invariant

`Holds` says that the slots named by `HeldSlot` own the L2 tables they
refer to: the user slots of all processes and, while a fork copies pages,
the slot of the copy window in the table of the parent. The latter is
left out if the system table has an L2 table in that slot, which is then
not the business of any process.
-/
import SyeLabs.Kernel.Isolation
import SyeLabs.Lib.Ownership
import SyeLabs.Mmu.Steps

namespace SyeLabs.Mmu

open Lib

/-- Hardware whose heap keeps a log. -/
def Hardware.logged {H : Type*} (M : Hardware H) : Hardware (Logged H) where
  attrs := M.attrs
  heap := M.heap.logged

end SyeLabs.Mmu

namespace SyeLabs.Kernel

open Lib Mmu

variable {P : Platform} {H F : Type*} {M : Hardware H}
  {base : Nat → Prop} {n : Nat} {opened : Option Nat}
  {t t' : PageTables (Logged H)}

/-- A board whose heap keeps a log. -/
def Board.logged (B : Board P H F) : Board P (Logged H) F where
  hw := B.hw.logged
  pool := B.pool

-- =================================================================== the slots

/-- The slots that own L2 tables: the user slots of `n` processes, and
the slot of the copy window of the process that has it open. -/
def HeldSlot (P : Platform) (n : Nat) (opened : Option Nat) :
    Pgtable × Nat → Prop
  | (.sys, _) => False
  | (.proc p, i) =>
      p < n ∧ (i < P.userSlots ∨ (opened = some p ∧ i = fixSlot P))

instance HeldSlot.decidable (P : Platform) (n : Nat)
    (opened : Option Nat) : DecidablePred (HeldSlot P n opened)
  | (.sys, _) => inferInstanceAs (Decidable False)
  | (.proc _, _) => inferInstanceAs (Decidable (_ ∧ (_ ∨ (_ ∧ _))))

theorem heldSlot_user {p i : Nat} (hp : p < n) (hi : i < P.userSlots) :
    HeldSlot P n opened (.proc p, i) :=
  ⟨hp, Or.inl hi⟩

theorem heldSlot_window {p : Nat} (hp : p < n) :
    HeldSlot P n (some p) (.proc p, fixSlot P) :=
  ⟨hp, Or.inr ⟨rfl, rfl⟩⟩

/-- The L2 table a slot refers to. -/
def tableRef (own : Pgtable × Nat → Prop) [DecidablePred own]
    (t : PageTables H) (a : Pgtable × Nat) : Option Nat :=
  if own a ∧ t.l1 a.1 a.2 ≠ 0 then some (l2Block (t.l1 a.1 a.2)) else none

variable {own : Pgtable × Nat → Prop} [DecidablePred own]

theorem tableRef_eq_some {t : PageTables H} {a : Pgtable × Nat} {b : Nat} :
    tableRef own t a = some b ↔
      own a ∧ t.l1 a.1 a.2 ≠ 0 ∧ l2Block (t.l1 a.1 a.2) = b := by
  unfold tableRef
  split
  next h =>
    rw [Option.some.injEq]
    exact ⟨fun hb => ⟨h.1, h.2, hb⟩, fun hb => hb.2.2⟩
  next h =>
    constructor
    · exact fun hb => nomatch hb
    · exact fun hb => absurd ⟨hb.1, hb.2.1⟩ h

theorem tableRef_eq_none {t : PageTables H} {g : Pgtable} {i : Nat}
    (h : t.l1 g i = 0) : tableRef own t (g, i) = none :=
  if_neg fun hn => hn.2 h

/-- Only slot `i` of table `g` changed. -/
theorem tableRef_update {t t' : PageTables H} {g : Pgtable} {i : Nat}
    (hslots : ∀ g' j, ¬ (g' = g ∧ j = i) → t'.l1 g' j = t.l1 g' j)
    (a : Pgtable × Nat) :
    tableRef own t' a = Function.update (tableRef own t) (g, i)
      (tableRef own t' (g, i)) a := by
  by_cases ha : a = (g, i)
  · rw [ha, Function.update_self]
  · rw [Function.update_of_ne ha, tableRef, tableRef,
      hslots a.1 a.2 fun h => ha (Prod.ext h.1 h.2)]

-- =============================================================== the invariant

/-- The slots own their L2 tables, and hold nothing but tables. -/
structure Holds (P : Platform) (M : Hardware H) (base : Nat → Prop)
    (opened : Option Nat) (n : Nat) (t : PageTables (Logged H)) : Prop where
  owns : Owns M.heap base (tableRef (HeldSlot P n opened) t) t.heap
  table : ∀ g i, HeldSlot P n opened (g, i) → t.l1 g i ≠ 0 →
    l1pteIsTable (t.l1 g i)

namespace Holds

/-- L2 words do not matter. -/
theorem of_l1 (h : Holds P M base opened n t) (hl1 : t'.l1 = t.l1)
    (hheap : t'.heap = t.heap) : Holds P M base opened n t' where
  owns := by
    rw [hheap]
    exact h.owns.congr fun a => by rw [tableRef, tableRef, hl1]
  table := by
    intro g i hown hne
    rw [hl1] at hne ⊢
    exact h.table g i hown hne

/-- The table of a slot is in use, and not one of `base`. -/
theorem not_base (h : Holds P M base opened n t) {g : Pgtable} {i : Nat}
    (hown : HeldSlot P n opened (g, i)) (hne : t.l1 g i ≠ 0) :
    ¬ base (l2Block (t.l1 g i)) :=
  h.owns.apart (g, i) _ (tableRef_eq_some.mpr ⟨hown, hne, rfl⟩)

theorem live (h : Holds P M base opened n t) {g : Pgtable} {i : Nat}
    (hown : HeldSlot P n opened (g, i)) (hne : t.l1 g i ≠ 0) :
    M.heap.live t.heap.heap (l2Block (t.l1 g i)) :=
  (h.owns.live _).mpr
    (Or.inr ⟨(g, i), tableRef_eq_some.mpr ⟨hown, hne, rfl⟩⟩)

/-- Two slots have two tables. -/
theorem block_ne (h : Holds P M base opened n t) {g g' : Pgtable}
    {i i' : Nat} (hown : HeldSlot P n opened (g, i))
    (hown' : HeldSlot P n opened (g', i')) (hne : t.l1 g i ≠ 0)
    (hne' : t.l1 g' i' ≠ 0) (hdiff : ¬ (g = g' ∧ i = i')) :
    l2Block (t.l1 g i) ≠ l2Block (t.l1 g' i') := by
  intro heq
  have hsame := h.owns.single (g, i) (g', i') _
    (tableRef_eq_some.mpr ⟨hown, hne, rfl⟩)
    (tableRef_eq_some.mpr ⟨hown', hne', heq.symm⟩)
  exact hdiff (Prod.mk.inj hsame)

/-- An empty slot gets a table; the words of the tables in use stay. -/
theorem newL2 (h : Holds P M base opened n t) {g : Pgtable} {i : Nat}
    {nocache : Bool} (hown : HeldSlot P n opened (g, i))
    (h0 : t.l1 g i = 0)
    (hnew : Mmu.newL2 M.logged t g i nocache = some t') :
    Holds P M base opened n t' ∧ t'.l1 g i ≠ 0
      ∧ (∀ g' j, ¬ (g' = g ∧ j = i) → t'.l1 g' j = t.l1 g' j)
      ∧ (∀ x, x < 256 → t'.l2 (l2Block (t'.l1 g i) * 256 + x) = 0)
      ∧ ∀ c, M.heap.live t.heap.heap c →
        c ≠ l2Block (t'.l1 g i)
          ∧ ∀ x, x < 256 → t'.l2 (c * 256 + x) = t.l2 (c * 256 + x) := by
  obtain ⟨b, halloc, hword, hslots, hzero, hwords⟩ := newL2_eq hnew
  have hblock : l2Block (t'.l1 g i) = b := by
    rw [hword]
    exact l1Word_block M.logged b nocache
  have htable : l1pteIsTable (t'.l1 g i) :=
    hword ▸ l1Word_isTable M.logged b nocache
  have hne : t'.l1 g i ≠ 0 := by
    intro hz
    rw [hz] at htable
    cases htable
  have hfresh : ∀ c, M.heap.live t.heap.heap c → c ≠ b :=
    fun c hc => M.heap.ne_of_alloc (logged_alloc halloc).1 hc
  refine ⟨⟨?_, ?_⟩, hne, hslots, ?_, fun c hc => ?_⟩
  · apply (h.owns.take (tableRef_eq_none h0) halloc).congr
    intro a
    rw [tableRef_update hslots a,
      tableRef_eq_some.mpr ⟨hown, hne, hblock⟩]
  · intro g' j hown' hne'
    by_cases hgj : g' = g ∧ j = i
    · rw [hgj.1, hgj.2]
      exact htable
    · rw [hslots g' j hgj] at hne' ⊢
      exact h.table g' j hown' hne'
  · rw [hblock]
    exact hzero
  · rw [hblock]
    exact ⟨hfresh c hc, hwords c (hfresh c hc)⟩

/-- A table is freed and its slot emptied. -/
theorem free (h : Holds P M base opened n t) {g : Pgtable} {i : Nat}
    (hown : HeldSlot P n opened (g, i)) (hne : t.l1 g i ≠ 0) :
    Holds P M base opened n (PageTables.setL1
      { t with heap := M.logged.heap.free t.heap (l2Block (t.l1 g i)) }
      g i 0) := by
  constructor
  · refine (h.owns.give
      (tableRef_eq_some.mpr ⟨hown, hne, rfl⟩)).congr fun a => ?_
    rw [tableRef_update (g := g) (i := i)
      (fun g' j hgj => setL1_other _ _ hgj) a]
    rw [tableRef_eq_none (setL1_self _ _ _ _)]
    rfl
  · intro g' j hown' hne'
    by_cases hgj : g' = g ∧ j = i
    · rw [hgj.1, hgj.2, setL1_self] at hne'
      exact absurd rfl hne'
    · rw [setL1_other _ _ hgj] at hne' ⊢
      exact h.table g' j hown' hne'

/-- A closed window holds nothing. -/
theorem closeWindow {src : Nat} (h : Holds P M base (some src) n t)
    (h0 : t.l1 (.proc src) (fixSlot P) = 0) : Holds P M base none n t := by
  have hheld : ∀ {g i}, HeldSlot P n none (g, i) →
      HeldSlot P n (some src) (g, i) := by
    intro g i hown
    cases g with
    | sys => exact hown
    | proc p => exact ⟨hown.1, hown.2.imp_right fun hw => nomatch hw.1⟩
  refine ⟨h.owns.congr fun a => ?_, fun g i hown => h.table g i (hheld hown)⟩
  obtain ⟨g, i⟩ := a
  unfold tableRef
  refine if_congr ?_ rfl rfl
  refine ⟨fun hn => ⟨hheld hn.1, hn.2⟩, fun hn => ⟨?_, hn.2⟩⟩
  cases g with
  | sys => exact hn.1
  | proc p =>
      obtain ⟨⟨hp, hi | ⟨hsrc, hfix⟩⟩, hne⟩ := hn
      · exact ⟨hp, Or.inl hi⟩
      · cases hsrc
        rw [hfix] at hne
        exact absurd h0 hne

/-- An open window that is empty yet. -/
theorem openWindow {src : Nat} (h : Holds P M base none n t)
    (h0 : t.l1 (.proc src) (fixSlot P) = 0) :
    Holds P M base (some src) n t := by
  have hcases : ∀ {g i}, HeldSlot P n (some src) (g, i) → t.l1 g i ≠ 0 →
      HeldSlot P n none (g, i) := by
    intro g i hown hne
    cases g with
    | sys => exact hown
    | proc p =>
        obtain ⟨hp, hi | ⟨hsrc, hfix⟩⟩ := hown
        · exact ⟨hp, Or.inl hi⟩
        · cases hsrc
          rw [hfix] at hne
          exact absurd h0 hne
  refine ⟨h.owns.congr fun a => ?_, fun g i hown hne =>
    h.table g i (hcases hown hne) hne⟩
  obtain ⟨g, i⟩ := a
  unfold tableRef
  refine if_congr ?_ rfl rfl
  refine ⟨fun hn => ⟨hcases hn.1 hn.2, hn.2⟩, fun hn => ⟨?_, hn.2⟩⟩
  cases g with
  | sys => exact hn.1
  | proc p => exact ⟨hn.1.1, hn.1.2.imp_right fun hw => nomatch hw.1⟩

end Holds

/-- The invariant between calls: the user slots own their tables, the
processes have the slot of the window from the system table, and if there
is a table in it, closing the window leaves it another page. -/
structure Settled (P : Platform) (M : Hardware H) (base : Nat → Prop)
    (n : Nat) (t : PageTables (Logged H)) : Prop where
  holds : Holds P M base none n t
  window : ∀ p, p < n →
    t.l1 (.proc p) (fixSlot P) = t.l1 .sys (fixSlot P)
  other : t.l1 .sys (fixSlot P) = 0
    ∨ (base (l2Block (t.l1 .sys (fixSlot P)))
      ∧ ∃ x, x < 256 ∧ x ≠ fixEntry P ∧ entry t .sys (fixSlot P) x ≠ 0)

/-- A change that leaves the slots and the words of the window. -/
theorem Settled.of_holds (h : Settled P M base n t)
    (hh : Holds P M base none n t')
    (hslots : ∀ g, t'.l1 g (fixSlot P) = t.l1 g (fixSlot P))
    (hwords : ∀ c x, base c → x < 256 → x ≠ fixEntry P →
      t'.l2 (c * 256 + x) = t.l2 (c * 256 + x)) :
    Settled P M base n t' where
  holds := hh
  window := by
    intro p hp
    rw [hslots, hslots]
    exact h.window p hp
  other := by
    rw [hslots]
    refine h.other.imp_right fun ⟨hb, x, hx, hxe, he⟩ => ?_
    refine ⟨hb, x, hx, hxe, ?_⟩
    rw [entry_congr (hslots _) (hwords _ x hb hx hxe)]
    exact he

-- ============================================================== create_mapping

/-- What pages mapped in the user area change. -/
structure PagesMapped (P : Platform) (M : Hardware H) (base : Nat → Prop)
    (n : Nat) (t t' : PageTables (Logged H)) : Prop where
  holds : Holds P M base none n t'
  slots : ∀ g, t'.l1 g (fixSlot P) = t.l1 g (fixSlot P)
  words : ∀ c x, base c → x < 256 →
    t'.l2 (c * 256 + x) = t.l2 (c * 256 + x)

/-- A turn of the loop of `create_mapping` that sets no section, on a user
slot. -/
theorem mapStep_holds {p lo hi : Nat} {nocache : Bool}
    {s : SectCursor (Logged H)} (h : Holds P M base none n s.t) (hp : p < n)
    (hi' : s.l1pte < P.userSlots) (hat : AtPiece lo hi s.l1pte s.addr)
    (hsect : ¬ Aligned s.addr (l1sectAddrEnd s.addr hi) s.phys)
    (hstep : MapStep M.logged (.proc p) hi nocache s t) :
    PagesMapped P M base n s.t t := by
  have hown : HeldSlot P n none (.proc p, s.l1pte) := heldSlot_user hp hi'
  have hbase : ∀ c, base c → M.heap.live s.t.heap.heap c :=
    fun c hc => (h.owns.live c).mpr (Or.inl hc)
  cases hstep with
  | sect hal => exact absurd hal hsect
  | @ptes t₁ _ hens =>
      -- the slot has a table of its own
      obtain ⟨hh, hne, hslots, hwords⟩ : Holds P M base none n t₁
          ∧ t₁.l1 (.proc p) s.l1pte ≠ 0
          ∧ (∀ g j, ¬ (g = .proc p ∧ j = s.l1pte) → t₁.l1 g j = s.t.l1 g j)
          ∧ ∀ c x, base c → x < 256 →
            t₁.l2 (c * 256 + x) = s.t.l2 (c * 256 + x) := by
        unfold ensureL2 at hens
        split at hens
        next h0 =>
          obtain ⟨hh, hne, hslots, -, hkeep⟩ := h.newL2 hown h0 hens
          exact ⟨hh, hne, hslots,
            fun c x hc hx => (hkeep c (hbase c hc)).2 x hx⟩
        next hne =>
          cases hens
          exact ⟨h, hne, fun _ _ _ => rfl, fun _ _ _ _ => rfl⟩
      refine ⟨hh.of_l1 rfl rfl, fun g => ?_, fun c x hc hx => ?_⟩
      · apply hslots g _
        intro hg
        exact (hi'.trans_le (userSlots_le_fixSlot P)).ne hg.2.symm
      · rw [← hwords c x hc hx]
        apply fillL2_out
        have hcb : c ≠ l2Block (t₁.l1 (.proc p) s.l1pte) :=
          fun he => hh.not_base hown hne (he ▸ hc)
        by_contra hin
        exact hcb (by
          rw [← hat.word_block (y := c * 256 + x) (by omega) (by omega)]
          omega)

/-- `create_mapping` of a page-sized range of the user area, which may
touch two pages. -/
theorem createMapping_settled {p virt phys : Nat} {nocache : Bool}
    (h : Settled P M base n t) (hp : p < n)
    (hle : virt + 4096 ≤ P.kernelVaddr)
    (hmap : createMapping M.logged t (some (.proc p)) virt phys 4096
      nocache = some t') : Settled P M base n t' := by
  have hkv := P.kernelVaddr_le
  have hkva := P.kernelVaddr_aligned
  obtain ⟨hlo4, hhi4, hlt, -, -, -⟩ :=
    pageEnd_bounds (by decide) (hle.trans hkv)
  have hshort : pageEnd virt 4096 ≤ pageStart virt + 8192 := by
    unfold pageEnd pageStart alignUp
    omega
  have huser : pageEnd virt 4096 ≤ P.kernelVaddr := by
    unfold pageEnd pageStart alignUp
    omega
  have hmapped : Ensures False (createMapping M.logged t (some (.proc p))
      virt phys 4096 nocache) fun t' => ∃ u, t' = invalSys (.proc p) u
        ∧ PagesMapped P M base n t u := by
    unfold createMapping
    refine Ensures.map ((pieces_ensures SectCursor.l1pte SectCursor.addr
      (I := fun s : SectCursor (Logged H) => PagesMapped P M base n t s.t)
      (huser.trans hkv) ?_ ⟨h.holds, fun _ => rfl, fun _ _ _ _ => rfl⟩
      (AtPiece.first hlt)).mono fun s hs => ⟨s.t, rfl, hs.1⟩)
    intro s hm hat
    refine (mapPiece_ensures hat hlo4 hhi4 False.elim).mono fun u hu => ?_
    obtain ⟨hstep, hslot, haddr, -⟩ := hu
    obtain ⟨-, hi', -, -, -⟩ := hat.bounds
    have hu : s.l1pte < P.userSlots := by
      unfold Platform.userSlots
      omega
    -- two pages are no section
    have hnot : ¬ Aligned s.addr (l1sectAddrEnd s.addr (pageEnd virt 4096))
        s.phys := by
      rintro ⟨haddr, hnext, -⟩
      obtain ⟨hfirst, hlast⟩ := hat.whole haddr hnext
      omega
    have hm' := mapStep_holds hm.holds hp hu hat hnot hstep
    refine ⟨⟨hm'.holds, fun g => (hm'.slots g).trans (hm.slots g),
      fun c x hc hx => ?_⟩, hslot, haddr⟩
    exact (hm'.words c x hc hx).trans (hm.words c x hc hx)
  obtain ⟨u, heq, hfinal⟩ := hmapped.1 t' hmap
  rw [heq]
  refine h.of_holds (hfinal.holds.of_l1 (invalSys_l1 _ _)
    (invalSys_heap _ _)) (fun g => ?_) fun c x hc hx _ => ?_
  · rw [invalSys_l1]
    exact hfinal.slots g
  · rw [invalSys_l2]
    exact hfinal.words c x hc hx

-- ======================================================================== fork

/-- The tables while the pages of `src` are copied to `dst`, after entry
`j` of slot `k - 1`. Entry `x₀` of slot `i₀` is a page of the parent. -/
structure Forking (P : Platform) (M : Hardware H) (base : Nat → Prop)
    (n : Nat) (opened : Option Nat) (t₀ t : PageTables (Logged H))
    (src dst i₀ x₀ k j : Nat) : Prop where
  holds : Holds P M base opened n t
  slots : ∀ g i, ¬ (g = .proc dst ∧ i < P.userSlots) →
    ¬ (opened = some src ∧ g = .proc src ∧ i = fixSlot P) →
    t.l1 g i = t₀.l1 g i
  /-- The child has no tables beyond the slots passed. -/
  rest : ∀ i, k ≤ i → i < P.userSlots → t.l1 (.proc dst) i = 0
  words : ∀ c x, base c → x < 256 → x ≠ fixEntry P →
    t.l2 (c * 256 + x) = t₀.l2 (c * 256 + x)
  page : t.l2 (l2Block (t₀.l1 (.proc src) i₀) * 256 + x₀) ≠ 0
  /-- The table of the window has no page but the window. -/
  clear : opened = some src → t.l1 (.proc src) (fixSlot P) ≠ 0 →
    ∀ x, x < 256 → x ≠ fixEntry P →
      entry t (.proc src) (fixSlot P) x = 0
  hit : Passed k j i₀ x₀ → t.l1 (.proc src) (fixSlot P) ≠ 0

/-- A fork from a process with a page to one without tables. The window
is opened in the table of the parent, or stands in the system table. -/
structure Fork (P : Platform) (M : Hardware H) (base : Nat → Prop)
    (n : Nat) (opened : Option Nat) (t₀ : PageTables (Logged H))
    (src dst i₀ x₀ : Nat) : Prop where
  src_lt : src < n
  dst_lt : dst < n
  ne : src ≠ dst
  slot_lt : i₀ < P.userSlots
  entry_lt : x₀ < 256
  slot : t₀.l1 (.proc src) i₀ ≠ 0
  window : (opened = some src ∧ t₀.l1 (.proc src) (fixSlot P) = 0)
    ∨ (opened = none ∧ t₀.l1 (.proc src) (fixSlot P) ≠ 0
      ∧ base (l2Block (t₀.l1 (.proc src) (fixSlot P))))

variable {t₀ : PageTables (Logged H)} {src dst i₀ x₀ k j : Nat}

/-- The slots of the parent stay. -/
theorem Forking.src_slot
    (h : Forking P M base n opened t₀ t src dst i₀ x₀ k j)
    (hf : Fork P M base n opened t₀ src dst i₀ x₀) {i : Nat}
    (hi : i < P.userSlots) : t.l1 (.proc src) i = t₀.l1 (.proc src) i := by
  refine h.slots _ i (fun hd => hf.ne (Pgtable.proc.inj hd.1)) fun hw => ?_
  exact (hi.trans_le (userSlots_le_fixSlot P)).ne hw.2.2

/-- The table of the page of the parent, and that of the window. -/
theorem Forking.blocks
    (h : Forking P M base n opened t₀ t src dst i₀ x₀ k j)
    (hf : Fork P M base n opened t₀ src dst i₀ x₀) :
    ¬ base (l2Block (t₀.l1 (.proc src) i₀))
      ∧ M.heap.live t.heap.heap (l2Block (t₀.l1 (.proc src) i₀))
      ∧ (t.l1 (.proc src) (fixSlot P) ≠ 0 →
        l2Block (t.l1 (.proc src) (fixSlot P))
          ≠ l2Block (t₀.l1 (.proc src) i₀)) := by
  have hsame := h.src_slot hf hf.slot_lt
  have hown : HeldSlot P n opened (.proc src, i₀) :=
    heldSlot_user hf.src_lt hf.slot_lt
  have hne : t.l1 (.proc src) i₀ ≠ 0 := hsame ▸ hf.slot
  rw [← hsame]
  refine ⟨h.holds.not_base hown hne, h.holds.live hown hne, fun hw => ?_⟩
  rcases hf.window with ⟨rfl, -⟩ | ⟨ho, -, hb⟩
  · exact h.holds.block_ne (heldSlot_window hf.src_lt) hown hw hne fun he =>
      (hf.slot_lt.trans_le (userSlots_le_fixSlot P)).ne he.2.symm
  · have hfix : t.l1 (.proc src) (fixSlot P)
        = t₀.l1 (.proc src) (fixSlot P) := by
      refine h.slots _ _ (fun hd => hf.ne (Pgtable.proc.inj hd.1)) fun hw' => ?_
      rw [ho] at hw'
      cases hw'.1
    rw [hfix]
    exact fun he => h.holds.not_base hown hne (he ▸ hb)

/-- A word is written that is not one of the page of the parent; in the
tables of `base` and of the window only the word of the window. -/
theorem Forking.setL2
    (h : Forking P M base n opened t₀ t src dst i₀ x₀ k j)
    (hf : Fork P M base n opened t₀ src dst i₀ x₀) {c y : Nat} (w : Nat)
    (hy : y < 256) (hbase : base c → y = fixEntry P)
    (hpage : c ≠ l2Block (t₀.l1 (.proc src) i₀))
    (hclear : opened = some src → t.l1 (.proc src) (fixSlot P) ≠ 0 →
      c = l2Block (t.l1 (.proc src) (fixSlot P)) → y = fixEntry P) :
    Forking P M base n opened t₀ (t.setL2 (c * 256 + y) w) src dst i₀ x₀ k
      j where
  holds := h.holds.of_l1 rfl rfl
  slots := h.slots
  rest := h.rest
  words := by
    intro b x hb hx hxe
    rw [setL2_other _ _ fun he => ?_]
    · exact h.words b x hb hx hxe
    · have hbc : b = c ∧ x = y := by omega
      exact hxe (hbc.2.trans (hbase (hbc.1 ▸ hb)))
  page := by
    have hx₀ := hf.entry_lt
    rw [setL2_other _ _ (by omega)]
    exact h.page
  clear := by
    intro ho hne x hx hxe
    rw [entry_setL2_other w hy hx fun hb hxy =>
      hxe (hxy.trans (hclear ho hne hb.symm))]
    exact h.clear ho hne x hx hxe
  hit := h.hit

/-- The window is opened on a new frame. -/
theorem Forking.openWindow
    (h : Forking P M base n opened t₀ t src dst i₀ x₀ k j)
    (hf : Fork P M base n opened t₀ src dst i₀ x₀) {f : Nat}
    (hmap : createMapping M.logged t (some (.proc src)) P.fixmapMapping
      (f * 4096) 4096 false = some t') :
    Forking P M base n opened t₀ t' src dst i₀ x₀ k j
      ∧ t'.l1 (.proc src) (fixSlot P) ≠ 0
      ∧ ∀ i, t'.l1 (.proc dst) i = t.l1 (.proc dst) i := by
  rw [createMapping_page M.logged t _ P.fixmapMapping_aligned] at hmap
  obtain ⟨t₁, hens, rfl⟩ := Option.map_eq_some_iff.mp hmap
  have hdst : ∀ i, ¬ (Pgtable.proc dst = .proc src ∧ i = fixSlot P) :=
    fun i hw => hf.ne (Pgtable.proc.inj hw.1).symm
  obtain ⟨hnb, hlive, -⟩ := h.blocks hf
  -- the table of the window
  obtain ⟨h₁, hne, hsame⟩ :
      Forking P M base n opened t₀ t₁ src dst i₀ x₀ k j
        ∧ t₁.l1 (.proc src) (fixSlot P) ≠ 0
        ∧ ∀ i, t₁.l1 (.proc dst) i = t.l1 (.proc dst) i := by
    unfold ensureL2 at hens
    split at hens
    next h0 =>
      have h0' : t.l1 (.proc src) (fixSlot P) = 0 := h0
      rcases hf.window with ⟨rfl, -⟩ | ⟨ho, hw, -⟩
      · obtain ⟨hh, hne, hslots, hzero, hkeep⟩ :=
          h.holds.newL2 (heldSlot_window hf.src_lt) h0' hens
        refine ⟨⟨hh, fun g i hd hw => ?_, fun i hk hi => ?_,
          fun c x hc hx hxe => ?_, ?_, fun _ _ x hx _ => hzero x hx,
          fun _ => hne⟩, hne, fun i => hslots _ i (hdst i)⟩
        · rw [hslots g i fun he => hw ⟨rfl, he⟩]
          exact h.slots g i hd hw
        · rw [hslots _ i (hdst i)]
          exact h.rest i hk hi
        · rw [(hkeep c ((h.holds.owns.live c).mpr (Or.inl hc))).2 x hx]
          exact h.words c x hc hx hxe
        · rw [(hkeep _ hlive).2 x₀ hf.entry_lt]
          exact h.page
      · have hfix : t.l1 (.proc src) (fixSlot P)
            = t₀.l1 (.proc src) (fixSlot P) := by
          refine h.slots _ _ (fun hd => hf.ne (Pgtable.proc.inj hd.1))
            fun hw' => ?_
          rw [ho] at hw'
          cases hw'.1
        exact absurd (hfix ▸ h0') hw
    next hne =>
      cases hens
      exact ⟨h, hne, fun _ => rfl⟩
  have hset := h₁.setL2 hf (c := l2Block (t₁.l1 (.proc src) (fixSlot P)))
    (y := fixEntry P)
    (f * 4096 % addrSpace + M.logged.attrs.small false) (fixEntry_lt P)
    (fun _ => rfl) ((h₁.blocks hf).2.2 hne) fun _ _ _ => rfl
  have hinval : ∀ u : PageTables (Logged H), invalSys (.proc src) u = u :=
    fun u => if_neg Pgtable.noConfusion
  rw [hinval]
  exact ⟨hset, hne, hsame⟩

/-- The body of the inner loop. -/
theorem Forking.copyEntry {B : Board P H F} {m m' : Machine (Logged H) F}
    (h : Forking P B.hw base n opened t₀ m.tables src dst i₀ x₀ (k + 1) j)
    (hf : Fork P B.hw base n opened t₀ src dst i₀ x₀)
    (hk : k < P.userSlots) (hj : j < 256)
    (hne : m.tables.l1 (.proc dst) k ≠ 0)
    (hcopy : Kernel.copyEntry B.logged (.proc src) dst k
      (l2pteFirst (t₀.l1 (.proc src) k))
      (l2pteFirst (m.tables.l1 (.proc dst) k)) j m = some m') :
    Forking P B.hw base n opened t₀ m'.tables src dst i₀ x₀ (k + 1) (j + 1)
      ∧ m'.tables.l1 (.proc dst) k = m.tables.l1 (.proc dst) k := by
  have hpassed : Passed (k + 1) (j + 1) i₀ x₀ →
      Passed (k + 1) j i₀ x₀ ∨ (i₀ = k ∧ x₀ = j) := by
    unfold Passed
    omega
  unfold Kernel.copyEntry at hcopy
  split at hcopy
  next he =>
    obtain ⟨⟨f, fr⟩, -, hcopy⟩ := Option.bind_eq_some_iff.mp hcopy
    obtain ⟨t₁, hmap, hcopy⟩ := Option.bind_eq_some_iff.mp hcopy
    obtain ⟨d, -, hcopy⟩ := Option.bind_eq_some_iff.mp hcopy
    obtain ⟨s, -, rfl⟩ := Option.map_eq_some_iff.mp hcopy
    obtain ⟨h₁, hw, hsame⟩ := h.openWindow hf hmap
    have hown : HeldSlot P n opened (.proc dst, k) :=
      heldSlot_user hf.dst_lt hk
    have hne₁ : t₁.l1 (.proc dst) k ≠ 0 := (hsame k).symm ▸ hne
    have hnb := h₁.holds.not_base hown hne₁
    have hpage : l2Block (t₁.l1 (.proc dst) k)
        ≠ l2Block (t₀.l1 (.proc src) i₀) := by
      rw [← h₁.src_slot hf hf.slot_lt]
      refine h₁.holds.block_ne hown (heldSlot_user hf.src_lt hf.slot_lt)
        hne₁ ?_ fun hd => hf.ne (Pgtable.proc.inj hd.1).symm
      rw [h₁.src_slot hf hf.slot_lt]
      exact hf.slot
    have hput := h₁.setL2 hf (c := l2Block (t₁.l1 (.proc dst) k)) (y := j)
      (f * 4096 % addrSpace + B.hw.attrs.small false) hj
      (fun hb => absurd hb hnb) hpage fun ho hw' hb => by
        subst ho
        exact absurd hb (h₁.holds.block_ne hown
          (heldSlot_window hf.src_lt) hne₁ hw'
          fun hd => hf.ne (Pgtable.proc.inj hd.1).symm)
    rw [← hsame k]
    exact ⟨⟨hput.holds, hput.slots, hput.rest, hput.words, hput.page,
      hput.clear, fun _ => hw⟩, rfl⟩
  next he =>
    cases hcopy
    refine ⟨⟨h.holds, h.slots, h.rest, h.words, h.page, h.clear,
      fun hp => ?_⟩, rfl⟩
    rcases hpassed hp with hp | ⟨rfl, rfl⟩
    · exact h.hit hp
    · exact absurd h.page he

/-- The outer loop gives the child an L2 table. -/
theorem Forking.newL2
    (h : Forking P M base n opened t₀ t src dst i₀ x₀ k 256)
    (hf : Fork P M base n opened t₀ src dst i₀ x₀) (hk : k < P.userSlots)
    (hnew : Mmu.newL2 M.logged t (.proc dst) k false = some t') :
    Forking P M base n opened t₀ t' src dst i₀ x₀ (k + 1) 0
      ∧ t'.l1 (.proc dst) k ≠ 0 := by
  have hown : HeldSlot P n opened (.proc dst, k) :=
    heldSlot_user hf.dst_lt hk
  obtain ⟨hh, hne, hslots, -, hkeep⟩ :=
    h.holds.newL2 hown (h.rest k (Nat.le_refl k) hk) hnew
  have hwin : t'.l1 (.proc src) (fixSlot P)
      = t.l1 (.proc src) (fixSlot P) :=
    hslots _ _ fun he => hf.ne (Pgtable.proc.inj he.1)
  obtain ⟨-, hlive, -⟩ := h.blocks hf
  refine ⟨⟨hh, fun g i hd hw => ?_, fun i hki hi => ?_,
    fun c x hc hx hxe => ?_, ?_, fun ho hwne x hx hxe => ?_,
    fun hp => ?_⟩, hne⟩
  · rw [hslots g i fun he => hd ⟨he.1, he.2 ▸ hk⟩]
    exact h.slots g i hd hw
  · rw [hslots _ i fun he => by omega]
    exact h.rest i (by omega) hi
  · rw [(hkeep c ((h.holds.owns.live c).mpr (Or.inl hc))).2 x hx]
    exact h.words c x hc hx hxe
  · rw [(hkeep _ hlive).2 x₀ hf.entry_lt]
    exact h.page
  · rw [hwin] at hwne
    subst ho
    have hwlive := h.holds.live (heldSlot_window hf.src_lt) hwne
    rw [entry_congr hwin ((hkeep _ hwlive).2 x hx)]
    exact h.clear rfl hwne x hx hxe
  · rw [hwin]
    apply h.hit
    have hx₀ := hf.entry_lt
    unfold Passed at hp ⊢
    omega

/-- The body of the outer loop. -/
theorem Forking.copySlot {B : Board P H F} {m m' : Machine (Logged H) F}
    (h : Forking P B.hw base n opened t₀ m.tables src dst i₀ x₀ k 256)
    (hf : Fork P B.hw base n opened t₀ src dst i₀ x₀)
    (hk : k < P.userSlots)
    (hcopy : Kernel.copySlot B.logged (.proc src) src dst k m
      = some m') :
    Forking P B.hw base n opened t₀ m'.tables src dst i₀ x₀ (k + 1)
      256 := by
  unfold Kernel.copySlot at hcopy
  dsimp only at hcopy
  rw [h.src_slot hf hk] at hcopy
  split at hcopy
  next hne =>
    split at hcopy
    next => cases hcopy
    next =>
      obtain ⟨t₁, hnew, hcopy⟩ := Option.bind_eq_some_iff.mp hcopy
      obtain ⟨h₁, hne₁⟩ := h.newL2 hf hk hnew
      have hloop : Ensures False
          (forRange 256
            (Kernel.copyEntry B.logged (.proc src) dst k
              (l2pteFirst (t₀.l1 (.proc src) k))
              (l2pteFirst (t₁.l1 (.proc dst) k)))
            { m with tables := t₁ })
          fun u : Machine (Logged H) F =>
            Forking P B.hw base n opened t₀ u.tables src dst i₀ x₀ (k + 1) 256
              ∧ u.tables.l1 (.proc dst) k = t₁.l1 (.proc dst) k :=
        Ensures.forRange
          (I := fun j (u : Machine (Logged H) F) =>
            Forking P B.hw base n opened t₀ u.tables src dst i₀ x₀ (k + 1) j
              ∧ u.tables.l1 (.proc dst) k = t₁.l1 (.proc dst) k)
          ⟨h₁, rfl⟩ fun j u hj hu => by
            refine ⟨fun u' hu' => ?_, False.elim⟩
            rw [← hu.2] at hu'
            obtain ⟨hfork, hsame⟩ :=
              hu.1.copyEntry hf hk hj (hu.2 ▸ hne₁) hu'
            exact ⟨hfork, hsame.trans hu.2⟩
      exact (hloop.1 m' hcopy).1
  next h0 =>
    cases hcopy
    refine ⟨h.holds, h.slots, fun i hki hi => h.rest i (by omega) hi,
      h.words, h.page, h.clear, fun hp => h.hit ?_⟩
    have hx₀ := hf.entry_lt
    have hi₀ : i₀ ≠ k := by
      intro heq
      subst heq
      exact h0 hf.slot
    unfold Passed at hp ⊢
    omega

/-- Closing the window. Its own table goes with it, a table of the system
stays. -/
theorem Forking.close {B : Board P H F} {m : Machine (Logged H) F}
    (h : Forking P B.hw base n opened t₀ m.tables src dst i₀ x₀ P.userSlots
      256) (hf : Fork P B.hw base n opened t₀ src dst i₀ x₀)
    (hs : Settled P B.hw base n t₀) :
    Settled P B.hw base n (closed B.logged m src).tables := by
  have hw : m.tables.l1 (.proc src) (fixSlot P) ≠ 0 := by
    apply h.hit
    have hi₀ := hf.slot_lt
    have hx₀ := hf.entry_lt
    unfold Passed
    omega
  have hfixu := userSlots_le_fixSlot P
  have hcleared := h.setL2 hf
    (c := l2Block (m.tables.l1 (.proc src) (fixSlot P))) (y := fixEntry P) 0
    (fixEntry_lt P) (fun _ => rfl) ((h.blocks hf).2.2 hw) fun _ _ _ => rfl
  have hsrc := hs.window src hf.src_lt
  unfold closed
  dsimp only
  generalize hu : m.tables.setL2 (l2Block (m.tables.l1 (.proc src)
    (fixSlot P)) * 256 + fixEntry P) 0 = u at hcleared
  have hul1 : u.l1 = m.tables.l1 := by
    rw [← hu, setL2_l1]
  have huw : u.l1 (.proc src) (fixSlot P) ≠ 0 := hul1.symm ▸ hw
  rcases hf.window with ⟨rfl, h0⟩ | ⟨rfl, hne, hb⟩
  · have hempty := freeIfEmpty_of_empty (M := B.hw.logged) (t := u)
      (g := .proc src) (i := fixSlot P) fun x hx => by
        by_cases hxe : x = fixEntry P
        · rw [hxe, hul1, ← hu]
          exact setL2_self _ _ _
        · exact hcleared.clear rfl huw x hx hxe
    have hfree := hcleared.holds.free (heldSlot_window hf.src_lt) huw
    have hsys : ∀ g, g ≠ .proc src → u.l1 g (fixSlot P)
        = t₀.l1 g (fixSlot P) := fun g hg =>
      hcleared.slots g _ (fun hd => by omega) fun he => hg he.2.1
    show Settled P B.hw base n
      (freeIfEmpty B.hw.logged u (.proc src) (fixSlot P))
    rw [hempty]
    refine ⟨hfree.closeWindow (setL1_self _ _ _ _), fun p hp => ?_,
      Or.inl ?_⟩
    · rw [setL1_other _ _ fun (he : Pgtable.sys = .proc src ∧ _) =>
        Pgtable.noConfusion he.1]
      by_cases hps : p = src
      · rw [hps, setL1_self]
        show 0 = u.l1 .sys (fixSlot P)
        rw [hsys .sys Pgtable.noConfusion, ← hsrc, h0]
      · have hg : Pgtable.proc p ≠ .proc src :=
          fun he => hps (Pgtable.proc.inj he)
        rw [setL1_other _ _ fun he => hg he.1]
        show u.l1 (.proc p) (fixSlot P) = u.l1 .sys (fixSlot P)
        rw [hsys _ hg, hsys .sys Pgtable.noConfusion]
        exact hs.window p hp
    · rw [setL1_other _ _ fun (he : Pgtable.sys = .proc src ∧ _) =>
        Pgtable.noConfusion he.1]
      show u.l1 .sys (fixSlot P) = 0
      rw [hsys .sys Pgtable.noConfusion, ← hsrc, h0]
  · have hslots : ∀ g, u.l1 g (fixSlot P) = t₀.l1 g (fixSlot P) :=
      fun g => hcleared.slots g _ (fun hd => by omega) fun he => by
        cases he.1
    have hsettled := hs.of_holds hcleared.holds hslots hcleared.words
    obtain ⟨-, x, hx, hxe, he⟩ :=
      hs.other.resolve_left fun hz => hne (hsrc.trans hz)
    have hstay := freeIfEmpty_of_word (M := B.hw.logged) (t := u)
      (g := .proc src) (i := fixSlot P) hx (by
        rw [hslots, l2pteFirst, hcleared.words _ x hb hx hxe]
        rw [entry, ← hsrc] at he
        exact he)
    show Settled P B.hw base n
      (freeIfEmpty B.hw.logged u (.proc src) (fixSlot P))
    rw [hstay]
    exact hsettled

/-- `duplicate_user_space` into a table without user slots, from one with
a page at `pc`. -/
theorem duplicateUserSpace_settled {B : Board P H F}
    {m m' : Machine (Logged H) F} {pc : Nat}
    (hs : Settled P B.hw base n m.tables) (hsrc : src < n) (hdst : dst < n)
    (hpc : pc < P.kernelVaddr) (hpage : walk m.tables (.proc src) pc ≠ none)
    (hempty : ∀ i, i < P.userSlots → m.tables.l1 (.proc dst) i = 0)
    (h : duplicateUserSpace B.logged (.proc src) m src dst = some m') :
    Settled P B.hw base n m'.tables := by
  have hi₀ := slot_lt_userSlots hpc
  have hx₀ : pc / 4096 % 256 < 256 := Nat.mod_lt _ (by decide)
  have hslot : m.tables.l1 (.proc src) (l1pteIndex pc) ≠ 0 :=
    fun h0 => hpage (walk_of_empty h0)
  have hne : src ≠ dst := by
    intro heq
    subst heq
    exact hslot (hempty _ hi₀)
  have hentry : entry m.tables (.proc src) (l1pteIndex pc)
      (pc / 4096 % 256) ≠ 0 := by
    intro he
    apply hpage
    rw [walk_of_entry (hs.holds.table _ _ (heldSlot_user hsrc hi₀) hslot),
      he, l2Walk_zero]
  have hwin := hs.window src hsrc
  -- the window belongs to the parent, or to the system table
  obtain ⟨o, hf, hh⟩ : ∃ o, Fork P B.hw base n o m.tables src dst
      (l1pteIndex pc) (pc / 4096 % 256) ∧ Holds P B.hw base o n m.tables
      ∧ (o = some src → m.tables.l1 (.proc src) (fixSlot P) = 0) := by
    rcases hs.other with h0 | ⟨hb, x, hx, hxe, he⟩
    · have h0' := hwin.trans h0
      exact ⟨some src, ⟨hsrc, hdst, hne, hi₀, hx₀, hslot, Or.inl ⟨rfl, h0'⟩⟩,
        hs.holds.openWindow h0', fun _ => h0'⟩
    · by_cases h0 : m.tables.l1 (.proc src) (fixSlot P) = 0
      · exact ⟨some src, ⟨hsrc, hdst, hne, hi₀, hx₀, hslot,
          Or.inl ⟨rfl, h0⟩⟩, hs.holds.openWindow h0, fun _ => h0⟩
      · refine ⟨none, ⟨hsrc, hdst, hne, hi₀, hx₀, hslot,
          Or.inr ⟨rfl, h0, ?_⟩⟩, hs.holds, fun ho => nomatch ho⟩
        rw [hwin]
        exact hb
  rw [duplicateUserSpace_eq] at h
  obtain ⟨m₁, hloops, rfl⟩ := Option.map_eq_some_iff.mp h
  have hstart : Forking P B.hw base n o m.tables m.tables src dst
      (l1pteIndex pc) (pc / 4096 % 256) 0 256 := by
    refine ⟨hh.1, fun _ _ _ _ => rfl, fun i _ hi => hempty i hi,
      fun _ _ _ _ _ => rfl, hentry, fun ho hw => absurd (hh.2 ho) hw,
      fun hp => ?_⟩
    unfold Passed at hp
    omega
  have hend : Ensures False _ fun u : Machine (Logged H) F =>
      Forking P B.hw base n o m.tables u.tables src dst (l1pteIndex pc)
        (pc / 4096 % 256) P.userSlots 256 :=
    Ensures.forRange
      (I := fun k u => Forking P B.hw base n o m.tables u.tables src dst
        (l1pteIndex pc) (pc / 4096 % 256) k 256)
      hstart
      fun k u hk hu => ⟨fun u' hu' => hu.copySlot hf hk hu', False.elim⟩
  exact (hend.1 m₁ hloops).close hf hs

-- ========================================================== reset_root_pgtable

/-- The tables of a process, in the order of its slots. -/
def ownTables (P : Platform) (n : Nat) (t : PageTables H) (p k : Nat) :
    List Nat :=
  (List.range k).filterMap fun i =>
    tableRef (HeldSlot P n none) t (.proc p, i)

theorem ownTables_succ (t : PageTables H) (p k : Nat) :
    ownTables P n t p (k + 1) = ownTables P n t p k
      ++ (tableRef (HeldSlot P n none) t (.proc p, k)).toList := by
  unfold ownTables
  rw [List.range_succ, List.filterMap_append]
  congr 1

theorem mem_ownTables {t : PageTables H} {p b : Nat} :
    b ∈ ownTables P n t p P.userSlots ↔ ∃ i, i < P.userSlots
      ∧ tableRef (HeldSlot P n none) t (.proc p, i) = some b := by
  simp [ownTables]

/-- A process has each of its tables once. -/
theorem Holds.ownTables_nodup (h : Holds P M base none n t) (p k : Nat) :
    (ownTables P n t p k).Nodup := by
  refine List.Nodup.filterMap (fun i j b hi hj => ?_) List.nodup_range
  exact (Prod.mk.inj (h.owns.single _ _ b hi hj)).2

/-- The loop of `reset_root_pgtable` frees the tables of the slots it
passes, and nothing else. -/
theorem resetLoop_holds {p : Nat} (h : Holds P M base none n t)
    (hp : p < n) {k : Nat} (hk : k ≤ P.userSlots) {u : PageTables (Logged H)}
    (hu : (List.range k).foldl (resetSlot M.logged (.proc p)) t = u) :
    Holds P M base none n u
      ∧ (∀ g i, ¬ (g = .proc p ∧ i < k) → u.l1 g i = t.l1 g i)
      ∧ u.l2 = t.l2
      ∧ u.heap.log
        = t.heap.log ++ (ownTables P n t p k).map Event.free := by
  induction k generalizing u with
  | zero =>
      cases hu
      exact ⟨h, fun _ _ _ => rfl, rfl, (List.append_nil _).symm⟩
  | succ k ih =>
      rw [List.range_succ, List.foldl_append, List.foldl_cons,
        List.foldl_nil] at hu
      obtain ⟨hh, hslots, hl2, hlog⟩ := ih (by omega) rfl
      generalize (List.range k).foldl (resetSlot M.logged (.proc p)) t = v
        at hu hh hslots hl2 hlog
      have hw : v.l1 (.proc p) k = t.l1 (.proc p) k :=
        hslots _ k fun he => Nat.lt_irrefl k he.2
      have hown : HeldSlot P n none (.proc p, k) := heldSlot_user hp hk
      rw [ownTables_succ]
      by_cases h0 : t.l1 (.proc p) k = 0
      · rw [resetSlot, hw] at hu
        dsimp only at hu
        rw [if_neg (not_not_intro h0)] at hu
        rw [← hu, tableRef_eq_none h0]
        refine ⟨hh, fun g i hg => hslots g i fun he => hg ⟨he.1, by omega⟩,
          hl2, ?_⟩
        rw [hlog, Option.toList_none, List.append_nil]
      · have hv0 : v.l1 (.proc p) k ≠ 0 := hw.symm ▸ h0
        have hsect : ¬ l1pteIsSect (v.l1 (.proc p) k) :=
          not_isSect_of_isTable (hh.table _ k hown hv0)
        rw [resetSlot] at hu
        dsimp only at hu
        rw [if_pos hv0, if_pos hsect] at hu
        rw [← hu, tableRef_eq_some.mpr ⟨hown, h0, rfl⟩]
        refine ⟨hh.free hown hv0, fun g i hg => ?_, hl2, ?_⟩
        · rw [setL1_other _ _ fun he => hg ⟨he.1, by omega⟩]
          exact hslots g i fun he => hg ⟨he.1, by omega⟩
        · show v.heap.log ++ [Event.free (l2Block (v.l1 (.proc p) k))] = _
          rw [hlog, hw, Option.toList_some, List.map_append,
            List.append_assoc]
          rfl

theorem resetRootPgtable_settled {p : Nat} (h : Settled P M base n t)
    (hp : p < n) :
    Settled P M base n
        (resetRootPgtable M.logged t (.proc p) P.userSlots)
      ∧ (resetRootPgtable M.logged t (.proc p) P.userSlots).heap.log
        = t.heap.log
          ++ (ownTables P n t p P.userSlots).map Event.free := by
  obtain ⟨hh, hslots, hl2, hlog⟩ :=
    resetLoop_holds h.holds hp (Nat.le_refl _) rfl
  refine ⟨h.of_holds hh (fun g => ?_) fun c x _ _ _ => ?_, hlog⟩
  · exact hslots g _ fun he =>
      Nat.not_lt.mpr (userSlots_le_fixSlot P) he.2
  · exact congrFun hl2 _

-- ================================================================== new tables

/-- A new process has no tables. -/
theorem newTable_settled (h : Settled P M base n t) :
    Settled P M base (n + 1) (newTable P t (.proc n)) := by
  have hsys : ∀ i, (newTable P t (.proc n)).l1 .sys i = t.l1 .sys i :=
    newTable_other Pgtable.noConfusion
  have hcases : ∀ {g i}, HeldSlot P (n + 1) none (g, i) →
      (newTable P t (.proc n)).l1 g i ≠ 0 → HeldSlot P n none (g, i)
        ∧ (newTable P t (.proc n)).l1 g i = t.l1 g i := by
    intro g i hown hne
    cases g with
    | sys => exact absurd hown id
    | proc p =>
        have hi := hown.2.resolve_right fun hw => nomatch hw.1
        by_cases hpn : p = n
        · rw [hpn, newTable_user hi] at hne
          exact absurd rfl hne
        · have hlt : p < n := by
            have := hown.1
            omega
          exact ⟨heldSlot_user hlt hi,
            newTable_other (fun he => hpn (Pgtable.proc.inj he)) i⟩
  have hold : ∀ {g i}, HeldSlot P n none (g, i) →
      HeldSlot P (n + 1) none (g, i)
        ∧ (newTable P t (.proc n)).l1 g i = t.l1 g i := by
    intro g i hown
    cases g with
    | sys => exact absurd hown id
    | proc p =>
        have hp := hown.1
        have hne : Pgtable.proc p ≠ .proc n := by
          intro he
          have := Pgtable.proc.inj he
          omega
        exact ⟨⟨by omega, hown.2⟩, newTable_other hne i⟩
  constructor
  case holds =>
    refine ⟨h.holds.owns.congr fun a => ?_, fun g i hown hne => ?_⟩
    · obtain ⟨g, i⟩ := a
      by_cases hown : HeldSlot P n none (g, i)
      · obtain ⟨hown', heq⟩ := hold hown
        simp only [tableRef, heq, hown, hown']
      · have hnew : ¬ (HeldSlot P (n + 1) none (g, i)
            ∧ (newTable P t (.proc n)).l1 g i ≠ 0) :=
          fun hn => hown (hcases hn.1 hn.2).1
        have hnone : ¬ (HeldSlot P n none (g, i) ∧ t.l1 g i ≠ 0) :=
          fun hn => hown hn.1
        exact (if_neg hnew).trans (if_neg hnone).symm
    · obtain ⟨hown', heq⟩ := hcases hown hne
      rw [heq] at hne ⊢
      exact h.holds.table g i hown' hne
  case window =>
    intro p hp
    rw [hsys]
    by_cases hpn : p = n
    · rw [hpn]
      exact newTable_kernel n (userSlots_le_fixSlot P) (fixSlot_lt P)
    · rw [newTable_other fun he => hpn (Pgtable.proc.inj he)]
      exact h.window p (by omega)
  case other =>
    rw [hsys]
    refine h.other.imp_right fun ⟨hb, x, hx, hxe, he⟩ => ?_
    refine ⟨hb, x, hx, hxe, ?_⟩
    rw [entry_congr (hsys _) rfl]
    exact he

-- ==================================================================== the runs

/-- The machine and the number of tables of processes. -/
structure TableState (H F : Type*) where
  mach : Machine H F
  n : Nat

/-- The calls that get and free L2 tables of the user area. `pc` is where
the process that forks is running. -/
inductive TableCall
  | newRootPgtable
  | allocatePage (p virtAddr nrPages : Nat)
  | duplicateUserSpace (src dst pc : Nat)
  | resetRootPgtable (p : Nat) (remove : Bool)

/-- One call. -/
def tableCall (B : Board P H F) (s : TableState H F) :
    TableCall → Option (TableState H F)
  | .newRootPgtable =>
      (call B s.mach (.newRootPgtable s.n)).map fun m => ⟨m, s.n + 1⟩
  | .allocatePage p virtAddr nrPages =>
      if p < s.n ∧ virtAddr + nrPages * 4096 ≤ P.kernelVaddr then
        (call B s.mach (.allocatePage p virtAddr nrPages)).map
          fun m => { s with mach := m }
      else none
  | .duplicateUserSpace src dst pc =>
      if src < s.n ∧ dst < s.n
          ∧ (pc < P.kernelVaddr
            ∧ (walk s.mach.tables (.proc src) pc).isSome)
          ∧ ∀ i, i < P.userSlots → s.mach.tables.l1 (.proc dst) i = 0 then
        (call B s.mach (.duplicateUserSpace src dst)).map
          fun m => { s with mach := m }
      else none
  | .resetRootPgtable p remove =>
      if p < s.n then
        (call B s.mach (.resetRootPgtable p remove)).map
          fun m => { s with mach := m }
      else none

/-- No process yet, and a log without entries. -/
def TableState.boot (m : Machine H F) : TableState (Logged H) F where
  mach :=
    { tables :=
        { l1 := m.tables.l1
          l2 := m.tables.l2
          heap := ⟨m.tables.heap, []⟩
          tlb := m.tables.tlb }
      frames := m.frames
      page := m.page }
  n := 0

/-- User slot `i` of process `p` refers to the L2 table in block `b`. -/
def Refers (P : Platform) (s : TableState H F) (p i b : Nat) : Prop :=
  (p < s.n ∧ i < P.userSlots)
    ∧ l1pteIsTable (s.mach.tables.l1 (.proc p) i)
    ∧ l2Block (s.mach.tables.l1 (.proc p) i) = b

/-- Block `b` was obtained from `memalign` and not freed since. -/
def Obtained (s : TableState (Logged H) F) (b : Nat) : Prop :=
  history b s.mach.tables.heap.log = some true

theorem Settled.refers_iff {s : TableState (Logged H) F}
    (h : Settled P M base s.n s.mach.tables) {p i b : Nat} :
    Refers P s p i b ↔
      tableRef (HeldSlot P s.n none) s.mach.tables (.proc p, i)
        = some b := by
  rw [tableRef_eq_some]
  constructor
  · intro h
    obtain ⟨⟨hp, hi⟩, ht, hb⟩ := h
    refine ⟨heldSlot_user hp hi, fun h0 => ?_, hb⟩
    dsimp only at h0
    rw [h0] at ht
    cases ht
  · intro h
    obtain ⟨hown, hne, hb⟩ := h
    have hi := hown.2.resolve_right fun hw => nomatch hw.1
    exact ⟨⟨hown.1, hi⟩, h.holds.table _ i hown hne, hb⟩

/-- At boot no process has a table. -/
theorem boot_settled {B : Board P H F} {m : Machine H F}
    (hboot : BootTables B m.tables) :
    Settled P B.hw (B.hw.heap.live m.tables.heap) 0
      (TableState.boot m).mach.tables := by
  have hnone : ∀ a, ¬ HeldSlot P 0 none a := by
    intro a hown
    obtain ⟨g, i⟩ := a
    cases g with
    | sys => exact hown
    | proc p => exact Nat.not_lt_zero p hown.1
  refine ⟨⟨Owns.boot B.hw.heap m.tables.heap fun a => ?_,
    fun g i hown => absurd hown (hnone _)⟩,
    fun p hp => absurd hp (Nat.not_lt_zero p), ?_⟩
  · exact if_neg fun hn => hnone a hn.1
  · refine hboot.window.imp_right fun ⟨ht, hx⟩ => ?_
    exact ⟨hboot.wf.live (fixSlot_lt P) ht, hx⟩

theorem tableCall_settled {B : Board P H F} {s s' : TableState (Logged H) F}
    {c : TableCall} (h : Settled P B.hw base s.n s.mach.tables)
    (hc : tableCall B.logged s c = some s') :
    Settled P B.hw base s'.n s'.mach.tables := by
  cases c with
  | newRootPgtable =>
      cases hc
      exact newTable_settled h
  | allocatePage p virtAddr nrPages =>
      simp only [tableCall] at hc
      split at hc
      next hg =>
        obtain ⟨m, hm, rfl⟩ := Option.map_eq_some_iff.mp hc
        have hkv := P.kernelVaddr_le
        have hm' : allocatePage B.logged s.mach p virtAddr nrPages
            = some m := hm
        refine forRange_inv
          (I := fun u : Machine (Logged H) F =>
            Settled P B.hw base s.n u.tables) h
          (fun i u u' hi hu hbody => ?_) hm'
        obtain ⟨⟨f, fr⟩, -, hbody⟩ := Option.bind_eq_some_iff.mp hbody
        obtain ⟨t₁, hmap, rfl⟩ := Option.map_eq_some_iff.mp hbody
        refine createMapping_settled hu hg.1 ?_ hmap
        have hmod : (virtAddr + i * 4096) % addrSpace
            ≤ virtAddr + i * 4096 := Nat.mod_le _ _
        omega
      next => cases hc
  | duplicateUserSpace src dst pc =>
      simp only [tableCall] at hc
      split at hc
      next hg =>
        obtain ⟨m, hm, rfl⟩ := Option.map_eq_some_iff.mp hc
        obtain ⟨hsrc, hdst, ⟨hpc, hpage⟩, hempty⟩ := hg
        refine duplicateUserSpace_settled h hsrc hdst hpc ?_ hempty hm
        exact Option.isSome_iff_ne_none.mp hpage
      next => cases hc
  | resetRootPgtable p remove =>
      simp only [tableCall] at hc
      split at hc
      next hp =>
        cases hc
        exact (resetRootPgtable_settled h hp).1
      next => cases hc

/-- In every run of new tables, page allocations, forks and resets, an L2
table that was obtained and not freed is referred to by one user slot of
one process, no table is freed twice, and a reset frees the tables of its
process, each of them once, and no other one. -/
theorem l2_table_ownership (B : Board P H F) (m : Machine H F)
    (cs : List TableCall) (s : TableState (Logged H) F)
    (hboot : BootTables B m.tables)
    (hrun : run (tableCall B.logged) (TableState.boot m) cs = some s) :
    (∀ b, Obtained s b → ∃ p i, Refers P s p i b
      ∧ ∀ q j, Refers P s q j b → q = p ∧ j = i)
    ∧ (∀ b p i, Refers P s p i b → Obtained s b)
    ∧ (∀ b, history b s.mach.tables.heap.log ≠ none)
    ∧ ∀ p remove s',
      tableCall B.logged s (.resetRootPgtable p remove) = some s' →
      ∃ frees : List Nat,
        s'.mach.tables.heap.log
          = s.mach.tables.heap.log ++ frees.map Event.free
        ∧ frees.Nodup
        ∧ (∀ b, b ∈ frees ↔ ∃ i, Refers P s p i b)
        ∧ ∀ b, b ∈ frees → ∀ q j, Refers P s q j b → q = p := by
  have hs : Settled P B.hw (B.hw.heap.live m.tables.heap) s.n
      s.mach.tables := by
    refine run_inv (I := fun s : TableState (Logged H) F =>
      Settled P B.hw (B.hw.heap.live m.tables.heap) s.n s.mach.tables) ?_
      (boot_settled hboot) hrun
    exact fun _ _ _ h hc => tableCall_settled h hc
  have hsingle : ∀ {b p i q j}, Refers P s p i b → Refers P s q j b →
      q = p ∧ j = i := by
    intro b p i q j hp hq
    have hsame := hs.holds.owns.single _ _ b (hs.refers_iff.mp hq)
      (hs.refers_iff.mp hp)
    exact ⟨Pgtable.proc.inj (Prod.mk.inj hsame).1, (Prod.mk.inj hsame).2⟩
  refine ⟨fun b hb => ?_, fun b p i hr => ?_, fun b => ?_,
    fun p remove s' hreset => ?_⟩
  · obtain ⟨⟨g, i⟩, hi, -⟩ := hs.holds.owns.exists_unique hb
    cases g with
    | sys => exact absurd (tableRef_eq_some.mp hi).1 id
    | proc p =>
        have hr := hs.refers_iff.mpr hi
        exact ⟨p, i, hr, fun q j hq => hsingle hr hq⟩
  · exact hs.holds.owns.held _ b (hs.refers_iff.mp hr)
  · exact hs.holds.owns.history_ne_none b
  · simp only [tableCall] at hreset
    split at hreset
    next hp =>
      cases hreset
      have hmem : ∀ b, b ∈ ownTables P s.n s.mach.tables p P.userSlots
          ↔ ∃ i, Refers P s p i b := by
        intro b
        rw [mem_ownTables]
        constructor
        · intro h
          obtain ⟨i, -, hi⟩ := h
          exact ⟨i, hs.refers_iff.mpr hi⟩
        · intro h
          obtain ⟨i, hi⟩ := h
          exact ⟨i, hi.1.2, hs.refers_iff.mp hi⟩
      refine ⟨ownTables P s.n s.mach.tables p P.userSlots,
        (resetRootPgtable_settled hs hp).2,
        hs.holds.ownTables_nodup p _, hmem, fun b hb q j hq => ?_⟩
      obtain ⟨i, hi⟩ := (hmem b).mp hb
      exact (hsingle hi hq).1
    next => cases hreset

set_option maxRecDepth 4096 in
/-- A page that crosses a megabyte boundary, a fork, and a reset of the
parent. -/
theorem l2_table_ownership_fork :
    ∃ s, run (tableCall Board.small.logged)
        (TableState.boot State.small.mach)
        [.newRootPgtable, .allocatePage 0 0xFF800 1, .newRootPgtable,
          .duplicateUserSpace 0 1 0xFF800, .resetRootPgtable 0 false]
          = some s
      ∧ Refers .small s 1 1 5
      ∧ ∀ q j, Refers .small s q j 5 → q = 1 ∧ j = 1 := by
  have hret : ∃ s, run (tableCall Board.small.logged)
        (TableState.boot State.small.mach)
        [.newRootPgtable, .allocatePage 0 0xFF800 1, .newRootPgtable,
          .duplicateUserSpace 0 1 0xFF800, .resetRootPgtable 0 false]
          = some s
      ∧ s.n = 2 ∧ s.mach.tables.l1 (.proc 1) 1 = 5 * 1024 + 1 :=
    ⟨_, rfl, rfl, rfl⟩
  obtain ⟨s, hs, hn, hword⟩ := hret
  have hr : Refers .small s 1 1 5 := by
    refine ⟨⟨by omega, by decide⟩, ?_⟩
    rw [hword]
    exact ⟨by decide, by decide⟩
  obtain ⟨hone, hout, -⟩ := l2_table_ownership Board.small State.small.mach
    _ s bootTables_small hs
  obtain ⟨p, i, -, huniq⟩ := hone 5 (hout 5 1 1 hr)
  refine ⟨s, hs, hr, fun q j hq => ?_⟩
  obtain ⟨hp, hi⟩ := huniq 1 1 hr
  obtain ⟨hqp, hji⟩ := huniq q j hq
  exact ⟨hqp.trans hp.symm, hji.trans hi.symm⟩

end SyeLabs.Kernel
