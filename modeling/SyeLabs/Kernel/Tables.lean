/-
The page tables of all processes at once: who owns which L2 table.

`Sound t n` is the invariant of the system table and the tables of `n`
processes. The kernel slots of a process are copies of those of the
system table, so the L2 tables behind them are shared on purpose; the
slots that own their L2 table are the kernel slots of the system table
and the user slots of the processes (`OwnSlot`), and no two of those
share one.

Whatever the kernel does to the tables, it does to the user area of one
process. `UserChange t t' p` says so, and it is all that the other
processes need to know: the tables stay sound (`UserChange.sound`) and
nobody else sees a difference (`UserChange.walk`).
-/
import SyeLabs.Kernel.Duplicate

namespace SyeLabs.Kernel

open Lib Mmu

variable {P : Platform} {H F : Type*}

-- ================================================================ sound tables

/-- The slots that own the L2 table they refer to. -/
def OwnSlot (P : Platform) (n : Nat) : Pgtable → Nat → Prop
  | .sys, i => P.userSlots ≤ i ∧ i < 4096
  | .proc p, i => p < n ∧ i < P.userSlots

theorem ownSlot_window (P : Platform) (n : Nat) :
    OwnSlot P n .sys (fixSlot P) :=
  ⟨userSlots_le_fixSlot P, fixSlot_lt P⟩

theorem ownSlot_user {p n i : Nat} (hp : p < n) (hi : i < P.userSlots) :
    OwnSlot P n (.proc p) i :=
  ⟨hp, hi⟩

/-- The tables of the first `n` processes. -/
structure Sound (B : Board P H F) (t : PageTables H) (n : Nat) : Prop where
  slot : ∀ g i, OwnSlot P n g i → SlotOk B.hw t (t.l1 g i)
  owned : ∀ g i g' i', OwnSlot P n g i → OwnSlot P n g' i' →
    ¬ (g = g' ∧ i = i') → l1pteIsTable (t.l1 g i) →
    l1pteIsTable (t.l1 g' i') → l2Block (t.l1 g i) ≠ l2Block (t.l1 g' i')
  kernel : ∀ p i, p < n → P.userSlots ≤ i → i < 4096 →
    t.l1 (.proc p) i = t.l1 .sys i
  /-- The slot of the copy window is empty, or its L2 table is never
  emptied by closing the window. -/
  window : t.l1 .sys (fixSlot P) = 0
    ∨ (l1pteIsTable (t.l1 .sys (fixSlot P))
      ∧ ∃ x, x < 256 ∧ x ≠ fixEntry P ∧ entry t .sys (fixSlot P) x ≠ 0)
  small : ∀ p i x, p < n → i < P.userSlots → x < 256 →
    l1pteIsTable (t.l1 (.proc p) i) → entry t (.proc p) i x ≠ 0 →
    2 ≤ entry t (.proc p) i x % 4

variable {B : Board P H F} {t t' : PageTables H} {n p : Nat}

theorem SlotOk.live {M : Hardware H} {w : Nat} (h : SlotOk M t w)
    (ht : l1pteIsTable w) : M.heap.live t.heap (l2Block w) := by
  rcases h with h0 | hs | ⟨-, hl⟩
  · rw [h0] at ht
    cases ht
  · exact absurd hs (not_isSect_of_isTable ht)
  · exact hl

theorem Sound.live (h : Sound B t n) {g : Pgtable} {i : Nat}
    (hi : OwnSlot P n g i) (ht : l1pteIsTable (t.l1 g i)) :
    B.hw.heap.live t.heap (l2Block (t.l1 g i)) :=
  SlotOk.live (h.slot g i hi) ht

/-- Each slot of a process is one of its own or a copy of one of the
system table. -/
theorem Sound.slot_cases (h : Sound B t n) (hp : p < n) {i : Nat}
    (hi : i < 4096) :
    ∃ g, OwnSlot P n g i ∧ t.l1 (.proc p) i = t.l1 g i := by
  by_cases hu : i < P.userSlots
  · exact ⟨.proc p, ⟨hp, hu⟩, rfl⟩
  · have hk : P.userSlots ≤ i := Nat.le_of_not_lt hu
    exact ⟨.sys, ⟨hk, hi⟩, h.kernel p i hp hk hi⟩

/-- The table of one process is well formed. -/
theorem Sound.wellFormed (h : Sound B t n) (hp : p < n) :
    WellFormed B.hw t (.proc p) where
  slot := by
    intro i hi
    obtain ⟨g, hown, heq⟩ := h.slot_cases hp hi
    rw [heq]
    exact h.slot g i hown
  owned := by
    intro i j hi hj hij hti htj
    obtain ⟨g, hown, heq⟩ := h.slot_cases hp hi
    obtain ⟨g', hown', heq'⟩ := h.slot_cases hp hj
    rw [heq] at hti ⊢
    rw [heq'] at htj ⊢
    exact h.owned g i g' j hown hown' (fun he => hij he.2) hti htj

-- ======================================================= changes to user areas

/-- The word of the copy window. -/
def IsWindow (P : Platform) (t : PageTables H) (b x : Nat) : Prop :=
  t.l1 .sys (fixSlot P) ≠ 0 ∧ b = l2Block (t.l1 .sys (fixSlot P))
    ∧ x = fixEntry P

/-- From `t` to `t'` the user area of process `p` changed, its new L2
tables were free before, and nothing else changed but the word of the
window. -/
structure UserChange (B : Board P H F) (t t' : PageTables H) (p : Nat) :
    Prop where
  slots : ∀ g i, ¬ (g = .proc p ∧ i < P.userSlots) →
    t'.l1 g i = t.l1 g i
  keep : ∀ b, B.hw.heap.live t.heap b →
    (∀ i, i < P.userSlots → l1pteIsTable (t.l1 (.proc p) i) →
      l2Block (t.l1 (.proc p) i) ≠ b) →
    B.hw.heap.live t'.heap b
      ∧ ∀ x, x < 256 → ¬ IsWindow P t b x →
        t'.l2 (b * 256 + x) = t.l2 (b * 256 + x)
  slot : ∀ i, i < P.userSlots → SlotOk B.hw t' (t'.l1 (.proc p) i)
  fresh : ∀ i, i < P.userSlots → l1pteIsTable (t'.l1 (.proc p) i) →
    t'.l1 (.proc p) i = t.l1 (.proc p) i
      ∨ ¬ B.hw.heap.live t.heap (l2Block (t'.l1 (.proc p) i))
  owned : ∀ i j, i < P.userSlots → j < P.userSlots → i ≠ j →
    l1pteIsTable (t'.l1 (.proc p) i) → l1pteIsTable (t'.l1 (.proc p) j) →
    l2Block (t'.l1 (.proc p) i) ≠ l2Block (t'.l1 (.proc p) j)
  small : ∀ i x, i < P.userSlots → x < 256 →
    l1pteIsTable (t'.l1 (.proc p) i) → entry t' (.proc p) i x ≠ 0 →
    2 ≤ entry t' (.proc p) i x % 4

/-- An own slot of somebody else keeps its L2 table. -/
theorem UserChange.other (h : UserChange B t t' p) (hs : Sound B t n)
    (hp : p < n) {g : Pgtable} {i : Nat} (hown : OwnSlot P n g i)
    (hg : ¬ (g = .proc p ∧ i < P.userSlots)) (ht : l1pteIsTable (t.l1 g i)) :
    B.hw.heap.live t'.heap (l2Block (t.l1 g i))
      ∧ ∀ x, x < 256 → ¬ IsWindow P t (l2Block (t.l1 g i)) x →
        entry t' g i x = entry t g i x := by
  obtain ⟨hlive, hwords⟩ := h.keep _ (hs.live hown ht) fun j hj htj =>
    hs.owned _ _ _ _ (ownSlot_user hp hj) hown
      (fun he => hg ⟨he.1.symm, he.2 ▸ hj⟩) htj ht
  exact ⟨hlive, fun x hx hw => entry_congr (h.slots g i hg) (hwords x hx hw)⟩

/-- The window lies in none of the user areas. -/
theorem Sound.not_isWindow (hs : Sound B t n) (hp : p < n) {i : Nat}
    (hi : i < P.userSlots) (ht : l1pteIsTable (t.l1 (.proc p) i)) (x : Nat) :
    ¬ IsWindow P t (l2Block (t.l1 (.proc p) i)) x := by
  intro h
  obtain ⟨hne, hb, -⟩ := h
  rcases hs.window with h0 | ⟨hw, -⟩
  · exact hne h0
  · exact hs.owned (.proc p) i .sys _ ⟨hp, hi⟩ (ownSlot_window P n)
      (fun he => Pgtable.noConfusion he.1) ht hw hb

/-- The other processes see no change. -/
theorem UserChange.walk (h : UserChange B t t' p) (hs : Sound B t n)
    (hp : p < n) {q v : Nat} (hq : q < n) (hne : q ≠ p)
    (hv : v < P.kernelVaddr) :
    walk t' (.proc q) v = walk t (.proc q) v := by
  have hi := slot_lt_userSlots hv
  have hg : ¬ (Pgtable.proc q = .proc p ∧ l1pteIndex v < P.userSlots) :=
    fun he => hne (Pgtable.proc.inj he.1)
  apply walk_congr (h.slots _ _ hg)
  intro ht
  have hentry := (h.other hs hp (ownSlot_user hq hi) hg ht).2 (v / 4096 % 256)
    (Nat.mod_lt _ (by decide)) (hs.not_isWindow hq hi ht _)
  rw [entry, h.slots _ _ hg] at hentry
  exact hentry

/-- A change to one user area keeps the tables sound. -/
theorem UserChange.sound (h : UserChange B t t' p) (hs : Sound B t n)
    (hp : p < n) : Sound B t' n where
  slot := by
    intro g i hown
    by_cases hg : g = .proc p ∧ i < P.userSlots
    · obtain ⟨rfl, hi⟩ := hg
      exact h.slot i hi
    · rw [h.slots g i hg]
      rcases hs.slot g i hown with h0 | hsect | ⟨ht, -⟩
      · exact Or.inl h0
      · exact Or.inr (Or.inl hsect)
      · exact Or.inr (Or.inr ⟨ht, (h.other hs hp hown hg ht).1⟩)
  owned := by
    -- a changed slot against one of somebody else
    have hmixed : ∀ i g' i', i < P.userSlots → OwnSlot P n g' i' →
        ¬ (g' = .proc p ∧ i' < P.userSlots) →
        l1pteIsTable (t'.l1 (.proc p) i) → l1pteIsTable (t.l1 g' i') →
        l2Block (t'.l1 (.proc p) i) ≠ l2Block (t.l1 g' i') := by
      intro i g' i' hi hown' hg' ht ht'
      rcases h.fresh i hi ht with hsame | hnew
      · rw [hsame] at ht ⊢
        exact hs.owned _ i g' i' ⟨hp, hi⟩ hown'
          (fun he => hg' ⟨he.1.symm, he.2 ▸ hi⟩) ht ht'
      · exact fun he => hnew (he ▸ hs.live hown' ht')
    intro g i g' i' hown hown' hne ht ht'
    by_cases hg : g = .proc p ∧ i < P.userSlots
    · obtain ⟨rfl, hi⟩ := hg
      by_cases hg' : g' = .proc p ∧ i' < P.userSlots
      · obtain ⟨rfl, hi'⟩ := hg'
        exact h.owned i i' hi hi' (fun he => hne ⟨rfl, he⟩) ht ht'
      · rw [h.slots g' i' hg'] at ht' ⊢
        exact hmixed i g' i' hi hown' hg' ht ht'
    · rw [h.slots g i hg] at ht ⊢
      by_cases hg' : g' = .proc p ∧ i' < P.userSlots
      · obtain ⟨rfl, hi'⟩ := hg'
        exact (hmixed i' g i hi' hown hg ht' ht).symm
      · rw [h.slots g' i' hg'] at ht' ⊢
        exact hs.owned g i g' i' hown hown' hne ht ht'
  kernel := by
    intro q i hq hi hi4
    have hu : ∀ {g : Pgtable}, ¬ (g = .proc p ∧ i < P.userSlots) :=
      fun he => Nat.not_lt.mpr hi he.2
    rw [h.slots _ i hu, h.slots _ i hu]
    exact hs.kernel q i hq hi hi4
  window := by
    have hu : ¬ (Pgtable.sys = .proc p ∧ fixSlot P < P.userSlots) :=
      fun he => Pgtable.noConfusion he.1
    rw [h.slots _ _ hu]
    rcases hs.window with h0 | ⟨ht, x, hx, hne, he⟩
    · exact Or.inl h0
    · refine Or.inr ⟨ht, x, hx, hne, ?_⟩
      rw [(h.other hs hp (ownSlot_window P n) hu ht).2 x hx
        fun hw => hne hw.2.2]
      exact he
  small := by
    intro q i x hq hi hx ht he
    by_cases hqp : q = p
    · subst hqp
      exact h.small i x hi hx ht he
    · have hg : ¬ (Pgtable.proc q = .proc p ∧ i < P.userSlots) :=
        fun h' => hqp (Pgtable.proc.inj h'.1)
      rw [h.slots _ i hg] at ht
      rw [(h.other hs hp (ownSlot_user hq hi) hg ht).2 x hx
        (hs.not_isWindow hq hi ht x)] at he ⊢
      exact hs.small q i x hq hi hx ht he

-- ========================================================== what makes changes

/-- `create_mapping` on a range of the user area. -/
theorem remapped_userChange {lo hi base : Nat} (hs : Sound B t n)
    (hp : p < n) (hm : Remapped B.hw t t' (.proc p) lo hi base)
    (hlt : lo < hi) (hhi : hi ≤ P.kernelVaddr) : UserChange B t t' p := by
  have hlast : (hi - 1) / 1048576 < P.userSlots :=
    slot_lt_userSlots (by omega)
  have hu4 : ∀ {i}, i < P.userSlots → i < 4096 :=
    fun hi => hi.trans_le (userSlots_le P)
  constructor
  case slots =>
    intro g i hg
    by_cases hgp : g = .proc p
    · have hi : P.userSlots ≤ i :=
        Nat.le_of_not_lt fun hi => hg ⟨hgp, hi⟩
      exact hm.slots g i (Or.inr (Or.inr (hlast.trans_le hi)))
    · exact hm.slots g i (Or.inl hgp)
  case keep =>
    intro b hb hne
    refine ⟨hm.live b hb, fun x hx _ => hm.tables b hb ?_ x hx⟩
    exact fun j _ hj => hne j (hj.trans_lt hlast)
  case slot => exact fun i hi => hm.wf.slot i (hu4 hi)
  case fresh => exact fun i _ => hm.fresh i
  case owned => exact fun i j hi hj => hm.wf.owned i j (hu4 hi) (hu4 hj)
  case small =>
    intro i x hi hx ht he
    rcases hm.entries i x (hu4 hi) hx ht with ⟨hl1, hsame⟩ | h0 | hsmall
    · rw [hl1] at ht
      rw [hsame] at he ⊢
      exact hs.small p i x hp hi hx ht he
    · exact absurd h0 he
    · exact hsmall

/-- `reset_root_pgtable`. -/
theorem reset_userChange (hm : Reset B.hw t t' (.proc p) P.userSlots) :
    UserChange B t t' p := by
  have hempty : ∀ {i}, i < P.userSlots →
      ¬ l1pteIsTable (t'.l1 (.proc p) i) := by
    intro i hi ht
    rw [hm.empty i hi] at ht
    cases ht
  constructor
  case slots => exact hm.slots
  case keep =>
    intro b hb hne
    exact ⟨(hm.live b).mpr ⟨hb, hne⟩, fun x _ _ => by rw [hm.l2]⟩
  case slot => exact fun i hi => Or.inl (hm.empty i hi)
  case fresh => exact fun i hi ht => absurd ht (hempty hi)
  case owned => exact fun i _ hi _ _ ht => absurd ht (hempty hi)
  case small => exact fun i _ hi _ ht => absurd ht (hempty hi)

theorem reset_of_sound (hs : Sound B t n) (hp : p < n) :
    Reset B.hw t (resetRootPgtable B.hw t (.proc p) P.userSlots) (.proc p)
      P.userSlots := by
  refine resetRootPgtable_reset (fun i hi => ?_) fun i j hi hj hij => ?_
  · exact hs.slot _ i (ownSlot_user hp hi)
  · exact hs.owned _ i _ j (ownSlot_user hp hi) (ownSlot_user hp hj)
      fun he => hij he.2

/-- The table of a new process. -/
def newTable (P : Platform) (t : PageTables H) (g : Pgtable) :
    PageTables H :=
  pgtableCopyKernelArea P (newRootPgtable t g) g

theorem newTable_other {g g' : Pgtable} (hg : g' ≠ g) (i : Nat) :
    (newTable P t g).l1 g' i = t.l1 g' i := by
  simp [newTable, pgtableCopyKernelArea, newRootPgtable, hg]

theorem newTable_user {g : Pgtable} {i : Nat} (hi : i < P.userSlots) :
    (newTable P t g).l1 g i = 0 := by
  have hk : ¬ (P.userSlots ≤ i ∧ i < 4096) := by omega
  simp only [newTable, pgtableCopyKernelArea, newRootPgtable,
    Function.update_self, if_neg hk]

theorem newTable_kernel {i : Nat} (p : Nat) (hi : P.userSlots ≤ i)
    (hi4 : i < 4096) :
    (newTable P t (.proc p)).l1 (.proc p) i = t.l1 .sys i := by
  have hsys : Pgtable.sys ≠ .proc p := Pgtable.noConfusion
  have hk : P.userSlots ≤ i ∧ i < 4096 := ⟨hi, hi4⟩
  simp only [newTable, pgtableCopyKernelArea, newRootPgtable,
    Function.update_self, if_pos hk, Function.update_of_ne hsys]

/-- One more process. -/
theorem Sound.newTable (hs : Sound B t n) :
    Sound B (newTable P t (.proc n)) (n + 1) := by
  have hcases : ∀ g i, OwnSlot P (n + 1) g i →
      (Kernel.newTable P t (.proc n)).l1 g i = 0
        ∨ (OwnSlot P n g i
          ∧ (Kernel.newTable P t (.proc n)).l1 g i = t.l1 g i) := by
    intro g i hown
    cases g with
    | sys => exact Or.inr ⟨hown, newTable_other Pgtable.noConfusion i⟩
    | proc p =>
        obtain ⟨hp, hi⟩ := hown
        by_cases hpn : p = n
        · exact Or.inl (hpn ▸ newTable_user hi)
        · exact Or.inr ⟨ownSlot_user (by omega) hi,
            newTable_other (fun he => hpn (Pgtable.proc.inj he)) i⟩
  have hzero : ∀ {w : Nat}, w = 0 → ¬ l1pteIsTable w := by
    intro w heq ht
    subst heq
    cases ht
  constructor
  case slot =>
    intro g i hown
    rcases hcases g i hown with h0 | ⟨hold, heq⟩
    · exact Or.inl h0
    · rw [heq]
      exact hs.slot g i hold
  case owned =>
    intro g i g' i' hown hown' hne ht ht'
    rcases hcases g i hown with h0 | ⟨hold, heq⟩
    · exact absurd ht (hzero h0)
    · rcases hcases g' i' hown' with h0 | ⟨hold', heq'⟩
      · exact absurd ht' (hzero h0)
      · rw [heq] at ht ⊢
        rw [heq'] at ht' ⊢
        exact hs.owned g i g' i' hold hold' hne ht ht'
  case kernel =>
    intro p i hp hi hi4
    have hsys : (Kernel.newTable P t (.proc n)).l1 .sys i = t.l1 .sys i :=
      newTable_other Pgtable.noConfusion i
    rw [hsys]
    by_cases hpn : p = n
    · subst hpn
      exact newTable_kernel p hi hi4
    · rw [newTable_other fun he => hpn (Pgtable.proc.inj he)]
      exact hs.kernel p i (by omega) hi hi4
  case window =>
    rw [newTable_other Pgtable.noConfusion]
    refine hs.window.imp_right fun ⟨ht, x, hx, hne, he⟩ => ?_
    refine ⟨ht, x, hx, hne, ?_⟩
    rw [entry_congr (newTable_other Pgtable.noConfusion _) rfl]
    exact he
  case small =>
    intro p i x hp hi hx ht he
    rcases hcases _ i (ownSlot_user hp hi) with h0 | ⟨hold, heq⟩
    · exact absurd ht (hzero h0)
    · rw [heq] at ht
      rw [entry_congr heq rfl] at he ⊢
      exact hs.small p i x hold.1 hi hx ht he

/-- Nobody else sees it. -/
theorem newTable_walk {q : Nat} (hq : q ≠ n) (v : Nat) :
    walk (newTable P t (.proc n)) (.proc q) v = walk t (.proc q) v :=
  walk_congr (newTable_other (fun he => hq (Pgtable.proc.inj he)) _)
    fun _ => rfl

-- ======================================================================== fork

/-- Copying a page writes no slot of a user area: the window is in the
kernel area. -/
theorem copyEntry_l1 {m m' : Machine H F} {cur g : Pgtable}
    {dst i x y j k : Nat}
    (hk : k < P.userSlots)
    (h : copyEntry B cur dst i x y j m = some m') :
    m'.tables.l1 g k = m.tables.l1 g k := by
  unfold copyEntry at h
  split at h
  · obtain ⟨⟨f, fr⟩, -, h⟩ := Option.bind_eq_some_iff.mp h
    obtain ⟨t, hmap, h⟩ := Option.bind_eq_some_iff.mp h
    obtain ⟨d, -, h⟩ := Option.bind_eq_some_iff.mp h
    obtain ⟨s, -, rfl⟩ := Option.map_eq_some_iff.mp h
    have pm := createMapping_pageMapped P.fixmapMapping_aligned hmap
    apply pm.slots g k
    intro hw
    exact (hk.trans_le (userSlots_le_fixSlot P)).ne hw.2
  · cases h
    rfl

/-- Copying a slot writes that slot of the child, to an L2 table. -/
theorem copySlot_l1 {m m' : Machine H F} {cur g : Pgtable}
    {src dst i k : Nat}
    (hk : k < P.userSlots)
    (h : copySlot B cur src dst i m = some m') :
    m'.tables.l1 g k = m.tables.l1 g k
      ∨ (g = .proc dst ∧ l1pteIsTable (m'.tables.l1 g k)) := by
  unfold copySlot at h
  dsimp only at h
  split at h
  · split at h
    next => cases h
    next =>
      obtain ⟨t, hnew, h⟩ := Option.bind_eq_some_iff.mp h
      obtain ⟨b, -, hword, hslots, -⟩ := newL2_eq hnew
      have hloop : m'.tables.l1 g k = t.l1 g k :=
        forRange_inv (I := fun m₁ => m₁.tables.l1 g k = t.l1 g k) rfl
          (fun j m₁ m₂ _ hm₁ hbody => (copyEntry_l1 hk hbody).trans hm₁) h
      by_cases hw : g = .proc dst ∧ k = i
      · obtain ⟨rfl, rfl⟩ := hw
        refine Or.inr ⟨rfl, ?_⟩
        rw [hloop, hword]
        exact l1Word_isTable _ _ _
      · exact Or.inl (hloop.trans (hslots g k hw))
  next =>
    cases h
    exact Or.inl rfl

/-- A section of the parent stops it, and the parent keeps its slots. -/
theorem copySlot_src {m m' : Machine H F} {src dst i : Nat}
    (hne : src ≠ dst)
    (h : copySlot B (.proc src) src dst i m = some m') :
    ¬ l1pteIsSect (m.tables.l1 (.proc src) i)
      ∧ ∀ k, k < P.userSlots →
        m'.tables.l1 (.proc src) k = m.tables.l1 (.proc src) k := by
  refine ⟨fun hs => ?_, fun k hk => (copySlot_l1 hk h).resolve_right
    fun hw => hne (Pgtable.proc.inj hw.1)⟩
  have hw : m.tables.l1 (.proc src) i ≠ 0 := by
    intro h0
    rw [h0] at hs
    cases hs
  unfold copySlot at h
  dsimp only at h
  rw [if_pos hw, if_pos hs] at h
  cases h

/-- A parent with a section is not copied. -/
theorem copyLoops_no_section {m : Machine H F} {src dst : Nat}
    (hne : src ≠ dst) : ∀ {k : Nat} {m' : Machine H F},
    forRange k (copySlot B (.proc src) src dst) m = some m' →
    k ≤ P.userSlots →
    (∀ i, i < P.userSlots →
      m'.tables.l1 (.proc src) i = m.tables.l1 (.proc src) i)
    ∧ ∀ i, i < k → ¬ l1pteIsSect (m.tables.l1 (.proc src) i) := by
  intro k
  induction k with
  | zero =>
      intro m' h _
      cases h
      exact ⟨fun _ _ => rfl, nofun⟩
  | succ k ih =>
      intro m' h hk
      rw [forRange_succ] at h
      obtain ⟨m₁, hm₁, hbody⟩ := Option.bind_eq_some_iff.mp h
      obtain ⟨hslots, hsect⟩ := ih hm₁ (by omega)
      obtain ⟨hs, hslots'⟩ := copySlot_src hne hbody
      refine ⟨fun i hi => (hslots' i hi).trans (hslots i hi),
        fun i hi => ?_⟩
      by_cases hik : i = k
      · rw [hik, ← hslots k (by omega)]
        exact hs
      · exact hsect i (by omega)

/-- After the window was closed its slot is what it was, and so is the
rest of the L2 tables in use. -/
theorem Copying.closed_window {m₀ m : Machine H F} {src dst : Nat}
    (h : Copying B m₀ m src dst P.userSlots 256)
    (hf : Forkable B m₀ src dst)
    (hpages : ∃ i x, i < P.userSlots ∧ x < 256
      ∧ m₀.tables.l1 (.proc src) i ≠ 0
      ∧ entry m₀.tables (.proc src) i x ≠ 0)
    (hwindow : m₀.tables.l1 (.proc src) (fixSlot P) ≠ 0 →
      ∃ x, x < 256 ∧ x ≠ fixEntry P
        ∧ entry m₀.tables (.proc src) (fixSlot P) x ≠ 0) :
    (Kernel.closed B m src).tables.l1 (.proc src) (fixSlot P)
      = m₀.tables.l1 (.proc src) (fixSlot P)
    ∧ (∀ b, B.hw.heap.live m.tables.heap b →
      (m₀.tables.l1 (.proc src) (fixSlot P) = 0 →
        b ≠ l2Block (m.tables.l1 (.proc src) (fixSlot P))) →
      B.hw.heap.live (Kernel.closed B m src).tables.heap b)
    ∧ m.tables.l1 (.proc src) (fixSlot P) ≠ 0 := by
  have hx' := fixEntry_lt P
  by_cases h0 : m₀.tables.l1 (.proc src) (fixSlot P) = 0
  · -- the window was opened, so it has an L2 table of its own
    have hw : m.tables.l1 (.proc src) (fixSlot P) ≠ 0 := by
      intro hw
      obtain ⟨i, x, hi, hx, hne, he⟩ := hpages
      rcases h.child.entries i x hi hx hne with ⟨-, hp⟩ | ⟨-, f, hword, -⟩
      · refine he (hp ?_)
        unfold Passed
        omega
      · rw [h.child.opened hw i x hi hx hne] at hword
        exact smallWord_ne_zero B.hw f false hword.symm
    obtain ⟨ht, hl, hnl, hz⟩ := h.window.new h0 hw
    have hempty := freeIfEmpty_of_empty (M := B.hw)
      (t := m.tables.setL2
        (l2Block (m.tables.l1 (.proc src) (fixSlot P)) * 256 + fixEntry P)
        0) (g := .proc src) (i := fixSlot P) fun x hx => by
      by_cases hxe : x = fixEntry P
      · subst hxe
        exact entry_setL2_self (g := .proc src) (i := fixSlot P) 0 rfl
      · exact (entry_setL2_other (g := .proc src) (i := fixSlot P) 0 hx' hx
          fun _ => hxe).trans (hz x hx hxe)
    refine ⟨?_, fun b hb hne => ?_, hw⟩
    · rw [Kernel.closed, hempty, setL1_self, h0]
    · rw [Kernel.closed, hempty]
      exact (B.hw.heap.free_live hl b).mpr ⟨hne h0, hb⟩
  · -- the L2 table of the window holds another page
    have hw := h.window.kept h0
    obtain ⟨x, hx, hxe, he⟩ := hwindow h0
    have hold : entry m.tables (.proc src) (fixSlot P) x
        = entry m₀.tables (.proc src) (fixSlot P) x :=
      entry_congr hw (h.untouched.l2 _ x hx
        (hf.wf.live (fixSlot_lt P) (hf.window h0)) fun hne => hxe hne.2.2)
    have hstay := freeIfEmpty_of_word (M := B.hw)
      (t := m.tables.setL2
        (l2Block (m.tables.l1 (.proc src) (fixSlot P)) * 256 + fixEntry P)
        0) (g := .proc src) (i := fixSlot P) hx (by
      refine ne_of_eq_of_ne ?_ (hold ▸ he)
      exact entry_setL2_other (g := .proc src) (i := fixSlot P) 0 hx' hx
        fun _ => hxe)
    refine ⟨?_, fun b hb _ => ?_, hw ▸ h0⟩
    · rw [Kernel.closed, hstay]
      exact hw
    · rw [Kernel.closed, hstay]
      exact hb

/-- `duplicate_user_space` changes the user area of the child. -/
theorem Copying.userChange {m₀ m : Machine H F} {src dst : Nat}
    (h : Copying B m₀ m src dst P.userSlots 256)
    (hf : Forkable B m₀ src dst) (hs : Sound B m₀.tables n)
    (hsrc : src < n)
    (hpages : ∃ i x, i < P.userSlots ∧ x < 256
      ∧ m₀.tables.l1 (.proc src) i ≠ 0
      ∧ entry m₀.tables (.proc src) i x ≠ 0) :
    UserChange B m₀.tables (Kernel.closed B m src).tables dst := by
  have hfix : m₀.tables.l1 (.proc src) (fixSlot P)
      = m₀.tables.l1 .sys (fixSlot P) :=
    hs.kernel src _ hsrc (userSlots_le_fixSlot P) (fixSlot_lt P)
  obtain ⟨hslot, hlive, hopen⟩ := h.closed_window hf hpages fun hne => by
    rcases hs.window with h0 | ⟨-, x, hx, hxe, he⟩
    · exact absurd (hfix.trans h0) hne
    · refine ⟨x, hx, hxe, ?_⟩
      rw [entry, hfix]
      exact he
  have hd := h.closed hf
  have hc := h.child
  have hdst : ∀ i, ¬ (Pgtable.proc dst = .proc src ∧ i = fixSlot P) :=
    fun i hw => hf.ne (Pgtable.proc.inj hw.1).symm
  have hl1 : ∀ i, (Kernel.closed B m src).tables.l1 (.proc dst) i
      = m.tables.l1 (.proc dst) i :=
    fun i => closed_l1 m (hdst i)
  -- a slot of the child with a table was copied
  have hne : ∀ {i}, i < P.userSlots →
      l1pteIsTable ((Kernel.closed B m src).tables.l1 (.proc dst) i) →
      m₀.tables.l1 (.proc src) i ≠ 0 := by
    intro i hi ht h0
    rw [hd.empty i hi h0] at ht
    cases ht
  constructor
  case slots =>
    intro g i hg
    by_cases hw : g = .proc src ∧ i = fixSlot P
    · rw [hw.1, hw.2]
      exact hslot
    · rw [closed_l1 m hw]
      exact h.untouched.l1 g i hw hg
  case keep =>
    intro b hb _
    refine ⟨hlive b (h.untouched.heap b hb) fun h0 he => ?_,
      fun x hx hw => ?_⟩
    · exact (h.window.new h0 hopen).2.2.1 (he ▸ hb)
    · have hw' : ¬ (m₀.tables.l1 (.proc src) (fixSlot P) ≠ 0
          ∧ b = l2Block (m₀.tables.l1 (.proc src) (fixSlot P))
          ∧ x = fixEntry P) := by
        rw [hfix]
        exact hw
      rw [← h.untouched.l2 b x hx hb hw', Kernel.closed, freeIfEmpty_l2]
      apply setL2_other _ _
      intro he
      have hx' := fixEntry_lt P
      have hbe : b = l2Block (m.tables.l1 (.proc src) (fixSlot P))
          ∧ x = fixEntry P := by omega
      by_cases h0 : m₀.tables.l1 (.proc src) (fixSlot P) = 0
      · exact (h.window.new h0 hopen).2.2.1 (hbe.1 ▸ hb)
      · rw [h.window.kept h0] at hbe
        exact hw' ⟨h0, hbe⟩
  case slot =>
    intro i hi
    by_cases h0 : m₀.tables.l1 (.proc src) i = 0
    · exact Or.inl (hd.empty i hi h0)
    · rw [hl1]
      obtain ⟨ht, hl, -⟩ := hc.table i hi h0
      exact Or.inr (Or.inr ⟨ht, hlive _ hl fun _ =>
        hc.apart i hi h0 hopen⟩)
  case fresh =>
    intro i hi ht
    have h0 := hne hi ht
    rw [hl1]
    exact Or.inr (hc.table i hi h0).2.2
  case owned =>
    intro i j hi hj hij hti htj
    have h0 := hne hi hti
    have h0' := hne hj htj
    rw [hl1, hl1]
    exact hc.owned i j hi hj hij h0 h0'
  case small =>
    intro i x hi hx ht he
    rcases hd.entries i x hi hx (hne hi ht) with
      ⟨hz, -⟩ | ⟨-, f, hword, -⟩
    · exact absurd hz he
    · have := B.hw.attrs.small_type false
      rw [hword]
      omega

end SyeLabs.Kernel
