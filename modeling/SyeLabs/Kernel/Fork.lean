/-
`duplicate_user_space`: the child gets a copy of every page of its
parent.

# The two tables

The loops walk the table of the parent while every turn maps the window
`FIXMAP_MAPPING` to the new frame in that same table, which may take a
new L2 table from the heap for the slot of the window. The invariant
`Copying m₀ m n j` compares the machine with the one at the start after
entry `j` of slot `n - 1`. It has three parts: what the loops leave
alone (`Untouched`), the slot of the window (`Window`), and the table of
the child (`Child`), whose entries point to copies as far as the loops
got.

# Frames

A copy is made in a frame that was free at the start. Frames of the
parent were taken, so no copy overwrites a page that is still to be
copied, which is why each copy holds what the parent held when the call
was made.
-/
import SyeLabs.Kernel.Machine

namespace SyeLabs.Kernel

open Lib Mmu

/-- The L1 slot of the copy window. -/
def fixSlot (P : Platform) : Nat := l1pteIndex P.fixmapMapping

/-- The entry of the copy window in the L2 table of its slot. -/
def fixEntry (P : Platform) : Nat := P.fixmapMapping / 4096 % 256

theorem fixEntry_lt (P : Platform) : fixEntry P < 256 :=
  Nat.mod_lt _ (by decide)

theorem fixSlot_lt (P : Platform) : fixSlot P < 4096 := by
  have := P.fixmapMapping_lt
  unfold fixSlot l1pteIndex
  omega

theorem userSlots_le_fixSlot (P : Platform) : P.userSlots ≤ fixSlot P :=
  Nat.div_le_div_right P.fixmapMapping_kernel

theorem userSlots_le (P : Platform) : P.userSlots ≤ 4096 :=
  (userSlots_le_fixSlot P).trans (fixSlot_lt P).le

variable {P : Platform} {H F : Type*}

-- =============================================================== the invariant

variable (B : Board P H F)

/-- A parent whose user area is made of small pages in frames in use, and
a child whose table is fresh. -/
structure Forkable (m : Machine H F) (src dst : Nat) : Prop where
  ne : src ≠ dst
  wf : WellFormed B.hw m.tables (.proc src)
  user : ∀ i, i < P.userSlots → m.tables.l1 (.proc src) i ≠ 0 →
    l1pteIsTable (m.tables.l1 (.proc src) i)
  window : m.tables.l1 (.proc src) (fixSlot P) ≠ 0 →
    l1pteIsTable (m.tables.l1 (.proc src) (fixSlot P))
  small : ∀ i x, i < P.userSlots → x < 256 →
    m.tables.l1 (.proc src) i ≠ 0 → entry m.tables (.proc src) i x ≠ 0 →
    2 ≤ entry m.tables (.proc src) i x % 4
  inUse : ∀ i x, i < P.userSlots → x < 256 →
    m.tables.l1 (.proc src) i ≠ 0 → entry m.tables (.proc src) i x ≠ 0 →
    Taken B.pool m.frames.pool (entry m.tables (.proc src) i x / 4096)
  child : ∀ i, i < P.userSlots → m.tables.l1 (.proc dst) i = 0

/-- What the loops leave alone. -/
structure Untouched (m₀ m : Machine H F) (src dst : Nat) : Prop where
  l1 : ∀ g i, ¬ (g = .proc src ∧ i = fixSlot P) →
    ¬ (g = .proc dst ∧ i < P.userSlots) →
    m.tables.l1 g i = m₀.tables.l1 g i
  l2 : ∀ b x, x < 256 → B.hw.heap.live m₀.tables.heap b →
    ¬ (m₀.tables.l1 (.proc src) (fixSlot P) ≠ 0
      ∧ b = l2Block (m₀.tables.l1 (.proc src) (fixSlot P))
      ∧ x = fixEntry P) →
    m.tables.l2 (b * 256 + x) = m₀.tables.l2 (b * 256 + x)
  heap : ∀ b, B.hw.heap.live m₀.tables.heap b →
    B.hw.heap.live m.tables.heap b
  pool : ∀ f, Taken B.pool m₀.frames.pool f → Taken B.pool m.frames.pool f
  page : ∀ f, Taken B.pool m₀.frames.pool f → m.page f = m₀.page f
  lists : ∀ q, q ≠ dst → m.frames.pageList q = m₀.frames.pageList q

/-- The slot of the window: the L2 table it held, or one of its own. -/
structure Window (m₀ m : Machine H F) (src : Nat) : Prop where
  kept : m₀.tables.l1 (.proc src) (fixSlot P) ≠ 0 →
    m.tables.l1 (.proc src) (fixSlot P)
      = m₀.tables.l1 (.proc src) (fixSlot P)
  new : m₀.tables.l1 (.proc src) (fixSlot P) = 0 →
    m.tables.l1 (.proc src) (fixSlot P) ≠ 0 →
    l1pteIsTable (m.tables.l1 (.proc src) (fixSlot P))
      ∧ B.hw.heap.live m.tables.heap
        (l2Block (m.tables.l1 (.proc src) (fixSlot P)))
      ∧ ¬ B.hw.heap.live m₀.tables.heap
        (l2Block (m.tables.l1 (.proc src) (fixSlot P)))
      ∧ ∀ x, x < 256 → x ≠ fixEntry P →
        entry m.tables (.proc src) (fixSlot P) x = 0

/-- Entry `x` of slot `i` points to a copy of the page of the parent. -/
def Copied (m₀ m : Machine H F) (src dst i x : Nat) : Prop :=
  ∃ f, entry m.tables (.proc dst) i x = f * 4096 + B.hw.attrs.small false
    ∧ ¬ Taken B.pool m₀.frames.pool f ∧ Taken B.pool m.frames.pool f
    ∧ f ∈ m.frames.pageList dst
    ∧ m.page f = m₀.page (entry m₀.tables (.proc src) i x / 4096)

/-- The loops have passed entry `x` of slot `i`. -/
def Passed (n j i x : Nat) : Prop := i + 1 < n ∨ (i + 1 = n ∧ x < j)

/-- The user area of the child after entry `j` of slot `n - 1`. -/
structure Child (m₀ m : Machine H F) (src dst n j : Nat) : Prop where
  empty : ∀ i, i < P.userSlots →
    n ≤ i ∨ m₀.tables.l1 (.proc src) i = 0 →
    m.tables.l1 (.proc dst) i = 0
  table : ∀ i, i < n → m₀.tables.l1 (.proc src) i ≠ 0 →
    l1pteIsTable (m.tables.l1 (.proc dst) i)
      ∧ B.hw.heap.live m.tables.heap (l2Block (m.tables.l1 (.proc dst) i))
      ∧ ¬ B.hw.heap.live m₀.tables.heap
        (l2Block (m.tables.l1 (.proc dst) i))
  apart : ∀ i, i < n → m₀.tables.l1 (.proc src) i ≠ 0 →
    m.tables.l1 (.proc src) (fixSlot P) ≠ 0 →
    l2Block (m.tables.l1 (.proc dst) i)
      ≠ l2Block (m.tables.l1 (.proc src) (fixSlot P))
  owned : ∀ i i', i < n → i' < n → i ≠ i' →
    m₀.tables.l1 (.proc src) i ≠ 0 → m₀.tables.l1 (.proc src) i' ≠ 0 →
    l2Block (m.tables.l1 (.proc dst) i)
      ≠ l2Block (m.tables.l1 (.proc dst) i')
  entries : ∀ i x, i < n → x < 256 → m₀.tables.l1 (.proc src) i ≠ 0 →
    (entry m.tables (.proc dst) i x = 0
      ∧ (Passed n j i x → entry m₀.tables (.proc src) i x = 0))
    ∨ (entry m₀.tables (.proc src) i x ≠ 0 ∧ Copied B m₀ m src dst i x)
  single : ∀ i x i' x', i < n → i' < n → x < 256 → x' < 256 →
    m₀.tables.l1 (.proc src) i ≠ 0 → m₀.tables.l1 (.proc src) i' ≠ 0 →
    entry m.tables (.proc dst) i x ≠ 0 →
    entry m.tables (.proc dst) i' x' ≠ 0 →
    entry m.tables (.proc dst) i x / 4096
      = entry m.tables (.proc dst) i' x' / 4096 → i = i' ∧ x = x'
  /-- Nothing was copied yet if the window was not opened. -/
  opened : m.tables.l1 (.proc src) (fixSlot P) = 0 → ∀ i x, i < n →
    x < 256 → m₀.tables.l1 (.proc src) i ≠ 0 →
    entry m.tables (.proc dst) i x = 0

/-- The machine after entry `j` of slot `n - 1`. -/
structure Copying (m₀ m : Machine H F) (src dst n j : Nat) : Prop where
  untouched : Untouched B m₀ m src dst
  window : Window B m₀ m src
  child : Child B m₀ m src dst n j

variable {B}

theorem copying_start {m : Machine H F} {src dst : Nat}
    (h : Forkable B m src dst) : Copying B m m src dst 0 256 where
  untouched :=
    ⟨fun _ _ _ _ => rfl, fun _ _ _ _ _ => rfl, fun _ hb => hb,
      fun _ hf => hf, fun _ _ => rfl, fun _ _ => rfl⟩
  window := ⟨fun _ => rfl, fun h0 hne => absurd h0 hne⟩
  child :=
    ⟨fun i hi _ => h.child i hi, nofun, nofun, nofun, nofun, nofun,
      fun _ _ _ => nofun⟩

/-- A slot the parent leaves empty is skipped. -/
theorem Copying.skip {m₀ m : Machine H F} {src dst n : Nat}
    (h : Copying B m₀ m src dst n 256)
    (h0 : m₀.tables.l1 (.proc src) n = 0) :
    Copying B m₀ m src dst (n + 1) 256 := by
  have hlt : ∀ i, i < n + 1 → m₀.tables.l1 (.proc src) i ≠ 0 → i < n := by
    intro i hi hne
    have hin : i ≠ n := by
      intro heq
      subst heq
      exact hne h0
    omega
  refine ⟨h.untouched, h.window, ?_⟩
  have hc := h.child
  constructor
  case empty =>
    intro i hi h
    rcases h with hle | he
    · exact hc.empty i hi (Or.inl (by omega))
    · exact hc.empty i hi (Or.inr he)
  case entries =>
    intro i x hi hx hne
    rcases hc.entries i x (hlt i hi hne) hx hne with ⟨hz, hp⟩ | hcopy
    · exact Or.inl ⟨hz, fun _ => hp (by
        have := hlt i hi hne
        unfold Passed
        omega)⟩
    · exact Or.inr hcopy
  case table => exact fun i hi hne => hc.table i (hlt i hi hne) hne
  case apart => exact fun i hi hne => hc.apart i (hlt i hi hne) hne
  case owned =>
    exact fun i i' hi hi' hii hne hne' =>
      hc.owned i i' (hlt i hi hne) (hlt i' hi' hne') hii hne hne'
  case single =>
    exact fun i x i' x' hi hi' hx hx' hne hne' =>
      hc.single i x i' x' (hlt i hi hne) (hlt i' hi' hne') hx hx' hne hne'
  case opened =>
    exact fun hw i x hi hx hne => hc.opened hw i x (hlt i hi hne) hx hne

/-- The slots of the parent stay as they are. -/
theorem Copying.src_slot {m₀ m : Machine H F} {src dst n j i : Nat}
    (h : Copying B m₀ m src dst n j) (hf : Forkable B m₀ src dst)
    (hi : i < P.userSlots) :
    m.tables.l1 (.proc src) i = m₀.tables.l1 (.proc src) i := by
  have hlt : i < fixSlot P := hi.trans_le (userSlots_le_fixSlot P)
  refine h.untouched.l1 _ i (fun hw => hlt.ne hw.2) fun hd => ?_
  exact hf.ne (Pgtable.proc.inj hd.1)

/-- The L2 tables of the user area of the parent are in use, and none of
them is that of the window. -/
theorem Forkable.user_block {m₀ : Machine H F} {src dst i : Nat}
    (hf : Forkable B m₀ src dst) (hi : i < P.userSlots)
    (hne : m₀.tables.l1 (.proc src) i ≠ 0) :
    B.hw.heap.live m₀.tables.heap (l2Block (m₀.tables.l1 (.proc src) i))
      ∧ (m₀.tables.l1 (.proc src) (fixSlot P) ≠ 0 →
        l2Block (m₀.tables.l1 (.proc src) i)
          ≠ l2Block (m₀.tables.l1 (.proc src) (fixSlot P))) := by
  have hi4 : i < 4096 := hi.trans_le (userSlots_le P)
  have hlt : i < fixSlot P := hi.trans_le (userSlots_le_fixSlot P)
  refine ⟨hf.wf.live hi4 (hf.user i hi hne), fun hw => ?_⟩
  exact hf.wf.owned i _ hi4 (fixSlot_lt P) hlt.ne (hf.user i hi hne)
    (hf.window hw)

/-- And so do its entries. -/
theorem Copying.src_entry {m₀ m : Machine H F} {src dst n j i x : Nat}
    (h : Copying B m₀ m src dst n j) (hf : Forkable B m₀ src dst)
    (hi : i < P.userSlots) (hx : x < 256)
    (hne : m₀.tables.l1 (.proc src) i ≠ 0) :
    entry m.tables (.proc src) i x = entry m₀.tables (.proc src) i x := by
  obtain ⟨hlive, hwin⟩ := hf.user_block hi hne
  exact entry_congr (h.src_slot hf hi) (h.untouched.l2 _ x hx hlive
    fun hw => hwin hw.1 hw.2.1)

-- =========================================================== the window so far

/-- The slot of the window holds an L2 table or nothing. -/
theorem Copying.window_table {m₀ m : Machine H F} {src dst n j : Nat}
    (h : Copying B m₀ m src dst n j) (hf : Forkable B m₀ src dst)
    (hw : m.tables.l1 (.proc src) (fixSlot P) ≠ 0) :
    l1pteIsTable (m.tables.l1 (.proc src) (fixSlot P)) := by
  by_cases h0 : m₀.tables.l1 (.proc src) (fixSlot P) = 0
  · exact (h.window.new h0 hw).1
  · rw [h.window.kept h0]
    exact hf.window h0

/-- And its table is in use. -/
theorem Copying.window_live {m₀ m : Machine H F} {src dst n j : Nat}
    (h : Copying B m₀ m src dst n j) (hf : Forkable B m₀ src dst)
    (hw : m.tables.l1 (.proc src) (fixSlot P) ≠ 0) :
    B.hw.heap.live m.tables.heap
      (l2Block (m.tables.l1 (.proc src) (fixSlot P))) := by
  by_cases h0 : m₀.tables.l1 (.proc src) (fixSlot P) = 0
  · exact (h.window.new h0 hw).2.1
  · rw [h.window.kept h0]
    exact h.untouched.heap _ (hf.wf.live (fixSlot_lt P) (hf.window h0))

-- ============================================================== a new L2 table

/-- Of what the loops leave alone, a new L2 table in slot `n` of the
child changes nothing. -/
theorem Copying.newL2_untouched {m₀ m : Machine H F} {src dst n : Nat}
    {t : PageTables H} (h : Copying B m₀ m src dst n 256)
    (hn : n < P.userSlots)
    (hnew : newL2 B.hw m.tables (.proc dst) n false = some t) :
    Untouched B m₀ { m with tables := t } src dst := by
  obtain ⟨b, halloc, -, hslots, -, hblocks⟩ := newL2_eq hnew
  have hu := h.untouched
  constructor
  case l1 =>
    intro g i hw hd
    rw [hslots g i fun hgi => hd ⟨hgi.1, hgi.2 ▸ hn⟩]
    exact hu.l1 g i hw hd
  case l2 =>
    intro c x hx hl hw
    rw [hblocks c (B.hw.heap.ne_of_alloc halloc (hu.heap c hl)) x hx]
    exact hu.l2 c x hx hl hw
  case heap =>
    exact fun c hl => B.hw.heap.live_of_alloc halloc (hu.heap c hl)
  case pool => exact hu.pool
  case page => exact hu.page
  case lists => exact hu.lists

/-- The window is in another slot of another table. -/
theorem newL2_window_slot {m : Machine H F} {src dst n : Nat}
    {t : PageTables H} (hne : src ≠ dst)
    (hnew : newL2 B.hw m.tables (.proc dst) n false = some t) :
    t.l1 (.proc src) (fixSlot P) = m.tables.l1 (.proc src) (fixSlot P) := by
  obtain ⟨b, -, -, hslots, -, -⟩ := newL2_eq hnew
  apply hslots _ _
  intro hw
  exact hne (Pgtable.proc.inj hw.1)

theorem Copying.newL2_window {m₀ m : Machine H F} {src dst n : Nat}
    {t : PageTables H} (h : Copying B m₀ m src dst n 256)
    (hf : Forkable B m₀ src dst)
    (hnew : newL2 B.hw m.tables (.proc dst) n false = some t) :
    Window B m₀ { m with tables := t } src := by
  have hwin := newL2_window_slot (B := B) hf.ne hnew
  obtain ⟨b, halloc, -, -, -, hblocks⟩ := newL2_eq hnew
  refine ⟨fun hw => hwin.trans (h.window.kept hw), ?_⟩
  intro h0 hw
  simp only [hwin] at hw ⊢
  obtain ⟨ht, hl, hnl, hz⟩ := h.window.new h0 hw
  refine ⟨ht, B.hw.heap.live_of_alloc halloc hl, hnl, fun x hx hxne => ?_⟩
  rw [entry_congr hwin (hblocks _ (B.hw.heap.ne_of_alloc halloc hl) x hx)]
  exact hz x hx hxne

variable (B) in
/-- What a new L2 table in slot `n` of the child leaves of the slots
before it, and that it is empty. -/
structure TableAdded (m₀ m : Machine H F) (t : PageTables H)
    (src dst n b : Nat) : Prop where
  live : B.hw.heap.live t.heap b
  notLive : ¬ B.hw.heap.live m.tables.heap b
  word : l1pteIsTable (t.l1 (.proc dst) n)
  block : l2Block (t.l1 (.proc dst) n) = b
  keep : ∀ c, B.hw.heap.live m.tables.heap c → B.hw.heap.live t.heap c
  slots : ∀ i, i ≠ n → t.l1 (.proc dst) i = m.tables.l1 (.proc dst) i
  blank : ∀ x, x < 256 → entry t (.proc dst) n x = 0
  entries : ∀ i x, i < n → x < 256 → m₀.tables.l1 (.proc src) i ≠ 0 →
    entry t (.proc dst) i x = entry m.tables (.proc dst) i x

theorem Copying.tableAdded {m₀ m : Machine H F} {src dst n : Nat}
    {t : PageTables H} (h : Copying B m₀ m src dst n 256)
    (hnew : newL2 B.hw m.tables (.proc dst) n false = some t) :
    ∃ b, TableAdded B m₀ m t src dst n b := by
  obtain ⟨b, halloc, hword, hslots, hzero, hblocks⟩ := newL2_eq hnew
  have hblock : l2Block (t.l1 (.proc dst) n) = b := by
    rw [hword, l1Word_block]
  have hold : ∀ i, i ≠ n → t.l1 (.proc dst) i
      = m.tables.l1 (.proc dst) i :=
    fun i hi => hslots _ i fun hw => hi hw.2
  refine ⟨b, B.hw.heap.live_self_of_alloc halloc,
    B.hw.heap.alloc_fresh halloc, hword ▸ l1Word_isTable B.hw b false,
    hblock, fun c => B.hw.heap.live_of_alloc halloc, hold, fun x hx => ?_,
    fun i x hi hx hne => ?_⟩
  · rw [entry, hblock]
    exact hzero x hx
  · have hne_b := B.hw.heap.ne_of_alloc halloc (h.child.table i hi hne).2.1
    exact entry_congr (hold i (Nat.ne_of_lt hi)) (hblocks _ hne_b x hx)

section TableAdded

variable {m₀ m : Machine H F} {t : PageTables H} {src dst n b : Nat}

theorem TableAdded.ne (h : TableAdded B m₀ m t src dst n b) {c : Nat}
    (hc : B.hw.heap.live m.tables.heap c) : c ≠ b :=
  fun heq => h.notLive (heq ▸ hc)

/-- No block is behind two slots of the child. -/
theorem TableAdded.owned (h : TableAdded B m₀ m t src dst n b)
    (hc : Child B m₀ m src dst n 256) {i i' : Nat} (hi : i < n + 1)
    (hi' : i' < n + 1) (hii : i ≠ i') (hne : m₀.tables.l1 (.proc src) i ≠ 0)
    (hne' : m₀.tables.l1 (.proc src) i' ≠ 0) :
    l2Block (t.l1 (.proc dst) i) ≠ l2Block (t.l1 (.proc dst) i') := by
  rcases Nat.lt_succ_iff_lt_or_eq.mp hi with hi | rfl
  · rw [h.slots i (Nat.ne_of_lt hi)]
    rcases Nat.lt_succ_iff_lt_or_eq.mp hi' with hi' | rfl
    · rw [h.slots i' (Nat.ne_of_lt hi')]
      exact hc.owned i i' hi hi' hii hne hne'
    · rw [h.block]
      exact h.ne (hc.table i hi hne).2.1
  · rcases Nat.lt_succ_iff_lt_or_eq.mp hi' with hi' | rfl
    · rw [h.slots i' (Nat.ne_of_lt hi'), h.block]
      exact (h.ne (hc.table i' hi' hne').2.1).symm
    · exact absurd rfl hii

/-- The entries of the new table are not copied yet. -/
theorem TableAdded.copied (h : TableAdded B m₀ m t src dst n b)
    (hc : Child B m₀ m src dst n 256) {i x : Nat} (hi : i < n + 1)
    (hx : x < 256) (hne : m₀.tables.l1 (.proc src) i ≠ 0) :
    (entry t (.proc dst) i x = 0
      ∧ (Passed (n + 1) 0 i x → entry m₀.tables (.proc src) i x = 0))
    ∨ (entry m₀.tables (.proc src) i x ≠ 0
      ∧ Copied B m₀ { m with tables := t } src dst i x) := by
  rcases Nat.lt_succ_iff_lt_or_eq.mp hi with hi | rfl
  · simp only [Copied, h.entries i x hi hx hne]
    rcases hc.entries i x hi hx hne with ⟨hz, hp⟩ | hcopy
    · exact Or.inl ⟨hz, fun _ => hp (by unfold Passed; omega)⟩
    · exact Or.inr hcopy
  · refine Or.inl ⟨h.blank x hx, fun hp => ?_⟩
    unfold Passed at hp
    omega

/-- Two entries of the child in use are not for one frame. -/
theorem TableAdded.single (h : TableAdded B m₀ m t src dst n b)
    (hc : Child B m₀ m src dst n 256) {i x i' x' : Nat} (hi : i < n + 1)
    (hi' : i' < n + 1) (hx : x < 256) (hx' : x' < 256)
    (hne : m₀.tables.l1 (.proc src) i ≠ 0)
    (hne' : m₀.tables.l1 (.proc src) i' ≠ 0)
    (he : entry t (.proc dst) i x ≠ 0)
    (he' : entry t (.proc dst) i' x' ≠ 0)
    (heq : entry t (.proc dst) i x / 4096
      = entry t (.proc dst) i' x' / 4096) : i = i' ∧ x = x' := by
  rcases Nat.lt_succ_iff_lt_or_eq.mp hi with hi | rfl
  · rcases Nat.lt_succ_iff_lt_or_eq.mp hi' with hi' | rfl
    · rw [h.entries i x hi hx hne] at he heq
      rw [h.entries i' x' hi' hx' hne'] at he' heq
      exact hc.single i x i' x' hi hi' hx hx' hne hne' he he' heq
    · exact absurd (h.blank x' hx') he'
  · exact absurd (h.blank x hx) he

end TableAdded

/-- The child has an empty L2 table of its own in slot `n`, and in the
slots before what it had. -/
theorem Copying.newL2_child {m₀ m : Machine H F} {src dst n : Nat}
    {t : PageTables H} (h : Copying B m₀ m src dst n 256)
    (hf : Forkable B m₀ src dst)
    (hsrc : m₀.tables.l1 (.proc src) n ≠ 0)
    (hnew : newL2 B.hw m.tables (.proc dst) n false = some t) :
    Child B m₀ { m with tables := t } src dst (n + 1) 0 := by
  have hwin := newL2_window_slot (B := B) hf.ne hnew
  obtain ⟨b, hadd⟩ := h.tableAdded hnew
  have hc := h.child
  constructor
  case empty =>
    intro i hi hor
    have hin : i ≠ n := by
      intro heq
      subst heq
      rcases hor with hle | h0
      · exact absurd hle (Nat.not_succ_le_self i)
      · exact hsrc h0
    show t.l1 (.proc dst) i = 0
    rw [hadd.slots i hin]
    exact hc.empty i hi (hor.imp_left fun hle => by omega)
  case table =>
    intro i hi hne
    rcases Nat.lt_succ_iff_lt_or_eq.mp hi with hi | rfl
    · obtain ⟨ht, hl, hnl⟩ := hc.table i hi hne
      simp only [hadd.slots i (Nat.ne_of_lt hi)]
      exact ⟨ht, hadd.keep _ hl, hnl⟩
    · refine ⟨hadd.word, ?_, fun hl => ?_⟩
      · simp only [hadd.block]
        exact hadd.live
      · simp only [hadd.block] at hl
        exact hadd.notLive (h.untouched.heap b hl)
  case apart =>
    intro i hi hne hw
    simp only [hwin] at hw ⊢
    rcases Nat.lt_succ_iff_lt_or_eq.mp hi with hi | rfl
    · rw [hadd.slots i (Nat.ne_of_lt hi)]
      exact hc.apart i hi hne hw
    · rw [hadd.block]
      exact (hadd.ne (h.window_live hf hw)).symm
  case owned =>
    exact fun i i' hi hi' hii hne hne' =>
      hadd.owned hc hi hi' hii hne hne'
  case entries => exact fun i x hi hx hne => hadd.copied hc hi hx hne
  case single =>
    exact fun i x i' x' hi hi' hx hx' hne hne' he he' heq =>
      hadd.single hc hi hi' hx hx' hne hne' he he' heq
  case opened =>
    intro hw i x hi hx hne
    show entry t (.proc dst) i x = 0
    rcases Nat.lt_succ_iff_lt_or_eq.mp hi with hi | rfl
    · rw [hadd.entries i x hi hx hne]
      exact hc.opened (hwin.symm.trans hw) i x hi hx hne
    · exact hadd.blank x hx

/-- The outer loop gives the child an L2 table for slot `n`. -/
theorem Copying.newL2 {m₀ m : Machine H F} {src dst n : Nat}
    {t : PageTables H} (h : Copying B m₀ m src dst n 256)
    (hf : Forkable B m₀ src dst) (hn : n < P.userSlots)
    (hsrc : m₀.tables.l1 (.proc src) n ≠ 0)
    (hnew : newL2 B.hw m.tables (.proc dst) n false = some t) :
    Copying B m₀ { m with tables := t } src dst (n + 1) 0 :=
  ⟨h.newL2_untouched hn hnew, h.newL2_window hf hnew,
    h.newL2_child hf hsrc hnew⟩

-- ========================================================== opening the window

/-- Mapping the window changes one word that the loops do not leave
alone, or a word of a table that is new. -/
theorem Copying.openWindow_untouched {m₀ m : Machine H F}
    {src dst n j f : Nat} {t : PageTables H}
    (h : Copying B m₀ m src dst n j) (hf : Forkable B m₀ src dst)
    (pm : PageMapped B.hw m.tables t (.proc src) P.fixmapMapping f false) :
    Untouched B m₀ { m with tables := t } src dst := by
  have hu := h.untouched
  obtain ⟨-, hlive, -⟩ := pm.slot (h.window_table hf)
  constructor
  case l1 => exact fun g i hw hd => (pm.slots g i hw).trans (hu.l1 g i hw hd)
  case l2 =>
    intro b x hx hl hw
    rw [← hu.l2 b x hx hl hw]
    by_cases hb : b = l2Block (t.l1 (.proc src) (fixSlot P))
    · by_cases h0 : m.tables.l1 (.proc src) (fixSlot P) = 0
      · exact absurd (hb ▸ hu.heap b hl) (pm.new h0).2.1
      · obtain ⟨hsame, -, hwords⟩ := pm.kept h0
        have hb' : b = l2Block (m.tables.l1 (.proc src) (fixSlot P)) :=
          hb.trans (congrArg l2Block hsame)
        have h00 : m₀.tables.l1 (.proc src) (fixSlot P) ≠ 0 :=
          fun h00 => (h.window.new h00 h0).2.2.1 (hb' ▸ hl)
        rw [hb']
        refine hwords x hx fun hxe => hw ⟨h00, ?_, hxe⟩
        rw [hb', h.window.kept h00]
    · exact pm.others b hb x hx
  case heap => exact fun b hl => hlive b (hu.heap b hl)
  case pool => exact hu.pool
  case page => exact hu.page
  case lists => exact hu.lists

theorem Copying.openWindow_window {m₀ m : Machine H F}
    {src dst n j f : Nat} {t : PageTables H}
    (h : Copying B m₀ m src dst n j) (hf : Forkable B m₀ src dst)
    (pm : PageMapped B.hw m.tables t (.proc src) P.fixmapMapping f false) :
    Window B m₀ { m with tables := t } src := by
  obtain ⟨htable, hlive, -⟩ :
      l1pteIsTable (t.l1 (.proc src) (fixSlot P)) ∧ _ :=
    pm.slot (h.window_table hf)
  constructor
  case kept =>
    intro h00
    have h0 : m.tables.l1 (.proc src) (fixSlot P) ≠ 0 := by
      rw [h.window.kept h00]
      exact h00
    exact (pm.kept h0).1.trans (h.window.kept h00)
  case new =>
    intro h00 _
    by_cases h0 : m.tables.l1 (.proc src) (fixSlot P) = 0
    · obtain ⟨-, hnl, hl, hz⟩ := pm.new h0
      exact ⟨htable, (hl _).mpr (Or.inl rfl),
        fun hb => hnl (h.untouched.heap _ hb), hz⟩
    · obtain ⟨hsame, -, hwords⟩ := pm.kept h0
      obtain ⟨-, hl, hnl, hz⟩ := h.window.new h00 h0
      have hsame' : t.l1 (.proc src) (fixSlot P)
          = m.tables.l1 (.proc src) (fixSlot P) := hsame
      simp only [hsame']
      refine ⟨h.window_table hf h0, hlive _ hl, hnl, fun x hx hxe => ?_⟩
      rw [entry_congr hsame' (hwords x hx hxe)]
      exact hz x hx hxe

/-- The child lies elsewhere. -/
theorem Copying.openWindow_child {m₀ m : Machine H F}
    {src dst n j f : Nat} {t : PageTables H}
    (h : Copying B m₀ m src dst n j) (hf : Forkable B m₀ src dst)
    (pm : PageMapped B.hw m.tables t (.proc src) P.fixmapMapping f false) :
    Child B m₀ { m with tables := t } src dst n j := by
  have hc := h.child
  obtain ⟨htable, hlive, hapart⟩ :
      l1pteIsTable (t.l1 (.proc src) (fixSlot P)) ∧ _ :=
    pm.slot (h.window_table hf)
  have hslot : ∀ i, t.l1 (.proc dst) i = m.tables.l1 (.proc dst) i :=
    fun i => pm.slots _ i fun hw => hf.ne (Pgtable.proc.inj hw.1).symm
  have hblock : ∀ i, i < n → m₀.tables.l1 (.proc src) i ≠ 0 →
      l2Block (m.tables.l1 (.proc dst) i)
        ≠ l2Block (t.l1 (.proc src) (fixSlot P)) :=
    fun i hi hne => hapart _ (hc.table i hi hne).2.1 (hc.apart i hi hne)
  have hentry : ∀ i x, i < n → x < 256 →
      m₀.tables.l1 (.proc src) i ≠ 0 →
      entry t (.proc dst) i x = entry m.tables (.proc dst) i x :=
    fun i x hi hx hne =>
      entry_congr (hslot i) (pm.others _ (hblock i hi hne) x hx)
  constructor
  case empty => exact fun i hi hor => (hslot i).trans (hc.empty i hi hor)
  case table =>
    intro i hi hne
    obtain ⟨ht, hl, hnl⟩ := hc.table i hi hne
    simp only [hslot]
    exact ⟨ht, hlive _ hl, hnl⟩
  case apart =>
    intro i hi hne _
    simp only [hslot]
    exact hblock i hi hne
  case owned =>
    intro i i' hi hi' hii hne hne'
    simp only [hslot]
    exact hc.owned i i' hi hi' hii hne hne'
  case entries =>
    intro i x hi hx hne
    simp only [Copied, hentry i x hi hx hne]
    exact hc.entries i x hi hx hne
  case single =>
    intro i x i' x' hi hi' hx hx' hne hne' he he' heq
    simp only [hentry i x hi hx hne, hentry i' x' hi' hx' hne']
      at he he' heq
    exact hc.single i x i' x' hi hi' hx hx' hne hne' he he' heq
  case opened =>
    intro hw
    have hw' : t.l1 (.proc src) (fixSlot P) = 0 := hw
    rw [hw'] at htable
    cases htable

/-- Mapping the window keeps the invariant and opens the window. -/
theorem Copying.openWindow {m₀ m : Machine H F} {src dst n j f : Nat}
    {t : PageTables H} (h : Copying B m₀ m src dst n j)
    (hf : Forkable B m₀ src dst)
    (hmap : createMapping B.hw m.tables (some (.proc src)) P.fixmapMapping
      (f * 4096) 4096 false = some t) :
    Copying B m₀ { m with tables := t } src dst n j
      ∧ l1pteIsTable (t.l1 (.proc src) (fixSlot P))
      ∧ PageMapped B.hw m.tables t (.proc src) P.fixmapMapping f false := by
  have pm := createMapping_pageMapped P.fixmapMapping_aligned hmap
  exact ⟨⟨h.openWindow_untouched hf pm, h.openWindow_window hf pm,
    h.openWindow_child hf pm⟩, (pm.slot (h.window_table hf)).1, pm⟩

-- ============================================================ copying one page

/-- The word of a frame holds the frame. -/
theorem smallWord_div (M : Hardware H) (f : Nat) (nocache : Bool) :
    (f * 4096 + M.attrs.small nocache) / 4096 = f := by
  have := M.attrs.small_lt nocache
  omega

theorem smallWord_ne_zero (M : Hardware H) (f : Nat) (nocache : Bool) :
    f * 4096 + M.attrs.small nocache ≠ 0 := by
  have := M.attrs.small_type nocache
  omega

/-- An entry of the child is empty or a copy. -/
theorem Child.copied {m₀ m : Machine H F} {src dst n j i x : Nat}
    (hc : Child B m₀ m src dst n j) (hi : i < n) (hx : x < 256)
    (hne : m₀.tables.l1 (.proc src) i ≠ 0)
    (he : entry m.tables (.proc dst) i x ≠ 0) :
    Copied B m₀ m src dst i x := by
  rcases hc.entries i x hi hx hne with ⟨hz, -⟩ | ⟨-, hcopy⟩
  · exact absurd hz he
  · exact hcopy

/-- The entry of the child is set and the page copied to the frame `f`
that the pool handed out. -/
def putEntry (B : Board P H F) (m₀ m : Machine H F) (src dst n j f : Nat)
    (pool : F) (log : List (Event Nat)) : Machine H F where
  tables := m.tables.setL2 (l2Block (m.tables.l1 (.proc dst) n) * 256 + j)
    (f * 4096 + B.hw.attrs.small false)
  frames := addPageToProc { m.frames with pool := pool, log := log } dst f
  page := Function.update m.page f
    (m₀.page (entry m₀.tables (.proc src) n j / 4096))

theorem putEntry_entry (m₀ m : Machine H F) (src dst n j f : Nat)
    (pool : F) (log : List (Event Nat)) :
    entry (putEntry B m₀ m src dst n j f pool log).tables (.proc dst) n j
      = f * 4096 + B.hw.attrs.small false :=
  entry_setL2_self _ rfl

theorem putEntry_page {m₀ m : Machine H F} {src dst n j f g : Nat}
    {pool : F} {log : List (Event Nat)} (hg : g ≠ f) :
    (putEntry B m₀ m src dst n j f pool log).page g = m.page g :=
  Function.update_of_ne hg _ _

theorem putEntry_lists {m₀ m : Machine H F} {src dst n j f q : Nat}
    {pool : F} {log : List (Event Nat)} (hq : q ≠ dst) :
    (putEntry B m₀ m src dst n j f pool log).frames.pageList q
      = m.frames.pageList q := by
  unfold putEntry
  simp only [addPageToProc, Function.update_of_ne hq]

theorem putEntry_list (m₀ m : Machine H F) (src dst n j f : Nat)
    (pool : F) (log : List (Event Nat)) :
    (putEntry B m₀ m src dst n j f pool log).frames.pageList dst
      = m.frames.pageList dst ++ [f] := by
  unfold putEntry
  simp only [addPageToProc, Function.update_self]

/-- Another entry of the child stays. -/
theorem Copying.putEntry_other {m₀ m : Machine H F}
    {src dst n j f i x : Nat} {pool : F} {log : List (Event Nat)}
    (h : Copying B m₀ m src dst (n + 1) j)
    (hsrc : m₀.tables.l1 (.proc src) n ≠ 0) (hj : j < 256)
    (hi : i < n + 1) (hx : x < 256)
    (hne : m₀.tables.l1 (.proc src) i ≠ 0) (hix : ¬ (i = n ∧ x = j)) :
    entry (putEntry B m₀ m src dst n j f pool log).tables (.proc dst) i x
      = entry m.tables (.proc dst) i x := by
  refine entry_setL2_other _ hj hx fun hb hxj => hix ⟨?_, hxj⟩
  by_contra hin
  exact h.child.owned i n hi (Nat.lt_succ_self n) hin hne hsrc hb

theorem Copying.putEntry_untouched {m₀ m : Machine H F}
    {src dst n j f : Nat} {pool : F} (log : List (Event Nat))
    (h : Copying B m₀ m src dst (n + 1) j)
    (hsrc : m₀.tables.l1 (.proc src) n ≠ 0) (hj : j < 256)
    (halloc : B.pool.alloc m.frames.pool = some (f, pool)) :
    Untouched B m₀ (putEntry B m₀ m src dst n j f pool log) src dst := by
  have hu := h.untouched
  obtain ⟨-, -, hfresh⟩ := h.child.table n (Nat.lt_succ_self n) hsrc
  constructor
  case l1 => exact hu.l1
  case l2 =>
    intro b x hx hl hwx
    rw [← hu.l2 b x hx hl hwx]
    refine setL2_other _ _ fun heq => hfresh ?_
    have hb : b = l2Block (m.tables.l1 (.proc dst) n) := by omega
    exact hb ▸ hl
  case heap => exact hu.heap
  case pool => exact fun g hg => ((hu.pool g hg).of_alloc B.pool halloc).2
  case page =>
    intro g hg
    rw [putEntry_page ((hu.pool g hg).of_alloc B.pool halloc).1]
    exact hu.page g hg
  case lists => exact fun q hq => (putEntry_lists hq).trans (hu.lists q hq)

theorem Copying.putEntry_window {m₀ m : Machine H F}
    {src dst n j f : Nat} {pool : F} (log : List (Event Nat))
    (h : Copying B m₀ m src dst (n + 1) j)
    (hsrc : m₀.tables.l1 (.proc src) n ≠ 0) (hj : j < 256)
    (hw : m.tables.l1 (.proc src) (fixSlot P) ≠ 0) :
    Window B m₀ (putEntry B m₀ m src dst n j f pool log) src := by
  refine ⟨h.window.kept, fun h0 _ => ?_⟩
  obtain ⟨ht, hl, hnl, hz⟩ := h.window.new h0 hw
  refine ⟨ht, hl, hnl, fun x hx hxe => ?_⟩
  show entry (m.tables.setL2 _ _) _ _ _ = 0
  rw [entry_setL2_other _ hj hx fun hb => absurd hb
    (h.child.apart n (Nat.lt_succ_self n) hsrc hw).symm]
  exact hz x hx hxe

/-- The frame that the pool handed out was in no entry before. -/
theorem Copying.frame_new {m₀ m : Machine H F} {src dst n j f i x : Nat}
    {pool : F} (h : Copying B m₀ m src dst n j)
    (halloc : B.pool.alloc m.frames.pool = some (f, pool))
    (hi : i < n) (hx : x < 256) (hne : m₀.tables.l1 (.proc src) i ≠ 0)
    (hent : entry m.tables (.proc dst) i x ≠ 0) :
    entry m.tables (.proc dst) i x / 4096 ≠ f := by
  obtain ⟨g, hword, -, hl, -⟩ := h.child.copied hi hx hne hent
  rw [hword, smallWord_div]
  exact (hl.of_alloc B.pool halloc).1

theorem Copying.putEntry_child {m₀ m : Machine H F}
    {src dst n j f : Nat} {pool : F} (log : List (Event Nat))
    (h : Copying B m₀ m src dst (n + 1) j)
    (hsrc : m₀.tables.l1 (.proc src) n ≠ 0) (hj : j < 256)
    (he : entry m₀.tables (.proc src) n j ≠ 0)
    (hw : m.tables.l1 (.proc src) (fixSlot P) ≠ 0)
    (halloc : B.pool.alloc m.frames.pool = some (f, pool)) :
    Child B m₀ (putEntry B m₀ m src dst n j f pool log) src dst (n + 1)
      (j + 1) := by
  have hu := h.untouched
  have hc := h.child
  have hself := putEntry_entry (B := B) m₀ m src dst n j f pool log
  have hother : ∀ i x, i < n + 1 → x < 256 →
      m₀.tables.l1 (.proc src) i ≠ 0 → ¬ (i = n ∧ x = j) →
      entry (putEntry B m₀ m src dst n j f pool log).tables (.proc dst) i x
        = entry m.tables (.proc dst) i x :=
    fun _ _ hi hx hne hix => h.putEntry_other hsrc hj hi hx hne hix
  constructor
  case entries =>
    intro i x hi hx hne
    by_cases hix : i = n ∧ x = j
    · obtain ⟨rfl, rfl⟩ := hix
      refine Or.inr ⟨he, f, hself,
        fun ht => ((hu.pool f ht).of_alloc B.pool halloc).1 rfl,
        Or.inl (B.pool.live_self_of_alloc halloc), ?_,
        Function.update_self _ _ _⟩
      rw [putEntry_list]
      exact List.mem_append_right _ (List.mem_singleton_self f)
    · simp only [hother i x hi hx hne hix]
      rcases hc.entries i x hi hx hne with ⟨hz, hp⟩ | ⟨hne', hcopy⟩
      · refine Or.inl ⟨hz, fun hp' => hp ?_⟩
        unfold Passed at hp' ⊢
        omega
      · obtain ⟨g, hword, hnl, hl, hmem, hg⟩ := hcopy
        obtain ⟨hgf, hl'⟩ := hl.of_alloc B.pool halloc
        refine Or.inr ⟨hne', g, ?_, hnl, hl', ?_,
          (putEntry_page hgf).trans hg⟩
        · exact (hother i x hi hx hne hix).trans hword
        · rw [putEntry_list]
          exact List.mem_append_left [f] hmem
  case single =>
    intro i x i' x' hi hi' hx hx' hne hne' hent hent' heq
    by_cases hix : i = n ∧ x = j
    · by_cases hix' : i' = n ∧ x' = j
      · exact ⟨hix.1.trans hix'.1.symm, hix.2.trans hix'.2.symm⟩
      · obtain ⟨rfl, rfl⟩ := hix
        simp only [hother i' x' hi' hx' hne' hix', hself,
          smallWord_div] at hent' heq
        exact absurd heq.symm (h.frame_new halloc hi' hx' hne' hent')
    · by_cases hix' : i' = n ∧ x' = j
      · obtain ⟨rfl, rfl⟩ := hix'
        simp only [hother i x hi hx hne hix, hself,
          smallWord_div] at hent heq
        exact absurd heq (h.frame_new halloc hi hx hne hent)
      · simp only [hother i x hi hx hne hix,
          hother i' x' hi' hx' hne' hix'] at hent hent' heq
        exact hc.single i x i' x' hi hi' hx hx' hne hne' hent hent' heq
  case opened => exact fun hw' => absurd hw' hw
  case empty => exact hc.empty
  case table => exact hc.table
  case apart => exact hc.apart
  case owned => exact hc.owned

theorem Copying.putEntry {m₀ m : Machine H F} {src dst n j f : Nat}
    {pool : F} (log : List (Event Nat))
    (h : Copying B m₀ m src dst (n + 1) j)
    (hsrc : m₀.tables.l1 (.proc src) n ≠ 0) (hj : j < 256)
    (he : entry m₀.tables (.proc src) n j ≠ 0)
    (hw : m.tables.l1 (.proc src) (fixSlot P) ≠ 0)
    (halloc : B.pool.alloc m.frames.pool = some (f, pool)) :
    Copying B m₀ (putEntry B m₀ m src dst n j f pool log) src dst (n + 1)
      (j + 1) :=
  ⟨h.putEntry_untouched log hsrc hj halloc,
    h.putEntry_window log hsrc hj hw,
    h.putEntry_child log hsrc hj he hw halloc⟩

/-- The page of an entry. -/
theorem frameAt_entry {t : PageTables H} {g : Pgtable} {i x : Nat}
    (hx : x < 256) (ht : l1pteIsTable (t.l1 g i))
    (hsmall : 2 ≤ entry t g i x % 4) :
    frameAt t g (pteIndexToVaddr i x) = some (entry t g i x / 4096) := by
  have hslot : l1pteIndex (pteIndexToVaddr i x) = i := by
    unfold l1pteIndex pteIndexToVaddr
    omega
  have hentry : pteIndexToVaddr i x / 4096 % 256 = x := by
    unfold pteIndexToVaddr
    omega
  rw [frameAt, walk_of_entry (by rw [hslot]; exact ht), hslot, hentry,
    l2Walk, if_pos hsmall, Option.map_some, Option.some.injEq]
  omega

theorem pteIndexToVaddr_lt {i x : Nat} (hi : i < P.userSlots)
    (hx : x < 256) : pteIndexToVaddr i x < P.kernelVaddr := by
  have := P.kernelVaddr_aligned
  unfold pteIndexToVaddr
  unfold Platform.userSlots at hi
  omega

/-- The page of an entry of the parent. -/
theorem Copying.src_frameAt {m₀ m : Machine H F} {src dst n j i x : Nat}
    (h : Copying B m₀ m src dst n j) (hf : Forkable B m₀ src dst)
    (hi : i < P.userSlots) (hx : x < 256)
    (hne : m₀.tables.l1 (.proc src) i ≠ 0)
    (he : entry m₀.tables (.proc src) i x ≠ 0) :
    frameAt m.tables (.proc src) (pteIndexToVaddr i x)
      = some (entry m₀.tables (.proc src) i x / 4096) := by
  have hentry := h.src_entry hf hi hx hne
  rw [frameAt_entry hx (by rw [h.src_slot hf hi]; exact hf.user i hi hne)
    (by rw [hentry]; exact hf.small i x hi hx hne he), hentry]

variable {avail : Prop}

/-- An entry the parent leaves empty is skipped. -/
theorem Copying.skipEntry {m₀ m : Machine H F} {src dst n j : Nat}
    (h : Copying B m₀ m src dst (n + 1) j)
    (he : entry m₀.tables (.proc src) n j = 0) :
    Copying B m₀ m src dst (n + 1) (j + 1) := by
  refine ⟨h.untouched, h.window, ?_⟩
  have hc := h.child
  refine ⟨hc.empty, hc.table, hc.apart, hc.owned, ?_, hc.single,
    hc.opened⟩
  intro i x hi hx hne
  rcases hc.entries i x hi hx hne with ⟨hz, hp⟩ | hcopy
  · refine Or.inl ⟨hz, fun hp' => ?_⟩
    by_cases hix : i = n ∧ x = j
    · rw [hix.1, hix.2, he]
    · apply hp
      unfold Passed at hp' ⊢
      omega
  · exact Or.inr hcopy

theorem getFreePage_ensures (fr : Frames F)
    (hpool : avail → ∃ r, B.pool.alloc fr.pool = some r) :
    Ensures avail (getFreePage B.pool fr) fun r =>
      ∃ pool, B.pool.alloc fr.pool = some (r.1, pool)
        ∧ r.2 = { fr with pool := pool, log := fr.log ++ [.get r.1] } := by
  refine ⟨fun r hr => getFreePage_eq hr, fun hav => ?_⟩
  obtain ⟨r, hr⟩ := hpool hav
  exact ⟨_, Option.map_eq_some_iff.mpr ⟨r, hr, rfl⟩⟩

theorem openWindow_ensures (t : PageTables H) (src f : Nat)
    (hheap : avail → t.l1 (.proc src) (fixSlot P) = 0 →
      ∃ r, B.hw.heap.alloc t.heap = some r) :
    Ensures avail
      (createMapping B.hw t (some (.proc src)) P.fixmapMapping (f * 4096)
        4096 false)
      fun t' => createMapping B.hw t (some (.proc src)) P.fixmapMapping
        (f * 4096) 4096 false = some t' := by
  apply Ensures.self
  intro hav
  rw [createMapping_page B.hw _ _ P.fixmapMapping_aligned]
  unfold ensureL2
  split
  next h0 =>
    obtain ⟨r, hr⟩ := hheap hav h0
    exact ⟨_, Option.map_eq_some_iff.mpr
      ⟨_, Option.map_eq_some_iff.mpr ⟨r, hr, rfl⟩, rfl⟩⟩
  next => exact ⟨_, rfl⟩

/-- The word written for the child is not the word of the window. -/
theorem Copying.window_walk {m₀ m : Machine H F} {src dst n j : Nat}
    (h : Copying B m₀ m src dst (n + 1) j)
    (hsrc : m₀.tables.l1 (.proc src) n ≠ 0) (hj : j < 256)
    (hw : m.tables.l1 (.proc src) (fixSlot P) ≠ 0) (w : Nat) :
    walk (m.tables.setL2 (l2Block (m.tables.l1 (.proc dst) n) * 256 + j) w)
        (.proc src) P.fixmapMapping
      = walk m.tables (.proc src) P.fixmapMapping := by
  refine walk_congr rfl fun _ => setL2_other _ _ ?_
  have hapart := h.child.apart n (Nat.lt_succ_self n) hsrc hw
  have hx := fixEntry_lt P
  rw [l2pteOffset_eq]
  unfold fixSlot at hapart
  unfold fixEntry at hx
  omega

/-- When the word of a page has been set for the child, the window shows
the frame it was mapped to. -/
theorem Copying.shown {m₀ m : Machine H F} {src dst n j f : Nat}
    {t : PageTables H} (h : Copying B m₀ m src dst (n + 1) j)
    (hf : Forkable B m₀ src dst)
    (hsrc : m₀.tables.l1 (.proc src) n ≠ 0) (hj : j < 256)
    (hok : f < 1048576)
    (hmap : createMapping B.hw m.tables (some (.proc src)) P.fixmapMapping
      (f * 4096) 4096 false = some t) (w : Nat) :
    frameAt (t.setL2 (l2Block (t.l1 (.proc dst) n) * 256 + j) w)
      (.proc src) P.fixmapMapping = some f := by
  obtain ⟨hopen, htable, pm⟩ := h.openWindow hf hmap
  have hw : t.l1 (.proc src) (fixSlot P) ≠ 0 := by
    intro h0
    rw [h0] at htable
    cases htable
  have hwalk := hopen.window_walk hsrc hj hw w
  have hfix := pm.frameAt hok htable
  unfold frameAt at hfix ⊢
  dsimp only at hwalk
  rw [hwalk]
  exact hfix

/-- The body of the inner loop. -/
theorem Copying.copyEntry {m₀ m : Machine H F} {src dst n j : Nat}
    (h : Copying B m₀ m src dst (n + 1) j) (hf : Forkable B m₀ src dst)
    (hn : n < P.userSlots) (hsrc : m₀.tables.l1 (.proc src) n ≠ 0)
    (hj : j < 256)
    (hheap : avail → m.tables.l1 (.proc src) (fixSlot P) = 0 →
      ∃ r, B.hw.heap.alloc m.tables.heap = some r)
    (hpool : avail → entry m₀.tables (.proc src) n j ≠ 0 →
      ∃ r, B.pool.alloc m.frames.pool = some r) :
    Ensures avail
      (copyEntry B (.proc src) dst n
        (l2pteFirst (m₀.tables.l1 (.proc src) n))
        (l2pteFirst (m.tables.l1 (.proc dst) n)) j m)
      fun m' => Copying B m₀ m' src dst (n + 1) (j + 1)
        ∧ m'.tables.l1 (.proc dst) n = m.tables.l1 (.proc dst) n := by
  have hword : m.tables.l2 (l2pteFirst (m₀.tables.l1 (.proc src) n) + j)
      = entry m₀.tables (.proc src) n j := by
    rw [← h.src_entry hf hn hj hsrc, entry, h.src_slot hf hn]
    rfl
  unfold Kernel.copyEntry
  rw [hword]
  by_cases he : entry m₀.tables (.proc src) n j = 0
  · rw [if_neg (not_not_intro he)]
    exact Ensures.some ⟨h.skipEntry he, rfl⟩
  · rw [if_pos he]
    apply (getFreePage_ensures m.frames fun hav => hpool hav he).bind
    intro r hr
    obtain ⟨f, fr⟩ := r
    obtain ⟨pool, halloc, hfr⟩ := hr
    dsimp only at halloc hfr ⊢
    subst hfr
    have hok := B.pool.alloc_ok halloc
    apply (openWindow_ensures m.tables src f hheap).bind
    intro t ht
    obtain ⟨hopen, htable, pm⟩ := h.openWindow hf ht
    have hslot : t.l1 (.proc dst) n = m.tables.l1 (.proc dst) n :=
      pm.slots _ n fun hw => hf.ne (Pgtable.proc.inj hw.1).symm
    have hw : t.l1 (.proc src) (fixSlot P) ≠ 0 := by
      intro h0
      rw [h0] at htable
      cases htable
    have hput := hopen.putEntry (m.frames.log ++ [.get f]) hsrc hj he hw
      halloc
    have hfit : f * 4096 < addrSpace := by
      have := hok.2.1
      unfold addrSpace
      omega
    -- the window shows the new frame, the page of the parent its own
    have hfix := h.shown hf hsrc hj hok.2.1 ht
      (f * 4096 + B.hw.attrs.small false)
    unfold frameAt at hfix
    have hpage := hput.src_frameAt hf hn hj hsrc he
    have hcontent := h.untouched.page _ (hf.inUse n j hn hj hsrc he)
    rw [Nat.mod_eq_of_lt hfit, ← hslot]
    unfold copyPage
    dsimp only [l2pteFirst, frameAt, Kernel.putEntry] at hpage ⊢
    rw [hfix, Option.bind_some, hpage, Option.map_some, hcontent]
    exact Ensures.some ⟨hput, rfl⟩

end SyeLabs.Kernel
