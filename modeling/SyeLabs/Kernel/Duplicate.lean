/-
`duplicate_user_space` as a whole: its loops, the window closed behind
them, and what the two address spaces are afterwards.

The loops return if there is memory for the child. `Took` counts what
they have taken so far, a frame for each page copied and an L2 table for
each slot, and one for the window from the first page on; `Room` says
that the pool and the heap have as much.
-/
import SyeLabs.Kernel.Fork

namespace SyeLabs.Kernel

open Lib Mmu

variable {P : Platform} {H F : Type*} {B : Board P H F}

-- =============================================================== what is taken

/-- The pages behind the first `j` entries of slot `i`. -/
def slotPages (t : PageTables H) (g : Pgtable) (i j : Nat) : Nat :=
  if t.l1 g i = 0 then 0
  else ((List.range j).filter fun x => entry t g i x ≠ 0).length

/-- The pages behind the first `n` slots. -/
def pagesBelow (t : PageTables H) (g : Pgtable) : Nat → Nat
  | 0 => 0
  | n + 1 => pagesBelow t g n + slotPages t g n 256

/-- How many of the first `n` slots are in use. -/
def slotsUsed (t : PageTables H) (g : Pgtable) : Nat → Nat
  | 0 => 0
  | n + 1 => slotsUsed t g n + if t.l1 g n = 0 then 0 else 1

variable (B) in
/-- There is memory for a child: a frame for each page of the parent, an
L2 table for each of its slots and one for the window. -/
def Room (m : Machine H F) (src : Nat) : Prop :=
  (∃ fs pool, B.pool.Takes m.frames.pool fs pool
    ∧ fs.length = pagesBelow m.tables (.proc src) P.userSlots)
  ∧ ∃ bs heap, B.hw.heap.Takes m.tables.heap bs heap
    ∧ bs.length = slotsUsed m.tables (.proc src) P.userSlots + 1

/-- The fork has taken `k` frames and `l` tables, and one more for the
window if that is open. -/
structure Took (B : Board P H F) (m₀ m : Machine H F) (src k l : Nat) :
    Prop where
  frames : ∃ fs, B.pool.Takes m₀.frames.pool fs m.frames.pool
    ∧ fs.length = k
  blocks : ∃ bs, B.hw.heap.Takes m₀.tables.heap bs m.tables.heap
    ∧ bs.length ≤ l + 1
    ∧ (m.tables.l1 (.proc src) (fixSlot P) = 0 → bs.length ≤ l)

theorem slotPages_succ {t : PageTables H} {g : Pgtable} {i : Nat} (j : Nat)
    (h : t.l1 g i ≠ 0) :
    slotPages t g i (j + 1)
      = slotPages t g i j + if entry t g i j ≠ 0 then 1 else 0 := by
  unfold slotPages
  rw [if_neg h, if_neg h, List.range_succ, List.filter_append,
    List.length_append]
  by_cases he : entry t g i j = 0
  · simp [he]
  · simp [he]

theorem slotPages_mono {t : PageTables H} {g : Pgtable} {i j j' : Nat}
    (h : j ≤ j') : slotPages t g i j ≤ slotPages t g i j' := by
  unfold slotPages
  split
  next => exact Nat.le_refl 0
  next =>
    exact ((List.range_sublist.mpr h).filter _).length_le

theorem pagesBelow_mono {t : PageTables H} {g : Pgtable} {n n' : Nat}
    (h : n ≤ n') : pagesBelow t g n ≤ pagesBelow t g n' := by
  induction h with
  | refl => exact Nat.le_refl _
  | step _ ih => exact ih.trans (Nat.le_add_right _ _)

theorem slotsUsed_mono {t : PageTables H} {g : Pgtable} {n n' : Nat}
    (h : n ≤ n') : slotsUsed t g n ≤ slotsUsed t g n' := by
  induction h with
  | refl => exact Nat.le_refl _
  | step _ ih => exact ih.trans (Nat.le_add_right _ _)

variable {m₀ m m' : Machine H F} {src dst n j k l : Nat}

/-- Where a frame is still to be taken there is one. -/
theorem Took.frame (h : Took B m₀ m src k l) (hroom : Room B m₀ src)
    (hk : k < pagesBelow m₀.tables (.proc src) P.userSlots) :
    ∃ r, B.pool.alloc m.frames.pool = some r := by
  obtain ⟨fs, htook, hlen⟩ := h.frames
  obtain ⟨fs', pool, hall, hlen'⟩ := hroom.1
  exact htook.more hall (by omega)

/-- Where a table is still to be taken there is one. -/
theorem Took.table (h : Took B m₀ m src k l) (hroom : Room B m₀ src)
    (hl : l < slotsUsed m₀.tables (.proc src) P.userSlots) :
    ∃ r, B.hw.heap.alloc m.tables.heap = some r := by
  obtain ⟨bs, htook, hlen, -⟩ := h.blocks
  obtain ⟨bs', heap, hall, hlen'⟩ := hroom.2
  exact htook.more hall (by omega)

/-- And one for the window until it is open. -/
theorem Took.window (h : Took B m₀ m src k l) (hroom : Room B m₀ src)
    (hl : l ≤ slotsUsed m₀.tables (.proc src) P.userSlots)
    (h0 : m.tables.l1 (.proc src) (fixSlot P) = 0) :
    ∃ r, B.hw.heap.alloc m.tables.heap = some r := by
  obtain ⟨bs, htook, -, hclosed⟩ := h.blocks
  obtain ⟨bs', heap, hall, hlen'⟩ := hroom.2
  have hlen := hclosed h0
  exact htook.more hall (by omega)

theorem took_start : Took B m m src 0 0 where
  frames := ⟨[], rfl, rfl⟩
  blocks := ⟨[], rfl, Nat.zero_le _, fun _ => Nat.le_refl 0⟩

/-- A new table of the child. -/
theorem Took.newL2 {t : PageTables H} (h : Took B m₀ m src k l)
    (hne : src ≠ dst)
    (hnew : Mmu.newL2 B.hw m.tables (.proc dst) n false = some t) :
    Took B m₀ { m with tables := t } src k (l + 1) := by
  obtain ⟨b, halloc, -, hslots, -⟩ := newL2_eq hnew
  obtain ⟨bs, htook, hlen, hclosed⟩ := h.blocks
  have hfix : t.l1 (.proc src) (fixSlot P)
      = m.tables.l1 (.proc src) (fixSlot P) :=
    hslots _ _ fun hw => hne (Pgtable.proc.inj hw.1)
  refine ⟨h.frames, bs ++ [b], htook.snoc halloc, ?_, fun h0 => ?_⟩
  · rw [List.length_append]
    exact Nat.succ_le_succ hlen
  · rw [List.length_append]
    exact Nat.succ_le_succ (hclosed (hfix ▸ h0))

/-- The window is opened at most once. -/
theorem Took.openWindow {t : PageTables H} {f : Nat}
    (h : Took B m₀ m src k l)
    (hmap : createMapping B.hw m.tables (some (.proc src)) P.fixmapMapping
      (f * 4096) 4096 false = some t) :
    Took B m₀ { m with tables := t } src k l := by
  rw [createMapping_page B.hw _ _ P.fixmapMapping_aligned] at hmap
  obtain ⟨t₁, hens, rfl⟩ := Option.map_eq_some_iff.mp hmap
  obtain ⟨bs, htook, hlen, hclosed⟩ := h.blocks
  refine ⟨h.frames, ?_⟩
  simp only [invalSys_heap, invalSys_l1, setL2_heap, setL2_l1]
  unfold ensureL2 at hens
  split at hens
  next h0 =>
    obtain ⟨b, halloc, hword, -⟩ := newL2_eq hens
    refine ⟨bs ++ [b], htook.snoc halloc, ?_, fun hw => ?_⟩
    · rw [List.length_append]
      exact Nat.succ_le_succ (hclosed h0)
    · have htable := l1Word_isTable B.hw b false
      rw [fixSlot, hword] at hw
      rw [hw] at htable
      cases htable
  next =>
    cases hens
    exact ⟨bs, htook, hlen, hclosed⟩

/-- The body of the inner loop takes a frame for a page. -/
theorem Took.copyEntry {x y : Nat} (h : Took B m₀ m src k l)
    (hrun : copyEntry B (.proc src) dst n x y j m = some m') :
    Took B m₀ m' src (k + if m.tables.l2 (x + j) ≠ 0 then 1 else 0) l := by
  unfold Kernel.copyEntry at hrun
  split at hrun
  next he =>
    rw [if_pos he]
    obtain ⟨⟨f, fr⟩, hget, hrun⟩ := Option.bind_eq_some_iff.mp hrun
    obtain ⟨t, hmap, hrun⟩ := Option.bind_eq_some_iff.mp hrun
    obtain ⟨d, -, hrun⟩ := Option.bind_eq_some_iff.mp hrun
    obtain ⟨e, -, rfl⟩ := Option.map_eq_some_iff.mp hrun
    obtain ⟨pool, halloc, hfr⟩ := getFreePage_eq hget
    dsimp only at halloc hfr hmap
    subst hfr
    obtain ⟨fs, htook, hlen⟩ := h.frames
    refine ⟨⟨fs ++ [f], htook.snoc halloc, ?_⟩, (h.openWindow hmap).blocks⟩
    rw [List.length_append, hlen]
    rfl
  next he =>
    rw [if_neg he]
    cases hrun
    exact h

-- =================================================================== the loops

/-- The body of the outer loop. -/
theorem Copying.copySlot (h : Copying B m₀ m src dst n 256)
    (ht : Took B m₀ m src (pagesBelow m₀.tables (.proc src) n)
      (slotsUsed m₀.tables (.proc src) n))
    (hf : Forkable B m₀ src dst) (hn : n < P.userSlots) :
    Ensures (Room B m₀ src) (copySlot B (.proc src) src dst n m)
      fun m' => Copying B m₀ m' src dst (n + 1) 256
        ∧ Took B m₀ m' src (pagesBelow m₀.tables (.proc src) (n + 1))
          (slotsUsed m₀.tables (.proc src) (n + 1)) := by
  unfold Kernel.copySlot
  dsimp only
  rw [h.src_slot hf hn]
  by_cases hsrc : m₀.tables.l1 (.proc src) n = 0
  · rw [if_neg (not_not_intro hsrc), pagesBelow, slotPages, if_pos hsrc,
      slotsUsed, if_pos hsrc]
    exact Ensures.some ⟨h.skip hsrc, ht⟩
  · rw [if_pos hsrc, if_neg (not_isSect_of_isTable (hf.user n hn hsrc))]
    have hused : slotsUsed m₀.tables (.proc src) (n + 1)
        = slotsUsed m₀.tables (.proc src) n + 1 := by
      rw [slotsUsed, if_neg hsrc]
    have hslots : slotsUsed m₀.tables (.proc src) (n + 1)
        ≤ slotsUsed m₀.tables (.proc src) P.userSlots := slotsUsed_mono hn
    have hnew : Ensures (Room B m₀ src)
        (Mmu.newL2 B.hw m.tables (.proc dst) n false)
        fun t => Mmu.newL2 B.hw m.tables (.proc dst) n false = some t := by
      apply Ensures.self
      intro hroom
      obtain ⟨r, hr⟩ := ht.table hroom (by omega)
      exact ⟨_, Option.map_eq_some_iff.mpr ⟨r, hr, rfl⟩⟩
    apply hnew.bind
    intro t hnew
    have hzero : slotPages m₀.tables (.proc src) n 0 = 0 := if_neg hsrc
    refine (Ensures.forRange
      (I := fun j m' => Copying B m₀ m' src dst (n + 1) j
        ∧ m'.tables.l1 (.proc dst) n = t.l1 (.proc dst) n
        ∧ Took B m₀ m' src (pagesBelow m₀.tables (.proc src) n
            + slotPages m₀.tables (.proc src) n j)
          (slotsUsed m₀.tables (.proc src) (n + 1)))
      ⟨h.newL2 hf hn hsrc hnew, rfl, ?_⟩ ?_).mono
        fun m' hm' => ⟨hm'.1, hm'.2.2⟩
    · rw [hzero, Nat.add_zero, hused]
      exact ht.newL2 hf.ne hnew
    · intro j m' hj hm'
      obtain ⟨hcopying, hslot, htook⟩ := hm'
      have hword : m'.tables.l2 (l2pteFirst (m₀.tables.l1 (.proc src) n) + j)
          = entry m₀.tables (.proc src) n j := by
        rw [← hcopying.src_entry hf hn hj hsrc, entry,
          hcopying.src_slot hf hn]
        rfl
      have hpages : pagesBelow m₀.tables (.proc src) n
            + slotPages m₀.tables (.proc src) n (j + 1)
          ≤ pagesBelow m₀.tables (.proc src) P.userSlots :=
        (Nat.add_le_add_left (slotPages_mono hj) _).trans (pagesBelow_mono hn)
      rw [slotPages_succ j hsrc] at hpages
      have hbody := hcopying.copyEntry hf hn hsrc hj
        (fun (hroom : Room B m₀ src) h0 => htook.window hroom hslots h0)
        (fun hroom he => htook.frame hroom (by
          rw [if_pos he] at hpages
          omega))
      rw [hslot] at hbody
      refine ⟨fun m'' hm'' => ?_, hbody.2⟩
      obtain ⟨hcopying', hslot'⟩ := hbody.1 m'' hm''
      have htook' := htook.copyEntry hm''
      rw [hword, Nat.add_assoc, ← slotPages_succ j hsrc] at htook'
      exact ⟨hcopying', hslot', htook'⟩

/-- Both loops of `duplicate_user_space`. -/
theorem copyLoops (hf : Forkable B m src dst) :
    Ensures (Room B m src)
      (forRange P.userSlots (copySlot B (.proc src) src dst) m)
      fun m' => Copying B m m' src dst P.userSlots 256 :=
  (Ensures.forRange
    (I := fun n m' => Copying B m m' src dst n 256
      ∧ Took B m m' src (pagesBelow m.tables (.proc src) n)
        (slotsUsed m.tables (.proc src) n))
    ⟨copying_start hf, took_start⟩
    fun _ _ hn h => h.1.copySlot h.2 hf hn).mono fun _ h => h.1

-- ========================================================== closing the window

/-- Closing the window: its word is cleared, and its L2 table freed if
that was the last word. -/
def closed (B : Board P H F) (m : Machine H F) (src : Nat) :
    Machine H F :=
  { m with
    tables := freeIfEmpty B.hw
      (m.tables.setL2
        (l2Block (m.tables.l1 (.proc src) (fixSlot P)) * 256 + fixEntry P)
        0)
      (.proc src) (fixSlot P) }

theorem duplicateUserSpace_eq (m : Machine H F) (src dst : Nat) :
    duplicateUserSpace B (.proc src) m src dst
      = (forRange P.userSlots (copySlot B (.proc src) src dst) m).map
        fun m => closed B m src := by
  unfold duplicateUserSpace
  rw [Option.map_eq_bind]
  congr 1
  funext m'
  rw [releaseMapping_page B.hw _ _ P.fixmapMapping_aligned]
  rfl

/-- A user entry of parent or child is past its slot and its table. -/
theorem closed_l1 (m : Machine H F) {src i : Nat} {g : Pgtable}
    (h : ¬ (g = .proc src ∧ i = fixSlot P)) :
    (closed B m src).tables.l1 g i = m.tables.l1 g i :=
  freeIfEmpty_l1 _ h

theorem closed_entry {m : Machine H F} {src i x : Nat} {g : Pgtable}
    (h : ¬ (g = .proc src ∧ i = fixSlot P)) (hx : x < 256)
    (hblock : m.tables.l1 (.proc src) (fixSlot P) ≠ 0 →
      l2Block (m.tables.l1 g i)
        ≠ l2Block (m.tables.l1 (.proc src) (fixSlot P)))
    (hzero : m.tables.l1 (.proc src) (fixSlot P) = 0 →
      entry m.tables g i x = 0) :
    entry (closed B m src).tables g i x = entry m.tables g i x := by
  have hx' := fixEntry_lt P
  rw [entry, closed_l1 m h]
  show (freeIfEmpty B.hw _ _ _).l2 _ = _
  rw [freeIfEmpty_l2]
  by_cases hw : m.tables.l1 (.proc src) (fixSlot P) = 0
  · -- without a window nothing was copied: the word is zero anyway
    by_cases heq : l2Block (m.tables.l1 g i) * 256 + x
        = l2Block (m.tables.l1 (.proc src) (fixSlot P)) * 256
          + fixEntry P
    · rw [heq, setL2_self, hzero hw]
    · rw [setL2_other _ _ heq, entry]
  · have hne := hblock hw
    rw [setL2_other _ _ (by omega), entry]

/-- What `duplicate_user_space` leaves of parent and child. -/
structure Duplicated (B : Board P H F) (m₀ m : Machine H F)
    (src dst : Nat) : Prop where
  src_slot : ∀ i, i < P.userSlots →
    m.tables.l1 (.proc src) i = m₀.tables.l1 (.proc src) i
  src_entry : ∀ i x, i < P.userSlots → x < 256 →
    m₀.tables.l1 (.proc src) i ≠ 0 →
    entry m.tables (.proc src) i x = entry m₀.tables (.proc src) i x
  empty : ∀ i, i < P.userSlots → m₀.tables.l1 (.proc src) i = 0 →
    m.tables.l1 (.proc dst) i = 0
  table : ∀ i, i < P.userSlots → m₀.tables.l1 (.proc src) i ≠ 0 →
    l1pteIsTable (m.tables.l1 (.proc dst) i)
  entries : ∀ i x, i < P.userSlots → x < 256 →
    m₀.tables.l1 (.proc src) i ≠ 0 →
    (entry m.tables (.proc dst) i x = 0
      ∧ entry m₀.tables (.proc src) i x = 0)
    ∨ (entry m₀.tables (.proc src) i x ≠ 0 ∧ Copied B m₀ m src dst i x)
  single : ∀ i x i' x', i < P.userSlots → i' < P.userSlots → x < 256 →
    x' < 256 → m₀.tables.l1 (.proc src) i ≠ 0 →
    m₀.tables.l1 (.proc src) i' ≠ 0 →
    entry m.tables (.proc dst) i x ≠ 0 →
    entry m.tables (.proc dst) i' x' ≠ 0 →
    entry m.tables (.proc dst) i x / 4096
      = entry m.tables (.proc dst) i' x' / 4096 → i = i' ∧ x = x'
  page : ∀ f, Taken B.pool m₀.frames.pool f → m.page f = m₀.page f

theorem Copying.closed {m₀ m : Machine H F} {src dst : Nat}
    (h : Copying B m₀ m src dst P.userSlots 256)
    (hf : Forkable B m₀ src dst) :
    Duplicated B m₀ (closed B m src) src dst := by
  have hc := h.child
  have hpassed : ∀ i x, i < P.userSlots → x < 256 →
      Passed P.userSlots 256 i x := by
    intro i x hi hx
    unfold Passed
    omega
  have hsrc_slot : ∀ i, i < P.userSlots →
      ¬ (Pgtable.proc src = .proc src ∧ i = fixSlot P) :=
    fun i hi hw => (hi.trans_le (userSlots_le_fixSlot P)).ne hw.2
  have hdst_slot : ∀ i,
      ¬ (Pgtable.proc dst = .proc src ∧ i = fixSlot P) :=
    fun i hw => hf.ne (Pgtable.proc.inj hw.1).symm
  have hsrc : ∀ i x, i < P.userSlots → x < 256 →
      m₀.tables.l1 (.proc src) i ≠ 0 →
      entry (Kernel.closed B m src).tables (.proc src) i x
        = entry m.tables (.proc src) i x := by
    intro i x hi hx hne
    refine closed_entry (hsrc_slot i hi) hx (fun hw => ?_) fun hw => ?_
    · rw [h.src_slot hf hi]
      by_cases h0 : m₀.tables.l1 (.proc src) (fixSlot P) = 0
      · exact fun heq => (h.window.new h0 hw).2.2.1
          (heq ▸ (hf.user_block hi hne).1)
      · rw [h.window.kept h0]
        exact (hf.user_block hi hne).2 h0
    · rw [h.src_entry hf hi hx hne]
      rcases hc.entries i x hi hx hne with ⟨-, hp⟩ | ⟨-, f, hword, -⟩
      · exact hp (hpassed i x hi hx)
      · rw [hc.opened hw i x hi hx hne] at hword
        exact absurd hword.symm (smallWord_ne_zero B.hw f false)
  have hdst : ∀ i x, i < P.userSlots → x < 256 →
      m₀.tables.l1 (.proc src) i ≠ 0 →
      entry (Kernel.closed B m src).tables (.proc dst) i x
        = entry m.tables (.proc dst) i x :=
    fun i x hi hx hne => closed_entry (hdst_slot i) hx
      (hc.apart i hi hne) fun hw => hc.opened hw i x hi hx hne
  constructor
  case src_slot =>
    exact fun i hi => (closed_l1 m (hsrc_slot i hi)).trans (h.src_slot hf hi)
  case src_entry =>
    exact fun i x hi hx hne =>
      (hsrc i x hi hx hne).trans (h.src_entry hf hi hx hne)
  case empty =>
    exact fun i hi h0 => (closed_l1 m (hdst_slot i)).trans
      (hc.empty i hi (Or.inr h0))
  case table =>
    intro i hi hne
    rw [closed_l1 m (hdst_slot i)]
    exact (hc.table i hi hne).1
  case entries =>
    intro i x hi hx hne
    simp only [Copied, hdst i x hi hx hne]
    exact (hc.entries i x hi hx hne).imp_left fun hz =>
      ⟨hz.1, hz.2 (hpassed i x hi hx)⟩
  case single =>
    intro i x i' x' hi hi' hx hx' hne hne' he he' heq
    rw [hdst i x hi hx hne] at he heq
    rw [hdst i' x' hi' hx' hne'] at he' heq
    exact hc.single i x i' x' hi hi' hx hx' hne hne' he he' heq
  case page => exact h.untouched.page

-- ========================================================== the address spaces

/-- The byte a program sees at `v`. -/
def byteAt (m : Machine H F) (g : Pgtable) (v : Nat) : Option UInt8 :=
  (walk m.tables g v).map fun a => m.page (a / 4096) (a % 4096)

/-- The first `n` slots of a table refer to small pages only. -/
structure SmallPages (t : PageTables H) (g : Pgtable) (n : Nat) : Prop where
  table : ∀ i, i < n → t.l1 g i ≠ 0 → l1pteIsTable (t.l1 g i)
  small : ∀ i x, i < n → x < 256 → t.l1 g i ≠ 0 → entry t g i x ≠ 0 →
    2 ≤ entry t g i x % 4

/-- A user address lies in a user slot. -/
theorem slot_lt_userSlots {v : Nat} (hv : v < P.kernelVaddr) :
    l1pteIndex v < P.userSlots := by
  have := P.kernelVaddr_aligned
  unfold l1pteIndex Platform.userSlots
  omega

/-- An address of the parent and of the child: unmapped in both, or
mapped in both, the page of the child holding what that of the parent
held. -/
theorem Duplicated.walk_cases {m₀ m : Machine H F} {src dst v : Nat}
    (h : Duplicated B m₀ m src dst) (hf : Forkable B m₀ src dst)
    (hv : v < P.kernelVaddr) :
    (walk m.tables (.proc dst) v = none
      ∧ walk m₀.tables (.proc src) v = none)
    ∨ ∃ f e, walk m.tables (.proc dst) v = some (f * 4096 + v % 4096)
      ∧ walk m₀.tables (.proc src) v = some (e * 4096 + v % 4096)
      ∧ Taken B.pool m₀.frames.pool e ∧ ¬ Taken B.pool m₀.frames.pool f
      ∧ m.page f = m₀.page e
      ∧ m₀.tables.l1 (.proc src) (l1pteIndex v) ≠ 0
      ∧ entry m.tables (.proc dst) (l1pteIndex v) (v / 4096 % 256)
        = f * 4096 + B.hw.attrs.small false := by
  have hi := slot_lt_userSlots hv
  have hx : v / 4096 % 256 < 256 := Nat.mod_lt _ (by decide)
  by_cases hne : m₀.tables.l1 (.proc src) (l1pteIndex v) = 0
  · exact Or.inl ⟨walk_of_empty (h.empty _ hi hne), walk_of_empty hne⟩
  · rw [walk_of_entry (h.table _ hi hne),
      walk_of_entry (hf.user _ hi hne)]
    rcases h.entries _ _ hi hx hne with
      ⟨hz, hz'⟩ | ⟨he, f, hword, hnl, -, -, hpage⟩
    · rw [hz, hz', l2Walk_zero]
      exact Or.inl ⟨rfl, rfl⟩
    · refine Or.inr ⟨f, _, ?_, ?_, hf.inUse _ _ hi hx hne he, hnl, hpage,
        hne, hword⟩
      · rw [hword, l2Walk_small (Nat.mul_mod_left f 4096)
          (B.hw.attrs.small_lt _) (B.hw.attrs.small_type _)]
      · rw [l2Walk, if_pos (hf.small _ _ hi hx hne he)]

theorem Duplicated.src_walk {m₀ m : Machine H F} {src dst v : Nat}
    (h : Duplicated B m₀ m src dst)
    (hv : v < P.kernelVaddr) :
    walk m.tables (.proc src) v = walk m₀.tables (.proc src) v := by
  have hi := slot_lt_userSlots hv
  have hx : v / 4096 % 256 < 256 := Nat.mod_lt _ (by decide)
  apply walk_congr (h.src_slot _ hi)
  intro ht
  have hne : m₀.tables.l1 (.proc src) (l1pteIndex v) ≠ 0 := by
    intro h0
    rw [h0] at ht
    cases ht
  have hentry := h.src_entry _ _ hi hx hne
  rw [entry, h.src_slot _ hi] at hentry
  exact hentry

/-- The frame of an address. -/
theorem frameAt_of_walk {t : PageTables H} {g : Pgtable} {v f : Nat}
    (h : walk t g v = some (f * 4096 + v % 4096)) :
    frameAt t g v = some f := by
  rw [frameAt, h, Option.map_some, Option.some.injEq]
  omega

/-- A frame of the child. -/
theorem Duplicated.child_frame {m₀ m : Machine H F} {src dst v f : Nat}
    (h : Duplicated B m₀ m src dst) (hf : Forkable B m₀ src dst)
    (hv : v < P.kernelVaddr)
    (hfv : frameAt m.tables (.proc dst) v = some f) :
    ¬ Taken B.pool m₀.frames.pool f
      ∧ m₀.tables.l1 (.proc src) (l1pteIndex v) ≠ 0
      ∧ entry m.tables (.proc dst) (l1pteIndex v) (v / 4096 % 256)
        = f * 4096 + B.hw.attrs.small false := by
  rcases h.walk_cases hf hv with
    ⟨hnone, -⟩ | ⟨g, e, hg, -, -, hnl, -, hne, hword⟩
  · rw [frameAt, hnone] at hfv
    cases hfv
  · rw [frameAt_of_walk hg] at hfv
    cases hfv
    exact ⟨hnl, hne, hword⟩

/-- A process can fork if all mapped frames have been handed out. -/
theorem forkable_of_used (hne : src ≠ dst)
    (hwf : WellFormed B.hw m.tables (.proc src))
    (hsmall : SmallPages m.tables (.proc src) P.userSlots)
    (hwindow : m.tables.l1 (.proc src) (fixSlot P) ≠ 0 →
      l1pteIsTable (m.tables.l1 (.proc src) (fixSlot P)))
    (hchild : ∀ i, i < P.userSlots → m.tables.l1 (.proc dst) i = 0)
    (hused : ∀ g v f, v < addrSpace → frameAt m.tables g v = some f →
      Taken B.pool m.frames.pool f) : Forkable B m src dst := by
  refine ⟨hne, hwf, hsmall.table, hwindow, hsmall.small, ?_, hchild⟩
  intro i x hi hx hi0 he
  exact hused (.proc src) (pteIndexToVaddr i x) _
    ((pteIndexToVaddr_lt hi hx).trans_le P.kernelVaddr_le)
    (frameAt_entry hx (hsmall.table i hi hi0)
      (hsmall.small i x hi hx hi0 he))

variable (B)

/-- After `duplicate_user_space` the child maps what the parent maps, to
pages with the contents those of the parent had; its frames are distinct
from each other and from every frame mapped before, and the parent sees
what it saw. The call returns if there is memory for the child. -/
theorem duplicate_user_space_correct (m : Machine H F) (src dst : Nat)
    (hne : src ≠ dst) (hwf : WellFormed B.hw m.tables (.proc src))
    (hsmall : SmallPages m.tables (.proc src) P.userSlots)
    (hwindow : m.tables.l1 (.proc src) (fixSlot P) ≠ 0 →
      l1pteIsTable (m.tables.l1 (.proc src) (fixSlot P)))
    (hchild : ∀ i, i < P.userSlots → m.tables.l1 (.proc dst) i = 0)
    (hused : ∀ g v f, v < addrSpace → frameAt m.tables g v = some f →
      Taken B.pool m.frames.pool f) :
    (∀ m', duplicateUserSpace B (.proc src) m src dst = some m' →
      (∀ v, v < P.kernelVaddr →
        ((walk m'.tables (.proc dst) v).isSome
            ↔ (walk m.tables (.proc src) v).isSome)
          ∧ byteAt m' (.proc dst) v = byteAt m (.proc src) v)
      ∧ (∀ u v f, u < P.kernelVaddr → v < P.kernelVaddr →
        frameAt m'.tables (.proc dst) u = some f →
        frameAt m'.tables (.proc dst) v = some f → u / 4096 = v / 4096)
      ∧ (∀ v f, v < P.kernelVaddr →
        frameAt m'.tables (.proc dst) v = some f →
        ∀ g u, u < addrSpace → frameAt m.tables g u ≠ some f)
      ∧ ∀ v, v < P.kernelVaddr →
        walk m'.tables (.proc src) v = walk m.tables (.proc src) v
          ∧ byteAt m' (.proc src) v = byteAt m (.proc src) v)
    ∧ (Room B m src →
      ∃ m', duplicateUserSpace B (.proc src) m src dst = some m') := by
  have hf : Forkable B m src dst :=
    forkable_of_used hne hwf hsmall hwindow hchild hused
  rw [duplicateUserSpace_eq]
  have hloops := copyLoops hf
  refine ⟨fun m' hm' => ?_, fun hroom => ?_⟩
  · obtain ⟨m₁, hm₁, rfl⟩ := Option.map_eq_some_iff.mp hm'
    have hd := (hloops.1 m₁ hm₁).closed hf
    refine ⟨fun v hv => ?_, fun u v f hu hv hfu hfv => ?_,
      fun v f hv hfv g u hu hgu => ?_, fun v hv => ?_⟩
    · rcases hd.walk_cases hf hv with
        ⟨hc, hp⟩ | ⟨f, e, hc, hp, -, -, hpage, -⟩
      · simp only [byteAt, hc, hp, true_and]
        rfl
      · have hdiv : ∀ a, (a * 4096 + v % 4096) / 4096 = a
            ∧ (a * 4096 + v % 4096) % 4096 = v % 4096 := by
          intro a
          omega
        simp only [byteAt, hc, hp, Option.map_some, hdiv, hpage,
          Option.isSome_some, true_and]
    · obtain ⟨-, hu0, hwu⟩ := hd.child_frame hf hu hfu
      obtain ⟨-, hv0, hwv⟩ := hd.child_frame hf hv hfv
      have hsame := hd.single _ _ _ _ (slot_lt_userSlots hu)
        (slot_lt_userSlots hv) (Nat.mod_lt _ (by decide))
        (Nat.mod_lt _ (by decide)) hu0 hv0
        (hwu ▸ smallWord_ne_zero _ _ _) (hwv ▸ smallWord_ne_zero _ _ _)
        (by rw [hwu, hwv])
      unfold l1pteIndex at hsame
      omega
    · exact (hd.child_frame hf hv hfv).1 (hused g u f hu hgu)
    · have hwalk := hd.src_walk hv
      refine ⟨hwalk, ?_⟩
      rw [byteAt, byteAt, hwalk]
      apply Option.map_congr
      intro a ha
      have hva : v < addrSpace := hv.trans_le P.kernelVaddr_le
      have hlive := hused (.proc src) v (a / 4096) hva
        (by rw [frameAt, Option.mem_def.mp ha, Option.map_some])
      rw [hd.page _ hlive]
  · obtain ⟨m₁, hm₁⟩ := hloops.2 hroom
    exact ⟨_, by rw [hm₁, Option.map_some]⟩

/-- Process 0 with two pages in two slots: at `0x1000`, in frame 100, and
at `0x101000`, in frame 101. -/
def Machine.twoPages :
    Machine (FreeList BlockOk) (FreeList (FrameOk .small)) where
  tables :=
    { l1 := fun g i => if g = .proc 0 ∧ i < 2 then (5 + i) * 1024 + 1 else 0
      l2 := fun x =>
        if x = 5 * 256 + 1 then 100 * 4096 + 2
        else if x = 6 * 256 + 1 then 101 * 4096 + 2
        else 0
      heap := ⟨[1, 2, 3], by decide, by decide⟩
      tlb := [] }
  frames :=
    { pool := ⟨[102, 103], by decide, by decide⟩
      refcount := fun f => if f = 100 ∨ f = 101 then 1 else 0
      pageList := fun p => if p = 0 then [100, 101] else []
      log := [.get 100, .get 101] }
  page := fun f _ => if f = 100 then 42 else if f = 101 then 43 else 0

/-- The slots in use. -/
theorem twoPages_slot {g : Pgtable} {i : Nat}
    (h : Machine.twoPages.tables.l1 g i ≠ 0) :
    g = .proc 0 ∧ i < 2
      ∧ Machine.twoPages.tables.l1 g i = (5 + i) * 1024 + 1 := by
  by_cases hg : g = .proc 0 ∧ i < 2
  · exact ⟨hg.1, hg.2, if_pos hg⟩
  · exact absurd (if_neg hg) h

/-- The entries in use. -/
theorem twoPages_word (x : Nat) :
    Machine.twoPages.tables.l2 x = 0
      ∨ ∃ f, (f = 100 ∨ f = 101)
        ∧ Machine.twoPages.tables.l2 x = f * 4096 + 2 := by
  simp only [Machine.twoPages]
  split
  next => exact Or.inr ⟨100, Or.inl rfl, rfl⟩
  next =>
    split
    next => exact Or.inr ⟨101, Or.inr rfl, rfl⟩
    next => exact Or.inl rfl

theorem twoPages_wellFormed :
    WellFormed Board.small.hw Machine.twoPages.tables (.proc 0) := by
  have hlive : ∀ i, i < 2 →
      Board.small.hw.heap.live Machine.twoPages.tables.heap (5 + i) := by
    intro i hi
    obtain rfl | rfl : i = 0 ∨ i = 1 := by omega
    · exact ⟨by decide, by decide⟩
    · exact ⟨by decide, by decide⟩
  have hne : ∀ {w : Nat}, l1pteIsTable w → w ≠ 0 := by
    intro w hw heq
    subst heq
    cases hw
  refine ⟨fun i _ => ?_, fun i j _ _ hij hi hj => ?_⟩
  · by_cases h0 : Machine.twoPages.tables.l1 (.proc 0) i = 0
    · exact Or.inl h0
    · obtain ⟨-, hi, hw⟩ := twoPages_slot h0
      have hblock : l2Block ((5 + i) * 1024 + 1) = 5 + i := by
        unfold l2Block
        omega
      rw [hw]
      refine Or.inr (Or.inr ⟨?_, ?_⟩)
      · simp only [l1pteIsTable, decide_eq_true_eq]
        omega
      · rw [hblock]
        exact hlive i hi
  · obtain ⟨-, -, hwi⟩ := twoPages_slot (hne hi)
    obtain ⟨-, -, hwj⟩ := twoPages_slot (hne hj)
    rw [hwi, hwj]
    unfold l2Block
    omega

theorem twoPages_table (g : Pgtable) (i : Nat)
    (h : Machine.twoPages.tables.l1 g i ≠ 0) :
    l1pteIsTable (Machine.twoPages.tables.l1 g i) := by
  rw [(twoPages_slot h).2.2]
  simp only [l1pteIsTable, decide_eq_true_eq]
  omega

theorem twoPages_small :
    SmallPages Machine.twoPages.tables (.proc 0) Platform.small.userSlots := by
  refine ⟨fun i _ h => twoPages_table _ i h, fun i x _ _ _ he => ?_⟩
  rcases twoPages_word _ with hz | ⟨f, -, hw⟩
  · exact absurd hz he
  · rw [entry, hw]
    omega

theorem twoPages_window :
    Machine.twoPages.tables.l1 (.proc 0) (fixSlot .small) = 0 := by
  by_contra h
  exact absurd (twoPages_slot h).2.1 (by decide)

theorem twoPages_child (i : Nat) :
    Machine.twoPages.tables.l1 (.proc 1) i = 0 := by
  by_contra h
  exact absurd (Pgtable.proc.inj (twoPages_slot h).1) (by decide)

theorem twoPages_used (g : Pgtable) (v f : Nat)
    (hf : frameAt Machine.twoPages.tables g v = some f) :
    Taken Board.small.pool Machine.twoPages.frames.pool f := by
  have hslot : Machine.twoPages.tables.l1 g (l1pteIndex v) ≠ 0 := by
    intro h0
    rw [frameAt, walk_of_empty h0] at hf
    cases hf
  rw [frameAt, walk_of_entry (twoPages_table _ _ hslot)] at hf
  rcases twoPages_word (l2Block (Machine.twoPages.tables.l1 g
      (l1pteIndex v)) * 256 + v / 4096 % 256) with hz | ⟨e, he, hw⟩
  · rw [entry, hz, l2Walk_zero] at hf
    cases hf
  · rw [entry, hw, l2Walk_small (by omega) (by decide) (by decide),
      Option.map_some, Option.some.injEq] at hf
    have hf' : f = e := by omega
    rw [hf']
    rcases he with rfl | rfl
    · exact Or.inl ⟨by decide, by decide⟩
    · exact Or.inl ⟨by decide, by decide⟩

theorem twoPages_forkable : Forkable Board.small Machine.twoPages 0 1 :=
  forkable_of_used (by decide) twoPages_wellFormed twoPages_small
    (fun h => absurd twoPages_window h) (fun i _ => twoPages_child i)
    fun g v f _ => twoPages_used g v f

theorem twoPages_room : Room Board.small Machine.twoPages 0 :=
  ⟨⟨[102, 103], _, ⟨_, rfl, _, rfl, rfl⟩, by decide +kernel⟩,
    [1, 2, 3], _, ⟨_, rfl, _, rfl, _, rfl, rfl⟩, by decide⟩

/-- A process with two pages forks: the window is mapped to one new frame
and then to the other. -/
theorem duplicate_user_space_correct_two_pages :
    ∃ m', duplicateUserSpace Board.small (.proc 0) .twoPages 0 1 = some m'
      ∧ byteAt m' (.proc 1) 0x1004 = some 42
      ∧ byteAt m' (.proc 1) 0x101004 = some 43 := by
  obtain ⟨hall, hret⟩ := duplicate_user_space_correct Board.small .twoPages
    0 1 (by decide) twoPages_wellFormed twoPages_small
    (fun h => absurd twoPages_window h) (fun i _ => twoPages_child i)
    fun g v f _ => twoPages_used g v f
  obtain ⟨m', hm'⟩ := hret twoPages_room
  obtain ⟨hsame, -⟩ := hall m' hm'
  refine ⟨m', hm', (hsame 0x1004 (by decide)).2.trans ?_,
    (hsame 0x101004 (by decide)).2.trans ?_⟩
  · decide
  · decide

end SyeLabs.Kernel
