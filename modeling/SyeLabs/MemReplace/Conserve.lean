/-
No page is lost: what a sequence of accesses leaves in RAM and in swap,
in both modes.

# One fault

Both scans settle on a resident page whenever there is one
(`lruVictim_isSome`, `wscScan_spec`), and neither touches more than
reference bits on the way. So a fault unloads one resident page and
changes no other valid bit, swap bit or page number (`fault_unloads`),
which is all the invariant needs to know of the two algorithms.

# The invariant

`Holds s m` says that the valid and swap bits of the table are those of
the two-level store `m`, which by its type has three resident pages and
none in both places. An access either leaves the store alone or puts the
accessed page in the frame of a resident one.
-/
import Mathlib.Data.Fintype.Basic
import SyeLabs.Lib.Residence
import SyeLabs.MemReplace.Lru

namespace SyeLabs.MemReplace

open Lib

-- ============================================================== bits of a page

/-- The page is in the swap area. -/
def Table.swapped (s : Table) (p : Page) : Bool :=
  checkMask (s.pageTable p) swapBitMask

/-- Bits 7..4 of an entry. -/
def pageNumber (x : BitVec 8) : BitVec 8 := x >>> 4

/-- Two entries that differ at most in the reference bit. -/
def SameButRef (x y : BitVec 8) : Prop :=
  unsetMask x refBitMask = unsetMask y refBitMask

theorem sameButRef_unset (x : BitVec 8) :
    SameButRef (unsetMask x refBitMask) x := by
  revert x
  unfold SameButRef
  decide

/-- What depends on the other bits only is the same. -/
theorem SameButRef.bits {x y : BitVec 8} (h : SameButRef x y) :
    checkMask x validBitMask = checkMask y validBitMask
      ∧ checkMask x swapBitMask = checkMask y swapBitMask
      ∧ pageNumber x = pageNumber y := by
  have hread : ∀ x : BitVec 8,
      checkMask x validBitMask
          = checkMask (unsetMask x refBitMask) validBitMask
        ∧ checkMask x swapBitMask
          = checkMask (unsetMask x refBitMask) swapBitMask
        ∧ pageNumber x = pageNumber (unsetMask x refBitMask) := by decide
  obtain ⟨hv, hs, hn⟩ := hread x
  obtain ⟨hv', hs', hn'⟩ := hread y
  unfold SameButRef at h
  rw [hv, hs, hn, hv', hs', hn', h]
  exact ⟨rfl, rfl, rfl⟩

theorem unloadPage_bits (x : BitVec 8) :
    checkMask (unloadPage x) swapBitMask = true
      ∧ pageNumber (unloadPage x) = pageNumber x := by
  revert x
  decide

/-- The entry `main` leaves for the accessed page. -/
theorem marked_bits (x : BitVec 8) :
    checkMask (unsetMask (setMask x (validBitMask ||| refBitMask))
        swapBitMask) swapBitMask = false
      ∧ pageNumber (unsetMask (setMask x (validBitMask ||| refBitMask))
        swapBitMask) = pageNumber x := by
  revert x
  decide

-- =================================================================== one fault

/-- The LRU scan finds a page when there is a resident one. -/
theorem lruVictim_isSome {s : Table} {p : Page} (hp : s.valid p = true) :
    ∃ v, lruVictim s = some v ∧ s.valid v = true := by
  cases hv : lruVictim s with
  | some v => exact ⟨v, rfl, (lruVictim_eq_some_iff.mp hv).1⟩
  | none =>
      have h := scanInv_foldl s (List.pairwise_lt_finRange 16)
      simp only [lruVictim] at hv
      simp only [ScanInv, hv] at h
      have hnone := h.1 p (List.mem_finRange p)
      rw [hp] at hnone
      cases hnone

/-- The WSC scan clears reference bits and nothing else, and what it
selects is resident: the page it starts with or one it has visited. -/
theorem wscScan_spec (tdu : Page → BitVec 8) (tvc : BitVec 8)
    (is : List Page) (pt : Page → BitVec 8) (swap : Option Page)
    (hswap : ∀ v ∈ swap, checkMask (pt v) validBitMask = true) :
    (∀ q, SameButRef ((wscScan tdu tvc is pt swap).1 q) (pt q))
      ∧ (∀ v ∈ (wscScan tdu tvc is pt swap).2,
          checkMask (pt v) validBitMask = true)
      ∧ (swap.isSome ∨ (∃ i ∈ is, checkMask (pt i) validBitMask = true) →
          (wscScan tdu tvc is pt swap).2.isSome) := by
  induction is generalizing pt swap with
  | nil =>
      refine ⟨fun q => rfl, hswap, ?_⟩
      intro h
      rcases h with h | ⟨i, hi, -⟩
      · exact h
      · cases hi
  | cons i is ih =>
      rw [wscScan]
      by_cases hi : checkMask (pt i) validBitMask = true
      · rw [if_pos hi]
        -- the fallback is set from here on
        have hfall : ∀ v ∈ (if swap.isNone then some i else swap),
            checkMask (pt v) validBitMask = true := by
          intro v hv
          split at hv
          · cases hv
            exact hi
          · exact hswap v hv
        have hset : (if swap.isNone then some i else swap).isSome := by
          cases swap with
          | none => rfl
          | some v => rfl
        by_cases href : checkMask (pt i) refBitMask = true
        · simp only [href, if_true]
          have hsame : ∀ q, SameButRef (Function.update pt i
              (unsetMask (pt i) refBitMask) q) (pt q) := by
            intro q
            by_cases hq : q = i
            · subst hq
              rw [Function.update_self]
              exact sameButRef_unset _
            · rw [Function.update_of_ne hq]
              rfl
          obtain ⟨h1, h2, h3⟩ := ih
            (Function.update pt i (unsetMask (pt i) refBitMask)) _
            (fun v hv => (hsame v).bits.1.trans (hfall v hv))
          refine ⟨fun q => (h1 q).trans (hsame q), fun v hv => ?_,
            fun _ => h3 (Or.inl hset)⟩
          exact (hsame v).bits.1.symm.trans (h2 v hv)
        · simp only [href]
          by_cases hold : (tvc.toNat : Int) - (tdu i).toNat > delta
          · simp only [hold, if_true]
            refine ⟨fun q => rfl, fun v hv => ?_, fun _ => rfl⟩
            cases hv
            exact hi
          · simp only [hold]
            obtain ⟨h1, h2, h3⟩ := ih pt _ hfall
            exact ⟨h1, h2, fun _ => h3 (Or.inl hset)⟩
      · rw [if_neg hi]
        obtain ⟨h1, h2, h3⟩ := ih pt swap hswap
        refine ⟨h1, h2, fun h => h3 ?_⟩
        rcases h with h | ⟨j, hj, hvj⟩
        · exact Or.inl h
        · rcases List.mem_cons.mp hj with rfl | hj
          · exact absurd hvj hi
          · exact Or.inr ⟨j, hj, hvj⟩

/-- The table after the replacement of the mode. -/
def replaceIn (m : Mode) (s : Table) : Table :=
  match m with
  | .lru => replaceLRU s
  | .wsc => replaceWSC s

/-- A fault unloads one resident page; in every other entry it changes
at most the reference bit. -/
theorem fault_unloads (m : Mode) {s : Table} {p : Page}
    (hp : s.valid p = true) :
    ∃ v, s.valid v = true
      ∧ SameButRef ((replaceIn m s).pageTable v) (unloadPage (s.pageTable v))
      ∧ ∀ q, q ≠ v →
        SameButRef ((replaceIn m s).pageTable q) (s.pageTable q) := by
  cases m with
  | lru =>
      obtain ⟨v, hv, hvalid⟩ := lruVictim_isSome hp
      refine ⟨v, hvalid, ?_, fun q hq => ?_⟩
      · simp only [replaceIn, replaceLRU, hv, unload, Function.update_self]
        rfl
      · simp only [replaceIn, replaceLRU, hv, unload]
        rw [Function.update_of_ne hq]
        rfl
  | wsc =>
      obtain ⟨hsame, hvalid, hsome⟩ := wscScan_spec s.tdu s.tvc
        (List.finRange 16) s.pageTable none
        (fun v hv => absurd hv (Option.not_mem_none v))
      obtain ⟨v, hv⟩ := Option.isSome_iff_exists.mp
        (hsome (Or.inr ⟨p, List.mem_finRange p, hp⟩))
      have hunload : ∀ x y : BitVec 8, SameButRef x y →
          SameButRef (unloadPage x) (unloadPage y) := by
        have hread : ∀ x : BitVec 8, unsetMask (unloadPage x) refBitMask
            = unloadPage (unsetMask x refBitMask) := by decide
        intro x y h
        unfold SameButRef at h ⊢
        rw [hread, hread, h]
      refine ⟨v, hvalid v hv, ?_, fun q hq => ?_⟩
      · simp only [replaceIn, replaceWSC, hv, unload, Function.update_self]
        exact hunload _ _ (hsame v)
      · simp only [replaceIn, replaceWSC, hv, unload]
        rw [Function.update_of_ne hq]
        exact hsame q

/-- The clocks leave the page table alone. -/
theorem account_pageTable (m : Mode) (s : Table) (p : Page) :
    (account m s p).pageTable
      = (if s.valid p then s else replaceIn m s).pageTable := by
  cases m with
  | lru => rfl
  | wsc => rfl

-- =============================================================== the invariant

/-- The valid and swap bits of the table are those of the store. -/
def Holds (s : Table) (m : Residence Page 3) : Prop :=
  ∀ q, (s.valid q = true ↔ q ∈ m.ram) ∧ (s.swapped q = true ↔ q ∈ m.swap)

/-- Every entry still names its page. -/
def Numbered (s : Table) : Prop :=
  ∀ q, pageNumber (s.pageTable q) = BitVec.ofNat 8 q.val

/-- Pages 0 to 2 are resident at first and page 3 is in swap. -/
def initResidence : Residence Page 3 where
  ram := Finset.univ.filter fun q => q.val < 3
  swap := Finset.univ.filter fun q => q.val = 3
  full := rfl
  disjoint := by
    intro q hq hqs
    have hlt := (Finset.mem_filter.mp hq).2
    have heq := (Finset.mem_filter.mp hqs).2
    omega

theorem holds_init : Holds initPageTable initResidence := by
  unfold Holds
  decide

theorem numbered_init : Numbered initPageTable := by
  unfold Numbered
  decide

/-- What the accounting part of an access does to the page table:
nothing on a hit, one page unloaded on a fault. -/
theorem account_cases (m : Mode) (s : Table) {p r : Page}
    (hr : s.valid r = true) :
    (s.valid p = true ∧ (account m s p).pageTable = s.pageTable)
    ∨ (s.valid p = false ∧ ∃ v, s.valid v = true
      ∧ SameButRef ((account m s p).pageTable v)
          (unloadPage (s.pageTable v))
      ∧ ∀ q, q ≠ v →
        SameButRef ((account m s p).pageTable q) (s.pageTable q)) := by
  rw [account_pageTable]
  cases hp : s.valid p with
  | true => exact Or.inl ⟨rfl, rfl⟩
  | false => exact Or.inr ⟨rfl, fault_unloads m hr⟩

/-- The accessed page is resident and out of swap; every other entry is
as the accounting part left it. -/
theorem access_bits (m : Mode) (s : Table) (p : Page) :
    (access m s p).valid p = true ∧ (access m s p).swapped p = false
      ∧ ∀ q, q ≠ p →
        (access m s p).pageTable q = (account m s p).pageTable q := by
  refine ⟨?_, ?_, fun q hq => Function.update_of_ne hq _ _⟩
  · simp only [access, Table.valid, Function.update_self]
    exact checkMask_marked _
  · simp only [access, Table.swapped, Function.update_self]
    exact (marked_bits _).1

/-- No access changes a page number. -/
theorem access_number (m : Mode) {s : Table} {p r : Page}
    (hr : s.valid r = true) (q : Page) :
    pageNumber ((access m s p).pageTable q)
      = pageNumber (s.pageTable q) := by
  have hmark : pageNumber ((access m s p).pageTable q)
      = pageNumber ((account m s p).pageTable q) := by
    by_cases hq : q = p
    · subst hq
      simp only [access, Function.update_self]
      exact (marked_bits _).2
    · rw [(access_bits m s p).2.2 q hq]
  rw [hmark]
  rcases account_cases m s (p := p) hr with ⟨-, h⟩ | ⟨-, v, -, hv, h⟩
  · rw [h]
  · by_cases hq : q = v
    · subst hq
      rw [hv.bits.2.2, (unloadPage_bits _).2]
    · exact (h q hq).bits.2.2

/-- An access leaves the store alone or puts the accessed page in the
frame of a resident one. -/
theorem holds_access (mode : Mode) {s : Table} {m : Residence Page 3}
    (h : Holds s m) (p : Page) :
    ∃ m', Holds (access mode s p) m' ∧ p ∈ m'.ram
      ∧ ∀ q, q ∈ m'.held ↔ q = p ∨ q ∈ m.held := by
  obtain ⟨r, hr⟩ : ∃ r, r ∈ m.ram :=
    Finset.card_pos.mp (by rw [m.full]; decide)
  obtain ⟨hvalid, hswap, hother⟩ := access_bits mode s p
  rcases account_cases mode s (p := p) ((h r).1.mpr hr) with
    ⟨hp, hsame⟩ | ⟨hp, v, hv, hunload, hsame⟩
  · have hpm : p ∈ m.ram := (h p).1.mp hp
    refine ⟨m, fun q => ?_, hpm, fun q => ?_⟩
    · by_cases hq : q = p
      · subst hq
        rw [hvalid, hswap]
        exact ⟨by simp [hpm], by simp [m.disjoint q hpm]⟩
      · unfold Table.valid Table.swapped
        rw [hother q hq, hsame]
        exact h q
    · constructor
      · exact Or.inr
      · intro h
        rcases h with rfl | hq
        · exact Residence.mem_held.mpr (Or.inl hpm)
        · exact hq
  · have hvm : v ∈ m.ram := (h v).1.mp hv
    have hpm : p ∉ m.ram := by
      intro hin
      rw [(h p).1.mpr hin] at hp
      cases hp
    have hvp : v ≠ p := fun heq => hpm (heq ▸ hvm)
    refine ⟨m.replace v p hvm hpm, fun q => ?_,
      Finset.mem_insert_self p _, fun q => Residence.mem_replace⟩
    simp only [Residence.replace, Finset.mem_insert, Finset.mem_erase]
    by_cases hq : q = p
    · subst hq
      rw [hvalid, hswap]
      exact ⟨by simp, by simp⟩
    · unfold Table.valid Table.swapped
      rw [hother q hq]
      by_cases hqv : q = v
      · -- the page whose frame was taken
        subst hqv
        rw [hunload.bits.1, hunload.bits.2.1, checkMask_unloadPage,
          (unloadPage_bits _).1]
        exact ⟨by simp [hq], by simp [hq]⟩
      · rw [(hsame q hqv).bits.1, (hsame q hqv).bits.2.1]
        exact ⟨by simpa [hq, hqv, Table.valid] using (h q).1,
          by simpa [hq, hqv, Table.swapped] using (h q).2⟩

-- ==================================================================== the runs

/-- What holds after the accesses `ps`: three pages are resident, none
is in RAM and in swap, those in either are the first four and the
accessed ones, and every entry names its page. -/
structure Conserved (ps : List Page) (s : Table) : Prop where
  resident : ((List.finRange 16).filter s.valid).length = 3
  apart : ∀ q, ¬ (s.valid q = true ∧ s.swapped q = true)
  kept : ∀ q, s.valid q = true ∨ s.swapped q = true
    ↔ q ∈ ([0, 1, 2, 3] : List Page) ∨ q ∈ ps
  numbered : Numbered s

/-- A table that is in step with a store. -/
theorem Holds.conserved {s : Table} {m : Residence Page 3} {ps : List Page}
    (h : Holds s m) (hn : Numbered s)
    (hheld : ∀ q, q ∈ m.held ↔ q ∈ ([0, 1, 2, 3] : List Page) ∨ q ∈ ps) :
    Conserved ps s where
  resident := by
    have hnodup : ((List.finRange 16).filter s.valid).Nodup :=
      (List.nodup_finRange 16).filter _
    rw [← List.toFinset_card_of_nodup hnodup]
    have hram : ((List.finRange 16).filter s.valid).toFinset = m.ram := by
      ext q
      simp [(h q).1]
    rw [hram, m.full]
  apart := fun q hq =>
    m.disjoint q ((h q).1.mp hq.1) ((h q).2.mp hq.2)
  kept := fun q => by
    rw [(h q).1, (h q).2, ← hheld q, Residence.mem_held]
  numbered := hn

/-- Along a run the table is in step with a store that holds the first
four pages and the accessed ones. -/
theorem run_holds (mode : Mode) (ps : List Page) :
    Numbered (run mode ps) ∧ ∃ m, Holds (run mode ps) m
      ∧ ∀ q, q ∈ m.held ↔ q ∈ ([0, 1, 2, 3] : List Page) ∨ q ∈ ps := by
  induction ps using List.reverseRecOn with
  | nil =>
      refine ⟨numbered_init, initResidence, holds_init, fun q => ?_⟩
      revert q
      decide
  | append_singleton ps p ih =>
      obtain ⟨hn, m, hm, hheld⟩ := ih
      obtain ⟨r, hr⟩ := run_valid_nonempty mode ps
      obtain ⟨m', hm', -, hheld'⟩ := holds_access mode hm p
      rw [run_snoc]
      refine ⟨fun q => (access_number mode hr q).trans (hn q), m', hm',
        fun q => ?_⟩
      rw [hheld' q, hheld q, List.mem_append, List.mem_singleton]
      tauto

/-- After every access of every sequence, in both modes: three pages are
resident, the accessed one among them; none is in RAM and in swap; no
page is lost; the entries keep their numbers. -/
theorem frames_conserved (mode : Mode) (ps : List Page) (p : Page) :
    (run mode (ps ++ [p])).valid p = true
      ∧ Conserved (ps ++ [p]) (run mode (ps ++ [p])) := by
  obtain ⟨hn, m, hm, hheld⟩ := run_holds mode (ps ++ [p])
  refine ⟨?_, hm.conserved hn hheld⟩
  rw [run_snoc]
  exact (access_bits mode _ p).1

end SyeLabs.MemReplace
