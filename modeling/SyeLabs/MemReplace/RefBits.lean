/-
Reference bits and stamps in WSC mode.

# Whose bit is set

`UNLOAD_PAGE` keeps the reference bit, so nothing in it stops a page from
going to swap with the bit set. That it does not happen is the scan's
doing: it clears the bit of every resident page it passes, and stops
only at one whose bit is clear (`wscScan_selected`). Hence a referenced
page is a resident one, in the table an access leaves and in the one
`updateTDU` reads.

# Whose stamp moves

`updateTDU` stamps the referenced pages and no others, so a page that is
not resident keeps its stamp. `StampedAt` is the history of these stamps
along a run; `run_wsc_stamps` says that the bytes the program keeps are
that history modulo 256.
-/
import SyeLabs.MemReplace.AgeTest

namespace SyeLabs.MemReplace

-- =========================================================== around the update

/-- The table `updateTDU` reads when `p` is accessed. -/
def beforeUpdate (s : Table) (p : Page) : Table :=
  if s.valid p then s else replaceWSC s

@[simp] theorem beforeUpdate_tvc (s : Table) (p : Page) :
    (beforeUpdate s p).tvc = s.tvc := by
  unfold beforeUpdate
  split
  · rfl
  · exact unload_tvc _ _

@[simp] theorem beforeUpdate_tdu (s : Table) (p : Page) :
    (beforeUpdate s p).tdu = s.tdu := by
  unfold beforeUpdate
  split
  · rfl
  · exact unload_tdu _ _

/-- The clocks after an access: the referenced pages are stamped with the
old counter. -/
theorem access_wsc_update (s : Table) (p i : Page) :
    (access .wsc s p).tvc = s.tvc + 1
      ∧ (access .wsc s p).tdu i
        = if (beforeUpdate s p).referenced i then s.tvc else s.tdu i := by
  have htvc : (beforeUpdate s p).tvc = s.tvc := beforeUpdate_tvc s p
  have htdu : (beforeUpdate s p).tdu = s.tdu := beforeUpdate_tdu s p
  refine ⟨(access_wsc_clocks s p).1, ?_⟩
  rw [← htvc, ← htdu]
  rfl

/-- What an access leaves of the other pages' entries. -/
theorem access_wsc_pageTable (s : Table) {p q : Page} (hq : q ≠ p) :
    (access .wsc s p).pageTable q = (beforeUpdate s p).pageTable q :=
  Function.update_of_ne hq _ _

-- ================================================= the scan and reference bits

theorem checkMask_unset_ref (x : BitVec 8) :
    checkMask (unsetMask x refBitMask) refBitMask = false := by
  revert x
  decide

theorem checkMask_unloadPage_ref (x : BitVec 8) :
    checkMask (unloadPage x) refBitMask = checkMask x refBitMask := by
  revert x
  decide

/-- The scan sets no reference bit, and the bit of the page it settles on
is clear: it was when the scan stopped there, or the scan has cleared it
on the way. -/
theorem wscScan_selected (tdu : Page → BitVec 8) (tvc : BitVec 8)
    (is : List Page) (pt : Page → BitVec 8) (swap : Option Page)
    (hswap : ∀ v ∈ swap, checkMask (pt v) refBitMask = false) :
    (∀ q, checkMask ((wscScan tdu tvc is pt swap).1 q) refBitMask = true →
        checkMask (pt q) refBitMask = true)
      ∧ ∀ v ∈ (wscScan tdu tvc is pt swap).2,
          checkMask ((wscScan tdu tvc is pt swap).1 v) refBitMask
            = false := by
  induction is generalizing pt swap with
  | nil => exact ⟨fun _ h => h, hswap⟩
  | cons i is ih =>
      rw [wscScan]
      by_cases hi : checkMask (pt i) validBitMask = true
      · rw [if_pos hi]
        by_cases href : checkMask (pt i) refBitMask = true
        · -- the bit of `i` is cleared, so `i` may be the fallback
          simp only [href, if_true]
          have hclear : ∀ q, checkMask (Function.update pt i
              (unsetMask (pt i) refBitMask) q) refBitMask = true →
              q ≠ i ∧ checkMask (pt q) refBitMask = true := by
            intro q hq
            by_cases hqi : q = i
            · subst hqi
              rw [Function.update_self, checkMask_unset_ref] at hq
              cases hq
            · rw [Function.update_of_ne hqi] at hq
              exact ⟨hqi, hq⟩
          obtain ⟨hkeep, hsel⟩ := ih
            (Function.update pt i (unsetMask (pt i) refBitMask))
            (if swap.isNone then some i else swap) (by
              intro v hv
              by_contra hset
              obtain ⟨hvi, hset⟩ := hclear v (by simpa using hset)
              split at hv
              · cases hv
                exact hvi rfl
              · rw [hswap v hv] at hset
                cases hset)
          exact ⟨fun q hq => (hclear q (hkeep q hq)).2, hsel⟩
        · have hclear : checkMask (pt i) refBitMask = false := by
            simpa using href
          simp only [href]
          by_cases hold : (tvc.toNat : Int) - (tdu i).toNat > delta
          · simp only [hold, if_true]
            refine ⟨fun q hq => hq, fun v hv => ?_⟩
            cases hv
            exact hclear
          · simp only [hold]
            refine ih pt _ fun v hv => ?_
            split at hv
            · cases hv
              exact hclear
            · exact hswap v hv
      · rw [if_neg hi]
        exact ih pt swap hswap

-- =============================================================== the invariant

/-- Only resident pages are referenced. -/
def RefsResident (s : Table) : Prop :=
  ∀ q, s.referenced q = true → s.valid q = true

theorem refsResident_init : RefsResident initPageTable := by
  unfold RefsResident
  decide

/-- The page a fault unloads is no longer referenced; the others keep
their frames. -/
theorem RefsResident.replaceWSC {s : Table} (h : RefsResident s) :
    RefsResident (replaceWSC s) := by
  obtain ⟨hkeep, hsel⟩ := wscScan_selected s.tdu s.tvc (List.finRange 16)
    s.pageTable none (fun v hv => absurd hv (Option.not_mem_none v))
  have hsame := (wscScan_spec s.tdu s.tvc (List.finRange 16) s.pageTable
    none (fun v hv => absurd hv (Option.not_mem_none v))).1
  intro q hq
  unfold MemReplace.replaceWSC at hq ⊢
  dsimp only at hq ⊢
  cases hv : (wscScan s.tdu s.tvc (List.finRange 16) s.pageTable none).2 with
  | none =>
      rw [hv] at hq
      exact (hsame q).bits.1.trans (h q (hkeep q hq))
  | some v =>
      rw [hv] at hq
      by_cases hqv : q = v
      · subst hqv
        have hclear := hsel q hv
        simp only [unload, Table.referenced, Function.update_self] at hq
        rw [checkMask_unloadPage_ref, hclear] at hq
        cases hq
      · simp only [unload, Table.referenced, Table.valid] at hq ⊢
        rw [Function.update_of_ne hqv] at hq ⊢
        exact (hsame q).bits.1.trans (h q (hkeep q hq))

theorem RefsResident.beforeUpdate {s : Table} (h : RefsResident s)
    (p : Page) : RefsResident (beforeUpdate s p) := by
  unfold MemReplace.beforeUpdate
  split
  · exact h
  · exact h.replaceWSC

theorem RefsResident.access {s : Table} (h : RefsResident s) (p : Page) :
    RefsResident (access .wsc s p) := by
  intro q hq
  by_cases hqp : q = p
  · subst hqp
    exact (access_bits .wsc s q).1
  · unfold Table.referenced at hq
    unfold Table.valid
    rw [access_wsc_pageTable s hqp] at hq ⊢
    exact h.beforeUpdate p q hq

theorem refsResident_run (ps : List Page) : RefsResident (run .wsc ps) := by
  induction ps using List.reverseRecOn with
  | nil => exact refsResident_init
  | append_singleton ps p ih =>
      rw [run_snoc]
      exact ih.access p

/-- Along every WSC run, the referenced pages are resident after each
access and when `updateTDU` runs, so that it stamps none of the
others. -/
theorem refs_resident (ps : List Page) (p : Page) :
    RefsResident (run .wsc (ps ++ [p]))
      ∧ RefsResident (beforeUpdate (run .wsc ps) p)
      ∧ ∀ q, (beforeUpdate (run .wsc ps) p).valid q = false →
          (updateTDU (beforeUpdate (run .wsc ps) p)).tdu q
            = (run .wsc ps).tdu q := by
  have hupd := (refsResident_run ps).beforeUpdate p
  refine ⟨refsResident_run (ps ++ [p]), hupd, fun q hq => ?_⟩
  have hclear : (beforeUpdate (run .wsc ps) p).referenced q = false := by
    by_contra hset
    have hvalid := hupd q (by simpa using hset)
    rw [hq] at hvalid
    cases hvalid
  unfold Table.referenced at hclear
  simp [updateTDU, hclear]

-- ============================================================= stamps of a run

/-- `updateTDU` stamped page `i` at access number `t`. -/
def StampedAt (ps : List Page) (i : Page) (t : Nat) : Prop :=
  ∃ p, ps[t]? = some p
    ∧ (beforeUpdate (run .wsc (ps.take t)) p).referenced i = true

/-- Access number `t` is the last one that stamped page `i`. -/
def LastStamp (ps : List Page) (i : Page) (t : Nat) : Prop :=
  StampedAt ps i t ∧ ∀ u, StampedAt ps i u → u ≤ t

theorem StampedAt.lt {ps : List Page} {i : Page} {t : Nat}
    (h : StampedAt ps i t) : t < ps.length := by
  obtain ⟨p, hp, -⟩ := h
  exact (List.getElem?_eq_some_iff.mp hp).1

/-- One more access adds at most its own number. -/
theorem stampedAt_snoc {ps : List Page} {q i : Page} {t : Nat} :
    StampedAt (ps ++ [q]) i t
      ↔ (t = ps.length ∧ (beforeUpdate (run .wsc ps) q).referenced i = true)
        ∨ StampedAt ps i t := by
  rcases Nat.lt_trichotomy t ps.length with ht | ht | ht
  · have hget : (ps ++ [q])[t]? = ps[t]? := List.getElem?_append_left ht
    have htake : (ps ++ [q]).take t = ps.take t :=
      List.take_append_of_le_length (Nat.le_of_lt ht)
    unfold StampedAt
    rw [hget, htake]
    exact ⟨Or.inr, fun h => h.resolve_left fun h => absurd h.1 (by omega)⟩
  · subst ht
    have hget : (ps ++ [q])[ps.length]? = some q := by simp
    have htake : (ps ++ [q]).take ps.length = ps := List.take_left
    constructor
    · intro h
      obtain ⟨p, hp, href⟩ := h
      rw [hget] at hp
      rw [htake, ← Option.some.inj hp] at href
      exact Or.inl ⟨rfl, href⟩
    · intro h
      rcases h with ⟨-, href⟩ | h
      · exact ⟨q, hget, by rw [htake]; exact href⟩
      · exact absurd h.lt (Nat.lt_irrefl _)
  · have hnone : ¬ StampedAt (ps ++ [q]) i t := fun h => by
      have := h.lt
      simp only [List.length_append, List.length_singleton] at this
      omega
    refine ⟨fun h => absurd h hnone, fun h => ?_⟩
    rcases h with ⟨h, -⟩ | h
    · exact absurd h (by omega)
    · exact absurd h.lt (by omega)

/-- Along a WSC run the counter is the number of accesses and the stamp
of a page the number of the last access that stamped it, both modulo
256; a page never stamped still has stamp 0. -/
theorem run_wsc_stamps (ps : List Page) :
    (run .wsc ps).tvc = BitVec.ofNat 8 ps.length
      ∧ ∀ i, (∀ t, LastStamp ps i t →
            (run .wsc ps).tdu i = BitVec.ofNat 8 t)
          ∧ ((∀ t, ¬ StampedAt ps i t) → (run .wsc ps).tdu i = 0) := by
  induction ps using List.reverseRecOn with
  | nil =>
      refine ⟨rfl, fun i => ⟨fun t ht => ?_, fun _ => rfl⟩⟩
      exact absurd ht.1.lt (Nat.not_lt_zero t)
  | append_singleton ps q ih =>
      obtain ⟨htvc, htdu⟩ := ih
      refine ⟨?_, fun i => ?_⟩
      · rw [run_snoc, (access_wsc_update _ q 0).1, htvc, List.length_append]
        exact (BitVec.ofNat_add _ _).symm
      · rw [run_snoc, (access_wsc_update _ q i).2]
        by_cases href : (beforeUpdate (run .wsc ps) q).referenced i = true
        · rw [if_pos href]
          have hnow : StampedAt (ps ++ [q]) i ps.length :=
            stampedAt_snoc.mpr (Or.inl ⟨rfl, href⟩)
          refine ⟨fun t ht => ?_, fun h => absurd hnow (h _)⟩
          have hle := ht.2 _ hnow
          have hlt := ht.1.lt
          simp only [List.length_append, List.length_singleton] at hlt
          rw [htvc, show t = ps.length by omega]
        · rw [if_neg href]
          have hsame : ∀ t, StampedAt (ps ++ [q]) i t ↔ StampedAt ps i t :=
            fun t => stampedAt_snoc.trans
              ⟨fun h => h.resolve_left fun h => href h.2, Or.inr⟩
          refine ⟨fun t ht => (htdu i).1 t ?_, fun h => (htdu i).2 ?_⟩
          · exact ⟨(hsame t).mp ht.1, fun u hu => ht.2 u ((hsame u).mpr hu)⟩
          · exact fun t ht => h t ((hsame t).mpr ht)

/-- A page stamped at all has a last stamp. -/
theorem exists_lastStamp {ps : List Page} {i : Page} {t : Nat}
    (h : StampedAt ps i t) : ∃ u, LastStamp ps i u := by
  classical
  refine ⟨Nat.findGreatest (StampedAt ps i) ps.length,
    Nat.findGreatest_spec (Nat.le_of_lt h.lt) h, fun u hu => ?_⟩
  exact Nat.le_findGreatest (Nat.le_of_lt hu.lt) hu

end SyeLabs.MemReplace
