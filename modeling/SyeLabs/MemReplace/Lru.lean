/-
LRU mode against true access order.

# Stamps and times

Accesses are numbered from 0 and `inc_compteur` stamps the accessed page
with the number of its access, kept in one byte: along a run the stamp
of a page is the number of its last access modulo 256 and the counter is
the number of accesses modulo 256 (`run_lru_stamps`).

# What the scan selects

`lruVictim_eq_some_iff` is the scan of `replaceLRU` without its loop: it
settles on the resident page with the least stamp, the lowest index
breaking ties, when that stamp is below the counter, and on the first
resident page otherwise (the search starts from `min = tvc`, so stamps
at or above the counter are not compared).

# When that is LRU

Below 256 accesses stamps are times and the selected page is the least
recently used one. Past the wrap of the counter this is no longer so;
`StampOrder` says exactly when the truncated times still single out the
oldest resident page, and `lru_unloads_oldest_iff` that this is the
condition under which every fault of a run unloads it.
-/
import Mathlib.Data.List.Induction
import Mathlib.Data.List.FinRange
import Mathlib.Tactic.Common
import SyeLabs.MemReplace.Basic

namespace SyeLabs.MemReplace

-- ================================================================ access times

/-- Access number `t` of the sequence is the last access to `p`. -/
def LastAccess (ps : List Page) (p : Page) (t : Nat) : Prop :=
  ps[t]? = some p ∧ ∀ u, t < u → ps[u]? ≠ some p

theorem lastAccess_lt {ps : List Page} {p : Page} {t : Nat}
    (h : LastAccess ps p t) : t < ps.length :=
  (List.getElem?_eq_some_iff.mp h.1).1

theorem lastAccess_unique {ps : List Page} {p : Page} {t u : Nat}
    (ht : LastAccess ps p t) (hu : LastAccess ps p u) : t = u := by
  rcases Nat.lt_trichotomy t u with h | h | h
  · exact absurd hu.1 (ht.2 u h)
  · exact h
  · exact absurd ht.1 (hu.2 t h)

/-- Two pages do not share an access. -/
theorem lastAccess_page {ps : List Page} {p q : Page} {t : Nat}
    (hp : LastAccess ps p t) (hq : LastAccess ps q t) : p = q := by
  have h := hp.1.symm.trans hq.1
  exact Option.some.inj h

/-- The access just made is the last one to its page; the other pages
keep theirs. -/
theorem lastAccess_snoc {ps : List Page} {p q : Page} {t : Nat} :
    LastAccess (ps ++ [q]) p t
      ↔ (p = q ∧ t = ps.length) ∨ (p ≠ q ∧ LastAccess ps p t) := by
  have hlast : (ps ++ [q])[ps.length]? = some q := by simp
  by_cases hpq : p = q
  · subst hpq
    constructor
    · intro h
      refine Or.inl ⟨rfl, ?_⟩
      have hle : t < ps.length + 1 := by simpa using lastAccess_lt h
      rcases Nat.lt_or_ge t ps.length with hlt | hge
      · exact absurd hlast (h.2 ps.length hlt)
      · omega
    · intro h
      rcases h with ⟨-, rfl⟩ | ⟨hne, -⟩
      · refine ⟨hlast, fun u hu => ?_⟩
        rw [List.getElem?_eq_none (by simp; omega)]
        simp
      · exact absurd rfl hne
  · have hsplit : ∀ u : Nat, (ps ++ [q])[u]? = some p ↔ ps[u]? = some p := by
      intro u
      rcases Nat.lt_trichotomy u ps.length with hu | hu | hu
      · rw [List.getElem?_append_left hu]
      · subst hu
        rw [hlast, List.getElem?_eq_none (Nat.le_refl _)]
        simp [Ne.symm hpq]
      · rw [List.getElem?_eq_none (by simp; omega),
          List.getElem?_eq_none (by omega)]
    simp only [LastAccess, ne_eq, hsplit, hpq, false_and, not_false_eq_true,
      true_and, false_or]

theorem exists_lastAccess {ps : List Page} {p : Page} (h : p ∈ ps) :
    ∃ t, LastAccess ps p t := by
  induction ps using List.reverseRecOn with
  | nil => cases h
  | append_singleton ps q ih =>
      by_cases hpq : p = q
      · exact ⟨ps.length, lastAccess_snoc.mpr (Or.inl ⟨hpq, rfl⟩)⟩
      · have hmem : p ∈ ps := by simpa [hpq] using h
        obtain ⟨t, ht⟩ := ih hmem
        exact ⟨t, lastAccess_snoc.mpr (Or.inr ⟨hpq, ht⟩)⟩

-- ============================================================= stamps of a run

/-- The clocks after one LRU access: only the accessed page's stamp
moves, to the old counter. -/
theorem access_lru_clocks (s : Table) (p : Page) :
    (access .lru s p).tvc = s.tvc + 1
      ∧ (access .lru s p).tdu = Function.update s.tdu p s.tvc := by
  unfold access account incCompteur
  by_cases hv : s.valid p = true
  · simp [hv]
  · simp [hv, replaceLRU]

/-- Along an LRU run the counter is the number of accesses and the stamp
of an accessed page the number of its last access, both modulo 256. -/
theorem run_lru_stamps (ps : List Page) :
    (run .lru ps).tvc = BitVec.ofNat 8 ps.length
      ∧ ∀ p t, LastAccess ps p t →
          (run .lru ps).tdu p = BitVec.ofNat 8 t := by
  induction ps using List.reverseRecOn with
  | nil => exact ⟨rfl, fun p t h => absurd (lastAccess_lt h) (by simp)⟩
  | append_singleton ps q ih =>
      obtain ⟨htvc, htdu⟩ := ih
      rw [run_snoc]
      obtain ⟨hstep, hstamp⟩ := access_lru_clocks (run .lru ps) q
      refine ⟨?_, fun p t ht => ?_⟩
      · rw [hstep, htvc, List.length_append]
        exact (BitVec.ofNat_add _ _).symm
      · rw [hstamp]
        rcases lastAccess_snoc.mp ht with ⟨rfl, rfl⟩ | ⟨hne, ht'⟩
        · rw [Function.update_self, htvc]
        · rw [Function.update_of_ne hne]
          exact htdu p t ht'

theorem run_lru_tvc_toNat (ps : List Page) :
    (run .lru ps).tvc.toNat = ps.length % 256 := by
  rw [(run_lru_stamps ps).1, BitVec.toNat_ofNat]

theorem run_lru_tdu_toNat {ps : List Page} {p : Page} {t : Nat}
    (h : LastAccess ps p t) : ((run .lru ps).tdu p).toNat = t % 256 := by
  rw [(run_lru_stamps ps).2 p t h, BitVec.toNat_ofNat]

/-- Some page is always resident: page 0 at first, the accessed page
afterwards. -/
theorem run_valid_nonempty (m : Mode) (ps : List Page) :
    ∃ p, (run m ps).valid p = true := by
  induction ps using List.reverseRecOn with
  | nil =>
      refine ⟨0, ?_⟩
      rw [run_nil]
      decide
  | append_singleton ps q _ =>
      refine ⟨q, ?_⟩
      rw [run_snoc]
      simp only [access, Table.valid, Function.update_self]
      exact checkMask_marked _

-- =========================================================== the scan's choice

/-- What the scan selects, stated over stamps: the resident page with
the least stamp below the counter (the lowest index on a tie), or the
first resident page when no stamp is below it. -/
def Selected (s : Table) (q : Page) : Prop :=
  s.valid q = true
    ∧ (((s.tdu q).toNat < s.tvc.toNat
          ∧ ∀ r, s.valid r = true →
              (s.tdu q).toNat < (s.tdu r).toNat
                ∨ ((s.tdu q).toNat = (s.tdu r).toNat ∧ q ≤ r))
      ∨ ((∀ r, s.valid r = true → s.tvc.toNat ≤ (s.tdu r).toNat)
          ∧ ∀ r, s.valid r = true → q ≤ r))

theorem selected_unique {s : Table} {p q : Page} (hp : Selected s p)
    (hq : Selected s q) : p = q := by
  obtain ⟨hvp, hp⟩ := hp
  obtain ⟨hvq, hq⟩ := hq
  have hle : p ≤ q ∧ q ≤ p := by
    rcases hp with ⟨hp1, hp2⟩ | ⟨hp1, hp2⟩
    · rcases hq with ⟨hq1, hq2⟩ | ⟨hq1, hq2⟩
      · rcases hp2 q hvq with h | h
        · rcases hq2 p hvp with h' | h'
          · omega
          · omega
        · rcases hq2 p hvp with h' | h'
          · omega
          · exact ⟨h.2, h'.2⟩
      · have := hq1 p hvp
        omega
    · rcases hq with ⟨hq1, hq2⟩ | ⟨hq1, hq2⟩
      · have := hp1 q hvq
        omega
      · exact ⟨hp2 q hvq, hq2 p hvp⟩
  exact le_antisymm hle.1 hle.2

/-- The locals of the scan after the indices of `l`. -/
def ScanInv (s : Table) (l : List Page) (acc : Option Page × BitVec 8) :
    Prop :=
  match acc.1 with
  | none => (∀ r ∈ l, s.valid r = false) ∧ acc.2 = s.tvc
  | some q =>
      q ∈ l ∧ s.valid q = true
        ∧ ((acc.2 = s.tdu q ∧ acc.2.toNat < s.tvc.toNat
              ∧ ∀ r ∈ l, s.valid r = true →
                  acc.2.toNat < (s.tdu r).toNat
                    ∨ (acc.2.toNat = (s.tdu r).toNat ∧ q ≤ r))
          ∨ (acc.2 = s.tvc
              ∧ ∀ r ∈ l, s.valid r = true →
                  s.tvc.toNat ≤ (s.tdu r).toNat ∧ q ≤ r))

/-- What holds of the visited indices and of the next one holds of all. -/
theorem forall_mem_snoc {l : List Page} {i : Page} {Q : Page → Prop}
    (hl : ∀ r ∈ l, Q r) (hi : Q i) : ∀ r ∈ l ++ [i], Q r :=
  List.forall_mem_append.mpr ⟨hl, List.forall_mem_singleton.mpr hi⟩

/-- An index that is not resident changes nothing. -/
theorem ScanInv.skip {s : Table} {l : List Page}
    {acc : Option Page × BitVec 8} {i : Page} (h : ScanInv s l acc)
    (hvi : s.valid i = false) : ScanInv s (l ++ [i]) acc := by
  have habsurd : ∀ {Q : Prop}, s.valid i = true → Q := by
    intro Q hvr
    rw [hvi] at hvr
    cases hvr
  obtain ⟨v, m⟩ := acc
  cases v with
  | none => exact ⟨forall_mem_snoc h.1 hvi, h.2⟩
  | some q =>
      obtain ⟨hq, hvq, h⟩ := h
      refine ⟨List.mem_append_left [i] hq, hvq, ?_⟩
      rcases h with ⟨h1, h2, h3⟩ | ⟨h1, h2⟩
      · exact Or.inl ⟨h1, h2, forall_mem_snoc h3 habsurd⟩
      · exact Or.inr ⟨h1, forall_mem_snoc h2 habsurd⟩

/-- The minimum is at most `tvc`. -/
theorem ScanInv.min_le {s : Table} {l : List Page}
    {acc : Option Page × BitVec 8} (h : ScanInv s l acc) :
    acc.2.toNat ≤ s.tvc.toNat := by
  obtain ⟨v, m⟩ := acc
  cases v with
  | none => exact h.2 ▸ le_refl _
  | some q =>
      rcases h.2.2 with ⟨-, h2, -⟩ | ⟨h1, -⟩
      · exact Nat.le_of_lt h2
      · exact h1 ▸ le_refl _

/-- And at most the stamp of every resident page visited. -/
theorem ScanInv.min_le_tdu {s : Table} {l : List Page}
    {acc : Option Page × BitVec 8} (h : ScanInv s l acc) {r : Page}
    (hr : r ∈ l) (hvr : s.valid r = true) :
    acc.2.toNat ≤ (s.tdu r).toNat := by
  obtain ⟨v, m⟩ := acc
  cases v with
  | none =>
      rw [h.1 r hr] at hvr
      cases hvr
  | some q =>
      rcases h.2.2 with ⟨-, -, h3⟩ | ⟨h1, h2⟩
      · rcases h3 r hr hvr with h4 | h4
        · exact Nat.le_of_lt h4
        · exact Nat.le_of_eq h4.1
      · exact h1 ▸ (h2 r hr hvr).1

/-- A smaller stamp moves the page and the minimum. -/
theorem ScanInv.smaller {s : Table} {l : List Page}
    {acc : Option Page × BitVec 8} {i : Page} (h : ScanInv s l acc)
    (hvi : s.valid i = true) (hlt : (s.tdu i).toNat < acc.2.toNat) :
    ScanInv s (l ++ [i]) (some i, s.tdu i) := by
  refine ⟨List.mem_append_right l (List.mem_singleton_self i), hvi,
    Or.inl ⟨rfl, Nat.lt_of_lt_of_le hlt h.min_le, ?_⟩⟩
  refine forall_mem_snoc (fun r hr hvr => ?_)
    fun _ => Or.inr ⟨rfl, le_refl i⟩
  exact Or.inl (Nat.lt_of_lt_of_le hlt (h.min_le_tdu hr hvr))

/-- The first resident page is taken whatever its stamp. -/
theorem ScanInv.first {s : Table} {l : List Page} {m : BitVec 8}
    {i : Page} (h : ScanInv s l (none, m)) (hvi : s.valid i = true)
    (hge : m.toNat ≤ (s.tdu i).toNat) :
    ScanInv s (l ++ [i]) (some i, m) := by
  have hm : m = s.tvc := h.2
  refine ⟨List.mem_append_right l (List.mem_singleton_self i), hvi,
    Or.inr ⟨hm, ?_⟩⟩
  refine forall_mem_snoc (fun r hr hvr => ?_)
    fun _ => ⟨hm ▸ hge, le_refl i⟩
  rw [h.1 r hr] at hvr
  cases hvr

/-- A later page with a stamp that is not smaller is passed over. -/
theorem ScanInv.pass {s : Table} {l : List Page} {m : BitVec 8}
    {q i : Page} (hi : ∀ r ∈ l, r < i) (h : ScanInv s l (some q, m))
    (hge : m.toNat ≤ (s.tdu i).toNat) :
    ScanInv s (l ++ [i]) (some q, m) := by
  obtain ⟨hq, hvq, h⟩ := h
  have hqi : q ≤ i := le_of_lt (hi q hq)
  refine ⟨List.mem_append_left [i] hq, hvq, ?_⟩
  rcases h with ⟨h1, h2, h3⟩ | ⟨h1, h2⟩
  · refine Or.inl ⟨h1, h2, forall_mem_snoc h3 fun _ => ?_⟩
    rcases Nat.lt_or_eq_of_le hge with h4 | h4
    · exact Or.inl h4
    · exact Or.inr ⟨h4, hqi⟩
  · have hm : m = s.tvc := h1
    exact Or.inr ⟨h1, forall_mem_snoc h2 fun _ => ⟨hm ▸ hge, hqi⟩⟩

/-- One iteration, over an index above all visited ones, keeps the
locals right. -/
theorem scanInv_step {s : Table} {l : List Page}
    {acc : Option Page × BitVec 8} {i : Page} (hi : ∀ r ∈ l, r < i)
    (h : ScanInv s l acc) : ScanInv s (l ++ [i]) (lruScanStep s acc i) := by
  by_cases hvi : s.valid i = true
  case neg =>
    have hvi' : s.valid i = false := by simpa using hvi
    have hskip : lruScanStep s acc i = acc := by
      simp [lruScanStep, hvi']
    rw [hskip]
    exact h.skip hvi'
  case pos =>
    by_cases hlt : s.tdu i < acc.2
    · have hstep : lruScanStep s acc i = (some i, s.tdu i) := by
        simp [lruScanStep, hvi, hlt]
      rw [hstep]
      exact h.smaller hvi (BitVec.lt_def.mp hlt)
    · obtain ⟨v, m⟩ := acc
      have hge : m.toNat ≤ (s.tdu i).toNat := by
        simpa [BitVec.lt_def] using hlt
      cases v with
      | none =>
          have hstep : lruScanStep s (none, m) i = (some i, m) := by
            simp [lruScanStep, hvi, hlt]
          rw [hstep]
          exact h.first hvi hge
      | some q =>
          have hstep : lruScanStep s (some q, m) i = (some q, m) := by
            simp [lruScanStep, hlt]
          rw [hstep]
          exact h.pass hi hge

/-- The whole scan, over any increasing list of indices. -/
theorem scanInv_foldl (s : Table) {l : List Page}
    (hl : l.Pairwise (· < ·)) :
    ScanInv s l (l.foldl (lruScanStep s) (none, s.tvc)) := by
  induction l using List.reverseRecOn with
  | nil => exact ⟨by simp, rfl⟩
  | append_singleton l i ih =>
      rw [List.foldl_append]
      obtain ⟨hl', -, hlt⟩ := List.pairwise_append.mp hl
      exact scanInv_step (fun r hr => hlt r hr i (by simp)) (ih hl')

/-- The scan of `replaceLRU` settles on the selected page. -/
theorem lruVictim_eq_some_iff {s : Table} {q : Page} :
    lruVictim s = some q ↔ Selected s q := by
  have hsel : ∀ q, lruVictim s = some q → Selected s q := by
    intro q hq
    have h := scanInv_foldl s (List.pairwise_lt_finRange 16)
    simp only [lruVictim] at hq
    simp only [ScanInv, hq] at h
    obtain ⟨-, hvq, h⟩ := h
    refine ⟨hvq, ?_⟩
    rcases h with ⟨h1, h2, h3⟩ | ⟨h1, h2⟩
    · rw [h1] at h2 h3
      exact Or.inl ⟨h2, fun r hr => h3 r (List.mem_finRange r) hr⟩
    · exact Or.inr ⟨fun r hr => (h2 r (List.mem_finRange r) hr).1,
        fun r hr => (h2 r (List.mem_finRange r) hr).2⟩
  refine ⟨hsel q, fun hq => ?_⟩
  cases hv : lruVictim s with
  | none =>
      have h := scanInv_foldl s (List.pairwise_lt_finRange 16)
      simp only [lruVictim] at hv
      simp only [ScanInv, hv] at h
      have hnone := h.1 q (List.mem_finRange q)
      rw [hq.1] at hnone
      cases hnone
  | some p => rw [selected_unique (hsel p hv) hq]

/-- `replaceLRU` unloads a resident page exactly when the scan settles on
it. -/
theorem replaceLRU_eq_unload_iff {s : Table} {o : Page}
    (ho : s.valid o = true) :
    replaceLRU s = unload s (some o) ↔ lruVictim s = some o := by
  constructor
  · intro h
    have hval : (replaceLRU s).valid o = false := by
      rw [h, unload_valid, ho]
      simp
    cases hv : lruVictim s with
    | none =>
        rw [replaceLRU, hv] at hval
        exact absurd (ho.symm.trans hval) (by decide)
    | some p =>
        rw [replaceLRU, hv, unload_valid, ho] at hval
        have hop : o = p := by simpa using hval
        rw [hop]
  · intro h
    rw [replaceLRU, h]

-- ================================================================ LRU and when

/-- A fault the LRU rule speaks about: `p` is not resident and every
resident page was accessed during the run. -/
def LruFault (ps : List Page) (p : Page) : Prop :=
  (run .lru ps).valid p = false
    ∧ ∀ r, (run .lru ps).valid r = true → r ∈ ps

/-- `o` is the resident page whose last access is the oldest. -/
def Oldest (ps : List Page) (o : Page) : Prop :=
  (run .lru ps).valid o = true
    ∧ ∀ r t u, (run .lru ps).valid r = true → LastAccess ps o t →
        LastAccess ps r u → t ≤ u

/-- What LRU asks of a fault after `ps`. -/
def UnloadsOldest (ps : List Page) : Prop :=
  ∃ o, Oldest ps o
    ∧ replaceLRU (run .lru ps) = unload (run .lru ps) (some o)

/-- The access numbers, cut to the eight bits the program keeps, still
single out the oldest resident page: either its truncated number is
below the truncated length of the run and least among the resident
pages (the lowest index on a tie), or no truncated number is below that
length and it is the first resident page. -/
def StampOrder (ps : List Page) : Prop :=
  ∃ o t, Oldest ps o ∧ LastAccess ps o t
    ∧ ((t % 256 < ps.length % 256
          ∧ ∀ r u, (run .lru ps).valid r = true → LastAccess ps r u →
              t % 256 < u % 256 ∨ (t % 256 = u % 256 ∧ o ≤ r))
      ∨ ((∀ r u, (run .lru ps).valid r = true → LastAccess ps r u →
              ps.length % 256 ≤ u % 256)
          ∧ ∀ r, (run .lru ps).valid r = true → o ≤ r))

/-- At one fault: the oldest resident page is unloaded exactly when the
truncated access numbers single it out. -/
theorem unloadsOldest_iff_stampOrder {ps : List Page} {p : Page}
    (hf : LruFault ps p) : UnloadsOldest ps ↔ StampOrder ps := by
  have hsel : ∀ o t, (run .lru ps).valid o = true → LastAccess ps o t →
      (Selected (run .lru ps) o ↔
        ((t % 256 < ps.length % 256
            ∧ ∀ r u, (run .lru ps).valid r = true → LastAccess ps r u →
                t % 256 < u % 256 ∨ (t % 256 = u % 256 ∧ o ≤ r))
          ∨ ((∀ r u, (run .lru ps).valid r = true → LastAccess ps r u →
                ps.length % 256 ≤ u % 256)
            ∧ ∀ r, (run .lru ps).valid r = true → o ≤ r))) := by
    intro o t hvo ht
    -- every resident page has a last access, and its stamp is that number
    have hall : ∀ Q : Page → Nat → Prop,
        (∀ r, (run .lru ps).valid r = true →
            Q r ((run .lru ps).tdu r).toNat)
          ↔ ∀ r u, (run .lru ps).valid r = true → LastAccess ps r u →
              Q r (u % 256) := by
      intro Q
      constructor
      · intro h r u hr hu
        rw [← run_lru_tdu_toNat hu]
        exact h r hr
      · intro h r hr
        obtain ⟨u, hu⟩ := exists_lastAccess (hf.2 r hr)
        rw [run_lru_tdu_toNat hu]
        exact h r u hr hu
    simp only [Selected, hvo, true_and, run_lru_tdu_toNat ht,
      run_lru_tvc_toNat]
    rw [hall fun r n => t % 256 < n ∨ (t % 256 = n ∧ o ≤ r),
      hall fun _ n => ps.length % 256 ≤ n]
  constructor
  · intro h
    obtain ⟨o, ho, hun⟩ := h
    obtain ⟨t, ht⟩ := exists_lastAccess (hf.2 o ho.1)
    have hv := (replaceLRU_eq_unload_iff ho.1).mp hun
    exact ⟨o, t, ho, ht, (hsel o t ho.1 ht).mp (lruVictim_eq_some_iff.mp hv)⟩
  · intro h
    obtain ⟨o, t, ho, ht, h⟩ := h
    refine ⟨o, ho, (replaceLRU_eq_unload_iff ho.1).mpr ?_⟩
    exact lruVictim_eq_some_iff.mpr ((hsel o t ho.1 ht).mpr h)

/-- LRU mode unloads the least recently used page at every fault of a
run exactly when, at every fault, the access numbers modulo 256 still
single that page out. -/
theorem lru_unloads_oldest_iff (as : List Page) :
    (∀ ps p rest, as = ps ++ p :: rest → LruFault ps p → UnloadsOldest ps)
      ↔ ∀ ps p rest, as = ps ++ p :: rest → LruFault ps p →
          StampOrder ps := by
  constructor
  · intro h ps p rest has hf
    exact (unloadsOldest_iff_stampOrder hf).mp (h ps p rest has hf)
  · intro h ps p rest has hf
    exact (unloadsOldest_iff_stampOrder hf).mpr (h ps p rest has hf)

/-- At a fault there is an oldest resident page. -/
theorem exists_oldest {ps : List Page} {p : Page} (hf : LruFault ps p) :
    ∃ o t, Oldest ps o ∧ LastAccess ps o t := by
  classical
  let P : Nat → Prop := fun t =>
    ∃ o, (run .lru ps).valid o = true ∧ LastAccess ps o t
  have hex : ∃ t, P t := by
    obtain ⟨r, hr⟩ := run_valid_nonempty .lru ps
    obtain ⟨t, ht⟩ := exists_lastAccess (hf.2 r hr)
    exact ⟨t, r, hr, ht⟩
  obtain ⟨o, hvo, ho⟩ := Nat.find_spec hex
  refine ⟨o, Nat.find hex, ⟨hvo, fun r t u hr ht hu => ?_⟩, ho⟩
  rw [lastAccess_unique ht ho]
  exact Nat.find_min' hex ⟨r, hr, hu⟩

/-- While the counter has not wrapped since the oldest resident page was
last accessed, truncation loses nothing. In particular no fault among
the first 256 accesses goes wrong. -/
theorem stampOrder_of_no_wrap {ps : List Page} {p : Page}
    (hf : LruFault ps p)
    (hw : ∀ o t, Oldest ps o → LastAccess ps o t →
      t / 256 = ps.length / 256) : StampOrder ps := by
  obtain ⟨o, t, ho, ht⟩ := exists_oldest hf
  have hdiv := hw o t ho ht
  have hlt := lastAccess_lt ht
  refine ⟨o, t, ho, ht, Or.inl ⟨by omega, fun r u hr hu => ?_⟩⟩
  have hle := ho.2 r t u hr ht hu
  have hu' := lastAccess_lt hu
  rcases Nat.lt_or_eq_of_le hle with h | h
  · exact Or.inl (by omega)
  · subst h
    exact Or.inr ⟨rfl, le_of_eq (lastAccess_page ht hu)⟩

theorem unloadsOldest_of_short {ps : List Page} {p : Page}
    (hf : LruFault ps p) (hlen : ps.length < 256) : UnloadsOldest ps := by
  refine (unloadsOldest_iff_stampOrder hf).mpr
    (stampOrder_of_no_wrap hf fun o t _ ht => ?_)
  have := lastAccess_lt ht
  omega

-- =============================================================== past the wrap

/-- While only the initially resident pages are accessed, they stay
resident and nothing else becomes so. -/
theorem run_lru_valid_of_hits {ps : List Page} (h : ∀ p ∈ ps, p ≤ 2)
    (q : Page) : (run .lru ps).valid q = decide (q ≤ 2) := by
  induction ps using List.reverseRecOn generalizing q with
  | nil => revert q; decide
  | append_singleton ps p ih =>
      have hps : ∀ p ∈ ps, p ≤ 2 := fun p hp => h p (by simp [hp])
      have hp : p ≤ 2 := h p (by simp)
      have hv : (run .lru ps).valid p = true := by
        rw [ih hps]
        simpa using hp
      have hacc : account .lru (run .lru ps) p
          = incCompteur (run .lru ps) p := by
        simp [account, hv]
      rw [run_snoc, ← ih hps q]
      simp only [access, hacc, incCompteur, Table.valid]
      by_cases hqp : q = p
      · subst hqp
        rw [Function.update_self, checkMask_marked]
        exact hv.symm
      · rw [Function.update_of_ne hqp]

/-- 254 accesses to page 2, then pages 1 and 0. -/
def wrapRun : List Page := List.replicate 254 2 ++ [1] ++ [0]

theorem wrapRun_length : wrapRun.length = 256 := by
  simp only [wrapRun, List.length_append, List.length_replicate,
    List.length_singleton]

/-- The fault on page 3 after these 256 accesses finds the counter back
at 0 and unloads page 0, the page accessed last. -/
theorem not_lru_past_wrap :
    LruFault wrapRun 3 ∧ ¬ UnloadsOldest wrapRun := by
  have hmem : ∀ r, r ∈ wrapRun ↔ r ≤ 2 := by
    intro r
    simp only [wrapRun, List.mem_append, List.mem_replicate,
      List.mem_singleton]
    revert r
    decide
  have hvalid := run_lru_valid_of_hits fun p hp => (hmem p).mp hp
  have hfault : LruFault wrapRun 3 := by
    refine ⟨by rw [hvalid]; decide, fun r hr => ?_⟩
    rw [hvalid] at hr
    exact (hmem r).mpr (of_decide_eq_true hr)
  refine ⟨hfault, ?_⟩
  intro h
  obtain ⟨o, ho, hun⟩ := h
  have hv0 : (run .lru wrapRun).valid 0 = true := by
    rw [hvalid]
    decide
  have hv1 : (run .lru wrapRun).valid 1 = true := by
    rw [hvalid]
    decide
  have hsel : Selected (run .lru wrapRun) 0 := by
    refine ⟨hv0, Or.inr ⟨fun r _ => ?_, fun r _ => Fin.zero_le r⟩⟩
    rw [run_lru_tvc_toNat, wrapRun_length]
    exact Nat.zero_le _
  have ho0 : o = 0 := by
    have h1 := (replaceLRU_eq_unload_iff ho.1).mp hun
    rw [lruVictim_eq_some_iff.mpr hsel] at h1
    exact (Option.some.inj h1).symm
  subst ho0
  have hlen2 : 254 = (List.replicate 254 (2 : Page)).length :=
    List.length_replicate.symm
  have hlen1 : 255 = (List.replicate 254 (2 : Page) ++ [1]).length := by
    rw [List.length_append, List.length_replicate, List.length_singleton]
  have hlast0 : LastAccess wrapRun 0 255 :=
    lastAccess_snoc.mpr (Or.inl ⟨rfl, hlen1⟩)
  have hlast1 : LastAccess wrapRun 1 254 :=
    lastAccess_snoc.mpr (Or.inr ⟨by decide,
      lastAccess_snoc.mpr (Or.inl ⟨rfl, hlen2⟩)⟩)
  have hle := ho.2 1 255 254 hv1 hlast0 hlast1
  omega

end SyeLabs.MemReplace
