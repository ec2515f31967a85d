/-
LRU mode as a recency stack.

While the counter has not wrapped, the resident pages of LRU mode are
the three most recently used ones (`lru_keeps_recent`), so that the
mode is the eviction policy of `Lib.Recency` and inherits its bound on
faults (`lru_competitive`).

# The first access

`inc_compteur` stamps the first access with the 0 that marks the pages
never accessed. A first access that hits therefore leaves no trace, and
the pages the table starts with count as used in the order 0, 1, 2.
-/
import SyeLabs.Lib.Recency
import SyeLabs.MemReplace.Conserve
import SyeLabs.MemReplace.Lru

namespace SyeLabs.MemReplace

open Lib

-- =========================================================== the recency stack

/-- The initially resident pages, the one LRU mode evicts first at the
end. -/
def initRecent : List Page :=
  ((List.finRange 16).filter fun p => p.val < 3).reverse

/-- The accesses that leave a trace in the stamps. -/
def stamped : List Page → List Page
  | [] => []
  | p :: ps => if p ∈ initRecent then ps else p :: ps

theorem stamped_of_mem {p : Page} (h : p ∈ initRecent) (ps : List Page) :
    stamped (p :: ps) = ps := if_pos h

theorem stamped_of_not_mem {p : Page} (h : p ∉ initRecent) (ps : List Page) :
    stamped (p :: ps) = p :: ps := if_neg h

/-- The three most recently used pages, the last one used first, when a
first access that hits does not count. -/
def recent (ps : List Page) : List Page :=
  ((stamped ps).reverse ++ initRecent).eraseDups.take 3

/-- The faults of a mode on the accesses that follow. -/
def faultsFrom (m : Mode) : Table → List Page → Nat
  | _, [] => 0
  | s, p :: ps =>
      (if s.valid p then 0 else 1) + faultsFrom m (access m s p) ps

/-- The faults of a run. -/
def faults (m : Mode) (ps : List Page) : Nat := faultsFrom m initPageTable ps

theorem initRecent_nodup : initRecent.Nodup := by decide

theorem initRecent_ne_nil : initRecent ≠ [] := by decide

-- =============================================================== the invariant

/-- After `n` accesses the resident pages are the entries of `l`, in the
order of their stamps. Pages with one stamp stand by index, the lower
one nearer to the end. -/
structure InOrder (n : Nat) (s : Table) (l : List Page) : Prop where
  clock : s.tvc.toNat = n % 256
  resident : ∀ p, s.valid p = true ↔ p ∈ l
  below : ∀ p ∈ l, (s.tdu p).toNat < n
  sorted : l.Pairwise fun p q =>
    (s.tdu q).toNat < (s.tdu p).toNat
      ∨ ((s.tdu q).toNat = (s.tdu p).toNat ∧ q ≤ p)

/-- The scan of `replaceLRU` settles on the last entry. -/
theorem InOrder.victim {n : Nat} {s : Table} {l : List Page} {v : Page}
    (h : InOrder n s (l ++ [v])) (hn : n < 256) : lruVictim s = some v := by
  have hv : v ∈ l ++ [v] := List.mem_append_right l (List.mem_singleton_self v)
  have hclock : s.tvc.toNat = n := by
    rw [h.clock, Nat.mod_eq_of_lt hn]
  refine lruVictim_eq_some_iff.mpr ⟨(h.resident v).mpr hv, Or.inl ⟨?_, ?_⟩⟩
  · rw [hclock]
    exact h.below v hv
  · intro r hr
    rcases List.mem_append.mp ((h.resident r).mp hr) with hrl | hrv
    · exact (List.pairwise_append.mp h.sorted).2.2 r hrl v
        (List.mem_singleton_self v)
    · exact Or.inr (by rw [List.mem_singleton.mp hrv]; exact ⟨rfl, le_refl v⟩)

/-- What is resident after one access. -/
theorem access_valid (m : Mode) (s : Table) (p q : Page) :
    (access m s p).valid q = true
      ↔ q = p ∨ (if s.valid p then s else replaceIn m s).valid q = true := by
  obtain ⟨hvalid, -, hother⟩ := access_bits m s p
  by_cases hq : q = p
  · subst hq
    simp [hvalid]
  · have hacc : (access m s p).valid q
        = (if s.valid p then s else replaceIn m s).valid q := by
      simp only [Table.valid, hother q hq, account_pageTable]
    rw [hacc]
    simp [hq]

/-- Serving a page puts it in front of what stays resident. -/
theorem InOrder.front {n : Nat} {s : Table} {l m : List Page} {p : Page}
    (h : InOrder n s l) (hn : n < 256) (hm : m.Sublist l) (hp : p ∉ m)
    (hres : ∀ q, (access .lru s p).valid q = true ↔ q ∈ p :: m) :
    InOrder (n + 1) (access .lru s p) (p :: m) := by
  obtain ⟨htvc, htdu⟩ := access_lru_clocks s p
  have hclock : s.tvc.toNat = n := by
    rw [h.clock, Nat.mod_eq_of_lt hn]
  have hother : ∀ q ∈ m, (access .lru s p).tdu q = s.tdu q := by
    intro q hq
    have hqp : q ≠ p := fun hqp => hp (hqp ▸ hq)
    rw [htdu, Function.update_of_ne hqp]
  have hfirst : ((access .lru s p).tdu p).toNat = n := by
    rw [htdu, Function.update_self, hclock]
  refine ⟨?_, hres, fun q hq => ?_, List.pairwise_cons.mpr ⟨?_, ?_⟩⟩
  · rw [htvc, BitVec.toNat_add, hclock]
    rfl
  · rcases List.mem_cons.mp hq with rfl | hqm
    · omega
    · rw [hother q hqm]
      exact Nat.lt_succ_of_lt (h.below q (hm.subset hqm))
  · intro q hq
    rw [hother q hq, hfirst]
    exact Or.inl (h.below q (hm.subset hq))
  · refine (h.sorted.sublist hm).imp_of_mem fun {a b} ha hb hab => ?_
    rw [hother a ha, hother b hb]
    exact hab

/-- One access, once the counter has left 0 and before it is back. -/
theorem InOrder.access {n : Nat} {s : Table} {l : List Page}
    (h : InOrder n s l) (hl : l.Nodup) (hne : l ≠ []) (hn : n < 256)
    (p : Page) : InOrder (n + 1) (access .lru s p) (touch l p) := by
  by_cases hp : p ∈ l
  · have hv : s.valid p = true := (h.resident p).mpr hp
    rw [touch_of_mem hp]
    refine h.front hn List.erase_sublist hl.not_mem_erase fun q => ?_
    rw [access_valid, if_pos hv, h.resident, List.mem_cons]
    by_cases hq : q = p
    · simp [hq]
    · rw [List.mem_erase_of_ne hq]
  · have hv : ¬ s.valid p = true := fun hv => hp ((h.resident p).mp hv)
    obtain ⟨l, v, rfl⟩ := List.eq_nil_or_concat' l |>.resolve_left hne
    have hvl : v ∉ l := by
      have := List.nodup_append.mp hl
      intro hvl
      exact this.2.2 v hvl v (List.mem_singleton_self v) rfl
    rw [touch_of_not_mem hp, List.dropLast_concat]
    refine h.front hn (List.sublist_append_left l [v])
      (fun hpl => hp (List.mem_append_left [v] hpl)) fun q => ?_
    rw [access_valid, if_neg hv, replaceIn, replaceLRU, h.victim hn,
      unload_valid, List.mem_cons, Bool.and_eq_true, h.resident,
      decide_eq_true_eq,
      List.mem_append, List.mem_singleton]
    constructor
    · rintro (hqp | ⟨hql | hqv, hqv'⟩)
      · exact Or.inl hqp
      · exact Or.inr hql
      · exact absurd hqv hqv'
    · rintro (hqp | hql)
      · exact Or.inl hqp
      · exact Or.inr ⟨Or.inl hql, fun hqv => hvl (hqv ▸ hql)⟩

/-- The first access, which finds the counter and every stamp at 0. -/
theorem inOrder_first (p : Page) :
    InOrder 1 (access .lru initPageTable p)
      (if p ∈ initRecent then initRecent else touch initRecent p) := by
  have hall : ∀ p : Page,
      (∀ q, (MemReplace.access .lru initPageTable p).valid q = true
        ↔ q ∈ if p ∈ initRecent then initRecent else touch initRecent p)
      ∧ (if p ∈ initRecent then initRecent else touch initRecent p).Pairwise
        fun q r => r ≤ q := by decide
  have hzero : ∀ q, ((MemReplace.access .lru initPageTable p).tdu q).toNat
      = 0 := by
    intro q
    rw [(access_lru_clocks _ p).2]
    by_cases hq : q = p
    · rw [hq, Function.update_self]
      rfl
    · rw [Function.update_of_ne hq]
      rfl
  refine ⟨?_, (hall p).1, fun q _ => ?_, (hall p).2.imp fun {a b} hab => ?_⟩
  · rw [(access_lru_clocks _ p).1]
    rfl
  · rw [hzero]
    exact Nat.one_pos
  · exact Or.inr ⟨by rw [hzero, hzero], hab⟩

-- ===================================================== the mode and the policy

/-- The order along a run, from any table that has it. -/
theorem InOrder.run {n : Nat} {s : Table} {l : List Page} {ps : List Page}
    (h : InOrder n s l) (hl : l.Nodup) (hne : l ≠ [])
    (hn : n + ps.length ≤ 256) :
    (∀ p, (ps.foldl (MemReplace.access .lru) s).valid p = true
        ↔ p ∈ ps.foldl touch l)
      ∧ faultsFrom .lru s ps = misses l ps := by
  induction ps generalizing n s l with
  | nil => exact ⟨h.resident, rfl⟩
  | cons p ps ih =>
      rw [List.length_cons] at hn
      have hstep := h.access hl hne (by omega) p
      obtain ⟨hres, hfaults⟩ := ih hstep (nodup_touch hl p)
        (List.cons_ne_nil _ _) (by omega)
      refine ⟨hres, ?_⟩
      rw [faultsFrom, misses, hfaults]
      simp only [h.resident p]

/-- The stack a first access leaves is the one of the traces. -/
theorem recent_eq (p : Page) (ps : List Page) :
    recent (p :: ps)
      = ps.foldl touch
          (if p ∈ initRecent then initRecent else touch initRecent p) := by
  by_cases hp : p ∈ initRecent
  · rw [if_pos hp, foldl_touch initRecent_nodup initRecent_ne_nil, recent,
      stamped_of_mem hp]
    rfl
  · rw [if_neg hp, ← List.foldl_cons,
      foldl_touch initRecent_nodup initRecent_ne_nil, recent,
      stamped_of_not_mem hp]
    rfl

/-- In runs of at most 256 accesses, LRU mode keeps the three most
recently used pages, a first access that hits apart. -/
theorem lru_keeps_recent (ps : List Page) (h : ps.length ≤ 256) (p : Page) :
    (run .lru ps).valid p = true ↔ p ∈ recent ps := by
  cases ps with
  | nil =>
      revert p
      decide
  | cons q ps =>
      have hfirst := inOrder_first q
      rw [recent_eq]
      rw [List.length_cons] at h
      refine (hfirst.run ?_ ?_ (by omega)).1 p
      · split
        · exact initRecent_nodup
        · exact nodup_touch initRecent_nodup q
      · split
        · exact initRecent_ne_nil
        · exact List.cons_ne_nil _ _

/-- After pages 3, 1 and 4 these three are resident, and page 0 is not. -/
theorem lru_keeps_recent_three :
    recent [3, 1, 4] = [4, 1, 3]
      ∧ ((run .lru [3, 1, 4]).valid 0 = true ↔ 0 ∈ recent [3, 1, 4]) :=
  ⟨by decide, lru_keeps_recent [3, 1, 4] (by decide) 0⟩

/-- The faults of a short run are those of the recency stack. -/
theorem faults_lru_eq {ps : List Page} (h : ps.length ≤ 256) :
    faults .lru ps = misses initRecent (stamped ps) := by
  have hinit : ∀ p, initPageTable.valid p = true ↔ p ∈ initRecent := by
    decide
  cases ps with
  | nil => rfl
  | cons q ps =>
      have hfirst := inOrder_first q
      rw [List.length_cons] at h
      unfold faults faultsFrom
      by_cases hq : q ∈ initRecent
      · rw [if_pos hq] at hfirst
        rw [if_pos ((hinit q).mpr hq), stamped_of_mem hq, Nat.zero_add]
        exact (hfirst.run initRecent_nodup initRecent_ne_nil (by omega)).2
      · rw [if_neg hq] at hfirst
        rw [if_neg (mt (hinit q).mp hq), stamped_of_not_mem hq, misses,
          if_neg hq]
        rw [(hfirst.run (nodup_touch initRecent_nodup q)
          (List.cons_ne_nil _ _) (by omega)).2]

-- ============================================================== other policies

/-- The resident pages. -/
def residents (s : Table) : Finset Page := Finset.univ.filter (s.valid ·)

theorem mem_residents {s : Table} {p : Page} :
    p ∈ residents s ↔ s.valid p = true := by
  simp [residents]

/-- Three faults of LRU mode for each one of a service that starts from
the same pages. -/
theorem faults_lru_le {ps : List Page} {n : Nat} (hlen : ps.length ≤ 256)
    (h : Serves (residents initPageTable) ps n) : faults .lru ps ≤ 3 * n := by
  have hmem : ∀ p, p ∈ initRecent ↔ p ∈ residents initPageTable := by
    decide
  have hcard : (residents initPageTable).card = initRecent.length := by
    decide
  have hstamped : Serves (residents initPageTable) (stamped ps) n := by
    cases h with
    | done => exact Serves.done _
    | hit hp h =>
        rw [stamped_of_mem ((hmem _).mpr hp)]
        exact h
    | fault hp hv h =>
        rw [stamped_of_not_mem (mt (hmem _).mp hp)]
        exact Serves.fault hp hv h
  have hbound := misses_le hstamped initRecent_nodup initRecent_ne_nil
    (le_of_eq hcard)
  rw [lead_eq_zero fun p hp => (hmem p).mp hp] at hbound
  rw [faults_lru_eq hlen]
  exact hbound

/-- Either mode is one of them: a fault takes the frame of one resident
page. -/
theorem access_residents (m : Mode) {s : Table} {p r : Page}
    (hr : s.valid r = true) :
    (p ∈ residents s ∧ residents (access m s p) = residents s)
    ∨ (p ∉ residents s ∧ ∃ v ∈ residents s,
      residents (access m s p) = insert p ((residents s).erase v)) := by
  by_cases hp : s.valid p = true
  · refine Or.inl ⟨mem_residents.mpr hp, Finset.ext fun q => ?_⟩
    rw [mem_residents, mem_residents, access_valid, if_pos hp]
    constructor
    · rintro (rfl | hq)
      · exact hp
      · exact hq
    · exact Or.inr
  · obtain ⟨v, hv, hunload, hsame⟩ := fault_unloads m hr
    refine Or.inr ⟨mt mem_residents.mp hp, v, mem_residents.mpr hv,
      Finset.ext fun q => ?_⟩
    rw [mem_residents, access_valid, if_neg hp, Finset.mem_insert,
      Finset.mem_erase, mem_residents]
    by_cases hqv : q = v
    · subst hqv
      have hout : (replaceIn m s).valid q = false := by
        unfold Table.valid
        rw [hunload.bits.1, checkMask_unloadPage]
      simp [hout]
    · have hkeep : (replaceIn m s).valid q = s.valid q := by
        unfold Table.valid
        rw [(hsame q hqv).bits.1]
      simp [hkeep, hqv]

theorem serves_faultsFrom (m : Mode) {s : Table} {r : Page}
    (hr : s.valid r = true) (ps : List Page) :
    Serves (residents s) ps (faultsFrom m s ps) := by
  induction ps generalizing s r with
  | nil => exact Serves.done _
  | cons p ps ih =>
      have hrest := ih (access_bits m s p).1
      rw [faultsFrom]
      rcases access_residents m (p := p) hr with ⟨hp, hS⟩ | ⟨hp, v, hv, hS⟩
      · rw [hS] at hrest
        rw [if_pos (mem_residents.mp hp), Nat.zero_add]
        exact Serves.hit hp hrest
      · rw [hS] at hrest
        rw [if_neg (mt mem_residents.mpr hp), Nat.add_comm]
        exact Serves.fault hp hv hrest

/-- In runs of at most 256 accesses, LRU mode faults at most three times
for each fault of any choice of victims in the three frames, and so for
each fault of WSC mode. -/
theorem lru_competitive (ps : List Page) (hlen : ps.length ≤ 256) :
    (∀ n, Serves (residents initPageTable) ps n → faults .lru ps ≤ 3 * n)
      ∧ faults .lru ps ≤ 3 * faults .wsc ps := by
  have hvalid : initPageTable.valid 0 = true := by decide
  exact ⟨fun n h => faults_lru_le hlen h,
    faults_lru_le hlen (serves_faultsFrom .wsc hvalid ps)⟩

/-- Going round four pages, LRU mode faults every time. -/
theorem lru_competitive_round :
    faults .lru [3, 0, 1, 2, 3] = 5
      ∧ faults .lru [3, 0, 1, 2, 3] ≤ 3 * faults .wsc [3, 0, 1, 2, 3] :=
  ⟨by decide, (lru_competitive [3, 0, 1, 2, 3] (by decide)).2⟩

end SyeLabs.MemReplace
