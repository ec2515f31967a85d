/-
Whether the age test of `replaceWSC` finds the pages that are old.

# Ages and bytes

A page is old at a fault when it is resident and unreferenced and the
last `DELTA` accesses have not stamped it (`Old`). `replaceWSC` compares
`tvc - tdu[i]`, two bytes, so it sees the difference of two access
numbers modulo 256. That difference never exceeds the age, whence a page
that passes the test is old (`old_of_aged`); but once the counter has
wrapped it can be small, or negative, for an old page.

# When that is enough

The age of an old page shows when the truncated length of the run
exceeds its truncated stamp by more than `DELTA`. Some age shows at a
fault exactly when `replaceWSC` unloads an old page by the age test
(`findsOld_iff`). Below 257 accesses every age shows.
-/
import SyeLabs.MemReplace.RefBits

namespace SyeLabs.MemReplace

-- =================================================================== old pages

/-- Before the access that follows `ps`, the page is resident, its
reference bit is clear, and none of the last `DELTA` accesses stamped
it. -/
structure Old (ps : List Page) (i : Page) : Prop where
  resident : (run .wsc ps).valid i = true
  unreferenced : (run .wsc ps).referenced i = false
  unstamped : ∀ t, StampedAt ps i t → (ps.length : Int) - t > delta

/-- The byte the program keeps for the page: the number of the access
that last stamped it modulo 256, or 0 when none has. -/
def StampByte (ps : List Page) (i : Page) (b : Nat) : Prop :=
  (∃ t, LastStamp ps i t ∧ b = t % 256)
    ∨ ((∀ t, ¬ StampedAt ps i t) ∧ b = 0)

theorem exists_stampByte (ps : List Page) (i : Page) :
    ∃ b, StampByte ps i b := by
  by_cases h : ∃ t, StampedAt ps i t
  · obtain ⟨t, ht⟩ := h
    obtain ⟨u, hu⟩ := exists_lastStamp ht
    exact ⟨u % 256, Or.inl ⟨u, hu, rfl⟩⟩
  · exact ⟨0, Or.inr ⟨fun t ht => h ⟨t, ht⟩, rfl⟩⟩

theorem run_wsc_tvc_toNat (ps : List Page) :
    (run .wsc ps).tvc.toNat = ps.length % 256 := by
  rw [(run_wsc_stamps ps).1, BitVec.toNat_ofNat]

theorem run_wsc_tdu_toNat {ps : List Page} {i : Page} {b : Nat}
    (h : StampByte ps i b) : ((run .wsc ps).tdu i).toNat = b := by
  obtain ⟨hlast, hnever⟩ := (run_wsc_stamps ps).2 i
  rcases h with ⟨t, ht, rfl⟩ | ⟨hno, rfl⟩
  · rw [hlast t ht, BitVec.toNat_ofNat]
  · rw [hnever hno]
    rfl

/-- The age test in terms of the run. -/
theorem aged_iff {ps : List Page} {i : Page} {b : Nat}
    (hb : StampByte ps i b) :
    (run .wsc ps).aged i = true
      ↔ (run .wsc ps).valid i = true ∧ (run .wsc ps).referenced i = false
        ∧ ((ps.length % 256 : Nat) : Int) - b > delta := by
  unfold Table.aged
  rw [run_wsc_tvc_toNat, run_wsc_tdu_toNat hb]
  simp [and_assoc]

/-- The bytes never make a page look older than it is. -/
theorem old_of_aged {ps : List Page} {i : Page}
    (h : (run .wsc ps).aged i = true) : Old ps i := by
  obtain ⟨b, hb⟩ := exists_stampByte ps i
  obtain ⟨hvalid, href, hage⟩ := (aged_iff hb).mp h
  refine ⟨hvalid, href, fun t ht => ?_⟩
  rcases hb with ⟨u, hu, rfl⟩ | ⟨hno, -⟩
  · have hle := hu.2 t ht
    have hlt := hu.1.lt
    unfold delta at hage ⊢
    omega
  · exact absurd ht (hno t)

-- ========================================================== what a fault takes

/-- What the age test asks of a fault after `ps`: it unloads an old page,
and one it has picked by its age. -/
def FindsOld (ps : List Page) : Prop :=
  ∃ v, Old ps v ∧ agedVictim (run .wsc ps) = some v
    ∧ (replaceWSC (run .wsc ps)).valid v = false

/-- The age of some old page shows in the bytes. -/
def AgeShows (ps : List Page) : Prop :=
  ∃ i b, Old ps i ∧ StampByte ps i b
    ∧ ((ps.length % 256 : Nat) : Int) - b > delta

/-- At one fault: an old page is found exactly when the age of one
shows. -/
theorem findsOld_iff (ps : List Page) : FindsOld ps ↔ AgeShows ps := by
  constructor
  · intro h
    obtain ⟨v, hold, hv, -⟩ := h
    obtain ⟨b, hb⟩ := exists_stampByte ps v
    have haged := (agedVictim_eq_some_iff.mp hv).1
    exact ⟨v, b, hold, hb, ((aged_iff hb).mp haged).2.2⟩
  · intro h
    obtain ⟨i, b, hold, hb, hage⟩ := h
    have haged : (run .wsc ps).aged i = true :=
      (aged_iff hb).mpr ⟨hold.resident, hold.unreferenced, hage⟩
    obtain ⟨v, hv⟩ : ∃ v, agedVictim (run .wsc ps) = some v := by
      refine Option.isSome_iff_exists.mp ?_
      unfold agedVictim
      rw [List.find?_isSome]
      exact ⟨i, List.mem_finRange i, haged⟩
    obtain ⟨pt, -, hunload⟩ := replaceWSC_aged hv
    refine ⟨v, old_of_aged (agedVictim_eq_some_iff.mp hv).1, hv, ?_⟩
    rw [hunload, unload_valid]
    simp

/-- A fault at which the rule has something to find. -/
def AgedFault (ps : List Page) (p : Page) : Prop :=
  (run .wsc ps).valid p = false ∧ (ps.length : Int) > delta
    ∧ ∃ i, Old ps i

/-- WSC mode unloads an old page by its age at every fault of a run where
there is one exactly when, at every such fault, the age of one shows. -/
theorem aged_pages_found_iff (as : List Page) :
    (∀ ps p rest, as = ps ++ p :: rest → AgedFault ps p → FindsOld ps)
      ↔ ∀ ps p rest, as = ps ++ p :: rest → AgedFault ps p →
          AgeShows ps := by
  constructor
  · intro h ps p rest has hf
    exact (findsOld_iff ps).mp (h ps p rest has hf)
  · intro h ps p rest has hf
    exact (findsOld_iff ps).mpr (h ps p rest has hf)

/-- Before the counter wraps every age shows. -/
theorem ageShows_of_short {ps : List Page} {p : Page}
    (hf : AgedFault ps p) (hlen : ps.length < 256) : AgeShows ps := by
  obtain ⟨-, hmany, i, hold⟩ := hf
  obtain ⟨b, hb⟩ := exists_stampByte ps i
  refine ⟨i, b, hold, hb, ?_⟩
  rw [Nat.mod_eq_of_lt hlen]
  rcases hb with ⟨t, ht, rfl⟩ | ⟨-, rfl⟩
  · have hlt := ht.1.lt
    rw [Nat.mod_eq_of_lt (by omega)]
    exact hold.unstamped t ht.1
  · simpa using hmany

-- =============================================================== past the wrap

/-- Accesses to page 0 from the start: the table does not change but for
page 0 being referenced, and only page 0 is ever stamped. -/
theorem run_wsc_zeros (n : Nat) :
    (∀ q, (run .wsc (List.replicate n 0)).valid q = decide (q ≤ 2))
      ∧ (∀ q, q ≠ 0 →
          (run .wsc (List.replicate n 0)).referenced q = false)
      ∧ ∀ q t, q ≠ 0 → ¬ StampedAt (List.replicate n 0) q t := by
  induction n with
  | zero =>
      refine ⟨by decide, by decide, fun q t _ h => ?_⟩
      exact absurd h.lt (Nat.not_lt_zero t)
  | succ n ih =>
      obtain ⟨hvalid, href, hstamp⟩ := ih
      have hhit : (run .wsc (List.replicate n 0)).valid 0 = true := by
        rw [hvalid]
        decide
      have hbefore : beforeUpdate (run .wsc (List.replicate n 0)) 0
          = run .wsc (List.replicate n 0) := by
        rw [beforeUpdate, if_pos hhit]
      rw [List.replicate_succ', run_snoc]
      refine ⟨fun q => ?_, fun q hq => ?_, fun q t hq h => ?_⟩
      · by_cases hq : q = 0
        · subst hq
          exact (access_bits .wsc _ 0).1
        · unfold Table.valid
          rw [access_wsc_pageTable _ hq, hbefore]
          exact hvalid q
      · unfold Table.referenced
        rw [access_wsc_pageTable _ hq, hbefore]
        exact href q hq
      · rcases stampedAt_snoc.mp h with ⟨-, h⟩ | h
        · rw [hbefore, href q hq] at h
          cases h
        · exact hstamp q t hq h

/-- 256 accesses to one page. -/
def samePageRun (i : Page) : List Page := List.replicate 256 i

/-- The fault on page 3 after them finds the counter back at 0: page 1 has
never been stamped and does not look old, and page 0, the only page
accessed, is unloaded. -/
theorem not_aged_pages_found :
    AgedFault (samePageRun 0) 3 ∧ ¬ FindsOld (samePageRun 0)
      ∧ (replaceWSC (run .wsc (samePageRun 0))).valid 0 = false
      ∧ ¬ Old (samePageRun 0) 0 := by
  obtain ⟨hvalid, href, hstamp⟩ := run_wsc_zeros 256
  have hold : Old (samePageRun 0) 1 :=
    ⟨by rw [samePageRun, hvalid]; decide, href 1 (by decide),
      fun t ht => absurd ht (hstamp 1 t (by decide))⟩
  have hlen : (samePageRun 0).length = 256 := List.length_replicate
  have hyoung : ∀ i, (run .wsc (samePageRun 0)).aged i = false := by
    intro i
    by_contra hi
    obtain ⟨b, hb⟩ := exists_stampByte (samePageRun 0) i
    have hage := ((aged_iff hb).mp (by simpa using hi)).2.2
    rw [hlen] at hage
    unfold delta at hage
    omega
  refine ⟨⟨by rw [samePageRun, hvalid]; decide, ?_, 1, hold⟩, fun h => ?_, ?_,
    fun h => ?_⟩
  · rw [hlen]
    decide
  · obtain ⟨v, -, hv, -⟩ := h
    exact absurd ((agedVictim_eq_some_iff.mp hv).1.symm.trans (hyoung v))
      (by decide)
  · have hnone : agedVictim (run .wsc (samePageRun 0)) = none :=
      List.find?_eq_none.mpr fun i _ => by simp [hyoung i]
    have hfirst : (List.finRange 16).find? (run .wsc (samePageRun 0)).valid
        = some 0 := by
      have h0 : (run .wsc (samePageRun 0)).valid 0 = true := by
        rw [samePageRun, hvalid]
        decide
      exact List.find?_cons_of_pos h0
    obtain ⟨pt, -, hunload⟩ := replaceWSC_fallback hnone
    rw [hunload, hfirst, unload_valid]
    simp
  · have href0 : (run .wsc (samePageRun 0)).referenced 0 = true := by
      rw [samePageRun, List.replicate_succ', run_snoc]
      exact access_wsc_referenced _ 0
    rw [h.unreferenced] at href0
    cases href0

end SyeLabs.MemReplace
