/-
WSC mode against the working set.

The age test looks at stamps, and the stamp of a page can lag behind its
last access: an access leaves none unless its page was referenced
already, and a fault right after it may clear the bit before `updateTDU`
can make up for that. A page accessed two accesses ago can therefore
show the age of an older stamp, and no page accessed later than that
can. `keepsWorkingSet_iff` says which pages accessed two accesses ago
do.
-/
import SyeLabs.MemReplace.Aging

namespace SyeLabs.MemReplace

-- =================================================== the working set, and when

/-- Before the access that follows `ps`: if the age test picks a page,
its last access lies more than `DELTA` accesses back. -/
def KeepsWorkingSet (ps : List Page) : Prop :=
  ∀ v t, agedVictim (run .wsc ps) = some v → LastAccess ps v t →
    (ps.length : Int) - t > delta

/-- The age of page `i` shows before the access that follows `ps`: it is
resident and unreferenced, the last `DELTA` accesses have not stamped it,
and the byte of the access that did, or 0, lies more than `DELTA` below
the byte of the counter. -/
def ShowsAge (ps : List Page) (i : Page) : Prop :=
  ∃ b, Old ps i ∧ StampByte ps i b
    ∧ ((ps.length % 256 : Nat) : Int) - b > delta

/-- The last two accesses were to a page whose reference bit was clear
when it was accessed, so that it got no stamp then, and to another one
that was not resident, so that the bit was cleared before it could be
stamped; and the former is the first page whose age shows. -/
def Lagging (ps : List Page) : Prop :=
  ∃ qs v q, ps = qs ++ [v] ++ [q] ∧ v ≠ q
    ∧ (run .wsc qs).referenced v = false
    ∧ (run .wsc (qs ++ [v])).valid q = false
    ∧ ShowsAge ps v ∧ ∀ i, i < v → ¬ ShowsAge ps i

/-- The age test, as a statement about the run. -/
theorem aged_iff_showsAge {ps : List Page} {i : Page} :
    (run .wsc ps).aged i = true ↔ ShowsAge ps i := by
  obtain ⟨b, hb⟩ := exists_stampByte ps i
  constructor
  · intro h
    exact ⟨b, old_of_aged h, hb, ((aged_iff hb).mp h).2.2⟩
  · intro h
    obtain ⟨c, hold, hc, hage⟩ := h
    exact (aged_iff hc).mpr ⟨hold.resident, hold.unreferenced, hage⟩

/-- The age test picks the first page whose age shows. -/
theorem agedVictim_run_iff {ps : List Page} {v : Page} :
    agedVictim (run .wsc ps) = some v
      ↔ ShowsAge ps v ∧ ∀ i, i < v → ¬ ShowsAge ps i := by
  rw [agedVictim_eq_some_iff, aged_iff_showsAge]
  simp only [← aged_iff_showsAge, Bool.not_eq_true]

/-- A page accessed last is not picked. -/
theorem not_aged_of_last (ps : List Page) (v : Page) :
    (run .wsc (ps ++ [v])).aged v = false := by
  rw [run_snoc]
  simp [Table.aged, access_wsc_referenced]

/-- A stamp two below the counter is not old. -/
theorem stamp_recent {x y : BitVec 8} (h : x = y ∨ x = y + 1) :
    ¬ (((y + 1 + 1).toNat : Int) - x.toNat > delta) := by
  have hy := y.isLt
  have h1 : (y + 1).toNat = (y.toNat + 1) % 256 := BitVec.toNat_add y 1
  have h2 : (y + 1 + 1).toNat = ((y + 1).toNat + 1) % 256 :=
    BitVec.toNat_add (y + 1) 1
  unfold delta
  rcases h with rfl | rfl
  · omega
  · omega

/-- At one fault: the working set is kept exactly when the stamps do not
lag. -/
theorem keepsWorkingSet_iff (ps : List Page) :
    KeepsWorkingSet ps ↔ ¬ Lagging ps := by
  constructor
  · intro h hlag
    obtain ⟨qs, v, q, rfl, hvq, -, -, hage, hfirst⟩ := hlag
    have hlast : LastAccess (qs ++ [v] ++ [q]) v qs.length :=
      lastAccess_snoc.mpr (Or.inr ⟨hvq,
        lastAccess_snoc.mpr (Or.inl ⟨rfl, rfl⟩)⟩)
    have hfar := h v _ (agedVictim_run_iff.mpr ⟨hage, hfirst⟩) hlast
    unfold delta at hfar
    simp only [List.length_append, List.length_singleton] at hfar
    omega
  · intro hlag v t hv ht
    by_contra hnear
    apply hlag
    obtain ⟨hage, hfirst⟩ := agedVictim_run_iff.mp hv
    have haged := aged_iff_showsAge.mpr hage
    have hlt := lastAccess_lt ht
    unfold delta at hnear
    -- the last access to `v` is not the last of all
    obtain ⟨rs, q, rfl⟩ : ∃ rs q, ps = rs ++ [q] :=
      List.eq_nil_or_concat' ps |>.resolve_left fun hnil => by
        rw [hnil] at hlt
        exact Nat.not_lt_zero t hlt
    rcases lastAccess_snoc.mp ht with ⟨rfl, -⟩ | ⟨hvq, ht⟩
    · rw [not_aged_of_last] at haged
      cases haged
    have hlt' := lastAccess_lt ht
    obtain ⟨qs, w, rfl⟩ : ∃ qs w, rs = qs ++ [w] :=
      List.eq_nil_or_concat' rs |>.resolve_left fun hnil => by
        rw [hnil] at hlt'
        exact Nat.not_lt_zero t hlt'
    -- it is the one before
    have hvw : v = w := by
      rcases lastAccess_snoc.mp ht with ⟨hvw, -⟩ | ⟨-, ht⟩
      · exact hvw
      · have := lastAccess_lt ht
        simp only [List.length_append, List.length_singleton] at hnear
        omega
    subst hvw
    refine ⟨qs, v, q, rfl, hvq, ?_, ?_, hage, hfirst⟩
    · -- a referenced page would have been stamped by that access
      by_contra href
      have hstamp := access_wsc_stamp (p := v) (by simpa using href)
      obtain ⟨htvc, -⟩ := access_wsc_clocks (run .wsc qs) v
      obtain ⟨htvc', htdu⟩ :=
        access_wsc_clocks (access .wsc (run .wsc qs) v) q
      have hold : ((run .wsc (qs ++ [v] ++ [q])).tvc.toNat : Int)
          - ((run .wsc (qs ++ [v] ++ [q])).tdu v).toNat > delta := by
        simp only [Table.aged, Bool.and_eq_true, decide_eq_true_eq] at haged
        exact haged.2
      rw [run_snoc, run_snoc, htvc', htvc] at hold
      refine stamp_recent ?_ hold
      rcases htdu v with h | h
      · exact Or.inr (h.trans htvc)
      · exact Or.inl (h.trans hstamp)
    · -- a hit would have left the reference bit
      by_contra hhit
      have href := access_wsc_hit (p := q) (by simpa using hhit)
        (by rw [run_snoc]; exact access_wsc_referenced (run .wsc qs) v)
      rw [← run_snoc] at href
      rw [Table.aged, href] at haged
      simp at haged

/-- WSC mode never picks by age a page accessed within the last `DELTA`
accesses exactly when no fault of the run finds the stamps lagging. -/
theorem working_set_kept_iff (as : List Page) :
    (∀ ps p rest, as = ps ++ p :: rest → (run .wsc ps).valid p = false →
        KeepsWorkingSet ps)
      ↔ ∀ ps p rest, as = ps ++ p :: rest →
          (run .wsc ps).valid p = false → ¬ Lagging ps := by
  constructor
  · intro h ps p rest has hp
    exact (keepsWorkingSet_iff ps).mp (h ps p rest has hp)
  · intro h ps p rest has hp
    exact (keepsWorkingSet_iff ps).mpr (h ps p rest has hp)

/-- Page 1 is accessed for the first time, then page 5 and page 6 fault:
page 1 is picked by the age test two accesses after its own. -/
theorem not_working_set_kept :
    (run .wsc [0, 0, 0, 1, 5]).valid 6 = false
      ∧ agedVictim (run .wsc [0, 0, 0, 1, 5]) = some 1
      ∧ ¬ KeepsWorkingSet [0, 0, 0, 1, 5] := by
  have hv : agedVictim (run .wsc [0, 0, 0, 1, 5]) = some 1 := by decide
  refine ⟨by decide, hv, fun h => ?_⟩
  have hfirst : LastAccess ([0, 0, 0] ++ [1]) 1 3 :=
    lastAccess_snoc.mpr (Or.inl ⟨rfl, rfl⟩)
  have hlast : LastAccess ([0, 0, 0, 1] ++ [5]) 1 3 :=
    lastAccess_snoc.mpr (Or.inr ⟨by decide, hfirst⟩)
  exact absurd (h 1 3 hv hlast) (by decide)

end SyeLabs.MemReplace
