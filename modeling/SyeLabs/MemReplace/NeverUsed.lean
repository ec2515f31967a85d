/-
Whether LRU mode prefers the pages that have never been accessed.

# Two meanings of 0

`tdu` starts at 0, and `inc_compteur` stamps the first access with 0 too,
as it does every 256th one after it. So `replaceLRU` cannot tell a page
never accessed from one last accessed at such a number, and takes the
one with the lower index. When the counter itself is back at 0 it
compares nothing and takes the first resident page.

# When it does prefer them

`unloadsUnused_iff` says at which faults a page never accessed is
unloaded, from the numbers of the last accesses and the order of the
indices.
-/
import Mathlib.Order.Minimal
import SyeLabs.MemReplace.Lru

namespace SyeLabs.MemReplace

-- ============================================================ stamps of a page

/-- A page that has not been accessed keeps the stamp it starts with. -/
theorem run_lru_tdu_of_unused {ps : List Page} {p : Page} (hp : p ∉ ps) :
    (run .lru ps).tdu p = 0 := by
  induction ps using List.reverseRecOn with
  | nil => rfl
  | append_singleton ps q ih =>
      rw [List.mem_append, List.mem_singleton, not_or] at hp
      rw [run_snoc, (access_lru_clocks _ q).2, Function.update_of_ne hp.2]
      exact ih hp.1

/-- The scan settles on a page never accessed when the resident pages
before it do not look like one, or, if the counter is at 0, when there
are none. -/
theorem selected_unused {ps : List Page} {v : Page} (hv : v ∉ ps)
    (hvalid : (run .lru ps).valid v = true) :
    Selected (run .lru ps) v
      ↔ ∀ u, u < v → (run .lru ps).valid u = true →
          ps.length % 256 ≠ 0 ∧ ((run .lru ps).tdu u).toNat ≠ 0 := by
  have hzero : ((run .lru ps).tdu v).toNat = 0 := by
    rw [run_lru_tdu_of_unused hv]
    rfl
  unfold Selected
  rw [hzero, run_lru_tvc_toNat]
  constructor
  · intro h u huv hu
    rcases h.2 with ⟨hpos, hleast⟩ | ⟨-, hfirst⟩
    · refine ⟨Nat.ne_of_gt hpos, fun hu0 => ?_⟩
      rcases hleast u hu with hlt | ⟨-, hle⟩
      · omega
      · exact absurd hle (not_le_of_gt huv)
    · exact absurd (hfirst u hu) (not_le_of_gt huv)
  · intro h
    refine ⟨hvalid, ?_⟩
    by_cases hwrap : ps.length % 256 = 0
    · -- nothing is compared, and no resident page comes before `v`
      refine Or.inr ⟨fun r _ => by omega, fun r hr => ?_⟩
      by_contra hlt
      exact (h r (not_le.mp hlt) hr).1 hwrap
    · refine Or.inl ⟨Nat.pos_of_ne_zero hwrap, fun r hr => ?_⟩
      rcases Nat.eq_zero_or_pos ((run .lru ps).tdu r).toNat with hr0 | hpos
      · refine Or.inr ⟨hr0.symm, ?_⟩
        by_contra hlt
        exact (h r (not_le.mp hlt) hr).2 hr0
      · exact Or.inl hpos

-- ================================================================ at one fault

/-- A fault at which some resident page has never been accessed. -/
def UnusedFault (ps : List Page) (p : Page) : Prop :=
  (run .lru ps).valid p = false
    ∧ ∃ r, (run .lru ps).valid r = true ∧ r ∉ ps

/-- What preferring such pages asks of a fault after `ps`. -/
def UnloadsUnused (ps : List Page) : Prop :=
  ∃ v, (run .lru ps).valid v = true ∧ v ∉ ps
    ∧ replaceLRU (run .lru ps) = unload (run .lru ps) (some v)

/-- Some resident page never accessed has before it no accessed resident
page whose last access has a multiple of 256 for its number, and none at
all when the number of accesses so far is such a multiple. -/
def StandsOut (ps : List Page) : Prop :=
  ∃ v, (run .lru ps).valid v = true ∧ v ∉ ps
    ∧ ∀ u, u < v → (run .lru ps).valid u = true → u ∈ ps →
        ps.length % 256 ≠ 0 ∧ ∀ t, LastAccess ps u t → t % 256 ≠ 0

/-- Among the resident pages never accessed there is a first. -/
theorem exists_first_unused {ps : List Page} {r : Page}
    (hr : (run .lru ps).valid r = true) (hrps : r ∉ ps) :
    ∃ v, v ≤ r ∧ (run .lru ps).valid v = true ∧ v ∉ ps
      ∧ ∀ u, u < v → (run .lru ps).valid u = true → u ∈ ps := by
  obtain ⟨v, hle, hmin⟩ := exists_minimal_le_of_wellFoundedLT
    (fun v => (run .lru ps).valid v = true ∧ v ∉ ps) r ⟨hr, hrps⟩
  refine ⟨v, hle, hmin.prop.1, hmin.prop.2, fun u huv hu => ?_⟩
  by_contra hups
  exact hmin.not_prop_of_lt huv ⟨hu, hups⟩

/-- At one fault: a page never accessed is unloaded exactly when one
stands out. -/
theorem unloadsUnused_iff (ps : List Page) :
    UnloadsUnused ps ↔ StandsOut ps := by
  constructor
  · intro h
    obtain ⟨v, hv, hvps, hun⟩ := h
    have hsel := lruVictim_eq_some_iff.mp ((replaceLRU_eq_unload_iff hv).mp hun)
    refine ⟨v, hv, hvps, fun u huv hu _ => ?_⟩
    obtain ⟨hlen, hstamp⟩ := (selected_unused hvps hv).mp hsel u huv hu
    refine ⟨hlen, fun t ht => ?_⟩
    rw [← run_lru_tdu_toNat ht]
    exact hstamp
  · intro h
    obtain ⟨r, hr, hrps, hbefore⟩ := h
    obtain ⟨v, hvr, hv, hvps, hfirst⟩ := exists_first_unused hr hrps
    refine ⟨v, hv, hvps, (replaceLRU_eq_unload_iff hv).mpr ?_⟩
    refine lruVictim_eq_some_iff.mpr ((selected_unused hvps hv).mpr ?_)
    intro u huv hu
    have hups := hfirst u huv hu
    obtain ⟨t, ht⟩ := exists_lastAccess hups
    obtain ⟨hlen, hstamp⟩ := hbefore u (lt_of_lt_of_le huv hvr) hu hups
    rw [run_lru_tdu_toNat ht]
    exact ⟨hlen, hstamp t ht⟩

/-- LRU mode unloads a page never accessed at every fault of a run where
one is resident exactly when, at every such fault, one stands out. -/
theorem unused_preferred_iff (as : List Page) :
    (∀ ps p rest, as = ps ++ p :: rest → UnusedFault ps p →
        UnloadsUnused ps)
      ↔ ∀ ps p rest, as = ps ++ p :: rest → UnusedFault ps p →
          StandsOut ps := by
  constructor
  · intro h ps p rest has hf
    exact (unloadsUnused_iff ps).mp (h ps p rest has hf)
  · intro h ps p rest has hf
    exact (unloadsUnused_iff ps).mpr (h ps p rest has hf)

/-- After one access to page 0 the fault on page 3 unloads page 0, which
carries the stamp 0 of its access, though pages 1 and 2 have not been
accessed. -/
theorem not_unused_preferred :
    UnusedFault [0] 3 ∧ ¬ UnloadsUnused [0] := by
  refine ⟨⟨by decide, 1, by decide, by decide⟩, fun h => ?_⟩
  obtain ⟨v, hv, hvps, hun⟩ := h
  have hvictim : lruVictim (run .lru [0]) = some 0 := by decide
  rw [(replaceLRU_eq_unload_iff hv).mp hun] at hvictim
  rw [Option.some.inj hvictim] at hvps
  exact hvps List.mem_cons_self

end SyeLabs.MemReplace
