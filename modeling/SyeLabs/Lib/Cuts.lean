/-
A list cut at increasing positions.

`piece cut l k` is what lies between the cuts `k` and `k + 1`. Each
piece continues the list from its cut (`take_cut_succ`), so what is
counted piece by piece is counted once (`sum_countP_piece`), and every
position lies in one piece (`existsUnique_piece`).
-/
import Mathlib.Algebra.BigOperators.Group.Finset.Basic
import Mathlib.Data.List.Basic
import Mathlib.Logic.ExistsUnique
import Mathlib.Order.Monotone.Defs
import Mathlib.Order.Nat

namespace SyeLabs.Lib

variable {α : Type*}

/-- The piece of `l` between two cuts. -/
def piece (cut : Nat → Nat) (l : List α) (k : Nat) : List α :=
  (l.drop (cut k)).take (cut (k + 1) - cut k)

variable {cut : Nat → Nat}

/-- The next piece. -/
theorem take_cut_succ (hmono : Monotone cut) (l : List α) (n : Nat) :
    l.take (cut (n + 1)) = l.take (cut n) ++ piece cut l n := by
  have hle : cut n ≤ cut (n + 1) := hmono (Nat.le_succ n)
  have hlen : cut (n + 1) = cut n + (cut (n + 1) - cut n) := by omega
  rw [piece, ← List.take_add, ← hlen]

/-- What is counted in the pieces is counted in the list. -/
theorem sum_countP_piece (hmono : Monotone cut) (h0 : cut 0 = 0)
    (p : α → Bool) (l : List α) (n : Nat) :
    ∑ k ∈ Finset.range n, (piece cut l k).countP p
      = (l.take (cut n)).countP p := by
  induction n with
  | zero => rw [h0]; rfl
  | succ n ih =>
      rw [Finset.sum_range_succ, ih, take_cut_succ hmono,
        List.countP_append]

/-- A position before the last cut lies in one piece. -/
theorem existsUnique_piece (hmono : Monotone cut) (h0 : cut 0 = 0)
    {n pos : Nat} (hpos : pos < cut n) :
    ∃! k, k < n ∧ cut k ≤ pos ∧ pos < cut (k + 1) := by
  have hexists : ∃ k, k < n ∧ cut k ≤ pos ∧ pos < cut (k + 1) := by
    induction n with
    | zero => omega
    | succ n ih =>
        by_cases hlt : pos < cut n
        · obtain ⟨k, hk, hin⟩ := ih hlt
          exact ⟨k, by omega, hin⟩
        · exact ⟨n, by omega, by omega, hpos⟩
  obtain ⟨k, hk, hlo, hhi⟩ := hexists
  refine ⟨k, ⟨hk, hlo, hhi⟩, ?_⟩
  rintro j ⟨hj, hjlo, hjhi⟩
  rcases Nat.lt_trichotomy j k with hlt | heq | hlt
  · have hle : cut (j + 1) ≤ cut k := hmono hlt
    omega
  · exact heq
  · have hle : cut (k + 1) ≤ cut j := hmono hlt
    omega

end SyeLabs.Lib
