/-
Two-player games looked at up to a horizon.

The sides move in turn, and a position says whose turn it is. `Forces`
and `Concedes` say that the side to move, or the other one, can win
within a number of moves whatever its opponent plays. `value` is the
recursion that a move search computes, each level taking the negated
value of the next; it is 1, -1 or 0 according to which of the two holds
(`value_eq_one_iff`, `value_eq_neg_one_iff`), so they exclude each other.
-/
import Mathlib.Data.List.Basic

namespace SyeLabs.Lib

/-- The positions the side to move can choose from, and whether the side
that has just moved has won by it. -/
structure Game (σ : Type*) where
  moves : σ → List σ
  won : σ → Bool

namespace Game

variable {σ : Type*} (g : Game σ)

mutual

/-- The side to move can win within `n` moves. -/
def Forces : Nat → σ → Prop
  | 0, _ => False
  | n + 1, s => ∃ t ∈ g.moves s, g.won t = true ∨ Concedes n t

/-- The other side can. -/
def Concedes : Nat → σ → Prop
  | 0, _ => False
  | n + 1, s =>
      g.moves s ≠ [] ∧ ∀ t ∈ g.moves s, g.won t = false ∧ Forces n t

end

/-- The best of some scores, and 0 if there are none. -/
def best (scores : List Int) : Int := scores.max?.getD 0

/-- The score of a position for the side to move. -/
def value : Nat → σ → Int
  | 0, _ => 0
  | n + 1, s =>
      best ((g.moves s).map fun t => if g.won t then 1 else -value n t)

/-- What a score of a position should be. -/
structure Scores (n : Nat) (s : σ) (v : Int) : Prop where
  forces : g.Forces n s → v = 1
  concedes : g.Concedes n s → v = -1
  neither : ¬ g.Forces n s → ¬ g.Concedes n s → v = 0

-- ============================================================== the best score

theorem best_mem {l : List Int} (hl : l ≠ []) : best l ∈ l := by
  obtain ⟨m, hm⟩ := Option.isSome_iff_exists.mp
    (List.isSome_max?_of_ne_nil hl)
  rw [best, hm]
  exact (List.max?_eq_some_iff.mp hm).1

theorem le_best {l : List Int} {x : Int} (hx : x ∈ l) : x ≤ best l := by
  obtain ⟨m, hm⟩ := Option.isSome_iff_exists.mp
    (List.isSome_max?_of_mem hx)
  rw [best, hm]
  exact (List.max?_eq_some_iff.mp hm).2 x hx

/-- Among scores up to 1 the best is 1 if one of them is. -/
theorem best_eq_one_iff {l : List Int} (hl : ∀ x ∈ l, x ≤ 1) :
    best l = 1 ↔ 1 ∈ l := by
  by_cases hnil : l = []
  · subst hnil
    decide
  · refine ⟨fun h => h ▸ best_mem hnil, fun h => ?_⟩
    exact Int.le_antisymm (hl _ (best_mem hnil)) (le_best h)

/-- Among scores from -1 the best is -1 if all of them are. -/
theorem best_eq_neg_one_iff {l : List Int} (hl : ∀ x ∈ l, -1 ≤ x) :
    best l = -1 ↔ l ≠ [] ∧ ∀ x ∈ l, x = -1 := by
  by_cases hnil : l = []
  · subst hnil
    decide
  · refine ⟨fun h => ⟨hnil, fun x hx => ?_⟩, fun h => h.2 _ (best_mem hnil)⟩
    exact Int.le_antisymm (h ▸ le_best hx) (hl x hx)

-- ============================================================= scores and wins

/-- A score is 1, 0 or -1. -/
theorem value_range (n : Nat) : ∀ s, -1 ≤ g.value n s ∧ g.value n s ≤ 1 := by
  induction n with
  | zero => exact fun _ => by simp [value]
  | succ n ih =>
      intro s
      rw [value]
      by_cases hnil : g.moves s = []
      · simp [hnil, best]
      · have hmem := best_mem (l := (g.moves s).map fun t =>
          if g.won t then 1 else -g.value n t) (by simpa using hnil)
        obtain ⟨t, -, ht⟩ := List.mem_map.mp hmem
        rw [← ht]
        have := ih t
        split <;> omega

/-- The side to move can win exactly if the score is 1, and the other
side exactly if it is -1. -/
theorem value_iff (n : Nat) :
    ∀ s, (g.value n s = 1 ↔ g.Forces n s)
      ∧ (g.value n s = -1 ↔ g.Concedes n s) := by
  induction n with
  | zero => exact fun _ => by simp [value, Forces, Concedes]
  | succ n ih =>
      intro s
      have hscore : ∀ x ∈ (g.moves s).map
          fun t => if g.won t then 1 else -g.value n t, -1 ≤ x ∧ x ≤ 1 := by
        intro x hx
        obtain ⟨t, -, rfl⟩ := List.mem_map.mp hx
        have := g.value_range n t
        split <;> omega
      rw [value, Forces, Concedes, best_eq_one_iff fun x hx => (hscore x hx).2,
        best_eq_neg_one_iff fun x hx => (hscore x hx).1]
      -- a move that wins scores 1, any other the negated score after it
      have hone : ∀ t, (if g.won t = true then 1 else -g.value n t) = 1
          ↔ g.won t = true ∨ g.Concedes n t := by
        intro t
        rw [← (ih t).2]
        by_cases hw : g.won t = true
        · simp [hw]
        · rw [if_neg hw]
          refine ⟨fun h => Or.inr (by omega), fun h => ?_⟩
          have := h.resolve_left hw
          omega
      have hneg : ∀ t, (if g.won t = true then 1 else -g.value n t) = -1
          ↔ g.won t = false ∧ g.Forces n t := by
        intro t
        rw [← (ih t).1]
        by_cases hw : g.won t = true
        · simp [hw]
        · rw [if_neg hw]
          refine ⟨fun h => ⟨by simpa using hw, by omega⟩, fun h => ?_⟩
          have := h.2
          omega
      simp only [List.mem_map, hone, ne_eq, List.map_eq_nil_iff,
        forall_exists_index, and_imp, forall_apply_eq_imp_iff₂, hneg, true_and]

theorem value_eq_one_iff {n : Nat} {s : σ} :
    g.value n s = 1 ↔ g.Forces n s := (g.value_iff n s).1

theorem value_eq_neg_one_iff {n : Nat} {s : σ} :
    g.value n s = -1 ↔ g.Concedes n s := (g.value_iff n s).2

/-- A score is right exactly if it is the value of the recursion. -/
theorem scores_iff {n : Nat} {s : σ} {v : Int} :
    g.Scores n s v ↔ v = g.value n s := by
  have hrange := g.value_range n s
  constructor
  · intro h
    by_cases hf : g.Forces n s
    · rw [h.forces hf, g.value_eq_one_iff.mpr hf]
    · by_cases hc : g.Concedes n s
      · rw [h.concedes hc, g.value_eq_neg_one_iff.mpr hc]
      · rw [h.neither hf hc]
        have h1 := mt g.value_eq_one_iff.mp hf
        have h2 := mt g.value_eq_neg_one_iff.mp hc
        omega
  · intro h
    subst h
    refine ⟨g.value_eq_one_iff.mpr, g.value_eq_neg_one_iff.mpr,
      fun hf hc => ?_⟩
    have h1 := mt g.value_eq_one_iff.mp hf
    have h2 := mt g.value_eq_neg_one_iff.mp hc
    omega

/-- The score 0 is right exactly if neither side can win. -/
theorem scores_zero_iff {n : Nat} {s : σ} :
    g.Scores n s 0 ↔ ¬ g.Forces n s ∧ ¬ g.Concedes n s := by
  rw [scores_iff, ← value_eq_one_iff, ← value_eq_neg_one_iff]
  have hrange := g.value_range n s
  omega

end Game

end SyeLabs.Lib
