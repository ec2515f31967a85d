/-
The scores of `minmax` against the value of the game.

# The game

`board` is tictactoe as a game of two sides: a position is a grid with
the side to move, a move puts that side in an empty cell, and it wins if
the side then holds one of the eight lines. `Game.Scores` says what a
depth-limited score should be: 1 or -1 when the side to move or the
other one can force a line within the depth, and 0 otherwise.

# What is computed

`minmax` has the recursion of such a score without the test for a line,
so it returns 0 wherever it is called. That is right exactly where
neither side can force a line. `computers_turn`, finding every move as
good as the first, plays the first empty cell.
-/
import SyeLabs.Lib.Horizon
import SyeLabs.Tictactoe.Outcome

namespace SyeLabs.Tictactoe

open Lib

-- ==================================================================== the game

/-- The cells that can be played. -/
def emptyCells (grid : Grid) : List Int :=
  cells.filter (grid · = emptyId)

/-- The side to move, and the grid. -/
abbrev Position := Int × Grid

/-- Tictactoe. -/
def board : Game Position where
  moves s := (emptyCells s.2).map fun i =>
    (-s.1, Function.update s.2 i s.1)
  won s := decide (HoldsOne s.2 (-s.1) lines)

/-- Cell `i` is empty and completes a line of the side. -/
def WinningCell (grid : Grid) (id i : Int) : Prop :=
  i ∈ emptyCells grid ∧ HoldsOne (Function.update grid i id) id lines

instance (grid : Grid) (id i : Int) : Decidable (WinningCell grid id i) :=
  inferInstanceAs (Decidable (_ ∧ _))

/-- To have a winning cell is to win within one move. -/
theorem forces_one_iff {grid : Grid} {id : Int} :
    board.Forces 1 (id, grid) ↔ ∃ i, WinningCell grid id i := by
  simp [Game.Forces, Game.Concedes, board, WinningCell]

-- ====================================================================== scores

/-- The score of `minmax` is the value of the game. -/
def ScoredRight (grid : Grid) (player : Int) (depth : Nat) : Prop :=
  board.Scores depth (player, grid) (minmax depth player grid).1

/-- `computers_turn` plays a winning cell if there is one. -/
def TakesWin (h : Header) (grid : Grid) : Prop :=
  (∃ i, WinningCell grid h.aiId i) →
    WinningCell grid h.aiId ((computersTurn h grid).1 - 1)

/-- If the computer has a winning cell, the first empty cell is one. -/
def FirstWins (h : Header) (grid : Grid) : Prop :=
  (∃ i, WinningCell grid h.aiId i) →
    ∃ i, (emptyCells grid).head? = some i ∧ WinningCell grid h.aiId i

theorem takesWin_iff (h : Header) (grid : Grid) :
    TakesWin h grid ↔ FirstWins h grid := by
  refine forall_congr' fun hwin => ?_
  have hfirst : (emptyCells grid).head?
      = cells.find? (grid · = emptyId) := List.head?_filter
  obtain ⟨j, hj, -⟩ := hwin
  obtain ⟨i, hi⟩ : ∃ i, (emptyCells grid).head? = some i :=
    Option.isSome_iff_exists.mp (List.isSome_head?.mpr
      (List.ne_nil_of_mem hj))
  have hturn : (computersTurn h grid).1 - 1 = i := by
    rw [computersTurn_eq, ← hfirst, hi]
    simp
  rw [hturn, hi]
  simp

/-- `minmax` computes the value of the game exactly where neither side
can force a line within the depth, and `computers_turn` plays a winning
cell exactly where, if there is one, the first empty cell is one. -/
theorem search_plays_game_iff (h : Header) (grid : Grid) (player : Int)
    (depth : Nat) :
    (ScoredRight grid player depth
        ↔ ¬ board.Forces depth (player, grid)
          ∧ ¬ board.Concedes depth (player, grid))
      ∧ (TakesWin h grid ↔ FirstWins h grid) := by
  refine ⟨?_, takesWin_iff h grid⟩
  unfold ScoredRight
  rw [minmax_eq]
  exact board.scores_zero_iff

/-- The player holds cells 2, 6 and 8, the computer cells 3 and 4. -/
def rowOfTwo : Grid := fun i =>
  if i = 2 ∨ i = 6 ∨ i = 8 then 1 else if i = 3 ∨ i = 4 then -1 else 0

/-- The computer is to move and wins at 5, but `minmax` scores the
position 0 and `computers_turn` plays 0. -/
theorem not_search_plays_game :
    (¬ HoldsOne rowOfTwo 1 lines ∧ ¬ HoldsOne rowOfTwo (-1) lines)
      ∧ ¬ ScoredRight rowOfTwo (-1) 1
      ∧ ¬ TakesWin { Header.sample with maxDepth := 2 } rowOfTwo := by
  have hwin : WinningCell rowOfTwo (-1) 5 := by decide
  refine ⟨by decide, fun hscore => ?_, fun htakes => ?_⟩
  · have hone := hscore.forces (forces_one_iff.mpr ⟨5, hwin⟩)
    rw [minmax_eq] at hone
    cases hone
  · have hzero := htakes ⟨5, hwin⟩
    rw [computersTurn_eq] at hzero
    exact absurd hzero (by decide)

end SyeLabs.Tictactoe
