/-
The game manager of tictactoe.

# What is modelled

`game_manager` with the functions it calls, as a machine whose steps lie
between its reads and writes of the two pipes. `go` runs up to the next
pipe operation that is not a read and `receive` is one `gm_get_cmd`.
The header `tictactoe.h` is not part of the repository: `Header` holds
what the code uses of it, with the grid size 9 and the empty cell 0.

# The grid as memory

`game.grid` is a map from every integer index, as the C array is memory
that an index out of range reaches past. That no step writes outside
the nine cells is a theorem (Board.lean), not part of the type.

# The computer's move

`minmax` never asks who has won: it tries moves until the grid is full
and the score of every line of play is 0. It is modelled with the trial
moves and their reversal, and `minmax_eq` says what comes of them.
-/
import Mathlib.Data.List.Basic
import Mathlib.Logic.Function.Basic

namespace SyeLabs.Tictactoe

-- ====================================================================== header

/-- The commands of the game manager. -/
inductive Cmd
  | gameStart
  | gameEnd
  | youCanPlay
  | moveRejected
  | youWin
  | youLose
  | noWinner
  deriving DecidableEq, Repr

/-- What the code uses of `tictactoe.h`. -/
structure Header where
  playerId : Int
  playerId_ne : playerId ≠ 0
  maxDepth : Int
  maxBufferLength : Nat
  code : Cmd → Int
  code_inj : Function.Injective code

/-- One such header. -/
def Header.sample : Header where
  playerId := 1
  playerId_ne := by decide
  maxDepth := 1
  maxBufferLength := 80
  code
    | .gameStart => 1
    | .gameEnd => 2
    | .youCanPlay => 3
    | .moveRejected => 4
    | .youWin => 5
    | .youLose => 6
    | .noWinner => 7
  code_inj c d hcd := by cases c <;> cases d <;> first | rfl | cases hcd

def emptyId : Int := 0

def gridSize : Int := 9

/-- `AI_ID`, the opposite of `PLAYER_ID`. -/
def Header.aiId (h : Header) : Int := -h.playerId

theorem Header.aiId_ne (h : Header) : h.aiId ≠ 0 :=
  fun heq => h.playerId_ne (Int.neg_eq_zero.mp heq)

theorem Header.playerId_ne_aiId (h : Header) : h.playerId ≠ h.aiId := by
  have hne := h.playerId_ne
  unfold Header.aiId
  omega

/-- `game.grid`, and the memory around it. -/
abbrev Grid := Int → Int

/-- The indices a loop over the grid takes, in order. -/
def cells : List Int := [0, 1, 2, 3, 4, 5, 6, 7, 8]

def InGrid (i : Int) : Prop := 0 ≤ i ∧ i < gridSize

instance (i : Int) : Decidable (InGrid i) :=
  inferInstanceAs (Decidable (0 ≤ i ∧ i < gridSize))

theorem mem_cells_iff {i : Int} : i ∈ cells ↔ InGrid i := by
  simp only [cells, InGrid, gridSize, List.mem_cons, List.not_mem_nil,
    or_false]
  omega

theorem cells_nodup : cells.Nodup := by decide

-- ========================================================= the computer's turn

/-- The loop of `minmax` over the cells that are left, with the recursive
call as `next`. -/
def minmaxLoop (player : Int) (next : Grid → Int × Grid) :
    List Int → Int → Int → Grid → Int × Grid
  | [], move, score, grid => (if move = -1 then 0 else score, grid)
  | i :: is, move, score, grid =>
      if grid i = emptyId then
        let tried := next (Function.update grid i player)
        let nextScore := -tried.1
        let better := decide (nextScore > score)
        let score := if better then nextScore else score
        let move := if better then i else move
        let grid := Function.update tried.2 i 0
        if score > 0 then (score, grid)
        else minmaxLoop player next is move score grid
      else minmaxLoop player next is move score grid

/-- `minmax`: the score, and the grid it leaves. -/
def minmax : Nat → Int → Grid → Int × Grid
  | 0, _, grid => (0, grid)
  | depth + 1, player, grid =>
      minmaxLoop player (minmax depth (-player)) cells (-1) (-2) grid

/-- The loop of `computers_turn`. -/
def computersLoop (h : Header) (depth : Nat) :
    List Int → Int → Int → Grid → Int × Grid
  | [], move, _, grid => (move, grid)
  | i :: is, move, score, grid =>
      if grid i = emptyId then
        let tried := minmax depth h.aiId (Function.update grid i h.aiId)
        let tempScore := -tried.1
        let better := decide (tempScore > score)
        let score := if better then tempScore else score
        let move := if better then i else move
        computersLoop h depth is move score (Function.update tried.2 i 0)
      else computersLoop h depth is move score grid

/-- `computers_turn`. The depth becomes an `unsigned int` at the call. -/
def computersTurn (h : Header) (grid : Grid) : Int × Grid :=
  let r := computersLoop h ((h.maxDepth - 1) % 4294967296).toNat cells (-1) (-2)
    grid
  (r.1 + 1, r.2)

/-- A trial move taken back. -/
theorem update_update_empty {grid : Grid} {i : Int} (id : Int)
    (hi : grid i = emptyId) :
    Function.update (Function.update grid i id) i 0 = grid := by
  rw [Function.update_idem]
  exact (congrArg (Function.update grid i) hi.symm).trans
    (Function.update_eq_self i grid)

/-- A loop of `minmax` over moves that all score 0 scores 0 and takes
every trial back. -/
theorem minmaxLoop_eq {player : Int} {next : Grid → Int × Grid}
    (hnext : ∀ grid, next grid = (0, grid)) {is : List Int} :
    ∀ {move score : Int} {grid : Grid}, (∀ i ∈ is, i ≠ -1) →
      (move = -1 ∧ score = -2 ∨ score = 0) →
      minmaxLoop player next is move score grid = (0, grid) := by
  induction is with
  | nil =>
      intro move score grid _ hscore
      rcases hscore with ⟨rfl, -⟩ | rfl
      · rfl
      · simp [minmaxLoop]
  | cons i is ih =>
      intro move score grid his hscore
      have hrest := fun j hj => his j (List.mem_cons_of_mem i hj)
      rw [minmaxLoop]
      by_cases hi : grid i = emptyId
      · have hle : score ≤ 0 := by omega
        have hback := update_update_empty player hi
        simp only [if_pos hi, hnext, hback, Int.neg_zero]
        rw [if_neg (by split <;> omega)]
        apply ih hrest
        right
        simp only [decide_eq_true_eq]
        split <;> omega
      · rw [if_neg hi]
        exact ih hrest hscore

-- ========================================================== a grid of any size

/-- The indices a loop takes over a grid of `size` cells. -/
def cellsOf (size : Nat) : List Int := (List.range size).map Int.ofNat

/-- `minmax` with `size` for `GRID_SIZE`. -/
def minmaxOf (size : Nat) : Nat → Int → Grid → Int × Grid
  | 0, _, grid => (0, grid)
  | depth + 1, player, grid =>
      minmaxLoop player (minmaxOf size depth (-player)) (cellsOf size) (-1)
        (-2) grid

/-- The loop of `computers_turn`, likewise. -/
def computersLoopOf (h : Header) (size depth : Nat) :
    List Int → Int → Int → Grid → Int × Grid
  | [], move, _, grid => (move, grid)
  | i :: is, move, score, grid =>
      if grid i = emptyId then
        let tried :=
          minmaxOf size depth h.aiId (Function.update grid i h.aiId)
        let tempScore := -tried.1
        let better := decide (tempScore > score)
        let score := if better then tempScore else score
        let move := if better then i else move
        computersLoopOf h size depth is move score
          (Function.update tried.2 i 0)
      else computersLoopOf h size depth is move score grid

/-- `computers_turn`, likewise. -/
def computersTurnOf (h : Header) (size : Nat) (grid : Grid) : Int × Grid :=
  let r := computersLoopOf h size ((h.maxDepth - 1) % 4294967296).toNat
    (cellsOf size) (-1) (-2) grid
  (r.1 + 1, r.2)

theorem minmaxOf_nine (depth : Nat) :
    ∀ player, minmaxOf 9 depth player = minmax depth player := by
  induction depth with
  | zero => exact fun _ => rfl
  | succ depth ih =>
      intro player
      funext grid
      rw [minmaxOf, minmax, ih]
      rfl

theorem computersLoopOf_nine (h : Header) (depth : Nat) (is : List Int) :
    ∀ (move score : Int) (grid : Grid),
      computersLoopOf h 9 depth is move score grid
        = computersLoop h depth is move score grid := by
  induction is with
  | nil => exact fun _ _ _ => rfl
  | cons i is ih =>
      intro move score grid
      simp only [computersLoopOf, computersLoop, minmaxOf_nine, ih]

theorem computersTurnOf_nine (h : Header) (grid : Grid) :
    computersTurnOf h 9 grid = computersTurn h grid := by
  unfold computersTurnOf computersTurn
  rw [computersLoopOf_nine]
  rfl

theorem mem_cellsOf {size : Nat} {i : Int} :
    i ∈ cellsOf size ↔ 0 ≤ i ∧ i < size := by
  simp only [cellsOf, List.mem_map, List.mem_range, Int.ofNat_eq_natCast]
  refine ⟨fun h => ?_, fun h => ⟨i.toNat, by omega, by omega⟩⟩
  obtain ⟨n, hn, rfl⟩ := h
  omega

/-- Every grid scores 0, and `minmax` leaves it as it was. -/
theorem minmaxOf_eq (size depth : Nat) :
    ∀ (player : Int) (grid : Grid),
      minmaxOf size depth player grid = (0, grid) := by
  induction depth with
  | zero => exact fun _ _ => rfl
  | succ depth ih =>
      intro player grid
      refine minmaxLoop_eq (ih (-player)) (fun i hi => ?_)
        (Or.inl ⟨rfl, rfl⟩)
      have := (mem_cellsOf.mp hi).1
      omega

theorem minmax_eq (depth : Nat) (player : Int) (grid : Grid) :
    minmax depth player grid = (0, grid) := by
  rw [← minmaxOf_nine, minmaxOf_eq]

/-- Once a move has scored 0 the loop keeps it. -/
theorem computersLoopOf_keep (h : Header) (size depth : Nat)
    (is : List Int) (move : Int) (grid : Grid) :
    computersLoopOf h size depth is move 0 grid = (move, grid) := by
  induction is with
  | nil => rfl
  | cons i is ih =>
      rw [computersLoopOf]
      by_cases hi : grid i = emptyId
      · have hback := update_update_empty h.aiId hi
        have hworse : ¬ (0 : Int) > 0 := Int.lt_irrefl 0
        simpa only [if_pos hi, minmaxOf_eq, hback, Int.neg_zero, hworse,
          decide_false, Bool.false_eq_true, if_false] using ih
      · rw [if_neg hi]
        exact ih

/-- The loop takes the first empty cell. -/
theorem computersLoopOf_eq (h : Header) (size depth : Nat)
    (is : List Int) (grid : Grid) :
    computersLoopOf h size depth is (-1) (-2) grid
      = ((is.find? (grid · = emptyId)).getD (-1), grid) := by
  induction is with
  | nil => rfl
  | cons i is ih =>
      rw [computersLoopOf]
      by_cases hi : grid i = emptyId
      · have hback := update_update_empty h.aiId hi
        have hbetter : (0 : Int) > -2 := by decide
        rw [List.find?_cons_of_pos (by simpa using hi), Option.getD_some]
        simpa only [if_pos hi, minmaxOf_eq, hback, Int.neg_zero, hbetter,
          decide_true, if_true]
          using computersLoopOf_keep h size depth is i grid
      · rw [if_neg hi, List.find?_cons_of_neg (by simpa using hi)]
        exact ih

/-- The computer plays the first empty cell, whatever the depth. -/
theorem computersTurnOf_eq (h : Header) (size : Nat) (grid : Grid) :
    computersTurnOf h size grid
      = (((cellsOf size).find? (grid · = emptyId)).getD (-1) + 1, grid) := by
  unfold computersTurnOf
  rw [computersLoopOf_eq]

theorem computersTurn_eq (h : Header) (grid : Grid) :
    computersTurn h grid
      = ((cells.find? (grid · = emptyId)).getD (-1) + 1, grid) := by
  rw [← computersTurnOf_nine, computersTurnOf_eq]
  rfl

/-- On a grid with room the move is an empty cell of it. -/
theorem computersTurnOf_spec (h : Header) {size : Nat} {grid : Grid}
    (hroom : ∃ i ∈ cellsOf size, grid i = emptyId) :
    ∃ i ∈ cellsOf size, grid i = emptyId
      ∧ computersTurnOf h size grid = (i + 1, grid) := by
  obtain ⟨j, hj, hempty⟩ := hroom
  have hfound : ((cellsOf size).find? (grid · = emptyId)).isSome = true :=
    List.find?_isSome.mpr ⟨j, hj, by simpa using hempty⟩
  obtain ⟨i, hi⟩ := Option.isSome_iff_exists.mp hfound
  refine ⟨i, List.mem_of_find?_eq_some hi, ?_, ?_⟩
  · simpa using List.find?_some hi
  · rw [computersTurnOf_eq, hi]
    rfl

theorem computersTurn_spec (h : Header) {grid : Grid}
    (hroom : ∃ i, InGrid i ∧ grid i = emptyId) :
    ∃ i, InGrid i ∧ grid i = emptyId
      ∧ computersTurn h grid = (i + 1, grid) := by
  have hcell : ∀ i, i ∈ cellsOf 9 ↔ InGrid i := fun i => mem_cellsOf
  rw [← computersTurnOf_nine]
  simp only [← hcell] at hroom ⊢
  exact computersTurnOf_spec h hroom

/-- On a full one it is -1, and `computers_turn` returns 0. -/
theorem computersTurnOf_full (h : Header) {size : Nat} {grid : Grid}
    (hfull : ∀ i ∈ cellsOf size, grid i ≠ emptyId) :
    computersTurnOf h size grid = (0, grid) := by
  have hnone : (cellsOf size).find? (grid · = emptyId) = none :=
    List.find?_eq_none.mpr fun i hi => by simpa using hfull i hi
  rw [computersTurnOf_eq, hnone]
  rfl

/-- The move search leaves the grid as it was, of whatever size and
contents; `computers_turn` returns 0 on a full grid and the number of an
empty cell, counted from 1, on any other. -/
theorem search_leaves_no_trace (h : Header) (size : Nat) (grid : Grid) :
    (∀ depth player, (minmaxOf size depth player grid).2 = grid)
      ∧ (computersTurnOf h size grid).2 = grid
      ∧ ((computersTurnOf h size grid).1 = 0
          ↔ ∀ i ∈ cellsOf size, grid i ≠ emptyId)
      ∧ ((computersTurnOf h size grid).1 ≠ 0 →
          ∃ i ∈ cellsOf size, grid i = emptyId
            ∧ (computersTurnOf h size grid).1 = i + 1) := by
  refine ⟨fun depth player => by rw [minmaxOf_eq], ?_⟩
  by_cases hroom : ∃ i ∈ cellsOf size, grid i = emptyId
  · obtain ⟨i, hi, hempty, hturn⟩ := computersTurnOf_spec h hroom
    have hpos := (mem_cellsOf.mp hi).1
    rw [hturn]
    refine ⟨rfl, ⟨fun h0 => ?_, fun hfull => ?_⟩,
      fun _ => ⟨i, hi, hempty, rfl⟩⟩
    · dsimp only at h0
      omega
    · exact absurd hempty (hfull i hi)
  · have hfull : ∀ i ∈ cellsOf size, grid i ≠ emptyId :=
      fun i hi hempty => hroom ⟨i, hi, hempty⟩
    rw [computersTurnOf_full h hfull]
    exact ⟨rfl, ⟨fun _ => hfull, fun _ => rfl⟩, fun h0 => absurd rfl h0⟩

-- ======================================================= the state of the game

/-- Three cells that one side holds. -/
def holds (grid : Grid) (id i j k : Int) : Bool :=
  grid i == id && grid j == id && grid k == id

inductive GameState
  | progress
  | win
  | draw
  deriving DecidableEq, Repr

/-- The loop of `win` that counts the cells left. -/
def cellLeft (h : Header) (grid : Grid) : Int :=
  cells.foldl (fun left i =>
    if grid i == h.aiId || grid i == h.playerId then left - 1 else left)
    gridSize

/-- `win`, its sixteen tests in the order of the source. -/
def win (h : Header) (grid : Grid) : GameState :=
  let p := h.playerId
  let ai := h.aiId
  if holds grid p 0 1 2 || holds grid ai 0 1 2 then .win
  else if holds grid p 3 4 5 || holds grid ai 3 4 5 then .win
  else if holds grid p 6 7 8 || holds grid ai 6 7 8 then .win
  else if holds grid p 0 3 6 || holds grid ai 0 3 6 then .win
  else if holds grid p 1 4 7 || holds grid ai 1 4 7 then .win
  else if holds grid p 2 5 8 || holds grid ai 2 5 8 then .win
  else if holds grid p 0 4 5 || holds grid ai 0 4 5 then .win
  else if holds grid p 2 4 6 || holds grid ai 2 5 6 then .win
  else if cellLeft h grid = 0 then .draw
  else .progress

/-- `check_game_state`: the command it sends. It sets `game.over` exactly
when it sends one. -/
def checkGameState (h : Header) (grid : Grid) (currentId : Int) :
    Option Cmd :=
  match win h grid with
  | .progress => none
  | .win => some (if currentId = h.playerId then .youWin else .youLose)
  | .draw => some .noWinner

-- ================================================================= the machine

/-- Where `game_manager` stands: before `GAME_START`, at the test of its
loop, before `gm_get_cmd`, before `MOVE_REJECTED`, before
`check_game_state`, after `GAME_END`. -/
inductive Pc
  | start
  | loop
  | getCmd
  | rejected
  | check
  | done
  deriving DecidableEq, Repr

/-- The game manager. `written` and `turns` are no variables of the
source: they record the cells assigned to so far and count the turns
completed. -/
structure Gm where
  pc : Pc
  grid : Grid
  gameOver : Bool
  move : Int
  player : Int
  written : List Int
  turns : Nat

/-- `init_game`, over any memory. -/
def initGrid (mem : Grid) : Grid :=
  cells.foldl (fun grid i => Function.update grid i emptyId) mem

/-- `game_manager` as it is called. -/
def Gm.init (h : Header) (mem : Grid) : Gm where
  pc := .start
  grid := initGrid mem
  gameOver := false
  move := 0
  player := h.playerId
  written := []
  turns := 0

/-- `game.grid[move] = id`. -/
def Gm.assign (s : Gm) (move id : Int) : Gm :=
  { s with
    pc := .check, grid := Function.update s.grid move id, move := move
    written := s.written ++ [move] }

/-- The end of a turn: `check_game_state`, and the other player's turn. -/
abbrev Gm.checked (h : Header) (s : Gm) : Gm :=
  { s with
    pc := .loop
    gameOver := s.gameOver || (checkGameState h s.grid s.player).isSome
    player := if s.player = h.playerId then h.aiId else h.playerId
    turns := s.turns + 1 }

/-- The test of `get_player_move`. -/
def Rejects (grid : Grid) (move : Int) : Prop :=
  move < 0 ∨ move > gridSize - 1 ∨ grid move ≠ 0

instance (grid : Grid) (move : Int) : Decidable (Rejects grid move) :=
  inferInstanceAs (Decidable (move < 0 ∨ move > gridSize - 1
    ∨ grid move ≠ 0))

/-- One step between reads: the command sent, if any, and the state after
it. A game manager that waits for a move, or has returned, has none. -/
def go (h : Header) (s : Gm) : Option (Option Cmd × Gm) :=
  match s.pc with
  | .start => some (some .gameStart, { s with pc := .loop })
  | .loop =>
      if s.gameOver then some (some .gameEnd, { s with pc := .done })
      else if s.player = h.playerId then
        some (some .youCanPlay, { s with pc := .getCmd })
      else
        let turn := computersTurn h s.grid
        some (none, { s with grid := turn.2 }.assign (turn.1 - 1) h.aiId)
  | .getCmd => none
  | .rejected => some (some .moveRejected, { s with pc := .getCmd })
  | .check =>
      some (checkGameState h s.grid s.player, s.checked h)
  | .done => none

/-- `gm_get_cmd` returns `cmd` to `get_player_move`. -/
def receive (h : Header) (s : Gm) (cmd : Int) : Option Gm :=
  match s.pc with
  | .getCmd =>
      if Rejects s.grid cmd then some { s with pc := .rejected }
      else some (s.assign cmd h.playerId)
  | _ => none

/-- What the game manager does next: go on, or read a command. -/
inductive Act
  | go
  | receive (cmd : Int)
  deriving DecidableEq, Repr

/-- One step, with the command it sends. -/
def stepSend (h : Header) (s : Gm) : Act → Option (Option Cmd × Gm)
  | .go => go h s
  | .receive cmd => (receive h s cmd).map (none, ·)

/-- One step of the game manager. -/
def step (h : Header) (s : Gm) (a : Act) : Option Gm :=
  (stepSend h s a).map Prod.snd

/-- What a step can do, with the act, the command it sends and the state
after it. -/
inductive Steps (h : Header) (s : Gm) : Act → Option Cmd → Gm → Prop
  | start (hpc : s.pc = .start) :
      Steps h s .go (some .gameStart) { s with pc := .loop }
  | finish (hpc : s.pc = .loop) (hover : s.gameOver = true) :
      Steps h s .go (some .gameEnd) { s with pc := .done }
  | prompt (hpc : s.pc = .loop) (hover : s.gameOver = false)
      (hplayer : s.player = h.playerId) :
      Steps h s .go (some .youCanPlay) { s with pc := .getCmd }
  | computer (hpc : s.pc = .loop) (hover : s.gameOver = false)
      (hplayer : s.player ≠ h.playerId) :
      Steps h s .go none ({ s with grid := (computersTurn h s.grid).2 }.assign
        ((computersTurn h s.grid).1 - 1) h.aiId)
  | reject (hpc : s.pc = .rejected) :
      Steps h s .go (some .moveRejected) { s with pc := .getCmd }
  | check (hpc : s.pc = .check) :
      Steps h s .go (checkGameState h s.grid s.player) (s.checked h)
  | refuse (cmd : Int) (hpc : s.pc = .getCmd) (hcmd : Rejects s.grid cmd) :
      Steps h s (.receive cmd) none { s with pc := .rejected }
  | accept (cmd : Int) (hpc : s.pc = .getCmd) (hcmd : ¬ Rejects s.grid cmd) :
      Steps h s (.receive cmd) none (s.assign cmd h.playerId)

theorem steps_of_stepSend {h : Header} {s s' : Gm} {a : Act}
    {c : Option Cmd} (hstep : stepSend h s a = some (c, s')) :
    Steps h s a c s' := by
  cases a with
  | go =>
      simp only [stepSend, go] at hstep
      split at hstep
      next hpc =>
        cases hstep
        exact Steps.start hpc
      next hpc =>
        split at hstep
        next hover =>
          cases hstep
          exact Steps.finish hpc hover
        next hover =>
          have hover : s.gameOver = false := Bool.not_eq_true _ ▸ hover
          split at hstep
          next hplayer =>
            cases hstep
            exact Steps.prompt hpc hover hplayer
          next hplayer =>
            cases hstep
            exact Steps.computer hpc hover hplayer
      next => cases hstep
      next hpc =>
        cases hstep
        exact Steps.reject hpc
      next hpc =>
        cases hstep
        exact Steps.check hpc
      next => cases hstep
  | receive cmd =>
      obtain ⟨t, ht, heq⟩ := Option.map_eq_some_iff.mp hstep
      cases heq
      unfold receive at ht
      split at ht
      next hpc =>
        split at ht
        next hcmd =>
          cases ht
          exact Steps.refuse cmd hpc hcmd
        next hcmd =>
          cases ht
          exact Steps.accept cmd hpc hcmd
      next => cases ht

theorem steps_of_step {h : Header} {s s' : Gm} {a : Act}
    (hstep : step h s a = some s') : ∃ c, Steps h s a c s' := by
  obtain ⟨⟨c, t⟩, ht, rfl⟩ := Option.map_eq_some_iff.mp hstep
  exact ⟨c, steps_of_stepSend ht⟩

end SyeLabs.Tictactoe
