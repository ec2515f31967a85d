/-
The player process of tictactoe.

# What is modelled

The loop of `main` in tictactoe_player.c between its pipe operations:
the switch over a command read (`playerSwitch`), one `scanf` with
`parse_line` (`scan`), and the sending of the move. What is displayed is
left out. `atoi` is a parameter, as C leaves it open what it returns for
digits that do not fit an `int`.

`get_input_move` reads with `scanf("%s", s)` into the `MAX_BUFFER_LENGTH`
bytes of `s`. `scan` is that for a word that fits; a longer one overruns
the buffer, which is a step of its own in `inputStep`. At the end of the
input `scanf` leaves `s` as it is: one more `scan` of the string it
holds, and then another.
-/
import SyeLabs.Tictactoe.GameManager

namespace SyeLabs.Tictactoe

-- ================================================================== parse_line

/-- The end of a C string. -/
def nul : Char := Char.ofNat 0

/-- The end of the line in `parse_line`: the index of the cell. -/
def parseIndex (atoi : List Char → Int) (buffer : List Char) : Option Int :=
  let index := atoi buffer
  if index ≤ 0 ∨ index > 9 then none else some (index - 1)

/-- The loop of `parse_line`, with the iterations it may still take. The
end of the list stands for the NUL of the string. -/
def parseLoop (atoi : List Char → Int) :
    Nat → List Char → List Char → Option Int
  | 0, _, _ => none
  | _ + 1, [], buffer => parseIndex atoi buffer
  | n + 1, c :: str, buffer =>
      if c ≥ '0' ∧ c ≤ '9' then parseLoop atoi n str (buffer ++ [c])
      else if c = nul then parseIndex atoi buffer
      else none

/-- `parse_line`: the index it stores, if it returns 1. -/
def parseLine (h : Header) (atoi : List Char → Int) (str : List Char) :
    Option Int :=
  if str.headD nul = nul then none
  else parseLoop atoi h.maxBufferLength str []

/-- What `atoi` returns for the digits of an `int`. -/
def decimal (digits : List Char) : Int :=
  digits.foldl (fun n c => 10 * n + ((c.toNat : Int) - 48)) 0

-- ================================================================= the process

/-- Where the player stands: before `player_get_cmd`, before a `scanf` of
`get_input_move`, before `player_send_cmd`, after its loop. -/
inductive PlayerPc
  | getCmd
  | input
  | send
  | exited
  deriving DecidableEq, Repr

structure Player where
  pc : PlayerPc
  pendingMove : Int

/-- The switch of `main`. -/
def playerSwitch (h : Header) (cmd : Int) : PlayerPc :=
  if cmd = h.code .gameStart then .getCmd
  else if cmd = h.code .gameEnd then .exited
  else if cmd = h.code .youCanPlay then .input
  else if cmd = h.code .moveRejected then .input
  else if cmd = h.code .noWinner then .exited
  else if cmd = h.code .youWin then .exited
  else if cmd = h.code .youLose then .exited
  else .getCmd

/-- One `scanf` of `get_input_move`, which asks again after a line that
does not parse. -/
def Player.scan (h : Header) (atoi : List Char → Int) (p : Player)
    (str : List Char) : Player :=
  match parseLine h atoi str with
  | some index => { p with pc := .send, pendingMove := index }
  | none => p

/-- The switch on a command of the game manager. -/
theorem playerSwitch_code (h : Header) (c : Cmd) :
    playerSwitch h (h.code c)
      = match c with
        | .gameStart => .getCmd
        | .youCanPlay | .moveRejected => .input
        | .gameEnd | .youWin | .youLose | .noWinner => .exited := by
  cases c <;> simp [playerSwitch, h.code_inj.eq_iff]

theorem Player.scan_pc (h : Header) (atoi : List Char → Int) {p : Player}
    (str : List Char) (hp : p.pc = .input) :
    (p.scan h atoi str).pc = .input ∨ (p.scan h atoi str).pc = .send := by
  unfold Player.scan
  cases parseLine h atoi str with
  | none => exact Or.inl hp
  | some index => exact Or.inr rfl

end SyeLabs.Tictactoe
