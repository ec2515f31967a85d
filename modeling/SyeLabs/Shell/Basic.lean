/-
The shell `sh.c`: from a line of input to the programs it runs.

# Memory

The arrays of the source are lists of their own length: `tokens`, ten
strings of 80 bytes each; `argv` and `argv2`, sixteen pointers, unset
until they are written; `filename`, 30 bytes. Every access checks its
bounds, and a function whose access is out of bounds, or goes through a
null pointer or an unset one, has no result.

# What is modelled

`parse_token`, `process_cmd` and the part of the loop of `main` that
calls them. `strtok` gives the runs of characters other than a blank.
What a built-in command does is left as a name with its arguments. A
`fork` may fail; where it succeeds both branches run, each in its own
process, and `execv` is told apart by the arguments it is called with.
-/
import Mathlib.Data.List.Basic

namespace SyeLabs.Shell

/-- A string, without its NUL. -/
abbrev Word := List Char

-- ====================================================================== tokens

/-- `TOKEN_NR`. -/
def tokenNr : Nat := 10

/-- The bytes of one token. -/
def tokenSize : Nat := 80

/-- `ARGS_MAX`. -/
def argsMax : Nat := 16

/-- `tokens`. -/
structure Tokens where
  cells : List Word
  count : cells.length = tokenNr
  fit : ∀ w ∈ cells, w.length < tokenSize

/-- `main` before it reads a line: `tokens[i][0] = 0`. -/
def Tokens.reset : Tokens where
  cells := List.replicate tokenNr []
  count := List.length_replicate
  fit := by decide

/-- The string in `tokens[i]`. -/
def Tokens.load (t : Tokens) (i : Nat) : Option Word := t.cells[i]?

/-- `strcpy(tokens[i], w)`. -/
def Tokens.store (t : Tokens) (i : Nat) (w : Word) : Option Tokens :=
  if h : i < tokenNr ∧ w.length < tokenSize then
    some {
      cells := t.cells.set i w
      count := by rw [List.length_set, t.count]
      fit := by
        intro v hv
        rcases List.mem_or_eq_of_mem_set hv with hv | rfl
        · exact t.fit v hv
        · exact h.2 }
  else none

/-- What the calls of `strtok` return one after the other. -/
def strtok (str : Word) : List Word :=
  (str.splitOn ' ').filter (· ≠ [])

/-- The copies of `parse_token`, from `tokens[i]` on. -/
def storeTokens : Nat → List Word → Tokens → Option Tokens
  | _, [], t => some t
  | i, w :: ws, t => (t.store i w).bind (storeTokens (i + 1) ws)

/-- `parse_token`. -/
def parseToken (str : Word) (t : Tokens) : Option Tokens :=
  storeTokens 0 (strtok str) t

-- =================================================================== arguments

/-- An entry of `argv`: a pointer to a token, null, or never written. -/
inductive Arg
  | unset
  | null
  | token (i : Nat)
  deriving DecidableEq, Repr

/-- The locals of `process_cmd` that its loop fills. -/
structure Split where
  argPos : Nat
  argPos2 : Nat
  background : Bool
  pipeOn : Bool
  argv : List Arg
  argv2 : List Arg

def Split.start : Split where
  argPos := 0
  argPos2 := 0
  background := false
  pipeOn := false
  argv := List.replicate argsMax .unset
  argv2 := List.replicate argsMax .unset

/-- `argv[k] = a`. -/
def setArg (argv : List Arg) (k : Nat) (a : Arg) : Option (List Arg) :=
  if k < argsMax then some (argv.set k a) else none

def amp : Word := ['&']
def bar : Word := ['|']

/-- The body of the loop, on the token that its test has read. -/
def splitStep (s : Split) (w : Word) : Option Split :=
  if w = amp then some { s with background := true }
  else if w = bar then
    (setArg s.argv s.argPos .null).map fun argv =>
      { s with pipeOn := true, argv, argPos := s.argPos + 1 }
  else if s.pipeOn then
    (setArg s.argv2 s.argPos2 (.token s.argPos)).map fun argv2 =>
      { s with argv2, argPos2 := s.argPos2 + 1, argPos := s.argPos + 1 }
  else
    (setArg s.argv s.argPos (.token s.argPos)).map fun argv =>
      { s with argv, argPos := s.argPos + 1 }

/-- The loop over the tokens, with a bound on its turns. -/
def splitLoop (t : Tokens) : Nat → Split → Option Split
  | 0, _ => none
  | n + 1, s =>
      if s.background then some s
      else
        (t.load s.argPos).bind fun w =>
          if w = [] then some s else (splitStep s w).bind (splitLoop t n)

/-- The list of arguments is terminated. -/
def terminate (s : Split) : Option Split :=
  if s.pipeOn then
    (setArg s.argv2 s.argPos2 .null).map fun argv2 => { s with argv2 }
  else
    (setArg s.argv s.argPos .null).map fun argv => { s with argv }

/-- The preparation of the arguments. There are ten tokens, so that the
loop ends, or reads past them, within eleven turns. -/
def split (t : Tokens) : Option Split :=
  (splitLoop t (tokenNr + 1) Split.start).bind terminate

-- ==================================================================== programs

/-- The arrays passed to `execv`, given which of the two forks succeed.
Without the second process the child runs the second program only. -/
def launched (forked forked2 : Bool) (s : Split) : List (List Arg) :=
  if !forked then []
  else if s.pipeOn then
    if forked2 then [s.argv, s.argv2] else [s.argv2]
  else [s.argv.set 0 (.token 0)]

def elf : Word := ['.', 'e', 'l', 'f']

/-- The size of `filename`. -/
def filenameSize : Nat := 30

/-- `strcpy(filename, name)` and `strcat(filename, ".elf")`. -/
def buildFilename (t : Tokens) : Arg → Option Word
  | .token i =>
      (t.load i).bind fun w =>
        if (w ++ elf).length < filenameSize then some (w ++ elf) else none
  | .null => none
  | .unset => none

/-- A call of `execv`. -/
structure Launch where
  filename : Word
  argv : List Arg

/-- The file name is built from the first argument. -/
def launch (t : Tokens) (argv : List Arg) : Option Launch :=
  argv[0]?.bind fun name =>
    (buildFilename t name).map fun filename => { filename, argv }

/-- The signal of `kill`; without a known option it stays 0. -/
inductive Signal
  | zero
  | term
  | usr1
  | kill
  deriving DecidableEq, Repr

/-- What `process_cmd` does. The process of `kill` is the token its number
is read from, if it is read at all. -/
inductive Effect
  | nothing
  | sysInfo (n : Nat)
  | exit
  | setenv (name value : Word)
  | unsetenv (name : Word)
  | printEnv
  | kill (pid : Option Word) (sig : Signal)
  | launch (calls : List Launch)

def dumpsched : Word := ['d', 'u', 'm', 'p', 's', 'c', 'h', 'e', 'd']
def dumpproc : Word := ['d', 'u', 'm', 'p', 'p', 'r', 'o', 'c']
def exit : Word := ['e', 'x', 'i', 't']
def setenv : Word := ['s', 'e', 't', 'e', 'n', 'v']
def env : Word := ['e', 'n', 'v']
def kill : Word := ['k', 'i', 'l', 'l']
def optUsr1 : Word := ['-', 'U', 'S', 'R', '1']
def opt9 : Word := ['-', '9']

/-- The commands that `process_cmd` carries out itself. -/
def builtins : List Word := [dumpsched, dumpproc, exit, setenv, env, kill]

/-- The built-in `setenv`. -/
def setenvCmd (t : Tokens) : Option Effect :=
  (t.load 1).bind fun name =>
    if name = [] then some .nothing
    else
      (t.load 2).map fun value =>
        if value = [] then .unsetenv name else .setenv name value

/-- The built-in `kill`. -/
def killCmd (t : Tokens) : Option Effect :=
  (t.load 2).bind fun second =>
    (t.load 1).map fun first =>
      if second = [] then .kill (some first) .term
      else if first = optUsr1 then .kill (some second) .usr1
      else if first = opt9 then .kill (some second) .kill
      else .kill none .zero

/-- `process_cmd`. -/
def processCmd (forked forked2 : Bool) (t : Tokens) : Option Effect :=
  (t.load 0).bind fun name =>
    if name = dumpsched then some (.sysInfo 1)
    else if name = dumpproc then some (.sysInfo 4)
    else if name = exit then some .exit
    else if name = setenv then setenvCmd t
    else if name = env then some .printEnv
    else if name = kill then killCmd t
    else
      (split t).bind fun s =>
        ((launched forked forked2 s).mapM (launch t)).map .launch

/-- One turn of the loop of `main`, on the line read. -/
def turn (forked forked2 : Bool) (line : Word) : Option Effect :=
  (if line = [] then some Tokens.reset
    else parseToken line Tokens.reset).bind fun t =>
      (t.load 0).bind fun first =>
        if first = [] then some .nothing else processCmd forked forked2 t

-- ================================================================ what is read

/-- The word a pointer leads to. -/
def Arg.word (t : Tokens) : Arg → Option Word
  | .token i => t.load i
  | .null => none
  | .unset => none

/-- The arguments `execv` finds in an array: the words up to the null
pointer, if there is one and the entries before it are pointers. -/
def argWords (t : Tokens) : List Arg → Option (List Word)
  | [] => none
  | .null :: _ => some []
  | a :: as =>
      (a.word t).bind fun w => (argWords t as).map fun ws => w :: ws

end SyeLabs.Shell
