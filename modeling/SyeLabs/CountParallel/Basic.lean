/-
The processes of `count_parallel.c`.

# One program, many processes

After a `fork` parent and child run the same code on their own copies of
the variables. A system is the list of all processes created, in that
order, so that the position of a process serves as its pid; the original
one is at 0, and no child has the pid 0 that `fork` returns in it. One
step lets one process go on by one action, and any order of steps is a
run.

# What is left open

Every `fork` succeeds. Whether `execl` does is given for each process,
which its path names: the counters `i` at which its ancestors and its
parent forked. A process that has become `count.elf` ends at some time.

# Undefined behaviour

`i < n` compares a `size_t` with an `int`, so a negative `n` is a number
near 2^64. `id` has room for one digit and `pids` for fifteen processes;
a process that writes past either has no defined behaviour from there.
-/
import Mathlib.Algebra.Ring.Int.Defs
import Mathlib.Algebra.Ring.Nat
import SyeLabs.Lib.Run

namespace SyeLabs.CountParallel

open Lib

-- ================================================================= one process

/-- `MAX_CHILDS`. -/
def maxChilds : Nat := 15

/-- `ID_LENGTH`. -/
def idLength : Nat := 1

/-- `PARALLEL_MODE` and `SEQUENTIAL_MODE`. -/
inductive Mode
  | parallel
  | sequential
  deriving DecidableEq, Repr

/-- Where a process stands: before the test of the first loop, before
`execl`, before the `waitpid` of the first loop, before the test of the
second loop; as `count.elf`, ended, or without defined behaviour. -/
inductive Pc
  | create
  | exec
  | wait (child : Nat)
  | collect
  | count
  | exited
  | undefined
  deriving DecidableEq, Repr

/-- A process. `waited` counts the calls of `waitpid` that have returned
it. -/
structure Proc where
  path : List Nat
  parent : Option Nat
  pc : Pc
  i : Nat
  pids : List Nat
  waited : Nat

/-- The program as it is started. -/
def Proc.original : Proc where
  path := []
  parent := none
  pc := .create
  i := 0
  pids := List.replicate maxChilds 0
  waited := 0

abbrev Sys := List Proc

def init : Sys := [Proc.original]

-- ====================================================================== a step

/-- `n` as the unsigned number it is compared as. -/
def toSize (n : Int) : Nat := (n % 2 ^ 64).toNat

/-- `sprintf` of a number of this size leaves room for the NUL. -/
def idFits (i : Nat) : Bool := decide (i < 10 ^ idLength)

/-- `waitpid(child)`, called by the process at `k`: it blocks while a
child of its own has not ended, and returns at once if there is none. -/
def waitpid (s : Sys) (k child : Nat) : Option Sys :=
  match s[child]? with
  | some q =>
      if q.parent = some k ∧ q.waited = 0 then
        if q.pc = .exited then
          some (s.set child { q with waited := q.waited + 1 })
        else none
      else some s
  | none => some s

/-- The process at `k` goes on to the next turn of a loop. -/
def next (s : Sys) (k : Nat) (pc : Pc) : Option Sys :=
  s[k]?.map fun p => s.set k { p with pc, i := p.i + 1 }

/-- The process that `fork` creates. -/
def Proc.child (p : Proc) (k : Nat) : Proc where
  path := p.path ++ [p.i]
  parent := some k
  pc := .exec
  i := p.i
  pids := p.pids.set p.i 0
  waited := 0

/-- The process that has called it, in which it returns `pid`. -/
def Proc.forked (mode : Mode) (p : Proc) (pid : Nat) : Proc :=
  let pids := p.pids.set p.i pid
  match mode with
  | .sequential => { p with pids, pc := .wait pid }
  | .parallel => { p with pids, i := p.i + 1 }

/-- A process that has left the first loop. -/
def Proc.created (mode : Mode) (p : Proc) : Proc :=
  match mode with
  | .sequential => { p with pc := .exited }
  | .parallel => { p with pc := .collect, i := 0 }

/-- One action of the process at `k`, whose state is `p`; `ok` tells of
which processes `execl` succeeds. -/
def act (n : Int) (mode : Mode) (ok : List Nat → Bool) (s : Sys) (k : Nat)
    (p : Proc) : Option Sys :=
  match p.pc with
  | .create =>
      if p.i < toSize n then
        if idFits p.i ∧ p.i < p.pids.length then
          some (s.set k (p.forked mode s.length) ++ [p.child k])
        else some (s.set k { p with pc := .undefined })
      else some (s.set k (p.created mode))
  | .exec =>
      if ok p.path then some (s.set k { p with pc := .count })
      else some (s.set k { p with pc := .create, i := p.i + 1 })
  | .wait child =>
      (waitpid s k child).bind fun s' => next s' k .create
  | .collect =>
      if p.i < toSize n then
        match p.pids[p.i]? with
        | some pid =>
            if pid = 0 then next s k .collect
            else (waitpid s k pid).bind fun s' => next s' k .collect
        | none => some (s.set k { p with pc := .undefined })
      else some (s.set k { p with pc := .exited })
  | .count => some (s.set k { p with pc := .exited })
  | .exited => none
  | .undefined => none

/-- One step of the system: the process at `k` acts. -/
def step (n : Int) (mode : Mode) (ok : List Nat → Bool) (s : Sys) (k : Nat) :
    Option Sys :=
  s[k]?.bind (act n mode ok s k)

/-- The states that the program can reach. -/
def Reached (n : Int) (mode : Mode) (ok : List Nat → Bool) (s : Sys) :
    Prop :=
  ∃ ks, run (step n mode ok) init ks = some s

end SyeLabs.CountParallel
