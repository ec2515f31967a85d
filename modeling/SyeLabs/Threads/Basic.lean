/-
The letter count of threads.c.

# What is modelled

`main` from the split of the text on, and `count_letters`, one iteration
of its loop a step. The threads and `main` take their steps in any
order; a `pthread_join` of a thread that still runs is a step that
cannot be taken. `size_t` has 32 bits. The text is a list of bytes, read
with a NUL behind it.

# The C library

`isalpha` and `tolower` are those of the C locale: ASCII letters only.
-/
import Mathlib.Data.List.Basic
import Mathlib.Logic.Function.Basic

namespace SyeLabs.Threads

def lettersNb : Nat := 26

def aLowerOffset : Int := 97

def isalpha (c : BitVec 8) : Bool :=
  65 ≤ c.toNat && c.toNat ≤ 90 || 97 ≤ c.toNat && c.toNat ≤ 122

def tolower (c : BitVec 8) : Int :=
  if 65 ≤ c.toNat ∧ c.toNat ≤ 90 then c.toNat + 32 else c.toNat

/-- `count_param_t`; the pointer is the position in the text. -/
structure CountParam where
  textPointer : BitVec 32
  size : BitVec 32
  counters : Int → BitVec 32

-- =================================================================== the split

def strlen (text : List (BitVec 8)) : BitVec 32 :=
  BitVec.ofNat 32 (text.takeWhile (· != 0)).length

/-- The parameters of thread `i`, as the loop of `main` stores them. -/
def splitParam (text : List (BitVec 8)) (threadNum i : Nat) : CountParam :=
  let textSize := strlen text
  let chunkSize := textSize / BitVec.ofNat 32 threadNum
  let leftovers := textSize % BitVec.ofNat 32 threadNum
  { textPointer := BitVec.ofNat 32 i * chunkSize
    size := if i = threadNum - 1 then chunkSize + leftovers else chunkSize
    counters := fun _ => 0 }

-- ================================================================= the threads

/-- A thread: not created, before the test of its loop with the counter
`i`, or returned. -/
inductive Thread
  | unborn
  | running (i : BitVec 32)
  | returned
  deriving DecidableEq

/-- `main`: before the creation of thread `i`, before the join of thread
`i`, after the results are gathered. -/
inductive MainPc
  | create (i : Nat)
  | join (i : Nat)
  | finished
  deriving DecidableEq

structure Machine where
  main : MainPc
  threads : Nat → Thread
  params : Nat → CountParam
  resultCounters : Int → BitVec 32

def Machine.init (text : List (BitVec 8)) (threadNum : Nat) : Machine where
  main := .create 0
  threads := fun _ => .unborn
  params := splitParam text threadNum
  resultCounters := fun _ => 0

/-- The body of the loop of `count_letters`. -/
def countBody (text : List (BitVec 8)) (arg : CountParam) (i : BitVec 32) :
    CountParam :=
  let c := text.getD (arg.textPointer + i).toNat 0
  if isalpha c then
    let letter := tolower c - aLowerOffset
    { arg with
      counters :=
        Function.update arg.counters letter (arg.counters letter + 1) }
  else arg

/-- The loops of `main` that gather the counters. -/
def gather (threadNum : Nat) (params : Nat → CountParam)
    (result : Int → BitVec 32) : Int → BitVec 32 :=
  (List.range threadNum).foldl (fun result i =>
    (List.range lettersNb).foldl (fun (result : Int → BitVec 32) (j : Nat) =>
      Function.update result j (result j + (params i).counters j)) result)
    result

inductive Act
  | main
  | thread (k : Nat)
  deriving DecidableEq

/-- One step of `main` or of a thread. -/
def step (text : List (BitVec 8)) (threadNum : Nat) (s : Machine) :
    Act → Option Machine
  | .main =>
      match s.main with
      | .create i =>
          if i < threadNum then
            some { s with
              main := .create (i + 1)
              threads := Function.update s.threads i (.running 0) }
          else some { s with main := .join 0 }
      | .join i =>
          if i < threadNum then
            if s.threads i = .returned then
              some { s with main := .join (i + 1) }
            else none
          else
            some { s with
              main := .finished
              resultCounters := gather threadNum s.params s.resultCounters }
      | .finished => none
  | .thread k =>
      match s.threads k with
      | .running i =>
          if i < (s.params k).size then
            some { s with
              threads := Function.update s.threads k (.running (i + 1))
              params :=
                Function.update s.params k (countBody text (s.params k) i) }
          else
            some { s with
              threads := Function.update s.threads k .returned }
      | _ => none

/-- What a step can do. -/
inductive Steps (text : List (BitVec 8)) (threadNum : Nat) (s : Machine) :
    Act → Machine → Prop
  | create (i : Nat) (hmain : s.main = .create i) (hi : i < threadNum) :
      Steps text threadNum s .main
        { s with
          main := .create (i + 1)
          threads := Function.update s.threads i (.running 0) }
  | created (i : Nat) (hmain : s.main = .create i) (hi : threadNum ≤ i) :
      Steps text threadNum s .main { s with main := .join 0 }
  | join (i : Nat) (hmain : s.main = .join i) (hi : i < threadNum)
      (hthread : s.threads i = .returned) :
      Steps text threadNum s .main { s with main := .join (i + 1) }
  | joined (i : Nat) (hmain : s.main = .join i) (hi : threadNum ≤ i) :
      Steps text threadNum s .main
        { s with
          main := .finished
          resultCounters := gather threadNum s.params s.resultCounters }
  | count (k : Nat) (i : BitVec 32) (hthread : s.threads k = .running i)
      (hi : i < (s.params k).size) :
      Steps text threadNum s (.thread k)
        { s with
          threads := Function.update s.threads k (.running (i + 1))
          params :=
            Function.update s.params k (countBody text (s.params k) i) }
  | leave (k : Nat) (i : BitVec 32) (hthread : s.threads k = .running i)
      (hi : ¬ i < (s.params k).size) :
      Steps text threadNum s (.thread k)
        { s with threads := Function.update s.threads k .returned }

theorem steps_of_step {text : List (BitVec 8)} {threadNum : Nat}
    {s s' : Machine} {a : Act} (hstep : step text threadNum s a = some s') :
    Steps text threadNum s a s' := by
  cases a with
  | main =>
      simp only [step] at hstep
      split at hstep
      next i hmain =>
        split at hstep
        next hi =>
          cases hstep
          exact Steps.create i hmain hi
        next hi =>
          cases hstep
          exact Steps.created i hmain (Nat.not_lt.mp hi)
      next i hmain =>
        split at hstep
        next hi =>
          split at hstep
          next hthread =>
            cases hstep
            exact Steps.join i hmain hi hthread
          next => cases hstep
        next hi =>
          cases hstep
          exact Steps.joined i hmain (Nat.not_lt.mp hi)
      next => cases hstep
  | thread k =>
      simp only [step] at hstep
      split at hstep
      next i hthread =>
        split at hstep
        next hi =>
          cases hstep
          exact Steps.count k i hthread hi
        next hi =>
          cases hstep
          exact Steps.leave k i hthread hi
      next => cases hstep

end SyeLabs.Threads
