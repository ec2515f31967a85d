/-
A session of the root shell over the process table.

# The session

The shell is the root process. On a line that starts programs it forks;
the child of a pipeline forks once more before its program runs, and the
shell waits for its child unless the command ends in `&`. The steps of
the shell, of its children and of the scheduler interleave in any order.
Signals, and programs that fork or wait themselves, are left out.
-/
import SyeLabs.Process.Pids
import SyeLabs.Process.Ptrace
import SyeLabs.Shell.Bounds

namespace SyeLabs.Shell

open Lib Process

-- ================================================================= the session

/-- What the shell starts on a line: nothing on a blank line and for a
built-in command (`exit` does nothing in the root process), else what the
loop over the tokens leaves. -/
def startsOn (line : Word) : Option (Option Split) :=
  (parseToken line Tokens.reset).bind fun t =>
    (t.load 0).bind fun first =>
      if first = [] ∨ builtins.contains first then some none
      else (split t).map some

/-- Where the shell is: before `gets`, before `waitpid` with the pid it
got from `fork`, or blocked in it. -/
inductive ShellPc
  | prompt
  | forked (pidChild : Pid)
  | waiting (w : Wait)

/-- The branch of `process_cmd` a process is in, with its locals: the
shell, its child, before or after a fork of its own, and the child of
that. -/
inductive Code
  | shell
  | child (s : Split) (forked2 : Bool)
  | child2

/-- The process runs its program. -/
def Code.runs : Code → Bool
  | .shell => false
  | .child s forked2 => !s.pipeOn || forked2
  | .child2 => true

/-- The kernel, the shell, and the code each process runs. -/
structure Session where
  sys : Sys
  pc : ShellPc
  code : Ref → Code

def Session.init (P : Platform) : Session where
  sys := Sys.init P
  pc := .prompt
  code := fun _ => .shell

inductive SessionAct
  | line (line : Word)
  | waitpid
  | wake
  | fork2 (c : Ref)
  | exit (c : Ref) (status : BitVec 32)
  | sched (p : Ref) (st : ProcState)

variable (threadJoin : Option Tid → Option Tid)

/-- `fork`, called by the main thread of process `p`: the system and the
value returned. -/
def forkBy (s : Sys) (p : Ref) : Option (Sys × Int) :=
  (s.k.pcb p).mainThread.bind fun t =>
    (step threadJoin s (.fork p t)).map fun s' => (s', (doFork s.k p t).ret)

/-- One step. A process blocks only while it runs its program. -/
def sessionStep (S : Session) : SessionAct → Option Session
  | .line line =>
      match S.pc with
      | .prompt =>
          (startsOn line).bind fun start =>
            match start with
            | none => some S
            | some s =>
                (forkBy threadJoin S.sys 0).map fun (sys, pidChild) =>
                  { sys
                    pc := if s.background then .prompt
                      else .forked (BitVec.ofInt 32 pidChild)
                    code := Function.update S.code S.sys.k.nextRef
                      (.child s false) }
      | _ => none
  | .waitpid =>
      match S.pc with
      | .forked pidChild =>
          (step threadJoin S.sys (.wait 0 pidChild none false)).map fun sys =>
            { S with
              sys
              pc := match sys.waits with
                | [] => .prompt
                | w :: _ => .waiting w }
      | _ => none
  | .wake =>
      match S.pc with
      | .waiting w =>
          (step threadJoin S.sys (.resume w)).map fun sys =>
            { S with sys, pc := .prompt }
      | _ => none
  | .fork2 c =>
      match S.code c with
      | .child s false =>
          if s.pipeOn then
            (forkBy threadJoin S.sys c).map fun (sys, _) =>
              { S with
                sys
                code := Function.update
                  (Function.update S.code c (.child s true))
                  S.sys.k.nextRef .child2 }
          else none
      | _ => none
  | .exit c status =>
      if (S.code c).runs then
        (step threadJoin S.sys (.exit c status)).map fun sys =>
          { S with sys }
      else none
  | .sched p st =>
      if st = .WAITING → p = 0 ∨ (S.code p).runs then
        (step threadJoin S.sys (.sched p st)).map fun sys => { S with sys }
      else none

variable {threadJoin}

-- ========================================================= calls to the kernel

/-- A `fork` that goes through creates a child of the caller. -/
theorem forkBy_some {s s' : Sys} {p : Ref} {ret : Int}
    (h : forkBy threadJoin s p = some (s', ret)) :
    Forked s.k s'.k p ∧ ret = s.k.pidCurrent.toInt ∧ s'.waits = s.waits
      ∧ s'.trace = s.trace ++ [.newRootPgtable s.k.nextRef,
        .duplicateUserSpace p s.k.nextRef] := by
  obtain ⟨t, ht, hstep⟩ := Option.bind_eq_some_iff.mp h
  obtain ⟨s'', hstep, heq⟩ := Option.map_eq_some_iff.mp hstep
  obtain ⟨rfl, rfl⟩ := Prod.mk.inj heq
  obtain ⟨hforked, -, hcalls⟩ := doFork_main ht
  simp only [step] at hstep
  split at hstep
  next =>
    cases hstep
    refine ⟨hforked, ?_, rfl, ?_⟩
    · rw [doFork_ret, if_pos ht]
    · rw [hcalls]
  next => cases hstep

/-- Pids tell processes apart while there are fewer than 2^32 - 1, and no
pid is -1. -/
theorem numbered_waitTarget {k : Procs} (h : Numbered k)
    (hfew : k.nextRef < 4294967295) {c : Ref} (hc : c ∈ k.procList) :
    waitTarget k (k.pcb c).pid false = some c := by
  have hlt := h.old c hc
  have hnat : ∀ r, r < k.nextRef → (k.pcb r).pid.toNat = r + 1 := by
    intro r hr
    rw [h.pid r hr, BitVec.toNat_ofNat]
    exact Nat.mod_eq_of_lt
      ((Nat.succ_lt_succ hr).trans (Nat.succ_lt_succ hfew))
  have hone : (k.pcb c).pid ≠ -1 := by
    intro heq
    have hmax : (4294967295 : Nat) = c + 1 := by
      rw [← hnat c hlt, heq]
      rfl
    have hle : c + 1 < 4294967295 := Nat.lt_of_le_of_lt hlt hfew
    exact Nat.ne_of_gt hle hmax
  have hfind : findProcByPid k (k.pcb c).pid = some c := by
    apply findProcByPid_eq hc
    intro r hr heq
    have hsame := congrArg BitVec.toNat heq
    rw [hnat r (h.old r hr), hnat c hlt] at hsame
    exact Nat.succ.inj hsame
  rw [waitTarget, if_neg hone, hfind]
  rfl

end SyeLabs.Shell
