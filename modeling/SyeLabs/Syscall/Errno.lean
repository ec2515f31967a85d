/-
`errno` and the one address the kernel keeps for it (`syscalls.c`).

`syscall_handle` records in a global the address at which its caller
keeps `errno`; `set_errno` writes there, whenever in the call it comes
to be executed. Each call passes its own address, and threads of several
processes have calls in progress at the same time: between the two, any
number of other calls may have been entered.

The runs are those of the three steps of a call that matter, entry,
`set_errno` and return, in any interleaving of any number of threads.
Whether the call was preempted or blocked in between makes no
difference to the global.
-/
import Mathlib.Data.List.Induction
import Mathlib.Logic.Function.Basic
import SyeLabs.Lib.Run
import SyeLabs.Process.Basic

namespace SyeLabs.Syscall

open Lib

/-- An address in user space; 0 is the null pointer. -/
abbrev UserAddr := Nat

/-- What `__get_syscall_args_ext` returns: the number of the call and the
address of the `errno` of the caller. -/
structure CallArgs where
  syscallNo : Nat
  errnoAddr : UserAddr

def SYSCALL_GETPID : Nat := 37

def SYSCALL_SBRK : Nat := 45

/-- A write of `val` to `addr`. -/
structure Store (V : Type*) where
  addr : UserAddr
  val : V
  deriving DecidableEq

/-- The static `errno_addr`, the calls in progress by thread, and the
writes made by `set_errno`. -/
structure Handler (V : Type*) where
  errnoAddr : UserAddr
  inCall : Process.Tid → Option CallArgs
  stores : List (Store V)

variable {V : Type*}

/-- Before the first call. -/
def Handler.init : Handler V where
  errnoAddr := 0
  inCall := fun _ => none
  stores := []

/-- `set_errno_addr`. -/
def Handler.setErrnoAddr (h : Handler V) (addr : UserAddr) : Handler V :=
  { h with errnoAddr := addr }

/-- `if (addr != NULL) *addr = val`. -/
def storeAt (addr : UserAddr) (val : V) : Option (Store V) :=
  if addr ≠ 0 then some ⟨addr, val⟩ else none

/-- `set_errno`: the write it makes. -/
def Handler.setErrno (h : Handler V) (val : V) : Option (Store V) :=
  storeAt h.errnoAddr val

/-- What a thread does next in its call. -/
inductive Act (V : Type*)
  | enter (t : Process.Tid) (args : CallArgs)
  | setErrno (t : Process.Tid) (val : V)
  | leave (t : Process.Tid)

/-- One step: `syscall_handle` up to its switch, a `set_errno` on behalf
of a call in progress, or the return of one. -/
def step (h : Handler V) : Act V → Option (Handler V)
  | .enter t args =>
      if h.inCall t = none then
        some { h.setErrnoAddr args.errnoAddr with
          inCall := Function.update h.inCall t (some args) }
      else none
  | .setErrno t val =>
      if h.inCall t = none then none
      else some { h with stores := h.stores ++ (h.setErrno val).toList }
  | .leave t =>
      if h.inCall t = none then none
      else some { h with inCall := Function.update h.inCall t none }

/-- A `set_errno` on behalf of a call writes to the address that this
call passed in. -/
def ReachesCaller (h : Handler V) : Act V → Prop
  | .setErrno t val =>
      ∀ args ∈ h.inCall t, h.setErrno val = storeAt args.errnoAddr val
  | _ => True

/-- The address a call passes in, and its thread. -/
def passed : Act V → Option (Process.Tid × UserAddr)
  | .enter t args => some (t, args.errnoAddr)
  | _ => none

/-- The address passed by the latest call entered. -/
def lastPassed (acts : List (Act V)) : Option UserAddr :=
  (acts.filterMap passed).getLast?.map Prod.snd

/-- The address passed by the latest call of thread `t`. -/
def passedBy (t : Process.Tid) (acts : List (Act V)) : Option UserAddr :=
  ((acts.filterMap passed).filter (·.1 = t)).getLast?.map Prod.snd

/-- At every `set_errno` the latest call entered, of whatever process,
passed the same address as the call the `set_errno` is for. -/
def LatestIsOwn (acts : List (Act V)) : Prop :=
  ∀ pre t val post, acts = pre ++ .setErrno t val :: post →
    lastPassed pre = passedBy t pre

-- ================================================================ what is kept

theorem storeAt_inj {a b : UserAddr} {val : V}
    (h : storeAt a val = storeAt b val) : a = b := by
  unfold storeAt at h
  by_cases ha : a = 0
  · by_cases hb : b = 0
    · rw [ha, hb]
    · simp [ha, hb] at h
  · by_cases hb : b = 0
    · simp [ha, hb] at h
    · simpa [ha, hb] using h

/-- The global and the calls in progress after the actions `acts`. -/
structure Tracks (acts : List (Act V)) (h : Handler V) : Prop where
  errnoAddr : h.errnoAddr = (lastPassed acts).getD 0
  inCall : ∀ t args, h.inCall t = some args →
    passedBy t acts = some args.errnoAddr

theorem lastPassed_snoc (acts : List (Act V)) (a : Act V) :
    lastPassed (acts ++ [a])
      = ((passed a).map Prod.snd).or (lastPassed acts) := by
  cases ha : passed a with
  | none => simp [lastPassed, ha]
  | some p => simp [lastPassed, ha]

theorem passedBy_snoc (t : Process.Tid) (acts : List (Act V)) (a : Act V) :
    passedBy t (acts ++ [a])
      = (((passed a).filter (·.1 = t)).map Prod.snd).or
        (passedBy t acts) := by
  cases ha : passed a with
  | none => simp [passedBy, ha]
  | some p =>
      by_cases hp : p.1 = t
      · simp [passedBy, ha, hp, Option.filter_some]
      · simp [passedBy, ha, hp, Option.filter_some]

theorem Tracks.step {acts : List (Act V)} {h h' : Handler V} {a : Act V}
    (tr : Tracks acts h) (hstep : step h a = some h') :
    Tracks (acts ++ [a]) h' := by
  cases a with
  | enter t args =>
      simp only [Syscall.step] at hstep
      split at hstep
      next =>
        cases hstep
        constructor
        · rw [lastPassed_snoc]
          rfl
        · intro u args' hu
          rw [passedBy_snoc]
          by_cases htu : u = t
          · subst htu
            have hargs : args = args' := by
              simpa [Function.update_self] using hu
            simp [passed, hargs, Option.filter_some]
          · have hold : h.inCall u = some args' := by
              simpa [Handler.setErrnoAddr, htu] using hu
            have hne : ¬ t = u := fun heq => htu heq.symm
            simp [passed, hne, tr.inCall u args' hold, Option.filter_some]
      next => cases hstep
  | setErrno t val =>
      simp only [Syscall.step] at hstep
      split at hstep
      next => cases hstep
      next =>
        cases hstep
        constructor
        · rw [lastPassed_snoc]
          exact tr.errnoAddr
        · intro u args hu
          rw [passedBy_snoc]
          exact tr.inCall u args hu
  | leave t =>
      simp only [Syscall.step] at hstep
      split at hstep
      next => cases hstep
      next =>
        cases hstep
        constructor
        · rw [lastPassed_snoc]
          exact tr.errnoAddr
        · intro u args hu
          rw [passedBy_snoc]
          by_cases htu : u = t
          · subst htu
            simp at hu
          · exact tr.inCall u args (by simpa [htu] using hu)

theorem tracks_run {acts : List (Act V)} {h : Handler V}
    (hrun : run step Handler.init acts = some h) : Tracks acts h := by
  induction acts using List.reverseRecOn generalizing h with
  | nil =>
      cases hrun
      exact ⟨rfl, fun t args ht => by cases ht⟩
  | append_singleton acts a ih =>
      rw [run_append] at hrun
      obtain ⟨h₁, h₁run, hlast⟩ := Option.bind_eq_some_iff.mp hrun
      obtain ⟨h₂, hstep, hnil⟩ := run_cons_iff.mp hlast
      cases hnil
      exact (ih h₁run).step hstep

-- ==================================================================== the runs

/-- In every interleaving, every `set_errno` writes to the address of the
call it is executed for exactly when the latest call entered before it
passed that same address. -/
theorem errno_reaches_caller_iff (acts : List (Act V)) (h : Handler V)
    (hrun : run step Handler.init acts = some h) :
    Along step ReachesCaller Handler.init acts ↔ LatestIsOwn acts := by
  rw [along_iff_forall_split]
  -- a step of a run that completes has a state before it
  have hbefore : ∀ pre a post, acts = pre ++ a :: post →
      ∃ t u, run step Handler.init pre = some t ∧ step t a = some u := by
    intro pre a post heq
    rw [heq, run_append] at hrun
    obtain ⟨t, ht, hrest⟩ := Option.bind_eq_some_iff.mp hrun
    obtain ⟨u, hu, -⟩ := run_cons_iff.mp hrest
    exact ⟨t, u, ht, hu⟩
  constructor
  · intro hall pre t val post heq
    obtain ⟨s, u, hs, hu⟩ := hbefore pre _ post heq
    have tr := tracks_run hs
    cases hcall : s.inCall t with
    | none =>
        simp only [step, if_pos hcall] at hu
        cases hu
    | some args =>
        have hown := hall pre _ post s heq hs args hcall
        have haddr : (lastPassed pre).getD 0 = args.errnoAddr :=
          tr.errnoAddr.symm.trans (storeAt_inj hown)
        have hby := tr.inCall t args hcall
        cases hlast : lastPassed pre with
        | some a =>
            rw [hlast] at haddr
            rw [hby, ← haddr]
            rfl
        | none =>
            -- the call itself has been entered
            have hnone : pre.filterMap passed = [] := by
              simpa [lastPassed] using hlast
            simp [passedBy, hnone] at hby
  · intro hlatest pre a post s heq hs
    cases a with
    | enter t args => trivial
    | leave t => trivial
    | setErrno t val =>
        intro args hcall
        have tr := tracks_run hs
        have hown := hlatest pre t val post heq
        rw [tr.inCall t args hcall] at hown
        rw [Handler.setErrno, tr.errnoAddr, hown]
        rfl

/-- The `set_errno` calls `do_sbrk` makes. -/
def sbrkActs (P : Platform) (t : Process.Tid) (pcb : Option Process.Pcb)
    (increment : BitVec 32) : List (Act Process.Errno) :=
  match Process.doSbrk P pcb increment with
  | .ok _ => []
  | .error e => [.setErrno t e]

/-- A process whose heap is empty. -/
def emptyHeap : Process.Pcb :=
  { Process.freshPcb 1 with heapBase := 0x8000, heapPointer := 0x8000 }

/-- Two threads of one process overlap: both pass the same address. -/
theorem errno_reaches_caller_two_threads :
    ∃ h : Handler Process.Errno,
      run step Handler.init
        ([.enter 0 ⟨SYSCALL_SBRK, 0x5000⟩, .enter 1 ⟨SYSCALL_GETPID, 0x5000⟩]
          ++ sbrkActs .sample 0 (some emptyHeap) 0x10000) = some h
      ∧ h.stores = [⟨0x5000, .ENOMEM⟩]
      ∧ Along step ReachesCaller Handler.init
        ([.enter 0 ⟨SYSCALL_SBRK, 0x5000⟩, .enter 1 ⟨SYSCALL_GETPID, 0x5000⟩]
          ++ sbrkActs .sample 0 (some emptyHeap) 0x10000) := by
  have hrun : ∃ h : Handler Process.Errno,
      run step Handler.init
        ([.enter 0 ⟨SYSCALL_SBRK, 0x5000⟩, .enter 1 ⟨SYSCALL_GETPID, 0x5000⟩]
          ++ sbrkActs .sample 0 (some emptyHeap) 0x10000) = some h
        ∧ h.stores = [⟨0x5000, .ENOMEM⟩] := ⟨_, rfl, rfl⟩
  obtain ⟨h, hrun, hstores⟩ := hrun
  refine ⟨h, hrun, hstores, (errno_reaches_caller_iff _ h hrun).mpr ?_⟩
  intro pre t val post heq
  have hacts : sbrkActs .sample 0 (some emptyHeap) 0x10000
      = [.setErrno 0 .ENOMEM] := rfl
  rw [hacts] at heq
  -- the only `set_errno` comes third
  rcases pre with _ | ⟨a, _ | ⟨b, _ | ⟨c, pre⟩⟩⟩
  · cases heq
  · cases heq
  · cases heq
    rfl
  · simp at heq

/-- A `do_sbrk` that asks for too much is preempted after it has entered,
and a process with another `errno` address enters a call: the error is
written to that address. -/
theorem errno_misdelivered :
    ∃ h : Handler Process.Errno,
      run step Handler.init
        ([.enter 0 ⟨SYSCALL_SBRK, 0x5000⟩, .enter 1 ⟨SYSCALL_GETPID, 0x6000⟩]
          ++ sbrkActs .sample 0 (some emptyHeap) 0x10000) = some h
      ∧ h.stores = [⟨0x6000, .ENOMEM⟩]
      ∧ ¬ Along step ReachesCaller Handler.init
        ([.enter 0 ⟨SYSCALL_SBRK, 0x5000⟩, .enter 1 ⟨SYSCALL_GETPID, 0x6000⟩]
          ++ sbrkActs .sample 0 (some emptyHeap) 0x10000) := by
  refine ⟨_, rfl, rfl, fun hall => ?_⟩
  have hstep := (hall.2.2.1 ⟨SYSCALL_SBRK, 0x5000⟩ rfl : storeAt 0x6000
    Process.Errno.ENOMEM = storeAt 0x5000 Process.Errno.ENOMEM)
  exact absurd (storeAt_inj hstep) (by decide)

end SyeLabs.Syscall
