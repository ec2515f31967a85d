/-
The process table of the SO3 kernel (`process.c`): process control
blocks, the global list of them, and fork, exit and wait over it.

# Names and calls

A PCB is named by a `Ref`, the order of its creation; the store `pcb`
keeps the contents of a block after `remove_proc` has freed it, so that
a stale pointer reads what the block last held. No block is handed out
twice, while `malloc` may give a freed one to a new process: results on
waits ask that no other wait is left with a pointer to a freed PCB.
The functions change the process table and report, in order, the calls
they make into the memory manager and the scheduler (`Call`); what those
calls do to page tables and frames is the memory side of the model.

The fields of a PCB are apart from each other here. In the source
`strcpy` and `sprintf` write a name longer than its eighty bytes over
the fields behind it. `Process.Overrun` models that; a result that is not
stated over its moves is about the runs whose names fit.

# do_waitpid

`thread_join` can block in the middle of `do_waitpid`, so the function
is in two parts: `waitpidEnter` up to `thread_join` and `waitpidFinish`
from there on, with the caller's saved locals in between (`Wait`).
`thread_join` itself is not part of the repository; what it leaves in
the `main_thread` field of the joined process is a parameter.
-/
import Mathlib.Data.List.TakeWhile
import Mathlib.Logic.Function.Basic
import SyeLabs.Platform
import SyeLabs.Process.Args

namespace SyeLabs.Process

open Lib

-- =================================================================== the state

/-- A process control block, by order of creation. -/
abbrev Ref := Nat

/-- `pid` as the 32 bits both `int` and `uint32_t` hold. -/
abbrev Pid := BitVec 32

/-- A thread control block, by order of creation. -/
abbrev Tid := Nat

/-- `proc_state_t`. -/
inductive ProcState
  | NEW
  | READY
  | RUNNING
  | WAITING
  | ZOMBIE
  deriving DecidableEq, Repr

/-- `enum __ptrace_request`: the two values the process code names, and
the others. -/
inductive PtraceReq
  | noRequest
  | traceme
  | other (n : Nat)
  deriving DecidableEq, Repr

/-- `struct pcb`, the fields the modelled functions use. -/
structure Pcb where
  pid : Pid
  name : CString
  binImageEntry : Nat
  stackTop : Nat
  heapBase : Nat
  heapPointer : Nat
  pageCount : Nat
  exitStatus : BitVec 32
  parent : Option Ref
  mainThread : Option Tid
  state : ProcState
  ptracePendingReq : PtraceReq

/-- The globals of `process.c`, the counters of the allocators behind
`malloc(sizeof(pcb_t))` and `user_thread`, and the interrupt flag. -/
structure Procs where
  procList : List Ref
  pcb : Ref → Pcb
  pidCurrent : Pid
  rootProcess : Option Ref
  nextRef : Ref
  nextTid : Tid
  irqEnabled : Bool

/-- The calls the process code makes into the memory manager and the
scheduler. -/
inductive Call
  | newRootPgtable (p : Ref)
  | mapRootImage (p : Ref)
  | allocatePage (p : Ref) (virtAddr nrPages : Nat)
  | duplicateUserSpace (src dst : Ref)
  | resetRootPgtable (p : Ref) (remove : Bool)
  | releaseProcPages (p : Ref)
  | postSetupImage (argsEnv : Nat)
  | loadProcess
  | ready (t : Option Tid)
  | threadExit (p : Ref)
  deriving DecidableEq, Repr

/-- Rewrite one PCB. -/
def Procs.setPcb (k : Procs) (p : Ref) (f : Pcb → Pcb) : Procs :=
  { k with pcb := Function.update k.pcb p (f (k.pcb p)) }

@[simp] theorem setPcb_procList (k : Procs) (p : Ref) (f : Pcb → Pcb) :
    (k.setPcb p f).procList = k.procList := rfl

@[simp] theorem setPcb_nextRef (k : Procs) (p : Ref) (f : Pcb → Pcb) :
    (k.setPcb p f).nextRef = k.nextRef := rfl

theorem setPcb_pcb (k : Procs) (p q : Ref) (f : Pcb → Pcb) :
    (k.setPcb p f).pcb q = if q = p then f (k.pcb q) else k.pcb q := by
  by_cases h : q = p
  · subst h
    simp [Procs.setPcb]
  · simp [Procs.setPcb, h]

/-- `local_irq_save`, `local_irq_disable` and `local_irq_restore`. -/
def Procs.setIrq (k : Procs) (on : Bool) : Procs :=
  { k with irqEnabled := on }

-- ==================================================================== searches

/-- `find_proc_by_pid`. -/
def findProcByPid (k : Procs) (pid : Pid) : Option Ref :=
  k.procList.find? fun r => (k.pcb r).pid = pid

/-- `find_proc_zombie_to_clean`. -/
def findProcZombieToClean (k : Procs) : Option Ref :=
  k.procList.find? fun r =>
    (k.pcb r).state = .ZOMBIE && (k.pcb r).mainThread.isSome

/-- `find_proc_by_parent`. -/
def findProcByParent (k : Procs) (parent : Ref) : Option Ref :=
  k.procList.find? fun r => (k.pcb r).parent = some parent

/-- `remove_proc`. -/
def removeProc (k : Procs) (p : Ref) : Procs :=
  { k with procList := k.procList.erase p }

-- ==================================================================== creation

/-- A block as `new_process` leaves it: cleared, with a pid. -/
def freshPcb (pid : Pid) : Pcb where
  pid := pid
  name := ⟨[], by simp⟩
  binImageEntry := 0
  stackTop := 0
  heapBase := 0
  heapPointer := 0
  pageCount := 0
  exitStatus := 0
  parent := none
  mainThread := none
  state := .NEW
  ptracePendingReq := .noRequest

/-- `new_process`. -/
def newProcess (k : Procs) : Procs × Ref :=
  ({ k with
      procList := k.procList ++ [k.nextRef]
      pcb := Function.update k.pcb k.nextRef (freshPcb k.pidCurrent)
      pidCurrent := k.pidCurrent + 1
      nextRef := k.nextRef + 1 }, k.nextRef)

/-- `reset_process_stack`. -/
def resetProcessStack (P : Platform) (pcb : Pcb) : Pcb :=
  { pcb with
    pageCount := alignUp P.procStackSize / 4096
    stackTop := P.argsBase }

/-- The lowest address of the stack area. -/
def stackBase (pcb : Pcb) : Nat :=
  (pcb.stackTop + addrSpace - pcb.pageCount * 4096 % addrSpace) % addrSpace

/-- The process table before the first process. -/
def Procs.boot : Procs where
  procList := []
  pcb := fun _ => freshPcb 0
  pidCurrent := 1
  rootProcess := none
  nextRef := 0
  nextTid := 0
  irqEnabled := true

/-- `create_root_process`. -/
def createRootProcess (P : Platform) (k : Procs) : Procs × List Call :=
  let (k, p) := newProcess (k.setIrq false)
  let k := k.setPcb p (resetProcessStack P)
  let calls :=
    [.newRootPgtable p,
      .allocatePage p (stackBase (k.pcb p)) (k.pcb p).pageCount,
      .mapRootImage p, .threadExit p]
  let k := k.setPcb p fun pcb =>
    { pcb with mainThread := some k.nextTid, state := .READY }
  ({ k with
      nextTid := k.nextTid + 1
      rootProcess := k.rootProcess.or (some p) }, calls)

/-- The string a buffer holds: the bytes before the first NUL. -/
def CString.ofBytes (bs : List UInt8) : CString where
  bytes := bs.takeWhile (· != 0)
  noNul := fun b hb => by simpa using List.mem_takeWhile_imp hb

/-- The digits `%d` prints for a pid. -/
def decimal (pid : Pid) : List UInt8 :=
  (toString pid.toInt).toList.map fun c => UInt8.ofNat c.toNat

/-- The name `do_fork` prints: `"%s_child_%d"`. -/
def childName (name : CString) (pid : Pid) : CString :=
  CString.ofBytes
    (name.bytes ++ [0x5f, 0x63, 0x68, 0x69, 0x6c, 0x64, 0x5f]
      ++ decimal pid)

/-- `duplicate_process`. -/
def duplicateProcess (k : Procs) (parent : Ref) : Procs × Ref :=
  let src := k.pcb parent
  let (k, newp) := newProcess k
  (k.setPcb newp fun pcb =>
    { pcb with
      pageCount := src.pageCount
      parent := some parent
      stackTop := src.stackTop
      heapBase := src.heapBase
      heapPointer := src.heapPointer }, newp)

/-- What a system call leaves: the process table, the calls it made, its
return value and the error it set. -/
structure Outcome where
  k : Procs
  calls : List Call
  ret : Int
  errno : Option Errno

/-- `do_fork`, called by thread `thread` of process `parent`. -/
def doFork (k : Procs) (parent : Ref) (thread : Tid) : Outcome :=
  let flags := k.irqEnabled
  let k := k.setIrq false
  if (k.pcb parent).mainThread ≠ some thread then
    -- returns with the interrupts still off
    { k := k, calls := [], ret := -1, errno := none }
  else
    let (k, newp) := duplicateProcess k parent
    let k := k.setPcb newp fun pcb =>
      { pcb with
        name := childName (k.pcb parent).name pcb.pid
        mainThread := some k.nextTid
        state := .READY }
    { k := { k with nextTid := k.nextTid + 1, irqEnabled := flags }
      calls := [.newRootPgtable newp, .duplicateUserSpace parent newp]
      ret := (k.pcb newp).pid.toInt
      errno := none }

/-- `do_fork2`, a copy of `do_fork`. -/
def doFork2 (k : Procs) (parent : Ref) (thread : Tid) : Outcome :=
  doFork k parent thread

/-- `do_exit`; the root process is not allowed to finish. -/
def doExit (k : Procs) (p : Ref) (exitStatus : BitVec 32) :
    Option (Procs × List Call) :=
  if (k.pcb p).parent = none then none
  else
    some ((k.setIrq false).setPcb p fun pcb =>
        { pcb with state := .ZOMBIE, exitStatus := exitStatus },
      [.releaseProcPages p, .threadExit p])

-- ================================================================== do_waitpid

/-- `(char) exit_status << 8`; plain `char` is unsigned on this
architecture. -/
def statusBits (exitStatus : BitVec 32) : BitVec 32 :=
  (exitStatus &&& 0xFF) <<< 8

/-- What a `do_waitpid` call keeps across `thread_join`: the child it
found, the pid to return, the saved flags and the caller's status word
(`none` for a null pointer). -/
structure Wait where
  child : Ref
  pid : Pid
  flags : Bool
  wstatus : Option (BitVec 32)
  deriving DecidableEq

/-- What a returning `do_waitpid` leaves. -/
structure WaitReturn where
  k : Procs
  calls : List Call
  ret : Int
  wstatus : Option (BitVec 32)
  errno : Option Errno

/-- How the first part of `do_waitpid` ends: with an early return, or at
the test before `thread_join`. -/
inductive WaitEntry
  | returned (r : WaitReturn)
  | found (k : Procs) (w : Wait) (calls : List Call)

/-- A stopped child that must be resumed: a ptrace request other than
`PTRACE_TRACEME` is pending. -/
def mustResume (pcb : Pcb) : Bool :=
  pcb.ptracePendingReq != .noRequest && pcb.ptracePendingReq != .traceme

/-- `do_waitpid` from the search on, once a child is found. -/
def waitpidFound (k : Procs) (c : Ref) (pid : Pid) (flags : Bool)
    (wstatus : Option (BitVec 32)) (nohang : Bool) : WaitEntry :=
  if nohang && (k.pcb c).state != .ZOMBIE then
    .returned { k := k, calls := [], ret := 0, wstatus, errno := none }
  else if mustResume (k.pcb c) then
    .found (k.setPcb c fun pcb => { pcb with state := .READY })
      ⟨c, pid, flags, wstatus⟩ [.ready (k.pcb c).mainThread]
  else
    .found k ⟨c, pid, flags, wstatus⟩ []

/-- `do_waitpid` up to `thread_join`. -/
def waitpidEnter (k : Procs) (pid : Pid) (wstatus : Option (BitVec 32))
    (nohang : Bool) : WaitEntry :=
  let flags := k.irqEnabled
  let k := k.setIrq false
  if pid = -1 then
    match findProcZombieToClean k with
    | none =>
        .returned
          { k := k.setIrq flags, calls := [], ret := -1, wstatus,
            errno := some .ECHILD }
    | some c => waitpidFound k c (k.pcb c).pid flags wstatus nohang
  else
    match findProcByPid k pid with
    | none =>
        .returned
          { k := k, calls := [], ret := -1,
            wstatus := wstatus.map fun _ => ~~~ 0x7f#32,
            errno := some .ECHILD }
    | some c => waitpidFound k c pid flags wstatus nohang

/-- Drop the PCB of a reaped process unless it still has children. -/
def removeIfChildless (k : Procs) (c : Ref) : Procs :=
  if findProcByParent k c = none then removeProc k c else k

/-- `do_waitpid` from `thread_join` on. -/
def waitpidFinish (k : Procs) (w : Wait) : WaitReturn :=
  let child := k.pcb w.child
  if child.state = .ZOMBIE ∧ child.ptracePendingReq = .noRequest then
    -- the second assignment to `*wstatus` is `=`, not `|=`
    { k := (removeIfChildless k w.child).setIrq w.flags
      calls := [.resetRootPgtable w.child true]
      ret := w.pid.toInt
      wstatus := w.wstatus.map fun _ => statusBits child.exitStatus
      errno := none }
  else if child.ptracePendingReq ≠ .noRequest then
    { k := (k.setPcb w.child fun pcb =>
        { pcb with ptracePendingReq := .noRequest }).setIrq w.flags
      calls := []
      ret := w.pid.toInt
      wstatus := w.wstatus.map fun _ => 0x17f ||| statusBits child.exitStatus
      errno := none }
  else
    { k := (removeIfChildless k w.child).setIrq w.flags
      calls := [.resetRootPgtable w.child true]
      ret := w.pid.toInt
      wstatus := w.wstatus.map fun _ =>
        ~~~ 0x7f#32 ||| statusBits child.exitStatus
      errno := none }

/-- What `thread_join` leaves in the PCB of the joined process;
`threadJoin` says what becomes of its `main_thread` field. -/
def joined (threadJoin : Option Tid → Option Tid) (k : Procs) (c : Ref) :
    Procs :=
  k.setPcb c fun pcb => { pcb with mainThread := threadJoin pcb.mainThread }

-- ===================================================================== do_sbrk

/-- `do_sbrk`, on the PCB of the calling thread, if it has one: the PCB
and the value returned, or the error set before it returns -1. The
arithmetic is that of `int`. -/
def doSbrk (P : Platform) (pcb : Option Pcb) (increment : BitVec 32) :
    Except Errno (Pcb × BitVec 32) :=
  match pcb with
  | none => .error .ESRCH
  | some pcb =>
      let retPointer := BitVec.ofNat 32 pcb.heapPointer
      let curSz := retPointer - BitVec.ofNat 32 pcb.heapBase
      let reqSz := curSz + increment
      if (P.heapSize : Int) ≤ reqSz.toInt ∨ reqSz.toInt < 0 then
        .error .ENOMEM
      else
        .ok ({ pcb with heapPointer := (retPointer + increment).toNat },
          retPointer)

-- ============================================================== without ptrace

/-- No process is being traced. -/
def NoPtrace (k : Procs) : Prop :=
  ∀ r, (k.pcb r).ptracePendingReq = .noRequest

/-- The child a `do_waitpid` call goes on to wait for: the one its search
finds, unless `WNOHANG` ends the call there. -/
def waitTarget (k : Procs) (pid : Pid) (nohang : Bool) : Option Ref :=
  (if pid = -1 then findProcZombieToClean k else findProcByPid k pid).filter
    fun c => !(nohang && (k.pcb c).state != .ZOMBIE)

theorem waitTarget_mem {k : Procs} {pid : Pid} {nohang : Bool} {c : Ref}
    (h : waitTarget k pid nohang = some c) : c ∈ k.procList := by
  obtain ⟨hfind, -⟩ := Option.filter_eq_some_iff.mp h
  split at hfind
  · exact List.mem_of_find?_eq_some hfind
  · exact List.mem_of_find?_eq_some hfind

/-- A call with a target goes on to the test before `thread_join`, past
the resumption of a stopped child. -/
theorem waitpidEnter_found {k : Procs} {pid : Pid} {nohang : Bool} {c : Ref}
    (h : waitTarget k pid nohang = some c) (wstatus : Option (BitVec 32)) :
    waitpidEnter k pid wstatus nohang
      = if mustResume (k.pcb c) then
          .found ((k.setIrq false).setPcb c fun pcb =>
              { pcb with state := .READY })
            ⟨c, (k.pcb c).pid, k.irqEnabled, wstatus⟩
            [.ready (k.pcb c).mainThread]
        else
          .found (k.setIrq false) ⟨c, (k.pcb c).pid, k.irqEnabled, wstatus⟩
            [] := by
  obtain ⟨hfind, hgo⟩ := Option.filter_eq_some_iff.mp h
  have hgo' : (nohang && (k.pcb c).state != .ZOMBIE) = false := by
    simpa only [Bool.not_eq_true'] using hgo
  have hsearch : waitpidEnter k pid wstatus nohang
      = waitpidFound (k.setIrq false) c (k.pcb c).pid k.irqEnabled wstatus
        nohang := by
    unfold waitpidEnter
    by_cases hpid : pid = -1
    · rw [if_pos hpid] at hfind
      have hfind' : findProcZombieToClean (k.setIrq false) = some c := hfind
      simp only [if_pos hpid, hfind']
      rfl
    · rw [if_neg hpid] at hfind
      have hfind' : findProcByPid (k.setIrq false) pid = some c := hfind
      have heq : (k.pcb c).pid = pid := by
        simpa using List.find?_some hfind
      simp only [if_neg hpid, hfind', heq]
  have hstate : ((k.setIrq false).pcb c).state = (k.pcb c).state := rfl
  rw [hsearch, waitpidFound, hstate, hgo']
  rfl

/-- Where nobody is traced it leaves the process table as it was. -/
theorem waitpidEnter_target {k : Procs} (hk : NoPtrace k) {pid : Pid}
    {nohang : Bool} {c : Ref} (h : waitTarget k pid nohang = some c)
    (wstatus : Option (BitVec 32)) :
    ∃ pid', waitpidEnter k pid wstatus nohang
      = .found (k.setIrq false) ⟨c, pid', k.irqEnabled, wstatus⟩ [] := by
  have hreq : ¬ mustResume (k.pcb c) = true := by
    have := hk c
    simp [mustResume, this]
  exact ⟨_, by rw [waitpidEnter_found h, if_neg hreq]⟩

/-- A call without one returns, the process table as it was. -/
theorem waitpidEnter_no_target {k : Procs} {pid : Pid} {nohang : Bool}
    (h : waitTarget k pid nohang = none) (wstatus : Option (BitVec 32)) :
    ∃ r, waitpidEnter k pid wstatus nohang = .returned r
      ∧ (∃ b, r.k = k.setIrq b) ∧ r.calls = [] := by
  have hfound : ∀ c pid', (nohang && (k.pcb c).state != .ZOMBIE) = true →
      ∃ r, waitpidFound (k.setIrq false) c pid' k.irqEnabled wstatus nohang
          = .returned r ∧ (∃ b, r.k = k.setIrq b) ∧ r.calls = [] := by
    intro c pid' hgo
    have hgo' : (nohang && ((k.setIrq false).pcb c).state != .ZOMBIE)
        = true := hgo
    rw [waitpidFound, hgo']
    exact ⟨_, rfl, ⟨false, rfl⟩, rfl⟩
  rw [waitTarget, Option.filter_eq_none_iff] at h
  unfold waitpidEnter
  by_cases hpid : pid = -1
  · rw [if_pos hpid] at h
    simp only [if_pos hpid]
    cases hc : findProcZombieToClean (k.setIrq false) with
    | none => exact ⟨_, rfl, ⟨_, rfl⟩, rfl⟩
    | some c => exact hfound c _ (by simpa using h c hc)
  · rw [if_neg hpid] at h
    simp only [if_neg hpid]
    cases hc : findProcByPid (k.setIrq false) pid with
    | none => exact ⟨_, rfl, ⟨_, rfl⟩, rfl⟩
    | some c => exact hfound c _ (by simpa using h c hc)

/-- The end of a wait frees the page table of the child, and drops its
PCB if it has no children. -/
theorem waitpidFinish_of_noRequest {k : Procs} {w : Wait}
    (h : (k.pcb w.child).ptracePendingReq = .noRequest) :
    (waitpidFinish k w).k = (removeIfChildless k w.child).setIrq w.flags
      ∧ (waitpidFinish k w).calls = [.resetRootPgtable w.child true] := by
  unfold waitpidFinish
  by_cases hz : (k.pcb w.child).state = .ZOMBIE
  · simp [hz, h]
  · simp [hz, h]

/-- A pending request is all that the end of a wait removes. -/
theorem waitpidFinish_of_request {k : Procs} {w : Wait}
    (h : (k.pcb w.child).ptracePendingReq ≠ .noRequest) :
    (waitpidFinish k w).k = (k.setPcb w.child fun pcb =>
        { pcb with ptracePendingReq := .noRequest }).setIrq w.flags
      ∧ (waitpidFinish k w).calls = [] := by
  unfold waitpidFinish
  rw [if_neg fun hz => h hz.2, if_pos h]
  exact ⟨rfl, rfl⟩

end SyeLabs.Process
