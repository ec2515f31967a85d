/-
The process table while processes may be traced.

`do_ptrace` is not part of the repository. What `do_waitpid` reads of it
is `ptrace_pending_req`, so here it is an action that sets the pending
request of any process of the list, at any time, to any value; the other
actions are those of `Act`.

Two branches of `do_waitpid` are reached only so. A pending request other
than `PTRACE_TRACEME` makes the call put the child in `READY` before it
joins it (`Taken.woken`), and a request still pending after the join ends
the call with a stopped status. All other ends of a wait, and the actions
that do not touch the table, are `Quiet`: they leave state, pid and exit
status of every process alone and make no thread ready.
-/
import SyeLabs.Process.Run

namespace SyeLabs.Process

open Lib

/-- What a process, the scheduler or `do_ptrace` does next. -/
inductive TracedAct
  | ptrace (c : Ref) (req : PtraceReq)
  | act (a : Act)

variable (threadJoin : Option Tid → Option Tid)

/-- One action. -/
def tracedStep (s : Sys) : TracedAct → Option Sys
  | .ptrace c req =>
      if c ∈ s.k.procList then
        some { s with
          k := s.k.setPcb c fun pcb => { pcb with ptracePendingReq := req } }
      else none
  | .act a => step threadJoin s a

-- =============================================================== quiet actions

/-- The step leaves the processes where they are: it may drop PCBs from
the list and change requests and the main threads of zombies. -/
structure Quiet (s s' : Sys) : Prop where
  procList : s'.k.procList.Sublist s.k.procList
  nextRef : s'.k.nextRef = s.k.nextRef
  nextTid : s'.k.nextTid = s.k.nextTid
  pid : ∀ r, (s'.k.pcb r).pid = (s.k.pcb r).pid
  state : ∀ r, (s'.k.pcb r).state = (s.k.pcb r).state
  exitStatus : ∀ r, (s'.k.pcb r).exitStatus = (s.k.pcb r).exitStatus
  mainThread : ∀ r, (s.k.pcb r).state ≠ .ZOMBIE →
    (s'.k.pcb r).mainThread = (s.k.pcb r).mainThread
  ready : ∀ t, s'.trace.count (.ready t) = s.trace.count (.ready t)

theorem Quiet.trans {s t s' : Sys} (h : Quiet s t) (h' : Quiet t s') :
    Quiet s s' where
  procList := h'.procList.trans h.procList
  nextRef := h'.nextRef.trans h.nextRef
  nextTid := h'.nextTid.trans h.nextTid
  pid := fun r => (h'.pid r).trans (h.pid r)
  state := fun r => (h'.state r).trans (h.state r)
  exitStatus := fun r => (h'.exitStatus r).trans (h.exitStatus r)
  mainThread := fun r hr =>
    (h'.mainThread r (by rw [h.state]; exact hr)).trans (h.mainThread r hr)
  ready := fun t => (h'.ready t).trans (h.ready t)

/-- A request is nobody's state. -/
theorem quiet_request (s : Sys) (c : Ref) (req : PtraceReq) (on : Bool) :
    Quiet s { s with
      k := (s.k.setPcb c fun pcb =>
        { pcb with ptracePendingReq := req }).setIrq on } := by
  have hpcb : ∀ r, ∃ req', ((s.k.setPcb c fun pcb =>
      { pcb with ptracePendingReq := req }).setIrq on).pcb r
        = { s.k.pcb r with ptracePendingReq := req' } := by
    intro r
    show ∃ req', (s.k.setPcb c fun pcb =>
      { pcb with ptracePendingReq := req }).pcb r = _
    rw [setPcb_pcb]
    split
    · exact ⟨_, rfl⟩
    · exact ⟨(s.k.pcb r).ptracePendingReq, rfl⟩
  constructor
  case procList => exact List.Sublist.refl _
  case nextRef => rfl
  case nextTid => rfl
  case ready => exact fun _ => rfl
  all_goals
    intro r
    obtain ⟨req', hr⟩ := hpcb r
    simp only [hr, implies_true]

/-- `thread_join` changes no more than the main thread of a zombie. -/
theorem quiet_joined {s : Sys} {c : Ref} (on : Bool) (waits : List Wait)
    (hz : (s.k.pcb c).state = .ZOMBIE) :
    Quiet s { s with
      k := joined threadJoin (s.k.setIrq on) c, waits := waits } := by
  have hpcb : ∀ r, ∃ m, (joined threadJoin (s.k.setIrq on) c).pcb r
      = { s.k.pcb r with mainThread := m } := by
    intro r
    rw [joined, setPcb_pcb]
    split
    · exact ⟨_, rfl⟩
    · exact ⟨(s.k.pcb r).mainThread, rfl⟩
  constructor
  case procList => exact List.Sublist.refl _
  case nextRef => rfl
  case nextTid => rfl
  case ready => exact fun _ => rfl
  case mainThread =>
    intro r hr
    rw [joined, setPcb_pcb, if_neg fun h => hr (by rw [h, hz])]
    rfl
  all_goals
    intro r
    obtain ⟨m, hr⟩ := hpcb r
    simp only [hr]

theorem quiet_ends {s t : Sys} {a : Act} {w : Wait}
    (h : Ends threadJoin s a t w) : Quiet s t := by
  cases h with
  | skipped _ _ _ _ =>
      exact ⟨List.Sublist.refl _, rfl, rfl, fun _ => rfl, fun _ => rfl,
        fun _ => rfl, fun _ _ => rfl, fun _ => rfl⟩
  | found _ _ _ hz => exact quiet_joined threadJoin false s.waits hz
  | resumed _ hz =>
      exact quiet_joined threadJoin s.k.irqEnabled (s.waits.erase w) hz

/-- `thread_join` frees nothing, drops nothing and answers no request. -/
theorem ends_kept {s t : Sys} {a : Act} {w : Wait}
    (h : Ends threadJoin s a t w) :
    t.trace = s.trace ∧ t.k.procList = s.k.procList
      ∧ (t.k.pcb w.child).ptracePendingReq
        = (s.k.pcb w.child).ptracePendingReq := by
  cases h with
  | skipped _ _ _ _ => exact ⟨rfl, rfl, rfl⟩
  | @found _ _ wstatus _ c _ _ _ _ =>
      refine ⟨rfl, rfl, ?_⟩
      show ((joined threadJoin (s.k.setIrq false) c).pcb c).ptracePendingReq
        = _
      rw [joined, setPcb_pcb, if_pos rfl]
      rfl
  | resumed _ _ =>
      refine ⟨rfl, rfl, ?_⟩
      show ((joined threadJoin s.k w.child).pcb w.child).ptracePendingReq = _
      rw [joined, setPcb_pcb, if_pos rfl]

/-- The part of `do_waitpid` after `thread_join` is quiet. -/
theorem quiet_finish (t : Sys) (w : Wait) : Quiet t (t.finish w) := by
  by_cases hreq : (t.k.pcb w.child).ptracePendingReq = .noRequest
  · obtain ⟨hk, hcalls⟩ := waitpidFinish_of_noRequest hreq
    have hpcb : ∀ r, (waitpidFinish t.k w).k.pcb r = t.k.pcb r := by
      intro r
      rw [hk]
      unfold removeIfChildless
      split <;> rfl
    constructor
    case procList =>
      rw [Sys.finish, hk]
      show (removeIfChildless t.k w.child).procList.Sublist _
      unfold removeIfChildless
      split
      · exact List.erase_sublist
      · exact List.Sublist.refl _
    case ready =>
      intro m
      rw [Sys.finish, hcalls]
      simp
    case nextRef =>
      rw [Sys.finish, hk]
      unfold removeIfChildless
      split <;> rfl
    case nextTid =>
      rw [Sys.finish, hk]
      unfold removeIfChildless
      split <;> rfl
    all_goals
      intro r
      simp only [Sys.finish, hpcb, implies_true]
  · obtain ⟨hk, hcalls⟩ := waitpidFinish_of_request hreq
    rw [Sys.finish, hk, hcalls, List.append_nil]
    exact quiet_request t w.child .noRequest w.flags

-- ========================================================== what a step can do

/-- Everything a step can do: it is quiet, or one of four actions that
are not. -/
inductive TracedTaken (s : Sys) : TracedAct → Sys → Prop
  | quiet {a : TracedAct} {s' : Sys} : Quiet s s' → TracedTaken s a s'
  | forked {p : Ref} {thread : Tid} {k' : Procs} : Live s.k p →
      k' = (doFork s.k p thread).k → Forked s.k k' p →
      TracedTaken s (.act (.fork p thread)) { s with
        k := k'
        trace := s.trace
          ++ [.newRootPgtable s.k.nextRef, .duplicateUserSpace p s.k.nextRef] }
  | exited {p : Ref} {status : BitVec 32} : Live s.k p →
      TracedTaken s (.act (.exit p status)) { s with
        k := (s.k.setIrq false).setPcb p fun pcb =>
          { pcb with state := .ZOMBIE, exitStatus := status }
        trace := s.trace ++ [.releaseProcPages p, .threadExit p] }
  | scheduled {p : Ref} {st : ProcState} : Live s.k p → st ≠ .ZOMBIE →
      TracedTaken s (.act (.sched p st)) { s with
        k := s.k.setPcb p fun pcb => { pcb with state := st } }
  | woken {p : Ref} {pid : Pid} {wstatus : Option (BitVec 32)}
      {nohang : Bool} {c : Ref} : Live s.k p →
      waitTarget s.k pid nohang = some c → mustResume (s.k.pcb c) = true →
      TracedTaken s (.act (.wait p pid wstatus nohang)) { s with
        k := (s.k.setIrq false).setPcb c fun pcb => { pcb with state := .READY }
        waits := s.waits ++ [waitFor s.k c wstatus]
        trace := s.trace ++ [.ready (s.k.pcb c).mainThread] }

theorem tracedStep_taken {s s' : Sys} {a : TracedAct}
    (hstep : tracedStep threadJoin s a = some s') : TracedTaken s a s' := by
  have hsame : ∀ on waits, Quiet s
      { s with k := s.k.setIrq on, waits := waits } := fun on waits =>
    ⟨List.Sublist.refl _, rfl, rfl, fun _ => rfl, fun _ => rfl,
      fun _ => rfl, fun _ _ => rfl, fun _ => rfl⟩
  cases a with
  | ptrace c req =>
      simp only [tracedStep] at hstep
      split at hstep
      next =>
        cases hstep
        exact .quiet (quiet_request s c req s.k.irqEnabled)
      next => cases hstep
  | act a =>
      cases step_taken threadJoin hstep with
      | idle on _ => exact .quiet (hsame on s.waits)
      | forked hlive hk hf => exact .forked hlive hk hf
      | exited hlive _ => exact .exited hlive
      | scheduled hlive hst => exact .scheduled hlive hst
      | woken hlive ht hreq => exact .woken hlive ht hreq
      | blocked _ _ _ => exact .quiet (hsame false _)
      | @ended _ t w hfin =>
          have hends := (finishing_ends threadJoin hfin).1
          exact .quiet ((quiet_ends threadJoin hends).trans (quiet_finish t w))

variable {threadJoin}

theorem exit_step {s s' : Sys} {p : Ref} {status : BitVec 32}
    (hstep : tracedStep threadJoin s (.act (.exit p status)) = some s') :
    Live s.k p ∧ (s'.k.pcb p).state = .ZOMBIE
      ∧ (s'.k.pcb p).exitStatus = status := by
  simp only [tracedStep, step] at hstep
  split at hstep
  next hlive =>
    obtain ⟨⟨k', calls⟩, hexit, rfl⟩ := Option.map_eq_some_iff.mp hstep
    obtain ⟨-, rfl, -⟩ := doExit_eq_some hexit
    simp only [setPcb_pcb, if_true, and_true]
    exact hlive
  next => cases hstep

theorem nextRef_step {s s' : Sys} {a : TracedAct}
    (hstep : tracedStep threadJoin s a = some s') :
    s.k.nextRef ≤ s'.k.nextRef := by
  cases tracedStep_taken threadJoin hstep with
  | quiet hq => exact Nat.le_of_eq hq.nextRef.symm
  | forked _ _ hf => exact Nat.le_of_lt (hf.nextRef ▸ Nat.lt_succ_self _)
  | exited _ => exact Nat.le_refl _
  | scheduled _ _ => exact Nat.le_refl _
  | woken _ _ _ => exact Nat.le_refl _

-- ==================================================================== the list

/-- The list names processes of the table, each once. -/
structure Listed (k : Procs) : Prop where
  known : ∀ r ∈ k.procList, r < k.nextRef
  nodup : k.procList.Nodup

theorem listed_init (P : Platform) : Listed (Sys.init P).k where
  known := by
    intro r hr
    rw [List.mem_singleton.mp hr]
    exact Nat.one_pos
  nodup := List.nodup_singleton 0

theorem Listed.quiet {s s' : Sys} (h : Listed s.k) (hq : Quiet s s') :
    Listed s'.k where
  known := fun r hr => hq.nextRef ▸ h.known r (hq.procList.subset hr)
  nodup := h.nodup.sublist hq.procList

theorem Listed.forked {k k' : Procs} {p : Ref} (h : Listed k)
    (hf : Forked k k' p) : Listed k' where
  known := by
    intro r hr
    rw [hf.procList, List.mem_append, List.mem_singleton] at hr
    rw [hf.nextRef]
    rcases hr with hr | rfl
    · exact Nat.lt_succ_of_lt (h.known r hr)
    · exact Nat.lt_succ_self _
  nodup := by
    rw [hf.procList, List.nodup_append]
    refine ⟨h.nodup, List.nodup_singleton _, fun r hr q hq => ?_⟩
    rw [List.mem_singleton.mp hq]
    exact Nat.ne_of_lt (h.known r hr)

theorem listed_step {s s' : Sys} {a : TracedAct} (h : Listed s.k)
    (hstep : tracedStep threadJoin s a = some s') : Listed s'.k := by
  cases tracedStep_taken threadJoin hstep with
  | quiet hq => exact h.quiet hq
  | forked _ _ hf => exact h.forked hf
  | exited _ => exact ⟨h.known, h.nodup⟩
  | scheduled _ _ => exact ⟨h.known, h.nodup⟩
  | woken _ _ _ => exact ⟨h.known, h.nodup⟩

end SyeLabs.Process
