/-
Runs of fork, exit and wait over the process table.

# The system

`Sys` is the process table together with the `do_waitpid` calls that are
blocked in `thread_join` and the calls made into the memory manager so
far. A blocked wait resumes once its child is a zombie; a wait for a
zombie does not block, and one for a child in the `WAITING` state skips
`thread_join`. The scheduler may move a live process between the other
states at any time. Every live process may take every action, so the
runs cover all interleavings.

# Who is waited for

`claims s c` counts the waits that went on to wait for `c`: those that
have freed its page table and those still blocked. One step raises it by
one for the target of a `do_waitpid` call and leaves it alone otherwise
(`claims_step`), which is all the theorems on reaping need to know of a
step.
-/
import Mathlib.Data.List.Count
import SyeLabs.Lib.Reap
import SyeLabs.Lib.Run
import SyeLabs.Process.Basic

namespace SyeLabs.Process

open Lib

-- ================================================================== the system

/-- The process table, the blocked waits and the calls made so far. -/
structure Sys where
  k : Procs
  waits : List Wait
  trace : List Call

/-- What a process, or the scheduler, does next. -/
inductive Act
  | fork (p : Ref) (thread : Tid)
  | exit (p : Ref) (status : BitVec 32)
  | wait (p : Ref) (pid : Pid) (wstatus : Option (BitVec 32)) (nohang : Bool)
  | resume (w : Wait)
  | sched (p : Ref) (st : ProcState)

/-- A process that can still act. -/
def Live (k : Procs) (p : Ref) : Prop :=
  p < k.nextRef ∧ (k.pcb p).state ≠ .ZOMBIE

instance (k : Procs) (p : Ref) : Decidable (Live k p) :=
  inferInstanceAs (Decidable (_ ∧ _))

/-- A field other than the state says nothing about who is alive. -/
theorem live_setPcb {k : Procs} {p q : Ref} {f : Pcb → Pcb}
    (hf : ∀ pcb, (f pcb).state = pcb.state) :
    Live (k.setPcb p f) q ↔ Live k q := by
  unfold Live
  rw [setPcb_nextRef, setPcb_pcb]
  split
  next => rw [hf]
  next => rfl

/-- After `create_root_process`. -/
def Sys.init (P : Platform) : Sys where
  k := (createRootProcess P Procs.boot).1
  waits := []
  trace := (createRootProcess P Procs.boot).2

/-- Run `do_waitpid` from `thread_join` on. -/
def Sys.finish (s : Sys) (w : Wait) : Sys :=
  { s with
    k := (waitpidFinish s.k w).k
    trace := s.trace ++ (waitpidFinish s.k w).calls }

variable (threadJoin : Option Tid → Option Tid)

/-- `thread_join` on a finished child, and the rest of the wait. -/
def Sys.join (s : Sys) (w : Wait) : Sys :=
  Sys.finish { s with k := joined threadJoin s.k w.child } w

/-- A wait that found its child: `thread_join` is skipped for a child in
`WAITING`, returns at once for a zombie and blocks otherwise. -/
def Sys.await (s : Sys) (w : Wait) : Sys :=
  match (s.k.pcb w.child).state with
  | .WAITING => s.finish w
  | .ZOMBIE => s.join threadJoin w
  | _ => { s with waits := s.waits ++ [w] }

/-- One action. -/
def step (s : Sys) : Act → Option Sys
  | .fork p thread =>
      if Live s.k p then
        let o := doFork s.k p thread
        some { s with k := o.k, trace := s.trace ++ o.calls }
      else none
  | .exit p status =>
      if Live s.k p then
        (doExit s.k p status).map fun r =>
          { s with k := r.1, trace := s.trace ++ r.2 }
      else none
  | .wait p pid wstatus nohang =>
      if Live s.k p then
        match waitpidEnter s.k pid wstatus nohang with
        | .returned r =>
            some { s with k := r.k, trace := s.trace ++ r.calls }
        | .found k w calls =>
            some (Sys.await threadJoin
              { s with k := k, trace := s.trace ++ calls } w)
      else none
  | .resume w =>
      if w ∈ s.waits ∧ (s.k.pcb w.child).state = .ZOMBIE then
        some (Sys.join threadJoin { s with waits := s.waits.erase w } w)
      else none
  | .sched p st =>
      if Live s.k p ∧ st ≠ .ZOMBIE ∧ st ≠ .NEW then
        some { s with
          k := s.k.setPcb p fun pcb => { pcb with state := st } }
      else none

/-- The process a step goes on to wait for. -/
def target (k : Procs) : Act → Option Ref
  | .wait _ pid _ nohang => waitTarget k pid nohang
  | _ => none

/-- How often the page table of `c` has been freed. -/
def freed (s : Sys) (c : Ref) : Nat :=
  s.trace.count (.resetRootPgtable c true)

/-- How many waits went on to wait for `c`. -/
def claims (s : Sys) (c : Ref) : Nat :=
  freed s c + s.waits.countP (·.child = c)

-- ======================================================= what fork and exit do

/-- What a successful `do_fork` changes, as far as fork, exit and wait
can see. -/
structure Forked (k k' : Procs) (parent : Ref) : Prop where
  procList : k'.procList = k.procList ++ [k.nextRef]
  nextRef : k'.nextRef = k.nextRef + 1
  pidCurrent : k'.pidCurrent = k.pidCurrent + 1
  rootProcess : k'.rootProcess = k.rootProcess
  pid : (k'.pcb k.nextRef).pid = k.pidCurrent
  parent : (k'.pcb k.nextRef).parent = some parent
  state : (k'.pcb k.nextRef).state = .READY
  ptrace : (k'.pcb k.nextRef).ptracePendingReq = .noRequest
  others : ∀ r, r ≠ k.nextRef → k'.pcb r = k.pcb r

/-- `do_fork` from a thread that is not the main one does nothing. -/
theorem doFork_of_not_main {k : Procs} {p : Ref} {thread : Tid}
    (h : (k.pcb p).mainThread ≠ some thread) :
    doFork k p thread
      = { k := k.setIrq false, calls := [], ret := -1, errno := none } := by
  have h' : ((k.setIrq false).pcb p).mainThread ≠ some thread := h
  unfold doFork
  rw [if_pos h']

/-- From the main thread it creates a child, named after the parent. -/
theorem doFork_child {k : Procs} {p : Ref} {thread : Tid}
    (h : (k.pcb p).mainThread = some thread) :
    ∃ name, (doFork k p thread).k.pcb k.nextRef
        = { freshPcb k.pidCurrent with
            name
            pageCount := (k.pcb p).pageCount
            parent := some p
            mainThread := some k.nextTid
            stackTop := (k.pcb p).stackTop
            heapBase := (k.pcb p).heapBase
            heapPointer := (k.pcb p).heapPointer
            state := .READY }
      ∧ (p ≠ k.nextRef → name = childName (k.pcb p).name k.pidCurrent) := by
  have h' : ((k.setIrq false).pcb p).mainThread = some thread := h
  refine ⟨childName ((duplicateProcess (k.setIrq false) p).1.pcb p).name
    k.pidCurrent, ?_, fun hne => ?_⟩
  · unfold doFork
    rw [if_neg (not_not_intro h')]
    simp [duplicateProcess, newProcess, Procs.setPcb, Procs.setIrq, freshPcb]
  · simp [duplicateProcess, newProcess, Procs.setPcb, Procs.setIrq, hne]

/-- Nobody else is changed. -/
theorem doFork_main {k : Procs} {p : Ref} {thread : Tid}
    (h : (k.pcb p).mainThread = some thread) :
    Forked k (doFork k p thread).k p
      ∧ (doFork k p thread).k.nextTid = k.nextTid + 1
      ∧ (doFork k p thread).calls
        = [.newRootPgtable k.nextRef, .duplicateUserSpace p k.nextRef] := by
  obtain ⟨name, hchild, -⟩ := doFork_child h
  have h' : ((k.setIrq false).pcb p).mainThread = some thread := h
  have hothers : ∀ r, r ≠ k.nextRef →
      (doFork k p thread).k.pcb r = k.pcb r := by
    intro r hr
    unfold doFork
    rw [if_neg (not_not_intro h')]
    simp [duplicateProcess, newProcess, Procs.setPcb, Procs.setIrq, hr]
  refine ⟨⟨?_, ?_, ?_, ?_, congrArg Pcb.pid hchild,
    congrArg Pcb.parent hchild, congrArg Pcb.state hchild,
    congrArg Pcb.ptracePendingReq hchild, hothers⟩, ?_, ?_⟩
  all_goals
    unfold doFork
    rw [if_neg (not_not_intro h')]
    rfl

theorem doFork_cases (k : Procs) (p : Ref) (thread : Tid) :
    ((doFork k p thread).k = k.setIrq false
      ∧ (doFork k p thread).calls = [])
    ∨ (Forked k (doFork k p thread).k p
      ∧ (doFork k p thread).calls
        = [.newRootPgtable k.nextRef, .duplicateUserSpace p k.nextRef]) := by
  by_cases h : (k.pcb p).mainThread = some thread
  · obtain ⟨hforked, -, hcalls⟩ := doFork_main h
    exact Or.inr ⟨hforked, hcalls⟩
  · rw [doFork_of_not_main h]
    exact Or.inl ⟨rfl, rfl⟩

/-- Only the main thread creates a child. -/
theorem Forked.main {k : Procs} {p : Ref} {thread : Tid}
    (h : Forked k (doFork k p thread).k p) :
    (k.pcb p).mainThread = some thread := by
  by_contra hmain
  have hnext := h.nextRef
  rw [doFork_of_not_main hmain] at hnext
  exact absurd hnext (Nat.ne_of_lt (Nat.lt_succ_self _))

/-- `do_exit` marks its process and releases its pages; the root process
does not get there. -/
theorem doExit_eq_some {k k' : Procs} {p : Ref} {status : BitVec 32}
    {calls : List Call} (h : doExit k p status = some (k', calls)) :
    (k.pcb p).parent ≠ none
      ∧ k' = (k.setIrq false).setPcb p (fun pcb =>
        { pcb with state := .ZOMBIE, exitStatus := status })
      ∧ calls = [.releaseProcPages p, .threadExit p] := by
  unfold doExit at h
  split at h
  · cases h
  next hp =>
    cases h
    exact ⟨hp, rfl, rfl⟩

/-- What the end of a wait for `c` changes. -/
structure Reaped (k k' : Procs) (c : Ref) : Prop where
  procList : k'.procList = reap (fun r => (k.pcb r).parent) k.procList c
  nextRef : k'.nextRef = k.nextRef
  pidCurrent : k'.pidCurrent = k.pidCurrent
  rootProcess : k'.rootProcess = k.rootProcess
  pcb : ∀ r, ∃ t, k'.pcb r = { k.pcb r with mainThread := t }

theorem removeIfChildless_procList (k : Procs) (c : Ref) :
    (removeIfChildless k c).procList
      = reap (fun r => (k.pcb r).parent) k.procList c := by
  unfold removeIfChildless findProcByParent
  by_cases h : ∃ q ∈ k.procList, (k.pcb q).parent = some c
  · rw [if_neg]
    · obtain ⟨q, hq, hp⟩ := h
      exact (reap_of_child hq hp).symm
    · simpa [List.find?_eq_none] using h
  · rw [if_pos]
    · exact (if_neg h).symm
    · simpa [List.find?_eq_none] using h

/-- The end of a wait, and what it leaves. -/
theorem finish_reaped {s : Sys} {w : Wait}
    (h : (s.k.pcb w.child).ptracePendingReq = .noRequest) :
    ∃ k', Reaped s.k k' w.child
      ∧ s.finish w = { s with
          k := k', trace := s.trace ++ [.resetRootPgtable w.child true] } := by
  obtain ⟨hk, hcalls⟩ := waitpidFinish_of_noRequest h
  refine ⟨_, ?_, by rw [Sys.finish, hcalls]⟩
  rw [hk]
  constructor
  case procList => exact removeIfChildless_procList s.k w.child
  case pcb =>
    intro r
    refine ⟨(s.k.pcb r).mainThread, ?_⟩
    unfold removeIfChildless
    split <;> rfl
  all_goals
    unfold removeIfChildless
    split <;> rfl

/-- The same with `thread_join` before it. -/
theorem join_reaped {s : Sys} {w : Wait}
    (h : (s.k.pcb w.child).ptracePendingReq = .noRequest) :
    ∃ k', Reaped s.k k' w.child
      ∧ s.join threadJoin w = { s with
          k := k', trace := s.trace ++ [.resetRootPgtable w.child true] } := by
  have hpcb : ∀ r, ∃ t, (joined threadJoin s.k w.child).pcb r
      = { s.k.pcb r with mainThread := t } := by
    intro r
    rw [joined, setPcb_pcb]
    split
    · exact ⟨_, rfl⟩
    · exact ⟨(s.k.pcb r).mainThread, rfl⟩
  have hparent : (fun r => ((joined threadJoin s.k w.child).pcb r).parent)
      = fun r => (s.k.pcb r).parent := by
    funext r
    obtain ⟨t, ht⟩ := hpcb r
    rw [ht]
  have hreq : ((joined threadJoin s.k w.child).pcb
      w.child).ptracePendingReq = .noRequest := by
    obtain ⟨t, ht⟩ := hpcb w.child
    rw [ht]
    exact h
  obtain ⟨k', hr, hfin⟩ :=
    finish_reaped (s := { s with k := joined threadJoin s.k w.child }) hreq
  refine ⟨k', ?_, hfin⟩
  constructor
  case procList => exact hr.procList.trans (by rw [hparent]; rfl)
  case pcb =>
    intro r
    obtain ⟨t, ht⟩ := hr.pcb r
    obtain ⟨t', ht'⟩ := hpcb r
    exact ⟨t, by rw [ht, ht']⟩
  · exact hr.nextRef
  · exact hr.pidCurrent
  · exact hr.rootProcess

theorem Reaped.of_setIrq {k k' : Procs} {c : Ref} {on : Bool}
    (h : Reaped (k.setIrq on) k' c) : Reaped k k' c :=
  ⟨h.procList, h.nextRef, h.pidCurrent, h.rootProcess, h.pcb⟩

-- ========================================================== what a step can do

/-- The wait that ends in a step, and the state in which the part of
`do_waitpid` after `thread_join` runs. -/
def finishing (s : Sys) : Act → Option (Sys × Wait)
  | .wait p pid wstatus nohang =>
      if Live s.k p then
        match waitpidEnter s.k pid wstatus nohang with
        | .returned _ => none
        | .found k w calls =>
            let s := { s with k := k, trace := s.trace ++ calls }
            match (k.pcb w.child).state with
            | .WAITING => some (s, w)
            | .ZOMBIE =>
                some ({ s with k := joined threadJoin k w.child }, w)
            | _ => none
      else none
  | .resume w =>
      if w ∈ s.waits ∧ (s.k.pcb w.child).state = .ZOMBIE then
        some ({ s with
          k := joined threadJoin s.k w.child, waits := s.waits.erase w }, w)
      else none
  | _ => none

/-- The wait a call of `do_waitpid` goes on with. -/
def waitFor (k : Procs) (c : Ref) (wstatus : Option (BitVec 32)) : Wait :=
  ⟨c, (k.pcb c).pid, k.irqEnabled, wstatus⟩

/-- The ways a wait can end. -/
inductive Ends (s : Sys) : Act → Sys → Wait → Prop
  | skipped {p : Ref} {pid : Pid} {wstatus : Option (BitVec 32)}
      {nohang : Bool} {c : Ref} : Live s.k p →
      waitTarget s.k pid nohang = some c →
      mustResume (s.k.pcb c) = false → (s.k.pcb c).state = .WAITING →
      Ends s (.wait p pid wstatus nohang) { s with k := s.k.setIrq false }
        (waitFor s.k c wstatus)
  | found {p : Ref} {pid : Pid} {wstatus : Option (BitVec 32)}
      {nohang : Bool} {c : Ref} : Live s.k p →
      waitTarget s.k pid nohang = some c →
      mustResume (s.k.pcb c) = false → (s.k.pcb c).state = .ZOMBIE →
      Ends s (.wait p pid wstatus nohang)
        { s with k := joined threadJoin (s.k.setIrq false) c }
        (waitFor s.k c wstatus)
  | resumed {w : Wait} : w ∈ s.waits → (s.k.pcb w.child).state = .ZOMBIE →
      Ends s (.resume w)
        { s with
          k := joined threadJoin s.k w.child, waits := s.waits.erase w } w

/-- Everything a step can do. -/
inductive Taken (s : Sys) : Act → Sys → Prop
  | idle {a : Act} (on : Bool) : target s.k a = none →
      Taken s a { s with k := s.k.setIrq on }
  | forked {p : Ref} {thread : Tid} {k' : Procs} : Live s.k p →
      k' = (doFork s.k p thread).k → Forked s.k k' p →
      Taken s (.fork p thread) { s with
        k := k'
        trace := s.trace
          ++ [.newRootPgtable s.k.nextRef, .duplicateUserSpace p s.k.nextRef] }
  | exited {p : Ref} {status : BitVec 32} : Live s.k p →
      (s.k.pcb p).parent ≠ none →
      Taken s (.exit p status) { s with
        k := (s.k.setIrq false).setPcb p fun pcb =>
          { pcb with state := .ZOMBIE, exitStatus := status }
        trace := s.trace ++ [.releaseProcPages p, .threadExit p] }
  | scheduled {p : Ref} {st : ProcState} : Live s.k p → st ≠ .ZOMBIE →
      Taken s (.sched p st) { s with
        k := s.k.setPcb p fun pcb => { pcb with state := st } }
  | woken {p : Ref} {pid : Pid} {wstatus : Option (BitVec 32)}
      {nohang : Bool} {c : Ref} : Live s.k p →
      waitTarget s.k pid nohang = some c → mustResume (s.k.pcb c) = true →
      Taken s (.wait p pid wstatus nohang) { s with
        k := (s.k.setIrq false).setPcb c fun pcb => { pcb with state := .READY }
        waits := s.waits ++ [waitFor s.k c wstatus]
        trace := s.trace ++ [.ready (s.k.pcb c).mainThread] }
  | blocked {p : Ref} {pid : Pid} {wstatus : Option (BitVec 32)}
      {nohang : Bool} {c : Ref} : Live s.k p →
      waitTarget s.k pid nohang = some c →
      (s.k.pcb c).state ≠ .ZOMBIE →
      Taken s (.wait p pid wstatus nohang) { s with
        k := s.k.setIrq false, waits := s.waits ++ [waitFor s.k c wstatus] }
  | ended {a : Act} {t : Sys} {w : Wait} :
      finishing threadJoin s a = some (t, w) → Taken s a (t.finish w)

/-- A wait with a target, step by step: what it does and, if it ends, how. -/
theorem step_wait {s : Sys} {p c : Ref} {pid : Pid} {nohang : Bool}
    (wstatus : Option (BitVec 32)) (hlive : Live s.k p)
    (htarget : waitTarget s.k pid nohang = some c) :
    ∃ s', step threadJoin s (.wait p pid wstatus nohang) = some s'
      ∧ Taken threadJoin s (.wait p pid wstatus nohang) s'
      ∧ ∀ t w, finishing threadJoin s (.wait p pid wstatus nohang)
          = some (t, w) →
        Ends threadJoin s (.wait p pid wstatus nohang) t w
          ∧ s' = t.finish w := by
  have henter := waitpidEnter_found htarget wstatus
  cases hreq : mustResume (s.k.pcb c) with
  | true =>
      rw [if_pos hreq] at henter
      have hready : (((s.k.setIrq false).setPcb c fun pcb =>
          { pcb with state := .READY }).pcb c).state = .READY := by
        rw [setPcb_pcb, if_pos rfl]
      simp only [step, finishing, if_pos hlive, henter, Sys.await, hready]
      exact ⟨_, rfl, .woken hlive htarget hreq, fun _ _ h => nomatch h⟩
  | false =>
      rw [hreq, if_neg Bool.false_ne_true] at henter
      have hsame : ((s.k.setIrq false).pcb c).state = (s.k.pcb c).state := rfl
      have hends : ∀ {s' t : Sys},
          step threadJoin s (.wait p pid wstatus nohang) = some s' →
          finishing threadJoin s (.wait p pid wstatus nohang)
            = some (t, waitFor s.k c wstatus) →
          Ends threadJoin s (.wait p pid wstatus nohang) t
            (waitFor s.k c wstatus) → s' = t.finish (waitFor s.k c wstatus) →
          ∃ s', step threadJoin s (.wait p pid wstatus nohang) = some s'
            ∧ Taken threadJoin s (.wait p pid wstatus nohang) s'
            ∧ ∀ t w, finishing threadJoin s (.wait p pid wstatus nohang)
                = some (t, w) →
              Ends threadJoin s (.wait p pid wstatus nohang) t w
                ∧ s' = t.finish w := by
        intro s' t hstep hfin hends heq
        refine ⟨s', hstep, heq ▸ .ended hfin, fun t' w' hfin' => ?_⟩
        obtain ⟨rfl, rfl⟩ := Prod.mk.inj
          (Option.some.inj (hfin.symm.trans hfin'))
        exact ⟨hends, heq⟩
      cases hstate : (s.k.pcb c).state with
      | WAITING =>
          refine hends ?_ ?_ (.skipped hlive htarget hreq hstate) rfl
          · simp only [step, if_pos hlive, henter, Sys.await, hsame, hstate,
              List.append_nil]
            rfl
          · simp only [finishing, if_pos hlive, henter, hsame, hstate,
              List.append_nil]
            rfl
      | ZOMBIE =>
          refine hends ?_ ?_ (.found hlive htarget hreq hstate) rfl
          · simp only [step, if_pos hlive, henter, Sys.await, hsame, hstate,
              List.append_nil]
            rfl
          · simp only [finishing, if_pos hlive, henter, hsame, hstate,
              List.append_nil]
            rfl
      | NEW | READY | RUNNING =>
          simp only [step, finishing, if_pos hlive, henter, Sys.await, hsame,
            hstate, List.append_nil]
          exact ⟨_, rfl, .blocked hlive htarget (by rw [hstate]; decide),
            fun _ _ h => nomatch h⟩

/-- What `finishing` finds is the end of a wait, and the rest of the wait
is the step. -/
theorem finishing_ends {s t : Sys} {a : Act} {w : Wait}
    (h : finishing threadJoin s a = some (t, w)) :
    Ends threadJoin s a t w ∧ step threadJoin s a = some (t.finish w) := by
  cases a with
  | fork p thread => cases h
  | exit p status => cases h
  | sched p st => cases h
  | resume w' =>
      simp only [finishing] at h
      split at h
      next hw =>
        cases h
        exact ⟨.resumed hw.1 hw.2, if_pos hw⟩
      next => cases h
  | wait p pid wstatus nohang =>
      have hfin := h
      simp only [finishing] at h
      split at h
      next hlive =>
        cases htarget : waitTarget s.k pid nohang with
        | none =>
            obtain ⟨r, hr, -, -⟩ := waitpidEnter_no_target htarget wstatus
            rw [hr] at h
            cases h
        | some c =>
            obtain ⟨s', hstep, -, hends⟩ :=
              step_wait threadJoin wstatus hlive htarget
            obtain ⟨hend, rfl⟩ := hends t w hfin
            exact ⟨hend, hstep⟩
      next => cases h

theorem step_taken {s s' : Sys} {a : Act}
    (hstep : step threadJoin s a = some s') : Taken threadJoin s a s' := by
  cases a with
  | fork p thread =>
      simp only [step] at hstep
      split at hstep
      next hlive =>
        cases hstep
        rcases doFork_cases s.k p thread with ⟨hk, hcalls⟩ | ⟨hf, hcalls⟩
        · rw [hk, hcalls, List.append_nil]
          exact .idle false rfl
        · rw [hcalls]
          exact .forked hlive rfl hf
      next => cases hstep
  | exit p status =>
      simp only [step] at hstep
      split at hstep
      next hlive =>
        obtain ⟨⟨k', calls⟩, hexit, rfl⟩ := Option.map_eq_some_iff.mp hstep
        obtain ⟨hparent, rfl, rfl⟩ := doExit_eq_some hexit
        exact .exited hlive hparent
      next => cases hstep
  | wait p pid wstatus nohang =>
      simp only [step] at hstep
      split at hstep
      next hlive =>
        cases htarget : waitTarget s.k pid nohang with
        | none =>
            obtain ⟨r, hr, ⟨on, hk⟩, hcalls⟩ :=
              waitpidEnter_no_target htarget wstatus
            rw [hr] at hstep
            cases hstep
            rw [hk, hcalls, List.append_nil]
            exact .idle on htarget
        | some c =>
            obtain ⟨s'', hstep', htaken, -⟩ :=
              step_wait threadJoin wstatus hlive htarget
            simp only [step, if_pos hlive] at hstep'
            obtain rfl := Option.some.inj (hstep'.symm.trans hstep)
            exact htaken
      next => cases hstep
  | resume w =>
      simp only [step] at hstep
      split at hstep
      next hw =>
        cases hstep
        exact .ended (if_pos hw)
      next => cases hstep
  | sched p st =>
      simp only [step] at hstep
      split at hstep
      next hp =>
        cases hstep
        exact .scheduled hp.1 hp.2.1
      next => cases hstep

/-- Everything a step can do while no process is traced. -/
inductive Stepped (s : Sys) : Act → Sys → Prop
  | idle {a : Act} (on : Bool) : target s.k a = none →
      Stepped s a { s with k := s.k.setIrq on }
  | forked {p : Ref} {thread : Tid} {k' : Procs} : Live s.k p →
      Forked s.k k' p →
      Stepped s (.fork p thread) { s with
        k := k'
        trace := s.trace
          ++ [.newRootPgtable s.k.nextRef, .duplicateUserSpace p s.k.nextRef] }
  | exited {p : Ref} {status : BitVec 32} : Live s.k p →
      (s.k.pcb p).parent ≠ none →
      Stepped s (.exit p status) { s with
        k := (s.k.setIrq false).setPcb p fun pcb =>
          { pcb with state := .ZOMBIE, exitStatus := status }
        trace := s.trace ++ [.releaseProcPages p, .threadExit p] }
  | scheduled {p : Ref} {st : ProcState} : Live s.k p → st ≠ .ZOMBIE →
      Stepped s (.sched p st) { s with
        k := s.k.setPcb p fun pcb => { pcb with state := st } }
  | blocked {a : Act} {w : Wait} : target s.k a = some w.child →
      (s.k.pcb w.child).state ≠ .ZOMBIE →
      Stepped s a { s with
        k := s.k.setIrq false, waits := s.waits ++ [w] }
  | reaped {a : Act} {c : Ref} {k' : Procs} : target s.k a = some c →
      Reaped s.k k' c →
      Stepped s a { s with
        k := k', trace := s.trace ++ [.resetRootPgtable c true] }
  | resumed {w : Wait} {k' : Procs} : w ∈ s.waits →
      Reaped s.k k' w.child →
      Stepped s (.resume w) { s with
        k := k'
        waits := s.waits.erase w
        trace := s.trace ++ [.resetRootPgtable w.child true] }

theorem step_stepped {s s' : Sys} {a : Act} (h : NoPtrace s.k)
    (hstep : step threadJoin s a = some s') : Stepped s a s' := by
  cases step_taken threadJoin hstep with
  | idle on ht => exact .idle on ht
  | forked hlive _ hf => exact .forked hlive hf
  | exited hlive hparent => exact .exited hlive hparent
  | scheduled hlive hst => exact .scheduled hlive hst
  | @woken _ _ _ _ c _ _ hreq =>
      rw [mustResume, h c] at hreq
      cases hreq
  | blocked _ ht hz => exact .blocked ht hz
  | @ended _ _ w hfin =>
      cases (finishing_ends threadJoin hfin).1 with
      | @skipped _ _ wstatus _ c _ ht _ _ =>
          obtain ⟨k', hr, heq⟩ := finish_reaped
            (s := { s with k := s.k.setIrq false })
            (w := waitFor s.k c wstatus) (h c)
          rw [heq]
          exact .reaped ht hr.of_setIrq
      | @found _ _ wstatus _ c _ ht _ _ =>
          obtain ⟨k', hr, heq⟩ := join_reaped threadJoin
            (s := { s with k := s.k.setIrq false })
            (w := waitFor s.k c wstatus) (h c)
          have heq' : Sys.finish { s with
              k := joined threadJoin (s.k.setIrq false) c }
              (waitFor s.k c wstatus) = _ := heq
          rw [heq']
          exact .reaped ht hr.of_setIrq
      | resumed hw _ =>
          obtain ⟨k', hr, heq⟩ := join_reaped threadJoin
            (s := { s with waits := s.waits.erase w }) (h w.child)
          have heq' : Sys.finish { s with
              k := joined threadJoin s.k w.child
              waits := s.waits.erase w } w = _ := heq
          rw [heq']
          exact .resumed hw hr

theorem NoPtrace.reaped {k k' : Procs} {c : Ref} (h : NoPtrace k)
    (hr : Reaped k k' c) : NoPtrace k' := by
  intro r
  obtain ⟨t, ht⟩ := hr.pcb r
  rw [ht]
  exact h r

/-- No action of a run starts tracing a process. -/
theorem noPtrace_step {s s' : Sys} {a : Act} (h : NoPtrace s.k)
    (hstep : step threadJoin s a = some s') : NoPtrace s'.k := by
  cases step_stepped threadJoin h hstep with
  | idle on _ => exact h
  | forked _ hf =>
      intro r
      by_cases hr : r = s.k.nextRef
      · exact hr ▸ hf.ptrace
      · exact (hf.others r hr).symm ▸ h r
  | exited _ _ =>
      intro r
      simp only [setPcb_pcb]
      split <;> exact h r
  | scheduled _ _ =>
      intro r
      simp only [setPcb_pcb]
      split <;> exact h r
  | blocked _ _ => exact h
  | reaped _ hr => exact h.reaped hr
  | resumed _ hr => exact h.reaped hr

/-- The process table after `create_root_process`. -/
theorem init_pcb (P : Platform) (r : Ref) :
    ((Sys.init P).k.pcb r).ptracePendingReq = .noRequest
      ∧ ((Sys.init P).k.pcb r).parent = none
      ∧ ((Sys.init P).k.pcb 0).state = .READY
      ∧ ((Sys.init P).k.pcb 0).pid = 1 := by
  refine ⟨?_, ?_, rfl, rfl⟩
  · cases r with
    | zero => rfl
    | succ r => rfl
  · cases r with
    | zero => rfl
    | succ r => rfl

-- ======================================================== the calls one by one

variable {threadJoin}

/-- A wait for `c` without ptrace: it blocks, or `c` is a zombie or in
`WAITING` and reaped at once. -/
theorem wait_cases {s s' : Sys} {p c : Ref} {pid : Pid}
    {wstatus : Option (BitVec 32)} {nohang : Bool} (hno : NoPtrace s.k)
    (ht : waitTarget s.k pid nohang = some c)
    (hstep : step threadJoin s (.wait p pid wstatus nohang) = some s') :
    (∃ w, w.child = c ∧ s' = { s with
        k := s.k.setIrq false, waits := s.waits ++ [w] })
      ∨ ((s.k.pcb c).state = .WAITING ∨ (s.k.pcb c).state = .ZOMBIE)
        ∧ ∃ k', Reaped s.k k' c ∧ s' = { s with
          k := k', trace := s.trace ++ [.resetRootPgtable c true] } := by
  cases step_taken threadJoin hstep with
  | idle on hnone =>
      rw [target, ht] at hnone
      cases hnone
  | @woken _ _ _ _ c' _ _ hreq =>
      rw [mustResume, hno c'] at hreq
      cases hreq
  | @blocked _ _ _ _ c' _ ht' _ =>
      cases ht.symm.trans ht'
      exact Or.inl ⟨_, rfl, rfl⟩
  | @ended _ _ w hfin =>
      right
      cases (finishing_ends threadJoin hfin).1 with
      | @skipped _ _ _ _ c' _ ht' _ hst =>
          cases ht.symm.trans ht'
          obtain ⟨k', hr, heq⟩ := finish_reaped
            (s := { s with k := s.k.setIrq false })
            (w := waitFor s.k c wstatus) (hno c)
          exact ⟨Or.inl hst, k', hr.of_setIrq, heq⟩
      | @found _ _ _ _ c' _ ht' _ hst =>
          cases ht.symm.trans ht'
          obtain ⟨k', hr, heq⟩ := join_reaped threadJoin
            (s := { s with k := s.k.setIrq false })
            (w := waitFor s.k c wstatus) (hno c)
          exact ⟨Or.inr hst, k', hr.of_setIrq, heq⟩

/-- The end of a blocked wait. -/
theorem resume_cases {s s' : Sys} {w : Wait} (hno : NoPtrace s.k)
    (hstep : step threadJoin s (.resume w) = some s') :
    (s.k.pcb w.child).state = .ZOMBIE
      ∧ ∃ k', Reaped s.k k' w.child ∧ s' = { s with
        k := k'
        waits := s.waits.erase w
        trace := s.trace ++ [.resetRootPgtable w.child true] } := by
  simp only [step] at hstep
  split at hstep
  next hw =>
    obtain ⟨k', hr, heq⟩ := join_reaped threadJoin
      (s := { s with waits := s.waits.erase w }) (w := w) (hno w.child)
    exact ⟨hw.2, k', hr, (Option.some.inj hstep).symm.trans heq⟩
  next => cases hstep

/-- An exit or a move of the scheduler changes the state of one process. -/
theorem exit_cases {s s' : Sys} {p : Ref} {status : BitVec 32}
    (hstep : step threadJoin s (.exit p status) = some s') :
    s' = { s with
      k := (s.k.setIrq false).setPcb p fun pcb =>
        { pcb with state := .ZOMBIE, exitStatus := status }
      trace := s.trace ++ [.releaseProcPages p, .threadExit p] } := by
  simp only [step] at hstep
  split at hstep
  next =>
    obtain ⟨⟨k', calls⟩, hexit, rfl⟩ := Option.map_eq_some_iff.mp hstep
    obtain ⟨-, rfl, rfl⟩ := doExit_eq_some hexit
    rfl
  next => cases hstep

theorem sched_cases {s s' : Sys} {p : Ref} {st : ProcState}
    (hstep : step threadJoin s (.sched p st) = some s') :
    st ≠ .ZOMBIE ∧ s' = { s with
      k := s.k.setPcb p fun pcb => { pcb with state := st } } := by
  simp only [step] at hstep
  split at hstep
  next hp => exact ⟨hp.2.1, (Option.some.inj hstep).symm⟩
  next => cases hstep

end SyeLabs.Process
