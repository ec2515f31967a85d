/-
Priorities along a run.

`do_renice` finds a process by its pid and writes the priority of its main
thread. Three things stand between that and "the process runs at the
priority it was last given": another process could answer to the pid,
another process could have the same main thread, and the main thread could
be replaced behind the back of the caller.

# The argument

Pids differ as long as the counter has not wrapped (`Numbered`). A main
thread is made by `user_thread` for one process and is never handed on
(`OwnThreads`): a fork and an exec take a fresh one, and `thread_join` can
only take it away, from a process that is a zombie. So the only way to
lose a priority is an exec that finds its image, which starts over with a
new thread. What priority `user_thread` gives a thread is a parameter; it
may look at the whole state, so a child may inherit it.

What `do_renice` does not check is that there is a main thread: a zombie
that has been waited for stays in the list for the sake of its children,
perhaps without one.
-/
import SyeLabs.Lib.PagedMem
import SyeLabs.Process.Names
import SyeLabs.Process.Pids

namespace SyeLabs.Process

open Lib

-- ================================================================== the system

/-- The process table and the `prio` field of each thread. -/
structure PrioSys where
  sys : Sys
  prio : Tid → BitVec 32

/-- `do_renice`: the priorities it leaves and the value it returns. A
process without a main thread is a null pointer. -/
def doRenice (k : Procs) (prio : Tid → BitVec 32) (pid : Pid)
    (newPrio : BitVec 32) : Option ((Tid → BitVec 32) × BitVec 32) :=
  if newPrio = 0 then some (prio, -1)
  else
    match findProcByPid k pid with
    | some proc => (k.pcb proc).mainThread.map fun thread =>
        (Function.update prio thread newPrio, 0)
    -- a process that is not found is no error
    | none => some (prio, 0)

/-- A call of `do_renice`, or one of the moves. -/
inductive PrioMove
  | renice (pid : Pid) (newPrio : BitVec 32)
  | move (m : Move)

variable (P : Platform) (elfLoadBuffer : CString → Option Elf)
  (threadJoin : Option Tid → Option Tid)
  (userPrio : PrioSys → Move → BitVec 32)

/-- One of them; `userPrio` is the priority of a thread `user_thread` makes
in a move. -/
def prioMove (s : PrioSys) : PrioMove → Option PrioSys
  | .renice pid newPrio =>
      (doRenice s.sys.k s.prio pid newPrio).map fun r =>
        { s with prio := r.1 }
  | .move m =>
      (move P elfLoadBuffer threadJoin s.sys m).map fun sys =>
        { sys := sys
          prio := fun thread =>
            if s.sys.k.nextTid ≤ thread ∧ thread < sys.k.nextTid then
              userPrio s m
            else s.prio thread }

/-- After `create_root_process`. -/
def PrioSys.init (prio : Tid → BitVec 32) : PrioSys where
  sys := Sys.init P
  prio := prio

/-- The priority a list of calls asks for, per pid; a call with zero asks
for nothing. -/
def renices (ms : List PrioMove) : List (Pid × BitVec 32) :=
  ms.filterMap fun
    | .renice pid newPrio =>
        if newPrio = 0 then none else some (pid, newPrio)
    | .move _ => none

/-- Process `r` replaces its image by one that exists. -/
def PrioMove.Loads (r : Ref) : PrioMove → Prop
  | .move (.exec p _ _ filename _ _ _ _) =>
      p = r ∧ (elfLoadBuffer filename).isSome
  | _ => False

-- ================================================================ main threads

/-- Every process has a main thread of its own, or none. -/
structure OwnThreads (k : Procs) : Prop where
  old : ∀ r, r < k.nextRef → ∀ t ∈ (k.pcb r).mainThread, t < k.nextTid
  own : ∀ q r, q < k.nextRef → r < k.nextRef → ∀ t ∈ (k.pcb q).mainThread,
    t ∈ (k.pcb r).mainThread → q = r

/-- What a move does to processes and their main threads; `p` is given a
new one. -/
structure Staffed (k k' : Procs) (p : Option Ref) : Prop where
  list : ∀ r ∈ k'.procList, r ∈ k.procList ∨ r = k.nextRef
  nextRef : k'.nextRef = k.nextRef ∨ k'.nextRef = k.nextRef + 1
    ∧ p = some k.nextRef
  nextTid : k'.nextTid = k.nextTid + p.toList.length
  known : ∀ r ∈ p, r < k'.nextRef
  started : ∀ r ∈ p, (k'.pcb r).mainThread = some k.nextTid
  others : ∀ r, r ∉ p → (k'.pcb r).mainThread = (k.pcb r).mainThread
    ∨ (k.pcb r).state = .ZOMBIE
      ∧ (k'.pcb r).mainThread = threadJoin (k.pcb r).mainThread
  zombie : ∀ r, r < k.nextRef → (k.pcb r).state = .ZOMBIE →
    (k'.pcb r).state = .ZOMBIE

variable {P} {elfLoadBuffer} {threadJoin} {userPrio} {k k' : Procs}

/-- A move after which every process has its main thread, but for a zombie
that has been joined. -/
theorem Staffed.kept (hlist : k'.procList ⊆ k.procList)
    (href : k'.nextRef = k.nextRef) (htid : k'.nextTid = k.nextTid)
    (hthread : ∀ r, (k'.pcb r).mainThread = (k.pcb r).mainThread
      ∨ (k.pcb r).state = .ZOMBIE
        ∧ (k'.pcb r).mainThread = threadJoin (k.pcb r).mainThread)
    (hzombie : ∀ r, (k.pcb r).state = .ZOMBIE → (k'.pcb r).state = .ZOMBIE) :
    Staffed threadJoin k k' none where
  list := fun r hr => Or.inl (hlist hr)
  nextRef := Or.inl href
  nextTid := htid
  known := fun r hr => by cases hr
  started := fun r hr => by cases hr
  others := fun r _ => hthread r
  zombie := fun r _ hz => hzombie r hz

theorem OwnThreads.staffed {p : Option Ref}
    (hjoin : ∀ o, threadJoin o = o ∨ threadJoin o = none) (h : OwnThreads k)
    (hs : Staffed threadJoin k k' p) : OwnThreads k' := by
  have hle : k.nextTid ≤ k'.nextTid := hs.nextTid ▸ Nat.le_add_right _ _
  -- a process has the new thread or one it had before
  have hcases : ∀ r, r < k'.nextRef → ∀ t ∈ (k'.pcb r).mainThread,
      (r ∈ p ∧ t = k.nextTid)
        ∨ (r < k.nextRef ∧ t ∈ (k.pcb r).mainThread) := by
    intro r hr t ht
    by_cases hrp : r ∈ p
    · rw [hs.started r hrp] at ht
      exact Or.inl ⟨hrp, (Option.some.inj ht).symm⟩
    · have hr' : r < k.nextRef := by
        rcases hs.nextRef with href | ⟨href, rfl⟩
        · exact href ▸ hr
        · have hne : r ≠ k.nextRef := fun heq => hrp (heq ▸ rfl)
          rw [href] at hr
          exact Nat.lt_of_le_of_ne (Nat.le_of_lt_succ hr) hne
      rcases hs.others r hrp with heq | ⟨-, hjoined⟩
      · exact Or.inr ⟨hr', heq ▸ ht⟩
      · rcases hjoin (k.pcb r).mainThread with hsame | hnone
        · exact Or.inr ⟨hr', hsame ▸ hjoined ▸ ht⟩
        · rw [hjoined, hnone] at ht
          cases ht
  constructor
  · intro r hr t ht
    rcases hcases r hr t ht with ⟨hrp, rfl⟩ | ⟨hr', ht'⟩
    · obtain rfl := Option.mem_def.mp hrp
      rw [hs.nextTid]
      exact Nat.lt_succ_self _
    · exact (h.old r hr' t ht').trans_le hle
  · intro q r hq hr t htq htr
    rcases hcases q hq t htq with ⟨hqp, hnew⟩ | ⟨hq', htq'⟩
    · rcases hcases r hr t htr with ⟨hrp, -⟩ | ⟨hr', htr'⟩
      · exact Option.mem_unique hqp hrp
      · exact absurd (h.old r hr' t htr') (hnew ▸ Nat.lt_irrefl _)
    · rcases hcases r hr t htr with ⟨-, hnew⟩ | ⟨hr', htr'⟩
      · exact absurd (h.old q hq' t htq') (hnew ▸ Nat.lt_irrefl _)
      · exact h.own q r hq' hr' t htq' htr'

-- ============================================================ what a move does

/-- The end of a wait leaves the threads as `thread_join` left them. -/
theorem finish_threads {s : Sys} {w : Wait}
    (h : (s.k.pcb w.child).ptracePendingReq = .noRequest) :
    (∀ r, ((s.finish w).k.pcb r).mainThread = (s.k.pcb r).mainThread)
      ∧ (s.finish w).k.nextTid = s.k.nextTid := by
  obtain ⟨hk, -⟩ := waitpidFinish_of_noRequest h
  have hfin : (s.finish w).k = (removeIfChildless s.k w.child).setIrq w.flags :=
    hk
  rw [hfin]
  unfold removeIfChildless
  split <;> exact ⟨fun _ => rfl, rfl⟩

/-- `thread_join` has to do with the main thread of a zombie alone. -/
theorem joined_threads {s : Sys} {c : Ref}
    (hz : (s.k.pcb c).state = .ZOMBIE) (r : Ref) :
    ((joined threadJoin s.k c).pcb r).mainThread = (s.k.pcb r).mainThread
      ∨ (s.k.pcb r).state = .ZOMBIE
        ∧ ((joined threadJoin s.k c).pcb r).mainThread
          = threadJoin (s.k.pcb r).mainThread := by
  rw [joined, setPcb_pcb]
  split
  next hr =>
    subst hr
    exact Or.inr ⟨hz, rfl⟩
  next => exact Or.inl rfl

/-- Only a fork starts a thread. -/
theorem step_threads {s s' : Sys} {a : Act} (hno : NoPtrace s.k)
    (hfork : ∀ p thread, a ≠ .fork p thread)
    (hstep : step threadJoin s a = some s') :
    (∀ r, (s'.k.pcb r).mainThread = (s.k.pcb r).mainThread
      ∨ (s.k.pcb r).state = .ZOMBIE
        ∧ (s'.k.pcb r).mainThread = threadJoin (s.k.pcb r).mainThread)
      ∧ s'.k.nextTid = s.k.nextTid := by
  -- a wait that ends, from the state `thread_join` left
  have hended : ∀ {t : Sys} {w : Wait},
      (t.k.pcb w.child).ptracePendingReq = .noRequest →
      (∀ r, (t.k.pcb r).mainThread = (s.k.pcb r).mainThread
        ∨ (s.k.pcb r).state = .ZOMBIE
          ∧ (t.k.pcb r).mainThread = threadJoin (s.k.pcb r).mainThread) →
      t.k.nextTid = s.k.nextTid →
      (∀ r, ((t.finish w).k.pcb r).mainThread = (s.k.pcb r).mainThread
        ∨ (s.k.pcb r).state = .ZOMBIE
          ∧ ((t.finish w).k.pcb r).mainThread
            = threadJoin (s.k.pcb r).mainThread)
        ∧ (t.finish w).k.nextTid = s.k.nextTid := by
    intro t w hreq hthread htid
    obtain ⟨hsame, hsame'⟩ := finish_threads hreq
    refine ⟨fun r => ?_, hsame'.trans htid⟩
    rw [hsame r]
    exact hthread r
  have hjoined : ∀ k c, (k.pcb c).ptracePendingReq = .noRequest →
      ((joined threadJoin k c).pcb c).ptracePendingReq = .noRequest := by
    intro k c hc
    rw [joined, setPcb_pcb, if_pos rfl]
    exact hc
  cases step_taken threadJoin hstep with
  | idle on _ => exact ⟨fun _ => Or.inl rfl, rfl⟩
  | forked _ _ _ => exact absurd rfl (hfork _ _)
  | exited _ _ =>
      refine ⟨fun r => Or.inl ?_, rfl⟩
      rw [setPcb_pcb]
      split <;> rfl
  | scheduled _ _ =>
      refine ⟨fun r => Or.inl ?_, rfl⟩
      rw [setPcb_pcb]
      split <;> rfl
  | @woken _ _ _ _ c _ _ hreq =>
      rw [mustResume, hno c] at hreq
      cases hreq
  | blocked _ _ _ => exact ⟨fun _ => Or.inl rfl, rfl⟩
  | @ended _ _ w hfin =>
      cases (finishing_ends threadJoin hfin).1 with
      | @skipped _ _ wstatus _ c _ _ _ _ =>
          exact hended (t := { s with k := s.k.setIrq false })
            (w := waitFor s.k c wstatus) (hno c) (fun _ => Or.inl rfl) rfl
      | @found _ _ wstatus _ c _ _ _ hz =>
          exact hended
            (t := { s with k := joined threadJoin (s.k.setIrq false) c })
            (w := waitFor s.k c wstatus)
            (hjoined (s.k.setIrq false) c (hno c))
            (joined_threads (s := { s with k := s.k.setIrq false }) hz) rfl
      | resumed _ hz =>
          exact hended
            (t := { s with
              k := joined threadJoin s.k w.child, waits := s.waits.erase w })
            (hjoined s.k w.child (hno w.child)) (joined_threads hz) rfl

/-- A fork: there is a child, or nothing has happened. -/
theorem fork_staffed {s s' : Sys} {p : Ref} {thread : Tid}
    (hstep : step threadJoin s (.fork p thread) = some s') :
    ∃ q, Staffed threadJoin s.k s'.k q ∧ ∀ r ∈ q, r = s.k.nextRef := by
  simp only [step] at hstep
  split at hstep
  next =>
    cases hstep
    by_cases hmain : (s.k.pcb p).mainThread = some thread
    · obtain ⟨hf, htid, -⟩ := doFork_main hmain
      obtain ⟨name, hchild, -⟩ := doFork_child hmain
      refine ⟨some s.k.nextRef, ?_, fun r hr => (Option.some.inj hr).symm⟩
      constructor
      case list =>
        intro r hr
        have hr' : r ∈ s.k.procList ++ [s.k.nextRef] := hf.procList ▸ hr
        rwa [List.mem_append, List.mem_singleton] at hr'
      case nextRef => exact Or.inr ⟨hf.nextRef, rfl⟩
      case nextTid => exact htid
      case known =>
        intro r hr
        cases hr
        exact hf.nextRef.symm ▸ Nat.lt_succ_self _
      case started =>
        intro r hr
        cases hr
        exact congrArg Pcb.mainThread hchild
      case others =>
        intro r hr
        have hne : r ≠ s.k.nextRef := fun heq => hr (heq ▸ rfl)
        exact Or.inl (congrArg Pcb.mainThread (hf.others r hne))
      case zombie =>
        intro r hr hz
        exact (congrArg Pcb.state (hf.others r (Nat.ne_of_lt hr))).trans hz
    · refine ⟨none, ?_, fun r hr => by cases hr⟩
      rw [doFork_of_not_main hmain]
      exact .kept (List.Subset.refl _) rfl rfl (fun _ => Or.inl rfl)
        fun _ hz => hz
  next => cases hstep

/-- A step on the process table. -/
theorem step_staffed {s s' : Sys} {a : Act} (hno : NoPtrace s.k)
    (hstep : step threadJoin s a = some s') :
    ∃ p, Staffed threadJoin s.k s'.k p ∧ ∀ r ∈ p, r = s.k.nextRef := by
  by_cases hfork : ∃ p thread, a = .fork p thread
  · obtain ⟨p, thread, rfl⟩ := hfork
    exact fork_staffed hstep
  · obtain ⟨hthread, htid⟩ := step_threads hno
      (fun p thread heq => hfork ⟨p, thread, heq⟩) hstep
    refine ⟨none, ?_, fun r hr => by cases hr⟩
    have hreaped : ∀ {c}, Reaped s.k s'.k c →
        Staffed threadJoin s.k s'.k none := by
      intro c hc
      refine .kept ?_ hc.nextRef htid hthread fun r hz => ?_
      · rw [hc.procList]
        exact foldl_reap_subset [c]
      · obtain ⟨t, ht⟩ := hc.pcb r
        rw [ht]
        exact hz
    cases step_stepped threadJoin hno hstep with
    | idle on _ =>
        exact .kept (List.Subset.refl _) rfl rfl hthread fun _ hz => hz
    | forked _ _ => exact absurd ⟨_, _, rfl⟩ hfork
    | exited _ _ =>
        refine .kept (List.Subset.refl _) rfl rfl hthread fun r hz => ?_
        rw [setPcb_pcb]
        split
        · rfl
        · exact hz
    | @scheduled p st hlive _ =>
        refine .kept (List.Subset.refl _) rfl rfl hthread fun r hz => ?_
        have hne : r ≠ p := fun hr => hlive.2 (hr ▸ hz)
        rw [setPcb_pcb, if_neg hne]
        exact hz
    | blocked _ _ =>
        exact .kept (List.Subset.refl _) rfl rfl hthread fun _ hz => hz
    | reaped _ hc => exact hreaped hc
    | resumed _ hc => exact hreaped hc

/-- An exec that replaces the image makes one thread and no process. -/
theorem doExecve_counters {args : Nat} {p : Ref} {cur : Tid}
    {joinQueue : List Ref} {filename : CString}
    {argv envp : Option (List CString)} {m m' : ByteMem} {calls : List Call}
    (h : doExecve elfLoadBuffer P args k p cur joinQueue filename argv envp m
      = .replaced k' calls m') :
    k'.procList = k.procList ∧ k'.pidCurrent = k.pidCurrent
      ∧ k'.nextTid = k.nextTid + 1 := by
  unfold doExecve at h
  split at h
  · cases h
  · cases himage : elfLoadBuffer filename with
    | none =>
        simp only [himage] at h
        cases h
    | some elf =>
        simp only [himage, setupProcImageReplace_ret] at h
        rw [if_neg (by decide)] at h
        split at h
        · cases h
          simp only [setupProcImageReplace, Nat.not_lt_zero, if_false]
          exact ⟨rfl, rfl, rfl⟩
        · cases h

/-- A new image has a new main thread; an exec that fails changes no
thread. -/
theorem exec_staffed {s s' : Sys} {p : Ref} {cur : Tid}
    {joinQueue : List Ref} {filename : CString}
    {argv envp : Option (List CString)} {args : Nat} {m : ByteMem}
    (hmove : move P elfLoadBuffer threadJoin s
      (.exec p cur joinQueue filename argv envp args m) = some s') :
    ∃ q, Staffed threadJoin s.k s'.k q
      ∧ ∀ r ∈ q, p = r ∧ (elfLoadBuffer filename).isSome := by
  simp only [move] at hmove
  split at hmove
  next hlive =>
    split at hmove
    next o ho =>
      cases hmove
      obtain ⟨hk, -⟩ := doExecve_returned elfLoadBuffer ho
      refine ⟨none, ?_, fun r hr => by cases hr⟩
      rw [hk]
      refine .kept (List.Subset.refl _) rfl rfl (fun r => Or.inl ?_)
        fun r hz => ?_
      · rw [setPcb_pcb]
        split <;> rfl
      · rw [setPcb_pcb]
        split <;> exact hz
    next => cases hmove
    next k calls mem ho =>
      cases hmove
      obtain ⟨elf, helf, href, hpcb, -⟩ := doExecve_replaced elfLoadBuffer ho
      obtain ⟨hlist, -, htid⟩ := doExecve_counters ho
      refine ⟨some p, ?_, fun r hr =>
        ⟨Option.some.inj hr, Option.isSome_of_mem helf⟩⟩
      constructor
      case list => exact fun r hr => Or.inl (hlist ▸ hr)
      case nextRef => exact Or.inl href
      case nextTid => exact htid
      case known =>
        intro r hr
        cases hr
        exact href.symm ▸ hlive.1
      case started =>
        intro r hr
        cases hr
        dsimp only
        rw [hpcb, if_pos rfl]
      case others =>
        intro r hr
        have hne : r ≠ p := fun heq => hr (heq ▸ rfl)
        dsimp only
        rw [hpcb, if_neg hne]
        exact Or.inl rfl
      case zombie =>
        intro r _ hz
        dsimp only
        rw [hpcb]
        split
        · exact hz
        · exact hz
  next => cases hmove

/-- Every move: a new thread is for a child or for a new image. -/
theorem move_staffed {s s' : Sys} {m : Move} (hno : NoPtrace s.k)
    (hmove : move P elfLoadBuffer threadJoin s m = some s') :
    ∃ p, Staffed threadJoin s.k s'.k p
      ∧ ∀ r ∈ p, r = s.k.nextRef
        ∨ PrioMove.Loads elfLoadBuffer r (.move m) := by
  cases m with
  | exec p cur joinQueue filename argv envp args m =>
      obtain ⟨q, hs, hq⟩ := exec_staffed hmove
      exact ⟨q, hs, fun r hr => Or.inr (hq r hr)⟩
  | fork2 p thread =>
      have hstep : step threadJoin s (.fork p thread) = some s' := hmove
      obtain ⟨q, hs, hq⟩ := fork_staffed hstep
      exact ⟨q, hs, fun r hr => Or.inl (hq r hr)⟩
  | act a =>
      obtain ⟨q, hs, hq⟩ := step_staffed hno hmove
      exact ⟨q, hs, fun r hr => Or.inl (hq r hr)⟩

theorem numbered_move {s s' : Sys} {m : Move} (hno : NoPtrace s.k)
    (h : Numbered s.k)
    (hmove : move P elfLoadBuffer threadJoin s m = some s') :
    Numbered s'.k := by
  cases m with
  | exec p cur joinQueue filename argv envp args m =>
      simp only [move] at hmove
      split at hmove
      next =>
        split at hmove
        next o ho =>
          cases hmove
          obtain ⟨hk, -⟩ := doExecve_returned elfLoadBuffer ho
          refine h.same ?_ ?_ ?_ ?_
          · rw [hk]
            exact List.Subset.refl _
          · rw [hk]
            rfl
          · rw [hk]
            rfl
          · intro r
            rw [hk]
            dsimp only
            rw [setPcb_pcb]
            split <;> rfl
        next => cases hmove
        next k calls mem ho =>
          cases hmove
          obtain ⟨elf, -, href, hpcb, -⟩ := doExecve_replaced elfLoadBuffer ho
          obtain ⟨hlist, hcur, -⟩ := doExecve_counters ho
          refine h.same (fun r hr => hlist ▸ hr) href hcur fun r => ?_
          dsimp only
          rw [hpcb]
          split <;> rfl
      next => cases hmove
  | fork2 p thread =>
      have hstep : step threadJoin s (.fork p thread) = some s' := hmove
      exact (numbered_step threadJoin ⟨hno, h⟩ hstep).2
  | act a => exact (numbered_step threadJoin ⟨hno, h⟩ hmove).2

-- ==================================================================== the runs

/-- Pids and main threads are in order, and nobody is traced. -/
structure PrioInv (k : Procs) : Prop where
  noPtrace : NoPtrace k
  numbered : Numbered k
  threads : OwnThreads k

theorem prioInv_init (P : Platform) : PrioInv (Sys.init P).k := by
  refine ⟨fun r => (init_pcb P r).1, numbered_init P, ?_, ?_⟩
  · intro r hr t ht
    obtain rfl : r = 0 := Nat.lt_one_iff.mp hr
    cases ht
    exact Nat.zero_lt_one
  · intro q r hq hr _ _ _
    exact (Nat.lt_one_iff.mp hq).trans (Nat.lt_one_iff.mp hr).symm

/-- A renice leaves the process table alone, and a move is one. -/
theorem prioMove_cases {s s' : PrioSys} {a : PrioMove}
    (h : prioMove P elfLoadBuffer threadJoin userPrio s a = some s') :
    s'.sys = s.sys ∨ ∃ m, a = .move m
      ∧ move P elfLoadBuffer threadJoin s.sys m = some s'.sys := by
  cases a with
  | renice pid newPrio =>
      obtain ⟨r, -, rfl⟩ := Option.map_eq_some_iff.mp h
      exact Or.inl rfl
  | move m =>
      obtain ⟨sys, hmove, rfl⟩ := Option.map_eq_some_iff.mp h
      exact Or.inr ⟨m, rfl, hmove⟩

/-- The invariant stays, nobody is forgotten, and neither the dead nor the
removed come back. -/
theorem prioInv_move {s s' : PrioSys} {a : PrioMove}
    (hjoin : ∀ o, threadJoin o = o ∨ threadJoin o = none)
    (hs : PrioInv s.sys.k)
    (h : prioMove P elfLoadBuffer threadJoin userPrio s a = some s') :
    PrioInv s'.sys.k ∧ s.sys.k.nextRef ≤ s'.sys.k.nextRef
      ∧ ∀ r, r < s.sys.k.nextRef →
        (Live s'.sys.k r → Live s.sys.k r)
          ∧ (r ∈ s'.sys.k.procList → r ∈ s.sys.k.procList) := by
  rcases prioMove_cases h with heq | ⟨m, rfl, hmove⟩
  · rw [heq]
    exact ⟨hs, Nat.le_refl _, fun _ _ => ⟨fun hr => hr, fun hr => hr⟩⟩
  · obtain ⟨p, hp, hnew⟩ := move_staffed hs.noPtrace hmove
    have hle : s.sys.k.nextRef ≤ s'.sys.k.nextRef := by
      rcases hp.nextRef with href | ⟨href, -⟩
      · exact href.ge
      · exact href ▸ Nat.le_succ _
    refine ⟨⟨noPtrace_move P elfLoadBuffer threadJoin hs.noPtrace hmove,
      numbered_move hs.noPtrace hs.numbered hmove,
      hs.threads.staffed hjoin hp⟩, hle, fun r hr => ?_⟩
    refine ⟨fun hlive => ?_, fun hin => ?_⟩
    · exact ⟨hr, fun hz => hlive.2 (hp.zombie r hr hz)⟩
    · rcases hp.list r hin with hin' | rfl
      · exact hin'
      · exact absurd hr (Nat.lt_irrefl _)

theorem renices_cons (a : PrioMove) (as : List PrioMove) :
    renices (a :: as) = renices [a] ++ renices as :=
  List.filterMap_append (l := [a])

/-- One step that loads no other image into the process: its main thread
stays, with the priority a renice of its pid asks for, if it is one. -/
theorem prio_step {s s' : PrioSys} {a : PrioMove} {r : Ref}
    (hs : PrioInv s.sys.k)
    (h : prioMove P elfLoadBuffer threadJoin userPrio s a = some s')
    (hfew : s.sys.k.nextRef < 4294967296)
    (hlive : Live s.sys.k r) (hlisted : r ∈ s.sys.k.procList)
    (hexec : ¬ a.Loads elfLoadBuffer r) :
    (s'.sys.k.pcb r).mainThread = (s.sys.k.pcb r).mainThread
      ∧ ∀ t ∈ (s.sys.k.pcb r).mainThread, s'.prio t
        = (lastWrite (renices [a]) (s.sys.k.pcb r).pid).getD (s.prio t) := by
  cases a with
  | move m =>
      obtain ⟨sys, hmove, rfl⟩ := Option.map_eq_some_iff.mp h
      obtain ⟨p, hp, hnew⟩ := move_staffed hs.noPtrace hmove
      have hrp : r ∉ p := by
        intro hr
        rcases hnew r hr with rfl | hexec'
        · exact Nat.lt_irrefl _ hlive.1
        · exact hexec hexec'
      refine ⟨?_, fun t ht => ?_⟩
      · rcases hp.others r hrp with hsame | ⟨hz, -⟩
        · exact hsame
        · exact absurd hz hlive.2
      · have hlt := hs.threads.old r hlive.1 t ht
        exact if_neg fun hfresh => Nat.not_lt.mpr hfresh.1 hlt
  | renice pid newPrio =>
      obtain ⟨⟨prio, ret⟩, hren, rfl⟩ := Option.map_eq_some_iff.mp h
      refine ⟨rfl, fun t ht => ?_⟩
      unfold doRenice at hren
      split at hren
      next hzero =>
        cases hren
        simp only [renices, List.filterMap_cons, hzero, if_true]
        rfl
      next hzero =>
        have hwrites : renices [.renice pid newPrio] = [(pid, newPrio)] := by
          simp only [renices, List.filterMap_cons, hzero, if_false]
          rfl
        rw [hwrites, lastWrite, lastWrite_nil, Option.none_or]
        cases hfind : findProcByPid s.sys.k pid with
        | none =>
            rw [hfind] at hren
            cases hren
            have hne : pid ≠ (s.sys.k.pcb r).pid := fun heq =>
              of_decide_eq_false
                (Bool.eq_false_iff.mpr
                  (List.find?_eq_none.mp hfind r hlisted)) heq.symm
            rw [if_neg hne]
            rfl
        | some q =>
            rw [hfind] at hren
            obtain ⟨u, hu, heq⟩ := Option.map_eq_some_iff.mp hren
            cases heq
            have hpid : (s.sys.k.pcb q).pid = pid := by
              unfold findProcByPid at hfind
              simpa using List.find?_some hfind
            have hq : q < s.sys.k.nextRef :=
              hs.numbered.old q (List.mem_of_find?_eq_some hfind)
            by_cases hqr : q = r
            · subst hqr
              obtain rfl := Option.mem_unique ht hu
              rw [if_pos hpid.symm]
              exact Function.update_self _ _ _
            · -- another pid, and another main thread
              have hne : pid ≠ (s.sys.k.pcb r).pid := by
                rw [← hpid, hs.numbered.pid q hq,
                  hs.numbered.pid r hlive.1]
                intro heq
                have hnat := congrArg BitVec.toNat heq
                rw [BitVec.toNat_ofNat, BitVec.toNat_ofNat,
                  Nat.mod_eq_of_lt (Nat.lt_of_le_of_lt hq hfew),
                  Nat.mod_eq_of_lt (Nat.lt_of_le_of_lt hlive.1 hfew)]
                  at hnat
                exact hqr (Nat.succ.inj hnat)
              have htu : t ≠ u := fun heq =>
                hqr (hs.threads.own q r hq hlive.1 u hu (heq ▸ ht))
              rw [if_neg hne]
              exact Function.update_of_ne htu _ _

/-- A run in which the process neither dies nor leaves the list nor
replaces its image. -/
theorem prio_run {s s' : PrioSys} {as : List PrioMove} {r : Ref}
    (hjoin : ∀ o, threadJoin o = o ∨ threadJoin o = none)
    (hs : PrioInv s.sys.k)
    (h : run (prioMove P elfLoadBuffer threadJoin userPrio) s as
      = some s')
    (hr : r < s.sys.k.nextRef) (hfew : s'.sys.k.nextRef < 4294967296)
    (hlive : Live s'.sys.k r) (hlisted : r ∈ s'.sys.k.procList)
    (hexec : ∀ a ∈ as, ¬ a.Loads elfLoadBuffer r) :
    (Live s.sys.k r ∧ r ∈ s.sys.k.procList
      ∧ s.sys.k.nextRef ≤ s'.sys.k.nextRef)
    ∧ (s'.sys.k.pcb r).mainThread = (s.sys.k.pcb r).mainThread
    ∧ ∀ t ∈ (s.sys.k.pcb r).mainThread, s'.prio t
      = (lastWrite (renices as) (s.sys.k.pcb r).pid).getD (s.prio t) := by
  induction as generalizing s with
  | nil =>
      cases h
      exact ⟨⟨hlive, hlisted, Nat.le_refl _⟩, rfl, fun _ _ => rfl⟩
  | cons a as ih =>
      obtain ⟨s₁, ha, hrest⟩ := run_cons_iff.mp h
      obtain ⟨hexec₁, hexec⟩ := List.forall_mem_cons.mp hexec
      obtain ⟨hs₁, hle, hback⟩ := prioInv_move hjoin hs ha
      obtain ⟨⟨hlive₁, hin₁, hle₁⟩, hthread₁, hprio₁⟩ :=
        ih hs₁ hrest (hr.trans_le hle) hexec
      have hlive₀ := (hback r hr).1 hlive₁
      have hin₀ := (hback r hr).2 hin₁
      obtain ⟨hthread, hprio⟩ := prio_step hs ha
        ((hle.trans hle₁).trans_lt hfew) hlive₀ hin₀ hexec₁
      have hpid : (s₁.sys.k.pcb r).pid = (s.sys.k.pcb r).pid :=
        (hs₁.numbered.pid r (hr.trans_le hle)).trans
          (hs.numbered.pid r hr).symm
      refine ⟨⟨hlive₀, hin₀, hle.trans hle₁⟩, hthread₁.trans hthread,
        fun t ht => ?_⟩
      rw [hprio₁ t (hthread ▸ ht), hprio t ht, hpid, renices_cons a as,
        lastWrite_append, Option.getD_or]

-- =============================================================== the guarantee

variable (P elfLoadBuffer threadJoin userPrio)

/-- The main thread of a process has the priority the last `do_renice` for
its pid asked for since the fork or the exec that started it, or the one
it was started with: in every run, whatever is forked, executed and
reaped meanwhile and whoever else is reniced, as long as the process is
alive and listed and keeps its image. An exec that finds no image starts
nothing over. -/
theorem renice_last (prio : Tid → BitVec 32)
    (before after : List PrioMove) (m : Move) (s s₁ s' : PrioSys) (r : Ref)
    (hjoin : ∀ o, threadJoin o = o ∨ threadJoin o = none)
    (h : run (prioMove P elfLoadBuffer threadJoin userPrio)
      (PrioSys.init P prio) before = some s)
    (hm : prioMove P elfLoadBuffer threadJoin userPrio s (.move m)
      = some s₁)
    (hborn : r < s₁.sys.k.nextRef)
    (hstart : (s₁.sys.k.pcb r).mainThread = some s.sys.k.nextTid)
    (h' : run (prioMove P elfLoadBuffer threadJoin userPrio) s₁ after
      = some s')
    (hfew : s'.sys.k.nextRef < 4294967296)
    (hlive : Live s'.sys.k r) (hlisted : r ∈ s'.sys.k.procList)
    (hexec : ∀ a ∈ after, ¬ a.Loads elfLoadBuffer r) :
    (s'.sys.k.pcb r).mainThread = some s.sys.k.nextTid
      ∧ s'.prio s.sys.k.nextTid
        = (lastWrite (renices after) (s₁.sys.k.pcb r).pid).getD
          (userPrio s m) := by
  have hs : PrioInv s.sys.k := run_inv (I := fun s : PrioSys => PrioInv s.sys.k)
    (fun _ _ _ hs ha => (prioInv_move hjoin hs ha).1) (prioInv_init P) h
  obtain ⟨hs₁, -, -⟩ := prioInv_move hjoin hs hm
  obtain ⟨-, hthread, hprio⟩ :=
    prio_run hjoin hs₁ h' hborn hfew hlive hlisted hexec
  refine ⟨hthread.trans hstart, ?_⟩
  have hnew : s₁.prio s.sys.k.nextTid = userPrio s m := by
    have hlt := hs₁.threads.old r hborn _ hstart
    obtain ⟨sys, -, rfl⟩ := Option.map_eq_some_iff.mp hm
    exact if_pos ⟨Nat.le_refl _, hlt⟩
  rw [hprio _ hstart, hnew]

/-- A child inherits the priority of its parent, and another image starts
at 10. -/
def inheritPrio (s : PrioSys) (m : Move) : BitVec 32 :=
  (m.forks.map fun f => s.prio f.2).getD 10

/-- A child is given priority 5 and then none, and its parent another; in
between the child finds no image to execute. -/
theorem renice_last_child :
    ∃ s₁ s', run (prioMove .sample (fun _ => none) (fun _ => none)
          inheritPrio)
        (PrioSys.init .sample fun _ => 10) [.move (.act (.fork 0 0))]
        = some s₁
      ∧ run (prioMove .sample (fun _ => none) (fun _ => none) inheritPrio) s₁
        [.renice 2 5, .move (.exec 1 1 [] nameLs none none 0 fun _ => 0),
          .renice 1 7, .renice 2 0, .move (.act (.fork 0 0))]
        = some s'
      ∧ (s'.sys.k.pcb 1).mainThread = some 1 ∧ s'.prio 1 = 5 := by
  have hret : ∃ s₁ s', prioMove .sample (fun _ => none) (fun _ => none)
        inheritPrio (PrioSys.init .sample fun _ => 10)
        (.move (.act (.fork 0 0))) = some s₁
      ∧ run (prioMove .sample (fun _ => none) (fun _ => none) inheritPrio) s₁
        [.renice 2 5, .move (.exec 1 1 [] nameLs none none 0 fun _ => 0),
          .renice 1 7, .renice 2 0, .move (.act (.fork 0 0))]
        = some s'
      ∧ 1 < s₁.sys.k.nextRef ∧ (s₁.sys.k.pcb 1).mainThread = some 1
      ∧ (s₁.sys.k.pcb 1).pid = 2 ∧ s'.sys.k.nextRef < 4294967296
      ∧ Live s'.sys.k 1 ∧ 1 ∈ s'.sys.k.procList :=
    ⟨_, _, rfl, rfl, by decide, rfl, rfl, by decide, by decide, by decide⟩
  obtain ⟨s₁, s', hm, hs', hborn, hstart, hpid, hfew, hlive, hin⟩ := hret
  obtain ⟨hthread, hprio⟩ := renice_last .sample (fun _ => none)
    (fun _ => none) inheritPrio (fun _ => 10) [] _ (.act (.fork 0 0))
    (PrioSys.init .sample fun _ => 10) s₁ s' 1 (fun _ => Or.inr rfl) rfl hm
    hborn hstart hs' hfew hlive hin (by simp [PrioMove.Loads])
  refine ⟨s₁, s', run_cons_iff.mpr ⟨s₁, hm, rfl⟩, hs', hthread,
    hprio.trans ?_⟩
  rw [hpid]
  rfl

end SyeLabs.Process
