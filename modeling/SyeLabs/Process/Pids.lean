/-
Process identifiers along a run.

`pid_current` counts the creations from 1 on, so the pid of a process is
one more than its rank, modulo 2^32 (`Numbered`). As long as the counter
has not wrapped, a new pid is therefore nobody's, whoever has been
removed in the meantime.

The counter is unsigned and the PCB field and the return value are
signed: from 2^31 on `do_fork` returns a negative number for a fork that
succeeded (`fork_pid_iff`).
-/
import SyeLabs.Process.Run

namespace SyeLabs.Process

open Lib

variable (threadJoin : Option Tid → Option Tid)

/-- Processes are numbered in the order of their creation. -/
structure Numbered (k : Procs) : Prop where
  pidCurrent : k.pidCurrent = BitVec.ofNat 32 (k.nextRef + 1)
  pid : ∀ r, r < k.nextRef → (k.pcb r).pid = BitVec.ofNat 32 (r + 1)
  old : ∀ r ∈ k.procList, r < k.nextRef

theorem numbered_init (P : Platform) : Numbered (Sys.init P).k where
  pidCurrent := rfl
  pid := by
    intro r hr
    have hr' : r = 0 := Nat.lt_one_iff.mp hr
    subst hr'
    rfl
  old := by
    intro r hr
    rw [List.mem_singleton.mp hr]
    exact Nat.one_pos

/-- Only a creation gives out a pid. -/
theorem Numbered.same {k k' : Procs} (h : Numbered k)
    (hlist : k'.procList ⊆ k.procList) (href : k'.nextRef = k.nextRef)
    (hcur : k'.pidCurrent = k.pidCurrent)
    (hpid : ∀ r, (k'.pcb r).pid = (k.pcb r).pid) : Numbered k' where
  pidCurrent := by rw [hcur, href, h.pidCurrent]
  pid := fun r hr => (hpid r).trans (h.pid r (href ▸ hr))
  old := fun r hr => href ▸ h.old r (hlist hr)

theorem Numbered.forked {k k' : Procs} {p : Ref} (h : Numbered k)
    (hf : Forked k k' p) : Numbered k' where
  pidCurrent := by
    rw [hf.pidCurrent, hf.nextRef, h.pidCurrent]
    exact (BitVec.ofNat_add _ 1).symm
  pid := by
    intro r hr
    by_cases hnew : r = k.nextRef
    · rw [hnew]
      exact hf.pid.trans h.pidCurrent
    · have hr' : r < k.nextRef + 1 := hf.nextRef ▸ hr
      rw [hf.others r hnew]
      exact h.pid r (Nat.lt_of_le_of_ne (Nat.lt_succ_iff.mp hr') hnew)
  old := by
    intro r hr
    rw [hf.procList, List.mem_append, List.mem_singleton] at hr
    rw [hf.nextRef]
    rcases hr with hr | rfl
    · exact Nat.lt_succ_of_lt (h.old r hr)
    · exact Nat.lt_succ_self _

theorem Numbered.reaped {k k' : Procs} {c : Ref} (h : Numbered k)
    (hr : Reaped k k' c) : Numbered k' := by
  apply h.same _ hr.nextRef hr.pidCurrent
  · intro r
    obtain ⟨t, ht⟩ := hr.pcb r
    rw [ht]
  · intro r hin
    rw [hr.procList] at hin
    exact foldl_reap_subset [c] hin

theorem numbered_step {s s' : Sys} {a : Act}
    (h : NoPtrace s.k ∧ Numbered s.k)
    (hstep : step threadJoin s a = some s') :
    NoPtrace s'.k ∧ Numbered s'.k := by
  obtain ⟨hno, hn⟩ := h
  refine ⟨noPtrace_step threadJoin hno hstep, ?_⟩
  cases step_stepped threadJoin hno hstep with
  | idle on _ => exact hn.same (List.Subset.refl _) rfl rfl fun _ => rfl
  | forked _ hf => exact hn.forked hf
  | exited _ _ =>
      refine hn.same (List.Subset.refl _) rfl rfl fun r => ?_
      rw [setPcb_pcb]
      split <;> rfl
  | scheduled _ _ =>
      refine hn.same (List.Subset.refl _) rfl rfl fun r => ?_
      rw [setPcb_pcb]
      split <;> rfl
  | blocked _ _ =>
      exact hn.same (List.Subset.refl _) rfl rfl fun _ => rfl
  | reaped _ hr => exact hn.reaped hr
  | resumed _ hr => exact hn.reaped hr

theorem numbered_run {P : Platform} {acts : List Act} {s : Sys}
    (hrun : run (step threadJoin) (Sys.init P) acts = some s) :
    NoPtrace s.k ∧ Numbered s.k :=
  run_inv (I := fun s : Sys => NoPtrace s.k ∧ Numbered s.k)
    (fun _ _ _ h hstep => numbered_step threadJoin h hstep)
    ⟨fun r => (init_pcb P r).1, numbered_init P⟩ hrun

-- ==================================================================== new pids

/-- A search by pid finds the member with that pid. -/
theorem findProcByPid_eq {k : Procs} {c : Ref} (hc : c ∈ k.procList)
    (hpid : ∀ r ∈ k.procList, (k.pcb r).pid = (k.pcb c).pid → r = c) :
    findProcByPid k (k.pcb c).pid = some c := by
  unfold findProcByPid
  cases hfind : k.procList.find? fun r => (k.pcb r).pid = (k.pcb c).pid with
  | none =>
      have := List.find?_eq_none.mp hfind c hc
      simp at this
  | some r =>
      have heq : (k.pcb r).pid = (k.pcb c).pid := by
        simpa using List.find?_some hfind
      rw [hpid r (List.mem_of_find?_eq_some hfind) heq]

/-- What `do_fork` returns: the pid of the child, or -1 to a thread that
may not fork. -/
theorem doFork_ret (k : Procs) (p : Ref) (thread : Tid) :
    (doFork k p thread).ret
      = if (k.pcb p).mainThread = some thread then k.pidCurrent.toInt
        else -1 := by
  by_cases h : (k.pcb p).mainThread = some thread
  · have h' : ((k.setIrq false).pcb p).mainThread = some thread := h
    rw [if_pos h]
    unfold doFork
    rw [if_neg (not_not_intro h')]
    simp [duplicateProcess, newProcess, Procs.setPcb, freshPcb, Procs.setIrq]
  · rw [if_neg h, doFork_of_not_main h]

/-- What `do_fork` owes the parent: a positive pid that no process of the
list has, and that is the child's from then on. -/
structure GoodPid (k : Procs) (o : Outcome) : Prop where
  positive : 0 < o.ret
  fresh : ∀ r ∈ k.procList, (k.pcb r).pid.toInt ≠ o.ret
  found : findProcByPid o.k (BitVec.ofInt 32 o.ret) = some k.nextRef

/-- A pid is positive as an `int` below 2^31 only. -/
theorem toInt_ofNat_pos_iff {n : Nat} (hpos : 0 < n) (hn : n < 4294967296) :
    0 < (BitVec.ofNat 32 n).toInt ↔ n < 2147483648 := by
  rw [BitVec.toInt_eq_toNat_cond, BitVec.toNat_ofNat,
    Nat.mod_eq_of_lt (by simpa using hn)]
  split
  next h => omega
  next h => omega

/-- Below 2^32 creations the pid of a new child is new. -/
theorem Numbered.fresh {k : Procs} (h : Numbered k)
    (hfew : k.nextRef + 1 < 4294967296) :
    ∀ r ∈ k.procList, (k.pcb r).pid ≠ k.pidCurrent := by
  intro r hr heq
  have hlt := h.old r hr
  rw [h.pid r hlt, h.pidCurrent] at heq
  have hnat := congrArg BitVec.toNat heq
  rw [BitVec.toNat_ofNat, BitVec.toNat_ofNat,
    Nat.mod_eq_of_lt ((Nat.succ_lt_succ hlt).trans hfew),
    Nat.mod_eq_of_lt hfew] at hnat
  exact absurd (Nat.succ.inj hnat) (Nat.ne_of_lt hlt)

/-- In every run with fewer than 2^32 - 1 creations, a `do_fork` gives
its caller a positive, new pid that leads to the child exactly when the
main thread calls it and fewer than 2^31 - 1 processes were created
before. -/
theorem fork_pid_iff (P : Platform) (acts : List Act) (s : Sys)
    (hrun : run (step threadJoin) (Sys.init P) acts = some s)
    (hfew : s.k.nextRef + 1 < 4294967295) (p : Ref) (thread : Tid) :
    GoodPid s.k (doFork s.k p thread) ↔
      (s.k.pcb p).mainThread = some thread
        ∧ s.k.nextRef < 2147483647 := by
  have hn := (numbered_run threadJoin hrun).2
  have hlt : s.k.nextRef + 1 < 4294967296 := Nat.lt_succ_of_lt hfew
  have hret := doFork_ret s.k p thread
  by_cases hmain : (s.k.pcb p).mainThread = some thread
  · rw [if_pos hmain] at hret
    have hpos : 0 < (doFork s.k p thread).ret
        ↔ s.k.nextRef < 2147483647 := by
      rw [hret, hn.pidCurrent,
        toInt_ofNat_pos_iff (Nat.succ_pos _) hlt]
      exact Nat.succ_lt_succ_iff
    refine ⟨fun hgood => ⟨hmain, hpos.mp hgood.positive⟩, fun hsmall => ?_⟩
    obtain ⟨hf, -⟩ := doFork_main hmain
    constructor
    · exact hpos.mpr hsmall.2
    · intro r hr heq
      rw [hret] at heq
      exact hn.fresh hlt r hr (BitVec.eq_of_toInt_eq heq)
    · have hpid : ((doFork s.k p thread).k.pcb s.k.nextRef).pid
          = BitVec.ofInt 32 (doFork s.k p thread).ret := by
        rw [hf.pid, hret, BitVec.ofInt_toInt]
      rw [← hpid]
      apply findProcByPid_eq
      · rw [hf.procList]
        exact List.mem_append_right _ (List.mem_singleton_self _)
      · intro r hr heq
        rw [hf.procList, List.mem_append, List.mem_singleton] at hr
        rcases hr with hr | hr
        · have hold : r ≠ s.k.nextRef := Nat.ne_of_lt (hn.old r hr)
          rw [hf.others r hold, hf.pid] at heq
          exact absurd heq (hn.fresh hlt r hr)
        · exact hr
  · rw [if_neg hmain] at hret
    constructor
    · intro hgood
      have := hgood.positive
      rw [hret] at this
      cases this
    · intro hsmall
      exact absurd hsmall.1 hmain

/-- The first fork of the root process. -/
theorem fork_pid_first :
    ∃ s, run (step fun _ => none) (Sys.init .sample) [] = some s
      ∧ GoodPid s.k (doFork s.k 0 0) :=
  ⟨_, rfl, (fork_pid_iff (fun _ => none) .sample [] _ rfl (by decide) 0
    0).mpr (by decide)⟩

-- ============================================================== many creations

/-- The root process alone, able to fork. -/
structure Alone (k : Procs) : Prop where
  procList : k.procList = [0]
  nextRef : 0 < k.nextRef
  state : (k.pcb 0).state ≠ .ZOMBIE
  parent : (k.pcb 0).parent = none
  mainThread : (k.pcb 0).mainThread = some 0

/-- The root process forks, its child exits, and the root process waits
for it. -/
def forkAndReap (child : Ref) : List Act :=
  [.fork 0 0, .exit child 0, .wait 0 (-1) none false]

/-- A child of the root process that has finished. -/
structure Finished (k : Procs) (c : Ref) : Prop where
  procList : k.procList = [0, c]
  other : c ≠ 0
  state : (k.pcb c).state = .ZOMBIE
  parent : (k.pcb c).parent = some 0
  mainThread : (k.pcb c).mainThread.isSome = true
  request : (k.pcb c).ptracePendingReq = .noRequest

/-- The wait finds the child, joins it and drops its PCB. -/
theorem Finished.wait {s : Sys} {c : Ref} (h : Finished s.k c)
    (hlive : Live s.k 0) (hroot : (s.k.pcb 0).parent = none) :
    ∃ s', step threadJoin s (.wait 0 (-1) none false) = some s'
      ∧ s'.k.procList = [0] ∧ s'.k.nextRef = s.k.nextRef
      ∧ s'.k.pcb 0 = s.k.pcb 0 := by
  have hfind : findProcZombieToClean s.k = some c := by
    rw [findProcZombieToClean, h.procList, List.find?_cons_of_neg,
      List.find?_cons_of_pos]
    · simp [h.state, h.mainThread]
    · simp [hlive.2]
  have htarget : waitTarget s.k (-1) false = some c := by
    rw [waitTarget, if_pos rfl, hfind]
    rfl
  have hreq : ¬ mustResume (s.k.pcb c) = true := by
    rw [mustResume, h.request]
    exact Bool.noConfusion
  obtain ⟨k₁, hk₁⟩ : ∃ k, k = joined threadJoin (s.k.setIrq false) c :=
    ⟨_, rfl⟩
  have hlist : k₁.procList = [0, c] := hk₁ ▸ h.procList
  have hchild : k₁.pcb c = { s.k.pcb c with
      mainThread := threadJoin (s.k.pcb c).mainThread } := by
    rw [hk₁, joined, setPcb_pcb, if_pos rfl]
    rfl
  have hzero : k₁.pcb 0 = s.k.pcb 0 := by
    rw [hk₁, joined, setPcb_pcb, if_neg h.other.symm]
    rfl
  have hchildless : findProcByParent k₁ c = none := by
    rw [findProcByParent, hlist, List.find?_eq_none]
    simp [hzero, hroot, hchild, h.parent, h.other.symm]
  have hfinish : (waitpidFinish k₁ (waitFor s.k c none)).k
      = (removeProc k₁ c).setIrq s.k.irqEnabled := by
    rw [(waitpidFinish_of_noRequest _).1, removeIfChildless]
    · exact congrArg (Procs.setIrq · s.k.irqEnabled) (if_pos hchildless)
    · show (k₁.pcb c).ptracePendingReq = _
      rw [hchild]
      exact h.request
  refine ⟨Sys.join threadJoin { s with k := s.k.setIrq false }
    (waitFor s.k c none), ?_, ?_⟩
  · have hzombie : ((s.k.setIrq false).pcb c).state = .ZOMBIE := h.state
    simp only [step, if_pos hlive, waitpidEnter_found htarget, if_neg hreq,
      Sys.await, hzombie, List.append_nil]
    rfl
  · have hk : (Sys.join threadJoin { s with k := s.k.setIrq false }
        (waitFor s.k c none)).k = (removeProc k₁ c).setIrq s.k.irqEnabled := by
      rw [← hfinish, hk₁]
      rfl
    rw [hk]
    refine ⟨?_, ?_, hzero⟩
    · show k₁.procList.erase c = _
      rw [hlist, List.erase_cons_tail (by simpa using h.other.symm),
        List.erase_cons_head]
    · show k₁.nextRef = _
      rw [hk₁]
      rfl

/-- A fork of the root process and the exit of its child. -/
theorem Alone.forkAndExit {s : Sys} (h : Alone s.k) :
    ∃ s', run (step threadJoin) s [.fork 0 0, .exit s.k.nextRef 0] = some s'
      ∧ Finished s'.k s.k.nextRef ∧ s'.k.pcb 0 = s.k.pcb 0
      ∧ s'.k.nextRef = s.k.nextRef + 1 := by
  have hold : 0 ≠ s.k.nextRef := Nat.ne_of_lt h.nextRef
  obtain ⟨hf, -⟩ := doFork_main h.mainThread
  obtain ⟨name, hchild, -⟩ := doFork_child h.mainThread
  obtain ⟨s₁, hfork, hk₁⟩ : ∃ s₁, step threadJoin s (.fork 0 0) = some s₁
      ∧ s₁.k = (doFork s.k 0 0).k :=
    ⟨_, if_pos ⟨h.nextRef, h.state⟩, rfl⟩
  have hlive : Live s₁.k s.k.nextRef := by
    rw [hk₁]
    exact ⟨hf.nextRef ▸ Nat.lt_succ_self _, by rw [hf.state]; decide⟩
  have hparent : (s₁.k.pcb s.k.nextRef).parent ≠ none := by
    rw [hk₁, hf.parent]
    exact Option.some_ne_none 0
  have hexit : doExit s₁.k s.k.nextRef 0 = some _ := if_neg hparent
  obtain ⟨s₂, hexited, hk₂⟩ : ∃ s₂,
      step threadJoin s₁ (.exit s.k.nextRef 0) = some s₂
      ∧ s₂.k = (s₁.k.setIrq false).setPcb s.k.nextRef fun pcb =>
        { pcb with state := .ZOMBIE, exitStatus := 0 } :=
    ⟨_, (if_pos hlive).trans (congrArg _ hexit), rfl⟩
  have hpcb : ∀ r, s₂.k.pcb r = if r = s.k.nextRef then
      { (doFork s.k 0 0).k.pcb r with state := .ZOMBIE, exitStatus := 0 }
      else (doFork s.k 0 0).k.pcb r := by
    intro r
    rw [hk₂, setPcb_pcb, hk₁]
    rfl
  have hdone := (hpcb s.k.nextRef).trans (if_pos rfl)
  refine ⟨s₂, ?_, ⟨?_, hold.symm, ?_, ?_, ?_, ?_⟩, ?_, ?_⟩
  · rw [run_cons, hfork, Option.bind_some, run_cons, hexited]
    rfl
  · rw [hk₂, setPcb_procList]
    show s₁.k.procList = _
    rw [hk₁, hf.procList, h.procList]
    rfl
  · rw [hdone]
  · rw [hdone, hchild]
  · rw [hdone, hchild]
    rfl
  · rw [hdone, hchild]
    rfl
  · rw [hpcb, if_neg hold]
    exact hf.others 0 hold
  · rw [hk₂, setPcb_nextRef]
    exact hk₁ ▸ hf.nextRef

/-- With the wait the root process is alone again, and one process more
has been created. -/
theorem Alone.forkAndReap {s : Sys} (h : Alone s.k) :
    ∃ s', run (step threadJoin) s (forkAndReap s.k.nextRef) = some s'
      ∧ Alone s'.k ∧ s'.k.nextRef = s.k.nextRef + 1 := by
  obtain ⟨s₂, hrun, hfin, hroot, hnext⟩ := h.forkAndExit threadJoin
  obtain ⟨s', hwait, hlist, href, hroot'⟩ := hfin.wait threadJoin
    ⟨hnext ▸ Nat.succ_pos _, hroot ▸ h.state⟩ (hroot ▸ h.parent)
  have h0 : s'.k.pcb 0 = s.k.pcb 0 := hroot'.trans hroot
  refine ⟨s', ?_, ⟨hlist, (href.trans hnext) ▸ Nat.succ_pos _, h0 ▸ h.state,
    h0 ▸ h.parent, h0 ▸ h.mainThread⟩, href.trans hnext⟩
  have hsplit : Process.forkAndReap s.k.nextRef
      = [.fork 0 0, .exit s.k.nextRef 0] ++ [.wait 0 (-1) none false] := rfl
  rw [hsplit, run_append, hrun, Option.bind_some, run_cons, hwait]
  rfl

/-- The actions of `n` rounds, the first child being `child`. -/
def rounds : Nat → Ref → List Act
  | 0, _ => []
  | n + 1, child => forkAndReap child ++ rounds n (child + 1)

/-- Any number of rounds runs through. -/
theorem Alone.rounds {s : Sys} (h : Alone s.k) (n : Nat) :
    ∃ s', run (step threadJoin) s (rounds n s.k.nextRef) = some s'
      ∧ Alone s'.k ∧ s'.k.nextRef = s.k.nextRef + n := by
  induction n generalizing s with
  | zero => exact ⟨s, rfl, h, rfl⟩
  | succ n ih =>
      obtain ⟨s₁, hround, h₁, href₁⟩ := h.forkAndReap threadJoin
      obtain ⟨s', hrun, h', href⟩ := ih h₁
      refine ⟨s', ?_, h', ?_⟩
      · rw [Process.rounds, run_append, hround, Option.bind_some, ← href₁]
        exact hrun
      · rw [href, href₁]
        exact Nat.succ_add_eq_add_succ _ n

/-- It is alone at first. -/
theorem alone_init (P : Platform) : Alone (Sys.init P).k :=
  ⟨rfl, Nat.one_pos, nofun, rfl, rfl⟩

/-- The root process forks and waits for the child, which exits, 2^31 - 2
times. The next fork creates a process and returns a negative number for
it, though there are never more than two processes. -/
theorem fork_pid_negative :
    ∃ s, run (step fun _ => none) (Sys.init .sample) (rounds 2147483646 1)
        = some s
      ∧ s.k.nextRef + 1 < 4294967295 ∧ s.k.procList = [0]
      ∧ (s.k.pcb 0).mainThread = some 0
      ∧ (doFork s.k 0 0).ret < 0 ∧ ¬ GoodPid s.k (doFork s.k 0 0) := by
  obtain ⟨s, hrun, halone, href⟩ :=
    (alone_init .sample).rounds (fun _ => none) 2147483646
  have hcount : s.k.nextRef = 2147483647 := href
  have hfew : s.k.nextRef + 1 < 4294967295 := by
    rw [hcount]
    decide
  refine ⟨s, hrun, hfew, halone.procList, halone.mainThread, ?_,
    fun hgood => ?_⟩
  · rw [doFork_ret, if_pos halone.mainThread,
      (numbered_run _ hrun).2.pidCurrent, hcount]
    decide
  · have := (fork_pid_iff (fun _ => none) .sample _ s hrun hfew 0 0).mp hgood
    exact absurd (hcount ▸ this.2) (Nat.lt_irrefl _)

end SyeLabs.Process
