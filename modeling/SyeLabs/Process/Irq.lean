/-
The interrupt flag across fork, wait and exec.

Each of the four calls begins with `local_irq_save`. `Returns` collects
the ways in which they return to their callers, a wait in two parts:
what happens while it is blocked is up to the other threads, and it
restores the flag it saved from whatever state it resumes in.

Three exits do not restore it: a fork from a thread other than the main
one, a wait for an unknown pid, and a `WNOHANG` wait for a process that
has not exited. `MissedExit` is a call that takes one of them, and
`irq_restored_iff` says that with interrupts enabled the flag comes back
as it was on every other call and on none of these.
-/
import SyeLabs.Process.Exec
import SyeLabs.Process.Lineage

namespace SyeLabs.Process

open Lib

/-- The calls that save the interrupt flag, with their arguments. -/
inductive SavingCall
  | fork (thread : Tid)
  | fork2 (thread : Tid)
  | waitpid (pid : Pid) (wstatus : Option (BitVec 32)) (nohang : Bool)
  | execve (cur : Tid) (filename : CString) (argv envp : Option (List CString))

variable (elfLoadBuffer : CString → Option Elf) (P : Platform)

/-- The call, made by `p` in `k`, returns and leaves `k'`. -/
inductive Returns (k : Procs) (p : Ref) : SavingCall → Procs → Prop
  | fork (thread : Tid) :
      Returns k p (.fork thread) (doFork k p thread).k
  | fork2 (thread : Tid) :
      Returns k p (.fork2 thread) (doFork2 k p thread).k
  | early {pid : Pid} {wstatus : Option (BitVec 32)} {nohang : Bool}
      {r : WaitReturn} : waitpidEnter k pid wstatus nohang = .returned r →
      Returns k p (.waitpid pid wstatus nohang) r.k
  | waited {pid : Pid} {wstatus : Option (BitVec 32)} {nohang : Bool}
      {k₁ : Procs} {w : Wait} {calls : List Call} (resumed : Procs) :
      waitpidEnter k pid wstatus nohang = .found k₁ w calls →
      Returns k p (.waitpid pid wstatus nohang) (waitpidFinish resumed w).k
  | execve {cur : Tid} {filename : CString}
      {argv envp : Option (List CString)} {args : Nat}
      {joinQueue : List Ref} {m : ByteMem} {o : Outcome} :
      doExecve elfLoadBuffer P args k p cur joinQueue filename argv envp m
        = .returned o →
      Returns k p (.execve cur filename argv envp) o.k

/-- The call takes an exit that leaves out `local_irq_restore`. -/
def MissedExit (k : Procs) (p : Ref) : SavingCall → Prop
  | .fork thread | .fork2 thread => (k.pcb p).mainThread ≠ some thread
  | .waitpid pid _ nohang =>
      (pid ≠ -1 ∧ ∀ r ∈ k.procList, (k.pcb r).pid ≠ pid)
        ∨ (nohang = true
          ∧ ∃ c, FirstMatch k pid c ∧ (k.pcb c).state ≠ .ZOMBIE)
  | .execve _ _ _ _ => False

-- =============================================================== each function

theorem doFork_irq (k : Procs) (p : Ref) (thread : Tid) :
    (doFork k p thread).k.irqEnabled = k.irqEnabled
      ↔ k.irqEnabled = false ∨ (k.pcb p).mainThread = some thread := by
  by_cases h : (k.pcb p).mainThread = some thread
  · have h' : ((k.setIrq false).pcb p).mainThread = some thread := h
    unfold doFork
    rw [if_neg (not_not_intro h')]
    exact ⟨fun _ => Or.inr h, fun _ => rfl⟩
  · rw [doFork_of_not_main h]
    constructor
    · exact fun hoff => Or.inl hoff.symm
    · exact fun hon => (hon.resolve_right h).symm

/-- A wait that found its process has saved the flag. -/
theorem found_flags {k k₁ : Procs} {pid : Pid}
    {wstatus : Option (BitVec 32)} {nohang : Bool} {w : Wait}
    {calls : List Call}
    (h : waitpidEnter k pid wstatus nohang = .found k₁ w calls) :
    w.flags = k.irqEnabled := by
  have hfound : ∀ c pid', waitpidFound (k.setIrq false) c pid' k.irqEnabled
      wstatus nohang = .found k₁ w calls → w.flags = k.irqEnabled := by
    intro c pid' h
    unfold waitpidFound at h
    split at h
    · cases h
    · split at h
      · cases h
        rfl
      · cases h
        rfl
  unfold waitpidEnter at h
  by_cases hpid : pid = -1
  · simp only [if_pos hpid] at h
    cases hc : findProcZombieToClean (k.setIrq false) with
    | none =>
        simp only [hc] at h
        cases h
    | some c =>
        simp only [hc] at h
        exact hfound _ _ h
  · simp only [if_neg hpid] at h
    cases hc : findProcByPid (k.setIrq false) pid with
    | none =>
        simp only [hc] at h
        cases h
    | some c =>
        simp only [hc] at h
        exact hfound _ _ h

theorem waitpidFinish_irq (k : Procs) (w : Wait) :
    (waitpidFinish k w).k.irqEnabled = w.flags := by
  simp only [waitpidFinish]
  split
  · rfl
  · split <;> rfl

/-- The flag after an early return of `do_waitpid`: as it was when no
zombie was found, off otherwise. -/
theorem returned_irq {k : Procs} {pid : Pid} {wstatus : Option (BitVec 32)}
    {nohang : Bool} {r : WaitReturn}
    (h : waitpidEnter k pid wstatus nohang = .returned r) :
    r.k.irqEnabled
      = if pid = -1 ∧ findProcZombieToClean k = none then k.irqEnabled
        else false := by
  have hfound : ∀ c pid', waitpidFound (k.setIrq false) c pid' k.irqEnabled
      wstatus nohang = .returned r → r.k.irqEnabled = false := by
    intro c pid' h
    unfold waitpidFound at h
    split at h
    · cases h
      rfl
    · split at h <;> cases h
  unfold waitpidEnter at h
  by_cases hpid : pid = -1
  · simp only [if_pos hpid] at h
    cases hc : findProcZombieToClean (k.setIrq false) with
    | none =>
        have hc' : findProcZombieToClean k = none := hc
        simp only [hc] at h
        cases h
        rw [if_pos ⟨hpid, hc'⟩]
        rfl
    | some c =>
        have hc' : findProcZombieToClean k = some c := hc
        simp only [hc] at h
        rw [hfound _ _ h, if_neg]
        intro h
        obtain ⟨-, hnone⟩ := h
        rw [hc'] at hnone
        cases hnone
  · simp only [if_neg hpid] at h
    rw [if_neg fun h => hpid h.1]
    cases hc : findProcByPid (k.setIrq false) pid with
    | none =>
        simp only [hc] at h
        cases h
        rfl
    | some c =>
        simp only [hc] at h
        exact hfound _ _ h

/-- `do_execve` returns only after it has restored the flag. -/
theorem doExecve_irq {args : Nat} {k : Procs} {p : Ref} {cur : Tid}
    {joinQueue : List Ref} {filename : CString}
    {argv envp : Option (List CString)} {m : ByteMem} {o : Outcome}
    (h : doExecve elfLoadBuffer P args k p cur joinQueue filename argv envp m
      = .returned o) : o.k.irqEnabled = k.irqEnabled := by
  rw [(doExecve_returned elfLoadBuffer h).1]
  rfl

-- ================================================================= all of them

/-- An early return leaves the flag as it was exactly when interrupts
were off or the call looked for a zombie and found none. -/
theorem early_irq_iff {k : Procs} {p : Ref} {pid : Pid}
    {wstatus : Option (BitVec 32)} {nohang : Bool} {r : WaitReturn}
    (h : waitpidEnter k pid wstatus nohang = .returned r) :
    r.k.irqEnabled = k.irqEnabled
      ↔ k.irqEnabled = false
        ∨ ¬ MissedExit k p (.waitpid pid wstatus nohang) := by
  have hmissed : MissedExit k p (.waitpid pid wstatus nohang)
      ↔ ¬ (pid = -1 ∧ findProcZombieToClean k = none) := by
    cases hsearch : waitSearch k pid with
    | none =>
        have hnone : ∀ c, ¬ FirstMatch k pid c := by
          intro c hc
          rw [waitSearch_eq_some_iff.mpr hc] at hsearch
          cases hsearch
        by_cases hpid : pid = -1
        · simp only [waitSearch, if_pos hpid] at hsearch
          simp [MissedExit, hpid, hsearch]
          intro _ c hc
          exact absurd (hpid ▸ hc) (hnone c)
        · simp only [waitSearch, if_neg hpid, findProcByPid,
            List.find?_eq_none, decide_eq_true_eq] at hsearch
          exact ⟨fun _ hn => hpid hn.1, fun _ => Or.inl ⟨hpid, hsearch⟩⟩
    | some c =>
        have hc := waitSearch_eq_some_iff.mp hsearch
        rcases waitpidEnter_match hsearch wstatus nohang with
          ⟨hgo, hz, -⟩ | ⟨-, k', w, calls, hw, -⟩
        · refine ⟨fun _ hn => ?_, fun _ => Or.inr ⟨hgo, c, hc, hz⟩⟩
          simp only [waitSearch, if_pos hn.1, hn.2] at hsearch
          cases hsearch
        · rw [hw] at h
          cases h
  rw [returned_irq h, hmissed, not_not]
  split
  next hn => exact ⟨fun _ => Or.inr hn, fun _ => rfl⟩
  next hn =>
    constructor
    · exact fun hoff => Or.inl hoff.symm
    · intro h
      rcases h with hoff | hn'
      · exact hoff.symm
      · exact absurd hn' hn

/-- A call that goes on to wait takes none of the exits. -/
theorem not_missedExit_of_found {k k₁ : Procs} {p : Ref} {pid : Pid}
    {wstatus : Option (BitVec 32)} {nohang : Bool} {w : Wait}
    {calls : List Call}
    (h : waitpidEnter k pid wstatus nohang = .found k₁ w calls) :
    ¬ MissedExit k p (.waitpid pid wstatus nohang) := by
  cases hsearch : waitSearch k pid with
  | none =>
      obtain ⟨r, hr, -⟩ := waitpidEnter_no_match hsearch wstatus nohang
      rw [hr] at h
      cases h
  | some c =>
      have hc := waitSearch_eq_some_iff.mp hsearch
      rcases waitpidEnter_match hsearch wstatus nohang with
        ⟨-, -, r, hr, -⟩ | ⟨hgo, -⟩
      · rw [hr] at h
        cases h
      · intro h
        rcases h with ⟨hpid, hnone⟩ | ⟨hn, d, hd, hz⟩
        · exact hnone c hc.mem (hc.named.resolve_left hpid)
        · have heq : d = c := by
            have := waitSearch_eq_some_iff.mpr hd
            exact Option.some.inj (this.symm.trans hsearch)
          exact hgo ⟨hn, heq ▸ hz⟩

/-- For every state, caller and call: the call leaves the interrupt flag
as it was whenever it returns, exactly when interrupts were disabled or
it does not take one of the three exits. -/
theorem irq_restored_iff (k : Procs) (p : Ref) (c : SavingCall) :
    (∀ k', Returns elfLoadBuffer P k p c k' →
        k'.irqEnabled = k.irqEnabled)
      ↔ k.irqEnabled = false ∨ ¬ MissedExit k p c := by
  cases c with
  | fork thread =>
      simp only [MissedExit, not_not]
      rw [← doFork_irq]
      constructor
      · exact fun h => h _ (.fork thread)
      · intro h k' hk
        cases hk
        exact h
  | fork2 thread =>
      simp only [MissedExit, not_not]
      rw [← doFork_irq]
      constructor
      · exact fun h => h _ (.fork2 thread)
      · intro h k' hk
        cases hk
        exact h
  | waitpid pid wstatus nohang =>
      cases henter : waitpidEnter k pid wstatus nohang with
      | returned r =>
          rw [← early_irq_iff henter]
          constructor
          · exact fun h => h _ (.early henter)
          · intro h k' hk
            cases hk with
            | early hr =>
                rw [henter] at hr
                cases hr
                exact h
            | waited resumed hw =>
                rw [henter] at hw
                cases hw
      | found k₁ w calls =>
          refine ⟨fun _ => Or.inr (not_missedExit_of_found henter),
            fun _ k' hk => ?_⟩
          cases hk with
          | early hr =>
              rw [henter] at hr
              cases hr
          | waited resumed hw =>
              rw [waitpidFinish_irq, found_flags hw]
  | execve cur filename argv envp =>
      refine ⟨fun _ => Or.inr id, fun _ k' hk => ?_⟩
      cases hk with
      | execve ho => exact doExecve_irq elfLoadBuffer P ho

/-- The root process with interrupts enabled and one running child: a
fork from another thread, a wait for a pid nobody has and a `WNOHANG`
wait for the child each return with interrupts disabled. -/
theorem irq_left_disabled :
    ∃ s, run (step fun _ => none) (Sys.init .sample)
        [.fork 0 0] = some s
      ∧ ∀ c ∈ [SavingCall.fork 9, .fork2 9, .waitpid 5 none false,
          .waitpid 2 none true],
        ∃ k', Returns (fun _ => none) .sample (s.k.setIrq true) 0 c k'
          ∧ k'.irqEnabled ≠ (s.k.setIrq true).irqEnabled := by
  refine ⟨_, rfl, ?_⟩
  simp only [List.forall_mem_cons]
  exact ⟨⟨_, .fork 9, Bool.false_ne_true⟩, ⟨_, .fork2 9, Bool.false_ne_true⟩,
    ⟨_, .early rfl, Bool.false_ne_true⟩, ⟨_, .early rfl, Bool.false_ne_true⟩,
    by simp⟩

end SyeLabs.Process
