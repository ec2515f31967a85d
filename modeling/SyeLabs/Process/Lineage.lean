/-
Parents and children: no process of the list is left without its parent,
and who gets the exit status of whom.

# No orphan

A process leaves `proc_list` only when it has been waited for, as a
zombie, and no member of the list has it as its parent; a new member
comes from a live process, and live processes are members. So the list
is closed under `parent` (`no_orphan`).

# Whose child

The two searches of `do_waitpid` go through the whole list and look at
the pid or at the state of each member, never at its parent. A call gets
the status of a child of its own exactly when the search happens to
meet one first (`status_to_parent_iff`).
-/
import SyeLabs.Process.Reaping

namespace SyeLabs.Process

open Lib

variable (threadJoin : Option Tid → Option Tid)

-- =================================================================== no orphan

/-- The step waits for no process that is not a zombie yet. -/
def AwaitsZombie (s : Sys) (a : Act) : Prop :=
  ∀ c ∈ target s.k a, (s.k.pcb c).state = .ZOMBIE

instance (s : Sys) (a : Act) : Decidable (AwaitsZombie s a) := by
  unfold AwaitsZombie
  infer_instance

/-- The list is closed under parents, the root process apart, and holds
every live process. -/
structure Rooted (k : Procs) : Prop where
  live : ∀ r, Live k r → r ∈ k.procList
  parent : ∀ r ∈ k.procList, k.rootProcess ≠ some r →
    ∃ q ∈ k.procList, (k.pcb r).parent = some q

theorem rooted_init (P : Platform) : Rooted (Sys.init P).k where
  live := by
    intro r h
    obtain ⟨hr, -⟩ := h
    have hr' : r = 0 := Nat.lt_one_iff.mp hr
    exact List.mem_singleton.mpr hr'
  parent := by
    intro r hr hroot
    rw [List.mem_singleton.mp hr] at hroot
    exact absurd rfl hroot

/-- A list that keeps its members and their parents stays closed as
long as no process comes to life. -/
theorem Rooted.same {k k' : Procs} (h : Rooted k)
    (hlist : k'.procList = k.procList)
    (hroot : k'.rootProcess = k.rootProcess)
    (hpcb : ∀ r, (k'.pcb r).parent = (k.pcb r).parent)
    (hlive : ∀ r, Live k' r → Live k r) : Rooted k' where
  live := fun r hr => by
    rw [hlist]
    exact h.live r (hlive r hr)
  parent := fun r hr hne => by
    rw [hlist] at hr ⊢
    rw [hroot] at hne
    rw [hpcb r]
    exact h.parent r hr hne

theorem Rooted.forked {k k' : Procs} {p : Ref} (h : Rooted k)
    (hn : Numbered k) (hp : Live k p) (hf : Forked k k' p) : Rooted k' where
  live := by
    intro r h
    obtain ⟨hr, hz⟩ := h
    rw [hf.procList, List.mem_append, List.mem_singleton]
    by_cases hnew : r = k.nextRef
    · exact Or.inr hnew
    · rw [hf.nextRef] at hr
      rw [hf.others r hnew] at hz
      exact Or.inl (h.live r
        ⟨Nat.lt_of_le_of_ne (Nat.lt_succ_iff.mp hr) hnew, hz⟩)
  parent := by
    intro r hr hne
    rw [hf.procList, List.mem_append, List.mem_singleton] at hr
    rw [hf.rootProcess] at hne
    rw [hf.procList]
    rcases hr with hr | rfl
    · have hold : r ≠ k.nextRef := Nat.ne_of_lt (hn.old r hr)
      obtain ⟨q, hq, hqr⟩ := h.parent r hr hne
      rw [hf.others r hold]
      exact ⟨q, List.mem_append_left _ hq, hqr⟩
    · exact ⟨p, List.mem_append_left _ (h.live p hp), hf.parent⟩

/-- Reaping a zombie: whoever leaves the list is nobody's parent. -/
theorem Rooted.reaped {k k' : Procs} {c : Ref} (h : Rooted k)
    (hc : (k.pcb c).state = .ZOMBIE) (hr : Reaped k k' c) :
    Rooted k' := by
  have hfields : ∀ r, (k'.pcb r).parent = (k.pcb r).parent
      ∧ (k'.pcb r).state = (k.pcb r).state := by
    intro r
    obtain ⟨t, ht⟩ := hr.pcb r
    rw [ht]
    exact ⟨rfl, rfl⟩
  have hlive : ∀ r, Live k' r → Live k r := by
    intro r h
    obtain ⟨hlt, hz⟩ := h
    exact ⟨hr.nextRef ▸ hlt, (hfields r).2 ▸ hz⟩
  by_cases hchild : ∃ q ∈ k.procList, (k.pcb q).parent = some c
  · obtain ⟨q, hq, hqc⟩ := hchild
    exact h.same (hr.procList.trans (reap_of_child hq hqc))
      hr.rootProcess (fun r => (hfields r).1) hlive
  · have hnone : ∀ q ∈ k.procList, (k.pcb q).parent ≠ some c :=
      fun q hq hqc => hchild ⟨q, hq, hqc⟩
    have hlist : k'.procList = k.procList.erase c :=
      hr.procList.trans (reap_of_childless hnone)
    constructor
    case live =>
      intro r hlv
      have hrc : r ≠ c := fun heq => (hlive r hlv).2 (heq ▸ hc)
      rw [hlist]
      exact (List.mem_erase_of_ne hrc).mpr (h.live r (hlive r hlv))
    case parent =>
      intro r hin hne
      rw [hlist] at hin ⊢
      rw [hr.rootProcess] at hne
      have hin' := List.mem_of_mem_erase hin
      obtain ⟨q, hq, hqr⟩ := h.parent r hin' hne
      have hqc : q ≠ c := fun heq => hnone r hin' (heq ▸ hqr)
      rw [(hfields r).1]
      exact ⟨q, (List.mem_erase_of_ne hqc).mpr hq, hqr⟩

/-- As long as only zombies are waited for, no wait blocks and the list
stays closed under parents. -/
theorem rooted_step {s s' : Sys} {a : Act}
    (h : (NoPtrace s.k ∧ Numbered s.k) ∧ s.waits = [] ∧ Rooted s.k)
    (hz : AwaitsZombie s a) (hstep : step threadJoin s a = some s') :
    (NoPtrace s'.k ∧ Numbered s'.k) ∧ s'.waits = [] ∧ Rooted s'.k := by
  obtain ⟨⟨hno, hn⟩, hwaits, hroot⟩ := h
  refine ⟨numbered_step threadJoin ⟨hno, hn⟩ hstep, ?_⟩
  cases step_stepped threadJoin hno hstep with
  | idle on _ =>
      exact ⟨hwaits, hroot.same rfl rfl (fun _ => rfl) fun _ h => h⟩
  | forked hlive hf => exact ⟨hwaits, hroot.forked hn hlive hf⟩
  | exited _ _ =>
      refine ⟨hwaits, hroot.same rfl rfl (fun r => ?_) fun r hr => ?_⟩
      · rw [setPcb_pcb]
        split <;> rfl
      · obtain ⟨hlt, hst⟩ := hr
        rw [setPcb_pcb] at hst
        split at hst
        · exact absurd rfl hst
        · exact ⟨hlt, hst⟩
  | @scheduled p _ hlive _ =>
      refine ⟨hwaits, hroot.same rfl rfl (fun r => ?_) fun r hr => ?_⟩
      · rw [setPcb_pcb]
        split <;> rfl
      · obtain ⟨hlt, hst⟩ := hr
        rw [setPcb_pcb] at hst
        split at hst
        next heq => exact heq ▸ hlive
        next => exact ⟨hlt, hst⟩
  | blocked ht hst => exact absurd (hz _ ht) hst
  | reaped ht hr => exact ⟨hwaits, hroot.reaped (hz _ ht) hr⟩
  | resumed hw _ =>
      rw [hwaits] at hw
      cases hw

/-- What the search of `do_waitpid` asks of a member of the list. -/
def Matches (k : Procs) (pid : Pid) (r : Ref) : Prop :=
  if pid = -1 then
    (k.pcb r).state = .ZOMBIE ∧ (k.pcb r).mainThread.isSome
  else (k.pcb r).pid = pid

instance (k : Procs) (pid : Pid) (r : Ref) : Decidable (Matches k pid r) := by
  unfold Matches
  infer_instance

/-- `c` is the first member of the list that the search matches. -/
def FirstMatch (k : Procs) (pid : Pid) (c : Ref) : Prop :=
  Matches k pid c ∧ ∃ before after, k.procList = before ++ c :: after
    ∧ ∀ q ∈ before, ¬ Matches k pid q

/-- The process that `p` asks for with `pid` is a child of `p`: any for
`-1`, else one with that pid. -/
def ChildNamed (k : Procs) (p : Ref) (pid : Pid) (r : Ref) : Prop :=
  r ∈ k.procList ∧ (pid = -1 ∨ (k.pcb r).pid = pid)
    ∧ (k.pcb r).parent = some p

/-- The search of `do_waitpid`. -/
def waitSearch (k : Procs) (pid : Pid) : Option Ref :=
  if pid = -1 then findProcZombieToClean k else findProcByPid k pid

theorem waitSearch_eq_some_iff {k : Procs} {pid : Pid} {c : Ref} :
    waitSearch k pid = some c ↔ FirstMatch k pid c := by
  have hfind : waitSearch k pid
      = k.procList.find? fun r => decide (Matches k pid r) := by
    unfold waitSearch findProcZombieToClean findProcByPid
    by_cases hpid : pid = -1
    · simp only [Matches, if_pos hpid, Bool.decide_and, Bool.decide_eq_true]
    · simp only [Matches, if_neg hpid]
  rw [hfind, List.find?_eq_some_iff_append]
  simp only [decide_eq_true_eq, Bool.not_eq_true', decide_eq_false_iff_not,
    FirstMatch]

theorem FirstMatch.mem {k : Procs} {pid : Pid} {c : Ref}
    (h : FirstMatch k pid c) : c ∈ k.procList := by
  obtain ⟨-, before, after, hlist, -⟩ := h
  rw [hlist]
  exact List.mem_append_right _ List.mem_cons_self

theorem FirstMatch.named {k : Procs} {pid : Pid} {c : Ref}
    (h : FirstMatch k pid c) : pid = -1 ∨ (k.pcb c).pid = pid := by
  obtain ⟨hm, -⟩ := h
  unfold Matches at hm
  by_cases hpid : pid = -1
  · exact Or.inl hpid
  · rw [if_neg hpid] at hm
    exact Or.inr hm

/-- A search without a match: `-1` and `ECHILD`. -/
theorem waitpidEnter_no_match {k : Procs} {pid : Pid}
    (h : waitSearch k pid = none) (wstatus : Option (BitVec 32))
    (nohang : Bool) :
    ∃ r, waitpidEnter k pid wstatus nohang = .returned r ∧ r.ret = -1
      ∧ r.errno = some .ECHILD ∧ r.calls = [] ∧ ∃ on, r.k = k.setIrq on := by
  unfold waitSearch at h
  unfold waitpidEnter
  by_cases hpid : pid = -1
  · rw [if_pos hpid] at h
    have h' : findProcZombieToClean (k.setIrq false) = none := h
    simp only [if_pos hpid, h']
    exact ⟨_, rfl, rfl, rfl, rfl, _, rfl⟩
  · rw [if_neg hpid] at h
    have h' : findProcByPid (k.setIrq false) pid = none := h
    simp only [if_neg hpid, h']
    exact ⟨_, rfl, rfl, rfl, rfl, _, rfl⟩

/-- A search with a match: `WNOHANG` ends the call with 0 when the match
has not exited; otherwise the call goes on to wait for it and keeps its
pid. -/
theorem waitpidEnter_match {k : Procs} {pid : Pid} {c : Ref}
    (h : waitSearch k pid = some c) (wstatus : Option (BitVec 32))
    (nohang : Bool) :
    (nohang = true ∧ (k.pcb c).state ≠ .ZOMBIE
      ∧ ∃ r, waitpidEnter k pid wstatus nohang = .returned r ∧ r.ret = 0)
    ∨ (¬ (nohang = true ∧ (k.pcb c).state ≠ .ZOMBIE)
      ∧ ∃ k' w calls, waitpidEnter k pid wstatus nohang = .found k' w calls
        ∧ w.child = c ∧ w.pid = (k.pcb c).pid) := by
  have hfound : ∀ pid', pid' = (k.pcb c).pid →
      (nohang = true ∧ (k.pcb c).state ≠ .ZOMBIE
        ∧ ∃ r, waitpidFound (k.setIrq false) c pid' k.irqEnabled wstatus
          nohang = .returned r ∧ r.ret = 0)
      ∨ (¬ (nohang = true ∧ (k.pcb c).state ≠ .ZOMBIE)
        ∧ ∃ k' w calls, waitpidFound (k.setIrq false) c pid' k.irqEnabled
            wstatus nohang = .found k' w calls
          ∧ w.child = c ∧ w.pid = (k.pcb c).pid) := by
    intro pid' heq
    subst heq
    unfold waitpidFound
    by_cases hgo : nohang = true ∧ (k.pcb c).state ≠ .ZOMBIE
    · rw [if_pos (by simpa [Procs.setIrq] using hgo)]
      exact Or.inl ⟨hgo.1, hgo.2, _, rfl, rfl⟩
    · rw [if_neg (by simpa [Procs.setIrq] using hgo)]
      refine Or.inr ⟨hgo, ?_⟩
      split
      · exact ⟨_, _, _, rfl, rfl, rfl⟩
      · exact ⟨_, _, _, rfl, rfl, rfl⟩
  unfold waitSearch at h
  unfold waitpidEnter
  by_cases hpid : pid = -1
  · rw [if_pos hpid] at h
    have h' : findProcZombieToClean (k.setIrq false) = some c := h
    simp only [if_pos hpid, h']
    exact hfound _ rfl
  · rw [if_neg hpid] at h
    have h' : findProcByPid (k.setIrq false) pid = some c := h
    have hmatch : (k.pcb c).pid = pid := by
      simpa using List.find?_some h
    simp only [if_neg hpid, h']
    exact hfound _ hmatch.symm

/-- The call goes on to wait for `c`, and whenever that wait ends it has
reaped `c` and returns its pid. -/
def Collects (s : Sys) (pid : Pid) (wstatus : Option (BitVec 32))
    (nohang : Bool) (c : Ref) : Prop :=
  ∃ k w calls, waitpidEnter s.k pid wstatus nohang = .found k w calls
    ∧ w.child = c
    ∧ ∀ later s', run (step threadJoin) s later = some s' →
      (waitpidFinish s'.k w).calls = [.resetRootPgtable c true]
        ∧ (waitpidFinish s'.k w).ret = (s.k.pcb c).pid.toInt

/-- What `do_waitpid` owes its caller `p`: it collects children of `p`
only, and without a child to ask for it fails with `ECHILD` and reaps
nothing. -/
def StatusToParent (s : Sys) (p : Ref) (pid : Pid)
    (wstatus : Option (BitVec 32)) (nohang : Bool) : Prop :=
  (∀ c, Collects threadJoin s pid wstatus nohang c →
    (s.k.pcb c).parent = some p)
  ∧ ((∀ r, ¬ ChildNamed s.k p pid r) →
    ∃ r, waitpidEnter s.k pid wstatus nohang = .returned r ∧ r.ret = -1
      ∧ r.errno = some .ECHILD ∧ r.calls = []
      ∧ ∃ on, r.k = s.k.setIrq on)

/-- The search meets a child of `p` first. (Two processes share a pid
only after 2^32 creations; a `WNOHANG` call that meets a stranger which
has not exited does no harm then if `p` has a child of that pid too.) -/
def MeetsOwnChild (k : Procs) (p : Ref) (pid : Pid) (nohang : Bool) :
    Prop :=
  ∀ c, FirstMatch k pid c → (k.pcb c).parent = some p
    ∨ (nohang = true ∧ (k.pcb c).state ≠ .ZOMBIE
      ∧ ∃ r, ChildNamed k p pid r)

/-- However a wait ends, it returns the pid the call kept. -/
theorem waitpidFinish_ret (k : Procs) (w : Wait) :
    (waitpidFinish k w).ret = w.pid.toInt := by
  simp only [waitpidFinish]
  split
  · rfl
  · split <;> rfl

/-- Without ptrace every wait ends by reaping. -/
theorem collects_of_found {s : Sys} (hno : NoPtrace s.k) {pid : Pid}
    {wstatus : Option (BitVec 32)} {nohang : Bool} {k : Procs} {w : Wait}
    {calls : List Call} {c : Ref}
    (h : waitpidEnter s.k pid wstatus nohang = .found k w calls)
    (hc : w.child = c) (hpid : w.pid = (s.k.pcb c).pid) :
    Collects threadJoin s pid wstatus nohang c := by
  refine ⟨k, w, calls, h, hc, fun later s' hrun => ?_⟩
  have hno' : NoPtrace s'.k :=
    run_inv (I := fun s : Sys => NoPtrace s.k)
      (fun _ _ _ h hstep => noPtrace_step threadJoin h hstep) hno hrun
  refine ⟨hc ▸ (waitpidFinish_of_noRequest (hno' w.child)).2, ?_⟩
  rw [← hpid]
  exact waitpidFinish_ret s'.k w

/-- In every reachable state, for every caller and every argument:
`do_waitpid` gives a process its children's exit status only, and
`ECHILD` to a process without a child to ask for, exactly when the first
process of the list that the search matches, if any, is a child of the
caller. -/
theorem status_to_parent_iff (P : Platform) (acts : List Act) (s : Sys)
    (hrun : run (step threadJoin) (Sys.init P) acts = some s) (p : Ref)
    (pid : Pid) (wstatus : Option (BitVec 32)) (nohang : Bool) :
    StatusToParent threadJoin s p pid wstatus nohang ↔
      MeetsOwnChild s.k p pid nohang := by
  have hno := (numbered_run threadJoin hrun).1
  unfold StatusToParent MeetsOwnChild
  cases hsearch : waitSearch s.k pid with
  | none =>
      obtain ⟨r, hr, hrest⟩ := waitpidEnter_no_match hsearch wstatus nohang
      constructor
      · intro _ c hc
        rw [waitSearch_eq_some_iff.mpr hc] at hsearch
        cases hsearch
      · intro _
        refine ⟨?_, fun _ => ⟨r, hr, hrest⟩⟩
        intro c h
        obtain ⟨k, w, calls, hw, -⟩ := h
        rw [hr] at hw
        cases hw
  | some c =>
      have hc := waitSearch_eq_some_iff.mp hsearch
      have honly : ∀ d, FirstMatch s.k pid d → d = c := by
        intro d hd
        rw [waitSearch_eq_some_iff.mpr hd] at hsearch
        exact Option.some.inj hsearch
      have hown : (s.k.pcb c).parent = some p → ChildNamed s.k p pid c :=
        fun hp => ⟨hc.mem, hc.named, hp⟩
      rcases waitpidEnter_match hsearch wstatus nohang with
        ⟨hgo, hz, r, hr, hret⟩ | ⟨hgo, k, w, calls, hw, hwc, hwpid⟩
      · -- `WNOHANG` has ended the call with 0
        constructor
        · intro h d hd
          obtain ⟨-, hnone⟩ := h
          obtain rfl := honly d hd
          by_cases hex : ∃ r, ChildNamed s.k p pid r
          · exact Or.inr ⟨hgo, hz, hex⟩
          · obtain ⟨r', hr', hret', -⟩ :=
              hnone fun r hr => hex ⟨r, hr⟩
            rw [hr] at hr'
            cases hr'
            rw [hret] at hret'
            cases hret'
        · intro hmeets
          refine ⟨?_, fun hnone => ?_⟩
          · intro d h
            obtain ⟨k, w, calls, hw, -⟩ := h
            rw [hr] at hw
            cases hw
          · rcases hmeets c hc with hp | ⟨-, -, r, hr⟩
            · exact absurd (hown hp) (hnone c)
            · exact absurd hr (hnone r)
      · -- the call goes on to wait for `c`
        constructor
        · intro h d hd
          obtain ⟨hall, -⟩ := h
          obtain rfl := honly d hd
          exact Or.inl
            (hall d (collects_of_found threadJoin hno hw hwc hwpid))
        · intro hmeets
          have hp : (s.k.pcb c).parent = some p := by
            rcases hmeets c hc with hp | ⟨hn, hz, -⟩
            · exact hp
            · exact absurd ⟨hn, hz⟩ hgo
          refine ⟨?_, fun hnone => absurd (hown hp) (hnone c)⟩
          intro d h
          obtain ⟨k', w', calls', hw', rfl, -⟩ := h
          rw [hw] at hw'
          cases hw'
          rw [hwc]
          exact hp

/-- A parent waits for its child, which has exited, by pid. -/
theorem status_to_parent_one_child :
    ∃ s, run (step fun _ => none) (Sys.init .sample)
        [.fork 0 0, .exit 1 7] = some s
      ∧ StatusToParent (fun _ => none) s 0 2 (some 0) false := by
  obtain ⟨s, hs⟩ : ∃ s, run (step fun _ => none) (Sys.init .sample)
      [.fork 0 0, .exit 1 7] = some s := ⟨_, rfl⟩
  refine ⟨s, hs, (status_to_parent_iff (fun _ => none) .sample _ s hs 0 2
    (some 0) false).mpr fun c hc => ?_⟩
  have hfirst := waitSearch_eq_some_iff.mpr hc
  cases hs
  cases hfirst
  exact Or.inl rfl

/-- Two children of the root process: the second exits, and the first,
which has no child, collects it with `-1`. -/
theorem status_to_sibling :
    ∃ s, run (step fun _ => none) (Sys.init .sample)
        [.fork 0 0, .fork 0 0, .exit 2 7] = some s
      ∧ Live s.k 1 ∧ (∀ r ∈ s.k.procList, (s.k.pcb r).parent ≠ some 1)
      ∧ Collects (fun _ => none) s (-1) (some 0) false 2
      ∧ ¬ StatusToParent (fun _ => none) s 1 (-1) (some 0) false := by
  obtain ⟨s, hs⟩ : ∃ s, run (step fun _ => none) (Sys.init .sample)
      [.fork 0 0, .fork 0 0, .exit 2 7] = some s := ⟨_, rfl⟩
  have hno := (numbered_run (fun _ => none) hs).1
  have hcollects : Collects (fun _ => none) s (-1) (some 0) false 2 := by
    obtain ⟨k, w, calls, hw, hc, hpid⟩ : ∃ k w calls,
        waitpidEnter s.k (-1) (some 0) false = .found k w calls
          ∧ w.child = 2 ∧ w.pid = (s.k.pcb 2).pid := by
      cases hs
      exact ⟨_, _, _, rfl, rfl, rfl⟩
    exact collects_of_found _ hno hw hc hpid
  have hparent : (s.k.pcb 2).parent ≠ some 1 := by
    cases hs
    decide
  refine ⟨s, hs, by cases hs; decide, by cases hs; decide, hcollects,
    fun h => hparent (h.1 2 hcollects)⟩

end SyeLabs.Process
