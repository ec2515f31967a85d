/-
Zombies: which processes `do_waitpid` destroys, and whether a finished
process can come back.

# Only zombies are destroyed

The joining part of `do_waitpid` is skipped for a child in `WAITING`, and
the last branch frees whatever process is left without a pending request.
A wait by pid for a child that merely waits therefore frees the page
table of a process that is going to run again.

The other way is a second wait for one child. The first to end frees its
page table and its PCB, and new processes may get that memory; the
second then reads and frees what may belong to a live process. The model
keeps freed PCBs and never hands them out again, so such a wait counts
as wrong by itself: `only_zombies` asks that every wait that ends finds
its child unreleased.

# A zombie stays one

The resumption of a stopped child looks at the pending request and not at
the state. A request that was still pending when the child exited turns
the zombie into a ready process at the next wait. `never_back_iff`: that
is the only way back.

The exit and the later step are actions of one run, so the second result
carries an invariant through the part between them: the processes that
are no zombies have the main thread they were created with (`Threaded`),
which tells the thread of the zombie from all that are made ready.
-/
import Mathlib.Data.List.Induction
import SyeLabs.Process.Ptrace
import SyeLabs.Process.Reaping

namespace SyeLabs.Process

open Lib

variable (threadJoin : Option Tid → Option Tid)

-- ================================================================= destruction

/-- A step frees the page table of `c` or removes its PCB. -/
def Destroys (s s' : Sys) (c : Ref) : Prop :=
  freed s c < freed s' c ∨ c ∈ s.k.procList ∧ c ∉ s'.k.procList

/-- No wait has released the process: it is in the list, and its page
table has not been freed. -/
def Unreleased (s : Sys) (c : Ref) : Prop :=
  c ∈ s.k.procList ∧ freed s c = 0

/-- The action destroys zombies only: a wait that ends finds its child
unreleased, so that what it frees is the child's, and who is destroyed is
a zombie before and after the step. -/
def OnlyZombies (s : Sys) (a : TracedAct) : Prop :=
  (∀ b t w, a = .act b → finishing threadJoin s b = some (t, w) →
    Unreleased s w.child)
  ∧ ∀ s', tracedStep threadJoin s a = some s' → ∀ c, Destroys s s' c →
    (s.k.pcb c).state = .ZOMBIE ∧ (s'.k.pcb c).state = .ZOMBIE

/-- The action is no wait that goes on with a child in `WAITING` without
a pending request. -/
def NoneWaiting (s : Sys) : TracedAct → Prop
  | .act (.wait p pid _ nohang) =>
      Live s.k p → ∀ c ∈ waitTarget s.k pid nohang,
        ¬ ((s.k.pcb c).state = .WAITING
          ∧ (s.k.pcb c).ptracePendingReq = .noRequest)
  | _ => True

/-- The action is no wait for a process that an earlier wait has reaped
or is still blocked on. -/
def NoneClaimed (s : Sys) : TracedAct → Prop
  | .act a => Unclaimed s a
  | .ptrace _ _ => True

variable {threadJoin}

/-- The end of a wait destroys nobody but its child, and that only
without a pending request. -/
theorem finish_destroys {s t : Sys} {a : Act} {w : Wait} {c : Ref}
    (h : Ends threadJoin s a t w) (hc : Destroys s (t.finish w) c) :
    c = w.child ∧ (s.k.pcb w.child).ptracePendingReq = .noRequest := by
  obtain ⟨htrace, hlist, hreq⟩ := ends_kept threadJoin h
  rw [← hreq]
  by_cases hno : (t.k.pcb w.child).ptracePendingReq = .noRequest
  · refine ⟨?_, hno⟩
    obtain ⟨hk, hcalls⟩ := waitpidFinish_of_noRequest hno
    rcases hc with hfreed | ⟨hin, hout⟩
    · rw [freed, freed, Sys.finish, hcalls, htrace] at hfreed
      by_contra hne
      simp [Ne.symm hne] at hfreed
    · by_contra hne
      apply hout
      rw [Sys.finish, hk]
      show c ∈ (removeIfChildless t.k w.child).procList
      rw [removeIfChildless_procList, mem_reap_of_ne hne, hlist]
      exact hin
  · obtain ⟨hk, hcalls⟩ := waitpidFinish_of_request hno
    rcases hc with hfreed | ⟨hin, hout⟩
    · rw [freed, freed, Sys.finish, hcalls, htrace, List.append_nil]
        at hfreed
      exact absurd hfreed (Nat.lt_irrefl _)
    · exfalso
      apply hout
      rw [Sys.finish, hk]
      show c ∈ t.k.procList
      rw [hlist]
      exact hin

/-- A step that frees no page table and drops nobody from the list; who
is new is in it. -/
structure Keeps (s s' : Sys) : Prop where
  freed : ∀ c, freed s' c = freed s c
  procList : s.k.procList ⊆ s'.k.procList
  born : ∀ c, c < s'.k.nextRef → c < s.k.nextRef ∨ c ∈ s'.k.procList

/-- A step keeps everybody, or a wait ends in it. -/
theorem keeps_or_ends {s s' : Sys} {a : TracedAct}
    (hstep : tracedStep threadJoin s a = some s') :
    Keeps s s' ∨ ∃ b t w, a = .act b ∧ Ends threadJoin s b t w
      ∧ s' = t.finish w := by
  have hkept : ∀ {s' : Sys} (calls : List Call),
      s'.trace = s.trace ++ calls → s'.k.procList = s.k.procList →
      s'.k.nextRef = s.k.nextRef →
      (∀ r, .resetRootPgtable r true ∉ calls) → Keeps s s' := by
    intro s' calls htrace hlist hnext hcalls
    refine ⟨fun c => ?_, hlist ▸ List.Subset.refl _,
      fun c hc => Or.inl (hnext ▸ hc)⟩
    rw [freed, freed, htrace, List.count_append,
      List.count_eq_zero.mpr (hcalls c), Nat.add_zero]
  cases a with
  | ptrace q req =>
      simp only [tracedStep] at hstep
      split at hstep
      next =>
        cases hstep
        exact Or.inl (hkept [] (List.append_nil _).symm rfl rfl (by simp))
      next => cases hstep
  | act a =>
      cases step_taken threadJoin hstep with
      | idle on _ =>
          exact Or.inl (hkept [] (List.append_nil _).symm rfl rfl (by simp))
      | forked _ _ hf =>
          refine Or.inl ⟨fun c => ?_, ?_, fun c hc => ?_⟩
          · rw [freed, freed, List.count_append]
            simp
          · rw [hf.procList]
            exact List.subset_append_left _ _
          · rw [hf.nextRef] at hc
            rcases Nat.lt_succ_iff_lt_or_eq.mp hc with hold | rfl
            · exact Or.inl hold
            · refine Or.inr ?_
              rw [hf.procList]
              exact List.mem_append_right _ (List.mem_singleton_self _)
      | exited _ _ => exact Or.inl (hkept _ rfl rfl rfl (by simp))
      | scheduled _ _ =>
          exact Or.inl (hkept [] (List.append_nil _).symm rfl rfl (by simp))
      | woken _ _ _ => exact Or.inl (hkept _ rfl rfl rfl (by simp))
      | blocked _ _ _ =>
          exact Or.inl (hkept [] (List.append_nil _).symm rfl rfl (by simp))
      | @ended _ t w hfin =>
          exact Or.inr
            ⟨a, t, w, rfl, (finishing_ends threadJoin hfin).1, rfl⟩

/-- Only the end of a wait destroys anybody. -/
theorem destroys_ended {s s' : Sys} {a : TracedAct} {c : Ref}
    (hstep : tracedStep threadJoin s a = some s') (hc : Destroys s s' c) :
    ∃ b t w, a = .act b ∧ Ends threadJoin s b t w ∧ s' = t.finish w := by
  refine (keeps_or_ends hstep).resolve_left fun hkeeps => ?_
  rcases hc with hfreed | ⟨hin, hout⟩
  · exact absurd (hkeeps.freed c) (Nat.ne_of_gt hfreed)
  · exact hout (hkeeps.procList hin)

variable (threadJoin)

/-- A wait for a child in `WAITING` without a pending request frees its
page table. -/
theorem wait_waiting {s : Sys} {p c : Ref} {pid : Pid} {nohang : Bool}
    (wstatus : Option (BitVec 32)) (hp : Live s.k p)
    (ht : waitTarget s.k pid nohang = some c)
    (hst : (s.k.pcb c).state = .WAITING)
    (hreq : (s.k.pcb c).ptracePendingReq = .noRequest) :
    ∃ s', tracedStep threadJoin s (.act (.wait p pid wstatus nohang))
      = some s' ∧ Destroys s s' c := by
  have hno : ¬ mustResume (s.k.pcb c) = true := by simp [mustResume, hreq]
  have hst' : ((s.k.setIrq false).pcb c).state = .WAITING := hst
  have henter := waitpidEnter_found ht wstatus
  rw [if_neg hno] at henter
  simp only [tracedStep, step, if_pos hp, henter, Sys.await, hst',
    List.append_nil]
  refine ⟨_, rfl, Or.inl ?_⟩
  have hcalls := (waitpidFinish_of_noRequest (k := s.k.setIrq false)
    (w := waitFor s.k c wstatus) hreq).2
  have hfin : (Sys.finish { s with k := s.k.setIrq false }
      (waitFor s.k c wstatus)).trace
        = s.trace ++ [.resetRootPgtable c true] :=
    congrArg (s.trace ++ ·) hcalls
  show freed s c < List.count _ (Sys.finish { s with k := s.k.setIrq false }
    (waitFor s.k c wstatus)).trace
  rw [hfin, List.count_append, List.count_singleton_self]
  exact Nat.lt_succ_self _

variable {threadJoin}

/-- Every process has been claimed by one wait at most, and the children
of the blocked waits are in the list. -/
structure SoleWaits (s : Sys) : Prop where
  claims : ∀ c, claims s c ≤ 1
  waits : ∀ w ∈ s.waits, w.child ∈ s.k.procList

theorem soleWaits_init (P : Platform) : SoleWaits (Sys.init P) where
  claims := fun c => (claims_init P c).trans_le (Nat.zero_le 1)
  waits := fun _ h => nomatch h

theorem SoleWaits.unreleased {s : Sys} (h : SoleWaits s) {w : Wait}
    (hw : w ∈ s.waits) : Unreleased s w.child := by
  have hone := h.claims w.child
  have hpos : 0 < s.waits.countP (·.child = w.child) :=
    List.countP_pos_iff.mpr ⟨w, hw, by simp⟩
  unfold Process.claims at hone
  exact ⟨h.waits w hw, by omega⟩

/-- A wait that ends finds its child unreleased, and no other wait has
claimed it. -/
theorem SoleWaits.ends {s t : Sys} {a : Act} {w : Wait} (h : SoleWaits s)
    (hC : Unclaimed s a) (he : Ends threadJoin s a t w) :
    Unreleased s w.child ∧ t.waits ⊆ s.waits
      ∧ ∀ c, Process.claims t c + (if w.child = c then 1 else 0) ≤ 1 := by
  have hfound : ∀ {p : Ref} {pid : Pid} {wstatus : Option (BitVec 32)}
      {nohang : Bool} {c : Ref}, Unclaimed s (.wait p pid wstatus nohang) →
      waitTarget s.k pid nohang = some c →
      Unreleased s c ∧ ∀ d, Process.claims s d + (if c = d then 1 else 0) ≤ 1
      := by
    intro p pid wstatus nohang c hC ht
    have hzero : Process.claims s c = 0 :=
      (claims_eq_zero_iff s c).mpr (hC c ht)
    refine ⟨⟨waitTarget_mem ht, ?_⟩, fun d => ?_⟩
    · exact (Nat.add_eq_zero_iff.mp hzero).1
    · have hone := h.claims d
      split
      next hd => rw [← hd, hzero]
      next => exact hone
  cases he with
  | skipped _ ht _ _ =>
      obtain ⟨hun, hcl⟩ := hfound hC ht
      exact ⟨hun, List.Subset.refl _, hcl⟩
  | found _ ht _ _ =>
      obtain ⟨hun, hcl⟩ := hfound hC ht
      exact ⟨hun, List.Subset.refl _, hcl⟩
  | resumed hw _ =>
      refine ⟨h.unreleased hw, List.erase_subset, fun c => ?_⟩
      have hone := h.claims c
      have hperm := (List.perm_cons_erase hw).countP_eq (·.child = c)
      rw [List.countP_cons] at hperm
      simp only [Process.claims, freed, decide_eq_true_eq] at hone hperm ⊢
      omega

/-- The rest of the wait claims no more than its child, and takes only
that out of the list. -/
theorem SoleWaits.finish {s t : Sys} {a : Act} {w : Wait}
    (h : SoleWaits s) (hC : Unclaimed s a)
    (he : Ends threadJoin s a t w) : SoleWaits (t.finish w) := by
  obtain ⟨-, hsub, hone⟩ := h.ends hC he
  obtain ⟨-, hlist, -⟩ := ends_kept threadJoin he
  by_cases hreq : (t.k.pcb w.child).ptracePendingReq = .noRequest
  · obtain ⟨k', hr, heq⟩ := finish_reaped hreq
    rw [heq]
    constructor
    · intro c
      have hc := hone c
      simp only [Process.claims, freed, List.count_append,
        List.count_singleton, beq_iff_eq, Call.resetRootPgtable.injEq,
        and_true] at hc ⊢
      omega
    · intro w' hw'
      have hne : w'.child ≠ w.child := by
        intro heq'
        have hc := hone w.child
        have hpos : 0 < t.waits.countP (·.child = w.child) :=
          List.countP_pos_iff.mpr ⟨w', hw', by simp [heq']⟩
        rw [if_pos rfl] at hc
        unfold Process.claims at hc
        omega
      show w'.child ∈ k'.procList
      rw [hr.procList, mem_reap_of_ne hne, hlist]
      exact h.waits w' (hsub hw')
  · obtain ⟨hk, hcalls⟩ := waitpidFinish_of_request hreq
    rw [Sys.finish, hk, hcalls, List.append_nil]
    exact ⟨fun c => Nat.le_of_add_right_le (hone c),
      fun w' hw' => hlist ▸ h.waits w' (hsub hw')⟩

/-- A wait that blocks claims its target, which is in the list. -/
theorem SoleWaits.block {s s' : Sys} {c : Ref} {wstatus : Option (BitVec 32)}
    (h : SoleWaits s) (hzero : Process.claims s c = 0)
    (hc : c ∈ s.k.procList) (hlist : s'.k.procList = s.k.procList)
    (hwaits : s'.waits = s.waits ++ [waitFor s.k c wstatus])
    (hfreed : ∀ d, freed s' d = freed s d) : SoleWaits s' := by
  constructor
  · intro d
    have hone := h.claims d
    have hadd : Process.claims s' d
        = Process.claims s d + if c = d then 1 else 0 := by
      simp only [Process.claims, hfreed, hwaits, List.countP_append,
        List.countP_singleton, decide_eq_true_eq]
      rw [Nat.add_assoc]
      rfl
    rw [hadd]
    split
    next hd => rw [← hd, hzero]
    next => exact hone
  · intro w hw
    rw [hlist]
    rw [hwaits, List.mem_append, List.mem_singleton] at hw
    rcases hw with hw | rfl
    · exact h.waits w hw
    · exact hc

theorem SoleWaits.step {s s' : Sys} {a : TracedAct} (h : SoleWaits s)
    (hC : NoneClaimed s a) (hstep : tracedStep threadJoin s a = some s') :
    SoleWaits s' := by
  have hkept : ∀ {s' : Sys}, s'.waits = s.waits →
      (∀ c, freed s' c = freed s c) → s.k.procList ⊆ s'.k.procList →
      SoleWaits s' := by
    intro s' hwaits hfreed hlist
    refine ⟨fun c => ?_, fun w hw => hlist (h.waits w (hwaits ▸ hw))⟩
    rw [Process.claims, hwaits, hfreed]
    exact h.claims c
  cases a with
  | ptrace c req =>
      simp only [tracedStep] at hstep
      split at hstep
      next =>
        cases hstep
        exact hkept rfl (fun _ => rfl) (List.Subset.refl _)
      next => cases hstep
  | act a =>
      have hzero : ∀ c, target s.k a = some c → Process.claims s c = 0 :=
        fun c hc => (claims_eq_zero_iff s c).mpr (hC c hc)
      cases step_taken threadJoin hstep with
      | idle on _ => exact hkept rfl (fun _ => rfl) (List.Subset.refl _)
      | forked _ _ hf =>
          refine hkept rfl (fun c => ?_) ?_
          · simp [freed]
          · rw [hf.procList]
            exact List.subset_append_left _ _
      | exited _ _ =>
          exact hkept rfl (fun c => by simp [freed]) (List.Subset.refl _)
      | scheduled _ _ =>
          exact hkept rfl (fun _ => rfl) (List.Subset.refl _)
      | woken _ ht _ =>
          exact h.block (hzero _ ht) (waitTarget_mem ht) rfl rfl
            fun d => by simp [freed]
      | blocked _ ht _ =>
          exact h.block (hzero _ ht) (waitTarget_mem ht) rfl rfl
            fun _ => rfl
      | ended hfin => exact h.finish hC (finishing_ends threadJoin hfin).1

/-- Where the waits before have claimed each process once, the action
destroys zombies only if it is no wait of either kind. -/
theorem SoleWaits.onlyZombies {s : Sys} {a : TracedAct} (h : SoleWaits s)
    (hC : NoneClaimed s a) (hW : NoneWaiting s a) :
    OnlyZombies threadJoin s a := by
  constructor
  · rintro b t w rfl hfin
    exact (h.ends hC (finishing_ends threadJoin hfin).1).1
  · intro s' hstep c hdes
    obtain ⟨b, t, w, rfl, hends, rfl⟩ := destroys_ended hstep hdes
    obtain ⟨rfl, hreq⟩ := finish_destroys hends hdes
    have hstate := ((quiet_ends threadJoin hends).trans
      (quiet_finish t w)).state w.child
    rw [hstate]
    cases hends with
    | skipped hp ht _ hst => exact absurd ⟨hst, hreq⟩ (hW hp _ ht)
    | found _ _ _ hz => exact ⟨hz, hz⟩
    | resumed _ hz => exact ⟨hz, hz⟩

variable (threadJoin)

/-- In a run of forks, exits, waits, ptrace requests and scheduling, the
steps destroy zombies only if no wait goes on with a child in `WAITING`
without a pending request, and none goes on with a process that another
one has claimed; and only if the former holds. -/
theorem only_zombies (P : Platform) (acts : List TracedAct) :
    (Along (tracedStep threadJoin)
        (fun s a => NoneWaiting s a ∧ NoneClaimed s a) (Sys.init P) acts →
      Along (tracedStep threadJoin) (OnlyZombies threadJoin) (Sys.init P)
        acts)
    ∧ (Along (tracedStep threadJoin) (OnlyZombies threadJoin) (Sys.init P)
        acts →
      Along (tracedStep threadJoin) NoneWaiting (Sys.init P) acts) := by
  constructor
  · intro h
    exact along_of_along (I := SoleWaits)
      (fun _ _ hs hC => hs.onlyZombies hC.2 hC.1)
      (fun _ _ _ hs hC hstep => hs.step hC.2 hstep) (soleWaits_init P) h
  · intro h
    refine along_of_along (I := fun _ => True) (fun s a _ hZ => ?_)
      (fun _ _ _ _ _ _ => trivial) trivial h
    match a with
    | .act (.wait p pid wstatus nohang) =>
        rintro hp c hc ⟨hst, hreq⟩
        obtain ⟨s', hstep, hdes⟩ :=
          wait_waiting threadJoin wstatus hp hc hst hreq
        have hz := (hZ.2 s' hstep c hdes).1
        rw [hst] at hz
        cases hz
    | .ptrace _ _ | .act (.fork _ _) | .act (.exit _ _)
    | .act (.resume _) | .act (.sched _ _) => trivial

/-- The root process forks, its child waits for an event, and the root
waits for the child: the page table and the PCB of the waiting child
go. -/
theorem waiting_child_destroyed :
    ∃ s s', run (tracedStep fun _ => none) (Sys.init .sample)
        [.act (.fork 0 0), .act (.sched 1 .WAITING)] = some s
      ∧ tracedStep (fun _ => none) s (.act (.wait 0 2 none false)) = some s'
      ∧ freed s' 1 = 1 ∧ 1 ∈ s.k.procList ∧ 1 ∉ s'.k.procList
      ∧ (s.k.pcb 1).state = .WAITING
      ∧ ¬ ∀ acts, Along (tracedStep fun _ => none)
        (OnlyZombies fun _ => none) (Sys.init .sample) acts := by
  obtain ⟨s, hs⟩ : ∃ s, run (tracedStep fun _ => none) (Sys.init .sample)
      [.act (.fork 0 0), .act (.sched 1 .WAITING)] = some s := ⟨_, rfl⟩
  obtain ⟨s', hs'⟩ : ∃ s', tracedStep (fun _ => none) s
      (.act (.wait 0 2 none false)) = some s' := by
    cases hs
    exact ⟨_, rfl⟩
  have hfreed : freed s' 1 = 1 := by
    cases hs
    cases hs'
    decide
  have hbefore : freed s 1 = 0 := by
    cases hs
    decide
  have hin : 1 ∈ s.k.procList := by
    cases hs
    decide
  have hout : 1 ∉ s'.k.procList := by
    cases hs
    cases hs'
    decide
  have hst : (s.k.pcb 1).state = .WAITING := by
    cases hs
    rfl
  refine ⟨s, s', hs, hs', hfreed, hin, hout, hst, fun h => ?_⟩
  have hz := (along_iff_forall_split.mp
    (h [.act (.fork 0 0), .act (.sched 1 .WAITING),
      .act (.wait 0 2 none false)])
    [.act (.fork 0 0), .act (.sched 1 .WAITING)] _ [] s rfl hs).2 s' hs' 1
    (Or.inr ⟨hin, hout⟩) |>.1
  rw [hst] at hz
  cases hz

-- ================================================================= no way back

/-- Once `do_exit` has put a process in `ZOMBIE`, no later step of the run
puts it in `READY` or makes its main thread ready. -/
def NeverBack (P : Platform) (acts : List TracedAct) : Prop :=
  ∀ pre p status mid a post s t t',
    acts = pre ++ .act (.exit p status) :: (mid ++ a :: post) →
    run (tracedStep threadJoin) (Sys.init P) pre = some s →
    run (tracedStep threadJoin) (Sys.init P)
      (pre ++ .act (.exit p status) :: mid) = some t →
    tracedStep threadJoin t a = some t' →
    (t'.k.pcb p).state ≠ .READY
      ∧ t'.trace.count (.ready (s.k.pcb p).mainThread)
        = t.trace.count (.ready (s.k.pcb p).mainThread)

/-- The action is no wait that finds a zombie with a pending request other
than `PTRACE_TRACEME`. -/
def NoneStopped (s : Sys) : TracedAct → Prop
  | .act (.wait p pid _ nohang) =>
      Live s.k p → ∀ c ∈ waitTarget s.k pid nohang,
        (s.k.pcb c).state = .ZOMBIE → mustResume (s.k.pcb c) = false
  | _ => True

/-- The processes that are no zombies have the main thread they were
created with: the thread numbered like the process. -/
structure Threaded (s : Sys) : Prop where
  listed : Listed s.k
  nextTid : s.k.nextTid = s.k.nextRef
  mainThread : ∀ r, r < s.k.nextRef → (s.k.pcb r).state ≠ .ZOMBIE →
    (s.k.pcb r).mainThread = some r

variable {threadJoin}

theorem Threaded.quiet {s s' : Sys} (h : Threaded s) (hq : Quiet s s') :
    Threaded s' where
  listed := h.listed.quiet hq
  nextTid := hq.nextTid.trans (h.nextTid.trans hq.nextRef.symm)
  mainThread := by
    intro r hr hst
    rw [hq.state] at hst
    rw [hq.mainThread r hst]
    exact h.mainThread r (hq.nextRef ▸ hr) hst

/-- A child starts with a main thread of its own. -/
theorem doFork_thread {k : Procs} {p : Ref} {thread : Tid}
    (h : Forked k (doFork k p thread).k p) :
    (doFork k p thread).k.nextTid = k.nextTid + 1
      ∧ ((doFork k p thread).k.pcb k.nextRef).mainThread
        = some k.nextTid := by
  obtain ⟨name, hchild, -⟩ := doFork_child h.main
  obtain ⟨-, htid, -⟩ := doFork_main h.main
  exact ⟨htid, congrArg Pcb.mainThread hchild⟩

theorem threaded_step {s s' : Sys} {a : TracedAct} (h : Threaded s)
    (hC : NoneStopped s a) (hstep : tracedStep threadJoin s a = some s') :
    Threaded s' := by
  have hfield : ∀ {k : Procs} {waits : List Wait} {trace : List Call}
      {p : Ref} {f : Pcb → Pcb} (on : Bool), k = (s.k.setIrq on).setPcb p f →
      (∀ pcb, (f pcb).mainThread = pcb.mainThread) →
      ((f (s.k.pcb p)).state ≠ .ZOMBIE → (s.k.pcb p).state ≠ .ZOMBIE) →
      Threaded ⟨k, waits, trace⟩ := by
    rintro k waits trace p f on rfl hthread hzombie
    refine ⟨⟨h.listed.known, h.listed.nodup⟩, h.nextTid, fun r hr hst => ?_⟩
    simp only [setPcb_pcb] at hst ⊢
    split at hst
    next heq =>
      rw [if_pos heq, hthread]
      exact h.mainThread r hr (heq ▸ hzombie (heq ▸ hst))
    next hne =>
      rw [if_neg hne]
      exact h.mainThread r hr hst
  cases tracedStep_taken threadJoin hstep with
  | quiet hq => exact h.quiet hq
  | @forked p thread _ _ hk hf =>
      subst hk
      obtain ⟨htid, hthread⟩ := doFork_thread hf
      constructor
      · exact h.listed.forked hf
      · show (doFork s.k p thread).k.nextTid = _
        rw [htid, h.nextTid]
        exact hf.nextRef.symm
      · intro r hr hst
        by_cases hnew : r = s.k.nextRef
        · rw [hnew]
          exact hthread.trans (congrArg some h.nextTid)
        · have hr' : r < s.k.nextRef + 1 := hf.nextRef ▸ hr
          simp only [hf.others r hnew] at hst ⊢
          exact h.mainThread r
            (Nat.lt_of_le_of_ne (Nat.lt_succ_iff.mp hr') hnew) hst
  | exited hlive => exact hfield false rfl (fun _ => rfl) fun _ => hlive.2
  | scheduled hlive _ =>
      exact hfield s.k.irqEnabled rfl (fun _ => rfl) fun _ => hlive.2
  | woken hp ht hreq =>
      refine hfield false rfl (fun _ => rfl) fun _ hz => ?_
      rw [hC hp _ ht hz] at hreq
      cases hreq

theorem threaded_init (P : Platform) : Threaded (Sys.init P) where
  listed := listed_init P
  nextTid := rfl
  mainThread := by
    intro r hr _
    rw [Nat.lt_one_iff.mp hr]
    rfl

/-- A step of the kind keeps every zombie one and makes no thread of a
zombie ready. -/
theorem zombie_step {s s' : Sys} {a : TracedAct} (h : Threaded s)
    (hC : NoneStopped s a) (hstep : tracedStep threadJoin s a = some s')
    {p : Ref} (hp : p < s.k.nextRef) (hz : (s.k.pcb p).state = .ZOMBIE) :
    (s'.k.pcb p).state = .ZOMBIE
      ∧ s'.trace.count (.ready (some p)) = s.trace.count (.ready (some p))
    := by
  cases tracedStep_taken threadJoin hstep with
  | quiet hq => exact ⟨(hq.state p).trans hz, hq.ready (some p)⟩
  | forked _ _ hf =>
      refine ⟨?_, by simp⟩
      rw [hf.others p (Nat.ne_of_lt hp)]
      exact hz
  | exited _ =>
      refine ⟨?_, by simp⟩
      simp only [setPcb_pcb]
      split
      · rfl
      · exact hz
  | @scheduled q _ hlive _ =>
      have hne : p ≠ q := fun heq => hlive.2 (heq ▸ hz)
      refine ⟨?_, rfl⟩
      rw [setPcb_pcb, if_neg hne]
      exact hz
  | @woken _ pid _ nohang c hq ht hreq =>
      have hc : (s.k.pcb c).state ≠ .ZOMBIE := by
        intro hcz
        rw [hC hq c ht hcz] at hreq
        cases hreq
      have hne : p ≠ c := fun heq => hc (heq ▸ hz)
      have hmem : c ∈ s.k.procList := waitTarget_mem ht
      refine ⟨?_, ?_⟩
      · rw [setPcb_pcb, if_neg hne]
        exact hz
      · rw [h.mainThread c (h.listed.known c hmem) hc]
        simp [Ne.symm hne]

/-- Only `do_exit` makes a zombie. -/
theorem zombie_of_step {s s' : Sys} {a : TracedAct}
    (hstep : tracedStep threadJoin s a = some s') {p : Ref}
    (hz : (s'.k.pcb p).state = .ZOMBIE) :
    (s.k.pcb p).state = .ZOMBIE ∨ ∃ status, a = .act (.exit p status) := by
  cases tracedStep_taken threadJoin hstep with
  | quiet hq => exact Or.inl ((hq.state p).symm.trans hz)
  | forked _ _ hf =>
      by_cases hnew : p = s.k.nextRef
      · simp only [hnew, hf.state] at hz
        cases hz
      · exact Or.inl (hf.others p hnew ▸ hz)
  | exited _ =>
      simp only [setPcb_pcb] at hz
      split at hz
      next heq => exact Or.inr ⟨_, by rw [heq]⟩
      next => exact Or.inl hz
  | scheduled _ hst =>
      simp only [setPcb_pcb] at hz
      split at hz
      · exact absurd hz hst
      · exact Or.inl hz
  | woken _ _ _ =>
      simp only [setPcb_pcb] at hz
      split at hz
      · cases hz
      · exact Or.inl hz

/-- A zombie has exited earlier in the run. -/
theorem zombie_exited {P : Platform} {acts : List TracedAct} {p : Ref} :
    ∀ {s : Sys}, run (tracedStep threadJoin) (Sys.init P) acts = some s →
      (s.k.pcb p).state = .ZOMBIE →
      ∃ pre status mid, acts = pre ++ .act (.exit p status) :: mid := by
  induction acts using List.reverseRecOn with
  | nil =>
      intro s hrun hz
      cases hrun
      cases p with
      | zero => cases hz
      | succ p => cases hz
  | append_singleton acts a ih =>
      intro s hrun hz
      rw [run_concat] at hrun
      obtain ⟨t, ht, hstep⟩ := Option.bind_eq_some_iff.mp hrun
      rcases zombie_of_step hstep hz with hzt | ⟨status, rfl⟩
      · obtain ⟨pre, status, mid, rfl⟩ := ih ht hzt
        exact ⟨pre, status, mid ++ [a], by simp⟩
      · exact ⟨acts, status, [], rfl⟩

variable (threadJoin)

/-- A wait that finds a zombie with a pending request makes it ready. -/
theorem wait_stopped {s : Sys} {p c : Ref} {pid : Pid} {nohang : Bool}
    (wstatus : Option (BitVec 32)) (hp : Live s.k p)
    (ht : waitTarget s.k pid nohang = some c)
    (hreq : mustResume (s.k.pcb c) = true) :
    ∃ s', tracedStep threadJoin s (.act (.wait p pid wstatus nohang))
      = some s' ∧ (s'.k.pcb c).state = .READY := by
  have henter := waitpidEnter_found ht wstatus
  rw [if_pos hreq] at henter
  have hready : (((s.k.setIrq false).setPcb c fun pcb =>
      { pcb with state := .READY }).pcb c).state = .READY := by
    rw [setPcb_pcb, if_pos rfl]
  simp only [tracedStep, step, if_pos hp, henter, Sys.await, hready]
  exact ⟨_, rfl, hready⟩

/-- In a run of forks, exits, waits, scheduling and ptrace requests, no
process comes back after its exit exactly when no wait finds a zombie
with a pending request other than `PTRACE_TRACEME`. -/
theorem never_back_iff (P : Platform) (acts : List TracedAct) :
    NeverBack threadJoin P acts
      ↔ Along (tracedStep threadJoin) NoneStopped (Sys.init P) acts := by
  constructor
  · intro h
    rw [along_iff_forall_split]
    intro before a post t heq hrun
    match a with
    | .act (.wait q pid wstatus nohang) =>
        intro hq c hc hz
        by_contra hreq
        obtain ⟨t', hstep, hready⟩ := wait_stopped threadJoin wstatus hq hc
          (Bool.not_eq_false _ ▸ hreq)
        obtain ⟨pre, status, mid, rfl⟩ := zombie_exited hrun hz
        have hrun' := hrun
        rw [run_append] at hrun'
        obtain ⟨s, hs, -⟩ := Option.bind_eq_some_iff.mp hrun'
        exact (h pre c status mid _ post s t t' (by rw [heq]; simp) hs hrun
          hstep).1 hready
    | .ptrace _ _ | .act (.fork _ _) | .act (.exit _ _)
    | .act (.resume _) | .act (.sched _ _) => trivial
  · intro h pre p status mid a post s t t' heq hs ht hstep
    have hkept : ∀ v b v', (Threaded v ∧ p < v.k.nextRef
          ∧ (v.k.pcb p).state = .ZOMBIE) →
        NoneStopped v b → tracedStep threadJoin v b = some v' →
        Threaded v' ∧ p < v'.k.nextRef ∧ (v'.k.pcb p).state = .ZOMBIE := by
      intro v b v' hv hC hb
      obtain ⟨hthreaded, hp, hz⟩ := hv
      exact ⟨threaded_step hthreaded hC hb,
        Nat.lt_of_lt_of_le hp (nextRef_step hb),
        (zombie_step hthreaded hC hb hp hz).1⟩
    rw [heq, along_append] at h
    obtain ⟨hpre, hrest⟩ := h
    have hthreaded : Threaded s := run_inv_along
      (fun _ _ _ hv hC hb => threaded_step hv hC hb) (threaded_init P) hpre hs
    obtain ⟨hexit, hmid⟩ := along_cons_iff.mp (hrest s hs)
    rw [run_append, hs, Option.bind_some] at ht
    obtain ⟨u, hu, hut⟩ := run_cons_iff.mp ht
    obtain ⟨hlive, hz, -⟩ := exit_step hu
    obtain ⟨halong, hlast⟩ := along_append.mp (hmid u hu)
    obtain ⟨ht, hp, hzt⟩ := run_inv_along hkept
      ⟨threaded_step hthreaded hexit hu,
        Nat.lt_of_lt_of_le hlive.1 (nextRef_step hu), hz⟩ halong hut
    obtain ⟨hzt', hready⟩ := zombie_step ht
      (along_cons_iff.mp (hlast t hut)).1 hstep hp hzt
    rw [hthreaded.mainThread p hlive.1 hlive.2, hzt']
    exact ⟨nofun, hready⟩

/-- The root process forks, a request is set for the child, the child
exits, and the root waits for it: the child is ready again. -/
theorem zombie_comes_back :
    ∃ s s', run (tracedStep fun _ => none) (Sys.init .sample)
        [.act (.fork 0 0), .ptrace 1 (.other 7), .act (.exit 1 0)] = some s
      ∧ (s.k.pcb 1).state = .ZOMBIE
      ∧ tracedStep (fun _ => none) s (.act (.wait 0 2 none false)) = some s'
      ∧ (s'.k.pcb 1).state = .READY ∧ .ready (some 1) ∈ s'.trace
      ∧ ¬ NeverBack (fun _ => none) .sample
        [.act (.fork 0 0), .ptrace 1 (.other 7), .act (.exit 1 0),
          .act (.wait 0 2 none false)] := by
  obtain ⟨s₀, hs₀⟩ : ∃ s, run (tracedStep fun _ => none) (Sys.init .sample)
      [.act (.fork 0 0), .ptrace 1 (.other 7)] = some s := ⟨_, rfl⟩
  obtain ⟨s, hs⟩ : ∃ s, run (tracedStep fun _ => none) (Sys.init .sample)
      [.act (.fork 0 0), .ptrace 1 (.other 7), .act (.exit 1 0)] = some s :=
    ⟨_, rfl⟩
  obtain ⟨s', hs'⟩ : ∃ s', tracedStep (fun _ => none) s
      (.act (.wait 0 2 none false)) = some s' := by
    cases hs
    exact ⟨_, rfl⟩
  have hready : (s'.k.pcb 1).state = .READY := by
    cases hs
    cases hs'
    rfl
  refine ⟨s, s', hs, ?_, hs', hready, ?_, fun h => ?_⟩
  · cases hs
    rfl
  · cases hs
    cases hs'
    decide
  · exact (h [.act (.fork 0 0), .ptrace 1 (.other 7)] 1 0 []
      (.act (.wait 0 2 none false)) [] s₀ s s' rfl hs₀ hs hs').1 hready

end SyeLabs.Process
