/-
Reaping: how often the page table of a process is freed, and which
processes are left when everybody has been waited for.

# Freed once

`do_waitpid` finds its child by pid, and a PCB keeps its pid after the
process has been reaped for as long as it has children. Nothing stops a
second wait from finding it again and freeing the page table a second
time; `find_proc_zombie_to_clean` looks at `main_thread` for that very
reason. `freed_once_of_unclaimed` says that runs in which no wait goes
on to wait for a process that an earlier one has claimed free each table
at most once, and that only they do, once no wait is blocked.

# Left behind

`removeIfChildless` decides once, at the wait for the process itself. A
parent waited for before its child keeps its PCB for good: the orders
that empty the list are those in which children come first.
-/
import SyeLabs.Process.Pids

namespace SyeLabs.Process

open Lib

variable (threadJoin : Option Tid → Option Tid)

-- ================================================================== freed once

/-- The step does not go on to wait for a process that an earlier wait
has reaped or is still blocked on. -/
def Unclaimed (s : Sys) (a : Act) : Prop :=
  ∀ c ∈ target s.k a,
    (∀ w ∈ s.waits, w.child ≠ c) ∧ .resetRootPgtable c true ∉ s.trace

instance (s : Sys) (a : Act) : Decidable (Unclaimed s a) := by
  unfold Unclaimed
  infer_instance

theorem claims_eq_zero_iff (s : Sys) (c : Ref) :
    claims s c = 0 ↔
      (∀ w ∈ s.waits, w.child ≠ c) ∧ .resetRootPgtable c true ∉ s.trace := by
  rw [claims, freed, Nat.add_eq_zero_iff, List.count_eq_zero,
    List.countP_eq_zero]
  simp only [decide_eq_true_eq, and_comm]

/-- A step adds one claim for its target and no other. -/
theorem claims_step {s s' : Sys} {a : Act} (h : NoPtrace s.k)
    (hstep : step threadJoin s a = some s') (c : Ref) :
    claims s' c
      = claims s c + if target s.k a = some c then 1 else 0 := by
  cases step_stepped threadJoin h hstep with
  | idle on ht => simp [claims, freed, ht]
  | forked _ _ => simp [claims, freed, target]
  | exited _ _ => simp [claims, freed, target]
  | scheduled _ _ => simp [claims, freed, target]
  | @blocked _ w ht _ =>
      by_cases hc : w.child = c
      · simp [claims, freed, ht, hc, Nat.add_assoc]
      · simp [claims, freed, ht, hc]
  | @reaped _ d _ ht _ =>
      by_cases hc : d = c
      · simp only [claims, freed, ht, hc, List.count_append,
          List.count_singleton_self, if_true]
        omega
      · simp [claims, freed, ht, hc]
  | @resumed w _ hw _ =>
      have hperm := (List.perm_cons_erase hw).countP_eq (·.child = c)
      rw [List.countP_cons] at hperm
      by_cases hc : w.child = c
      · simp only [hc, decide_true, if_true] at hperm
        simp only [claims, freed, target, hc, List.count_append,
          List.count_singleton_self, reduceCtorEq, if_false]
        omega
      · simp only [hc, decide_false, Bool.false_eq_true, if_false,
          Nat.add_zero] at hperm
        simp [claims, freed, target, hc, hperm]

theorem claims_mono {s s' : Sys} {acts : List Act} (h : NoPtrace s.k)
    (hrun : run (step threadJoin) s acts = some s') (c : Ref) :
    claims s c ≤ claims s' c :=
  run_mono (I := fun s => NoPtrace s.k) (f := fun s => claims s c)
    (fun _ _ _ h hstep => noPtrace_step threadJoin h hstep)
    (fun _ _ _ h hstep => by
      rw [claims_step threadJoin h hstep]
      exact Nat.le_add_right _ _) h hrun

/-- Unclaimed steps keep the claims at one for each process. -/
theorem claims_le_one {s s' : Sys} {acts : List Act} (h : NoPtrace s.k)
    (h1 : ∀ c, claims s c ≤ 1)
    (hC : Along (step threadJoin) Unclaimed s acts)
    (hrun : run (step threadJoin) s acts = some s') :
    ∀ c, claims s' c ≤ 1 := by
  have hstep : ∀ s a s', (NoPtrace s.k ∧ ∀ c, claims s c ≤ 1) →
      Unclaimed s a → step threadJoin s a = some s' →
      NoPtrace s'.k ∧ ∀ c, claims s' c ≤ 1 := by
    intro s a s' h hC hstep
    obtain ⟨h, h1⟩ := h
    refine ⟨noPtrace_step threadJoin h hstep, fun c => ?_⟩
    rw [claims_step threadJoin h hstep]
    split
    next ht => rw [(claims_eq_zero_iff s c).mpr (hC c ht)]
    next => exact h1 c
  exact (run_inv_along hstep ⟨h, h1⟩ hC hrun).2

/-- Where the claims end at one for each process, every step was
unclaimed. -/
theorem unclaimed_of_claims_le_one {acts : List Act} {s s' : Sys}
    (h : NoPtrace s.k) (hrun : run (step threadJoin) s acts = some s')
    (h1 : ∀ c, claims s' c ≤ 1) :
    Along (step threadJoin) Unclaimed s acts := by
  induction acts generalizing s with
  | nil => trivial
  | cons a acts ih =>
      obtain ⟨t, ht, hrest⟩ := run_cons_iff.mp hrun
      have htrace := noPtrace_step threadJoin h ht
      refine along_cons_iff.mpr ⟨fun c hc => ?_, fun t' ht' => ?_⟩
      · have hstep := claims_step threadJoin h ht c
        rw [if_pos (Option.mem_def.mp hc)] at hstep
        have hle := claims_mono threadJoin htrace hrest c
        have := h1 c
        exact (claims_eq_zero_iff s c).mp (by omega)
      · rw [ht] at ht'
        cases ht'
        exact ih htrace hrest

theorem claims_init (P : Platform) (c : Ref) : claims (Sys.init P) c = 0 :=
  (claims_eq_zero_iff _ c).mpr ⟨nofun, by
    simp [Sys.init, createRootProcess]⟩

/-- A page table is freed at most once in every run in which no wait
goes on to wait for a process that an earlier one has reaped or is
blocked on; where no wait is left blocked, only in such runs. -/
theorem freed_once_of_unclaimed (P : Platform) (acts : List Act) (s : Sys)
    (hrun : run (step threadJoin) (Sys.init P) acts = some s) :
    (Along (step threadJoin) Unclaimed (Sys.init P) acts →
        ∀ c, freed s c ≤ 1)
      ∧ (s.waits = [] →
        ((∀ c, freed s c ≤ 1) ↔
          Along (step threadJoin) Unclaimed (Sys.init P) acts)) := by
  have h : NoPtrace (Sys.init P).k := fun r => (init_pcb P r).1
  have honly : Along (step threadJoin) Unclaimed (Sys.init P) acts →
      ∀ c, freed s c ≤ 1 := by
    intro hC c
    have hclaims := claims_le_one threadJoin h
      (fun c => (claims_init P c).trans_le (Nat.zero_le 1)) hC hrun c
    exact (Nat.le_add_right _ _).trans hclaims
  refine ⟨honly, fun hw => ⟨fun hfreed => ?_, honly⟩⟩
  apply unclaimed_of_claims_le_one threadJoin h hrun
  intro c
  rw [claims, hw]
  exact hfreed c

/-- A child forked, exited and waited for. -/
theorem freed_once_of_unclaimed_one_child :
    ∃ s, run (step fun _ => none) (Sys.init .sample)
        [.fork 0 0, .exit 1 7, .wait 0 2 (some 0) false] = some s
      ∧ freed s 1 = 1 ∧ ∀ c, freed s c ≤ 1 := by
  obtain ⟨s, hs⟩ : ∃ s, run (step fun _ => none) (Sys.init .sample)
      [.fork 0 0, .exit 1 7, .wait 0 2 (some 0) false] = some s := ⟨_, rfl⟩
  have honce := freed_once_of_unclaimed (fun _ => none) .sample _ s hs
  refine ⟨s, hs, ?_, honce.1 (by decide)⟩
  cases hs
  rfl

/-- A child that has a child of its own is reaped and waited for again,
and two processes blocked on the same child both reap it. -/
theorem freed_twice :
    (∃ s, run (step fun _ => none) (Sys.init .sample)
        [.fork 0 0, .fork 1 1, .exit 1 0, .wait 0 2 none false,
          .wait 0 2 none false] = some s ∧ freed s 1 = 2)
    ∧ ∃ s, run (step fun _ => none) (Sys.init .sample)
        [.fork 0 0, .fork 1 1, .wait 0 2 none false,
          .wait 2 2 none false, .exit 1 0, .resume ⟨1, 2, false, none⟩,
          .resume ⟨1, 2, false, none⟩] = some s ∧ freed s 1 = 2 :=
  ⟨⟨_, rfl, by rfl⟩, ⟨_, rfl, by rfl⟩⟩

-- ================================================================= left behind

/-- The actions that build a process tree and let its members exit. -/
def Act.grows : Act → Bool
  | .fork _ _ | .exit _ _ | .sched _ _ => true
  | .wait _ _ _ _ | .resume _ => false

/-- What holds of the process table as long as nobody waits: the list
holds every process, in the order of creation, with its pid; parents are
older than their children; the root process lives. -/
structure Grown (s : Sys) : Prop where
  noPtrace : NoPtrace s.k
  procList : s.k.procList = List.range s.k.nextRef
  pidCurrent : s.k.pidCurrent = BitVec.ofNat 32 (s.k.nextRef + 1)
  pid : ∀ r, r < s.k.nextRef →
    (s.k.pcb r).pid = BitVec.ofNat 32 (r + 1)
  rootProcess : s.k.rootProcess = some 0
  rootParent : (s.k.pcb 0).parent = none
  rootLive : Live s.k 0

theorem grown_init (P : Platform) : Grown (Sys.init P) where
  noPtrace := fun r => (init_pcb P r).1
  procList := rfl
  pidCurrent := rfl
  pid := by
    intro r hr
    have hr' : r = 0 := Nat.lt_one_iff.mp hr
    subst hr'
    rfl
  rootProcess := rfl
  rootParent := rfl
  rootLive := ⟨Nat.one_pos, nofun⟩

theorem target_of_grows {k : Procs} {a : Act} (ha : a.grows = true) :
    target k a = none := by
  cases a with
  | wait p pid wstatus nohang => cases ha
  | _ => rfl

theorem Grown.step {s s' : Sys} {a : Act} (g : Grown s)
    (ha : a.grows = true) (hstep : step threadJoin s a = some s') :
    Grown s' := by
  have hno := noPtrace_step threadJoin g.noPtrace hstep
  cases step_stepped threadJoin g.noPtrace hstep with
  | idle on _ => exact { g with noPtrace := hno }
  | forked hlive hf =>
      have hroot : 0 ≠ s.k.nextRef := Nat.ne_of_lt g.rootLive.1
      have hroot' := hf.others 0 hroot
      constructor
      case noPtrace => exact hno
      case procList =>
        show _ = List.range _
        rw [hf.procList, hf.nextRef, g.procList, List.range_succ]
      case pidCurrent =>
        show _ = BitVec.ofNat 32 (_ + 1)
        rw [hf.pidCurrent, hf.nextRef, g.pidCurrent]
        exact (BitVec.ofNat_add _ 1).symm
      case pid =>
        intro r hr
        show (_ : Pcb).pid = _
        by_cases hnew : r = s.k.nextRef
        · rw [hnew]
          exact hf.pid.trans g.pidCurrent
        · have hr' : r < s.k.nextRef + 1 := hf.nextRef ▸ hr
          rw [hf.others r hnew]
          exact g.pid r (Nat.lt_of_le_of_ne (Nat.lt_succ_iff.mp hr') hnew)
      case rootProcess => exact hf.rootProcess.trans g.rootProcess
      case rootParent => exact hroot' ▸ g.rootParent
      case rootLive =>
        refine ⟨?_, hroot' ▸ g.rootLive.2⟩
        show 0 < _
        rw [hf.nextRef]
        exact Nat.succ_pos _
  | @exited p status hlive hparent =>
      have hp : 0 ≠ p := fun h => hparent (h ▸ g.rootParent)
      constructor
      case noPtrace => exact hno
      case pid =>
        intro r hr
        simp only [setPcb_pcb]
        split <;> exact g.pid r hr
      case rootParent =>
        simp only [setPcb_pcb, if_neg hp]
        exact g.rootParent
      case rootLive =>
        refine ⟨g.rootLive.1, ?_⟩
        simp only [setPcb_pcb, if_neg hp]
        exact g.rootLive.2
      · exact g.procList
      · exact g.pidCurrent
      · exact g.rootProcess
  | @scheduled p st hlive hst =>
      constructor
      case noPtrace => exact hno
      case pid =>
        intro r hr
        simp only [setPcb_pcb]
        split <;> exact g.pid r hr
      case rootParent =>
        simp only [setPcb_pcb]
        split <;> exact g.rootParent
      case rootLive =>
        refine ⟨g.rootLive.1, ?_⟩
        simp only [setPcb_pcb]
        split
        · exact hst
        · exact g.rootLive.2
      · exact g.procList
      · exact g.pidCurrent
      · exact g.rootProcess
  | blocked ht _ =>
      rw [target_of_grows ha] at ht
      cases ht
  | reaped ht _ =>
      rw [target_of_grows ha] at ht
      cases ht
  | resumed _ _ => cases ha

theorem grown_run {P : Platform} {acts : List Act} {s : Sys}
    (hacts : ∀ a ∈ acts, a.grows = true)
    (hrun : run (step threadJoin) (Sys.init P) acts = some s) : Grown s :=
  run_inv_along (fun _ _ _ g ha hstep => g.step threadJoin ha hstep)
    (grown_init P) (along_of_forall hacts _) hrun

/-- The process table `k` as the waits that have reaped processes of
`k₀` leave it: the PCBs as they were, up to `main_thread`. -/
structure Waited (k₀ k : Procs) : Prop where
  nextRef : k.nextRef = k₀.nextRef
  rootProcess : k.rootProcess = k₀.rootProcess
  pcb : ∀ r, ∃ t, k.pcb r = { k₀.pcb r with mainThread := t }

/-- A wait by pid for a zombie of the list ends at once. -/
theorem wait_zombie {s : Sys} (h : NoPtrace s.k) {p c : Ref}
    (hp : Live s.k p) (hc : c ∈ s.k.procList)
    (hpid : ∀ r ∈ s.k.procList, (s.k.pcb r).pid = (s.k.pcb c).pid → r = c)
    (hone : (s.k.pcb c).pid ≠ -1) (hz : (s.k.pcb c).state = .ZOMBIE)
    (wstatus : Option (BitVec 32)) (nohang : Bool) :
    ∃ s', step threadJoin s (.wait p (s.k.pcb c).pid wstatus nohang)
        = some s' ∧ Reaped s.k s'.k c := by
  have htarget : waitTarget s.k (s.k.pcb c).pid nohang = some c := by
    rw [waitTarget, if_neg hone, findProcByPid_eq hc hpid]
    simp [hz]
  obtain ⟨pid', henter⟩ := waitpidEnter_target h htarget wstatus
  have hz' : ((s.k.setIrq false).pcb c).state = .ZOMBIE := hz
  simp only [step, if_pos hp, henter, Sys.await, hz', List.append_nil]
  refine ⟨_, rfl, ?_⟩
  obtain ⟨k', hr, heq⟩ := join_reaped threadJoin
    (s := { s with k := s.k.setIrq false })
    (w := ⟨c, pid', s.k.irqEnabled, wstatus⟩) (h c)
  rw [heq]
  exact hr.of_setIrq

/-- Waiting for zombies one after the other reaps them in that order. -/
theorem waits_reap {k₀ : Procs} {root : Ref} {order : List Ref}
    (wstatus : Ref → Option (BitVec 32)) (nohang : Ref → Bool)
    (horder : order.Nodup) (hroot : Live k₀ root)
    (hzombie : ∀ c ∈ order, (k₀.pcb c).state = .ZOMBIE)
    (hone : ∀ c ∈ order, (k₀.pcb c).pid ≠ -1)
    (hpid : ∀ r ∈ k₀.procList, ∀ c ∈ k₀.procList,
      (k₀.pcb r).pid = (k₀.pcb c).pid → r = c) :
    ∀ {s : Sys}, NoPtrace s.k → Waited k₀ s.k →
      s.k.procList ⊆ k₀.procList → (∀ c ∈ order, c ∈ s.k.procList) →
      ∃ s', run (step threadJoin) s
          (order.map fun c =>
            .wait root (k₀.pcb c).pid (wstatus c) (nohang c)) = some s'
        ∧ Waited k₀ s'.k
        ∧ s'.k.procList
          = order.foldl (reap fun r => (k₀.pcb r).parent)
              s.k.procList := by
  induction order with
  | nil =>
      intro s _ hw _ _
      exact ⟨s, rfl, hw, rfl⟩
  | cons c cs ih =>
      intro s hno hw hsub hin
      obtain ⟨hc, hcs⟩ := List.nodup_cons.mp horder
      have hfield : ∀ r, (s.k.pcb r).pid = (k₀.pcb r).pid
          ∧ (s.k.pcb r).parent = (k₀.pcb r).parent
          ∧ (s.k.pcb r).state = (k₀.pcb r).state := by
        intro r
        obtain ⟨t, ht⟩ := hw.pcb r
        rw [ht]
        exact ⟨rfl, rfl, rfl⟩
      have hmem := hin c List.mem_cons_self
      obtain ⟨s₁, hstep, hr⟩ := wait_zombie threadJoin hno (p := root)
        ⟨hw.nextRef ▸ hroot.1, (hfield root).2.2 ▸ hroot.2⟩ hmem
        (fun r hr heq => hpid r (hsub hr) c (hsub hmem)
          (by rw [← (hfield r).1, heq, (hfield c).1]))
        (by rw [(hfield c).1]; exact hone c List.mem_cons_self)
        (by rw [(hfield c).2.2]; exact hzombie c List.mem_cons_self)
        (wstatus c) (nohang c)
      have hparent : (fun r => (s.k.pcb r).parent)
          = fun r => (k₀.pcb r).parent := funext fun r => (hfield r).2.1
      have hlist : s₁.k.procList
          = reap (fun r => (k₀.pcb r).parent) s.k.procList c := by
        rw [hr.procList, hparent]
      have hw₁ : Waited k₀ s₁.k := by
        refine ⟨hr.nextRef.trans hw.nextRef,
          hr.rootProcess.trans hw.rootProcess, fun r => ?_⟩
        obtain ⟨t, ht⟩ := hw.pcb r
        obtain ⟨t', ht'⟩ := hr.pcb r
        exact ⟨t', by rw [ht', ht]⟩
      have hsub₁ : s₁.k.procList ⊆ k₀.procList := by
        rw [hlist]
        exact List.Subset.trans (foldl_reap_subset [c]) hsub
      obtain ⟨s', hrun, hw', hlist'⟩ := ih hcs
        (fun d hd => hzombie d (List.mem_cons_of_mem c hd))
        (fun d hd => hone d (List.mem_cons_of_mem c hd))
        (hno.reaped hr) hw₁ hsub₁ (fun d hd => by
          rw [hlist, mem_reap_of_ne (fun h : d = c => hc (h ▸ hd))]
          exact hin d (List.mem_cons_of_mem c hd))
      refine ⟨s', ?_, hw', ?_⟩
      · rw [List.map_cons, ← (hfield c).1]
        exact run_cons_iff.mpr ⟨s₁, hstep, hrun⟩
      · rw [hlist', hlist, List.foldl_cons]

/-- In the list of a grown table the pids tell the processes apart, and
none is the wildcard of `do_waitpid`. -/
theorem Grown.pids {s : Sys} (g : Grown s)
    (hfew : s.k.nextRef < 4294967295) :
    (∀ r ∈ s.k.procList, ∀ c ∈ s.k.procList,
        (s.k.pcb r).pid = (s.k.pcb c).pid → r = c)
      ∧ ∀ r ∈ s.k.procList, (s.k.pcb r).pid ≠ -1 := by
  have hval : ∀ r ∈ s.k.procList, (s.k.pcb r).pid.toNat = r + 1
      ∧ r + 1 < 4294967295 := by
    intro r hr
    rw [g.procList, List.mem_range] at hr
    have hlt : r + 1 < 4294967295 := Nat.lt_of_le_of_lt hr hfew
    rw [g.pid r hr, BitVec.toNat_ofNat]
    exact ⟨Nat.mod_eq_of_lt (hlt.trans (by decide)), hlt⟩
  constructor
  · intro r hr c hc heq
    have h := congrArg BitVec.toNat heq
    rw [(hval r hr).1, (hval c hc).1] at h
    exact Nat.succ.inj h
  · intro r hr heq
    have h := congrArg BitVec.toNat heq
    rw [(hval r hr).1] at h
    have hlt := (hval r hr).2
    rw [h] at hlt
    exact absurd hlt (by decide)

/-- Of a process tree whose members other than the root have all exited,
the waits of the root for each of them leave the root process alone
exactly when every process is waited for after all its children. -/
theorem only_root_left_iff (P : Platform) (acts : List Act) (s : Sys)
    (hacts : ∀ a ∈ acts, a.grows = true)
    (hrun : run (step threadJoin) (Sys.init P) acts = some s)
    (hfew : s.k.nextRef < 4294967295) (root : Ref)
    (hroot : s.k.rootProcess = some root)
    (hexit : ∀ p ∈ s.k.procList, p ≠ root → (s.k.pcb p).state = .ZOMBIE)
    (order : List Ref) (horder : order.Perm (s.k.procList.erase root))
    (wstatus : Ref → Option (BitVec 32)) (nohang : Ref → Bool) :
    ∃ s', run (step threadJoin) s
        (order.map fun c =>
          .wait root (s.k.pcb c).pid (wstatus c) (nohang c)) = some s'
      ∧ (s'.k.procList = [root] ↔
        ∀ p ∈ order, ∀ q ∈ s.k.procList, (s.k.pcb q).parent = some p →
          order.idxOf q < order.idxOf p) := by
  have g := grown_run threadJoin hacts hrun
  obtain rfl : 0 = root := Option.some.inj (g.rootProcess.symm.trans hroot)
  obtain ⟨hpid, hone⟩ := g.pids hfew
  have hnodup : s.k.procList.Nodup := g.procList ▸ List.nodup_range
  have hmem : ∀ p, p ∈ order ↔ p ≠ 0 ∧ p ∈ s.k.procList := fun p =>
    horder.mem_iff.trans hnodup.mem_erase_iff
  have hnodup' : order.Nodup :=
    horder.nodup_iff.mpr (hnodup.erase 0)
  have hzero : 0 ∈ s.k.procList := by
    rw [g.procList, List.mem_range]
    exact g.rootLive.1
  obtain ⟨s', hrun', -, hlist⟩ := waits_reap threadJoin wstatus nohang
    hnodup' g.rootLive
    (fun c hc => hexit c ((hmem c).mp hc).2 ((hmem c).mp hc).1)
    (fun c hc => hone c ((hmem c).mp hc).2) hpid g.noPtrace
    ⟨rfl, rfl, fun r => ⟨_, rfl⟩⟩ (List.Subset.refl _)
    (fun c hc => ((hmem c).mp hc).2)
  refine ⟨s', hrun', ?_⟩
  rw [← foldl_reap_iff hnodup hnodup' fun p hp => ((hmem p).mp hp).2, hlist]
  have hkeep : 0 ∈ order.foldl (reap fun r => (s.k.pcb r).parent)
      s.k.procList :=
    (mem_foldl_reap_of_not_mem fun h => ((hmem 0).mp h).1 rfl).mpr hzero
  constructor
  · intro hall p hp hin
    rw [hall, List.mem_singleton] at hin
    exact ((hmem p).mp hp).1 hin
  · intro hgone
    refine List.perm_singleton.mp
      ((List.perm_ext_iff_of_nodup (foldl_reap_nodup hnodup order)
        (List.nodup_singleton 0)).mpr fun p => ?_)
    rw [List.mem_singleton]
    constructor
    · intro hp
      by_contra hne
      exact hgone p ((hmem p).mpr ⟨hne, foldl_reap_subset order hp⟩) hp
    · intro heq
      subst heq
      exact hkeep

/-- Root, child and grandchild, waited for child last. -/
theorem only_root_left_grandchild_first :
    ∃ s', run (step fun _ => none) (Sys.init .sample)
        [.fork 0 0, .fork 1 1, .exit 1 0, .exit 2 0,
          .wait 0 3 none false, .wait 0 2 none false] = some s'
      ∧ s'.k.procList = [0] := by
  obtain ⟨s, hs⟩ : ∃ s, run (step fun _ => none) (Sys.init .sample)
      [.fork 0 0, .fork 1 1, .exit 1 0, .exit 2 0] = some s := ⟨_, rfl⟩
  obtain ⟨s', hrun, hiff⟩ := only_root_left_iff (fun _ => none) .sample
    [.fork 0 0, .fork 1 1, .exit 1 0, .exit 2 0] s (by decide) hs
    (by cases hs; decide) 0 (by cases hs; rfl)
    (by cases hs; decide) [2, 1] (by cases hs; decide)
    (fun _ => none) fun _ => false
  refine ⟨s', ?_, hiff.mpr (by cases hs; decide)⟩
  rw [show [Act.fork 0 0, .fork 1 1, .exit 1 0, .exit 2 0,
      .wait 0 3 none false, .wait 0 2 none false]
    = [.fork 0 0, .fork 1 1, .exit 1 0, .exit 2 0]
      ++ [.wait 0 3 none false, .wait 0 2 none false] from rfl,
    run_append, hs]
  cases hs
  exact hrun

/-- Waited for before its child, a process is never removed. -/
theorem zombie_left :
    ∃ s', run (step fun _ => none) (Sys.init .sample)
        [.fork 0 0, .fork 1 1, .exit 1 0, .exit 2 0,
          .wait 0 2 none false, .wait 0 3 none false] = some s'
      ∧ s'.k.procList = [0, 1] ∧ (s'.k.pcb 1).state = .ZOMBIE :=
  ⟨_, rfl, by rfl, by rfl⟩

end SyeLabs.Process
