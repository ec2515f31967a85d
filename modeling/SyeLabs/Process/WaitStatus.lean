/-
The status word `do_waitpid` stores for a child that has exited.

Three branches build the word. The first assigns the shifted exit status,
the second adds it to the stopped status `0x17f`, and the third adds it
to `~0x7f`, which sets every bit of the exit code. A request that is
still pending when the join returns leads to the second branch, whatever
the state of the child: the child is reported as stopped and nothing is
freed. The third branch is reached by a child that was made ready again
after its exit.

`exit_status_iff` goes over whole runs: between the exit of the child and
the step in which the wait ends there may be any other actions, the call
of `do_waitpid` among them or before the exit. Another wait may then have
released the child already. The wait that ends second reads a PCB that
is no longer the child's and frees its page table once more, so it does
not count as reporting the exit.
-/
import SyeLabs.Process.Zombies

namespace SyeLabs.Process

open Lib

-- ============================================================= the status word

/-- The exit code in a status word. -/
def exitCode (status : BitVec 32) : BitVec 32 := (status >>> 8) &&& 0xff

theorem toNat_and_0xff (x : BitVec 32) : (x &&& 0xff).toNat = x.toNat % 256 :=
  (BitVec.toNat_and x 0xff).trans (Nat.and_two_pow_sub_one_eq_mod x.toNat 8)

theorem toNat_and_0x7f (x : BitVec 32) : (x &&& 0x7f).toNat = x.toNat % 128 :=
  (BitVec.toNat_and x 0x7f).trans (Nat.and_two_pow_sub_one_eq_mod x.toNat 7)

theorem statusBits_toNat (e : BitVec 32) :
    (statusBits e).toNat = e.toNat % 256 * 256 := by
  have hlt : e.toNat % 256 < 256 := Nat.mod_lt _ (by decide)
  rw [statusBits, BitVec.toNat_shiftLeft, toNat_and_0xff, Nat.shiftLeft_eq]
  exact Nat.mod_eq_of_lt (by omega)

/-- The exit status stays out of the bits that say how a child ended. -/
theorem statusBits_low (e : BitVec 32) : statusBits e &&& 0x7f = 0 := by
  apply BitVec.eq_of_toNat_eq
  rw [toNat_and_0x7f, statusBits_toNat]
  show e.toNat % 256 * 256 % 128 = 0
  omega

theorem exitCode_toNat (status : BitVec 32) :
    (exitCode status).toNat = status.toNat / 256 % 256 := by
  rw [exitCode, toNat_and_0xff, BitVec.toNat_ushiftRight,
    Nat.shiftRight_eq_div_pow]

theorem exitCode_or (status status' : BitVec 32) :
    exitCode (status ||| status') = exitCode status ||| exitCode status' := by
  rw [exitCode, BitVec.ushiftRight_or_distrib, BitVec.and_or_distrib_right]
  rfl

/-- The word of the first branch decodes as exited. -/
theorem exitCode_statusBits (e : BitVec 32) :
    (exitCode (statusBits e)).toNat = e.toNat % 256 := by
  rw [exitCode_toNat, statusBits_toNat]
  omega

/-- The word of the third branch decodes as exited, with the exit code
255. -/
theorem third_low (e : BitVec 32) :
    (~~~ 0x7f#32 ||| statusBits e) &&& 0x7f = 0 := by
  rw [BitVec.and_or_distrib_right, statusBits_low]
  rfl

theorem exitCode_third (e : BitVec 32) :
    (exitCode (~~~ 0x7f#32 ||| statusBits e)).toNat = 255 := by
  have hlt : (exitCode (~~~ 0x7f#32 ||| statusBits e)).toNat < 256 := by
    rw [exitCode_toNat]
    exact Nat.mod_lt _ (by decide)
  have hge : 255 ≤ (exitCode (~~~ 0x7f#32 ||| statusBits e)).toNat := by
    rw [exitCode_or, BitVec.toNat_or]
    exact Nat.left_le_or
  omega

-- ==================================================================== the ends

/-- The rest of the wait, run in state `t`, stores a status that decodes
as exited, with the exit code `e` modulo 256, and releases the child: its
page table has been freed then, for the first time, and it has left the
list unless it has children. -/
structure ExitReported (t : Sys) (w : Wait) (e : BitVec 32) : Prop where
  status : ∃ status, (waitpidFinish t.k w).wstatus = some status
    ∧ status &&& 0x7f = 0 ∧ (exitCode status).toNat = e.toNat % 256
  freed : freed (t.finish w) w.child = 1
  removed : w.child ∈ (t.finish w).k.procList →
    ∃ q ∈ (t.finish w).k.procList,
      ((t.finish w).k.pcb q).parent = some w.child

theorem removeIfChildless_removed {k : Procs} (h : k.procList.Nodup) {c : Ref}
    (hc : c ∈ (removeIfChildless k c).procList) :
    ∃ q ∈ (removeIfChildless k c).procList,
      ((removeIfChildless k c).pcb q).parent = some c := by
  unfold removeIfChildless at hc ⊢
  split at hc
  next => exact absurd hc h.not_mem_erase
  next hchild =>
    rw [if_neg hchild]
    obtain ⟨q, hq⟩ := Option.ne_none_iff_exists'.mp hchild
    exact ⟨q, List.mem_of_find?_eq_some hq, by
      simpa using List.find?_some hq⟩

/-- The status word of an end without a pending request: `e` as the exit
code of a zombie, and 255 as that of a process that is none any more. -/
theorem finish_status {k : Procs} {w : Wait} {old : BitVec 32}
    (hold : w.wstatus = some old)
    (hreq : (k.pcb w.child).ptracePendingReq = .noRequest) :
    ∃ status, (waitpidFinish k w).wstatus = some status
      ∧ status &&& 0x7f = 0
      ∧ (exitCode status).toNat
        = if (k.pcb w.child).state = .ZOMBIE then
            (k.pcb w.child).exitStatus.toNat % 256
          else 255 := by
  unfold waitpidFinish
  by_cases hz : (k.pcb w.child).state = .ZOMBIE
  · rw [if_pos ⟨hz, hreq⟩, if_pos hz]
    exact ⟨_, congrArg (Option.map _) hold, statusBits_low _,
      exitCode_statusBits _⟩
  · rw [if_neg fun h => hz h.1, if_neg (not_not_intro hreq), if_neg hz]
    exact ⟨_, congrArg (Option.map _) hold, third_low _, exitCode_third _⟩

/-- The release of a child by an end without a pending request. -/
theorem finish_releases {t : Sys} {w : Wait} (hlist : t.k.procList.Nodup)
    (hreq : (t.k.pcb w.child).ptracePendingReq = .noRequest) :
    freed (t.finish w) w.child = freed t w.child + 1
      ∧ (w.child ∈ (t.finish w).k.procList →
        ∃ q ∈ (t.finish w).k.procList,
          ((t.finish w).k.pcb q).parent = some w.child) := by
  obtain ⟨hk, hcalls⟩ := waitpidFinish_of_noRequest hreq
  constructor
  · rw [freed, freed, Sys.finish, hcalls, List.count_append,
      List.count_singleton_self]
  · rw [Sys.finish, hk]
    exact removeIfChildless_removed hlist

/-- A pending request leaves a status that does not decode as exited. -/
theorem finish_stopped {k : Procs} {w : Wait} {status : BitVec 32}
    (hreq : (k.pcb w.child).ptracePendingReq ≠ .noRequest)
    (hstatus : (waitpidFinish k w).wstatus = some status) :
    status &&& 0x7f ≠ 0 := by
  unfold waitpidFinish at hstatus
  rw [if_neg fun hz => hreq hz.2, if_pos hreq] at hstatus
  obtain ⟨old, -, rfl⟩ := Option.map_eq_some_iff.mp hstatus
  rw [BitVec.and_or_distrib_right, statusBits_low]
  decide

/-- Which ends of a wait report the exit `e`: those that find the page
table of their child not freed and no request pending, for a zombie
whatever `e` is, and for a process that is none any more where `e` is 255
modulo 256. -/
theorem exitReported_iff {t : Sys} {w : Wait} (hlist : t.k.procList.Nodup)
    (hw : w.wstatus ≠ none) :
    ExitReported t w (t.k.pcb w.child).exitStatus
      ↔ freed t w.child = 0
        ∧ (t.k.pcb w.child).ptracePendingReq = .noRequest
        ∧ ((t.k.pcb w.child).state = .ZOMBIE
          ∨ (t.k.pcb w.child).exitStatus.toNat % 256 = 255) := by
  obtain ⟨old, hold⟩ := Option.ne_none_iff_exists'.mp hw
  by_cases hreq : (t.k.pcb w.child).ptracePendingReq = .noRequest
  · obtain ⟨status, hstatus, hlow, hcode⟩ := finish_status hold hreq
    obtain ⟨hfreed, hremoved⟩ := finish_releases hlist hreq
    constructor
    · intro h
      have hone := h.freed
      rw [hfreed] at hone
      refine ⟨Nat.succ.inj hone, hreq, ?_⟩
      obtain ⟨status', hstatus', -, hcode'⟩ := h.status
      rw [hstatus] at hstatus'
      cases hstatus'
      rw [hcode] at hcode'
      by_cases hz : (t.k.pcb w.child).state = .ZOMBIE
      · exact Or.inl hz
      · rw [if_neg hz] at hcode'
        exact Or.inr hcode'.symm
    · intro h
      obtain ⟨hzero, -, hcase⟩ := h
      refine ⟨⟨status, hstatus, hlow, hcode.trans ?_⟩,
        hfreed.trans (by rw [hzero]), hremoved⟩
      split
      next => rfl
      next hz => exact (hcase.resolve_left hz).symm
  · refine iff_of_false (fun h => ?_) fun h => hreq h.2.1
    obtain ⟨status, hstatus, hlow, -⟩ := h.status
    exact finish_stopped hreq hstatus hlow

-- ==================================================================== the runs

variable (threadJoin : Option Tid → Option Tid)

/-- Who has left the list has had its page table freed. -/
def LeftFreed (s : Sys) : Prop :=
  ∀ c, c < s.k.nextRef → freed s c = 0 → c ∈ s.k.procList

theorem leftFreed_init (P : Platform) : LeftFreed (Sys.init P) := by
  intro c hc _
  have hzero : c = 0 := Nat.lt_one_iff.mp hc
  rw [hzero]
  exact List.mem_singleton_self 0

theorem leftFreed_step {s s' : Sys} {a : TracedAct} (h : LeftFreed s)
    (hstep : tracedStep threadJoin s a = some s') : LeftFreed s' := by
  intro c hc hzero
  rcases keeps_or_ends hstep with hkeeps | ⟨b, t, w, rfl, hends, rfl⟩
  · rcases hkeeps.born c hc with hold | hnew
    · exact hkeeps.procList (h c hold ((hkeeps.freed c).symm.trans hzero))
    · exact hnew
  · obtain ⟨htrace, -, -⟩ := ends_kept threadJoin hends
    have hq := (quiet_ends threadJoin hends).trans (quiet_finish t w)
    have hgrown : freed (t.finish w) c
        = freed s c + (waitpidFinish t.k w).calls.count
          (.resetRootPgtable c true) := by
      rw [freed, freed, Sys.finish, List.count_append, htrace]
    have hin : c ∈ s.k.procList := h c (hq.nextRef ▸ hc) (by omega)
    by_contra hout
    -- the wait has freed the page table of whom it has dropped
    obtain ⟨rfl, hreq⟩ := finish_destroys hends (Or.inr ⟨hin, hout⟩)
    have hreq' := (ends_kept threadJoin hends).2.2.trans hreq
    rw [hgrown, (waitpidFinish_of_noRequest hreq').2,
      List.count_singleton_self] at hzero
    omega

/-- Only an exit writes the exit status of a process. -/
theorem exitStatus_step {s s' : Sys} {a : TracedAct} {c : Ref}
    (hc : c < s.k.nextRef) (ha : ∀ e, a ≠ .act (.exit c e))
    (hstep : tracedStep threadJoin s a = some s') :
    (s'.k.pcb c).exitStatus = (s.k.pcb c).exitStatus := by
  cases tracedStep_taken threadJoin hstep with
  | quiet hq => exact hq.exitStatus c
  | forked _ _ hf => rw [hf.others c (Nat.ne_of_lt hc)]
  | @exited p status _ =>
      have hne : c ≠ p := fun heq => ha status (by rw [heq])
      simp only [setPcb_pcb, if_neg hne]
      rfl
  | scheduled _ _ =>
      simp only [setPcb_pcb]
      split <;> rfl
  | woken _ _ _ =>
      simp only [setPcb_pcb]
      split <;> rfl

/-- Along a run that ends with the exit `e` of `c` and other actions, the
PCB of `c` still holds `e`. -/
theorem exitStatus_run {P : Platform} {pre mid : List TracedAct} {c : Ref}
    {e : BitVec 32} {s : Sys}
    (hrun : run (tracedStep threadJoin) (Sys.init P)
      (pre ++ .act (.exit c e) :: mid) = some s)
    (hlast : ∀ e', .act (.exit c e') ∉ mid) :
    c < s.k.nextRef ∧ (s.k.pcb c).exitStatus = e := by
  rw [run_append] at hrun
  obtain ⟨t, -, hrest⟩ := Option.bind_eq_some_iff.mp hrun
  obtain ⟨u, hu, hmid⟩ := run_cons_iff.mp hrest
  obtain ⟨hlive, -, hstatus⟩ := exit_step hu
  have hothers : ∀ a ∈ mid, ∀ e', a ≠ .act (.exit c e') :=
    fun a ha e' heq => hlast e' (heq ▸ ha)
  exact run_inv_along
    (I := fun s : Sys => c < s.k.nextRef ∧ (s.k.pcb c).exitStatus = e)
    (C := fun _ a => ∀ e', a ≠ .act (.exit c e'))
    (fun v b v' hv hb hstep =>
      ⟨Nat.lt_of_lt_of_le hv.1 (nextRef_step hstep),
        (exitStatus_step threadJoin hv.1 hb hstep).trans hv.2⟩)
    ⟨Nat.lt_of_lt_of_le hlive.1 (nextRef_step hu), hstatus⟩
    (along_of_forall hothers u) hmid

/-- A wait with a status word that ends on a child which has exited with
`e` earlier in the run reports the exit exactly when no other wait has
released the child, no ptrace request of the child is pending and the
child is still a zombie, or `e` is 255 modulo 256. -/
theorem exit_status_iff (P : Platform) (pre mid : List TracedAct) (c : Ref)
    (e : BitVec 32) (s t : Sys) (a : Act) (w : Wait)
    (hrun : run (tracedStep threadJoin) (Sys.init P)
      (pre ++ .act (.exit c e) :: mid) = some s)
    (hlast : ∀ e', .act (.exit c e') ∉ mid)
    (hend : finishing threadJoin s a = some (t, w)) (hchild : w.child = c)
    (hwstatus : w.wstatus ≠ none) :
    ExitReported t w e
      ↔ Unreleased s c ∧ (s.k.pcb c).ptracePendingReq = .noRequest
        ∧ ((s.k.pcb c).state = .ZOMBIE ∨ e.toNat % 256 = 255) := by
  obtain ⟨hlisted, hleft⟩ : Listed s.k ∧ LeftFreed s :=
    run_inv (I := fun s : Sys => Listed s.k ∧ LeftFreed s)
      (fun _ _ _ h hstep => ⟨listed_step h.1 hstep,
        leftFreed_step threadJoin h.2 hstep⟩)
      ⟨listed_init P, leftFreed_init P⟩ hrun
  obtain ⟨hknown, hstatus⟩ := exitStatus_run threadJoin hrun hlast
  obtain ⟨hends, -⟩ := finishing_ends threadJoin hend
  obtain ⟨htrace, -, hreq⟩ := ends_kept threadJoin hends
  have hq := quiet_ends threadJoin hends
  have hfreed : freed t w.child = freed s w.child := by
    rw [freed, freed, htrace]
  have hiff := exitReported_iff (t := t) (hlisted.quiet hq).nodup hwstatus
  rw [hreq, hq.state, hq.exitStatus, hfreed, hchild, hstatus] at hiff
  -- a child that is not freed is in the list
  have hun : Unreleased s c ↔ freed s c = 0 :=
    ⟨fun h => h.2, fun h => ⟨hleft c hknown h, h⟩⟩
  rw [hun]
  exact hiff

/-- A child exits with 5 while nobody traces it, and its parent waits. -/
theorem exit_status_five :
    ∃ s t, run (tracedStep fun _ => none) (Sys.init .sample)
        [.act (.fork 0 0), .act (.exit 1 5)] = some s
      ∧ finishing (fun _ => none) s (.wait 0 2 (some 0) false)
        = some (t, waitFor s.k 1 (some 0))
      ∧ ExitReported t (waitFor s.k 1 (some 0)) 5 := by
  obtain ⟨s, hs⟩ : ∃ s, run (tracedStep fun _ => none) (Sys.init .sample)
      [.act (.fork 0 0), .act (.exit 1 5)] = some s := ⟨_, rfl⟩
  obtain ⟨t, ht⟩ : ∃ t, finishing (fun _ => none) s
      (.wait 0 2 (some 0) false) = some (t, waitFor s.k 1 (some 0)) := by
    cases hs
    exact ⟨_, rfl⟩
  refine ⟨s, t, hs, ht, ?_⟩
  have hiff := exit_status_iff (fun _ => none) .sample [.act (.fork 0 0)] []
    1 5 s t _ _ hs (fun _ h => nomatch h) ht rfl nofun
  refine hiff.mpr ?_
  cases hs
  exact ⟨⟨by decide, by decide⟩, rfl, Or.inl rfl⟩

/-- A child that asked to be traced exits with 5, and its parent waits: it
is told that the child has stopped, and the child stays. -/
theorem traced_exit_reported_as_stop :
    ∃ s t, run (tracedStep fun _ => none) (Sys.init .sample)
        [.act (.fork 0 0), .ptrace 1 .traceme, .act (.exit 1 5)] = some s
      ∧ finishing (fun _ => none) s (.wait 0 2 (some 0) false)
        = some (t, waitFor s.k 1 (some 0))
      ∧ (waitpidFinish t.k (waitFor s.k 1 (some 0))).ret = 2
      ∧ (waitpidFinish t.k (waitFor s.k 1 (some 0))).wstatus = some 0x57f
      ∧ (waitpidFinish t.k (waitFor s.k 1 (some 0))).calls = []
      ∧ ¬ ExitReported t (waitFor s.k 1 (some 0)) 5 := by
  obtain ⟨s, hs⟩ : ∃ s, run (tracedStep fun _ => none) (Sys.init .sample)
      [.act (.fork 0 0), .ptrace 1 .traceme, .act (.exit 1 5)] = some s :=
    ⟨_, rfl⟩
  obtain ⟨t, ht⟩ : ∃ t, finishing (fun _ => none) s
      (.wait 0 2 (some 0) false) = some (t, waitFor s.k 1 (some 0)) := by
    cases hs
    exact ⟨_, rfl⟩
  refine ⟨s, t, hs, ht, ?_, ?_, ?_, fun h => ?_⟩
  · cases hs
    cases ht
    rfl
  · cases hs
    cases ht
    rfl
  · cases hs
    cases ht
    rfl
  · have hfreed := h.freed
    cases hs
    cases ht
    revert hfreed
    decide

end SyeLabs.Process
