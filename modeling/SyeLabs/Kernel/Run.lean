/-
Runs of the kernel: the process table and the memory together.

An operation first runs the process code and then, in order, the calls
that code made into the memory manager. Any live process may take any
operation, so a run interleaves the processes in an arbitrary order; an
operation during which the kernel stops on an assertion has no result.

# Frame accounting

Every call keeps the account of the frames (`call_accounted`), as it
takes frames from the pool one by one, each for one process, and gives
them back by process. An operation keeps it call by call
(`audited_perform`).
-/
import SyeLabs.Kernel.Machine
import SyeLabs.Process.Exec
import SyeLabs.Process.Run

namespace SyeLabs.Kernel

open Lib Mmu Process

/-- The processes and the memory. -/
structure State (H F : Type*) where
  sys : Sys
  mach : Machine H F

/-- What the kernel does next: start a process from scratch, allocate
pages for one, replace its image, or one of the actions on the process
table. -/
inductive Op
  | create
  | allocate (p : Ref) (virtAddr nrPages : Nat)
  | exec (p : Ref) (cur : Tid) (joinQueue : List Ref) (filename : CString)
      (argv envp : Option (List CString)) (args : Nat) (m : ByteMem)
  | proc (a : Act)

variable {P : Platform} {H F : Type*} (B : Board P H F)
  (elfLoadBuffer : CString → Option Elf)
  (threadJoin : Option Tid → Option Tid)

/-- The process table becomes `k` and the calls `cs` are made. -/
def State.advance (K : State H F) (k : Procs) (cs : List Call) :
    Option (State H F) :=
  (calls B K.mach cs).map fun m =>
    { sys := { K.sys with k := k, trace := K.sys.trace ++ cs }, mach := m }

/-- One operation. -/
def perform (K : State H F) : Op → Option (State H F)
  | .create =>
      let r := createRootProcess P K.sys.k
      K.advance B r.1 r.2
  | .allocate p virtAddr nrPages =>
      if Live K.sys.k p then
        K.advance B K.sys.k [.allocatePage p virtAddr nrPages]
      else none
  | .exec p cur joinQueue filename argv envp args m =>
      if Live K.sys.k p then
        match doExecve elfLoadBuffer P args K.sys.k p cur joinQueue filename
            argv envp m with
        | .returned o => K.advance B o.k o.calls
        | .assertFailed => none
        | .replaced k cs _ => K.advance B k cs
      else none
  | .proc a =>
      (step threadJoin K.sys a).bind fun sys =>
        -- the calls of this step
        (calls B K.mach (sys.trace.drop K.sys.trace.length)).map fun m =>
          { sys := sys, mach := m }

/-- The kernel before the first process: no frame is counted, listed or
handed out. -/
def State.boot (t : PageTables H) (pool : F) (page : Nat → Nat → UInt8) :
    State H F where
  sys := { k := Procs.boot, waits := [], trace := [] }
  mach :=
    { tables := t
      frames :=
        { pool := pool, refcount := fun _ => 0, pageList := fun _ => []
          log := [] }
      page := page }

/-- The small layout at boot, with eight blocks of heap and ten free
frames. -/
def State.small : State (FreeList BlockOk) (FreeList (FrameOk .small)) :=
  State.boot
    { PageTables.sample with
      heap := ⟨[1, 2, 3, 4, 5, 6, 7, 8], by decide, by decide⟩ }
    ⟨[100, 104, 101, 103, 105, 106, 107, 108, 109, 102], by decide,
      by decide⟩
    fun _ _ => 0

/-- A loader that finds a one-page image at `0x1000` in every file. -/
def onePage : CString → Option Elf := fun _ => some ⟨0x1000, 1⟩

/-- Process `p` with main thread `cur` replaces its image. -/
def Op.execFile (p : Ref) (cur : Tid) : Op :=
  .exec p cur [] nameLs none none 0xC0100000 fun _ => 0

-- ====================================================== what an operation does

/-- The process table keeps its processes, their parents and which of
them are zombies. -/
structure Kept (k k' : Procs) : Prop where
  nextRef : k'.nextRef = k.nextRef
  zombie : ∀ r, (k'.pcb r).state = .ZOMBIE ↔ (k.pcb r).state = .ZOMBIE
  parent : ∀ r, (k'.pcb r).parent = (k.pcb r).parent
  ptrace : ∀ r, (k'.pcb r).ptracePendingReq = (k.pcb r).ptracePendingReq

/-- The actions that may end a `do_waitpid`. -/
def IsWait : Act → Prop
  | .wait _ _ _ _ | .resume _ => True
  | _ => False

/-- What an operation does to the process table and the calls it makes,
while no process is traced. -/
inductive Caused (P : Platform) (elfLoadBuffer : CString → Option Elf)
    (k : Procs) : Op → Procs → List Call → Prop
  | quiet {op : Op} {k' : Procs} : Kept k k' →
      Caused P elfLoadBuffer k op k' []
  | created : Caused P elfLoadBuffer k .create (createRootProcess P k).1
      (createRootProcess P k).2
  | allocated {p : Ref} {virtAddr nrPages : Nat} : Live k p →
      Caused P elfLoadBuffer k (.allocate p virtAddr nrPages) k
        [.allocatePage p virtAddr nrPages]
  | forked {p : Ref} {thread : Tid} {k' : Procs} : Live k p →
      Forked k k' p →
      Caused P elfLoadBuffer k (.proc (.fork p thread)) k'
        [.newRootPgtable k.nextRef, .duplicateUserSpace p k.nextRef]
  | exited {p : Ref} {status : BitVec 32} : Live k p →
      (k.pcb p).parent ≠ none →
      Caused P elfLoadBuffer k (.proc (.exit p status))
        ((k.setIrq false).setPcb p fun pcb =>
          { pcb with state := .ZOMBIE, exitStatus := status })
        [.releaseProcPages p, .threadExit p]
  | replaced {p : Ref} {cur : Tid} {joinQueue : List Ref}
      {filename : CString} {argv envp : Option (List CString)}
      {args : Nat} {m : ByteMem} {elf : Elf} {k' : Procs} (argsEnv : Nat) :
      Live k p → elfLoadBuffer filename = some elf → Kept k k' →
      Caused P elfLoadBuffer k
        (.exec p cur joinQueue filename argv envp args m) k'
        (imageCalls P p elf (resetProcessStack P (k.pcb p)) argsEnv
          ++ [.loadProcess, .threadExit p])
  | waited {a : Act} {c : Ref} {k' : Procs} : IsWait a → Kept k k' →
      Caused P elfLoadBuffer k (.proc a) k' [.resetRootPgtable c true]

/-- `do_execve` on an image that exists. -/
theorem execve_kept {args : Nat} {k k' : Procs} {p : Ref} {cur : Tid}
    {joinQueue : List Ref} {filename : CString}
    {argv envp : Option (List CString)} {m m' : ByteMem} {cs : List Call}
    (h : doExecve elfLoadBuffer P args k p cur joinQueue filename argv envp m
      = .replaced k' cs m') : Kept k k' := by
  obtain ⟨elf, -, hnext, hpcb, -⟩ := doExecve_replaced elfLoadBuffer h
  refine ⟨hnext, fun r => ?_, fun r => ?_, fun r => ?_⟩
  all_goals
    rw [hpcb]
    split <;> rfl

theorem Kept.setIrq {k k' : Procs} (h : Kept k k') (on : Bool) :
    Kept k (k'.setIrq on) :=
  ⟨h.nextRef, h.zombie, h.parent, h.ptrace⟩

theorem Kept.refl (k : Procs) : Kept k k :=
  ⟨rfl, fun _ => Iff.rfl, fun _ => rfl, fun _ => rfl⟩

theorem Kept.of_reaped {k k' : Procs} {c : Ref} (h : Reaped k k' c) :
    Kept k k' where
  nextRef := h.nextRef
  zombie := fun r => by
    obtain ⟨t, ht⟩ := h.pcb r
    rw [ht]
  parent := fun r => by
    obtain ⟨t, ht⟩ := h.pcb r
    rw [ht]
  ptrace := fun r => by
    obtain ⟨t, ht⟩ := h.pcb r
    rw [ht]

/-- Rewriting a PCB keeps the process table if it keeps these fields. -/
theorem Kept.setPcb {k : Procs} {p : Ref} (f : Pcb → Pcb)
    (hz : (f (k.pcb p)).state = .ZOMBIE ↔ (k.pcb p).state = .ZOMBIE)
    (hparent : (f (k.pcb p)).parent = (k.pcb p).parent)
    (hptrace : (f (k.pcb p)).ptracePendingReq
      = (k.pcb p).ptracePendingReq) : Kept k (k.setPcb p f) := by
  refine ⟨rfl, fun r => ?_, fun r => ?_, fun r => ?_⟩
  all_goals
    rw [setPcb_pcb]
    split
    next hr =>
      subst hr
      assumption
    next => rfl

/-- A step of the process table. -/
theorem step_caused {s s' : Sys} {a : Act} (h : NoPtrace s.k)
    (hstep : step threadJoin s a = some s') :
    ∃ cs, s'.trace = s.trace ++ cs
      ∧ Caused P elfLoadBuffer s.k (.proc a) s'.k cs := by
  have hwait : ∀ c, target s.k a = some c → IsWait a := by
    intro c hc
    cases a with
    | wait p pid wstatus nohang => trivial
    | _ => cases hc
  cases step_stepped threadJoin h hstep with
  | idle on _ =>
      exact ⟨[], (List.append_nil _).symm, .quiet ((Kept.refl _).setIrq on)⟩
  | forked hlive hf => exact ⟨_, rfl, .forked hlive hf⟩
  | exited hlive hparent => exact ⟨_, rfl, .exited hlive hparent⟩
  | scheduled hlive hst =>
      refine ⟨[], (List.append_nil _).symm, .quiet ?_⟩
      exact Kept.setPcb (fun pcb => { pcb with state := _ })
        (iff_of_false hst hlive.2) rfl rfl
  | blocked _ _ =>
      exact ⟨[], (List.append_nil _).symm,
        .quiet ((Kept.refl _).setIrq false)⟩
  | reaped hc hr => exact ⟨_, rfl, .waited (hwait _ hc) (.of_reaped hr)⟩
  | resumed _ hr => exact ⟨_, rfl, .waited trivial (.of_reaped hr)⟩

/-- Everything an operation can do. -/
theorem perform_caused {K K' : State H F} {op : Op} (h : NoPtrace K.sys.k)
    (hop : perform B elfLoadBuffer threadJoin K op = some K') :
    ∃ cs, calls B K.mach cs = some K'.mach
      ∧ Caused P elfLoadBuffer K.sys.k op K'.sys.k cs := by
  have hadv : ∀ {k : Procs} {cs : List Call},
      K.advance B k cs = some K' →
      calls B K.mach cs = some K'.mach ∧ K'.sys.k = k := by
    intro k cs hk
    obtain ⟨m, hm, rfl⟩ := Option.map_eq_some_iff.mp hk
    exact ⟨hm, rfl⟩
  cases op with
  | create =>
      obtain ⟨hm, hk⟩ := hadv hop
      exact ⟨_, hm, hk ▸ .created⟩
  | allocate p virtAddr nrPages =>
      simp only [perform] at hop
      split at hop
      next hlive =>
        obtain ⟨hm, hk⟩ := hadv hop
        exact ⟨_, hm, by rw [hk]; exact .allocated hlive⟩
      next => cases hop
  | exec p cur joinQueue filename argv envp args m =>
      simp only [perform] at hop
      split at hop
      next hlive =>
        cases hend : doExecve elfLoadBuffer P args K.sys.k p cur joinQueue
            filename argv envp m with
        | returned o =>
            rw [hend] at hop
            obtain ⟨hk', hcalls⟩ := doExecve_returned elfLoadBuffer hend
            obtain ⟨hm, hk⟩ := hadv hop
            rw [hcalls] at hm
            refine ⟨_, hm, ?_⟩
            rw [hk, hk']
            exact .quiet (Kept.setPcb
              (fun pcb => { pcb with name := filename }) Iff.rfl rfl rfl)
        | assertFailed =>
            rw [hend] at hop
            cases hop
        | replaced k cs m' =>
            rw [hend] at hop
            obtain ⟨hm, hk⟩ := hadv hop
            obtain ⟨elf, himage, -, -, argsEnv, rfl⟩ :=
              doExecve_replaced elfLoadBuffer hend
            exact ⟨_, hm, .replaced argsEnv hlive himage
              (hk ▸ execve_kept elfLoadBuffer hend)⟩
      next => cases hop
  | proc a =>
      obtain ⟨s', hs', hcalls⟩ := Option.bind_eq_some_iff.mp hop
      obtain ⟨m, hm, rfl⟩ := Option.map_eq_some_iff.mp hcalls
      obtain ⟨cs, htrace, hc⟩ :=
        step_caused (P := P) elfLoadBuffer threadJoin h hs'
      rw [htrace, List.drop_left] at hm
      exact ⟨cs, hm, hc⟩

-- ============================================================ frame accounting

/-- The process whose page list a call changes. -/
def owner : Call → Option Ref
  | .allocatePage p _ _ | .duplicateUserSpace _ p | .releaseProcPages p =>
      some p
  | _ => none

variable {B} {n : Nat} {m m' : Machine H F}

theorem allocateOne_accounted {p virtAddr i : Nat} (hp : p < n)
    (ac : Accounted B.pool n m.frames)
    (h : allocateOne B p virtAddr i m = some m') :
    Accounted B.pool n m'.frames := by
  obtain ⟨⟨f, fr⟩, hget, h⟩ := Option.bind_eq_some_iff.mp h
  obtain ⟨t, -, rfl⟩ := Option.map_eq_some_iff.mp h
  exact getPage_accounted ac hp hget

theorem copyEntry_accounted {cur : Pgtable} {dst i x y j : Nat}
    (hdst : dst < n) (ac : Accounted B.pool n m.frames)
    (h : copyEntry B cur dst i x y j m = some m') :
    Accounted B.pool n m'.frames := by
  unfold copyEntry at h
  split at h
  · obtain ⟨⟨f, fr⟩, hget, h⟩ := Option.bind_eq_some_iff.mp h
    obtain ⟨t, -, h⟩ := Option.bind_eq_some_iff.mp h
    obtain ⟨d, -, h⟩ := Option.bind_eq_some_iff.mp h
    obtain ⟨s, -, rfl⟩ := Option.map_eq_some_iff.mp h
    exact getPage_accounted ac hdst hget
  · cases h
    exact ac

theorem copySlot_accounted {cur : Pgtable} {src dst i : Nat}
    (hdst : dst < n) (ac : Accounted B.pool n m.frames)
    (h : copySlot B cur src dst i m = some m') :
    Accounted B.pool n m'.frames := by
  unfold copySlot at h
  dsimp only at h
  split at h
  · split at h
    · cases h
    · obtain ⟨t, -, h⟩ := Option.bind_eq_some_iff.mp h
      exact forRange_inv (I := fun m => Accounted B.pool n m.frames) ac
        (fun j s s' _ hs => copyEntry_accounted hdst hs) h
  · cases h
    exact ac

/-- Every call keeps the account. -/
theorem call_accounted {c : Call} (hc : ∀ p ∈ owner c, p < n)
    (ac : Accounted B.pool n m.frames) (h : call B m c = some m') :
    Accounted B.pool n m'.frames := by
  cases c with
  | allocatePage p virtAddr nrPages =>
      exact forRange_inv (I := fun m => Accounted B.pool n m.frames) ac
        (fun i s s' _ hs => allocateOne_accounted (hc p rfl) hs) h
  | duplicateUserSpace src dst =>
      obtain ⟨m₁, hloop, h⟩ := Option.bind_eq_some_iff.mp h
      obtain ⟨t, -, rfl⟩ := Option.map_eq_some_iff.mp h
      exact forRange_inv (I := fun m => Accounted B.pool n m.frames) ac
        (fun i s s' _ hs => copySlot_accounted (hc dst rfl) hs) hloop
  | releaseProcPages p =>
      cases h
      exact (release_accounted ac (hc p rfl)).1
  | mapRootImage p =>
      obtain ⟨t, -, rfl⟩ := Option.map_eq_some_iff.mp h
      exact ac
  | newRootPgtable p =>
      cases h
      exact ac
  | resetRootPgtable p remove =>
      cases h
      exact ac
  | _ =>
      cases h
      exact ac

/-- And so does a list of calls. -/
theorem calls_accounted {cs : List Call}
    (hcs : ∀ c ∈ cs, ∀ p ∈ owner c, p < n)
    (ac : Accounted B.pool n m.frames) (h : calls B m cs = some m') :
    Accounted B.pool n m'.frames :=
  run_inv_along (I := fun m => Accounted B.pool n m.frames)
    (fun _ _ _ hs hc hcall => call_accounted hc hs hcall) ac
    (along_of_forall hcs m) h

/-- The calls an operation makes are on behalf of processes that exist
after it. -/
theorem Caused.owner_lt {k k' : Procs} {op : Op} {cs : List Call}
    (h : Caused P elfLoadBuffer k op k' cs) :
    ∀ c ∈ cs, ∀ p ∈ owner c, p < k'.nextRef := by
  intro c hc p hp
  cases h with
  | quiet _ => cases hc
  | created =>
      have hpn : p = k.nextRef := by
        simp only [createRootProcess, List.mem_cons, List.not_mem_nil,
          or_false] at hc
        rcases hc with rfl | rfl | rfl | rfl
        · cases hp
        · cases hp
          rfl
        · cases hp
        · cases hp
      rw [hpn]
      exact Nat.lt_succ_self _
  | allocated hlive =>
      obtain rfl := List.mem_singleton.mp hc
      cases hp
      exact hlive.1
  | forked hlive hf =>
      rw [hf.nextRef]
      simp only [List.mem_cons, List.not_mem_nil, or_false] at hc
      rcases hc with rfl | rfl
      · cases hp
      · cases hp
        exact Nat.lt_succ_self _
  | exited hlive _ =>
      simp only [List.mem_cons, List.not_mem_nil, or_false] at hc
      rcases hc with rfl | rfl
      · cases hp
        exact hlive.1
      · cases hp
  | replaced argsEnv hlive _ hkept =>
      rw [hkept.nextRef]
      simp only [imageCalls, List.mem_append, List.mem_cons,
        List.not_mem_nil, or_false] at hc
      rcases hc with ((rfl | rfl | rfl | rfl | rfl | rfl) | hc) | rfl | rfl
      case inl.inr =>
        split at hc
        · obtain rfl := List.mem_singleton.mp hc
          cases hp
        · cases hc
      all_goals
        cases hp
      all_goals
        exact hlive.1
  | waited _ _ =>
      obtain rfl := List.mem_singleton.mp hc
      cases hp

/-- No operation forgets a process. -/
theorem Caused.nextRef_le {k k' : Procs} {op : Op} {cs : List Call}
    (h : Caused P elfLoadBuffer k op k' cs) : k.nextRef ≤ k'.nextRef := by
  cases h with
  | quiet hkept => exact hkept.nextRef.ge
  | created => exact Nat.le_succ _
  | allocated _ => exact Nat.le_refl _
  | forked _ hf => exact hf.nextRef ▸ Nat.le_succ _
  | exited _ _ => exact Nat.le_refl _
  | replaced _ _ _ hkept => exact hkept.nextRef.ge
  | waited _ hkept => exact hkept.nextRef.ge

/-- No operation starts tracing a process. -/
theorem Caused.noPtrace {k k' : Procs} {op : Op} {cs : List Call}
    (h : Caused P elfLoadBuffer k op k' cs) (hk : NoPtrace k) :
    NoPtrace k' := by
  intro r
  cases h with
  | quiet hkept => exact (hkept.ptrace r).trans (hk r)
  | created =>
      by_cases hr : r = k.nextRef
      · simp [createRootProcess, newProcess, Procs.setPcb, Procs.setIrq, hr,
          resetProcessStack, freshPcb]
      · have hr' := hk r
        simp [createRootProcess, newProcess, Procs.setPcb, Procs.setIrq, hr,
          hr']
  | allocated _ => exact hk r
  | forked _ hf =>
      by_cases hr : r = k.nextRef
      · exact hr ▸ hf.ptrace
      · exact (hf.others r hr) ▸ hk r
  | exited _ _ =>
      rw [setPcb_pcb]
      split
      · exact hk r
      · exact hk r
  | replaced _ _ _ hkept => exact (hkept.ptrace r).trans (hk r)
  | waited _ hkept => exact (hkept.ptrace r).trans (hk r)

/-- The account of the kernel. -/
structure Audited (B : Board P H F) (K : State H F) : Prop where
  noPtrace : NoPtrace K.sys.k
  frames : Accounted B.pool K.sys.k.nextRef K.mach.frames

theorem audited_boot (t : PageTables H) (pool : F)
    (page : Nat → Nat → UInt8) : Audited B (State.boot t pool page) :=
  ⟨fun _ => rfl, accounted_boot rfl rfl rfl⟩

/-- Every operation keeps the account. -/
theorem audited_perform {K K' : State H F} {op : Op} (h : Audited B K)
    (hop : perform B elfLoadBuffer threadJoin K op = some K') :
    Audited B K' := by
  obtain ⟨cs, hcs, hcaused⟩ := perform_caused B elfLoadBuffer threadJoin
    h.noPtrace hop
  exact ⟨hcaused.noPtrace elfLoadBuffer h.noPtrace,
    calls_accounted (hcaused.owner_lt elfLoadBuffer)
      (h.frames.mono (hcaused.nextRef_le elfLoadBuffer)) hcs⟩

end SyeLabs.Kernel
