/-
The kernel refines a world of processes with memories of their own.

# The world

What a process is for its program: a memory from addresses to bytes, a
break and a main thread. `World` has nothing else: no page tables, no
frames, no pool, no reference counts, no PCBs of the dead, no lists. Its
steps say what fork, exec, exit, `do_sbrk` and a store mean to the
processes. The one thing they leave open is what the memory of a new image
holds; which addresses it has is fixed by the image.

# The refinement

`world` forgets all of the kernel but what each live process reads and
three fields of its PCB. Every step of the kernel is, so seen, a step of
the world, and every run a run (`kernel_refines_world`). A `do_waitpid`
that reaps is a step in which nothing happens: it empties the page table
of a process that is dead, and since no L2 table is in two page tables
nobody else can tell.

# What is left out

Two kinds of wait, since there is no world they refine: for a child in
`WAITING`, which is destroyed while it lives, and for a zombie that has
been reaped before, whose page table is freed again. Names that run over
the heap of their PCB, and images that do not fit. The accesses of a
process follow its page table as it stands: a TLB is not part of these
runs (`Mmu.Tlb` says what it can spoil).
-/
import SyeLabs.Kernel.Heap
import SyeLabs.Lib.Refine

namespace SyeLabs.Kernel

open Lib Mmu Process

variable {P : Platform} {H F : Type*}

-- =================================================================== the world

/-- A process as its program sees it. -/
structure Program where
  mem : Nat → Option UInt8
  heapBase : Nat
  brk : Nat
  main : Option Tid

/-- The live processes, and the names of the next process and thread. -/
@[ext]
structure World where
  procs : Ref → Option Program
  next : Ref
  nextThread : Tid

/-- Process `p` as it is from now on. -/
def World.set (W : World) (p : Ref) (pr : Option Program) : World :=
  { W with procs := Function.update W.procs p pr }

/-- What happens: a turn, a call of `do_sbrk`, or a wait. -/
inductive Event
  | turn (a : HeapTurn)
  | wait (p : Ref) (pid : Pid) (wstatus : Option (BitVec 32)) (nohang : Bool)
  | resume (w : Wait)

/-- A fork, an exec, and so on, as events. -/
def Event.op (op : Op) : Event := .turn (.turn (.kernel op))

variable (P) in
/-- What the events mean to the processes. -/
inductive World.Step (elfLoadBuffer : CString → Option Elf) :
    World → Event → World → Prop
  /-- A process stores a byte to an address it has. -/
  | store {W : World} {p : Ref} {pr : Program} {w : Nat × UInt8} :
      W.procs p = some pr → (pr.mem w.1).isSome →
      World.Step elfLoadBuffer W (.turn (.turn (.store p w)))
        (W.set p (some { pr with mem := overlay [w] pr.mem }))
  /-- The break moves within the heap. -/
  | sbrk {W : World} {p : Ref} {pr : Program} {increment : BitVec 32}
      {brk : Nat} : W.procs p = some pr →
      (brk : Int) = pr.brk + increment.toInt → pr.heapBase ≤ brk →
      brk < pr.heapBase + P.heapSize →
      World.Step elfLoadBuffer W (.turn (.sbrk p increment))
        (W.set p (some { pr with brk := brk }))
  /-- It does not move out of it. -/
  | sbrkRefused {W : World} {p : Ref} {pr : Program}
      {increment : BitVec 32} : W.procs p = some pr →
      ¬ (pr.heapBase ≤ pr.brk + increment.toInt
        ∧ pr.brk + increment.toInt < pr.heapBase + P.heapSize) →
      World.Step elfLoadBuffer W (.turn (.sbrk p increment)) W
  /-- A child is a copy with a thread of its own. -/
  | fork {W : World} {p : Ref} {pr : Program} {thread : Tid} :
      W.procs p = some pr → pr.main = some thread →
      World.Step elfLoadBuffer W (.op (.proc (.fork p thread)))
        { W.set W.next (some { pr with main := some W.nextThread }) with
          next := W.next + 1
          nextThread := W.nextThread + 1 }
  /-- Only the main thread forks. -/
  | forkRefused {W : World} {p : Ref} {pr : Program} {thread : Tid} :
      W.procs p = some pr → pr.main ≠ some thread →
      World.Step elfLoadBuffer W (.op (.proc (.fork p thread))) W
  /-- The main thread loads a new image, which has its areas, an empty heap
  and a new thread. -/
  | exec {W : World} {p : Ref} {pr : Program} {cur : Tid}
      {joinQueue : List Ref} {filename : CString}
      {argv envp : Option (List CString)} {args : Nat} {m : ByteMem}
      {elf : Elf} {mem : Nat → Option UInt8} : W.procs p = some pr →
      pr.main = some cur → elfLoadBuffer filename = some elf →
      (∀ v, (mem v).isSome ↔ ImageArea P elf v) →
      World.Step elfLoadBuffer W
        (.op (.exec p cur joinQueue filename argv envp args m))
        { W.set p (some
            { mem := mem
              heapBase := heapStart P elf
              brk := heapStart P elf
              main := some W.nextThread }) with
          nextThread := W.nextThread + 1 }
  | execRefused {W : World} {p : Ref} {pr : Program} {cur : Tid}
      {joinQueue : List Ref} {filename : CString}
      {argv envp : Option (List CString)} {args : Nat} {m : ByteMem} :
      W.procs p = some pr → pr.main = some cur →
      elfLoadBuffer filename = none →
      World.Step elfLoadBuffer W
        (.op (.exec p cur joinQueue filename argv envp args m)) W
  /-- A process that exits is no more, and its name is not used again. -/
  | exit {W : World} {p : Ref} {pr : Program} {status : BitVec 32} :
      W.procs p = some pr →
      World.Step elfLoadBuffer W (.op (.proc (.exit p status)))
        (W.set p none)
  | sched {W : World} {p : Ref} {pr : Program} {st : ProcState} :
      W.procs p = some pr → st ≠ .ZOMBIE →
      World.Step elfLoadBuffer W (.op (.proc (.sched p st))) W
  | wait {W : World} {p : Ref} {pr : Program} {pid : Pid}
      {wstatus : Option (BitVec 32)} {nohang : Bool} :
      W.procs p = some pr →
      World.Step elfLoadBuffer W (.wait p pid wstatus nohang) W
  | resume {W : World} {w : Wait} :
      World.Step elfLoadBuffer W (.resume w) W

-- ================================================================== the kernel

variable (B : Board P H F) (elfLoadBuffer : CString → Option Elf)
  (threadJoin : Option Tid → Option Tid)

/-- An event in the kernel. -/
def kernelStep (K : State H F) : Event → Option (State H F)
  | .turn a => heapTurn B elfLoadBuffer threadJoin K a
  | .wait p pid wstatus nohang =>
      perform B elfLoadBuffer threadJoin K (.proc (.wait p pid wstatus nohang))
  | .resume w => perform B elfLoadBuffer threadJoin K (.proc (.resume w))

/-- The images and the names fit, and who is waited for is a live child
that does not sleep in `WAITING`, or a zombie that nobody has reaped. -/
def Event.Fits (P : Platform) (elfLoadBuffer : CString → Option Elf)
    (K : State H F) : Event → Prop
  | .turn a => a.Fits P elfLoadBuffer K
  | .wait _ pid _ nohang => ∀ c ∈ waitTarget K.sys.k pid nohang,
      (K.sys.k.pcb c).state ≠ .WAITING ∧ freed K.sys c = 0
  | .resume w => freed K.sys w.child = 0

/-- What is left of the kernel in the eyes of the processes. -/
def world (P : Platform) (K : State H F) : World where
  procs p := if Live K.sys.k p then
      some
        { mem := userBytes P K.mach p
          heapBase := (K.sys.k.pcb p).heapBase
          brk := (K.sys.k.pcb p).heapPointer
          main := (K.sys.k.pcb p).mainThread }
    else none
  next := K.sys.k.nextRef
  nextThread := K.sys.k.nextTid

variable {B} {elfLoadBuffer} {threadJoin} {K K' : State H F}

theorem world_live {p : Ref} (h : Live K.sys.k p) :
    (world P K).procs p = some
      { mem := userBytes P K.mach p
        heapBase := (K.sys.k.pcb p).heapBase
        brk := (K.sys.k.pcb p).heapPointer
        main := (K.sys.k.pcb p).mainThread } := if_pos h

theorem world_dead {p : Ref} (h : ¬ Live K.sys.k p) :
    (world P K).procs p = none := if_neg h

/-- The processes see no difference between the two states in process
`q`. -/
structure Unmoved (P : Platform) (K K' : State H F) (q : Ref) : Prop where
  live : Live K'.sys.k q ↔ Live K.sys.k q
  mem : Live K.sys.k q → userBytes P K'.mach q = userBytes P K.mach q
  heap : Live K.sys.k q → SameHeap (K'.sys.k.pcb q) (K.sys.k.pcb q)
  main : Live K.sys.k q →
    (K'.sys.k.pcb q).mainThread = (K.sys.k.pcb q).mainThread

theorem Unmoved.procs {q : Ref} (h : Unmoved P K K' q) :
    (world P K').procs q = (world P K).procs q := by
  by_cases hq : Live K.sys.k q
  · rw [world_live hq, world_live (h.live.mpr hq), h.mem hq, h.main hq,
      (h.heap hq).1, (h.heap hq).2]
  · rw [world_dead hq, world_dead fun hq' => hq (h.live.mp hq')]

/-- A step in which nothing moves. -/
theorem world_same (h : ∀ q, Unmoved P K K' q)
    (href : K'.sys.k.nextRef = K.sys.k.nextRef)
    (htid : K'.sys.k.nextTid = K.sys.k.nextTid) :
    world P K' = world P K :=
  World.ext (funext fun q => (h q).procs) href htid

/-- A step in which only process `p` moves. -/
theorem world_set {p : Ref} {pr : Option Program}
    (h : ∀ q, q ≠ p → Unmoved P K K' q) (hp : (world P K').procs p = pr)
    (next : Ref) (nextThread : Tid) (href : K'.sys.k.nextRef = next)
    (htid : K'.sys.k.nextTid = nextThread) :
    world P K' = { (world P K).set p pr with
      next := next, nextThread := nextThread } := by
  refine World.ext (funext fun q => ?_) href htid
  by_cases hq : q = p
  · subst hq
    show _ = Function.update (world P K).procs q pr q
    rw [Function.update_self]
    exact hp
  · show _ = Function.update (world P K).procs p pr q
    rw [Function.update_of_ne hq]
    exact (h q hq).procs

-- ================================================================== one by one

/-- A process the turn leaves alone. -/
theorem Seen.unmoved {a : Turn} {q : Ref} (h : Seen B K a K')
    (hstores : storesOf q [a] = []) (hexec : ¬ a.IsExecOf q)
    (hlive : Live K'.sys.k q ↔ Live K.sys.k q)
    (hheap : Live K.sys.k q → SameHeap (K'.sys.k.pcb q) (K.sys.k.pcb q))
    (hmain : Live K.sys.k q →
      (K'.sys.k.pcb q).mainThread = (K.sys.k.pcb q).mainThread) :
    Unmoved P K K' q where
  live := hlive
  mem := fun hq => by
    rw [h.own q hq (hlive.mpr hq) hexec, hstores, overlay_nil]
  heap := hheap
  main := hmain

/-- A store is carried out if there is something to be read. -/
theorem isSome_of_storeByte {p : Ref} {w : Nat × UInt8}
    {m m' : Machine H F} (h : storeByte P p m w = some m') :
    (userBytes P m p w.1).isSome := by
  unfold storeByte at h
  unfold userBytes
  split at h
  next hw =>
    obtain ⟨a, ha, -⟩ := Option.map_eq_some_iff.mp h
    rw [if_pos hw, ha]
    rfl
  next => cases h

theorem store_step {p : Ref} {w : Nat × UInt8} {m : Machine H F}
    (hlive : Live K.sys.k p) (hstore : storeByte P p K.mach w = some m)
    (hseen : Seen B K (.store p w) { K with mach := m }) :
    World.Step P elfLoadBuffer (world P K) (.turn (.turn (.store p w)))
      (world P { K with mach := m }) := by
  have hothers : ∀ q, q ≠ p → Unmoved P K { K with mach := m } q :=
    fun q hq => hseen.unmoved (storesOf_other hq w) not_false Iff.rfl
      (fun _ => ⟨rfl, rfl⟩) fun _ => rfl
  rw [world_set hothers (world_live hlive) _ _ rfl rfl]
  have hown := hseen.own p hlive hlive not_false
  rw [storesOf_self] at hown
  have hmem : userBytes P m p = overlay [w] (userBytes P K.mach p) := hown
  dsimp only
  rw [hmem]
  exact World.Step.store (world_live hlive) (isSome_of_storeByte hstore)

theorem sbrk_step {p : Ref} (hlive : Live K.sys.k p)
    (h : InHeap P (K.sys.k.pcb p)) (increment : BitVec 32) :
    World.Step P elfLoadBuffer (world P K) (.turn (.sbrk p increment))
      (world P (afterSbrk P K p increment)) := by
  have hexact := sbrkExact h increment
  unfold SbrkExact at hexact
  dsimp only at hexact
  split at hexact
  next hin =>
    obtain ⟨brk, hbrk, hs, -⟩ := hexact
    have hafter : afterSbrk P K p increment
        = { K with sys := { K.sys with k := K.sys.k.setPcb p fun pcb =>
            { pcb with heapPointer := brk } } } := by
      rw [afterSbrk, hs]
    rw [hafter]
    have hothers : ∀ q, q ≠ p → Unmoved P K
        { K with sys := { K.sys with k := K.sys.k.setPcb p fun pcb =>
          { pcb with heapPointer := brk } } } q := by
      intro q hq
      have hpcb : (K.sys.k.setPcb p fun pcb =>
          { pcb with heapPointer := brk }).pcb q = K.sys.k.pcb q := by
        rw [setPcb_pcb, if_neg hq]
      refine ⟨live_setPcb fun _ => rfl, fun _ => rfl, fun _ => ?_,
        fun _ => ?_⟩
      · dsimp only
        rw [hpcb]
        exact ⟨rfl, rfl⟩
      · dsimp only
        rw [hpcb]
    have hself : (world P { K with sys := { K.sys with
        k := K.sys.k.setPcb p fun pcb =>
          { pcb with heapPointer := brk } } }).procs p
        = some
          { mem := userBytes P K.mach p
            heapBase := (K.sys.k.pcb p).heapBase
            brk := brk
            main := (K.sys.k.pcb p).mainThread } := by
      have hpcb : (K.sys.k.setPcb p fun pcb =>
          { pcb with heapPointer := brk }).pcb p
          = { K.sys.k.pcb p with heapPointer := brk } := by
        rw [setPcb_pcb, if_pos rfl]
      rw [world_live]
      · dsimp only
        rw [hpcb]
      · exact Iff.mpr (live_setPcb fun _ => rfl) hlive
    rw [world_set hothers hself _ _ rfl rfl]
    exact World.Step.sbrk (world_live hlive) hbrk (by dsimp only; omega)
      (by dsimp only; omega)
  next hout =>
    have hafter : afterSbrk P K p increment = K := by
      rw [afterSbrk, hexact.1]
    rw [hafter]
    refine World.Step.sbrkRefused (world_live hlive) ?_
    dsimp only
    omega

/-- The process table after an action is the one its step leaves. -/
theorem perform_proc {a : Act}
    (hop : perform B elfLoadBuffer threadJoin K (.proc a) = some K') :
    step threadJoin K.sys a = some K'.sys
      ∧ calls B K.mach (K'.sys.trace.drop K.sys.trace.length)
        = some K'.mach := by
  obtain ⟨s', hs', hcalls⟩ := Option.bind_eq_some_iff.mp hop
  obtain ⟨m, hm, rfl⟩ := Option.map_eq_some_iff.mp hcalls
  exact ⟨hs', hm⟩

/-- The process that acts. -/
def actor : Act → Option Ref
  | .fork p _ | .exit p _ | .wait p _ _ _ | .sched p _ => some p
  | .resume _ => none

theorem live_of_step {s s' : Sys} {a : Act} {p : Ref}
    (h : step threadJoin s a = some s') (ha : actor a = some p) :
    Live s.k p := by
  cases a with
  | resume w => cases ha
  | sched q st =>
      cases ha
      simp only [step] at h
      split at h
      next hq => exact hq.1
      next => cases h
  | _ =>
      cases ha
      simp only [step] at h
      split at h
      next hq => exact hq
      next => cases h

theorem fork_step {p : Ref} {thread : Tid}
    (hop : perform B elfLoadBuffer threadJoin K (.proc (.fork p thread))
      = some K')
    (hseen : Seen B K (.kernel (.proc (.fork p thread))) K') :
    World.Step P elfLoadBuffer (world P K) (.op (.proc (.fork p thread)))
      (world P K') := by
  obtain ⟨hstep, -⟩ := perform_proc hop
  simp only [step] at hstep
  split at hstep
  next hlive =>
    have hk := congrArg Sys.k (Option.some.inj hstep)
    dsimp only at hk
    by_cases hmain : (K.sys.k.pcb p).mainThread = some thread
    · obtain ⟨hf, htid, -⟩ := doFork_main hmain
      obtain ⟨name, hchild, -⟩ := doFork_child hmain
      rw [hk] at hf htid hchild
      have hlive' : Live K'.sys.k K.sys.k.nextRef := by
        refine ⟨hf.nextRef.symm ▸ Nat.lt_succ_self _, ?_⟩
        rw [hf.state]
        decide
      have hothers : ∀ q, q ≠ K.sys.k.nextRef → Unmoved P K K' q := by
        intro q hq
        have hpcb := hf.others q hq
        refine hseen.unmoved rfl not_false ⟨fun hq' => ?_, fun hq' => ?_⟩
          (fun _ => hpcb ▸ ⟨rfl, rfl⟩) fun _ => hpcb ▸ rfl
        · obtain ⟨hlt, hz⟩ := hq'
          rw [hf.nextRef] at hlt
          exact ⟨Nat.lt_of_le_of_ne (Nat.le_of_lt_succ hlt) hq, hpcb ▸ hz⟩
        · obtain ⟨hlt, hz⟩ := hq'
          exact ⟨hf.nextRef.symm ▸ Nat.lt_succ_of_lt hlt, hpcb.symm ▸ hz⟩
      have hcopy : userBytes P K'.mach K.sys.k.nextRef
          = userBytes P K.mach p := by
        rcases hseen.born _ hlive' with hold | ⟨-, r, t, heq, -, hcopy⟩
        · exact absurd hold.1 (Nat.lt_irrefl _)
        · cases heq
          exact hcopy
      have hnew := world_live (P := P) hlive'
      rw [hcopy, hchild] at hnew
      rw [world_set hothers hnew _ _ hf.nextRef htid]
      exact World.Step.fork (world_live hlive) hmain
    · rw [doFork_of_not_main hmain] at hk
      have hsame : world P K' = world P K := by
        refine world_same (fun q => hseen.unmoved rfl not_false ?_
          (fun _ => hk ▸ ⟨rfl, rfl⟩) fun _ => hk ▸ rfl) ?_ ?_
        · rw [← hk]
          exact Iff.rfl
        · rw [← hk]
          rfl
        · rw [← hk]
          rfl
      rw [hsame]
      exact World.Step.forkRefused (world_live hlive) hmain
  next => cases hstep

theorem exit_step {p : Ref} {status : BitVec 32}
    (hop : perform B elfLoadBuffer threadJoin K (.proc (.exit p status))
      = some K')
    (hseen : Seen B K (.kernel (.proc (.exit p status))) K') :
    World.Step P elfLoadBuffer (world P K) (.op (.proc (.exit p status)))
      (world P K') := by
  have hlive := live_of_step (perform_proc hop).1 rfl
  have hk := congrArg Sys.k (exit_cases (perform_proc hop).1)
  dsimp only at hk
  have hgone : ¬ Live K'.sys.k p := by
    intro hp
    obtain ⟨-, hz⟩ := hp
    rw [hk, setPcb_pcb, if_pos rfl] at hz
    exact hz rfl
  have hothers : ∀ q, q ≠ p → Unmoved P K K' q := by
    intro q hq
    have hpcb : K'.sys.k.pcb q = K.sys.k.pcb q := by
      rw [hk, setPcb_pcb, if_neg hq]
      rfl
    refine hseen.unmoved rfl not_false ?_ (fun _ => hpcb ▸ ⟨rfl, rfl⟩)
      fun _ => hpcb ▸ rfl
    unfold Live
    rw [hpcb, hk]
    rfl
  rw [world_set hothers (world_dead hgone) K.sys.k.nextRef
    K.sys.k.nextTid (by rw [hk]; rfl) (by rw [hk]; rfl)]
  exact World.Step.exit (world_live hlive)

theorem sched_step {p : Ref} {st : ProcState}
    (hop : perform B elfLoadBuffer threadJoin K (.proc (.sched p st))
      = some K')
    (hseen : Seen B K (.kernel (.proc (.sched p st))) K') :
    World.Step P elfLoadBuffer (world P K) (.op (.proc (.sched p st)))
      (world P K') := by
  have hlive := live_of_step (perform_proc hop).1 rfl
  obtain ⟨hst, hsys⟩ := sched_cases (perform_proc hop).1
  have hk := congrArg Sys.k hsys
  dsimp only at hk
  have hsame : world P K' = world P K := by
    refine world_same (fun q => ?_) (by rw [hk]; rfl) (by rw [hk]; rfl)
    refine hseen.unmoved rfl not_false ?_ (fun _ => ?_) fun _ => ?_
    · unfold Live
      rw [hk, setPcb_pcb]
      split
      next hq =>
        subst hq
        exact iff_of_true ⟨hlive.1, hst⟩ hlive
      next => exact Iff.rfl
    · rw [hk, setPcb_pcb]
      split <;> exact ⟨rfl, rfl⟩
    · rw [hk, setPcb_pcb]
      split <;> rfl
  rw [hsame]
  exact World.Step.sched (world_live hlive) hst

/-- It is the main thread of a live process that gets through an exec. -/
theorem main_of_exec {p : Ref} {cur : Tid} {joinQueue : List Ref}
    {filename : CString} {argv envp : Option (List CString)} {args : Nat}
    {mem : ByteMem}
    (hop : perform B elfLoadBuffer threadJoin K
      (.exec p cur joinQueue filename argv envp args mem) = some K') :
    Live K.sys.k p ∧ (K.sys.k.pcb p).mainThread = some cur := by
  simp only [perform] at hop
  split at hop
  next hlive =>
    refine ⟨hlive, ?_⟩
    by_contra hmain
    rw [doExecve, if_pos hmain] at hop
    cases hop
  next => cases hop

theorem exec_step {p : Ref} {cur : Tid} {joinQueue : List Ref}
    {filename : CString} {argv envp : Option (List CString)} {args : Nat}
    {mem : ByteMem} (h : Private B K)
    (hfits : ∀ elf, elfLoadBuffer filename = some elf → ImageFits P elf)
    (hop : perform B elfLoadBuffer threadJoin K
      (.exec p cur joinQueue filename argv envp args mem) = some K')
    (hseen : Seen B K
      (.kernel (.exec p cur joinQueue filename argv envp args mem)) K') :
    World.Step P elfLoadBuffer (world P K)
      (.op (.exec p cur joinQueue filename argv envp args mem))
      (world P K') := by
  obtain ⟨hlive, hmain⟩ := main_of_exec hop
  rcases perform_exec hop with
    ⟨hmach, himage, hk⟩ | ⟨elf, helf, argsEnv, hcs, href, htid, hpcb⟩
  · have hsame : world P K' = world P K := by
      refine world_same (fun q => ⟨?_, fun _ => by rw [hmach], fun _ => ?_,
        fun _ => ?_⟩) (by rw [hk]; rfl) (by rw [hk]; rfl)
      · rw [hk]
        exact live_setPcb fun _ => rfl
      · rw [hk, setPcb_pcb]
        split <;> exact ⟨rfl, rfl⟩
      · rw [hk, setPcb_pcb]
        split <;> rfl
    rw [hsame]
    exact World.Step.execRefused (world_live hlive) hmain himage
  · have hothers : ∀ q, q ≠ p → Unmoved P K K' q := by
      intro q hq
      have hsame : K'.sys.k.pcb q = K.sys.k.pcb q := by
        rw [hpcb, if_neg hq]
      refine hseen.unmoved rfl (fun hexec => hq hexec.symm) ?_
        (fun _ => hsame ▸ ⟨rfl, rfl⟩) fun _ => hsame ▸ rfl
      unfold Live
      rw [hsame, href]
    have hp := hpcb p
    rw [if_pos rfl] at hp
    have hlive' : Live K'.sys.k p := by
      obtain ⟨hlt, hz⟩ := hlive
      refine ⟨href.symm ▸ hlt, ?_⟩
      rw [hp]
      exact hz
    have hnew := world_live (P := P) hlive'
    rw [hp] at hnew
    rw [world_set hothers hnew _ _ href htid]
    exact World.Step.exec (world_live hlive) hmain helf
      (userBytes_image (hfits elf helf) hlive.1 h.isolated.sound
        h.isolated.audited.frames hcs)

-- =================================================================== the waits

/-- A wait that goes on, or ends without a child: nothing happens. -/
theorem Heaped.setIrq {on : Bool} (h : Heaped B K)
    (hmach : K'.mach = K.mach) (hk : K'.sys.k = K.sys.k.setIrq on) :
    Heaped B K' := by
  obtain ⟨⟨⟨⟨hno, hac⟩, hsound, hbacked, hpage⟩, hpaged⟩, hnames, hin,
    hpages⟩ := h
  obtain ⟨⟨k', waits, trace⟩, m'⟩ := K'
  dsimp only at hmach hk
  subst hmach hk
  exact ⟨⟨⟨⟨hno, hac⟩, hsound, hbacked, hpage⟩, hpaged⟩, hnames, hin, hpages⟩

theorem world_setIrq {on : Bool} (hmach : K'.mach = K.mach)
    (hk : K'.sys.k = K.sys.k.setIrq on) : world P K' = world P K := by
  unfold world
  rw [hk, hmach]
  rfl

/-- The end of a wait for a zombie: its page table is emptied, and only
its own user area changes. -/
theorem Heaped.reaped {c : Ref} (h : Heaped B K)
    (hz : (K.sys.k.pcb c).state = .ZOMBIE) (hc : c < K.sys.k.nextRef)
    (haudit : Audited B K') (hr : Reaped K.sys.k K'.sys.k c)
    (hthread : ∀ r, Live K.sys.k r →
      (K'.sys.k.pcb r).mainThread = (K.sys.k.pcb r).mainThread)
    (htid : K'.sys.k.nextTid = K.sys.k.nextTid)
    (hcs : calls B K.mach [.resetRootPgtable c true] = some K'.mach) :
    Heaped B K' ∧ world P K' = world P K := by
  have hkept := Kept.of_reaped hr
  obtain ⟨m, hreset, hcs⟩ := run_cons_iff.mp hcs
  cases hcs
  obtain ⟨hw, -, -⟩ := reset_grown hc h.priv.isolated.sound hreset
  have hpage : K'.mach.page = K.mach.page :=
    (congrArg Machine.page (Option.some.inj hreset)).symm
  have hne : ∀ q, Live K.sys.k q → q ≠ c := fun q hq heq => hq.2 (heq ▸ hz)
  have hiso := h.priv.isolated
  have hsame : ∀ q, Live K.sys.k q →
      userBytes P K'.mach q = userBytes P K.mach q
        ∧ ∀ M, Paged P K.mach.tables q M → Paged P K'.mach.tables q M :=
    fun q hq => hw.seen hq.1 (hne q hq) (hiso.backed q hq)
      hiso.audited.frames fun f _ => by rw [hpage]
  have hheap : ∀ r, SameHeap (K'.sys.k.pcb r) (K.sys.k.pcb r) := by
    intro r
    obtain ⟨t, ht⟩ := hr.pcb r
    rw [ht]
    exact ⟨rfl, rfl⟩
  have hnames : NamesFit K'.sys.k := by
    intro r
    obtain ⟨t, ht⟩ := hr.pcb r
    rw [ht]
    exact h.names r
  have hiso' : Isolated B K' := by
    refine Isolated.of_within haudit (hkept.nextRef.symm ▸ hw) hiso.each
      (fun q _ hq => hkept.live.mp hq) fun hlive => ?_
    exact absurd (hkept.live.mp hlive) fun hl => hl.2 hz
  refine ⟨⟨⟨hiso', fun q hq => ?_⟩, hnames,
    fun r => (h.inHeap r).same (hheap r), fun q hq => ?_⟩,
    world_same (fun q => ⟨hkept.live, fun hq => (hsame q hq).1,
      fun _ => hheap q, hthread q⟩) hkept.nextRef htid⟩
  · obtain ⟨M, hM⟩ := h.priv.paged q (hkept.live.mp hq)
    exact ⟨M, (hsame q (hkept.live.mp hq)).2 M hM⟩
  · refine (h.pages q (hkept.live.mp hq)).same (hheap q).1 fun v hv => ?_
    rw [(hsame q (hkept.live.mp hq)).1]
    exact hv

/-- What the kernel keeps: the memories are in order, and only a process
that exists can be a zombie. -/
structure Orderly (B : Board P H F) (K : State H F) : Prop where
  heaped : Heaped B K
  fresh : ∀ r, K.sys.k.nextRef ≤ r → (K.sys.k.pcb r).state ≠ .ZOMBIE

theorem Caused.fresh {k k' : Procs} {op : Op} {cs : List Call}
    (h : Caused P elfLoadBuffer k op k' cs)
    (hk : ∀ r, k.nextRef ≤ r → (k.pcb r).state ≠ .ZOMBIE) :
    ∀ r, k'.nextRef ≤ r → (k'.pcb r).state ≠ .ZOMBIE := by
  have hkept : Kept k k' → ∀ r, k'.nextRef ≤ r →
      (k'.pcb r).state ≠ .ZOMBIE := by
    intro hkept r hr hz
    exact hk r (hkept.nextRef ▸ hr) ((hkept.zombie r).mp hz)
  cases h with
  | quiet h => exact hkept h
  | created =>
      intro r hr
      have hne : r ≠ k.nextRef := Nat.ne_of_gt hr
      simp only [createRootProcess, newProcess, Procs.setPcb, Procs.setIrq,
        Function.update_of_ne hne]
      exact hk r (Nat.le_of_succ_le hr)
  | allocated _ => exact hk
  | forked _ hf =>
      intro r hr
      rw [hf.nextRef] at hr
      rw [hf.others r (Nat.ne_of_gt hr)]
      exact hk r (Nat.le_of_succ_le hr)
  | exited hlive _ =>
      intro r hr
      have hne : r ≠ _ := Nat.ne_of_gt (hlive.1.trans_le hr)
      rw [setPcb_pcb, if_neg hne]
      exact hk r hr
  | replaced _ _ _ h => exact hkept h
  | waited _ h => exact hkept h

theorem Orderly.perform {op : Op} (h : Orderly B K) (hK : Heaped B K')
    (hop : perform B elfLoadBuffer threadJoin K op = some K') :
    Orderly B K' := by
  obtain ⟨cs, -, hcaused⟩ := perform_caused B elfLoadBuffer threadJoin
    h.heaped.priv.isolated.audited.noPtrace hop
  exact ⟨hK, hcaused.fresh h.fresh⟩

/-- A wait that reaps a zombie. -/
theorem Orderly.reaped {a : Act} {c : Ref} (h : Orderly B K)
    (ha : ∀ p thread, a ≠ .fork p thread)
    (hop : Kernel.perform B elfLoadBuffer threadJoin K (.proc a) = some K')
    (hz : (K.sys.k.pcb c).state = .ZOMBIE)
    (hr : Reaped K.sys.k K'.sys.k c)
    (htrace : K'.sys.trace = K.sys.trace ++ [.resetRootPgtable c true]) :
    Orderly B K' ∧ world P K' = world P K := by
  have haudit := h.heaped.priv.isolated.audited
  obtain ⟨hstep, hcs⟩ := perform_proc hop
  obtain ⟨hthread, htid⟩ := step_threads haudit.noPtrace ha hstep
  rw [htrace, List.drop_left] at hcs
  have hc : c < K.sys.k.nextRef := by
    by_contra hnot
    exact h.fresh c (Nat.le_of_not_lt hnot) hz
  obtain ⟨hheaped, hworld⟩ := h.heaped.reaped hz hc
    (audited_perform elfLoadBuffer threadJoin haudit hop) hr
    (fun r hr => (hthread r).resolve_right fun hz => hr.2 hz.1) htid hcs
  exact ⟨h.perform hheaped hop, hworld⟩

/-- A wait the world can do without. -/
theorem Orderly.wait {p : Ref} {pid : Pid} {wstatus : Option (BitVec 32)}
    {nohang : Bool} (h : Orderly B K)
    (hfits : ∀ c ∈ waitTarget K.sys.k pid nohang,
      (K.sys.k.pcb c).state ≠ .WAITING)
    (hop : Kernel.perform B elfLoadBuffer threadJoin K
      (.proc (.wait p pid wstatus nohang)) = some K') :
    Orderly B K' ∧ world P K' = world P K := by
  have hno := h.heaped.priv.isolated.audited.noPtrace
  obtain ⟨hstep, hcs⟩ := perform_proc hop
  have hquiet : ∀ on : Bool, K'.sys.k = K.sys.k.setIrq on →
      K'.sys.trace = K.sys.trace →
      Orderly B K' ∧ world P K' = world P K := by
    intro on hk htrace
    rw [htrace, List.drop_length] at hcs
    have hmach : K'.mach = K.mach := (Option.some.inj hcs).symm
    exact ⟨h.perform (h.heaped.setIrq hmach hk) hop, world_setIrq hmach hk⟩
  cases htarget : waitTarget K.sys.k pid nohang with
  | none =>
      have hstepped := step_stepped threadJoin hno hstep
      generalize hs : K'.sys = s' at hstepped
      cases hstepped with
      | idle on _ => exact hquiet on (by rw [hs]) (by rw [hs])
      | blocked ht _ => cases ht.symm.trans htarget
      | reaped ht _ => cases ht.symm.trans htarget
  | some c =>
      rcases wait_cases hno htarget hstep with
        ⟨w, -, hs⟩ | ⟨hst, k', hr, hs⟩
      · exact hquiet false (by rw [hs]) (by rw [hs])
      · have hz := hst.resolve_left (hfits c htarget)
        exact h.reaped (fun _ _ heq => by cases heq) hop hz
          ((congrArg Sys.k hs).symm ▸ hr) (congrArg Sys.trace hs)

theorem Orderly.resume {w : Wait} (h : Orderly B K)
    (hop : Kernel.perform B elfLoadBuffer threadJoin K (.proc (.resume w))
      = some K') : Orderly B K' ∧ world P K' = world P K := by
  obtain ⟨hstep, -⟩ := perform_proc hop
  obtain ⟨hz, k', hr, hs⟩ :=
    resume_cases h.heaped.priv.isolated.audited.noPtrace hstep
  exact h.reaped (fun _ _ heq => by cases heq) hop hz
    ((congrArg Sys.k hs).symm ▸ hr) (congrArg Sys.trace hs)

-- ============================================================== the refinement

/-- Every event. -/
theorem refines_step {e : Event} (hpos : 0 < P.heapSize)
    (h : Orderly B K) (hfits : e.Fits P elfLoadBuffer K)
    (he : kernelStep B elfLoadBuffer threadJoin K e = some K') :
    Orderly B K'
      ∧ World.Step P elfLoadBuffer (world P K) e (world P K') := by
  cases e with
  | wait p pid wstatus nohang =>
      have hop : perform B elfLoadBuffer threadJoin K
          (.proc (.wait p pid wstatus nohang)) = some K' := he
      obtain ⟨hK, hsame⟩ := h.wait (fun c hc => (hfits c hc).1) hop
      have hlive := live_of_step (perform_proc hop).1 rfl
      refine ⟨hK, ?_⟩
      rw [hsame]
      exact World.Step.wait (world_live hlive)
  | resume w =>
      have hop : perform B elfLoadBuffer threadJoin K (.proc (.resume w))
          = some K' := he
      obtain ⟨hK, hsame⟩ := h.resume hop
      exact ⟨hK, hsame ▸ World.Step.resume⟩
  | turn a =>
      have hK : Heaped B K' := heaped_step hpos h.heaped hfits he
      cases a with
      | sbrk p increment =>
          simp only [kernelStep, heapTurn] at he
          split at he
          next hlive =>
            cases he
            obtain ⟨hnext, hpcb⟩ := callSbrk_pcb (h.heaped.inHeap p) increment
            refine ⟨⟨hK, fun r hr => ?_⟩,
              sbrk_step hlive.1 (h.heaped.inHeap p) increment⟩
            obtain ⟨brk, hbrk⟩ := hpcb r
            exact (congrArg Pcb.state hbrk).trans_ne (h.fresh r (hnext ▸ hr))
          next => cases he
      | turn a =>
          obtain ⟨himages, -, hnames⟩ := hfits
          have hturn : takeTurn B elfLoadBuffer threadJoin K a = some K' := by
            rw [← heapTurn_eq h.heaped hnames]
            exact he
          have hseen := h.heaped.priv.takeTurn elfLoadBuffer threadJoin
            himages hturn
          cases a with
          | store p w =>
              unfold takeTurn at hturn
              dsimp only at hturn
              split at hturn
              next hlive =>
                obtain ⟨m, hm, rfl⟩ := Option.map_eq_some_iff.mp hturn
                exact ⟨⟨hK, h.fresh⟩, store_step hlive hm hseen⟩
              next => cases hturn
          | kernel op =>
              have hop : perform B elfLoadBuffer threadJoin K op = some K' :=
                hturn
              refine ⟨h.perform hK hop, ?_⟩
              cases op with
              | create => cases himages
              | allocate p virtAddr nrPages => cases himages
              | exec p cur joinQueue filename argv envp args mem =>
                  exact exec_step h.heaped.priv himages hop hseen
              | proc a =>
                  cases a with
                  | fork p thread => exact fork_step hop hseen
                  | exit p status => exact exit_step hop hseen
                  | sched p st => exact sched_step hop hseen
                  | wait p pid wstatus nohang => cases himages
                  | resume w => cases himages

/-- The world after boot: one process, without a heap. -/
def World.first (mem : Nat → Option UInt8) : World where
  procs p := if p = 0 then
      some { mem := mem, heapBase := 0, brk := 0, main := some 0 }
    else none
  next := 1
  nextThread := 1

theorem world_create {t : PageTables H} {pool : F}
    {page : Nat → Nat → UInt8}
    (h : perform B elfLoadBuffer threadJoin (State.boot t pool page) .create
      = some K) : world P K = .first (userBytes P K.mach 0) := by
  obtain ⟨m, -, rfl⟩ := Option.map_eq_some_iff.mp h
  refine World.ext (funext fun p => ?_) rfl rfl
  by_cases hp : p = 0
  · subst hp
    have hlive : Live (createRootProcess P Procs.boot).1 0 :=
      ⟨Nat.zero_lt_one, fun hz => by cases hz⟩
    exact world_live hlive
  · exact (world_dead fun hlive => hp (Nat.lt_one_iff.mp hlive.1)).trans
      (if_neg hp).symm

theorem orderly_create {t : PageTables H} {pool : F}
    {page : Nat → Nat → UInt8} (hpos : 0 < P.heapSize)
    (hsize : P.heapSize < 2147483648) (hboot : BootTables B t)
    (h : perform B elfLoadBuffer threadJoin (State.boot t pool page) .create
      = some K) : Orderly B K := by
  obtain ⟨cs, -, hcaused⟩ := perform_caused B elfLoadBuffer threadJoin
    (audited_boot (B := B) t pool page).noPtrace h
  exact ⟨heaped_create hpos hsize hboot h,
    hcaused.fresh fun r _ hz => by cases hz⟩

variable (elfLoadBuffer) (threadJoin)

/-- Every run of the kernel is a run of the world: whatever the page
tables, the frames and the process table do underneath, the processes see
memories of their own, which a fork copies, an exec replaces by the areas
of its image, a store changes in one place and an exit ends, and a break
that moves in the heap. -/
theorem kernel_refines_world (t : PageTables H) (pool : F)
    (page : Nat → Nat → UInt8) (events : List Event) (K₀ K : State H F)
    (hpos : 0 < P.heapSize) (hsize : P.heapSize < 2147483648)
    (hboot : BootTables B t)
    (hcreate : perform B elfLoadBuffer threadJoin (State.boot t pool page)
      .create = some K₀)
    (hfits : Along (kernelStep B elfLoadBuffer threadJoin)
      (Event.Fits P elfLoadBuffer) K₀ events)
    (h : run (kernelStep B elfLoadBuffer threadJoin) K₀ events = some K) :
    Steps (World.Step P elfLoadBuffer)
      (.first (userBytes P K₀.mach 0)) events (world P K) := by
  rw [← world_create hcreate]
  exact steps_of_run (world P)
    (fun _ _ _ hs hC hstep => refines_step hpos hs hC hstep)
    (orderly_create hpos hsize hboot hcreate) hfits h

/-- The root process loads an image and forks; the child takes memory,
writes to it and exits, and is reaped. -/
theorem kernel_refines_world_child :
    ∃ K₀ K, perform .small onePage id State.small .create = some K₀
      ∧ run (kernelStep .small onePage id) K₀
        [.op (.execFile 0 0), .op (.proc (.fork 0 1)), .turn (.sbrk 1 100),
          .turn (.turn (.store 1 (0x3000, 7))), .op (.proc (.exit 1 5)),
          .wait 0 2 none false] = some K
      ∧ Steps (World.Step .small onePage)
        (.first (userBytes .small K₀.mach 0))
        [.op (.execFile 0 0), .op (.proc (.fork 0 1)), .turn (.sbrk 1 100),
          .turn (.turn (.store 1 (0x3000, 7))), .op (.proc (.exit 1 5)),
          .wait 0 2 none false] (world .small K) := by
  have hret : (perform .small onePage id State.small .create).any fun K₀ =>
      (kernelStep .small onePage id K₀ (.op (.execFile 0 0))).any fun K₁ =>
        Op.NamesFit K₁.sys (.proc (.fork 0 1))
          ∧ (run (kernelStep .small onePage id) K₁
            [.op (.proc (.fork 0 1)), .turn (.sbrk 1 100),
              .turn (.turn (.store 1 (0x3000, 7))),
              .op (.proc (.exit 1 5))]).any fun K₂ =>
            (∀ c ∈ waitTarget K₂.sys.k 2 false,
              (K₂.sys.k.pcb c).state ≠ .WAITING ∧ freed K₂.sys c = 0)
            ∧ (kernelStep .small onePage id K₂
              (.wait 0 2 none false)).isSome := by decide +kernel
  obtain ⟨K₀, hK₀, hret⟩ := (Option.any_eq_true _ _).mp hret
  obtain ⟨K₁, hK₁, hret⟩ := (Option.any_eq_true _ _).mp hret
  obtain ⟨hname, hret⟩ := of_decide_eq_true hret
  obtain ⟨K₂, hK₂, hret⟩ := (Option.any_eq_true _ _).mp hret
  obtain ⟨htarget, hret⟩ := of_decide_eq_true hret
  obtain ⟨K, hK⟩ := Option.isSome_iff_exists.mp hret
  have hexec : Event.Fits .small onePage K₀ (.op (.execFile 0 0)) :=
    ⟨fun elf => onePage_fits, fun elf helf => by cases helf; decide,
      namesFit_execFile K₀.sys 0 0⟩
  have hfork : Event.Fits .small onePage K₁ (.op (.proc (.fork 0 1))) :=
    ⟨trivial, trivial, hname⟩
  have hexit : ∀ K : State (FreeList BlockOk) (FreeList (FrameOk .small)),
      Event.Fits .small onePage K (.op (.proc (.exit 1 5))) :=
    fun K => ⟨trivial, trivial, namesFit_unforked (fun m hm => by
      cases hm
      exact ⟨trivial, rfl⟩) K.sys⟩
  have hmid : Along (kernelStep .small onePage id)
      (Event.Fits .small onePage) K₁ [.op (.proc (.fork 0 1)),
        .turn (.sbrk 1 100), .turn (.turn (.store 1 (0x3000, 7))),
        .op (.proc (.exit 1 5))] :=
    along_cons_iff.mpr ⟨hfork, fun _ _ =>
      along_cons_iff.mpr ⟨trivial, fun _ _ =>
        along_cons_iff.mpr ⟨⟨trivial, trivial, trivial⟩, fun K _ =>
          along_cons_iff.mpr ⟨hexit K, fun _ _ => trivial⟩⟩⟩⟩
  have hwait : Along (kernelStep .small onePage id)
      (Event.Fits .small onePage) K₂ [.wait 0 2 none false] :=
    .cons htarget hK trivial
  have hfits : Along (kernelStep .small onePage id)
      (Event.Fits .small onePage) K₁ ([.op (.proc (.fork 0 1)),
        .turn (.sbrk 1 100), .turn (.turn (.store 1 (0x3000, 7))),
        .op (.proc (.exit 1 5))] ++ [.wait 0 2 none false]) :=
    along_append.mpr ⟨hmid, fun t ht => by
      cases hK₂.symm.trans ht
      exact hwait⟩
  have hrest : run (kernelStep .small onePage id) K₁
      ([.op (.proc (.fork 0 1)), .turn (.sbrk 1 100),
        .turn (.turn (.store 1 (0x3000, 7))), .op (.proc (.exit 1 5))]
        ++ [.wait 0 2 none false]) = some K := by
    rw [run_append, hK₂]
    exact run_cons_iff.mpr ⟨K, hK, rfl⟩
  have hrun : run (kernelStep .small onePage id) K₀
      [.op (.execFile 0 0), .op (.proc (.fork 0 1)), .turn (.sbrk 1 100),
        .turn (.turn (.store 1 (0x3000, 7))), .op (.proc (.exit 1 5)),
        .wait 0 2 none false] = some K :=
    run_cons_iff.mpr ⟨K₁, hK₁, hrest⟩
  exact ⟨K₀, K, hK₀, hrun, kernel_refines_world (B := Board.small) onePage
    id _ _ _ _ K₀ K (by decide) (by decide) bootTables_small hK₀
    (.cons hexec hK₁ hfits) hrun⟩

end SyeLabs.Kernel
