/-
The memory a process gets from `do_sbrk`.

`setup_proc_image_replace` maps the whole heap of an image at once and
`do_sbrk` moves a break over it; neither looks at what the other did. The
break is only worth something if there is a page behind every address
below it, and if that page is not somebody else's.

# The argument

What a break has behind it is a fact about two things that change at
different times: the PCB, which a fork copies and `do_sbrk` writes, and
the page table, which a fork copies too and `do_sbrk` never touches.
`HeapPages` says that they agree. An exec establishes it, since the area
of the heap is one of those it maps (`built_image`); afterwards a process
sees what it saw and a child what its parent saw (`Seen`), so that an
address that could be read stays one.

The root process has no heap before its first exec: both fields are zero,
and there is nothing behind address zero. Its `do_sbrk` would still move
the break.

The fields of the heap lie behind `name` in the PCB, so the kernel takes
its turns here with what a name longer than its field writes
(`overrunPerform`), and the names must fit. The accesses of a process
follow its page table: there is no TLB.
-/
import SyeLabs.Kernel.Accounting
import SyeLabs.Kernel.PrivateMemory
import SyeLabs.Process.Renice
import SyeLabs.Process.Sbrk

namespace SyeLabs.Kernel

open Lib Mmu Process

variable {P : Platform} {H F : Type*}

-- =================================================================== the turns

/-- A turn, or a call of `do_sbrk`. -/
inductive HeapTurn
  | turn (a : Turn)
  | sbrk (p : Ref) (increment : BitVec 32)

/-- The state `do_sbrk` leaves. -/
def afterSbrk (P : Platform) (K : State H F) (p : Ref)
    (increment : BitVec 32) : State H F :=
  { K with sys := (callSbrk P K.sys p increment).1 }

/-- The heap of an image ends below 2^31. -/
def Turn.HeapFits (P : Platform) (elfLoadBuffer : CString → Option Elf) :
    Turn → Prop
  | .kernel (.exec _ _ _ filename _ _ _ _) =>
      ∀ elf ∈ elfLoadBuffer filename, heapStart P elf + P.heapSize < 2147483648
  | _ => True

/-- What the kernel writes as a name fits its field. -/
def Turn.NamesFit (s : Sys) : Turn → Prop
  | .kernel op => op.NamesFit s
  | .store _ _ => True

/-- What isolation and `do_sbrk` ask of the images, and the PCBs of the
names. -/
def HeapTurn.Fits (P : Platform) (elfLoadBuffer : CString → Option Elf)
    (K : State H F) : HeapTurn → Prop
  | .turn a => a.Fits P elfLoadBuffer ∧ a.HeapFits P elfLoadBuffer
      ∧ a.NamesFit K.sys
  | .sbrk _ _ => True

variable (B : Board P H F) (elfLoadBuffer : CString → Option Elf)
  (threadJoin : Option Tid → Option Tid)

/-- One of them, with what it writes past the field of a name. -/
def heapTurn (K : State H F) : HeapTurn → Option (State H F)
  | .turn (.kernel op) => overrunPerform B elfLoadBuffer threadJoin K op
  | .turn (.store p w) =>
      takeTurn B elfLoadBuffer threadJoin K (.store p w)
  | .sbrk p increment =>
      if Live K.sys.k p ∧ (K.sys.k.pcb p).name.size ≤ heapPointerAt then
        some (afterSbrk P K p increment)
      else none

-- =============================================================== the invariant

/-- A process with a heap, from `base` on, can read all of it. -/
def HeapPages (P : Platform) (m : Machine H F) (p : Ref) (base : Nat) :
    Prop :=
  base ≠ 0 → ∀ v, base ≤ v → v < base + P.heapSize →
    (userBytes P m p v).isSome

/-- The break of every process is in its heap, the heap of every live
process is mapped, and every name is in its field. -/
structure Heaped (B : Board P H F) (K : State H F) : Prop where
  priv : Private B K
  names : NamesFit K.sys.k
  inHeap : ∀ r, InHeap P (K.sys.k.pcb r)
  pages : ∀ p, Live K.sys.k p →
    HeapPages P K.mach p (K.sys.k.pcb p).heapBase

variable {B} {elfLoadBuffer} {threadJoin} {K K' : State H F}

/-- The same heap, in a user area in which no less can be read. -/
theorem HeapPages.same {m m' : Machine H F} {p p' : Ref} {base base' : Nat}
    (h : HeapPages P m p base) (hsame : base' = base)
    (hread : ∀ v, (userBytes P m p v).isSome →
      (userBytes P m' p' v).isSome) : HeapPages P m' p' base' := by
  subst hsame
  intro hbase v hlo hhi
  exact hread v (h hbase v hlo hhi)

/-- While all names fit, a turn is one of `takeTurn`. -/
theorem heapTurn_eq {a : Turn} (h : Heaped B K) (ha : a.NamesFit K.sys) :
    heapTurn B elfLoadBuffer threadJoin K (.turn a)
      = takeTurn B elfLoadBuffer threadJoin K a := by
  cases a with
  | store p w => rfl
  | kernel op =>
      exact overrunPerform_eq h.priv.isolated.audited.noPtrace h.names ha

/-- And leaves them so. -/
theorem namesFit_turn {a : Turn} (h : Heaped B K) (ha : a.NamesFit K.sys)
    (hturn : takeTurn B elfLoadBuffer threadJoin K a = some K') :
    NamesFit K'.sys.k := by
  cases a with
  | store p w =>
      unfold takeTurn at hturn
      dsimp only at hturn
      split at hturn
      next =>
        obtain ⟨m, -, rfl⟩ := Option.map_eq_some_iff.mp hturn
        exact h.names
      next => cases hturn
  | kernel op =>
      exact namesFit_perform h.priv.isolated.audited.noPtrace h.names ha hturn

/-- A store takes no page away. -/
theorem isSome_overlay {ws : List (Nat × UInt8)} {U : Nat → Option UInt8}
    {v : Nat} (h : (U v).isSome) : (overlay ws U v).isSome := by
  rw [overlay, Option.isSome_or, h, Bool.or_true]

-- ========================================================= the heaps in a step

/-- No step gives an old process another heap. -/
theorem step_sameHeap {s s' : Sys} {a : Act} (hno : NoPtrace s.k)
    (hstep : step threadJoin s a = some s') {r : Ref}
    (hr : r ≠ s.k.nextRef) : SameHeap (s'.k.pcb r) (s.k.pcb r) := by
  have hreaped : ∀ {k' c}, Reaped s.k k' c →
      SameHeap (k'.pcb r) (s.k.pcb r) := by
    intro k' c hc
    obtain ⟨t, ht⟩ := hc.pcb r
    rw [ht]
    exact ⟨rfl, rfl⟩
  cases step_stepped threadJoin hno hstep with
  | idle on _ => exact ⟨rfl, rfl⟩
  | blocked _ _ => exact ⟨rfl, rfl⟩
  | forked _ hf => exact hf.others r hr ▸ ⟨rfl, rfl⟩
  | exited _ _ =>
      rw [setPcb_pcb]
      split <;> exact ⟨rfl, rfl⟩
  | scheduled _ _ =>
      rw [setPcb_pcb]
      split <;> exact ⟨rfl, rfl⟩
  | reaped _ hc => exact hreaped hc
  | resumed _ hc => exact hreaped hc

/-- A child has the heap of its parent. -/
theorem fork_sameHeap {s s' : Sys} {p : Ref} {thread : Tid}
    (hstep : step threadJoin s (.fork p thread) = some s')
    (hnew : s.k.nextRef < s'.k.nextRef) :
    SameHeap (s'.k.pcb s.k.nextRef) (s.k.pcb p) := by
  simp only [step] at hstep
  split at hstep
  next =>
    cases hstep
    by_cases hmain : (s.k.pcb p).mainThread = some thread
    · obtain ⟨name, hchild, -⟩ := doFork_child hmain
      dsimp only
      rw [hchild]
      exact ⟨rfl, rfl⟩
    · dsimp only at hnew
      rw [doFork_of_not_main hmain] at hnew
      exact absurd hnew (Nat.lt_irrefl _)
  next => cases hstep

/-- An exec without an image changes the name; one with an image is
replaced by it, after the calls for the image. -/
theorem perform_exec {p : Ref} {cur : Tid} {joinQueue : List Ref}
    {filename : CString} {argv envp : Option (List CString)} {args : Nat}
    {mem : ByteMem}
    (hop : perform B elfLoadBuffer threadJoin K
      (.exec p cur joinQueue filename argv envp args mem) = some K') :
    (K'.mach = K.mach ∧ elfLoadBuffer filename = none
      ∧ K'.sys.k = K.sys.k.setPcb p fun pcb => { pcb with name := filename })
    ∨ ∃ elf ∈ elfLoadBuffer filename, ∃ argsEnv,
      calls B K.mach (imageCalls P p elf
        (resetProcessStack P (K.sys.k.pcb p)) argsEnv
          ++ [.loadProcess, .threadExit p]) = some K'.mach
      ∧ K'.sys.k.nextRef = K.sys.k.nextRef
      ∧ K'.sys.k.nextTid = K.sys.k.nextTid + 1
      ∧ ∀ q, K'.sys.k.pcb q = if q = p then
          { imageFields P elf (resetProcessStack P
              { K.sys.k.pcb q with name := filename }) with
            mainThread := some K.sys.k.nextTid }
        else K.sys.k.pcb q := by
  simp only [perform] at hop
  split at hop
  next =>
    cases hend : doExecve elfLoadBuffer P args K.sys.k p cur joinQueue
        filename argv envp mem with
    | returned o =>
        rw [hend] at hop
        obtain ⟨hk, hcalls⟩ := doExecve_returned elfLoadBuffer hend
        obtain ⟨m, hm, rfl⟩ := Option.map_eq_some_iff.mp hop
        rw [hcalls] at hm
        refine Or.inl ⟨(Option.some.inj hm).symm, ?_, hk⟩
        cases himage : elfLoadBuffer filename with
        | none => rfl
        | some elf =>
            exact absurd hend (doExecve_of_image elfLoadBuffer himage o)
    | assertFailed =>
        rw [hend] at hop
        cases hop
    | replaced k cs mem' =>
        rw [hend] at hop
        obtain ⟨m, hm, rfl⟩ := Option.map_eq_some_iff.mp hop
        obtain ⟨elf, helf, href, hpcb, argsEnv, rfl⟩ :=
          doExecve_replaced elfLoadBuffer hend
        obtain ⟨-, -, htid⟩ := doExecve_counters hend
        exact Or.inr ⟨elf, helf, argsEnv, hm, href, htid, hpcb⟩
  next => cases hop

-- ============================================================ what a turn does

/-- After the exec of an image the process can read its areas and nothing
else. -/
theorem userBytes_image {n : Nat} {p : Ref} {m m' : Machine H F} {elf : Elf}
    {pcb : Pcb} {argsEnv : Nat} (hfits : ImageFits P elf) (hp : p < n)
    (hs : Sound B m.tables n) (ac : Accounted B.pool n m.frames)
    (hcs : calls B m (imageCalls P p elf (resetProcessStack P pcb) argsEnv
      ++ [.loadProcess, .threadExit p]) = some m') (v : Nat) :
    (userBytes P m' p v).isSome ↔ ImageArea P elf v := by
  obtain ⟨M, hbuilt, -, hdom⟩ := built_image hfits hp hs ac (idle_loaded p) hcs
  rw [hbuilt.paged.userBytes_eq, M.byte_isSome, hdom]

/-- The heap is one of them. -/
theorem imageArea_heap {elf : Elf} {v : Nat} (hlo : heapStart P elf ≤ v)
    (hhi : v < heapStart P elf + P.heapSize) : ImageArea P elf v := by
  refine Or.inr (Or.inr (Or.inl ⟨hlo, ?_⟩))
  have hpages : P.heapSize ≤ alignUp P.heapSize / 4096 * 4096 := by
    unfold alignUp
    omega
  exact hhi.trans_le (Nat.add_le_add_left hpages _)

/-- `do_sbrk` moves one break and touches nothing else. -/
theorem callSbrk_pcb {s : Sys} {p : Ref} (h : InHeap P (s.k.pcb p))
    (increment : BitVec 32) :
    (callSbrk P s p increment).1.k.nextRef = s.k.nextRef
      ∧ ∀ r, ∃ brk, (callSbrk P s p increment).1.k.pcb r
        = { s.k.pcb r with heapPointer := brk } := by
  rw [callSbrk, doSbrk_eq h]
  cases h.brk.move increment.toInt with
  | none => exact ⟨rfl, fun r => ⟨_, rfl⟩⟩
  | some b =>
      refine ⟨rfl, fun r => ?_⟩
      dsimp only
      rw [setPcb_pcb]
      split
      next hr => exact hr ▸ ⟨_, rfl⟩
      next => exact ⟨_, rfl⟩

theorem Heaped.afterSbrk (h : Heaped B K) (p : Ref)
    (increment : BitVec 32) : Heaped B (afterSbrk P K p increment) := by
  obtain ⟨hnext, hpcb⟩ := callSbrk_pcb (h.inHeap p) increment
  have hlive : ∀ {q}, Live (callSbrk P K.sys p increment).1.k q →
      Live K.sys.k q := by
    intro q hq
    obtain ⟨hlt, hz⟩ := hq
    obtain ⟨brk, hbrk⟩ := hpcb q
    rw [hbrk] at hz
    exact ⟨hnext ▸ hlt, hz⟩
  obtain ⟨⟨⟨haudit, hsound, hbacked, hpage⟩, hpaged⟩, hnames, hin, hpages⟩ :=
    h
  refine ⟨⟨⟨⟨fun r => ?_, ?_⟩, ?_, fun q hq => hbacked q (hlive hq),
    fun q hq => hpage q (hlive hq)⟩, fun q hq => hpaged q (hlive hq)⟩,
    fun r => ?_, inHeap_callSbrk hin increment, fun q hq => ?_⟩
  · obtain ⟨brk, hbrk⟩ := hpcb r
    exact (congrArg Pcb.ptracePendingReq hbrk).trans (haudit.noPtrace r)
  · exact hnext.symm ▸ haudit.frames
  · exact hnext.symm ▸ hsound
  · obtain ⟨brk, hbrk⟩ := hpcb r
    exact (congrArg (fun pcb => pcb.name.size) hbrk).trans_le (hnames r)
  · obtain ⟨brk, hbrk⟩ := hpcb q
    exact (hpages q (hlive hq)).same
      ((congrArg Pcb.heapBase hbrk).trans rfl) fun _ hv => hv

/-- An old process that keeps its image keeps the pages of its heap. -/
theorem Heaped.pages_kept {a : Turn} (h : Heaped B K)
    (hfits : a.Fits P elfLoadBuffer)
    (ha : takeTurn B elfLoadBuffer threadJoin K a = some K') {q : Ref}
    (hq : Live K.sys.k q) (hq' : Live K'.sys.k q) (hexec : ¬ a.IsExecOf q)
    (hsame : SameHeap (K'.sys.k.pcb q) (K.sys.k.pcb q)) :
    HeapPages P K'.mach q (K'.sys.k.pcb q).heapBase := by
  refine (h.pages q hq).same hsame.1 fun v hv => ?_
  rw [(h.priv.takeTurn elfLoadBuffer threadJoin hfits ha).own q hq hq' hexec]
  exact isSome_overlay hv

theorem Heaped.store {p : Ref} {w : Nat × UInt8} (h : Heaped B K)
    (ha : takeTurn B elfLoadBuffer threadJoin K (.store p w) = some K') :
    Heaped B K' := by
  have hfits : Turn.Fits P elfLoadBuffer (.store p w) := trivial
  have hinv := (h.priv.takeTurn elfLoadBuffer threadJoin hfits ha).inv
  have hpages := fun q => h.pages_kept (q := q) hfits ha
  unfold takeTurn at ha
  dsimp only at ha
  split at ha
  next =>
    obtain ⟨m, -, rfl⟩ := Option.map_eq_some_iff.mp ha
    exact ⟨hinv, h.names, h.inHeap,
      fun q hq => hpages q hq hq not_false ⟨rfl, rfl⟩⟩
  next => cases ha

/-- The heap of a new image begins empty, on the pages mapped for it. -/
theorem Heaped.exec {p : Ref} {cur : Tid} {joinQueue : List Ref}
    {filename : CString} {argv envp : Option (List CString)} {args : Nat}
    {mem : ByteMem} (hpos : 0 < P.heapSize) (h : Heaped B K)
    (hfits : Turn.Fits P elfLoadBuffer
      (.kernel (.exec p cur joinQueue filename argv envp args mem)))
    (hheap : Turn.HeapFits P elfLoadBuffer
      (.kernel (.exec p cur joinQueue filename argv envp args mem)))
    (hnames' : NamesFit K'.sys.k)
    (ha : takeTurn B elfLoadBuffer threadJoin K
      (.kernel (.exec p cur joinQueue filename argv envp args mem))
      = some K') : Heaped B K' := by
  have hop : perform B elfLoadBuffer threadJoin K
      (.exec p cur joinQueue filename argv envp args mem) = some K' := ha
  have hseen := h.priv.takeTurn elfLoadBuffer threadJoin hfits ha
  have hborn : ∀ q, Live K'.sys.k q → Live K.sys.k q := by
    intro q hq
    rcases hseen.born q hq with hq' | ⟨-, r, thread, heq, -⟩
    · exact hq'
    · cases heq
  rcases perform_exec hop with
    ⟨hmach, -, hk⟩ | ⟨elf, helf, argsEnv, hcs, -, -, hpcb⟩
  · -- no image: the name is all that changes
    have hsame : ∀ r, SameHeap (K'.sys.k.pcb r) (K.sys.k.pcb r) := by
      intro r
      rw [hk, setPcb_pcb]
      split <;> exact ⟨rfl, rfl⟩
    refine ⟨hseen.inv, hnames', fun r => (h.inHeap r).same (hsame r),
      fun q hq => (h.pages q (hborn q hq)).same (hsame q).1 ?_⟩
    rw [hmach]
    exact fun _ hv => hv
  · have hbase : (K'.sys.k.pcb p).heapBase = heapStart P elf := by
      rw [hpcb, if_pos rfl]
      rfl
    have hptr : (K'.sys.k.pcb p).heapPointer = heapStart P elf := by
      rw [hpcb, if_pos rfl]
      rfl
    have hsame : ∀ q, q ≠ p →
        SameHeap (K'.sys.k.pcb q) (K.sys.k.pcb q) := by
      intro q hq
      rw [hpcb, if_neg hq]
      exact ⟨rfl, rfl⟩
    refine ⟨hseen.inv, hnames', fun r => ?_, fun q hq => ?_⟩
    · by_cases hr : r = p
      · subst hr
        constructor
        · rw [hbase, hptr]
        · rw [hbase, hptr]
          exact Nat.lt_add_of_pos_right hpos
        · rw [hbase]
          exact hheap elf helf
      · exact (h.inHeap r).same (hsame r hr)
    · have hq' := hborn q hq
      by_cases hqp : q = p
      · subst hqp
        intro _ v hlo hhi
        rw [hbase] at hlo hhi
        have hiso := h.priv.isolated
        exact (userBytes_image (hfits elf helf) hq'.1 hiso.sound
          hiso.audited.frames hcs v).mpr (imageArea_heap hlo hhi)
      · exact h.pages_kept hfits ha hq' hq (fun hexec => hqp hexec.symm)
          (hsame q hqp)

/-- A child has the heap of its parent, and nobody else is changed. -/
theorem Heaped.proc {a : Act} (h : Heaped B K)
    (hfits : Turn.Fits P elfLoadBuffer (.kernel (.proc a)))
    (hnames' : NamesFit K'.sys.k)
    (ha : takeTurn B elfLoadBuffer threadJoin K (.kernel (.proc a))
      = some K') : Heaped B K' := by
  have hop : perform B elfLoadBuffer threadJoin K (.proc a) = some K' := ha
  have hseen := h.priv.takeTurn elfLoadBuffer threadJoin hfits ha
  have hno := h.priv.isolated.audited.noPtrace
  obtain ⟨s', hs', hcalls⟩ := Option.bind_eq_some_iff.mp hop
  obtain ⟨m, -, rfl⟩ := Option.map_eq_some_iff.mp hcalls
  refine ⟨hseen.inv, hnames', fun r => ?_, fun q hq => ?_⟩
  · obtain ⟨q, hsame⟩ := step_heap hno hs' r
    exact (h.inHeap q).same hsame
  · rcases hseen.born q hq with hq' | ⟨rfl, p, thread, heq, hp, hcopy⟩
    · exact h.pages_kept hfits ha hq' hq not_false
        (step_sameHeap hno hs' (Nat.ne_of_lt hq'.1))
    · cases heq
      refine (h.pages p hp).same (fork_sameHeap hs' hq.1).1 fun v hv => ?_
      rw [hcopy]
      exact hv

/-- Every turn keeps the heaps. -/
theorem Heaped.turn {a : Turn} (hpos : 0 < P.heapSize) (h : Heaped B K)
    (hfits : a.Fits P elfLoadBuffer) (hheap : a.HeapFits P elfLoadBuffer)
    (hnames : a.NamesFit K.sys)
    (ha : takeTurn B elfLoadBuffer threadJoin K a = some K') :
    Heaped B K' := by
  have hnames' := namesFit_turn h hnames ha
  cases a with
  | store p w => exact h.store ha
  | kernel op =>
      cases op with
      | create => cases hfits
      | allocate p virtAddr nrPages => cases hfits
      | exec p cur joinQueue filename argv envp args mem =>
          exact h.exec hpos hfits hheap hnames' ha
      | proc a => exact h.proc hfits hnames' ha

theorem heaped_step {a : HeapTurn} (hpos : 0 < P.heapSize)
    (h : Heaped B K) (hfits : a.Fits P elfLoadBuffer K)
    (ha : heapTurn B elfLoadBuffer threadJoin K a = some K') :
    Heaped B K' := by
  cases a with
  | turn a =>
      obtain ⟨himages, hheap, hnames⟩ := hfits
      rw [heapTurn_eq h hnames] at ha
      exact h.turn hpos himages hheap hnames ha
  | sbrk p increment =>
      simp only [heapTurn] at ha
      split at ha
      next =>
        cases ha
        exact h.afterSbrk p increment
      next => cases ha

/-- Before the first exec there is no heap. -/
theorem heaped_create {t : PageTables H} {pool : F}
    {page : Nat → Nat → UInt8} (hpos : 0 < P.heapSize)
    (hsize : P.heapSize < 2147483648) (hboot : BootTables B t)
    (h : perform B elfLoadBuffer threadJoin (State.boot t pool page) .create
      = some K) : Heaped B K := by
  have hpriv := private_create elfLoadBuffer threadJoin hboot h
  obtain ⟨m, -, rfl⟩ := Option.map_eq_some_iff.mp h
  have hzero : ∀ r,
      ((createRootProcess P Procs.boot).1.pcb r).heapBase = 0
        ∧ ((createRootProcess P Procs.boot).1.pcb r).heapPointer = 0 := by
    intro r
    cases r with
    | zero => exact ⟨rfl, rfl⟩
    | succ r => exact ⟨rfl, rfl⟩
  refine ⟨hpriv, namesFit_init P, fun r => ?_,
    fun p _ hbase => absurd (hzero p).1 hbase⟩
  have hr : InHeap P ((createRootProcess P Procs.boot).1.pcb r) := by
    obtain ⟨hbase, hptr⟩ := hzero r
    constructor
    · rw [hbase]
      exact Nat.zero_le _
    · rw [hbase, hptr, Nat.zero_add]
      exact hpos
    · rw [hbase, Nat.zero_add]
      exact hsize
  exact hr

-- ================================================================== the stores

/-- The stores of a process, one turn each. -/
theorem run_storeTurns {p : Ref} {ws : List (Nat × UInt8)}
    {m : Machine H F} (hlive : Live K.sys.k p)
    (h : run (storeByte P p) K.mach ws = some m) :
    run (takeTurn B elfLoadBuffer threadJoin) K (ws.map (.store p))
      = some { K with mach := m } := by
  induction ws generalizing K with
  | nil =>
      cases h
      rfl
  | cons w ws ih =>
      obtain ⟨m₁, hstore, hrest⟩ := run_cons_iff.mp h
      refine run_cons_iff.mpr ⟨{ K with mach := m₁ }, ?_, ih hlive hrest⟩
      unfold takeTurn
      dsimp only
      rw [if_pos hlive, hstore]
      rfl

/-- Stores to pages that can be read are all carried out; the process
reads them over what it read, and the others read what they read. -/
theorem store_all {p : Ref} {ws : List (Nat × UInt8)}
    (h : Private B K) (hlive : Live K.sys.k p)
    (hws : ∀ w ∈ ws, (userBytes P K.mach p w.1).isSome) :
    ∃ K', run (takeTurn B elfLoadBuffer threadJoin) K (ws.map (.store p))
        = some K'
      ∧ K'.sys = K.sys
      ∧ userBytes P K'.mach p = overlay ws (userBytes P K.mach p)
      ∧ ∀ q, q ≠ p → Live K.sys.k q →
        userBytes P K'.mach q = userBytes P K.mach q := by
  obtain ⟨M, hM⟩ := h.paged p hlive
  have hall : (run (storeByte P p) K.mach ws).isSome := by
    refine hM.run_stores_isSome.mpr fun w hw => ?_
    have hread := hws w hw
    rwa [hM.userBytes_eq, M.byte_isSome] at hread
  obtain ⟨m, hm⟩ := Option.isSome_iff_exists.mp hall
  have hrun : run (takeTurn B elfLoadBuffer threadJoin) K
      (ws.map (.store p)) = some { K with mach := m } :=
    run_storeTurns hlive hm
  have hmem : ∀ a ∈ ws.map (Turn.store p), ∃ w, a = .store p w := by
    intro a ha
    obtain ⟨w, -, rfl⟩ := List.mem_map.mp ha
    exact ⟨w, rfl⟩
  have halong := h.run elfLoadBuffer threadJoin (fun a ha => by
    obtain ⟨w, rfl⟩ := hmem a ha
    trivial) hrun
  have hexec : ∀ q, ∀ a ∈ ws.map (Turn.store p), ¬ a.IsExecOf q := by
    intro q a ha
    obtain ⟨w, rfl⟩ := hmem a ha
    exact not_false
  have hself : storesOf p (ws.map (.store p)) = ws := by
    simp [storesOf, List.filterMap_map, Function.comp_def, Turn.storeOf]
  have hothers : ∀ q, q ≠ p → storesOf q (ws.map (.store p)) = [] := by
    intro q hq
    simp [storesOf, List.filterMap_map, Function.comp_def, Turn.storeOf,
      hq.symm]
  refine ⟨_, hrun, rfl, ?_, fun q hqp hq => ?_⟩
  · rw [halong.own p hlive hlive (hexec p), hself]
  · rw [halong.own q hq hq (hexec q), hothers q hqp, overlay_nil]

-- =============================================================== the guarantee

variable (elfLoadBuffer) (threadJoin)

/-- In every state a run reaches from boot, while names fit: if `do_sbrk`
does not fail, it returns the old break, and every address from the base
of the heap to the new break is memory of that process alone. It can store
there whatever it likes, reads back what it stored, and no other process
sees any of it. -/
theorem sbrk_grants_memory (t : PageTables H) (pool : F)
    (page : Nat → Nat → UInt8) (turns : List HeapTurn) (K₀ K : State H F)
    (p : Ref) (increment : BitVec 32) (ws : List (Nat × UInt8))
    (hpos : 0 < P.heapSize) (hsize : P.heapSize < 2147483648)
    (hboot : BootTables B t)
    (hcreate : perform B elfLoadBuffer threadJoin (State.boot t pool page)
      .create = some K₀)
    (hfits : Along (heapTurn B elfLoadBuffer threadJoin)
      (HeapTurn.Fits P elfLoadBuffer) K₀ turns)
    (h : run (heapTurn B elfLoadBuffer threadJoin) K₀ turns = some K)
    (hlive : Live K.sys.k p) (hheap : (K.sys.k.pcb p).heapBase ≠ 0)
    (hret : (callSbrk P K.sys p increment).2 ≠ -1)
    (hws : ∀ w ∈ ws, (K.sys.k.pcb p).heapBase ≤ w.1
      ∧ (w.1 : Int) < (K.sys.k.pcb p).heapPointer + increment.toInt) :
    (callSbrk P K.sys p increment).2.toInt = (K.sys.k.pcb p).heapPointer
      ∧ ∃ K', run (takeTurn B elfLoadBuffer threadJoin)
          (afterSbrk P K p increment) (ws.map (.store p)) = some K'
        ∧ ((K'.sys.k.pcb p).heapPointer : Int)
          = (K.sys.k.pcb p).heapPointer + increment.toInt
        ∧ userBytes P K'.mach p = overlay ws (userBytes P K.mach p)
        ∧ ∀ q, q ≠ p → Live K.sys.k q →
          userBytes P K'.mach q = userBytes P K.mach q := by
  have hK : Heaped B K := run_inv_along
    (fun _ _ _ hs ha hturn => heaped_step hpos hs ha hturn)
    (heaped_create hpos hsize hboot hcreate) hfits h
  have hexact := sbrkExact (hK.inHeap p) increment
  unfold SbrkExact at hexact
  dsimp only at hexact
  split at hexact
  next hin =>
    obtain ⟨brk, hbrk, hs, hval⟩ := hexact
    have hpcb : ((afterSbrk P K p increment).sys.k.pcb p)
        = { K.sys.k.pcb p with heapPointer := brk } := by
      rw [afterSbrk, hs]
      dsimp only
      rw [setPcb_pcb, if_pos rfl]
    have hlives : ∀ q, Live K.sys.k q →
        Live (afterSbrk P K p increment).sys.k q := by
      intro q hq
      rw [afterSbrk, hs]
      exact Iff.mpr (live_setPcb fun _ => rfl) hq
    have hpages := hK.pages p hlive hheap
    obtain ⟨K', hstores, hsys, hself, hothers⟩ :=
      store_all (hK.afterSbrk p increment).priv (hlives p hlive)
        fun w hw => by
          obtain ⟨hlo, hhi⟩ := hws w hw
          exact hpages w.1 hlo (by omega)
    refine ⟨hval, K', hstores, ?_, hself, fun q hqp hq =>
      hothers q hqp (hlives q hq)⟩
    rw [hsys, hpcb]
    exact hbrk
  next =>
    refine absurd ?_ hret
    exact BitVec.eq_of_toInt_eq (hexact.2.trans rfl)

/-- The root process loads an image and forks; the child takes a hundred
bytes and writes the first and the last of them. -/
theorem sbrk_grants_memory_child :
    ∃ K₀ K K', perform .small onePage id State.small .create = some K₀
      ∧ run (heapTurn .small onePage id) K₀
        [.turn (.kernel (.execFile 0 0)),
          .turn (.kernel (.proc (.fork 0 1)))] = some K
      ∧ run (takeTurn .small onePage id) (afterSbrk .small K 1 100)
        [.store 1 (0x3000, 7), .store 1 (0x3063, 9)] = some K'
      ∧ userBytes .small K'.mach 1
        = overlay [(0x3000, 7), (0x3063, 9)] (userBytes .small K.mach 1)
      ∧ userBytes .small K'.mach 0 = userBytes .small K.mach 0 := by
  have hret : (perform .small onePage id State.small .create).any fun K₀ =>
      (heapTurn .small onePage id K₀ (.turn (.kernel (.execFile 0 0)))).any
        fun K₁ => Op.NamesFit K₁.sys (.proc (.fork 0 1))
          ∧ (heapTurn .small onePage id K₁
            (.turn (.kernel (.proc (.fork 0 1))))).any fun K =>
              Live K.sys.k 1 ∧ Live K.sys.k 0
                ∧ (K.sys.k.pcb 1).heapBase = 0x3000
                ∧ (K.sys.k.pcb 1).heapPointer = 0x3000
                ∧ (callSbrk .small K.sys 1 100).2 = 0x3000 := by
    decide +kernel
  obtain ⟨K₀, hK₀, hret⟩ := (Option.any_eq_true _ _).mp hret
  obtain ⟨K₁, hK₁, hret⟩ := (Option.any_eq_true _ _).mp hret
  obtain ⟨hname, hret⟩ := of_decide_eq_true hret
  obtain ⟨K, hK, hret⟩ := (Option.any_eq_true _ _).mp hret
  obtain ⟨hchild, hroot, hbase, hptr, hsbrk⟩ := of_decide_eq_true hret
  have hrun : run (heapTurn .small onePage id) K₀
      [.turn (.kernel (.execFile 0 0)),
        .turn (.kernel (.proc (.fork 0 1)))] = some K :=
    run_cons_iff.mpr ⟨K₁, hK₁, run_cons_iff.mpr ⟨K, hK, rfl⟩⟩
  have hexec : HeapTurn.Fits .small onePage K₀
      (.turn (.kernel (.execFile 0 0))) :=
    ⟨fun elf => onePage_fits, fun elf helf => by cases helf; decide,
      namesFit_execFile K₀.sys 0 0⟩
  have hfork : HeapTurn.Fits .small onePage K₁
      (.turn (.kernel (.proc (.fork 0 1)))) := ⟨trivial, trivial, hname⟩
  have hfits : Along (heapTurn .small onePage id)
      (HeapTurn.Fits .small onePage) K₀ [.turn (.kernel (.execFile 0 0)),
        .turn (.kernel (.proc (.fork 0 1)))] :=
    .cons hexec hK₁ (.cons hfork hK trivial)
  obtain ⟨-, K', hK', -, hself, hothers⟩ := sbrk_grants_memory
    (B := Board.small) onePage id _ _ _ _ K₀ K 1 100
    [(0x3000, 7), (0x3063, 9)] (by decide) (by decide) bootTables_small hK₀
    hfits hrun hchild (by rw [hbase]; decide) (by rw [hsbrk]; decide) (by
      rw [hbase, hptr]
      decide)
  exact ⟨K₀, K, K', hK₀, hrun, hK', hself, hothers 0 (by decide) hroot⟩

end SyeLabs.Kernel
