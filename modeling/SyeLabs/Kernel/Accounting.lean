/-
The account of the page frames over runs of the kernel.

Every operation keeps the account of the frames (`audited_perform`), but
the account is kept in the lists whose heads are the `page_list` fields
of the PCBs, behind `name`. The runs here are those of `perform` with
what a name longer than its field writes there: `pageListOf` is what can
still be read through the head, and a run whose names all fit reads every
list (`frame_accounting`).

A PCB that `remove_proc` has freed keeps its list in the model, so its
entries are counted with the others: where `do_waitpid` removes a process
that has not released its pages, they stay out and listed.
-/
import SyeLabs.Kernel.Run
import SyeLabs.Process.Overrun

namespace SyeLabs.Kernel

open Lib Mmu Process

-- ==================================================================== the runs

/-- The move of the process table in an operation. -/
def Op.move : Op → Option Move
  | .exec p cur joinQueue filename argv envp args m =>
      some (.exec p cur joinQueue filename argv envp args m)
  | .proc a => some (.act a)
  | .create | .allocate _ _ _ => none

variable {P : Platform} {H F : Type*} (B : Board P H F)
  (elfLoadBuffer : CString → Option Elf)
  (threadJoin : Option Tid → Option Tid)

/-- The source says what an operation does: its move is followed, and
pages are allocated for a process whose list has a head. -/
def OpFollowed (s : Sys) : Op → Prop
  | .create => True
  | .allocate p _ _ => (s.k.pcb p).name.size ≤ pageListAt
  | .exec p cur joinQueue filename argv envp args m =>
      Followed elfLoadBuffer s
        (.exec p cur joinQueue filename argv envp args m)
  | .proc a => Followed elfLoadBuffer s (.act a)

instance (s : Sys) : (op : Op) → Decidable (OpFollowed elfLoadBuffer s op)
  | .create => inferInstanceAs (Decidable True)
  | .allocate _ _ _ => inferInstanceAs (Decidable (_ ≤ _))
  | .exec p cur joinQueue filename argv envp args m =>
      inferInstanceAs (Decidable (Followed elfLoadBuffer s
        (.exec p cur joinQueue filename argv envp args m)))
  | .proc a => inferInstanceAs (Decidable (Followed elfLoadBuffer s (.act a)))

/-- One operation, with what it writes past the field of a name. -/
def overrunPerform (K : State H F) (op : Op) : Option (State H F) :=
  if OpFollowed elfLoadBuffer K.sys op then
    (perform B elfLoadBuffer threadJoin
      { K with sys := op.move.elim K.sys K.sys.copied } op).map fun K' =>
        { K' with sys := K'.sys.printed K.sys.k.nextRef }
  else none

/-- What an operation writes as a name fits the field. -/
def Op.NamesFit (s : Sys) (op : Op) : Prop :=
  ∀ m ∈ op.move, m.Fits s

instance (s : Sys) (op : Op) : Decidable (op.NamesFit s) := by
  unfold Op.NamesFit
  infer_instance

/-- Only a fork writes a name that depends on the state. -/
theorem namesFit_unforked {op : Op}
    (h : ∀ m ∈ op.move, m.FilenameFits ∧ m.forks = none) (s : Sys) :
    op.NamesFit s := by
  intro m hm
  obtain ⟨hfile, hforks⟩ := h m hm
  refine ⟨hfile, fun f hf => ?_⟩
  rw [hforks] at hf
  cases hf

theorem namesFit_execFile (s : Sys) (p : Ref) (cur : Tid) :
    (Op.execFile p cur).NamesFit s :=
  namesFit_unforked (fun m hm => by
    cases hm
    exact ⟨(by decide : nameLs.size ≤ 80), rfl⟩) s

-- ================================================================= the account

/-- The list whose head is the `page_list` of process `p`; there is none
once a name has been written over the head. -/
def pageListOf (K : State H F) (p : Ref) : Option (List Nat) :=
  if (K.sys.k.pcb p).name.size ≤ pageListAt then
    some (K.mach.frames.pageList p)
  else none

/-- The frames are accounted for by the page lists of the processes. -/
structure Account (K : State H F) (lists : Ref → List Nat) : Prop where
  readable : ∀ p, pageListOf K p = some (lists p)
  /-- The count of a frame is the number of entries that refer to it, over
  all processes there have been. -/
  counts : ∀ f, K.mach.frames.refcount f = total lists K.sys.k.nextRef f
  nobody : ∀ p, K.sys.k.nextRef ≤ p → lists p = []
  /-- A frame has been handed out and not given back exactly while its
  count is positive; none was given back twice in a row. -/
  history : ∀ f, history f K.mach.frames.log
    = some (decide (0 < K.mach.frames.refcount f))

-- ============================================================= while names fit

variable {B elfLoadBuffer threadJoin}

theorem opFollowed_of_fits {s : Sys} {op : Op} (h : NamesFit s.k)
    (hop : op.NamesFit s) : OpFollowed elfLoadBuffer s op := by
  cases op with
  | create => trivial
  | allocate p virtAddr nrPages => exact (h p).trans (by decide)
  | exec p cur joinQueue filename argv envp args m =>
      exact followed_of_fits h (hop _ rfl)
  | proc a => exact followed_of_fits h (hop _ rfl)

/-- An operation makes its move. -/
theorem move_of_perform {K K' : State H F} {op : Op} {m : Move}
    (hm : op.move = some m)
    (hop : perform B elfLoadBuffer threadJoin K op = some K') :
    move P elfLoadBuffer threadJoin K.sys m = some K'.sys := by
  cases op with
  | create => cases hm
  | allocate p virtAddr nrPages => cases hm
  | exec p cur joinQueue filename argv envp args mem =>
      cases hm
      simp only [perform] at hop
      simp only [move]
      split at hop
      next hlive =>
        rw [if_pos hlive]
        cases ho : doExecve elfLoadBuffer P args K.sys.k p cur joinQueue
            filename argv envp mem with
        | returned o =>
            simp only [ho] at hop
            obtain ⟨m, -, rfl⟩ := Option.map_eq_some_iff.mp hop
            rfl
        | assertFailed =>
            simp only [ho] at hop
            cases hop
        | replaced k cs m' =>
            simp only [ho] at hop
            obtain ⟨m, -, rfl⟩ := Option.map_eq_some_iff.mp hop
            rfl
      next => cases hop
  | proc a =>
      cases hm
      obtain ⟨sys, hsys, hcalls⟩ := Option.bind_eq_some_iff.mp hop
      obtain ⟨mach, -, rfl⟩ := Option.map_eq_some_iff.mp hcalls
      exact hsys

/-- A process created from scratch has no name yet. -/
theorem namesFit_create {k : Procs} (h : NamesFit k) :
    NamesFit (createRootProcess P k).1 := by
  intro r
  by_cases hr : r = k.nextRef
  · simp [createRootProcess, newProcess, Procs.setPcb, Procs.setIrq, hr,
      resetProcessStack, freshPcb, CString.size, procNameLen]
  · simpa [createRootProcess, newProcess, Procs.setPcb, Procs.setIrq, hr]
      using h r

/-- An operation that writes only such names leaves all names in their
fields. -/
theorem namesFit_perform {K K' : State H F} {op : Op}
    (hno : NoPtrace K.sys.k) (h : NamesFit K.sys.k)
    (hfit : op.NamesFit K.sys)
    (hop : perform B elfLoadBuffer threadJoin K op = some K') :
    NamesFit K'.sys.k := by
  cases hm : op.move with
  | some m =>
      have hmove := move_of_perform hm hop
      have hfits := hfit m hm
      exact (namesFit_move P elfLoadBuffer threadJoin hno h hfits.1
        hmove).mpr hfits.2
  | none =>
      cases op with
      | create =>
          obtain ⟨m, -, rfl⟩ := Option.map_eq_some_iff.mp hop
          exact namesFit_create h
      | allocate p virtAddr nrPages =>
          simp only [perform] at hop
          split at hop
          next =>
            obtain ⟨m, -, rfl⟩ := Option.map_eq_some_iff.mp hop
            exact h
          next => cases hop
      | exec p cur joinQueue filename argv envp args mem => cases hm
      | proc a => cases hm

/-- While all names fit, the operations are those of `perform`. -/
theorem overrunPerform_eq {K : State H F} {op : Op} (hno : NoPtrace K.sys.k)
    (h : NamesFit K.sys.k) (hfit : op.NamesFit K.sys) :
    overrunPerform B elfLoadBuffer threadJoin K op
      = perform B elfLoadBuffer threadJoin K op := by
  have hcopied : op.move.elim K.sys K.sys.copied = K.sys := by
    cases hm : op.move with
    | none => rfl
    | some m => exact copied_of_fits (hfit m hm).1
  rw [overrunPerform, if_pos (opFollowed_of_fits h hfit), hcopied]
  cases hop : perform B elfLoadBuffer threadJoin K op with
  | none => rfl
  | some K' =>
      have hnames := namesFit_perform hno h hfit hop
      simp only [Option.map_some, printed_of_fits hnames]

-- =============================================================== the whole run

variable (B elfLoadBuffer threadJoin)

/-- After every run that writes no name past its field the page list of
every process can be read, the count of a frame is the number of entries
that refer to it, over all processes, and the frame has been handed out
and not given back exactly while its count is positive; it was never given
back twice in a row. -/
theorem frame_accounting (t : PageTables H) (pool : F)
    (page : Nat → Nat → UInt8) (ops : List Op) (K : State H F)
    (hnames : Along (overrunPerform B elfLoadBuffer threadJoin)
      (fun K op => op.NamesFit K.sys) (State.boot t pool page) ops)
    (h : run (overrunPerform B elfLoadBuffer threadJoin)
      (State.boot t pool page) ops = some K) :
    ∃ lists, Account K lists := by
  have hinv : Audited B K ∧ NamesFit K.sys.k := by
    refine run_inv_along (I := fun K => Audited B K ∧ NamesFit K.sys.k) ?_
      ⟨audited_boot t pool page, fun _ => (by decide : 1 ≤ 80)⟩ hnames h
    intro K op K' hK hfit hop
    obtain ⟨haudited, hfits⟩ := hK
    rw [overrunPerform_eq haudited.noPtrace hfits hfit] at hop
    exact ⟨audited_perform elfLoadBuffer threadJoin haudited hop,
      namesFit_perform haudited.noPtrace hfits hfit hop⟩
  obtain ⟨haudited, hfits⟩ := hinv
  exact ⟨K.mach.frames.pageList,
    { readable := fun p => if_pos ((hfits p).trans (by decide))
      counts := haudited.frames.counts
      nobody := haudited.frames.nobody
      history := haudited.frames.history }⟩

/-- The root process forks a child, which replaces its image and
exits. -/
theorem frame_accounting_exec_exit :
    ∃ K, run (overrunPerform .small onePage id) State.small
        [.create, .proc (.fork 0 0), .execFile 1 1, .proc (.exit 1 0)]
        = some K
      ∧ ∃ lists, Account K lists := by
  have hret : (run (overrunPerform .small onePage id) State.small
      [.create, .proc (.fork 0 0), .execFile 1 1,
        .proc (.exit 1 0)]).isSome = true := by decide +kernel
  obtain ⟨K, hK⟩ := Option.isSome_iff_exists.mp hret
  exact ⟨K, hK, frame_accounting .small onePage id _ _ _ _ K
    (by decide +kernel) hK⟩

/-- A file name of 139 letters `a`, with its NUL up to `pgtable`. -/
def nameLong : CString where
  bytes := List.replicate 139 0x61
  noNul := fun b hb => by
    rw [List.eq_of_mem_replicate hb]
    decide

/-- The root process executes a file that is not there, by a name that
runs over the head of its page list. Frame 100, its stack, is still
counted; the head holds the letters, whatever it held before, and no
account is left. -/
theorem name_over_page_list :
    ∃ K, run (overrunPerform .small (fun _ => none) id) State.small
        [.create, .exec 0 0 [] nameLong none none 0xC0100000 fun _ => 0]
        = some K
      ∧ 0 ∈ K.sys.k.procList ∧ Live K.sys.k 0
      ∧ K.mach.frames.refcount 100 = 1
      ∧ (∀ head, overrunAt (K.sys.k.pcb 0).name pageListAt head = 0x61616161)
      ∧ ∀ lists, ¬ Account K lists := by
  have hret : (run (overrunPerform .small (fun _ => none) id) State.small
      [.create, .exec 0 0 [] nameLong none none 0xC0100000 fun _ => 0]).any
      (fun K => 0 ∈ K.sys.k.procList ∧ Live K.sys.k 0
        ∧ K.mach.frames.refcount 100 = 1
        ∧ (K.sys.k.pcb 0).name.bytes = nameLong.bytes
        ∧ pageListOf K 0 = none) = true := by decide +kernel
  obtain ⟨K, hK, hbroken⟩ := (Option.any_eq_true _ _).mp hret
  obtain ⟨hmem, hlive, hcount, hname, hnone⟩ := of_decide_eq_true hbroken
  refine ⟨K, hK, hmem, hlive, hcount, fun head => ?_, fun lists h => ?_⟩
  · have hletters : (nameLong.bytes ++ [0]).drop pageListAt
        = [0x61, 0x61, 0x61, 0x61, 0x61, 0x61, 0x61, 0] := by decide
    rw [overrunAt, hname, hletters]
    simp only [overrunWord]
    decide
  · have hread := h.readable 0
    rw [hnone] at hread
    cases hread

end SyeLabs.Kernel
