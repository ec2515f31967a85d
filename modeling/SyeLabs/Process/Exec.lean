/-
`do_execve` and the replacement of the process image.

The ELF loader is not part of the repository: `elfLoadBuffer` is a
parameter that returns, for a file name, what the process code reads of
the parsed image, or nothing for a null buffer. The page for the
arguments is at `args`, the address `malloc` returned.

`do_execve` returns only when it fails; a replaced process goes on in a
new thread and the calling thread ends. Of its two failures one is seen
after the name of the process has been overwritten, and the other is
never seen, since the test for it asks for a pointer below zero
(`execve_atomic_iff`).
-/
import SyeLabs.Process.Basic

namespace SyeLabs.Process

open Lib

/-- `elf_img_info_t`, the fields the process code uses. -/
structure Elf where
  /-- `header->e_entry`. -/
  entry : Nat
  /-- `segment_page_count`. -/
  segmentPageCount : Nat

/-- How `do_execve` ends: it returns, an assertion stops the kernel, or
the calling thread exits and `m` is the memory of the kernel heap. -/
inductive ExecEnd
  | returned (o : Outcome)
  | assertFailed
  | replaced (k : Procs) (calls : List Call) (m : ByteMem)

/-- The fields `setup_proc_image_replace` gives the image. -/
def imageFields (P : Platform) (elf : Elf) (pcb : Pcb) : Pcb :=
  let pcb := { pcb with binImageEntry := elf.entry }
  let pcb := { pcb with pageCount := pcb.pageCount + elf.segmentPageCount }
  let heapBase := (pcb.pageCount + 1) * 4096 % addrSpace
  let pcb := { pcb with heapBase := heapBase, heapPointer := heapBase }
  let pcb :=
    { pcb with pageCount := pcb.pageCount + alignUp P.heapSize / 4096 }
  { pcb with pageCount := pcb.pageCount + 1 }

/-- The calls of `setup_proc_image_replace`, in order; `stack` is the
PCB after `reset_process_stack`. -/
def imageCalls (P : Platform) (p : Ref) (elf : Elf) (stack : Pcb)
    (argsEnv : Nat) : List Call :=
  [.resetRootPgtable p false,
    .releaseProcPages p,
    .allocatePage p (stackBase stack) stack.pageCount,
    .allocatePage p elf.entry elf.segmentPageCount,
    .allocatePage p (imageFields P elf stack).heapBase
      (alignUp P.heapSize / 4096),
    .allocatePage p P.argsBase 1]
  ++ if argsEnv ≠ 0 then [.postSetupImage argsEnv] else []

/-- What `setup_proc_image_replace` leaves. -/
structure ImageSetup where
  k : Procs
  calls : List Call
  m : ByteMem
  ret : Int
  errno : Option Errno

/-- `setup_proc_image_replace`. -/
def setupProcImageReplace (P : Platform) (args : Nat) (k : Procs) (p : Ref)
    (elf : Elf) (argc : Nat) (argv envp : Option (List CString))
    (m : ByteMem) : ImageSetup :=
  let kept := preserveArgsAndEnv args (k.pcb p).name argc argv envp m
  let argsEnv := match kept.2 with
    | .ok page => page
    | .error _ => 0
  let errno := match kept.2 with
    | .ok _ => none
    | .error e => some e
  -- `if (__args_env < 0)`, on a pointer
  if argsEnv < 0 then { k, calls := [], m := kept.1, ret := -1, errno }
  else
    let k := k.setPcb p (resetProcessStack P)
    { k := k.setPcb p (imageFields P elf)
      calls := imageCalls P p elf (k.pcb p) argsEnv
      m := kept.1
      ret := 0
      errno }

/-- The calls of `setup_proc_image_replace` do not depend on what the
PCB held. -/
theorem setupProcImageReplace_calls (P : Platform) (args : Nat) (k : Procs)
    (p : Ref) (elf : Elf) (argc : Nat) (argv envp : Option (List CString))
    (m : ByteMem) (pcb : Pcb) :
    ∃ argsEnv, (setupProcImageReplace P args k p elf argc argv envp m).calls
      = imageCalls P p elf (resetProcessStack P pcb) argsEnv := by
  have hstack : (k.setPcb p (resetProcessStack P)).pcb p
      = resetProcessStack P (k.pcb p) := by
    rw [setPcb_pcb, if_pos rfl]
  unfold setupProcImageReplace
  dsimp only
  rw [if_neg (Nat.not_lt_zero _), hstack]
  exact ⟨_, rfl⟩

/-- The assertions on the join queue of the replaced thread: nobody but
a thread of the parent waits there, and at most one. -/
def joinQueueOk (parent : Option Ref) : List Ref → Bool
  | [] => true
  | q :: qs => parent = some q && qs.isEmpty

variable (elfLoadBuffer : CString → Option Elf)

/-- `do_execve`, called by thread `cur` of process `p`; `joinQueue` are
the processes of the threads that wait for `cur`. -/
def doExecve (P : Platform) (args : Nat) (k : Procs) (p : Ref) (cur : Tid)
    (joinQueue : List Ref) (filename : CString)
    (argv envp : Option (List CString)) (m : ByteMem) : ExecEnd :=
  let argc := (argv.getD []).length
  if (k.pcb p).mainThread ≠ some cur then .assertFailed
  else
    let flags := k.irqEnabled
    let k := k.setIrq false
    let k := k.setPcb p fun pcb => { pcb with name := filename }
    match elfLoadBuffer filename with
    | none =>
        .returned
          { k := k.setIrq flags, calls := [], ret := -1,
            errno := some .ENOENT }
    | some elf =>
        let s := setupProcImageReplace P args k p elf argc argv envp m
        if s.ret < 0 then
          .returned
            { k := s.k, calls := s.calls, ret := s.ret, errno := s.errno }
        else
          let k := s.k.setPcb p fun pcb =>
            { pcb with mainThread := some s.k.nextTid }
          let k := { k with nextTid := k.nextTid + 1 }
          -- a waiting thread moves to the new main thread
          if joinQueueOk (k.pcb p).parent joinQueue then
            .replaced k (s.calls ++ [.loadProcess, .threadExit p]) s.m
          else .assertFailed

-- ================================================================= failed exec

/-- `do_execve` cannot execute the program: there is no image, or the
arguments do not fit in their page. -/
def ExecFails (args : Nat) (filename : CString)
    (argv envp : Option (List CString)) (m : ByteMem) : Prop :=
  elfLoadBuffer filename = none
    ∨ (preserveArgsAndEnv args filename (argv.getD []).length argv envp
        m).2 = .error .ENOMEM

/-- `do_execve` returns -1 and leaves the process as it was: its PCB is
unchanged and nothing was called that changes its page table or its page
list. -/
def LeftAsItWas (k : Procs) (p : Ref) (e : ExecEnd) : Prop :=
  ∃ o, e = .returned o ∧ o.ret = -1 ∧ o.calls = [] ∧ o.k.pcb p = k.pcb p

/-- The test for a failed `preserve_args_and_env` never fires. -/
theorem setupProcImageReplace_ret (P : Platform) (args : Nat) (k : Procs)
    (p : Ref) (elf : Elf) (argc : Nat) (argv envp : Option (List CString))
    (m : ByteMem) :
    (setupProcImageReplace P args k p elf argc argv envp m).ret = 0 := by
  unfold setupProcImageReplace
  exact congrArg ImageSetup.ret (if_neg (Nat.not_lt_zero _))

/-- Once there is an image `do_execve` never returns. -/
theorem doExecve_of_image {P : Platform} {args : Nat} {k : Procs} {p : Ref}
    {cur : Tid} {joinQueue : List Ref} {filename : CString}
    {argv envp : Option (List CString)} {m : ByteMem} {elf : Elf}
    (h : elfLoadBuffer filename = some elf) (o : Outcome) :
    doExecve elfLoadBuffer P args k p cur joinQueue filename argv envp m
      ≠ .returned o := by
  intro hret
  unfold doExecve at hret
  simp only [h, setupProcImageReplace_ret] at hret
  split at hret
  · cases hret
  · split at hret
    next hlt => exact absurd hlt (by decide)
    next =>
      split at hret
      · cases hret
      · cases hret

/-- Without an image it returns -1, with the name overwritten. -/
theorem doExecve_of_no_image {P : Platform} {args : Nat} {k : Procs}
    {p : Ref} {cur : Tid} (joinQueue : List Ref) {filename : CString}
    (argv envp : Option (List CString)) (m : ByteMem)
    (hmain : (k.pcb p).mainThread = some cur)
    (h : elfLoadBuffer filename = none) :
    doExecve elfLoadBuffer P args k p cur joinQueue filename argv envp m
      = .returned
        { k := k.setPcb p fun pcb => { pcb with name := filename }
          calls := []
          ret := -1
          errno := some .ENOENT } := by
  unfold doExecve
  rw [if_neg (not_not_intro hmain)]
  simp only [h]
  rfl

/-- A `do_execve` that returns has found no image. -/
theorem doExecve_returned {P : Platform} {args : Nat} {k : Procs} {p : Ref}
    {cur : Tid} {joinQueue : List Ref} {filename : CString}
    {argv envp : Option (List CString)} {m : ByteMem} {o : Outcome}
    (h : doExecve elfLoadBuffer P args k p cur joinQueue filename argv envp m
      = .returned o) :
    o.k = k.setPcb p (fun pcb => { pcb with name := filename })
      ∧ o.calls = [] := by
  have hmain : (k.pcb p).mainThread = some cur := by
    by_contra hne
    unfold doExecve at h
    rw [if_pos hne] at h
    cases h
  cases himage : elfLoadBuffer filename with
  | some elf => exact absurd h (doExecve_of_image elfLoadBuffer himage o)
  | none =>
      rw [doExecve_of_no_image elfLoadBuffer joinQueue argv envp m hmain
        himage] at h
      cases h
      exact ⟨rfl, rfl⟩

/-- One that does not return has replaced the image. -/
theorem doExecve_replaced {P : Platform} {args : Nat} {k k' : Procs}
    {p : Ref} {cur : Tid} {joinQueue : List Ref} {filename : CString}
    {argv envp : Option (List CString)} {m m' : ByteMem} {calls : List Call}
    (h : doExecve elfLoadBuffer P args k p cur joinQueue filename argv envp m
      = .replaced k' calls m') :
    ∃ elf ∈ elfLoadBuffer filename,
      k'.nextRef = k.nextRef
      ∧ (∀ r, k'.pcb r = if r = p then
          { imageFields P elf (resetProcessStack P
              { k.pcb r with name := filename }) with
            mainThread := some k.nextTid }
        else k.pcb r)
      ∧ ∃ argsEnv, calls = imageCalls P p elf
          (resetProcessStack P (k.pcb p)) argsEnv
        ++ [.loadProcess, .threadExit p] := by
  unfold doExecve at h
  split at h
  · cases h
  · cases himage : elfLoadBuffer filename with
    | none =>
        simp only [himage] at h
        cases h
    | some elf =>
        simp only [himage, setupProcImageReplace_ret] at h
        rw [if_neg (by decide)] at h
        split at h
        · cases h
          obtain ⟨argsEnv, hcalls⟩ := setupProcImageReplace_calls P args
            ((k.setIrq false).setPcb p fun pcb =>
              { pcb with name := filename })
            p elf (argv.getD []).length argv envp m (k.pcb p)
          refine ⟨elf, rfl, rfl, fun r => ?_, argsEnv, by rw [hcalls]⟩
          simp only [setupProcImageReplace, Nat.not_lt_zero, if_false,
            setPcb_pcb]
          split <;> rfl
        · cases h

/-- `do_execve` leaves the process as it was exactly when there is no
image and the file is named like the process. -/
theorem leftAsItWas_iff (P : Platform) (args : Nat) {k : Procs} {p : Ref}
    {cur : Tid} (joinQueue : List Ref) (filename : CString)
    (argv envp : Option (List CString)) (m : ByteMem)
    (hmain : (k.pcb p).mainThread = some cur) :
    LeftAsItWas k p
        (doExecve elfLoadBuffer P args k p cur joinQueue filename argv envp
          m)
      ↔ elfLoadBuffer filename = none ∧ (k.pcb p).name = filename := by
  cases himage : elfLoadBuffer filename with
  | some elf =>
      constructor
      · intro h
        obtain ⟨o, ho, -⟩ := h
        exact absurd ho (doExecve_of_image elfLoadBuffer himage o)
      · intro h
        obtain ⟨hnone, -⟩ := h
        cases hnone
  | none =>
      rw [LeftAsItWas, doExecve_of_no_image elfLoadBuffer joinQueue argv
        envp m hmain himage]
      constructor
      · intro h
        obtain ⟨o, ho, -, -, hpcb⟩ := h
        cases ho
        rw [setPcb_pcb, if_pos rfl] at hpcb
        exact ⟨rfl, (congrArg Pcb.name hpcb).symm⟩
      · intro h
        obtain ⟨-, hname⟩ := h
        refine ⟨_, rfl, rfl, rfl, ?_⟩
        rw [setPcb_pcb, if_pos rfl, ← hname]

/-- That a `do_execve` which cannot execute its program leaves the
process as it was is true exactly where the failure is a missing image
and the file is named like the process. -/
theorem execve_atomic_iff (P : Platform) (args : Nat) (k : Procs) (p : Ref)
    (cur : Tid) (joinQueue : List Ref) (filename : CString)
    (argv envp : Option (List CString)) (m : ByteMem)
    (hmain : (k.pcb p).mainThread = some cur) :
    (ExecFails elfLoadBuffer args filename argv envp m →
        LeftAsItWas k p
          (doExecve elfLoadBuffer P args k p cur joinQueue filename argv
            envp m))
      ↔ (ExecFails elfLoadBuffer args filename argv envp m →
        elfLoadBuffer filename = none ∧ (k.pcb p).name = filename) :=
  imp_congr_right fun _ =>
    leftAsItWas_iff elfLoadBuffer P args joinQueue filename argv envp m
      hmain

/-- The process table of a root process named `sh`. -/
def shProcs : Procs :=
  (createRootProcess .sample Procs.boot).1.setPcb 0 fun pcb =>
    { pcb with name := nameSh }

/-- `sh` fails to execute a missing file `sh`. -/
theorem execve_atomic_sh :
    LeftAsItWas shProcs 0
      (doExecve (fun _ => none) .sample 0xC0100000 shProcs 0 0 [] nameSh
        none none fun _ => 0) :=
  (execve_atomic_iff (fun _ => none) .sample 0xC0100000 shProcs 0 0 []
    nameSh none none (fun _ => 0) rfl).mpr (fun _ => ⟨rfl, rfl⟩)
    (Or.inl rfl)

/-- An argument of 5000 bytes. -/
def longArg : CString :=
  ⟨List.replicate 5000 0x61, fun b hb => by
    rw [List.eq_of_mem_replicate hb]
    decide⟩

/-- `sh` fails to execute a missing file `ls` and is called `ls` from
then on; with an argument that does not fit, it runs a program without
arguments instead. -/
theorem execve_not_atomic :
    (ExecFails (fun _ => none) 0xC0100000 nameLs none none (fun _ => 0)
      ∧ ¬ LeftAsItWas shProcs 0
        (doExecve (fun _ => none) .sample 0xC0100000 shProcs 0 0 [] nameLs
          none none fun _ => 0))
    ∧ (ExecFails (fun _ => some ⟨0x1000, 1⟩) 0xC0100000 nameLs
        (some [longArg]) none (fun _ => 0)
      ∧ ¬ LeftAsItWas shProcs 0
        (doExecve (fun _ => some ⟨0x1000, 1⟩) .sample 0xC0100000 shProcs 0 0
          [] nameLs (some [longArg]) none fun _ => 0)) := by
  have hlong : longArg.size = 5001 := by
    rw [CString.size, longArg, List.length_replicate]
  refine ⟨⟨Or.inl rfl, ?_⟩, Or.inr ?_, ?_⟩
  · rw [leftAsItWas_iff _ _ _ _ _ _ _ _ rfl]
    intro h
    obtain ⟨-, hname⟩ := h
    exact absurd (congrArg CString.bytes hname) (by decide)
  · simp [preserveArgsAndEnv, packStrings, reserveEnv, hlong, pageSize]
  · rw [leftAsItWas_iff _ _ _ _ _ _ _ _ rfl]
    intro h
    obtain ⟨himage, -⟩ := h
    cases himage

end SyeLabs.Process
