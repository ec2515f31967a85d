/-
Process names and the eighty bytes of `pcb->name`.

`do_execve` copies a file name into the field and `do_fork` prints the
parent's name and the pid of the child into it, neither with a bound.
A fork makes a name longer than the one it starts from, so the length
adds up over the generations.

The runs here are those of the process table with `do_execve` and
`do_fork2` as further moves. They keep a name that does not fit as it is
and leave the fields behind it alone; `names_fit_iff` says which runs
never have one. What such a name does to the fields is in
`Process.Overrun`.
-/
import SyeLabs.Process.Exec
import SyeLabs.Process.Pids

namespace SyeLabs.Process

open Lib

/-- `PROC_NAME_LEN`. -/
def procNameLen : Nat := 80

-- ============================================================ the child's name

/-- No digit of a pid is a NUL. -/
theorem decimal_noNul (pid : Pid) : ∀ b ∈ decimal pid, b ≠ 0 := by
  have hdigit : ∀ c : Char, c.isDigit = true → UInt8.ofNat c.toNat ≠ 0 := by
    intro c hc h
    have hrange : 48 ≤ c.toNat ∧ c.toNat ≤ 57 := Char.isDigit_iff_toNat.mp hc
    have hnat := congrArg UInt8.toNat h
    rw [UInt8.toNat_ofNat', Nat.mod_eq_of_lt (by omega)] at hnat
    have hzero : c.toNat = 0 := hnat
    omega
  have hrepr : ∀ n : Nat, ∀ c ∈ n.repr.toList, UInt8.ofNat c.toNat ≠ 0 := by
    intro n c hc
    rw [Nat.toList_repr] at hc
    exact hdigit c
      (Nat.isDigit_of_mem_toDigits (by decide) (by decide) hc)
  intro b hb
  unfold decimal at hb
  obtain ⟨c, hc, rfl⟩ := List.mem_map.mp hb
  cases hint : pid.toInt with
  | ofNat n =>
      rw [hint] at hc
      exact hrepr n c hc
  | negSucc n =>
      rw [hint] at hc
      have hc' : c ∈ ("-" ++ (n + 1).repr).toList := hc
      rw [String.toList_append, List.mem_append] at hc'
      rcases hc' with hminus | hrest
      · have hsign : c = '-' := by simpa using hminus
        rw [hsign]
        decide
      · exact hrepr (n + 1) c hrest

/-- `sprintf` prints the whole of both parts. -/
theorem childName_size (name : CString) (pid : Pid) :
    (childName name pid).size = name.size + 7 + (decimal pid).length := by
  have hinfix : ∀ b ∈ ([0x5f, 0x63, 0x68, 0x69, 0x6c, 0x64, 0x5f] :
      List UInt8), b ≠ 0 := by simp
  have hbytes : (childName name pid).bytes
      = name.bytes ++ [0x5f, 0x63, 0x68, 0x69, 0x6c, 0x64, 0x5f]
        ++ decimal pid := by
    refine List.takeWhile_eq_self_iff.mpr fun b hb => bne_iff_ne.mpr ?_
    rcases List.mem_append.mp hb with hb | hb
    · rcases List.mem_append.mp hb with hb | hb
      · exact name.noNul b hb
      · exact hinfix b hb
    · exact decimal_noNul pid b hb
  unfold CString.size
  rw [hbytes]
  simp only [List.length_append, List.length_cons, List.length_nil]
  omega

-- =================================================================== the moves

/-- What a process does next: replace its image, the second fork call, or
one of the actions on the process table. -/
inductive Move
  | exec (p : Ref) (cur : Tid) (joinQueue : List Ref) (filename : CString)
      (argv envp : Option (List CString)) (args : Nat) (m : ByteMem)
  | fork2 (p : Ref) (thread : Tid)
  | act (a : Act)

variable (P : Platform) (elfLoadBuffer : CString → Option Elf)
  (threadJoin : Option Tid → Option Tid)

/-- One move. -/
def move (s : Sys) : Move → Option Sys
  | .exec p cur joinQueue filename argv envp args m =>
      if Live s.k p then
        match doExecve elfLoadBuffer P args s.k p cur joinQueue filename
            argv envp m with
        | .returned o =>
            some { s with k := o.k, trace := s.trace ++ o.calls }
        | .assertFailed => none
        | .replaced k calls _ =>
            some { s with k := k, trace := s.trace ++ calls }
      else none
  | .fork2 p thread =>
      if Live s.k p then
        let o := doFork2 s.k p thread
        some { s with k := o.k, trace := s.trace ++ o.calls }
      else none
  | .act a => step threadJoin s a

/-- The names of all processes fit their field. -/
def NamesFit (k : Procs) : Prop :=
  ∀ r, (k.pcb r).name.size ≤ procNameLen

/-- The file name given to `do_execve` fits the field. -/
def Move.FilenameFits : Move → Prop
  | .exec _ _ _ filename _ _ _ _ => filename.size ≤ procNameLen
  | _ => True

/-- The process and the thread of a fork. -/
def Move.forks : Move → Option (Ref × Tid)
  | .fork2 p thread | .act (.fork p thread) => some (p, thread)
  | _ => none

/-- What a fork would print fits the field: the parent's name,
`"_child_"`, the next pid and the NUL. -/
def ForkFits (s : Sys) (m : Move) : Prop :=
  ∀ f ∈ m.forks, (s.k.pcb f.1).mainThread = some f.2 →
    (s.k.pcb f.1).name.size + 7 + (decimal s.k.pidCurrent).length
      ≤ procNameLen

-- =========================================================== what a move names

/-- A fork by the main thread names the child and nobody else. -/
theorem doFork_name {k : Procs} {p : Ref} {thread : Tid}
    (hp : p ≠ k.nextRef) (r : Ref) :
    ((doFork k p thread).k.pcb r).name
      = if (k.pcb p).mainThread = some thread ∧ r = k.nextRef then
          childName (k.pcb p).name k.pidCurrent
        else (k.pcb r).name := by
  by_cases h : (k.pcb p).mainThread = some thread
  · by_cases hr : r = k.nextRef
    · obtain ⟨name, hchild, hname⟩ := doFork_child h
      subst hr
      rw [if_pos ⟨h, rfl⟩, hchild]
      exact hname hp
    · obtain ⟨hf, -⟩ := doFork_main h
      rw [if_neg fun hn => hr hn.2, hf.others r hr]
  · rw [if_neg fun hn => h hn.1, doFork_of_not_main h]
    rfl

/-- An execution that fails names its process, one that succeeds replaces
the image as well. -/
theorem move_exec {s s' : Sys} {p : Ref} {cur : Tid} {joinQueue : List Ref}
    {filename : CString} {argv envp : Option (List CString)} {args : Nat}
    {m : ByteMem}
    (hmove : move P elfLoadBuffer threadJoin s
      (.exec p cur joinQueue filename argv envp args m) = some s') :
    s'.k = s.k.setPcb p (fun pcb => { pcb with name := filename })
      ∨ ∃ elf ∈ elfLoadBuffer filename, ∀ r, s'.k.pcb r = if r = p then
          { imageFields P elf (resetProcessStack P
              { s.k.pcb r with name := filename }) with
            mainThread := some s.k.nextTid }
        else s.k.pcb r := by
  simp only [move] at hmove
  split at hmove
  next =>
    split at hmove
    next o ho =>
      cases hmove
      exact Or.inl (doExecve_returned elfLoadBuffer ho).1
    next => cases hmove
    next k calls m' ho =>
      cases hmove
      obtain ⟨elf, helf, -, hpcb, -⟩ := doExecve_replaced elfLoadBuffer ho
      exact Or.inr ⟨elf, helf, hpcb⟩
  next => cases hmove

/-- It gives its process the file name, and leaves pending ptrace requests
alone. -/
theorem move_exec_name {s s' : Sys} {p : Ref} {cur : Tid}
    {joinQueue : List Ref} {filename : CString}
    {argv envp : Option (List CString)} {args : Nat} {m : ByteMem}
    (hmove : move P elfLoadBuffer threadJoin s
      (.exec p cur joinQueue filename argv envp args m) = some s') (r : Ref) :
    (s'.k.pcb r).name = (if r = p then filename else (s.k.pcb r).name)
      ∧ (s'.k.pcb r).ptracePendingReq = (s.k.pcb r).ptracePendingReq := by
  rcases move_exec P elfLoadBuffer threadJoin hmove with hk | ⟨elf, -, hpcb⟩
  · rw [hk, setPcb_pcb]
    split <;> exact ⟨rfl, rfl⟩
  · rw [hpcb]
    split <;> exact ⟨rfl, rfl⟩

/-- The other actions name nobody. -/
theorem step_name {s s' : Sys} {a : Act} (hno : NoPtrace s.k)
    (hfork : (Move.act a).forks = none)
    (hstep : step threadJoin s a = some s') (r : Ref) :
    (s'.k.pcb r).name = (s.k.pcb r).name := by
  cases step_stepped threadJoin hno hstep with
  | idle on _ => rfl
  | forked _ _ => cases hfork
  | exited _ _ =>
      rw [setPcb_pcb]
      split <;> rfl
  | scheduled _ _ =>
      rw [setPcb_pcb]
      split <;> rfl
  | blocked _ _ => rfl
  | reaped _ hr =>
      obtain ⟨t, ht⟩ := hr.pcb r
      rw [ht]
  | resumed _ hr =>
      obtain ⟨t, ht⟩ := hr.pcb r
      rw [ht]

theorem noPtrace_move {s s' : Sys} {m : Move} (hno : NoPtrace s.k)
    (hmove : move P elfLoadBuffer threadJoin s m = some s') :
    NoPtrace s'.k := by
  cases m with
  | exec p cur joinQueue filename argv envp args m =>
      intro r
      rw [(move_exec_name P elfLoadBuffer threadJoin hmove r).2]
      exact hno r
  | fork2 p thread =>
      exact noPtrace_step threadJoin (a := .fork p thread) hno hmove
  | act a => exact noPtrace_step threadJoin hno hmove

theorem namesFit_init : NamesFit (Sys.init P).k := by
  intro r
  cases r with
  | zero => exact (by decide : 1 ≤ 80)
  | succ r => exact (by decide : 1 ≤ 80)

/-- From a state whose names fit, a move leads to one exactly when it is
no fork that prints more than fits. -/
theorem namesFit_move {s s' : Sys} {m : Move} (hno : NoPtrace s.k)
    (h : NamesFit s.k) (hfile : m.FilenameFits)
    (hmove : move P elfLoadBuffer threadJoin s m = some s') :
    NamesFit s'.k ↔ ForkFits s m := by
  have hforked : ∀ p thread, step threadJoin s (.fork p thread) = some s' →
      m.forks = some (p, thread) → (NamesFit s'.k ↔ ForkFits s m) := by
    intro p thread hstep hm
    simp only [step] at hstep
    split at hstep
    next hlive =>
      cases hstep
      have hname : ∀ r, ((doFork s.k p thread).k.pcb r).name
          = if (s.k.pcb p).mainThread = some thread ∧ r = s.k.nextRef then
              childName (s.k.pcb p).name s.k.pidCurrent
            else (s.k.pcb r).name := doFork_name (Nat.ne_of_lt hlive.1)
      simp only [ForkFits, hm, Option.mem_some_iff, forall_eq']
      constructor
      · intro hfit hmain
        have := hfit s.k.nextRef
        rw [hname, if_pos ⟨hmain, rfl⟩, childName_size] at this
        exact this
      · intro hfork r
        rw [hname]
        split
        next hr =>
          rw [childName_size]
          exact hfork hr.1
        next => exact h r
    next => cases hstep
  have hquiet : m.forks = none → NamesFit s'.k →
      (NamesFit s'.k ↔ ForkFits s m) := by
    intro hm hfit
    apply iff_of_true hfit
    intro f hf
    rw [hm] at hf
    cases hf
  cases m with
  | exec p cur joinQueue filename argv envp args mem =>
      apply hquiet rfl
      intro r
      rw [(move_exec_name P elfLoadBuffer threadJoin hmove r).1]
      split
      · exact hfile
      · exact h r
  | fork2 p thread => exact hforked p thread hmove rfl
  | act a =>
      cases hm : (Move.act a).forks with
      | some f =>
          cases a with
          | fork p thread => exact hforked p thread hmove rfl
          | _ => cases hm
      | none =>
          apply hquiet hm
          intro r
          rw [step_name threadJoin hno hm hmove r]
          exact h r

-- ==================================================================== the runs

/-- Among the runs whose file names fit, the names of all processes fit
their field in every state of the run exactly when at every fork the
printed name does. -/
theorem names_fit_iff (moves : List Move) (s : Sys)
    (hrun : run (move P elfLoadBuffer threadJoin) (Sys.init P) moves
      = some s)
    (hfile : ∀ m ∈ moves, m.FilenameFits) :
    (∀ pre post t, moves = pre ++ post →
        run (move P elfLoadBuffer threadJoin) (Sys.init P) pre = some t →
        NamesFit t.k)
      ↔ Along (move P elfLoadBuffer threadJoin) ForkFits (Sys.init P)
        moves := by
  have hkeep : ∀ s m s', NoPtrace s.k →
      move P elfLoadBuffer threadJoin s m = some s' → NoPtrace s'.k :=
    fun s m s' hno hmove =>
      noPtrace_move P elfLoadBuffer threadJoin hno hmove
  have hexact : ∀ s m s', NoPtrace s.k → NamesFit s.k → m.FilenameFits →
      move P elfLoadBuffer threadJoin s m = some s' →
      (NamesFit s'.k ↔ ForkFits s m) := fun s m s' hno h hfile hmove =>
    namesFit_move P elfLoadBuffer threadJoin hno h hfile hmove
  exact forall_prefix_iff_along (I := fun s => NamesFit s.k) hkeep hexact
    (fun r => (init_pcb P r).1) (namesFit_init P) hfile hrun

/-- A loader that finds a one-page image in every file. -/
def anyImage : CString → Option Elf := fun _ => some ⟨0x1000, 1⟩

/-- The root process runs `sh`. -/
def execSh : Move :=
  .exec 0 0 [] nameSh none none 0xC0100000 fun _ => 0

instance (s : Sys) (m : Move) : Decidable (ForkFits s m) := by
  unfold ForkFits
  infer_instance

/-- Two generations of forks from `sh`. -/
theorem names_fit_two_generations :
    ∃ s, run (move .sample anyImage fun _ => none) (Sys.init .sample)
        [execSh, .act (.fork 0 1), .fork2 1 2] = some s
      ∧ NamesFit s.k := by
  obtain ⟨s, hs⟩ : ∃ s, run (move .sample anyImage fun _ => none)
      (Sys.init .sample) [execSh, .act (.fork 0 1), .fork2 1 2] = some s :=
    ⟨_, rfl⟩
  have hfile : ∀ m ∈ [execSh, .act (.fork 0 1), .fork2 1 2],
      m.FilenameFits := by
    simp only [List.forall_mem_cons]
    exact ⟨(by decide : nameSh.size ≤ 80), trivial, trivial, by simp⟩
  have hall := (names_fit_iff .sample anyImage (fun _ => none) _ s hs
    hfile).mpr (by decide)
  exact ⟨s, hs, hall _ [] s rfl hs⟩

/-- Ten generations of forks from `sh`: the last name takes 85 bytes. -/
theorem name_overflow :
    ∃ s, run (move .sample anyImage fun _ => none) (Sys.init .sample)
        (execSh :: (List.range 10).map fun p => .act (.fork p (p + 1)))
          = some s
      ∧ 10 ∈ s.k.procList ∧ (s.k.pcb 10).name.size = 85
      ∧ ¬ NamesFit s.k := by
  obtain ⟨s, hs⟩ : ∃ s, run (move .sample anyImage fun _ => none)
      (Sys.init .sample)
      (execSh :: (List.range 10).map fun p => .act (.fork p (p + 1)))
        = some s := ⟨_, rfl⟩
  have hsize : (s.k.pcb 10).name.size = 85 := by
    cases hs
    rfl
  refine ⟨s, hs, by cases hs; decide, hsize, fun h => ?_⟩
  have := h 10
  rw [hsize] at this
  exact absurd this (by decide)

end SyeLabs.Process
