/-
The program break and `do_sbrk`.

# The break

The heap of a process is an area of `HEAP_SIZE` bytes from `heap_base`
on, and `heap_pointer` is the break in it. `Brk` is that break as its
distance from the base, with the bound it keeps as a field; it moves by
an exact integer or not at all.

`do_sbrk` computes with `int`: the distance from the base, plus the
increment of the caller, modulo 2^32. From a break in its heap a sum
that wraps comes out negative and is refused like every other sum below
zero, so that `do_sbrk` moves the break as `Brk` does (`doSbrk_eq`).

# The runs

A heap begins empty where an image is loaded, a fork copies base and
break, and no other action on the process table touches them, as long as
every name fits its field: `heap_base` and `heap_pointer` lie behind it
in the PCB, and the fifteenth child in a row after `sh` is printed over
them (`printed_over_heap`). The runs are those of `overrunMove` with
`do_sbrk` calls of any process between the moves.
-/
import SyeLabs.Process.Overrun

namespace SyeLabs.Process

open Lib

-- =================================================================== the break

/-- A break in an area of `size` bytes, as its distance from the base. -/
@[ext]
structure Brk (size : Nat) where
  used : Nat
  used_lt : used < size

/-- Move the break by an integer, if it stays in the area. -/
def Brk.move {size : Nat} (b : Brk size) (increment : Int) :
    Option (Brk size) :=
  if h : 0 ≤ b.used + increment ∧ b.used + increment < size then
    some ⟨(b.used + increment).toNat, by omega⟩
  else none

theorem Brk.move_eq_some {size : Nat} {b b' : Brk size} {increment : Int} :
    b.move increment = some b' ↔ (b'.used : Int) = b.used + increment := by
  have hb' := b'.used_lt
  unfold Brk.move
  split
  next h =>
    rw [Option.some_inj, Brk.ext_iff]
    dsimp only
    omega
  next h =>
    simp only [reduceCtorEq, false_iff]
    omega

theorem Brk.move_eq_none {size : Nat} {b : Brk size} {increment : Int} :
    b.move increment = none
      ↔ ¬ (0 ≤ b.used + increment ∧ b.used + increment < size) := by
  unfold Brk.move
  split
  next h => simp [h]
  next h => simp [h]

/-- The heap of a process: its break lies in it, and it lies below
2^31. -/
structure InHeap (P : Platform) (pcb : Pcb) : Prop where
  base_le : pcb.heapBase ≤ pcb.heapPointer
  lt : pcb.heapPointer < pcb.heapBase + P.heapSize
  room : pcb.heapBase + P.heapSize < 2147483648

/-- The break of a process. -/
def InHeap.brk {P : Platform} {pcb : Pcb} (h : InHeap P pcb) :
    Brk P.heapSize where
  used := pcb.heapPointer - pcb.heapBase
  used_lt := by
    have := h.base_le
    have := h.lt
    omega

/-- `int` arithmetic on a distance below 2^31 and an increment: the sum
is exact or wraps to a negative number. -/
theorem toInt_ofNat_add {n : Nat} (hn : n < 2147483648) (i : BitVec 32) :
    (BitVec.ofNat 32 n + i).toInt
      = if (n : Int) + i.toInt < 2147483648 then n + i.toInt
        else n + i.toInt - 4294967296 := by
  have hi := i.isLt
  have hsum : (BitVec.ofNat 32 n + i).toNat = (n + i.toNat) % 4294967296 := by
    rw [BitVec.toNat_add, BitVec.toNat_ofNat, Nat.mod_add_mod]
  rw [BitVec.toInt_eq_toNat_cond, hsum, BitVec.toInt_eq_toNat_cond]
  split <;> split <;> split <;> omega

/-- `do_sbrk` moves the break exactly or refuses. -/
theorem doSbrk_eq {P : Platform} {pcb : Pcb} (h : InHeap P pcb)
    (increment : BitVec 32) :
    doSbrk P (some pcb) increment
      = match h.brk.move increment.toInt with
        | none => .error .ENOMEM
        | some b =>
            .ok ({ pcb with heapPointer := pcb.heapBase + b.used },
              BitVec.ofNat 32 pcb.heapPointer) := by
  obtain ⟨hbase, hlt, hroom⟩ := h
  have hcur : BitVec.ofNat 32 pcb.heapPointer - BitVec.ofNat 32 pcb.heapBase
      = BitVec.ofNat 32 (pcb.heapPointer - pcb.heapBase) := by
    apply BitVec.eq_of_toNat_eq
    rw [BitVec.toNat_sub_of_le]
    · simp only [BitVec.toNat_ofNat]
      omega
    · rw [BitVec.le_def]
      simp only [BitVec.toNat_ofNat]
      omega
  have hreq := toInt_ofNat_add
    (show pcb.heapPointer - pcb.heapBase < 2147483648 by omega) increment
  have hnew := toInt_ofNat_add
    (show pcb.heapPointer < 2147483648 by omega) increment
  have hmax : increment.toInt < 2147483648 := BitVec.toInt_lt
  unfold doSbrk
  dsimp only
  rw [hcur, hreq]
  cases hmove : (InHeap.brk ⟨hbase, hlt, hroom⟩).move increment.toInt with
  | none =>
      have hout := Brk.move_eq_none.mp hmove
      simp only [InHeap.brk] at hout
      rw [if_pos]
      split <;> omega
  | some b =>
      have hin := Brk.move_eq_some.mp hmove
      have hb := b.used_lt
      simp only [InHeap.brk] at hin
      rw [if_neg (by split <;> omega)]
      have hto : (BitVec.ofNat 32 pcb.heapPointer + increment).toNat
          = pcb.heapBase + b.used := by
        rw [if_pos (by omega)] at hnew
        rw [BitVec.toInt_eq_toNat_cond] at hnew
        split at hnew <;> omega
      rw [hto]

-- ==================================================================== the runs

/-- What a process does next: call `do_sbrk`, or one of the moves. -/
inductive HeapMove
  | sbrk (p : Ref) (increment : BitVec 32)
  | move (m : Move)

/-- `do_sbrk` called by a thread of `p`: the state it leaves and the value
it returns. -/
def callSbrk (P : Platform) (s : Sys) (p : Ref) (increment : BitVec 32) :
    Sys × BitVec 32 :=
  match doSbrk P (some (s.k.pcb p)) increment with
  | .ok (pcb, ret) => ({ s with k := s.k.setPcb p fun _ => pcb }, ret)
  | .error _ => (s, -1)

variable (P : Platform) (elfLoadBuffer : CString → Option Elf)
  (threadJoin : Option Tid → Option Tid)

/-- Where `heap_pointer` begins, counted from `name`. -/
def heapPointerAt : Nat := 124

/-- One move. A call of `do_sbrk` that would write into a name has no
result. -/
def heapMove (s : Sys) : HeapMove → Option Sys
  | .sbrk p increment =>
      if Live s.k p ∧ (s.k.pcb p).name.size ≤ heapPointerAt then
        some (callSbrk P s p increment).1
      else none
  | .move m => overrunMove P elfLoadBuffer threadJoin s m

/-- Where the heap of an image begins. -/
def heapStart (elf : Elf) : Nat :=
  (imageFields P elf (resetProcessStack P (freshPcb 0))).heapBase

/-- The heap of a loaded image ends below 2^31. -/
def HeapMove.HeapFits : HeapMove → Prop
  | .move (.exec _ _ _ filename _ _ _ _) =>
      ∀ elf ∈ elfLoadBuffer filename, heapStart P elf + P.heapSize < 2147483648
  | _ => True

/-- What a move writes as a name fits the field. -/
def HeapMove.NamesFit (s : Sys) : HeapMove → Prop
  | .move m => m.Fits s
  | .sbrk _ _ => True

instance (s : Sys) : (m : HeapMove) → Decidable (m.NamesFit s)
  | .move m => inferInstanceAs (Decidable (m.Fits s))
  | .sbrk _ _ => inferInstanceAs (Decidable True)

/-- The heaps of all processes keep their bounds, every name is in its
field, and nobody is traced, so that the cases of `Stepped` apply. -/
structure HeapInv (s : Sys) : Prop where
  noPtrace : NoPtrace s.k
  names : NamesFit s.k
  inHeap : ∀ r, InHeap P (s.k.pcb r)

/-- A call of `do_sbrk` with an increment, exactly: within the area it
moves the break and returns the old one, otherwise it returns -1 and
changes nothing. -/
def SbrkExact (s : Sys) (p : Ref) (increment : BitVec 32) : Prop :=
  let pcb := s.k.pcb p
  let size : Int := pcb.heapPointer - pcb.heapBase + increment.toInt
  if 0 ≤ size ∧ size < P.heapSize then
    ∃ brk : Nat, (brk : Int) = pcb.heapPointer + increment.toInt
      ∧ (callSbrk P s p increment).1
        = { s with
          k := s.k.setPcb p fun pcb => { pcb with heapPointer := brk } }
      ∧ (callSbrk P s p increment).2.toInt = pcb.heapPointer
  else
    (callSbrk P s p increment).1 = s
      ∧ (callSbrk P s p increment).2.toInt = -1

-- ============================================================ what a move does

/-- Two PCBs with one heap. -/
def SameHeap (pcb pcb' : Pcb) : Prop :=
  pcb.heapBase = pcb'.heapBase ∧ pcb.heapPointer = pcb'.heapPointer

variable {P elfLoadBuffer threadJoin}

theorem InHeap.same {pcb pcb' : Pcb} (h : InHeap P pcb')
    (hsame : SameHeap pcb pcb') : InHeap P pcb := by
  obtain ⟨hbase, hptr⟩ := hsame
  obtain ⟨hle, hlt, hroom⟩ := h
  constructor
  · rw [hbase, hptr]
    exact hle
  · rw [hbase, hptr]
    exact hlt
  · rw [hbase]
    exact hroom

theorem sbrkExact {s : Sys} {p : Ref} (h : InHeap P (s.k.pcb p))
    (increment : BitVec 32) : SbrkExact P s p increment := by
  have hbase := h.base_le
  have hlt := h.lt
  have hroom := h.room
  have heq := doSbrk_eq h increment
  unfold SbrkExact callSbrk
  dsimp only
  cases hmove : h.brk.move increment.toInt with
  | none =>
      have hout := Brk.move_eq_none.mp hmove
      simp only [InHeap.brk] at hout
      rw [if_neg (by omega), heq, hmove]
      exact ⟨rfl, rfl⟩
  | some b =>
      have hin := Brk.move_eq_some.mp hmove
      have hb := b.used_lt
      simp only [InHeap.brk] at hin
      rw [if_pos (by omega), heq, hmove]
      refine ⟨(s.k.pcb p).heapBase + b.used, by omega, ?_, ?_⟩
      · rfl
      · rw [BitVec.toInt_ofNat']
        exact Int.bmod_eq_of_le (by omega) (by omega)

/-- A call of `do_sbrk` leaves every process in its heap. -/
theorem inHeap_callSbrk {s : Sys} {p : Ref} (h : ∀ r, InHeap P (s.k.pcb r))
    (increment : BitVec 32) (r : Ref) :
    InHeap P ((callSbrk P s p increment).1.k.pcb r) := by
  have heq := doSbrk_eq (h p) increment
  unfold callSbrk
  cases hmove : (h p).brk.move increment.toInt with
  | none =>
      rw [heq, hmove]
      exact h r
  | some b =>
      have hroom := (h p).room
      have hb := b.used_lt
      rw [heq, hmove]
      dsimp only
      rw [setPcb_pcb]
      split
      · constructor
        · exact Nat.le_add_right _ _
        · exact Nat.add_lt_add_left hb _
        · exact hroom
      · exact h r

/-- A fork gives the child the heap of its parent. -/
theorem doFork_heap (k : Procs) (p : Ref) (thread : Tid) (r : Ref) :
    ∃ q, SameHeap ((doFork k p thread).k.pcb r) (k.pcb q) := by
  by_cases h : (k.pcb p).mainThread = some thread
  · by_cases hr : r = k.nextRef
    · obtain ⟨name, hchild, -⟩ := doFork_child h
      refine ⟨p, ?_⟩
      rw [hr, hchild]
      exact ⟨rfl, rfl⟩
    · obtain ⟨hf, -⟩ := doFork_main h
      exact ⟨r, by rw [hf.others r hr]; exact ⟨rfl, rfl⟩⟩
  · rw [doFork_of_not_main h]
    exact ⟨r, rfl, rfl⟩

/-- No action on the process table moves a break. -/
theorem step_heap {s s' : Sys} {a : Act} (hno : NoPtrace s.k)
    (hstep : step threadJoin s a = some s') (r : Ref) :
    ∃ q, SameHeap (s'.k.pcb r) (s.k.pcb q) := by
  cases step_stepped threadJoin hno hstep with
  | idle on _ => exact ⟨r, rfl, rfl⟩
  | @forked p thread k' hlive _ =>
      simp only [step, if_pos hlive, Option.some.injEq, Sys.mk.injEq] at hstep
      rw [← hstep.1]
      exact doFork_heap s.k p thread r
  | exited _ _ =>
      refine ⟨r, ?_⟩
      rw [setPcb_pcb]
      split <;> exact ⟨rfl, rfl⟩
  | scheduled _ _ =>
      refine ⟨r, ?_⟩
      rw [setPcb_pcb]
      split <;> exact ⟨rfl, rfl⟩
  | blocked _ _ => exact ⟨r, rfl, rfl⟩
  | reaped _ hr =>
      obtain ⟨t, ht⟩ := hr.pcb r
      exact ⟨r, by rw [ht]; exact ⟨rfl, rfl⟩⟩
  | resumed _ hr =>
      obtain ⟨t, ht⟩ := hr.pcb r
      exact ⟨r, by rw [ht]; exact ⟨rfl, rfl⟩⟩

/-- A process that is given an image gets an empty heap with it; an
execution that fails leaves the heaps alone. -/
theorem move_exec_heap {s s' : Sys} {p : Ref} {cur : Tid}
    {joinQueue : List Ref} {filename : CString}
    {argv envp : Option (List CString)} {args : Nat} {m : ByteMem}
    (hmove : move P elfLoadBuffer threadJoin s
      (.exec p cur joinQueue filename argv envp args m) = some s') (r : Ref) :
    SameHeap (s'.k.pcb r) (s.k.pcb r)
      ∨ ∃ elf ∈ elfLoadBuffer filename,
        (s'.k.pcb r).heapBase = heapStart P elf
          ∧ (s'.k.pcb r).heapPointer = heapStart P elf := by
  rcases move_exec P elfLoadBuffer threadJoin hmove
    with hk | ⟨elf, helf, hpcb⟩
  · rw [hk, setPcb_pcb]
    split <;> exact Or.inl ⟨rfl, rfl⟩
  · rw [hpcb]
    split
    · exact Or.inr ⟨elf, helf, rfl, rfl⟩
    · exact Or.inl ⟨rfl, rfl⟩

theorem heapInv_move (hpos : 0 < P.heapSize) {s s' : Sys} {m : HeapMove}
    (h : HeapInv P s) (hfits : m.HeapFits P elfLoadBuffer)
    (hnames : m.NamesFit s)
    (hmove : heapMove P elfLoadBuffer threadJoin s m = some s') :
    HeapInv P s' := by
  obtain ⟨hno, hname, hheap⟩ := h
  cases m with
  | sbrk p increment =>
      simp only [heapMove] at hmove
      split at hmove
      next =>
        cases hmove
        have hsame : ∀ r, ∃ ptr, (callSbrk P s p increment).1.k.pcb r
            = { s.k.pcb r with heapPointer := ptr } := by
          intro r
          rw [callSbrk, doSbrk_eq (hheap p)]
          cases (hheap p).brk.move increment.toInt with
          | none => exact ⟨_, rfl⟩
          | some b =>
              dsimp only
              rw [setPcb_pcb]
              split
              next hr => exact ⟨_, by rw [hr]⟩
              next => exact ⟨_, rfl⟩
        refine ⟨fun r => ?_, fun r => ?_, inHeap_callSbrk hheap increment⟩
        · obtain ⟨ptr, hptr⟩ := hsame r
          rw [hptr]
          exact hno r
        · obtain ⟨ptr, hptr⟩ := hsame r
          rw [hptr]
          exact hname r
      next => cases hmove
  | move m =>
      rw [heapMove, overrunMove_eq hno hname hnames] at hmove
      refine ⟨noPtrace_move P elfLoadBuffer threadJoin hno hmove,
        (namesFit_move P elfLoadBuffer threadJoin hno hname hnames.1
          hmove).mpr hnames.2, fun r => ?_⟩
      have hstepped : ∀ a, step threadJoin s a = some s' →
          InHeap P (s'.k.pcb r) := by
        intro a hstep
        obtain ⟨q, hsame⟩ := step_heap hno hstep r
        exact (hheap q).same hsame
      cases m with
      | exec p cur joinQueue filename argv envp args m =>
          rcases move_exec_heap hmove r with hsame | ⟨elf, helf, hbase, hptr⟩
          · exact (hheap r).same hsame
          · constructor
            · rw [hbase, hptr]
            · rw [hbase, hptr]
              exact Nat.lt_add_of_pos_right hpos
            · rw [hbase]
              exact hfits elf helf
      | fork2 p thread => exact hstepped (.fork p thread) hmove
      | act a => exact hstepped a hmove

-- =============================================================== the guarantee

variable (P elfLoadBuffer threadJoin)

/-- In every state of every run of `do_sbrk` calls, executions, forks and
the other actions that writes no name past its field, each process has
its break in its heap, and every call of `do_sbrk` is exact. -/
theorem sbrk_in_heap (hpos : 0 < P.heapSize)
    (hsize : P.heapSize < 2147483648) (moves : List HeapMove) (s : Sys)
    (hfits : ∀ m ∈ moves, m.HeapFits P elfLoadBuffer)
    (hnames : Along (heapMove P elfLoadBuffer threadJoin) HeapMove.NamesFit
      (Sys.init P) moves)
    (hrun : run (heapMove P elfLoadBuffer threadJoin) (Sys.init P) moves
      = some s) :
    ∀ r, (s.k.pcb r).heapBase ≤ (s.k.pcb r).heapPointer
      ∧ (s.k.pcb r).heapPointer < (s.k.pcb r).heapBase + P.heapSize
      ∧ ∀ increment, SbrkExact P s r increment := by
  have hinit : HeapInv P (Sys.init P) := by
    refine ⟨fun r => (init_pcb P r).1, namesFit_init P, fun r => ?_⟩
    have hzero : ((Sys.init P).k.pcb r).heapBase = 0
        ∧ ((Sys.init P).k.pcb r).heapPointer = 0 := by
      cases r with
      | zero => exact ⟨rfl, rfl⟩
      | succ r => exact ⟨rfl, rfl⟩
    obtain ⟨hbase, hptr⟩ := hzero
    constructor
    · rw [hbase]
      exact Nat.zero_le _
    · rw [hbase, hptr, Nat.zero_add]
      exact hpos
    · rw [hbase, Nat.zero_add]
      exact hsize
  have hinv : HeapInv P s :=
    run_inv_along
      (fun _ _ _ h hm hmove => heapInv_move hpos h hm.1 hm.2 hmove)
      hinit ((along_of_forall hfits _).and hnames) hrun
  intro r
  have hr := hinv.inHeap r
  exact ⟨hr.base_le, hr.lt, sbrkExact hr⟩

/-- The root process loads `sh`, takes 4096 bytes, forks; the child asks
for 4096 more, one too many, and gives the parent's 4096 back. -/
theorem sbrk_in_heap_sh :
    ∃ s, run (heapMove .sample anyImage fun _ => none) (Sys.init .sample)
        [.move execSh, .sbrk 0 4096, .move (.act (.fork 0 1)),
          .sbrk 1 4096, .sbrk 1 (-4096)] = some s
      ∧ (s.k.pcb 0).heapPointer = (s.k.pcb 0).heapBase + 4096
      ∧ (s.k.pcb 1).heapPointer = (s.k.pcb 1).heapBase
      ∧ SbrkExact .sample s 1 0x7FFFFFFF := by
  have hret : (run (heapMove .sample anyImage fun _ => none)
      (Sys.init .sample) [.move execSh, .sbrk 0 4096,
        .move (.act (.fork 0 1)), .sbrk 1 4096, .sbrk 1 (-4096)]).any
        (fun s =>
          (s.k.pcb 0).heapPointer = (s.k.pcb 0).heapBase + 4096
            ∧ (s.k.pcb 1).heapPointer = (s.k.pcb 1).heapBase) = true := by
    decide +kernel
  obtain ⟨s, hs, hheaps⟩ := (Option.any_eq_true _ _).mp hret
  obtain ⟨hroot, hchild⟩ := of_decide_eq_true hheaps
  have hfits : ∀ m ∈ [.move execSh, .sbrk 0 4096,
      .move (.act (.fork 0 1)), .sbrk 1 4096, .sbrk 1 (-4096)],
      HeapMove.HeapFits .sample anyImage m := by
    simp only [List.forall_mem_cons]
    refine ⟨fun elf helf => ?_, trivial, trivial, trivial, trivial, by simp⟩
    obtain rfl : ⟨0x1000, 1⟩ = elf := Option.some.inj helf
    decide
  have hall := sbrk_in_heap .sample anyImage (fun _ => none) (by decide)
    (by decide) _ s hfits (by decide +kernel) hs
  exact ⟨s, hs, hroot, hchild, (hall 1).2.2 _⟩

/-- Fifteen generations of forks from `sh`: the name of the last child
runs over its `heap_base` and `heap_pointer`. -/
theorem printed_over_heap :
    ∃ s, run (heapMove .sample anyImage fun _ => none) (Sys.init .sample)
        (.move execSh
          :: (List.range 15).map fun p => .move (.act (.fork p (p + 1))))
          = some s
      ∧ 15 ∈ s.k.procList ∧ Live s.k 15
      ∧ (s.k.pcb 15).heapBase + Platform.sample.heapSize < 2147483648
      ∧ (s.k.pcb 15).heapPointer < (s.k.pcb 15).heapBase := by
  have hret : (run (heapMove .sample anyImage fun _ => none)
      (Sys.init .sample) (.move execSh
        :: (List.range 15).map fun p => .move (.act (.fork p (p + 1))))).any
        (fun s => 15 ∈ s.k.procList ∧ Live s.k 15
          ∧ (s.k.pcb 15).heapBase + Platform.sample.heapSize < 2147483648
          ∧ (s.k.pcb 15).heapPointer < (s.k.pcb 15).heapBase) = true := by
    decide +kernel
  obtain ⟨s, hs, hbroken⟩ := (Option.any_eq_true _ _).mp hret
  exact ⟨s, hs, of_decide_eq_true hbroken⟩

end SyeLabs.Process
