/-
What a name longer than its field does to the rest of the PCB.

`strcpy` in `do_execve` and `sprintf` in `do_fork` write the whole of a
name, and `struct pcb` goes on behind its eighty bytes. Counted from the
first byte of `name`, the fields behind it begin at

  bin_image_entry   80      heap_pointer  124      exit_status  144
  stack_top         84      page_count    128      parent       148
  stack_slotID      88      page_list     132      main_thread  152
  heap_base        120      pgtable       140

`Pcb.overrun` writes a name over the words among them that the model
keeps. `stack_slotID` is not among them: the code that reads it is not
part of the repository, and is taken to leave the PCB alone.

# Where the runs stop

A move has a result here (`Followed`) as long as the source says what it
does: until a name reaches `pgtable`, until the list behind an
overwritten `page_list` is used, and until a field is written that lies
under a name. While all names fit, nothing stops and the moves are those
of the process table (`overrunMove_eq`).
-/
import SyeLabs.Process.Names

namespace SyeLabs.Process

open Lib

-- ================================================================== the layout

/-- Where `page_list` begins, counted from `name`. -/
def pageListAt : Nat := 132

/-- Where `pgtable` begins, counted from `name`. -/
def pgtableAt : Nat := 140

/-- A little-endian word of `n` bytes that held `old`, once the bytes of
a string have been written over the first of them. -/
def overrunWord : Nat → List UInt8 → Nat → Nat
  | 0, _, _ => 0
  | _ + 1, [], old => old
  | n + 1, b :: bs, old => b.toNat + 256 * overrunWord n bs (old / 256)

/-- The word `pos` bytes behind the start of the field, once a name and
its NUL are written. -/
def overrunAt (name : CString) (pos old : Nat) : Nat :=
  overrunWord 4 ((name.bytes ++ [0]).drop pos) old

/-- The words behind the field after `name` has been written to it. -/
def Pcb.overrun (pcb : Pcb) (name : CString) : Pcb :=
  { pcb with
    binImageEntry := overrunAt name 80 pcb.binImageEntry
    stackTop := overrunAt name 84 pcb.stackTop
    heapBase := overrunAt name 120 pcb.heapBase
    heapPointer := overrunAt name 124 pcb.heapPointer
    pageCount := overrunAt name 128 pcb.pageCount }

/-- A string that ends before a word leaves it alone. -/
theorem overrunAt_of_le {name : CString} {pos : Nat}
    (h : name.size ≤ pos) (old : Nat) : overrunAt name pos old = old := by
  have hnil : (name.bytes ++ [0]).drop pos = [] := by
    rw [List.drop_eq_nil_iff, List.length_append]
    exact h
  rw [overrunAt, hnil]
  rfl

/-- A name that fits its field stays in it. -/
theorem Pcb.overrun_of_fits {name : CString} (h : name.size ≤ procNameLen)
    (pcb : Pcb) : pcb.overrun name = pcb := by
  have hover : ∀ pos old, procNameLen ≤ pos →
      overrunAt name pos old = old :=
    fun pos old hpos => overrunAt_of_le (h.trans hpos) old
  unfold Pcb.overrun
  rw [hover 80 _ (by decide), hover 84 _ (by decide), hover 120 _ (by decide),
    hover 124 _ (by decide), hover 128 _ (by decide)]

-- =================================================================== the moves

/-- `strcpy` of the file name, the first thing `do_execve` does. -/
def Sys.copied (s : Sys) : Move → Sys
  | .exec p _ _ filename _ _ _ _ =>
      { s with k := s.k.setPcb p fun pcb => pcb.overrun filename }
  | _ => s

/-- `sprintf` of the name of a new child, once its PCB is filled. -/
def Sys.printed (s : Sys) (child : Ref) : Sys :=
  if child < s.k.nextRef then
    { s with k := s.k.setPcb child fun pcb => pcb.overrun pcb.name }
  else s

variable (P : Platform) (elfLoadBuffer : CString → Option Elf)
  (threadJoin : Option Tid → Option Tid)

/-- The source says what a move does: no name reaches `pgtable`, no list
behind an overwritten head is used, and a name that is too long is left
where it is. -/
def Followed (s : Sys) : Move → Prop
  | .exec p _ _ filename _ _ _ _ =>
      (s.k.pcb p).name.size ≤ pageListAt
        ∧ (filename.size ≤ procNameLen
          ∨ elfLoadBuffer filename = none ∧ filename.size ≤ pgtableAt)
  | .fork2 p thread | .act (.fork p thread) =>
      (s.k.pcb p).mainThread = some thread →
        (childName (s.k.pcb p).name s.k.pidCurrent).size ≤ pgtableAt
  | .act (.exit p _) => (s.k.pcb p).name.size ≤ pageListAt
  | .act _ => True

instance (s : Sys) : (m : Move) → Decidable (Followed elfLoadBuffer s m)
  | .exec _ _ _ _ _ _ _ _ =>
      decidable_of_iff (_ ∧ (_ ∨ Option.isNone _ = true ∧ _))
        (by rw [Followed, Option.isNone_iff_eq_none])
  | .fork2 _ _ => inferInstanceAs (Decidable (_ = _ → _ ≤ _))
  | .act (.fork _ _) => inferInstanceAs (Decidable (_ = _ → _ ≤ _))
  | .act (.exit _ _) => inferInstanceAs (Decidable (_ ≤ _))
  | .act (.wait _ _ _ _) => inferInstanceAs (Decidable True)
  | .act (.resume _) => inferInstanceAs (Decidable True)
  | .act (.sched _ _) => inferInstanceAs (Decidable True)

/-- One move, with what it writes past the field of a name. -/
def overrunMove (s : Sys) (m : Move) : Option Sys :=
  if Followed elfLoadBuffer s m then
    (move P elfLoadBuffer threadJoin (s.copied m) m).map fun s' =>
      s'.printed s.k.nextRef
  else none

/-- What a move writes as a name fits the field. -/
def Move.Fits (s : Sys) (m : Move) : Prop :=
  m.FilenameFits ∧ ForkFits s m

instance (s : Sys) : (m : Move) → Decidable (m.Fits s)
  | .exec _ _ _ _ _ _ _ _ => inferInstanceAs (Decidable (_ ≤ _ ∧ _))
  | .fork2 _ _ => inferInstanceAs (Decidable (True ∧ _))
  | .act _ => inferInstanceAs (Decidable (True ∧ _))

-- ============================================================= while names fit

variable {P elfLoadBuffer threadJoin}

/-- Writing over a PCB what it holds changes nothing. -/
theorem setPcb_self {k : Procs} {p : Ref} {f : Pcb → Pcb}
    (h : f (k.pcb p) = k.pcb p) : k.setPcb p f = k := by
  unfold Procs.setPcb
  rw [h, Function.update_eq_self]

theorem copied_of_fits {s : Sys} {m : Move} (h : m.FilenameFits) :
    s.copied m = s := by
  cases m with
  | exec p cur joinQueue filename argv envp args mem =>
      have hself : s.k.setPcb p (fun pcb => pcb.overrun filename) = s.k :=
        setPcb_self (Pcb.overrun_of_fits h (s.k.pcb p))
      rw [Sys.copied, hself]
  | fork2 p thread => rfl
  | act a => rfl

theorem printed_of_fits {s : Sys} (h : NamesFit s.k) (child : Ref) :
    s.printed child = s := by
  have hself : s.k.setPcb child (fun pcb => pcb.overrun pcb.name) = s.k :=
    setPcb_self (Pcb.overrun_of_fits (h child) (s.k.pcb child))
  unfold Sys.printed
  rw [hself]
  split <;> rfl

/-- From names that fit, a move that writes such names is followed. -/
theorem followed_of_fits {s : Sys} {m : Move} (h : NamesFit s.k)
    (hm : m.Fits s) : Followed elfLoadBuffer s m := by
  obtain ⟨hfile, hfork⟩ := hm
  have hlist : ∀ r, (s.k.pcb r).name.size ≤ pageListAt := fun r =>
    (h r).trans (by decide)
  have hchild : ∀ p thread, m.forks = some (p, thread) →
      (s.k.pcb p).mainThread = some thread →
      (childName (s.k.pcb p).name s.k.pidCurrent).size ≤ pgtableAt := by
    intro p thread hf hmain
    rw [childName_size]
    exact (hfork (p, thread) hf hmain).trans (by decide)
  cases m with
  | exec p cur joinQueue filename argv envp args mem =>
      exact ⟨hlist p, Or.inl hfile⟩
  | fork2 p thread => exact hchild p thread rfl
  | act a =>
      cases a with
      | fork p thread => exact hchild p thread rfl
      | exit p status => exact hlist p
      | _ => trivial

/-- While all names fit, the moves are those of the process table. -/
theorem overrunMove_eq {s : Sys} {m : Move} (hno : NoPtrace s.k)
    (h : NamesFit s.k) (hm : m.Fits s) :
    overrunMove P elfLoadBuffer threadJoin s m
      = move P elfLoadBuffer threadJoin s m := by
  rw [overrunMove, if_pos (followed_of_fits h hm), copied_of_fits hm.1]
  cases hmove : move P elfLoadBuffer threadJoin s m with
  | none => rfl
  | some s' =>
      have hfit : NamesFit s'.k :=
        (namesFit_move P elfLoadBuffer threadJoin hno h hm.1 hmove).mpr hm.2
      exact congrArg some (printed_of_fits hfit _)

end SyeLabs.Process
