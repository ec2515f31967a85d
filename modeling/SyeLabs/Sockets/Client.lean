/-
The main loop of the client of socket_client.c, and its signals.

# What is modelled

The steps of the loop of `main` between which a signal can be delivered
(`LoopPc`), and the handlers, each of which is one assignment to
`message_to_send`: a signal counts as delivered when that is made.
`none` is the value 0. What is printed is left out, and so is what
`recv` stores, which is only printed.

# What is recorded

Three fields are no variables of the source: `log` records what is
written and received and that `running` was cleared, `request` what the
first switch read last, and `last` the last signal since then, with the
place the loop stood at when it was delivered.
-/
import SyeLabs.Sockets.Server

namespace SyeLabs.Sockets

-- ===================================================================== signals

/-- The values of `msg_idx_t`. -/
inductive MsgIdx
  | greeting
  | counting
  | quiting
  deriving DecidableEq, Repr

inductive Signal
  | sigint
  | sigusr1
  | sigusr2
  deriving DecidableEq, Repr

/-- What `int_handler` and `user_handler` store. -/
def Signal.handler : Signal → MsgIdx
  | .sigint => .quiting
  | .sigusr1 => .greeting
  | .sigusr2 => .counting

theorem handler_eq_quiting_iff (sig : Signal) :
    sig.handler = .quiting ↔ sig = .sigint := by
  cases sig <;> decide

-- ==================================================================== the loop

/-- Where the loop stands: before the test of `while`, the first switch,
the `write`, the `ZERO_MEMORY`, the second switch, in `recv`, before the
`printf`, before the reset of `message_to_send`, after the loop. -/
inductive LoopPc
  | test
  | switch
  | write
  | zero
  | reswitch
  | recv
  | print
  | reset
  | exited
  deriving DecidableEq, Repr

inductive Event
  | wrote (text : List Byte)
  | received
  | left
  deriving DecidableEq

structure Loop where
  pc : LoopPc
  running : Bool
  alt : Bool
  messageToSend : Option MsgIdx
  buffer : List Byte
  log : List Event
  request : Option MsgIdx
  last : Option (Signal × LoopPc)

/-- The client when it has connected. -/
def Loop.init : Loop where
  pc := .test
  running := true
  alt := true
  messageToSend := none
  buffer := []
  log := []
  request := none
  last := none

inductive LoopAct
  | go
  | signal (sig : Signal)
  deriving DecidableEq, Repr

/-- What the first switch puts into the buffer. -/
def MsgIdx.text (alt : Bool) : MsgIdx → List Byte
  | .greeting => if alt then bonjour else aurevoir
  | .counting => compteur
  | .quiting => quitter

theorem MsgIdx.text_eq_quitter_iff (alt : Bool) (r : MsgIdx) :
    r.text alt = quitter ↔ r = .quiting := by
  cases r <;> cases alt <;> decide

/-- The first switch. Of its cases GREETING turns `alt` around. -/
def Loop.prepare (s : Loop) : Loop :=
  match s.messageToSend with
  | some r =>
      { s with
        pc := .write, buffer := r.text s.alt
        alt := if r = .greeting then !s.alt else s.alt
        request := some r, last := none }
  | none => { s with pc := .test, request := none, last := none }

/-- The second switch: `running = 0`, or the call of `recv`. -/
def Loop.answer (s : Loop) : Loop :=
  match s.messageToSend with
  | some .quiting =>
      { s with pc := .print, running := false, log := s.log ++ [.left] }
  | some .greeting | some .counting =>
      { s with pc := .recv, log := s.log ++ [.received] }
  | none => { s with pc := .print }

/-- One step of the loop, or the delivery of a signal. -/
def loopStep (s : Loop) : LoopAct → Option Loop
  | .go =>
      match s.pc with
      | .test => some { s with pc := if s.running then .switch else .exited }
      | .switch => some s.prepare
      | .write =>
          some { s with pc := .zero, log := s.log ++ [.wrote s.buffer] }
      | .zero =>
          some { s with
            pc := .reswitch, buffer := List.replicate bufferLen 0 }
      | .reswitch => some s.answer
      | .recv => some { s with pc := .print }
      | .print => some { s with pc := .reset }
      | .reset => some { s with pc := .test, messageToSend := none }
      | .exited => none
  | .signal sig =>
      some { s with
        messageToSend := some sig.handler, last := some (sig, s.pc) }

-- =================================================================== the steps

/-- The steps of `loopStep`, each with the guard it is taken under. -/
inductive LoopSteps (s : Loop) : LoopAct → Loop → Prop
  | enter (hpc : s.pc = .test) (hrun : s.running = true) :
      LoopSteps s .go { s with pc := .switch }
  | exit (hpc : s.pc = .test) (hrun : s.running = false) :
      LoopSteps s .go { s with pc := .exited }
  | prepare (hpc : s.pc = .switch) : LoopSteps s .go s.prepare
  | write (hpc : s.pc = .write) :
      LoopSteps s .go
        { s with pc := .zero, log := s.log ++ [.wrote s.buffer] }
  | zero (hpc : s.pc = .zero) :
      LoopSteps s .go
        { s with pc := .reswitch, buffer := List.replicate bufferLen 0 }
  | answer (hpc : s.pc = .reswitch) : LoopSteps s .go s.answer
  | recv (hpc : s.pc = .recv) : LoopSteps s .go { s with pc := .print }
  | print (hpc : s.pc = .print) : LoopSteps s .go { s with pc := .reset }
  | reset (hpc : s.pc = .reset) :
      LoopSteps s .go { s with pc := .test, messageToSend := none }
  | signal (sig : Signal) :
      LoopSteps s (.signal sig) { s with
        messageToSend := some sig.handler, last := some (sig, s.pc) }

theorem loopSteps_of_loopStep {s s' : Loop} {a : LoopAct}
    (hstep : loopStep s a = some s') : LoopSteps s a s' := by
  cases a with
  | signal sig =>
      cases hstep
      exact LoopSteps.signal sig
  | go =>
      simp only [loopStep] at hstep
      split at hstep
      next hpc =>
        cases hstep
        by_cases hrun : s.running = true
        · rw [if_pos hrun]
          exact LoopSteps.enter hpc hrun
        · rw [if_neg hrun]
          exact LoopSteps.exit hpc (Bool.eq_false_iff.mpr hrun)
      next hpc =>
        cases hstep
        exact LoopSteps.prepare hpc
      next hpc =>
        cases hstep
        exact LoopSteps.write hpc
      next hpc =>
        cases hstep
        exact LoopSteps.zero hpc
      next hpc =>
        cases hstep
        exact LoopSteps.answer hpc
      next hpc =>
        cases hstep
        exact LoopSteps.recv hpc
      next hpc =>
        cases hstep
        exact LoopSteps.print hpc
      next hpc =>
        cases hstep
        exact LoopSteps.reset hpc
      next => cases hstep

theorem Loop.prepare_some {s : Loop} {r : MsgIdx}
    (h : s.messageToSend = some r) :
    s.prepare = { s with
      pc := .write, buffer := r.text s.alt
      alt := if r = .greeting then !s.alt else s.alt
      request := some r, last := none } := by
  rw [Loop.prepare]
  split
  next heq =>
    obtain rfl := Option.some.inj (h.symm.trans heq)
    rfl
  next heq => cases h.symm.trans heq

theorem Loop.prepare_none {s : Loop} (h : s.messageToSend = none) :
    s.prepare = { s with pc := .test, request := none, last := none } := by
  rw [Loop.prepare]
  split
  next heq => cases h.symm.trans heq
  next => rfl

@[simp] theorem Loop.prepare_log (s : Loop) : s.prepare.log = s.log := by
  unfold Loop.prepare
  split <;> rfl

@[simp] theorem Loop.prepare_running (s : Loop) :
    s.prepare.running = s.running := by
  unfold Loop.prepare
  split <;> rfl

theorem Loop.prepare_pc (s : Loop) :
    s.prepare.pc = .write ∨ s.prepare.pc = .test := by
  unfold Loop.prepare
  split
  · exact Or.inl rfl
  · exact Or.inr rfl

/-- What the second switch does, where a request is stored. -/
theorem Loop.answer_some {s : Loop} {r : MsgIdx}
    (h : s.messageToSend = some r) :
    s.answer = if r = .quiting then
        { s with pc := .print, running := false, log := s.log ++ [.left] }
      else { s with pc := .recv, log := s.log ++ [.received] } := by
  rw [Loop.answer]
  split
  next heq =>
    obtain rfl := Option.some.inj (h.symm.trans heq)
    exact (if_pos rfl).symm
  next heq =>
    obtain rfl := Option.some.inj (h.symm.trans heq)
    exact (if_neg (by decide)).symm
  next heq =>
    obtain rfl := Option.some.inj (h.symm.trans heq)
    exact (if_neg (by decide)).symm
  next heq => cases h.symm.trans heq

-- =============================================================== the invariant

/-- Where a signal is not overtaken by the reset of an iteration. -/
def Early (pc : LoopPc) : Prop := pc = .test ∨ pc = .switch

instance (pc : LoopPc) : Decidable (Early pc) :=
  inferInstanceAs (Decidable (pc = .test ∨ pc = .switch))

/-- What `message_to_send` holds. Before the first switch it is the last
signal, unless a reset came after it; from there to the reset it is the
last signal since, or else the request that the switch has read. -/
structure LoopInv (s : Loop) : Prop where
  early : Early s.pc → s.messageToSend =
    match s.last with
    | some (sig, place) => if Early place then some sig.handler else none
    | none => none
  late : ¬ Early s.pc → s.pc ≠ .exited → ∃ r, s.request = some r
    ∧ s.messageToSend = some ((s.last.map (·.1.handler)).getD r)
    ∧ ∀ sig place, s.last = some (sig, place) → ¬ Early place
  running : s.pc = .switch ∨ s.pc = .write ∨ s.pc = .zero
    ∨ s.pc = .reswitch ∨ s.pc = .recv → s.running = true
  buffer : s.pc = .write → (s.buffer = quitter ↔ s.request = some .quiting)

theorem LoopInv.init : LoopInv Loop.init :=
  ⟨fun _ => rfl, fun h => absurd (Or.inl rfl) h, fun _ => rfl, nofun⟩

theorem LoopInv.prepare {s : Loop} (hI : LoopInv s) (hpc : s.pc = .switch) :
    LoopInv s.prepare := by
  have hrun := hI.running (Or.inl hpc)
  cases hm : s.messageToSend with
  | some r =>
      rw [Loop.prepare_some hm]
      refine ⟨fun h => absurd h (by decide : ¬ Early .write),
        fun _ _ => ⟨r, rfl, hm, nofun⟩, fun _ => hrun, fun _ => ?_⟩
      rw [MsgIdx.text_eq_quitter_iff, Option.some.injEq]
  | none =>
      rw [Loop.prepare_none hm]
      exact ⟨fun _ => hm, fun h => absurd (Or.inl rfl) h, fun _ => hrun,
        nofun⟩

/-- A step from the first switch to the reset that stores nothing in
`message_to_send`. -/
theorem LoopInv.goto {s : Loop} (hI : LoopInv s) (hfrom : ¬ Early s.pc)
    (hlive : s.pc ≠ .exited) {pc : LoopPc} (hto : ¬ Early pc)
    (hwrite : pc ≠ .write) {running : Bool}
    (hrun : pc = .zero ∨ pc = .reswitch ∨ pc = .recv → running = true)
    (buffer : List Byte) (log : List Event) :
    LoopInv { s with
      pc := pc, running := running, buffer := buffer, log := log } := by
  refine ⟨fun h => absurd h hto, fun _ _ => hI.late hfrom hlive, ?_,
    fun h => absurd h hwrite⟩
  rintro (h | h | h)
  · exact absurd (Or.inr h) hto
  · exact absurd h hwrite
  · exact hrun h

theorem LoopInv.reset {s : Loop} (hI : LoopInv s) (hpc : s.pc = .reset) :
    LoopInv { s with pc := .test, messageToSend := none } := by
  refine ⟨fun _ => ?_, fun h => absurd (Or.inl rfl) h, ?_, nofun⟩
  · obtain ⟨r, -, -, hlate⟩ := hI.late (by simp [hpc, Early]) (by simp [hpc])
    cases hlast : s.last with
    | none => rfl
    | some l => exact (if_neg (hlate l.1 l.2 hlast)).symm
  · rintro (h | h | h | h | h) <;> cases h

theorem LoopInv.signal {s : Loop} (hI : LoopInv s) (sig : Signal) :
    LoopInv { s with
      messageToSend := some sig.handler, last := some (sig, s.pc) } := by
  refine ⟨fun h => ?_, fun h hlive => ?_, hI.running, hI.buffer⟩
  · exact (if_pos h).symm
  · obtain ⟨r, hr, -, -⟩ := hI.late h hlive
    refine ⟨r, hr, rfl, fun _ _ heq => ?_⟩
    cases heq
    exact h

theorem LoopInv.answer {s : Loop} (hI : LoopInv s)
    (hpc : s.pc = .reswitch) : LoopInv s.answer := by
  have hrun := hI.running (by simp [hpc])
  have hfrom : ¬ Early s.pc := by simp [hpc, Early]
  have hlive : s.pc ≠ .exited := by simp [hpc]
  unfold Loop.answer
  split
  · exact hI.goto hfrom hlive (by decide) (by decide) (by decide) _ _
  · exact hI.goto hfrom hlive (by decide) (by decide) (fun _ => hrun) _ _
  · exact hI.goto hfrom hlive (by decide) (by decide) (fun _ => hrun) _ _
  · exact hI.goto hfrom hlive (by decide) (by decide) (fun _ => hrun) _ _

theorem loopInv_step {s s' : Loop} {a : LoopAct} (hI : LoopInv s)
    (hstep : loopStep s a = some s') : LoopInv s' := by
  cases loopSteps_of_loopStep hstep with
  | enter hpc hrun =>
      exact ⟨fun _ => hI.early (Or.inl hpc),
        fun h => absurd (Or.inr rfl) h, fun _ => hrun, nofun⟩
  | exit hpc hrun =>
      refine ⟨fun h => absurd h (by decide : ¬ Early .exited),
        fun _ h => absurd rfl h, ?_, nofun⟩
      rintro (h | h | h | h | h) <;> cases h
  | prepare hpc => exact hI.prepare hpc
  | write hpc =>
      exact hI.goto (by simp [hpc, Early]) (by simp [hpc]) (by decide)
        (by decide) (fun _ => hI.running (by simp [hpc])) _ _
  | zero hpc =>
      exact hI.goto (by simp [hpc, Early]) (by simp [hpc]) (by decide)
        (by decide) (fun _ => hI.running (by simp [hpc])) _ _
  | answer hpc => exact hI.answer hpc
  | recv hpc =>
      exact hI.goto (by simp [hpc, Early]) (by simp [hpc]) (by decide)
        (by decide) (by simp) _ _
  | print hpc =>
      exact hI.goto (by simp [hpc, Early]) (by simp [hpc]) (by decide)
        (by decide) (by simp) _ _
  | reset hpc => exact hI.reset hpc
  | signal sig => exact hI.signal sig

end SyeLabs.Sockets
