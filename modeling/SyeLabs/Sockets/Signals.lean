/-
What the client writes and which requests it loses.

# A coherent record

`Coherent` says what the record of a client should look like: texts that
are no Quitter, each followed by one `recv`, and at the end perhaps a
text that is not answered yet, or Quitter, on which the client leaves.
`Phase.next` reads a record event by event; a record is coherent if it is
read to its end (`coherent_iff`).

# Where the two switches differ

The record stays coherent as long as the second switch finds the request
that the first one has read, or one that leads to the same case
(`Agrees`), and a request is seen as long as no reset overtakes it
(`NotOvertaken`).
-/
import Mathlib.Data.List.Induction
import SyeLabs.Lib.Run
import SyeLabs.Sockets.Client

namespace SyeLabs.Sockets

open Lib

-- ================================================================== the record

/-- Texts written, each with the `recv` after it. -/
def exchanges (ts : List (List Byte)) : List Event :=
  ts.flatMap fun t => [.wrote t, .received]

/-- A record in which the client leaves on Quitter and only then, and
every other text is followed by one `recv` before the next one. -/
def Coherent (log : List Event) : Prop :=
  ∃ ts, quitter ∉ ts ∧ (log = exchanges ts
    ∨ (∃ t, log = exchanges ts ++ [.wrote t])
    ∨ log = exchanges ts ++ [.wrote quitter, .left])

/-- How far a coherent record has come. -/
inductive Phase
  | idle
  | sent (text : List Byte)
  | left
  deriving DecidableEq

def Phase.next : Phase → Event → Option Phase
  | .idle, .wrote t => some (.sent t)
  | .sent t, .received => if t = quitter then none else some .idle
  | .sent t, .left => if t = quitter then some .left else none
  | _, _ => none

/-- The records after which the phase is `p`. -/
def Phase.Reads (log : List Event) : Phase → Prop
  | .idle => ∃ ts, quitter ∉ ts ∧ log = exchanges ts
  | .sent t => ∃ ts, quitter ∉ ts ∧ log = exchanges ts ++ [.wrote t]
  | .left =>
      ∃ ts, quitter ∉ ts ∧ log = exchanges ts ++ [.wrote quitter, .left]

theorem exchanges_concat (ts : List (List Byte)) (t : List Byte) :
    exchanges (ts ++ [t]) = exchanges ts ++ [.wrote t, .received] := by
  rw [exchanges, List.flatMap_append]
  rfl

theorem run_exchanges {ts : List (List Byte)} (hts : quitter ∉ ts) :
    run Phase.next .idle (exchanges ts) = some .idle := by
  induction ts with
  | nil => rfl
  | cons t ts ih =>
      have hne : t ≠ quitter := fun h => hts (h ▸ List.mem_cons_self)
      have hstep : run Phase.next .idle [.wrote t, .received] = some .idle := by
        simp [run_cons, Phase.next, hne]
      have hrest := ih fun h => hts (List.mem_cons_of_mem t h)
      rw [exchanges, List.flatMap_cons, run_append, hstep]
      exact hrest

theorem run_of_reads {log : List Event} {p : Phase} (h : p.Reads log) :
    run Phase.next .idle log = some p := by
  cases p with
  | idle =>
      obtain ⟨ts, hts, rfl⟩ := h
      exact run_exchanges hts
  | sent t =>
      obtain ⟨ts, hts, rfl⟩ := h
      rw [run_append, run_exchanges hts]
      rfl
  | left =>
      obtain ⟨ts, hts, rfl⟩ := h
      rw [run_append, run_exchanges hts]
      rfl

theorem Phase.Reads.next {log : List Event} {p q : Phase} {e : Event}
    (h : p.Reads log) (hnext : p.next e = some q) :
    q.Reads (log ++ [e]) := by
  cases p with
  | idle =>
      cases e with
      | wrote t =>
          cases hnext
          obtain ⟨ts, hts, rfl⟩ := h
          exact ⟨ts, hts, rfl⟩
      | received => cases hnext
      | left => cases hnext
  | sent t =>
      obtain ⟨ts, hts, rfl⟩ := h
      cases e with
      | wrote _ => cases hnext
      | received =>
          obtain ⟨hne, heq⟩ := Option.ite_none_left_eq_some.mp hnext
          cases heq
          refine ⟨ts ++ [t], ?_, ?_⟩
          · rw [List.mem_append, List.mem_singleton, not_or]
            exact ⟨hts, Ne.symm hne⟩
          · rw [exchanges_concat, List.append_assoc]
            rfl
      | left =>
          obtain ⟨rfl, heq⟩ := Option.ite_none_right_eq_some.mp hnext
          cases heq
          exact ⟨ts, hts, List.append_assoc _ _ _⟩
  | left => cases e <;> cases hnext

theorem run_next_eq_some_iff {log : List Event} {p : Phase} :
    run Phase.next .idle log = some p ↔ p.Reads log := by
  refine ⟨fun h => ?_, run_of_reads⟩
  induction log using List.reverseRecOn generalizing p with
  | nil =>
      cases h
      exact ⟨[], List.not_mem_nil, rfl⟩
  | append_singleton log e ih =>
      rw [run_concat] at h
      obtain ⟨q, hq, hlast⟩ := Option.bind_eq_some_iff.mp h
      exact (ih hq).next hlast

/-- A record is coherent if it is read to its end. -/
theorem coherent_iff {log : List Event} :
    Coherent log ↔ ∃ p, run Phase.next .idle log = some p := by
  simp only [run_next_eq_some_iff]
  constructor
  · rintro ⟨ts, hts, rfl | ⟨t, rfl⟩ | rfl⟩
    · exact ⟨.idle, ts, hts, rfl⟩
    · exact ⟨.sent t, ts, hts, rfl⟩
    · exact ⟨.left, ts, hts, rfl⟩
  · rintro ⟨p, h⟩
    cases p with
    | idle =>
        obtain ⟨ts, hts, heq⟩ := h
        exact ⟨ts, hts, Or.inl heq⟩
    | sent t =>
        obtain ⟨ts, hts, heq⟩ := h
        exact ⟨ts, hts, Or.inr (Or.inl ⟨t, heq⟩)⟩
    | left =>
        obtain ⟨ts, hts, heq⟩ := h
        exact ⟨ts, hts, Or.inr (Or.inr heq)⟩

-- ===================================================================== leaving

theorem left_mem_concat {log : List Event} {e : Event} (he : e ≠ .left) :
    .left ∈ log ++ [e] ↔ .left ∈ log := by
  rw [List.mem_append, List.mem_singleton, or_iff_left (Ne.symm he)]

/-- `left` is recorded when `running` is cleared. -/
theorem left_mem_step {s s' : Loop} {a : LoopAct}
    (hleft : .left ∈ s.log ↔ s.running = false)
    (hstep : loopStep s a = some s') :
    .left ∈ s'.log ↔ s'.running = false := by
  cases loopSteps_of_loopStep hstep with
  | write _ =>
      have hne : Event.wrote s.buffer ≠ .left := by simp
      exact (left_mem_concat hne).trans hleft
  | answer _ =>
      unfold Loop.answer
      split
      · exact iff_of_true (List.mem_append_right _ List.mem_cons_self) rfl
      · exact (left_mem_concat (by decide)).trans hleft
      · exact (left_mem_concat (by decide)).trans hleft
      · exact hleft
  | prepare _ =>
      rw [Loop.prepare_log, Loop.prepare_running]
      exact hleft
  | _ => exact hleft

/-- In every run the loop is left at the test after `left` was
recorded, and only then. -/
theorem exits_iff_left_mem {acts : List LoopAct} {s : Loop}
    (hrun : run loopStep Loop.init acts = some s) (hpc : s.pc = .test) :
    loopStep s .go = some { s with pc := .exited } ↔ .left ∈ s.log := by
  have hleft : .left ∈ s.log ↔ s.running = false :=
    run_inv (I := fun s => .left ∈ s.log ↔ s.running = false)
      (fun _ _ _ => left_mem_step) (by decide) hrun
  rw [hleft, loopStep, hpc]
  cases hrunning : s.running <;> simp

-- ============================================================ the two switches

/-- The phase the record is in, if it is coherent. -/
def Loop.phase (s : Loop) : Option Phase := run Phase.next .idle s.log

/-- What the phase is at each place of the loop. -/
structure PhaseInv (s : Loop) : Prop where
  loop : LoopInv s
  idle : s.pc ≠ .zero → s.pc ≠ .reswitch → s.running = true →
    ∀ p, s.phase = some p → p = .idle
  sent : s.pc = .zero ∨ s.pc = .reswitch → ∀ p, s.phase = some p →
    ∃ t, p = .sent t ∧ (t = quitter ↔ s.request = some .quiting)

theorem PhaseInv.init : PhaseInv Loop.init := by
  refine ⟨LoopInv.init, fun _ _ _ p h => ?_, nofun⟩
  cases h
  rfl

/-- A step that records nothing and leaves `running` as it is. -/
theorem PhaseInv.quiet {s s' : Loop} (hI : PhaseInv s) (hloop : LoopInv s')
    (hlog : s'.log = s.log) (hrun : s'.running = s.running)
    (hfrom : s.pc ≠ .zero ∧ s.pc ≠ .reswitch)
    (hto : s'.pc ≠ .zero ∧ s'.pc ≠ .reswitch) : PhaseInv s' := by
  refine ⟨hloop, fun _ _ hrun' p hp => ?_, fun hpc => ?_⟩
  · rw [Loop.phase, hlog] at hp
    exact hI.idle hfrom.1 hfrom.2 (hrun.symm.trans hrun') p hp
  · exact absurd hpc (not_or.mpr hto)

theorem PhaseInv.write {s : Loop} (hI : PhaseInv s) (hpc : s.pc = .write)
    (hloop : LoopInv
      { s with pc := .zero, log := s.log ++ [.wrote s.buffer] }) :
    PhaseInv { s with pc := .zero, log := s.log ++ [.wrote s.buffer] } := by
  refine ⟨hloop, fun h => absurd rfl h, fun _ p hp => ?_⟩
  rw [Loop.phase, run_concat] at hp
  obtain ⟨q, hq, hnext⟩ := Option.bind_eq_some_iff.mp hp
  have hidle : q = .idle :=
    hI.idle (by simp [hpc]) (by simp [hpc]) (hI.loop.running (by simp [hpc]))
      q hq
  rw [hidle] at hnext
  cases hnext
  exact ⟨s.buffer, rfl, hI.loop.buffer hpc⟩

/-- What the second switch finds: the last signal's request, or else the
one of the first switch. -/
theorem LoopInv.request_eq {s : Loop} (hI : LoopInv s)
    (hpc : s.pc = .reswitch) : ∃ r, s.request = some r
      ∧ s.messageToSend = some ((s.last.map (·.1.handler)).getD r) := by
  obtain ⟨r, hr, hm, -⟩ := hI.late (by simp [hpc, Early]) (by simp [hpc])
  exact ⟨r, hr, hm⟩

theorem PhaseInv.answer {s : Loop} (hI : PhaseInv s)
    (hpc : s.pc = .reswitch) : PhaseInv s.answer := by
  have hloop := hI.loop.answer hpc
  obtain ⟨r, hr, hm⟩ := hI.loop.request_eq hpc
  rw [Loop.answer_some hm] at hloop ⊢
  by_cases hquit : (s.last.map (·.1.handler)).getD r = .quiting
  · rw [if_pos hquit] at hloop ⊢
    exact ⟨hloop, fun _ _ hrun => (nomatch hrun), by simp⟩
  · rw [if_neg hquit] at hloop ⊢
    refine ⟨hloop, fun _ _ _ p hp => ?_, by simp⟩
    rw [Loop.phase, run_concat] at hp
    obtain ⟨q, hq, hnext⟩ := Option.bind_eq_some_iff.mp hp
    obtain ⟨t, rfl, -⟩ := hI.sent (Or.inr hpc) q hq
    obtain ⟨-, heq⟩ := Option.ite_none_left_eq_some.mp hnext
    exact (Option.some.inj heq).symm

theorem phaseInv_step {s s' : Loop} {a : LoopAct} (hI : PhaseInv s)
    (hstep : loopStep s a = some s') : PhaseInv s' := by
  have hloop := loopInv_step hI.loop hstep
  cases loopSteps_of_loopStep hstep with
  | enter hpc _ => exact hI.quiet hloop rfl rfl (by simp [hpc]) (by simp)
  | exit hpc _ => exact hI.quiet hloop rfl rfl (by simp [hpc]) (by simp)
  | prepare hpc =>
      refine hI.quiet hloop s.prepare_log s.prepare_running (by simp [hpc]) ?_
      rcases s.prepare_pc with hto | hto <;> simp [hto]
  | write hpc => exact hI.write hpc hloop
  | zero hpc =>
      exact ⟨hloop, fun _ h => absurd rfl h, fun _ => hI.sent (Or.inl hpc)⟩
  | answer hpc => exact hI.answer hpc
  | recv hpc => exact hI.quiet hloop rfl rfl (by simp [hpc]) (by simp)
  | print hpc => exact hI.quiet hloop rfl rfl (by simp [hpc]) (by simp)
  | reset hpc => exact hI.quiet hloop rfl rfl (by simp [hpc]) (by simp)
  | signal sig => exact ⟨hloop, hI.idle, hI.sent⟩

/-- At the second switch: the last signal since the first one, if there
is one, is SIGINT exactly if the first switch has read QUITING. -/
def Agrees (s : Loop) (a : LoopAct) : Prop :=
  a = .go → s.pc = .reswitch →
    ∀ l ∈ s.last, (l.1 = .sigint ↔ s.request = some .quiting)

instance (s : Loop) (a : LoopAct) : Decidable (Agrees s a) :=
  inferInstanceAs (Decidable (a = .go → s.pc = .reswitch →
    ∀ l ∈ s.last, (l.1 = .sigint ↔ s.request = some .quiting)))

theorem coherent_write {s : Loop} (hI : PhaseInv s) (hc : Coherent s.log)
    (hpc : s.pc = .write) : Coherent (s.log ++ [.wrote s.buffer]) := by
  obtain ⟨p, hp⟩ := coherent_iff.mp hc
  have hidle : p = .idle :=
    hI.idle (by simp [hpc]) (by simp [hpc]) (hI.loop.running (by simp [hpc]))
      p hp
  refine coherent_iff.mpr ⟨.sent s.buffer, ?_⟩
  rw [run_concat, hp, hidle]
  rfl

/-- The second switch goes on rightly if it finds QUITING exactly after
Quitter was written. -/
theorem coherent_answer_iff {s : Loop} {t : List Byte} {m : MsgIdx}
    (hp : run Phase.next .idle s.log = some (.sent t))
    (hm : s.messageToSend = some m) :
    Coherent s.answer.log ↔ (m = .quiting ↔ t = quitter) := by
  rw [coherent_iff, Loop.answer_some hm]
  by_cases hq : m = .quiting
  · simp [hq, run_concat, hp, Phase.next]
  · simp [hq, run_concat, hp, Phase.next]

theorem coherent_answer_iff_agrees {s : Loop} (hI : PhaseInv s)
    (hc : Coherent s.log) (hpc : s.pc = .reswitch) :
    Coherent s.answer.log ↔
      ∀ l ∈ s.last, (l.1 = .sigint ↔ s.request = some .quiting) := by
  obtain ⟨p, hp⟩ := coherent_iff.mp hc
  obtain ⟨t, rfl, ht⟩ := hI.sent (Or.inr hpc) p hp
  obtain ⟨r, hr, hm⟩ := hI.loop.request_eq hpc
  rw [coherent_answer_iff hp hm, ht, hr]
  cases hlast : s.last with
  | none => simp
  | some l => simp [handler_eq_quiting_iff]

/-- One step keeps the record coherent exactly if it is no second switch,
or one that agrees with the first. -/
theorem coherent_step_iff {s s' : Loop} {a : LoopAct} (hI : PhaseInv s)
    (hc : Coherent s.log) (hstep : loopStep s a = some s') :
    Coherent s'.log ↔ Agrees s a := by
  have hother (hpc : s.pc ≠ .reswitch) : Agrees s a :=
    fun _ h => absurd h hpc
  cases loopSteps_of_loopStep hstep with
  | answer hpc =>
      rw [coherent_answer_iff_agrees hI hc hpc]
      exact ⟨fun h _ _ => h, fun h => h rfl hpc⟩
  | write hpc =>
      exact iff_of_true (coherent_write hI hc hpc) (hother (by simp [hpc]))
  | signal sig => exact iff_of_true hc nofun
  | prepare hpc =>
      rw [Loop.prepare_log]
      exact iff_of_true hc (hother (by simp [hpc]))
  | enter hpc _ => exact iff_of_true hc (hother (by simp [hpc]))
  | exit hpc _ => exact iff_of_true hc (hother (by simp [hpc]))
  | zero hpc => exact iff_of_true hc (hother (by simp [hpc]))
  | recv hpc => exact iff_of_true hc (hother (by simp [hpc]))
  | print hpc => exact iff_of_true hc (hother (by simp [hpc]))
  | reset hpc => exact iff_of_true hc (hother (by simp [hpc]))

theorem coherent_nil : Coherent [] :=
  ⟨[], List.not_mem_nil, Or.inl rfl⟩

/-- However the signals fall between the steps of the loop: the client
leaves exactly on the Quitter message it has written, and receives once
after every other message, throughout a run, exactly if at every second
switch of the run the last signal since the first one agrees with the
request that one has read. -/
theorem coherent_iff_agrees {acts : List LoopAct} {s' : Loop}
    (hrun : run loopStep Loop.init acts = some s') :
    (∀ pre post s, acts = pre ++ post → run loopStep Loop.init pre = some s →
        Coherent s.log)
      ↔ Along loopStep Agrees Loop.init acts :=
  forall_prefix_iff_along (I := fun s => Coherent s.log)
    (D := fun _ => True) (fun _ _ _ => phaseInv_step)
    (fun _ _ _ hI hc _ hstep => coherent_step_iff hI hc hstep)
    PhaseInv.init coherent_nil (fun _ _ => trivial) hrun

/-- SIGUSR1 is answered, then SIGINT comes during the `recv` and is
overtaken by the reset; the next one makes the client leave. -/
theorem coherent_iff_agrees_sample :
    ∃ s', run loopStep Loop.init
        [.signal .sigusr1, .go, .go, .go, .go, .go, .signal .sigint, .go, .go,
          .go, .signal .sigint, .go, .go, .go, .go, .go] = some s'
      ∧ ∀ pre post s,
        [.signal .sigusr1, .go, .go, .go, .go, .go, .signal .sigint, .go, .go,
          .go, .signal .sigint, .go, .go, .go, .go, .go] = pre ++ post →
        run loopStep Loop.init pre = some s → Coherent s.log :=
  ⟨_, rfl, (coherent_iff_agrees rfl).mpr (by decide)⟩

/-- SIGINT between the `write` of Bonjour and the second switch: the
client leaves without having written Quitter. -/
theorem not_coherent_sigint :
    ¬ ∀ pre post s,
      [.signal .sigusr1, .go, .go, .go, .signal .sigint, .go, .go]
        = pre ++ post →
      run loopStep Loop.init pre = some s → Coherent s.log := by
  intro hall
  have hc : Coherent [.wrote bonjour, .left] :=
    hall [.signal .sigusr1, .go, .go, .go, .signal .sigint, .go, .go] [] _
      rfl rfl
  obtain ⟨p, hp⟩ := coherent_iff.mp hc
  have hnone : run Phase.next .idle [.wrote bonjour, .left] = none := by
    decide
  cases hnone.symm.trans hp

-- =============================================================== lost requests

/-- At the first switch: the last signal since the switch before is the
request that is read, and its text goes into the buffer. -/
def Seen (s : Loop) (a : LoopAct) : Prop :=
  a = .go → s.pc = .switch → ∀ l ∈ s.last,
    s.messageToSend = some l.1.handler ∧ s.prepare.pc = .write
      ∧ s.prepare.buffer = l.1.handler.text s.alt

/-- At the first switch: the last signal since the switch before was not
delivered ahead of the reset. -/
def NotOvertaken (s : Loop) (a : LoopAct) : Prop :=
  a = .go → s.pc = .switch → ∀ l ∈ s.last, Early l.2

theorem seen_step_iff {s : Loop} (hI : LoopInv s) (a : LoopAct) :
    Seen s a ↔ NotOvertaken s a := by
  unfold Seen NotOvertaken
  refine imp_congr_right fun _ => imp_congr_right fun hpc =>
    forall₂_congr fun l hl => ?_
  have hm : s.messageToSend
      = if Early l.2 then some l.1.handler else none := by
    have hearly := hI.early (Or.inr hpc)
    rw [Option.mem_def.mp hl] at hearly
    exact hearly
  constructor
  · rintro ⟨hseen, -⟩
    by_contra hlate
    rw [hseen, if_neg hlate] at hm
    cases hm
  · intro hearly
    rw [if_pos hearly] at hm
    rw [Loop.prepare_some hm]
    exact ⟨hm, rfl, rfl⟩

/-- However the signals fall between the steps of the loop: each last
signal before a first switch is the request this reads, throughout a run,
exactly if none of them was delivered between a first switch that found
a request and the reset of that iteration. -/
theorem seen_iff_notOvertaken (acts : List LoopAct) :
    Along loopStep Seen Loop.init acts
      ↔ Along loopStep NotOvertaken Loop.init acts :=
  along_iff_along (I := LoopInv) (fun _ a hI => seen_step_iff hI a)
    (fun _ _ _ hI _ => loopInv_step hI) LoopInv.init

/-- SIGUSR2 while the client waits in `recv` for the answer to Bonjour:
the reset that follows undoes it, and the next first switch reads no
request. -/
theorem not_seen_sigusr2 :
    ¬ Along loopStep Seen Loop.init
      [.signal .sigusr1, .go, .go, .go, .go, .go, .signal .sigusr2, .go, .go,
        .go, .go, .go] := by
  intro halong
  have hsome : (run loopStep Loop.init
      [.signal .sigusr1, .go, .go, .go, .go, .go, .signal .sigusr2, .go, .go,
        .go, .go, .go]).isSome = true := by decide
  obtain ⟨s, hrun⟩ := Option.isSome_iff_exists.mp hsome
  have hseen := along_iff_forall_split.mp halong
    [.signal .sigusr1, .go, .go, .go, .go, .go, .signal .sigusr2, .go, .go,
      .go, .go] .go [] _ rfl rfl rfl rfl _ rfl
  cases hseen.1

end SyeLabs.Sockets
