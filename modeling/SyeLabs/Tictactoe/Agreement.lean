/-
The two processes of tictactoe over their pipes.

# The system

`Sys` is the game manager, the player and the two pipes of tictactoe_ipc.c
as queues of integers. The processes take their steps in any order; a
read of an empty pipe is a step that cannot be taken. The log is no part
of the program: it records what has been sent and read.

# The phases of a game

One token goes round. It is nowhere while the game manager works
(`Idle`), then a prompt in the pipe, the player at its input or a move in
the other pipe (`Token`), and for good the result (`Told`). Every step
leads from one phase to the same or the next (`phase_step`), and what
the processes agree on is read off each phase.
-/
import SyeLabs.Tictactoe.Board
import SyeLabs.Tictactoe.Player

namespace SyeLabs.Tictactoe

open Lib

-- ================================================================== the system

/-- An operation on a pipe that has completed. -/
inductive Event
  | gmSent (cmd : Int)
  | playerGot (cmd : Int)
  | playerSent (move : Int)
  | gmGot (move : Int)
  deriving DecidableEq, Repr

structure Sys where
  gm : Gm
  player : Player
  toPlayer : List Int
  toGm : List Int
  log : List Event

/-- Both processes at the start of a game, with empty pipes. -/
def Sys.init (h : Header) (mem : Grid) : Sys where
  gm := Gm.init h mem
  player := ⟨.getCmd, 0⟩
  toPlayer := []
  toGm := []
  log := []

inductive SysAct
  | gmGo
  | gmGetCmd
  | playerGetCmd
  | playerScan (str : List Char)
  | playerSendCmd

/-- `gm_send_cmd` of what a step of the game manager sends, if anything. -/
def Sys.gmSend (h : Header) (s : Sys) (c : Option Cmd) (gm : Gm) : Sys :=
  match c with
  | none => { s with gm := gm }
  | some c =>
      { s with
        gm := gm, toPlayer := s.toPlayer ++ [h.code c]
        log := s.log ++ [.gmSent (h.code c)] }

/-- One step of either process. -/
def sysStep (h : Header) (atoi : List Char → Int) (s : Sys) :
    SysAct → Option Sys
  | .gmGo => (go h s.gm).map fun (c, gm) => s.gmSend h c gm
  | .gmGetCmd =>
      match s.toGm with
      | [] => none
      | move :: toGm =>
          (receive h s.gm move).map fun gm =>
            { s with
              gm := gm, toGm := toGm, log := s.log ++ [.gmGot move] }
  | .playerGetCmd =>
      match s.player.pc, s.toPlayer with
      | .getCmd, cmd :: toPlayer =>
          some { s with
            player := { s.player with pc := playerSwitch h cmd }
            toPlayer := toPlayer, log := s.log ++ [.playerGot cmd] }
      | _, _ => none
  | .playerScan str =>
      match s.player.pc with
      | .input => some { s with player := s.player.scan h atoi str }
      | _ => none
  | .playerSendCmd =>
      match s.player.pc with
      | .send =>
          some { s with
            player := { s.player with pc := .getCmd }
            toGm := s.toGm ++ [s.player.pendingMove]
            log := s.log ++ [.playerSent s.player.pendingMove] }
      | _ => none

/-- What a step of the system can do. -/
inductive SysSteps (h : Header) (atoi : List Char → Int) (s : Sys) :
    SysAct → Sys → Prop
  | gmGo {c : Option Cmd} {gm : Gm} (hgm : Steps h s.gm .go c gm) :
      SysSteps h atoi s .gmGo (s.gmSend h c gm)
  | gmGetCmd {move : Int} {toGm : List Int} {gm : Gm}
      (hpipe : s.toGm = move :: toGm)
      (hgm : Steps h s.gm (.receive move) none gm) :
      SysSteps h atoi s .gmGetCmd
        { s with gm := gm, toGm := toGm, log := s.log ++ [.gmGot move] }
  | playerGetCmd {cmd : Int} {toPlayer : List Int}
      (hpc : s.player.pc = .getCmd) (hpipe : s.toPlayer = cmd :: toPlayer) :
      SysSteps h atoi s .playerGetCmd
        { s with
          player := { s.player with pc := playerSwitch h cmd }
          toPlayer := toPlayer, log := s.log ++ [.playerGot cmd] }
  | playerScan (str : List Char) (hpc : s.player.pc = .input) :
      SysSteps h atoi s (.playerScan str)
        { s with player := s.player.scan h atoi str }
  | playerSendCmd (hpc : s.player.pc = .send) :
      SysSteps h atoi s .playerSendCmd
        { s with
          player := { s.player with pc := .getCmd }
          toGm := s.toGm ++ [s.player.pendingMove]
          log := s.log ++ [.playerSent s.player.pendingMove] }

variable {h : Header} {atoi : List Char → Int}

theorem sysSteps_of_step {s s' : Sys} {a : SysAct}
    (hstep : sysStep h atoi s a = some s') : SysSteps h atoi s a s' := by
  cases a with
  | gmGo =>
      obtain ⟨⟨c, gm⟩, hgo, rfl⟩ := Option.map_eq_some_iff.mp hstep
      exact SysSteps.gmGo (steps_of_stepSend (a := .go) hgo)
  | gmGetCmd =>
      simp only [sysStep] at hstep
      split at hstep
      next => cases hstep
      next move toGm hpipe =>
        obtain ⟨gm, hgm, rfl⟩ := Option.map_eq_some_iff.mp hstep
        refine SysSteps.gmGetCmd hpipe (steps_of_stepSend ?_)
        rw [stepSend, hgm]
        rfl
  | playerGetCmd =>
      simp only [sysStep] at hstep
      split at hstep
      next cmd toPlayer hpc hpipe =>
        cases hstep
        exact SysSteps.playerGetCmd hpc hpipe
      next => cases hstep
  | playerScan str =>
      simp only [sysStep] at hstep
      split at hstep
      next hpc =>
        cases hstep
        exact SysSteps.playerScan str hpc
      next => cases hstep
  | playerSendCmd =>
      simp only [sysStep] at hstep
      split at hstep
      next hpc =>
        cases hstep
        exact SysSteps.playerSendCmd hpc
      next => cases hstep

-- ================================================================== the phases

def IsPrompt (c : Cmd) : Prop := c = .youCanPlay ∨ c = .moveRejected

instance (c : Cmd) : Decidable (IsPrompt c) :=
  inferInstanceAs (Decidable (c = .youCanPlay ∨ c = .moveRejected))

def IsResult (c : Cmd) : Prop := c = .youWin ∨ c = .youLose ∨ c = .noWinner

/-- Nothing, or GAME_START alone. -/
def Begins (h : Header) (cmds : List Int) : Prop :=
  cmds = [] ∨ cmds = [h.code .gameStart]

/-- `c` is the latest prompt sent, and but for reads of GAME_START the
operations since then are `since`. -/
def Prompted (h : Header) (log : List Event) (c : Cmd)
    (since : List Event) : Prop :=
  IsPrompt c ∧ ∃ pre mid, log = pre ++ .gmSent (h.code c) :: (mid ++ since)
    ∧ ∀ e ∈ mid, e = .playerGot (h.code .gameStart)

/-- The game manager works, and the player waits. -/
structure Idle (h : Header) (s : Sys) : Prop where
  toGm : s.toGm = []
  player : s.player.pc = .getCmd
  toPlayer : Begins h s.toPlayer

/-- The game manager waits for the answer to a prompt: the prompt is
unread, the player is at its input, or the move is unread. -/
inductive Token (h : Header) (s : Sys) : Prop
  | asked {c : Cmd} {q : List Int} (toGm : s.toGm = [])
      (player : s.player.pc = .getCmd) (begins : Begins h q)
      (toPlayer : s.toPlayer = q ++ [h.code c])
      (log : Prompted h s.log c [])
  | answering {c : Cmd} (toGm : s.toGm = [])
      (player : s.player.pc = .input ∨ s.player.pc = .send)
      (toPlayer : s.toPlayer = [])
      (log : Prompted h s.log c [.playerGot (h.code c)])
  | answered {c : Cmd} {move : Int} (toGm : s.toGm = [move])
      (player : s.player.pc = .getCmd) (toPlayer : s.toPlayer = [])
      (log : Prompted h s.log c
        [.playerGot (h.code c), .playerSent move])

/-- The result has been sent, and `rest` after it; the player reads it and
leaves. -/
inductive Told (h : Header) (s : Sys) (rest : List Int) : Prop
  | unread {r : Cmd} {q : List Int} (toGm : s.toGm = [])
      (player : s.player.pc = .getCmd) (result : IsResult r)
      (begins : Begins h q) (toPlayer : s.toPlayer = q ++ h.code r :: rest)
  | read (toGm : s.toGm = []) (player : s.player.pc = .exited)
      (toPlayer : s.toPlayer = rest)

/-- The phase of a game, by where the game manager stands. -/
def Phase (h : Header) (s : Sys) : Prop :=
  match s.gm.pc, s.gm.gameOver with
  | .start, false => Idle h s ∧ s.toPlayer = []
  | .loop, false => Idle h s
  | .rejected, false => Idle h s
  | .check, false => Idle h s
  | .getCmd, false => Token h s
  | .loop, true => Told h s []
  | .done, true => Told h s [h.code .gameEnd]
  | _, _ => False

/-- A further operation on the token. -/
theorem Prompted.snoc {log : List Event} {c : Cmd} {since : List Event}
    (hlog : Prompted h log c since) (e : Event) :
    Prompted h (log ++ [e]) c (since ++ [e]) := by
  obtain ⟨hc, pre, mid, rfl, hmid⟩ := hlog
  exact ⟨hc, pre, mid, by simp, hmid⟩

/-- A read of GAME_START after the prompt was sent. -/
theorem Prompted.start {log : List Event} {c : Cmd}
    (hlog : Prompted h log c []) :
    Prompted h (log ++ [.playerGot (h.code .gameStart)]) c [] := by
  obtain ⟨hc, pre, mid, rfl, hmid⟩ := hlog
  refine ⟨hc, pre, mid ++ [.playerGot (h.code .gameStart)], by simp, ?_⟩
  intro e he
  rcases List.mem_append.mp he with he | he
  · exact hmid e he
  · exact List.mem_singleton.mp he

/-- A prompt has just been sent. -/
theorem Prompted.sent (log : List Event) {c : Cmd} (hc : IsPrompt c) :
    Prompted h (log ++ [.gmSent (h.code c)]) c [] :=
  ⟨hc, log, [], rfl, by simp⟩

-- ======================================================== steps between phases

/-- What a check sends is a result. -/
theorem isResult_of_check {grid : Grid} {currentId : Int} {r : Cmd}
    (hr : checkGameState h grid currentId = some r) : IsResult r := by
  unfold checkGameState at hr
  split at hr
  next => cases hr
  next =>
    cases hr
    split
    · exact Or.inl rfl
    · exact Or.inr (Or.inl rfl)
  next =>
    cases hr
    exact Or.inr (Or.inr rfl)

/-- A step of the player leaves the game manager where it is. -/
theorem Phase.of_player {s s' : Sys} (hp : Phase h s)
    (hgm : s'.gm = s.gm) (hidle : Idle h s → s.toPlayer ≠ [] ∧ Idle h s')
    (htoken : Token h s → Token h s')
    (htold : ∀ rest, Told h s rest → Told h s' rest) : Phase h s' := by
  unfold Phase at hp ⊢
  rw [hgm]
  split at hp
  case h_1 => exact absurd hp.2 (hidle hp.1).1
  case h_2 => exact (hidle hp).2
  case h_3 => exact (hidle hp).2
  case h_4 => exact (hidle hp).2
  case h_5 => exact htoken hp
  case h_6 => exact htold _ hp
  case h_7 => exact htold _ hp
  case h_8 => exact hp.elim

theorem phase_playerGetCmd {s : Sys} {cmd : Int} {toPlayer : List Int}
    (hp : Phase h s) (hpc : s.player.pc = .getCmd)
    (hpipe : s.toPlayer = cmd :: toPlayer) :
    Phase h { s with
      player := { s.player with pc := playerSwitch h cmd }
      toPlayer := toPlayer, log := s.log ++ [.playerGot cmd] } := by
  have hstart := playerSwitch_code h .gameStart
  refine hp.of_player rfl (fun hi => ⟨by simp [hpipe], ?_⟩) (fun ht => ?_)
    (fun rest ht => ?_)
  · rcases hi.toPlayer with hq | hq
    · cases hpipe.symm.trans hq
    · obtain ⟨rfl, rfl⟩ := List.cons.inj (hpipe.symm.trans hq)
      exact ⟨hi.toGm, hstart, Or.inl rfl⟩
  · cases ht with
    | @asked c q toGm player begins pipe log =>
        rcases begins with rfl | rfl
        · obtain ⟨rfl, rfl⟩ := List.cons.inj (hpipe.symm.trans pipe)
          refine Token.answering toGm (Or.inl ?_) rfl (log.snoc _)
          rcases log.1 with rfl | rfl <;> exact playerSwitch_code h _
        · obtain ⟨rfl, rfl⟩ := List.cons.inj (hpipe.symm.trans pipe)
          exact Token.asked toGm hstart (Or.inl rfl) rfl log.start
    | answering toGm player pipe log =>
        cases hpipe.symm.trans pipe
    | answered toGm player pipe log =>
        cases hpipe.symm.trans pipe
  · cases ht with
    | @unread r q toGm player result begins pipe =>
        rcases begins with rfl | rfl
        · obtain ⟨rfl, rfl⟩ := List.cons.inj (hpipe.symm.trans pipe)
          refine Told.read toGm ?_ rfl
          rcases result with rfl | rfl | rfl <;>
            exact playerSwitch_code h _
        · obtain ⟨rfl, rfl⟩ := List.cons.inj (hpipe.symm.trans pipe)
          exact Told.unread toGm hstart result (Or.inl rfl) rfl
    | read toGm player pipe => cases hpc.symm.trans player

theorem phase_playerScan {s : Sys} (str : List Char) (hp : Phase h s)
    (hpc : s.player.pc = .input) :
    Phase h { s with player := s.player.scan h atoi str } := by
  refine hp.of_player rfl (fun hi => ?_) (fun ht => ?_) (fun rest ht => ?_)
  · cases hpc.symm.trans hi.player
  · cases ht with
    | asked toGm player => cases hpc.symm.trans player
    | answering toGm player pipe log =>
        exact Token.answering toGm (Player.scan_pc h atoi str hpc) pipe log
    | answered toGm player => cases hpc.symm.trans player
  · cases ht with
    | unread toGm player => cases hpc.symm.trans player
    | read toGm player => cases hpc.symm.trans player

theorem phase_playerSendCmd {s : Sys} (hp : Phase h s)
    (hpc : s.player.pc = .send) :
    Phase h { s with
      player := { s.player with pc := .getCmd }
      toGm := s.toGm ++ [s.player.pendingMove]
      log := s.log ++ [.playerSent s.player.pendingMove] } := by
  refine hp.of_player rfl (fun hi => ?_) (fun ht => ?_) (fun rest ht => ?_)
  · cases hpc.symm.trans hi.player
  · cases ht with
    | asked toGm player => cases hpc.symm.trans player
    | answering toGm player pipe log =>
        refine Token.answered ?_ rfl pipe (log.snoc _)
        rw [toGm]
        rfl
    | answered toGm player => cases hpc.symm.trans player
  · cases ht with
    | unread toGm player => cases hpc.symm.trans player
    | read toGm player => cases hpc.symm.trans player

/-- While the game manager waits, the token is about. -/
theorem Phase.token {s : Sys} (hp : Phase h s) (hpc : s.gm.pc = .getCmd) :
    s.gm.gameOver = false ∧ Token h s := by
  unfold Phase at hp
  rw [hpc] at hp
  cases hover : s.gm.gameOver with
  | false => exact ⟨rfl, by simpa only [hover] using hp⟩
  | true => simp only [hover] at hp

/-- While it works on a game that is not over, it is nowhere. -/
theorem Phase.idle {s : Sys} (hp : Phase h s)
    (hpc : s.gm.pc = .loop ∧ s.gm.gameOver = false ∨ s.gm.pc = .rejected
      ∨ s.gm.pc = .check) : s.gm.gameOver = false ∧ Idle h s := by
  unfold Phase at hp
  cases hover : s.gm.gameOver with
  | false =>
      rcases hpc with ⟨hpc, -⟩ | hpc | hpc <;>
        exact ⟨rfl, by simpa only [hpc, hover] using hp⟩
  | true =>
      rcases hpc with ⟨hpc, hfalse⟩ | hpc | hpc
      · cases hover.symm.trans hfalse
      · simp only [hpc, hover] at hp
      · simp only [hpc, hover] at hp

theorem phase_of_idle {s : Sys}
    (hpc : s.gm.pc = .loop ∨ s.gm.pc = .rejected ∨ s.gm.pc = .check)
    (hover : s.gm.gameOver = false) (hi : Idle h s) : Phase h s := by
  unfold Phase
  rw [hover]
  rcases hpc with hpc | hpc | hpc <;> rw [hpc] <;> exact hi

theorem phase_of_token {s : Sys} (hpc : s.gm.pc = .getCmd)
    (hover : s.gm.gameOver = false) (ht : Token h s) : Phase h s := by
  unfold Phase
  rw [hpc, hover]
  exact ht

/-- A move leaves the pipe with nothing else in it. -/
theorem phase_gmGetCmd {s : Sys} {move : Int} {toGm : List Int} {gm : Gm}
    (hp : Phase h s) (hpipe : s.toGm = move :: toGm)
    (hgm : Steps h s.gm (.receive move) none gm) :
    Phase h { s with
      gm := gm, toGm := toGm, log := s.log ++ [.gmGot move] } := by
  have hpc : s.gm.pc = .getCmd := by cases hgm <;> assumption
  obtain ⟨hover, ht⟩ := hp.token hpc
  have hidle : toGm = [] ∧ s.player.pc = .getCmd ∧ s.toPlayer = [] := by
    cases ht with
    | asked empty => cases hpipe.symm.trans empty
    | answering empty => cases hpipe.symm.trans empty
    | answered one player toPlayer =>
        exact ⟨(List.cons.inj (hpipe.symm.trans one)).2, player, toPlayer⟩
  obtain ⟨hempty, hplayer, htoPlayer⟩ := hidle
  cases hgm with
  | refuse =>
      exact phase_of_idle (Or.inr (Or.inl rfl)) hover
        ⟨hempty, hplayer, Or.inl htoPlayer⟩
  | accept =>
      exact phase_of_idle (Or.inr (Or.inr rfl)) hover
        ⟨hempty, hplayer, Or.inl htoPlayer⟩

/-- A prompt is sent while the game manager works. -/
theorem phase_prompt {s : Sys} {c : Cmd} (hi : Idle h s)
    (hover : s.gm.gameOver = false) (hc : IsPrompt c) :
    Phase h (s.gmSend h (some c) { s.gm with pc := .getCmd }) :=
  phase_of_token rfl hover
    (Token.asked hi.toGm hi.player hi.toPlayer rfl
      (Prompted.sent s.log hc))

theorem phase_gmGo {s : Sys} {c : Option Cmd} {gm : Gm} (hp : Phase h s)
    (hgm : Steps h s.gm .go c gm) : Phase h (s.gmSend h c gm) := by
  cases hgm with
  | start hpc =>
      unfold Phase at hp
      rw [hpc] at hp
      cases hover : s.gm.gameOver with
      | false =>
          rw [hover] at hp
          obtain ⟨hi, hempty⟩ := hp
          refine phase_of_idle (Or.inl rfl) rfl
            ⟨hi.toGm, hi.player, Or.inr ?_⟩
          exact congrArg (· ++ [h.code .gameStart]) hempty
      | true => simp only [hover] at hp
  | finish hpc hover =>
      unfold Phase at hp ⊢
      simp only [hpc, hover] at hp
      have htold : Told h (s.gmSend h (some .gameEnd)
          { s.gm with pc := .done }) [h.code .gameEnd] := by
        cases hp with
        | unread toGm player result begins toPlayer =>
            refine Told.unread toGm player result begins ?_
            simp [Sys.gmSend, toPlayer]
        | read toGm player toPlayer =>
            refine Told.read toGm player ?_
            simp [Sys.gmSend, toPlayer]
      simpa only [Sys.gmSend, hover] using htold
  | prompt hpc hover _ =>
      exact phase_prompt (hp.idle (Or.inl ⟨hpc, hover⟩)).2 hover
        (Or.inl rfl)
  | computer hpc hover _ =>
      obtain ⟨-, hi⟩ := hp.idle (Or.inl ⟨hpc, hover⟩)
      exact phase_of_idle (Or.inr (Or.inr rfl)) hover
        ⟨hi.toGm, hi.player, hi.toPlayer⟩
  | reject hpc =>
      obtain ⟨hover, hi⟩ := hp.idle (Or.inr (Or.inl hpc))
      exact phase_prompt hi hover (Or.inr rfl)
  | check hpc =>
      obtain ⟨hover, hi⟩ := hp.idle (Or.inr (Or.inr hpc))
      cases hc : checkGameState h s.gm.grid s.gm.player with
      | none =>
          refine phase_of_idle (Or.inl rfl) ?_
            ⟨hi.toGm, hi.player, hi.toPlayer⟩
          simp [Sys.gmSend, hover, hc]
      | some r =>
          have htold : Told h (s.gmSend h (some r) (s.gm.checked h)) [] :=
            Told.unread hi.toGm hi.player (isResult_of_check hc)
              hi.toPlayer rfl
          unfold Phase
          simpa [Sys.gmSend, hc] using htold

theorem phase_step {s s' : Sys} {a : SysAct} (hp : Phase h s)
    (hstep : SysSteps h atoi s a s') : Phase h s' := by
  cases hstep with
  | gmGo hgm => exact phase_gmGo hp hgm
  | gmGetCmd hpipe hgm => exact phase_gmGetCmd hp hpipe hgm
  | playerGetCmd hpc hpipe => exact phase_playerGetCmd hp hpc hpipe
  | playerScan str hpc => exact phase_playerScan str hp hpc
  | playerSendCmd hpc => exact phase_playerSendCmd hp hpc

-- ========================================================== what they agree on

/-- How many of the commands are prompts. -/
def prompts (h : Header) (cmds : List Int) : Nat :=
  cmds.countP fun cmd =>
    cmd == h.code .youCanPlay || cmd == h.code .moveRejected

/-- Prompts unread, being answered, or with their move unread. -/
def Sys.outstanding (h : Header) (s : Sys) : Nat :=
  prompts h s.toPlayer
    + (if s.player.pc = .input ∨ s.player.pc = .send then 1 else 0)
    + s.toGm.length

/-- Both processes wait at a read of an empty pipe. -/
def Sys.Blocked (s : Sys) : Prop :=
  s.gm.pc = .getCmd ∧ s.toGm = []
    ∧ s.player.pc = .getCmd ∧ s.toPlayer = []

structure Agrees (h : Header) (s : Sys) : Prop where
  outstanding : s.outstanding h ≤ 1
  notBlocked : ¬ s.Blocked
  exits : s.player.pc = .exited
    ↔ ∃ r, IsResult r ∧ .playerGot (h.code r) ∈ s.log
  neverEnd : .playerGot (h.code .gameEnd) ∉ s.log

/-- The three kinds of phases. -/
theorem Phase.kinds {s : Sys} (hp : Phase h s) :
    (Idle h s ∧ s.gm.pc ≠ .getCmd ∧ s.gm.pc ≠ .done)
      ∨ (Token h s ∧ s.gm.pc = .getCmd)
      ∨ (s.gm.pc = .loop ∧ Told h s []
        ∨ s.gm.pc = .done ∧ Told h s [h.code .gameEnd]) := by
  unfold Phase at hp
  split at hp
  case h_1 hpc _ => exact Or.inl ⟨hp.1, by simp [hpc]⟩
  case h_2 hpc _ => exact Or.inl ⟨hp, by simp [hpc]⟩
  case h_3 hpc _ => exact Or.inl ⟨hp, by simp [hpc]⟩
  case h_4 hpc _ => exact Or.inl ⟨hp, by simp [hpc]⟩
  case h_5 hpc _ => exact Or.inr (Or.inl ⟨hp, hpc⟩)
  case h_6 hpc _ => exact Or.inr (Or.inr (Or.inl ⟨hpc, hp⟩))
  case h_7 hpc _ => exact Or.inr (Or.inr (Or.inr ⟨hpc, hp⟩))
  case h_8 => exact hp.elim

theorem prompts_append (cmds cmds' : List Int) :
    prompts h (cmds ++ cmds') = prompts h cmds + prompts h cmds' :=
  List.countP_append

theorem prompts_code (h : Header) (c : Cmd) :
    prompts h [h.code c] = if IsPrompt c then 1 else 0 := by
  cases c <;> simp [prompts, IsPrompt, h.code_inj.eq_iff]

theorem Begins.prompts {q : List Int} (hq : Begins h q) :
    prompts h q = 0 := by
  rcases hq with rfl | rfl
  · rfl
  · exact prompts_code h .gameStart

theorem IsResult.not_prompt {r : Cmd} (hr : IsResult r) : ¬ IsPrompt r := by
  rcases hr with rfl | rfl | rfl <;> decide

theorem Told.outstanding {s : Sys} {rest : List Int} (ht : Told h s rest)
    (hrest : prompts h rest = 0) : s.outstanding h = 0 := by
  cases ht with
  | @unread r q toGm player result begins toPlayer =>
      have hnone := prompts_code h r
      rw [if_neg result.not_prompt] at hnone
      rw [Sys.outstanding, toPlayer, toGm, player, prompts_append,
        begins.prompts, ← List.singleton_append, prompts_append, hnone,
        hrest]
      rfl
  | read toGm player toPlayer =>
      rw [Sys.outstanding, toPlayer, toGm, player, hrest]
      rfl

theorem Token.outstanding {s : Sys} (ht : Token h s) :
    s.outstanding h ≤ 1 := by
  cases ht with
  | @asked c q toGm player begins toPlayer log =>
      have hone := prompts_code h c
      rw [if_pos log.1] at hone
      rw [Sys.outstanding, toPlayer, toGm, player, prompts_append,
        begins.prompts, hone]
      decide
  | answering toGm player toPlayer log =>
      rw [Sys.outstanding, toPlayer, toGm, if_pos player]
      exact Nat.le_refl 1
  | answered toGm player toPlayer log =>
      rw [Sys.outstanding, toPlayer, toGm, player]
      exact Nat.le_refl 1

theorem Phase.outstanding {s : Sys} (hp : Phase h s) :
    s.outstanding h ≤ 1 := by
  rcases hp.kinds with ⟨hi, -⟩ | ⟨ht, -⟩ | ⟨-, ht⟩ | ⟨-, ht⟩
  · rw [Sys.outstanding, hi.toPlayer.prompts, hi.toGm, hi.player]
    decide
  · exact ht.outstanding
  · exact (ht.outstanding rfl).trans_le (Nat.zero_le 1)
  · exact (ht.outstanding (prompts_code h .gameEnd)).trans_le
      (Nat.zero_le 1)

theorem Phase.not_blocked {s : Sys} (hp : Phase h s) : ¬ s.Blocked := by
  rintro ⟨hgm, htoGm, hplayer, htoPlayer⟩
  rcases hp.kinds with ⟨-, hpc, -⟩ | ⟨ht, -⟩ | ⟨hpc, -⟩ | ⟨hpc, -⟩
  · exact hpc hgm
  · cases ht with
    | asked toGm player begins toPlayer =>
        rw [toPlayer] at htoPlayer
        cases (List.append_eq_nil_iff.mp htoPlayer).2
    | answering toGm player =>
        rcases player with hpc | hpc <;> cases hplayer.symm.trans hpc
    | answered toGm => cases htoGm.symm.trans toGm
  · cases hgm.symm.trans hpc
  · cases hgm.symm.trans hpc

-- ==================================================== what the player has read

/-- What the log says of the player. -/
structure LogOk (h : Header) (s : Sys) : Prop where
  exits : s.player.pc = .exited
    ↔ ∃ r, IsResult r ∧ .playerGot (h.code r) ∈ s.log
  neverEnd : .playerGot (h.code .gameEnd) ∉ s.log

/-- The next command the player reads is not GAME_END. -/
theorem Phase.next_cmd {s : Sys} {cmd : Int} {toPlayer : List Int}
    (hp : Phase h s) (hpc : s.player.pc = .getCmd)
    (hpipe : s.toPlayer = cmd :: toPlayer) :
    ∃ c, c ≠ .gameEnd ∧ cmd = h.code c := by
  have hbegins : ∀ {q rest : List Int} {c : Cmd}, Begins h q →
      c ≠ .gameEnd → s.toPlayer = q ++ h.code c :: rest →
      ∃ c, c ≠ .gameEnd ∧ cmd = h.code c := by
    intro q rest c hq hc heq
    rcases hq with rfl | rfl
    · exact ⟨c, hc, (List.cons.inj (hpipe.symm.trans heq)).1⟩
    · exact ⟨.gameStart, by decide,
        (List.cons.inj (hpipe.symm.trans heq)).1⟩
  have htold : ∀ rest, Told h s rest → ∃ c, c ≠ .gameEnd ∧ cmd = h.code c := by
    intro rest ht
    cases ht with
    | unread toGm player result begins pipe =>
        refine hbegins begins ?_ pipe
        rcases result with rfl | rfl | rfl <;> decide
    | read toGm player => cases hpc.symm.trans player
  rcases hp.kinds with ⟨hi, -⟩ | ⟨ht, -⟩ | ⟨-, ht⟩ | ⟨-, ht⟩
  · rcases hi.toPlayer with hq | hq
    · cases hpipe.symm.trans hq
    · exact ⟨.gameStart, by decide,
        (List.cons.inj (hpipe.symm.trans hq)).1⟩
  · cases ht with
    | asked toGm player begins pipe log =>
        refine hbegins begins ?_ pipe
        rcases log.1 with rfl | rfl <;> decide
    | answering toGm player pipe => cases hpipe.symm.trans pipe
    | answered toGm player pipe => cases hpipe.symm.trans pipe
  · exact htold _ ht
  · exact htold _ ht

/-- But for GAME_END the player leaves on the results alone. -/
theorem playerSwitch_exited_iff {c : Cmd} (hc : c ≠ .gameEnd) :
    playerSwitch h (h.code c) = .exited ↔ IsResult c := by
  rw [playerSwitch_code]
  cases c <;> simp [IsResult] at hc ⊢

/-- An operation that is no read of the player tells nothing new. -/
theorem LogOk.snoc {s s' : Sys} (hl : LogOk h s) {e : Event}
    (hlog : s'.log = s.log ++ [e]) (he : ∀ cmd, e ≠ .playerGot cmd)
    (hpc : s'.player.pc = .exited ↔ s.player.pc = .exited) :
    LogOk h s' := by
  have hmem : ∀ cmd, .playerGot cmd ∈ s'.log ↔ .playerGot cmd ∈ s.log := by
    intro cmd
    rw [hlog, List.mem_append, List.mem_singleton]
    exact or_iff_left (he cmd).symm
  constructor
  · rw [hpc, hl.exits]
    simp only [hmem]
  · rw [hmem]
    exact hl.neverEnd

theorem logOk_step {s s' : Sys} {a : SysAct} (hp : Phase h s)
    (hl : LogOk h s) (hstep : SysSteps h atoi s a s') : LogOk h s' := by
  cases hstep with
  | @gmGo c gm _ =>
      cases c with
      | none => exact ⟨hl.exits, hl.neverEnd⟩
      | some c => exact hl.snoc rfl (fun _ h => nomatch h) Iff.rfl
  | gmGetCmd _ _ => exact hl.snoc rfl (fun _ h => nomatch h) Iff.rfl
  | playerGetCmd hpc hpipe =>
      obtain ⟨c, hc, rfl⟩ := hp.next_cmd hpc hpipe
      have hnone : ∀ r, IsResult r → .playerGot (h.code r) ∉ s.log := by
        intro r hr hmem
        cases hpc.symm.trans (hl.exits.mpr ⟨r, hr, hmem⟩)
      have hmem : ∀ r, .playerGot (h.code r)
          ∈ s.log ++ [.playerGot (h.code c)]
          ↔ .playerGot (h.code r) ∈ s.log ∨ r = c := by
        intro r
        rw [List.mem_append, List.mem_singleton, Event.playerGot.injEq,
          h.code_inj.eq_iff]
      constructor
      · simp only [hmem]
        rw [playerSwitch_exited_iff hc]
        constructor
        · exact fun hr => ⟨c, hr, Or.inr rfl⟩
        · rintro ⟨r, hr, hlog | rfl⟩
          · exact absurd hlog (hnone r hr)
          · exact hr
      · rw [hmem]
        rintro (hend | hend)
        · exact hl.neverEnd hend
        · exact hc hend.symm
  | playerScan str hpc =>
      refine ⟨?_, hl.neverEnd⟩
      rw [← hl.exits]
      refine iff_of_false (fun h => ?_) (fun h => nomatch hpc.symm.trans h)
      rcases Player.scan_pc _ atoi str hpc with hs | hs <;>
        cases hs.symm.trans h
  | playerSendCmd hpc =>
      exact hl.snoc rfl (fun _ h => nomatch h)
        (iff_of_false (fun h => nomatch h) fun h => nomatch hpc.symm.trans h)

-- ==================================================== agreement in every state

theorem phase_init (h : Header) (mem : Grid) : Phase h (Sys.init h mem) :=
  ⟨⟨rfl, rfl, Or.inl rfl⟩, rfl⟩

theorem logOk_init (h : Header) (mem : Grid) : LogOk h (Sys.init h mem) :=
  ⟨iff_of_false (fun h => nomatch h) fun ⟨_, _, hmem⟩ => (nomatch hmem),
    List.not_mem_nil⟩

theorem sys_run {mem : Grid} {acts : List SysAct} {s : Sys}
    (hrun : run (sysStep h atoi) (Sys.init h mem) acts = some s) :
    Phase h s ∧ LogOk h s := by
  refine run_inv (I := fun s => Phase h s ∧ LogOk h s) ?_
    ⟨phase_init h mem, logOk_init h mem⟩ hrun
  rintro t a t' ⟨hp, hl⟩ ht
  have hsteps := sysSteps_of_step ht
  exact ⟨phase_step hp hsteps, logOk_step hp hl hsteps⟩

/-- The move answers the latest prompt: since it was sent the player has
read it, after GAME_START perhaps, and sent the move, and nothing else
has happened. -/
def AnswersLatest (h : Header) (log : List Event) (move : Int) : Prop :=
  ∃ c, Prompted h log c [.playerGot (h.code c), .playerSent move]

/-- A move that is read answers the latest prompt. -/
theorem Phase.answersLatest {s : Sys} (hp : Phase h s)
    (hpc : s.gm.pc = .getCmd) {move : Int} {toGm : List Int}
    (hpipe : s.toGm = move :: toGm) : AnswersLatest h s.log move := by
  cases (hp.token hpc).2 with
  | asked empty => cases hpipe.symm.trans empty
  | answering empty => cases hpipe.symm.trans empty
  | @answered c m one player toPlayer log =>
      obtain ⟨rfl, -⟩ := List.cons.inj (hpipe.symm.trans one)
      exact ⟨c, log⟩

/-- The word of a `scanf` fits `s` with its NUL. -/
def SysAct.WordFits (h : Header) : SysAct → Prop
  | .playerScan str => str.length < h.maxBufferLength
  | _ => True

instance (h : Header) (a : SysAct) : Decidable (a.WordFits h) := by
  unfold SysAct.WordFits
  split <;> infer_instance

/-- One step, whatever is typed. A word that does not fit is written over
the stack behind `s`, and C leaves open what becomes of the player: the
action says where it goes. -/
def inputStep (h : Header) (atoi : List Char → Int) (s : Sys)
    (a : SysAct × Player) : Option Sys :=
  if a.1.WordFits h then sysStep h atoi s a.1
  else if s.player.pc = .input then some { s with player := a.2 }
  else none

/-- In every state that any interleaving of the two processes reaches,
they agree, and the next move the game manager reads answers its latest
prompt, as long as every word that is read fits its buffer. -/
theorem processes_agree (h : Header) (atoi : List Char → Int) (mem : Grid)
    {acts : List (SysAct × Player)} {s : Sys}
    (hfits : ∀ a ∈ acts, a.1.WordFits h)
    (hrun : run (inputStep h atoi) (Sys.init h mem) acts = some s) :
    Agrees h s ∧ ∀ move toGm, s.gm.pc = .getCmd → s.toGm = move :: toGm →
      AnswersLatest h s.log move := by
  have hkept : Phase h s ∧ LogOk h s := by
    refine run_inv_along (I := fun s => Phase h s ∧ LogOk h s) ?_
      ⟨phase_init h mem, logOk_init h mem⟩ (along_of_forall hfits _) hrun
    rintro t a t' ⟨hp, hl⟩ ha ht
    rw [inputStep, if_pos ha] at ht
    have hsteps := sysSteps_of_step ht
    exact ⟨phase_step hp hsteps, logOk_step hp hl hsteps⟩
  obtain ⟨hp, hl⟩ := hkept
  exact ⟨⟨hp.outstanding, hp.not_blocked, hl.exits, hl.neverEnd⟩,
    fun _ _ hpc hpipe => hp.answersLatest hpc hpipe⟩

/-- Steps of the two processes up to the first prompt, and then `as`. -/
def promptedRun (as : List (SysAct × Player)) : List (SysAct × Player) :=
  [.gmGo, .gmGo, .playerGetCmd, .playerGetCmd].map (·, ⟨.exited, 0⟩) ++ as

theorem processes_agree_sample :
    ∃ s, run (inputStep Header.sample decimal)
        (Sys.init Header.sample fun _ => 0)
        (promptedRun [(.playerScan ['5'], ⟨.exited, 0⟩),
          (.playerSendCmd, ⟨.exited, 0⟩)]) = some s
      ∧ Agrees Header.sample s := by
  have hsome : (run (inputStep Header.sample decimal)
      (Sys.init Header.sample fun _ => 0)
      (promptedRun [(.playerScan ['5'], ⟨.exited, 0⟩),
        (.playerSendCmd, ⟨.exited, 0⟩)])).isSome = true := by decide
  obtain ⟨s, hrun⟩ := Option.isSome_iff_exists.mp hsome
  exact ⟨s, hrun,
    (processes_agree Header.sample decimal (fun _ => 0) (by decide)
      hrun).1⟩

/-- At the first prompt 80 characters are typed, one more than fits, and
the player is killed for what they overwrite: it has left its loop
without a result, and the game manager waits for its move. -/
theorem word_overruns :
    ∃ s, run (inputStep Header.sample decimal)
        (Sys.init Header.sample fun _ => 0)
        (promptedRun
          [(.playerScan (List.replicate 80 'x'), ⟨.exited, 0⟩)]) = some s
      ∧ s.gm.pc = .getCmd ∧ s.toGm = [] ∧ s.player.pc = .exited
      ∧ ¬ Agrees Header.sample s := by
  have hsome : (run (inputStep Header.sample decimal)
      (Sys.init Header.sample fun _ => 0)
      (promptedRun [(.playerScan (List.replicate 80 'x'),
        ⟨.exited, 0⟩)])).isSome = true := by decide
  obtain ⟨s, hrun⟩ := Option.isSome_iff_exists.mp hsome
  have hlog : s.log = [.gmSent (Header.sample.code .gameStart),
      .gmSent (Header.sample.code .youCanPlay),
      .playerGot (Header.sample.code .gameStart),
      .playerGot (Header.sample.code .youCanPlay)] := by
    cases hrun
    decide
  have hpc : s.player.pc = .exited := by
    cases hrun
    rfl
  refine ⟨s, hrun, by cases hrun; rfl, by cases hrun; rfl, hpc,
    fun hagree => ?_⟩
  obtain ⟨r, hr, hmem⟩ := hagree.exits.mp hpc
  rw [hlog] at hmem
  rcases hr with rfl | rfl | rfl
  all_goals
    revert hmem
    decide

/-- The game manager has a step wherever it neither waits for a move nor
has returned. -/
theorem go_isSome {s : Gm} (hwait : s.pc ≠ .getCmd) (hdone : s.pc ≠ .done) :
    (go h s).isSome = true := by
  unfold go
  split
  next => rfl
  next =>
    split
    · rfl
    · split <;> rfl
  next hpc => exact absurd hpc hwait
  next => rfl
  next => rfl
  next hpc => exact absurd hpc hdone

theorem receive_isSome {s : Gm} (hpc : s.pc = .getCmd) (cmd : Int) :
    (receive h s cmd).isSome = true := by
  simp only [receive, hpc]
  split <;> rfl

theorem Token.progress {s : Sys} (ht : Token h s)
    (hpc : s.gm.pc = .getCmd) :
    ∃ a, (sysStep h atoi s a).isSome = true := by
  cases ht with
  | @asked c q toGm player begins pipe log =>
      refine ⟨.playerGetCmd, ?_⟩
      rcases begins with rfl | rfl <;> simp [sysStep, player, pipe]
  | answering toGm player pipe log =>
      rcases player with hinput | hsend
      · exact ⟨.playerScan [], by simp [sysStep, hinput]⟩
      · exact ⟨.playerSendCmd, by simp [sysStep, hsend]⟩
  | answered toGm player pipe log =>
      refine ⟨.gmGetCmd, ?_⟩
      simp only [sysStep, toGm, Option.isSome_map]
      exact receive_isSome hpc _

/-- Until both have finished one of the processes can go on. -/
theorem processes_progress (h : Header) (atoi : List Char → Int)
    (mem : Grid) {acts : List SysAct} {s : Sys}
    (hrun : run (sysStep h atoi) (Sys.init h mem) acts = some s) :
    s.gm.pc = .done ∧ s.player.pc = .exited
      ∨ ∃ a, (sysStep h atoi s a).isSome = true := by
  obtain ⟨hp, -⟩ := sys_run hrun
  by_cases hwait : s.gm.pc = .getCmd
  · exact Or.inr ((hp.token hwait).2.progress hwait)
  by_cases hdone : s.gm.pc = .done
  · have htold : Told h s [h.code .gameEnd] := by
      rcases hp.kinds with ⟨-, -, hpc⟩ | ⟨-, hpc⟩ | ⟨hpc, -⟩ | ⟨-, ht⟩
      · exact absurd hdone hpc
      · cases hdone.symm.trans hpc
      · cases hdone.symm.trans hpc
      · exact ht
    cases htold with
    | @unread r q toGm player result begins pipe =>
        refine Or.inr ⟨.playerGetCmd, ?_⟩
        rcases begins with rfl | rfl <;> simp [sysStep, player, pipe]
    | read toGm player pipe => exact Or.inl ⟨hdone, player⟩
  · refine Or.inr ⟨.gmGo, ?_⟩
    simp only [sysStep, Option.isSome_map]
    exact go_isSome hwait hdone

end SyeLabs.Tictactoe
