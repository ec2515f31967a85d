/-
Every game ends.

# The measure

`Sys.toGo` counts the steps the two processes can still take. A turn of
the game takes at most ten of them, as a command that is sent has to be
read, answered and read again; the prompt of a move that is refused, and
a line of input that is not a move, come on top (`rejections`, `invalid`),
and only the user has them in hand.

# The end

As a run cannot stop before both processes have left (`processes_progress`)
it leads there, unless the user goes on for ever with moves that are no
moves, the input is over, which asks for ever too, or a word overruns its
buffer (`inputStep`). `sentOk_step` follows what the game manager has
sent, by where it stands: at the end it is GAME_START, prompts only, one
result and GAME_END.
-/
import SyeLabs.Tictactoe.Agreement

namespace SyeLabs.Tictactoe

open Lib

variable {h : Header} {atoi : List Char → Int}

-- ================================================================= the measure

/-- The steps left to the game manager, and to the player because of it. -/
def Gm.toGo (s : Gm) : Nat :=
  match s.pc with
  | .start => 100
  | .loop => if s.gameOver then 5 else 10 * held s.grid emptyId + 5
  | .getCmd => 10 * held s.grid emptyId
  | .rejected => 10 * held s.grid emptyId + 5
  | .check => 10 * held s.grid emptyId + 10
  | .done => 0

def PlayerPc.toGo : PlayerPc → Nat
  | .input => 3
  | .send => 2
  | .getCmd | .exited => 0

def Sys.toGo (s : Sys) : Nat :=
  s.gm.toGo + s.player.pc.toGo + 4 * s.toPlayer.length + s.toGm.length

/-- The moves refused so far. -/
def Sys.rejections (h : Header) (s : Sys) : Nat :=
  s.log.count (.gmSent (h.code .moveRejected))

/-- A line of input that is not a move. -/
def SysAct.invalid (h : Header) (atoi : List Char → Int) : SysAct → Bool
  | .playerScan str => (parseLine h atoi str).isNone
  | _ => false

/-- What a refusal costs that is still to be sent. -/
def Gm.owed (s : Gm) : Nat := if s.pc = .rejected then 5 else 0

/-- What the refusals have cost. -/
def Sys.spent (h : Header) (s : Sys) : Nat :=
  5 * s.rejections h + s.gm.owed

/-- A move takes one of the empty cells. -/
theorem held_update_empty {grid : Grid} {i id : Int} (hi : InGrid i)
    (hempty : grid i = emptyId) (hid : id ≠ emptyId) :
    held grid emptyId = held (Function.update grid i id) emptyId + 1 := by
  have hback : Function.update (Function.update grid i id) i emptyId = grid :=
    update_update_empty id hempty
  have htaken : Function.update grid i id i ≠ emptyId := by
    rw [Function.update_self]
    exact hid
  rw [← held_update_self hi htaken, hback]

theorem Gm.toGo_assign {s : Gm} {i id : Int} (hi : InGrid i)
    (hempty : s.grid i = emptyId) (hid : id ≠ emptyId) :
    (s.assign i id).toGo = 10 * held s.grid emptyId
      ∧ (s.assign i id).owed = 0 := by
  rw [held_update_empty hi hempty hid]
  exact ⟨rfl, rfl⟩

/-- What a step of the game manager pays: a command it sends is worth
four steps, one it reads a single one, and a refusal five. -/
theorem Steps.toGo {s s' : Gm} {a : Act} {c : Option Cmd} (hI : Inv h s)
    (hstep : Steps h s a c s') :
    s'.toGo + 4 * c.toList.length + s.owed + 1
      ≤ s.toGo + s'.owed + (if c = some .moveRejected then 5 else 0)
        + if a = .go then 0 else 1 := by
  have hside : h.playerId ≠ emptyId ∧ h.aiId ≠ emptyId :=
    ⟨h.playerId_ne, h.aiId_ne⟩
  cases hstep with
  | start hpc =>
      have hle : held s.grid emptyId ≤ 9 := List.countP_le_length
      simp only [Gm.toGo, Gm.owed, hpc, Option.toList_some,
        List.length_singleton, reduceCtorEq, if_false, if_true,
        Option.some.injEq]
      split <;> omega
  | finish hpc hover =>
      simp only [Gm.toGo, Gm.owed, hpc, hover, Option.toList_some,
        List.length_singleton, reduceCtorEq, if_false, if_true,
        Option.some.injEq]
      omega
  | prompt hpc hover hplayer =>
      simp only [Gm.toGo, Gm.owed, hpc, hover, Option.toList_some,
        List.length_singleton, reduceCtorEq, Bool.false_eq_true, if_false,
        if_true, Option.some.injEq]
      omega
  | computer hpc hover hplayer =>
      obtain ⟨i, hi, hempty, hassign⟩ := hI.computer hpc hover hplayer
      have hid : s.player ≠ emptyId := by
        rw [hI.player.resolve_left hplayer]
        exact hside.2
      obtain ⟨htoGo, howed⟩ := Gm.toGo_assign hi hempty hid
      rw [hassign, htoGo, howed]
      simp only [Gm.toGo, Gm.owed, hpc, hover, Option.toList_none,
        List.length_nil, reduceCtorEq, Bool.false_eq_true, if_false, if_true]
      omega
  | reject hpc =>
      simp only [Gm.toGo, Gm.owed, hpc, Option.toList_some,
        List.length_singleton, reduceCtorEq, if_false, if_true]
      omega
  | check hpc =>
      have hover := hI.running (by rw [hpc]; decide) (by rw [hpc]; decide)
      cases hresult : checkGameState h s.grid s.player with
      | none =>
          simp only [Gm.toGo, Gm.owed, hpc, hover, hresult,
            Option.toList_none, List.length_nil, Option.isSome_none,
            Bool.or_false, reduceCtorEq, Bool.false_eq_true, if_false,
            if_true]
          omega
      | some r =>
          have hr : r ≠ .moveRejected := by
            rcases isResult_of_check hresult with rfl | rfl | rfl <;> decide
          simp only [Gm.toGo, Gm.owed, hpc, hover, hresult, hr,
            Option.toList_some, List.length_singleton, Option.isSome_some,
            Bool.or_true, reduceCtorEq, if_false, if_true,
            Option.some.injEq]
          omega
  | refuse cmd hpc hcmd =>
      simp only [Gm.toGo, Gm.owed, hpc, Option.toList_none, List.length_nil,
        reduceCtorEq, if_false, if_true]
      omega
  | accept cmd hpc hcmd =>
      obtain ⟨hi, hempty⟩ := not_rejects_iff.mp hcmd
      obtain ⟨htoGo, howed⟩ := Gm.toGo_assign hi hempty hside.1
      rw [htoGo, howed]
      simp only [Gm.toGo, Gm.owed, hpc, Option.toList_none, List.length_nil,
        reduceCtorEq, if_false]
      omega

/-- A step of the game manager leaves its commands in the pipe. -/
theorem gmSend_paid (s : Sys) (c : Option Cmd) (gm : Gm) :
    (s.gmSend h c gm).toGo
        = gm.toGo + s.player.pc.toGo + 4 * (s.toPlayer.length
          + c.toList.length) + s.toGm.length
      ∧ (s.gmSend h c gm).spent h
        = 5 * s.rejections h + gm.owed
          + if c = some .moveRejected then 5 else 0 := by
  cases c with
  | none => exact ⟨rfl, rfl⟩
  | some c =>
      constructor
      · simp [Sys.toGo, Sys.gmSend]
      · simp only [Sys.spent, Sys.rejections, Sys.gmSend, List.count_append,
          List.count_singleton, beq_iff_eq, Event.gmSent.injEq,
          h.code_inj.eq_iff, Option.some.injEq]
        split <;> omega

/-- A read or a write of the player is not a refusal. -/
theorem spent_player {s : Sys} {e : Event} {player : Player}
    {toPlayer toGm : List Int} (he : e ≠ .gmSent (h.code .moveRejected)) :
    Sys.spent h { s with
      player := player, toPlayer := toPlayer, toGm := toGm
      log := s.log ++ [e] } = s.spent h := by
  simp [Sys.spent, Sys.rejections, List.count_append, he]

theorem playerSwitch_toGo (h : Header) (cmd : Int) :
    (playerSwitch h cmd).toGo ≤ 3 := by
  cases playerSwitch h cmd <;> decide

/-- A line of input that is a move brings the player on. -/
theorem scan_toGo (h : Header) (atoi : List Char → Int) {p : Player}
    (hp : p.pc = .input) (str : List Char) :
    (p.scan h atoi str).pc.toGo + 1
      ≤ p.pc.toGo + if (parseLine h atoi str).isNone then 1 else 0 := by
  cases hparse : parseLine h atoi str with
  | none => simp [Player.scan, hparse]
  | some index => simp [Player.scan, hparse, hp, PlayerPc.toGo]

/-- Every step of the two processes lowers the measure or is paid for. -/
theorem sysSteps_paid {s s' : Sys} {a : SysAct} (hI : Inv h s.gm)
    (hstep : SysSteps h atoi s a s') :
    s'.toGo + s.spent h + 1
      ≤ s.toGo + s'.spent h + if a.invalid h atoi then 1 else 0 := by
  cases hstep with
  | @gmGo c gm hgm =>
      obtain ⟨htoGo, hspent⟩ := gmSend_paid (h := h) s c gm
      have hone := Steps.toGo hI hgm
      rw [if_pos rfl] at hone
      rw [htoGo, hspent]
      unfold Sys.toGo Sys.spent
      omega
  | @gmGetCmd move toGm gm hpipe hgm =>
      have hone := Steps.toGo hI hgm
      have hcount : List.count (.gmSent (h.code .moveRejected))
          (s.log ++ [.gmGot move])
          = List.count (.gmSent (h.code .moveRejected)) s.log := by
        simp [List.count_append]
      simp only [Option.toList_none, List.length_nil, reduceCtorEq, if_false]
        at hone
      simp only [Sys.toGo, Sys.spent, Sys.rejections, hcount, hpipe,
        List.length_cons]
      omega
  | @playerGetCmd cmd toPlayer hpc hpipe =>
      have hswitch := playerSwitch_toGo h cmd
      have hgetCmd : s.player.pc.toGo = 0 := by
        rw [hpc]
        rfl
      rw [spent_player (e := .playerGot cmd) (by simp)]
      simp only [Sys.toGo, hpipe, hgetCmd, List.length_cons]
      omega
  | playerScan str hpc =>
      have hscan := scan_toGo h atoi hpc str
      have hspent : Sys.spent h
          { s with player := s.player.scan h atoi str } = s.spent h := rfl
      rw [hspent]
      unfold Sys.toGo SysAct.invalid
      dsimp only
      omega
  | playerSendCmd hpc =>
      have hsend : s.player.pc.toGo = 2 := by
        rw [hpc]
        rfl
      have hgetCmd : PlayerPc.getCmd.toGo = 0 := rfl
      rw [spent_player (e := .playerSent s.player.pendingMove) (by simp)]
      simp only [Sys.toGo, hsend, hgetCmd, List.length_append,
        List.length_singleton]
      omega

-- ========================================================== what has been sent

/-- The commands of the game manager, in order. -/
def sentCmds (log : List Event) : List Int :=
  log.filterMap fun
    | .gmSent cmd => some cmd
    | _ => none

/-- `GAME_START` and then prompts. -/
def Opening (h : Header) (cmds : List Int) : Prop :=
  ∃ ps : List Cmd, (∀ c ∈ ps, IsPrompt c)
    ∧ cmds = h.code .gameStart :: ps.map h.code

/-- What the game manager has sent, by where it stands. -/
def SentOk (h : Header) (gm : Gm) (cmds : List Int) : Prop :=
  match gm.pc, gm.gameOver with
  | .start, _ => cmds = []
  | .loop, true => ∃ os r, Opening h os ∧ IsResult r ∧ cmds = os ++ [h.code r]
  | .done, _ => ∃ os r, Opening h os ∧ IsResult r
      ∧ cmds = os ++ [h.code r, h.code .gameEnd]
  | _, _ => Opening h cmds

theorem Opening.snoc {cmds : List Int} (ho : Opening h cmds) {c : Cmd}
    (hc : IsPrompt c) : Opening h (cmds ++ [h.code c]) := by
  obtain ⟨ps, hps, rfl⟩ := ho
  refine ⟨ps ++ [c], fun d hd => ?_, by simp⟩
  rcases List.mem_append.mp hd with hd | hd
  · exact hps d hd
  · rw [List.mem_singleton.mp hd]
    exact hc

/-- Before the result there are only prompts. -/
theorem SentOk.opening {gm : Gm} {cmds : List Int} (hs : SentOk h gm cmds)
    (hstart : gm.pc ≠ .start) (hdone : gm.pc ≠ .done)
    (hover : gm.gameOver = false) : Opening h cmds := by
  unfold SentOk at hs
  split at hs
  next hpc => exact absurd hpc hstart
  next hgo => cases hover.symm.trans hgo
  next hpc => exact absurd hpc hdone
  next => exact hs

theorem sentOk_of_opening {gm : Gm} {cmds : List Int} (ho : Opening h cmds)
    (hstart : gm.pc ≠ .start) (hdone : gm.pc ≠ .done)
    (hover : gm.gameOver = false) : SentOk h gm cmds := by
  unfold SentOk
  split
  next hpc => exact absurd hpc hstart
  next hgo => cases hover.symm.trans hgo
  next hpc => exact absurd hpc hdone
  next => exact ho

/-- Every step of the game manager keeps to the order. -/
theorem sentOk_step {gm gm' : Gm} {a : Act} {c : Option Cmd} {cmds : List Int}
    (hI : Inv h gm) (hs : SentOk h gm cmds) (hstep : Steps h gm a c gm') :
    SentOk h gm' (cmds ++ (c.map h.code).toList) := by
  cases hstep with
  | start hpc =>
      have hover := hI.running (by rw [hpc]; decide) (by rw [hpc]; decide)
      simp only [SentOk, hpc] at hs
      rw [hs]
      refine sentOk_of_opening ⟨[], nofun, rfl⟩ ?_ ?_ hover
      · exact Pc.noConfusion
      · exact Pc.noConfusion
  | finish hpc hover =>
      simp only [SentOk, hpc, hover] at hs
      obtain ⟨os, r, ho, hr, rfl⟩ := hs
      exact ⟨os, r, ho, hr, List.append_assoc _ _ _⟩
  | prompt hpc hover hplayer =>
      have ho := hs.opening (by rw [hpc]; decide) (by rw [hpc]; decide) hover
      exact ho.snoc (Or.inl rfl)
  | computer hpc hover hplayer =>
      have ho := hs.opening (by rw [hpc]; decide) (by rw [hpc]; decide) hover
      rw [Option.map_none, Option.toList_none, List.append_nil]
      exact ho
  | reject hpc =>
      have hover := hI.running (by rw [hpc]; decide) (by rw [hpc]; decide)
      have ho := hs.opening (by rw [hpc]; decide) (by rw [hpc]; decide) hover
      exact ho.snoc (Or.inr rfl)
  | check hpc =>
      have hover := hI.running (by rw [hpc]; decide) (by rw [hpc]; decide)
      have ho := hs.opening (by rw [hpc]; decide) (by rw [hpc]; decide) hover
      cases hresult : checkGameState h gm.grid gm.player with
      | none =>
          rw [Option.map_none, Option.toList_none, List.append_nil]
          refine sentOk_of_opening ho ?_ ?_ ?_
          · exact Pc.noConfusion
          · exact Pc.noConfusion
          · simp [hover, hresult]
      | some r =>
          simp only [SentOk, hresult, Option.isSome_some, Bool.or_true]
          exact ⟨cmds, r, ho, isResult_of_check hresult, rfl⟩
  | refuse cmd hpc hcmd =>
      have hover := hI.running (by rw [hpc]; decide) (by rw [hpc]; decide)
      have ho := hs.opening (by rw [hpc]; decide) (by rw [hpc]; decide) hover
      rw [Option.map_none, Option.toList_none, List.append_nil]
      exact ho
  | accept cmd hpc hcmd =>
      have hover := hI.running (by rw [hpc]; decide) (by rw [hpc]; decide)
      have ho := hs.opening (by rw [hpc]; decide) (by rw [hpc]; decide) hover
      rw [Option.map_none, Option.toList_none, List.append_nil]
      exact ho

-- ===================================================================== the end

/-- The board is as it should be, and the commands in order. -/
structure Orderly (h : Header) (s : Sys) : Prop where
  board : Inv h s.gm
  sent : SentOk h s.gm (sentCmds s.log)

theorem orderly_init (h : Header) (mem : Grid) : Orderly h (Sys.init h mem) :=
  ⟨Inv.init h mem, rfl⟩

theorem orderly_step {s s' : Sys} {a : SysAct} (ho : Orderly h s)
    (hstep : SysSteps h atoi s a s') : Orderly h s' := by
  have hquiet : ∀ {e : Event}, (∀ cmd, e ≠ .gmSent cmd) →
      sentCmds (s.log ++ [e]) = sentCmds s.log := by
    intro e he
    cases e with
    | gmSent cmd => exact absurd rfl (he cmd)
    | _ => simp [sentCmds]
  cases hstep with
  | @gmGo c gm hgm =>
      have hsent := sentOk_step ho.board ho.sent hgm
      cases c with
      | none =>
          rw [Option.map_none, Option.toList_none, List.append_nil] at hsent
          exact ⟨inv_step ho.board hgm, hsent⟩
      | some c =>
          refine ⟨inv_step ho.board hgm, ?_⟩
          simpa [Sys.gmSend, sentCmds] using hsent
  | gmGetCmd hpipe hgm =>
      have hsent := sentOk_step ho.board ho.sent hgm
      rw [Option.map_none, Option.toList_none, List.append_nil] at hsent
      refine ⟨inv_step ho.board hgm, ?_⟩
      dsimp only
      rw [hquiet (by simp)]
      exact hsent
  | playerGetCmd hpc hpipe =>
      refine ⟨ho.board, ?_⟩
      dsimp only
      rw [hquiet (by simp)]
      exact ho.sent
  | playerScan str hpc => exact ⟨ho.board, ho.sent⟩
  | playerSendCmd hpc =>
      refine ⟨ho.board, ?_⟩
      dsimp only
      rw [hquiet (by simp)]
      exact ho.sent

/-- In every interleaving a game takes at most 105 steps, five for each
move refused and one for each line that is not a move; and it stops only
when both processes have left, after one result and GAME_END. -/
theorem game_ends (h : Header) (atoi : List Char → Int) (mem : Grid)
    (acts : List SysAct) (s : Sys)
    (hrun : run (sysStep h atoi) (Sys.init h mem) acts = some s) :
    acts.length ≤ 105 + 5 * s.rejections h
        + acts.countP (SysAct.invalid h atoi)
      ∧ ((∀ a, sysStep h atoi s a = none) →
        s.gm.pc = .done ∧ s.player.pc = .exited
          ∧ ∃ os r, Opening h os ∧ IsResult r
            ∧ sentCmds s.log = os ++ [h.code r, h.code .gameEnd]) := by
  have hinv : ∀ s a s', Orderly h s → sysStep h atoi s a = some s' →
      Orderly h s' :=
    fun _ _ _ ho hs => orderly_step ho (sysSteps_of_step hs)
  constructor
  · have hlen := run_length_le_paid (I := Orderly h) Sys.toGo
      (Sys.spent h) (SysAct.invalid h atoi) hinv
      (fun _ _ _ ho hs => sysSteps_paid ho.board (sysSteps_of_step hs))
      (orderly_init h mem) hrun
    have hstart : (Sys.init h mem).toGo = 100
        ∧ (Sys.init h mem).spent h = 0 := ⟨rfl, rfl⟩
    have howed : s.gm.owed ≤ 5 := by
      unfold Gm.owed
      split <;> decide
    rw [hstart.1, hstart.2] at hlen
    unfold Sys.spent at hlen
    omega
  · intro hstuck
    rcases processes_progress h atoi mem hrun with ⟨hgm, hplayer⟩ | ⟨a, ha⟩
    · have ho := run_inv (I := Orderly h) hinv (orderly_init h mem) hrun
      have hsent := ho.sent
      simp only [SentOk, hgm] at hsent
      exact ⟨hgm, hplayer, hsent⟩
    · rw [hstuck a] at ha
      cases ha

/-- A game the player wins with cells 3, 5 and 7. -/
theorem game_ends_won :
    ∃ s, run (sysStep Header.sample decimal)
        (Sys.init Header.sample fun _ => 0)
        ([.gmGo, .playerGetCmd]
          ++ [['3'], ['5']].flatMap (fun str => [.gmGo, .playerGetCmd,
            .playerScan str, .playerSendCmd, .gmGetCmd, .gmGo, .gmGo, .gmGo])
          ++ [.gmGo, .playerGetCmd, .playerScan ['7'], .playerSendCmd,
            .gmGetCmd, .gmGo, .gmGo, .playerGetCmd]) = some s
      ∧ ∃ os r, Opening Header.sample os ∧ IsResult r
        ∧ sentCmds s.log = os ++ [Header.sample.code r,
          Header.sample.code .gameEnd] := by
  have hret : ∃ s, run (sysStep Header.sample decimal)
        (Sys.init Header.sample fun _ => 0)
        ([.gmGo, .playerGetCmd]
          ++ [['3'], ['5']].flatMap (fun str => [.gmGo, .playerGetCmd,
            .playerScan str, .playerSendCmd, .gmGetCmd, .gmGo, .gmGo, .gmGo])
          ++ [.gmGo, .playerGetCmd, .playerScan ['7'], .playerSendCmd,
            .gmGetCmd, .gmGo, .gmGo, .playerGetCmd]) = some s
      ∧ s.gm.pc = .done ∧ s.player.pc = .exited :=
    ⟨_, rfl, rfl, rfl⟩
  obtain ⟨s, hs, hgm, hplayer⟩ := hret
  refine ⟨s, hs, ((game_ends _ _ _ _ s hs).2 fun a => ?_).2.2⟩
  cases a with
  | gmGetCmd =>
      cases hpipe : s.toGm with
      | nil => simp [sysStep, hpipe]
      | cons move toGm => simp [sysStep, hpipe, receive, hgm]
  | gmGo => simp [sysStep, go, hgm]
  | _ => simp [sysStep, hplayer]

end SyeLabs.Tictactoe
