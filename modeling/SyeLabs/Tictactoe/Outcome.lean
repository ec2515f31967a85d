/-
The outcome of a game of tictactoe.

# The lines of `win`

Two of the lines that `win` tests are not lines of the board: cells 0, 4
and 5 stand for the diagonal 0, 4, 8, and for the computer cells 2, 5
and 6 for the diagonal 2, 4, 6. `win_eq` reads the sixteen tests back as
the lines each side is tested for (`rightLines` and `wrongLines`).

# When the outcome is right

A check announces the right outcome exactly when the side that has just
moved holds a line that is tested rightly, or holds a wrong one exactly
if it holds a diagonal that is missed (`Detects`). That is so only while
the checks before it were right: no line of either side, true or false,
may be on the board before the move (`Clear`), or the move could share
no cell with the line it is blamed for.
-/
import Mathlib.Tactic.Tauto
import SyeLabs.Tictactoe.Board

namespace SyeLabs.Tictactoe

open Lib

variable {h : Header}

-- ======================================================================= lines

/-- Three cells. -/
abbrev Line := Int × Int × Int

def Line.cells (l : Line) : List Int := [l.1, l.2.1, l.2.2]

/-- One of the lines is the side's. -/
def HoldsOne (grid : Grid) (id : Int) (ls : List Line) : Prop :=
  ∃ l ∈ ls, ∀ i ∈ l.cells, grid i = id

instance (grid : Grid) (id : Int) (ls : List Line) :
    Decidable (HoldsOne grid id ls) :=
  inferInstanceAs (Decidable (∃ l ∈ ls, ∀ i ∈ l.cells, grid i = id))

theorem holdsOne_append {grid : Grid} {id : Int} {ls ms : List Line} :
    HoldsOne grid id (ls ++ ms)
      ↔ HoldsOne grid id ls ∨ HoldsOne grid id ms := by
  simp only [HoldsOne, List.mem_append, or_and_right, exists_or]

theorem holdsOne_cons {grid : Grid} {id : Int} {l : Line} {ls : List Line} :
    HoldsOne grid id (l :: ls)
      ↔ holds grid id l.1 l.2.1 l.2.2 = true ∨ HoldsOne grid id ls := by
  simp [HoldsOne, Line.cells, holds, and_assoc]

theorem holdsOne_nil {grid : Grid} {id : Int} : ¬ HoldsOne grid id [] := by
  simp [HoldsOne]

/-- The rows and the columns. -/
def straight : List Line :=
  [(0, 1, 2), (3, 4, 5), (6, 7, 8), (0, 3, 6), (1, 4, 7), (2, 5, 8)]

/-- The eight lines of the board. -/
def lines : List Line := straight ++ [(0, 4, 8), (2, 4, 6)]

/-- The lines of the board that `win` tests for a side. -/
def rightLines (h : Header) (id : Int) : List Line :=
  if id = h.playerId then straight ++ [(2, 4, 6)] else straight

/-- What else it tests for that side. -/
def wrongLines (h : Header) (id : Int) : List Line :=
  if id = h.playerId then [(0, 4, 5)] else [(0, 4, 5), (2, 5, 6)]

/-- The lines of the board that it does not test for that side. -/
def missedLines (h : Header) (id : Int) : List Line :=
  if id = h.playerId then [(0, 4, 8)] else [(0, 4, 8), (2, 4, 6)]

/-- A side has what `win` takes for a line. -/
def Wins (h : Header) (grid : Grid) (id : Int) : Prop :=
  HoldsOne grid id (rightLines h id ++ wrongLines h id)

instance (h : Header) (grid : Grid) (id : Int) : Decidable (Wins h grid id) :=
  inferInstanceAs (Decidable (HoldsOne grid id _))

theorem holdsOne_lines_iff {grid : Grid} {id : Int} :
    HoldsOne grid id lines
      ↔ HoldsOne grid id (rightLines h id ++ missedLines h id) := by
  unfold rightLines missedLines lines
  split
  · simp only [holdsOne_append, holdsOne_cons, holdsOne_nil, or_false]
    tauto
  · rfl

/-- The sixteen tests of `win` and its draw test. -/
theorem win_eq (grid : Grid) :
    win h grid
      = if Wins h grid h.playerId ∨ Wins h grid h.aiId then .win
        else if cellLeft h grid = 0 then .draw else .progress := by
  have hne : h.aiId ≠ h.playerId := h.playerId_ne_aiId.symm
  unfold win
  simp only [← ite_or]
  refine if_congr ?_ rfl rfl
  simp only [Wins, rightLines, wrongLines, straight, if_true, if_neg hne,
    holdsOne_append, holdsOne_cons, holdsOne_nil, or_false,
    Bool.or_eq_true]
  exact Iff.of_eq (by ac_rfl)

/-- What `check_game_state` sends. -/
theorem checkGameState_eq (grid : Grid) (currentId : Int) :
    checkGameState h grid currentId
      = if Wins h grid h.playerId ∨ Wins h grid h.aiId then
          some (if currentId = h.playerId then .youWin else .youLose)
        else if cellLeft h grid = 0 then some .noWinner else none := by
  unfold checkGameState
  rw [win_eq]
  by_cases hwins : Wins h grid h.playerId ∨ Wins h grid h.aiId
  · rw [if_pos hwins, if_pos hwins]
  · rw [if_neg hwins, if_neg hwins]
    by_cases hleft : cellLeft h grid = 0
    · rw [if_pos hleft, if_pos hleft]
    · rw [if_neg hleft, if_neg hleft]

-- =========================================================== the right outcome

/-- The last move completes one of the eight lines for the side. -/
def Completes (grid : Grid) (id move : Int) : Prop :=
  ∃ l ∈ lines, move ∈ l.cells ∧ ∀ i ∈ l.cells, grid i = id

instance (grid : Grid) (id move : Int) : Decidable (Completes grid id move) :=
  inferInstanceAs (Decidable (∃ l ∈ lines, move ∈ l.cells
    ∧ ∀ i ∈ l.cells, grid i = id))

/-- The grid is full and neither side has a line. -/
def Drawn (h : Header) (grid : Grid) : Prop :=
  (∀ i, InGrid i → grid i ≠ emptyId)
    ∧ ¬ HoldsOne grid h.playerId lines ∧ ¬ HoldsOne grid h.aiId lines

/-- The outcome is announced by the step that should, and by no other. -/
structure Announced (h : Header) (s : Gm) (c : Option Cmd) (s' : Gm) :
    Prop where
  youWin : c = some .youWin ↔ s.pc = .check ∧ s.player = h.playerId
    ∧ Completes s.grid h.playerId s.move
  youLose : c = some .youLose ↔ s.pc = .check ∧ s.player = h.aiId
    ∧ Completes s.grid h.aiId s.move
  noWinner : c = some .noWinner ↔ s.pc = .check ∧ Drawn h s.grid
  goesOn : s.pc = .check → (s'.gameOver = false
    ↔ ¬ Completes s.grid s.player s.move ∧ ¬ Drawn h s.grid)

/-- Whatever the step sends is announced rightly. -/
def Announces (h : Header) (s : Gm) (a : Act) : Prop :=
  ∀ c s', stepSend h s a = some (c, s') → Announced h s c s'

/-- The side holds a line that `win` tests rightly for it, or a wrong one
exactly if it holds one that is missed. -/
def Detects (h : Header) (grid : Grid) (id : Int) : Prop :=
  HoldsOne grid id (rightLines h id)
    ∨ (HoldsOne grid id (wrongLines h id)
      ↔ HoldsOne grid id (missedLines h id))

/-- Before each check the side that has moved passes `Detects`. -/
def DetectsAtCheck (h : Header) (s : Gm) (a : Act) : Prop :=
  a = .go → s.pc = .check → Detects h s.grid s.player

theorem detects_iff {grid : Grid} {id : Int} :
    Detects h grid id ↔ (Wins h grid id ↔ HoldsOne grid id lines) := by
  unfold Detects Wins
  rw [holdsOne_lines_iff (h := h), holdsOne_append, holdsOne_append]
  tauto

-- ==================================================== one move on a clear grid

/-- Neither side has a line, or what `win` takes for one. -/
def Clear (h : Header) (grid : Grid) : Prop :=
  ∀ id, id = h.playerId ∨ id = h.aiId →
    ¬ Wins h grid id ∧ ¬ HoldsOne grid id lines

/-- The grid before the last move. -/
def Gm.before (s : Gm) : Grid := Function.update s.grid s.move emptyId

/-- Lines without the cell of the last move were there before it. -/
theorem holds_before {grid : Grid} {id move : Int} {l : Line}
    (hmove : move ∉ l.cells) (hl : ∀ i ∈ l.cells, grid i = id) :
    ∀ i ∈ l.cells, Function.update grid move emptyId i = id := by
  intro i hi
  have hne : i ≠ move := fun heq => hmove (heq ▸ hi)
  rw [Function.update_of_ne hne]
  exact hl i hi

/-- A move gives the other side no line. -/
theorem holdsOne_before {grid : Grid} {id move : Int} {ls : List Line}
    (hmove : grid move ≠ id) (hls : HoldsOne grid id ls) :
    HoldsOne (Function.update grid move emptyId) id ls := by
  obtain ⟨l, hl, hcells⟩ := hls
  exact ⟨l, hl, holds_before (fun hmem => hmove (hcells move hmem)) hcells⟩

/-- On a grid that was clear a line of the mover goes through its move. -/
theorem completes_iff {grid : Grid} {id move : Int}
    (hclear : ¬ HoldsOne (Function.update grid move emptyId) id lines) :
    Completes grid id move ↔ HoldsOne grid id lines := by
  constructor
  · rintro ⟨l, hl, -, hcells⟩
    exact ⟨l, hl, hcells⟩
  · rintro ⟨l, hl, hcells⟩
    by_cases hmove : move ∈ l.cells
    · exact ⟨l, hl, hmove, hcells⟩
    · exact absurd ⟨l, hl, holds_before hmove hcells⟩ hclear

/-- What is known of a game while its outcomes have been right. -/
structure Undecided (h : Header) (s : Gm) : Prop where
  inv : Inv h s
  clear : s.pc ≠ .check → s.gameOver = false → Clear h s.grid
  before : s.pc = .check → Clear h s.before
  moved : s.pc = .check → s.grid s.move = s.player

/-- The other side's lines at a check. -/
theorem Undecided.other {s : Gm} (hU : Undecided h s) (hpc : s.pc = .check)
    {id : Int} (hid : id = h.playerId ∨ id = h.aiId) (hne : s.player ≠ id) :
    ¬ Wins h s.grid id ∧ ¬ HoldsOne s.grid id lines := by
  have hclear := hU.before hpc id hid
  have hmove : s.grid s.move ≠ id := by
    rw [hU.moved hpc]
    exact hne
  exact ⟨fun hw => hclear.1 (holdsOne_before hmove hw),
    fun hl => hclear.2 (holdsOne_before hmove hl)⟩

theorem Undecided.wins_iff {s : Gm} (hU : Undecided h s)
    (hpc : s.pc = .check) :
    Wins h s.grid h.playerId ∨ Wins h s.grid h.aiId
      ↔ Wins h s.grid s.player := by
  rcases hU.inv.player with heq | heq
  · have hother := hU.other hpc (Or.inr rfl) (heq ▸ h.playerId_ne_aiId)
    rw [heq]
    exact or_iff_left hother.1
  · have hother := hU.other hpc (Or.inl rfl) (heq ▸ h.playerId_ne_aiId.symm)
    rw [heq]
    exact or_iff_right hother.1

theorem Undecided.drawn_iff {s : Gm} (hU : Undecided h s)
    (hpc : s.pc = .check) :
    Drawn h s.grid
      ↔ cellLeft h s.grid = 0 ∧ ¬ HoldsOne s.grid s.player lines := by
  have hfull : (∀ i, InGrid i → s.grid i ≠ emptyId)
      ↔ cellLeft h s.grid = 0 := by
    rw [cellLeft_eq_zero_iff]
    refine forall_congr' fun i => imp_congr_right fun hi => ?_
    have hp : h.playerId ≠ emptyId := h.playerId_ne
    have ha : h.aiId ≠ emptyId := h.aiId_ne
    have hside := hU.inv.sides i hi
    constructor
    · intro hne
      exact (hside.resolve_left hne).symm
    · rintro (heq | heq) <;> rw [heq]
      · exact ha
      · exact hp
  unfold Drawn
  rw [hfull]
  refine and_congr_right fun _ => ?_
  rcases hU.inv.player with heq | heq
  · have hother := hU.other hpc (Or.inr rfl) (heq ▸ h.playerId_ne_aiId)
    rw [heq]
    exact and_iff_left hother.2
  · have hother := hU.other hpc (Or.inl rfl) (heq ▸ h.playerId_ne_aiId.symm)
    rw [heq]
    exact and_iff_right hother.2

/-- The command of a check, from what the mover has. -/
theorem Undecided.checkGameState_eq {s : Gm} (hU : Undecided h s)
    (hpc : s.pc = .check) :
    checkGameState h s.grid s.player
      = if Wins h s.grid s.player then
          some (if s.player = h.playerId then .youWin else .youLose)
        else if cellLeft h s.grid = 0 then some .noWinner else none := by
  rw [Tictactoe.checkGameState_eq]
  exact if_congr (hU.wins_iff hpc) rfl rfl

/-- A line of the mover is completed by the move. -/
theorem Undecided.completes_iff {s : Gm} (hU : Undecided h s)
    (hpc : s.pc = .check) :
    Completes s.grid s.player s.move ↔ HoldsOne s.grid s.player lines :=
  Tictactoe.completes_iff (hU.before hpc s.player hU.inv.player).2

/-- Which command is sent, by the three tests a check makes. -/
theorem announcement_iff {wins mine full : Prop} [Decidable wins]
    [Decidable mine] [Decidable full] {c : Option Cmd}
    (hc : c = if wins then some (if mine then .youWin else .youLose)
      else if full then some .noWinner else none) :
    (c = some .youWin ↔ mine ∧ wins) ∧ (c = some .youLose ↔ ¬ mine ∧ wins)
      ∧ (c = some .noWinner ↔ full ∧ ¬ wins)
      ∧ (c = none ↔ ¬ wins ∧ ¬ full) := by
  subst hc
  by_cases hw : wins
  · by_cases hm : mine
    · simp [hw, hm]
    · simp [hw, hm]
  · by_cases hf : full
    · simp [hw, hf]
    · simp [hw, hf]

/-- A right announcement tells whether the mover has a line. -/
theorem detects_of_announced {s : Gm} (hU : Undecided h s)
    (hpc : s.pc = .check)
    (hann : Announced h s (checkGameState h s.grid s.player)
      (s.checked h)) : Detects h s.grid s.player := by
  obtain ⟨hwin, hlose, -, -⟩ := announcement_iff (hU.checkGameState_eq hpc)
  have hcomplete := hU.completes_iff hpc
  rw [detects_iff]
  rcases hU.inv.player with heq | heq
  · have hann := hwin.symm.trans hann.youWin
    rw [← heq, hcomplete] at hann
    constructor
    · exact fun hw => (hann.mp ⟨rfl, hw⟩).2.2
    · exact fun hl => (hann.mpr ⟨hpc, rfl, hl⟩).2
  · have hne : s.player ≠ h.playerId := by
      rw [heq]
      exact h.playerId_ne_aiId.symm
    have hann := hlose.symm.trans hann.youLose
    rw [← heq, hcomplete] at hann
    constructor
    · exact fun hw => (hann.mp ⟨hne, hw⟩).2.2
    · exact fun hl => (hann.mpr ⟨hpc, rfl, hl⟩).2

/-- A check of a mover that passes `Detects` announces rightly. -/
theorem announced_of_detects {s : Gm} (hU : Undecided h s)
    (hpc : s.pc = .check) (hdet : Detects h s.grid s.player) :
    Announced h s (checkGameState h s.grid s.player) (s.checked h) := by
  obtain ⟨hwin, hlose, hdraw, hnone⟩ :=
    announcement_iff (hU.checkGameState_eq hpc)
  have hwins : Wins h s.grid s.player
      ↔ HoldsOne s.grid s.player lines := detects_iff.mp hdet
  have hcomplete := (hU.completes_iff hpc).trans hwins.symm
  have hdrawn := hU.drawn_iff hpc
  rw [← hwins] at hdrawn
  have hover : s.gameOver = false :=
    hU.inv.running (by rw [hpc]; decide) (by rw [hpc]; decide)
  refine ⟨hwin.trans ?_, hlose.trans ?_, hdraw.trans ?_, fun _ => ?_⟩
  · constructor
    · rintro ⟨hp, hw⟩
      rw [← hp]
      exact ⟨hpc, rfl, hcomplete.mpr hw⟩
    · rintro ⟨-, hp, hline⟩
      rw [← hp] at hline
      exact ⟨hp, hcomplete.mp hline⟩
  · constructor
    · rintro ⟨hp, hw⟩
      have ha := hU.inv.player.resolve_left hp
      rw [← ha]
      exact ⟨hpc, rfl, hcomplete.mpr hw⟩
    · rintro ⟨-, ha, hline⟩
      rw [← ha] at hline
      refine ⟨?_, hcomplete.mp hline⟩
      rw [ha]
      exact h.playerId_ne_aiId.symm
  · rw [hdrawn]
    exact (and_iff_right hpc).symm
  · have hsome : (s.checked h).gameOver = false
        ↔ checkGameState h s.grid s.player = none := by
      simp [hover]
    rw [hsome, hnone, hcomplete, hdrawn]
    exact and_congr_right fun hw => not_congr (and_iff_left hw).symm

theorem announced_check_iff {s : Gm} (hU : Undecided h s)
    (hpc : s.pc = .check) :
    Announced h s (checkGameState h s.grid s.player) (s.checked h)
      ↔ Detects h s.grid s.player :=
  ⟨detects_of_announced hU hpc, announced_of_detects hU hpc⟩

-- ================================================================ a whole game

theorem Undecided.init (h : Header) (mem : Grid) :
    Undecided h (Gm.init h mem) where
  inv := Inv.init h mem
  clear _ _ := by
    have hempty : ∀ id, id ≠ 0 → ∀ ls : List Line,
        (∀ l ∈ ls, InGrid l.1) → ¬ HoldsOne (initGrid mem) id ls := by
      rintro id hid ls hls ⟨l, hl, hcells⟩
      have hfirst := hcells l.1 List.mem_cons_self
      rw [initGrid_apply mem (hls l hl)] at hfirst
      exact hid hfirst.symm
    have hside : ∀ id, id = h.playerId ∨ id = h.aiId → id ≠ 0 := by
      rintro id (rfl | rfl)
      · exact h.playerId_ne
      · exact h.aiId_ne
    intro id hid
    refine ⟨hempty id (hside id hid) _ ?_, hempty id (hside id hid) _ ?_⟩
    · unfold rightLines wrongLines
      split <;> decide
    · decide
  before hpc := nomatch hpc
  moved hpc := nomatch hpc

/-- A turn's assignment leaves the grid before it in view. -/
theorem Undecided.assign {s : Gm} (hU : Undecided h s) {i : Int}
    (hempty : s.grid i = emptyId) (hpc : s.pc ≠ .check)
    (hover : s.gameOver = false) (hI : Inv h (s.assign i s.player)) :
    Undecided h (s.assign i s.player) where
  inv := hI
  clear hne := absurd rfl hne
  before _ := by
    have hback : (s.assign i s.player).before = s.grid := by
      exact update_update_empty s.player hempty
    rw [hback]
    exact hU.clear hpc hover
  moved _ := by simp [Gm.assign]

/-- After a check that announces rightly and goes on the grid is clear. -/
theorem Undecided.check {s : Gm} (hU : Undecided h s) (hpc : s.pc = .check)
    (hdet : Detects h s.grid s.player) (hI : Inv h (s.checked h)) :
    Undecided h (s.checked h) where
  inv := hI
  clear _ hover := by
    obtain ⟨-, hnone⟩ := Bool.or_eq_false_iff.mp hover
    have hnothing : checkGameState h s.grid s.player = none :=
      Option.not_isSome_iff_eq_none.mp (by simpa using hnone)
    obtain ⟨-, -, -, hc⟩ := announcement_iff (hU.checkGameState_eq hpc)
    obtain ⟨hwins, -⟩ := hc.mp hnothing
    intro id hid
    by_cases hplayer : s.player = id
    · subst hplayer
      exact ⟨hwins, fun hl => hwins ((detects_iff.mp hdet).mpr hl)⟩
    · exact hU.other hpc hid hplayer
  before hpc' := nomatch hpc'
  moved hpc' := nomatch hpc'

/-- A step to another place, with nothing assigned. -/
theorem Undecided.goto {s : Gm} (hU : Undecided h s) {pc : Pc}
    (hfrom : s.pc ≠ .check) (hto : pc ≠ .check)
    (hI : Inv h { s with pc := pc }) : Undecided h { s with pc := pc } where
  inv := hI
  clear _ hover := hU.clear hfrom hover
  before hpc := absurd hpc hto
  moved hpc := absurd hpc hto

theorem undecided_step {s s' : Gm} {a : Act} {c : Option Cmd}
    (hU : Undecided h s) (hdet : DetectsAtCheck h s a)
    (hstep : Steps h s a c s') : Undecided h s' := by
  have hI := inv_step hU.inv hstep
  cases hstep with
  | computer hpc hover hplayer =>
      obtain ⟨i, -, hempty, heq⟩ := hU.inv.computer hpc hover hplayer
      rw [heq] at hI ⊢
      exact hU.assign hempty (by rw [hpc]; decide) hover hI
  | check hpc => exact hU.check hpc (hdet rfl hpc) hI
  | accept cmd hpc hcmd =>
      obtain ⟨-, hempty⟩ := not_rejects_iff.mp hcmd
      rw [← hU.inv.waiting (Or.inl hpc)] at hI ⊢
      exact hU.assign hempty (by rw [hpc]; decide)
        (hU.inv.running (by rw [hpc]; decide) (by rw [hpc]; decide)) hI
  | start hpc => exact hU.goto (by rw [hpc]; decide) (by decide) hI
  | finish hpc _ => exact hU.goto (by rw [hpc]; decide) (by decide) hI
  | prompt hpc _ _ => exact hU.goto (by rw [hpc]; decide) (by decide) hI
  | reject hpc => exact hU.goto (by rw [hpc]; decide) (by decide) hI
  | refuse cmd hpc _ => exact hU.goto (by rw [hpc]; decide) (by decide) hI

/-- A step that is no check announces nothing. -/
theorem announced_of_ne_check {s s' : Gm} {a : Act} {c : Option Cmd}
    (hpc : s.pc ≠ .check) (hstep : Steps h s a c s') :
    Announced h s c s' := by
  have hno : c ≠ some .youWin ∧ c ≠ some .youLose ∧ c ≠ some .noWinner := by
    cases hstep with
    | check hcheck => exact absurd hcheck hpc
    | _ => decide
  exact ⟨iff_of_false hno.1 fun h => hpc h.1,
    iff_of_false hno.2.1 fun h => hpc h.1,
    iff_of_false hno.2.2 fun h => hpc h.1, fun h => absurd h hpc⟩

/-- One step announces rightly exactly when its check, if it is one, is of
a mover that passes `Detects`. -/
theorem announces_iff {s : Gm} (hU : Undecided h s) (a : Act) :
    Announces h s a ↔ DetectsAtCheck h s a := by
  constructor
  · rintro hann rfl hpc
    have hstep : stepSend h s .go
        = some (checkGameState h s.grid s.player, s.checked h) := by
      simp only [stepSend, go, hpc]
    exact (announced_check_iff hU hpc).mp (hann _ _ hstep)
  · intro hdet c s' hstep
    have hsteps := steps_of_stepSend hstep
    by_cases hpc : s.pc = .check
    · cases hsteps with
      | check _ => exact (announced_check_iff hU hpc).mpr (hdet rfl hpc)
      | _ => simp_all
    · exact announced_of_ne_check hpc hsteps

/-- Whatever is received, the outcomes announced in a game are all right
exactly when before each check the side that has moved holds a line that
is tested rightly, or a wrong one exactly if it holds one that is
missed. -/
theorem announces_iff_detects (h : Header) (mem : Grid) (acts : List Act) :
    Along (step h) (Announces h) (Gm.init h mem) acts
      ↔ Along (step h) (DetectsAtCheck h) (Gm.init h mem) acts := by
  refine along_iff_along (I := Undecided h) (fun s a => ?_)
    (fun s a s' hU hdet hstep => ?_) (Undecided.init h mem)
  · exact fun hU => announces_iff hU a
  · obtain ⟨c, hsteps⟩ := steps_of_step hstep
    exact undecided_step hU hdet hsteps

/-- The player's diagonal 0, 4, 8 wins nothing: the player takes 0, 4 and
8 while the computer takes 1 and 2, and the game goes on. -/
theorem not_announces_diagonal :
    ¬ Along (step Header.sample) (Announces Header.sample)
      (Gm.init Header.sample fun _ => 0)
      [.go, .go, .receive 0, .go, .go, .go, .go, .receive 4, .go, .go, .go,
        .go, .receive 8, .go] := by
  intro halong
  have hsome : (run (step Header.sample) (Gm.init Header.sample fun _ => 0)
      [.go, .go, .receive 0, .go, .go, .go, .go, .receive 4, .go, .go, .go,
        .go, .receive 8, .go]).isSome = true := by decide
  obtain ⟨s, hrun⟩ := Option.isSome_iff_exists.mp hsome
  have hann := along_iff_forall_split.mp halong
    [.go, .go, .receive 0, .go, .go, .go, .go, .receive 4, .go, .go, .go,
      .go, .receive 8] .go [] _ rfl rfl _ _ rfl
  exact absurd (hann.youWin.mpr ⟨rfl, rfl, by decide⟩) (by decide)

end SyeLabs.Tictactoe
