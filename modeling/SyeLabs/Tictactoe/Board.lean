/-
The board of tictactoe over a whole game.

# What a turn writes

Whatever the player sends, each turn assigns to one cell, which lies in
the grid and was empty (`WritesOne`), so the players alternate and the
grid is full after nine turns. The computer's move is used unchecked as
an index: it is in range because `check_game_state` ends the game when
no cell is left (`Inv.room`) and because `minmax` takes back every move
it tries.
-/
import Mathlib.Data.List.Basic
import Mathlib.Data.List.Perm.Subperm
import SyeLabs.Lib.Run
import SyeLabs.Tictactoe.GameManager

namespace SyeLabs.Tictactoe

open Lib

variable {h : Header}

-- ==================================================================== counting

/-- The cells a side holds. -/
def held (grid : Grid) (id : Int) : Nat := cells.countP (grid · == id)

theorem countP_update {grid : Grid} {i id : Int} {is : List Int}
    (hnodup : is.Nodup) (hi : i ∈ is) (hne : grid i ≠ id) :
    is.countP (Function.update grid i id · == id)
      = is.countP (grid · == id) + 1 := by
  induction is with
  | nil => cases hi
  | cons j is ih =>
      obtain ⟨hj, hnodup⟩ := List.nodup_cons.mp hnodup
      by_cases hij : i = j
      · subst hij
        have hrest : is.countP (Function.update grid i id · == id)
            = is.countP (grid · == id) := by
          apply List.countP_congr
          intro k hk
          have hki : k ≠ i := fun heq => hj (heq ▸ hk)
          rw [Function.update_of_ne hki]
        rw [List.countP_cons_of_pos (by simp),
          List.countP_cons_of_neg (by simpa using hne), hrest]
      · have hi := (List.mem_cons.mp hi).resolve_left hij
        rw [List.countP_cons, List.countP_cons, ih hnodup hi,
          Function.update_of_ne (Ne.symm hij)]
        omega

/-- A move adds a cell to the side that makes it. -/
theorem held_update_self {grid : Grid} {i id : Int} (hi : InGrid i)
    (hne : grid i ≠ id) :
    held (Function.update grid i id) id = held grid id + 1 :=
  countP_update cells_nodup (mem_cells_iff.mpr hi) hne

/-- A move onto a cell the other side does not hold leaves its count. -/
theorem held_update_of_ne {grid : Grid} {i id other : Int}
    (hne : grid i ≠ other) (hid : id ≠ other) :
    held (Function.update grid i id) other = held grid other := by
  apply List.countP_congr
  intro k _
  by_cases hki : k = i
  · subst hki
    simp [hne, hid]
  · rw [Function.update_of_ne hki]

theorem cellLeft_foldl (is : List Int) (grid : Grid) (left : Int) :
    is.foldl (fun left i =>
        if grid i == h.aiId || grid i == h.playerId then left - 1 else left)
        left
      = left - is.countP (fun i => grid i == h.aiId || grid i == h.playerId)
        := by
  induction is generalizing left with
  | nil => simp
  | cons i is ih =>
      rw [List.foldl_cons, ih, List.countP_cons]
      split
      · push_cast
        omega
      · simp

/-- No cell is left exactly when every cell is a side's. -/
theorem cellLeft_eq_zero_iff {grid : Grid} :
    cellLeft h grid = 0 ↔
      ∀ i, InGrid i → grid i = h.aiId ∨ grid i = h.playerId := by
  have hlength : (cells.length : Int) = gridSize := rfl
  have hle := List.countP_le_length (l := cells)
    (p := fun i => grid i == h.aiId || grid i == h.playerId)
  have hall := List.countP_eq_length (l := cells)
    (p := fun i => grid i == h.aiId || grid i == h.playerId)
  unfold cellLeft
  rw [cellLeft_foldl]
  constructor
  · intro hzero i hi
    have hcount := hall.mp (by omega) i (mem_cells_iff.mpr hi)
    simpa using hcount
  · intro hfull
    have hcount := hall.mpr fun i hi => by
      simpa using hfull i (mem_cells_iff.mp hi)
    omega

theorem foldl_update (is : List Int) (mem : Grid) (i : Int) :
    is.foldl (fun grid i => Function.update grid i emptyId) mem i
      = if i ∈ is then emptyId else mem i := by
  induction is generalizing mem with
  | nil => rfl
  | cons j is ih =>
      rw [List.foldl_cons, ih]
      by_cases hi : i ∈ is
      · rw [if_pos hi, if_pos (List.mem_cons_of_mem j hi)]
      · by_cases hij : i = j
        · subst hij
          simp
        · rw [if_neg hi, Function.update_of_ne hij, if_neg (by simp [hi, hij])]

theorem initGrid_apply (mem : Grid) {i : Int} (hi : InGrid i) :
    initGrid mem i = emptyId := by
  unfold initGrid
  rw [foldl_update, if_pos (mem_cells_iff.mpr hi)]

-- =============================================================== the invariant

/-- What holds between the steps of a game. -/
structure Inv (h : Header) (s : Gm) : Prop where
  sides : ∀ i, InGrid i → s.grid i = emptyId ∨ s.grid i = h.playerId
    ∨ s.grid i = h.aiId
  player : s.player = h.playerId ∨ s.player = h.aiId
  waiting : s.pc = .getCmd ∨ s.pc = .rejected → s.player = h.playerId
  running : s.pc ≠ .loop → s.pc ≠ .done → s.gameOver = false
  room : s.pc ≠ .check → s.gameOver = false →
    ∃ i, InGrid i ∧ s.grid i = emptyId
  nodup : s.written.Nodup
  written : ∀ i, i ∈ s.written ↔ InGrid i ∧ s.grid i ≠ emptyId
  turns : s.written.length = s.turns + if s.pc = .check then 1 else 0
  balance : held s.grid h.playerId = held s.grid h.aiId
    + if (s.pc = .check ↔ s.player = h.playerId) then 1 else 0

theorem held_init (mem : Grid) {id : Int} (hid : id ≠ 0) :
    held (initGrid mem) id = 0 := by
  unfold held
  rw [List.countP_eq_zero]
  intro i hi
  rw [initGrid_apply mem (mem_cells_iff.mp hi)]
  simpa [emptyId] using Ne.symm hid

theorem Inv.init (h : Header) (mem : Grid) : Inv h (Gm.init h mem) where
  sides i hi := Or.inl (initGrid_apply mem hi)
  player := Or.inl rfl
  waiting _ := rfl
  running _ _ := rfl
  room _ _ := ⟨0, by decide, initGrid_apply mem (i := 0) (by decide)⟩
  nodup := List.nodup_nil
  written i := by
    refine iff_of_false List.not_mem_nil fun ⟨hi, hne⟩ => ?_
    exact hne (initGrid_apply mem hi)
  turns := rfl
  balance := by
    have hp := held_init mem h.playerId_ne
    have ha := held_init mem h.aiId_ne
    have hturn : ¬ ((Gm.init h mem).pc = .check
        ↔ (Gm.init h mem).player = h.playerId) := fun hiff => by
      cases hiff.mpr rfl
    rw [if_neg hturn]
    exact hp.trans ha.symm

/-- The grid assignment of a turn. -/
theorem Inv.assign {s : Gm} (hI : Inv h s) {i : Int} (hi : InGrid i)
    (hempty : s.grid i = emptyId) (hpc : s.pc ≠ .check)
    (hover : s.gameOver = false) : Inv h (s.assign i s.player) := by
  have hplayer : s.player ≠ 0 := by
    rcases hI.player with heq | heq <;> rw [heq]
    · exact h.playerId_ne
    · exact h.aiId_ne
  have hnew : i ∉ s.written := fun hmem => ((hI.written i).mp hmem).2 hempty
  refine
    { sides := fun j hj => ?_, player := hI.player
      waiting := fun h => by rcases h with h | h <;> cases h
      running := fun _ _ => hover
      room := fun h => absurd rfl h
      nodup := List.nodup_append.mpr ⟨hI.nodup, List.pairwise_singleton _ i,
        fun j hj k hk heq => hnew (List.mem_singleton.mp hk ▸ heq ▸ hj)⟩
      written := fun j => ?_, turns := ?_, balance := ?_ }
  · by_cases hji : j = i
    · subst hji
      rcases hI.player with heq | heq <;> simp [Gm.assign, heq]
    · simpa [Gm.assign, Function.update_of_ne hji] using hI.sides j hj
  · by_cases hji : j = i
    · subst hji
      simp [Gm.assign, hi, hplayer, emptyId]
    · simpa [Gm.assign, Function.update_of_ne hji, hji] using hI.written j
  · have hturns := hI.turns
    simp only [Gm.assign, List.length_append, List.length_singleton,
      if_neg hpc, if_true] at hturns ⊢
    omega
  · have hbalance := hI.balance
    have hne : ∀ id, id ≠ 0 → s.grid i ≠ id := by
      intro id hid heq
      exact hid (heq.symm.trans hempty)
    simp only [Gm.assign, hpc, false_iff, true_iff] at hbalance ⊢
    rcases hI.player with heq | heq
    · rw [heq, held_update_self hi (hne _ h.playerId_ne),
        held_update_of_ne (hne _ h.aiId_ne) h.playerId_ne_aiId]
      simpa [heq] using hbalance
    · rw [heq, held_update_self hi (hne _ h.aiId_ne),
        held_update_of_ne (hne _ h.playerId_ne) h.playerId_ne_aiId.symm]
      have hturn : h.aiId ≠ h.playerId := h.playerId_ne_aiId.symm
      simpa [heq, hturn] using hbalance

/-- A grid that `win` calls in progress has an empty cell. -/
theorem exists_empty_of_progress {grid : Grid}
    (hcells : ∀ i, InGrid i → grid i = emptyId ∨ grid i = h.playerId
      ∨ grid i = h.aiId) (hwin : win h grid = .progress) :
    ∃ i, InGrid i ∧ grid i = emptyId := by
  by_contra hfull
  have hzero : cellLeft h grid = 0 := by
    refine cellLeft_eq_zero_iff.mpr fun i hi => ?_
    rcases hcells i hi with hempty | hp | ha
    · exact absurd ⟨i, hi, hempty⟩ hfull
    · exact Or.inr hp
    · exact Or.inl ha
  have hdraw : win h grid ≠ .progress := by
    unfold win
    simp only [if_pos hzero]
    repeat' split
    all_goals decide
  exact hdraw hwin

/-- `check_game_state` sends nothing exactly while the game goes on. -/
theorem checkGameState_eq_none_iff {grid : Grid} {currentId : Int} :
    checkGameState h grid currentId = none ↔ win h grid = .progress := by
  unfold checkGameState
  cases win h grid with
  | progress => exact iff_of_true rfl rfl
  | win => exact iff_of_false (Option.some_ne_none _) (by decide)
  | draw => exact iff_of_false (Option.some_ne_none _) (by decide)

/-- On its turn the computer's move is an empty cell of the grid. -/
theorem Inv.computer {s : Gm} (hI : Inv h s) (hpc : s.pc = .loop)
    (hover : s.gameOver = false) (hplayer : s.player ≠ h.playerId) :
    ∃ i, InGrid i ∧ s.grid i = emptyId
      ∧ { s with grid := (computersTurn h s.grid).2 }.assign
          ((computersTurn h s.grid).1 - 1) h.aiId = s.assign i s.player := by
  obtain ⟨i, hi, hempty, hturn⟩ := computersTurn_spec h
    (hI.room (by rw [hpc]; decide) hover)
  refine ⟨i, hi, hempty, ?_⟩
  rw [hturn, Int.add_sub_cancel]
  exact congrArg (s.assign i) (hI.player.resolve_left hplayer).symm

/-- A move the test lets through is an empty cell of the grid. -/
theorem not_rejects_iff {grid : Grid} {move : Int} :
    ¬ Rejects grid move ↔ InGrid move ∧ grid move = emptyId := by
  unfold Rejects InGrid gridSize emptyId
  omega

theorem Inv.check {s : Gm} (hI : Inv h s) (hpc : s.pc = .check) :
    Inv h (s.checked h) where
  sides := hI.sides
  player := by
    dsimp only
    split
    · exact Or.inr rfl
    · exact Or.inl rfl
  waiting h := by rcases h with h | h <;> cases h
  running h := absurd rfl h
  room _ hover := by
    obtain ⟨-, hnone⟩ := Bool.or_eq_false_iff.mp hover
    exact exists_empty_of_progress hI.sides (checkGameState_eq_none_iff.mp
      (Option.not_isSome_iff_eq_none.mp (by simpa using hnone)))
  nodup := hI.nodup
  written := hI.written
  turns := by simpa [hpc] using hI.turns
  balance := by
    have hbalance := hI.balance
    have hne := h.playerId_ne_aiId
    rcases hI.player with heq | heq <;>
      simpa [hpc, heq, hne, hne.symm] using hbalance

/-- A step to another place, with nothing assigned. -/
theorem Inv.goto {s : Gm} (hI : Inv h s) {pc : Pc} (hfrom : s.pc ≠ .check)
    (hto : pc ≠ .check)
    (hwait : pc = .getCmd ∨ pc = .rejected → s.player = h.playerId)
    (hover : pc ≠ .loop → pc ≠ .done → s.gameOver = false) :
    Inv h { s with pc := pc } where
  sides := hI.sides
  player := hI.player
  waiting := hwait
  running := hover
  room _ := hI.room hfrom
  nodup := hI.nodup
  written := hI.written
  turns := by simpa [hfrom, hto] using hI.turns
  balance := by simpa [hfrom, hto] using hI.balance

/-- Every step keeps the invariant. -/
theorem inv_step {s s' : Gm} {a : Act} {c : Option Cmd} (hI : Inv h s)
    (hstep : Steps h s a c s') : Inv h s' := by
  have hrun : s.pc = .getCmd ∨ s.pc = .rejected → s.gameOver = false := by
    rintro (hpc | hpc) <;>
      exact hI.running (by rw [hpc]; decide) (by rw [hpc]; decide)
  cases hstep with
  | start hpc =>
      exact hI.goto (by rw [hpc]; decide) (by decide)
        (fun h => by rcases h with h | h <;> cases h)
        (fun h => absurd rfl h)
  | finish hpc hover =>
      exact hI.goto (by rw [hpc]; decide) (by decide)
        (fun h => by rcases h with h | h <;> cases h)
        (fun _ h => absurd rfl h)
  | prompt hpc hover hplayer =>
      exact hI.goto (by rw [hpc]; decide) (by decide) (fun _ => hplayer)
        (fun _ _ => hover)
  | computer hpc hover hplayer =>
      obtain ⟨i, hi, hempty, heq⟩ := hI.computer hpc hover hplayer
      rw [heq]
      exact hI.assign hi hempty (by rw [hpc]; decide) hover
  | reject hpc =>
      exact hI.goto (by rw [hpc]; decide) (by decide)
        (fun _ => hI.waiting (Or.inr hpc)) (fun _ _ => hrun (Or.inr hpc))
  | check hpc => exact hI.check hpc
  | refuse cmd hpc hcmd =>
      exact hI.goto (by rw [hpc]; decide) (by decide)
        (fun _ => hI.waiting (Or.inl hpc)) (fun _ _ => hrun (Or.inl hpc))
  | accept cmd hpc hcmd =>
      obtain ⟨hi, hempty⟩ := not_rejects_iff.mp hcmd
      rw [← hI.waiting (Or.inl hpc)]
      exact hI.assign hi hempty (by rw [hpc]; decide) (hrun (Or.inl hpc))

/-- The invariant holds throughout every game. -/
theorem inv_run {mem : Grid} {acts : List Act} {s : Gm}
    (hrun : run (step h) (Gm.init h mem) acts = some s) : Inv h s := by
  refine run_inv (I := Inv h) ?_ (Inv.init h mem) hrun
  intro t a t' hI ht
  obtain ⟨c, hsteps⟩ := steps_of_step ht
  exact inv_step hI hsteps

-- =========================================================== the board is safe

/-- Of a step: nothing is assigned, or one cell of the grid that was
empty, to the player whose turn it is. -/
def WritesOne (s s' : Gm) : Prop :=
  (s'.grid = s.grid ∧ s'.written = s.written)
    ∨ ∃ i, InGrid i ∧ s.grid i = emptyId
      ∧ s'.grid = Function.update s.grid i s.player
      ∧ s'.written = s.written ++ [i]

theorem Inv.writesOne {s s' : Gm} {a : Act} {c : Option Cmd}
    (hI : Inv h s) (hstep : Steps h s a c s') : WritesOne s s' := by
  cases hstep with
  | computer hpc hover hplayer =>
      obtain ⟨i, hi, hempty, heq⟩ := hI.computer hpc hover hplayer
      rw [heq]
      exact Or.inr ⟨i, hi, hempty, rfl, rfl⟩
  | accept cmd hpc hcmd =>
      obtain ⟨hi, hempty⟩ := not_rejects_iff.mp hcmd
      refine Or.inr ⟨cmd, hi, hempty, ?_, rfl⟩
      exact congrArg (Function.update s.grid cmd)
        (hI.waiting (Or.inl hpc)).symm
  | _ => exact Or.inl ⟨rfl, rfl⟩

/-- The board between steps. Each turn begun has assigned once, none
leaves the sides more than one cell apart, the computer is not asked for
a move on a full grid, and no game assigns ten times. -/
structure BoardSafe (h : Header) (s : Gm) : Prop where
  turns : s.written.length = s.turns + if s.pc = .check then 1 else 0
  balance : s.pc ≠ .check → held s.grid h.playerId
    = held s.grid h.aiId + if s.player = h.playerId then 0 else 1
  room : s.pc = .loop → s.gameOver = false → s.player ≠ h.playerId →
    ∃ i, InGrid i ∧ s.grid i = emptyId
  atMostNine : s.written.length ≤ 9

theorem Inv.boardSafe {s : Gm} (hI : Inv h s) : BoardSafe h s where
  turns := hI.turns
  balance hpc := by
    rw [hI.balance]
    by_cases hplayer : s.player = h.playerId
    · simp [hpc, hplayer]
    · simp [hpc, hplayer]
  room hpc hover _ := hI.room (by rw [hpc]; decide) hover
  atMostNine := by
    have hsub : s.written ⊆ cells := fun i hi =>
      mem_cells_iff.mpr ((hI.written i).mp hi).1
    exact (List.subperm_of_subset hI.nodup hsub).length_le

/-- Whatever is received, the board is safe in every state of a game and
every step from it assigns at most once, to an empty cell of the grid. -/
theorem board_safe (h : Header) (mem : Grid) {acts : List Act} {s : Gm}
    (hrun : run (step h) (Gm.init h mem) acts = some s) :
    BoardSafe h s ∧
      ∀ a s', step h s a = some s' → WritesOne s s' := by
  have hI := inv_run hrun
  refine ⟨hI.boardSafe, fun a s' hstep => ?_⟩
  obtain ⟨c, hsteps⟩ := steps_of_step hstep
  exact hI.writesOne hsteps

theorem board_safe_sample :
    ∃ s, run (step Header.sample) (Gm.init Header.sample fun _ => 0)
        [.go, .go, .receive 4, .go, .go, .go] = some s
      ∧ BoardSafe Header.sample s := by
  have hsome : (run (step Header.sample) (Gm.init Header.sample fun _ => 0)
      [.go, .go, .receive 4, .go, .go, .go]).isSome = true := by decide
  obtain ⟨s, hrun⟩ := Option.isSome_iff_exists.mp hsome
  exact ⟨s, hrun, (board_safe Header.sample (fun _ => 0) hrun).1⟩

end SyeLabs.Tictactoe
