/-
How `process_cmd` splits the tokens of a command into arguments.

# The loop

The loop ends at the first `&` or after the last token. Up to the first
`|` it fills `argv` (`Plain`); from there on it fills `argv2` with every
token that is not a `|` (`Piped`), so that a second `|` does not end the
second list but only leaves another null in `argv`.

# What it leaves

Both lists are terminated (`split_prepared`), unless there are ten tokens
and no `&` among them: then the loop reads past the last one
(`split_overrun`).
-/
import Mathlib.Data.List.Forall2
import SyeLabs.Shell.Basic

namespace SyeLabs.Shell

variable {t : Tokens}

-- =========================================================== tokens to be read

/-- From position `p` on, `tokens` holds the words and then nothing. -/
structure Ahead (t : Tokens) (p : Nat) (ws : List Word) : Prop where
  cells : t.cells.drop p
    = ws ++ List.replicate (tokenNr - p - ws.length) []
  nonempty : ∀ w ∈ ws, w ≠ []
  fits : p + ws.length ≤ tokenNr

theorem load_eq_drop (t : Tokens) (p : Nat) :
    t.load p = (t.cells.drop p)[0]? := by
  rw [Tokens.load, List.getElem?_drop, Nat.add_zero]

theorem Ahead.load {p : Nat} {w : Word} {ws : List Word}
    (h : Ahead t p (w :: ws)) : t.load p = some w := by
  rw [load_eq_drop, h.cells]
  rfl

theorem Ahead.next {p : Nat} {w : Word} {ws : List Word}
    (h : Ahead t p (w :: ws)) : Ahead t (p + 1) ws where
  cells := by
    have hdrop : t.cells.drop (p + 1) = (t.cells.drop p).drop 1 := by
      rw [List.drop_drop]
    rw [hdrop, h.cells, List.length_cons]
    have hk : tokenNr - p - (ws.length + 1)
        = tokenNr - (p + 1) - ws.length := by
      omega
    rw [hk]
    rfl
  nonempty := fun v hv => h.nonempty v (List.mem_cons_of_mem w hv)
  fits := by
    have := h.fits
    rw [List.length_cons] at this
    omega

/-- After the last word there is an empty token, if there is a token. -/
theorem Ahead.load_nil {p : Nat} (h : Ahead t p []) (hp : p < tokenNr) :
    t.load p = some [] := by
  rw [load_eq_drop, h.cells]
  obtain ⟨k, hk⟩ : ∃ k, tokenNr - p - ([] : List Word).length = k + 1 :=
    ⟨tokenNr - p - 1, by rw [List.length_nil]; omega⟩
  rw [hk]
  rfl

theorem load_eq_none {p : Nat} (hp : tokenNr ≤ p) : t.load p = none :=
  List.getElem?_eq_none (by rw [t.count]; exact hp)

-- ========================================================== arrays of pointers

/-- The entry points to the word. -/
def Points (t : Tokens) (a : Arg) (w : Word) : Prop := a.word t = some w

/-- Pointers to the words stand first in the array; the rest of it has not
been written. -/
def Filled (t : Tokens) (argv : List Arg) (ws : List Word) : Prop :=
  ∃ as, List.Forall₂ (Points t) as ws
    ∧ argv = as ++ List.replicate (argsMax - as.length) .unset

/-- Pointers to the words stand first in the array and a null after
them. -/
def Ended (t : Tokens) (argv : List Arg) (ws : List Word) : Prop :=
  ∃ as junk, List.Forall₂ (Points t) as ws ∧ argv = as ++ .null :: junk

theorem filled_nil : Filled t (List.replicate argsMax .unset) [] :=
  ⟨[], List.Forall₂.nil, rfl⟩

/-- A pointer is stored after the last one. -/
theorem Filled.store {argv : List Arg} {ws : List Word} {a : Arg} {w : Word}
    (h : Filled t argv ws) (ha : Points t a w) (hk : ws.length < argsMax) :
    ∃ argv', setArg argv ws.length a = some argv'
      ∧ Filled t argv' (ws ++ [w]) := by
  obtain ⟨as, has, rfl⟩ := h
  have hlen : as.length = ws.length := has.length_eq
  have hroom : argsMax - as.length = argsMax - (as.length + 1) + 1 := by
    omega
  refine ⟨as ++ [a] ++ List.replicate (argsMax - (as ++ [a]).length) .unset,
    ?_, as ++ [a], List.rel_append has (List.Forall₂.cons ha .nil), rfl⟩
  rw [setArg, if_pos hk, ← hlen, hroom, List.replicate_succ,
    List.set_append_right _ _ (Nat.le_refl _), Nat.sub_self]
  simp

/-- The null is stored after the last one. -/
theorem Filled.close {argv : List Arg} {ws : List Word}
    (h : Filled t argv ws) (hk : ws.length < argsMax) :
    ∃ argv', setArg argv ws.length .null = some argv'
      ∧ Ended t argv' ws := by
  obtain ⟨as, has, rfl⟩ := h
  have hlen : as.length = ws.length := has.length_eq
  have hroom : argsMax - as.length = argsMax - (as.length + 1) + 1 := by
    omega
  refine ⟨as ++ .null :: List.replicate (argsMax - (as.length + 1)) .unset,
    ?_, as, _, has, rfl⟩
  rw [setArg, if_pos hk, ← hlen, hroom, List.replicate_succ,
    List.set_append_right _ _ (Nat.le_refl _), Nat.sub_self]
  rfl

/-- What is stored behind the null does not matter. -/
theorem Ended.behind {argv : List Arg} {ws : List Word} {k : Nat} {a : Arg}
    (h : Ended t argv ws) (hk : ws.length < k) (hmax : k < argsMax) :
    ∃ argv', setArg argv k a = some argv' ∧ Ended t argv' ws := by
  obtain ⟨as, junk, has, rfl⟩ := h
  have hlen : as.length = ws.length := has.length_eq
  obtain ⟨i, hi⟩ : ∃ i, k - as.length = i + 1 :=
    ⟨k - as.length - 1, by omega⟩
  refine ⟨as ++ .null :: junk.set i a, ?_, as, _, has, rfl⟩
  rw [setArg, if_pos hmax, List.set_append_right _ _ (by omega), hi]
  rfl

/-- `execv` finds the words of a terminated array. -/
theorem Ended.argWords {argv : List Arg} {ws : List Word}
    (h : Ended t argv ws) : argWords t argv = some ws := by
  obtain ⟨as, junk, has, rfl⟩ := h
  induction has with
  | nil => rfl
  | @cons a w as ws ha _ ih =>
      have hpoint : a.word t = some w := ha
      cases a with
      | unset => cases hpoint
      | null => cases hpoint
      | token i =>
          rw [List.cons_append, Shell.argWords, hpoint, ih]
          · rfl
          · exact fun heq => by cases heq

-- ==================================================================== one turn

/-- Before any `|`, after the words `done`. -/
structure Plain (t : Tokens) (s : Split) (done : List Word) : Prop where
  off : s.pipeOn = false
  pos : s.argPos = done.length
  pos2 : s.argPos2 = 0
  filled : Filled t s.argv done
  fresh : Filled t s.argv2 []

/-- After a `|`, with the first list complete and the second begun. -/
structure Piped (t : Tokens) (s : Split) (first second : List Word) :
    Prop where
  on : s.pipeOn = true
  ended : Ended t s.argv first
  behind : first.length < s.argPos
  pos2 : s.argPos2 = second.length
  room : second.length ≤ s.argPos
  filled : Filled t s.argv2 second

/-- The state after the words `done`. -/
def After (t : Tokens) (done : List Word) (s : Split) : Prop :=
  (bar ∉ done ∧ Plain t s done)
    ∨ ∃ a b, done = a ++ bar :: b ∧ bar ∉ a
        ∧ Piped t s a (b.filter (· ≠ bar))

theorem after_start : After t [] Split.start :=
  Or.inl ⟨List.not_mem_nil, ⟨rfl, rfl, rfl, filled_nil, filled_nil⟩⟩

/-- A token is one more argument. -/
theorem Plain.word {s : Split} {done : List Word} {w : Word}
    (h : Plain t s done) (hload : t.load s.argPos = some w)
    (hamp : w ≠ amp) (hbar : w ≠ bar) (hk : s.argPos < argsMax) :
    ∃ s', splitStep s w = some s' ∧ Plain t s' (done ++ [w]) := by
  obtain ⟨argv, hset, hfill⟩ :=
    h.filled.store (a := .token s.argPos) hload (h.pos ▸ hk)
  refine ⟨{ s with argv, argPos := s.argPos + 1 }, ?_, h.off, ?_, h.pos2,
    hfill, h.fresh⟩
  · rw [← h.pos] at hset
    rw [splitStep, if_neg hamp, if_neg hbar, h.off,
      if_neg Bool.false_ne_true, hset]
    rfl
  · simp [h.pos]

/-- The first `|` ends the first list. -/
theorem Plain.bar {s : Split} {done : List Word} (h : Plain t s done)
    (hk : s.argPos < argsMax) :
    ∃ s', splitStep s bar = some s' ∧ Piped t s' done [] := by
  obtain ⟨argv, hset, hend⟩ := h.filled.close (h.pos ▸ hk)
  refine ⟨{ s with pipeOn := true, argv, argPos := s.argPos + 1 }, ?_, rfl,
    hend, ?_, h.pos2, Nat.zero_le _, h.fresh⟩
  · rw [← h.pos] at hset
    rw [splitStep, if_neg (by decide), if_pos rfl, hset]
    rfl
  · simp [h.pos]

/-- Behind it a token is one more argument of the second program, and
another `|` is passed over. -/
theorem Piped.word {s : Split} {first second : List Word} {w : Word}
    (h : Piped t s first second) (hload : t.load s.argPos = some w)
    (hamp : w ≠ amp) (hk : s.argPos < argsMax) :
    ∃ s', splitStep s w = some s'
      ∧ Piped t s' first (second ++ [w].filter (· ≠ Shell.bar)) := by
  by_cases hbar : w = Shell.bar
  · obtain ⟨argv, hset, hend⟩ := h.ended.behind (a := .null) h.behind hk
    have hnone : second ++ [w].filter (· ≠ Shell.bar) = second := by
      simp [hbar]
    rw [hnone]
    refine ⟨{ s with pipeOn := true, argv, argPos := s.argPos + 1 }, ?_, rfl,
      hend, Nat.lt_succ_of_lt h.behind, h.pos2, Nat.le_succ_of_le h.room,
      h.filled⟩
    rw [splitStep, if_neg hamp, if_pos hbar, hset]
    rfl
  · obtain ⟨argv2, hset, hfill⟩ := h.filled.store (a := .token s.argPos)
      hload (Nat.lt_of_le_of_lt h.room hk)
    have hone : second ++ [w].filter (· ≠ Shell.bar) = second ++ [w] := by
      simp [hbar]
    rw [hone]
    refine ⟨{ s with
        argv2, argPos2 := s.argPos2 + 1, argPos := s.argPos + 1 }, ?_, h.on,
      h.ended, Nat.lt_succ_of_lt h.behind, ?_, ?_, hfill⟩
    · rw [← h.pos2] at hset
      rw [splitStep, if_neg hamp, if_neg hbar, h.on, if_pos rfl, hset]
      rfl
    · simp [h.pos2]
    · have := h.room
      simp only [List.length_append, List.length_singleton]
      omega

/-- One turn on a token other than `&`. -/
theorem After.step {done : List Word} {s : Split} {w : Word}
    (h : After t done s) (hload : t.load s.argPos = some w)
    (hamp : w ≠ amp) (hk : s.argPos < argsMax) :
    ∃ s', splitStep s w = some s' ∧ After t (done ++ [w]) s' := by
  rcases h with ⟨hdone, h⟩ | ⟨a, b, rfl, ha, h⟩
  · by_cases hbar : w = bar
    · subst hbar
      obtain ⟨s', hstep, hpiped⟩ := h.bar hk
      exact ⟨s', hstep, Or.inr ⟨done, [], rfl, hdone, hpiped⟩⟩
    · obtain ⟨s', hstep, hplain⟩ := h.word hload hamp hbar hk
      refine ⟨s', hstep, Or.inl ⟨fun hmem => ?_, hplain⟩⟩
      rcases List.mem_append.mp hmem with hmem | hmem
      · exact hdone hmem
      · exact hbar (List.mem_singleton.mp hmem).symm
  · obtain ⟨s', hstep, hpiped⟩ := h.word hload hamp hk
    refine ⟨s', hstep, Or.inr ⟨a, b ++ [w], by simp, ha, ?_⟩⟩
    rw [List.filter_append]
    exact hpiped

theorem After.background {done : List Word} {s : Split}
    (h : After t done s) (back : Bool) :
    After t done { s with background := back } := by
  rcases h with ⟨hdone, h⟩ | ⟨a, b, hab, ha, h⟩
  · exact Or.inl ⟨hdone, h.off, h.pos, h.pos2, h.filled, h.fresh⟩
  · exact Or.inr ⟨a, b, hab, ha, h.on, h.ended, h.behind, h.pos2, h.room,
      h.filled⟩

/-- A token that is not `&` moves the loop on by one. -/
theorem splitStep_next {s s' : Split} {w : Word} (hw : w ≠ amp)
    (h : splitStep s w = some s') :
    s'.argPos = s.argPos + 1 ∧ s'.background = s.background := by
  rw [splitStep, if_neg hw] at h
  split at h
  next =>
    obtain ⟨argv, -, rfl⟩ := Option.map_eq_some_iff.mp h
    exact ⟨rfl, rfl⟩
  next =>
    split at h
    next =>
      obtain ⟨argv2, -, rfl⟩ := Option.map_eq_some_iff.mp h
      exact ⟨rfl, rfl⟩
    next =>
      obtain ⟨argv, -, rfl⟩ := Option.map_eq_some_iff.mp h
      exact ⟨rfl, rfl⟩

-- ==================================================================== the loop

/-- The words the loop takes up: those before the first `&`. -/
def command (ws : List Word) : List Word := ws.takeWhile (· ≠ amp)

theorem command_cons {w : Word} {ws : List Word} (hw : w ≠ amp) :
    command (w :: ws) = w :: command ws :=
  List.takeWhile_cons_of_pos (by simpa using hw)

/-- A turn on a token other than `&`. -/
theorem splitLoop_cons {n : Nat} {w : Word} {ws : List Word} {s : Split}
    (hahead : Ahead t s.argPos (w :: ws)) (hback : s.background = false) :
    splitLoop t (n + 1) s = (splitStep s w).bind (splitLoop t n) := by
  rw [splitLoop, hback, if_neg Bool.false_ne_true, hahead.load,
    Option.bind_some, if_neg (hahead.nonempty w List.mem_cons_self)]

/-- The loop takes up the words before the first `&` and stops there, or
after the last word if there is one more token. -/
theorem splitLoop_after (n : Nat) :
    ∀ {ws done : List Word} {s : Split}, Ahead t s.argPos ws →
      amp ∈ ws ∨ s.argPos + ws.length < tokenNr → ws.length < n →
      s.background = false → After t done s →
      ∃ s', splitLoop t n s = some s' ∧ After t (done ++ command ws) s' := by
  induction n with
  | zero => exact fun _ _ h => absurd h (Nat.not_lt_zero _)
  | succ n ih =>
      intro ws done s hahead hend hn hback hafter
      cases ws with
      | nil =>
          have hp : s.argPos < tokenNr := by
            rcases hend with hmem | hlt
            · cases hmem
            · exact hlt
          refine ⟨s, ?_, by simpa [command] using hafter⟩
          rw [splitLoop, hback, if_neg Bool.false_ne_true,
            hahead.load_nil hp]
          rfl
      | cons w ws =>
          have hfits := hahead.fits
          rw [List.length_cons] at hfits hn
          rw [splitLoop_cons hahead hback]
          by_cases hw : w = amp
          · -- the test that follows finds `background` set
            obtain ⟨n, rfl⟩ : ∃ m, n = m + 1 := ⟨n - 1, by omega⟩
            subst hw
            have hnone : command (amp :: ws) = [] :=
              List.takeWhile_cons_of_neg (by simp)
            rw [splitStep, if_pos rfl, hnone, List.append_nil]
            exact ⟨_, rfl, hafter.background true⟩
          · have hk : s.argPos < argsMax := by
              unfold tokenNr at hfits
              unfold argsMax
              omega
            obtain ⟨s', hstep, hafter'⟩ := hafter.step hahead.load hw hk
            obtain ⟨hpos, hback'⟩ := splitStep_next hw hstep
            have hend' : amp ∈ ws ∨ s'.argPos + ws.length < tokenNr := by
              rcases hend with hmem | hlt
              · exact Or.inl (List.mem_of_ne_of_mem (Ne.symm hw) hmem)
              · rw [List.length_cons] at hlt
                exact Or.inr (by omega)
            rw [hstep, Option.bind_some, command_cons hw, List.append_cons]
            exact ih (hpos ▸ hahead.next) hend' (by omega)
              (hback'.trans hback) hafter'

/-- Ten tokens without `&` lead the loop past the last one, however many
turns it may take. -/
theorem splitLoop_overrun (n : Nat) :
    ∀ {ws : List Word} {s : Split}, Ahead t s.argPos ws → amp ∉ ws →
      s.argPos + ws.length = tokenNr → s.background = false →
      splitLoop t n s = none := by
  induction n with
  | zero => exact fun _ _ _ _ => rfl
  | succ n ih =>
      intro ws s hahead hamp hlen hback
      cases ws with
      | nil =>
          have hpast : tokenNr ≤ s.argPos := Nat.le_of_eq hlen.symm
          rw [splitLoop, hback, if_neg Bool.false_ne_true,
            load_eq_none hpast]
          rfl
      | cons w ws =>
          have hw : w ≠ amp := fun heq => hamp (by simp [heq])
          rw [splitLoop_cons hahead hback]
          cases hstep : splitStep s w with
          | none => rfl
          | some s' =>
              obtain ⟨hpos, hback'⟩ := splitStep_next hw hstep
              rw [List.length_cons] at hlen
              have hnext : Ahead t s'.argPos ws := hpos ▸ hahead.next
              have hamp' : amp ∉ ws :=
                fun hmem => hamp (List.mem_cons_of_mem w hmem)
              exact ih hnext hamp' (by omega) (hback'.trans hback)

-- ================================================================== both lists

/-- What the loop and the null stored after it leave: one list, or two. -/
def Prepared (t : Tokens) (cmd : List Word) (s : Split) : Prop :=
  (bar ∉ cmd ∧ s.pipeOn = false ∧ Ended t s.argv cmd)
    ∨ ∃ a b, cmd = a ++ bar :: b ∧ bar ∉ a ∧ s.pipeOn = true
        ∧ Ended t s.argv a ∧ Ended t s.argv2 (b.filter (· ≠ bar))

theorem After.terminate {cmd : List Word} {s : Split} (h : After t cmd s)
    (hk : cmd.length < argsMax) :
    ∃ s', terminate s = some s' ∧ Prepared t cmd s' := by
  rcases h with ⟨hcmd, h⟩ | ⟨a, b, rfl, ha, h⟩
  · obtain ⟨argv, hset, hend⟩ := h.filled.close hk
    refine ⟨{ s with argv }, ?_, Or.inl ⟨hcmd, h.off, hend⟩⟩
    rw [Shell.terminate, h.off, if_neg Bool.false_ne_true, h.pos, hset]
    rfl
  · have hlen : (b.filter (· ≠ bar)).length < argsMax := by
      have := List.length_filter_le (fun w => decide (w ≠ bar)) b
      rw [List.length_append, List.length_cons] at hk
      omega
    obtain ⟨argv2, hset, hend⟩ := h.filled.close hlen
    refine ⟨{ s with argv2 }, ?_,
      Or.inr ⟨a, b, rfl, ha, h.on, h.ended, hend⟩⟩
    rw [Shell.terminate, h.on, if_pos rfl, h.pos2, hset]
    rfl

/-- The arguments are prepared from the words before the first `&`, unless
the loop runs past the tokens. -/
theorem split_prepared {ws : List Word} (hws : Ahead t 0 ws)
    (hend : amp ∈ ws ∨ ws.length < tokenNr) :
    ∃ s, split t = some s ∧ Prepared t (command ws) s := by
  have hfits := hws.fits
  rw [Nat.zero_add] at hfits
  obtain ⟨s, hloop, hafter⟩ := splitLoop_after (tokenNr + 1)
    (s := Split.start) hws (by simpa [Split.start] using hend) (by omega) rfl
    after_start
  rw [List.nil_append] at hafter
  have hlen : (command ws).length ≤ ws.length :=
    (List.takeWhile_sublist _).length_le
  obtain ⟨s', hterm, hprep⟩ := hafter.terminate (by
    unfold tokenNr at hfits
    unfold argsMax
    omega)
  exact ⟨s', by rw [split, hloop, Option.bind_some, hterm], hprep⟩

theorem split_overrun {ws : List Word} (hws : Ahead t 0 ws)
    (hamp : amp ∉ ws) (hlen : ws.length = tokenNr) : split t = none := by
  rw [split, splitLoop_overrun _ (s := Split.start) hws hamp
    (by simpa [Split.start] using hlen) rfl]
  rfl

end SyeLabs.Shell
