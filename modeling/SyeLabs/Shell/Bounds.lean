/-
When the shell stays within its buffers.

# What a line can bring about

A line of 79 characters can hold forty tokens, and `parse_token` copies
them all; a token fits its 80 bytes. With ten tokens `process_cmd` has no
empty one to stop at. A file name has room for 25 characters besides its
extension. And a `|` with nothing to its left, or nothing to its right,
leaves a null pointer for the name of a program.

# The condition

`turn_safe_iff` says for which lines none of this happens.
-/
import SyeLabs.Shell.Pipeline

namespace SyeLabs.Shell

variable {t : Tokens}

-- ==================================================================== the line

/-- A run of characters is no longer than the line. -/
theorem length_le_of_mem_splitOn {line : Word} :
    ∀ w ∈ line.splitOn ' ', w.length ≤ line.length := by
  induction line with
  | nil => simp [List.splitOn]
  | cons c line ih =>
      intro w hw
      rw [List.splitOn, List.splitOnP_cons_eq_if_modifyHead] at hw
      split at hw
      next =>
        rcases List.mem_cons.mp hw with rfl | hw
        · exact Nat.zero_le _
        · exact Nat.le_succ_of_le (ih w hw)
      next =>
        have ih' : ∀ w ∈ line.splitOnP (· == ' '), w.length ≤ line.length :=
          ih
        cases hsplit : line.splitOnP (· == ' ') with
        | nil =>
            rw [hsplit] at hw
            cases hw
        | cons v vs =>
            rw [hsplit] at hw ih'
            rcases List.mem_cons.mp hw with rfl | hw
            · exact Nat.succ_le_succ (ih' v List.mem_cons_self)
            · exact Nat.le_succ_of_le (ih' w (List.mem_cons_of_mem v hw))

theorem strtok_ne_nil {line w : Word} (h : w ∈ strtok line) : w ≠ [] := by
  simpa using List.of_mem_filter h

/-- A token of a line that fits `user_input` fits `tokens`. -/
theorem strtok_fits {line w : Word} (hline : line.length < tokenSize)
    (h : w ∈ strtok line) : w.length < tokenSize :=
  Nat.lt_of_le_of_lt (length_le_of_mem_splitOn w (List.mem_of_mem_filter h))
    hline

/-- The tokens are the words and nothing more. -/
def Holding (t : Tokens) (ws : List Word) : Prop :=
  t.cells = ws ++ List.replicate (tokenNr - ws.length) []

/-- One copy of `parse_token`, if there is a token for it. -/
theorem Holding.store {ws : List Word} {w : Word} (h : Holding t ws)
    (hlen : ws.length < tokenNr) (hw : w.length < tokenSize) :
    ∃ t', t.store ws.length w = some t' ∧ Holding t' (ws ++ [w]) := by
  refine ⟨_, dif_pos ⟨hlen, hw⟩, ?_⟩
  have hroom : tokenNr - ws.length = tokenNr - (ws.length + 1) + 1 := by
    omega
  have hcells : t.cells = ws ++ List.replicate (tokenNr - ws.length) [] := h
  show t.cells.set ws.length w = _
  rw [hcells, hroom, List.replicate_succ,
    List.set_append_right _ _ (Nat.le_refl _), Nat.sub_self]
  simp

/-- All of them, while there is a token for each. -/
theorem Holding.storeTokens {ws : List Word} :
    ∀ {done : List Word} {t : Tokens}, Holding t done →
      done.length + ws.length ≤ tokenNr →
      (∀ w ∈ ws, w.length < tokenSize) →
      ∃ t', Shell.storeTokens done.length ws t = some t'
        ∧ Holding t' (done ++ ws) := by
  induction ws with
  | nil => exact fun {done t} h _ _ => ⟨t, rfl, by rwa [List.append_nil]⟩
  | cons w ws ih =>
      intro done t h hlen hfit
      rw [List.length_cons] at hlen
      obtain ⟨t', hstore, hholding⟩ :=
        h.store (by omega) (hfit w List.mem_cons_self)
      obtain ⟨t'', hrest, hall⟩ := ih hholding
        (by rw [List.length_append, List.length_singleton]; omega)
        fun v hv => hfit v (List.mem_cons_of_mem w hv)
      rw [List.length_append, List.length_singleton] at hrest
      refine ⟨t'', ?_, List.append_cons done w ws ▸ hall⟩
      rw [Shell.storeTokens, hstore, Option.bind_some, hrest]

/-- With too many words some copy is out of bounds. -/
theorem storeTokens_eq_none {ws : List Word} :
    ∀ {i : Nat} {t : Tokens}, tokenNr < i + ws.length →
      i ≤ tokenNr → storeTokens i ws t = none := by
  induction ws with
  | nil =>
      intro i t hlen hi
      rw [List.length_nil] at hlen
      omega
  | cons w ws ih =>
      intro i t hlen hi
      rw [List.length_cons] at hlen
      rw [storeTokens]
      cases hstore : t.store i w with
      | none => rfl
      | some t' =>
          have hlt : i < tokenNr := by
            by_contra hge
            rw [Tokens.store, dif_neg fun h => hge h.1] at hstore
            cases hstore
          rw [Option.bind_some]
          exact ih (by omega) hlt

/-- What `process_cmd` finds after a line with up to ten tokens. -/
theorem parseToken_ahead {line : Word} (hline : line.length < tokenSize)
    (hlen : (strtok line).length ≤ tokenNr) :
    ∃ t, parseToken line Tokens.reset = some t ∧ Ahead t 0 (strtok line) := by
  have hreset : Holding Tokens.reset [] := rfl
  obtain ⟨t, hparse, hholding⟩ :=
    hreset.storeTokens (by simpa using hlen) fun w hw => strtok_fits hline hw
  refine ⟨t, hparse, hholding, fun w hw => strtok_ne_nil hw, ?_⟩
  simpa using hlen

-- ================================================================= the command

theorem load_isSome {i : Nat} (hi : i < tokenNr) :
    ∃ w, t.load i = some w :=
  ⟨_, List.getElem?_eq_getElem (by rw [t.count]; exact hi)⟩

/-- A built-in command looks at the first three tokens at most. -/
theorem processCmd_builtin {name : Word} (hname : t.load 0 = some name)
    (hbuiltin : name ∈ builtins) (forked forked2 : Bool) :
    (processCmd forked forked2 t).isSome = true := by
  obtain ⟨w1, h1⟩ := load_isSome (t := t) (i := 1) (by decide)
  obtain ⟨w2, h2⟩ := load_isSome (t := t) (i := 2) (by decide)
  have hsetenv : (setenvCmd t).isSome = true := by
    rw [setenvCmd, h1, Option.bind_some, h2]
    split <;> rfl
  have hkill : (killCmd t).isSome = true := by
    rw [killCmd, h2, h1]
    rfl
  simp only [builtins, List.mem_cons, List.not_mem_nil, or_false] at hbuiltin
  rw [processCmd, hname, Option.bind_some]
  rcases hbuiltin with rfl | rfl | rfl | rfl | rfl | rfl
  · rfl
  · rfl
  · rfl
  · exact hsetenv
  · rfl
  · exact hkill

/-- A command that begins with `&` starts a program of that name. -/
theorem processCmd_amp {ws : List Word} (hws : Ahead t 0 (amp :: ws))
    (forked forked2 : Bool) :
    (processCmd forked forked2 t).isSome = true := by
  obtain ⟨s, hsplit, hprep⟩ := split_prepared hws (Or.inl List.mem_cons_self)
  have hcmd : command (amp :: ws) = [] :=
    List.takeWhile_cons_of_neg (by simp)
  rw [hcmd] at hprep
  rcases hprep with ⟨-, hoff, as, junk, has, hargv⟩ | ⟨a, b, hab, -⟩
  · have hfirst : launch t (s.argv.set 0 (.token 0)) ≠ none := by
      cases has
      rw [hargv]
      simp [launch, buildFilename, hws.load, elf, amp, filenameSize]
    obtain ⟨call, hcall⟩ := Option.ne_none_iff_exists'.mp hfirst
    rw [processCmd_eq hws.load (by decide), hsplit, Option.bind_some, launched,
      hoff]
    cases forked with
    | false => rfl
    | true =>
        rw [Option.isSome_map]
        simp [hcall]
  · exact absurd (congrArg List.length hab) (by simp)

/-- The tokens keep `process_cmd` within its arrays: it is a built-in
command, or begins with `&`, or else there is an empty token or an `&`
for the loop to stop at and the name of every program is there and
fits. -/
def CommandFits (ws : List Word) : Prop :=
  ∀ name ∈ ws.head?, name ∈ builtins ∨ name = amp
    ∨ (amp ∈ ws ∨ ws.length < tokenNr)
      ∧ ∀ args ∈ given (command ws), Startable args

instance (args : List Word) : Decidable (Startable args) :=
  inferInstanceAs (Decidable (∃ w ∈ args.head?, _))

instance (ws : List Word) : Decidable (CommandFits ws) :=
  inferInstanceAs (Decidable (∀ name ∈ ws.head?, _))

theorem processCmd_safe_iff {w : Word} {ws : List Word}
    (hws : Ahead t 0 (w :: ws)) :
    (∀ forked forked2, (processCmd forked forked2 t).isSome = true)
      ↔ CommandFits (w :: ws) := by
  have hfits : CommandFits (w :: ws) ↔ w ∈ builtins ∨ w = amp
      ∨ (amp ∈ w :: ws ∨ (w :: ws).length < tokenNr)
        ∧ ∀ args ∈ given (command (w :: ws)), Startable args := by
    simp [CommandFits]
  rw [hfits]
  by_cases hbuiltin : w ∈ builtins
  · exact ⟨fun _ => Or.inl hbuiltin,
      fun _ => processCmd_builtin hws.load hbuiltin⟩
  by_cases hamp : w = amp
  · subst hamp
    exact ⟨fun _ => Or.inr (Or.inl rfl), fun _ => processCmd_amp hws⟩
  have hname : ∀ name ∈ (w :: ws).head?, name ∉ builtins := by
    rintro name ⟨rfl⟩
    exact hbuiltin
  have hcmd : command (w :: ws) ≠ [] := by
    rw [command_cons hamp]
    exact List.cons_ne_nil _ _
  constructor
  · intro h
    have hend : amp ∈ w :: ws ∨ (w :: ws).length < tokenNr := by
      by_contra hno
      obtain ⟨hmem, hlen⟩ := not_or.mp hno
      have hle := hws.fits
      have hsplit := split_overrun hws hmem (by omega)
      have hrun := h true true
      rw [processCmd_eq hws.load hbuiltin, hsplit] at hrun
      cases hrun
    obtain ⟨hgives, -⟩ := processCmd_gives hws hend hname hcmd
    exact Or.inr (Or.inr ⟨hend, hgives.starts.mp (h true true)⟩)
  · intro h forked forked2
    obtain ⟨hend, hstart⟩ := (h.resolve_left hbuiltin).resolve_left hamp
    obtain ⟨-, hsome⟩ := processCmd_gives hws hend hname hcmd
    obtain ⟨lists, hsub, hgives⟩ := hsome forked forked2
    exact hgives.starts.mpr fun args hargs => hstart args (hsub hargs)

/-- A line of up to 79 characters keeps `parse_token` and `process_cmd`
within their arrays, whichever forks succeed, exactly if it has at most
ten tokens and these fit. -/
theorem turn_safe_iff {line : Word} (hline : line.length < tokenSize) :
    (∀ forked forked2, (turn forked forked2 line).isSome = true)
      ↔ (strtok line).length ≤ tokenNr ∧ CommandFits (strtok line) := by
  have hblank : (if line = [] then some Tokens.reset
      else parseToken line Tokens.reset) = parseToken line Tokens.reset := by
    split
    next hnil =>
      subst hnil
      rfl
    next => rfl
  unfold turn
  rw [hblank]
  by_cases hlen : (strtok line).length ≤ tokenNr
  · obtain ⟨t, hparse, hws⟩ := parseToken_ahead hline hlen
    rw [hparse]
    simp only [Option.bind_some, hlen, true_and]
    cases hstr : strtok line with
    | nil =>
        rw [hstr] at hws
        rw [hws.load_nil (by decide)]
        simp [CommandFits]
    | cons w ws =>
        rw [hstr] at hws
        rw [hws.load, ← processCmd_safe_iff hws]
        simp only [Option.bind_some, hws.nonempty w List.mem_cons_self,
          if_false]
  · have hnone : parseToken line Tokens.reset = none :=
      storeTokens_eq_none (by omega) (Nat.zero_le _)
    rw [hnone]
    simp [hlen]

/-- The line `a | b`. -/
theorem turn_safe_pipe :
    (turn true true ['a', ' ', '|', ' ', 'b']).isSome = true :=
  (turn_safe_iff (by decide)).mpr (by decide) true true

/-- Eleven tokens on a line of 22 characters. -/
def elevenTokens : Word := (List.replicate 11 ['a', ' ']).flatten

/-- The eleventh is copied past the end of `tokens`. -/
theorem not_turn_safe :
    elevenTokens.length < tokenSize
      ∧ (parseToken elevenTokens Tokens.reset).isNone = true
      ∧ ¬ ∀ forked forked2,
        (turn forked forked2 elevenTokens).isSome = true := by
  refine ⟨by decide, by decide, fun h => ?_⟩
  exact absurd (h true true) (by decide)

end SyeLabs.Shell
