/-
The programs a command runs, and with which arguments.

# What the operators ask for

`pipeline` reads a command as its operators are meant: with a `|`, the
first program gets the tokens before it and the second those up to the
next operator; without one, the only program gets the tokens before `&`.

# What they get

`process_cmd` ends the command at the first `&`, whatever follows; it
takes the tokens behind a second `|` for arguments of the second program
too; and it does not look whether a list is empty. `runsPipeline_iff` is
the condition under which none of this shows. The name of a program must
also fit in `filename`, which the lists do not depend on otherwise.
-/
import Mathlib.Data.List.TakeWhile
import SyeLabs.Shell.Split

namespace SyeLabs.Shell

variable {t : Tokens}

-- ================================================================= one program

/-- The file name of a program fits with its extension and the NUL. -/
def NameFits (w : Word) : Prop := (w ++ elf).length < filenameSize

instance (w : Word) : Decidable (NameFits w) :=
  inferInstanceAs (Decidable (_ < _))

theorem buildFilename_of_points {a : Arg} {w : Word} (h : Points t a w) :
    buildFilename t a = if NameFits w then some (w ++ elf) else none := by
  have hword : a.word t = some w := h
  cases a with
  | unset => cases hword
  | null => cases hword
  | token i =>
      have hload : t.load i = some w := hword
      rw [buildFilename, hload]
      rfl

/-- A program is started if its list is not empty and its name fits. -/
theorem Ended.launch {argv : List Arg} {ws : List Word}
    (h : Ended t argv ws) :
    Shell.launch t argv = ws.head?.bind fun w =>
      if NameFits w then some { filename := w ++ elf, argv } else none := by
  obtain ⟨as, junk, has, rfl⟩ := h
  cases has with
  | nil => rfl
  | cons ha _ =>
      rw [Shell.launch]
      simp only [List.cons_append, List.getElem?_cons_zero, Option.bind_some,
        List.head?_cons, buildFilename_of_points ha]
      split <;> rfl

/-- `argv[0] = tokens[0]` changes nothing where the list begins with the
first token. -/
theorem Ended.set_zero {argv : List Arg} {w : Word} {ws : List Word}
    (h : Ended t argv (w :: ws)) (hload : t.load 0 = some w) :
    Ended t (argv.set 0 (.token 0)) (w :: ws) := by
  obtain ⟨as, junk, has, rfl⟩ := h
  cases has with
  | cons _ has =>
      have hpoint : Points t (.token 0) w := hload
      exact ⟨_, junk, List.Forall₂.cons hpoint has, rfl⟩

/-- A list of arguments whose program can be started. -/
def Startable (args : List Word) : Prop := ∃ w ∈ args.head?, NameFits w

/-- Programs with terminated lists are all started if they can be. -/
theorem mapM_launch_isSome_iff {argvs : List (List Arg)}
    {lists : List (List Word)} (h : List.Forall₂ (Ended t) argvs lists) :
    (argvs.mapM (Shell.launch t)).isSome = true
      ↔ ∀ args ∈ lists, Startable args := by
  induction h with
  | nil => simp
  | @cons argv args argvs lists hend _ ih =>
      rw [List.forall_mem_cons, ← ih, List.mapM_cons, hend.launch, Startable]
      cases args with
      | nil => simp
      | cons w ws =>
          by_cases hw : NameFits w
          · cases hrest : argvs.mapM (Shell.launch t) with
            | none => simp [hw]
            | some calls => simp [hw]
          · simp [hw]

theorem mapM_launch_cons {argv : List Arg} {argvs : List (List Arg)}
    {calls : List Launch}
    (h : (argv :: argvs).mapM (Shell.launch t) = some calls) :
    ∃ c cs, calls = c :: cs ∧ Shell.launch t argv = some c
      ∧ argvs.mapM (Shell.launch t) = some cs := by
  rw [List.mapM_cons] at h
  obtain ⟨c, hc, h⟩ := Option.bind_eq_some_iff.mp h
  obtain ⟨cs, hcs, h⟩ := Option.bind_eq_some_iff.mp h
  cases h
  exact ⟨c, cs, rfl, hc, hcs⟩

theorem launch_argv {argv : List Arg} {c : Launch}
    (h : Shell.launch t argv = some c) : c.argv = argv := by
  obtain ⟨name, -, hname⟩ := Option.bind_eq_some_iff.mp h
  obtain ⟨filename, -, rfl⟩ := Option.map_eq_some_iff.mp hname
  rfl

/-- They are called with the words of these lists. -/
theorem mapM_launch_argWords {argvs : List (List Arg)}
    {lists : List (List Word)} (h : List.Forall₂ (Ended t) argvs lists) :
    ∀ {calls : List Launch}, argvs.mapM (Shell.launch t) = some calls →
      calls.map (fun c => argWords t c.argv) = lists.map some := by
  induction h with
  | nil =>
      intro calls hcalls
      cases hcalls
      rfl
  | @cons argv args argvs lists hend _ ih =>
      intro calls hcalls
      obtain ⟨c, cs, rfl, hc, hcs⟩ := mapM_launch_cons hcalls
      rw [List.map_cons, List.map_cons, launch_argv hc, hend.argWords, ih hcs]

/-- A command that is not built in. -/
theorem processCmd_eq {name : Word} (hname : t.load 0 = some name)
    (hbuiltin : name ∉ builtins) (forked forked2 : Bool) :
    processCmd forked forked2 t
      = (split t).bind fun s =>
          ((launched forked forked2 s).mapM (launch t)).map .launch := by
  simp only [builtins, List.mem_cons, List.not_mem_nil, or_false,
    not_or] at hbuiltin
  obtain ⟨h1, h2, h3, h4, h5, h6⟩ := hbuiltin
  rw [processCmd, hname, Option.bind_some, if_neg h1, if_neg h2, if_neg h3,
    if_neg h4, if_neg h5, if_neg h6]

-- ===================================================== what is asked and given

/-- The token is not an operator. -/
def IsArg (w : Word) : Prop := w ≠ bar ∧ w ≠ amp

instance (w : Word) : Decidable (IsArg w) :=
  inferInstanceAs (Decidable (_ ∧ _))

/-- The tokens before the first `|`, and those after it. -/
def beforeBar (ws : List Word) : List Word := ws.takeWhile (· ≠ bar)

def afterBar (ws : List Word) : List Word :=
  (ws.dropWhile (· ≠ bar)).drop 1

/-- The argument lists that the operators ask for. -/
def pipeline (ws : List Word) : List (List Word) :=
  if bar ∈ ws then
    [beforeBar ws, (afterBar ws).takeWhile fun w => IsArg w]
  else [command ws]

/-- The programs of a command get the lists that the operators ask for:
all of them where both forks succeed, and no others where one fails. -/
structure RunsPipeline (t : Tokens) (ws : List Word) : Prop where
  nonempty : ∀ args ∈ pipeline ws, args ≠ []
  runs : ∃ calls, processCmd true true t = some (.launch calls)
    ∧ calls.map (fun c => argWords t c.argv) = (pipeline ws).map some
  only : ∀ forked forked2, ∃ calls,
    processCmd forked forked2 t = some (.launch calls)
    ∧ ∀ c ∈ calls, ∃ args ∈ pipeline ws, argWords t c.argv = some args

/-- With a `|`: there are tokens before it, no `&` among them; a token
that is no operator follows it; and from the next `|` on nothing but `|`
comes before an `&` or the end. Without one: the first token is not
`&`. -/
def WellSplit (ws : List Word) : Prop :=
  if bar ∈ ws then
    beforeBar ws ≠ [] ∧ amp ∉ beforeBar ws
      ∧ (∃ w ∈ (afterBar ws).head?, IsArg w)
      ∧ ∀ w ∈ command ((afterBar ws).dropWhile fun w => IsArg w), w = bar
  else ws.head? ≠ some amp

instance (ws : List Word) : Decidable (WellSplit ws) := by
  unfold WellSplit
  infer_instance

-- ========================================================= cuts at an operator

theorem beforeBar_append {a b : List Word} (ha : bar ∉ a) :
    beforeBar (a ++ bar :: b) = a := by
  have hall : ∀ w ∈ a, decide (w ≠ bar) = true := fun w hw =>
    decide_eq_true fun heq => ha (heq ▸ hw)
  rw [beforeBar, List.takeWhile_append_of_pos hall,
    List.takeWhile_cons_of_neg (by simp), List.append_nil]

theorem afterBar_append {a b : List Word} (ha : bar ∉ a) :
    afterBar (a ++ bar :: b) = b := by
  have hall : ∀ w ∈ a, decide (w ≠ bar) = true := fun w hw =>
    decide_eq_true fun heq => ha (heq ▸ hw)
  rw [afterBar, List.dropWhile_append_of_pos hall,
    List.dropWhile_cons_of_neg (by simp)]
  rfl

theorem command_append {a b : List Word} (ha : amp ∉ a) :
    command (a ++ b) = a ++ command b :=
  List.takeWhile_append_of_pos fun _ hw =>
    decide_eq_true fun heq => ha (heq ▸ hw)

/-- Behind an `&` nothing belongs to the command. -/
theorem command_append_of_mem {a b : List Word} (ha : amp ∈ a) :
    command (a ++ b) = command a := by
  obtain ⟨c, d, rfl, hc⟩ := List.eq_append_cons_of_mem ha
  have hstop : ∀ e, command (amp :: e) = [] := fun e =>
    List.takeWhile_cons_of_neg (by simp)
  rw [List.append_assoc, command_append hc, command_append hc,
    List.cons_append, hstop, hstop]

theorem mem_command {ws : List Word} {w : Word} (h : w ∈ command ws) :
    w ∈ ws ∧ w ≠ amp :=
  ⟨(List.takeWhile_sublist _).subset h,
    by simpa using List.mem_takeWhile_imp h⟩

/-- The command begins with its arguments, up to the first operator. -/
theorem command_eq_append (ws : List Word) :
    command ws = (ws.takeWhile fun w => IsArg w)
      ++ command (ws.dropWhile fun w => IsArg w) := by
  have hamp : amp ∉ ws.takeWhile fun w => IsArg w := by
    intro hmem
    have := List.mem_takeWhile_imp hmem
    simp [IsArg] at this
  rw [← command_append hamp, List.takeWhile_append_dropWhile]

/-- Without the `|` among them, these are the arguments exactly if nothing
but `|` follows. -/
theorem filter_command_eq_iff (ws : List Word) :
    (command ws).filter (· ≠ bar) = (ws.takeWhile fun w => IsArg w)
      ↔ ∀ w ∈ command (ws.dropWhile fun w => IsArg w), w = bar := by
  have hargs : (ws.takeWhile fun w => IsArg w).filter (· ≠ bar)
      = ws.takeWhile fun w => IsArg w := by
    refine List.filter_eq_self.mpr fun w hw => ?_
    have harg := List.mem_takeWhile_imp hw
    exact decide_eq_true (of_decide_eq_true harg).1
  rw [command_eq_append, List.filter_append, hargs,
    List.append_right_eq_self, List.filter_eq_nil_iff]
  simp

-- =============================================================== what is given

/-- The lists the programs of a command get. -/
def given (cmd : List Word) : List (List Word) :=
  if bar ∈ cmd then [beforeBar cmd, (afterBar cmd).filter (· ≠ bar)]
  else [cmd]

/-- The arrays the loop leaves hold these lists, whichever of the programs
are started. -/
theorem Prepared.launched {cmd : List Word} {s : Split}
    (h : Prepared t cmd s) (hne : cmd ≠ []) (hload : t.load 0 = cmd.head?) :
    List.Forall₂ (Ended t) (Shell.launched true true s) (given cmd)
      ∧ ∀ forked forked2, ∃ lists, lists ⊆ given cmd
        ∧ List.Forall₂ (Ended t) (Shell.launched forked forked2 s) lists := by
  rcases h with ⟨hbar, hoff, hend⟩ | ⟨a, b, rfl, ha, hon, hend, hend2⟩
  · obtain ⟨w, ws, rfl⟩ := List.exists_cons_of_ne_nil hne
    have hset := hend.set_zero hload
    have hgiven : given (w :: ws) = [w :: ws] := if_neg hbar
    rw [hgiven]
    have hone : ∀ forked2, List.Forall₂ (Ended t)
        (Shell.launched true forked2 s) [w :: ws] := by
      intro forked2
      rw [Shell.launched, hoff]
      exact List.Forall₂.cons hset List.Forall₂.nil
    refine ⟨hone true, fun forked forked2 => ?_⟩
    cases forked with
    | false => exact ⟨[], List.nil_subset _, List.Forall₂.nil⟩
    | true => exact ⟨_, List.Subset.refl _, hone forked2⟩
  · have hgiven : given (a ++ bar :: b) = [a, b.filter (· ≠ bar)] := by
      rw [given, if_pos (by simp), beforeBar_append ha, afterBar_append ha]
    rw [hgiven]
    have hboth : List.Forall₂ (Ended t) (Shell.launched true true s)
        [a, b.filter (· ≠ bar)] := by
      rw [Shell.launched, hon]
      exact List.Forall₂.cons hend (List.Forall₂.cons hend2 List.Forall₂.nil)
    refine ⟨hboth, fun forked forked2 => ?_⟩
    cases forked with
    | false => exact ⟨[], List.nil_subset _, List.Forall₂.nil⟩
    | true =>
        cases forked2 with
        | true => exact ⟨_, List.Subset.refl _, hboth⟩
        | false =>
            refine ⟨[b.filter (· ≠ bar)], by simp, ?_⟩
            rw [Shell.launched, hon]
            exact List.Forall₂.cons hend2 List.Forall₂.nil

/-- What a command does with the argument lists of its programs: it starts
them all, if they can be started, with these lists. -/
structure Gives (t : Tokens) (forked forked2 : Bool)
    (lists : List (List Word)) : Prop where
  starts : (processCmd forked forked2 t).isSome = true
    ↔ ∀ args ∈ lists, Startable args
  words : ∀ e, processCmd forked forked2 t = some e → ∃ calls,
    e = .launch calls
      ∧ calls.map (fun c => argWords t c.argv) = lists.map some

theorem Gives.calls {forked forked2 : Bool} {lists : List (List Word)}
    (h : Gives t forked forked2 lists)
    (hstart : ∀ args ∈ lists, Startable args) :
    ∃ calls, processCmd forked forked2 t = some (.launch calls)
      ∧ calls.map (fun c => argWords t c.argv) = lists.map some := by
  obtain ⟨e, he⟩ := Option.isSome_iff_exists.mp (h.starts.mpr hstart)
  obtain ⟨calls, rfl, hwords⟩ := h.words e he
  exact ⟨calls, he, hwords⟩

theorem gives_of_ended {s : Split} {name : Word} {forked forked2 : Bool}
    {lists : List (List Word)} (hsplit : split t = some s)
    (hname : t.load 0 = some name) (hbuiltin : name ∉ builtins)
    (hended : List.Forall₂ (Ended t) (launched forked forked2 s) lists) :
    Gives t forked forked2 lists := by
  have heq := processCmd_eq hname hbuiltin forked forked2
  rw [hsplit, Option.bind_some] at heq
  constructor
  · rw [heq, Option.isSome_map]
    exact mapM_launch_isSome_iff hended
  · intro e he
    rw [heq] at he
    obtain ⟨calls, hcalls, rfl⟩ := Option.map_eq_some_iff.mp he
    exact ⟨calls, rfl, mapM_launch_argWords hended hcalls⟩

/-- A command gives its programs the lists of `given`. -/
theorem processCmd_gives {ws : List Word} (hws : Ahead t 0 ws)
    (hend : amp ∈ ws ∨ ws.length < tokenNr)
    (hbuiltin : ∀ name ∈ ws.head?, name ∉ builtins)
    (hcmd : command ws ≠ []) :
    Gives t true true (given (command ws))
      ∧ ∀ forked forked2, ∃ lists, lists ⊆ given (command ws)
        ∧ Gives t forked forked2 lists := by
  obtain ⟨s, hsplit, hprep⟩ := split_prepared hws hend
  obtain ⟨w, rest, rfl⟩ : ∃ w rest, ws = w :: rest := by
    refine List.exists_cons_of_ne_nil fun hnil => ?_
    rw [hnil] at hcmd
    exact hcmd rfl
  have hw : w ≠ amp := by
    rintro rfl
    exact hcmd (List.takeWhile_cons_of_neg (by simp))
  have hload : t.load 0 = (command (w :: rest)).head? := by
    rw [hws.load, command_cons hw]
    rfl
  have hname := hbuiltin w rfl
  obtain ⟨hall, hsome⟩ := hprep.launched hcmd hload
  refine ⟨gives_of_ended hsplit hws.load hname hall,
    fun forked forked2 => ?_⟩
  obtain ⟨lists, hsub, hended⟩ := hsome forked forked2
  exact ⟨lists, hsub, gives_of_ended hsplit hws.load hname hended⟩

theorem mapM_launch_length {argvs : List (List Arg)} :
    ∀ {calls : List Launch}, argvs.mapM (Shell.launch t) = some calls →
      calls.length = argvs.length := by
  induction argvs with
  | nil =>
      intro calls hcalls
      cases hcalls
      rfl
  | cons argv argvs ih =>
      intro calls hcalls
      obtain ⟨c, cs, rfl, -, hcs⟩ := mapM_launch_cons hcalls
      rw [List.length_cons, List.length_cons, ih hcs]

/-- There are as many calls as lists. -/
theorem processCmd_length {ws : List Word} {calls : List Launch}
    (hws : Ahead t 0 ws) (hend : amp ∈ ws ∨ ws.length < tokenNr)
    (hbuiltin : ∀ name ∈ ws.head?, name ∉ builtins) (hne : ws ≠ [])
    (hcalls : processCmd true true t = some (.launch calls)) :
    calls.length = (given (command ws)).length := by
  obtain ⟨s, hsplit, hprep⟩ := split_prepared hws hend
  obtain ⟨w, rest, rfl⟩ := List.exists_cons_of_ne_nil hne
  rw [processCmd_eq hws.load (hbuiltin w rfl), hsplit,
    Option.bind_some] at hcalls
  obtain ⟨cs, hcs, hlaunch⟩ := Option.map_eq_some_iff.mp hcalls
  cases hlaunch
  rw [mapM_launch_length hcs]
  rcases hprep with ⟨hbar, hoff, -⟩ | ⟨a, b, hab, -, hon, -⟩
  · rw [given, if_neg hbar, launched, hoff]
    rfl
  · have hbar : bar ∈ command (w :: rest) := by
      rw [hab]
      simp
    rw [given, if_pos hbar, launched, hon]
    rfl

-- ========================================================= given and asked for

/-- The lists given are those asked for, and none of them is empty,
exactly if the operators are well placed. -/
theorem given_eq_pipeline_iff {ws : List Word} (hne : ws ≠ []) :
    (given (command ws) = pipeline ws ∧ ∀ args ∈ pipeline ws, args ≠ [])
      ↔ WellSplit ws := by
  by_cases hbar : bar ∈ ws
  · rw [pipeline, WellSplit, if_pos hbar, if_pos hbar]
    obtain ⟨a, b, rfl, ha⟩ := List.eq_append_cons_of_mem hbar
    rw [beforeBar_append ha, afterBar_append ha]
    by_cases hamp : amp ∈ a
    · -- the command ends before the `|`
      have hcmd : bar ∉ command (a ++ bar :: b) := by
        rw [command_append_of_mem hamp]
        exact fun hmem => ha (mem_command hmem).1
      rw [given, if_neg hcmd]
      simp [hamp]
    · have hcmd : command (a ++ bar :: b) = a ++ bar :: command b := by
        rw [command_append hamp, command_cons (by decide)]
      have hmem : bar ∈ a ++ bar :: command b := by simp
      have hargs : (∃ w ∈ b.head?, IsArg w)
          ↔ (b.takeWhile fun w => IsArg w) ≠ [] := by
        cases b with
        | nil => simp
        | cons w b =>
            by_cases hw : IsArg w
            · simp [hw]
            · simp [hw]
      rw [given, hcmd, if_pos hmem, beforeBar_append ha, afterBar_append ha,
        ← filter_command_eq_iff b, hargs]
      simp only [List.cons.injEq, true_and, and_true, List.forall_mem_cons,
        hamp, not_false_eq_true]
      simp [and_comm, and_left_comm]
  · have hcmd : bar ∉ command ws := fun hmem => hbar (mem_command hmem).1
    rw [pipeline, WellSplit, if_neg hbar, if_neg hbar, given, if_neg hcmd]
    obtain ⟨w, rest, rfl⟩ := List.exists_cons_of_ne_nil hne
    by_cases hw : w = amp
    · simp [command, hw]
    · rw [command_cons hw]
      simp [hw]

/-- A command that begins with `&` has not even one list that is not
empty. -/
theorem command_ne_nil {ws : List Word}
    (hlen : (given (command ws)).length = (pipeline ws).length)
    (hnonempty : ∀ args ∈ pipeline ws, args ≠ []) : command ws ≠ [] := by
  intro hcmd
  rw [hcmd, given, if_neg List.not_mem_nil] at hlen
  unfold pipeline at hlen hnonempty
  split at hlen
  next => simp at hlen
  next hbar =>
    rw [if_neg hbar, hcmd] at hnonempty
    exact hnonempty [] List.mem_cons_self rfl

/-- The programs of a command get the lists its operators ask for exactly
if these are well placed and the names of the programs fit. -/
theorem runsPipeline_iff {ws : List Word} (hws : Ahead t 0 ws)
    (hne : ws ≠ []) (hlen : ws.length < tokenNr)
    (hbuiltin : ∀ name ∈ ws.head?, name ∉ builtins) :
    RunsPipeline t ws
      ↔ WellSplit ws ∧ ∀ args ∈ pipeline ws, ∀ w ∈ args.head?,
          NameFits w := by
  rw [← given_eq_pipeline_iff hne]
  constructor
  · intro h
    obtain ⟨calls, hcalls, hwords⟩ := h.runs
    have hlength : (given (command ws)).length = (pipeline ws).length := by
      rw [← processCmd_length hws (Or.inr hlen) hbuiltin hne hcalls]
      simpa using congrArg List.length hwords
    obtain ⟨hgives, -⟩ := processCmd_gives hws (Or.inr hlen) hbuiltin
      (command_ne_nil hlength h.nonempty)
    obtain ⟨calls', hsame, hwords'⟩ := hgives.words _ hcalls
    cases hsame
    have hinj : Function.Injective (some : List Word → Option (List Word)) :=
      fun _ _ => Option.some.inj
    have heq : given (command ws) = pipeline ws :=
      hinj.list_map (hwords'.symm.trans hwords)
    refine ⟨⟨heq, h.nonempty⟩, fun args hargs w hw => ?_⟩
    have hstart := hgives.starts.mp (by rw [hcalls]; rfl) args (heq ▸ hargs)
    obtain ⟨v, hv, hfits⟩ := hstart
    rw [Option.mem_unique hw hv]
    exact hfits
  · intro h
    obtain ⟨⟨heq, hnonempty⟩, hfits⟩ := h
    have hstart : ∀ args ∈ given (command ws), Startable args := by
      rw [heq]
      intro args hargs
      obtain ⟨w, rest, rfl⟩ :=
        List.exists_cons_of_ne_nil (hnonempty args hargs)
      exact ⟨w, rfl, hfits _ hargs w rfl⟩
    obtain ⟨hgives, hsome⟩ := processCmd_gives hws (Or.inr hlen) hbuiltin
      (command_ne_nil (congrArg List.length heq) hnonempty)
    obtain ⟨calls, hcalls, hwords⟩ := hgives.calls hstart
    refine ⟨hnonempty, ⟨calls, hcalls, heq ▸ hwords⟩,
      fun forked forked2 => ?_⟩
    obtain ⟨lists, hsub, hgives⟩ := hsome forked forked2
    obtain ⟨calls, hcalls, hwords⟩ :=
      hgives.calls fun args hargs => hstart args (hsub hargs)
    refine ⟨calls, hcalls, fun c hc => ?_⟩
    have hmem : argWords t c.argv ∈ lists.map some :=
      hwords ▸ List.mem_map_of_mem hc
    obtain ⟨args, hargs, hword⟩ := List.mem_map.mp hmem
    exact ⟨args, heq ▸ hsub hargs, hword.symm⟩

/-- The tokens `a | b`. -/
def pipeOfTwo : Tokens where
  cells := [['a'], bar, ['b'], [], [], [], [], [], [], []]
  count := rfl
  fit := by decide

theorem pipeOfTwo_runs :
    RunsPipeline pipeOfTwo [['a'], bar, ['b']] :=
  (runsPipeline_iff ⟨rfl, by decide, by decide⟩ (by decide) (by decide)
    (by decide)).mpr ⟨by decide, by decide⟩

/-- The tokens `a | b | c`. -/
def pipeOfThree : Tokens where
  cells := [['a'], bar, ['b'], bar, ['c'], [], [], [], [], []]
  count := rfl
  fit := by decide

/-- The second program is run as `b c`. -/
theorem not_pipeOfThree_runs :
    (∃ calls, processCmd true true pipeOfThree = some (.launch calls)
        ∧ calls.map (fun c => argWords pipeOfThree c.argv)
          = [some [['a']], some [['b'], ['c']]])
      ∧ ¬ RunsPipeline pipeOfThree [['a'], bar, ['b'], bar, ['c']] := by
  have hrun : ∃ calls,
      processCmd true true pipeOfThree = some (.launch calls)
        ∧ calls.map (fun c => argWords pipeOfThree c.argv)
          = [some [['a']], some [['b'], ['c']]] := ⟨_, rfl, rfl⟩
  refine ⟨hrun, fun h => ?_⟩
  obtain ⟨calls, hcalls, hwords⟩ := hrun
  obtain ⟨calls', hcalls', hwords'⟩ := h.runs
  rw [hcalls] at hcalls'
  cases hcalls'
  rw [hwords] at hwords'
  exact absurd hwords' (by decide)

end SyeLabs.Shell
