/-
From the line typed to the arguments the program reads.

# The way of a line

The shell cuts the line into tokens and the tokens into the argument lists
of its programs. Each child calls `execv` with a file name and an array of
pointers to tokens; `do_execve` packs the strings behind the pointers,
replaces the image and moves the packed page into it. The program reads
the page through its own page table.

`command_line_reaches_program` goes all the way: the program finds the
tokens of the line, none lost, cut short or run together. That the
arguments of a line always fit in their page is part of it, for they take
at most 128 bytes of it (`packedSize_line`).
-/
import SyeLabs.Kernel.ExecLeak
import SyeLabs.Shell.Bounds

namespace SyeLabs.Shell

open Lib Mmu Process Kernel

-- ================================================================ what is read

section Reading

variable {P : Platform} {H F : Type*}

/-- The user area as process `p` reads it, as bytes. -/
def userMem (P : Platform) (m : Machine H F) (p : Ref) : ByteMem :=
  fun v => (userBytes P m p v).getD 0

/-- Process `p` finds these arguments and this environment: its argument
page is mapped, the strings are those, and each lies in the page. -/
structure Reads (P : Platform) (m : Machine H F) (p : Ref)
    (argv envp : List (List UInt8)) : Prop where
  mapped : ∀ v, P.argsBase ≤ v → v < P.argsBase + pageSize →
    (userBytes P m p v).isSome
  args : strsAt (userMem P m p) (argPtrs (userMem P m p) P.argsBase) = argv
  env : strsAt (userMem P m p) (envPtrs (userMem P m p) P.argsBase) = envp
  inside : ∀ x ∈ (argPtrs (userMem P m p) P.argsBase
      ++ envPtrs (userMem P m p) P.argsBase).zip (argv ++ envp),
    P.argsBase ≤ x.1 ∧ x.1 + x.2.length < P.argsBase + pageSize

/-- The strings of an argument page lie in it. -/
theorem argPage_inside {mem : ByteMem} {a : Nat} {as es : List CString}
    (h : ArgPage mem a as es a) (hfit : packedSize as es ≤ pageSize) :
    ∀ x ∈ (argPtrs mem a ++ envPtrs mem a).zip
        (as.map CString.bytes ++ es.map CString.bytes),
      a ≤ x.1 ∧ x.1 + x.2.length < a + pageSize := by
  have hptrs : argPtrs mem a ++ envPtrs mem a
      = layout (as ++ es) (a + headerSize as.length es.length) := by
    rw [h.argPtrs_eq, h.envPtrs_eq hfit, layout_append]
  intro x hx
  rw [hptrs, ← List.map_append, List.zip_map_right, List.mem_map] at hx
  obtain ⟨y, hy, rfl⟩ := hx
  obtain ⟨hfrom, hto⟩ := layout_bounds hy
  rw [totalSize_append] at hto
  unfold CString.size at hto
  unfold packedSize at hfit
  unfold headerSize at hfrom hto
  simp only [Prod.map_fst, Prod.map_snd, id_eq]
  omega

/-- A process whose argument page holds the packed strings reads them. -/
theorem reads_of_bytes {m : Machine H F} {p : Ref} {as es : List CString}
    (has : as ≠ []) (hfit : packedSize as es ≤ pageSize)
    (h : ∀ i, i < pageSize → userBytes P m p (P.argsBase + i)
      = some ((argBytes P.argsBase as es).getD i 0)) :
    Reads P m p (as.map CString.bytes) (es.map CString.bytes) := by
  have hbase : P.argsBase + pageSize ≤ 4294967296 :=
    P.argsBase_user.trans P.kernelVaddr_le
  have hpage : ArgPage (userMem P m p) P.argsBase as es P.argsBase := by
    refine argPage_of_bytesAt has hfit hbase fun i hi => ?_
    rw [userMem, h i (argBytes_length hfit ▸ hi), Option.getD_some,
      List.getD_eq_getElem?_getD, List.getElem?_eq_getElem hi,
      Option.getD_some]
  have hsize := hfit
  unfold packedSize at hsize
  constructor
  · intro v hv hv'
    have hi := h (v - P.argsBase) (by omega)
    rw [Nat.add_sub_cancel' hv] at hi
    rw [hi]
    rfl
  · rw [hpage.argPtrs_eq]
    exact hpage.args.strs (by omega)
  · rw [hpage.envPtrs_eq hfit]
    exact hpage.env.strs (by omega)
  · exact argPage_inside hpage hfit

end Reading

-- =========================================================== what is passed on

/-- The bytes of a word. -/
def wordBytes (w : Word) : List UInt8 := w.map fun c => UInt8.ofNat c.toNat

/-- The strings `execv` finds behind the pointers of a call. -/
structure Launch.Passes (c : Launch) (t : Tokens) (filename : CString)
    (argv : List CString) : Prop where
  file : filename.bytes = wordBytes c.filename
  words : ∃ ws, argWords t c.argv = some ws
    ∧ argv.map CString.bytes = ws.map wordBytes

/-- On this line the shell calls `execv` with these strings, whichever of
its forks succeed. -/
def Starts (line : Word) (filename : CString) (argv : List CString) : Prop :=
  ∃ t, parseToken line Tokens.reset = some t ∧ t.load 0 ≠ some []
    ∧ ∃ forked forked2 calls,
      processCmd forked forked2 t = some (.launch calls)
        ∧ ∃ c ∈ calls, c.Passes t filename argv

variable {t : Tokens}

/-- A built-in command starts no program. -/
theorem not_builtin_of_launch {name : Word} {forked forked2 : Bool}
    {calls : List Launch} (hname : t.load 0 = some name)
    (h : processCmd forked forked2 t = some (.launch calls)) :
    name ∉ builtins := by
  intro hbuiltin
  simp only [builtins, List.mem_cons, List.not_mem_nil, or_false] at hbuiltin
  rw [processCmd, hname, Option.bind_some] at h
  rcases hbuiltin with rfl | rfl | rfl | rfl | rfl | rfl
  · cases h
  · cases h
  · cases h
  · obtain ⟨w, -, h⟩ := Option.bind_eq_some_iff.mp h
    split at h
    · cases h
    · obtain ⟨v, -, h⟩ := Option.map_eq_some_iff.mp h
      split at h
      · cases h
      · cases h
  · cases h
  · obtain ⟨w, -, h⟩ := Option.bind_eq_some_iff.mp h
    obtain ⟨v, -, h⟩ := Option.map_eq_some_iff.mp h
    split at h
    · cases h
    · split at h
      · cases h
      · split at h
        · cases h
        · cases h

/-- The array of a command that begins with `&` has no end. -/
theorem argWords_amp {ws : List Word} (hws : Ahead t 0 (amp :: ws))
    {forked forked2 : Bool} {calls : List Launch}
    (h : processCmd forked forked2 t = some (.launch calls)) :
    ∀ c ∈ calls, argWords t c.argv = none := by
  have hsplit : split t = some { Split.start with
      background := true
      argv := Split.start.argv.set 0 .null } := by
    have hload : t.load Split.start.argPos = some amp := hws.load
    have hloop : splitLoop t (tokenNr + 1) Split.start
        = some { Split.start with background := true } := by
      unfold splitLoop
      rw [if_neg (by decide), hload, Option.bind_some, if_neg (by decide),
        splitStep, if_pos rfl]
      rfl
    rw [split, hloop]
    rfl
  rw [processCmd_eq hws.load (by decide), hsplit, Option.bind_some] at h
  obtain ⟨calls', hcalls, hsame⟩ := Option.map_eq_some_iff.mp h
  cases hsame
  intro c hc
  cases forked with
  | false =>
      cases hcalls
      cases hc
  | true =>
      obtain ⟨c', cs, rfl, hc', hcs⟩ := mapM_launch_cons hcalls
      cases hcs
      obtain rfl := List.mem_singleton.mp hc
      rw [launch_argv hc']
      show (argWords t (.token 0 :: .unset :: _)) = none
      rw [argWords, argWords]
      · simp [Arg.word]
      · intro hnull
        cases hnull
      · intro hnull
        cases hnull

/-- A call of `execv` is one of `launch`. -/
theorem launch_of_mem {argvs : List (List Arg)} :
    ∀ {calls : List Launch}, argvs.mapM (Shell.launch t) = some calls →
      ∀ c ∈ calls, Shell.launch t c.argv = some c := by
  induction argvs with
  | nil =>
      intro calls hcalls c hc
      cases hcalls
      cases hc
  | cons argv argvs ih =>
      intro calls hcalls c hc
      obtain ⟨c', cs, rfl, hc', hcs⟩ := mapM_launch_cons hcalls
      rcases List.mem_cons.mp hc with rfl | hc
      · rw [launch_argv hc']
        exact hc'
      · exact ih hcs c hc

/-- The file name is the first argument with its extension. -/
theorem launch_filename {c : Launch} {ws : List Word}
    (h : Shell.launch t c.argv = some c)
    (hwords : argWords t c.argv = some ws) :
    ∃ w ∈ ws.head?, c.filename = w ++ elf := by
  obtain ⟨name, hname, hbuild⟩ := Option.bind_eq_some_iff.mp h
  obtain ⟨filename, hfile, hc⟩ := Option.map_eq_some_iff.mp hbuild
  have hfilename : c.filename = filename := by
    rw [← hc]
  cases hargv : c.argv with
  | nil =>
      rw [hargv] at hname
      cases hname
  | cons a as =>
      rw [hargv] at hname hwords
      cases hname
      cases name with
      | unset => cases hfile
      | null => cases hfile
      | token i =>
          obtain ⟨w, hload, hfits⟩ := Option.bind_eq_some_iff.mp hfile
          have hword : argWords t (.token i :: as)
              = (t.load i).bind fun w =>
                  (argWords t as).map fun ws => w :: ws := rfl
          rw [hword, hload, Option.bind_some] at hwords
          obtain ⟨rest, -, rfl⟩ := Option.map_eq_some_iff.mp hwords
          refine ⟨w, rfl, ?_⟩
          rw [hfilename]
          split at hfits
          · exact (Option.some.inj hfits).symm
          · cases hfits

/-- A program started on a line gets one of the lists of the line, and the
first word of it names its file. -/
theorem Starts.given {line : Word} {filename : CString}
    {argv : List CString} (h : Starts line filename argv)
    (hline : line.length < tokenSize) :
    (strtok line).length ≤ tokenNr ∧ ∃ ws ∈ given (command (strtok line)),
      argv.map CString.bytes = ws.map wordBytes
        ∧ ∃ w ∈ ws.head?, filename.bytes = wordBytes (w ++ elf) := by
  obtain ⟨t, hparse, hfirst, forked, forked2, calls, hcmd, c, hc, hpasses⟩ := h
  obtain ⟨ws, hwords, hargv⟩ := hpasses.words
  have hlen : (strtok line).length ≤ tokenNr := by
    by_contra hlen
    have hnone : parseToken line Tokens.reset = none :=
      storeTokens_eq_none (by omega) (Nat.zero_le _)
    rw [hnone] at hparse
    cases hparse
  obtain ⟨t', hparse', hahead⟩ := parseToken_ahead hline hlen
  rw [hparse] at hparse'
  cases hparse'
  refine ⟨hlen, ?_⟩
  cases htokens : strtok line with
  | nil =>
      rw [htokens] at hahead
      exact absurd (hahead.load_nil (by decide)) hfirst
  | cons name rest =>
      rw [htokens] at hahead hlen
      have hbuiltin := not_builtin_of_launch hahead.load hcmd
      have hamp : name ≠ amp := by
        rintro rfl
        rw [argWords_amp hahead hcmd c hc] at hwords
        cases hwords
      have hend : amp ∈ name :: rest ∨ (name :: rest).length < tokenNr := by
        by_contra hno
        obtain ⟨hmem, hfull⟩ := not_or.mp hno
        rw [processCmd_eq hahead.load hbuiltin,
          split_overrun hahead hmem (by omega)] at hcmd
        cases hcmd
      have hne : command (name :: rest) ≠ [] := by
        rw [command_cons hamp]
        exact List.cons_ne_nil _ _
      obtain ⟨-, hsome⟩ := processCmd_gives hahead hend (by
        rintro w ⟨rfl⟩
        exact hbuiltin) hne
      obtain ⟨lists, hsub, hgives⟩ := hsome forked forked2
      obtain ⟨calls', hsame, hall⟩ := hgives.words _ hcmd
      cases hsame
      have hmem : some ws ∈ lists.map some := by
        rw [← hall, ← hwords]
        exact List.mem_map_of_mem hc
      obtain ⟨ws', hws', hsame⟩ := List.mem_map.mp hmem
      cases hsame
      refine ⟨ws, hsub hws', hargv, ?_⟩
      rw [processCmd_eq hahead.load hbuiltin] at hcmd
      obtain ⟨s, -, hcmd⟩ := Option.bind_eq_some_iff.mp hcmd
      obtain ⟨calls', hcalls, hsame⟩ := Option.map_eq_some_iff.mp hcmd
      cases hsame
      obtain ⟨w, hw, hname⟩ :=
        launch_filename (launch_of_mem hcalls c hc) hwords
      exact ⟨w, hw, by rw [hpasses.file, hname]⟩

-- ============================================================== how much it is

/-- The bytes that words take with their terminators. -/
def wordsSize : List Word → Nat
  | [] => 0
  | w :: ws => w.length + 1 + wordsSize ws

theorem totalSize_eq_wordsSize {ss : List CString} {ws : List Word}
    (h : ss.map CString.bytes = ws.map wordBytes) :
    totalSize ss = wordsSize ws := by
  induction ss generalizing ws with
  | nil =>
      cases ws with
      | nil => rfl
      | cons w ws => cases h
  | cons s ss ih =>
      cases ws with
      | nil => cases h
      | cons w ws =>
          obtain ⟨hhead, htail⟩ := List.cons.inj h
          have hsize : s.bytes.length = w.length := by
            rw [hhead, wordBytes, List.length_map]
          rw [totalSize_cons, wordsSize, ih htail, CString.size, hsize]

theorem wordsSize_le_of_sublist {us ws : List Word} (h : us.Sublist ws) :
    wordsSize us ≤ wordsSize ws := by
  induction h with
  | slnil => exact Nat.le_refl _
  | cons w _ ih =>
      rw [wordsSize]
      omega
  | cons_cons w _ ih =>
      rw [wordsSize, wordsSize]
      omega

/-- The runs of a line and the blanks between them make up the line. -/
theorem wordsSize_splitOn (line : Word) :
    wordsSize (line.splitOn ' ') = line.length + 1 := by
  induction line with
  | nil => rfl
  | cons c line ih =>
      rw [List.splitOn] at ih
      rw [List.splitOn, List.splitOnP_cons_eq_if_modifyHead]
      split
      next =>
        rw [wordsSize, ih, List.length_cons, List.length_nil]
        omega
      next =>
        cases hsplit : line.splitOnP (· == ' ') with
        | nil =>
            rw [hsplit] at ih
            cases ih
        | cons v vs =>
            rw [hsplit, wordsSize] at ih
            rw [List.modifyHead_cons, wordsSize, List.length_cons,
              List.length_cons]
            omega

/-- The lists of a command are made of its words, in order. -/
theorem given_sublist {cmd ws : List Word} (h : ws ∈ given cmd) :
    ws.Sublist cmd := by
  unfold given at h
  split at h
  next =>
    rcases List.mem_cons.mp h with rfl | h
    · exact List.takeWhile_sublist _
    · obtain rfl := List.mem_singleton.mp h
      exact List.filter_sublist.trans
        ((List.drop_sublist _ _).trans (List.dropWhile_sublist _))
  next =>
    obtain rfl := List.mem_singleton.mp h
    exact List.Sublist.refl _

/-- The arguments of a program take at most 128 bytes of their page, the
count and the terminator of the environment included. -/
theorem packedSize_line {line : Word} {ws : List Word}
    {as : List CString} (es : List CString) (hline : line.length < tokenSize)
    (hlen : (strtok line).length ≤ tokenNr)
    (hws : ws ∈ given (command (strtok line)))
    (has : as.map CString.bytes = ws.map wordBytes) :
    packedSize as es ≤ 128 + (4 * es.length + totalSize es) := by
  have hsub : ws.Sublist (strtok line) :=
    (given_sublist hws).trans (List.takeWhile_sublist _)
  have hsize : wordsSize ws ≤ line.length + 1 := by
    rw [← wordsSize_splitOn]
    exact wordsSize_le_of_sublist (hsub.trans List.filter_sublist)
  have hcount : as.length = ws.length := by
    simpa using congrArg List.length has
  have hle := hsub.length_le
  unfold tokenSize at hline
  unfold tokenNr at hlen
  rw [packedSize, totalSize_eq_wordsSize has, hcount]
  omega

-- ================================================================= all the way

section AllTheWay

variable {P : Platform} {H F : Type*} {B : Board P H F}

/-- Exec leaves the packed strings in the argument page, unless a section
of the image is loaded over it. -/
theorem exec_argPage {name : CString} (s : ExecStart B name)
    {img : ElfImage} {argv envp : Option (List CString)}
    {m : Machine H F} (hfit : ArgsFit name argv envp)
    (hfits : ImageFits P img.toElf)
    (hclear : ∀ w ∈ img.stores,
      w.1 < P.argsBase ∨ P.argsBase + pageSize ≤ w.1)
    (h : s.exec img argv envp = some m) (i : Nat) (hi : i < pageSize) :
    userBytes P m s.p (P.argsBase + i)
      = some ((argBytes P.argsBase
          (argStrings name (argv.getD []).length argv)
          (envp.getD [])).getD i 0) := by
  obtain ⟨M, -, hbytes⟩ := s.exec_userBytes hfits h
  have hmiss : lastWrite img.stores (P.argsBase + i) = none := by
    rw [← Option.not_isSome_iff_eq_none, lastWrite_isSome_iff]
    rintro ⟨w, hw, hat⟩
    have := hclear w hw
    omega
  rw [hbytes, imageWrites, if_pos hfit, overlay_append,
    overlay_of_missed hmiss, overlay, argWrites, lastWrite_block,
    if_pos ⟨Nat.le_add_right _ _, Nat.add_lt_add_left hi _⟩,
    Nat.add_sub_cancel_left]
  rfl

/-- What the user types is what the program reads: a program that the
shell starts on a line finds in its own memory one of the argument lists
of that line, word for word, and the environment of the shell, and its
file is named by the first word. The environment has 3968 bytes to itself;
no line takes more than the rest of the page. The image fits and has no
section over the argument page, which exec maps anew: what is read is read
through the page table, not through an entry cached before. -/
theorem command_line_reaches_program {filename : CString}
    (s : ExecStart B filename) {line : Word} {argv envp : List CString}
    {img : ElfImage} {m : Machine H F} (hline : line.length < tokenSize)
    (hstarts : Starts line filename argv)
    (henv : 4 * envp.length + totalSize envp ≤ 3968)
    (hfits : ImageFits P img.toElf)
    (hclear : ∀ w ∈ img.stores,
      w.1 < P.argsBase ∨ P.argsBase + pageSize ≤ w.1)
    (hexec : s.exec img (some argv) (some envp) = some m) :
    ∃ ws ∈ given (command (strtok line)),
      Reads P m s.p (ws.map wordBytes) (envp.map CString.bytes)
        ∧ ∃ w ∈ ws.head?, filename.bytes = wordBytes (w ++ elf) := by
  obtain ⟨hlen, ws, hws, hargv, w, hw, hname⟩ := hstarts.given hline
  have hne : argv ≠ [] := by
    rintro rfl
    have hnil : ws = [] := List.map_eq_nil_iff.mp hargv.symm
    rw [hnil] at hw
    cases hw
  have hpacked := packedSize_line envp hline hlen hws hargv
  have hsize : packedSize argv envp ≤ pageSize := by
    unfold pageSize
    omega
  have hstrings : argStrings filename ((some argv).getD []).length
      (some argv) = argv := argStrings_some hne
  have hfit : ArgsFit filename (some argv) (some envp) := by
    rw [ArgsFit, hstrings]
    exact hsize
  have hbytes := exec_argPage s hfit hfits hclear hexec
  rw [hstrings] at hbytes
  refine ⟨ws, hws, ?_, w, hw, hname⟩
  rw [← hargv]
  exact reads_of_bytes hne hsize hbytes

end AllTheWay

/-- The line `ls -l`, and the name of the file it starts. -/
def lineLs : Word := ['l', 's', ' ', '-', 'l']

def fileLs : CString :=
  .lit [0x6c, 0x73, 0x2e, 0x65, 0x6c, 0x66] (by decide)

theorem starts_lineLs : Starts lineLs fileLs lsArgs :=
  ⟨_, rfl, by decide, true, true, _, rfl, _, List.mem_cons_self,
    ⟨rfl, _, rfl, rfl⟩⟩

set_option maxRecDepth 4096 in
/-- The root process of the small layout, about to execute `ls.elf`. -/
theorem exists_lsStart : ∃ s : ExecStart Board.small fileLs,
    (calls .small s.mach (setupCalls .small s.p ⟨0x1000, 1⟩)).isSome := by
  have hcreate : ∃ K, perform .small onePage id State.small .create = some K
      ∧ Live K.sys.k 0
      ∧ (calls .small K.mach
        (setupCalls .small 0 ⟨0x1000, 1⟩)).isSome = true :=
    ⟨_, rfl, by decide, rfl⟩
  obtain ⟨K, hK, hlive, hsetup⟩ := hcreate
  have hisolated := isolated_create onePage id bootTables_small hK
  exact ⟨hisolated.execStart hlive fileLs 0xC0100000 (fun _ => 0)
    (by decide) (by decide) (by decide), hsetup⟩

/-- `ls -l` under `PATH=/`. -/
theorem command_line_reaches_ls :
    ∃ (s : ExecStart Board.small fileLs) (m : Machine _ _),
      s.exec fullImage (some lsArgs) (some lsEnv) = some m
        ∧ Reads .small m s.p [[0x6c, 0x73], [0x2d, 0x6c]]
          [[0x50, 0x41, 0x54, 0x48, 0x3d, 0x2f]] := by
  obtain ⟨s, hs⟩ := exists_lsStart
  have hat : ∀ w ∈ fullImage.stores, InArea 0x1000 1 w.1
      ∨ InArea 0x3000 1 w.1 ∨ InArea 0x1FE000 1 w.1 :=
    fun w hw => loadsAt_full.mp (stores_iff_loadsAt.mp ⟨w, hw, rfl⟩)
  have hclear : ∀ w ∈ fullImage.stores, w.1 < Platform.small.argsBase
      ∨ Platform.small.argsBase + pageSize ≤ w.1 := by
    intro w hw
    left
    have hbase : Platform.small.argsBase = 0x1FF000 := rfl
    have := hat w hw
    unfold InArea at this
    omega
  have hsome : (s.exec fullImage (some lsArgs) (some lsEnv)).isSome := by
    rw [s.exec_isSome_iff small_fits]
    refine ⟨hs, fun w hw => ?_⟩
    apply imageArea_small.mpr
    rcases hat w hw with hv | hv | hv
    · exact Or.inr (Or.inl hv)
    · exact Or.inr (Or.inr (Or.inl hv))
    · exact Or.inl hv
  obtain ⟨m, hm⟩ := Option.isSome_iff_exists.mp hsome
  refine ⟨s, m, hm, ?_⟩
  obtain ⟨ws, hws, hreads, -⟩ := command_line_reaches_program s (by decide)
    starts_lineLs (by decide) small_fits hclear hm
  have hgiven : given (command (strtok lineLs))
      = [[['l', 's'], ['-', 'l']]] := by
    decide
  rw [hgiven] at hws
  obtain rfl := List.mem_singleton.mp hws
  exact hreads

end SyeLabs.Shell
