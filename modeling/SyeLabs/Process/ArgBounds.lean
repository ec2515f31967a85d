/-
The bounds of the argument page: what `preserve_args_and_env` writes and
when it refuses.

Both packing loops store a string first and look at the cursor
afterwards, so the string that crosses the end of the page is written in
full before the loop gives up (`packStrings_overrun`), and the name put
down for an empty argument list is not looked at by any loop. A packed
form that fits is written inside the page and returned
(`preserveArgsAndEnv_fit`); one that does not is always written past it.

A byte counts as written when some initial memory sees it change: the
values stored do not depend on the memory, so nothing written escapes
this way of putting it.
-/
import SyeLabs.Process.ArgBytes
import SyeLabs.Process.Exec

namespace SyeLabs.Process

open Lib

-- ======================================================== statement vocabulary

/-- `preserve_args_and_env` writes the byte at `x`. -/
def PreserveWrites (args : Nat) (name : CString) (argc : Nat)
    (argv envp : Option (List CString)) (x : Nat) : Prop :=
  ∃ m, (preserveArgsAndEnv args name argc argv envp m).1 x ≠ m x

/-- The length of the packed form: the count, a pointer for each argument
and at least one, a pointer for each environment string and a terminator,
and the strings. -/
def packedLength (name : CString) (argc : Nat)
    (argv envp : Option (List CString)) : Nat :=
  4 + 4 * max argc 1 + 4 * (envp.getD []).length + 4
    + totalSize (argStrings name argc argv) + totalSize (envp.getD [])

/-- The page contains what is written, and `ENOMEM` is the answer exactly
if the packed form is longer than the page. -/
structure PageBound (args : Nat) (name : CString) (argc : Nat)
    (argv envp : Option (List CString)) : Prop where
  inside : ∀ x, PreserveWrites args name argc argv envp x →
    args ≤ x ∧ x < args + pageSize
  enomem : ∀ m, (preserveArgsAndEnv args name argc argv envp m).2
      = .error .ENOMEM ↔ pageSize < packedLength name argc argv envp

-- =============================================================== the two loops

/-- A packing loop that crosses the end of the page gives up, and has
written the terminator of the string it crossed with: wherever its slots
are and whatever the memory holds, the same byte. -/
theorem packStrings_overrun {args : Nat} {ss : List CString} :
    ∀ str : Nat, ss ≠ [] → args ≤ str →
      args + pageSize < str + totalSize ss →
      ∃ x, args + pageSize ≤ x ∧ ∀ slot m, ∃ m',
        packStrings args ss slot str m = (m', none) ∧ m' x = 0 := by
  induction ss with
  | nil => exact fun _ h => absurd rfl h
  | cons s ss ih =>
      intro str _ hargs hlong
      rw [totalSize_cons] at hlong
      by_cases hcross : str + s.size - args > pageSize
      · -- this string: its NUL is its last byte
        have hnul : str + s.bytes.length + 1 = str + s.size := rfl
        refine ⟨str + s.bytes.length, by omega, fun slot m => ?_⟩
        refine ⟨_, ?_, (strAt_strcpy (store32 m slot str) str s).2⟩
        rw [packStrings, if_pos hcross]
      · have hne : ss ≠ [] := by
          intro hnil
          rw [hnil, totalSize_nil] at hlong
          omega
        obtain ⟨x, hx, hrest⟩ := ih (str + s.size) hne (by omega)
          (by omega)
        refine ⟨x, hx, fun slot m => ?_⟩
        obtain ⟨m', hrun, hzero⟩ :=
          hrest (slot + 4) (strcpy (store32 m slot str) str s)
        refine ⟨m', ?_, hzero⟩
        rw [packStrings, if_neg hcross, hrun]

/-- The two loops of the packing, from a cursor for the strings. -/
def packLoops (args : Nat) (ss es : List CString) (str : Nat)
    (m : ByteMem) : ByteMem × Except Errno Nat :=
  match packStrings args ss (args + 4) str m with
  | (m, none) => (m, .error .ENOMEM)
  | (m, some str) =>
      match packStrings args es (args + 4 + 4 * load32 m args) str m with
      | (m, none) => (m, .error .ENOMEM)
      | (m, some _) => (m, .ok args)

/-- The packing as its two loops: they start from a memory that holds the
count and, with no argument, the name behind the pointers already, and
that has changed inside the page only. -/
theorem preserveArgsAndEnv_loops {args : Nat} (name : CString) {argc : Nat}
    {argv envp : Option (List CString)}
    (hgo : ¬ (0 < argc ∧ argv = none)) {str : Nat}
    (hstr : str = args + headerSize (max argc 1) (envp.getD []).length) :
    ∃ start : ByteMem → ByteMem,
      (argc = 0 → ∀ m, start m (str + name.bytes.length) = 0)
      ∧ ((if argc = 0 then str + name.size else str) ≤ args + pageSize →
          ∀ m, load32 (start m) args = max argc 1
            ∧ ∀ x, (x < args ∨ args + pageSize ≤ x) → start m x = m x)
      ∧ ∀ m, preserveArgsAndEnv args name argc argv envp m
        = packLoops args ((argv.getD []).take argc) (envp.getD [])
          (if argc = 0 then str + name.size else str) (start m) := by
  unfold headerSize at hstr
  have hhead : ∀ n, args + 4 + 4 * n + 4 ≤ args + pageSize →
      ∀ m, load32 (reserveEnv envp (args + 4 + 4 * n)
          (store32 (memset m args 0 pageSize) args n)).1 args = n
        ∧ ∀ x, (x < args ∨ args + pageSize ≤ x) →
          (reserveEnv envp (args + 4 + 4 * n)
            (store32 (memset m args 0 pageSize) args n)).1 x = m x := by
    intro n hn m
    have hlt : n < 4294967296 := by
      unfold pageSize at hn
      omega
    refine ⟨(header_cleared args envp m hlt).1, fun x hx => ?_⟩
    rw [reserveEnv_of_not_mem _ (by omega), store32_of_not_mem (by omega),
      memset, if_neg (by omega)]
  by_cases hz : argc = 0
  · subst hz
    have hcursor : args + 4 + 4 * 1 + 4 * ((envp.getD []).length + 1)
        = str := by omega
    refine ⟨fun m => strcpy (store32 (reserveEnv envp (args + 4 + 4 * 1)
      (store32 (memset m args 0 pageSize) args 1)).1 (args + 4) str) str
      name, fun _ m => (strAt_strcpy _ str name).2, ?_, fun m => ?_⟩
    · intro hfit m
      rw [if_pos rfl] at hfit
      obtain ⟨hcount, hsame⟩ := hhead 1 (by omega) m
      constructor
      · refine Eq.trans (load32_congr fun i hi => ?_) hcount
        dsimp only
        rw [strcpy_of_not_mem (by omega), store32_of_not_mem (by omega)]
      · intro x hx
        dsimp only
        rw [strcpy_of_not_mem (by omega), store32_of_not_mem (by omega)]
        exact hsame x hx
    · unfold preserveArgsAndEnv
      rw [if_neg hgo]
      simp only [if_true, reserveEnv_cursor, hcursor]
      rfl
  · have hmax : max argc 1 = argc := by omega
    rw [hmax] at hstr ⊢
    have hcursor : args + 4 + 4 * argc + 4 * ((envp.getD []).length + 1)
        = str := by omega
    refine ⟨fun m => (reserveEnv envp (args + 4 + 4 * argc)
      (store32 (memset m args 0 pageSize) args argc)).1,
      fun h => absurd h hz, ?_, fun m => ?_⟩
    · intro hfit m
      rw [if_neg hz] at hfit
      exact hhead argc (by omega) m
    · unfold preserveArgsAndEnv
      rw [if_neg hgo]
      simp only [if_neg hz, reserveEnv_cursor, hcursor]
      rfl

-- ============================================================= what is refused

/-- A packed form that does not fit is written past the page before it is
refused, if it is refused at all. -/
theorem preserveArgsAndEnv_overrun (args : Nat) {name : CString}
    {argc : Nat} {argv envp : Option (List CString)}
    (hgo : ¬ (0 < argc ∧ argv = none))
    (hargc : argc ≤ (argv.getD []).length)
    (hlong : pageSize < packedLength name argc argv envp) :
    ∃ x, args + pageSize ≤ x
      ∧ ∀ m, (preserveArgsAndEnv args name argc argv envp m).1 x = 0 := by
  obtain ⟨str, hstr⟩ : ∃ str,
      str = args + headerSize (max argc 1) (envp.getD []).length := ⟨_, rfl⟩
  obtain ⟨start, hname, -, hloops⟩ := preserveArgsAndEnv_loops name hgo
    hstr
  unfold headerSize at hstr
  unfold packedLength argStrings at hlong
  generalize envp.getD [] = es at hlong hstr hloops
  generalize hss : (argv.getD []).take argc = ss at hlong hloops
  generalize hcur : (if argc = 0 then str + name.size else str) = cur
    at hloops
  have htotal : args + pageSize < cur + totalSize ss + totalSize es := by
    rw [← hcur]
    split at hlong
    next hz =>
      subst hz
      rw [if_pos rfl, ← hss, List.take_zero]
      rw [totalSize_cons] at hlong
      simp only [totalSize_nil] at hlong ⊢
      omega
    next hpos =>
      rw [if_neg hpos]
      omega
  have hcur₀ : args ≤ cur := by
    rw [← hcur]
    split <;> omega
  by_cases hargs : ss ≠ [] ∧ args + pageSize < cur + totalSize ss
  · -- the argument loop gives up
    obtain ⟨hne, hpast⟩ := hargs
    obtain ⟨x, hx, hrun⟩ := packStrings_overrun _ hne hcur₀ hpast
    refine ⟨x, hx, fun m => ?_⟩
    obtain ⟨m', hnone, hzero⟩ := hrun (args + 4) (start m)
    rw [hloops, packLoops, hnone]
    exact hzero
  · -- it ends within the page, and hands its cursor to the other loop
    have hgone : ∀ m, ∃ m', packStrings args ss (args + 4) cur (start m)
        = (m', some (cur + totalSize ss)) ∧ (ss = [] → m' = start m) := by
      intro m
      have hcursor := packStrings_cursor args ss (args + 4) cur (start m)
      rw [if_neg fun h => hargs ⟨h.1, by omega⟩] at hcursor
      refine ⟨_, Prod.ext rfl hcursor, fun hnil => ?_⟩
      rw [hnil]
      rfl
    by_cases hes : es = []
    · -- nothing is left to pack: the name alone crosses the page
      subst hes
      rw [totalSize_nil] at htotal
      have hnil : ss = [] := by
        by_contra hne
        exact hargs ⟨hne, by omega⟩
      have hz : argc = 0 := by
        rw [hnil, List.take_eq_nil_iff] at hss
        rcases hss with hz | hnil'
        · exact hz
        · rw [hnil'] at hargc
          exact Nat.le_zero.mp hargc
      rw [if_pos hz] at hcur
      have hnul : name.bytes.length + 1 = name.size := rfl
      rw [hnil, totalSize_nil] at htotal
      refine ⟨str + name.bytes.length, by omega, fun m => ?_⟩
      obtain ⟨m', hrun, hsame⟩ := hgone m
      rw [hloops, packLoops, hrun]
      dsimp only [packStrings]
      rw [hsame hnil]
      exact hname hz m
    · obtain ⟨x, hx, hrest⟩ := packStrings_overrun
        (cur + totalSize ss) hes (by omega) htotal
      refine ⟨x, hx, fun m => ?_⟩
      obtain ⟨m', hrun, -⟩ := hgone m
      obtain ⟨m'', hnone, hzero⟩ :=
        hrest (args + 4 + 4 * load32 m' args) m'
      rw [hloops, packLoops, hrun]
      dsimp only
      rw [hnone]
      exact hzero

-- =================================================================== what fits

/-- A packed form that fits is packed inside the page. -/
theorem preserveArgsAndEnv_fit (args : Nat) {name : CString} {argc : Nat}
    {argv envp : Option (List CString)}
    (hgo : ¬ (0 < argc ∧ argv = none))
    (hargc : argc ≤ (argv.getD []).length)
    (hfit : packedLength name argc argv envp ≤ pageSize)
    (hargs : args + pageSize ≤ 4294967296) (m : ByteMem) :
    (preserveArgsAndEnv args name argc argv envp m).2 = .ok args
      ∧ ∀ x, (x < args ∨ args + pageSize ≤ x) →
        (preserveArgsAndEnv args name argc argv envp m).1 x = m x := by
  obtain ⟨str, hstr⟩ : ∃ str,
      str = args + headerSize (max argc 1) (envp.getD []).length := ⟨_, rfl⟩
  obtain ⟨start, -, hstart, hloops⟩ := preserveArgsAndEnv_loops name hgo
    hstr
  unfold headerSize at hstr
  unfold packedLength argStrings at hfit
  have hlen : ((argv.getD []).take argc).length = argc :=
    List.length_take_of_le hargc
  generalize envp.getD [] = es at hfit hstr hloops
  generalize (argv.getD []).take argc = ss at hfit hloops hlen
  generalize hcur : (if argc = 0 then str + name.size else str) = cur
    at hstart hloops
  have htotal : str ≤ cur
      ∧ cur + totalSize ss + totalSize es ≤ args + pageSize := by
    rw [← hcur]
    split at hfit
    next hz =>
      rw [List.eq_nil_of_length_eq_zero (hlen.trans hz)]
      rw [totalSize_cons] at hfit
      simp only [totalSize_nil] at hfit ⊢
      rw [if_pos hz]
      omega
    next hpos =>
      rw [if_neg hpos]
      omega
  obtain ⟨hle, htotal⟩ := htotal
  obtain ⟨hcount, hsame⟩ := hstart (by omega) m
  obtain ⟨m₁, hrun₁, -, hframe₁⟩ := packStrings_laid args ss (args + 4) cur
    (start m) (by omega) (by omega) (by omega) hargs
  have hcount₁ : load32 m₁ args = max argc 1 := by
    rw [← hcount]
    exact load32_congr fun i hi => hframe₁ _ (by omega) (by omega)
  obtain ⟨m₂, hrun₂, -, hframe₂⟩ := packStrings_laid args es
    (args + 4 + 4 * max argc 1) (cur + totalSize ss) m₁ (by omega)
    (by omega) (by omega) hargs
  rw [hloops, packLoops, hrun₁]
  dsimp only
  rw [hcount₁, hrun₂]
  refine ⟨rfl, fun x hx => ?_⟩
  dsimp only
  rw [hframe₂ x (by omega) (by omega), hframe₁ x (by omega) (by omega),
    hsame x hx]

-- ================================================================== the bounds

/-- The page contains what is written and `ENOMEM` says what it should
exactly when the packed form fits. -/
theorem page_bound_iff {args : Nat} {name : CString} {argc : Nat}
    {argv envp : Option (List CString)}
    (hargc : ∀ as, argv = some as → argc ≤ as.length)
    (hargs : args + pageSize ≤ 4294967296) :
    PageBound args name argc argv envp
      ↔ packedLength name argc argv envp ≤ pageSize := by
  by_cases hgo : 0 < argc ∧ argv = none
  · -- the arguments are missing: nothing is written, and nothing refused
    -- for its length
    have hrun : ∀ m, preserveArgsAndEnv args name argc argv envp m
        = (m, .error .EINVAL) := fun m => if_pos hgo
    constructor
    · intro h
      by_contra hlong
      have := (h.enomem fun _ => 0).mpr (Nat.lt_of_not_le hlong)
      rw [hrun] at this
      cases this
    · intro hfit
      constructor
      · intro x hx
        obtain ⟨m, hm⟩ := hx
        rw [hrun] at hm
        exact absurd rfl hm
      · intro m
        rw [hrun]
        constructor
        · intro h
          cases h
        · intro hlong
          exact absurd hfit (Nat.not_le_of_lt hlong)
  · have hargc' : argc ≤ (argv.getD []).length := by
      cases argv with
      | none =>
          have : argc = 0 := by
            by_contra hne
            exact hgo ⟨Nat.pos_of_ne_zero hne, rfl⟩
          rw [this]
          exact Nat.zero_le _
      | some as => exact hargc as rfl
    constructor
    · intro h
      by_contra hlong
      obtain ⟨x, hx, hzero⟩ := preserveArgsAndEnv_overrun args hgo
        hargc' (Nat.lt_of_not_le hlong)
      have hwrites : PreserveWrites args name argc argv envp x := by
        refine ⟨fun _ => 1, ?_⟩
        rw [hzero]
        exact UInt8.zero_ne_one
      have := h.inside x hwrites
      omega
    · intro hfit
      have hpack := preserveArgsAndEnv_fit args hgo hargc' hfit
        hargs
      constructor
      · intro x hx
        obtain ⟨m, hm⟩ := hx
        by_contra hout
        exact hm ((hpack m).2 x (by omega))
      · intro m
        rw [(hpack m).1]
        constructor
        · intro h
          cases h
        · intro hlong
          exact absurd hfit (Nat.not_le_of_lt hlong)

/-- `ls` with no argument and no environment is packed inside its page. -/
theorem page_bound_iff_ls : PageBound 0xC0100000 nameLs 0 none none :=
  (page_bound_iff (fun _ h => by cases h) (by decide)).mpr (by decide)

/-- An argument of 5000 bytes is copied past the end of the page before it
is refused. -/
theorem long_argument_overruns :
    ¬ PageBound 0xC0100000 nameLs 1 (some [longArg]) none := by
  have hlong : longArg.size = 5001 := by
    rw [CString.size, longArg, List.length_replicate]
  intro h
  have hsize : pageSize
      < packedLength nameLs 1 (some [longArg]) none := by
    simp [packedLength, argStrings, hlong, pageSize]
  obtain ⟨x, hx, hzero⟩ := preserveArgsAndEnv_overrun 0xC0100000 (by simp)
    (by decide) hsize
  have := h.inside x ⟨fun _ => 1, by rw [hzero]; exact UInt8.zero_ne_one⟩
  omega

end SyeLabs.Process
