/-
The round trip of the argument page: what `preserve_args_and_env` packs
and `post_setup_image` moves is what the new image reads.

# The page at its three moments

`ArgPage m a as es ptr` describes a page at address `a` holding the
arguments `as` and the environment `es` with pointers counted from the
page address `ptr`. Packing produces it with `ptr = a`, both the
temporary page (`preserveArgsAndEnv_page`); the copy keeps `ptr` and
changes `a` (`ArgPage.memcpy`); the relocation brings `ptr` to `a` again
(`postSetupImage_page`). The last form is the one a reader can decode
(`ArgPage.argPtrs_eq`, `ArgPage.envPtrs_eq`).
-/
import SyeLabs.Process.Args

namespace SyeLabs.Process

open Lib

-- =========================================================== the packing loops

/-- A packing loop whose strings fit: it returns the cursor past them,
lays them out, and writes nowhere else. -/
theorem packStrings_laid (args : Nat) (ss : List CString) :
    ∀ (slot str : Nat) (m : ByteMem), args ≤ str →
      slot + 4 * ss.length ≤ str → str + totalSize ss ≤ args + pageSize →
      args + pageSize ≤ 4294967296 →
      ∃ m', packStrings args ss slot str m = (m', some (str + totalSize ss))
        ∧ Laid m' ss slot str str
        ∧ ∀ x, (x < slot ∨ slot + 4 * ss.length ≤ x) →
            (x < str ∨ str + totalSize ss ≤ x) → m' x = m x := by
  induction ss with
  | nil =>
      intro slot str m _ _ _ _
      exact ⟨m, rfl, trivial, fun _ _ _ => rfl⟩
  | cons s ss ih =>
      intro slot str m hargs hslot hstr hpage
      rw [totalSize_cons] at hstr
      simp only [List.length_cons] at hslot
      have hsize : 0 < s.size := Nat.succ_pos _
      obtain ⟨m', hrun, hlaid, hframe⟩ :=
        ih (slot + 4) (str + s.size) (strcpy (store32 m slot str) str s)
          (by omega) (by omega) (by omega) hpage
      have hgo : ¬ (str + s.size - args > pageSize) := by omega
      refine ⟨m', ?_, ⟨?_, ?_, hlaid⟩, ?_⟩
      · simp only [packStrings, if_neg hgo, hrun, totalSize_cons,
          Nat.add_assoc]
      · -- the slot of `s`, spared by its own string and by the rest
        have hspared : load32 m' slot = load32 (store32 m slot str) slot := by
          apply load32_congr
          intro i hi
          rw [hframe _ (by omega) (by omega)]
          exact strcpy_of_not_mem (by omega)
        rw [hspared]
        exact load32_store32_of_lt (by omega)
      · apply (strAt_strcpy (store32 m slot str) str s).congr
        intro i hi
        exact hframe _ (by omega) (by omega)
      · intro x hx hx'
        rw [totalSize_cons] at hx'
        simp only [List.length_cons] at hx
        rw [hframe x (by omega) (by omega), strcpy_of_not_mem (by omega),
          store32_of_not_mem (by omega)]

-- ==================================================================== the page

/-- The offset of the first string in a page of `n` arguments and `k`
environment strings. -/
def headerSize (n k : Nat) : Nat := 4 + 4 * n + 4 * (k + 1)

/-- A page at `a` that holds the arguments `as` and the environment
`es`, its pointers counted from a page at `ptr`. -/
structure ArgPage (m : ByteMem) (a : Nat) (as es : List CString)
    (ptr : Nat) : Prop where
  count : load32 m a = as.length
  args : Laid m as (a + 4) (a + headerSize as.length es.length)
    (ptr + headerSize as.length es.length)
  env : Laid m es (a + 4 + 4 * as.length)
    (a + headerSize as.length es.length + totalSize as)
    (ptr + headerSize as.length es.length + totalSize as)
  null : load32 m (a + 4 + 4 * as.length + 4 * es.length) = 0

/-- `memcpy` moves a page with its pointers unchanged. -/
theorem ArgPage.memcpy {m : ByteMem} {a b ptr : Nat}
    {as es : List CString} (h : ArgPage m a as es ptr)
    (hfit : packedSize as es ≤ pageSize) :
    ArgPage (memcpy m b a pageSize) b as es ptr := by
  unfold packedSize at hfit
  have hcopy : ∀ i, i < pageSize →
      Lib.memcpy m b a pageSize (b + i) = m (a + i) := by
    intro i hi
    unfold Lib.memcpy
    rw [if_pos (by omega), Nat.add_sub_cancel_left]
  have hat : ∀ j i, j + i < pageSize →
      Lib.memcpy m b a pageSize (b + j + i) = m (a + j + i) := by
    intro j i hi
    rw [Nat.add_assoc, Nat.add_assoc]
    exact hcopy (j + i) hi
  constructor
  · rw [← h.count]
    exact load32_congr fun i hi => hcopy i (by omega)
  · exact h.args.congr (fun i hi => hat 4 i (by omega))
      fun i hi => hat _ i (by unfold headerSize; omega)
  · refine h.env.congr (fun i hi => ?_) fun i hi => ?_
    · rw [Nat.add_assoc b 4, Nat.add_assoc a 4]
      exact hat _ i (by omega)
    · rw [Nat.add_assoc b, Nat.add_assoc a]
      exact hat _ i (by unfold headerSize; omega)
  · rw [← h.null]
    apply load32_congr
    intro i hi
    rw [Nat.add_assoc b 4, Nat.add_assoc b, Nat.add_assoc a 4,
      Nat.add_assoc a]
    exact hat _ i (by omega)

/-- The page depends on its own bytes only. -/
theorem ArgPage.frame {m m' : ByteMem} {a ptr : Nat}
    {as es : List CString} (h : ArgPage m a as es ptr)
    (hfit : packedSize as es ≤ pageSize)
    (hsame : ∀ i, i < pageSize → m' (a + i) = m (a + i)) :
    ArgPage m' a as es ptr := by
  unfold packedSize at hfit
  have hat : ∀ x, a ≤ x → x < a + pageSize → m' x = m x := by
    intro x hx hx'
    have := hsame (x - a) (by omega)
    rwa [Nat.add_sub_cancel' hx] at this
  constructor
  · rw [← h.count]
    exact load32_congr fun i hi => hat _ (by omega) (by omega)
  · exact h.args.frame (fun x hx hx' => hat x (by omega) (by omega))
      fun x hx hx' => hat x (by omega) (by
        unfold headerSize at hx'; omega)
  · exact h.env.frame (fun x hx hx' => hat x (by omega) (by omega))
      fun x hx hx' => hat x (by omega) (by
        unfold headerSize at hx'; omega)
  · rw [← h.null]
    exact load32_congr fun i hi => hat _ (by omega) (by omega)

/-- The header: the count, in a page that is zero behind it whether or
not an environment is passed. -/
theorem header_cleared (args : Nat) {n : Nat} (envp : Option (List CString))
    (m : ByteMem) (hn : n < 4294967296) :
    load32 (reserveEnv envp (args + 4 + 4 * n)
        (store32 (memset m args 0 pageSize) args n)).1 args = n
      ∧ ∀ x, args + 4 ≤ x → x < args + pageSize →
        (reserveEnv envp (args + 4 + 4 * n)
          (store32 (memset m args 0 pageSize) args n)).1 x = 0 := by
  constructor
  · refine Eq.trans (load32_congr fun i hi => ?_)
      (load32_store32_of_lt (m := memset m args 0 pageSize) (a := args) hn)
    exact reserveEnv_of_not_mem _ (by omega)
  · intro x hx hx'
    apply reserveEnv_zero
    rw [store32_of_not_mem (by omega), memset, if_pos (by omega)]

/-- The argument strings, packed by the loop, or the name put down in
their place. -/
theorem packArgs_laid (args str : Nat) (name : CString) (argc : Nat)
    (argv : Option (List CString)) {as : List CString}
    (has : argStrings name argc argv = as) (m : ByteMem)
    (hslot : args + 4 + 4 * as.length ≤ str)
    (hstr : str + totalSize as ≤ args + pageSize)
    (hargs : args + pageSize ≤ 4294967296) :
    ∃ m', packStrings args ((argv.getD []).take argc) (args + 4)
        (if argc = 0 then str + name.size else str)
        (if argc = 0 then strcpy (store32 m (args + 4) str) str name else m)
        = (m', some (str + totalSize as))
      ∧ Laid m' as (args + 4) str str
      ∧ ∀ x, (x < args + 4 ∨ args + 4 + 4 * as.length ≤ x) →
          (x < str ∨ str + totalSize as ≤ x) → m' x = m x := by
  by_cases hz : argc = 0
  · subst hz
    have has' : as = [name] := by
      rw [← has]
      rfl
    subst has'
    simp only [List.take_zero, packStrings, if_true]
    -- one string packed by hand is the packing loop on a list of one
    obtain ⟨m', hrun, hlaid, hframe⟩ :=
      packStrings_laid args [name] (args + 4) str m (by omega) hslot hstr
        hargs
    have hkeep : ¬ (str + name.size - args > pageSize) := by
      have hlen : totalSize [name] = name.size := by simp
      omega
    simp only [packStrings, if_neg hkeep, Prod.mk.injEq] at hrun
    refine ⟨_, rfl, ?_, ?_⟩
    · rw [hrun.1]
      exact hlaid
    · rw [hrun.1]
      exact hframe
  · have has' : (argv.getD []).take argc = as := by
      rw [← has, argStrings, if_neg hz]
    rw [if_neg hz, if_neg hz, has']
    exact packStrings_laid args as (args + 4) str m (by omega) hslot hstr
      hargs

/-- Packing: when everything fits, `preserve_args_and_env` returns its
page, and the page holds the arguments and the environment and is zero
behind them. -/
theorem preserveArgsAndEnv_page {args : Nat} {name : CString} {argc : Nat}
    {argv envp : Option (List CString)} {m : ByteMem}
    (hargc : argc ≤ (argv.getD []).length)
    (hfit : packedSize (argStrings name argc argv) (envp.getD [])
      ≤ pageSize)
    (hargs : args + pageSize ≤ 4294967296) :
    ∃ m', preserveArgsAndEnv args name argc argv envp m = (m', .ok args)
      ∧ ArgPage m' args (argStrings name argc argv) (envp.getD []) args
      ∧ ∀ x, args + packedSize (argStrings name argc argv) (envp.getD [])
          ≤ x → x < args + pageSize → m' x = 0 := by
  generalize hes : envp.getD [] = es at hfit ⊢
  have hnarg : (argStrings name argc argv).length
      = if argc = 0 then 1 else argc := by
    unfold argStrings
    split
    · rfl
    · exact List.length_take_of_le hargc
  generalize has : argStrings name argc argv = as at hfit hnarg ⊢
  have hgo : ¬ (0 < argc ∧ argv = none) := by
    intro h
    obtain ⟨hpos, rfl⟩ := h
    simp at hargc
    omega
  unfold packedSize at hfit ⊢
  have hhead : headerSize as.length es.length
      = 4 + 4 * as.length + 4 * (es.length + 1) := rfl
  have hcursor : (if argc = 0 then args + 4 + 4 else args + 4 + 4 * argc)
      = args + 4 + 4 * as.length := by
    rw [hnarg]
    split <;> omega
  obtain ⟨str, hstr⟩ : ∃ str, str = args + headerSize as.length es.length :=
    ⟨_, rfl⟩
  have hcount : as.length < 4294967296 := by
    unfold pageSize at hfit hargs
    omega
  -- the header
  obtain ⟨hcount₂, hzero⟩ := header_cleared args envp m hcount
  have hstart := reserveEnv_cursor envp (args + 4 + 4 * as.length)
    (store32 (memset m args 0 pageSize) args as.length)
  generalize henv : reserveEnv envp (args + 4 + 4 * as.length)
    (store32 (memset m args 0 pageSize) args as.length) = env
    at hcount₂ hzero hstart
  have hstart' : env.2 = str := by
    rw [hstart, hes]
    omega
  -- the argument strings
  obtain ⟨m₃, hrun₃, hlaid₃, hframe₃⟩ := packArgs_laid args str name argc
    argv has env.1 (by omega) (by omega) hargs
  have hcount₃ : load32 m₃ args = as.length := by
    rw [← hcount₂]
    exact load32_congr fun i hi => hframe₃ _ (by omega) (by omega)
  -- the environment strings
  obtain ⟨m₄, hrun₄, hlaid₄, hframe₄⟩ :=
    packStrings_laid args es (args + 4 + 4 * as.length)
      (str + totalSize as) m₃ (by omega) (by omega) (by omega) hargs
  refine ⟨m₄, ?_, ⟨?_, ?_, ?_, ?_⟩, fun x hx hx' => ?_⟩
  · unfold preserveArgsAndEnv
    simp only [if_neg hgo]
    rw [hcursor, ← hnarg, henv]
    have hsplit : (if argc = 0 then
          (strcpy (store32 env.1 (args + 4) env.2) env.2 name,
            env.2 + name.size)
        else env)
        = (if argc = 0 then
            strcpy (store32 env.1 (args + 4) str) str name
          else env.1,
          if argc = 0 then str + name.size else str) := by
      rw [← hstart']
      split <;> rfl
    rw [hsplit]
    dsimp only
    rw [hrun₃]
    dsimp only
    rw [hcount₃, hes, hrun₄]
  · rw [← hcount₃]
    exact load32_congr fun i hi => hframe₄ _ (by omega) (by omega)
  · rw [← hstr]
    refine hlaid₃.frame (fun x hx hx' => ?_) fun x hx hx' => ?_
    · exact hframe₄ x (by omega) (by omega)
    · exact hframe₄ x (by omega) (by omega)
  · rw [← hstr]
    exact hlaid₄
  · apply load32_eq_zero
    intro i hi
    rw [hframe₄ _ (by omega) (by omega), hframe₃ _ (by omega) (by omega)]
    exact hzero _ (by omega) (by omega)
  · rw [hframe₄ x (by omega) (by omega), hframe₃ x (by omega) (by omega)]
    exact hzero x (by omega) hx'

-- ============================================================== the relocation

theorem relocate_eq (base : Nat) {old p : Nat} (hold : old ≤ p)
    (hlt : p - old + base < 4294967296) :
    relocate old base p = base + (p - old) := by
  unfold relocate
  omega

/-- The argument loop moves the pointers of a layout and nothing
else. -/
theorem relocArgs_laid (old base : Nat) (ss : List CString) :
    ∀ (slot str ptr : Nat) (m : ByteMem), Laid m ss slot str ptr →
      slot + 4 * ss.length ≤ str → old ≤ ptr →
      ptr - old + base + totalSize ss ≤ 4294967296 →
      Laid (relocArgs old base ss.length slot m) ss slot str
          (base + (ptr - old))
        ∧ ∀ x, (x < slot ∨ slot + 4 * ss.length ≤ x) →
            relocArgs old base ss.length slot m x = m x := by
  induction ss with
  | nil =>
      intro slot str ptr m _ _ _ _
      exact ⟨trivial, fun _ _ => rfl⟩
  | cons s ss ih =>
      intro slot str ptr m hlaid hslot hptr hbase
      obtain ⟨hload, hs, hrest⟩ := hlaid
      rw [totalSize_cons] at hbase
      simp only [List.length_cons] at hslot ⊢
      have hsize : 0 < s.size := Nat.succ_pos _
      have hmove := relocate_eq base hptr (by omega)
      obtain ⟨m₁, hm₁⟩ : ∃ m₁, m₁ = store32 m slot
          (relocate old base (load32 m slot)) := ⟨_, rfl⟩
      have hspare : ∀ x, x < slot ∨ slot + 4 ≤ x → m₁ x = m x := by
        intro x hx
        rw [hm₁]
        exact store32_of_not_mem hx
      obtain ⟨hlaid', hframe⟩ :=
        ih _ _ _ m₁ (hrest.frame (fun x hx _ => hspare x (by omega))
          fun x hx _ => hspare x (by omega)) (by omega)
          (Nat.le_trans hptr (Nat.le_add_right _ _)) (by omega)
      have hrun : relocArgs old base (ss.length + 1) slot m
          = relocArgs old base ss.length (slot + 4) m₁ := by
        rw [relocArgs, hm₁]
      rw [hrun]
      refine ⟨⟨?_, ?_, ?_⟩, fun x hx => ?_⟩
      · have hspared : load32 (relocArgs old base ss.length (slot + 4) m₁)
            slot = load32 m₁ slot :=
          load32_congr fun i hi => hframe _ (by omega)
        rw [hspared, hm₁, hload, hmove]
        exact load32_store32_of_lt (by omega)
      · apply hs.congr
        intro i hi
        rw [hframe _ (by omega)]
        exact hspare _ (by omega)
      · rw [show base + (ptr - old) + s.size
          = base + (ptr + s.size - old) from by omega]
        exact hlaid'
      · rw [hframe x (by omega)]
        exact hspare x (by omega)

/-- The environment loop is the argument loop over the strings the NULL
ends: it stops there because no pointer before it is NULL. -/
theorem relocEnv_eq (old base : Nat) (ss : List CString) :
    ∀ (fuel slot str ptr : Nat) (m : ByteMem), Laid m ss slot str ptr →
      load32 m (slot + 4 * ss.length) = 0 → slot + 4 * ss.length ≤ str →
      0 < ptr → ss.length < fuel →
      relocEnv old base fuel slot m
        = some (relocArgs old base ss.length slot m) := by
  induction ss with
  | nil =>
      intro fuel slot str ptr m _ hnull _ _ hfuel
      obtain ⟨f, rfl⟩ : ∃ f, fuel = f + 1 :=
        ⟨fuel - 1, by simp at hfuel; omega⟩
      have hz : load32 m slot = 0 := hnull
      rw [relocEnv, if_pos hz]
      rfl
  | cons s ss ih =>
      intro fuel slot str ptr m hlaid hnull hslot hptr hfuel
      obtain ⟨hload, hs, hrest⟩ := hlaid
      simp only [List.length_cons] at hnull hslot hfuel ⊢
      obtain ⟨f, rfl⟩ : ∃ f, fuel = f + 1 := ⟨fuel - 1, by omega⟩
      have hnz : ¬ load32 m slot = 0 := by
        rw [hload]
        omega
      have hspare : ∀ x, x < slot ∨ slot + 4 ≤ x →
          store32 m slot (relocate old base (load32 m slot)) x = m x :=
        fun x hx => store32_of_not_mem hx
      rw [relocEnv, if_neg hnz, relocArgs]
      refine ih f (slot + 4) (str + s.size) (ptr + s.size) _
        (hrest.frame (fun x hx _ => hspare x (by omega))
          fun x hx _ => hspare x (by omega)) ?_ (by omega) (by omega)
        (by omega)
      rw [← hnull, show slot + 4 + 4 * ss.length
        = slot + 4 * (ss.length + 1) from by omega]
      exact load32_congr fun i hi => hspare _ (by omega)

/-- Moving: `post_setup_image` turns a page packed at `args` into the
same page at `base`, pointers included, and copies what is behind. -/
theorem postSetupImage_page {args base : Nat} {as es : List CString}
    {m : ByteMem} (h : ArgPage m args as es args)
    (hfit : packedSize as es ≤ pageSize)
    (hbase : base + pageSize ≤ 4294967296) :
    ∃ m', postSetupImage args base m = some m'
      ∧ ArgPage m' base as es base
      ∧ ∀ i, packedSize as es ≤ i → i < pageSize →
          m' (base + i) = m (args + i) := by
  obtain ⟨m₁, hm₁⟩ : ∃ m₁, m₁ = memcpy m base args pageSize := ⟨_, rfl⟩
  have hpage : ArgPage m₁ base as es args := by
    rw [hm₁]
    exact h.memcpy hfit
  have hcopy : ∀ i, i < pageSize → m₁ (base + i) = m (args + i) := by
    intro i hi
    rw [hm₁, memcpy, if_pos (by omega), Nat.add_sub_cancel_left]
  unfold packedSize at hfit ⊢
  unfold pageSize at hfit hbase
  have hhead : headerSize as.length es.length
      = 4 + 4 * as.length + 4 * (es.length + 1) := rfl
  -- the argument pointers
  obtain ⟨hargs, hframe⟩ := relocArgs_laid args base _ _ _ _ _
    hpage.args (by omega) (by omega) (by omega)
  obtain ⟨m₂, hm₂⟩ : ∃ m₂, m₂
      = relocArgs args base as.length (base + 4) m₁ := ⟨_, rfl⟩
  rw [← hm₂] at hargs hframe
  have henv₂ : Laid m₂ es (base + 4 + 4 * as.length)
      (base + headerSize as.length es.length + totalSize as)
      (args + headerSize as.length es.length + totalSize as) :=
    hpage.env.frame (fun x hx _ => hframe x (by omega))
      fun x hx _ => hframe x (by omega)
  have hnull₂ : load32 m₂ (base + 4 + 4 * as.length + 4 * es.length)
      = 0 := by
    rw [← hpage.null]
    exact load32_congr fun i hi => hframe _ (by omega)
  -- the environment pointers
  have hrun := relocEnv_eq args base _
    1073741824 _ _ _ _ henv₂ hnull₂ (by omega) (by omega) (by omega)
  obtain ⟨henv₃, hframe₃⟩ := relocArgs_laid args base _ _ _ _ _
    henv₂ (by omega) (by omega) (by omega)
  refine ⟨relocArgs args base es.length (base + 4 + 4 * as.length) m₂,
    ?_, ⟨?_, ?_, ?_, ?_⟩, fun i hi hi' => ?_⟩
  · rw [← hrun, hm₂]
    simp only [postSetupImage]
    rw [← hm₁, hpage.count, Nat.mul_comm as.length 4]
  · refine Eq.trans (load32_congr fun i hi => ?_) hpage.count
    rw [hframe₃ _ (by omega), hframe _ (by omega)]
  · rw [show base + headerSize as.length es.length
      = base + (args + headerSize as.length es.length - args)
      from by omega] at *
    exact hargs.frame (fun x hx _ => hframe₃ x (by omega))
      fun x hx _ => hframe₃ x (by omega)
  · rw [show base + headerSize as.length es.length + totalSize as
      = base + (args + headerSize as.length es.length + totalSize as - args)
      from by omega] at *
    exact henv₃
  · rw [← hnull₂]
    exact load32_congr fun i hi => hframe₃ _ (by omega)
  · rw [hframe₃ _ (by omega), hframe _ (by omega)]
    exact hcopy i hi'

-- ================================================================== the reader

/-- The argument pointers a reader finds. -/
theorem ArgPage.argPtrs_eq {m : ByteMem} {a : Nat} {as es : List CString}
    (h : ArgPage m a as es a) :
    argPtrs m a = layout as (a + headerSize as.length es.length) := by
  rw [argPtrs, h.count]
  exact h.args.load

/-- The pointers up to a NULL are those of the layout before it. -/
theorem ptrsUntilNull_laid {ss : List CString} :
    ∀ {slot str ptr fuel : Nat} {m : ByteMem}, Laid m ss slot str ptr →
      load32 m (slot + 4 * ss.length) = 0 → 0 < ptr → ss.length < fuel →
      ptrsUntilNull m fuel slot = layout ss ptr := by
  induction ss with
  | nil =>
      intro slot str ptr fuel m _ hnull _ hfuel
      obtain ⟨f, rfl⟩ : ∃ f, fuel = f + 1 :=
        ⟨fuel - 1, by simp at hfuel; omega⟩
      have hz : load32 m slot = 0 := hnull
      rw [ptrsUntilNull, if_pos hz]
      rfl
  | cons s ss ih =>
      intro slot str ptr fuel m hlaid hnull hptr hfuel
      obtain ⟨hload, -, hrest⟩ := hlaid
      simp only [List.length_cons] at hnull hfuel
      obtain ⟨f, rfl⟩ : ∃ f, fuel = f + 1 := ⟨fuel - 1, by omega⟩
      have hnz : ¬ ptr = 0 := by omega
      rw [ptrsUntilNull, hload, if_neg hnz, layout]
      congr 1
      refine ih hrest ?_ (by omega) (by omega)
      rw [← hnull]
      congr 1
      omega

/-- The environment pointers a reader finds. -/
theorem ArgPage.envPtrs_eq {m : ByteMem} {a : Nat} {as es : List CString}
    (h : ArgPage m a as es a) (hfit : packedSize as es ≤ pageSize) :
    envPtrs m a = layout es
      (a + headerSize as.length es.length + totalSize as) := by
  unfold packedSize at hfit
  rw [envPtrs, h.count]
  refine ptrsUntilNull_laid h.env h.null ?_ ?_
  · unfold headerSize
    omega
  · omega

-- ============================================================== the round trip

/-- Argument page round trip: whatever the rest of memory has become in
between, the page packed at `args` and moved to `base` decodes there to
the argument strings (the process name alone when there are none) and to
the environment strings, every pointer leads to a string inside the page
and no two strings overlap. -/
theorem args_round_trip (args base : Nat) (name : CString) (argc : Nat)
    (argv envp : Option (List CString)) (m : ByteMem)
    (hargc : argc ≤ (argv.getD []).length)
    (hfit : packedSize (argStrings name argc argv) (envp.getD [])
      ≤ pageSize)
    (hargs : args + pageSize ≤ 4294967296)
    (hbase : base + pageSize ≤ 4294967296) :
    ∃ m₁, preserveArgsAndEnv args name argc argv envp m = (m₁, .ok args)
      ∧ ∀ m₁', (∀ i, i < pageSize → m₁' (args + i) = m₁ (args + i)) →
          ∃ m₂, postSetupImage args base m₁' = some m₂
            ∧ strsAt m₂ (argPtrs m₂ base)
                = (argStrings name argc argv).map CString.bytes
            ∧ strsAt m₂ (envPtrs m₂ base)
                = (envp.getD []).map CString.bytes
            ∧ (∀ x ∈ (argPtrs m₂ base ++ envPtrs m₂ base).zip
                  (argStrings name argc argv ++ envp.getD []),
                base ≤ x.1 ∧ x.1 + x.2.size ≤ base + pageSize)
            ∧ ((argPtrs m₂ base ++ envPtrs m₂ base).zip
                  (argStrings name argc argv ++ envp.getD [])).Pairwise
                fun x y => x.1 + x.2.size ≤ y.1 := by
  obtain ⟨m₁, hrun, hpage, -⟩ :=
    preserveArgsAndEnv_page (m := m) hargc hfit hargs
  refine ⟨m₁, hrun, fun m₁' hsame => ?_⟩
  generalize argStrings name argc argv = as at *
  generalize envp.getD [] = es at *
  have hsize := hfit
  unfold packedSize at hsize
  -- the page is still there, whatever happened elsewhere
  have hpage' : ArgPage m₁' args as es args := hpage.frame hfit hsame
  obtain ⟨m₂, hmove, hfin, -⟩ := postSetupImage_page hpage' hfit hbase
  have hargP := hfin.argPtrs_eq
  have henvP := hfin.envPtrs_eq hfit
  obtain ⟨p, hp⟩ : ∃ p, p = base + headerSize as.length es.length :=
    ⟨_, rfl⟩
  have hpos : base ≤ p := by omega
  have hend : p + totalSize as + totalSize es ≤ base + pageSize := by
    unfold headerSize at hp
    omega
  rw [← hp] at hargP henvP
  have hzip : (argPtrs m₂ base ++ envPtrs m₂ base).zip (as ++ es)
      = (layout as p).zip as
        ++ (layout es (p + totalSize as)).zip es := by
    rw [hargP, henvP]
    exact List.zip_append (layout_length as p)
  refine ⟨m₂, hmove, ?_, ?_, ?_, ?_⟩
  · rw [hargP]
    exact (hp ▸ hfin.args).strs (by omega)
  · rw [henvP]
    exact (hp ▸ hfin.env).strs (by omega)
  · rw [hzip]
    intro x hx
    rcases List.mem_append.mp hx with hx | hx
    · have := layout_bounds hx
      omega
    · have := layout_bounds hx
      omega
  · rw [hzip, List.pairwise_append]
    refine ⟨layout_pairwise _ _, layout_pairwise _ _, ?_⟩
    intro x hx y hy
    have h₁ := (layout_bounds hx).2
    have h₂ := (layout_bounds hy).1
    omega

/-- The strings of the command line `ls -l` under `PATH=/`. -/
def lsArgs : List CString :=
  [nameLs, .lit [0x2d, 0x6c] (by decide)]

def lsEnv : List CString :=
  [.lit [0x50, 0x41, 0x54, 0x48, 0x3d, 0x2f] (by decide)]

/-- Packed at `0xC0100000` and moved to `0xBFFFF000`. -/
theorem args_round_trip_ls :
    ∃ m₁, preserveArgsAndEnv 0xC0100000 nameSh 2
          (some lsArgs) (some lsEnv) (fun _ => 0) = (m₁, .ok 0xC0100000)
      ∧ ∃ m₂, postSetupImage 0xC0100000 0xBFFFF000 m₁ = some m₂
          ∧ strsAt m₂ (argPtrs m₂ 0xBFFFF000) = lsArgs.map CString.bytes
          ∧ strsAt m₂ (envPtrs m₂ 0xBFFFF000)
              = lsEnv.map CString.bytes := by
  obtain ⟨m₁, hrun, hmove⟩ :=
    args_round_trip 0xC0100000 0xBFFFF000 nameSh 2
      (some lsArgs) (some lsEnv) (fun _ => 0)
      (by decide) (by decide) (by decide) (by decide)
  obtain ⟨m₂, hm₂, hargs, henv, -, -⟩ := hmove m₁ fun _ _ => rfl
  exact ⟨m₁, hrun, m₂, hm₂, hargs, henv⟩

end SyeLabs.Process
