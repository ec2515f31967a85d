/-
The argument page of `exec`: `preserve_args_and_env` packs the arguments
and the environment into a heap page, `post_setup_image` moves the page
into the new image and relocates the pointers it holds.

# The page

    argc | argv[0] .. argv[n-1] | envp[0] .. envp[k-1] | NULL | strings

Pointers are stored as addresses of the temporary page first and are
moved by the distance of the two pages afterwards. The environment
pointers are relocated up to the NULL that ends them, which is the slot
`preserve_args_and_env` skips and the clearing of the page left zero.

# The layout invariant

`Laid m ss slot str ptr` says of a memory that the strings `ss` stand
back to back from `str` on and that the words from `slot` on hold
consecutive pointers starting at `ptr`: in the temporary page `ptr` is
`str`, after the copy it is still the old place of the strings, and the
relocation makes it `str` again. The two packing loops establish it, the
copy and the stores elsewhere carry it (`Laid.congr`), and the reader's
view follows from it.
-/
import SyeLabs.Lib.ByteMem
import SyeLabs.Platform

namespace SyeLabs.Process

open Lib

-- =================================================================== constants

/-- The error numbers the process code sets. -/
inductive Errno
  | EINVAL
  | ENOMEM
  | ENOENT
  | ECHILD
  | ESRCH
  deriving DecidableEq, Repr

-- ======================================================= preserve_args_and_env

/-- The string loops of `preserve_args_and_env`: store the address of
each string in the next slot and the string itself at the cursor, and
give up as soon as the cursor has passed the page. The returned cursor
is `none` when the loop gave up. -/
def packStrings (args : Nat) :
    List CString → Nat → Nat → ByteMem → ByteMem × Option Nat
  | [], _, str, m => (m, some str)
  | s :: ss, slot, str, m =>
      let m := strcpy (store32 m slot str) str s
      let str := str + s.size
      if str - args > pageSize then (m, none)
      else packStrings args ss (slot + 4) str m

/-- The loop that skips one slot for each environment string and one for
the terminator: `do args_p += 4 while (envp[i++] != NULL)`. -/
def skipEnv : List CString → Nat → Nat
  | [], p => p + 4
  | _ :: es, p => skipEnv es (p + 4)

/-- The environment slots: skipped, or a NULL when no environment is
passed. -/
def reserveEnv (envp : Option (List CString)) (p : Nat) (m : ByteMem) :
    ByteMem × Nat :=
  match envp with
  | none => (store32 m p 0, p + 4)
  | some es => (m, skipEnv es p)

/-- `preserve_args_and_env`, on the page `args` that `malloc` returned;
`name` is the name of the current process. The result is the memory and
either the page or the error it sets before it returns NULL. -/
def preserveArgsAndEnv (args : Nat) (name : CString) (argc : Nat)
    (argv envp : Option (List CString)) (m : ByteMem) :
    ByteMem × Except Errno Nat :=
  if 0 < argc ∧ argv = none then (m, .error .EINVAL)
  else
    let m := memset m args 0 pageSize
    let i := if argc = 0 then 1 else argc
    let m := store32 m args i
    let p := args + 4
    let p := if argc = 0 then p + 4 else p + 4 * argc
    let env := reserveEnv envp p m
    -- with no argument the process name takes the first slot, unchecked
    let start :=
      if argc = 0 then
        (strcpy (store32 env.1 (args + 4) env.2) env.2 name,
          env.2 + name.size)
      else env
    match packStrings args ((argv.getD []).take argc) (args + 4) start.2
        start.1 with
    | (m, none) => (m, .error .ENOMEM)
    | (m, some str) =>
        match packStrings args (envp.getD []) (args + 4 + 4 * load32 m args)
            str m with
        | (m, none) => (m, .error .ENOMEM)
        | (m, some _) => (m, .ok args)

-- ============================================================ post_setup_image

/-- A stored pointer moved from the page at `old` to the page at
`base`. -/
def relocate (old base p : Nat) : Nat :=
  (p + 4294967296 - old + base) % 4294967296

/-- The argument loop of `post_setup_image`. -/
def relocArgs (old base : Nat) : Nat → Nat → ByteMem → ByteMem
  | 0, _, m => m
  | n + 1, slot, m =>
      relocArgs old base n (slot + 4)
        (store32 m slot (relocate old base (load32 m slot)))

/-- The environment loop of `post_setup_image`, up to the first NULL. -/
def relocEnv (old base : Nat) : Nat → Nat → ByteMem → Option ByteMem
  | 0, _, _ => none
  | fuel + 1, slot, m =>
      if load32 m slot = 0 then some m
      else
        relocEnv old base fuel (slot + 4)
          (store32 m slot (relocate old base (load32 m slot)))

/-- `post_setup_image`: copy the page at `argsEnv` to `base` and relocate
its pointers. The fuel of the environment loop is the number of words in
the address space. -/
def postSetupImage (argsEnv base : Nat) (m : ByteMem) : Option ByteMem :=
  let m := memcpy m base argsEnv pageSize
  let argc := load32 m base
  let m := relocArgs argsEnv base argc (base + 4) m
  relocEnv argsEnv base 1073741824 (base + 4 + argc * 4) m

-- ========================================================== what a reader sees

/-- The argument pointers of the page at `base`. -/
def argPtrs (m : ByteMem) (base : Nat) : List Nat :=
  (List.range (load32 m base)).map fun i => load32 m (base + 4 + 4 * i)

/-- The pointers from `p` on up to the first NULL. -/
def ptrsUntilNull (m : ByteMem) : Nat → Nat → List Nat
  | 0, _ => []
  | fuel + 1, p =>
      if load32 m p = 0 then []
      else load32 m p :: ptrsUntilNull m fuel (p + 4)

/-- The environment pointers of the page at `base`. -/
def envPtrs (m : ByteMem) (base : Nat) : List Nat :=
  ptrsUntilNull m pageSize (base + 4 + 4 * load32 m base)

/-- The strings behind a list of pointers. -/
def strsAt (m : ByteMem) (ptrs : List Nat) : List (List UInt8) :=
  ptrs.map (readStr m pageSize)

-- ============================================================ packed arguments

/-- The argument strings the page is to hold: the process name alone when
there are none. -/
def argStrings (name : CString) (argc : Nat)
    (argv : Option (List CString)) : List CString :=
  if argc = 0 then [name] else (argv.getD []).take argc

/-- The bytes a list of strings takes. -/
def totalSize : List CString → Nat
  | [] => 0
  | s :: ss => s.size + totalSize ss

/-- The packed form: the count, one slot for each argument, one for each
environment string and one for the terminator, and the strings. -/
def packedSize (as es : List CString) : Nat :=
  4 + 4 * as.length + 4 * (es.length + 1) + totalSize as + totalSize es

@[simp] theorem totalSize_nil : totalSize [] = 0 := rfl

@[simp] theorem totalSize_cons (s : CString) (ss : List CString) :
    totalSize (s :: ss) = s.size + totalSize ss := rfl

theorem totalSize_append (ss ts : List CString) :
    totalSize (ss ++ ts) = totalSize ss + totalSize ts := by
  induction ss with
  | nil => exact (Nat.zero_add _).symm
  | cons s ss ih =>
      rw [List.cons_append, totalSize_cons, totalSize_cons, ih, Nat.add_assoc]

theorem skipEnv_eq (es : List CString) (p : Nat) :
    skipEnv es p = p + 4 * (es.length + 1) := by
  induction es generalizing p with
  | nil => rfl
  | cons e es ih =>
      rw [skipEnv, ih]
      simp only [List.length_cons]
      omega

/-- The cursor after the environment slots. -/
theorem reserveEnv_cursor (envp : Option (List CString)) (p : Nat)
    (m : ByteMem) :
    (reserveEnv envp p m).2 = p + 4 * ((envp.getD []).length + 1) := by
  cases envp with
  | none => rfl
  | some es => exact skipEnv_eq es p

/-- Reserving the environment slots writes at most the slot at `p`. -/
theorem reserveEnv_of_not_mem (envp : Option (List CString)) {p x : Nat}
    {m : ByteMem} (h : x < p ∨ p + 4 ≤ x) :
    (reserveEnv envp p m).1 x = m x := by
  cases envp with
  | none => exact store32_of_not_mem h
  | some es => rfl

/-- What was zero stays zero: the slot is only ever cleared. -/
theorem reserveEnv_zero (envp : Option (List CString)) {p x : Nat}
    {m : ByteMem} (h : m x = 0) : (reserveEnv envp p m).1 x = 0 := by
  by_cases hx : x < p ∨ p + 4 ≤ x
  · rw [reserveEnv_of_not_mem envp hx, h]
  · cases envp with
    | some es => exact h
    | none =>
        obtain ⟨i, rfl⟩ : ∃ i, x = p + i := ⟨x - p, by omega⟩
        have hzero : ∀ j (hj : j < (le32 0).length), (le32 0)[j] = 0 := by
          decide
        have hi : i < (le32 0).length := by
          rw [le32_length]
          omega
        exact (writeBytes_getElem hi).trans (hzero i hi)

-- ============================================================ layout invariant

/-- The strings `ss` stand back to back from `str` on, and the words from
`slot` on hold consecutive pointers to them counted from `ptr`. -/
def Laid (m : ByteMem) : List CString → Nat → Nat → Nat → Prop
  | [], _, _, _ => True
  | s :: ss, slot, str, ptr =>
      load32 m slot = ptr ∧ StrAt m str s
        ∧ Laid m ss (slot + 4) (str + s.size) (ptr + s.size)

/-- The layout depends on the slots and on the strings only. -/
theorem Laid.congr {m m' : ByteMem} {ss : List CString}
    {slot slot' str str' ptr : Nat} (h : Laid m ss slot str ptr)
    (hslot : ∀ i, i < 4 * ss.length → m' (slot' + i) = m (slot + i))
    (hstr : ∀ i, i < totalSize ss → m' (str' + i) = m (str + i)) :
    Laid m' ss slot' str' ptr := by
  induction ss generalizing slot slot' str str' ptr with
  | nil => trivial
  | cons s ss ih =>
      obtain ⟨hptr, hs, hrest⟩ := h
      simp only [List.length_cons] at hslot
      rw [totalSize_cons] at hstr
      refine ⟨?_, hs.congr fun i hi => hstr i (by omega), ih hrest ?_ ?_⟩
      · rw [← hptr]
        exact load32_congr fun i hi => hslot i (by omega)
      · intro i hi
        rw [Nat.add_assoc, Nat.add_assoc]
        exact hslot (4 + i) (by omega)
      · intro i hi
        rw [Nat.add_assoc, Nat.add_assoc]
        exact hstr (s.size + i) (by omega)

/-- The layout after stores that spare its slots and strings. -/
theorem Laid.frame {m m' : ByteMem} {ss : List CString}
    {slot str ptr : Nat} (h : Laid m ss slot str ptr)
    (hslot : ∀ x, slot ≤ x → x < slot + 4 * ss.length → m' x = m x)
    (hstr : ∀ x, str ≤ x → x < str + totalSize ss → m' x = m x) :
    Laid m' ss slot str ptr :=
  h.congr (fun i hi => hslot _ (by omega) (by omega))
    fun i hi => hstr _ (by omega) (by omega)

/-- The pointers of a layout. -/
def layout : List CString → Nat → List Nat
  | [], _ => []
  | s :: ss, ptr => ptr :: layout ss (ptr + s.size)

theorem layout_length (ss : List CString) (ptr : Nat) :
    (layout ss ptr).length = ss.length := by
  induction ss generalizing ptr with
  | nil => rfl
  | cons s ss ih => simp [layout, ih]

/-- The second part of a layout begins where the first ends. -/
theorem layout_append (ss ts : List CString) (ptr : Nat) :
    layout (ss ++ ts) ptr
      = layout ss ptr ++ layout ts (ptr + totalSize ss) := by
  induction ss generalizing ptr with
  | nil => rfl
  | cons s ss ih =>
      rw [List.cons_append, layout, layout, ih, totalSize_cons,
        Nat.add_assoc]
      rfl

/-- Slot `i` of a layout holds its `i`-th pointer. -/
theorem Laid.load {m : ByteMem} {ss : List CString} {slot str ptr : Nat}
    (h : Laid m ss slot str ptr) :
    (List.range ss.length).map (fun i => load32 m (slot + 4 * i))
      = layout ss ptr := by
  induction ss generalizing slot str ptr with
  | nil => rfl
  | cons s ss ih =>
      obtain ⟨hptr, -, hrest⟩ := h
      rw [List.length_cons, List.range_succ_eq_map, List.map_cons,
        List.map_map, layout, ← ih hrest]
      have hfun : ∀ i, slot + 4 * (i + 1) = slot + 4 + 4 * i :=
        fun i => by omega
      simp only [Nat.mul_zero, Nat.add_zero, hptr, Function.comp_def,
        Nat.succ_eq_add_one, hfun]

/-- The strings of a layout are read back through its pointers, once the
pointers name the strings. -/
theorem Laid.strs {m : ByteMem} {ss : List CString} {slot str : Nat}
    (h : Laid m ss slot str str) (hfit : totalSize ss ≤ pageSize) :
    strsAt m (layout ss str) = ss.map CString.bytes := by
  induction ss generalizing slot str with
  | nil => rfl
  | cons s ss ih =>
      obtain ⟨-, hs, hrest⟩ := h
      rw [totalSize_cons] at hfit
      have hread := readStr_of_strAt pageSize hs (by omega)
      have htail := ih hrest (by omega)
      simp only [strsAt] at htail ⊢
      simp only [layout, List.map_cons, hread, htail]

/-- A pointer of a layout is at or past its start, and its string ends
within it. -/
theorem layout_bounds {ss : List CString} {ptr : Nat} {x : Nat × CString}
    (h : x ∈ (layout ss ptr).zip ss) :
    ptr ≤ x.1 ∧ x.1 + x.2.size ≤ ptr + totalSize ss := by
  induction ss generalizing ptr with
  | nil => cases h
  | cons s ss ih =>
      rw [layout, List.zip_cons_cons, List.mem_cons] at h
      rw [totalSize_cons]
      rcases h with rfl | h
      · dsimp only
        omega
      · have := ih h
        omega

/-- The strings of a layout follow each other. -/
theorem layout_pairwise (ss : List CString) (ptr : Nat) :
    ((layout ss ptr).zip ss).Pairwise fun x y => x.1 + x.2.size ≤ y.1 := by
  induction ss generalizing ptr with
  | nil => exact List.Pairwise.nil
  | cons s ss ih =>
      rw [layout, List.zip_cons_cons, List.pairwise_cons]
      exact ⟨fun y hy => (layout_bounds hy).1, ih _⟩

/-- The file names `sh` and `ls`. -/
def nameSh : CString := .lit [0x73, 0x68] (by decide)

def nameLs : CString := .lit [0x6c, 0x73] (by decide)

end SyeLabs.Process
