/-
Lists of stores, and memory behind a page map.

# Stores

`lastWrite ws v` is the value the list of stores `ws` leaves at `v`, and
`overlay ws U` the partial memory it leaves over `U`. What the stores
reach no longer depends on `U` (`overlay_congr`), and what they do not
reach is still there (`overlay_of_missed`).

# Pages

A `PageMap` assigns pages to frames and, by its type, no frame to two
pages. `byte` reads the contents of the frames through it, so a store
into a frame changes one place of the memory (`byte_store`), and new
contents for a frame one page of it (`byte_replace`).
-/
import Mathlib.Data.Nat.Basic
import Mathlib.Logic.Function.Basic
import Mathlib.Tactic.Common

namespace SyeLabs.Lib

-- ====================================================================== stores

section Stores

variable {ι β : Type*} [DecidableEq ι]

/-- The value a list of stores leaves at `v`. -/
def lastWrite : List (ι × β) → ι → Option β
  | [], _ => none
  | w :: ws, v => (lastWrite ws v).or (if w.1 = v then some w.2 else none)

/-- The partial memory a list of stores leaves over `U`. -/
def overlay (ws : List (ι × β)) (U : ι → Option β) (v : ι) : Option β :=
  (lastWrite ws v).or (U v)

@[simp] theorem lastWrite_nil (v : ι) :
    lastWrite ([] : List (ι × β)) v = none := rfl

@[simp] theorem overlay_nil (U : ι → Option β) :
    overlay ([] : List (ι × β)) U = U := rfl

/-- The first store is below the rest of them. -/
theorem overlay_cons (w : ι × β) (ws : List (ι × β)) (U : ι → Option β) :
    overlay (w :: ws) U
      = overlay ws (Function.update U w.1 (some w.2)) := by
  funext v
  rw [overlay, overlay, lastWrite, Option.or_assoc]
  congr 1
  by_cases h : w.1 = v
  · subst h
    rw [if_pos rfl, Function.update_self]
    rfl
  · rw [if_neg h, Function.update_of_ne fun he => h he.symm]
    rfl

theorem lastWrite_append (ws ws' : List (ι × β)) (v : ι) :
    lastWrite (ws ++ ws') v = (lastWrite ws' v).or (lastWrite ws v) := by
  induction ws with
  | nil => exact (Option.or_none).symm
  | cons w ws ih =>
      rw [List.cons_append, lastWrite, lastWrite, ih, Option.or_assoc]

theorem overlay_append (ws ws' : List (ι × β)) (U : ι → Option β) :
    overlay (ws ++ ws') U = overlay ws' (overlay ws U) := by
  funext v
  rw [overlay, overlay, overlay, lastWrite_append, Option.or_assoc]

/-- A place holds a stored value if one of the stores is to it. -/
theorem lastWrite_isSome_iff {ws : List (ι × β)} {v : ι} :
    (lastWrite ws v).isSome ↔ ∃ w ∈ ws, w.1 = v := by
  induction ws with
  | nil => simp
  | cons w ws ih =>
      rw [lastWrite, Option.isSome_or, Bool.or_eq_true, ih]
      by_cases h : w.1 = v
      · simp [h]
      · simp [h]

/-- Where no store reaches, what was there before is still there. -/
theorem overlay_of_missed {ws : List (ι × β)} {v : ι}
    (h : lastWrite ws v = none) (U : ι → Option β) :
    overlay ws U v = U v := by
  rw [overlay, h, Option.none_or]

/-- Stores that reach every place where two memories differ leave the
same memory over both. -/
theorem overlay_congr {ws : List (ι × β)} {U U' : ι → Option β}
    (h : ∀ v, (lastWrite ws v).isSome ∨ U v = U' v) :
    overlay ws U = overlay ws U' := by
  funext v
  rcases h v with hw | heq
  · obtain ⟨b, hb⟩ := Option.isSome_iff_exists.mp hw
    rw [overlay, overlay, hb, Option.some_or, Option.some_or]
  · rw [overlay, overlay, heq]

end Stores

-- ====================================================================== blocks

/-- The stores of `n` values to consecutive places from `a` on. -/
def block {β : Type*} (a n : Nat) (b : Nat → β) : List (Nat × β) :=
  (List.range n).map fun i => (a + i, b i)

theorem mem_block {β : Type*} {a n : Nat} {b : Nat → β} {w : Nat × β} :
    w ∈ block a n b ↔ ∃ i, i < n ∧ (a + i, b i) = w := by
  rw [block, List.mem_map]
  simp only [List.mem_range]

theorem block_congr {β : Type*} {a n : Nat} {b c : Nat → β}
    (h : ∀ i, i < n → b i = c i) : block a n b = block a n c := by
  apply List.map_congr_left
  intro i hi
  rw [h i (List.mem_range.mp hi)]

/-- A block reaches its places. -/
theorem exists_mem_block {β : Type*} {a n v : Nat} {b : Nat → β} :
    (∃ w ∈ block a n b, w.1 = v) ↔ a ≤ v ∧ v < a + n := by
  constructor
  · intro h
    obtain ⟨w, hw, rfl⟩ := h
    obtain ⟨i, hi, rfl⟩ := mem_block.mp hw
    exact ⟨Nat.le_add_right a i, Nat.add_lt_add_left hi a⟩
  · intro h
    obtain ⟨hle, hlt⟩ := h
    exact ⟨(a + (v - a), b (v - a)), mem_block.mpr ⟨v - a, by omega, rfl⟩,
      Nat.add_sub_cancel' hle⟩

theorem lastWrite_block {β : Type*} (a n : Nat) (b : Nat → β) (v : Nat) :
    lastWrite (block a n b) v
      = if a ≤ v ∧ v < a + n then some (b (v - a)) else none := by
  induction n with
  | zero =>
      have hno : ¬ (a ≤ v ∧ v < a + 0) := by omega
      rw [if_neg hno]
      rfl
  | succ n ih =>
      have hsnoc : block a (n + 1) b = block a n b ++ [(a + n, b n)] := by
        rw [block, List.range_succ, List.map_append]
        rfl
      rw [hsnoc, lastWrite_append, ih]
      by_cases hv : a + n = v
      · subst hv
        rw [lastWrite, if_pos rfl, if_neg (by omega), if_pos (by omega),
          Nat.add_sub_cancel_left]
        rfl
      · rw [lastWrite, if_neg hv]
        show (if a ≤ v ∧ v < a + n then some (b (v - a)) else none) = _
        congr 1
        rw [eq_iff_iff]
        omega

-- ======================================================================= pages

/-- An assignment of frames to pages that puts no frame behind two
pages. -/
structure PageMap where
  frame : Nat → Option Nat
  inj : ∀ {i j f}, frame i = some f → frame j = some f → i = j

namespace PageMap

/-- No page has a frame. -/
def empty : PageMap where
  frame := fun _ => none
  inj := fun h => by cases h

/-- Put frame `f`, which is behind no page, behind page `i`. -/
def assign (M : PageMap) (i f : Nat) (hf : ∀ j, M.frame j ≠ some f) :
    PageMap where
  frame := Function.update M.frame i (some f)
  inj := by
    intro j k g hj hk
    by_cases hji : j = i
    · by_cases hki : k = i
      · exact hji.trans hki.symm
      · rw [hji, Function.update_self] at hj
        rw [Function.update_of_ne hki, ← hj] at hk
        exact absurd hk (hf k)
    · rw [Function.update_of_ne hji] at hj
      by_cases hki : k = i
      · rw [hki, Function.update_self] at hk
        rw [← hk] at hj
        exact absurd hj (hf j)
      · rw [Function.update_of_ne hki] at hk
        exact M.inj hj hk

@[simp] theorem assign_self (M : PageMap) {i f : Nat}
    (hf : ∀ j, M.frame j ≠ some f) : (M.assign i f hf).frame i = some f :=
  Function.update_self ..

theorem assign_of_ne (M : PageMap) {i j f : Nat}
    (hf : ∀ j, M.frame j ≠ some f) (h : j ≠ i) :
    (M.assign i f hf).frame j = M.frame j :=
  Function.update_of_ne h ..

variable {β : Type*} (M : PageMap) (z : Nat)

/-- The value at `v`, in pages of `z` places: that of the frame behind
its page. -/
def byte (page : Nat → Nat → β) (v : Nat) : Option β :=
  (M.frame (v / z)).map fun f => page f (v % z)

variable {M z}

theorem byte_isSome {page : Nat → Nat → β} {v : Nat} :
    (M.byte z page v).isSome ↔ (M.frame (v / z)).isSome := by
  rw [byte, Option.isSome_map]

/-- New contents for the frame behind page `i` are new contents of that
page. -/
theorem byte_replace {i f : Nat} (h : M.frame i = some f)
    (page : Nat → Nat → β) (c : Nat → β) (v : Nat) :
    M.byte z (Function.update page f c) v
      = if v / z = i then some (c (v % z)) else M.byte z page v := by
  by_cases hv : v / z = i
  · rw [if_pos hv, byte, hv, h, Option.map_some, Function.update_self]
  · rw [if_neg hv, byte, byte]
    cases hg : M.frame (v / z) with
    | none => rfl
    | some g =>
        have hgf : g ≠ f := by
          intro heq
          subst heq
          exact hv (M.inj hg h)
        rw [Option.map_some, Option.map_some, Function.update_of_ne hgf]

/-- A store into the frame behind `v` changes what is at `v` and nothing
else. -/
theorem byte_store {v f : Nat} (h : M.frame (v / z) = some f)
    (page : Nat → Nat → β) (b : β) :
    M.byte z (Function.update page f
        (Function.update (page f) (v % z) b))
      = Function.update (M.byte z page) v (some b) := by
  funext u
  rw [byte_replace h]
  by_cases hu : u = v
  · rw [hu, if_pos rfl, Function.update_self, Function.update_self]
  · rw [Function.update_of_ne hu]
    by_cases hpage : u / z = v / z
    · have hoff : u % z ≠ v % z := by
        intro heq
        have hu' := Nat.div_add_mod u z
        rw [hpage, heq, Nat.div_add_mod] at hu'
        exact hu hu'.symm
      rw [if_pos hpage, Function.update_of_ne hoff, byte, hpage, h,
        Option.map_some]
    · rw [if_neg hpage]

end PageMap

end SyeLabs.Lib
