/-
Reference counts over lists of holdings.

`total L n a` counts the entries of item `a` in the lists of the first
`n` holders: what a reference count is to agree with. An item is handed
out and given back over time; `history a log` follows the events of one
item through a log and fails on an item handed out or given back twice
in a row, so `history a log = some held` says that the events alternate
and whether the item is out.
-/
import Mathlib.Algebra.BigOperators.Group.Finset.Basic
import Mathlib.Algebra.Order.BigOperators.Group.Finset

namespace SyeLabs.Lib

open Finset

variable {α : Type*} [DecidableEq α]

-- ====================================================================== counts

/-- The entries of `a` in the lists of the first `n` holders. -/
def total (L : Nat → List α) (n : Nat) (a : α) : Nat :=
  ∑ p ∈ range n, (L p).count a

theorem total_nil (n : Nat) (a : α) :
    total (fun _ => ([] : List α)) n a = 0 := by
  simp [total]

/-- A new holder without entries does not count. -/
theorem total_succ {L : Nat → List α} {n : Nat} (h : L n = []) (a : α) :
    total L (n + 1) a = total L n a := by
  rw [total, sum_range_succ, h, List.count_nil, Nat.add_zero, total]

/-- The count of one holder and that of the others. -/
theorem total_eq_add {n p : Nat} (hp : p < n) (L : Nat → List α) (a : α) :
    total L n a
      = (L p).count a + ∑ q ∈ (range n).erase p, (L q).count a :=
  (add_sum_erase _ _ (mem_range.mpr hp)).symm

/-- Rewriting the list of one holder moves the total by as much. -/
theorem total_update {n p : Nat} (hp : p < n) (L : Nat → List α)
    (l : List α) (a : α) :
    total (Function.update L p l) n a + (L p).count a
      = total L n a + l.count a := by
  have hothers : ∑ q ∈ (range n).erase p,
        (Function.update L p l q).count a
      = ∑ q ∈ (range n).erase p, (L q).count a := by
    apply sum_congr rfl
    intro q hq
    rw [Function.update_of_ne (ne_of_mem_erase hq)]
  rw [total_eq_add hp, total_eq_add hp L, hothers, Function.update_self]
  omega

/-- One more entry. -/
theorem total_append {n p : Nat} (hp : p < n) (L : Nat → List α)
    (b a : α) :
    total (Function.update L p (L p ++ [b])) n a
      = total L n a + if b = a then 1 else 0 := by
  have h := total_update hp L (L p ++ [b]) a
  rw [List.count_append, List.count_singleton] at h
  simp only [beq_iff_eq] at h
  omega

/-- The first entry of a holder gone. -/
theorem total_tail {n p : Nat} (hp : p < n) {L : Nat → List α} {b : α}
    {l : List α} (h : L p = b :: l) (a : α) :
    total (Function.update L p l) n a + (if b = a then 1 else 0)
      = total L n a := by
  have hup := total_update hp L l a
  rw [h, List.count_cons] at hup
  simp only [beq_iff_eq] at hup
  omega

theorem count_le_total {n p : Nat} (hp : p < n) (L : Nat → List α)
    (a : α) : (L p).count a ≤ total L n a := by
  rw [total_eq_add hp]
  exact Nat.le_add_right _ _

/-- An item counted once has one holder. -/
theorem holder_unique {n p q : Nat} {L : Nat → List α} {a : α}
    (hone : total L n a ≤ 1) (hp : p < n) (hq : q < n) (hap : a ∈ L p)
    (haq : a ∈ L q) : p = q := by
  by_contra hne
  have hqmem : q ∈ (range n).erase p :=
    mem_erase.mpr ⟨fun h => hne h.symm, mem_range.mpr hq⟩
  have hsum : (L q).count a ≤ ∑ r ∈ (range n).erase p, (L r).count a :=
    single_le_sum (f := fun r => (L r).count a)
      (fun _ _ => Nat.zero_le _) hqmem
  rw [total_eq_add hp] at hone
  have h1 := List.count_pos_iff.mpr hap
  have h2 := List.count_pos_iff.mpr haq
  omega

-- ===================================================================== history

/-- An item is handed out or given back. -/
inductive Event (α : Type*)
  | get (a : α)
  | free (a : α)
  deriving DecidableEq, Repr

/-- Follow item `a` through one event; `held` says whether it is out. -/
def track (a : α) (held : Bool) : Event α → Option Bool
  | .get b => if b = a then (if held then none else some true) else some held
  | .free b =>
      if b = a then (if held then some false else none) else some held

/-- Follow item `a` through a log: whether it is out at the end, or
nothing if it was handed out or given back twice in a row. -/
def history (a : α) (log : List (Event α)) : Option Bool :=
  log.foldlM (track a) false

@[simp] theorem history_nil (a : α) : history a [] = some false := rfl

theorem history_append (a : α) (log : List (Event α)) (e : Event α) :
    history a (log ++ [e])
      = (history a log).bind fun held => track a held e := by
  rw [history, List.foldlM_append]
  cases h : log.foldlM (track a) false with
  | none => simp [history, h]
  | some held => simp [history, h]

theorem history_get {a b : α} {log : List (Event α)} {held : Bool}
    (h : history a log = some held) (hfree : b = a → held = false) :
    history a (log ++ [.get b]) = some (held || b = a) := by
  rw [history_append, h]
  by_cases hb : b = a
  · simp [track, hb, hfree hb]
  · simp [track, hb]

theorem history_free {a b : α} {log : List (Event α)} {held : Bool}
    (h : history a log = some held) (hheld : b = a → held = true) :
    history a (log ++ [.free b]) = some (held && b ≠ a) := by
  rw [history_append, h]
  by_cases hb : b = a
  · simp [track, hb, hheld hb]
  · simp [track, hb]

end SyeLabs.Lib
