/-
Memories reached through an address translation, against the map they
are meant to be.

A store sequence over addresses `A` is run twice: once on the plain map
`A → B` (`refMap`, the intended meaning) and once on a bank of cells `C`
through a translation `cell : A → C` (`cellMap`). The two agree at an
address exactly when the last store to its cell was a store to it, and
they agree everywhere on a domain exactly when the plain map is constant
on the addresses of the domain that share a cell (`cellMap_agrees_iff`).
-/
import Mathlib.Logic.Function.Basic
import Mathlib.Data.List.Induction

namespace SyeLabs.Lib

variable {A B C : Type*} [DecidableEq A] [DecidableEq C]

/-- The map a store sequence is meant to build: the last store to an
address wins, and `init` is read where nothing was stored. -/
def refMap (init : B) (ops : List (A × B)) : A → B :=
  ops.foldl (fun m op => Function.update m op.1 op.2) fun _ => init

/-- The cells the same sequence leaves when every store goes through
`cell`. -/
def cellMap (cell : A → C) (init : B) (ops : List (A × B)) : C → B :=
  ops.foldl (fun m op => Function.update m (cell op.1) op.2) fun _ => init

@[simp] theorem refMap_nil (init : B) :
    refMap init ([] : List (A × B)) = fun _ => init := rfl

theorem refMap_snoc (init : B) (ops : List (A × B)) (op : A × B) :
    refMap init (ops ++ [op])
      = Function.update (refMap init ops) op.1 op.2 := by
  unfold refMap
  rw [List.foldl_append]
  rfl

omit [DecidableEq A] in
theorem cellMap_snoc (cell : A → C) (init : B) (ops : List (A × B))
    (op : A × B) :
    cellMap cell init (ops ++ [op])
      = Function.update (cellMap cell init ops) (cell op.1) op.2 := by
  unfold cellMap
  rw [List.foldl_append]
  rfl

/-- A cell holds either its initial value, with no store to any of its
addresses, or the plain map's value at one of them. -/
theorem cellMap_witness (cell : A → C) (init : B) (ops : List (A × B))
    (c : C) :
    (cellMap cell init ops c = init ∧ ∀ op ∈ ops, cell op.1 ≠ c)
      ∨ ∃ op ∈ ops, cell op.1 = c
          ∧ cellMap cell init ops c = refMap init ops op.1 := by
  induction ops using List.reverseRecOn with
  | nil => exact Or.inl ⟨rfl, by simp⟩
  | append_singleton ops op ih =>
      rw [cellMap_snoc, refMap_snoc]
      by_cases hc : cell op.1 = c
      · refine Or.inr ⟨op, by simp, hc, ?_⟩
        rw [hc, Function.update_self, Function.update_self]
      · rw [Function.update_of_ne (Ne.symm hc)]
        rcases ih with ⟨hinit, hnone⟩ | ⟨w, hw, hwc, hval⟩
        · refine Or.inl ⟨hinit, fun o ho => ?_⟩
          rcases List.mem_append.mp ho with ho | ho
          · exact hnone o ho
          · rw [List.mem_singleton.mp ho]
            exact hc
        · refine Or.inr ⟨w, by simp [hw], hwc, ?_⟩
          have hne : w.1 ≠ op.1 := fun he => hc (he ▸ hwc)
          rw [Function.update_of_ne hne]
          exact hval

/-- An address nothing was stored to reads as initial in the plain
map. -/
theorem refMap_of_not_stored (init : B) {ops : List (A × B)} {a : A}
    (h : ∀ op ∈ ops, op.1 ≠ a) : refMap init ops a = init := by
  induction ops using List.reverseRecOn with
  | nil => rfl
  | append_singleton ops op ih =>
      have hne : a ≠ op.1 := fun he => h op (by simp) he.symm
      rw [refMap_snoc, Function.update_of_ne hne]
      exact ih fun o ho => h o (by simp [ho])

/-- An address all of whose stores are of one value reads as it. -/
theorem refMap_of_stored (init : B) {ops : List (A × B)} {a : A} {b : B}
    (hall : ∀ op ∈ ops, op.1 = a → op.2 = b)
    (hsome : ∃ op ∈ ops, op.1 = a) : refMap init ops a = b := by
  induction ops using List.reverseRecOn with
  | nil =>
      obtain ⟨op, hop, -⟩ := hsome
      cases hop
  | append_singleton ops op ih =>
      rw [refMap_snoc]
      by_cases ha : op.1 = a
      · rw [ha, Function.update_self]
        exact hall op (by simp) ha
      · rw [Function.update_of_ne (Ne.symm ha)]
        refine ih (fun o ho => hall o (by simp [ho])) ?_
        obtain ⟨o, ho, hoa⟩ := hsome
        rcases List.mem_append.mp ho with ho | ho
        · exact ⟨o, ho, hoa⟩
        · rw [List.mem_singleton.mp ho] at hoa
          exact absurd hoa ha

/-- The cells agree with the plain map on a domain that holds every
stored address exactly when the plain map does not tell apart two
addresses of the domain that share a cell. -/
theorem cellMap_agrees_iff (cell : A → C) (init : B) {D : A → Prop}
    {ops : List (A × B)} (hD : ∀ op ∈ ops, D op.1) :
    (∀ a, D a → cellMap cell init ops (cell a) = refMap init ops a)
      ↔ ∀ a b, D a → D b → cell a = cell b →
          refMap init ops a = refMap init ops b := by
  constructor
  · intro h a b ha hb hab
    rw [← h a ha, ← h b hb, hab]
  · intro h a ha
    rcases cellMap_witness cell init ops (cell a) with
      ⟨hinit, hnone⟩ | ⟨w, hw, hwc, hval⟩
    · rw [hinit]
      refine (refMap_of_not_stored init fun op hop he => ?_).symm
      exact hnone op hop (by rw [he])
    · rw [hval]
      exact h w.1 a (hD w hw) ha hwc

end SyeLabs.Lib
