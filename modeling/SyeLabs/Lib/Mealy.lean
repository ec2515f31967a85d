/-
Machines that answer calls.

A total step function `σ → α → β × σ` takes each call in the state the
calls before it left and answers it. `answers` collects the answers to a
sequence of calls and `after` is the state it leaves. Two machines that
a relation keeps in step give the same answers
(`answers_eq_of_simulation`); `Throughout` says that every call of a
sequence meets a condition in the state it is made in.
-/
import Mathlib.Logic.Basic

namespace SyeLabs.Lib

variable {σ τ α β : Type*}

/-- The answers to a sequence of calls. -/
def answers (step : σ → α → β × σ) : σ → List α → List β
  | _, [] => []
  | s, a :: as => (step s a).1 :: answers step (step s a).2 as

/-- The state a sequence of calls leaves. -/
def after (step : σ → α → β × σ) : σ → List α → σ
  | s, [] => s
  | s, a :: as => after step (step s a).2 as

/-- Every call of the sequence meets `C` in the state it is made in. -/
def Throughout (step : σ → α → β × σ) (C : σ → α → Prop) (s : σ)
    (as : List α) : Prop :=
  ∀ pre a post, as = pre ++ a :: post → C (after step s pre) a

variable {step : σ → α → β × σ}

theorem after_append (s : σ) (as bs : List α) :
    after step s (as ++ bs) = after step (after step s as) bs := by
  induction as generalizing s with
  | nil => rfl
  | cons a as ih => exact ih (step s a).2

theorem answers_append (s : σ) (as bs : List α) :
    answers step s (as ++ bs)
      = answers step s as ++ answers step (after step s as) bs := by
  induction as generalizing s with
  | nil => rfl
  | cons a as ih => exact congrArg (List.cons _) (ih (step s a).2)

theorem length_answers (s : σ) (as : List α) :
    (answers step s as).length = as.length := by
  induction as generalizing s with
  | nil => rfl
  | cons a as ih => exact congrArg Nat.succ (ih (step s a).2)

/-- What every step preserves holds after a sequence of calls. -/
theorem after_inv {I : σ → Prop} (hstep : ∀ s a, I s → I (step s a).2)
    {s : σ} (hs : I s) (as : List α) : I (after step s as) := by
  induction as generalizing s with
  | nil => exact hs
  | cons a as ih => exact ih (hstep s a hs)

/-- Two machines that a relation keeps in step answer alike, and the
relation holds of the states they are left in. -/
theorem answers_eq_of_simulation {step' : τ → α → β × τ}
    {R : σ → τ → Prop}
    (hstep : ∀ s t a, R s t → (step s a).1 = (step' t a).1
      ∧ R (step s a).2 (step' t a).2) {s : σ} {t : τ} (h : R s t)
    (as : List α) :
    answers step s as = answers step' t as
      ∧ R (after step s as) (after step' t as) := by
  induction as generalizing s t with
  | nil => exact ⟨rfl, h⟩
  | cons a as ih =>
      obtain ⟨hans, hnext⟩ := hstep s t a h
      obtain ⟨hrest, hend⟩ := ih hnext
      exact ⟨congrArg₂ List.cons hans hrest, hend⟩

/-- Where an invariant reduces the condition to one on the calls alone,
every call meets it exactly when each call of the list does. -/
theorem throughout_iff_forall {I : σ → Prop} {C : σ → α → Prop}
    {D : α → Prop} (hinv : ∀ s a, I s → I (step s a).2)
    (hC : ∀ s a, I s → (C s a ↔ D a)) {s : σ} (hs : I s)
    (as : List α) : Throughout step C s as ↔ ∀ a ∈ as, D a := by
  constructor
  · intro h a ha
    obtain ⟨pre, post, rfl⟩ := List.append_of_mem ha
    exact (hC _ a (after_inv hinv hs pre)).mp (h pre a post rfl)
  · intro h pre a post heq
    refine (hC _ a (after_inv hinv hs pre)).mpr (h a ?_)
    rw [heq]
    exact List.mem_append_right pre List.mem_cons_self

end SyeLabs.Lib
