/-
A machine that refines a relation.

`Steps R` are the runs of a relation between states, labelled by what
happens. A function that takes every step of a machine to a step of the
relation takes its runs to runs (`steps_of_run`); the function may forget
what the relation does not talk about, and the machine need only be right
in the states an invariant allows.
-/
import SyeLabs.Lib.Run

namespace SyeLabs.Lib

variable {σ τ α : Type*}

/-- The runs of a relation. -/
inductive Steps (R : τ → α → τ → Prop) : τ → List α → τ → Prop
  | nil (t : τ) : Steps R t [] t
  | cons {t t' t'' : τ} {a : α} {as : List α} :
      R t a t' → Steps R t' as t'' → Steps R t (a :: as) t''

/-- Forward simulation. -/
theorem steps_of_run {step : σ → α → Option σ} {R : τ → α → τ → Prop}
    {I : σ → Prop} {C : σ → α → Prop} (abs : σ → τ)
    (hstep : ∀ s a s', I s → C s a → step s a = some s' →
      I s' ∧ R (abs s) a (abs s')) {as : List α} :
    ∀ {s s' : σ}, I s → Along step C s as → run step s as = some s' →
      Steps R (abs s) as (abs s') := by
  induction as with
  | nil =>
      intro s s' _ _ hrun
      cases hrun
      exact .nil _
  | cons a as ih =>
      intro s s' hs halong hrun
      obtain ⟨hC, halong⟩ := along_cons_iff.mp halong
      obtain ⟨t, ha, hrest⟩ := run_cons_iff.mp hrun
      obtain ⟨ht, hR⟩ := hstep s a t hs hC ha
      exact .cons hR (ih ht (halong t ha) hrest)

end SyeLabs.Lib
