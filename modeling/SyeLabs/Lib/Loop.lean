/-
Counting loops and do-while loops over a partial body, with the rules
that carry an invariant through them.

# The two loops

`forRange n body` is `for (i = 0; i < n; i++) s = body(i, s)`: the
iterations run in order and the first one without a result ends the
loop without a result. `doWhile` runs its body at least once and tests
afterwards; its fuel bounds the number of iterations, and running out
of it counts as no result, so a statement that the loop returns says
that it terminates.

# Partial and total at once

A body may lack a result because a resource is exhausted, which is no
fault of its own. `Ensures avail o Q` keeps the two readings apart:
whatever `o` returns satisfies `Q`, and `o` returns if `avail` holds.
The rules carry both halves through a program in one induction. The
rule of `doWhile` indexes the invariant by the number of iterations
still to come, which is what a loop that ends on an equality needs: the
index says when the equality first holds.
-/
import Mathlib.Data.List.Basic
import Mathlib.Logic.Function.Basic

namespace SyeLabs.Lib

variable {σ : Type*} {α : Type*}

-- ============================================================== counting loops

/-- `for (i = 0; i < n; i++) s = body(i, s)`, failing with the first
iteration that fails. -/
def forRange (n : Nat) (body : Nat → σ → Option σ) (s : σ) : Option σ :=
  match n with
  | 0 => some s
  | n + 1 => (forRange n body s).bind (body n)

@[simp] theorem forRange_zero (body : Nat → σ → Option σ) (s : σ) :
    forRange 0 body s = some s := rfl

theorem forRange_succ (n : Nat) (body : Nat → σ → Option σ) (s : σ) :
    forRange (n + 1) body s = (forRange n body s).bind (body n) := rfl

/-- A loop commutes with a map of states if its body does. -/
theorem forRange_map {body : Nat → σ → Option σ} {f : σ → σ}
    (h : ∀ i s, body i (f s) = (body i s).map f) (n : Nat) (s : σ) :
    forRange n body (f s) = (forRange n body s).map f := by
  induction n with
  | zero => rfl
  | succ n ih =>
      rw [forRange_succ, forRange_succ, ih]
      cases forRange n body s with
      | none => rfl
      | some t => exact h n t

/-- What every iteration preserves holds after the loop. -/
theorem forRange_inv {I : σ → Prop} {body : Nat → σ → Option σ} {n : Nat}
    {s s' : σ} (hs : I s)
    (step : ∀ i s s', i < n → I s → body i s = some s' → I s')
    (h : forRange n body s = some s') : I s' := by
  induction n generalizing s' with
  | zero =>
      cases h
      exact hs
  | succ n ih =>
      rw [forRange_succ] at h
      obtain ⟨t, ht, hbody⟩ := Option.bind_eq_some_iff.mp h
      exact step n t s' (Nat.lt_succ_self n)
        (ih (fun i s s' hi => step i s s' (Nat.lt_succ_of_lt hi)) ht) hbody

/-- A loop does what another one does, in each of its iterations. -/
theorem forRange_sim {τ : Type*} {R : Nat → σ → τ → Prop}
    {body : Nat → σ → Option σ} {body' : Nat → τ → Option τ} {n : Nat}
    {s s' : σ} {t : τ} (hs : R 0 s t)
    (step : ∀ i u u' v, i < n → R i u v → body i u = some u' →
      ∃ v', body' i v = some v' ∧ R (i + 1) u' v')
    (h : forRange n body s = some s') :
    ∃ t', forRange n body' t = some t' ∧ R n s' t' := by
  induction n generalizing s' with
  | zero =>
      cases h
      exact ⟨t, rfl, hs⟩
  | succ n ih =>
      rw [forRange_succ] at h
      obtain ⟨u, hu, hbody⟩ := Option.bind_eq_some_iff.mp h
      obtain ⟨v, hv, hR⟩ :=
        ih (fun i u u' v hi => step i u u' v (Nat.lt_succ_of_lt hi)) hu
      obtain ⟨t', ht', hR'⟩ := step n u s' v (Nat.lt_succ_self n) hR hbody
      refine ⟨t', ?_, hR'⟩
      rw [forRange_succ, hv]
      exact ht'

-- ============================================================== do-while loops

/-- `do s = body(s) while (again(s))`, with a bound on the iterations. -/
def doWhile (body : σ → Option σ) (again : σ → Bool) : Nat → σ → Option σ
  | 0, _ => none
  | fuel + 1, s =>
      (body s).bind fun s' =>
        if again s' then doWhile body again fuel s' else some s'

theorem doWhile_succ (body : σ → Option σ) (again : σ → Bool) (fuel : Nat)
    (s : σ) :
    doWhile body again (fuel + 1) s
      = (body s).bind fun s' =>
        if again s' then doWhile body again fuel s' else some s' := rfl

/-- A loop whose test fails after the first turn is its body. -/
theorem doWhile_once {body : σ → Option σ} {again : σ → Bool} {s : σ}
    (h : ∀ s', body s = some s' → again s' = false) {fuel : Nat}
    (hfuel : 0 < fuel) : doWhile body again fuel s = body s := by
  obtain ⟨f, rfl⟩ : ∃ f, fuel = f + 1 := ⟨fuel - 1, by omega⟩
  rw [doWhile_succ]
  cases hs : body s with
  | none => rfl
  | some s' => simp [h s' hs]

/-- A loop commutes with a map of states if its body and its test do. -/
theorem doWhile_map {body : σ → Option σ} {f : σ → σ} (again : σ → Bool)
    (hbody : ∀ s, body (f s) = (body s).map f)
    (hagain : ∀ s, again (f s) = again s) :
    ∀ (fuel : Nat) (s : σ),
      doWhile body again fuel (f s) = (doWhile body again fuel s).map f := by
  intro fuel
  induction fuel with
  | zero => exact fun _ => rfl
  | succ fuel ih =>
      intro s
      rw [doWhile_succ, doWhile_succ, hbody]
      cases body s with
      | none => rfl
      | some u =>
          simp only [Option.map_some, Option.bind_some, hagain]
          split
          · exact ih u
          · rfl

/-- What every turn preserves holds after the loop. -/
theorem doWhile_inv {I : σ → Prop} {body : σ → Option σ} {again : σ → Bool}
    (step : ∀ s s', I s → body s = some s' → I s') :
    ∀ {fuel : Nat} {s s' : σ}, I s → doWhile body again fuel s = some s' →
      I s' := by
  intro fuel
  induction fuel with
  | zero => exact fun _ h => nomatch h
  | succ fuel ih =>
      intro s s' hs h
      rw [doWhile_succ] at h
      obtain ⟨u, hu, h⟩ := Option.bind_eq_some_iff.mp h
      have hI := step s u hs hu
      split at h
      · exact ih hI h
      · cases h
        exact hI

-- =========================================================== partial and total

/-- What is returned satisfies `Q`, and something is returned if `avail`
holds. -/
def Ensures (avail : Prop) (o : Option σ) (Q : σ → Prop) : Prop :=
  (∀ s, o = some s → Q s) ∧ (avail → ∃ s, o = some s)

variable {avail : Prop}

theorem Ensures.some {s : σ} {Q : σ → Prop} (h : Q s) :
    Ensures avail (some s) Q :=
  ⟨fun _ hs => Option.some.inj hs ▸ h, fun _ => ⟨s, rfl⟩⟩

/-- What is known of the result is that it is the result. -/
theorem Ensures.self {o : Option σ} (h : avail → ∃ s, o = .some s) :
    Ensures avail o fun s => o = .some s :=
  ⟨fun _ hs => hs, h⟩

theorem Ensures.mono {o : Option σ} {Q R : σ → Prop}
    (h : Ensures avail o Q) (hQR : ∀ s, Q s → R s) : Ensures avail o R :=
  ⟨fun s hs => hQR s (h.1 s hs), h.2⟩

/-- Sequencing. -/
theorem Ensures.bind {τ : Type*} {o : Option σ} {f : σ → Option τ}
    {Q : σ → Prop} {R : τ → Prop} (ho : Ensures avail o Q)
    (hf : ∀ s, Q s → Ensures avail (f s) R) : Ensures avail (o.bind f) R := by
  constructor
  · intro t ht
    obtain ⟨s, hs, hfs⟩ := Option.bind_eq_some_iff.mp ht
    exact (hf s (ho.1 s hs)).1 t hfs
  · intro hav
    obtain ⟨s, hs⟩ := ho.2 hav
    obtain ⟨t, ht⟩ := (hf s (ho.1 s hs)).2 hav
    exact ⟨t, Option.bind_eq_some_iff.mpr ⟨s, hs, ht⟩⟩

theorem Ensures.map {τ : Type*} {o : Option σ} {f : σ → τ}
    {R : τ → Prop} (ho : Ensures avail o fun s => R (f s)) :
    Ensures avail (o.map f) R := by
  rw [Option.map_eq_bind]
  exact ho.bind fun s hs => Ensures.some hs

/-- The rule of the counting loop. -/
theorem Ensures.forRange {I : Nat → σ → Prop} {body : Nat → σ → Option σ}
    {n : Nat} {s : σ} (h0 : I 0 s)
    (step : ∀ i s, i < n → I i s → Ensures avail (body i s) (I (i + 1))) :
    Ensures avail (forRange n body s) (I n) := by
  induction n with
  | zero => exact Ensures.some h0
  | succ n ih =>
      rw [forRange_succ]
      exact (ih fun i s hi => step i s (Nat.lt_succ_of_lt hi)).bind
        fun t ht => step n t (Nat.lt_succ_self n) ht

/-- The rule of the do-while loop: with `k + 1` iterations to go and more
fuel than that, a body that counts down and asks for another round
exactly while iterations remain brings the loop to the invariant at
zero. -/
theorem Ensures.doWhile {I : Nat → σ → Prop} {body : σ → Option σ}
    {again : σ → Bool}
    (step : ∀ k s, I (k + 1) s →
      Ensures avail (body s) fun s' => (again s' = true ↔ k ≠ 0) ∧ I k s') :
    ∀ (k fuel : Nat) {s : σ}, k < fuel → I (k + 1) s →
      Ensures avail (doWhile body again fuel s) (I 0) := by
  intro k
  induction k with
  | zero =>
      intro fuel s hfuel hI
      obtain ⟨f, rfl⟩ : ∃ f, fuel = f + 1 := ⟨fuel - 1, by omega⟩
      rw [doWhile_succ]
      refine (step 0 s hI).bind fun t ⟨hagain, h0⟩ => ?_
      rw [if_neg fun h => hagain.mp h rfl]
      exact Ensures.some h0
  | succ k ih =>
      intro fuel s hfuel hI
      obtain ⟨f, rfl⟩ : ∃ f, fuel = f + 1 := ⟨fuel - 1, by omega⟩
      rw [doWhile_succ]
      refine (step (k + 1) s hI).bind fun t ⟨hagain, hk⟩ => ?_
      rw [if_pos (hagain.mpr (Nat.succ_ne_zero k))]
      exact ih f (by omega) hk

-- ======================================================= pointwise array loops

/-- A loop over `0 .. n-1` whose iteration `i` rewrites only entry `i`
of a table rewrites exactly the first `n` entries. -/
theorem foldl_range_update (g : Nat → α → α) (f : Nat → α) (n : Nat) :
    (List.range n).foldl (fun f i => Function.update f i (g i (f i))) f
      = fun i => if i < n then g i (f i) else f i := by
  induction n with
  | zero =>
      funext i
      simp
  | succ n ih =>
      rw [List.range_succ, List.foldl_append, ih]
      funext i
      by_cases hi : i = n
      · subst hi
        simp
      · have hlt : i < n + 1 ↔ i < n := by omega
        simp [Function.update_of_ne hi, hlt]

end SyeLabs.Lib
