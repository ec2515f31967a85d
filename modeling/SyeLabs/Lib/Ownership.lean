/-
Units of an allocator that are held in slots.

A slot refers to at most one unit. `Owns A base ref h` says that the
units of `base` and those the slots refer to are all that is in use, that
no unit is referred to twice, and that the log of the heap agrees: a unit
in a slot was handed out and not given back, any other one was given
back as often as it was handed out. Taking a unit for an empty slot and
giving back the unit of a slot, which is emptied, keep it.
-/
import Mathlib.Logic.Function.Basic
import SyeLabs.Lib.Alloc
import SyeLabs.Lib.RefCount

namespace SyeLabs.Lib

variable {H : Type*} {ok : Nat → Prop} {ι : Type*}

/-- A heap with a log of what it handed out and what it was given
back. -/
structure Logged (H : Type*) where
  heap : H
  log : List (Event Nat)

/-- The allocator that keeps the log. -/
def Allocator.logged (A : Allocator H ok) : Allocator (Logged H) ok where
  alloc h := (A.alloc h.heap).map fun r =>
    (r.1, ⟨r.2, h.log ++ [.get r.1]⟩)
  free h b := ⟨A.free h.heap b, h.log ++ [.free b]⟩
  live h b := A.live h.heap b
  alloc_ok ha := by
    obtain ⟨r, hr, he⟩ := Option.map_eq_some_iff.mp ha
    cases he
    exact A.alloc_ok hr
  alloc_fresh ha := by
    obtain ⟨r, hr, he⟩ := Option.map_eq_some_iff.mp ha
    cases he
    exact A.alloc_fresh hr
  alloc_live ha := by
    obtain ⟨r, hr, he⟩ := Option.map_eq_some_iff.mp ha
    cases he
    exact A.alloc_live hr
  free_live hb := A.free_live hb

theorem logged_alloc {A : Allocator H ok} {h h' : Logged H} {b : Nat}
    (ha : A.logged.alloc h = some (b, h')) :
    A.alloc h.heap = some (b, h'.heap) ∧ h'.log = h.log ++ [.get b] := by
  obtain ⟨r, hr, he⟩ := Option.map_eq_some_iff.mp ha
  cases he
  exact ⟨hr, rfl⟩

/-- The slots own the units they refer to; those of `base` are in use
for somebody else. -/
structure Owns (A : Allocator H ok) (base : Nat → Prop)
    (ref : ι → Option Nat) (h : Logged H) : Prop where
  live : ∀ b, A.live h.heap b ↔ base b ∨ ∃ i, ref i = some b
  apart : ∀ i b, ref i = some b → ¬ base b
  single : ∀ i j b, ref i = some b → ref j = some b → i = j
  held : ∀ i b, ref i = some b → history b h.log = some true
  idle : ∀ b, (∀ i, ref i ≠ some b) → history b h.log = some false

namespace Owns

variable {A : Allocator H ok} {base : Nat → Prop} {ref : ι → Option Nat}
  {h h' : Logged H} {i : ι} {b : Nat}

/-- At the start all slots are empty. -/
theorem boot (A : Allocator H ok) (s : H) (hempty : ∀ i, ref i = none) :
    Owns A (A.live s) ref ⟨s, []⟩ where
  live := by
    intro b
    simp [hempty]
  apart := by
    intro i b hb
    rw [hempty] at hb
    cases hb
  single := by
    intro i j b hb
    rw [hempty] at hb
    cases hb
  held := by
    intro i b hb
    rw [hempty] at hb
    cases hb
  idle := fun b _ => history_nil b

/-- Equal slots. -/
theorem congr {ref' : ι → Option Nat} (ho : Owns A base ref h)
    (href : ∀ i, ref' i = ref i) : Owns A base ref' h := by
  have heq : ref' = ref := funext href
  rw [heq]
  exact ho

/-- A unit about to be handed out is in no slot. -/
theorem fresh (ho : Owns A base ref h)
    (ha : A.logged.alloc h = some (b, h')) (j : ι) : ref j ≠ some b := by
  intro hj
  exact A.alloc_fresh (logged_alloc ha).1 ((ho.live b).mpr (Or.inr ⟨j, hj⟩))

/-- A unit is taken for an empty slot. -/
theorem take [DecidableEq ι] (ho : Owns A base ref h)
    (hi : ref i = none)
    (ha : A.logged.alloc h = some (b, h')) :
    Owns A base (Function.update ref i (some b)) h' := by
  obtain ⟨halloc, hlog⟩ := logged_alloc ha
  have hfresh := A.alloc_fresh halloc
  have hnone := ho.fresh ha
  have hold : ∀ {j c}, Function.update ref i (some b) j = some c →
      (j = i ∧ c = b) ∨ (j ≠ i ∧ ref j = some c) := by
    intro j c hj
    by_cases hji : j = i
    · subst hji
      rw [Function.update_self, Option.some.injEq] at hj
      exact Or.inl ⟨rfl, hj.symm⟩
    · rw [Function.update_of_ne hji] at hj
      exact Or.inr ⟨hji, hj⟩
  constructor
  case live =>
    intro c
    rw [A.alloc_live halloc, ho.live]
    constructor
    · intro h
      rcases h with rfl | hc | ⟨j, hj⟩
      · exact Or.inr ⟨i, Function.update_self _ _ _⟩
      · exact Or.inl hc
      · have hji : j ≠ i := by
          intro heq
          subst heq
          rw [hi] at hj
          cases hj
        exact Or.inr ⟨j, by rw [Function.update_of_ne hji]; exact hj⟩
    · intro h
      rcases h with hc | ⟨j, hj⟩
      · exact Or.inr (Or.inl hc)
      · rcases hold hj with ⟨-, rfl⟩ | ⟨-, hj⟩
        · exact Or.inl rfl
        · exact Or.inr (Or.inr ⟨j, hj⟩)
  case apart =>
    intro j c hj
    rcases hold hj with ⟨-, rfl⟩ | ⟨-, hj⟩
    · exact fun hc => hfresh ((ho.live c).mpr (Or.inl hc))
    · exact ho.apart j c hj
  case single =>
    intro j k c hj hk
    rcases hold hj with ⟨rfl, rfl⟩ | ⟨-, hj'⟩
    · rcases hold hk with ⟨rfl, -⟩ | ⟨-, hk'⟩
      · rfl
      · exact absurd hk' (hnone k)
    · rcases hold hk with ⟨-, rfl⟩ | ⟨-, hk'⟩
      · exact absurd hj' (hnone j)
      · exact ho.single j k c hj' hk'
  case held =>
    intro j c hj
    rw [hlog]
    rcases hold hj with ⟨-, rfl⟩ | ⟨-, hj⟩
    · rw [history_get (ho.idle c hnone) fun _ => rfl]
      simp
    · have hbc : b ≠ c := fun hbc => hnone j (hbc ▸ hj)
      rw [history_get (ho.held j c hj) fun hbc' => absurd hbc' hbc]
      simp
  case idle =>
    intro c hc
    have hbc : b ≠ c := by
      intro heq
      subst heq
      exact hc i (Function.update_self _ _ _)
    have hidle : ∀ j, ref j ≠ some c := by
      intro j hj
      have hji : j ≠ i := by
        intro heq
        subst heq
        rw [hi] at hj
        cases hj
      exact hc j (by rw [Function.update_of_ne hji]; exact hj)
    rw [hlog, history_get (ho.idle c hidle) fun hbc' => absurd hbc' hbc]
    simp [hbc]

/-- The unit of a slot is given back and the slot emptied. -/
theorem give [DecidableEq ι] (ho : Owns A base ref h)
    (hi : ref i = some b) :
    Owns A base (Function.update ref i none) (A.logged.free h b) := by
  have hlive : A.live h.heap b := (ho.live b).mpr (Or.inr ⟨i, hi⟩)
  have hold : ∀ {j c}, Function.update ref i none j = some c →
      ref j = some c ∧ c ≠ b := by
    intro j c hj
    have hji : j ≠ i := by
      intro heq
      subst heq
      rw [Function.update_self] at hj
      cases hj
    rw [Function.update_of_ne hji] at hj
    exact ⟨hj, fun hcb => hji (ho.single j i c hj (hcb ▸ hi))⟩
  constructor
  case live =>
    intro c
    apply (A.free_live hlive c).trans
    rw [ho.live]
    constructor
    · intro h
      obtain ⟨hcb, hc | ⟨j, hj⟩⟩ := h
      · exact Or.inl hc
      · have hji : j ≠ i := by
          intro heq
          subst heq
          rw [hi] at hj
          exact hcb (Option.some.inj hj).symm
        exact Or.inr ⟨j, by rw [Function.update_of_ne hji]; exact hj⟩
    · intro h
      rcases h with hc | ⟨j, hj⟩
      · exact ⟨fun hcb => ho.apart i b hi (hcb ▸ hc), Or.inl hc⟩
      · obtain ⟨hj, hcb⟩ := hold hj
        exact ⟨hcb, Or.inr ⟨j, hj⟩⟩
  case apart => exact fun j c hj => ho.apart j c (hold hj).1
  case single =>
    exact fun j k c hj hk => ho.single j k c (hold hj).1 (hold hk).1
  case held =>
    intro j c hj
    obtain ⟨hj, hcb⟩ := hold hj
    show history c (h.log ++ [.free b]) = some true
    rw [history_free (ho.held j c hj) fun hbc => absurd hbc.symm hcb]
    simp [hcb.symm]
  case idle =>
    intro c hc
    show history c (h.log ++ [.free b]) = some false
    by_cases hbc : b = c
    · subst hbc
      rw [history_free (ho.held i b hi) fun _ => rfl]
      simp
    · have hidle : ∀ j, ref j ≠ some c := by
        intro j hj
        have hji : j ≠ i := by
          intro heq
          subst heq
          rw [hi] at hj
          exact hbc (Option.some.inj hj)
        exact hc j (by rw [Function.update_of_ne hji]; exact hj)
      rw [history_free (ho.idle c hidle) fun hbc' => absurd hbc' hbc]
      simp

/-- A unit that is out is in one slot. -/
theorem exists_unique (ho : Owns A base ref h)
    (hb : history b h.log = some true) :
    ∃ i, ref i = some b ∧ ∀ j, ref j = some b → j = i := by
  by_cases hex : ∃ i, ref i = some b
  · obtain ⟨i, hi⟩ := hex
    exact ⟨i, hi, fun j hj => ho.single j i b hj hi⟩
  · have hidle := ho.idle b fun i hi => hex ⟨i, hi⟩
    rw [hidle] at hb
    cases hb

/-- No unit was handed out or given back twice in a row. -/
theorem history_ne_none (ho : Owns A base ref h) (b : Nat) :
    history b h.log ≠ none := by
  by_cases hex : ∃ i, ref i = some b
  · obtain ⟨i, hi⟩ := hex
    rw [ho.held i b hi]
    exact Option.some_ne_none _
  · rw [ho.idle b fun i hi => hex ⟨i, hi⟩]
    exact Option.some_ne_none _

end Owns

end SyeLabs.Lib
