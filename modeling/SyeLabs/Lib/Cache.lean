/-
Cached answers of a map that changes.

A cache holds keys with what the map said of them at some time. It may
grow by what the map says now, for any keys and at any time. A lookup
answers with a cached value of its key, any of them if there are several,
and asks the map only if there is none; so it is right as long as nothing
stale is cached for its key, whatever is cached for others.
-/
import Mathlib.Data.List.Basic

namespace SyeLabs.Lib

variable {K V : Type*} {f : K → Option V} {c c' : List (K × V)} {k : K}
  {v : V}

/-- `c'` is `c` and some of what the map says. -/
structure Grown (f : K → Option V) (c c' : List (K × V)) : Prop where
  kept : ∀ e ∈ c, e ∈ c'
  new : ∀ e ∈ c', e ∈ c ∨ f e.1 = some e.2

/-- A lookup of `k` may answer `v`. -/
def Answers (f : K → Option V) (c : List (K × V)) (k : K) (v : V) : Prop :=
  (k, v) ∈ c ∨ ((∀ v', (k, v') ∉ c) ∧ f k = some v)

/-- Nothing stale is cached for `k`. -/
def Coherent (f : K → Option V) (c : List (K × V)) (k : K) : Prop :=
  ∀ v, (k, v) ∈ c → f k = some v

theorem coherent_nil : Coherent f [] k := fun _ h => nomatch h

/-- Growing adds nothing stale. -/
theorem Coherent.grown (h : Coherent f c k) (hg : Grown f c c') :
    Coherent f c' k := by
  intro v hv
  rcases hg.new _ hv with hold | hnew
  · exact h v hold
  · exact hnew

/-- With nothing stale for its key, a lookup is right. -/
theorem Coherent.answers (h : Coherent f c k) (ha : Answers f c k v) :
    f k = some v := by
  rcases ha with hc | ⟨-, hf⟩
  · exact h v hc
  · exact hf

end SyeLabs.Lib
