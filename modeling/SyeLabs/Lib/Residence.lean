/-
A two-level store of pages: a fixed number of frames, and a swap area
for the pages that have been in one.

`Residence ι n` cannot be built with more or fewer than `n` resident
pages or with a page in both places. Its one operation puts a page in
the frame of a resident one, which goes to swap; no page is lost by it
(`mem_replace`).
-/
import Mathlib.Data.Finset.Card

namespace SyeLabs.Lib

/-- Which pages are in the `n` frames and which in the swap area. -/
structure Residence (ι : Type*) (n : Nat) where
  ram : Finset ι
  swap : Finset ι
  full : ram.card = n
  disjoint : ∀ q ∈ ram, q ∉ swap

namespace Residence

variable {ι : Type*} [DecidableEq ι] {n : Nat}

/-- The pages the store holds at all. -/
def held (m : Residence ι n) : Finset ι := m.ram ∪ m.swap

theorem mem_held {m : Residence ι n} {q : ι} :
    q ∈ m.held ↔ q ∈ m.ram ∨ q ∈ m.swap := Finset.mem_union

/-- Put `p` in the frame of `v`. -/
def replace (m : Residence ι n) (v p : ι) (hv : v ∈ m.ram)
    (hp : p ∉ m.ram) : Residence ι n where
  ram := insert p (m.ram.erase v)
  swap := (insert v m.swap).erase p
  full := by
    have hnot : p ∉ m.ram.erase v := fun h => hp (Finset.mem_of_mem_erase h)
    have hpos : 0 < m.ram.card := Finset.card_pos.mpr ⟨v, hv⟩
    rw [Finset.card_insert_of_notMem hnot, Finset.card_erase_of_mem hv,
      Nat.sub_add_cancel hpos]
    exact m.full
  disjoint := by
    intro q hq hqs
    obtain ⟨hqp, hqs⟩ := Finset.mem_erase.mp hqs
    obtain ⟨hqv, hqr⟩ :=
      Finset.mem_erase.mp (Finset.mem_of_mem_insert_of_ne hq hqp)
    exact m.disjoint q hqr (Finset.mem_of_mem_insert_of_ne hqs hqv)

/-- Only `p` is new in the store, and nothing has left it. -/
theorem mem_replace {m : Residence ι n} {v p q : ι} {hv : v ∈ m.ram}
    {hp : p ∉ m.ram} :
    q ∈ (m.replace v p hv hp).held ↔ q = p ∨ q ∈ m.held := by
  simp only [mem_held, replace, Finset.mem_insert, Finset.mem_erase]
  by_cases hqp : q = p
  · simp [hqp]
  · by_cases hqv : q = v
    · subst hqv
      simp [hqp, hv]
    · simp [hqp, hqv]

end Residence

end SyeLabs.Lib
