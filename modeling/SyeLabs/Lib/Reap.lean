/-
Reaping the members of a forest one after the other, when a member that
still has children in the list stays.

`reap parent L p` drops `p` from `L` unless some member of `L` has `p`
as its parent. A member is examined once, when its turn comes: one that
stays then stays for good. The main result says which orders empty the
list: exactly those in which every child comes before its parent.
-/
import Mathlib.Data.List.Basic
import Mathlib.Data.List.Nodup

namespace SyeLabs.Lib

variable {ι : Type*} [DecidableEq ι] (parent : ι → Option ι)

/-- Drop `p` unless it is the parent of a member. -/
def reap (L : List ι) (p : ι) : List ι :=
  if ∃ q ∈ L, parent q = some p then L else L.erase p

variable {parent}

theorem reap_of_childless {L : List ι} {p : ι}
    (h : ∀ q ∈ L, parent q ≠ some p) : reap parent L p = L.erase p :=
  if_neg fun ⟨q, hq, hp⟩ => h q hq hp

theorem reap_of_child {L : List ι} {p q : ι} (hq : q ∈ L)
    (hp : parent q = some p) : reap parent L p = L :=
  if_pos ⟨q, hq, hp⟩

theorem reap_nodup {L : List ι} (h : L.Nodup) (p : ι) :
    (reap parent L p).Nodup := by
  unfold reap
  split
  · exact h
  · exact h.erase p

/-- Only `p` can go at the turn of `p`. -/
theorem mem_reap_of_ne {L : List ι} {p q : ι} (h : q ≠ p) :
    q ∈ reap parent L p ↔ q ∈ L := by
  unfold reap
  split
  · exact Iff.rfl
  · exact List.mem_erase_of_ne h

/-- Who is not examined stays. -/
theorem mem_foldl_reap_of_not_mem {order L : List ι} {q : ι}
    (h : q ∉ order) : q ∈ order.foldl (reap parent) L ↔ q ∈ L := by
  induction order generalizing L with
  | nil => exact Iff.rfl
  | cons p ps ih =>
      obtain ⟨hne, hps⟩ : q ≠ p ∧ q ∉ ps := by simpa using h
      rw [List.foldl_cons, ih hps, mem_reap_of_ne hne]

theorem foldl_reap_nodup {L : List ι} (h : L.Nodup) (order : List ι) :
    (order.foldl (reap parent) L).Nodup := by
  induction order generalizing L with
  | nil => exact h
  | cons p ps ih => exact ih (reap_nodup h p)

theorem foldl_reap_subset {L : List ι} (order : List ι) :
    order.foldl (reap parent) L ⊆ L := by
  induction order generalizing L with
  | nil => exact List.Subset.refl L
  | cons p ps ih =>
      intro q hq
      have hq' : q ∈ reap parent L p := ih hq
      unfold reap at hq'
      split at hq'
      · exact hq'
      · exact List.mem_of_mem_erase hq'

/-- A member goes at its turn exactly when its children have gone. -/
theorem not_mem_foldl_reap_iff {pre post L : List ι} {p : ι}
    (hL : L.Nodup) (hp : p ∈ L) (hpre : p ∉ pre) (hpost : p ∉ post) :
    p ∉ (pre ++ p :: post).foldl (reap parent) L ↔
      ∀ q ∈ pre.foldl (reap parent) L, parent q ≠ some p := by
  rw [List.foldl_append, List.foldl_cons, mem_foldl_reap_of_not_mem hpost]
  constructor
  · intro h q hq hqp
    rw [reap_of_child hq hqp] at h
    exact h ((mem_foldl_reap_of_not_mem hpre).mpr hp)
  · intro h
    rw [reap_of_childless h]
    exact (foldl_reap_nodup hL pre).not_mem_erase

/-- Once every member of the order has been examined, all of them are
gone exactly when each child came before its parent. -/
theorem foldl_reap_iff {L order : List ι} (hL : L.Nodup)
    (horder : order.Nodup) (hsub : ∀ p ∈ order, p ∈ L) :
    (∀ p ∈ order, p ∉ order.foldl (reap parent) L) ↔
      ∀ p ∈ order, ∀ q ∈ L, parent q = some p →
        order.idxOf q < order.idxOf p := by
  -- both sides speak of the split of the order at `p`
  have hsplit : ∀ p ∈ order, ∃ pre post, order = pre ++ p :: post
      ∧ p ∉ pre ∧ p ∉ post
      ∧ ∀ q, order.idxOf q < order.idxOf p ↔ q ∈ pre := by
    intro p hp
    obtain ⟨pre, post, rfl, hpre⟩ := List.eq_append_cons_of_mem hp
    have hpost : p ∉ post :=
      (List.nodup_cons.mp (List.nodup_append.mp horder).2.1).1
    refine ⟨pre, post, rfl, hpre, hpost, fun q => ?_⟩
    rw [List.idxOf_append_of_notMem hpre, List.idxOf_cons_self,
      Nat.add_zero]
    constructor
    · intro hlt
      by_contra hq
      rw [List.idxOf_append_of_notMem hq] at hlt
      omega
    · intro hq
      rw [List.idxOf_append_of_mem hq]
      exact List.idxOf_lt_length_of_mem hq
  constructor
  · intro hgone p hp q hq hqp
    obtain ⟨pre, post, heq, hpre, hpost, hidx⟩ := hsplit p hp
    rw [hidx]
    by_contra hnot
    have hchildless := (not_mem_foldl_reap_iff hL (hsub p hp) hpre
      hpost).mp (heq ▸ hgone p hp)
    exact hchildless q ((mem_foldl_reap_of_not_mem hnot).mpr hq) hqp
  · intro hfirst
    -- by induction on the position of `p`: the members before it are gone
    have hind : ∀ n, ∀ p ∈ order, order.idxOf p = n →
        p ∉ order.foldl (reap parent) L := by
      intro n
      induction n using Nat.strongRecOn with
      | ind n ih =>
          intro p hp heq
          subst heq
          obtain ⟨pre, post, heq, hpre, hpost, hidx⟩ := hsplit p hp
          have hgone : ∀ q ∈ pre.foldl (reap parent) L,
              parent q ≠ some p := by
            intro q hq hqp
            have hqL : q ∈ L := foldl_reap_subset pre hq
            have hqpre : q ∈ pre :=
              (hidx q).mp (hfirst p hp q hqL hqp)
            have hqrest : q ∉ p :: post := by
              rw [heq, List.nodup_append] at horder
              exact fun h => horder.2.2 q hqpre q h rfl
            have hqorder : q ∈ order :=
              heq ▸ List.mem_append_left _ hqpre
            apply ih _ ((hidx q).mpr hqpre) q hqorder rfl
            rw [heq, List.foldl_append]
            exact (mem_foldl_reap_of_not_mem hqrest).mpr hq
          exact heq ▸ (not_mem_foldl_reap_iff hL (hsub p hp) hpre
            hpost).mpr hgone
    exact fun p hp => hind _ p hp rfl

end SyeLabs.Lib
