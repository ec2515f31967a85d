/-
Records of one length in a stream that is delivered in pieces.

A stream keeps the bytes and their order, not where one record ends:
`pieces` and `records` have the same concatenation and need have nothing
else in common. As many pieces as records, none longer than a record,
are the records themselves (`eq_of_flatten_eq`), and as long as the
pieces are as long as records they are the records
(`take_eq_of_length`).
-/
import Mathlib.Data.List.Basic

namespace SyeLabs.Lib

variable {α : Type*} {n : Nat}

theorem length_flatten_le {pieces : List (List α)}
    (hle : ∀ p ∈ pieces, p.length ≤ n) :
    pieces.flatten.length ≤ pieces.length * n := by
  induction pieces with
  | nil => exact Nat.zero_le _
  | cons p ps ih =>
      obtain ⟨hp, hps⟩ := List.forall_mem_cons.mp hle
      have hrest := ih hps
      rw [List.flatten_cons, List.length_append, List.length_cons,
        Nat.succ_mul]
      omega

theorem length_flatten_eq {records : List (List α)}
    (heq : ∀ r ∈ records, r.length = n) :
    records.flatten.length = records.length * n := by
  induction records with
  | nil => exact (Nat.zero_mul n).symm
  | cons r rs ih =>
      obtain ⟨hr, hrs⟩ := List.forall_mem_cons.mp heq
      rw [List.flatten_cons, List.length_append, List.length_cons,
        Nat.succ_mul, ih hrs, hr, Nat.add_comm]

/-- As many pieces as records, with the same concatenation and none too
long, are the records. -/
theorem eq_of_flatten_eq {pieces records : List (List α)}
    (hle : ∀ p ∈ pieces, p.length ≤ n)
    (heq : ∀ r ∈ records, r.length = n)
    (hlen : pieces.length = records.length)
    (hflat : pieces.flatten = records.flatten) : pieces = records := by
  induction pieces generalizing records with
  | nil => exact (List.length_eq_zero_iff.mp hlen.symm).symm
  | cons p ps ih =>
      cases records with
      | nil => cases hlen
      | cons r rs =>
          obtain ⟨hp, hps⟩ := List.forall_mem_cons.mp hle
          obtain ⟨hr, hrs⟩ := List.forall_mem_cons.mp heq
          have hlen : ps.length = rs.length := Nat.succ.inj hlen
          -- the rest is too short to make up for a short first piece
          have hshort := length_flatten_le hps
          have hfull := length_flatten_eq hrs
          have htotal := congrArg List.length hflat
          rw [List.flatten_cons, List.flatten_cons, List.length_append,
            List.length_append, hfull, ← hlen] at htotal
          have hpr : p.length = r.length := by omega
          obtain ⟨hfirst, hrest⟩ := List.append_inj hflat hpr
          rw [hfirst, ih hps hrs hlen hrest]

/-- Pieces as long as records are records, from the first on. -/
theorem take_eq_of_length (hn : 0 < n) {j : Nat} :
    ∀ {pieces records : List (List α)},
      (∀ p ∈ pieces.take j, p.length = n) →
      (∀ r ∈ records, r.length = n) → j ≤ records.length →
      pieces.flatten = records.flatten →
      pieces.take j = records.take j := by
  induction j with
  | zero => exact fun _ _ _ _ => rfl
  | succ j ih =>
      intro pieces records hlong heq hj hflat
      cases records with
      | nil => cases hj
      | cons r rs =>
          obtain ⟨hr, hrs⟩ := List.forall_mem_cons.mp heq
          cases pieces with
          | nil =>
              have htotal := congrArg List.length hflat
              rw [List.flatten_nil, List.flatten_cons,
                List.length_append, hr, List.length_nil] at htotal
              omega
          | cons p ps =>
              rw [List.take_succ_cons] at hlong
              obtain ⟨hp, hps⟩ := List.forall_mem_cons.mp hlong
              obtain ⟨hfirst, hrest⟩ :=
                List.append_inj hflat (hp.trans hr.symm)
              rw [List.take_succ_cons, List.take_succ_cons, hfirst,
                ih hps hrs (Nat.le_of_succ_le_succ hj) hrest]

end SyeLabs.Lib
