/-
Which processes `count_parallel` creates.

# The good case

`Asked` is what the program should do, as a property of every state it
can reach, and `Creates` adds that it returns. Both hold for up to ten
children whose `execl` succeeds, but for the last one's, which may fail:
that child finds the loop at its end. The invariant (`Inv`) follows the
original process through its phases; `c` counts the children it has
waited for, which are the first `c`.

# The others

A negative `n` creates a child where none is asked for; a child whose
`execl` fails goes on with the loop and forks; the eleventh number does
not fit `id`. `creates_iff` says that these are all.
-/
import Mathlib.Data.Nat.Find
import SyeLabs.CountParallel.Ends

namespace SyeLabs.CountParallel

open Lib

variable {n : Int} {mode : Mode} {ok : List Nat → Bool}

-- =========================================================== what is asked for

/-- The original process may still go on or has returned, with all its
children created and each waited for once; no other process has forked;
nothing is undefined; and of sequential children one at most is alive. -/
structure Asked (n : Int) (mode : Mode) (ok : List Nat → Bool) (s : Sys) :
    Prop where
  defined : ∀ p ∈ s, p.pc ≠ .undefined
  forks : ∀ p ∈ s, p.parent = none ∨ p.parent = some 0
  bounded : s.length ≤ 1 + n.toNat
  once : ∀ p ∈ s, p.waited ≤ 1
  returned : ∀ o, s[0]? = some o → o.pc = .exited →
    s.length = 1 + n.toNat ∧ ∀ p ∈ s.tail, p.waited = 1
  alone : mode = .sequential →
    (s.tail.filter (·.pc ≠ .exited)).length ≤ 1
  goesOn : ∀ o, s[0]? = some o → o.pc ≠ .exited →
    ∃ k s', step n mode ok s k = some s'

/-- So in every state that it can reach, and it cannot go on for ever: a
run as long as it can be ends with the original process returned. -/
def Creates (n : Int) (mode : Mode) (ok : List Nat → Bool) : Prop :=
  (∀ s, Reached n mode ok s → Asked n mode ok s)
    ∧ ∃ b, ∀ ks s, run (step n mode ok) init ks = some s → ks.length ≤ b

/-- The number of children is not negative and has one digit or is 10, and
`execl` succeeds in all of them but the last. -/
def CanCreate (n : Int) (ok : List Nat → Bool) : Prop :=
  0 ≤ n ∧ n ≤ 10 ∧ ∀ i : Nat, (i : Int) + 1 < n → ok [i] = true

-- =============================================================== the invariant

/-- The child created with the counter `j`. After a failed `execl` it is
the last one, and finds the first loop at its end. -/
structure Kid (n : Int) (mode : Mode) (j : Nat) (q : Proc) : Prop where
  path : q.path = [j]
  parent : q.parent = some 0
  pids : q.pids.length = maxChilds
  le : j < n.toNat
  phase : q.pc = .exec ∧ q.i = j ∨ q.pc = .count ∨ q.pc = .exited
    ∨ j + 1 = n.toNat ∧ (q.pc = .create ∧ q.i = n.toNat ∨ q.pc = .collect)

/-- The children, of which the first `c` have been waited for. -/
structure Kids (n : Int) (mode : Mode) (c : Nat) (kids : Sys) : Prop where
  kid : ∀ {j q}, kids[j]? = some q → Kid n mode j q
  waited : ∀ {j q}, kids[j]? = some q → q.waited = if j < c then 1 else 0
  ended : ∀ {j q}, kids[j]? = some q → j < c → q.pc = .exited

/-- How many of `m` children have been waited for before the next is
created. -/
def collected (mode : Mode) (m : Nat) : Nat :=
  match mode with
  | .sequential => m
  | .parallel => 0

/-- The original process, with `m` children of which it has waited for
`c`. -/
structure Orig (n : Int) (mode : Mode) (o : Proc) (m c : Nat) : Prop where
  path : o.path = []
  parent : o.parent = none
  waited : o.waited = 0
  length : o.pids.length = maxChilds
  pids : ∀ j < m, o.pids[j]? = some (j + 1)
  le : m ≤ n.toNat
  phase : (o.pc = .create ∧ o.i = m ∧ c = collected mode m)
    ∨ (mode = .sequential ∧ o.pc = .wait m ∧ o.i + 1 = m ∧ c + 1 = m)
    ∨ (mode = .parallel ∧ o.pc = .collect ∧ m = n.toNat ∧ o.i = c ∧ c ≤ m)
    ∨ (o.pc = .exited ∧ m = n.toNat ∧ c = m)

/-- What holds of every state reached, where no child goes wrong. -/
def Inv (n : Int) (mode : Mode) (s : Sys) : Prop :=
  ∃ o kids c, s = o :: kids ∧ Orig n mode o kids.length c
    ∧ Kids n mode c kids

theorem toSize_of_canCreate (h : CanCreate n ok) : toSize n = n.toNat := by
  obtain ⟨h0, h10, -⟩ := h
  unfold toSize
  omega

theorem inv_init : Inv n mode init := by
  refine ⟨Proc.original, [], 0, rfl, ⟨rfl, rfl, rfl, rfl, ?_, Nat.zero_le _,
    Or.inl ⟨rfl, rfl, ?_⟩⟩, ?_, ?_, ?_⟩
  · exact fun j hj => absurd hj (Nat.not_lt_zero j)
  · cases mode <;> rfl
  · exact fun h => by cases h
  · exact fun h => by cases h
  · exact fun h => by cases h

-- ==================================================================== children

/-- What a list holds after one entry has been replaced. -/
theorem getElem?_set_cases {l : Sys} {i j : Nat} {q r : Proc}
    (h : (l.set j q)[i]? = some r) :
    (i = j ∧ r = q) ∨ (i ≠ j ∧ l[i]? = some r) := by
  by_cases hij : i = j
  · subst hij
    obtain ⟨hlt, hr⟩ := List.getElem?_eq_some_iff.mp h
    rw [List.getElem_set_self] at hr
    exact Or.inl ⟨rfl, hr.symm⟩
  · rw [List.getElem?_set_ne (Ne.symm hij)] at h
    exact Or.inr ⟨hij, h⟩

/-- A child acts on its own. -/
theorem Kids.set {c j : Nat} {kids : Sys} {q q' : Proc}
    (h : Kids n mode c kids) (hq : kids[j]? = some q) (hkid : Kid n mode j q')
    (hwaited : q'.waited = q.waited) (hended : q.pc ≠ .exited) :
    Kids n mode c (kids.set j q') := by
  constructor
  · intro i r hr
    rcases getElem?_set_cases hr with ⟨rfl, rfl⟩ | ⟨-, hr⟩
    · exact hkid
    · exact h.kid hr
  · intro i r hr
    rcases getElem?_set_cases hr with ⟨rfl, rfl⟩ | ⟨-, hr⟩
    · rw [hwaited, h.waited hq]
    · exact h.waited hr
  · intro i r hr hi
    rcases getElem?_set_cases hr with ⟨rfl, rfl⟩ | ⟨-, hr⟩
    · exact absurd (h.ended hq hi) hended
    · exact h.ended hr hi

/-- The next child is waited for. -/
theorem Kids.collect {c : Nat} {kids : Sys} {q : Proc}
    (h : Kids n mode c kids) (hq : kids[c]? = some q)
    (hended : q.pc = .exited) :
    Kids n mode (c + 1)
      (kids.set c { q with waited := q.waited + 1 }) := by
  constructor
  · intro i r hr
    rcases getElem?_set_cases hr with ⟨rfl, rfl⟩ | ⟨-, hr⟩
    · obtain ⟨hpath, hparent, hpids, hle, hphase⟩ := h.kid hq
      exact ⟨hpath, hparent, hpids, hle, hphase⟩
    · exact h.kid hr
  · intro i r hr
    rcases getElem?_set_cases hr with ⟨rfl, rfl⟩ | ⟨hi, hr⟩
    · simp [h.waited hq]
    · rw [h.waited hr]
      exact if_congr (by omega) rfl rfl
  · intro i r hr hi
    rcases getElem?_set_cases hr with ⟨rfl, rfl⟩ | ⟨hne, hr⟩
    · exact hended
    · exact h.ended hr (by omega)

/-- A child is created. -/
theorem Kids.append {c : Nat} {kids : Sys} {q : Proc}
    (h : Kids n mode c kids) (hc : c ≤ kids.length)
    (hkid : Kid n mode kids.length q) (hwaited : q.waited = 0) :
    Kids n mode c (kids ++ [q]) := by
  have hcases : ∀ {i r}, (kids ++ [q])[i]? = some r →
      (i = kids.length ∧ r = q) ∨ kids[i]? = some r := by
    intro i r hr
    rcases Nat.lt_trichotomy i kids.length with hi | hi | hi
    · rw [List.getElem?_append_left hi] at hr
      exact Or.inr hr
    · subst hi
      simp only [List.getElem?_concat_length] at hr
      exact Or.inl ⟨rfl, (Option.some.inj hr).symm⟩
    · rw [List.getElem?_eq_none (by simp; omega)] at hr
      cases hr
  constructor
  · intro i r hr
    rcases hcases hr with ⟨rfl, rfl⟩ | hr
    · exact hkid
    · exact h.kid hr
  · intro i r hr
    rcases hcases hr with ⟨rfl, rfl⟩ | hr
    · rw [hwaited, if_neg (Nat.not_lt.mpr hc)]
    · exact h.waited hr
  · intro i r hr hi
    rcases hcases hr with ⟨rfl, rfl⟩ | hr
    · exact absurd hi (Nat.not_lt.mpr hc)
    · exact h.ended hr hi

/-- `waitpid` returns at once where the process is no child of the
caller. -/
theorem waitpid_foreign {s : Sys} {k child : Nat}
    (h : ∀ q, s[child]? = some q → q.parent ≠ some k) :
    waitpid s k child = some s := by
  unfold waitpid
  cases hq : s[child]? with
  | none => rfl
  | some q =>
      have hne := h q hq
      simp only [hne, false_and, if_false]

/-- Whatever process is meant, it is no child of a child. -/
theorem Kids.foreign {c j : Nat} {o : Proc} {kids : Sys}
    (h : Kids n mode c kids) (ho : o.parent = none) (child : Nat) :
    waitpid (o :: kids) (j + 1) child = some (o :: kids) := by
  apply waitpid_foreign
  intro q hq
  cases child with
  | zero =>
      cases hq
      simp [ho]
  | succ i =>
      have hkid : kids[i]? = some q := hq
      rw [(h.kid hkid).parent]
      simp

/-- A child that has not ended can act, and stays a child as the invariant
has it. -/
theorem kid_act {c j : Nat} {o q : Proc} {kids : Sys}
    (hcan : CanCreate n ok) (ho : o.parent = none)
    (hkids : Kids n mode c kids) (hq : kids[j]? = some q)
    (hpc : q.pc ≠ .exited) :
    ∃ q', act n mode ok (o :: kids) (j + 1) q = some (o :: kids.set j q')
      ∧ Kid n mode j q' ∧ q'.waited = q.waited := by
  obtain ⟨hpath, hparent, hpids, hle, hphase⟩ := hkids.kid hq
  have hsize := toSize_of_canCreate hcan
  have hget : (o :: kids)[j + 1]? = some q := hq
  rcases hphase with ⟨hat, hi⟩ | hat | hat | ⟨hlast, ⟨hat, hi⟩ | hat⟩
  · -- `execl`
    by_cases hok : ok q.path = true
    · refine ⟨{ q with pc := .count }, ?_,
        ⟨hpath, hparent, hpids, hle, Or.inr (Or.inl rfl)⟩, rfl⟩
      simp only [act, hat, hok, if_true]
      rfl
    · have hlast : j + 1 = n.toNat := by
        by_contra hne
        refine hok ?_
        rw [hpath]
        exact hcan.2.2 j (by omega)
      refine ⟨{ q with pc := .create, i := q.i + 1 }, ?_,
        ⟨hpath, hparent, hpids, hle, ?_⟩, rfl⟩
      · simp only [act, hat, hok]
        rfl
      · exact Or.inr (Or.inr (Or.inr
          ⟨hlast, Or.inl ⟨rfl, by rw [← hlast, ← hi]⟩⟩))
  · refine ⟨{ q with pc := .exited }, ?_,
      ⟨hpath, hparent, hpids, hle, Or.inr (Or.inr (Or.inl rfl))⟩, rfl⟩
    simp only [act, hat]
    rfl
  · exact absurd hat hpc
  · -- the first loop is at its end
    have hdone : ¬ q.i < toSize n := by omega
    refine ⟨q.created mode, ?_, ?_, by cases mode <;> rfl⟩
    · simp only [act, hat, hdone, if_false]
      rfl
    · cases mode with
      | sequential =>
          exact ⟨hpath, hparent, hpids, hle, Or.inr (Or.inr (Or.inl rfl))⟩
      | parallel =>
          exact ⟨hpath, hparent, hpids, hle,
            Or.inr (Or.inr (Or.inr ⟨hlast, Or.inr rfl⟩))⟩
  · by_cases hmore : q.i < toSize n
    · -- it waits for none of the processes in its copy of `pids`
      have hlt : q.i < q.pids.length := by
        have := hcan.2.1
        rw [hpids, maxChilds]
        omega
      have hnext : next (o :: kids) (j + 1) .collect = some
          (o :: kids.set j { q with pc := .collect, i := q.i + 1 }) := by
        rw [next, hget]
        rfl
      refine ⟨{ q with pc := .collect, i := q.i + 1 }, ?_,
        ⟨hpath, hparent, hpids, hle,
          Or.inr (Or.inr (Or.inr ⟨hlast, Or.inr rfl⟩))⟩, rfl⟩
      simp only [act, hat, hmore, if_true, List.getElem?_eq_getElem hlt,
        hkids.foreign ho, Option.bind_some, hnext]
      split <;> rfl
    · refine ⟨{ q with pc := .exited }, ?_,
        ⟨hpath, hparent, hpids, hle, Or.inr (Or.inr (Or.inl rfl))⟩, rfl⟩
      simp only [act, hat, hmore, if_false]
      rfl

-- ======================================================== the original process

/-- A child that has ended and not been waited for is returned by
`waitpid`; while it has not ended, the call blocks. -/
theorem Kids.waitpid {c : Nat} {o q : Proc} {kids : Sys}
    (h : Kids n mode c kids) (hq : kids[c]? = some q) :
    CountParallel.waitpid (o :: kids) 0 (c + 1)
      = if q.pc = .exited then
          some (o :: kids.set c { q with waited := q.waited + 1 })
        else none := by
  have hget : (o :: kids)[c + 1]? = some q := hq
  have hwaited : q.waited = 0 := by
    rw [h.waited hq, if_neg (Nat.lt_irrefl c)]
  rw [CountParallel.waitpid, hget]
  simp only [(h.kid hq).parent, hwaited, true_and, if_true]
  rfl

/-- `fork`, while a child is asked for. -/
theorem Orig.fork {c : Nat} {o : Proc} {kids : Sys}
    (h : Orig n mode o kids.length c) (hkids : Kids n mode c kids)
    (hat : o.pc = .create) (hi : o.i = kids.length)
    (hc : c = collected mode kids.length)
    (hmore : kids.length < n.toNat) (hten : n.toNat ≤ 10) :
    Inv n mode (o.forked mode (kids.length + 1) :: (kids ++ [o.child 0])) := by
  obtain ⟨hpath, hparent, hwaited, hlength, hpids, -, -⟩ := h
  have hroom : o.i < o.pids.length := by
    rw [hlength, maxChilds]
    omega
  have hle : c ≤ kids.length := by
    cases mode with
    | sequential => exact Nat.le_of_eq hc
    | parallel => exact hc ▸ Nat.zero_le _
  have hpids' : ∀ j < kids.length + 1,
      (o.pids.set o.i (kids.length + 1))[j]? = some (j + 1) := by
    intro j hj
    by_cases hji : j = kids.length
    · rw [hji, ← hi, List.getElem?_set_self hroom, hi]
    · rw [List.getElem?_set_ne (by omega)]
      exact hpids j (by omega)
  refine ⟨_, _, c, rfl, ?_, hkids.append hle ?_ rfl⟩
  · rw [List.length_append, List.length_singleton]
    cases mode with
    | sequential =>
        exact ⟨hpath, hparent, hwaited, by simp [Proc.forked, hlength],
          hpids', hmore, Or.inr (Or.inl ⟨rfl, rfl,
            congrArg (· + 1) hi, congrArg (· + 1) hc⟩)⟩
    | parallel =>
        exact ⟨hpath, hparent, hwaited, by simp [Proc.forked, hlength],
          hpids', hmore, Or.inl ⟨hat, congrArg (· + 1) hi, hc⟩⟩
  · refine ⟨?_, rfl, ?_, hmore, Or.inl ⟨rfl, hi⟩⟩
    · simp [Proc.child, hpath, hi]
    · simp [Proc.child, hlength]

/-- The next child is waited for, if it has ended. -/
theorem Kids.waited_for {c : Nat} {o : Proc} {kids : Sys} {pc : Pc}
    (h : Kids n mode c kids) (hc : c < kids.length)
    (horig : Orig n mode { o with pc, i := o.i + 1 } kids.length (c + 1)) :
    (∃ s', ((CountParallel.waitpid (o :: kids) 0 (c + 1)).bind fun s' =>
        next s' 0 pc) = some s' ∧ Inv n mode s')
      ∨ ((CountParallel.waitpid (o :: kids) 0 (c + 1)).bind fun s' =>
          next s' 0 pc) = none
        ∧ ∃ q, kids[c]? = some q ∧ q.pc ≠ .exited := by
  have hq := List.getElem?_eq_getElem hc
  rw [h.waitpid hq]
  by_cases hended : kids[c].pc = .exited
  · left
    rw [if_pos hended, Option.bind_some]
    refine ⟨_, rfl, _, _, c + 1, rfl, ?_, h.collect hq hended⟩
    rw [List.length_set]
    exact horig
  · right
    rw [if_neg hended]
    exact ⟨rfl, _, hq, hended⟩

/-- What the original process does next, unless it has returned; it may
have to wait for a child that has not ended. -/
theorem orig_act {c : Nat} {o : Proc} {kids : Sys} (hcan : CanCreate n ok)
    (h : Orig n mode o kids.length c) (hkids : Kids n mode c kids)
    (hpc : o.pc ≠ .exited) :
    (∃ s', act n mode ok (o :: kids) 0 o = some s' ∧ Inv n mode s')
      ∨ act n mode ok (o :: kids) 0 o = none
        ∧ ∃ q, kids[c]? = some q ∧ q.pc ≠ .exited := by
  have hsize := toSize_of_canCreate hcan
  have hten : n.toNat ≤ 10 := by
    have := hcan.2.1
    omega
  obtain ⟨hpath, hparent, hwaited, hlength, hpids, hle, hphase⟩ := id h
  rcases hphase with ⟨hat, hi, hc⟩ | ⟨rfl, hat, hi, hc⟩
    | ⟨rfl, hat, hall, hi, hc⟩ | ⟨hat, -⟩
  · -- the first loop
    left
    by_cases hmore : kids.length < n.toNat
    · refine ⟨_, ?_, h.fork hkids hat hi hc hmore hten⟩
      have hfits : idFits o.i = true ∧ o.i < o.pids.length := by
        rw [hlength, idFits, idLength, maxChilds]
        exact ⟨decide_eq_true (by omega), by omega⟩
      simp only [act, hat, hsize, hi ▸ hmore, if_true, hfits, and_self]
      rfl
    · have hall : kids.length = n.toNat := by omega
      refine ⟨o.created mode :: kids, ?_, _, kids, c, rfl, ?_, hkids⟩
      · simp only [act, hat, hsize, hi ▸ hmore, if_false]
        rfl
      · cases mode with
        | sequential =>
            exact ⟨hpath, hparent, hwaited, hlength, hpids, hle,
              Or.inr (Or.inr (Or.inr ⟨rfl, hall, hc⟩))⟩
        | parallel =>
            exact ⟨hpath, hparent, hwaited, hlength, hpids, hle,
              Or.inr (Or.inr (Or.inl
                ⟨rfl, rfl, hall, hc.symm, hc ▸ Nat.zero_le _⟩))⟩
  · -- `waitpid` in the first loop
    have hact : act n .sequential ok (o :: kids) 0 o
        = (waitpid (o :: kids) 0 (c + 1)).bind fun s' =>
            next s' 0 .create := by
      simp only [act, hat, hc]
    rw [hact]
    exact hkids.waited_for (by omega) ⟨hpath, hparent, hwaited, hlength,
      hpids, hle, Or.inl ⟨rfl, hi, hc⟩⟩
  · by_cases hmore : c < kids.length
    · -- `waitpid` in the second loop
      have hact : act n .parallel ok (o :: kids) 0 o
          = (waitpid (o :: kids) 0 (c + 1)).bind fun s' =>
              next s' 0 .collect := by
        simp only [act, hat, hsize, hi, ← hall, hmore, if_true, hpids c hmore,
          Nat.add_one_ne_zero, if_false]
      rw [hact]
      exact hkids.waited_for hmore ⟨hpath, hparent, hwaited, hlength, hpids,
        hle, Or.inr (Or.inr (Or.inl
          ⟨rfl, rfl, hall, congrArg (· + 1) hi, hmore⟩))⟩
    · left
      have hdone : c = kids.length := by omega
      refine ⟨{ o with pc := .exited } :: kids, ?_, _, kids, c, rfl,
        ⟨hpath, hparent, hwaited, hlength, hpids, hle,
          Or.inr (Or.inr (Or.inr ⟨rfl, hall, hdone⟩))⟩, hkids⟩
      simp only [act, hat, hsize, hi, ← hall, hmore, if_false]
      rfl
  · exact absurd hat hpc

-- ==================================================================== the runs

/-- One step keeps the invariant. -/
theorem inv_step (hcan : CanCreate n ok) {s s' : Sys} {k : Nat}
    (h : Inv n mode s) (hstep : step n mode ok s k = some s') :
    Inv n mode s' := by
  obtain ⟨o, kids, c, rfl, horig, hkids⟩ := h
  obtain ⟨p, hp, hact⟩ := Option.bind_eq_some_iff.mp hstep
  have hpc : p.pc ≠ .exited := by
    intro hended
    simp only [act, hended] at hact
    cases hact
  cases k with
  | zero =>
      cases hp
      rcases orig_act hcan horig hkids hpc with ⟨t, ht, hinv⟩ | ⟨hnone, -⟩
      · rw [ht] at hact
        cases hact
        exact hinv
      · rw [hnone] at hact
        cases hact
  | succ j =>
      have hq : kids[j]? = some p := hp
      obtain ⟨q', hq', hkid, hwaited⟩ :=
        kid_act hcan horig.parent hkids hq hpc
      rw [hq'] at hact
      cases hact
      refine ⟨o, _, c, rfl, ?_, hkids.set hq hkid hwaited hpc⟩
      rw [List.length_set]
      exact horig

theorem inv_reached (hcan : CanCreate n ok) {s : Sys}
    (h : Reached n mode ok s) : Inv n mode s := by
  obtain ⟨ks, hrun⟩ := h
  exact run_inv (fun _ _ _ hinv hstep => inv_step hcan hinv hstep) inv_init
    hrun

theorem Kid.defined {j : Nat} {q : Proc} (h : Kid n mode j q) :
    q.pc ≠ .undefined := by
  intro hat
  have hphase := h.phase
  rw [hat] at hphase
  simp at hphase

theorem Orig.defined {o : Proc} {m c : Nat} (h : Orig n mode o m c) :
    o.pc ≠ .undefined := by
  intro hat
  have hphase := h.phase
  rw [hat] at hphase
  simp at hphase

/-- The children not waited for: one at most in sequential mode. -/
theorem Orig.alone {o : Proc} {m c : Nat}
    (h : Orig n .sequential o m c) : m ≤ c + 1 := by
  rcases h.phase with ⟨-, -, hc⟩ | ⟨-, -, -, hc⟩ | ⟨hmode, -⟩ | ⟨-, -, hc⟩
  · exact hc ▸ Nat.le_succ m
  · exact Nat.le_of_eq hc.symm
  · cases hmode
  · exact hc ▸ Nat.le_succ m

theorem Orig.returned {o : Proc} {m c : Nat} (h : Orig n mode o m c)
    (hat : o.pc = .exited) : m = n.toNat ∧ c = m := by
  have hphase := h.phase
  rw [hat] at hphase
  simpa using hphase

/-- Only children that have not been waited for can be alive. -/
theorem Kids.alive {c : Nat} {kids : Sys} (h : Kids n mode c kids) :
    (kids.filter (·.pc ≠ .exited)).length ≤ kids.length - c := by
  have htake : (kids.take c).filter (·.pc ≠ .exited) = [] := by
    refine List.filter_eq_nil_iff.mpr fun q hq => ?_
    obtain ⟨j, hj, rfl⟩ := List.mem_take_iff_getElem.mp hq
    have hended := h.ended (List.getElem?_eq_getElem (by omega)) (j := j)
      (by omega)
    simpa using hended
  calc (kids.filter (·.pc ≠ .exited)).length
      = ((kids.take c ++ kids.drop c).filter (·.pc ≠ .exited)).length := by
        rw [List.take_append_drop]
    _ = ((kids.drop c).filter (·.pc ≠ .exited)).length := by
        rw [List.filter_append, htake, List.nil_append]
    _ ≤ (kids.drop c).length := List.length_filter_le _ _
    _ = kids.length - c := List.length_drop

/-- Every state with the invariant is as asked for. -/
theorem Inv.asked (hcan : CanCreate n ok) {s : Sys} (h : Inv n mode s) :
    Asked n mode ok s := by
  obtain ⟨o, kids, c, rfl, horig, hkids⟩ := h
  have hmem : ∀ {q}, q ∈ kids → ∃ j, kids[j]? = some q :=
    List.mem_iff_getElem?.mp
  constructor
  · refine List.forall_mem_cons.mpr ⟨horig.defined, fun q hq => ?_⟩
    obtain ⟨j, hj⟩ := hmem hq
    exact (hkids.kid hj).defined
  · refine List.forall_mem_cons.mpr ⟨Or.inl horig.parent, fun q hq => ?_⟩
    obtain ⟨j, hj⟩ := hmem hq
    exact Or.inr (hkids.kid hj).parent
  · have := horig.le
    rw [List.length_cons]
    omega
  · refine List.forall_mem_cons.mpr
      ⟨horig.waited ▸ Nat.zero_le 1, fun q hq => ?_⟩
    obtain ⟨j, hj⟩ := hmem hq
    rw [hkids.waited hj]
    split <;> decide
  · intro o' ho hat
    cases ho
    obtain ⟨hm, hc⟩ := horig.returned hat
    refine ⟨by rw [List.length_cons, hm, Nat.add_comm], fun q hq => ?_⟩
    obtain ⟨j, hj⟩ := hmem hq
    have hlt := (List.getElem?_eq_some_iff.mp hj).1
    rw [hkids.waited hj, if_pos (hc ▸ hlt)]
  · rintro rfl
    have halive := hkids.alive
    have halone := horig.alone
    rw [List.tail_cons]
    omega
  · intro o' ho hpc
    cases ho
    rcases orig_act hcan horig hkids hpc with ⟨s', hs', -⟩ | ⟨-, q, hq, hat⟩
    · exact ⟨0, s', hs'⟩
    · obtain ⟨q', hq', -⟩ := kid_act hcan horig.parent hkids hq hat
      have hget : (o :: kids)[c + 1]? = some q := hq
      exact ⟨c + 1, _, by rw [step, hget]; exact hq'⟩

-- ============================================================= what goes wrong

theorem reached_init : Reached n mode ok init := ⟨[], rfl⟩

theorem Reached.next {s s' : Sys} {k : Nat} (h : Reached n mode ok s)
    (hstep : step n mode ok s k = some s') : Reached n mode ok s' := by
  obtain ⟨ks, hrun⟩ := h
  exact ⟨ks ++ [k], by rw [run_concat, hrun, Option.bind_some, hstep]⟩

/-- A process before the test of the first loop. -/
structure AtTest (p : Proc) (m : Nat) : Prop where
  pc : p.pc = .create
  i : p.i = m
  length : p.pids.length = maxChilds

/-- It forks, wherever it stands in the tree, while the number is below
`n` and has one digit. -/
theorem AtTest.fork {p : Proc} {m : Nat} (h : AtTest p m) (s : Sys) (k : Nat)
    (hm : m < toSize n) (hfits : m < 10) :
    act n mode ok s k p
      = some (s.set k (p.forked mode s.length) ++ [p.child k]) := by
  have hroom : idFits p.i = true ∧ p.i < p.pids.length := by
    rw [h.i, h.length, idFits, idLength, maxChilds]
    exact ⟨decide_eq_true (by omega), by omega⟩
  simp only [act, h.pc, h.i ▸ hm, if_true, hroom, and_self]

/-- A number with two digits does not fit. -/
theorem AtTest.overflow {p : Proc} {m : Nat} (h : AtTest p m) (s : Sys)
    (k : Nat) (hm : m < toSize n) (hfits : ¬ m < 10) :
    act n mode ok s k p = some (s.set k { p with pc := .undefined }) := by
  have hroom : ¬ (idFits p.i = true ∧ p.i < p.pids.length) := by
    rw [h.i, idFits, idLength]
    exact fun hroom => hfits (by simpa using hroom.1)
  simp only [act, h.pc, h.i ▸ hm, if_true, hroom, if_false]

/-- The last process created. -/
theorem step_last (o q : Proc) (kids : Sys) :
    step n mode ok (o :: (kids ++ [q])) (kids.length + 1)
      = act n mode ok (o :: (kids ++ [q])) (kids.length + 1) q := by
  have hget : (o :: (kids ++ [q]))[kids.length + 1]? = some q := by simp
  rw [step, hget]
  rfl

theorem set_last (o q q' : Proc) (kids : Sys) :
    (o :: (kids ++ [q])).set (kids.length + 1) q'
      = o :: (kids ++ [q']) := by
  simp

/-- While its children succeed, the original process comes to create the
next one. -/
theorem reached_test {m : Nat} (hm : m ≤ toSize n) (hten : m ≤ 10)
    (hok : ∀ j < m, ok [j] = true) :
    ∃ o kids, Reached n mode ok (o :: kids) ∧ AtTest o m ∧ o.path = [] := by
  induction m with
  | zero =>
      exact ⟨Proc.original, [], reached_init, ⟨rfl, rfl, rfl⟩, rfl⟩
  | succ m ih =>
      obtain ⟨o, kids, hreached, htest, hpath⟩ :=
        ih (by omega) (by omega) fun j hj => hok j (by omega)
      have hfork : step n mode ok (o :: kids) 0
          = some (o.forked mode (kids.length + 1)
              :: (kids ++ [o.child 0])) :=
        htest.fork _ 0 (by omega) (by omega)
      have hreached' := hreached.next hfork
      cases mode with
      | parallel =>
          exact ⟨_, _, hreached', ⟨htest.pc, congrArg (· + 1) htest.i,
            by simp [Proc.forked, htest.length]⟩, hpath⟩
      | sequential =>
          -- the child becomes `count.elf`, ends and is waited for
          have hsucceeds : ok (o.child 0).path = true := by
            simpa [Proc.child, hpath, htest.i] using hok m (Nat.lt_succ_self m)
          have hexec : step n .sequential ok
              (o.forked .sequential (kids.length + 1)
                :: (kids ++ [o.child 0])) (kids.length + 1)
              = some (o.forked .sequential (kids.length + 1)
                :: (kids ++ [{ o.child 0 with pc := .count }])) := by
            rw [step_last]
            show (if ok (o.child 0).path then _ else _) = _
            rw [if_pos hsucceeds, set_last]
          have hend : step n .sequential ok
              (o.forked .sequential (kids.length + 1)
                :: (kids ++ [{ o.child 0 with pc := .count }]))
              (kids.length + 1)
              = some (o.forked .sequential (kids.length + 1)
                :: (kids ++ [{ o.child 0 with pc := .exited }])) := by
            rw [step_last]
            show some _ = _
            rw [set_last]
          have hwait : step n .sequential ok
              (o.forked .sequential (kids.length + 1)
                :: (kids ++ [{ o.child 0 with pc := .exited }])) 0
              = some ({ o.forked .sequential (kids.length + 1) with
                  pc := .create, i := o.i + 1 }
                :: (kids ++ [{ o.child 0 with
                  pc := .exited, waited := 1 }])) := by
            show (waitpid _ 0 (kids.length + 1)).bind _ = _
            have hget : (o.forked .sequential (kids.length + 1)
                :: (kids ++ [{ o.child 0 with pc := .exited }]))[
                  kids.length + 1]?
                = some { o.child 0 with pc := .exited } := by simp
            rw [waitpid, hget]
            simp only [Proc.child, and_self, if_true, set_last,
              Option.bind_some]
            rfl
          exact ⟨_, _, ((hreached'.next hexec).next hend).next hwait,
            ⟨rfl, congrArg (· + 1) htest.i,
              by simp [Proc.forked, htest.length]⟩, hpath⟩

/-- A negative `n` creates a child. -/
theorem not_asked_of_neg (hint : -2 ^ 31 ≤ n) (hneg : n < 0) :
    ∃ s, Reached n mode ok s ∧ ¬ Asked n mode ok s := by
  have hpos : 0 < toSize n := by
    unfold toSize
    omega
  have htest : AtTest Proc.original 0 := ⟨rfl, rfl, rfl⟩
  have hact : act n mode ok init 0 Proc.original
      = some [Proc.original.forked mode 1, Proc.original.child 0] := by
    rw [htest.fork init 0 hpos (by decide)]
    rfl
  have hfork : step n mode ok init 0 = some _ := hact
  refine ⟨_, reached_init.next hfork, fun h => ?_⟩
  have hlen := h.bounded
  rw [Int.toNat_of_nonpos (Int.le_of_lt hneg)] at hlen
  simp at hlen

/-- A child whose `execl` fails goes on to create the next one. -/
theorem not_asked_of_exec {i : Nat} (hi : i + 1 < toSize n) (hten : i < 10)
    (hok : ∀ j < i, ok [j] = true) (hfail : ok [i] ≠ true) :
    ∃ s, Reached n mode ok s ∧ ¬ Asked n mode ok s := by
  obtain ⟨o, kids, hreached, htest, hpath⟩ :
      ∃ o kids, Reached n mode ok (o :: kids) ∧ AtTest o i ∧ o.path = [] :=
    reached_test (by omega) (by omega) hok
  have hfork : step n mode ok (o :: kids) 0
      = some (o.forked mode (kids.length + 1) :: (kids ++ [o.child 0])) :=
    htest.fork _ 0 (by omega) hten
  have hfails : ok (o.child 0).path ≠ true := by
    simpa [Proc.child, hpath, htest.i] using hfail
  have hexec : step n mode ok (o.forked mode (kids.length + 1)
        :: (kids ++ [o.child 0])) (kids.length + 1)
      = some (o.forked mode (kids.length + 1)
        :: (kids ++ [{ o.child 0 with pc := .create, i := o.i + 1 }])) := by
    rw [step_last]
    show (if ok (o.child 0).path then _ else _) = _
    rw [if_neg hfails, set_last]
    rfl
  have hreached' := (hreached.next hfork).next hexec
  generalize hkid : { o.child 0 with pc := .create, i := o.i + 1 } = q
    at hreached'
  have hchild : AtTest q (i + 1) := by
    subst hkid
    exact ⟨rfl, congrArg (· + 1) htest.i, by simp [Proc.child, htest.length]⟩
  by_cases hfits : i + 1 < 10
  · -- its own child has it for a parent
    have hagain : step n mode ok (o.forked mode (kids.length + 1)
          :: (kids ++ [q])) (kids.length + 1) = some _ :=
      (step_last _ _ _).trans (hchild.fork _ _ hi hfits)
    refine ⟨_, hreached'.next hagain, fun h => ?_⟩
    have hforks := h.forks _ (List.mem_append_right _ List.mem_cons_self)
    simp [Proc.child] at hforks
  · have hagain : step n mode ok (o.forked mode (kids.length + 1)
          :: (kids ++ [q])) (kids.length + 1) = some _ :=
      (step_last _ _ _).trans (hchild.overflow _ _ hi hfits)
    refine ⟨_, hreached'.next hagain, fun h => ?_⟩
    rw [set_last] at h
    exact h.defined _ (List.mem_cons_of_mem _
      (List.mem_append_right _ List.mem_cons_self)) rfl

/-- The eleventh number overflows `id`. -/
theorem not_asked_of_many (hmany : 10 < toSize n)
    (hok : ∀ j < 10, ok [j] = true) :
    ∃ s, Reached n mode ok s ∧ ¬ Asked n mode ok s := by
  obtain ⟨o, kids, hreached, htest, -⟩ :
      ∃ o kids, Reached n mode ok (o :: kids) ∧ AtTest o 10 ∧ o.path = [] :=
    reached_test (Nat.le_of_lt hmany) (Nat.le_refl 10) hok
  have hstep : step n mode ok (o :: kids) 0 = some _ :=
    htest.overflow _ 0 hmany (by decide)
  refine ⟨_, hreached.next hstep, fun h => ?_⟩
  exact h.defined _ List.mem_cons_self rfl

/-- For every `n` the program accepts, in both modes and whichever calls
of `execl` succeed, it does what it is asked for in every state it can
reach, and is done with it in the end, exactly if it can. -/
theorem creates_iff (hint : -2 ^ 31 ≤ n) (haccepted : n ≤ maxChilds)
    (mode : Mode) (ok : List Nat → Bool) :
    Creates n mode ok ↔ CanCreate n ok := by
  constructor
  · rintro ⟨hall, -⟩
    by_contra hcannot
    suffices hbad : ∃ s, Reached n mode ok s ∧ ¬ Asked n mode ok s by
      obtain ⟨s, hs, hnot⟩ := hbad
      exact hnot (hall s hs)
    by_cases hneg : n < 0
    · exact not_asked_of_neg hint hneg
    have hsize : (toSize n : Int) = n := by
      unfold maxChilds at haccepted
      unfold toSize
      omega
    by_cases hfail : ∃ i, i < 10 ∧ i + 1 < toSize n ∧ ok [i] ≠ true
    · classical
      obtain ⟨hten, hlt, hfails⟩ := Nat.find_spec hfail
      refine not_asked_of_exec hlt hten (fun j hj => ?_) hfails
      by_contra hj'
      exact Nat.find_min hfail hj ⟨by omega, by omega, hj'⟩
    · have hall' : ∀ i, i < 10 → i + 1 < toSize n → ok [i] = true := by
        intro i hi hlt
        by_contra hi'
        exact hfail ⟨i, hi, hlt, hi'⟩
      have hmany : 10 < toSize n := by
        by_contra hfew
        exact hcannot ⟨by omega, by omega, fun i hi =>
          hall' i (by omega) (by omega)⟩
      exact not_asked_of_many hmany fun j hj => hall' j hj (by omega)
  · intro hcan
    exact ⟨fun s hs => (inv_reached hcan hs).asked hcan, _,
      fun ks s hrun => run_bounded hrun⟩

/-- Two children, of which the second does not become `count.elf`. -/
theorem creates_two : Creates 2 .sequential (· = [0]) :=
  (creates_iff (by decide) (by decide) .sequential _).mpr
    ⟨by decide, by decide, fun i hi => by simp; omega⟩

/-- Of two children that both do not, the first creates one of its own. -/
theorem not_creates_two : ¬ Creates 2 .parallel (fun _ => false) := by
  rintro ⟨hall, -⟩
  obtain ⟨s, hs, hnot⟩ : ∃ s, Reached 2 .parallel (fun _ => false) s
      ∧ ¬ Asked 2 .parallel (fun _ => false) s :=
    @not_asked_of_exec 2 .parallel (fun _ => false) 0 (by decide)
      (by decide) (by omega) (by decide)
  exact hnot (hall s hs)

end SyeLabs.CountParallel
