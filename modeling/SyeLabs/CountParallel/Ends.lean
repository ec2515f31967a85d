/-
`count_parallel` ends.

# The measure

No run goes on for ever, whatever `n` is and whichever calls of `execl`
succeed. What a process has to do is counted together with what the
processes do that it may still create (`turns`): each turn of the first
loop leaves two processes, which both have one turn less ahead of them.
-/
import SyeLabs.CountParallel.Basic

namespace SyeLabs.CountParallel

open Lib

variable {n : Int} {mode : Mode} {ok : List Nat → Bool}

-- ================================================================= the measure

/-- The steps left with `d` turns of the first loop ahead; the second loop
has `m` turns. -/
def turns (m : Nat) : Nat → Nat
  | 0 => m + 2
  | d + 1 => 2 * turns m d + 3

/-- The steps left to a process and to those it may still create. -/
def Proc.toGo (m : Nat) (p : Proc) : Nat :=
  match p.pc with
  | .create => turns m (m - p.i)
  | .exec => turns m (m - (p.i + 1)) + 1
  | .wait _ => turns m (m - (p.i + 1)) + 1
  | .collect => m - p.i + 1
  | .count => 1
  | .exited => 0
  | .undefined => 0

/-- The steps left to all processes. -/
def toGo (m : Nat) (s : Sys) : Nat := (s.map (Proc.toGo m)).sum

theorem turns_of_lt {m i : Nat} (h : i < m) :
    turns m (m - i) = 2 * turns m (m - (i + 1)) + 3 := by
  obtain ⟨d, hd⟩ : ∃ d, m - i = d + 1 := ⟨m - (i + 1), by omega⟩
  have hd' : m - (i + 1) = d := by omega
  rw [hd, hd', turns]

theorem le_turns (m d : Nat) : m + 2 ≤ turns m d := by
  induction d with
  | zero => exact Nat.le_refl _
  | succ d ih =>
      rw [turns]
      omega

theorem toGo_append (m : Nat) (s t : Sys) :
    toGo m (s ++ t) = toGo m s + toGo m t := by
  rw [toGo, List.map_append, List.sum_append]
  rfl

/-- One process changes. -/
theorem toGo_set {m k : Nat} {s : Sys} {p : Proc} (h : s[k]? = some p)
    (p' : Proc) : toGo m (s.set k p') + p.toGo m = toGo m s + p'.toGo m := by
  induction s generalizing k with
  | nil => cases h
  | cons q s ih =>
      cases k with
      | zero =>
          cases h
          simp only [toGo, List.set_cons_zero, List.map_cons, List.sum_cons]
          omega
      | succ k =>
          have hset := ih (k := k) h
          simp only [toGo, List.set_cons_succ, List.map_cons, List.sum_cons]
            at hset ⊢
          omega

-- ==================================================================== one step

/-- A process that goes on with fewer steps left. -/
theorem toGo_set_lt {m k : Nat} {s : Sys} {p p' : Proc} (h : s[k]? = some p)
    (hlt : p'.toGo m < p.toGo m) : toGo m (s.set k p') < toGo m s := by
  have hset := toGo_set (m := m) h p'
  omega

/-- A process that can go on has steps left. -/
theorem Proc.toGo_pos (m : Nat) {p : Proc} (hexited : p.pc ≠ .exited)
    (hdefined : p.pc ≠ .undefined) : 0 < p.toGo m := by
  unfold Proc.toGo
  split
  · exact Nat.lt_of_lt_of_le (Nat.succ_pos _) (le_turns m _)
  · exact Nat.succ_pos _
  · exact Nat.succ_pos _
  · exact Nat.succ_pos _
  · exact Nat.one_pos
  next hpc => exact absurd hpc hexited
  next hpc => exact absurd hpc hdefined

/-- `waitpid` leaves every process where it is. -/
theorem waitpid_toGo {m k child : Nat} {s s' : Sys} {p : Proc}
    (h : waitpid s k child = some s') (hp : s[k]? = some p) :
    toGo m s' = toGo m s
      ∧ ∃ p', s'[k]? = some p' ∧ p'.pc = p.pc ∧ p'.i = p.i := by
  unfold waitpid at h
  split at h
  · next q hq =>
    split at h
    · split at h
      · cases h
        have hset := toGo_set (m := m) hq { q with waited := q.waited + 1 }
        refine ⟨Nat.add_right_cancel hset, ?_⟩
        by_cases hk : child = k
        · subst hk
          cases hq.symm.trans hp
          exact ⟨_, List.getElem?_set_self
            (List.getElem?_eq_some_iff.mp hp).1, rfl, rfl⟩
        · exact ⟨p, by rw [List.getElem?_set_ne hk, hp], rfl, rfl⟩
      · cases h
    · cases h
      exact ⟨rfl, p, hp, rfl, rfl⟩
  · cases h
    exact ⟨rfl, p, hp, rfl, rfl⟩

/-- The next turn of a loop has fewer steps left than this one. -/
theorem next_toGo_lt {m k : Nat} {s s' : Sys} {p : Proc} {pc : Pc}
    (h : next s k pc = some s') (hp : s[k]? = some p)
    (hlt : Proc.toGo m { p with pc, i := p.i + 1 } < p.toGo m) :
    toGo m s' < toGo m s := by
  rw [next, hp] at h
  cases h
  exact toGo_set_lt hp hlt

/-- So does the next turn after a `waitpid`. -/
theorem collect_toGo_lt {m k child : Nat} {s s' : Sys} {p : Proc} {pc : Pc}
    (h : ((waitpid s k child).bind fun t => next t k pc) = some s')
    (hp : s[k]? = some p)
    (hlt : ∀ q : Proc, q.pc = p.pc → q.i = p.i →
      Proc.toGo m { q with pc, i := q.i + 1 } < q.toGo m) :
    toGo m s' < toGo m s := by
  obtain ⟨t, ht, hnext⟩ := Option.bind_eq_some_iff.mp h
  obtain ⟨heq, q, hq, hpc, hi⟩ := waitpid_toGo (m := m) ht hp
  rw [← heq]
  exact next_toGo_lt hnext hq (hlt q hpc hi)

/-- `fork` takes a turn of the loop from both processes. -/
theorem fork_toGo_lt {m k : Nat} {s : Sys} {p : Proc} (hp : s[k]? = some p)
    (hpc : p.pc = .create) (hi : p.i < m) :
    toGo m (s.set k (p.forked mode s.length) ++ [p.child k]) < toGo m s := by
  have hset := toGo_set (m := m) hp (p.forked mode s.length)
  have hturn := turns_of_lt hi
  have hp' : p.toGo m = turns m (m - p.i) := by rw [Proc.toGo, hpc]
  have hchild : toGo m [p.child k] = turns m (m - (p.i + 1)) + 1 := rfl
  have hforked : (p.forked mode s.length).toGo m
      ≤ turns m (m - (p.i + 1)) + 1 := by
    cases mode with
    | sequential => exact Nat.le_refl _
    | parallel =>
        have hcreate : (p.forked .parallel s.length).toGo m
            = turns m (m - (p.i + 1)) := by
          simp only [Proc.forked, Proc.toGo, hpc]
        omega
  rw [toGo_append]
  omega

/-- To leave the first loop is a step too, before a turn of the second. -/
theorem created_toGo_lt {m k : Nat} {s : Sys} {p : Proc}
    (hp : s[k]? = some p) (hpc : p.pc = .create) :
    toGo m (s.set k (p.created mode)) < toGo m s := by
  have hle := le_turns m (m - p.i)
  have hp' : p.toGo m = turns m (m - p.i) := by rw [Proc.toGo, hpc]
  refine toGo_set_lt hp ?_
  cases mode with
  | sequential =>
      show 0 < _
      omega
  | parallel =>
      show m - 0 + 1 < _
      omega

/-- Every action is a step less to go. -/
theorem act_toGo_lt {k : Nat} {s s' : Sys} {p : Proc} (hp : s[k]? = some p)
    (h : act n mode ok s k p = some s') :
    toGo (toSize n) s' < toGo (toSize n) s := by
  generalize hm : toSize n = m at *
  have hstop : p.pc ≠ .exited → p.pc ≠ .undefined → ∀ p' : Proc,
      p'.toGo m = 0 → toGo m (s.set k p') < toGo m s :=
    fun hexited hdefined p' hp' =>
      toGo_set_lt hp (hp' ▸ p.toGo_pos m hexited hdefined)
  unfold act at h
  rw [hm] at h
  split at h
  · next hpc =>
    split at h
    · next hi =>
      split at h
      · cases h
        exact fork_toGo_lt hp hpc hi
      · cases h
        exact hstop (by simp [hpc]) (by simp [hpc]) _ rfl
    · cases h
      exact created_toGo_lt hp hpc
  · next hpc =>
    have hle := le_turns m (m - (p.i + 1))
    have hp' : p.toGo m = turns m (m - (p.i + 1)) + 1 := by
      rw [Proc.toGo, hpc]
    split at h
    · cases h
      refine toGo_set_lt hp ?_
      show 1 < _
      omega
    · cases h
      refine toGo_set_lt hp ?_
      show turns m (m - (p.i + 1)) < _
      omega
  · next child hpc =>
    refine collect_toGo_lt h hp fun q hq hi => ?_
    have hq' : q.toGo m = turns m (m - (q.i + 1)) + 1 := by
      rw [Proc.toGo, hq, hpc]
    show turns m (m - (q.i + 1)) < _
    omega
  · next hpc =>
    have hlt : p.i < m → ∀ q : Proc, q.pc = p.pc → q.i = p.i →
        Proc.toGo m { q with pc := .collect, i := q.i + 1 } < q.toGo m := by
      intro hmore q hq hi
      have hq' : q.toGo m = m - q.i + 1 := by rw [Proc.toGo, hq, hpc]
      show m - (q.i + 1) + 1 < _
      omega
    split at h
    · next hmore =>
      split at h
      · split at h
        · exact next_toGo_lt h hp (hlt hmore p rfl rfl)
        · exact collect_toGo_lt h hp (hlt hmore)
      · cases h
        exact hstop (by simp [hpc]) (by simp [hpc]) _ rfl
    · cases h
      exact hstop (by simp [hpc]) (by simp [hpc]) _ rfl
  · next hpc =>
    cases h
    exact hstop (by simp [hpc]) (by simp [hpc]) _ rfl
  · cases h
  · cases h

-- ==================================================================== the runs

/-- Every run has at most so many steps. -/
theorem run_bounded {ks : List Nat} {s : Sys}
    (hrun : run (step n mode ok) init ks = some s) :
    ks.length ≤ turns (toSize n) (toSize n) := by
  have hle : ks.length + toGo (toSize n) s ≤ toGo (toSize n) init := by
    refine run_length_le (I := fun _ => True) (fun _ _ _ _ _ => trivial)
      (fun s k s' _ hstep => ?_) trivial hrun
    obtain ⟨p, hp, hact⟩ := Option.bind_eq_some_iff.mp hstep
    exact act_toGo_lt hp hact
  exact Nat.le_of_add_right_le hle

end SyeLabs.CountParallel
