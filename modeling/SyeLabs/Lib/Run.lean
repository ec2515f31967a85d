/-
Runs of a partial step function.

`run step s as` takes the actions `as` one after the other from `s`; the
first action the step function refuses ends the run without a state.
`Along step C s as` says that every action of the run meets `C` in the
state it is taken in: a condition on steps, lifted to the run. The rules
below carry what one step preserves to whole runs, with and without
such a condition.
-/
import Mathlib.Order.Basic

namespace SyeLabs.Lib

variable {σ : Type*} {α : Type*} (step : σ → α → Option σ)

/-- The state a list of actions leads to. -/
def run : σ → List α → Option σ
  | s, [] => some s
  | s, a :: as => (step s a).bind fun s' => run s' as

/-- Every action of the run meets `C` in the state it is taken in. -/
def Along (C : σ → α → Prop) : σ → List α → Prop
  | _, [] => True
  | s, a :: as =>
      C s a ∧ match step s a with
        | some s' => Along C s' as
        | none => True

instance Along.decidable (C : σ → α → Prop) [∀ s a, Decidable (C s a)] :
    ∀ (s : σ) (as : List α), Decidable (Along step C s as)
  | _, [] => inferInstanceAs (Decidable True)
  | s, a :: as =>
      match h : step s a with
      | some s' =>
          have := Along.decidable C s' as
          decidable_of_iff (C s a ∧ Along step C s' as) (by
            rw [Along, h])
      | none => decidable_of_iff (C s a) (by rw [Along, h, and_true])

variable {step}

theorem along_cons_iff {C : σ → α → Prop} {s : σ} {a : α} {as : List α} :
    Along step C s (a :: as) ↔
      C s a ∧ ∀ s', step s a = some s' → Along step C s' as := by
  rw [Along]
  cases h : step s a with
  | none => simp
  | some t => simp

@[simp] theorem run_nil (s : σ) : run step s [] = some s := rfl

theorem run_cons (s : σ) (a : α) (as : List α) :
    run step s (a :: as) = (step s a).bind fun s' => run step s' as := rfl

/-- The first step of a run and the rest of it. -/
theorem run_cons_iff {s s' : σ} {a : α} {as : List α} :
    run step s (a :: as) = some s' ↔
      ∃ t, step s a = some t ∧ run step t as = some s' := by
  rw [run_cons]
  exact Option.bind_eq_some_iff

theorem run_append (s : σ) (as bs : List α) :
    run step s (as ++ bs) = (run step s as).bind fun s' => run step s' bs := by
  induction as generalizing s with
  | nil => rfl
  | cons a as ih =>
      rw [List.cons_append, run_cons, run_cons, Option.bind_assoc]
      congr 1
      funext t
      exact ih t

theorem run_concat (s : σ) (as : List α) (a : α) :
    run step s (as ++ [a]) = (run step s as).bind fun s' => step s' a := by
  rw [run_append]
  congr 1
  funext t
  exact Option.bind_fun_some _

/-- A run of blocks of actions is the run of all of them in a row. -/
theorem run_flatMap {γ : Type*} (f : γ → List α) (cs : List γ) (s : σ) :
    run step s (cs.flatMap f) = run (fun s c => run step s (f c)) s cs := by
  induction cs generalizing s with
  | nil => rfl
  | cons c cs ih =>
      rw [List.flatMap_cons, run_append, run_cons]
      congr 1
      funext t
      exact ih t

/-- A run commutes with a map of states if its steps do. -/
theorem run_map {f : σ → σ} {as : List α}
    (h : ∀ a ∈ as, ∀ s, step (f s) a = (step s a).map f) (s : σ) :
    run step (f s) as = (run step s as).map f := by
  induction as generalizing s with
  | nil => rfl
  | cons a as ih =>
      rw [run_cons, run_cons, h a List.mem_cons_self]
      cases step s a with
      | none => rfl
      | some t => exact ih (fun b hb => h b (List.mem_cons_of_mem a hb)) t

theorem along_append {C : σ → α → Prop} {as bs : List α} :
    ∀ {s : σ}, Along step C s (as ++ bs) ↔ Along step C s as
      ∧ ∀ t, run step s as = some t → Along step C t bs := by
  induction as with
  | nil =>
      intro s
      simp [Along]
  | cons a as ih =>
      intro s
      rw [List.cons_append, along_cons_iff, along_cons_iff, and_assoc]
      refine and_congr_right fun _ => ?_
      constructor
      · intro h
        refine ⟨fun u hu => (ih.mp (h u hu)).1, fun t ht => ?_⟩
        obtain ⟨u, hu, ht⟩ := run_cons_iff.mp ht
        exact (ih.mp (h u hu)).2 t ht
      · intro h u hu
        obtain ⟨has, hbs⟩ := h
        exact ih.mpr ⟨has u hu, fun t ht =>
          hbs t (run_cons_iff.mpr ⟨u, hu, ht⟩)⟩

/-- The steps of a run all meet `C` exactly when each does in the state
the actions before it lead to. -/
theorem along_iff_forall_split {C : σ → α → Prop} {as : List α} :
    ∀ {s : σ}, Along step C s as ↔ ∀ pre a post t, as = pre ++ a :: post →
      run step s pre = some t → C t a := by
  induction as with
  | nil =>
      intro s
      apply iff_of_true trivial
      intro pre a post t heq _
      cases pre <;> cases heq
  | cons b as ih =>
      intro s
      rw [along_cons_iff]
      constructor
      · intro h pre a post t heq hpre
        obtain ⟨hb, hlater⟩ := h
        cases pre with
        | nil =>
            obtain ⟨rfl, -⟩ := List.cons.inj heq
            cases hpre
            exact hb
        | cons c pre =>
            obtain ⟨rfl, htail⟩ := List.cons.inj heq
            obtain ⟨u, hu, hpre⟩ := run_cons_iff.mp hpre
            exact ih.mp (hlater u hu) pre a post t htail hpre
      · intro hall
        refine ⟨hall [] b as s rfl rfl, fun u hu => ?_⟩
        apply ih.mpr
        intro pre a post t heq hpre
        exact hall (b :: pre) a post t (by rw [heq, List.cons_append])
          (run_cons_iff.mpr ⟨u, hu, hpre⟩)

/-- Two conditions are alike along every run if they are where `I` holds,
and steps that meet them keep `I`. -/
theorem along_iff_along {I : σ → Prop} {C D : σ → α → Prop}
    (hiff : ∀ s a, I s → (C s a ↔ D s a))
    (hstep : ∀ s a s', I s → D s a → step s a = some s' → I s')
    {as : List α} : ∀ {s : σ}, I s →
      (Along step C s as ↔ Along step D s as) := by
  induction as with
  | nil => exact fun _ => Iff.rfl
  | cons a as ih =>
      intro s hI
      rw [along_cons_iff, along_cons_iff, hiff s a hI]
      refine and_congr_right fun hD => forall_congr' fun s' => ?_
      exact imp_congr_right fun hs' => ih (hstep s a s' hI hD hs')

/-- Steps that meet `D` meet `C` where `I` holds, and keep `I`: a run that
meets `D` throughout meets `C`. -/
theorem along_of_along {I : σ → Prop} {C D : σ → α → Prop}
    (hC : ∀ s a, I s → D s a → C s a)
    (hstep : ∀ s a s', I s → D s a → step s a = some s' → I s')
    {as : List α} : ∀ {s : σ}, I s → Along step D s as →
      Along step C s as := by
  induction as with
  | nil => exact fun _ _ => trivial
  | cons a as ih =>
      intro s hI hD
      obtain ⟨ha, has⟩ := along_cons_iff.mp hD
      exact along_cons_iff.mpr ⟨hC s a hI ha,
        fun s' hs' => ih (hstep s a s' hI ha hs') (has s' hs')⟩

/-- A step that meets `C`, and a run from where it leads. -/
theorem Along.cons {C : σ → α → Prop} {s t : σ} {a : α} {as : List α}
    (ha : C s a) (hstep : step s a = some t) (has : Along step C t as) :
    Along step C s (a :: as) := by
  refine along_cons_iff.mpr ⟨ha, fun s' hs' => ?_⟩
  cases hstep.symm.trans hs'
  exact has

theorem Along.and {C D : σ → α → Prop} {as : List α} :
    ∀ {s : σ}, Along step C s as → Along step D s as →
      Along step (fun s a => C s a ∧ D s a) s as := by
  induction as with
  | nil => exact fun _ _ => trivial
  | cons a as ih =>
      intro s hC hD
      obtain ⟨ha, has⟩ := along_cons_iff.mp hC
      obtain ⟨hb, hbs⟩ := along_cons_iff.mp hD
      exact along_cons_iff.mpr
        ⟨⟨ha, hb⟩, fun s' hs' => ih (has s' hs') (hbs s' hs')⟩

/-- What every step preserves, given its condition, holds after a run
whose steps all meet the condition. -/
theorem run_inv_along {I : σ → Prop} {C : σ → α → Prop}
    (hstep : ∀ s a s', I s → C s a → step s a = some s' → I s')
    {as : List α} : ∀ {s s' : σ}, I s → Along step C s as →
      run step s as = some s' → I s' := by
  induction as with
  | nil =>
      intro s s' hI _ hrun
      cases hrun
      exact hI
  | cons a as ih =>
      intro s s' hI hC hrun
      obtain ⟨t, ht, hrest⟩ := run_cons_iff.mp hrun
      obtain ⟨ha, has⟩ := along_cons_iff.mp hC
      exact ih (hstep s a t hI ha ht) (has t ht) hrest

theorem along_true (s : σ) (as : List α) :
    Along step (fun _ _ => True) s as := by
  induction as generalizing s with
  | nil => trivial
  | cons a as ih => exact along_cons_iff.mpr ⟨trivial, fun s' _ => ih s'⟩

/-- A condition on actions alone holds along a run when it holds of the
actions. -/
theorem along_of_forall {C : α → Prop} {as : List α}
    (h : ∀ a ∈ as, C a) (s : σ) : Along step (fun _ a => C a) s as := by
  induction as generalizing s with
  | nil => trivial
  | cons a as ih =>
      exact along_cons_iff.mpr ⟨h a List.mem_cons_self,
        fun s' _ => ih (fun b hb => h b (List.mem_cons_of_mem a hb)) s'⟩

/-- What every step preserves holds after every run. -/
theorem run_inv {I : σ → Prop}
    (hstep : ∀ s a s', I s → step s a = some s' → I s')
    {s s' : σ} {as : List α} (hI : I s) (hrun : run step s as = some s') :
    I s' :=
  run_inv_along (fun s a s' hI _ => hstep s a s' hI) hI
    (along_true s as) hrun

/-- A measure no step lowers is no lower after a run; `I` may be used
for it. -/
theorem run_mono {β : Type*} [Preorder β] {I : σ → Prop} {f : σ → β}
    (hinv : ∀ s a s', I s → step s a = some s' → I s')
    (hstep : ∀ s a s', I s → step s a = some s' → f s ≤ f s')
    {s s' : σ} {as : List α} (hI : I s) (hrun : run step s as = some s') :
    f s ≤ f s' := by
  have h : I s' ∧ f s ≤ f s' := by
    refine run_inv (I := fun t => I t ∧ f s ≤ f t) ?_ ⟨hI, le_rfl⟩ hrun
    intro t a t' h hta
    obtain ⟨ht, hle⟩ := h
    exact ⟨hinv t a t' ht hta, hle.trans (hstep t a t' ht hta)⟩
  exact h.2

/-- A measure that the steps of one kind raise by one, and the others
leave alone, counts them. -/
theorem run_count {I : σ → Prop} {f : σ → Nat} {p : α → Bool}
    (hinv : ∀ s a s', I s → step s a = some s' → I s')
    (hstep : ∀ s a s', I s → step s a = some s' →
      f s' = f s + (p a).toNat)
    {as : List α} : ∀ {s s' : σ}, I s → run step s as = some s' →
      f s' = f s + as.countP p := by
  induction as with
  | nil =>
      intro s s' _ hrun
      cases hrun
      rfl
  | cons a as ih =>
      intro s s' hI hrun
      obtain ⟨t, hst, hrest⟩ := run_cons_iff.mp hrun
      rw [ih (hinv s a t hI hst) hrest, hstep s a t hI hst,
        List.countP_cons, Nat.add_assoc, Nat.add_comm (p a).toNat]
      cases p a <;> rfl

/-- Where every step lowers a measure, a run is no longer than it. -/
theorem run_length_le {I : σ → Prop} {f : σ → Nat}
    (hinv : ∀ s a s', I s → step s a = some s' → I s')
    (hstep : ∀ s a s', I s → step s a = some s' → f s' < f s)
    {as : List α} : ∀ {s s' : σ}, I s → run step s as = some s' →
      as.length + f s' ≤ f s := by
  induction as with
  | nil =>
      intro s s' _ hrun
      cases hrun
      exact Nat.le_of_eq (Nat.zero_add _)
  | cons a as ih =>
      intro s s' hI hrun
      obtain ⟨t, ht, hrest⟩ := run_cons_iff.mp hrun
      have hlt := hstep s a t hI ht
      have hle := ih (hinv s a t hI ht) hrest
      rw [List.length_cons]
      omega

/-- Where every step lowers a measure or is paid for, by what the state
has spent or by a kind of action, a run is no longer than the measure and
the payments. -/
theorem run_length_le_paid {I : σ → Prop} (f spent : σ → Nat)
    (paid : α → Bool)
    (hinv : ∀ s a s', I s → step s a = some s' → I s')
    (hstep : ∀ s a s', I s → step s a = some s' →
      f s' + spent s + 1 ≤ f s + spent s' + if paid a then 1 else 0)
    {as : List α} : ∀ {s s' : σ}, I s → run step s as = some s' →
      as.length + f s' + spent s ≤ f s + spent s' + as.countP paid := by
  induction as with
  | nil =>
      intro s s' _ hrun
      cases hrun
      simp
  | cons a as ih =>
      intro s s' hI hrun
      obtain ⟨t, ht, hrest⟩ := run_cons_iff.mp hrun
      have hone := hstep s a t hI ht
      have hle := ih (hinv s a t hI ht) hrest
      rw [List.length_cons, List.countP_cons]
      omega

/-- Where a step keeps `I` exactly when it meets `C`, the states of a run
all have `I` exactly when its steps all meet `C`. `J` holds throughout
and `D` is a condition on the actions of the run. -/
theorem forall_prefix_iff_along {I J : σ → Prop} {C : σ → α → Prop}
    {D : α → Prop} (hJ : ∀ s a s', J s → step s a = some s' → J s')
    (hstep : ∀ s a s', J s → I s → D a → step s a = some s' →
      (I s' ↔ C s a)) {as : List α} :
    ∀ {s s' : σ}, J s → I s → (∀ a ∈ as, D a) →
      run step s as = some s' →
      ((∀ pre post t, as = pre ++ post → run step s pre = some t → I t)
        ↔ Along step C s as) := by
  induction as with
  | nil =>
      intro s s' _ hI _ _
      refine ⟨fun _ => trivial, fun _ pre post t heq hpre => ?_⟩
      obtain ⟨rfl, -⟩ := List.append_eq_nil_iff.mp heq.symm
      cases hpre
      exact hI
  | cons a as ih =>
      intro s s' hJs hI hD hrun
      obtain ⟨t, ht, hrest⟩ := run_cons_iff.mp hrun
      obtain ⟨ha, has⟩ := List.forall_mem_cons.mp hD
      have hexact := hstep s a t hJs hI ha ht
      have hJt := hJ s a t hJs ht
      rw [along_cons_iff]
      constructor
      · intro hall
        have hIt : I t :=
          hall [a] as t rfl (run_cons_iff.mpr ⟨t, ht, rfl⟩)
        refine ⟨hexact.mp hIt, fun t' ht' => ?_⟩
        obtain rfl := Option.some.inj (ht.symm.trans ht')
        apply (ih hJt hIt has hrest).mp
        intro pre post u heq hpre
        exact hall (a :: pre) post u (by rw [heq, List.cons_append])
          (run_cons_iff.mpr ⟨t, ht, hpre⟩)
      · intro h pre post u heq hpre
        obtain ⟨hC, hrestC⟩ := h
        have hIt : I t := hexact.mpr hC
        cases pre with
        | nil =>
            cases hpre
            exact hI
        | cons b pre =>
            obtain ⟨rfl, htail⟩ := List.cons.inj heq
            obtain ⟨t', ht', hpre⟩ := run_cons_iff.mp hpre
            obtain rfl := Option.some.inj (ht.symm.trans ht')
            exact (ih hJt hIt has hrest).mpr (hrestC t ht) pre post u htail
              hpre

end SyeLabs.Lib
