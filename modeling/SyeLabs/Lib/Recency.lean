/-
Paging with a fixed number of frames, and the policy that evicts the
least recently used page.

# The recency stack

`touch l p` serves an access to `p` when the resident pages are the
entries of `l`, most recently used first: `p` moves to the front, and
on a fault the last entry goes. `foldl_touch` says what a run leaves
without the run: the first distinct pages of the accesses read
backwards.

# Against every other policy

`Serves S ps n` is demand paging with any choice of victims, one that
knows the accesses to come included. `misses_le` bounds the faults of
the recency stack by those of any such service, through a potential:
`lead S l` weighs each page of `l` that is not in `S` by the time it
has left in the stack. A fault of the rival raises it by at most the
number of frames, a fault of the stack lowers it by one.
-/
import Mathlib.Data.List.Nodup
import Mathlib.Data.List.TakeDrop
import Mathlib.Data.Finset.Card
import Mathlib.Algebra.Order.Ring.Nat

namespace SyeLabs.Lib

variable {ι : Type*} [DecidableEq ι]

-- =================================================================== the stack

/-- Serve an access to `p`. -/
def touch (l : List ι) (p : ι) : List ι :=
  p :: if p ∈ l then l.erase p else l.dropLast

theorem touch_of_mem {l : List ι} {p : ι} (h : p ∈ l) :
    touch l p = p :: l.erase p := by
  rw [touch, if_pos h]

theorem touch_of_not_mem {l : List ι} {p : ι} (h : p ∉ l) :
    touch l p = p :: l.dropLast := by
  rw [touch, if_neg h]

theorem length_touch {l : List ι} (hl : l ≠ []) (p : ι) :
    (touch l p).length = l.length := by
  have hpos : 0 < l.length := List.length_pos_of_ne_nil hl
  by_cases h : p ∈ l
  · rw [touch_of_mem h, List.length_cons, List.length_erase_of_mem h]
    omega
  · rw [touch_of_not_mem h, List.length_cons, List.length_dropLast]
    omega

theorem nodup_touch {l : List ι} (hl : l.Nodup) (p : ι) :
    (touch l p).Nodup := by
  by_cases h : p ∈ l
  · rw [touch_of_mem h]
    exact List.nodup_cons.mpr ⟨hl.not_mem_erase, hl.erase p⟩
  · rw [touch_of_not_mem h]
    exact List.nodup_cons.mpr
      ⟨fun hp => h (List.mem_of_mem_dropLast hp),
        hl.sublist (List.dropLast_sublist l)⟩

-- =============================================================== what it holds

theorem nodup_eraseDups (l : List ι) : l.eraseDups.Nodup := by
  induction hn : l.length using Nat.strong_induction_on generalizing l with
  | _ n ih =>
      cases l with
      | nil => exact List.nodup_nil
      | cons p l =>
          rw [List.eraseDups_cons, List.nodup_cons, List.mem_eraseDups]
          refine ⟨by simp, ih _ ?_ _ rfl⟩
          rw [← hn, List.length_cons]
          exact Nat.lt_succ_of_le (List.length_filter_le _ l)

/-- Reading one more page first moves it to the front. -/
theorem eraseDups_cons_eq (p : ι) (l : List ι) :
    (p :: l).eraseDups = p :: l.eraseDups.erase p := by
  have hfilter : ∀ (n : Nat) (l : List ι), l.length = n →
      (l.filter fun q => !q == p).eraseDups
        = l.eraseDups.filter fun q => !q == p := by
    intro n
    induction n using Nat.strong_induction_on with
    | _ n ih =>
        intro l hn
        cases l with
        | nil => rfl
        | cons q l =>
            have hlt : (l.filter fun r => !r == q).length < n := by
              rw [← hn, List.length_cons]
              exact Nat.lt_succ_of_le (List.length_filter_le _ l)
            rw [List.eraseDups_cons, List.filter_cons, List.filter_cons,
              ← ih _ hlt _ rfl, List.filter_filter]
            by_cases hqp : q = p
            · subst hqp
              simp
            · have hne : (!q == p) = true := by simp [hqp]
              rw [if_pos hne, if_pos hne, List.eraseDups_cons,
                List.filter_filter]
              simp only [Bool.and_comm]
  rw [List.eraseDups_cons, hfilter _ l rfl,
    (nodup_eraseDups l).erase_eq_filter]
  rfl

/-- Serving `p` on the first `k` of a list without duplicates is putting
`p` in front of the list. -/
theorem touch_take {d : List ι} {k : Nat} (hk : 0 < k) (hlen : k ≤ d.length)
    (p : ι) : touch (d.take k) p = (p :: d.erase p).take k := by
  obtain ⟨k, rfl⟩ : ∃ j, k = j + 1 := ⟨k - 1, by omega⟩
  rw [List.take_succ_cons]
  by_cases hp : p ∈ d.take (k + 1)
  · have hlen' : ((d.take (k + 1)).erase p).length = k := by
      rw [List.length_erase_of_mem hp, List.length_take]
      omega
    rw [touch_of_mem hp]
    congr 1
    calc (d.take (k + 1)).erase p
        = ((d.take (k + 1)).erase p ++ d.drop (k + 1)).take k :=
          (List.take_left' hlen').symm
      _ = (d.erase p).take k := by
          rw [← List.erase_append_left _ hp, List.take_append_drop]
  · have hlen' : (d.take k).length = k := by
      rw [List.length_take]
      omega
    have hdrop : (d.take (k + 1)).dropLast = d.take k := by
      rw [List.dropLast_eq_take, List.length_take, List.take_take]
      congr 1
      omega
    have hpk : p ∉ d.take k := fun h =>
      hp (List.take_subset_take_left d (Nat.le_succ k) h)
    rw [touch_of_not_mem hp, hdrop]
    congr 1
    calc d.take k = (d.take k ++ (d.drop k).erase p).take k :=
          (List.take_left' hlen').symm
      _ = (d.erase p).take k := by
          rw [← List.erase_append_right _ hpk, List.take_append_drop]

theorem length_le_length_eraseDups {l m : List ι} (hl : l.Nodup)
    (h : l ⊆ m) : l.length ≤ m.eraseDups.length :=
  (List.subperm_of_subset hl fun _ hp =>
    List.mem_eraseDups.mpr (h hp)).length_le

/-- After any accesses the stack holds the distinct pages met first when
the accesses are read backwards, and then the stack it started with. -/
theorem foldl_touch {l : List ι} (hl : l.Nodup) (hne : l ≠ [])
    (ps : List ι) :
    ps.foldl touch l = (ps.reverse ++ l).eraseDups.take l.length := by
  have hpos : 0 < l.length := List.length_pos_of_ne_nil hne
  induction ps using List.reverseRecOn with
  | nil =>
      have hself : l.eraseDups = l := by
        clear hpos hne
        induction l with
        | nil => rfl
        | cons p l ih =>
            obtain ⟨hp, hl⟩ := List.nodup_cons.mp hl
            rw [eraseDups_cons_eq, ih hl, List.erase_of_not_mem hp]
      rw [List.foldl_nil, List.reverse_nil, List.nil_append, hself,
        List.take_length]
  | append_singleton ps p ih =>
      have hlen : l.length ≤ (ps.reverse ++ l).eraseDups.length :=
        length_le_length_eraseDups hl (List.subset_append_right _ l)
      rw [List.foldl_append, List.foldl_cons, List.foldl_nil, ih,
        touch_take hpos hlen, List.reverse_append, List.reverse_singleton,
        List.append_assoc, List.singleton_append, eraseDups_cons_eq]

-- ============================================================== other policies

/-- The faults of the stack. -/
def misses : List ι → List ι → Nat
  | _, [] => 0
  | l, p :: ps => (if p ∈ l then 0 else 1) + misses (touch l p) ps

/-- Demand paging can serve the accesses from the resident set `S` with
`n` faults: each one evicts some resident page. -/
inductive Serves : Finset ι → List ι → Nat → Prop
  | done (S : Finset ι) : Serves S [] 0
  | hit {S : Finset ι} {p : ι} {ps : List ι} {n : Nat} (hp : p ∈ S)
      (h : Serves S ps n) : Serves S (p :: ps) n
  | fault {S : Finset ι} {p v : ι} {ps : List ι} {n : Nat} (hp : p ∉ S)
      (hv : v ∈ S) (h : Serves (insert p (S.erase v)) ps n) :
      Serves S (p :: ps) (n + 1)

/-- What the stack `l` is ahead of the set `S`: each of its pages that
is not in `S` counts for the faults until it goes. -/
def lead (S : Finset ι) : List ι → Nat
  | [] => 0
  | p :: l => (if p ∈ S then 0 else l.length + 1) + lead S l

theorem lead_eq_zero {S : Finset ι} {l : List ι} (h : ∀ p ∈ l, p ∈ S) :
    lead S l = 0 := by
  induction l with
  | nil => rfl
  | cons p l ih =>
      rw [lead, if_pos (h p List.mem_cons_self),
        ih fun q hq => h q (List.mem_cons_of_mem p hq)]

/-- Bringing a page in lowers the lead. -/
theorem lead_mono {S T : Finset ι} {l : List ι} (h : ∀ p ∈ l, p ∈ S → p ∈ T) :
    lead T l ≤ lead S l := by
  induction l with
  | nil => exact le_refl _
  | cons p l ih =>
      have htail := ih fun q hq => h q (List.mem_cons_of_mem p hq)
      have hhead := h p List.mem_cons_self
      rw [lead, lead]
      by_cases hp : p ∈ S
      · rw [if_pos hp, if_pos (hhead hp)]
        omega
      · rw [if_neg hp]
        split <;> omega

/-- Evicting one raises it by the length of the stack at most. -/
theorem lead_erase {S T : Finset ι} {l : List ι} {v : ι} (hl : l.Nodup)
    (h : ∀ p ∈ l, p ∈ S → p ≠ v → p ∈ T) :
    lead T l ≤ lead S l + l.length := by
  induction l with
  | nil => exact Nat.zero_le _
  | cons p l ih =>
      obtain ⟨hpl, hl⟩ := List.nodup_cons.mp hl
      have htail : ∀ q ∈ l, q ∈ S → q ≠ v → q ∈ T := fun q hq =>
        h q (List.mem_cons_of_mem p hq)
      rw [lead, lead, List.length_cons]
      by_cases hpv : p = v
      · -- the page evicted is not further down
        subst hpv
        have hle : lead T l ≤ lead S l := lead_mono fun q hq hqS =>
          htail q hq hqS fun hqp => hpl (hqp ▸ hq)
        split <;> split <;> omega
      · have hle := ih hl htail
        by_cases hp : p ∈ S
        · rw [if_pos hp, if_pos (h p List.mem_cons_self hp hpv)]
          omega
        · rw [if_neg hp]
          split <;> omega

/-- A page taken out of the stack leaves the others no more weight. -/
theorem lead_erase_le (S : Finset ι) (l : List ι) (p : ι) :
    lead S (l.erase p) ≤ lead S l := by
  induction l with
  | nil => exact le_refl _
  | cons q l ih =>
      by_cases hq : q = p
      · subst hq
        rw [List.erase_cons_head, lead]
        omega
      · rw [List.erase_cons_tail (by simpa using hq), lead, lead]
        have hlen := List.length_erase_le (a := p) (l := l)
        split <;> omega

/-- A fault of the stack takes one from the weight of each page. -/
theorem lead_dropLast (S : Finset ι) (l : List ι) :
    lead S l.dropLast + l.countP (fun p => decide (p ∉ S)) = lead S l := by
  induction l with
  | nil => rfl
  | cons p l ih =>
      cases l with
      | nil => by_cases hp : p ∈ S <;> simp [lead, hp]
      | cons q l =>
          rw [List.dropLast_cons_cons, lead, List.countP_cons, lead, ← ih]
          simp only [List.length_dropLast, List.length_cons,
            decide_eq_true_eq]
          by_cases hp : p ∈ S
          · simp [hp]
          · simp [hp]
            omega

/-- Serving a page that is in `S` does not raise the lead, and lowers it
on a fault. -/
theorem lead_touch {S : Finset ι} {l : List ι} {p : ι} (hl : l.Nodup)
    (hcard : S.card ≤ l.length) (hp : p ∈ S) :
    (if p ∈ l then 0 else 1) + lead S (touch l p) ≤ lead S l := by
  by_cases hpl : p ∈ l
  · rw [if_pos hpl, touch_of_mem hpl, lead, if_pos hp]
    have := lead_erase_le S l p
    omega
  · rw [if_neg hpl, touch_of_not_mem hpl, lead, if_pos hp]
    -- `S` holds a page the stack does not, so the stack holds one too
    have hex : ∃ q ∈ l, q ∉ S := by
      by_contra hall
      have hsub : l.toFinset ⊆ S := by
        intro q hq
        by_contra hqS
        exact hall ⟨q, List.mem_toFinset.mp hq, hqS⟩
      have heq : l.toFinset = S := Finset.eq_of_subset_of_card_le hsub
        (by rwa [List.toFinset_card_of_nodup hl])
      exact hpl (List.mem_toFinset.mp (heq ▸ hp))
    obtain ⟨q, hq, hqS⟩ := hex
    have hpos : 0 < l.countP fun p => decide (p ∉ S) :=
      List.countP_pos_iff.mpr ⟨q, hq, by simpa using hqS⟩
    have := lead_dropLast S l
    omega

/-- The stack faults at most as many times as it has frames for each
fault of any service of the same accesses, its lead apart. -/
theorem misses_le {S : Finset ι} {ps : List ι} {n : Nat}
    (h : Serves S ps n) {l : List ι} (hl : l.Nodup) (hne : l ≠ [])
    (hcard : S.card ≤ l.length) :
    misses l ps ≤ l.length * n + lead S l := by
  induction h generalizing l with
  | done S => exact Nat.zero_le _
  | @hit S p ps n hp _ ih =>
      have hlen := length_touch hne p
      have hstep := lead_touch hl hcard hp
      have hrest := ih (nodup_touch hl p) (List.cons_ne_nil _ _)
        (by rwa [hlen])
      rw [hlen] at hrest
      rw [misses]
      omega
  | @fault S p v ps n hp hv _ ih =>
      have hcard' : (insert p (S.erase v)).card = S.card := by
        have hnot : p ∉ S.erase v := fun h => hp (Finset.mem_of_mem_erase h)
        rw [Finset.card_insert_of_notMem hnot, Finset.card_erase_of_mem hv,
          Nat.sub_add_cancel (Finset.card_pos.mpr ⟨v, hv⟩)]
      have hlen := length_touch hne p
      have hevict : lead (insert p (S.erase v)) l ≤ lead S l + l.length :=
        lead_erase hl fun q _ hq hqv =>
          Finset.mem_insert_of_mem (Finset.mem_erase.mpr ⟨hqv, hq⟩)
      have hstep := lead_touch hl (by rwa [hcard'])
        (Finset.mem_insert_self p (S.erase v))
      have hrest := ih (nodup_touch hl p) (List.cons_ne_nil _ _)
        (by rwa [hlen, hcard'])
      rw [hlen] at hrest
      rw [misses, Nat.mul_succ]
      omega

end SyeLabs.Lib
