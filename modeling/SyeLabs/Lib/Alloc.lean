/-
Allocators of numbered units, by what their callers rely on.

An allocator hands out units that satisfy `ok` and are not in use, and
takes units in use back. Its state type and its policy are left open: a
result about an arbitrary allocator covers every order in which one may
hand out its units. `freeList` is the plain one, a list of free units
that works as a stack.
-/
import Mathlib.Data.List.Nodup

namespace SyeLabs.Lib

/-- An allocator of the units that satisfy `ok`; `live h n` says that
unit `n` is in use in state `h`. -/
structure Allocator (H : Type*) (ok : Nat → Prop) where
  alloc : H → Option (Nat × H)
  free : H → Nat → H
  live : H → Nat → Prop
  /-- A unit handed out satisfies `ok`. -/
  alloc_ok : ∀ {h n h'}, alloc h = some (n, h') → ok n
  /-- A unit handed out was not in use. -/
  alloc_fresh : ∀ {h n h'}, alloc h = some (n, h') → ¬ live h n
  /-- It is in use afterwards, beside those that were. -/
  alloc_live : ∀ {h n h'}, alloc h = some (n, h') →
    ∀ m, live h' m ↔ m = n ∨ live h m
  /-- Freeing a unit in use takes it, and no other, out of use. -/
  free_live : ∀ {h n}, live h n →
    ∀ m, live (free h n) m ↔ m ≠ n ∧ live h m

variable {H : Type*} {ok : Nat → Prop} {A : Allocator H ok}

namespace Allocator

theorem live_of_alloc {h h' : H} {n m : Nat}
    (ha : A.alloc h = some (n, h')) (hm : A.live h m) : A.live h' m :=
  (A.alloc_live ha m).mpr (Or.inr hm)

theorem live_self_of_alloc {h h' : H} {n : Nat}
    (ha : A.alloc h = some (n, h')) : A.live h' n :=
  (A.alloc_live ha n).mpr (Or.inl rfl)

theorem ne_of_alloc {h h' : H} {n m : Nat}
    (ha : A.alloc h = some (n, h')) (hm : A.live h m) : m ≠ n :=
  fun heq => A.alloc_fresh ha (heq ▸ hm)

variable (A)

/-- The units that `n` requests in a row are given, as far as they are. -/
def next : Nat → H → List Nat
  | 0, _ => []
  | n + 1, h =>
      match A.alloc h with
      | none => []
      | some (b, h') => b :: next n h'

/-- Requests in a row that are given the units `bs`. -/
def Takes : H → List Nat → H → Prop
  | h, [], h' => h' = h
  | h, b :: bs, h' => ∃ h₁, A.alloc h = some (b, h₁) ∧ Takes h₁ bs h'

variable {A}

/-- One more request. -/
theorem Takes.snoc {h h' h'' : H} {bs : List Nat} {b : Nat}
    (ht : A.Takes h bs h') (ha : A.alloc h' = some (b, h'')) :
    A.Takes h (bs ++ [b]) h'' := by
  induction bs generalizing h with
  | nil =>
      cases ht
      exact ⟨h'', ha, rfl⟩
  | cons c bs ih =>
      obtain ⟨h₁, hc, ht⟩ := ht
      exact ⟨h₁, hc, ih ht⟩

/-- The units given are in use beside those that were. -/
theorem Takes.live {h h' : H} {bs : List Nat} (ht : A.Takes h bs h')
    (c : Nat) : A.live h' c ↔ c ∈ bs ∨ A.live h c := by
  induction bs generalizing h with
  | nil =>
      cases ht
      simp
  | cons b bs ih =>
      obtain ⟨h₁, hb, ht⟩ := ht
      rw [ih ht, A.alloc_live hb, List.mem_cons, or_left_comm, or_assoc]

/-- None of them was in use. -/
theorem Takes.fresh {h h' : H} {bs : List Nat} (ht : A.Takes h bs h')
    {c : Nat} (hc : c ∈ bs) : ¬ A.live h c := by
  induction bs generalizing h with
  | nil => cases hc
  | cons b bs ih =>
      obtain ⟨h₁, hb, ht⟩ := ht
      rcases List.mem_cons.mp hc with rfl | hc
      · exact A.alloc_fresh hb
      · exact fun hl => ih ht hc (live_of_alloc hb hl)

/-- Which units they are is decided by the allocator. -/
theorem Takes.next_eq {h h' : H} {bs : List Nat} (ht : A.Takes h bs h') :
    A.next bs.length h = bs := by
  induction bs generalizing h with
  | nil => rfl
  | cons b bs ih =>
      obtain ⟨h₁, hb, ht⟩ := ht
      simp only [List.length_cons, next, hb, ih ht]

/-- A request is met where a longer row of requests was. -/
theorem Takes.more {h h' h'' : H} {bs cs : List Nat}
    (ht : A.Takes h bs h') (ht' : A.Takes h cs h'')
    (hlt : bs.length < cs.length) : ∃ r, A.alloc h' = some r := by
  induction bs generalizing h cs with
  | nil =>
      cases ht
      cases cs with
      | nil => exact absurd hlt (Nat.lt_irrefl 0)
      | cons c cs =>
          obtain ⟨h₁, hc, -⟩ := ht'
          exact ⟨_, hc⟩
  | cons b bs ih =>
      cases cs with
      | nil => exact absurd hlt (Nat.not_lt_zero _)
      | cons c cs =>
          obtain ⟨h₁, hb, ht⟩ := ht
          obtain ⟨h₂, hc, ht'⟩ := ht'
          rw [hb] at hc
          cases hc
          exact ih ht ht' (Nat.lt_of_succ_lt_succ hlt)

/-- After units in use have been freed, each of them once. -/
theorem live_foldl_free {ns : List Nat} : ∀ {h : H}, ns.Nodup →
    (∀ n ∈ ns, A.live h n) →
    ∀ c, A.live (ns.foldl A.free h) c ↔ c ∉ ns ∧ A.live h c := by
  induction ns with
  | nil => simp
  | cons n ns ih =>
      intro h hnd hns c
      obtain ⟨hn, hnd⟩ := List.nodup_cons.mp hnd
      have hfree := A.free_live (hns n List.mem_cons_self)
      rw [List.foldl_cons, ih hnd, hfree, List.mem_cons, not_or]
      · exact and_left_comm.trans and_assoc.symm
      · intro m hm
        rw [hfree]
        exact ⟨fun heq => hn (heq ▸ hm),
          hns m (List.mem_cons_of_mem n hm)⟩

end Allocator

/-- The free units of a `freeList` allocator. -/
abbrev FreeList (ok : Nat → Prop) :=
  { l : List Nat // l.Nodup ∧ ∀ n ∈ l, ok n }

/-- Hand out the head of a list of free units and put freed units back
in front. -/
def freeList (ok : Nat → Prop) [DecidablePred ok] :
    Allocator (FreeList ok) ok where
  alloc
    | ⟨[], _⟩ => none
    | ⟨n :: l, h⟩ =>
        some (n, ⟨l, (List.nodup_cons.mp h.1).2,
          fun m hm => h.2 m (List.mem_cons_of_mem n hm)⟩)
  free l n :=
    if h : n ∉ l.1 ∧ ok n then
      ⟨n :: l.1, List.nodup_cons.mpr ⟨h.1, l.2.1⟩,
        List.forall_mem_cons.mpr ⟨h.2, l.2.2⟩⟩
    else l
  live l n := n ∉ l.1 ∧ ok n
  alloc_ok {l n l'} ha := by
    obtain ⟨l, h⟩ := l
    cases l with
    | nil => cases ha
    | cons m l =>
        cases ha
        exact h.2 _ List.mem_cons_self
  alloc_fresh {l n l'} ha := by
    obtain ⟨l, h⟩ := l
    cases l with
    | nil => cases ha
    | cons m l =>
        cases ha
        exact fun hn => hn.1 List.mem_cons_self
  alloc_live {l n l'} ha := by
    obtain ⟨l, h⟩ := l
    cases l with
    | nil => cases ha
    | cons m l =>
        cases ha
        intro k
        have hok := h.2 n List.mem_cons_self
        have hn := (List.nodup_cons.mp h.1).1
        constructor
        · intro h
          obtain ⟨hk, hkok⟩ := h
          by_cases hkn : k = n
          · exact Or.inl hkn
          · exact Or.inr ⟨by simp [hkn, hk], hkok⟩
        · intro h
          rcases h with rfl | ⟨hk, hkok⟩
          · exact ⟨hn, hok⟩
          · exact ⟨fun h => hk (List.mem_cons_of_mem n h), hkok⟩
  free_live {l n} hn := by
    intro m
    rw [dif_pos hn]
    constructor
    · intro h
      obtain ⟨hm, hok⟩ := h
      exact ⟨fun h => hm (h ▸ List.mem_cons_self),
        fun h => hm (List.mem_cons_of_mem n h), hok⟩
    · intro h
      obtain ⟨hne, hm, hok⟩ := h
      exact ⟨fun h => (List.mem_cons.mp h).elim hne hm, hok⟩

end SyeLabs.Lib
