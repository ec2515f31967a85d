/-
Page frames: the pool behind `get_free_page` and `free_page`, the
reference counts, and the page list of each process.

`log` is not part of the kernel: it records what `get_free_page` hands
out and `free_page` takes back, for the statements on frames freed twice
or lost. `Accounted n fr` is the invariant of the first `n` processes:
counts agree with lists, and a frame is out exactly while somebody lists
it. Two operations keep it, handing a fresh frame to a process
(`getPage_accounted`) and releasing a process (`release_accounted`);
everything the kernel does to frames is made of these.
-/
import SyeLabs.Lib.RefCount
import SyeLabs.Mmu.CreateMapping

namespace SyeLabs.Kernel

open Lib Mmu

/-- The frames of the image of the root process. -/
def RootImage (P : Platform) (f : Nat) : Prop :=
  P.rootProcStart / 4096 ≤ f
    ∧ f * 4096 < P.rootProcStart / 4096 * 4096
      + (pageEnd P.userSpaceVaddr P.rootProcSize
        - pageStart P.userSpaceVaddr)

/-- What `get_free_page` may return: a frame, not the null pointer, and
no part of the kernel image. -/
def FrameOk (P : Platform) (f : Nat) : Prop :=
  0 < f ∧ f < 1048576 ∧ ¬ RootImage P f

instance (P : Platform) : DecidablePred (FrameOk P) := fun f => by
  unfold FrameOk RootImage
  infer_instance

variable {P : Platform} {F : Type*} (A : Allocator F (FrameOk P))

/-- The pool will not hand out `f`: it is in use, or no frame of the
pool at all. -/
def Taken (pool : F) (f : Nat) : Prop :=
  A.live pool f ∨ ¬ FrameOk P f

/-- The pool, the reference counts and the page lists. -/
structure Frames (F : Type*) where
  pool : F
  refcount : Nat → Nat
  pageList : Nat → List Nat
  log : List (Event Nat)

theorem Taken.of_alloc {pool pool' : F} {f g : Nat}
    (halloc : A.alloc pool = some (f, pool')) (h : Taken A pool g) :
    g ≠ f ∧ Taken A pool' g := by
  rcases h with hlive | hok
  · exact ⟨A.ne_of_alloc halloc hlive,
      Or.inl (A.live_of_alloc halloc hlive)⟩
  · exact ⟨fun heq => hok (heq ▸ A.alloc_ok halloc), Or.inr hok⟩

-- =============================================================== the functions

/-- `get_free_page`. -/
def getFreePage (fr : Frames F) : Option (Nat × Frames F) :=
  (A.alloc fr.pool).map fun r =>
    (r.1, { fr with pool := r.2, log := fr.log ++ [.get r.1] })

/-- `free_page`. -/
def freePage (fr : Frames F) (f : Nat) : Frames F :=
  { fr with pool := A.free fr.pool f, log := fr.log ++ [.free f] }

/-- `add_page_to_proc`. -/
def addPageToProc (fr : Frames F) (p f : Nat) : Frames F :=
  { fr with
    refcount := Function.update fr.refcount f (fr.refcount f + 1)
    pageList := Function.update fr.pageList p (fr.pageList p ++ [f]) }

/-- One turn of the loop of `release_proc_pages`, at the head of the
list. -/
def releasePage (p : Nat) (fr : Frames F) (f : Nat) : Frames F :=
  let fr :=
    { fr with
      refcount := Function.update fr.refcount f (fr.refcount f - 1)
      pageList := Function.update fr.pageList p (fr.pageList p).tail }
  if fr.refcount f = 0 then freePage A fr f else fr

/-- `release_proc_pages`. -/
def releaseProcPages (fr : Frames F) (p : Nat) : Frames F :=
  (fr.pageList p).foldl (releasePage A p) fr

-- ================================================================== accounting

/-- The account of the frames of `n` processes. -/
structure Accounted (n : Nat) (fr : Frames F) : Prop where
  /-- The count of a frame is the number of entries that refer to it. -/
  counts : ∀ f, fr.refcount f = total fr.pageList n f
  nobody : ∀ p, n ≤ p → fr.pageList p = []
  /-- A frame has been handed out and not given back exactly while its
  count is positive, and never twice in a row. -/
  history : ∀ f, history f fr.log = some (decide (0 < fr.refcount f))
  inUse : ∀ f, 0 < fr.refcount f → FrameOk P f ∧ A.live fr.pool f
  single : ∀ f, fr.refcount f ≤ 1

variable {A} {n : Nat}

/-- A listed frame has a positive count. -/
theorem Accounted.pos_of_mem {fr : Frames F} (ac : Accounted A n fr)
    {p f : Nat} (h : f ∈ fr.pageList p) : 0 < fr.refcount f := by
  have hp : p < n := by
    by_contra hn
    rw [ac.nobody p (Nat.le_of_not_lt hn)] at h
    cases h
  rw [ac.counts]
  exact (List.count_pos_iff.mpr h).trans_le (count_le_total hp _ _)

/-- No frame is listed by two processes. -/
theorem Accounted.exclusive {fr : Frames F} (ac : Accounted A n fr)
    {p q f : Nat} (hp : f ∈ fr.pageList p) (hq : f ∈ fr.pageList q) :
    p = q := by
  have hlt : ∀ r, f ∈ fr.pageList r → r < n := by
    intro r hr
    by_contra hn
    rw [ac.nobody r (Nat.le_of_not_lt hn)] at hr
    cases hr
  have hone := ac.single f
  rw [ac.counts] at hone
  exact holder_unique hone (hlt p hp) (hlt q hq) hp hq

theorem getFreePage_eq {fr fr' : Frames F} {f : Nat}
    (h : getFreePage A fr = some (f, fr')) :
    ∃ pool, A.alloc fr.pool = some (f, pool)
      ∧ fr' = { fr with pool := pool, log := fr.log ++ [.get f] } := by
  obtain ⟨⟨g, pool⟩, halloc, heq⟩ := Option.map_eq_some_iff.mp h
  obtain ⟨rfl, rfl⟩ := Prod.mk.inj heq
  exact ⟨pool, halloc, rfl⟩

/-- A fresh frame handed to a process: `get_free_page` and
`add_page_to_proc`. -/
theorem getPage_accounted {fr fr' : Frames F} {f p : Nat}
    (ac : Accounted A n fr) (hp : p < n)
    (hget : getFreePage A fr = some (f, fr')) :
    Accounted A n (addPageToProc fr' p f) := by
  obtain ⟨pool, halloc, rfl⟩ := getFreePage_eq hget
  have hzero : fr.refcount f = 0 := by
    by_contra hne
    exact A.alloc_fresh halloc (ac.inUse f (Nat.pos_of_ne_zero hne)).2
  have hcount : ∀ g, Function.update fr.refcount f (fr.refcount f + 1) g
      = fr.refcount g + if f = g then 1 else 0 := by
    intro g
    by_cases hg : g = f
    · subst hg
      simp
    · have hg' : ¬ f = g := fun h => hg h.symm
      simp [Function.update_of_ne hg, hg']
  constructor
  case counts =>
    intro g
    simp only [addPageToProc]
    rw [hcount, total_append hp, ac.counts]
  case nobody =>
    intro q hq
    have hqp : q ≠ p := by omega
    simp only [addPageToProc, Function.update_of_ne hqp]
    exact ac.nobody q hq
  case history =>
    intro g
    simp only [addPageToProc, hcount]
    rw [history_get (ac.history g) (by rintro rfl; simp [hzero])]
    by_cases hg : f = g
    · simp [hg]
    · simp [hg]
  case inUse =>
    intro g hpos
    simp only [addPageToProc, hcount] at hpos ⊢
    by_cases hg : f = g
    · exact hg ▸ ⟨A.alloc_ok halloc, A.live_self_of_alloc halloc⟩
    · rw [if_neg hg] at hpos
      obtain ⟨hok, hlive⟩ := ac.inUse g hpos
      exact ⟨hok, A.live_of_alloc halloc hlive⟩
  case single =>
    intro g
    simp only [addPageToProc, hcount]
    by_cases hg : f = g
    · subst hg
      simp [hzero]
    · rw [if_neg hg]
      exact ac.single g

/-- One released page. -/
theorem releasePage_accounted {fr : Frames F} {p f : Nat} {l : List Nat}
    (ac : Accounted A n fr) (hp : p < n) (hl : fr.pageList p = f :: l) :
    Accounted A n (releasePage A p fr f)
      ∧ (releasePage A p fr f).pageList
        = Function.update fr.pageList p l := by
  have hone : fr.refcount f = 1 := by
    have hpos := ac.pos_of_mem (p := p) (hl ▸ List.mem_cons_self)
    have := ac.single f
    omega
  have hlist : (releasePage A p fr f).pageList
      = Function.update fr.pageList p l := by
    simp [releasePage, hone, freePage, hl]
  have hcount : ∀ g, (releasePage A p fr f).refcount g
      = if f = g then 0 else fr.refcount g := by
    intro g
    by_cases hg : g = f
    · subst hg
      simp [releasePage, hone, freePage]
    · have hg' : ¬ f = g := fun h => hg h.symm
      simp [releasePage, hone, freePage, Function.update_of_ne hg, hg']
  have hlog : (releasePage A p fr f).log = fr.log ++ [.free f] := by
    simp [releasePage, hone, freePage]
  have hpool : (releasePage A p fr f).pool = A.free fr.pool f := by
    simp [releasePage, hone, freePage]
  refine ⟨?_, hlist⟩
  constructor
  case counts =>
    intro g
    have htotal := total_tail hp hl g
    rw [hlist, hcount]
    have hg := ac.counts g
    split
    next h =>
      subst h
      rw [if_pos rfl] at htotal
      omega
    next h =>
      rw [if_neg h] at htotal
      omega
  case nobody =>
    intro q hq
    have hqp : q ≠ p := by omega
    rw [hlist, Function.update_of_ne hqp]
    exact ac.nobody q hq
  case history =>
    intro g
    rw [hlog, hcount, history_free (ac.history g)
      (by rintro rfl; simp [hone])]
    by_cases hg : f = g
    · simp [hg]
    · simp [hg]
  case inUse =>
    intro g hpos
    rw [hcount] at hpos
    rw [hpool]
    by_cases hg : f = g
    · rw [if_pos hg] at hpos
      cases hpos
    · rw [if_neg hg] at hpos
      obtain ⟨hok, hlive⟩ := ac.inUse g hpos
      exact ⟨hok, (A.free_live (ac.inUse f (by omega)).2 g).mpr
        ⟨fun h => hg h.symm, hlive⟩⟩
  case single =>
    intro g
    rw [hcount]
    split
    · exact Nat.zero_le 1
    · exact ac.single g

/-- A released process lists nothing, and the others what they did. -/
theorem release_accounted {fr : Frames F} {p : Nat}
    (ac : Accounted A n fr) (hp : p < n) :
    Accounted A n (releaseProcPages A fr p)
      ∧ (releaseProcPages A fr p).pageList
        = Function.update fr.pageList p [] := by
  unfold releaseProcPages
  -- by induction on the list of the process, with the account at each turn
  generalize hl : fr.pageList p = l
  induction l generalizing fr with
  | nil =>
      have hsame : Function.update fr.pageList p [] = fr.pageList := by
        rw [← hl, Function.update_eq_self]
      exact ⟨ac, hsame.symm⟩
  | cons f l ih =>
      obtain ⟨ac', hlist⟩ := releasePage_accounted ac hp hl
      obtain ⟨hac, hfin⟩ := ih ac' (by rw [hlist, Function.update_self])
      refine ⟨hac, ?_⟩
      rw [List.foldl_cons, hfin, hlist, Function.update_idem]

/-- One more process, which lists nothing yet. -/
theorem Accounted.succ {fr : Frames F} (ac : Accounted A n fr) :
    Accounted A (n + 1) fr where
  counts := fun f => by rw [total_succ (ac.nobody n (Nat.le_refl n)), ac.counts]
  nobody := fun p hp => ac.nobody p (by omega)
  history := ac.history
  inUse := ac.inUse
  single := ac.single

theorem Accounted.mono {fr : Frames F} (ac : Accounted A n fr) {m : Nat}
    (h : n ≤ m) : Accounted A m fr := by
  induction h with
  | refl => exact ac
  | step _ ih => exact ih.succ

/-- Before the first process nothing is listed. -/
theorem accounted_boot {fr : Frames F} (hcount : fr.refcount = fun _ => 0)
    (hlist : fr.pageList = fun _ => []) (hlog : fr.log = []) :
    Accounted A 0 fr where
  counts := fun f => by rw [hcount, hlist, total_nil]
  nobody := fun p _ => by rw [hlist]
  history := fun f => by simp [hlog, hcount]
  inUse := fun f hpos => by simp [hcount] at hpos
  single := fun f => by simp [hcount]

end SyeLabs.Kernel
