/-
What the threads count.

# Chunks

The chunks are the pieces of the text between the cuts
`0, q, 2q, ..., (n - 1) q, length` (`cut`), so each position lies in one
chunk, also where the text is shorter than the number of threads and
`q` is 0.

# The count of a thread

A thread that has passed `m` positions of its chunk has counted the first
`m` letters of it (`ThreadInv`), whatever the others have done. After
the joins every chunk has been passed, and the counters add up to those
of the text.
-/
import Mathlib.Algebra.Order.BigOperators.Group.Finset
import Mathlib.Data.List.TakeWhile
import SyeLabs.Lib.Cuts
import SyeLabs.Lib.Run
import SyeLabs.Threads.Basic

namespace SyeLabs.Threads

open Lib

variable {text : List (BitVec 8)} {n : Nat}

-- ====================================================================== chunks

/-- The byte is the letter in either case. -/
def isLetter (letter : Nat) (c : BitVec 8) : Bool :=
  c.toNat = 97 + letter || c.toNat = 65 + letter

/-- What is asked of the text and the number of threads. -/
structure Valid (text : List (BitVec 8)) (n : Nat) : Prop where
  nulFree : ∀ c ∈ text, c ≠ 0
  short : text.length < 2 ^ 31
  pos : 1 ≤ n
  le : n ≤ 15

/-- Where the chunks are cut. -/
def cut (text : List (BitVec 8)) (n k : Nat) : Nat :=
  if k < n then k * (text.length / n) else text.length

theorem mul_div_le {k m n : Nat} (hk : k ≤ n) : k * (m / n) ≤ m :=
  (Nat.mul_le_mul_right _ hk).trans (Nat.mul_div_le m n)

theorem cut_le (text : List (BitVec 8)) (n k : Nat) :
    cut text n k ≤ text.length := by
  unfold cut
  split
  next hk => exact mul_div_le hk.le
  next => exact Nat.le_refl _

theorem cut_monotone (text : List (BitVec 8)) (n : Nat) :
    Monotone (cut text n) := by
  apply monotone_nat_of_le_succ
  intro k
  by_cases hk : k + 1 < n
  · rw [cut, if_pos (Nat.lt_of_succ_lt hk), cut, if_pos hk]
    exact Nat.mul_le_mul_right _ (Nat.le_succ k)
  · have hlast : cut text n (k + 1) = text.length := if_neg hk
    rw [hlast]
    exact cut_le text n k

theorem cut_zero (hn : 1 ≤ n) : cut text n 0 = 0 := by
  rw [cut, if_pos (Nat.lt_of_lt_of_le Nat.zero_lt_one hn), Nat.zero_mul]

theorem cut_last (text : List (BitVec 8)) (n : Nat) :
    cut text n n = text.length := if_neg (Nat.lt_irrefl n)

theorem strlen_eq (hnul : ∀ c ∈ text, c ≠ 0) :
    strlen text = BitVec.ofNat 32 text.length := by
  have hall : text.takeWhile (· != 0) = text := by
    rw [List.takeWhile_eq_self_iff]
    exact fun c hc => by simpa using hnul c hc
  rw [strlen, hall]

/-- The chunk of a thread lies between its cuts. -/
theorem splitParam_spec (hv : Valid text n) {k : Nat} (hk : k < n) :
    (splitParam text n k).textPointer.toNat = cut text n k
      ∧ (splitParam text n k).size.toNat
        = cut text n (k + 1) - cut text n k := by
  have hshort := hv.short
  have hle := hv.le
  have htotal : (BitVec.ofNat 32 text.length).toNat = text.length := by
    rw [BitVec.toNat_ofNat]
    omega
  have hnum : (BitVec.ofNat 32 n).toNat = n := by
    rw [BitVec.toNat_ofNat]
    omega
  have hindex : (BitVec.ofNat 32 k).toNat = k := by
    rw [BitVec.toNat_ofNat]
    omega
  have hfits : k * (text.length / n) ≤ text.length := mul_div_le hk.le
  have hsplit := Nat.div_add_mod text.length n
  simp only [splitParam, strlen_eq hv.nulFree]
  constructor
  · rw [BitVec.toNat_mul, BitVec.toNat_udiv, htotal, hnum, hindex, cut,
      if_pos hk]
    exact Nat.mod_eq_of_lt (by omega)
  · by_cases hlast : k = n - 1
    · have hcut : ¬ k + 1 < n := by omega
      have hn : n * (text.length / n)
          = k * (text.length / n) + text.length / n := by
        have heq : n = k + 1 := by omega
        rw [heq, Nat.succ_mul]
      rw [if_pos hlast, BitVec.toNat_add, BitVec.toNat_udiv,
        BitVec.toNat_umod, htotal, hnum, cut, if_neg hcut, cut, if_pos hk]
      generalize text.length / n = q at *
      generalize text.length % n = r at *
      rw [Nat.mod_eq_of_lt (by omega)]
      omega
    · have hcut : k + 1 < n := by omega
      rw [if_neg hlast, BitVec.toNat_udiv, htotal, hnum, cut, if_pos hcut,
        cut, if_pos hk, Nat.succ_mul]
      exact (Nat.add_sub_cancel_left ..).symm

-- =============================================================== one character

/-- The index that is counted is that of the letter. -/
theorem letter_eq_iff {c : BitVec 8} {letter : Nat}
    (hletter : letter < lettersNb) :
    tolower c - aLowerOffset = letter ↔ isLetter letter c = true := by
  have hlt : letter < 26 := hletter
  simp only [tolower, aLowerOffset, isLetter, Bool.or_eq_true,
    decide_eq_true_eq]
  split <;> omega

theorem not_isLetter {c : BitVec 8} (hc : ¬ isalpha c = true) {letter : Nat}
    (hletter : letter < lettersNb) : isLetter letter c = false := by
  have hlt : letter < 26 := hletter
  simp only [isalpha, Bool.or_eq_true, Bool.and_eq_true,
    decide_eq_true_eq] at hc
  simp only [isLetter, Bool.or_eq_false_iff, decide_eq_false_iff_not]
  omega

/-- One iteration counts the byte it reads. -/
theorem countBody_counters (arg : CountParam) (i : BitVec 32)
    {letter : Nat} (hletter : letter < lettersNb) :
    (countBody text arg i).counters letter
      = arg.counters letter + BitVec.ofNat 32
        (if isLetter letter (text.getD (arg.textPointer + i).toNat 0) then 1
          else 0) := by
  unfold countBody
  by_cases hc : isalpha (text.getD (arg.textPointer + i).toNat 0) = true
  · simp only [hc, if_true]
    by_cases heq : tolower (text.getD (arg.textPointer + i).toNat 0)
        - aLowerOffset = letter
    · rw [if_pos ((letter_eq_iff hletter).mp heq), heq,
        Function.update_self]
      rfl
    · rw [if_neg fun h => heq ((letter_eq_iff hletter).mpr h),
        Function.update_of_ne (Ne.symm heq)]
      exact (BitVec.add_zero _).symm
  · simp only [hc, not_isLetter hc hletter]
    exact (BitVec.add_zero _).symm

theorem countBody_textPointer (arg : CountParam) (i : BitVec 32) :
    (countBody text arg i).textPointer = arg.textPointer := by
  unfold countBody
  dsimp only
  split <;> rfl

theorem countBody_size (arg : CountParam) (i : BitVec 32) :
    (countBody text arg i).size = arg.size := by
  unfold countBody
  dsimp only
  split <;> rfl

-- =============================================================== the gathering

theorem gather_inner (param : CountParam) (result : Int → BitVec 32)
    (m : Nat) {letter : Nat} :
    (List.range m).foldl (fun (result : Int → BitVec 32) (j : Nat) =>
        Function.update result j (result j + param.counters j)) result letter
      = if letter < m then result letter + param.counters letter
        else result letter := by
  induction m with
  | zero => rfl
  | succ m ih =>
      rw [List.range_succ, List.foldl_append, List.foldl_cons,
        List.foldl_nil]
      by_cases hm : letter = m
      · subst hm
        rw [Function.update_self, ih, if_neg (Nat.lt_irrefl _),
          if_pos (Nat.lt_succ_self _)]
      · have hne : (letter : Int) ≠ m := fun heq => hm (Int.ofNat.inj heq)
        rw [Function.update_of_ne hne, ih]
        have hiff : letter < m ↔ letter < m + 1 := by omega
        exact if_congr hiff rfl rfl

/-- The counters add up. -/
theorem gather_eq {params : Nat → CountParam} {result : Int → BitVec 32}
    {letter : Nat} (hletter : letter < lettersNb) {count : Nat → Nat}
    (start : Nat) (hresult : result letter = BitVec.ofNat 32 start) :
    ∀ {n : Nat}, (∀ k < n, (params k).counters letter
        = BitVec.ofNat 32 (count k)) →
      gather n params result letter
        = BitVec.ofNat 32 (start + ∑ k ∈ Finset.range n, count k) := by
  intro n
  induction n with
  | zero => exact fun _ => hresult
  | succ n ih =>
      intro hcount
      have hrest := ih fun k hk => hcount k (Nat.lt_succ_of_lt hk)
      have hstep : gather (n + 1) params result letter
          = gather n params result letter + (params n).counters letter := by
        unfold gather
        rw [List.range_succ, List.foldl_append, List.foldl_cons,
          List.foldl_nil, gather_inner, if_pos hletter]
      rw [hstep, hrest, hcount n (Nat.lt_succ_self n),
        Finset.sum_range_succ, ← BitVec.ofNat_add, Nat.add_assoc]

-- =============================================================== the invariant

/-- How far in its chunk a thread has come. -/
def Thread.passed (size : Nat) : Thread → Nat
  | .unborn => 0
  | .running i => i.toNat
  | .returned => size

/-- The chunk of thread `k`. -/
def chunk (text : List (BitVec 8)) (n k : Nat) : List (BitVec 8) :=
  piece (cut text n) text k

/-- What a thread has counted. -/
structure ThreadInv (text : List (BitVec 8)) (n k : Nat) (arg : CountParam)
    (thread : Thread) : Prop where
  textPointer : arg.textPointer.toNat = cut text n k
  size : arg.size.toNat = (chunk text n k).length
  passed : thread.passed (chunk text n k).length ≤ (chunk text n k).length
  counters : ∀ letter < lettersNb, arg.counters letter
    = BitVec.ofNat 32 (((chunk text n k).take (thread.passed
      (chunk text n k).length)).countP (isLetter letter))

theorem length_chunk (text : List (BitVec 8)) (n k : Nat) :
    (chunk text n k).length = cut text n (k + 1) - cut text n k := by
  have hmono := cut_monotone text n (Nat.le_succ k)
  have hle := cut_le text n (k + 1)
  rw [chunk, piece, List.length_take, List.length_drop]
  exact Nat.min_eq_left (by omega)

theorem ThreadInv.init (hv : Valid text n) {k : Nat} (hk : k < n) :
    ThreadInv text n k (splitParam text n k) .unborn where
  textPointer := (splitParam_spec hv hk).1
  size := (splitParam_spec hv hk).2.trans (length_chunk text n k).symm
  passed := Nat.zero_le _
  counters _ _ := rfl

/-- The byte that an iteration reads. -/
theorem getElem?_chunk {k i : Nat} (hi : i < (chunk text n k).length) :
    (chunk text n k)[i]? = some (text.getD (cut text n k + i) 0) := by
  have hlen := length_chunk text n k
  have hmono := cut_monotone text n (Nat.le_succ k)
  have hle := cut_le text n (k + 1)
  have hin : cut text n k + i < text.length := by omega
  rw [chunk, piece, List.getElem?_take_of_lt (by omega),
    List.getElem?_drop, List.getD_eq_getElem?_getD,
    List.getElem?_eq_getElem hin]
  rfl

/-- What is passed when the loop counter is `i`. -/
theorem ThreadInv.lt (hv : Valid text n) {k : Nat} {arg : CountParam}
    {i : BitVec 32} (hI : ThreadInv text n k arg (.running i))
    (hi : i < arg.size) : i.toNat < (chunk text n k).length
      ∧ (i + 1).toNat = i.toNat + 1 := by
  have hlt : i.toNat < (chunk text n k).length := by
    rw [← hI.size]
    exact hi
  have hshort := hv.short
  have hlen := length_chunk text n k
  have hle := cut_le text n (k + 1)
  refine ⟨hlt, ?_⟩
  have hone : (1 : BitVec 32).toNat = 1 := rfl
  rw [BitVec.toNat_add, hone]
  omega

/-- One iteration of a thread. -/
theorem ThreadInv.count (hv : Valid text n) {k : Nat} {arg : CountParam}
    {i : BitVec 32} (hI : ThreadInv text n k arg (.running i))
    (hi : i < arg.size) :
    ThreadInv text n k (countBody text arg i) (.running (i + 1)) := by
  obtain ⟨hlt, hnext⟩ := hI.lt hv hi
  have hshort := hv.short
  have hlen := length_chunk text n k
  have hmono := cut_monotone text n (Nat.le_succ k)
  have hle := cut_le text n (k + 1)
  have hread : (arg.textPointer + i).toNat = cut text n k + i.toNat := by
    rw [BitVec.toNat_add, hI.textPointer]
    omega
  refine ⟨?_, ?_, hnext.trans_le hlt, fun letter hletter => ?_⟩
  · rw [countBody_textPointer]
    exact hI.textPointer
  · rw [countBody_size]
    exact hI.size
  · have hcount := hI.counters letter hletter
    simp only [Thread.passed] at hcount
    simp only [Thread.passed, hnext]
    rw [countBody_counters _ _ hletter, hcount, hread, List.take_add_one,
      getElem?_chunk hlt, List.countP_append, BitVec.ofNat_add]
    congr 2
    simp [List.countP_cons]

/-- A thread that leaves its loop has passed its chunk. -/
theorem ThreadInv.leave {k : Nat} {arg : CountParam} {i : BitVec 32}
    (hI : ThreadInv text n k arg (.running i)) (hi : ¬ i < arg.size) :
    ThreadInv text n k arg .returned := by
  have hend : i.toNat = (chunk text n k).length := by
    have hpassed : i.toNat ≤ (chunk text n k).length := hI.passed
    have hge : ¬ i.toNat < arg.size.toNat := hi
    have hsize := hI.size
    omega
  refine ⟨hI.textPointer, hI.size, Nat.le_refl _, fun letter hletter => ?_⟩
  have hcount := hI.counters letter hletter
  simp only [Thread.passed] at hcount ⊢
  rw [hcount, hend]

/-- What holds between the steps of `main` and the threads. -/
structure Inv (text : List (BitVec 8)) (n : Nat) (s : Machine) : Prop where
  thread : ∀ k < n, ThreadInv text n k (s.params k) (s.threads k)
  unborn : ∀ k, n ≤ k → s.threads k = .unborn
  create : ∀ i, s.main = .create i → i ≤ n
    ∧ ∀ k < n, s.threads k = .unborn ↔ i ≤ k
  join : ∀ i, s.main = .join i → i ≤ n
    ∧ (∀ k < i, s.threads k = .returned) ∧ ∀ k < n, s.threads k ≠ .unborn
  fresh : s.main ≠ .finished → ∀ letter, s.resultCounters letter = 0
  finished : s.main = .finished → ∀ letter < lettersNb,
    s.resultCounters letter
      = BitVec.ofNat 32 (text.countP (isLetter letter))

theorem Inv.init (hv : Valid text n) : Inv text n (Machine.init text n) where
  thread _ hk := ThreadInv.init hv hk
  unborn _ _ := rfl
  create i hmain := by
    cases hmain
    exact ⟨Nat.zero_le n, fun k _ => iff_of_true rfl (Nat.zero_le k)⟩
  join _ hmain := nomatch hmain
  fresh _ _ := rfl
  finished hmain := nomatch hmain

/-- What the counters add up to when every thread has returned. -/
theorem gather_text (hv : Valid text n) {s : Machine} (hI : Inv text n s)
    (hreturned : ∀ k < n, s.threads k = .returned)
    (hmain : s.main ≠ .finished) {letter : Nat}
    (hletter : letter < lettersNb) :
    gather n s.params s.resultCounters letter
      = BitVec.ofNat 32 (text.countP (isLetter letter)) := by
  have hcount : ∀ k < n, (s.params k).counters letter
      = BitVec.ofNat 32 ((chunk text n k).countP (isLetter letter)) := by
    intro k hk
    have hthread := hI.thread k hk
    rw [hreturned k hk] at hthread
    rw [hthread.counters letter hletter, Thread.passed,
      List.take_length]
  rw [gather_eq hletter 0 (hI.fresh hmain letter) hcount,
    Nat.zero_add]
  have hsum := sum_countP_piece (cut_monotone text n) (cut_zero hv.pos)
    (isLetter letter) text n
  rw [cut_last, List.take_length] at hsum
  exact congrArg (BitVec.ofNat 32) hsum

theorem ThreadInv.start {k : Nat} {arg : CountParam}
    (hI : ThreadInv text n k arg .unborn) :
    ThreadInv text n k arg (.running 0) :=
  ⟨hI.textPointer, hI.size, hI.passed, hI.counters⟩

/-- A running thread takes a step. -/
theorem Inv.thread_step {s : Machine} (hI : Inv text n s) {k : Nat}
    {i : BitVec 32} (hrunning : s.threads k = .running i) {arg : CountParam}
    {t : Thread} (ht : t ≠ .unborn)
    (hnew : k < n → ThreadInv text n k arg t) :
    Inv text n { s with
      threads := Function.update s.threads k t
      params := Function.update s.params k arg } := by
  have hborn : s.threads k ≠ .unborn := by
    rw [hrunning]
    exact Thread.noConfusion
  have hk : k < n := by
    by_contra hge
    exact hborn (hI.unborn k (Nat.not_lt.mp hge))
  have hother : ∀ j, j ≠ k → Function.update s.threads k t j = s.threads j :=
    fun j hj => Function.update_of_ne hj _ _
  refine ⟨fun j hj => ?_, fun j hj => ?_, fun j hmain => ?_,
    fun j hmain => ?_, hI.fresh, hI.finished⟩
  · by_cases hjk : j = k
    · subst hjk
      simpa only [Function.update_self] using hnew hj
    · simpa only [Function.update_of_ne hjk] using hI.thread j hj
  · dsimp only
    rw [hother j (by omega)]
    exact hI.unborn j hj
  · obtain ⟨hjn, hunborn⟩ := hI.create j hmain
    refine ⟨hjn, fun l hl => ?_⟩
    dsimp only
    by_cases hlk : l = k
    · subst hlk
      rw [Function.update_self]
      exact iff_of_false ht fun hle => hborn ((hunborn l hl).mpr hle)
    · rw [hother l hlk]
      exact hunborn l hl
  · obtain ⟨hjn, hreturned, hall⟩ := hI.join j hmain
    refine ⟨hjn, fun l hl => ?_, fun l hl => ?_⟩
    · have hlk : l ≠ k := by
        rintro rfl
        cases hrunning.symm.trans (hreturned l hl)
      dsimp only
      rw [hother l hlk]
      exact hreturned l hl
    · dsimp only
      by_cases hlk : l = k
      · subst hlk
        rw [Function.update_self]
        exact ht
      · rw [hother l hlk]
        exact hall l hl

theorem Inv.create_step {s : Machine} (hI : Inv text n s) {i : Nat}
    (hmain : s.main = .create i) (hi : i < n) :
    Inv text n { s with
      main := .create (i + 1)
      threads := Function.update s.threads i (.running 0) } := by
  obtain ⟨-, hunborn⟩ := hI.create i hmain
  have hne : s.main ≠ .finished := by
    rw [hmain]
    exact MainPc.noConfusion
  refine ⟨fun k hk => ?_, fun k hk => ?_, fun j hj => ?_,
    (fun _ hj => nomatch hj), fun _ => hI.fresh hne, (fun hj => nomatch hj)⟩
  · dsimp only
    by_cases hki : k = i
    · subst hki
      have hthread := hI.thread k hk
      rw [(hunborn k hk).mpr (Nat.le_refl k)] at hthread
      rw [Function.update_self]
      exact hthread.start
    · rw [Function.update_of_ne hki]
      exact hI.thread k hk
  · dsimp only
    rw [Function.update_of_ne (by omega)]
    exact hI.unborn k hk
  · cases hj
    refine ⟨hi, fun k hk => ?_⟩
    dsimp only
    by_cases hki : k = i
    · subst hki
      rw [Function.update_self]
      exact iff_of_false Thread.noConfusion (Nat.not_succ_le_self k)
    · rw [Function.update_of_ne hki, hunborn k hk]
      omega

theorem inv_step (hv : Valid text n) {s s' : Machine} {a : Act}
    (hI : Inv text n s) (hstep : Steps text n s a s') : Inv text n s' := by
  cases hstep with
  | create i hmain hi => exact hI.create_step hmain hi
  | created i hmain hi =>
      obtain ⟨hin, hunborn⟩ := hI.create i hmain
      have hne : s.main ≠ .finished := by
        rw [hmain]
        exact MainPc.noConfusion
      refine ⟨hI.thread, hI.unborn, (fun _ hj => nomatch hj), fun j hj => ?_,
        fun _ => hI.fresh hne, (fun hj => nomatch hj)⟩
      cases hj
      refine ⟨Nat.zero_le n, fun k hk => absurd hk (Nat.not_lt_zero k),
        fun k hk hborn => ?_⟩
      have hle := (hunborn k hk).mp hborn
      omega
  | join i hmain hi hthread =>
      obtain ⟨-, hreturned, hall⟩ := hI.join i hmain
      have hne : s.main ≠ .finished := by
        rw [hmain]
        exact MainPc.noConfusion
      refine ⟨hI.thread, hI.unborn, (fun _ hj => nomatch hj), fun j hj => ?_,
        fun _ => hI.fresh hne, (fun hj => nomatch hj)⟩
      cases hj
      refine ⟨hi, fun k hk => ?_, hall⟩
      rcases Nat.lt_succ_iff_lt_or_eq.mp hk with hlt | rfl
      · exact hreturned k hlt
      · exact hthread
  | joined i hmain hi =>
      obtain ⟨-, hreturned, -⟩ := hI.join i hmain
      have hne : s.main ≠ .finished := by
        rw [hmain]
        exact MainPc.noConfusion
      refine ⟨hI.thread, hI.unborn, (fun _ hj => nomatch hj),
        (fun _ hj => nomatch hj), fun h => absurd rfl h,
        fun _ letter hletter => ?_⟩
      exact gather_text hv hI (fun k hk => hreturned k (hk.trans_le hi)) hne
        hletter
  | count k i hthread hi =>
      refine hI.thread_step hthread Thread.noConfusion fun hk => ?_
      have hold := hI.thread k hk
      rw [hthread] at hold
      exact hold.count hv hi
  | leave k i hthread hi =>
      have hleft : Inv text n { s with
          threads := Function.update s.threads k .returned
          params := Function.update s.params k (s.params k) } := by
        refine hI.thread_step hthread Thread.noConfusion fun hk => ?_
        have hold := hI.thread k hk
        rw [hthread] at hold
        exact hold.leave hi
      simpa only [Function.update_eq_self] using hleft

theorem inv_run (hv : Valid text n) {acts : List Act} {s : Machine}
    (hrun : run (step text n) (Machine.init text n) acts = some s) :
    Inv text n s :=
  run_inv (I := Inv text n)
    (fun _ _ _ hI hstep => inv_step hv hI (steps_of_step hstep))
    (Inv.init hv) hrun

-- ================================================================= termination

/-- The steps a thread has still to take, at most. -/
def Thread.toGo (size : Nat) : Thread → Nat
  | .unborn => size + 2
  | .running i => size + 1 - i.toNat
  | .returned => 0

/-- Those of `main`. -/
def MainPc.toGo (n : Nat) : MainPc → Nat
  | .create i => (n - i) + n + 3
  | .join i => (n - i) + 1
  | .finished => 0

def work (text : List (BitVec 8)) (n : Nat) (s : Machine) : Nat :=
  s.main.toGo n
    + ∑ k ∈ Finset.range n, (s.threads k).toGo (chunk text n k).length

/-- A step of one thread. -/
theorem sum_toGo_lt {threads : Nat → Thread} {k : Nat} {t : Thread}
    (hk : k < n) (hlt : t.toGo (chunk text n k).length
      < (threads k).toGo (chunk text n k).length) :
    ∑ j ∈ Finset.range n,
        (Function.update threads k t j).toGo (chunk text n j).length
      < ∑ j ∈ Finset.range n, (threads j).toGo (chunk text n j).length := by
  refine Finset.sum_lt_sum (fun j _ => ?_)
    ⟨k, Finset.mem_range.mpr hk, ?_⟩
  · by_cases hjk : j = k
    · subst hjk
      rw [Function.update_self]
      exact hlt.le
    · rw [Function.update_of_ne hjk]
  · rw [Function.update_self]
    exact hlt

theorem Inv.lt_of_running {s : Machine} (hI : Inv text n s) {k : Nat}
    {i : BitVec 32} (hthread : s.threads k = .running i) : k < n := by
  by_contra hge
  cases hthread.symm.trans (hI.unborn k (Nat.not_lt.mp hge))

/-- Every step leaves less to do. -/
theorem work_step (hv : Valid text n) {s s' : Machine} {a : Act}
    (hI : Inv text n s) (hstep : Steps text n s a s') :
    work text n s' < work text n s := by
  cases hstep with
  | create i hmain hi =>
      have hunborn := ((hI.create i hmain).2 i hi).mpr (Nat.le_refl i)
      have hlt : (Thread.running 0).toGo (chunk text n i).length
          < (s.threads i).toGo (chunk text n i).length := by
        rw [hunborn]
        exact Nat.lt_succ_self _
      have hsum := sum_toGo_lt hi hlt
      simp only [work, hmain, MainPc.toGo]
      omega
  | created i hmain hi =>
      simp only [work, hmain, MainPc.toGo]
      omega
  | join i hmain hi hthread =>
      simp only [work, hmain, MainPc.toGo]
      omega
  | joined i hmain hi =>
      simp only [work, hmain, MainPc.toGo]
      omega
  | count k i hthread hi =>
      have hk := hI.lt_of_running hthread
      have hold := hI.thread k hk
      rw [hthread] at hold
      obtain ⟨hlt, hnext⟩ := hold.lt hv hi
      refine Nat.add_lt_add_left (sum_toGo_lt hk ?_) _
      rw [hthread]
      simp only [Thread.toGo, hnext]
      omega
  | leave k i hthread hi =>
      have hk := hI.lt_of_running hthread
      have hold := hI.thread k hk
      rw [hthread] at hold
      have hpassed : i.toNat ≤ (chunk text n k).length := hold.passed
      refine Nat.add_lt_add_left (sum_toGo_lt hk ?_) _
      rw [hthread]
      simp only [Thread.toGo]
      omega

/-- Until `main` has gathered the results something can run. -/
theorem Inv.progress {s : Machine} (hI : Inv text n s)
    (hmain : s.main ≠ .finished) :
    ∃ a, (step text n s a).isSome = true := by
  cases hpc : s.main with
  | create i =>
      refine ⟨.main, ?_⟩
      simp only [step, hpc]
      split <;> rfl
  | join i =>
      obtain ⟨-, -, hborn⟩ := hI.join i hpc
      by_cases hi : i < n
      · cases hthread : s.threads i with
        | unborn => exact absurd hthread (hborn i hi)
        | running j =>
            refine ⟨.thread i, ?_⟩
            simp only [step, hthread]
            split <;> rfl
        | returned =>
            refine ⟨.main, ?_⟩
            simp only [step, hpc, if_pos hi, hthread, if_true]
            rfl
      · refine ⟨.main, ?_⟩
        simp only [step, hpc, if_neg hi]
        rfl
  | finished => exact absurd hpc hmain

-- ============================================================ the letter count

/-- The position is in the chunk a thread is given. -/
def InChunk (arg : CountParam) (pos : Nat) : Prop :=
  arg.textPointer.toNat ≤ pos
    ∧ pos < arg.textPointer.toNat + arg.size.toNat

theorem inChunk_iff (hv : Valid text n) {k : Nat} (hk : k < n) (pos : Nat) :
    InChunk (splitParam text n k) pos
      ↔ cut text n k ≤ pos ∧ pos < cut text n (k + 1) := by
  obtain ⟨hpointer, hsize⟩ := splitParam_spec hv hk
  have hmono := cut_monotone text n (Nat.le_succ k)
  rw [InChunk, hpointer, hsize, Nat.add_sub_cancel' hmono]

/-- Each position of the text is in one chunk. -/
theorem existsUnique_chunk (hv : Valid text n) {pos : Nat}
    (hpos : pos < text.length) :
    ∃! k, k < n ∧ InChunk (splitParam text n k) pos := by
  have hiff : ∀ k, (k < n ∧ InChunk (splitParam text n k) pos)
      ↔ (k < n ∧ cut text n k ≤ pos ∧ pos < cut text n (k + 1)) :=
    fun k => and_congr_right fun hk => inChunk_iff hv hk pos
  simp only [hiff]
  apply existsUnique_piece (cut_monotone text n) (cut_zero hv.pos)
  rw [cut_last]
  exact hpos

theorem chunk_in_text (hv : Valid text n) {k pos : Nat} (hk : k < n)
    (hpos : InChunk (splitParam text n k) pos) : pos < text.length :=
  ((inChunk_iff hv hk pos).mp hpos).2.trans_le (cut_le text n (k + 1))

theorem Inv.counted (hv : Valid text n) {s : Machine} (hI : Inv text n s)
    (hmain : s.main = .finished) {letter : Nat}
    (hletter : letter < lettersNb) :
    (s.resultCounters letter).toNat = text.countP (isLetter letter) := by
  have hle := List.countP_le_length (l := text) (p := isLetter letter)
  have hshort := hv.short
  rw [hI.finished hmain letter hletter, BitVec.toNat_ofNat]
  exact Nat.mod_eq_of_lt (by omega)

/-- The chunks cover each position of the text once and none besides. In
whatever order `main` and the threads take their steps, they can go on
until the results are gathered, which is after a bounded number of
steps, and then each counter is the number of positions that hold its
letter. -/
theorem letters_counted (hv : Valid text n) :
    (∀ pos < text.length, ∃! k, k < n ∧ InChunk (splitParam text n k) pos)
      ∧ (∀ k < n, ∀ pos, InChunk (splitParam text n k) pos →
        pos < text.length)
      ∧ ∀ acts s, run (step text n) (Machine.init text n) acts = some s →
        acts.length ≤ work text n (Machine.init text n)
          ∧ (s.main ≠ .finished →
            ∃ a, (step text n s a).isSome = true)
          ∧ (s.main = .finished → ∀ letter < lettersNb,
            (s.resultCounters letter).toNat
              = text.countP (isLetter letter)) := by
  refine ⟨fun pos hpos => existsUnique_chunk hv hpos,
    fun k hk pos hpos => chunk_in_text hv hk hpos, fun acts s hrun => ?_⟩
  have hI := inv_run hv hrun
  have hbound := run_length_le
    (fun _ _ _ hI hstep => inv_step hv hI (steps_of_step hstep))
    (fun _ _ _ hI hstep => work_step hv hI (steps_of_step hstep))
    (Inv.init hv) hrun
  exact ⟨by omega, hI.progress, fun hmain _ hletter =>
    hI.counted hv hmain hletter⟩

theorem letters_counted_sample :
    (∀ pos < 2, ∃! k, k < 3 ∧ InChunk (splitParam [97, 66] 3 k) pos)
      ∧ ∀ acts s, run (step [97, 66] 3) (Machine.init [97, 66] 3) acts
          = some s → s.main = .finished →
        (s.resultCounters 1).toNat = 1 := by
  have hv : Valid [97, 66] 3 :=
    ⟨by decide, by decide, by decide, by decide⟩
  obtain ⟨hchunks, -, hcount⟩ := letters_counted hv
  exact ⟨hchunks, fun acts s hrun hmain =>
    (hcount acts s hrun).2.2 hmain 1 (by decide)⟩

end SyeLabs.Threads
