/-
The age test of WSC mode.

`replaceWSC` takes the first resident page whose reference bit is clear
and whose stamp lies more than `DELTA` below the counter; without one it
falls back to the first resident page. `wscScan_victim` is the scan
without its loop: a search for such a page (`Table.aged`), then a search
for a resident one.

`updateTDU` stamps the pages whose reference bit is set, and runs after
the scan and before the accessed page is marked. So the access itself
leaves no stamp: it is stamped by the next `updateTDU` that still finds
the bit, unless a fault clears it first.
-/
import SyeLabs.MemReplace.Conserve

namespace SyeLabs.MemReplace

-- ================================================================ the age test

/-- The reference bit. -/
def Table.referenced (s : Table) (p : Page) : Bool :=
  checkMask (s.pageTable p) refBitMask

/-- The page passes the age test of `replaceWSC`. -/
def Table.aged (s : Table) (p : Page) : Bool :=
  s.valid p && !s.referenced p
    && decide ((s.tvc.toNat : Int) - (s.tdu p).toNat > delta)

/-- The page `replaceWSC` picks by the age test, if it picks one so. -/
def agedVictim (s : Table) : Option Page :=
  (List.finRange 16).find? s.aged

/-- The search over all pages finds the least that passes. -/
theorem agedVictim_eq_some_iff {s : Table} {v : Page} :
    agedVictim s = some v
      ↔ s.aged v = true ∧ ∀ i, i < v → s.aged i = false := by
  unfold agedVictim
  rw [List.find?_eq_some_iff_getElem]
  refine and_congr_right fun _ => ⟨fun h i hi => ?_, fun h => ?_⟩
  · obtain ⟨k, hk, rfl, hbefore⟩ := h
    rw [List.getElem_finRange] at hi
    simpa using hbefore i.val hi
  · refine ⟨v.val, by simp, by simp, fun j hj => ?_⟩
    simpa using h ⟨j, hj.trans v.isLt⟩ hj

/-- The scan over pages it has not visited yet: the first that passes the
age test, or else the fallback it has or finds. -/
theorem wscScan_victim (s : Table) {is : List Page} (his : is.Nodup) :
    ∀ (pt : Page → BitVec 8) (swap : Option Page),
      (∀ i ∈ is, pt i = s.pageTable i) →
      (wscScan s.tdu s.tvc is pt swap).2
        = (is.find? s.aged).or (swap.or (is.find? s.valid)) := by
  induction is with
  | nil =>
      intro pt swap _
      simp [wscScan]
  | cons i is ih =>
      intro pt swap hpt
      obtain ⟨hi, hnodup⟩ := List.nodup_cons.mp his
      have hpti : pt i = s.pageTable i := hpt i List.mem_cons_self
      have hrest : ∀ j ∈ is, pt j = s.pageTable j :=
        fun j hj => hpt j (List.mem_cons_of_mem i hj)
      rw [wscScan, hpti]
      by_cases hv : checkMask (s.pageTable i) validBitMask = true
      · rw [if_pos hv]
        have hvalid : s.valid i = true := hv
        -- the fallback is set from here on
        have hfall : ((if swap.isNone then some i else swap).or
            (is.find? s.valid)) = swap.or ((i :: is).find? s.valid) := by
          cases swap with
          | none => simp [hvalid]
          | some j => simp
        by_cases href : checkMask (s.pageTable i) refBitMask = true
        · have haged : s.aged i = false := by
            simp [Table.aged, Table.referenced, href]
          have hpt' : ∀ j ∈ is, Function.update pt i
              (unsetMask (s.pageTable i) refBitMask) j = s.pageTable j := by
            intro j hj
            have hji : j ≠ i := fun heq => hi (heq ▸ hj)
            rw [Function.update_of_ne hji]
            exact hrest j hj
          simp only [href, if_true]
          rw [ih hnodup _ _ hpt', hfall,
            List.find?_cons_of_neg (p := s.aged) (by simp [haged])]
        · simp only [href]
          by_cases hold : (s.tvc.toNat : Int) - (s.tdu i).toNat > delta
          · have haged : s.aged i = true := by
              simp [Table.aged, Table.referenced, hvalid, href, hold]
            simp only [hold, if_true]
            rw [List.find?_cons_of_pos haged]
            rfl
          · have haged : s.aged i = false := by
              simp [Table.aged, hold]
            simp only [hold]
            rw [if_neg Bool.false_ne_true, if_neg not_false,
              ih hnodup _ _ hrest, hfall,
              List.find?_cons_of_neg (p := s.aged) (by simp [haged])]
      · have hvalid : s.valid i = false := by
          simpa [Table.valid] using hv
        have haged : s.aged i = false := by
          simp [Table.aged, hvalid]
        rw [if_neg hv, ih hnodup _ _ hrest,
          List.find?_cons_of_neg (p := s.aged) (by simp [haged]),
          List.find?_cons_of_neg (p := s.valid) (by simp [hvalid])]

/-- `replaceWSC` unloads the page of the age test if there is one. -/
theorem replaceWSC_aged {s : Table} {v : Page}
    (hv : agedVictim s = some v) :
    ∃ pt, (∀ q, SameButRef (pt q) (s.pageTable q))
      ∧ replaceWSC s = unload { s with pageTable := pt } (some v) := by
  have hscan := wscScan_victim s (List.nodup_finRange 16) s.pageTable none
    fun i _ => rfl
  have hsame := (wscScan_spec s.tdu s.tvc (List.finRange 16) s.pageTable
    none (fun v hv => absurd hv (Option.not_mem_none v))).1
  unfold agedVictim at hv
  rw [hv, Option.some_or] at hscan
  exact ⟨_, hsame, by rw [replaceWSC, hscan]⟩

/-- Without one it unloads the first resident page. -/
theorem replaceWSC_fallback {s : Table} (hv : agedVictim s = none) :
    ∃ pt, (∀ q, SameButRef (pt q) (s.pageTable q))
      ∧ replaceWSC s = unload { s with pageTable := pt }
          ((List.finRange 16).find? s.valid) := by
  have hscan := wscScan_victim s (List.nodup_finRange 16) s.pageTable none
    fun i _ => rfl
  have hsame := (wscScan_spec s.tdu s.tvc (List.finRange 16) s.pageTable
    none (fun v hv => absurd hv (Option.not_mem_none v))).1
  unfold agedVictim at hv
  rw [hv, Option.none_or, Option.none_or] at hscan
  exact ⟨_, hsame, by rw [replaceWSC, hscan]⟩

-- ============================================================== one WSC access

/-- The scan leaves the pages that are not resident alone. -/
theorem wscScan_of_not_valid (tdu : Page → BitVec 8) (tvc : BitVec 8)
    (is : List Page) {q : Page} :
    ∀ (pt : Page → BitVec 8) (swap : Option Page),
      ¬ checkMask (pt q) validBitMask = true →
      (wscScan tdu tvc is pt swap).1 q = pt q := by
  induction is with
  | nil => exact fun _ _ _ => rfl
  | cons i is ih =>
      intro pt swap hq
      rw [wscScan]
      by_cases hi : checkMask (pt i) validBitMask = true
      · have hqi : q ≠ i := fun heq => hq (heq ▸ hi)
        rw [if_pos hi]
        by_cases href : checkMask (pt i) refBitMask = true
        · simp only [href, if_true]
          have hsame : Function.update pt i
              (unsetMask (pt i) refBitMask) q = pt q :=
            Function.update_of_ne hqi _ _
          rw [ih _ _ (by rw [hsame]; exact hq), hsame]
        · simp only [href]
          by_cases hold : (tvc.toNat : Int) - (tdu i).toNat > delta
          · simp only [hold, if_true]
            rfl
          · simp only [hold]
            exact ih pt _ hq
      · rw [if_neg hi]
        exact ih pt swap hq

/-- Nor does `replaceWSC` change them. -/
theorem replaceWSC_of_not_valid {s : Table} {q : Page}
    (hq : s.valid q = false) :
    (replaceWSC s).pageTable q = s.pageTable q := by
  have hq' : ¬ checkMask (s.pageTable q) validBitMask = true := by
    rw [← Table.valid, hq]
    exact Bool.false_ne_true
  have hscan := wscScan_of_not_valid s.tdu s.tvc (List.finRange 16)
    s.pageTable none hq'
  have hvalid := (wscScan_spec s.tdu s.tvc (List.finRange 16) s.pageTable
    none (fun v hv => absurd hv (Option.not_mem_none v))).2.1
  unfold replaceWSC
  dsimp only
  cases hv : (wscScan s.tdu s.tvc (List.finRange 16) s.pageTable none).2 with
  | none => exact hscan
  | some v =>
      have hne : q ≠ v := fun heq => hq' (heq ▸ hvalid v hv)
      simp only [unload]
      rw [Function.update_of_ne hne]
      exact hscan

/-- The counter moves by one; each stamp stays or becomes the old
counter. -/
theorem access_wsc_clocks (s : Table) (p : Page) :
    (access .wsc s p).tvc = s.tvc + 1
      ∧ ∀ i, (access .wsc s p).tdu i = s.tvc
        ∨ (access .wsc s p).tdu i = s.tdu i := by
  have htvc : ∀ t : Table, t.tvc = s.tvc → t.tdu = s.tdu →
      (updateTDU t).tvc + 1 = s.tvc + 1
        ∧ ∀ i, (updateTDU t).tdu i = s.tvc
          ∨ (updateTDU t).tdu i = s.tdu i := by
    intro t ht hd
    refine ⟨by rw [← ht]; rfl, fun i => ?_⟩
    simp only [updateTDU]
    split
    · exact Or.inl ht
    · exact Or.inr (by rw [hd])
  by_cases hv : s.valid p = true
  · simpa [access, account, hv] using htvc s rfl rfl
  · simpa [access, account, hv] using htvc (replaceWSC s)
      (unload_tvc _ _) (unload_tdu _ _)

/-- The accessed page is referenced afterwards. -/
theorem access_wsc_referenced (s : Table) (p : Page) :
    (access .wsc s p).referenced p = true := by
  have hmark : ∀ x : BitVec 8, checkMask (unsetMask
      (setMask x (validBitMask ||| refBitMask)) swapBitMask) refBitMask
      = true := by decide
  simp only [access, Table.referenced, Function.update_self]
  exact hmark _

/-- A hit clears no reference bit. -/
theorem access_wsc_hit {s : Table} {p i : Page} (hp : s.valid p = true)
    (hi : s.referenced i = true) :
    (access .wsc s p).referenced i = true := by
  by_cases hip : i = p
  · rw [hip]
    exact access_wsc_referenced s p
  · simp only [access, account, hp, if_true, Table.referenced,
      Function.update_of_ne hip]
    exact hi

/-- An access to a page whose reference bit is set stamps it. -/
theorem access_wsc_stamp {s : Table} {p : Page}
    (hp : s.referenced p = true) : (access .wsc s p).tdu p = s.tvc := by
  by_cases hv : s.valid p = true
  · have href : checkMask (s.pageTable p) refBitMask = true := hp
    simp [access, account, hv, updateTDU, href]
  · have hv' : s.valid p = false := by simpa using hv
    have href : checkMask ((replaceWSC s).pageTable p) refBitMask = true := by
      rw [replaceWSC_of_not_valid hv']
      exact hp
    have htvc : (replaceWSC s).tvc = s.tvc := unload_tvc _ _
    simp [access, account, hv, updateTDU, href, htvc]

end SyeLabs.MemReplace
