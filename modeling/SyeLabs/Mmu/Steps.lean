/-
One turn of the loops of `create_mapping` and `release_mapping`, and the
rule that takes a fact through all of them.

`MapStep` and `ReleaseStep` say all that a turn can do, whatever the
tables hold, and when it returns. Results about a whole call follow from
them by `pieces_ensures`, the rule of a loop over the pieces of a range.
-/
import SyeLabs.Mmu.Pieces

namespace SyeLabs.Mmu

open Lib

variable {H : Type*} {M : Hardware H} {avail : Prop}

-- ==================================================================== the rule

/-- The rule of the loops over the pieces of `[lo, hi)`, with `slot` and
`addr` the cursor: what every turn preserves holds at the end, and the
loop returns if its turns do. -/
theorem pieces_ensures {σ : Type*} (slot addr : σ → Nat) {lo hi : Nat}
    {I : σ → Prop} {body : σ → Option σ} (hhi : hi ≤ addrSpace)
    (step : ∀ s, I s → AtPiece lo hi (slot s) (addr s) →
      Ensures avail (body s) fun u =>
        I u ∧ slot u = slot s + 1 ∧ addr u = l1sectAddrEnd (addr s) hi)
    {s : σ} (hI : I s) (hat : AtPiece lo hi (slot s) (addr s)) :
    Ensures avail (doWhile body (fun s => addr s ≠ hi) 4097 s) fun u =>
      I u ∧ addr u = hi ∧ slot u = (hi - 1) / 1048576 + 1 := by
  have hcount : ∀ {i a}, AtPiece lo hi i a → i ≤ (hi - 1) / 1048576
      ∧ (l1sectAddrEnd a hi = hi ↔ i = (hi - 1) / 1048576) := by
    intro i a h
    obtain ⟨-, hlt, hslot, -⟩ := h
    unfold l1sectAddrEnd
    omega
  refine (Ensures.doWhile
    (I := fun k u => I u
      ∧ ((k = 0 ∧ addr u = hi ∧ slot u = (hi - 1) / 1048576 + 1)
        ∨ (AtPiece lo hi (slot u) (addr u)
          ∧ slot u + k = (hi - 1) / 1048576 + 1)))
    (fun k u hu => ?_) ((hi - 1) / 1048576 - slot s) 4097 ?_
      ⟨hI, Or.inr ⟨hat, ?_⟩⟩).mono fun u hu => ?_
  · obtain ⟨hIu, ⟨hk, -⟩ | ⟨hatu, hk⟩⟩ := hu
    · cases hk
    refine (step u hIu hatu).mono fun u' hu' => ?_
    obtain ⟨hI', hslot, haddr⟩ := hu'
    have hlast := (hcount hatu).2
    rw [decide_eq_true_iff, haddr, hslot]
    by_cases hend : l1sectAddrEnd (addr u) hi = hi
    · have hk0 : k = 0 := by
        have := hlast.mp hend
        omega
      refine ⟨iff_of_false (fun h => h hend) fun h => h hk0, hI', Or.inl ?_⟩
      exact ⟨hk0, hend, by omega⟩
    · have hk0 : k ≠ 0 := by
        intro h0
        exact hend (hlast.mpr (by omega))
      refine ⟨iff_of_true hend hk0, hI', Or.inr ⟨?_, by omega⟩⟩
      exact hatu.next hend
  · unfold addrSpace at hhi
    have := (hcount hat).1
    omega
  · have := (hcount hat).1
    omega
  · obtain ⟨hIu, ⟨-, haddr, hslot⟩ | ⟨hatu, hk⟩⟩ := hu
    · exact ⟨hIu, haddr, hslot⟩
    · have := (hcount hatu).1
      omega

-- ============================================================== create_mapping

/-- A slot has a table, or gets a new one. -/
theorem ensureL2_cases {t t' : PageTables H} {g : Pgtable} {i : Nat}
    {nocache : Bool} (h : ensureL2 M t g i nocache = some t') :
    (t.l1 g i ≠ 0 ∧ t' = t)
      ∨ (t.l1 g i = 0
        ∧ M.heap.alloc t.heap = some (l2Block (t'.l1 g i), t'.heap)
        ∧ l1pteIsTable (t'.l1 g i)
        ∧ (∀ g' j, ¬ (g' = g ∧ j = i) → t'.l1 g' j = t.l1 g' j)
        ∧ ∀ y, (y / 256 = l2Block (t'.l1 g i) → t'.l2 y = 0)
          ∧ (y / 256 ≠ l2Block (t'.l1 g i) → t'.l2 y = t.l2 y)) := by
  unfold ensureL2 at h
  split at h
  next h0 =>
    obtain ⟨b, halloc, hword, hslots, hzero, hwords⟩ := newL2_eq h
    have hblock : l2Block (t'.l1 g i) = b := by
      rw [hword]
      exact l1Word_block M b nocache
    have hsplit : ∀ y, y = y / 256 * 256 + y % 256 := fun y => by omega
    rw [hblock]
    refine Or.inr ⟨h0, halloc, hword ▸ l1Word_isTable M b nocache, hslots,
      fun y => ⟨fun hy => ?_, fun hy => ?_⟩⟩
    · rw [hsplit y, hy]
      exact hzero _ (Nat.mod_lt _ (by decide))
    · rw [hsplit y]
      exact hwords _ hy _ (Nat.mod_lt _ (by decide))
  next hne =>
    cases h
    exact Or.inl ⟨hne, rfl⟩

theorem ensureL2_live {t t' : PageTables H} {g : Pgtable} {i c : Nat}
    {nocache : Bool} (h : ensureL2 M t g i nocache = some t')
    (hc : M.heap.live t.heap c) : M.heap.live t'.heap c := by
  rcases ensureL2_cases h with ⟨-, rfl⟩ | ⟨-, halloc, -⟩
  · exact hc
  · exact M.heap.live_of_alloc halloc hc

/-- No other slot changes, and this one only if it is empty. -/
theorem ensureL2_slot {t t' : PageTables H} {g g' : Pgtable} {i j : Nat}
    {nocache : Bool} (h : ensureL2 M t g i nocache = some t')
    (hj : t.l1 g i ≠ 0 ∨ ¬ (g' = g ∧ j = i)) : t'.l1 g' j = t.l1 g' j := by
  rcases ensureL2_cases h with ⟨-, rfl⟩ | ⟨h0, -, -, hslots, -⟩
  · rfl
  · exact hslots g' j (hj.resolve_left fun hne => hne h0)

/-- The block of a new table has not been in use. -/
theorem ensureL2_new {t t' : PageTables H} {g : Pgtable} {i : Nat}
    {nocache : Bool} (h : ensureL2 M t g i nocache = some t')
    (h0 : t.l1 g i = 0) :
    ¬ M.heap.live t.heap (l2Block (t'.l1 g i))
      ∧ M.heap.live t'.heap (l2Block (t'.l1 g i)) := by
  rcases ensureL2_cases h with ⟨hne, -⟩ | ⟨-, halloc, -⟩
  · exact absurd h0 hne
  · exact ⟨M.heap.alloc_fresh halloc, M.heap.live_self_of_alloc halloc⟩

/-- The words that change are words of a new table. -/
theorem ensureL2_word {t t' : PageTables H} {g : Pgtable} {i y : Nat}
    {nocache : Bool} (h : ensureL2 M t g i nocache = some t')
    (hy : t'.l2 y ≠ t.l2 y) :
    t.l1 g i = 0 ∧ y / 256 = l2Block (t'.l1 g i) := by
  rcases ensureL2_cases h with ⟨-, rfl⟩ | ⟨h0, -, -, -, hwords⟩
  · exact absurd rfl hy
  · refine ⟨h0, ?_⟩
    by_contra hb
    exact hy ((hwords y).2 hb)

/-- The words of a piece are words of one block. -/
theorem AtPiece.word_block {lo hi i addr w y : Nat}
    (h : AtPiece lo hi i addr) (hy : l2pteOffset w addr ≤ y)
    (hy' : y < l2pteOffset w addr
      + (l1sectAddrEnd addr hi - addr) / 4096) : y / 256 = l2Block w := by
  obtain ⟨hin, hout, -⟩ := h.inside
  have hslot := h.slot
  rw [l2pteOffset_eq] at hy hy'
  omega

/-- What one turn of the loop of `create_mapping` does: the slot becomes a
section, or gets an L2 table if it is empty, and the words of the piece
are written in the block its word names. -/
inductive MapStep (M : Hardware H) (g : Pgtable) (hi : Nat)
    (nocache : Bool) (s : SectCursor H) : PageTables H → Prop
  | sect :
      Aligned s.addr (l1sectAddrEnd s.addr hi) s.phys →
      MapStep M g hi nocache s
        (s.t.setL1 g s.l1pte (s.phys % addrSpace + M.attrs.sect nocache))
  | ptes {t : PageTables H} :
      ¬ Aligned s.addr (l1sectAddrEnd s.addr hi) s.phys →
      ensureL2 M s.t g s.l1pte nocache = some t →
      MapStep M g hi nocache s
        (fillL2 M t nocache (l2pteOffset (t.l1 g s.l1pte) s.addr)
          ((l1sectAddrEnd s.addr hi - s.addr) / 4096) (s.phys / 4096))

/-- A turn is a step, and returns if there is memory for the table it
needs. -/
theorem mapPiece_ensures {g : Pgtable} {lo hi : Nat} {nocache : Bool}
    {s : SectCursor H} (hat : AtPiece lo hi s.l1pte s.addr)
    (hlo : lo % 4096 = 0) (hhi : hi % 4096 = 0)
    (havail : avail → ¬ Aligned s.addr (l1sectAddrEnd s.addr hi) s.phys →
      s.t.l1 g s.l1pte = 0 → ∃ r, M.heap.alloc s.t.heap = some r) :
    Ensures avail (mapPiece M g hi nocache s) fun u =>
      MapStep M g hi nocache s u.t ∧ u.l1pte = s.l1pte + 1
        ∧ u.addr = l1sectAddrEnd s.addr hi
        ∧ u.phys = s.phys + (l1sectAddrEnd s.addr hi - s.addr) := by
  obtain ⟨-, -, -, -, hnlt⟩ := hat.bounds
  obtain ⟨hin, hout, -⟩ := hat.inside
  obtain ⟨haddr4, hnext4⟩ := hat.pages hlo hhi
  have hslot := hat.slot
  unfold mapPiece
  refine Ensures.map (Ensures.mono (Q := MapStep M g hi nocache s) ?_
    fun t ht => ⟨ht, rfl, rfl, rfl⟩)
  unfold allocInitSection
  split
  next hal =>
    have hstart : s.addr = s.l1pte * 1048576 := by
      have := hal.1
      omega
    have hend : l1sectAddrEnd s.addr hi = (s.l1pte + 1) * 1048576 := by
      have := hal.2.1
      omega
    have hset : Ensures avail _ _ :=
      setSects_ensures (M := M) s.t g nocache s.l1pte s.phys
    rw [← hend, ← hstart] at hset
    exact Ensures.map (hset.mono fun c hc => hc ▸ MapStep.sect hal)
  next hal =>
    have hens : Ensures avail (ensureL2 M s.t g s.l1pte nocache)
        fun t => ensureL2 M s.t g s.l1pte nocache = some t := by
      refine Ensures.self fun hav => ?_
      unfold ensureL2
      split
      next h0 =>
        obtain ⟨r, hr⟩ := havail hav hal h0
        exact ⟨_, Option.map_eq_some_iff.mpr ⟨r, hr, rfl⟩⟩
      next => exact ⟨_, rfl⟩
    refine hens.bind fun t ht => Ensures.map ?_
    obtain ⟨n, hn⟩ : ∃ n, n + 1 = (l1sectAddrEnd s.addr hi - s.addr) / 4096 :=
      ⟨(l1sectAddrEnd s.addr hi - s.addr) / 4096 - 1, by omega⟩
    have hend : l1sectAddrEnd s.addr hi = s.addr + (n + 1) * 4096 := by omega
    have hfill : Ensures avail _ _ := setPtes_ensures (M := M) t nocache
      (l2pteOffset (t.l1 g s.l1pte) s.addr) s.addr (s.phys / 4096) n
      (by omega)
    rw [← hend, hn] at hfill
    exact hfill.mono fun c hc => hc ▸ MapStep.ptes hal ht

-- ============================================================= release_mapping

/-- The words `x .. x + n - 1` cleared. -/
def eraseL2 (t : PageTables H) (x n : Nat) : PageTables H :=
  { t with l2 := fun y => if x ≤ y ∧ y < x + n then 0 else t.l2 y }

@[simp] theorem eraseL2_l1 (t : PageTables H) (x n : Nat) :
    (eraseL2 t x n).l1 = t.l1 := rfl

@[simp] theorem eraseL2_heap (t : PageTables H) (x n : Nat) :
    (eraseL2 t x n).heap = t.heap := rfl

theorem eraseL2_in {t : PageTables H} {x n y : Nat}
    (h : x ≤ y ∧ y < x + n) : (eraseL2 t x n).l2 y = 0 :=
  if_pos h

theorem eraseL2_out {t : PageTables H} {x n y : Nat}
    (h : y < x ∨ x + n ≤ y) : (eraseL2 t x n).l2 y = t.l2 y :=
  if_neg (by omega)

/-- One more word. -/
theorem eraseL2_succ (t : PageTables H) (x n : Nat) :
    (eraseL2 t x n).setL2 (x + n) 0 = eraseL2 t x (n + 1) := by
  unfold eraseL2 PageTables.setL2
  congr 1
  funext y
  by_cases hy : y = x + n
  · subst hy
    simp
  · have h : y < x + (n + 1) ↔ y < x + n := by omega
    simp [Function.update_of_ne hy, h]

theorem eraseL2_zero (t : PageTables H) (x : Nat) : eraseL2 t x 0 = t := by
  have h : (eraseL2 t x 0).l2 = t.l2 := by
    funext y
    exact eraseL2_out (by omega)
  show { t with l2 := (eraseL2 t x 0).l2 } = t
  rw [h]

/-- The loop of `free_l2_mapping` clears one word for each page. -/
theorem clearPtes_ensures (t : PageTables H) (x addr n : Nat)
    (hn : n < 1048576) :
    Ensures avail (clearPtes (addr + (n + 1) * 4096) ⟨t, x, addr⟩)
      fun s => s.t = eraseL2 t x (n + 1) := by
  refine Ensures.mono
    (Ensures.doWhile
      (I := fun k (s : ClearCursor H) => k ≤ n + 1
        ∧ s.l2pte = x + (n + 1 - k)
        ∧ s.addr = addr + (n + 1 - k) * 4096
        ∧ s.t = eraseL2 t x (n + 1 - k))
      ?_ n 1048576 hn ?_) ?_
  · intro k s h
    obtain ⟨hk, hx, ha, ht⟩ := h
    have hstep : n + 1 - k = n + 1 - (k + 1) + 1 := by omega
    refine Ensures.some ⟨?_, by omega, ?_, ?_, ?_⟩
    · simp only [ha, ne_eq, decide_eq_true_eq]
      omega
    · simp only [hx, hstep, Nat.add_assoc]
    · simp only [ha]
      omega
    · simp only [hx, ht, hstep]
      exact eraseL2_succ t x _
  · simp [eraseL2_zero]
  · intro s h
    obtain ⟨-, -, -, ht⟩ := h
    simpa using ht

/-- One turn of the loop of `free_l1_mapping`. -/
theorem clearSects_ensures (t : PageTables H) (g : Pgtable) (i : Nat) :
    Ensures avail (clearSects g ((i + 1) * 1048576) ⟨t, i, i * 1048576⟩)
      fun s => s.t = t.setL1 g i 0 := by
  rw [clearSects, doWhile_once ?_ (by decide)]
  · exact Ensures.some rfl
  · intro s' hs'
    cases hs'
    simp [Nat.succ_mul]

/-- What one turn of the loop of `release_mapping` does: a slot of the
range is emptied; of any other one the words of the piece are cleared in
the block its word names, which is freed if no word is left. -/
inductive ReleaseStep (M : Hardware H) (g : Pgtable) (hi : Nat)
    (s : SlotCursor H) : PageTables H → Prop
  | whole :
      s.addr % 1048576 = 0 ∧ l1sectAddrEnd s.addr hi % 1048576 = 0 →
      ReleaseStep M g hi s (s.t.setL1 g s.l1pte 0)
  | part :
      ¬ (s.addr % 1048576 = 0 ∧ l1sectAddrEnd s.addr hi % 1048576 = 0) →
      ReleaseStep M g hi s
        (freeIfEmpty M
          (eraseL2 s.t (l2pteOffset (s.t.l1 g s.l1pte) s.addr)
            ((l1sectAddrEnd s.addr hi - s.addr) / 4096)) g s.l1pte)

/-- A turn is a step, and returns. -/
theorem releasePiece_ensures {g : Pgtable} {lo hi : Nat}
    {s : SlotCursor H} (hat : AtPiece lo hi s.l1pte s.addr)
    (hlo : lo % 4096 = 0) (hhi : hi % 4096 = 0) :
    Ensures avail (releasePiece M g hi s) fun u =>
      ReleaseStep M g hi s u.t ∧ u.l1pte = s.l1pte + 1
        ∧ u.addr = l1sectAddrEnd s.addr hi := by
  obtain ⟨-, -, -, -, hnlt⟩ := hat.bounds
  obtain ⟨hin, hout, -⟩ := hat.inside
  obtain ⟨haddr4, hnext4⟩ := hat.pages hlo hhi
  have hslot := hat.slot
  unfold releasePiece
  refine Ensures.map (Ensures.mono (Q := ReleaseStep M g hi s) ?_
    fun t ht => ⟨ht, rfl, rfl⟩)
  unfold freeL1Mapping
  split
  next hal =>
    have hstart : s.addr = s.l1pte * 1048576 := by
      have := hal.1
      omega
    have hend : l1sectAddrEnd s.addr hi = (s.l1pte + 1) * 1048576 := by
      have := hal.2
      omega
    have hset : Ensures avail _ _ := clearSects_ensures s.t g s.l1pte
    rw [← hend, ← hstart] at hset
    exact Ensures.map (hset.mono fun c hc => hc ▸ ReleaseStep.whole hal)
  next hal =>
    refine Ensures.map ?_
    obtain ⟨n, hn⟩ : ∃ n, n + 1 = (l1sectAddrEnd s.addr hi - s.addr) / 4096 :=
      ⟨(l1sectAddrEnd s.addr hi - s.addr) / 4096 - 1, by omega⟩
    have hend : l1sectAddrEnd s.addr hi = s.addr + (n + 1) * 4096 := by omega
    have hclear : Ensures avail _ _ := clearPtes_ensures s.t
      (l2pteOffset (s.t.l1 g s.l1pte) s.addr) s.addr n (by omega)
    rw [← hend, hn] at hclear
    exact hclear.mono fun c hc => hc ▸ ReleaseStep.part hal

end SyeLabs.Mmu
