/-
The kernel area of the page tables of the processes.

A new process gets a copy of the L1 words of the kernel area of the
system table. The words of an L2 table are shared through the copies,
the L1 words are not: what a later `create_mapping` or `release_mapping`
on the system table does is seen by the processes there are as long as
it changes no L1 word. An empty slot that gets an L2 table or a section,
a section that is released and an L2 table that is freed with its last
page are changes the copies miss; in the last case they go on referring
to memory that was freed.

`SharedCall` is a call that changes no L1 word while there is a process,
by the slots of its range, and `kernel_area_agrees` is that the
translations of the kernel area agree in every state of a run of such
calls.
-/
import SyeLabs.Kernel.Machine
import SyeLabs.Mmu.Effects

namespace SyeLabs.Kernel

open Lib Mmu

variable {H : Type*} (P : Platform) (M : Hardware H)

-- ==================================================================== the runs

/-- The page tables and the processes that have one. -/
structure KernelTables (H : Type*) where
  tables : PageTables H
  procs : List Nat

/-- The calls that make a table of a process, or change the kernel area
of the system table. -/
inductive AreaCall
  | newProcess (p : Nat)
  | createMapping (virt phys size : Nat) (nocache : Bool)
  | releaseMapping (virt size : Nat)

/-- A range of the kernel area. -/
def InKernelArea (virt size : Nat) : Prop :=
  P.kernelVaddr ≤ virt ∧ 1 ≤ size ∧ virt + size ≤ addrSpace

instance (virt size : Nat) : Decidable (InKernelArea P virt size) :=
  inferInstanceAs (Decidable (_ ∧ _ ∧ _))

/-- One call. `memalign` gives the table of a process that is created to
no other one. -/
def areaCall (s : KernelTables H) : AreaCall → Option (KernelTables H)
  | .newProcess p =>
      if p ∈ s.procs then none
      else
        let t := newRootPgtable s.tables (.proc p)
        some ⟨pgtableCopyKernelArea P t (.proc p), p :: s.procs⟩
  | .createMapping virt phys size nocache =>
      if InKernelArea P virt size then
        (createMapping M s.tables none virt phys size nocache).map
          fun t => { s with tables := t }
      else none
  | .releaseMapping virt size =>
      if InKernelArea P virt size then
        (releaseMapping M s.tables none virt size).map
          fun t => { s with tables := t }
      else none

/-- Every process translates the kernel area as the system table does. -/
def KernelAreaAgrees (s : KernelTables H) : Prop :=
  ∀ p ∈ s.procs, ∀ addr, P.kernelVaddr ≤ addr → addr < addrSpace →
    walk s.tables (.proc p) addr = walk s.tables .sys addr

-- =============================================================== the condition

/-- `create_mapping` on the pages `[lo, hi)` finds the sections it sets
in place, and no empty slot where it needs an L2 table. -/
def CreateShared (t : PageTables H) (lo hi phys : Nat) (nocache : Bool) :
    Prop :=
  ∀ i, lo / 1048576 ≤ i → i * 1048576 < hi →
    (SectPiece lo hi phys i →
      t.l1 .sys i = (phys + (i * 1048576 - lo)) % addrSpace
        + M.attrs.sect nocache)
    ∧ (¬ SectPiece lo hi phys i → t.l1 .sys i ≠ 0)

/-- The L2 words of the pages `[lo, hi)`. -/
def Cleared (t : PageTables H) (lo hi y : Nat) : Prop :=
  ∃ a, lo ≤ a ∧ a < hi
    ∧ y = l2pteOffset (t.l1 .sys (l1pteIndex a)) a

/-- `release_mapping` on the pages `[lo, hi)` finds each slot empty or
not all of it released, with a word in its L2 table that stays. -/
def ReleaseShared (t : PageTables H) (lo hi : Nat) : Prop :=
  ∀ i, lo / 1048576 ≤ i → i * 1048576 < hi →
    t.l1 .sys i = 0
    ∨ (¬ (lo ≤ i * 1048576 ∧ (i + 1) * 1048576 ≤ hi)
      ∧ ∃ x, x < 256 ∧ t.l2 (l2pteFirst (t.l1 .sys i) + x) ≠ 0
        ∧ ¬ Cleared t lo hi (l2pteFirst (t.l1 .sys i) + x))

/-- A call that changes no L1 word of the system table while there is a
process. -/
def SharedCall (s : KernelTables H) : AreaCall → Prop
  | .newProcess _ => True
  | .createMapping virt phys size nocache =>
      s.procs = [] ∨ CreateShared M s.tables (pageStart virt)
        (pageEnd virt size) phys nocache
  | .releaseMapping virt size =>
      s.procs = [] ∨ ReleaseShared s.tables (pageStart virt)
        (pageEnd virt size)

-- ============================================================== create_mapping

variable {P} {M}

/-- To write the word a slot holds changes nothing. -/
theorem setL1_l1_of_eq {t : PageTables H} {g : Pgtable} {i w : Nat}
    (h : t.l1 g i = w) : (t.setL1 g i w).l1 = t.l1 := by
  subst h
  show Function.update t.l1 g (Function.update (t.l1 g) i (t.l1 g i)) = _
  rw [Function.update_eq_self, Function.update_eq_self]

/-- A turn whose slot is as the call would make it, or already holds an L2
table. -/
theorem mapStep_l1 {s : SectCursor H} {t : PageTables H} {hi : Nat}
    {nocache : Bool}
    (hsect : Aligned s.addr (l1sectAddrEnd s.addr hi) s.phys →
      s.t.l1 .sys s.l1pte = s.phys % addrSpace + M.attrs.sect nocache)
    (hpage : ¬ Aligned s.addr (l1sectAddrEnd s.addr hi) s.phys →
      s.t.l1 .sys s.l1pte ≠ 0)
    (h : MapStep M .sys hi nocache s t) : t.l1 = s.t.l1 := by
  cases h with
  | sect hal => exact setL1_l1_of_eq (hsect hal)
  | ptes hal hens =>
      rw [ensureL2, if_neg (hpage hal)] at hens
      cases hens
      rfl

/-- A call that finds the slots of its range filled changes no L1
word. -/
theorem createMapping_l1 {t t' : PageTables H}
    {virt phys size : Nat} {nocache : Bool} (hsize : 1 ≤ size)
    (hvirt : virt + size ≤ addrSpace)
    (hshared : CreateShared M t (pageStart virt) (pageEnd virt size) phys
      nocache)
    (h : createMapping M t none virt phys size nocache = some t') :
    t'.l1 = t.l1 := by
  obtain ⟨hlo4, hhi4, hlt, hspace, -⟩ := pageEnd_bounds hsize hvirt
  have hl1 : Ensures False (createMapping M t none virt phys size nocache)
      fun t' => t'.l1 = t.l1 := by
    unfold createMapping
    refine Ensures.map ((pieces_ensures SectCursor.l1pte SectCursor.addr
      (I := fun s : SectCursor H => s.t.l1 = t.l1
        ∧ s.phys = phys + (s.addr - pageStart virt)) hspace ?_
      ⟨rfl, ?_⟩ (AtPiece.first hlt)).mono fun s hs => hs.1.1)
    · intro s hI hat
      obtain ⟨hl1, hphys⟩ := hI
      refine (mapPiece_ensures hat hlo4 hhi4 False.elim).mono fun u hu => ?_
      obtain ⟨hstep, hslot', haddr', hphys'⟩ := hu
      obtain ⟨hi, hi', haddr, hnext, hnlt⟩ := hat.bounds
      obtain ⟨hsect, hpage⟩ := hshared s.l1pte hi hi'
      have hle := hat.lo_le
      have hoff : s.addr - pageStart virt
          = s.l1pte * 1048576 - pageStart virt := by
        omega
      have halign := hat.sectPiece_iff hphys
      refine ⟨⟨?_, ?_⟩, hslot', haddr'⟩
      · rw [← hl1]
        refine mapStep_l1 (fun hal => ?_) (fun hal => ?_) hstep
        · rw [hl1, hphys, hoff]
          exact hsect (halign.mpr hal)
        · rw [hl1]
          exact hpage fun hs => hal (halign.mp hs)
      · rw [hphys', haddr', hphys, Nat.add_assoc, Nat.add_comm (s.addr - _),
          Nat.sub_add_sub_cancel hnlt.le hle]
    · simp
  exact hl1.1 t' h

-- ============================================================= release_mapping

/-- A call that leaves a word in every slot of its range changes no L1
word. -/
theorem releaseMapping_l1 {t t' : PageTables H} {virt size : Nat}
    (hsize : 1 ≤ size) (hvirt : virt + size ≤ addrSpace)
    (hshared : ReleaseShared t (pageStart virt) (pageEnd virt size))
    (h : releaseMapping M t none virt size = some t') : t'.l1 = t.l1 := by
  obtain ⟨-, -, hlt, -⟩ := pageEnd_bounds hsize hvirt
  obtain ⟨s, hend, rfl, hr⟩ :=
    (releaseMapping_releasing none hsize hvirt).1 t' h
  funext g j
  by_cases hout : g ≠ .sys ∨ j < pageStart virt / 1048576 ∨ s.l1pte ≤ j
  · exact hr.slots g j hout
  · obtain ⟨rfl, hj, hj'⟩ : g = .sys ∧ pageStart virt / 1048576 ≤ j
        ∧ j < s.l1pte := by
      push Not at hout
      exact hout
    have hrange : j * 1048576 < pageEnd virt size := by omega
    by_cases hpart : PartOf (pageStart virt) (pageEnd virt size) j
    · rcases hr.left j hpart hj' with ⟨-, hkept⟩ | ⟨hnone, hempty⟩
      · exact hkept
      · rcases hshared j hj hrange with h0 | ⟨-, x, hx, hne, hnc⟩
        · exact hempty.trans h0.symm
        · refine absurd ⟨x, hx, hne, fun hc => hnc ?_⟩ hnone
          obtain ⟨a, ha, ha', -, -, hword⟩ := hc
          exact ⟨a, ha, ha', hword⟩
    · rcases hshared j hj hrange with h0 | ⟨hnot, -⟩
      · exact (hr.whole j hj hj' hpart).trans h0.symm
      · exact absurd ⟨hj, hrange, hnot⟩ hpart

-- ==================================================================== the runs

/-- The processes hold the kernel words of the system table. -/
def SharedSlots (P : Platform) (s : KernelTables H) : Prop :=
  ∀ p ∈ s.procs, ∀ i, P.userSlots ≤ i → i < 4096 →
    s.tables.l1 (.proc p) i = s.tables.l1 .sys i

theorem newProcess_shared {s : KernelTables H} (h : SharedSlots P s)
    (p : Nat) :
    SharedSlots P ⟨pgtableCopyKernelArea P
      (newRootPgtable s.tables (.proc p)) (.proc p), p :: s.procs⟩ := by
  intro q hq i hi hi'
  have hsys : (pgtableCopyKernelArea P
      (newRootPgtable s.tables (.proc p)) (.proc p)).l1 .sys
        = s.tables.l1 .sys := by
    simp [pgtableCopyKernelArea, newRootPgtable]
  by_cases hqp : q = p
  · subst hqp
    rw [hsys]
    simp [pgtableCopyKernelArea, newRootPgtable, hi, hi']
  · have hmem := (List.mem_cons.mp hq).resolve_left hqp
    rw [hsys, ← h q hmem i hi hi']
    simp [pgtableCopyKernelArea, newRootPgtable, hqp]

/-- Tables with the same L1 words. -/
theorem SharedSlots.of_l1 {s : KernelTables H} {t : PageTables H}
    (h : SharedSlots P s) (hl1 : t.l1 = s.tables.l1) :
    SharedSlots P { s with tables := t } := by
  intro p hp i hi hi'
  show t.l1 (.proc p) i = t.l1 .sys i
  rw [hl1]
  exact h p hp i hi hi'

theorem SharedSlots.of_nil {s : KernelTables H} (h : s.procs = []) :
    SharedSlots P s := by
  intro p hp
  rw [h] at hp
  exact absurd hp List.not_mem_nil

theorem areaCall_shared {s s' : KernelTables H} {c : AreaCall}
    (h : SharedSlots P s) (hc : SharedCall M s c)
    (hstep : areaCall P M s c = some s') : SharedSlots P s' := by
  cases c with
  | newProcess p =>
      simp only [areaCall] at hstep
      split at hstep
      · cases hstep
      · cases hstep
        exact newProcess_shared h p
  | createMapping virt phys size nocache =>
      simp only [areaCall] at hstep
      split at hstep
      next hr =>
        obtain ⟨t, ht, rfl⟩ := Option.map_eq_some_iff.mp hstep
        rcases hc with hnil | hshared
        · exact SharedSlots.of_nil hnil
        · exact h.of_l1 (createMapping_l1 hr.2.1 hr.2.2 hshared ht)
      next => cases hstep
  | releaseMapping virt size =>
      simp only [areaCall] at hstep
      split at hstep
      next hr =>
        obtain ⟨t, ht, rfl⟩ := Option.map_eq_some_iff.mp hstep
        rcases hc with hnil | hshared
        · exact SharedSlots.of_nil hnil
        · exact h.of_l1 (releaseMapping_l1 hr.2.1 hr.2.2 hshared ht)
      next => cases hstep

/-- Equal L1 words make equal walks. -/
theorem SharedSlots.agrees {s : KernelTables H} (h : SharedSlots P s) :
    KernelAreaAgrees P s := by
  intro p hp addr hk haddr
  have hi : P.userSlots ≤ l1pteIndex addr := Nat.div_le_div_right hk
  have hi' : l1pteIndex addr < 4096 := by
    unfold l1pteIndex addrSpace at *
    omega
  exact walk_congr (h p hp _ hi hi') fun _ => rfl

variable (P M)

/-- In every run that starts without a process and in which the calls on
the kernel area change no L1 word while there is one, every process
translates the kernel area as the system table does. -/
theorem kernel_area_agrees (t : PageTables H) (calls : List AreaCall)
    (s : KernelTables H)
    (hshared : Along (areaCall P M) (SharedCall M) ⟨t, []⟩ calls)
    (hrun : run (areaCall P M) ⟨t, []⟩ calls = some s) :
    KernelAreaAgrees P s := by
  refine SharedSlots.agrees
    (run_inv_along (I := SharedSlots P) ?_ ?_ hshared hrun)
  · exact fun s c s' h hc hs => areaCall_shared h hc hs
  · exact SharedSlots.of_nil rfl

/-- A page of the L2 table that a process shares is mapped and another
one released. -/
theorem kernel_area_agrees_one_process :
    ∃ s, run (areaCall .small .sample) ⟨.sample, []⟩
        [.createMapping 0x400000 0x80000000 4096 false, .newProcess 1,
          .createMapping 0x401000 0x80001000 4096 false,
          .releaseMapping 0x400000 4096] = some s
      ∧ walk s.tables (.proc 1) 0x401000 = some 0x80001000
      ∧ KernelAreaAgrees .small s := by
  refine ⟨_, rfl, rfl, kernel_area_agrees .small .sample .sample
    [.createMapping 0x400000 0x80000000 4096 false, .newProcess 1,
      .createMapping 0x401000 0x80001000 4096 false,
      .releaseMapping 0x400000 4096] _ ?_ rfl⟩
  refine along_cons_iff.mpr ⟨Or.inl rfl, fun s₁ h₁ => ?_⟩
  cases h₁
  refine along_cons_iff.mpr ⟨trivial, fun s₂ h₂ => ?_⟩
  cases h₂
  refine along_cons_iff.mpr ⟨Or.inr fun i hi hi' => ?_, fun s₃ h₃ => ?_⟩
  · have hlo : pageStart 0x401000 = 0x401000 := rfl
    have hhi : pageEnd 0x401000 4096 = 0x402000 := rfl
    rw [hlo] at hi ⊢
    rw [hhi] at hi' ⊢
    obtain rfl : i = 4 := by omega
    have hnot : ¬ SectPiece 0x401000 0x402000 0x80001000 4 :=
      fun h => absurd h.1 (by decide)
    exact ⟨fun h => absurd h hnot, fun _ => by decide⟩
  · cases h₃
    refine along_cons_iff.mpr ⟨Or.inr fun i hi hi' => ?_, fun s₄ _ => trivial⟩
    have hlo : pageStart 0x400000 = 0x400000 := rfl
    have hhi : pageEnd 0x400000 4096 = 0x401000 := rfl
    rw [hlo] at hi ⊢
    rw [hhi] at hi' ⊢
    obtain rfl : i = 4 := by omega
    -- the word of the other page stays
    refine Or.inr ⟨by decide, 1, by decide, by decide, ?_⟩
    intro h
    obtain ⟨a, ha, ha', heq⟩ := h
    have hidx : l1pteIndex a = 4 := by
      unfold l1pteIndex
      omega
    rw [hidx, l2pteOffset_eq _ a] at heq
    have hfirst : a / 4096 % 256 = 0 := by omega
    rw [hfirst] at heq
    exact absurd heq (by decide)

set_option maxRecDepth 4096 in
/-- The last page of an L2 table is released while a process holds the
address of the table, and the next table takes its memory: the process
translates an address that nothing is mapped at, and does not see the
new mapping. -/
theorem kernel_area_stale_table :
    ∃ s, run (areaCall .small .sample) ⟨.sample, []⟩
        [.createMapping 0x400000 0x80000000 4096 false, .newProcess 1,
          .releaseMapping 0x400000 4096,
          .createMapping 0x500000 0x80001000 4096 false] = some s
      ∧ walk s.tables .sys 0x400000 = none
      ∧ walk s.tables (.proc 1) 0x400000 = some 0x80001000
      ∧ walk s.tables .sys 0x500000 = some 0x80001000
      ∧ walk s.tables (.proc 1) 0x500000 = none
      ∧ ¬ KernelAreaAgrees .small s := by
  have hret : ∃ s, run (areaCall .small .sample) ⟨.sample, []⟩
        [.createMapping 0x400000 0x80000000 4096 false, .newProcess 1,
          .releaseMapping 0x400000 4096,
          .createMapping 0x500000 0x80001000 4096 false] = some s
      ∧ 1 ∈ s.procs
      ∧ walk s.tables .sys 0x400000 = none
      ∧ walk s.tables (.proc 1) 0x400000 = some 0x80001000
      ∧ walk s.tables .sys 0x500000 = some 0x80001000
      ∧ walk s.tables (.proc 1) 0x500000 = none :=
    ⟨_, rfl, List.mem_singleton.mpr rfl, rfl, rfl, rfl, rfl⟩
  obtain ⟨s, hs, hp, hsys, hproc, hnew, hunseen⟩ := hret
  refine ⟨s, hs, hsys, hproc, hnew, hunseen, fun h => ?_⟩
  have hwalk := h 1 hp 0x400000 (by decide) (by decide)
  rw [hsys, hproc] at hwalk
  cases hwalk

end SyeLabs.Kernel
