/-
The kernel area from `mmu_configure` on.

`mmu_configure` maps 64 megabytes of memory at `CONFIG_KERNEL_VADDR`
once, before there is a process, and the kernel runs in that window ever
after, on the page table of whatever process is current. So every process
must find it where it was put.

# The argument

A call of the process code names the table of a process, and none of the
functions of the memory manager writes an L1 word of another table than
the one it is given (`call_sys`); the system table therefore stays as
`mmu_configure` left it. That a process has the kernel words of the system
table whenever no call is under way is part of what isolation rests on
(`Sound.kernel`), the copy window included, which a fork opens in the
table of the parent and closes again.
-/
import SyeLabs.Kernel.Isolation
import SyeLabs.Mmu.Boot

namespace SyeLabs.Kernel

open Lib Mmu Process

variable {P : Platform} {H F : Type*} {B : Board P H F}

-- ============================================================ the other tables

section tables

variable {M : Hardware H} {t t' : PageTables H} {g g' : Pgtable}

theorem setL1_table (t : PageTables H) (i w : Nat) (hg : g' ≠ g) :
    (t.setL1 g i w).l1 g' = t.l1 g' :=
  Function.update_of_ne hg _ _

theorem newL2_table {i : Nat} {nocache : Bool} (hg : g' ≠ g)
    (h : newL2 M t g i nocache = some t') : t'.l1 g' = t.l1 g' := by
  obtain ⟨r, -, rfl⟩ := Option.map_eq_some_iff.mp h
  exact setL1_table _ _ _ hg

theorem ensureL2_table {i : Nat} {nocache : Bool} (hg : g' ≠ g)
    (h : ensureL2 M t g i nocache = some t') : t'.l1 g' = t.l1 g' := by
  unfold ensureL2 at h
  split at h
  · exact newL2_table hg h
  · cases h
    rfl

theorem allocInitPte_table {i addr end_ pfn : Nat} {nocache : Bool}
    (hg : g' ≠ g) (h : allocInitPte M t g i addr end_ pfn nocache = some t') :
    t'.l1 g' = t.l1 g' := by
  obtain ⟨t₁, hens, h⟩ := Option.bind_eq_some_iff.mp h
  obtain ⟨s, hloop, rfl⟩ := Option.map_eq_some_iff.mp h
  refine (doWhile_inv (I := fun s : PteCursor H => s.t.l1 g' = t₁.l1 g')
    (fun s s' hs hbody => ?_) rfl hloop).trans (ensureL2_table hg hens)
  cases hbody
  exact hs

theorem allocInitSection_table {i addr end_ phys : Nat} {nocache : Bool}
    (hg : g' ≠ g)
    (h : allocInitSection M t g i addr end_ phys nocache = some t') :
    t'.l1 g' = t.l1 g' := by
  unfold allocInitSection at h
  split at h
  · obtain ⟨s, hloop, rfl⟩ := Option.map_eq_some_iff.mp h
    refine doWhile_inv (I := fun s : SectCursor H => s.t.l1 g' = t.l1 g')
      (fun s s' hs hbody => ?_) rfl hloop
    cases hbody
    exact (setL1_table _ _ _ hg).trans hs
  · exact allocInitPte_table hg h

/-- `create_mapping` writes L1 words of its own table only. -/
theorem createMapping_table {virt phys size : Nat} {nocache : Bool}
    (hg : g' ≠ g)
    (h : createMapping M t (some g) virt phys size nocache = some t') :
    t'.l1 g' = t.l1 g' := by
  obtain ⟨s, hloop, rfl⟩ := Option.map_eq_some_iff.mp h
  have hinval : (invalSys g s.t).l1 g' = s.t.l1 g' := by
    unfold invalSys
    split <;> rfl
  refine hinval.trans (doWhile_inv
    (I := fun s : SectCursor H => s.t.l1 g' = t.l1 g')
    (fun s s' hs hbody => ?_) rfl hloop)
  obtain ⟨t₁, hsect, rfl⟩ := Option.map_eq_some_iff.mp hbody
  exact (allocInitSection_table hg hsect).trans hs

theorem freeIfEmpty_table (t : PageTables H) (i : Nat) (hg : g' ≠ g) :
    (freeIfEmpty M t g i).l1 g' = t.l1 g' := by
  unfold freeIfEmpty
  dsimp only
  split
  · rfl
  · exact setL1_table _ _ _ hg

theorem freeL1Mapping_table {i addr end_ : Nat} (hg : g' ≠ g)
    (h : freeL1Mapping M t g i addr end_ = some t') :
    t'.l1 g' = t.l1 g' := by
  unfold freeL1Mapping at h
  split at h
  · obtain ⟨s, hloop, rfl⟩ := Option.map_eq_some_iff.mp h
    refine doWhile_inv (I := fun s : SlotCursor H => s.t.l1 g' = t.l1 g')
      (fun s s' hs hbody => ?_) rfl hloop
    cases hbody
    exact (setL1_table _ _ _ hg).trans hs
  · obtain ⟨s, hloop, rfl⟩ := Option.map_eq_some_iff.mp h
    refine (freeIfEmpty_table _ _ hg).trans (doWhile_inv
      (I := fun s : ClearCursor H => s.t.l1 g' = t.l1 g')
      (fun s s' hs hbody => ?_) rfl hloop)
    cases hbody
    exact hs

/-- `release_mapping` too. -/
theorem releaseMapping_table {virt size : Nat} (hg : g' ≠ g)
    (h : releaseMapping M t (some g) virt size = some t') :
    t'.l1 g' = t.l1 g' := by
  obtain ⟨s, hloop, rfl⟩ := Option.map_eq_some_iff.mp h
  refine doWhile_inv (I := fun s : SlotCursor H => s.t.l1 g' = t.l1 g')
    (fun s s' hs hbody => ?_) rfl hloop
  obtain ⟨t₁, hfree, rfl⟩ := Option.map_eq_some_iff.mp hbody
  exact (freeL1Mapping_table hg hfree).trans hs

/-- And `reset_root_pgtable`. -/
theorem resetRootPgtable_table (t : PageTables H) (n : Nat) (hg : g' ≠ g) :
    (resetRootPgtable M t g n).l1 g' = t.l1 g' := by
  unfold resetRootPgtable
  induction n with
  | zero => rfl
  | succ n ih =>
      rw [List.range_succ, List.foldl_append, List.foldl_cons,
        List.foldl_nil]
      refine Eq.trans ?_ ih
      unfold resetSlot
      dsimp only
      split
      · refine (setL1_table _ _ _ hg).trans ?_
        split <;> rfl
      · rfl

end tables

-- ============================================================ the system table

variable {m m' : Machine H F}

theorem copyEntry_sys {p dst i x y j : Nat}
    (h : copyEntry B (.proc p) dst i x y j m = some m') :
    m'.tables.l1 .sys = m.tables.l1 .sys := by
  unfold copyEntry at h
  split at h
  · obtain ⟨⟨f, fr⟩, -, h⟩ := Option.bind_eq_some_iff.mp h
    obtain ⟨t, hmap, h⟩ := Option.bind_eq_some_iff.mp h
    obtain ⟨d, -, h⟩ := Option.bind_eq_some_iff.mp h
    obtain ⟨s, -, rfl⟩ := Option.map_eq_some_iff.mp h
    have htable : t.l1 .sys = m.tables.l1 .sys :=
      createMapping_table Pgtable.noConfusion hmap
    exact htable
  · cases h
    rfl

theorem copySlot_sys {p src dst i : Nat}
    (h : copySlot B (.proc p) src dst i m = some m') :
    m'.tables.l1 .sys = m.tables.l1 .sys := by
  unfold copySlot at h
  dsimp only at h
  split at h
  · split at h
    · cases h
    · obtain ⟨t, hnew, h⟩ := Option.bind_eq_some_iff.mp h
      exact forRange_inv (I := fun m₁ : Machine H F =>
        m₁.tables.l1 .sys = m.tables.l1 .sys)
        (newL2_table Pgtable.noConfusion hnew)
        (fun j s s' _ hs hbody => (copyEntry_sys hbody).trans hs) h
  · cases h
    rfl

/-- No call of the process code writes an L1 word of the system table. -/
theorem call_sys {c : Call} (h : call B m c = some m') :
    m'.tables.l1 .sys = m.tables.l1 .sys := by
  cases c with
  | newRootPgtable p =>
      cases h
      funext i
      exact newTable_other Pgtable.noConfusion i
  | mapRootImage p =>
      obtain ⟨t, hmap, rfl⟩ := Option.map_eq_some_iff.mp h
      have htable : t.l1 .sys = m.tables.l1 .sys :=
        createMapping_table Pgtable.noConfusion hmap
      exact htable
  | allocatePage p virtAddr nrPages =>
      refine forRange_inv (I := fun m₁ : Machine H F =>
        m₁.tables.l1 .sys = m.tables.l1 .sys) rfl
        (fun i s s' _ hs hbody => ?_) h
      obtain ⟨r, -, hbody⟩ := Option.bind_eq_some_iff.mp hbody
      obtain ⟨t, hmap, rfl⟩ := Option.map_eq_some_iff.mp hbody
      have htable : t.l1 .sys = _ :=
        createMapping_table Pgtable.noConfusion hmap
      exact htable.trans hs
  | duplicateUserSpace src dst =>
      obtain ⟨m₁, hloop, h⟩ := Option.bind_eq_some_iff.mp h
      obtain ⟨t, hrelease, rfl⟩ := Option.map_eq_some_iff.mp h
      have htable : t.l1 .sys = m₁.tables.l1 .sys :=
        releaseMapping_table Pgtable.noConfusion hrelease
      exact htable.trans
        (forRange_inv (I := fun m₁ : Machine H F =>
          m₁.tables.l1 .sys = m.tables.l1 .sys) rfl
          (fun i s s' _ hs hbody => (copySlot_sys hbody).trans hs) hloop)
  | resetRootPgtable p remove =>
      cases h
      exact resetRootPgtable_table _ _ Pgtable.noConfusion
  | releaseProcPages p =>
      cases h
      rfl
  | _ =>
      cases h
      rfl

theorem calls_sys {cs : List Call} (h : calls B m cs = some m') :
    m'.tables.l1 .sys = m.tables.l1 .sys :=
  run_inv (I := fun m₁ : Machine H F =>
    m₁.tables.l1 .sys = m.tables.l1 .sys)
    (fun _ _ _ hs hcall => (call_sys hcall).trans hs) rfl h

-- ==================================================================== the runs

variable {S : SectHelper} {C : BootConfig P} {fdtAddr : Nat}
  (elfLoadBuffer : CString → Option Elf)
  (threadJoin : Option Tid → Option Tid)

theorem perform_sys {K K' : State H F} {op : Op} (h : Audited B K)
    (hop : perform B elfLoadBuffer threadJoin K op = some K') :
    K'.mach.tables.l1 .sys = K.mach.tables.l1 .sys := by
  obtain ⟨cs, hcs, -⟩ := perform_caused B elfLoadBuffer threadJoin h.noPtrace
    hop
  exact calls_sys hcs

/-- The tables at boot, where nothing is mapped at the copy window. -/
theorem mmuConfigure_bootTables (t : PageTables H) (hfdt : fdtAddr % 4 = 0)
    (hfix : bootMap C fdtAddr P.fixmapMapping = none) :
    BootTables B (mmuConfigure S C t fdtAddr) := by
  refine ⟨mmuConfigure_wellFormed t hfdt, Or.inl ?_⟩
  have hslot := mmuConfigure_slot S C t fdtAddr (fixSlot_lt P)
  rcases bootWord_cases (S := S) (C := C) hfdt (fixSlot P) with h0 | hs
  · exact hslot.trans h0
  · have hwalk := walk_of_bootWord (v := P.fixmapMapping) hfdt hslot
    rw [hfix, walk_of_sect (hslot.symm ▸ hs)] at hwalk
    cases hwalk

/-- The kernel of a run, with the system table of `mmu_configure`. -/
structure Windowed (B : Board P H F) (S : SectHelper) (C : BootConfig P)
    (fdtAddr : Nat) (K : State H F) : Prop where
  isolated : Isolated B K
  sys : ∀ i, i < 4096 → K.mach.tables.l1 .sys i = bootWord S C fdtAddr i

theorem windowed_create {t : PageTables H} {pool : F}
    {page : Nat → Nat → UInt8} {K : State H F} (hfdt : fdtAddr % 4 = 0)
    (hfix : bootMap C fdtAddr P.fixmapMapping = none)
    (h : perform B elfLoadBuffer threadJoin
      (State.boot (mmuConfigure S C t fdtAddr) pool page) .create = some K) :
    Windowed B S C fdtAddr K := by
  refine ⟨isolated_create elfLoadBuffer threadJoin
    (mmuConfigure_bootTables t hfdt hfix) h, fun i hi => ?_⟩
  rw [perform_sys elfLoadBuffer threadJoin (audited_boot _ pool page) h]
  exact mmuConfigure_slot S C t fdtAddr hi

theorem windowed_perform {K K' : State H F} {op : Op}
    (h : Windowed B S C fdtAddr K) (hfits : op.Fits P elfLoadBuffer)
    (hop : perform B elfLoadBuffer threadJoin K op = some K') :
    Windowed B S C fdtAddr K' := by
  refine ⟨isolated_perform elfLoadBuffer threadJoin h.isolated hfits hop,
    fun i hi => ?_⟩
  rw [perform_sys elfLoadBuffer threadJoin h.isolated.audited hop]
  exact h.sys i hi

/-- Every process has the words of `mmu_configure` in its kernel area. -/
theorem Windowed.walk {K : State H F} (h : Windowed B S C fdtAddr K)
    (hfdt : fdtAddr % 4 = 0) {q : Ref} (hq : q < K.sys.k.nextRef) {v : Nat}
    (hv : P.kernelVaddr ≤ v) (hv' : v < addrSpace) :
    Mmu.walk K.mach.tables (.proc q) v = bootMap C fdtAddr v := by
  have hi : P.userSlots ≤ l1pteIndex v := Nat.div_le_div_right hv
  have hi' : l1pteIndex v < 4096 := by
    unfold l1pteIndex addrSpace at *
    omega
  apply walk_of_bootWord hfdt
  rw [h.isolated.sound.kernel q _ hq hi hi']
  exact h.sys _ hi'

/-- In every run from `mmu_configure` on that creates the root process and
then forks, exits and executes images that fit, the system table stays as
it was configured, and every process, dead or alive, translates the whole
kernel area as it was configured: the 64 megabytes of the window one to
one, and the copy window not at all. -/
theorem kernel_window (t : PageTables H) (pool : F)
    (page : Nat → Nat → UInt8) (ops : List Op) (K : State H F)
    (hfdt : fdtAddr % 4 = 0)
    (hfix : bootMap C fdtAddr P.fixmapMapping = none)
    (hops : ∀ op ∈ ops, op.Fits P elfLoadBuffer)
    (h : run (perform B elfLoadBuffer threadJoin)
      (State.boot (mmuConfigure S C t fdtAddr) pool page) (.create :: ops)
      = some K) :
    (∀ v, v < addrSpace → walk K.mach.tables .sys v = bootMap C fdtAddr v)
    ∧ ∀ q, q < K.sys.k.nextRef → ∀ v, P.kernelVaddr ≤ v → v < addrSpace →
      walk K.mach.tables (.proc q) v = bootMap C fdtAddr v := by
  obtain ⟨K₁, hcreate, hrun⟩ := run_cons_iff.mp h
  have hK : Windowed B S C fdtAddr K :=
    run_inv_along (I := fun K => Windowed B S C fdtAddr K)
      (fun _ _ _ hK hfits hop =>
        windowed_perform elfLoadBuffer threadJoin hK hfits hop)
      (windowed_create elfLoadBuffer threadJoin hfdt hfix hcreate)
      (along_of_forall hops K₁) hrun
  refine ⟨fun v hv => walk_of_bootWord hfdt (hK.sys _ ?_),
    fun q hq v hv hv' => hK.walk hfdt hq hv hv'⟩
  unfold l1pteIndex addrSpace at *
  omega

/-- The small layout with the copy window above the kernel window. -/
def highFixmap : Platform :=
  { Platform.small with
    fixmapMapping := 0x5000000
    fixmapMapping_aligned := rfl
    fixmapMapping_kernel := by decide
    fixmapMapping_lt := by decide }

def highFixmapConfig : BootConfig highFixmap where
  ramBase := 0x80000000
  uartLlPaddr := 0x9000000
  ramBase_aligned := rfl
  ramBase_lt := by decide
  window_lt := by decide
  uartLlPaddr_aligned := rfl
  uartLlPaddr_lt := by decide

def Board.highFixmap : Board highFixmap (FreeList BlockOk)
    (FreeList (FrameOk highFixmap)) where
  hw := .sample
  pool := freeList (FrameOk Kernel.highFixmap)

/-- That layout when the MMU is on, with eight blocks of heap and ten free
frames. -/
def State.highFixmap :
    State (FreeList BlockOk) (FreeList (FrameOk highFixmap)) :=
  State.boot
    (mmuConfigure .sample highFixmapConfig
      { PageTables.sample with
        heap := ⟨[2, 3, 4, 5, 6, 7, 8, 9], by decide, by decide⟩ }
      0x84000008)
    ⟨[100, 101, 102, 103, 104, 105, 106, 107, 108, 109], by decide,
      by decide⟩
    fun _ _ => 0

set_option maxRecDepth 4096 in
/-- A child finds the last page of the window. -/
theorem kernel_window_child :
    ∃ K, run (perform Board.highFixmap onePage id) State.highFixmap
        [.create, .proc (.fork 0 0)] = some K
      ∧ walk K.mach.tables (.proc 1) 0x41FF000 = some 0x83FFF000 := by
  have hret : ∃ K, run (perform Board.highFixmap onePage id)
        State.highFixmap [.create, .proc (.fork 0 0)] = some K
      ∧ K.sys.k.nextRef = 2 :=
    ⟨_, rfl, rfl⟩
  obtain ⟨K, hK, hnext⟩ := hret
  refine ⟨K, hK, ?_⟩
  refine ((kernel_window onePage id _ _ _ [.proc (.fork 0 0)] K (by decide)
    (by decide) ?_ hK).2 1 (hnext.ge) 0x41FF000 (by decide)
    (by decide)).trans (by decide)
  intro op hop
  obtain rfl := List.mem_singleton.mp hop
  trivial

end SyeLabs.Kernel
