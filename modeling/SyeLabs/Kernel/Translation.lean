/-
What `sys_translate` tells a process.

`do_translate` is wrong about sections and about large pages. Neither is
in the user area of a process: the L2 words there are small pages, and
the one thing that can become a section is the image of the root process,
which `create_root_process` maps in one piece. A fork copies pages only,
and an exec maps page by page, so every process but the first, and the
first from its exec on, has no section (`Orderly.noSection_run`). The
address such a process is told is therefore the one its byte is stored
at, in a frame nobody else maps (`translate_finds`).

An address that is not mapped is not told from one that is: where the slot
is empty the kernel stops, elsewhere the word of the page is zero and the
answer is an address in frame 0.

The runs are those of `kernelStep`, with what they leave out: waits for a
child in `WAITING` or for a zombie that has been reaped, names and images
that do not fit, and the TLB.
-/
import SyeLabs.Kernel.Refinement
import SyeLabs.Mmu.Translate

namespace SyeLabs.Kernel

open Lib Mmu Process

variable {P : Platform} {H F : Type*} {B : Board P H F} {n : Nat}

-- ================================================================= one process

variable {t : PageTables H} {m m' : Machine H F} {p v : Nat}

/-- In a user area without sections the two walks agree. -/
theorem Sound.translate (hs : Sound B m.tables n) (hp : p < n)
    (hsect : NoSection P m p) (hv : v < P.kernelVaddr) {a : Nat}
    (hw : walk m.tables (.proc p) v = some a) :
    doTranslate m.tables (.proc p) v = some a := by
  have hi := slot_lt_userSlots hv
  refine (virtToPhysPt_iff hw).mpr ⟨fun h => absurd h (hsect _ hi),
    fun ht hlarge => ?_⟩
  have hne : entry m.tables (.proc p) (l1pteIndex v) (v / 4096 % 256) ≠ 0 := by
    intro h0
    rw [h0] at hlarge
    cases hlarge
  have hsmall := hs.small p _ _ hp hi (Nat.mod_lt _ (by decide)) ht hne
  omega

/-- What is told of an address that is not mapped. -/
theorem Sound.translate_unmapped (hs : Sound B m.tables n) (hp : p < n)
    (hsect : NoSection P m p) (hv : v < P.kernelVaddr)
    (hw : walk m.tables (.proc p) v = none) :
    doTranslate m.tables (.proc p) v = none
      ∨ doTranslate m.tables (.proc p) v = some (v % 4096) := by
  have hi := slot_lt_userSlots hv
  rcases hs.slot _ _ (ownSlot_user hp hi) with h0 | hsect' | ⟨ht, -⟩
  · refine Or.inl ?_
    unfold doTranslate virtToPhysPt
    dsimp only
    rw [if_pos h0]
  · exact absurd hsect' (hsect _ hi)
  · have he : entry m.tables (.proc p) (l1pteIndex v) (v / 4096 % 256)
        = 0 := by
      by_contra hne
      rw [walk_of_entry ht, l2Walk, if_pos (hs.small p _ _ hp hi
        (Nat.mod_lt _ (by decide)) ht hne)] at hw
      cases hw
    refine Or.inr ?_
    rw [doTranslate, virtToPhysPt_of_entry ht, he, Nat.zero_div,
      Nat.zero_mul, Nat.zero_add]

-- ========================================================= the slots in a call

/-- `allocate_page` writes no slot of another table. -/
theorem allocatePage_l1 {virtAddr nrPages : Nat} {g : Pgtable}
    (harea : UserPages P virtAddr nrPages) (hg : g ≠ .proc p)
    (h : allocatePage B m p virtAddr nrPages = some m') (k : Nat) :
    m'.tables.l1 g k = m.tables.l1 g k := by
  refine forRange_inv (I := fun m₁ => m₁.tables.l1 g k = m.tables.l1 g k)
    rfl (fun i m₁ m₂ hi hm₁ hone => ?_) h
  obtain ⟨halign, -⟩ := harea (Nat.zero_lt_of_lt hi)
  unfold allocateOne at hone
  obtain ⟨⟨f, fr⟩, -, hone⟩ := Option.bind_eq_some_iff.mp hone
  obtain ⟨t, hmap, rfl⟩ := Option.map_eq_some_iff.mp hone
  have hpage : (virtAddr + i * 4096) % addrSpace % 4096 = 0 := by
    unfold addrSpace
    omega
  exact ((createMapping_pageMapped hpage hmap).slots g k
    fun hw => hg hw.1).trans hm₁

/-- Nor does `reset_root_pgtable`. -/
theorem resetRootPgtable_l1 {g : Pgtable} (hg : g ≠ .proc p) (k : Nat) :
    (resetRootPgtable B.hw t (.proc p) P.userSlots).l1 g k = t.l1 g k := by
  unfold resetRootPgtable
  generalize List.range P.userSlots = is
  induction is generalizing t with
  | nil => rfl
  | cons i is ih =>
      rw [List.foldl_cons, ih]
      unfold resetSlot
      dsimp only
      split
      · rw [setL1_other _ _ fun hw => hg hw.1]
        split <;> rfl
      · rfl

/-- The exec of an image that fits. -/
theorem image_l1 {elf : Elf} {pcb : Pcb} {argsEnv : Nat} {g : Pgtable}
    (hfits : ImageFits P elf) (hg : g ≠ .proc p)
    (h : calls B m (imageCalls P p elf (resetProcessStack P pcb) argsEnv
      ++ [.loadProcess, .threadExit p]) = some m') (k : Nat) :
    m'.tables.l1 g k = m.tables.l1 g k := by
  obtain ⟨m₁, m₂, m₃, m₄, m₅, hreset, hrelease, hstack, himage, hheap,
    hargs⟩ := imageCalls_steps (idle_loaded p) h
  have h₁ : m₁.tables.l1 g k = m.tables.l1 g k := by
    cases hreset
    exact resetRootPgtable_l1 hg k
  have h₂ : m₂.tables = m₁.tables := by
    cases hrelease
    rfl
  have hargs_area : UserPages P P.argsBase 1 :=
    fun _ => ⟨P.argsBase_aligned, P.argsBase_user⟩
  calc m'.tables.l1 g k
      = m₅.tables.l1 g k := allocatePage_l1 hargs_area hg hargs k
    _ = m₄.tables.l1 g k := allocatePage_l1 hfits.heap hg hheap k
    _ = m₃.tables.l1 g k := allocatePage_l1 hfits.image hg himage k
    _ = m₂.tables.l1 g k := allocatePage_l1 (stack_area P pcb).1 hg hstack k
    _ = m₁.tables.l1 g k := by rw [h₂]
    _ = m.tables.l1 g k := h₁

/-- `duplicate_user_space` leaves the others their slots, and gives the
child no section. -/
theorem duplicate_l1 {src dst k : Nat} (hk : k < P.userSlots)
    (h : duplicateUserSpace B (.proc src) m src dst = some m') :
    (∀ g, g ≠ .proc dst → m'.tables.l1 g k = m.tables.l1 g k)
      ∧ (¬ l1pteIsSect (m.tables.l1 (.proc dst) k) →
        ¬ l1pteIsSect (m'.tables.l1 (.proc dst) k)) := by
  rw [duplicateUserSpace_eq] at h
  obtain ⟨m₁, hloops, rfl⟩ := Option.map_eq_some_iff.mp h
  have hclosed : ∀ g, (closed B m₁ src).tables.l1 g k = m₁.tables.l1 g k :=
    fun g => closed_l1 m₁ fun hw =>
      (hk.trans_le (userSlots_le_fixSlot P)).ne hw.2
  constructor
  · intro g hg
    rw [hclosed]
    refine forRange_inv (I := fun m₂ => m₂.tables.l1 g k
      = m.tables.l1 g k) rfl (fun i m₂ m₃ _ hm₂ hbody => ?_) hloops
    exact ((copySlot_l1 hk hbody).resolve_right fun hw => hg hw.1).trans hm₂
  · intro hsect
    rw [hclosed]
    refine forRange_inv (I := fun m₂ =>
      ¬ l1pteIsSect (m₂.tables.l1 (.proc dst) k)) hsect
      (fun i m₂ m₃ _ hm₂ hbody => ?_) hloops
    rcases copySlot_l1 (g := .proc dst) hk hbody with hsame | ⟨-, ht⟩
    · rw [hsame]
      exact hm₂
    · exact not_isSect_of_isTable ht

-- =================================================================== the steps

variable {elfLoadBuffer : CString → Option Elf}
  {threadJoin : Option Tid → Option Tid} {K K' : State H F} {q : Ref}

/-- A step of the process table. Who lives after it lived before, or is
the child of a fork. -/
theorem noSection_act {a : Act} (h : Isolated B K)
    (hop : perform B elfLoadBuffer threadJoin K (.proc a) = some K')
    (hq : Live K'.sys.k q) (hold : Live K.sys.k q → NoSection P K.mach q) :
    NoSection P K'.mach q := by
  obtain ⟨cs, hcs, hcaused⟩ := perform_caused B elfLoadBuffer threadJoin
    h.audited.noPtrace hop
  generalize hk : K'.sys.k = k' at hcaused
  rw [hk] at hq
  cases hcaused with
  | quiet hkept =>
      have hmach : K'.mach = K.mach := (Option.some.inj hcs).symm
      rw [hmach]
      exact hold (hkept.live.mp hq)
  | @waited _ c _ _ hkept =>
      have hlive := hkept.live.mp hq
      obtain ⟨m₁, hreset, hcs⟩ := run_cons_iff.mp hcs
      cases hcs
      have ht : K'.mach.tables = resetRootPgtable B.hw K.mach.tables
          (.proc c) P.userSlots :=
        (congrArg Machine.tables (Option.some.inj hreset)).symm
      intro i hi
      rw [ht]
      by_cases hqc : q = c
      · subst hqc
        rw [(reset_of_sound h.sound hlive.1).empty i hi]
        decide
      · rw [resetRootPgtable_l1 fun heq => hqc (Pgtable.proc.inj heq)]
        exact hold hlive i hi
  | @forked p thread _ hlive hf =>
      obtain ⟨m₁, hnew, hcs⟩ := run_cons_iff.mp hcs
      obtain ⟨m₂, hdup, hcs⟩ := run_cons_iff.mp hcs
      cases hcs
      have ht : m₁.tables
          = newTable P K.mach.tables (.proc K.sys.k.nextRef) := by
        cases hnew
        rfl
      intro i hi
      obtain ⟨hothers, hchild⟩ := duplicate_l1 hi hdup
      by_cases hqn : q = K.sys.k.nextRef
      · subst hqn
        apply hchild
        rw [ht, newTable_user hi]
        decide
      · have hne : Pgtable.proc q ≠ .proc K.sys.k.nextRef :=
          fun heq => hqn (Pgtable.proc.inj heq)
        rw [hothers _ hne, ht, newTable_other hne]
        obtain ⟨hlt, hz⟩ := hq
        rw [hf.nextRef] at hlt
        rw [hf.others q hqn] at hz
        exact hold ⟨Nat.lt_of_le_of_ne (Nat.le_of_lt_succ hlt) hqn, hz⟩ i hi
  | @exited p status hlive _ =>
      obtain ⟨m₁, hrelease, hcs⟩ := run_cons_iff.mp hcs
      obtain ⟨m₂, hexit, hcs⟩ := run_cons_iff.mp hcs
      cases hcs
      cases hexit
      have ht : K'.mach.tables = K.mach.tables :=
        (congrArg Machine.tables (Option.some.inj hrelease)).symm
      obtain ⟨hlt, hz⟩ := hq
      unfold NoSection
      rw [ht]
      refine hold ⟨hlt, fun hz' => hz ?_⟩
      rw [setPcb_pcb]
      split
      · rfl
      · exact hz'

/-- An exec of an image that fits. -/
theorem noSection_exec {p : Ref} {cur : Tid} {joinQueue : List Ref}
    {filename : CString} {argv envp : Option (List CString)} {args : Nat}
    {mem : ByteMem} (h : Isolated B K)
    (hfits : ∀ elf, elfLoadBuffer filename = some elf → ImageFits P elf)
    (hop : perform B elfLoadBuffer threadJoin K
      (.exec p cur joinQueue filename argv envp args mem) = some K')
    (hq : Live K'.sys.k q)
    (hold : Live K.sys.k q → NoSection P K.mach q
      ∨ p = q ∧ (elfLoadBuffer filename).isSome) :
    NoSection P K'.mach q := by
  rcases perform_exec hop with
    ⟨hmach, himage, hk⟩ | ⟨elf, helf, argsEnv, hcs, href, -, hpcb⟩
  · have hlive : Live K.sys.k q := by
      rw [hk, live_setPcb (by exact fun _ => rfl)] at hq
      exact hq
    rw [hmach]
    refine (hold hlive).resolve_right fun hload => ?_
    rw [himage] at hload
    cases hload.2
  · have hlive : Live K.sys.k q := by
      obtain ⟨hlt, hz⟩ := hq
      refine ⟨href ▸ hlt, fun hz' => hz ?_⟩
      rw [hpcb]
      split <;> exact hz'
    by_cases hqp : q = p
    · subst hqp
      obtain ⟨M, hbuilt, -⟩ := built_image (hfits elf helf) hlive.1 h.sound
        h.audited.frames (idle_loaded q) hcs
      exact hbuilt.noSection
    · have hsect := (hold hlive).resolve_right fun hload => hqp hload.1.symm
      intro i hi
      rw [image_l1 (hfits elf helf)
        (fun heq => hqp (Pgtable.proc.inj heq)) hcs]
      exact hsect i hi

/-- Process `q` replaces its image by one that exists. -/
def Event.Loads (elfLoadBuffer : CString → Option Elf) (q : Ref) :
    Event → Prop
  | .turn (.turn (.kernel (.exec p _ _ filename _ _ _ _))) =>
      p = q ∧ (elfLoadBuffer filename).isSome
  | _ => False

/-- Every event: a process that had no section, or loads an image, has
none. -/
theorem noSection_step {e : Event} (h : Orderly B K)
    (hfits : e.Fits P elfLoadBuffer K)
    (he : kernelStep B elfLoadBuffer threadJoin K e = some K')
    (hq : Live K'.sys.k q)
    (hold : Live K.sys.k q →
      NoSection P K.mach q ∨ e.Loads elfLoadBuffer q) :
    NoSection P K'.mach q := by
  have hiso := h.heaped.priv.isolated
  cases e with
  | wait p pid wstatus nohang =>
      have hop : perform B elfLoadBuffer threadJoin K
          (.proc (.wait p pid wstatus nohang)) = some K' := he
      exact noSection_act hiso hop hq fun hl => (hold hl).resolve_right id
  | resume w =>
      have hop : perform B elfLoadBuffer threadJoin K (.proc (.resume w))
          = some K' := he
      exact noSection_act hiso hop hq fun hl => (hold hl).resolve_right id
  | turn a =>
      cases a with
      | sbrk p increment =>
          simp only [kernelStep, heapTurn] at he
          split at he
          next =>
            cases he
            obtain ⟨hnext, hpcb⟩ := callSbrk_pcb (h.heaped.inHeap p) increment
            obtain ⟨hlt, hz⟩ := hq
            obtain ⟨brk, hbrk⟩ := hpcb q
            exact (hold ⟨hnext ▸ hlt, (congrArg Pcb.state hbrk).symm.trans_ne
              hz⟩).resolve_right id
          next => cases he
      | turn a =>
          obtain ⟨himages, -, hnames⟩ := hfits
          have hturn : takeTurn B elfLoadBuffer threadJoin K a = some K' := by
            rw [← heapTurn_eq h.heaped hnames]
            exact he
          cases a with
          | store p w =>
              unfold takeTurn at hturn
              dsimp only at hturn
              split at hturn
              next =>
                obtain ⟨m, hm, rfl⟩ := Option.map_eq_some_iff.mp hturn
                have ht : m.tables = K.mach.tables := by
                  unfold storeByte at hm
                  split at hm
                  next =>
                    obtain ⟨a, -, rfl⟩ := Option.map_eq_some_iff.mp hm
                    rfl
                  next => cases hm
                have hsect := (hold hq).resolve_right id
                unfold NoSection at hsect ⊢
                rw [ht]
                exact hsect
              next => cases hturn
          | kernel op =>
              have hop : perform B elfLoadBuffer threadJoin K op = some K' :=
                hturn
              cases op with
              | create => cases himages
              | allocate p virtAddr nrPages => cases himages
              | exec p cur joinQueue filename argv envp args mem =>
                  exact noSection_exec hiso himages hop hq hold
              | proc a =>
                  exact noSection_act hiso hop hq
                    fun hl => (hold hl).resolve_right id

/-- A whole run, for the processes in `S`. -/
theorem Orderly.noSection_run {S : Ref → Prop} {events : List Event}
    (hpos : 0 < P.heapSize) (h : Orderly B K)
    (hS : ∀ q, S q → Live K.sys.k q → NoSection P K.mach q)
    (hfits : Along (kernelStep B elfLoadBuffer threadJoin)
      (Event.Fits P elfLoadBuffer) K events)
    (hrun : run (kernelStep B elfLoadBuffer threadJoin) K events = some K') :
    Orderly B K'
      ∧ ∀ q, S q → Live K'.sys.k q → NoSection P K'.mach q := by
  refine run_inv_along (I := fun K => Orderly B K
    ∧ ∀ q, S q → Live K.sys.k q → NoSection P K.mach q)
    (fun K e K' hK hC he => ?_) ⟨h, hS⟩ hfits hrun
  obtain ⟨hord, hsect⟩ := hK
  exact ⟨(refines_step hpos hord hC he).1, fun q hq hlive =>
    noSection_step hord hC he hlive fun hl => Or.inl (hsect q hq hl)⟩

-- =============================================================== the guarantee

/-- What `sys_translate` tells process `p`. -/
structure Located (P : Platform) (K : State H F) (p : Ref) : Prop where
  /-- The byte it reads is stored at that address. -/
  finds : ∀ v b, userBytes P K.mach p v = some b →
    ∃ a, doTranslate K.mach.tables (.proc p) v = some a
      ∧ a % 4096 = v % 4096 ∧ K.mach.page (a / 4096) (a % 4096) = b
  /-- In a frame no other process maps. -/
  alone : ∀ q u v a, Live K.sys.k q → q ≠ p → u < P.kernelVaddr →
    (userBytes P K.mach p v).isSome →
    doTranslate K.mach.tables (.proc p) v = some a →
    frameAt K.mach.tables (.proc q) u ≠ some (a / 4096)
  /-- Its heap is among the bytes it reads. -/
  heap : (K.sys.k.pcb p).heapBase ≠ 0 → ∀ v,
    (K.sys.k.pcb p).heapBase ≤ v →
    v < (K.sys.k.pcb p).heapBase + P.heapSize →
    (doTranslate K.mach.tables (.proc p) v).isSome
  /-- Of what it does not read it is told nothing, or the first frame. -/
  elsewhere : ∀ v, v < P.kernelVaddr → userBytes P K.mach p v = none →
    doTranslate K.mach.tables (.proc p) v = none
      ∨ doTranslate K.mach.tables (.proc p) v = some (v % 4096)

/-- What a process reads it reads through the walk. -/
theorem userBytes_eq_some {p : Ref} {v : Nat} {b : UInt8} :
    userBytes P m p v = some b ↔ v < P.kernelVaddr
      ∧ ∃ a, walk m.tables (.proc p) v = some a
        ∧ m.page (a / 4096) (a % 4096) = b := by
  unfold userBytes
  split
  next hv => rw [Option.map_eq_some_iff, and_iff_right hv]
  next hv => exact iff_of_false nofun fun h => hv h.1

theorem Orderly.located {p : Ref} (h : Orderly B K) (hlive : Live K.sys.k p)
    (hsect : NoSection P K.mach p) : Located P K p := by
  have hiso := h.heaped.priv.isolated
  have hs := hiso.sound
  have htrans : ∀ {v b}, userBytes P K.mach p v = some b →
      v < P.kernelVaddr ∧ ∃ a, walk K.mach.tables (.proc p) v = some a
        ∧ doTranslate K.mach.tables (.proc p) v = some a
        ∧ K.mach.page (a / 4096) (a % 4096) = b := by
    intro v b hb
    obtain ⟨hv, a, hw, hbyte⟩ := userBytes_eq_some.mp hb
    exact ⟨hv, a, hw, hs.translate hlive.1 hsect hv hw, hbyte⟩
  refine ⟨fun v b hb => ?_, fun q u v a hq hne hu hread ha => ?_,
    fun hbase v hlo hhi => ?_, fun v hv hnone => ?_⟩
  · obtain ⟨hv, a, hw, ha, hbyte⟩ := htrans hb
    obtain ⟨M, hM⟩ := h.heaped.priv.paged p hlive
    rw [hM.walk v hv] at hw
    obtain ⟨f, -, rfl⟩ := Option.map_eq_some_iff.mp hw
    exact ⟨_, ha, by omega, hbyte⟩
  · obtain ⟨b, hb⟩ := Option.isSome_iff_exists.mp hread
    obtain ⟨hv, a', hw, ha', -⟩ := htrans hb
    cases ha'.symm.trans ha
    refine hiso.memoryIsolation.disjoint p q v u (a / 4096) hlive hq hne.symm
      hv hu ?_
    rw [frameAt, hw, Option.map_some]
  · obtain ⟨b, hb⟩ := Option.isSome_iff_exists.mp
      (h.heaped.pages p hlive hbase v hlo hhi)
    obtain ⟨-, a, -, ha, -⟩ := htrans hb
    rw [ha]
    rfl
  · refine hs.translate_unmapped hlive.1 hsect hv ?_
    unfold userBytes at hnone
    rwa [if_pos hv, Option.map_eq_none_iff] at hnone

variable (elfLoadBuffer) (threadJoin)

/-- In every state that a run of events that fit reaches, `sys_translate`
is right about every byte a process can read, unless the process is the
first one and still has the image it was created with. -/
theorem translate_finds (t : PageTables H) (pool : F)
    (page : Nat → Nat → UInt8) (events : List Event) (K₀ K : State H F)
    (p : Ref) (hpos : 0 < P.heapSize) (hsize : P.heapSize < 2147483648)
    (hboot : BootTables B t)
    (hcreate : perform B elfLoadBuffer threadJoin (State.boot t pool page)
      .create = some K₀)
    (hfits : Along (kernelStep B elfLoadBuffer threadJoin)
      (Event.Fits P elfLoadBuffer) K₀ events)
    (h : run (kernelStep B elfLoadBuffer threadJoin) K₀ events = some K)
    (hlive : Live K.sys.k p)
    (hloads : p ≠ 0 ∨ ∃ e ∈ events, e.Loads elfLoadBuffer 0) :
    Located P K p := by
  have h₀ := orderly_create hpos hsize hboot hcreate
  by_cases hp : p ≠ 0
  · have hfirst : ∀ q, q ≠ 0 → Live K₀.sys.k q → NoSection P K₀.mach q := by
      intro q hq hl
      obtain ⟨m, -, rfl⟩ := Option.map_eq_some_iff.mp hcreate
      exact absurd (Nat.lt_one_iff.mp hl.1) hq
    obtain ⟨hK, hsect⟩ := h₀.noSection_run hpos hfirst hfits h
    exact hK.located hlive (hsect p hp hlive)
  · -- the exec, and what came before and after it
    obtain ⟨e, he, hload⟩ := hloads.resolve_left hp
    obtain ⟨pre, post, rfl⟩ := List.append_of_mem he
    obtain ⟨hfits, hrest⟩ := along_append.mp hfits
    rw [run_append] at h
    obtain ⟨K₁, hpre, h⟩ := Option.bind_eq_some_iff.mp h
    obtain ⟨K₂, hexec, h⟩ := run_cons_iff.mp h
    obtain ⟨hfit, hpost⟩ := along_cons_iff.mp (hrest K₁ hpre)
    obtain ⟨hK₁, -⟩ := h₀.noSection_run (S := fun _ => False) hpos
      (fun _ hq => hq.elim) hfits hpre
    have hzero : ∀ q, q = 0 → Live K₂.sys.k q → NoSection P K₂.mach q := by
      intro q hq hl
      subst hq
      exact noSection_step hK₁ hfit hexec hl fun _ => Or.inr hload
    obtain ⟨hK, hsect⟩ := (refines_step hpos hK₁ hfit hexec).1.noSection_run
      hpos hzero (hpost K₂ hexec) h
    exact hK.located hlive (hsect p (not_not.mp hp) hlive)

/-- The root process loads an image and forks; the child writes a byte to
its heap and finds it. -/
theorem translate_finds_child :
    ∃ K₀ K, perform .small onePage id State.small .create = some K₀
      ∧ run (kernelStep .small onePage id) K₀
        [.op (.execFile 0 0), .op (.proc (.fork 0 1)),
          .turn (.turn (.store 1 (0x3000, 7)))] = some K
      ∧ Located .small K 0 ∧ Located .small K 1
      ∧ ∃ a, doTranslate K.mach.tables (.proc 1) 0x3000 = some a
        ∧ K.mach.page (a / 4096) (a % 4096) = 7 := by
  have hret : (perform .small onePage id State.small .create).any fun K₀ =>
      (kernelStep .small onePage id K₀ (.op (.execFile 0 0))).any fun K₁ =>
        Op.NamesFit K₁.sys (.proc (.fork 0 1))
          ∧ (run (kernelStep .small onePage id) K₁
            [.op (.proc (.fork 0 1)),
              .turn (.turn (.store 1 (0x3000, 7)))]).any fun K =>
            Live K.sys.k 0 ∧ Live K.sys.k 1
              ∧ userBytes .small K.mach 1 0x3000 = some 7 := by
    decide +kernel
  obtain ⟨K₀, hK₀, hret⟩ := (Option.any_eq_true _ _).mp hret
  obtain ⟨K₁, hK₁, hret⟩ := (Option.any_eq_true _ _).mp hret
  obtain ⟨hname, hret⟩ := of_decide_eq_true hret
  obtain ⟨K, hrest, hret⟩ := (Option.any_eq_true _ _).mp hret
  obtain ⟨hroot, hchild, hread⟩ := of_decide_eq_true hret
  have hK : run (kernelStep .small onePage id) K₀
      [.op (.execFile 0 0), .op (.proc (.fork 0 1)),
        .turn (.turn (.store 1 (0x3000, 7)))] = some K :=
    run_cons_iff.mpr ⟨K₁, hK₁, hrest⟩
  have hexec : Event.Fits .small onePage K₀ (.op (.execFile 0 0)) :=
    ⟨fun elf => onePage_fits, fun elf helf => by cases helf; decide,
      namesFit_execFile K₀.sys 0 0⟩
  have hfork : Event.Fits .small onePage K₁ (.op (.proc (.fork 0 1))) :=
    ⟨trivial, trivial, hname⟩
  have hfits : Along (kernelStep .small onePage id)
      (Event.Fits .small onePage) K₀ [.op (.execFile 0 0),
        .op (.proc (.fork 0 1)), .turn (.turn (.store 1 (0x3000, 7)))] :=
    .cons hexec hK₁ (along_cons_iff.mpr ⟨hfork, fun _ _ =>
      along_cons_iff.mpr ⟨⟨trivial, trivial, trivial⟩, fun _ _ => trivial⟩⟩)
  have hloads : ∃ e ∈ [Event.op (.execFile 0 0), .op (.proc (.fork 0 1)),
      .turn (.turn (.store 1 (0x3000, 7)))], e.Loads onePage 0 :=
    ⟨.op (.execFile 0 0), List.mem_cons_self, rfl, rfl⟩
  have hlocated := translate_finds (B := Board.small) onePage id _ _ _ _
    K₀ K 1 (by decide) (by decide) bootTables_small hK₀ hfits hK hchild
    (Or.inl (by decide))
  obtain ⟨a, ha, -, hbyte⟩ := hlocated.finds 0x3000 7 hread
  exact ⟨K₀, K, hK₀, hK, translate_finds (B := Board.small) onePage id _ _ _
    _ K₀ K 0 (by decide) (by decide) bootTables_small hK₀ hfits hK hroot
    (Or.inr hloads), hlocated, a, ha, hbyte⟩

end SyeLabs.Kernel
