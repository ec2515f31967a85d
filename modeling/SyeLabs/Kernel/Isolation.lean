/-
Memory isolation over whole runs.

# The invariant

`Isolated K` has two halves. The tables are sound (`Sound`), so a change
to the user area of one process is no business of another; and every live
process is backed (`Backed`): what its user area maps is in its page
list, or belongs to the image of the root process. As no frame is in two
page lists (`Accounted.exclusive`), no frame is mapped by two live
processes. A live process always has a page (`HasPage`), without which
`duplicate_user_space` would close a window it never opened.

# What it takes

`allocate_page` takes one frame for each page it is asked for, but
`create_mapping` maps every page that the range touches: from an address
inside a page these are two, and the second one is whatever frame comes
next. `setup_proc_image_replace` passes on the entry point of the image,
so isolation takes images whose segments start at a page address and
whose areas end below the kernel (`ImageFits`).
-/
import SyeLabs.Kernel.Run
import SyeLabs.Kernel.Tables

namespace SyeLabs.Kernel

open Lib Mmu Process

variable {P : Platform} {H F : Type*} {B : Board P H F} {n p : Nat}
  {m m' m'' : Machine H F}

-- ================================================================= one process

/-- Every frame in the user area of `p` is in its page list, or part of
the root image if `p` is the root process. -/
def Backed (P : Platform) (m : Machine H F) (p : Nat) : Prop :=
  ∀ v f, v < P.kernelVaddr → frameAt m.tables (.proc p) v = some f →
    f ∈ m.frames.pageList p ∨ (p = 0 ∧ RootImage P f)

/-- Process `p` has a page in its user area. -/
def HasPage (P : Platform) (m : Machine H F) (p : Nat) : Prop :=
  ∃ v, v < P.kernelVaddr ∧ walk m.tables (.proc p) v ≠ none

/-- The user area of `p` has no sections. -/
def NoSection (P : Platform) (m : Machine H F) (p : Nat) : Prop :=
  ∀ i, i < P.userSlots → ¬ l1pteIsSect (m.tables.l1 (.proc p) i)

/-- From `m` to `m'` only the user area and the page list of process `p`
changed, as far as `n` processes can see. -/
structure Within (B : Board P H F) (n p : Nat) (m m' : Machine H F) :
    Prop where
  sound : Sound B m'.tables n
  walk : ∀ q v, q < n → q ≠ p → v < P.kernelVaddr →
    walk m'.tables (.proc q) v = walk m.tables (.proc q) v
  lists : ∀ q, q ≠ p → m'.frames.pageList q = m.frames.pageList q

theorem Within.trans (h : Within B n p m m') (h' : Within B n p m' m'') :
    Within B n p m m'' where
  sound := h'.sound
  walk := fun q v hq hne hv =>
    (h'.walk q v hq hne hv).trans (h.walk q v hq hne hv)
  lists := fun q hne => (h'.lists q hne).trans (h.lists q hne)

/-- A process nothing happened to stays backed, and keeps its pages. -/
theorem Within.other (h : Within B n p m m') {q : Nat} (hq : q < n)
    (hne : q ≠ p) :
    (Backed P m q → Backed P m' q) ∧ (HasPage P m q → HasPage P m' q) := by
  constructor
  · intro hb v f hv hf
    rw [frameAt, h.walk q v hq hne hv] at hf
    rw [h.lists q hne]
    exact hb v f hv hf
  · intro h
    obtain ⟨v, hv, hw⟩ := h
    exact ⟨v, hv, (h.walk q v hq hne hv).symm ▸ hw⟩

/-- A change to one user area is within its process. -/
theorem UserChange.within {t : PageTables H} {fr : Frames F}
    {page : Nat → Nat → UInt8} (h : UserChange B m.tables t p)
    (hs : Sound B m.tables n) (hp : p < n)
    (hlists : ∀ q, q ≠ p → fr.pageList q = m.frames.pageList q) :
    Within B n p m { tables := t, frames := fr, page := page } where
  sound := h.sound hs hp
  walk := fun _ _ hq hne hv => h.walk hs hp hq hne hv
  lists := hlists

-- =============================================================== allocate_page

/-- What allocating pages for process `p` gives. -/
structure Grown (B : Board P H F) (n p : Nat) (m m' : Machine H F) :
    Prop where
  within : Within B n p m m'
  noSection : NoSection P m' p
  backed : Backed P m' p
  hasPage : HasPage P m p → HasPage P m' p

theorem Grown.trans (h : Grown B n p m m') (h' : Grown B n p m' m'') :
    Grown B n p m m'' :=
  ⟨h.within.trans h'.within, h'.noSection, h'.backed,
    fun hp => h'.hasPage (h.hasPage hp)⟩

/-- One turn of `allocate_page` at a page address `v` of the user area: a
frame comes from the pool, is listed and is mapped at `v`. -/
theorem allocateOne_mapped {virtAddr i v : Nat} (hp : p < n)
    (hs : Sound B m.tables n) (hsect : NoSection P m p)
    (hv : (virtAddr + i * 4096) % addrSpace = v)
    (halign : v % 4096 = 0) (hle : v + 4096 ≤ P.kernelVaddr)
    (h : allocateOne B p virtAddr i m = some m') :
    ∃ f pool t, B.pool.alloc m.frames.pool = some (f, pool)
      ∧ m' = { m with
          tables := t
          frames := addPageToProc { m.frames with
            pool := pool, log := m.frames.log ++ [.get f] } p f }
      ∧ Remapped B.hw m.tables t (.proc p) v (v + 4096) (f * 4096)
      ∧ NoSection P m' p := by
  unfold allocateOne at h
  rw [hv] at h
  obtain ⟨⟨f, fr⟩, hget, h⟩ := Option.bind_eq_some_iff.mp h
  obtain ⟨t, hmap, rfl⟩ := Option.map_eq_some_iff.mp h
  obtain ⟨pool, halloc, rfl⟩ := getFreePage_eq hget
  have hf := (B.pool.alloc_ok halloc).2.1
  have hkv := P.kernelVaddr_le
  have hstart : pageStart v = v := by
    unfold pageStart
    omega
  have hend : pageEnd v 4096 = v + 4096 := by
    unfold pageEnd pageStart alignUp
    omega
  refine ⟨f, pool, t, halloc, rfl, ?_, ?_⟩
  · have hr := createMapping_remapped (hs.wellFormed hp) (by decide)
      (by omega) (hle.trans hkv) (by unfold addrSpace; omega)
      (fun j _ hj hs' => absurd hs' (hsect j (by
        rw [hend] at hj
        have := P.kernelVaddr_aligned
        unfold Platform.userSlots
        omega))) hmap
    rw [hstart, hend, Nat.mul_div_cancel f (by decide)] at hr
    exact hr
  · have pm := createMapping_pageMapped halign hmap
    intro j hj hs'
    by_cases hjv : j = l1pteIndex v
    · subst hjv
      have htable := (pm.slot fun hne => by
        rcases (hs.wellFormed hp).slot _ (hj.trans_le (userSlots_le P))
          with h0 | hs'' | ⟨ht, -⟩
        · exact absurd h0 hne
        · exact absurd hs'' (hsect _ hj)
        · exact ht).1
      exact not_isSect_of_isTable htable hs'
    · rw [pm.slots _ j fun he => hjv he.2] at hs'
      exact hsect j hj hs'

/-- One frame at a page address of the user area. -/
theorem allocateOne_grown {virtAddr i : Nat} (hp : p < n)
    (hs : Sound B m.tables n) (hsect : NoSection P m p)
    (hb : Backed P m p)
    (halign : (virtAddr + i * 4096) % addrSpace % 4096 = 0)
    (hle : (virtAddr + i * 4096) % addrSpace + 4096 ≤ P.kernelVaddr)
    (h : allocateOne B p virtAddr i m = some m') :
    Grown B n p m m' ∧ HasPage P m' p := by
  have hkv := P.kernelVaddr_le
  obtain ⟨f, pool, t, -, rfl, hm, hsect'⟩ :=
    allocateOne_mapped hp hs hsect rfl halign hle h
  generalize (virtAddr + i * 4096) % addrSpace = v at halign hle hm
  have hinside : ∀ u, v ≤ u → u < v + 4096 →
      frameAt t (.proc p) u = some f := by
    intro u hu hu'
    rw [frameAt, hm.inside u hu hu', Option.map_some,
      Option.some.injEq]
    omega
  refine ⟨⟨?_, hsect', ?_, ?_⟩, v, by omega, ?_⟩
  · apply (remapped_userChange hs hp hm (by omega) hle).within hs hp
    intro q hq
    simp only [addPageToProc, Function.update_of_ne hq]
  · intro u g hu hg
    have hmem : ∀ {l : Nat}, l ∈ m.frames.pageList p ∨ l = f →
        l ∈ (addPageToProc { m.frames with
          pool := pool, log := m.frames.log ++ [.get f] } p f).pageList
            p := by
      intro l hl
      simp only [addPageToProc, Function.update_self, List.mem_append,
        List.mem_singleton]
      exact hl
    by_cases hin : v ≤ u ∧ u < v + 4096
    · have hg' : frameAt t (.proc p) u = some g := hg
      rw [hinside u hin.1 hin.2, Option.some.injEq] at hg'
      exact Or.inl (hmem (Or.inr hg'.symm))
    · have hg' : frameAt t (.proc p) u = some g := hg
      rw [frameAt, hm.outside u (hu.trans_le hkv) (by omega)] at hg'
      exact (hb u g hu hg').imp_left fun hl => hmem (Or.inl hl)
  · intro h
    obtain ⟨u, hu, hw⟩ := h
    refine ⟨u, hu, ?_⟩
    by_cases hin : v ≤ u ∧ u < v + 4096
    · show walk t (.proc p) u ≠ none
      rw [hm.inside u hin.1 hin.2]
      exact Option.some_ne_none _
    · show walk t (.proc p) u ≠ none
      rw [hm.outside u (hu.trans_le hkv) (by omega)]
      exact hw
  · show walk t (.proc p) v ≠ none
    rw [hm.inside v (Nat.le_refl v) (by omega)]
    exact Option.some_ne_none _

/-- `nrPages` pages from `virtAddr` on lie in the user area; no pages do
anywhere. -/
def UserPages (P : Platform) (virtAddr nrPages : Nat) : Prop :=
  0 < nrPages →
    virtAddr % 4096 = 0 ∧ virtAddr + nrPages * 4096 ≤ P.kernelVaddr

/-- `allocate_page` on pages of the user area. -/
theorem allocatePage_grown {virtAddr nrPages : Nat} (hp : p < n)
    (hs : Sound B m.tables n) (hsect : NoSection P m p)
    (hb : Backed P m p) (harea : UserPages P virtAddr nrPages)
    (h : allocatePage B m p virtAddr nrPages = some m') :
    Grown B n p m m' ∧ (0 < nrPages → HasPage P m' p) := by
  have hkv := P.kernelVaddr_le
  have hloop : Ensures False (allocatePage B m p virtAddr nrPages)
      fun m' => Grown B n p m m' ∧ (0 < nrPages → HasPage P m' p) := by
    refine Ensures.forRange
      (I := fun i m' => Grown B n p m m' ∧ (0 < i → HasPage P m' p))
      ⟨⟨⟨hs, fun _ _ _ _ _ => rfl, fun _ _ => rfl⟩, hsect, hb, id⟩,
        nofun⟩ ?_
    intro i m₁ hi h
    obtain ⟨hg, -⟩ := h
    obtain ⟨halign, hle⟩ := harea (Nat.zero_lt_of_lt hi)
    have hmod : (virtAddr + i * 4096) % addrSpace
        = virtAddr + i * 4096 := by
      apply Nat.mod_eq_of_lt
      unfold addrSpace
      omega
    refine ⟨fun m₂ hm₂ => ?_, False.elim⟩
    obtain ⟨hg', hp'⟩ := allocateOne_grown hp hg.within.sound hg.noSection
      hg.backed (by omega) (by omega) hm₂
    exact ⟨hg.trans hg', fun _ => hp'⟩
  exact hloop.1 m' h

-- =================================================================== the calls

/-- `create_mapping` of the root image maps its pages one after the
other. -/
theorem mapRootImage_remapped (hn : 0 < n) (hs : Sound B m.tables n)
    (hsect : NoSection P m 0) (h : call B m (.mapRootImage 0) = some m') :
    ∃ t, m' = { m with tables := t }
      ∧ pageStart P.userSpaceVaddr
        < pageEnd P.userSpaceVaddr P.rootProcSize
      ∧ pageEnd P.userSpaceVaddr P.rootProcSize ≤ P.kernelVaddr
      ∧ Remapped B.hw m.tables t (.proc 0) (pageStart P.userSpaceVaddr)
        (pageEnd P.userSpaceVaddr P.rootProcSize)
        (P.rootProcStart / 4096 * 4096) := by
  obtain ⟨t, hmap, rfl⟩ := Option.map_eq_some_iff.mp h
  have hkv := P.kernelVaddr_le
  have hk := P.kernelVaddr_aligned
  have hu := P.userSpaceVaddr_aligned
  have hr := P.rootProcStart_aligned
  have hpos := P.rootProcSize_pos
  have huser := P.rootProc_user
  have hlt := P.rootProc_lt
  obtain ⟨-, -, hrange, -, -, -⟩ :=
    pageEnd_bounds hpos (huser.trans hkv)
  have hend : pageEnd P.userSpaceVaddr P.rootProcSize ≤ P.kernelVaddr := by
    unfold pageEnd pageStart alignUp
    omega
  refine ⟨t, rfl, hrange, hend, ?_⟩
  refine createMapping_remapped (hs.wellFormed hn) hpos (hu.trans hr.symm)
    (huser.trans hkv) hlt (fun j _ hj hs' => ?_) hmap
  refine absurd hs' (hsect j ?_)
  unfold Platform.userSlots
  omega

/-- The root image, for process 0. -/
theorem mapRootImage_within (hn : 0 < n) (hs : Sound B m.tables n)
    (hsect : NoSection P m 0) (hb : Backed P m 0)
    (h : call B m (.mapRootImage 0) = some m') :
    Within B n 0 m m' ∧ Backed P m' 0 ∧ HasPage P m' 0 := by
  obtain ⟨t, rfl, hrange, hend, hm⟩ := mapRootImage_remapped hn hs hsect h
  have hkv := P.kernelVaddr_le
  refine ⟨(remapped_userChange hs hn hm hrange hend).within hs hn
    fun _ _ => rfl, fun v f hv hf => ?_, ?_⟩
  · have hf' : frameAt t (.proc 0) v = some f := hf
    by_cases hin : pageStart P.userSpaceVaddr ≤ v
        ∧ v < pageEnd P.userSpaceVaddr P.rootProcSize
    · rw [frameAt, hm.inside v hin.1 hin.2, Option.map_some,
        Option.some.injEq] at hf'
      refine Or.inr ⟨rfl, ?_⟩
      unfold RootImage
      omega
    · rw [frameAt, hm.outside v (hv.trans_le hkv) (by omega)] at hf'
      exact hb v f hv hf'
  · refine ⟨pageStart P.userSpaceVaddr, hrange.trans_le hend, ?_⟩
    show walk t (.proc 0) _ ≠ none
    rw [hm.inside _ (Nat.le_refl _) hrange]
    exact Option.some_ne_none _

/-- `reset_root_pgtable`. -/
theorem reset_grown (hp : p < n) (hs : Sound B m.tables n) {remove : Bool}
    (h : call B m (.resetRootPgtable p remove) = some m') :
    Within B n p m m' ∧ NoSection P m' p
      ∧ ∀ v, v < P.kernelVaddr → walk m'.tables (.proc p) v = none := by
  cases h
  have hr := reset_of_sound hs hp
  refine ⟨(reset_userChange hr).within hs hp fun _ _ => rfl,
    fun i hi hsect => ?_, fun v hv => ?_⟩
  · have h0 := hr.empty i hi
    dsimp only at hsect
    rw [h0] at hsect
    cases hsect
  · exact walk_of_empty (hr.empty _ (slot_lt_userSlots hv))

/-- `release_proc_pages`. -/
theorem release_within (hp : p < n) (hs : Sound B m.tables n)
    (ac : Accounted B.pool n m.frames)
    (h : call B m (.releaseProcPages p) = some m') :
    Within B n p m m' ∧ m'.tables = m.tables := by
  cases h
  refine ⟨⟨hs, fun _ _ _ _ _ => rfl, fun q hq => ?_⟩, rfl⟩
  show (releaseProcPages B.pool m.frames p).pageList q = _
  rw [(release_accounted ac hp).2, Function.update_of_ne hq]

/-- The pool does not hand out a frame of a process that is backed. -/
theorem Backed.taken (hb : Backed P m p) (ac : Accounted B.pool n m.frames)
    {v f : Nat} (hv : v < P.kernelVaddr)
    (hf : frameAt m.tables (.proc p) v = some f) :
    Taken B.pool m.frames.pool f := by
  rcases hb v f hv hf with hl | ⟨-, hroot⟩
  · exact Or.inl (ac.inUse _ (ac.pos_of_mem hl)).2
  · exact Or.inr fun hok => hok.2.2 hroot

/-- What `duplicate_user_space` takes for granted, from a parent that is
backed and has no sections. -/
theorem Backed.forkable {src dst : Nat} (hb : Backed P m src)
    (hsrc : src < n) (hne : src ≠ dst) (hs : Sound B m.tables n)
    (ac : Accounted B.pool n m.frames) (hsect : NoSection P m src)
    (hempty : ∀ i, i < P.userSlots → m.tables.l1 (.proc dst) i = 0) :
    Forkable B m src dst := by
  have hwf := hs.wellFormed hsrc
  have htable : ∀ i, i < P.userSlots → m.tables.l1 (.proc src) i ≠ 0 →
      l1pteIsTable (m.tables.l1 (.proc src) i) := by
    intro i hi hi0
    rcases hwf.slot i (hi.trans_le (userSlots_le P)) with h0 | hs' | ⟨ht, -⟩
    · exact absurd h0 hi0
    · exact absurd hs' (hsect i hi)
    · exact ht
  have hfix : m.tables.l1 (.proc src) (fixSlot P)
      = m.tables.l1 .sys (fixSlot P) :=
    hs.kernel src _ hsrc (userSlots_le_fixSlot P) (fixSlot_lt P)
  refine ⟨hne, hwf, htable, ?_, fun i x hi hx hi0 => ?_,
    fun i x hi hx hi0 he => ?_, hempty⟩
  · rw [hfix]
    intro h0
    rcases hs.window with h0' | ⟨ht, -⟩
    · exact absurd h0' h0
    · exact ht
  · exact hs.small src i x hsrc hi hx (htable i hi hi0)
  · exact hb.taken ac (pteIndexToVaddr_lt hi hx) (frameAt_entry hx
      (htable i hi hi0) (hs.small src i x hsrc hi hx (htable i hi hi0) he))

/-- `duplicate_user_space`, from a parent that is backed and has a
page. -/
theorem duplicate_within {src dst : Nat} (hsrc : src < n) (hdst : dst < n)
    (hne : src ≠ dst) (hs : Sound B m.tables n)
    (ac : Accounted B.pool n m.frames) (hb : Backed P m src)
    (hpage : HasPage P m src)
    (hempty : ∀ i, i < P.userSlots → m.tables.l1 (.proc dst) i = 0)
    (h : call B m (.duplicateUserSpace src dst) = some m') :
    Within B n dst m m' ∧ Backed P m' dst ∧ HasPage P m' dst := by
  have hdup : duplicateUserSpace B (.proc src) m src dst = some m' := h
  rw [duplicateUserSpace_eq] at hdup
  obtain ⟨m₁, hloops, rfl⟩ := Option.map_eq_some_iff.mp hdup
  have hsect := (copyLoops_no_section hne hloops (Nat.le_refl _)).2
  have hf := hb.forkable hsrc hne hs ac hsect hempty
  have htable := hf.user
  have hloop := copyLoops hf
  have hc := hloop.1 m₁ hloops
  have hd := hc.closed hf
  obtain ⟨v, hv, hw⟩ := hpage
  refine ⟨(hc.userChange hf hs hsrc ?_).within hs hdst
    hc.untouched.lists, fun u f hu hfu => ?_, v, hv, ?_⟩
  · have hslot : m.tables.l1 (.proc src) (l1pteIndex v) ≠ 0 :=
      fun h0 => hw (walk_of_empty h0)
    have hx : v / 4096 % 256 < 256 := Nat.mod_lt _ (by decide)
    refine ⟨_, _, slot_lt_userSlots hv, hx, hslot, fun he => hw ?_⟩
    rw [walk_of_entry (htable _ (slot_lt_userSlots hv) hslot), he,
      l2Walk_zero]
  · obtain ⟨-, hslot, hword⟩ := hd.child_frame hf hu hfu
    rcases hd.entries _ _ (slot_lt_userSlots hu) (Nat.mod_lt _ (by decide))
      hslot with ⟨hz, -⟩ | ⟨-, g, hg, -, -, hmem, -⟩
    · rw [hz] at hword
      exact absurd hword.symm (smallWord_ne_zero B.hw f false)
    · have hgf : g = f := by
        rw [← smallWord_div B.hw g false, ← hg, hword, smallWord_div]
      exact Or.inl (hgf ▸ hmem)
  · rcases hd.walk_cases hf hv with ⟨-, hnone⟩ | ⟨f, e, hsome, -⟩
    · exact absurd hnone hw
    · rw [hsome]
      exact Option.some_ne_none _

-- ============================================================== lists of calls

/-- The calls that touch neither tables nor frames. -/
def Idle : Call → Prop
  | .postSetupImage _ | .loadProcess | .ready _ | .threadExit _ => True
  | _ => False

theorem calls_idle {cs : List Call} (hcs : ∀ c ∈ cs, Idle c)
    (h : calls B m cs = some m') : m' = m := by
  refine run_inv_along (I := fun m' => m' = m) (C := fun _ c => Idle c) ?_
    rfl (along_of_forall hcs m) h
  intro _ c m₁ heq hc hcall
  subst heq
  cases c with
  | postSetupImage _ => cases hcall; rfl
  | loadProcess => cases hcall; rfl
  | ready _ => cases hcall; rfl
  | threadExit _ => cases hcall; rfl
  | _ => cases hc

/-- What follows the calls for an image. -/
theorem idle_loaded (p : Ref) :
    ∀ c ∈ [Call.loadProcess, .threadExit p], Idle c := by
  intro c hc
  simp only [List.mem_cons, List.not_mem_nil, or_false] at hc
  rcases hc with rfl | rfl
  · trivial
  · trivial

/-- The stack lies in the user area, and has a page. -/
theorem stack_area (P : Platform) (pcb : Pcb) :
    UserPages P (stackBase (resetProcessStack P pcb))
        (resetProcessStack P pcb).pageCount
      ∧ 0 < (resetProcessStack P pcb).pageCount := by
  have hargs := P.argsBase_aligned
  have huser := P.argsBase_user
  have hkv := P.kernelVaddr_le
  have hpos := P.threadStackSize_pos
  have hfits := P.stack_fits
  have hsize : 0 < P.procStackSize := by
    unfold Platform.procStackSize procThreadMax
    omega
  have halign : alignUp P.procStackSize / 4096 * 4096
      = alignUp P.procStackSize := by
    unfold alignUp
    omega
  have hup : P.procStackSize ≤ alignUp P.procStackSize := by
    unfold alignUp
    omega
  have hfits' : alignUp P.procStackSize ≤ P.argsBase := hfits
  have hbase : stackBase (resetProcessStack P pcb)
      = P.argsBase - alignUp P.procStackSize := by
    simp only [stackBase, resetProcessStack, halign]
    have hmod : alignUp P.procStackSize % addrSpace
        = alignUp P.procStackSize := by
      apply Nat.mod_eq_of_lt
      unfold addrSpace
      omega
    rw [hmod]
    unfold addrSpace
    omega
  have hcount : (resetProcessStack P pcb).pageCount
      = alignUp P.procStackSize / 4096 := rfl
  unfold UserPages
  rw [hbase, hcount, halign]
  refine ⟨fun _ => ⟨?_, by omega⟩, by omega⟩
  have : alignUp P.procStackSize % 4096 = 0 := by
    unfold alignUp
    omega
  omega

/-- An image whose areas are pages of the user area: its segments, from
the entry point on, and its heap. -/
structure ImageFits (P : Platform) (elf : Elf) : Prop where
  image : UserPages P elf.entry elf.segmentPageCount
  heap : UserPages P
    (imageFields P elf (resetProcessStack P (freshPcb 0))).heapBase
    (alignUp P.heapSize / 4096)

/-- The calls of `setup_proc_image_replace` one by one; what follows them
touches neither tables nor frames. -/
theorem imageCalls_steps {elf : Elf} {pcb : Pcb} {argsEnv : Nat}
    {cs : List Call} (hcs : ∀ c ∈ cs, Idle c)
    (h : calls B m (imageCalls P p elf (resetProcessStack P pcb) argsEnv
      ++ cs) = some m') :
    ∃ m₁ m₂ m₃ m₄ m₅, call B m (.resetRootPgtable p false) = some m₁
      ∧ call B m₁ (.releaseProcPages p) = some m₂
      ∧ allocatePage B m₂ p (stackBase (resetProcessStack P pcb))
        (resetProcessStack P pcb).pageCount = some m₃
      ∧ allocatePage B m₃ p elf.entry elf.segmentPageCount = some m₄
      ∧ allocatePage B m₄ p
        (imageFields P elf (resetProcessStack P pcb)).heapBase
        (alignUp P.heapSize / 4096) = some m₅
      ∧ allocatePage B m₅ p P.argsBase 1 = some m' := by
  simp only [imageCalls, List.cons_append, List.nil_append] at h
  obtain ⟨m₁, hreset, h⟩ := run_cons_iff.mp h
  obtain ⟨m₂, hrelease, h⟩ := run_cons_iff.mp h
  obtain ⟨m₃, hstack, h⟩ := run_cons_iff.mp h
  obtain ⟨m₄, himage, h⟩ := run_cons_iff.mp h
  obtain ⟨m₅, hheap, h⟩ := run_cons_iff.mp h
  obtain ⟨m₆, hargs, h⟩ := run_cons_iff.mp h
  obtain rfl : m' = m₆ := by
    refine calls_idle (fun c hc => ?_) h
    rcases List.mem_append.mp hc with hc | hc
    · split at hc
      · obtain rfl := List.mem_singleton.mp hc
        trivial
      · cases hc
    · exact hcs c hc
  exact ⟨m₁, m₂, m₃, m₄, m₅, hreset, hrelease, hstack, himage, hheap, hargs⟩

/-- Replacing an image that fits: the process ends up with pages of its
own and nothing else. -/
theorem image_within {elf : Elf} {pcb : Pcb} {argsEnv : Nat}
    (hfits : ImageFits P elf) (hp : p < n) (hs : Sound B m.tables n)
    (ac : Accounted B.pool n m.frames)
    (h : calls B m (imageCalls P p elf (resetProcessStack P pcb) argsEnv
      ++ [.loadProcess, .threadExit p]) = some m') :
    Within B n p m m' ∧ Backed P m' p ∧ HasPage P m' p := by
  obtain ⟨m₁, m₂, m₃, m₄, m₅, hreset, hrelease, hstack, himage, hheap,
    hargs⟩ := imageCalls_steps (idle_loaded p) h
  have hframes : m₁.frames = m.frames := by
    cases hreset
    rfl
  obtain ⟨hw₁, hsect₁, hnone⟩ := reset_grown hp hs hreset
  obtain ⟨hw₂, htables⟩ := release_within hp hw₁.sound (hframes ▸ ac)
    hrelease
  have hsect₂ : NoSection P m₂ p := by
    unfold NoSection
    rw [htables]
    exact hsect₁
  have hb₂ : Backed P m₂ p := by
    intro v f hv hf
    rw [htables, frameAt, hnone v hv] at hf
    cases hf
  obtain ⟨harea, hpos⟩ := stack_area P pcb
  obtain ⟨hg₃, hpage⟩ := allocatePage_grown hp hw₂.sound hsect₂ hb₂ harea
    hstack
  obtain ⟨hg₄, -⟩ := allocatePage_grown hp hg₃.within.sound hg₃.noSection
    hg₃.backed hfits.image himage
  obtain ⟨hg₅, -⟩ := allocatePage_grown hp hg₄.within.sound hg₄.noSection
    hg₄.backed hfits.heap hheap
  have hargs_area : UserPages P P.argsBase 1 :=
    fun _ => ⟨P.argsBase_aligned, P.argsBase_user⟩
  obtain ⟨hg₆, -⟩ := allocatePage_grown hp hg₅.within.sound hg₅.noSection
    hg₅.backed hargs_area hargs
  have hg := (hg₄.trans hg₅).trans hg₆
  exact ⟨((hw₁.trans hw₂).trans hg₃.within).trans hg.within, hg.backed,
    hg.hasPage (hpage hpos)⟩

-- =============================================================== the invariant

/-- The invariant of the kernel. -/
structure Isolated (B : Board P H F) (K : State H F) : Prop where
  audited : Audited B K
  sound : Sound B K.mach.tables K.sys.k.nextRef
  backed : ∀ p, Live K.sys.k p → Backed P K.mach p
  hasPage : ∀ p, Live K.sys.k p → HasPage P K.mach p

/-- An operation on behalf of process `p`: the others are as they
were. -/
theorem Isolated.of_within {K K' : State H F} {m : Machine H F} {p : Ref}
    (haudit : Audited B K')
    (hw : Within B K'.sys.k.nextRef p m K'.mach)
    (hm : ∀ q, Live K.sys.k q → Backed P m q ∧ HasPage P m q)
    (hlive : ∀ q, q ≠ p → Live K'.sys.k q → Live K.sys.k q)
    (hp : Live K'.sys.k p → Backed P K'.mach p ∧ HasPage P K'.mach p) :
    Isolated B K' := by
  have hall : ∀ q, Live K'.sys.k q →
      Backed P K'.mach q ∧ HasPage P K'.mach q := by
    intro q hq
    by_cases hqp : q = p
    · exact hqp ▸ hp (hqp ▸ hq)
    · obtain ⟨hb, hpage⟩ := hm q (hlive q hqp hq)
      obtain ⟨hb', hpage'⟩ := hw.other hq.1 hqp
      exact ⟨hb' hb, hpage' hpage⟩
  exact ⟨haudit, hw.sound, fun q hq => (hall q hq).1,
    fun q hq => (hall q hq).2⟩

theorem Kept.live {k k' : Procs} (h : Kept k k') {q : Ref} :
    Live k' q ↔ Live k q := by
  unfold Live
  rw [h.nextRef, ne_eq, ne_eq, h.zombie q]

theorem Isolated.each {K : State H F} (h : Isolated B K) (q : Ref)
    (hq : Live K.sys.k q) : Backed P K.mach q ∧ HasPage P K.mach q :=
  ⟨h.backed q hq, h.hasPage q hq⟩

/-- Fork: a new table, then a copy of the parent. -/
theorem Isolated.forked {K K' : State H F} {p : Ref} (h : Isolated B K)
    (haudit : Audited B K') (hlive : Live K.sys.k p)
    (hf : Forked K.sys.k K'.sys.k p)
    (hcs : calls B K.mach [.newRootPgtable K.sys.k.nextRef,
      .duplicateUserSpace p K.sys.k.nextRef] = some K'.mach) :
    Isolated B K' := by
  obtain ⟨m₁, hnew, hcs⟩ := run_cons_iff.mp hcs
  obtain ⟨m₂, hdup, hcs⟩ := run_cons_iff.mp hcs
  cases hcs
  have ht : m₁.tables
      = newTable P K.mach.tables (.proc K.sys.k.nextRef) := by
    cases hnew
    rfl
  have hframes : m₁.frames = K.mach.frames := by
    cases hnew
    rfl
  -- the table of the child shows nowhere else
  have hm : ∀ q, Live K.sys.k q → Backed P m₁ q ∧ HasPage P m₁ q := by
    intro q hq
    obtain ⟨hb, v, hv, hw⟩ := h.each q hq
    have hne : q ≠ K.sys.k.nextRef := Nat.ne_of_lt hq.1
    refine ⟨fun u f hu hfu => ?_, v, hv, ?_⟩
    · rw [ht, frameAt, newTable_walk hne] at hfu
      rw [hframes]
      exact hb u f hu hfu
    · rw [ht, newTable_walk hne]
      exact hw
  have hp : p < K.sys.k.nextRef + 1 := Nat.lt_succ_of_lt hlive.1
  obtain ⟨hw, hb, hpage⟩ := duplicate_within hp (Nat.lt_succ_self _)
    (Nat.ne_of_lt hlive.1) (ht ▸ h.sound.newTable)
    (hframes ▸ h.audited.frames.succ) (hm p hlive).1 (hm p hlive).2
    (fun i hi => ht ▸ newTable_user hi) hdup
  refine Isolated.of_within haudit (hf.nextRef ▸ hw) hm
    (fun q hq hq' => ?_) fun _ => ⟨hb, hpage⟩
  obtain ⟨hlt, hz⟩ := hq'
  rw [hf.nextRef] at hlt
  rw [hf.others q hq] at hz
  exact ⟨Nat.lt_of_le_of_ne (Nat.le_of_lt_succ hlt) hq, hz⟩

/-- Exit: the pages go, and with them the process. -/
theorem Isolated.exited {K K' : State H F} {p : Ref} {status : BitVec 32}
    (h : Isolated B K) (haudit : Audited B K') (hlive : Live K.sys.k p)
    (hk : K'.sys.k = (K.sys.k.setIrq false).setPcb p fun pcb =>
      { pcb with state := .ZOMBIE, exitStatus := status })
    (hcs : calls B K.mach [.releaseProcPages p, .threadExit p]
      = some K'.mach) : Isolated B K' := by
  obtain ⟨m₁, hrelease, hcs⟩ := run_cons_iff.mp hcs
  obtain ⟨m₂, hexit, hcs⟩ := run_cons_iff.mp hcs
  cases hcs
  cases hexit
  obtain ⟨hw, -⟩ := release_within hlive.1 h.sound h.audited.frames hrelease
  have hnext : K'.sys.k.nextRef = K.sys.k.nextRef := by
    rw [hk]
    rfl
  refine Isolated.of_within haudit (hnext ▸ hw) h.each
    (fun q hq hq' => ?_) fun hp => ?_
  · obtain ⟨hlt, hz⟩ := hq'
    rw [hk, setPcb_pcb, if_neg hq] at hz
    exact ⟨hnext ▸ hlt, hz⟩
  · obtain ⟨-, hz⟩ := hp
    rw [hk, setPcb_pcb, if_pos rfl] at hz
    exact absurd rfl hz

/-- Exec, with an image that fits. -/
theorem Isolated.replaced {K K' : State H F} {p : Ref} {elf : Elf}
    {pcb : Pcb} {argsEnv : Nat} (h : Isolated B K)
    (haudit : Audited B K') (hlive : Live K.sys.k p)
    (hfits : ImageFits P elf) (hkept : Kept K.sys.k K'.sys.k)
    (hcs : calls B K.mach (imageCalls P p elf (resetProcessStack P pcb)
      argsEnv ++ [.loadProcess, .threadExit p]) = some K'.mach) :
    Isolated B K' := by
  obtain ⟨hw, hp⟩ := image_within hfits hlive.1 h.sound h.audited.frames hcs
  exact Isolated.of_within haudit (hkept.nextRef.symm ▸ hw) h.each
    (fun q _ hq => hkept.live.mp hq) fun _ => hp

/-- What an operation asks of isolation: a process is not created or
waited for, and an image that is loaded fits. -/
def Op.Fits (P : Platform) (elfLoadBuffer : CString → Option Elf) :
    Op → Prop
  | .exec _ _ _ filename _ _ _ _ =>
      ∀ elf, elfLoadBuffer filename = some elf → ImageFits P elf
  | .proc (.fork _ _) | .proc (.exit _ _) | .proc (.sched _ _) => True
  | _ => False

variable (elfLoadBuffer : CString → Option Elf)
  (threadJoin : Option Tid → Option Tid)

/-- Every such operation keeps the invariant. -/
theorem isolated_perform {K K' : State H F} {op : Op} (h : Isolated B K)
    (hfits : op.Fits P elfLoadBuffer)
    (hop : perform B elfLoadBuffer threadJoin K op = some K') :
    Isolated B K' := by
  have haudit := audited_perform elfLoadBuffer threadJoin h.audited hop
  obtain ⟨cs, hcs, hcaused⟩ := perform_caused B elfLoadBuffer threadJoin
    h.audited.noPtrace hop
  generalize hk : K'.sys.k = k' at hcaused
  cases hcaused with
  | quiet hkept =>
      rw [← hk] at hkept
      have hmach : K.mach = K'.mach := Option.some.inj hcs
      refine ⟨haudit, ?_, fun q hq => ?_, fun q hq => ?_⟩
      · rw [hkept.nextRef, ← hmach]
        exact h.sound
      · exact hmach ▸ h.backed q (hkept.live.mp hq)
      · exact hmach ▸ h.hasPage q (hkept.live.mp hq)
  | created => cases hfits
  | allocated _ => cases hfits
  | @waited a c _ hwait _ =>
      cases a with
      | wait p pid wstatus nohang => cases hfits
      | resume w => cases hfits
      | _ => cases hwait
  | forked hlive hf => exact h.forked haudit hlive (hk ▸ hf) hcs
  | exited hlive _ => exact h.exited haudit hlive hk hcs
  | replaced argsEnv hlive himage hkept =>
      exact h.replaced haudit hlive (hfits _ himage) (hk ▸ hkept) hcs

-- =================================================================== isolation

/-- No frame is in the user areas of two live processes, and a frame in
the user area of a live process is in its page list, unless it belongs to
the image of the root process. -/
structure MemoryIsolation (P : Platform) (K : State H F) : Prop where
  disjoint : ∀ p q u v f, Live K.sys.k p → Live K.sys.k q → p ≠ q →
    u < P.kernelVaddr → v < P.kernelVaddr →
    frameAt K.mach.tables (.proc p) u = some f →
    frameAt K.mach.tables (.proc q) v ≠ some f
  listed : ∀ p v f, Live K.sys.k p → v < P.kernelVaddr →
    frameAt K.mach.tables (.proc p) v = some f → ¬ RootImage P f →
    f ∈ K.mach.frames.pageList p

theorem Isolated.memoryIsolation {K : State H F} (h : Isolated B K) :
    MemoryIsolation P K where
  disjoint := by
    intro p q u v f hp hq hne hu hv hfu hfv
    -- a listed frame is no part of the root image
    have hroot : ∀ {r}, f ∈ K.mach.frames.pageList r → ¬ RootImage P f :=
      fun hr => (h.audited.frames.inUse f
        (h.audited.frames.pos_of_mem hr)).1.2.2
    rcases h.backed p hp u f hu hfu with hlp | ⟨hp0, hrp⟩
    · rcases h.backed q hq v f hv hfv with hlq | ⟨-, hrq⟩
      · exact hne (h.audited.frames.exclusive hlp hlq)
      · exact hroot hlp hrq
    · rcases h.backed q hq v f hv hfv with hlq | ⟨hq0, -⟩
      · exact hroot hlq hrp
      · exact hne (hp0.trans hq0.symm)
  listed := by
    intro p v f hp hv hf hroot
    rcases h.backed p hp v f hv hf with hl | ⟨-, hr⟩
    · exact hl
    · exact absurd hr hroot

/-- The tables at boot: the system table is well formed, and the slot of
the copy window is empty or its L2 table holds another page. -/
structure BootTables (B : Board P H F) (t : PageTables H) : Prop where
  wf : WellFormed B.hw t .sys
  window : t.l1 .sys (fixSlot P) = 0
    ∨ (l1pteIsTable (t.l1 .sys (fixSlot P))
      ∧ ∃ x, x < 256 ∧ x ≠ fixEntry P ∧ entry t .sys (fixSlot P) x ≠ 0)

theorem BootTables.sound {t : PageTables H} (h : BootTables B t) :
    Sound B t 0 where
  slot := by
    intro g i hown
    cases g with
    | sys => exact h.wf.slot i hown.2
    | proc p => exact absurd hown.1 (Nat.not_lt_zero p)
  owned := by
    intro g i g' i' hown hown' hne ht ht'
    cases g with
    | proc p => exact absurd hown.1 (Nat.not_lt_zero p)
    | sys =>
        cases g' with
        | proc p => exact absurd hown'.1 (Nat.not_lt_zero p)
        | sys =>
            exact h.wf.owned i i' hown.2 hown'.2 (fun he => hne ⟨rfl, he⟩)
              ht ht'
  kernel := fun p _ hp => absurd hp (Nat.not_lt_zero p)
  window := h.window
  small := fun p _ _ hp => absurd hp (Nat.not_lt_zero p)

/-- `create_root_process` at boot. -/
theorem isolated_create {t : PageTables H} {pool : F}
    {page : Nat → Nat → UInt8} {K : State H F} (hboot : BootTables B t)
    (h : perform B elfLoadBuffer threadJoin (State.boot t pool page) .create
      = some K) : Isolated B K := by
  have haudit := audited_perform elfLoadBuffer threadJoin
    (audited_boot t pool page) h
  obtain ⟨m', hcs, rfl⟩ := Option.map_eq_some_iff.mp h
  obtain ⟨m₁, hnew, hcs⟩ := run_cons_iff.mp hcs
  obtain ⟨m₂, hstack, hcs⟩ := run_cons_iff.mp hcs
  obtain ⟨m₃, hroot, hcs⟩ := run_cons_iff.mp hcs
  obtain rfl : m' = m₃ := by
    refine calls_idle (fun c hc => ?_) hcs
    obtain rfl := List.mem_singleton.mp hc
    trivial
  have ht : m₁.tables = newTable P t (.proc 0) := by
    cases hnew
    rfl
  have hsound : Sound B m₁.tables 1 := ht ▸ hboot.sound.newTable
  have hempty : ∀ i, i < P.userSlots → m₁.tables.l1 (.proc 0) i = 0 :=
    fun i hi => ht ▸ newTable_user hi
  have hsect : NoSection P m₁ 0 := by
    intro i hi hs
    rw [hempty i hi] at hs
    cases hs
  have hb : Backed P m₁ 0 := by
    intro v f hv hf
    rw [frameAt, walk_of_empty (hempty _ (slot_lt_userSlots hv))] at hf
    cases hf
  obtain ⟨hg, -⟩ := allocatePage_grown Nat.one_pos hsound hsect hb
    (stack_area P (freshPcb 0)).1 hstack
  obtain ⟨hw, hb', hpage⟩ := mapRootImage_within Nat.one_pos
    hg.within.sound hg.noSection hg.backed hroot
  have hzero : ∀ {p : Ref}, Live (createRootProcess P Procs.boot).1 p →
      p = 0 :=
    fun hp => Nat.lt_one_iff.mp hp.1
  exact ⟨haudit, hw.sound, fun p hp => hzero hp ▸ hb',
    fun p hp => hzero hp ▸ hpage⟩

/-- In every run that creates the root process and then forks, exits and
executes images that fit, in any order and over any number of processes,
memory isolation holds in the state reached. As everywhere in this
module a PCB keeps `page_list` and `pgtable` whatever its name; on the
board they lie behind the eighty bytes of `name`, so that the runs meant
are those whose names fit (`Op.NamesFit`). -/
theorem memory_isolation (t : PageTables H) (pool : F)
    (page : Nat → Nat → UInt8) (ops : List Op) (K : State H F)
    (hboot : BootTables B t) (hops : ∀ op ∈ ops, op.Fits P elfLoadBuffer)
    (h : run (perform B elfLoadBuffer threadJoin) (State.boot t pool page)
      (.create :: ops) = some K) : MemoryIsolation P K := by
  obtain ⟨K₁, hcreate, hrun⟩ := run_cons_iff.mp h
  refine Isolated.memoryIsolation (B := B) ?_
  exact run_inv_along (I := fun K => Isolated B K)
    (fun _ _ _ hK hfits hop =>
      isolated_perform elfLoadBuffer threadJoin hK hfits hop)
    (isolated_create elfLoadBuffer threadJoin hboot hcreate)
    (along_of_forall hops K₁) hrun

theorem bootTables_small : BootTables Board.small State.small.mach.tables :=
  ⟨⟨fun _ _ => Or.inl rfl, fun _ _ _ _ _ h => by cases h⟩, Or.inl rfl⟩

/-- A one-page image at a page address fits. -/
theorem onePage_fits {filename : CString} {elf : Elf}
    (h : onePage filename = some elf) : ImageFits .small elf := by
  cases h
  exact ⟨fun _ => by decide, fun _ => by decide⟩

set_option maxRecDepth 4096 in
/-- A parent and a child that replaced its image. -/
theorem memory_isolation_exec :
    ∃ K, run (perform .small onePage id) State.small
        [.create, .proc (.fork 0 0), .execFile 1 1] = some K
      ∧ MemoryIsolation .small K := by
  have hret : (run (perform .small onePage id) State.small
      [.create, .proc (.fork 0 0), .execFile 1 1]).isSome = true := rfl
  obtain ⟨K, hK⟩ := Option.isSome_iff_exists.mp hret
  refine ⟨K, hK, memory_isolation (B := Board.small) onePage id _ _ _
    [.proc (.fork 0 0), .execFile 1 1] K bootTables_small ?_ hK⟩
  intro op hop
  simp only [List.mem_cons, List.not_mem_nil, or_false] at hop
  rcases hop with rfl | rfl
  · trivial
  · exact fun elf => onePage_fits

/-- A loader that finds a one-page image with its entry point inside the
page. -/
def midPage : CString → Option Elf := fun _ => some ⟨0x1004, 1⟩

set_option maxRecDepth 4096 in
/-- With such an image `create_mapping` maps two pages for the one frame
it is given: the second one is frame 104, the code of the child. -/
theorem memory_isolation_broken :
    BootTables Board.small State.small.mach.tables
      ∧ ∃ K, run (perform .small midPage id) State.small
          [.create, .proc (.fork 0 0), .execFile 0 0] = some K
        ∧ Live K.sys.k 0 ∧ Live K.sys.k 1
        ∧ frameAt K.mach.tables (.proc 0) 0x2000 = some 104
        ∧ frameAt K.mach.tables (.proc 1) 0x1000 = some 104
        ∧ ¬ MemoryIsolation .small K := by
  have hret : ∃ K, run (perform .small midPage id) State.small
        [.create, .proc (.fork 0 0), .execFile 0 0] = some K
      ∧ (Live K.sys.k 0 ∧ Live K.sys.k 1)
      ∧ frameAt K.mach.tables (.proc 0) 0x2000 = some 104
      ∧ frameAt K.mach.tables (.proc 1) 0x1000 = some 104 :=
    ⟨_, rfl, by decide, rfl, rfl⟩
  obtain ⟨K, hK, ⟨h0, h1⟩, hparent, hchild⟩ := hret
  refine ⟨bootTables_small, K, hK, h0, h1, hparent, hchild, fun h => ?_⟩
  exact h.disjoint 0 1 0x2000 0x1000 104 h0 h1 (by decide) (by decide)
    (by decide) hparent hchild

end SyeLabs.Kernel
