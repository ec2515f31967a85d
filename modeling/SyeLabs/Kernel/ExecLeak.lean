/-
Exec and the previous contents of the frames, as a property of two runs.

# Two runs

`ExecStart` is a state exec can start in. The runs compared differ in
everything but the kernel, the image, the arguments and the name of the
process: in the processes, the tables, the pool, the kernel heap and what
the frames hold. They leave the same user area, with the bytes of `.bss`
zero, if exec writes every byte of the areas it maps (`Covered`). Apart
from the bytes it stores, an exec is the run of its calls into the memory
manager (`exec_calls`), so that the runs are those of the other modules.

# What is not written

Neither `allocate_page` nor `load_process` clears anything. A page of the
stack or of the heap, the rest of a page behind a section, a section of
type `NOBITS`, and the argument page when the arguments do not fit read
as the frame was left by whoever had it before. Two runs that differ in
the contents of the frames alone show it, so the condition is exact for
images that fit (`exec_no_leak_iff`).
-/
import SyeLabs.Kernel.LoadImage

namespace SyeLabs.Kernel

open Lib Mmu Process

variable {P : Platform} {H F : Type*} {B : Board P H F} {name : CString}

-- =========================================================== where exec starts

/-- A state in which process `p`, of that name, replaces its image:
tables and frames are in order, the name fits for itself into an argument
page, and `malloc` returns a page of the kernel heap for the
arguments. -/
structure ExecStart (B : Board P H F) (name : CString) where
  mach : Machine H F
  k : Procs
  p : Ref
  args : Nat
  heap : ByteMem
  live : p < k.nextRef
  sound : Sound B mach.tables k.nextRef
  accounted : Accounted B.pool k.nextRef mach.frames
  named : (k.pcb p).name = name
  nameFits : packedSize [name] [] ≤ pageSize
  argsKernel : P.kernelVaddr ≤ args
  argsEnd : args + pageSize ≤ 4294967296

/-- A live process of the isolated kernel can start, under the name of
the file. -/
def Isolated.execStart {K : State H F} (h : Isolated B K) {p : Ref}
    (hlive : Live K.sys.k p) (filename : CString) (args : Nat)
    (heap : ByteMem) (nameFits : packedSize [filename] [] ≤ pageSize)
    (argsKernel : P.kernelVaddr ≤ args)
    (argsEnd : args + pageSize ≤ 4294967296) :
    ExecStart B filename where
  mach := K.mach
  k := K.sys.k.setPcb p fun pcb => { pcb with name := filename }
  p := p
  args := args
  heap := heap
  live := hlive.1
  sound := h.sound
  accounted := h.audited.frames
  named := by rw [setPcb_pcb, if_pos rfl]
  nameFits := nameFits
  argsKernel := argsKernel
  argsEnd := argsEnd

/-- The state with other contents in the frames. -/
def ExecStart.withPage (s : ExecStart B name) (page : Nat → Nat → UInt8) :
    ExecStart B name :=
  { s with mach := { s.mach with page := page } }

/-- `setup_proc_image_replace` and `load_process` in that state. -/
def ExecStart.exec (s : ExecStart B name) (img : ElfImage)
    (argv envp : Option (List CString)) : Option (Machine H F) :=
  execImage B img argv envp s.args s.k s.p s.heap s.mach

-- ============================================================== its two halves

/-- The calls of `setup_proc_image_replace` up to the arguments. -/
def setupCalls (P : Platform) (p : Ref) (elf : Elf) : List Call :=
  imageCalls P p elf (resetProcessStack P (freshPcb 0)) 0

/-- The areas of an image: stack, segments, heap and arguments. -/
def ImageArea (P : Platform) (elf : Elf) (v : Nat) : Prop :=
  let stack := resetProcessStack P (freshPcb 0)
  InArea (stackBase stack) stack.pageCount v
    ∨ InArea elf.entry elf.segmentPageCount v
    ∨ InArea (imageFields P elf stack).heapBase (alignUp P.heapSize / 4096) v
    ∨ InArea P.argsBase 1 v

/-- The kernel heap after `preserve_args_and_env`. -/
def ExecStart.preserved (s : ExecStart B name)
    (argv envp : Option (List CString)) : ByteMem :=
  (preserveArgsAndEnv s.args name (argv.getD []).length argv envp s.heap).1

/-- The second half: the arguments, if they were packed, and the
sections. -/
def ExecStart.fill (s : ExecStart B name) (img : ElfImage)
    (argv envp : Option (List CString)) (m : Machine H F) :
    Option (Machine H F) :=
  (if ArgsFit name argv envp then
      postSetupPage P s.p s.args (s.preserved argv envp) m
    else some m).bind (loadProcess P s.p img)

/-- The calls of `setup_proc_image_replace`: those, and the arguments. -/
theorem imageCalls_eq (P : Platform) (p : Ref) (elf : Elf) (pcb : Pcb)
    (argsEnv : Nat) :
    imageCalls P p elf (resetProcessStack P pcb) argsEnv
      = setupCalls P p elf
        ++ if argsEnv ≠ 0 then [.postSetupImage argsEnv] else [] := rfl

/-- The calls of exec: those that map the image, then those that fill
it. -/
theorem run_imageCalls (img : ElfImage) (p : Ref) (pcb : Pcb)
    (argsEnv : Nat) (heap : ByteMem) (m : Machine H F) :
    run (imageCall B img p heap) m
        (imageCalls P p img.toElf (resetProcessStack P pcb) argsEnv
          ++ [.loadProcess])
      = (calls B m (setupCalls P p img.toElf)).bind fun m =>
          (if argsEnv ≠ 0 then postSetupPage P p argsEnv heap m
            else some m).bind (loadProcess P p img) := by
  -- the calls before the arguments are those of the kernel
  have hsetup : run (imageCall B img p heap) m (setupCalls P p img.toElf)
      = calls B m (setupCalls P p img.toElf) := rfl
  rw [imageCalls_eq, List.append_assoc, run_append, hsetup]
  congr 1
  funext m₁
  have hload : ∀ m₂, run (imageCall B img p heap) m₂ [.loadProcess]
      = loadProcess P p img m₂ := by
    intro m₂
    exact Option.bind_fun_some (loadProcess P p img m₂)
  rw [run_append]
  by_cases hargs : argsEnv ≠ 0
  · rw [if_pos hargs, if_pos hargs, run_cons]
    show ((postSetupPage P p argsEnv heap m₁).bind some).bind _ = _
    rw [Option.bind_fun_some]
    congr 1
    funext m₂
    exact hload m₂
  · rw [if_neg hargs, if_neg hargs, run_nil, Option.bind_some,
      Option.bind_some, hload]

/-- Exec maps the image and then fills it. -/
theorem ExecStart.exec_eq (s : ExecStart B name) (img : ElfImage)
    (argv envp : Option (List CString)) :
    s.exec img argv envp
      = (calls B s.mach (setupCalls P s.p img.toElf)).bind
          (s.fill img argv envp) := by
  have hkernel := s.argsKernel
  have hargs : s.args ≠ 0 := by
    have := P.argsBase_user
    omega
  have hstack : (s.k.setPcb s.p (resetProcessStack P)).pcb s.p
      = resetProcessStack P (s.k.pcb s.p) := by
    rw [setPcb_pcb, if_pos rfl]
  unfold exec execImage setupProcImageReplace
  dsimp only
  rw [if_neg (Nat.not_lt_zero _), hstack, s.named]
  by_cases hfit : ArgsFit name argv envp
  · obtain ⟨m₁, hrun, -⟩ := packed_page s.args P.argsBase name _ argv envp
      s.heap (Nat.le_refl _) hfit s.argsEnd (by
        have := P.argsBase_user
        have := P.kernelVaddr_le
        unfold pageSize
        omega)
    have hpres : s.preserved argv envp = m₁ := congrArg Prod.fst hrun
    simp only [hrun, run_imageCalls]
    congr 1
    funext m
    rw [fill, if_pos hfit, hpres, if_pos hargs]
  · have herr : (preserveArgsAndEnv s.args name (argv.getD []).length argv
        envp s.heap).2 = .error .ENOMEM :=
      preserveArgsAndEnv_unfit s.nameFits (Nat.lt_of_not_le hfit)
    simp only [herr, run_imageCalls]
    congr 1
    funext m
    rw [fill, if_neg hfit]
    rfl

-- ================================================================= the mapping

/-- The calls of `setup_proc_image_replace` map the areas of the image,
each page with a frame of its own, and leave the contents alone. -/
theorem built_image {n : Nat} {p : Ref} {m m' : Machine H F} {elf : Elf}
    {pcb : Pcb} {argsEnv : Nat} {cs : List Call} (hfits : ImageFits P elf)
    (hp : p < n) (hs : Sound B m.tables n)
    (ac : Accounted B.pool n m.frames) (hcs : ∀ c ∈ cs, Idle c)
    (h : calls B m (imageCalls P p elf (resetProcessStack P pcb) argsEnv
      ++ cs) = some m') :
    ∃ M, Built B n p m' M ∧ m'.page = m.page
      ∧ ∀ v, (M.frame (v / 4096)).isSome ↔ ImageArea P elf v := by
  obtain ⟨m₁, m₂, m₃, m₄, m₅, hreset, hrelease, hstack, himage, hheap,
    hargs⟩ := imageCalls_steps hcs h
  have h₂ := built_empty hp hs ac hreset hrelease
  have hpage₂ : m₂.page = m.page := by
    cases hreset
    cases hrelease
    rfl
  obtain ⟨M₃, h₃, hpage₃, hdom₃⟩ :=
    h₂.allocatePage hp (stack_area P _).1 hstack
  obtain ⟨M₄, h₄, hpage₄, hdom₄⟩ := h₃.allocatePage hp hfits.image himage
  obtain ⟨M₅, h₅, hpage₅, hdom₅⟩ := h₄.allocatePage hp hfits.heap hheap
  have hargs_area : UserPages P P.argsBase 1 :=
    fun _ => ⟨P.argsBase_aligned, P.argsBase_user⟩
  obtain ⟨M₆, h₆, hpage₆, hdom₆⟩ := h₅.allocatePage hp hargs_area hargs
  refine ⟨M₆, h₆, ?_, fun v => ?_⟩
  · rw [hpage₆, hpage₅, hpage₄, hpage₃, hpage₂]
  · have hnone : ¬ ((PageMap.empty.frame (v / 4096)).isSome = true) :=
      Bool.false_ne_true
    rw [hdom₆, hdom₅, hdom₄, hdom₃, or_iff_right hnone, or_assoc, or_assoc]
    exact Iff.rfl

/-- The first half of exec. -/
theorem ExecStart.setup_built (s : ExecStart B name) {elf : Elf}
    (hfits : ImageFits P elf) {m : Machine H F}
    (h : calls B s.mach (setupCalls P s.p elf) = some m) :
    ∃ M, Built B s.k.nextRef s.p m M ∧ m.page = s.mach.page
      ∧ ∀ v, (M.frame (v / 4096)).isSome ↔ ImageArea P elf v := by
  rw [setupCalls, ← List.append_nil (imageCalls ..)] at h
  exact built_image hfits s.live s.sound s.accounted
    (fun c hc => absurd hc List.not_mem_nil) h

/-- The calls that map the image do not read the contents. -/
theorem setupCalls_withPage (p : Ref) (elf : Elf) (m : Machine H F)
    (page : Nat → Nat → UInt8) :
    calls B { m with page := page } (setupCalls P p elf)
      = (calls B m (setupCalls P p elf)).map fun m =>
          { m with page := page } := by
  have hone : ∀ virtAddr i (m : Machine H F),
      allocateOne B p virtAddr i { m with page := page }
        = (allocateOne B p virtAddr i m).map fun m =>
            { m with page := page } := by
    intro virtAddr i m
    unfold allocateOne
    simp only [Option.map_bind, Option.map_map, Function.comp_def]
  have hall : ∀ virtAddr nrPages (m : Machine H F),
      call B { m with page := page } (.allocatePage p virtAddr nrPages)
        = (call B m (.allocatePage p virtAddr nrPages)).map fun m =>
            { m with page := page } :=
    fun virtAddr nrPages m =>
      forRange_map (fun i m => hone virtAddr i m) nrPages m
  refine run_map (f := fun m => { m with page := page }) ?_ m
  intro c hc m
  have hcases : c = .resetRootPgtable p false ∨ c = .releaseProcPages p
      ∨ ∃ virtAddr nrPages, c = .allocatePage p virtAddr nrPages := by
    simp only [setupCalls, imageCalls, ne_eq, not_true_eq_false, if_false,
      List.append_nil, List.mem_cons, List.not_mem_nil, or_false] at hc
    rcases hc with rfl | rfl | rfl | rfl | rfl | rfl
    · exact Or.inl rfl
    · exact Or.inr (Or.inl rfl)
    all_goals exact Or.inr (Or.inr ⟨_, _, rfl⟩)
  rcases hcases with rfl | rfl | ⟨virtAddr, nrPages, rfl⟩
  · rfl
  · rfl
  · exact hall virtAddr nrPages m

-- ================================================================= the filling

/-- The second half, behind a page map that reaches the argument page: it
completes exactly if the sections go to mapped pages, and leaves what it
writes over what the frames held. -/
theorem ExecStart.fill_built (s : ExecStart B name) (img : ElfImage)
    (argv envp : Option (List CString)) {m : Machine H F} {M : PageMap}
    (h : Paged P m.tables s.p M)
    (hmapped : (M.frame (P.argsBase / 4096)).isSome) :
    ((s.fill img argv envp m).isSome
        ↔ ∀ w ∈ img.stores, (M.frame (w.1 / 4096)).isSome)
      ∧ ∀ m', s.fill img argv envp m = some m' →
          (∃ page, m' = { m with page := page })
            ∧ userBytes P m' s.p
              = overlay (imageWrites P img name argv envp)
                (M.byte 4096 m.page) := by
  -- the argument page, packed or as the frame was
  obtain ⟨page, hargs, hbytes⟩ : ∃ page,
      (if ArgsFit name argv envp then
          postSetupPage P s.p s.args (s.preserved argv envp) m
        else some m) = some { m with page := page }
      ∧ M.byte 4096 page
        = overlay (if ArgsFit name argv envp then
            argWrites P name argv envp else []) (M.byte 4096 m.page) := by
    by_cases hfit : ArgsFit name argv envp
    · rw [if_pos hfit, if_pos hfit]
      have hbase : P.argsBase + pageSize ≤ 4294967296 :=
        P.argsBase_user.trans P.kernelVaddr_le
      obtain ⟨m₁, hrun, hmove⟩ := packed_page s.args P.argsBase name _ argv
        envp s.heap (Nat.le_refl _) hfit s.argsEnd hbase
      have hpres : s.preserved argv envp = m₁ := congrArg Prod.fst hrun
      rw [hpres]
      exact h.postSetupPage_eq hmapped s.argsKernel (argBytes_length hfit)
        hmove
    · rw [if_neg hfit, if_neg hfit]
      exact ⟨m.page, rfl, rfl⟩
  have hpaged : Paged P ({ m with page := page } : Machine H F).tables s.p M :=
    h
  unfold fill
  rw [hargs, Option.bind_some, loadProcess_eq]
  refine ⟨hpaged.run_stores_isSome, fun m' hm' => ?_⟩
  obtain ⟨⟨page', hpage'⟩, hstores⟩ := hpaged.run_stores hm'
  have hpaged' : Paged P m'.tables s.p M := by
    rw [hpage']
    exact h
  refine ⟨⟨page', hpage'⟩, ?_⟩
  rw [hpaged'.userBytes_eq, hstores, hbytes, imageWrites, overlay_append]

/-- The argument page is mapped. -/
theorem imageArea_args (P : Platform) (elf : Elf) :
    ImageArea P elf P.argsBase :=
  Or.inr (Or.inr (Or.inr ⟨Nat.le_refl _, by omega⟩))

/-- What exec leaves in the user area: what it writes, over what the
frames of its areas held. -/
theorem ExecStart.exec_userBytes (s : ExecStart B name) {img : ElfImage}
    {argv envp : Option (List CString)} (hfits : ImageFits P img.toElf)
    {m' : Machine H F} (h : s.exec img argv envp = some m') :
    ∃ M : PageMap,
      (∀ v, (M.frame (v / 4096)).isSome ↔ ImageArea P img.toElf v)
        ∧ userBytes P m' s.p
          = overlay (imageWrites P img name argv envp)
            (M.byte 4096 s.mach.page) := by
  rw [s.exec_eq] at h
  obtain ⟨m, hsetup, hfill⟩ := Option.bind_eq_some_iff.mp h
  obtain ⟨M, hbuilt, hpage, hdom⟩ := s.setup_built hfits hsetup
  have hmapped := (hdom P.argsBase).mpr (imageArea_args P img.toElf)
  refine ⟨M, hdom, ?_⟩
  rw [← hpage]
  exact ((s.fill_built img argv envp hbuilt.paged hmapped).2 m' hfill).2

/-- To tables and frames exec does what its calls do in a run of the
kernel. -/
theorem ExecStart.exec_calls (s : ExecStart B name) {img : ElfImage}
    {argv envp : Option (List CString)} (hfits : ImageFits P img.toElf)
    {m' : Machine H F} (h : s.exec img argv envp = some m') :
    ∃ m page,
      calls B s.mach ((setupProcImageReplace P s.args s.k s.p img.toElf
        (argv.getD []).length argv envp s.heap).calls ++ [.loadProcess])
          = some m
        ∧ m' = { m with page := page } := by
  rw [s.exec_eq] at h
  obtain ⟨m, hsetup, hfill⟩ := Option.bind_eq_some_iff.mp h
  obtain ⟨M, hbuilt, -, hdom⟩ := s.setup_built hfits hsetup
  have hmapped := (hdom P.argsBase).mpr (imageArea_args P img.toElf)
  obtain ⟨⟨page, hpage⟩, -⟩ :=
    (s.fill_built img argv envp hbuilt.paged hmapped).2 m' hfill
  obtain ⟨argsEnv, hcalls⟩ := setupProcImageReplace_calls P s.args s.k s.p
    img.toElf (argv.getD []).length argv envp s.heap (s.k.pcb s.p)
  refine ⟨m, page, ?_, hpage⟩
  rw [hcalls, imageCalls_eq, List.append_assoc, calls, run_append]
  show (calls B s.mach (setupCalls P s.p img.toElf)).bind _ = some m
  rw [hsetup, Option.bind_some]
  split
  · rfl
  · rfl

/-- Exec completes if the image can be mapped and its stores go to the
areas. -/
theorem ExecStart.exec_isSome_iff (s : ExecStart B name) {img : ElfImage}
    {argv envp : Option (List CString)} (hfits : ImageFits P img.toElf) :
    (s.exec img argv envp).isSome
      ↔ (calls B s.mach (setupCalls P s.p img.toElf)).isSome
        ∧ ∀ w ∈ img.stores, ImageArea P img.toElf w.1 := by
  rw [s.exec_eq]
  cases hsetup : calls B s.mach (setupCalls P s.p img.toElf) with
  | none => simp
  | some m =>
      obtain ⟨M, hbuilt, -, hdom⟩ := s.setup_built hfits hsetup
      have hmapped := (hdom P.argsBase).mpr (imageArea_args P img.toElf)
      rw [Option.bind_some,
        (s.fill_built img argv envp hbuilt.paged hmapped).1]
      simp only [hdom, Option.isSome_some, true_and]

/-- Whether exec completes does not depend on what the frames hold. -/
theorem ExecStart.exec_withPage (s : ExecStart B name) {img : ElfImage}
    {argv envp : Option (List CString)} (hfits : ImageFits P img.toElf)
    (h : (s.exec img argv envp).isSome) (page : Nat → Nat → UInt8) :
    ∃ m, (s.withPage page).exec img argv envp = some m := by
  apply Option.isSome_iff_exists.mp
  rw [exec_isSome_iff _ hfits] at h ⊢
  refine ⟨?_, h.2⟩
  show (calls B { s.mach with page := page }
    (setupCalls P s.p img.toElf)).isSome = true
  rw [setupCalls_withPage, Option.isSome_map]
  exact h.1

-- ================================================================ the property

variable (B) (img : ElfImage) (argv envp : Option (List CString))

/-- Two runs of exec leave the same user area, and every byte of a
supported `NOBITS` section reads as zero. -/
structure NoLeak (name : CString) : Prop where
  same : ∀ (s s' : ExecStart B name) (m m' : Machine H F),
    s.exec img argv envp = some m → s'.exec img argv envp = some m' →
      userBytes P m s.p = userBytes P m' s'.p
  cleared : ∀ (s : ExecStart B name) (m : Machine H F),
    s.exec img argv envp = some m →
      ∀ sec ∈ img.sections, sec.supported → sec.shType = shtNobits →
        ∀ i, i < sec.shSize →
          userBytes P m s.p (sec.shAddr + i) = some 0

/-- There is a run of exec that completes. -/
def Executable (name : CString) : Prop :=
  ∃ (s : ExecStart B name) (m : Machine H F), s.exec img argv envp = some m

/-- A section that `load_process` copies is over `v`. -/
def ElfImage.loadsAt (v : Nat) : Prop :=
  ∃ seg ∈ img.segments, seg.pType = ptLoad ∧ ∃ sec ∈ img.sections,
    sec.loaded seg ∧ sec.shAddr ≤ v ∧ v < sec.shAddr + sec.shSize

/-- Every byte of the areas is in a loaded section, or in the argument
page if the arguments fit there; over a supported `NOBITS` section lie
zeros. -/
structure Covered (P : Platform) (name : CString) : Prop where
  written : ∀ v, ImageArea P img.toElf v →
    img.loadsAt v
      ∨ (ArgsFit name argv envp ∧ P.argsBase ≤ v
        ∧ v < P.argsBase + pageSize)
  zeros : ∀ sec ∈ img.sections, sec.supported → sec.shType = shtNobits →
    ∀ i, i < sec.shSize →
      lastWrite (imageWrites P img name argv envp) (sec.shAddr + i) = some 0

variable {B} {img} {argv envp}

/-- The places `load_process` writes to. -/
theorem stores_iff_loadsAt {v : Nat} :
    (∃ w ∈ img.stores, w.1 = v) ↔ img.loadsAt v := by
  unfold ElfImage.stores ElfImage.loadsAt
  constructor
  · intro h
    obtain ⟨w, hw, hwv⟩ := h
    obtain ⟨seg, hseg, hw⟩ := List.mem_flatMap.mp hw
    split at hw
    next hload =>
      obtain ⟨sec, hsec, hw⟩ := List.mem_flatMap.mp hw
      split at hw
      next hin =>
        exact ⟨seg, hseg, hload, sec, hsec, hin,
          exists_mem_block.mp ⟨w, hw, hwv⟩⟩
      next => cases hw
    next => cases hw
  · intro h
    obtain ⟨seg, hseg, hload, sec, hsec, hin, hv⟩ := h
    obtain ⟨w, hw, hwv⟩ := exists_mem_block.mpr hv
    refine ⟨w, List.mem_flatMap.mpr ⟨seg, hseg, ?_⟩, hwv⟩
    rw [if_pos hload]
    apply List.mem_flatMap.mpr
    refine ⟨sec, hsec, ?_⟩
    rw [if_pos hin]
    exact hw

/-- The places exec writes to. -/
theorem imageWrites_isSome_iff {v : Nat} :
    (lastWrite (imageWrites P img name argv envp) v).isSome
      ↔ img.loadsAt v
        ∨ (ArgsFit name argv envp ∧ P.argsBase ≤ v
          ∧ v < P.argsBase + pageSize) := by
  rw [lastWrite_isSome_iff, imageWrites]
  simp only [List.mem_append, or_and_right, exists_or, stores_iff_loadsAt]
  rw [or_comm]
  apply or_congr_right
  by_cases hfit : ArgsFit name argv envp
  · rw [if_pos hfit, and_iff_right hfit]
    exact exists_mem_block
  · rw [if_neg hfit]
    exact iff_of_false (fun ⟨w, hw, _⟩ => List.not_mem_nil hw)
      fun h => hfit h.1

/-- A memory of the areas has nothing elsewhere. -/
theorem byte_of_not_area {M : PageMap} {page : Nat → Nat → UInt8} {v : Nat}
    (hdom : ∀ v, (M.frame (v / 4096)).isSome ↔ ImageArea P img.toElf v)
    (hv : ¬ ImageArea P img.toElf v) : M.byte 4096 page v = none := by
  rw [← Option.not_isSome_iff_eq_none, PageMap.byte_isSome, hdom]
  exact hv

/-- Exec that writes all of its areas leaks nothing. -/
theorem noLeak_of_covered (hfits : ImageFits P img.toElf)
    (hcov : Covered img argv envp P name) : NoLeak B img argv envp name := by
  constructor
  · intro s s' m m' hm hm'
    obtain ⟨M, hdom, hbytes⟩ := s.exec_userBytes hfits hm
    obtain ⟨M', hdom', hbytes'⟩ := s'.exec_userBytes hfits hm'
    rw [hbytes, hbytes']
    apply overlay_congr
    intro v
    by_cases hv : ImageArea P img.toElf v
    · exact Or.inl (imageWrites_isSome_iff.mpr (hcov.written v hv))
    · right
      rw [byte_of_not_area hdom hv, byte_of_not_area hdom' hv]
  · intro s m hm sec hsec hsup hbits i hi
    obtain ⟨M, -, hbytes⟩ := s.exec_userBytes hfits hm
    rw [hbytes, overlay, hcov.zeros sec hsec hsup hbits i hi]
    rfl

/-- A byte of the areas that exec does not write is as the frame was. -/
theorem ExecStart.exec_unwritten (s : ExecStart B name)
    (hfits : ImageFits P img.toElf) {c : UInt8} {m : Machine H F}
    (h : (s.withPage fun _ _ => c).exec img argv envp = some m) {v : Nat}
    (hv : ImageArea P img.toElf v)
    (hmiss : ¬ (lastWrite (imageWrites P img name argv envp) v).isSome) :
    userBytes P m s.p v = some c := by
  obtain ⟨M, hdom, hbytes⟩ :=
    (s.withPage fun _ _ => c).exec_userBytes hfits h
  obtain ⟨f, hf⟩ := Option.isSome_iff_exists.mp ((hdom v).mpr hv)
  have hread := congrFun hbytes v
  rw [overlay_of_missed (Option.not_isSome_iff_eq_none.mp hmiss),
    PageMap.byte, hf] at hread
  exact hread

/-- Two runs over frames full of zeros and full of ones tell every byte
exec does not write. -/
theorem covered_of_noLeak (hfits : ImageFits P img.toElf)
    (h : NoLeak B img argv envp name)
    (hexec : Executable B img argv envp name) :
    Covered img argv envp P name := by
  obtain ⟨s, m, hm⟩ := hexec
  have hsome : (s.exec img argv envp).isSome := by
    rw [hm]
    rfl
  obtain ⟨m₀, hm₀⟩ := s.exec_withPage hfits hsome fun _ _ => 0
  obtain ⟨m₁, hm₁⟩ := s.exec_withPage hfits hsome fun _ _ => 1
  have hall : ∀ v, ImageArea P img.toElf v →
      (lastWrite (imageWrites P img name argv envp) v).isSome := by
    intro v hv
    by_contra hmiss
    have hread₀ := s.exec_unwritten hfits hm₀ hv hmiss
    have hread₁ := s.exec_unwritten hfits hm₁ hv hmiss
    have hsame : userBytes P m₀ s.p v = userBytes P m₁ s.p v :=
      congrFun (h.same _ _ m₀ m₁ hm₀ hm₁) v
    rw [hread₀, hread₁] at hsame
    exact absurd hsame (by decide)
  constructor
  · exact fun v hv => imageWrites_isSome_iff.mp (hall v hv)
  · intro sec hsec hsup hbits i hi
    obtain ⟨M, hdom, hbytes⟩ := s.exec_userBytes hfits hm
    have hzero := h.cleared s m hm sec hsec hsup hbits i hi
    rw [hbytes, overlay] at hzero
    cases hlast : lastWrite (imageWrites P img name argv envp)
        (sec.shAddr + i) with
    | some b =>
        rw [hlast] at hzero
        exact hzero
    | none =>
        -- not written, so no place of the image, and not readable at all
        have hv : ¬ ImageArea P img.toElf (sec.shAddr + i) := by
          intro hv
          have hwritten := hall _ hv
          rw [hlast] at hwritten
          cases hwritten
        rw [hlast, Option.none_or, byte_of_not_area hdom hv] at hzero
        cases hzero

/-- Of an image that fits: exec leaks nothing exactly if, where it can be
executed at all, it writes every byte of its areas and zeros over its
`NOBITS` sections. The stores of `load_process` and `post_setup_image`
follow the page table as it stands when they are made. -/
theorem exec_no_leak_iff (B : Board P H F) (img : ElfImage)
    (name : CString) (argv envp : Option (List CString))
    (hfits : ImageFits P img.toElf) :
    NoLeak B img argv envp name
      ↔ (Executable B img argv envp name →
        Covered img argv envp P name) := by
  constructor
  · exact covered_of_noLeak hfits
  · intro h
    constructor
    · intro s s' m m' hm
      exact (noLeak_of_covered hfits (h ⟨s, m, hm⟩)).same s s' m m' hm
    · intro s m hm
      exact (noLeak_of_covered hfits (h ⟨s, m, hm⟩)).cleared s m hm

-- ================================================================== two images

/-- The section names `.text`, `.data` and `.bss`. -/
def textName : CString := .lit [0x2e, 0x74, 0x65, 0x78, 0x74] (by decide)

def dataName : CString := .lit [0x2e, 0x64, 0x61, 0x74, 0x61] (by decide)

def bssName : CString := .lit [0x2e, 0x62, 0x73, 0x73] (by decide)

set_option maxRecDepth 4096 in
/-- The root process of the small layout, about to replace its image by
`ls`. -/
theorem exists_smallStart : ∃ s : ExecStart Board.small nameLs,
    (calls .small s.mach (setupCalls .small s.p ⟨0x1000, 1⟩)).isSome := by
  have hcreate : ∃ K, perform .small onePage id State.small .create = some K
      ∧ Live K.sys.k 0
      ∧ (calls .small K.mach
        (setupCalls .small 0 ⟨0x1000, 1⟩)).isSome = true :=
    ⟨_, rfl, by decide, rfl⟩
  obtain ⟨K, hK, hlive, hsetup⟩ := hcreate
  have hisolated := isolated_create onePage id bootTables_small hK
  exact ⟨hisolated.execStart hlive nameLs 0xC0100000 (fun _ => 0)
    (by decide) (by decide) (by decide), hsetup⟩

/-- One page of segments from `0x1000` on fits. -/
theorem small_fits : ImageFits .small ⟨0x1000, 1⟩ :=
  onePage_fits (show onePage nameLs = some ⟨0x1000, 1⟩ from rfl)

/-- Its areas: stack, segment, heap and arguments. -/
theorem imageArea_small {v : Nat} : ImageArea .small ⟨0x1000, 1⟩ v ↔
    InArea 0x1FE000 1 v ∨ InArea 0x1000 1 v ∨ InArea 0x3000 1 v
      ∨ InArea 0x1FF000 1 v := Iff.rfl

/-- An image that brings a section for every page: one each for the
segment, the heap and the stack. -/
def fullImage : ElfImage where
  entry := 0x1000
  segmentPageCount := 1
  segments := [⟨ptLoad, 0x1000, 0x3000⟩]
  sections :=
    [⟨textName, 1, 0x1000, 0x1000, 0x1000⟩,
      ⟨dataName, 1, 0x3000, 0x2000, 0x1000⟩,
      ⟨dataName, 1, 0x1FE000, 0x3000, 0x1000⟩]
  fileBuffer := fun _ => 0x2a

theorem loadsAt_full {v : Nat} : fullImage.loadsAt v ↔
    InArea 0x1000 1 v ∨ InArea 0x3000 1 v ∨ InArea 0x1FE000 1 v := by
  constructor
  · intro h
    obtain ⟨seg, -, -, sec, hsec, -, hv⟩ := h
    simp only [fullImage, List.mem_cons, List.not_mem_nil, or_false] at hsec
    rcases hsec with rfl | rfl | rfl
    · exact Or.inl hv
    · exact Or.inr (Or.inl hv)
    · exact Or.inr (Or.inr hv)
  · intro h
    refine ⟨⟨ptLoad, 0x1000, 0x3000⟩, List.mem_singleton_self _, rfl, ?_⟩
    rcases h with hv | hv | hv
    · exact ⟨_, .head _, by decide, hv⟩
    · exact ⟨_, .tail _ (.head _), by decide, hv⟩
    · exact ⟨_, .tail _ (.tail _ (.head _)), by decide, hv⟩

/-- Exec of the full image completes and leaks nothing. -/
theorem exec_no_leak_full :
    Executable Board.small fullImage none none nameLs
      ∧ NoLeak Board.small fullImage none none nameLs := by
  constructor
  · obtain ⟨s, hs⟩ := exists_smallStart
    refine ⟨s, Option.isSome_iff_exists.mp ?_⟩
    rw [s.exec_isSome_iff small_fits]
    refine ⟨hs, fun w hw => ?_⟩
    apply imageArea_small.mpr
    rcases loadsAt_full.mp (stores_iff_loadsAt.mp ⟨w, hw, rfl⟩)
      with hv | hv | hv
    · exact Or.inr (Or.inl hv)
    · exact Or.inr (Or.inr (Or.inl hv))
    · exact Or.inl hv
  · apply (exec_no_leak_iff Board.small fullImage nameLs none none
      small_fits).mpr
    intro _
    constructor
    · intro v hv
      rw [loadsAt_full]
      rcases imageArea_small.mp hv with hv | hv | hv | hv
      · exact Or.inl (Or.inr (Or.inr hv))
      · exact Or.inl (Or.inl hv)
      · exact Or.inl (Or.inr (Or.inl hv))
      · exact Or.inr ⟨by decide, hv⟩
    · intro sec hsec _ hbits
      simp only [fullImage, List.mem_cons, List.not_mem_nil, or_false]
        at hsec
      rcases hsec with rfl | rfl | rfl
      all_goals exact absurd hbits (by decide)

/-- An image of four bytes of code and eight bytes of `.bss`. -/
def bssImage : ElfImage where
  entry := 0x1000
  segmentPageCount := 1
  segments := [⟨ptLoad, 0x1000, 12⟩]
  sections :=
    [⟨textName, 1, 0x1000, 0x1000, 4⟩, ⟨bssName, shtNobits, 0x1004, 0x1004, 8⟩]
  fileBuffer := fun _ => 0x2a

/-- Only its code is loaded. -/
theorem loadsAt_bss {v : Nat} (h : bssImage.loadsAt v) :
    0x1000 ≤ v ∧ v < 0x1004 := by
  obtain ⟨seg, -, -, sec, hsec, hin, hv⟩ := h
  simp only [bssImage, List.mem_cons, List.not_mem_nil, or_false] at hsec
  rcases hsec with rfl | rfl
  · exact hv
  · exact absurd rfl hin.2.2

/-- Two runs of it that differ in the contents of the frames differ in
the `.bss`, in the heap and on the stack of the new image. -/
theorem exec_leaks :
    ∃ (s s' : ExecStart Board.small nameLs) (m m' : Machine _ _),
      s.exec bssImage none none = some m
        ∧ s'.exec bssImage none none = some m'
        ∧ (∀ v, v = 0x1004 ∨ v = 0x3000 ∨ v = 0x1FE000 →
          userBytes .small m s.p v = some 0x5a
            ∧ userBytes .small m' s'.p v = some 0xa5)
        ∧ ¬ NoLeak Board.small bssImage none none nameLs := by
  obtain ⟨s, hs⟩ := exists_smallStart
  have hsome : (s.exec bssImage none none).isSome := by
    rw [s.exec_isSome_iff small_fits]
    refine ⟨hs, fun w hw => ?_⟩
    have hv := loadsAt_bss (stores_iff_loadsAt.mp ⟨w, hw, rfl⟩)
    apply imageArea_small.mpr
    unfold InArea
    omega
  obtain ⟨m, hm⟩ := s.exec_withPage small_fits hsome fun _ _ => 0x5a
  obtain ⟨m', hm'⟩ := s.exec_withPage small_fits hsome fun _ _ => 0xa5
  have hread : ∀ v, v = 0x1004 ∨ v = 0x3000 ∨ v = 0x1FE000 →
      userBytes .small m s.p v = some 0x5a
        ∧ userBytes .small m' s.p v = some 0xa5 := by
    intro v hv
    have harea : ImageArea .small bssImage.toElf v := by
      apply imageArea_small.mpr
      unfold InArea
      omega
    have hmiss : ¬ (lastWrite
        (imageWrites .small bssImage nameLs none none) v).isSome := by
      rw [imageWrites_isSome_iff]
      intro h
      rcases h with hload | ⟨-, hlo, -⟩
      · have := loadsAt_bss hload
        omega
      · have hlo' : 0x1FF000 ≤ v := hlo
        omega
    exact ⟨s.exec_unwritten small_fits hm harea hmiss,
      s.exec_unwritten small_fits hm' harea hmiss⟩
  refine ⟨s.withPage fun _ _ => 0x5a, s.withPage fun _ _ => 0xa5, m, m', hm,
    hm', hread, fun h => ?_⟩
  have hsame : userBytes .small m s.p 0x1004
      = userBytes .small m' s.p 0x1004 :=
    congrFun (h.same _ _ m m' hm hm') 0x1004
  obtain ⟨hone, htwo⟩ := hread 0x1004 (Or.inl rfl)
  rw [hone, htwo] at hsame
  exact absurd hsame (by decide)

end SyeLabs.Kernel
