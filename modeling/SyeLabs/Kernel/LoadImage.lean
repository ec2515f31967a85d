/-
Loading an image: `setup_proc_image_replace` and `load_process` with the
contents of the pages.

`call` leaves out what the two calls that fill the image write; here they
write it. The ELF parser is not part of the repository: `ElfImage` is
what it hands over. The user area is the memory of the model, so a store
to the kernel area has no result.

# What a process sees

`userBytes` is the user area as the process reads it, through its page
table. While the table is that of a page map, no frame behind two pages,
a store changes the byte it is to and no other, so filling the image is a
list of stores to the user area (`ElfImage.stores`, `imageWrites`).

`exec_userBytes`: the image exec leaves is these stores over whatever the
frames of its areas held.
-/
import SyeLabs.Kernel.Isolation
import SyeLabs.Lib.PagedMem
import SyeLabs.Process.ArgBytes

namespace SyeLabs.Kernel

open Lib Mmu Process

-- ============================================================ the parsed image

/-- `PT_LOAD`. -/
def ptLoad : Nat := 1

/-- `SHT_NOBITS`. -/
def shtNobits : Nat := 8

/-- A program header, the fields `load_process` reads. -/
structure Segment where
  pType : Nat
  pOffset : Nat
  pMemsz : Nat

/-- A section header with its name. -/
structure Section where
  sectionName : CString
  shType : Nat
  shAddr : Nat
  shOffset : Nat
  shSize : Nat

/-- `elf_img_info_t`, with what `load_process` reads. -/
structure ElfImage extends Elf where
  segments : List Segment
  sections : List Section
  fileBuffer : Nat → UInt8

/-- `supported_section_names`: `.text`, `.rodata`, `.data`, `.sbss`,
`.bss` and `.scommon`. -/
def supportedSectionNames : List (List UInt8) :=
  [[0x2e, 0x74, 0x65, 0x78, 0x74],
    [0x2e, 0x72, 0x6f, 0x64, 0x61, 0x74, 0x61],
    [0x2e, 0x64, 0x61, 0x74, 0x61],
    [0x2e, 0x73, 0x62, 0x73, 0x73],
    [0x2e, 0x62, 0x73, 0x73],
    [0x2e, 0x73, 0x63, 0x6f, 0x6d, 0x6d, 0x6f, 0x6e]]

/-- The loop over `supported_section_names`. -/
def Section.supported (s : Section) : Bool :=
  supportedSectionNames.any fun name => s.sectionName.bytes == name

-- =============================================================== the functions

variable {P : Platform} {H F : Type*}

/-- A byte stored at a user address of process `p`. -/
def storeByte (P : Platform) (p : Ref) (m : Machine H F)
    (w : Nat × UInt8) : Option (Machine H F) :=
  if w.1 < P.kernelVaddr then
    (walk m.tables (.proc p) w.1).map fun a =>
      { m with
        page := Function.update m.page (a / 4096)
          (Function.update (m.page (a / 4096)) (a % 4096) w.2) }
  else none

/-- The `memcpy` of a section from the file buffer. -/
def sectionBytes (img : ElfImage) (s : Section) : List (Nat × UInt8) :=
  block s.shAddr s.shSize fun i => img.fileBuffer (s.shOffset + i)

/-- The body of the section loop of `load_process`. -/
def loadSection (P : Platform) (p : Ref) (img : ElfImage) (seg : Segment)
    (m : Machine H F) (s : Section) : Option (Machine H F) :=
  let segmentStart := seg.pOffset
  let segmentEnd := (segmentStart + seg.pMemsz) % addrSpace
  let sectionStart := s.shOffset
  let sectionEnd := (sectionStart + s.shSize) % addrSpace
  if sectionStart < segmentStart ∨ segmentEnd < sectionEnd then some m
  else if ¬ s.supported then some m
  else if s.shType = shtNobits then some m
  else run (storeByte P p) m (sectionBytes img s)

/-- The body of the segment loop of `load_process`. -/
def loadSegment (P : Platform) (p : Ref) (img : ElfImage)
    (m : Machine H F) (seg : Segment) : Option (Machine H F) :=
  if seg.pType ≠ ptLoad then some m
  else run (loadSection P p img seg) m img.sections

/-- `load_process`, called by process `p`. -/
def loadProcess (P : Platform) (p : Ref) (img : ElfImage)
    (m : Machine H F) : Option (Machine H F) :=
  run (loadSegment P p img) m img.segments

/-- The memory `post_setup_image` works on: the argument page of the
image, at its address, and the kernel heap. -/
def argsView (P : Platform) (heap : ByteMem) (page : Nat → UInt8) :
    ByteMem :=
  fun x =>
    if P.argsBase ≤ x ∧ x < P.argsBase + pageSize then
      page (x - P.argsBase)
    else heap x

/-- `post_setup_image`, called by process `p`. -/
def postSetupPage (P : Platform) (p : Ref) (argsEnv : Nat) (heap : ByteMem)
    (m : Machine H F) : Option (Machine H F) :=
  (frameAt m.tables (.proc p) P.argsBase).bind fun f =>
    (postSetupImage argsEnv P.argsBase
      (argsView P heap (m.page f))).map fun mem =>
        { m with
          page := Function.update m.page f fun i => mem (P.argsBase + i) }

variable (B : Board P H F)

/-- What a call of `setup_proc_image_replace` does, or `load_process`
after it. -/
def imageCall (img : ElfImage) (p : Ref) (heap : ByteMem)
    (m : Machine H F) : Call → Option (Machine H F)
  | .postSetupImage argsEnv => postSetupPage P p argsEnv heap m
  | .loadProcess => loadProcess P p img m
  | c => call B m c

/-- `setup_proc_image_replace` with the arguments `do_execve` counts, and
then `load_process`. -/
def execImage (img : ElfImage) (argv envp : Option (List CString))
    (args : Nat) (k : Procs) (p : Ref) (heap : ByteMem)
    (m : Machine H F) : Option (Machine H F) :=
  let s := setupProcImageReplace P args k p img.toElf
    (argv.getD []).length argv envp heap
  run (imageCall B img p s.m) m (s.calls ++ [.loadProcess])

-- ============================================================= what is written

/-- `load_process` copies the section, for this segment. -/
def Section.loaded (s : Section) (seg : Segment) : Prop :=
  ¬ (s.shOffset < seg.pOffset
      ∨ (seg.pOffset + seg.pMemsz) % addrSpace
        < (s.shOffset + s.shSize) % addrSpace)
    ∧ s.supported ∧ s.shType ≠ shtNobits

instance (s : Section) (seg : Segment) : Decidable (s.loaded seg) := by
  unfold Section.loaded
  infer_instance

/-- The stores of `load_process`, in order. -/
def ElfImage.stores (img : ElfImage) : List (Nat × UInt8) :=
  img.segments.flatMap fun seg =>
    if seg.pType = ptLoad then
      img.sections.flatMap fun s =>
        if s.loaded seg then sectionBytes img s else []
    else []

/-- `load_process` is its stores. -/
theorem loadProcess_eq (P : Platform) (p : Ref) (img : ElfImage)
    (m : Machine H F) :
    loadProcess P p img m = run (storeByte P p) m img.stores := by
  have hsection : ∀ seg, loadSection P p img seg
      = fun (m : Machine H F) s => run (storeByte P p) m
        (if s.loaded seg then sectionBytes img s else []) := by
    intro seg
    funext m s
    unfold loadSection
    dsimp only
    split
    next hout =>
      have hno : ¬ s.loaded seg := fun h => h.1 hout
      rw [if_neg hno, run_nil]
    next hin =>
      split
      next hsup =>
        have hno : ¬ s.loaded seg := fun h => hsup h.2.1
        rw [if_neg hno, run_nil]
      next hsup =>
        split
        next hbits =>
          have hno : ¬ s.loaded seg := fun h => h.2.2 hbits
          rw [if_neg hno, run_nil]
        next hbits =>
          have hyes : s.loaded seg := ⟨hin, not_not.mp hsup, hbits⟩
          rw [if_pos hyes]
  have hsegment : loadSegment P p img
      = fun (m : Machine H F) seg => run (storeByte P p) m
        (if seg.pType = ptLoad then
          img.sections.flatMap fun s =>
            if s.loaded seg then sectionBytes img s else []
        else []) := by
    funext m seg
    unfold loadSegment
    split
    next hskip => rw [run_nil]
    next hload =>
      rw [if_pos (not_not.mp hload), run_flatMap, hsection]
  rw [loadProcess, hsegment, ElfImage.stores, run_flatMap]

/-- The arguments fit in their page. -/
def ArgsFit (name : CString) (argv envp : Option (List CString)) : Prop :=
  packedSize (argStrings name (argv.getD []).length argv) (envp.getD [])
    ≤ pageSize

instance (name : CString) (argv envp : Option (List CString)) :
    Decidable (ArgsFit name argv envp) := by
  unfold ArgsFit
  infer_instance

/-- The stores of `post_setup_image` to the argument page. -/
def argWrites (P : Platform) (name : CString)
    (argv envp : Option (List CString)) : List (Nat × UInt8) :=
  block P.argsBase pageSize fun i =>
    (argBytes P.argsBase (argStrings name (argv.getD []).length argv)
      (envp.getD [])).getD i 0

/-- Everything exec writes to the new image, in order. -/
def imageWrites (P : Platform) (img : ElfImage) (name : CString)
    (argv envp : Option (List CString)) : List (Nat × UInt8) :=
  (if ArgsFit name argv envp then argWrites P name argv envp else [])
    ++ img.stores

-- =========================================================== behind a page map

/-- The user area as process `p` reads it. -/
def userBytes (P : Platform) (m : Machine H F) (p : Ref) (v : Nat) :
    Option UInt8 :=
  if v < P.kernelVaddr then
    (walk m.tables (.proc p) v).map fun a => m.page (a / 4096) (a % 4096)
  else none

/-- The user area of process `p` is mapped by the page map `M`. -/
structure Paged (P : Platform) (t : PageTables H) (p : Ref) (M : PageMap) :
    Prop where
  walk : ∀ v, v < P.kernelVaddr → walk t (.proc p) v
    = (M.frame (v / 4096)).map fun f => f * 4096 + v % 4096
  user : ∀ v, (M.frame (v / 4096)).isSome → v < P.kernelVaddr

variable {p : Ref} {M : PageMap} {m m' : Machine H F}

/-- The process reads the contents of its frames. -/
theorem Paged.userBytes_eq (h : Paged P m.tables p M) :
    userBytes P m p = M.byte 4096 m.page := by
  funext v
  unfold userBytes PageMap.byte
  split
  next hv =>
    rw [h.walk v hv, Option.map_map]
    congr 1
    funext f
    show m.page ((f * 4096 + v % 4096) / 4096)
      ((f * 4096 + v % 4096) % 4096) = m.page f (v % 4096)
    congr 1
    · omega
    · omega
  next hv =>
    cases hf : M.frame (v / 4096) with
    | none => rfl
    | some f => exact absurd (h.user v (by rw [hf]; rfl)) hv

/-- A store goes to the frame behind its page. -/
theorem Paged.storeByte_eq (h : Paged P m.tables p M) (w : Nat × UInt8) :
    storeByte P p m w = (M.frame (w.1 / 4096)).map fun f =>
      { m with
        page := Function.update m.page f
          (Function.update (m.page f) (w.1 % 4096) w.2) } := by
  unfold storeByte
  split
  next hv =>
    rw [h.walk _ hv, Option.map_map]
    congr 1
    funext f
    have hf : (f * 4096 + w.1 % 4096) / 4096 = f := by omega
    have hoff : (f * 4096 + w.1 % 4096) % 4096 = w.1 % 4096 := by omega
    show { m with page := _ } = { m with page := _ }
    rw [hf, hoff]
  next hv =>
    cases hf : M.frame (w.1 / 4096) with
    | none => rfl
    | some f => exact absurd (h.user w.1 (by rw [hf]; rfl)) hv

/-- A list of stores changes the contents only, and leaves them over what
the user area held. -/
theorem Paged.run_stores {ws : List (Nat × UInt8)} :
    ∀ {m : Machine H F}, Paged P m.tables p M →
      run (storeByte P p) m ws = some m' →
      (∃ page, m' = { m with page := page })
        ∧ M.byte 4096 m'.page = overlay ws (M.byte 4096 m.page) := by
  induction ws with
  | nil =>
      intro m _ hrun
      cases hrun
      exact ⟨⟨_, rfl⟩, rfl⟩
  | cons w ws ih =>
      intro m h hrun
      obtain ⟨m₁, hstore, hrest⟩ := run_cons_iff.mp hrun
      rw [h.storeByte_eq] at hstore
      obtain ⟨f, hf, hm₁⟩ := Option.map_eq_some_iff.mp hstore
      have h₁ : Paged P m₁.tables p M := hm₁ ▸ h
      obtain ⟨⟨page, hpage⟩, hbytes⟩ := ih h₁ hrest
      refine ⟨⟨page, by rw [hpage, ← hm₁]⟩, ?_⟩
      rw [hbytes, overlay_cons, ← hm₁]
      congr 1
      exact PageMap.byte_store hf m.page w.2

/-- It completes exactly if its places are mapped. -/
theorem Paged.run_stores_isSome {ws : List (Nat × UInt8)} :
    ∀ {m : Machine H F}, Paged P m.tables p M →
      ((run (storeByte P p) m ws).isSome
        ↔ ∀ w ∈ ws, (M.frame (w.1 / 4096)).isSome) := by
  induction ws with
  | nil =>
      intro m _
      exact iff_of_true rfl fun w hw => absurd hw List.not_mem_nil
  | cons w ws ih =>
      intro m h
      rw [run_cons, h.storeByte_eq, List.forall_mem_cons]
      cases hf : M.frame (w.1 / 4096) with
      | none => simp
      | some f =>
          rw [Option.map_some, Option.bind_some]
          refine Iff.trans ?_ (and_iff_right rfl).symm
          exact ih h

/-- New contents for the argument page: the stores of a block. -/
theorem Paged.replace_page {f a : Nat} (hf : M.frame (a / 4096) = some f)
    (ha : a % 4096 = 0) (page : Nat → Nat → UInt8) (c : Nat → UInt8) :
    M.byte 4096 (Function.update page f c)
      = overlay (block a 4096 c) (M.byte 4096 page) := by
  funext v
  rw [PageMap.byte_replace hf, overlay, lastWrite_block]
  by_cases hv : v / 4096 = a / 4096
  · have hin : a ≤ v ∧ v < a + 4096 := by omega
    have hoff : v % 4096 = v - a := by omega
    rw [if_pos hv, if_pos hin, hoff]
    rfl
  · have hout : ¬ (a ≤ v ∧ v < a + 4096) := by omega
    rw [if_neg hv, if_neg hout]
    rfl

/-- `post_setup_image`, on a heap that moves to the page `bs`. -/
theorem Paged.postSetupPage_eq (h : Paged P m.tables p M) {args : Nat}
    {heap : ByteMem} {bs : List UInt8}
    (hmapped : (M.frame (P.argsBase / 4096)).isSome)
    (hargs : P.kernelVaddr ≤ args) (hlength : bs.length = pageSize)
    (hmove : ∀ heap', (∀ i, i < pageSize →
        heap' (args + i) = heap (args + i)) →
      ∃ mem, postSetupImage args P.argsBase heap' = some mem
        ∧ BytesAt mem P.argsBase bs) :
    ∃ page, postSetupPage P p args heap m = some { m with page := page }
      ∧ M.byte 4096 page
        = overlay (block P.argsBase pageSize fun i => bs.getD i 0)
          (M.byte 4096 m.page) := by
  have huser := P.argsBase_user
  obtain ⟨f, hf⟩ := Option.isSome_iff_exists.mp hmapped
  have hframe : frameAt m.tables (.proc p) P.argsBase = some f := by
    rw [frameAt, h.walk _ (by omega), hf, Option.map_some, Option.map_some,
      Option.some.injEq]
    omega
  -- the heap page is in the kernel area, clear of the argument page
  obtain ⟨mem, hmem, hbytes⟩ := hmove (argsView P heap (m.page f))
    fun i hi => by
      unfold argsView pageSize
      rw [if_neg (by omega)]
  refine ⟨Function.update m.page f fun i => mem (P.argsBase + i), ?_, ?_⟩
  · rw [postSetupPage, hframe, Option.bind_some, hmem, Option.map_some]
  · rw [Paged.replace_page hf P.argsBase_aligned]
    have hcontents : block P.argsBase 4096 (fun i => mem (P.argsBase + i))
        = block P.argsBase pageSize fun i => bs.getD i 0 := by
      apply block_congr
      intro i hi
      have hlt : i < bs.length := hlength ▸ hi
      rw [hbytes i hlt, List.getD_eq_getElem?_getD,
        List.getElem?_eq_getElem hlt, Option.getD_some]
    rw [hcontents]

-- =========================================================== mapping the image

/-- While the image of process `p` is being built: the tables and the
frames are in order, and what `p` maps is listed and follows a page
map. -/
structure Built (B : Board P H F) (n p : Nat) (m : Machine H F)
    (M : PageMap) : Prop where
  sound : Sound B m.tables n
  accounted : Accounted B.pool n m.frames
  noSection : NoSection P m p
  paged : Paged P m.tables p M
  listed : ∀ i f, M.frame i = some f → f ∈ m.frames.pageList p

/-- `v` is in one of `n` pages from `a` on. -/
def InArea (a n v : Nat) : Prop := a ≤ v ∧ v < a + n * 4096

variable {B} {n : Nat}

/-- `reset_root_pgtable` and `release_proc_pages`: nothing is mapped. -/
theorem built_empty (hp : p < n) (hs : Sound B m.tables n)
    (ac : Accounted B.pool n m.frames) {m₁ : Machine H F} {remove : Bool}
    (hreset : call B m (.resetRootPgtable p remove) = some m₁)
    (hrelease : call B m₁ (.releaseProcPages p) = some m') :
    Built B n p m' .empty := by
  have hframes : m₁.frames = m.frames := by
    cases hreset
    rfl
  obtain ⟨hw₁, hsect₁, hnone⟩ := reset_grown hp hs hreset
  cases hrelease
  refine ⟨hw₁.sound, (release_accounted (hframes ▸ ac) hp).1, hsect₁,
    ⟨fun v hv => hnone v hv, fun v hv => ?_⟩, fun i f hf => ?_⟩
  · cases hv
  · cases hf

/-- One more frame behind a page of the user area. -/
theorem Built.allocateOne (h : Built B n p m M) (hp : p < n)
    {virtAddr i v : Nat} (hv : (virtAddr + i * 4096) % addrSpace = v)
    (halign : v % 4096 = 0) (hle : v + 4096 ≤ P.kernelVaddr)
    (hone : allocateOne B p virtAddr i m = some m') :
    ∃ M', Built B n p m' M' ∧ m'.page = m.page
      ∧ ∀ u, (M'.frame (u / 4096)).isSome
        ↔ (M.frame (u / 4096)).isSome ∨ InArea v 1 u := by
  have hkv := P.kernelVaddr_le
  have hac := allocateOne_accounted hp h.accounted hone
  obtain ⟨f, pool, t, halloc, rfl, hm, hsect⟩ :=
    allocateOne_mapped hp h.sound h.noSection hv halign hle hone
  -- a listed frame is in use, so the pool does not hand it out again
  have hfresh : ∀ j, M.frame j ≠ some f := by
    intro j hj
    have hpos := h.accounted.pos_of_mem (h.listed j f hj)
    exact B.pool.alloc_fresh halloc (h.accounted.inUse f hpos).2
  have hpage : ∀ u, u / 4096 = v / 4096 ↔ v ≤ u ∧ u < v + 4096 :=
    fun u => by omega
  refine ⟨M.assign (v / 4096) f hfresh, ⟨?_, hac, hsect, ⟨?_, ?_⟩, ?_⟩,
    rfl, ?_⟩
  · exact (remapped_userChange h.sound hp hm (by omega) hle).sound
      h.sound hp
  · intro u hu
    show walk t (.proc p) u = _
    by_cases hin : u / 4096 = v / 4096
    · obtain ⟨hlo, hhi⟩ := (hpage u).mp hin
      rw [hm.inside u hlo hhi, hin, PageMap.assign_self,
        Option.map_some, Option.some.injEq]
      omega
    · have hout := mt (hpage u).mpr hin
      rw [hm.outside u (hu.trans_le hkv) (by omega),
        PageMap.assign_of_ne _ _ hin]
      exact h.paged.walk u hu
  · intro u hu
    by_cases hin : u / 4096 = v / 4096
    · have := (hpage u).mp hin
      omega
    · rw [PageMap.assign_of_ne _ _ hin] at hu
      exact h.paged.user u hu
  · intro j g hg
    show g ∈ Function.update m.frames.pageList p _ p
    rw [Function.update_self, List.mem_append, List.mem_singleton]
    by_cases hj : j = v / 4096
    · rw [hj, PageMap.assign_self] at hg
      exact Or.inr (Option.some.inj hg).symm
    · rw [PageMap.assign_of_ne _ _ hj] at hg
      exact Or.inl (h.listed j g hg)
  · intro u
    unfold InArea
    rw [Nat.one_mul, ← hpage u]
    by_cases hin : u / 4096 = v / 4096
    · rw [hin, PageMap.assign_self]
      exact iff_of_true rfl (Or.inr rfl)
    · rw [PageMap.assign_of_ne _ _ hin, or_iff_left hin]

/-- `allocate_page` on pages of the user area. -/
theorem Built.allocatePage (h : Built B n p m M) (hp : p < n)
    {virtAddr nrPages : Nat} (harea : UserPages P virtAddr nrPages)
    (hall : allocatePage B m p virtAddr nrPages = some m') :
    ∃ M', Built B n p m' M' ∧ m'.page = m.page
      ∧ ∀ u, (M'.frame (u / 4096)).isSome
        ↔ (M.frame (u / 4096)).isSome ∨ InArea virtAddr nrPages u := by
  have hkv := P.kernelVaddr_le
  have hloop : Ensures False (Kernel.allocatePage B m p virtAddr nrPages)
      fun m' => ∃ M', Built B n p m' M' ∧ m'.page = m.page
        ∧ ∀ u, (M'.frame (u / 4096)).isSome
          ↔ (M.frame (u / 4096)).isSome ∨ InArea virtAddr nrPages u := by
    refine Ensures.forRange
      (I := fun i m' => ∃ M', Built B n p m' M' ∧ m'.page = m.page
        ∧ ∀ u, (M'.frame (u / 4096)).isSome
          ↔ (M.frame (u / 4096)).isSome ∨ InArea virtAddr i u)
      ⟨M, h, rfl, fun u => ?_⟩ ?_
    · unfold InArea
      exact (or_iff_left (by omega)).symm
    · intro i m₁ hi hinv
      obtain ⟨M₁, h₁, hpage₁, hdom₁⟩ := hinv
      obtain ⟨halign, hle⟩ := harea (Nat.zero_lt_of_lt hi)
      have hmod : (virtAddr + i * 4096) % addrSpace
          = virtAddr + i * 4096 := by
        apply Nat.mod_eq_of_lt
        unfold addrSpace
        omega
      refine ⟨fun m₂ hm₂ => ?_, False.elim⟩
      obtain ⟨M₂, h₂, hpage₂, hdom₂⟩ :=
        h₁.allocateOne hp hmod (by omega) (by omega) hm₂
      refine ⟨M₂, h₂, hpage₂.trans hpage₁, fun u => ?_⟩
      rw [hdom₂, hdom₁, or_assoc]
      unfold InArea
      apply or_congr_right
      omega
  exact hloop.1 m' hall

end SyeLabs.Kernel
