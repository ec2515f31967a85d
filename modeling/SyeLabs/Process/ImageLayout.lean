/-
The layout of an executed image: the areas `setup_proc_image_replace`
maps, and when they are disjoint.

`heap_base` is the page after as many pages as the stack and the image
have, counted from zero: it knows how large the image is, not where it
stands. So the heap clears the image only if the image starts no later
than a page above the size of the stack (or the heap ends before it
starts), and it clears the stack only if all of stack, image and heap
fit below the stack (`layout_disjoint_iff`).
-/
import Mathlib.Data.List.Nodup
import SyeLabs.Process.Exec

namespace SyeLabs.Process

open Lib

-- ======================================================== statement vocabulary

/-- The pages a call of `allocate_page` maps. -/
def mappedPages : Call → List Nat
  | .allocatePage _ virtAddr nrPages =>
      (List.range nrPages).map fun i => (virtAddr + i * 4096) % addrSpace
  | _ => []

/-- The byte at `v` lies in the area a call maps. -/
def Maps (c : Call) (v : Nat) : Prop :=
  ∃ page ∈ mappedPages c, page ≤ v ∧ v < page + pageSize

/-- No byte lies in the areas of both calls. -/
def Apart (c c' : Call) : Prop := ∀ v, Maps c v → ¬ Maps c' v

/-- The areas that the calls map are pairwise disjoint, and no page is
mapped twice. -/
structure AreasDisjoint (cs : List Call) : Prop where
  areas : cs.Pairwise Apart
  pages : (cs.flatMap mappedPages).Nodup

/-- The pages of the stack of a process. -/
def stackPages (P : Platform) : Nat :=
  alignUp P.procStackSize / 4096

/-- The lowest address of the stack. -/
def stackBottom (P : Platform) : Nat :=
  P.argsBase - stackPages P * 4096

-- ==================================================================== one area

/-- An area of whole pages that does not wrap is an interval. -/
theorem maps_allocatePage_iff {p : Ref} {virtAddr nrPages v : Nat}
    (haligned : virtAddr % 4096 = 0)
    (hfits : virtAddr + nrPages * 4096 ≤ addrSpace) :
    Maps (.allocatePage p virtAddr nrPages) v
      ↔ virtAddr ≤ v ∧ v < virtAddr + nrPages * 4096 := by
  have hpage : ∀ i, i < nrPages →
      (virtAddr + i * 4096) % addrSpace = virtAddr + i * 4096 :=
    fun i hi => Nat.mod_eq_of_lt (by omega)
  constructor
  · intro h
    obtain ⟨page, hmem, hle, hlt⟩ := h
    obtain ⟨i, hi, rfl⟩ := List.mem_map.mp hmem
    have hi := List.mem_range.mp hi
    rw [hpage i hi] at hle hlt
    unfold pageSize at hlt
    omega
  · intro h
    obtain ⟨hle, hlt⟩ := h
    have hi : (v - virtAddr) / 4096 < nrPages := by omega
    refine ⟨_, List.mem_map.mpr ⟨_, List.mem_range.mpr hi, rfl⟩, ?_⟩
    rw [hpage _ hi]
    unfold pageSize
    omega

/-- One call does not map a page twice. -/
theorem nodup_mappedPages {p : Ref} {virtAddr nrPages : Nat}
    (hfits : virtAddr + nrPages * 4096 ≤ addrSpace) :
    (mappedPages (.allocatePage p virtAddr nrPages)).Nodup := by
  refine List.Nodup.map_on (fun i hi j hj heq => ?_) List.nodup_range
  rw [List.mem_range] at hi hj
  rw [Nat.mod_eq_of_lt (by omega), Nat.mod_eq_of_lt (by omega)] at heq
  omega

/-- Areas that are disjoint share no page. -/
theorem areasDisjoint_of_areas {cs : List Call}
    (hnodup : ∀ c ∈ cs, (mappedPages c).Nodup)
    (hareas : cs.Pairwise Apart) :
    AreasDisjoint cs := by
  have hself : ∀ {c page}, page ∈ mappedPages c → Maps c page :=
    fun hmem => ⟨_, hmem, Nat.le_refl _, Nat.lt_add_of_pos_right (by decide)⟩
  refine ⟨hareas, List.nodup_flatMap.mpr ⟨hnodup, hareas.imp ?_⟩⟩
  intro c c' hapart page hpage hpage'
  exact hapart page (hself hpage) (hself hpage')

/-- When two areas of whole pages are disjoint. -/
theorem apart_iff {p p' : Ref} {a n b k : Nat} (ha : a % 4096 = 0)
    (hn : a + n * 4096 ≤ addrSpace) (hb : b % 4096 = 0)
    (hk : b + k * 4096 ≤ addrSpace) :
    Apart (.allocatePage p a n) (.allocatePage p' b k)
      ↔ n = 0 ∨ k = 0 ∨ a + n * 4096 ≤ b ∨ b + k * 4096 ≤ a := by
  simp only [Apart, maps_allocatePage_iff ha hn, maps_allocatePage_iff hb hk]
  constructor
  · intro h
    have := h (max a b)
    omega
  · intro h v hv
    omega

-- ============================================================== the four areas

/-- The heap of an image lies behind as many pages as its stack and its
segments have. -/
theorem imageFields_heapBase {P : Platform} (elf : Elf) (pcb : Pcb)
    (hfits : (stackPages P + elf.segmentPageCount + 1) * 4096
      < addrSpace) :
    (imageFields P elf (resetProcessStack P pcb)).heapBase
      = (stackPages P + elf.segmentPageCount + 1) * 4096 := by
  show (stackPages P + elf.segmentPageCount + 1) * 4096 % addrSpace = _
  exact Nat.mod_eq_of_lt hfits

/-- The stack ends where the argument page begins. -/
theorem stackBase_eq (P : Platform) (pcb : Pcb) :
    stackBase (resetProcessStack P pcb) = stackBottom P
      ∧ stackBottom P + stackPages P * 4096 = P.argsBase
      ∧ stackBottom P % 4096 = 0 ∧ 0 < stackPages P := by
  have hargs := P.argsBase_aligned
  have huser := P.argsBase_user
  have hkv := P.kernelVaddr_le
  have hpos := P.threadStackSize_pos
  have hstack : 0 < P.procStackSize := by
    unfold Platform.procStackSize procThreadMax
    omega
  have hpages : stackPages P * 4096 = alignUp P.procStackSize := by
    unfold stackPages alignUp
    omega
  have hfits : stackPages P * 4096 ≤ P.argsBase := by
    rw [hpages]
    exact P.stack_fits
  have hsome : 0 < stackPages P := by
    unfold stackPages alignUp
    omega
  have hbase : stackBase (resetProcessStack P pcb)
      = (P.argsBase + addrSpace - stackPages P * 4096 % addrSpace)
        % addrSpace := rfl
  unfold addrSpace at hbase
  unfold stackBottom
  omega

/-- Of the calls of `setup_proc_image_replace` only the four of
`allocate_page` map anything. -/
theorem pairwise_imageCalls (P : Platform) (p : Ref) (elf : Elf)
    (stack : Pcb) (argsEnv : Nat) :
    (imageCalls P p elf stack argsEnv).Pairwise Apart
      ↔ [Call.allocatePage p (stackBase stack) stack.pageCount,
          .allocatePage p elf.entry elf.segmentPageCount,
          .allocatePage p (imageFields P elf stack).heapBase
            (alignUp P.heapSize / 4096),
          .allocatePage p P.argsBase 1].Pairwise Apart := by
  have hidle : ∀ {c v}, mappedPages c = [] → ¬ Maps c v := by
    intro c v hnil h
    obtain ⟨page, hmem, -⟩ := h
    rw [hnil] at hmem
    cases hmem
  have hleft : ∀ {c c'}, mappedPages c = [] → Apart c c' :=
    fun hnil _ h => absurd h (hidle hnil)
  have hright : ∀ {c c'}, mappedPages c' = [] → Apart c c' :=
    fun hnil _ _ h => hidle hnil h
  have hpost : ∀ {c}, c ∈ (if argsEnv ≠ 0 then
      [Call.postSetupImage argsEnv] else []) → mappedPages c = [] := by
    intro c hc
    split at hc
    · rw [List.mem_singleton] at hc
      rw [hc]
      rfl
    · cases hc
  unfold imageCalls
  rw [List.pairwise_append, List.pairwise_cons, List.pairwise_cons]
  constructor
  · intro h
    obtain ⟨⟨-, -, h⟩, -⟩ := h
    exact h
  · intro h
    refine ⟨⟨fun c _ => hleft rfl, fun c _ => hleft rfl, h⟩, ?_,
      fun c _ c' hc' => hright (hpost hc')⟩
    exact List.pairwise_of_forall_mem_list fun c hc c' _ => hleft (hpost hc)

-- ================================================================== the layout

/-- The areas of an image that lies below the stack and leaves room for
the heap between the two are disjoint exactly if the heap, which begins
a page above the size of stack and image together, clears both. -/
theorem layout_disjoint_iff {P : Platform} {elf : Elf}
    (haligned : elf.entry % 4096 = 0) (hentry : 4096 ≤ elf.entry)
    (hheap : 0 < P.heapSize)
    (hroom : elf.entry + elf.segmentPageCount * 4096 + P.heapSize
      ≤ stackBottom P)
    (args : Nat) (k : Procs) (p : Ref) (argc : Nat)
    (argv envp : Option (List CString)) (m : ByteMem) :
    AreasDisjoint (setupProcImageReplace P args k p elf argc argv envp
        m).calls
      ↔ (elf.segmentPageCount = 0
          ∨ elf.entry ≤ (stackPages P + 1) * 4096
          ∨ (stackPages P + elf.segmentPageCount + 1) * 4096
            + alignUp P.heapSize ≤ elf.entry)
        ∧ (stackPages P + elf.segmentPageCount + 1) * 4096
          + alignUp P.heapSize ≤ stackBottom P := by
  obtain ⟨argsEnv, hcalls⟩ := setupProcImageReplace_calls P args k p elf
    argc argv envp m (k.pcb p)
  rw [hcalls]
  obtain ⟨hbase, htop, hbottom, hpos⟩ := stackBase_eq P (k.pcb p)
  have huser := P.argsBase_user
  have hkv := P.kernelVaddr_le
  have hargs := P.argsBase_aligned
  have hspace : addrSpace = 4294967296 := rfl
  have hpages : alignUp P.heapSize / 4096 * 4096 = alignUp P.heapSize := by
    unfold alignUp
    omega
  have hroom' : elf.entry + elf.segmentPageCount * 4096
      + alignUp P.heapSize ≤ stackBottom P :=
    alignUp_add_le (by omega) hbottom hroom
  have hsome : 0 < alignUp P.heapSize := by
    unfold alignUp
    omega
  have hheapBase := imageFields_heapBase (P := P) elf (k.pcb p) (by omega)
  obtain ⟨base, hb⟩ : ∃ base,
      base = (stackPages P + elf.segmentPageCount + 1) * 4096 := ⟨_, rfl⟩
  rw [← hb] at hheapBase ⊢
  have hpairs := pairwise_imageCalls P p elf (resetProcessStack P (k.pcb p))
    argsEnv
  have hcount : (resetProcessStack P (k.pcb p)).pageCount = stackPages P :=
    rfl
  rw [hbase, hcount, hheapBase] at hpairs
  have hstackEnd : stackBottom P + stackPages P * 4096 ≤ addrSpace := by
    omega
  have himageEnd : elf.entry + elf.segmentPageCount * 4096 ≤ addrSpace := by
    omega
  have hheapEnd : base + alignUp P.heapSize / 4096 * 4096 ≤ addrSpace := by
    omega
  have hargsEnd : P.argsBase + 1 * 4096 ≤ addrSpace := by omega
  have hbase' : base % 4096 = 0 := by omega
  simp only [List.pairwise_cons, List.mem_cons, List.not_mem_nil, or_false,
    forall_eq_or_imp, forall_eq, IsEmpty.forall_iff, implies_true,
    List.Pairwise.nil, and_true,
    apart_iff hbottom hstackEnd haligned himageEnd,
    apart_iff hbottom hstackEnd hbase' hheapEnd,
    apart_iff hbottom hstackEnd hargs hargsEnd,
    apart_iff haligned himageEnd hbase' hheapEnd,
    apart_iff haligned himageEnd hargs hargsEnd,
    apart_iff hbase' hheapEnd hargs hargsEnd] at hpairs
  constructor
  · intro h
    have := hpairs.mp h.areas
    omega
  · intro h
    refine areasDisjoint_of_areas ?_ (hpairs.mpr (by omega))
    intro c hc
    simp only [imageCalls, hbase, hcount, hheapBase, List.mem_append,
      List.mem_cons, List.not_mem_nil, or_false] at hc
    rcases hc with (rfl | rfl | rfl | rfl | rfl | rfl) | hc
    · exact List.nodup_nil
    · exact List.nodup_nil
    · exact nodup_mappedPages hstackEnd
    · exact nodup_mappedPages himageEnd
    · exact nodup_mappedPages hheapEnd
    · exact nodup_mappedPages hargsEnd
    · split at hc
      · rw [List.mem_singleton.mp hc]
        exact List.nodup_nil
      · cases hc

/-- The areas of a program of one page linked at the lowest address are
disjoint. -/
theorem layout_disjoint_low :
    AreasDisjoint (setupProcImageReplace .sample 0xC0100000 Procs.boot 0
        ⟨0x1000, 1⟩ 0 none none fun _ => 0).calls :=
  (layout_disjoint_iff rfl (by decide) (by decide) (by decide) 0xC0100000
    Procs.boot 0 0 none none fun _ => 0).mpr (by decide)

/-- The heap of a program of 2000 pages linked at 4 MB is mapped over its
image, with room for it above. -/
theorem heap_meets_image :
    0x400000 + 2000 * 4096 + Platform.sample.heapSize ≤ stackBottom .sample
      ∧ ¬ AreasDisjoint (setupProcImageReplace .sample 0xC0100000 Procs.boot
        0 ⟨0x400000, 2000⟩ 0 none none fun _ => 0).calls := by
  refine ⟨by decide, fun h => ?_⟩
  obtain ⟨argsEnv, hcalls⟩ := setupProcImageReplace_calls .sample 0xC0100000
    Procs.boot 0 ⟨0x400000, 2000⟩ 0 none none (fun _ => 0) (freshPcb 0)
  have hareas := (pairwise_imageCalls _ _ _ _ _).mp (hcalls ▸ h.areas)
  simp only [List.pairwise_cons, List.mem_cons, List.not_mem_nil, or_false,
    forall_eq_or_imp, forall_eq] at hareas
  obtain ⟨-, ⟨himage, -⟩, -⟩ := hareas
  have := (apart_iff (by decide) (by decide) (by decide) (by decide)).mp
    himage
  revert this
  decide

end SyeLabs.Process
