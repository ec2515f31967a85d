/-
The memory of a process as the process sees it.

# What a process can count on

`userBytes` is the user area a process reads through its page table. In
a run of the kernel in which processes also store to their own user
areas, what a process reads is what it stored itself over what it had
before, whatever the other processes do in the meantime; a child starts
with what its parent had at the fork (`Seen`).

`post_setup_image` and `load_process` store to the user area of the
process that replaced its image (`loadProcess_eq`), so a run has these
stores after the exec.

Every access follows the page table as it stands: a TLB, and what a fork
copies through a stale entry of it (`CopiesRight`), are not part of these
runs. Nor are names that run over the fields behind them.

# Why

Isolation keeps the frames of two processes apart. Within one process a
frame may still be behind two pages, and a store to one of them would
then change the other; `Paged` excludes it, and every operation keeps
that: `allocate_page` and `duplicate_user_space` give each page a frame
of its own, and the root image is mapped in one piece.
-/
import SyeLabs.Kernel.ExecLeak

namespace SyeLabs.Kernel

open Lib Mmu Process

variable {P : Platform} {H F : Type*} {B : Board P H F} {n p : Nat}
  {m m' : Machine H F}

-- =================================================================== the turns

/-- An operation of the kernel, or a store of a process to its own user
area. -/
inductive Turn
  | kernel (op : Op)
  | store (p : Ref) (w : Nat × UInt8)

/-- What process `q` stores at a turn. -/
def Turn.storeOf (q : Ref) : Turn → Option (Nat × UInt8)
  | .store p w => if p = q then some w else none
  | .kernel _ => none

/-- The stores of process `q` in a list of turns. -/
def storesOf (q : Ref) (as : List Turn) : List (Nat × UInt8) :=
  as.filterMap (Turn.storeOf q)

theorem storesOf_append (q : Ref) (as bs : List Turn) :
    storesOf q (as ++ bs) = storesOf q as ++ storesOf q bs :=
  List.filterMap_append

theorem storesOf_self (q : Ref) (w : Nat × UInt8) :
    storesOf q [.store q w] = [w] := by
  simp [storesOf, Turn.storeOf]

theorem storesOf_other {p q : Ref} (h : q ≠ p) (w : Nat × UInt8) :
    storesOf q [.store p w] = [] := by
  simp [storesOf, Turn.storeOf, h.symm]

/-- Process `q` replaces its image. -/
def Turn.IsExecOf (q : Ref) : Turn → Prop
  | .kernel (.exec p _ _ _ _ _ _ _) => p = q
  | _ => False

/-- What isolation asks of a turn. -/
def Turn.Fits (P : Platform) (elfLoadBuffer : CString → Option Elf) :
    Turn → Prop
  | .kernel op => op.Fits P elfLoadBuffer
  | .store _ _ => True

variable (B) (elfLoadBuffer : CString → Option Elf)
  (threadJoin : Option Tid → Option Tid)

/-- One turn. -/
def takeTurn (K : State H F) : Turn → Option (State H F)
  | .kernel op => perform B elfLoadBuffer threadJoin K op
  | .store p w =>
      if Live K.sys.k p then
        (storeByte P p K.mach w).map fun m => { K with mach := m }
      else none

-- =============================================================== the invariant

/-- Memory is isolated, and no frame is behind two pages of a
process. -/
structure Private (B : Board P H F) (K : State H F) : Prop where
  isolated : Isolated B K
  paged : ∀ p, Live K.sys.k p → ∃ M, Paged P K.mach.tables p M

/-- What one turn shows the processes: a live process sees its own stores
and nothing else, a dead one stays dead, and a new one is a child that
sees what its parent saw. -/
structure Seen (B : Board P H F) (K : State H F) (a : Turn)
    (K' : State H F) : Prop where
  inv : Private B K'
  next : K.sys.k.nextRef ≤ K'.sys.k.nextRef
  own : ∀ q, Live K.sys.k q → Live K'.sys.k q → ¬ a.IsExecOf q →
    userBytes P K'.mach q
      = overlay (storesOf q [a]) (userBytes P K.mach q)
  born : ∀ q, Live K'.sys.k q → Live K.sys.k q
    ∨ (q = K.sys.k.nextRef ∧ ∃ p thread,
      a = .kernel (.proc (.fork p thread)) ∧ Live K.sys.k p
        ∧ userBytes P K'.mach q = userBytes P K.mach p)

variable {B} {elfLoadBuffer} {threadJoin}

/-- A process reads the same through a walk and frames that stay. -/
theorem userBytes_congr {q : Ref}
    (hw : ∀ v, v < P.kernelVaddr →
      walk m'.tables (.proc q) v = walk m.tables (.proc q) v)
    (hpage : ∀ v f, v < P.kernelVaddr →
      frameAt m.tables (.proc q) v = some f → m'.page f = m.page f) :
    userBytes P m' q = userBytes P m q := by
  funext v
  unfold userBytes
  split
  next hv =>
    rw [hw v hv]
    apply Option.map_congr
    intro a ha
    have hf : frameAt m.tables (.proc q) v = some (a / 4096) := by
      rw [frameAt, Option.mem_def.mp ha, Option.map_some]
    rw [hpage v _ hv hf]
  next => rfl

theorem paged_of_walk {t t' : PageTables H} {q : Ref} {M : PageMap}
    (h : Paged P t q M)
    (hw : ∀ v, v < P.kernelVaddr → walk t' (.proc q) v
      = walk t (.proc q) v) : Paged P t' q M :=
  ⟨fun v hv => (hw v hv).trans (h.walk v hv), h.user⟩

/-- Another process, while only process `p` is changed and the frames in
use keep their contents. -/
theorem Within.seen {q : Ref} (h : Within B n p m m') (hq : q < n)
    (hne : q ≠ p) (hb : Backed P m q) (ac : Accounted B.pool n m.frames)
    (hpage : ∀ f, Taken B.pool m.frames.pool f → m'.page f = m.page f) :
    userBytes P m' q = userBytes P m q
      ∧ ∀ M, Paged P m.tables q M → Paged P m'.tables q M :=
  ⟨userBytes_congr (fun v hv => h.walk q v hq hne hv)
      fun _ f hv hf => hpage f (hb.taken ac hv hf),
    fun _ hM => paged_of_walk hM fun v hv => h.walk q v hq hne hv⟩

-- ========================================================== pages of their own

/-- Through a slot that is no section, to an empty word or a small page,
the walk goes page by page. -/
theorem walk_eq_page {t : PageTables H} {g : Pgtable} {v : Nat}
    (hsect : ¬ l1pteIsSect (t.l1 g (l1pteIndex v)))
    (hsmall : l1pteIsTable (t.l1 g (l1pteIndex v)) →
      entry t g (l1pteIndex v) (v / 4096 % 256) ≠ 0 →
      2 ≤ entry t g (l1pteIndex v) (v / 4096 % 256) % 4) :
    walk t g v = (frameAt t g (v / 4096 * 4096)).map fun f =>
      f * 4096 + v % 4096 := by
  have hslot : l1pteIndex (v / 4096 * 4096) = l1pteIndex v := by
    unfold l1pteIndex
    omega
  have hentry : v / 4096 * 4096 / 4096 % 256 = v / 4096 % 256 := by
    omega
  by_cases ht : l1pteIsTable (t.l1 g (l1pteIndex v))
  · rw [frameAt, walk_of_entry ht, walk_of_entry (by rwa [hslot]), hslot,
      hentry]
    by_cases he : entry t g (l1pteIndex v) (v / 4096 % 256) = 0
    · rw [he, l2Walk_zero, l2Walk_zero]
      rfl
    · rw [l2Walk, l2Walk, if_pos (hsmall ht he), if_pos (hsmall ht he),
        Option.map_some, Option.map_some, Option.some.injEq]
      omega
  · have hnone : ∀ u, l1pteIndex u = l1pteIndex v → walk t g u = none := by
      intro u hu
      simp only [walk, hu, if_neg hsect, if_neg ht]
    rw [frameAt, hnone v rfl, hnone _ hslot]
    rfl

/-- A user area without sections in which no frame is behind two
pages. -/
theorem exists_paged (hs : Sound B m.tables n) (hp : p < n)
    (hsect : NoSection P m p)
    (hsingle : ∀ u v f, u < P.kernelVaddr → v < P.kernelVaddr →
      frameAt m.tables (.proc p) u = some f →
      frameAt m.tables (.proc p) v = some f → u / 4096 = v / 4096) :
    ∃ M, Paged P m.tables p M := by
  have hk := P.kernelVaddr_aligned
  refine ⟨⟨fun i => if i * 4096 < P.kernelVaddr then
    frameAt m.tables (.proc p) (i * 4096) else none, ?_⟩, ?_, ?_⟩
  · intro i j f hi hj
    split at hi
    next hi' =>
      split at hj
      next hj' =>
        have hpage := hsingle _ _ f hi' hj' hi hj
        omega
      next => cases hj
    next => cases hi
  · intro v hv
    have hv' : v / 4096 * 4096 < P.kernelVaddr := by omega
    dsimp only
    rw [if_pos hv']
    exact walk_eq_page (hsect _ (slot_lt_userSlots hv)) fun ht he =>
      hs.small p _ _ hp (slot_lt_userSlots hv) (Nat.mod_lt _ (by decide))
        ht he
  · intro v hv
    dsimp only at hv
    split at hv
    next hv' => omega
    next => cases hv

-- ======================================================================== fork

/-- The child of `duplicate_user_space` reads what the parent read, from
frames of its own. -/
theorem Duplicated.seen {src dst : Nat} (h : Duplicated B m m' src dst)
    (hf : Forkable B m src dst) (hs : Sound B m'.tables n)
    (hdst : dst < n) :
    (∃ M, Paged P m'.tables dst M)
      ∧ userBytes P m' dst = userBytes P m src := by
  refine ⟨exists_paged hs hdst (fun i hi hsect => ?_)
    fun u v f hu hv hfu hfv => ?_, ?_⟩
  · by_cases hi0 : m.tables.l1 (.proc src) i = 0
    · rw [h.empty i hi hi0] at hsect
      cases hsect
    · exact not_isSect_of_isTable (h.table i hi hi0) hsect
  · obtain ⟨-, hu0, hwu⟩ := h.child_frame hf hu hfu
    obtain ⟨-, hv0, hwv⟩ := h.child_frame hf hv hfv
    have hsame := h.single _ _ _ _ (slot_lt_userSlots hu)
      (slot_lt_userSlots hv) (Nat.mod_lt _ (by decide))
      (Nat.mod_lt _ (by decide)) hu0 hv0
      (hwu ▸ smallWord_ne_zero _ _ _) (hwv ▸ smallWord_ne_zero _ _ _)
      (by rw [hwu, hwv])
    unfold l1pteIndex at hsame
    omega
  · funext v
    unfold userBytes
    split
    next hv =>
      rcases h.walk_cases hf hv with
        ⟨hc, hp⟩ | ⟨f, e, hc, hp, -, -, hpage, -⟩
      · rw [hc, hp]
        rfl
      · have hdiv : ∀ a, (a * 4096 + v % 4096) / 4096 = a
            ∧ (a * 4096 + v % 4096) % 4096 = v % 4096 := by
          intro a
          omega
        rw [hc, hp, Option.map_some, Option.map_some, (hdiv f).1,
          (hdiv f).2, (hdiv e).1, (hdiv e).2, hpage]
    next => rfl

/-- A fork: the child has been copied from the parent, and the other
processes see what they saw. -/
theorem Private.forked {K K' : State H F} {src : Ref} {thread : Tid}
    (h : Private B K) (hiso : Isolated B K') (hlive : Live K.sys.k src)
    (hfork : Forked K.sys.k K'.sys.k src)
    (hcs : calls B K.mach [.newRootPgtable K.sys.k.nextRef,
      .duplicateUserSpace src K.sys.k.nextRef] = some K'.mach) :
    Seen B K (.kernel (.proc (.fork src thread))) K' := by
  obtain ⟨m₁, hnew, hcs⟩ := run_cons_iff.mp hcs
  obtain ⟨m₂, hdup, hcs⟩ := run_cons_iff.mp hcs
  cases hcs
  -- the new table shows to nobody else
  have hwalk : ∀ q v, q ≠ K.sys.k.nextRef →
      walk m₁.tables (.proc q) v = walk K.mach.tables (.proc q) v := by
    intro q v hq
    cases hnew
    exact newTable_walk hq v
  have hkeep : m₁.frames = K.mach.frames ∧ m₁.page = K.mach.page := by
    cases hnew
    exact ⟨rfl, rfl⟩
  have hs₁ : Sound B m₁.tables (K.sys.k.nextRef + 1) := by
    cases hnew
    exact h.isolated.sound.newTable
  have hempty : ∀ i, i < P.userSlots →
      m₁.tables.l1 (.proc K.sys.k.nextRef) i = 0 := by
    intro i hi
    cases hnew
    exact newTable_user hi
  have hac : Accounted B.pool (K.sys.k.nextRef + 1) m₁.frames :=
    hkeep.1 ▸ h.isolated.audited.frames.succ
  have hne : src ≠ K.sys.k.nextRef := Nat.ne_of_lt hlive.1
  have hback : ∀ q, Live K.sys.k q → Backed P m₁ q ∧ HasPage P m₁ q := by
    intro q hq
    obtain ⟨hb, v, hv, hw⟩ := h.isolated.each q hq
    have hq' : q ≠ K.sys.k.nextRef := Nat.ne_of_lt hq.1
    refine ⟨fun u f hu hfu => ?_, v, hv, by rwa [hwalk q v hq']⟩
    rw [frameAt, hwalk q u hq'] at hfu
    rw [hkeep.1]
    exact hb u f hu hfu
  have hsrc : src < K.sys.k.nextRef + 1 := Nat.lt_succ_of_lt hlive.1
  obtain ⟨hb, hpage⟩ := hback src hlive
  obtain ⟨hw, -, -⟩ := duplicate_within hsrc (Nat.lt_succ_self _) hne hs₁
    hac hb hpage hempty hdup
  have hdup' : duplicateUserSpace B (.proc src) m₁ src K.sys.k.nextRef
      = some K'.mach := hdup
  rw [duplicateUserSpace_eq] at hdup'
  obtain ⟨m₃, hloops, hclosed⟩ := Option.map_eq_some_iff.mp hdup'
  have hf := hb.forkable hsrc hne hs₁ hac
    (copyLoops_no_section hne hloops (Nat.le_refl _)).2 hempty
  have hloop := copyLoops hf
  have hd := (hloop.1 m₃ hloops).closed hf
  rw [hclosed] at hd
  obtain ⟨hpaged, hsame⟩ := hd.seen hf hw.sound (Nat.lt_succ_self _)
  -- what an old process sees, before and after
  have hold : ∀ q, Live K.sys.k q →
      userBytes P m₁ q = userBytes P K.mach q := fun q hq =>
    userBytes_congr (fun v _ => hwalk q v (Nat.ne_of_lt hq.1))
      fun _ _ _ _ => by rw [hkeep.2]
  have hseen : ∀ q, Live K.sys.k q →
      userBytes P K'.mach q = userBytes P m₁ q
        ∧ ∀ M, Paged P m₁.tables q M → Paged P K'.mach.tables q M :=
    fun q hq => hw.seen (Nat.lt_succ_of_lt hq.1) (Nat.ne_of_lt hq.1)
      (hback q hq).1 hac hd.page
  have hborn : ∀ q, Live K'.sys.k q → Live K.sys.k q
      ∨ q = K.sys.k.nextRef := by
    intro q hq
    by_cases hqn : q = K.sys.k.nextRef
    · exact Or.inr hqn
    · obtain ⟨hlt, hz⟩ := hq
      rw [hfork.nextRef] at hlt
      rw [hfork.others q hqn] at hz
      exact Or.inl
        ⟨Nat.lt_of_le_of_ne (Nat.le_of_lt_succ hlt) hqn, hz⟩
  refine ⟨⟨hiso, fun q hq => ?_⟩, ?_, fun q hq _ _ => ?_, fun q hq => ?_⟩
  · rcases hborn q hq with hq' | rfl
    · obtain ⟨M, hM⟩ := h.paged q hq'
      exact ⟨M, (hseen q hq').2 M (paged_of_walk hM fun v _ =>
        hwalk q v (Nat.ne_of_lt hq'.1))⟩
    · exact hpaged
  · rw [hfork.nextRef]
    exact Nat.le_succ _
  · exact (hseen q hq).1.trans (hold q hq)
  · refine (hborn q hq).imp_right fun hqn => ⟨hqn, src, thread, rfl, hlive, ?_⟩
    rw [hqn, hsame, hold src hlive]

-- ============================================================= the other turns

/-- A turn that is no fork: what the other processes read stays, and so
does who is alive, apart from process `p`. -/
theorem Private.seen_others {K K' : State H F} {a : Turn} {p : Ref}
    (h : Private B K) (hiso : Isolated B K')
    (hnext : K'.sys.k.nextRef = K.sys.k.nextRef)
    (hlive : ∀ q, Live K'.sys.k q → Live K.sys.k q)
    (hstores : ∀ q, q ≠ p → storesOf q [a] = [])
    (hothers : ∀ q, q ≠ p → Live K.sys.k q →
      userBytes P K'.mach q = userBytes P K.mach q
        ∧ ∀ M, Paged P K.mach.tables q M → Paged P K'.mach.tables q M)
    (hself : Live K'.sys.k p → (∃ M, Paged P K'.mach.tables p M)
      ∧ (¬ a.IsExecOf p → userBytes P K'.mach p
        = overlay (storesOf p [a]) (userBytes P K.mach p))) :
    Seen B K a K' := by
  refine ⟨⟨hiso, fun q hq => ?_⟩, hnext.ge, fun q hq hq' hexec => ?_,
    fun q hq => Or.inl (hlive q hq)⟩
  · by_cases hqp : q = p
    · exact hqp ▸ (hself (hqp ▸ hq)).1
    · obtain ⟨M, hM⟩ := h.paged q (hlive q hq)
      exact ⟨M, (hothers q hqp (hlive q hq)).2 M hM⟩
  · by_cases hqp : q = p
    · subst hqp
      exact (hself hq').2 hexec
    · rw [hstores q hqp, overlay_nil]
      exact (hothers q hqp hq).1

/-- A turn that leaves the memory alone. -/
theorem Private.quiet {K K' : State H F} {op : Op} (h : Private B K)
    (hiso : Isolated B K') (hmach : K'.mach = K.mach)
    (hkept : Kept K.sys.k K'.sys.k) : Seen B K (.kernel op) K' := by
  have hsame : ∀ q, Live K.sys.k q →
      userBytes P K'.mach q = userBytes P K.mach q
        ∧ ∀ M, Paged P K.mach.tables q M → Paged P K'.mach.tables q M := by
    intro q _
    rw [hmach]
    exact ⟨rfl, fun M hM => hM⟩
  refine h.seen_others (p := 0) hiso hkept.nextRef
    (fun q hq => hkept.live.mp hq) (fun _ _ => rfl)
    (fun q _ hq => hsame q hq) fun hp => ?_
  have hp' := hkept.live.mp hp
  obtain ⟨M, hM⟩ := h.paged 0 hp'
  exact ⟨⟨M, (hsame 0 hp').2 M hM⟩, fun _ => (hsame 0 hp').1⟩

/-- An exit. -/
theorem Private.exited {K K' : State H F} {p : Ref} {status : BitVec 32}
    (h : Private B K) (hiso : Isolated B K')
    (hk : K'.sys.k = (K.sys.k.setIrq false).setPcb p fun pcb =>
      { pcb with state := .ZOMBIE, exitStatus := status })
    (hcs : calls B K.mach [.releaseProcPages p, .threadExit p]
      = some K'.mach) : Seen B K (.kernel (.proc (.exit p status))) K' := by
  obtain ⟨m₁, hrelease, hcs⟩ := run_cons_iff.mp hcs
  obtain ⟨m₂, hexit, hcs⟩ := run_cons_iff.mp hcs
  cases hcs
  cases hexit
  have hmach : K'.mach.tables = K.mach.tables
      ∧ K'.mach.page = K.mach.page := by
    rw [← Option.some.inj hrelease]
    exact ⟨rfl, rfl⟩
  have hgone : ¬ Live K'.sys.k p := by
    intro hp
    obtain ⟨-, hz⟩ := hp
    rw [hk, setPcb_pcb, if_pos rfl] at hz
    exact hz rfl
  refine h.seen_others hiso (by rw [hk]; rfl) (fun q hq => ?_)
    (fun _ _ => rfl) (fun q _ _ => ?_) fun hp => absurd hp hgone
  · have hqp : q ≠ p := fun hqp => hgone (hqp ▸ hq)
    obtain ⟨hlt, hz⟩ := hq
    rw [hk, setPcb_pcb, if_neg hqp] at hz
    rw [hk] at hlt
    exact ⟨hlt, hz⟩
  · rw [hmach.1]
    refine ⟨userBytes_congr (fun v _ => by rw [hmach.1])
      fun _ _ _ _ => by rw [hmach.2], fun M hM => hM⟩

/-- An exec, with an image that fits. -/
theorem Private.replaced {K K' : State H F} {p : Ref} {cur : Tid}
    {joinQueue : List Ref} {filename : CString}
    {argv envp : Option (List CString)} {args : Nat} {heap : ByteMem}
    {elf : Elf} {pcb : Pcb} {argsEnv : Nat} (h : Private B K)
    (hiso : Isolated B K') (hlive : Live K.sys.k p)
    (hfits : ImageFits P elf) (hkept : Kept K.sys.k K'.sys.k)
    (hcs : calls B K.mach (imageCalls P p elf (resetProcessStack P pcb)
      argsEnv ++ [.loadProcess, .threadExit p]) = some K'.mach) :
    Seen B K (.kernel (.exec p cur joinQueue filename argv envp args heap))
      K' := by
  have hs := h.isolated.sound
  have hac := h.isolated.audited.frames
  obtain ⟨hw, -⟩ := image_within hfits hlive.1 hs hac hcs
  obtain ⟨M, hbuilt, hpage, -⟩ :=
    built_image hfits hlive.1 hs hac (idle_loaded p) hcs
  refine h.seen_others hiso hkept.nextRef
    (fun q hq => hkept.live.mp hq) (fun _ _ => rfl)
    (fun q hqp hq => hw.seen hq.1 hqp (h.isolated.backed q hq) hac
      fun f _ => by rw [hpage])
    fun _ => ⟨⟨M, hbuilt.paged⟩, fun hexec => absurd rfl hexec⟩

/-- A store of process `p` changes what `p` reads at that address, and
nothing anybody else reads. -/
theorem Private.stored {K : State H F} {p : Ref} {w : Nat × UInt8}
    {m : Machine H F} (h : Private B K) (hlive : Live K.sys.k p)
    (hstore : storeByte P p K.mach w = some m) :
    Seen B K (.store p w) { K with mach := m } := by
  obtain ⟨M, hM⟩ := h.paged p hlive
  have hrun : run (storeByte P p) K.mach [w] = some m := by
    rw [run_cons, hstore]
    rfl
  obtain ⟨-, hbytes⟩ := hM.run_stores hrun
  rw [hM.storeByte_eq] at hstore
  obtain ⟨f, hf, rfl⟩ := Option.map_eq_some_iff.mp hstore
  have hw : w.1 < P.kernelVaddr := hM.user _ (by rw [hf]; rfl)
  have hframe : frameAt K.mach.tables (.proc p) w.1 = some f := by
    rw [frameAt, hM.walk _ hw, hf, Option.map_some, Option.map_some,
      Option.some.injEq]
    omega
  have hiso := h.isolated
  refine h.seen_others ⟨⟨hiso.audited.noPtrace, hiso.audited.frames⟩,
    hiso.sound, hiso.backed, hiso.hasPage⟩ rfl (fun q hq => hq)
    (fun q hqp => storesOf_other hqp w) (fun q hqp hq => ?_)
    fun _ => ⟨⟨M, hM⟩, fun _ => ?_⟩
  · refine ⟨userBytes_congr (fun _ _ => rfl) fun v g hv hg => ?_,
      fun M hM => hM⟩
    have hne : g ≠ f := by
      intro hgf
      subst hgf
      exact hiso.memoryIsolation.disjoint p q w.1 v g hlive hq
        (fun hpq => hqp hpq.symm) hw hv hframe hg
    exact Function.update_of_ne hne _ _
  · rw [storesOf_self, hM.userBytes_eq, ← hbytes]
    exact Paged.userBytes_eq hM

-- ======================================================================== boot

/-- The root image, beside the frames process 0 has been given. -/
theorem Built.mapRootImage {M : PageMap} (h : Built B n 0 m M) (hn : 0 < n)
    (hmap : call B m (.mapRootImage 0) = some m') :
    ∃ M', Paged P m'.tables 0 M' := by
  obtain ⟨t, rfl, hrange, hend, hm⟩ :=
    mapRootImage_remapped hn h.sound h.noSection hmap
  have hk := P.kernelVaddr_aligned
  have hkv := P.kernelVaddr_le
  have hlo : pageStart P.userSpaceVaddr % 4096 = 0 := by
    unfold pageStart
    omega
  have hhi : pageEnd P.userSpaceVaddr P.rootProcSize % 4096 = 0 := by
    unfold pageEnd pageStart alignUp
    omega
  -- the frames of the root image are no frames of the pool
  have happart : ∀ i j f, M.frame i = some f →
      pageStart P.userSpaceVaddr ≤ j * 4096 →
      j * 4096 < pageEnd P.userSpaceVaddr P.rootProcSize →
      f ≠ P.rootProcStart / 4096
        + (j - pageStart P.userSpaceVaddr / 4096) := by
    intro i j f hi hj hj' hf
    have hpos := h.accounted.pos_of_mem (h.listed i f hi)
    refine (h.accounted.inUse f hpos).1.2.2 ?_
    unfold RootImage
    omega
  refine ⟨⟨fun i => if pageStart P.userSpaceVaddr ≤ i * 4096
      ∧ i * 4096 < pageEnd P.userSpaceVaddr P.rootProcSize then
    some (P.rootProcStart / 4096
      + (i - pageStart P.userSpaceVaddr / 4096))
    else M.frame i, ?_⟩, ?_, ?_⟩
  · intro i j f hi hj
    split at hi
    next hi' =>
      have hif := Option.some.inj hi
      split at hj
      next hj' =>
        have hjf := Option.some.inj hj
        omega
      next => exact absurd hif.symm (happart j i f hj hi'.1 hi'.2)
    next =>
      split at hj
      next hj' =>
        exact absurd (Option.some.inj hj).symm
          (happart i j f hi hj'.1 hj'.2)
      next => exact M.inj hi hj
  · intro v hv
    dsimp only
    by_cases hin : pageStart P.userSpaceVaddr ≤ v
        ∧ v < pageEnd P.userSpaceVaddr P.rootProcSize
    · rw [hm.inside v hin.1 hin.2, if_pos (by omega), Option.map_some,
        Option.some.injEq]
      omega
    · rw [hm.outside v (hv.trans_le hkv) (by omega), if_neg (by omega)]
      exact h.paged.walk v hv
  · intro v hv
    dsimp only at hv
    split at hv
    next => omega
    next => exact h.paged.user v hv

variable (elfLoadBuffer) (threadJoin)

/-- `create_root_process` at boot. -/
theorem private_create {t : PageTables H} {pool : F}
    {page : Nat → Nat → UInt8} {K : State H F} (hboot : BootTables B t)
    (h : perform B elfLoadBuffer threadJoin (State.boot t pool page) .create
      = some K) : Private B K := by
  refine ⟨isolated_create elfLoadBuffer threadJoin hboot h, fun p hp => ?_⟩
  obtain ⟨m', hcs, rfl⟩ := Option.map_eq_some_iff.mp h
  have hp0 : p = 0 := Nat.lt_one_iff.mp hp.1
  subst hp0
  obtain ⟨m₁, hnew, hcs⟩ := run_cons_iff.mp hcs
  obtain ⟨m₂, hstack, hcs⟩ := run_cons_iff.mp hcs
  obtain ⟨m₃, hroot, hcs⟩ := run_cons_iff.mp hcs
  obtain rfl : m' = m₃ := by
    refine calls_idle (fun c hc => ?_) hcs
    obtain rfl := List.mem_singleton.mp hc
    trivial
  have ht : m₁.tables = newTable P t (.proc 0) := by
    cases hnew
    rfl
  have hframes : Accounted B.pool 1 m₁.frames := by
    cases hnew
    exact (accounted_boot rfl rfl rfl).succ
  have hempty : ∀ i, i < P.userSlots → m₁.tables.l1 (.proc 0) i = 0 :=
    fun i hi => ht ▸ newTable_user hi
  -- a fresh table maps nothing
  have hbuilt : Built B 1 0 m₁ .empty := by
    refine ⟨ht ▸ hboot.sound.newTable, hframes, fun i hi hsect => ?_,
      ⟨fun v hv => walk_of_empty (hempty _ (slot_lt_userSlots hv)),
        fun v hv => ?_⟩, fun i f hf => ?_⟩
    · rw [hempty i hi] at hsect
      cases hsect
    · cases hv
    · cases hf
  obtain ⟨M, hM, -, -⟩ := hbuilt.allocatePage Nat.one_pos
    (stack_area P (freshPcb 0)).1 hstack
  exact hM.mapRootImage Nat.one_pos hroot

-- ==================================================================== the runs

/-- Every turn. -/
theorem Private.takeTurn {K K' : State H F} {a : Turn} (h : Private B K)
    (hfits : a.Fits P elfLoadBuffer)
    (ha : takeTurn B elfLoadBuffer threadJoin K a = some K') :
    Seen B K a K' := by
  cases a with
  | store p w =>
      unfold Kernel.takeTurn at ha
      dsimp only at ha
      split at ha
      next hlive =>
        obtain ⟨m, hm, rfl⟩ := Option.map_eq_some_iff.mp ha
        exact h.stored hlive hm
      next => cases ha
  | kernel op =>
      have hop : perform B elfLoadBuffer threadJoin K op = some K' := ha
      have hiso := isolated_perform elfLoadBuffer threadJoin h.isolated hfits
        hop
      obtain ⟨cs, hcs, hcaused⟩ := perform_caused B elfLoadBuffer threadJoin
        h.isolated.audited.noPtrace hop
      generalize hk : K'.sys.k = k' at hcaused
      cases hcaused with
      | quiet hkept =>
          exact h.quiet hiso (Option.some.inj hcs).symm (hk ▸ hkept)
      | created => cases hfits
      | allocated _ => cases hfits
      | @waited a c _ hwait _ =>
          cases a with
          | wait p pid wstatus nohang => cases hfits
          | resume w => cases hfits
          | _ => cases hwait
      | forked hlive hf => exact h.forked hiso hlive (hk ▸ hf) hcs
      | exited _ _ => exact h.exited hiso hk hcs
      | replaced argsEnv hlive himage hkept =>
          exact h.replaced hiso hlive (hfits _ himage) (hk ▸ hkept) hcs

/-- A whole run of turns that isolation allows. -/
structure SeenAlong (B : Board P H F) (K : State H F) (as : List Turn)
    (K' : State H F) : Prop where
  inv : Private B K'
  dead : ∀ q, q < K.sys.k.nextRef → ¬ Live K.sys.k q → ¬ Live K'.sys.k q
  own : ∀ q, Live K.sys.k q → Live K'.sys.k q →
    (∀ a ∈ as, ¬ a.IsExecOf q) →
    userBytes P K'.mach q = overlay (storesOf q as) (userBytes P K.mach q)

theorem Private.run {K K' : State H F} {as : List Turn} (h : Private B K)
    (hfits : ∀ a ∈ as, a.Fits P elfLoadBuffer)
    (hrun : run (Kernel.takeTurn B elfLoadBuffer threadJoin) K as
      = some K') : SeenAlong B K as K' := by
  induction as generalizing K with
  | nil =>
      cases hrun
      exact ⟨h, fun _ _ hq => hq, fun _ _ _ _ => rfl⟩
  | cons a as ih =>
      obtain ⟨K₁, ha, hrest⟩ := run_cons_iff.mp hrun
      obtain ⟨hfit, hfits⟩ := List.forall_mem_cons.mp hfits
      have hseen := h.takeTurn elfLoadBuffer threadJoin hfit ha
      have halong := ih hseen.inv hfits hrest
      have hdead : ∀ q, q < K.sys.k.nextRef → ¬ Live K.sys.k q →
          ¬ Live K₁.sys.k q := by
        intro q hlt hq hq₁
        rcases hseen.born q hq₁ with hq' | ⟨rfl, -⟩
        · exact hq hq'
        · exact Nat.lt_irrefl _ hlt
      refine ⟨halong.inv, fun q hlt hq => ?_, fun q hq hq' hexec => ?_⟩
      · exact halong.dead q (hlt.trans_le hseen.next) (hdead q hlt hq)
      · obtain ⟨hexec₁, hexec⟩ := List.forall_mem_cons.mp hexec
        -- who is alive at both ends is alive in between
        have hq₁ : Live K₁.sys.k q := by
          by_contra hnot
          exact halong.dead q (hq.1.trans_le hseen.next) hnot hq'
        rw [halong.own q hq₁ hq' hexec, hseen.own q hq hq₁ hexec₁,
          ← overlay_append,
          ← storesOf_append]
        rfl

/-- A process that is alive, and replaces its image at no turn, sees its
own stores over what it saw, and nothing else: in every run of stores,
forks, exits and execs from boot, whatever the others do. -/
theorem private_memory (t : PageTables H) (pool : F)
    (page : Nat → Nat → UInt8) (before after : List Turn)
    (K K' : State H F) (q : Ref) (hboot : BootTables B t)
    (hfits : ∀ a ∈ before ++ after, a.Fits P elfLoadBuffer)
    (h : run (takeTurn B elfLoadBuffer threadJoin) (State.boot t pool page)
      (.kernel .create :: before) = some K)
    (h' : run (takeTurn B elfLoadBuffer threadJoin) K after = some K')
    (hq : Live K.sys.k q) (hq' : Live K'.sys.k q)
    (hexec : ∀ a ∈ after, ¬ a.IsExecOf q) :
    userBytes P K'.mach q
      = overlay (storesOf q after) (userBytes P K.mach q) := by
  obtain ⟨K₀, hcreate, hbefore⟩ := run_cons_iff.mp h
  obtain ⟨hfits, hfits'⟩ := List.forall_mem_append.mp hfits
  have hK := ((private_create elfLoadBuffer threadJoin hboot hcreate).run
    elfLoadBuffer threadJoin hfits hbefore).inv
  exact (hK.run elfLoadBuffer threadJoin hfits' h').own q hq hq' hexec

set_option maxRecDepth 4096 in
/-- A child stores to the page its parent stores to. -/
theorem private_memory_child :
    ∃ K K', run (takeTurn .small onePage id) State.small
        [.kernel .create, .kernel (.proc (.fork 0 0))] = some K
      ∧ run (takeTurn .small onePage id) K
        [.store 0 (0x1000, 7), .store 1 (0x1000, 9)] = some K'
      ∧ userBytes .small K'.mach 1
        = overlay [(0x1000, 9)] (userBytes .small K.mach 1) := by
  have hret : ∃ K K', run (takeTurn .small onePage id) State.small
        [.kernel .create, .kernel (.proc (.fork 0 0))] = some K
      ∧ run (takeTurn .small onePage id) K
        [.store 0 (0x1000, 7), .store 1 (0x1000, 9)] = some K'
      ∧ Live K.sys.k 1 ∧ Live K'.sys.k 1 :=
    ⟨_, _, rfl, rfl, by decide, by decide⟩
  obtain ⟨K, K', hK, hK', hlive, hlive'⟩ := hret
  refine ⟨K, K', hK, hK', private_memory (B := Board.small) onePage id _ _ _
    [.kernel (.proc (.fork 0 0))] _ K K' 1 bootTables_small ?_ hK hK' hlive
    hlive' ?_⟩
  · intro a ha
    simp only [List.cons_append, List.nil_append, List.mem_cons,
      List.not_mem_nil, or_false] at ha
    rcases ha with rfl | rfl | rfl
    all_goals trivial
  · intro a ha
    simp only [List.mem_cons, List.not_mem_nil, or_false] at ha
    rcases ha with rfl | rfl
    all_goals exact not_false

/-- After a fork, parent and child each see their own stores over what
the parent saw at the fork, in every run that goes on from there. -/
theorem fork_copies_memory (t : PageTables H) (pool : F)
    (page : Nat → Nat → UInt8) (before after : List Turn)
    (K K₁ K' : State H F) (p : Ref) (thread : Tid)
    (hboot : BootTables B t)
    (hfits : ∀ a ∈ before ++ after, a.Fits P elfLoadBuffer)
    (h : run (takeTurn B elfLoadBuffer threadJoin) (State.boot t pool page)
      (.kernel .create :: before) = some K)
    (hfork : takeTurn B elfLoadBuffer threadJoin K
      (.kernel (.proc (.fork p thread))) = some K₁)
    (hchild : Live K₁.sys.k K.sys.k.nextRef)
    (h' : run (takeTurn B elfLoadBuffer threadJoin) K₁ after = some K') :
    ∀ q, q = p ∨ q = K.sys.k.nextRef → Live K'.sys.k q →
      (∀ a ∈ after, ¬ a.IsExecOf q) →
      userBytes P K'.mach q
        = overlay (storesOf q after) (userBytes P K.mach p) := by
  obtain ⟨K₀, hcreate, hbefore⟩ := run_cons_iff.mp h
  obtain ⟨hfits, hfits'⟩ := List.forall_mem_append.mp hfits
  have hK := ((private_create elfLoadBuffer threadJoin hboot hcreate).run
    elfLoadBuffer threadJoin hfits hbefore).inv
  have hfit : Turn.Fits P elfLoadBuffer (.kernel (.proc (.fork p thread))) :=
    trivial
  have hseen := hK.takeTurn elfLoadBuffer threadJoin hfit hfork
  have halong := hseen.inv.run elfLoadBuffer threadJoin hfits' h'
  obtain ⟨hp, hcopy⟩ : Live K.sys.k p
      ∧ userBytes P K₁.mach K.sys.k.nextRef = userBytes P K.mach p := by
    rcases hseen.born _ hchild with hold | ⟨-, r, thread', heq, hr, hcopy⟩
    · exact absurd hold.1 (Nat.lt_irrefl _)
    · cases heq
      exact ⟨hr, hcopy⟩
  intro q hqp hq' hexec
  have hlt : q < K₁.sys.k.nextRef := by
    rcases hqp with rfl | rfl
    · exact hp.1.trans_le hseen.next
    · exact hchild.1
  have hq₁ : Live K₁.sys.k q := by
    by_contra hnot
    exact halong.dead q hlt hnot hq'
  rw [halong.own q hq₁ hq' hexec]
  rcases hqp with rfl | rfl
  · rw [hseen.own q hp hq₁ (fun h => h)]
    rfl
  · rw [hcopy]

set_option maxRecDepth 4096 in
/-- The root process stores, forks, and stores again. -/
theorem fork_copies_memory_root :
    ∃ K K', run (takeTurn .small onePage id) State.small
        [.kernel .create, .store 0 (0x1000, 7)] = some K
      ∧ run (takeTurn .small onePage id) K
        [.kernel (.proc (.fork 0 0)), .store 0 (0x1000, 8)] = some K'
      ∧ userBytes .small K'.mach 1 = userBytes .small K.mach 0 := by
  have hret : ∃ K K₁ K', run (takeTurn .small onePage id) State.small
        [.kernel .create, .store 0 (0x1000, 7)] = some K
      ∧ takeTurn .small onePage id K (.kernel (.proc (.fork 0 0))) = some K₁
      ∧ run (takeTurn .small onePage id) K₁ [.store 0 (0x1000, 8)] = some K'
      ∧ K.sys.k.nextRef = 1 ∧ Live K₁.sys.k 1 ∧ Live K'.sys.k 1 :=
    ⟨_, _, _, rfl, rfl, rfl, rfl, by decide, by decide⟩
  obtain ⟨K, K₁, K', hK, hfork, hK', hnext, hlive₁, hlive'⟩ := hret
  refine ⟨K, K', hK, run_cons_iff.mpr ⟨K₁, hfork, hK'⟩, ?_⟩
  refine fork_copies_memory (B := Board.small) onePage id _ _ _
    [.store 0 (0x1000, 7)] _ K K₁ K' 0 0 bootTables_small ?_ hK hfork
    (hnext.symm ▸ hlive₁) hK' 1 (Or.inr hnext.symm) hlive' ?_
  · intro a ha
    simp only [List.cons_append, List.nil_append, List.mem_cons,
      List.not_mem_nil, or_false] at ha
    rcases ha with rfl | rfl
    all_goals trivial
  · intro a ha
    obtain rfl := List.mem_singleton.mp ha
    exact not_false

end SyeLabs.Kernel
