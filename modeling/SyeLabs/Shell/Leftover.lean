/-
What a session of the root shell leaves in the process table.

# Who waits for whom

The comment at the end of `process_cmd` leaves a background process to a
`waitpid` on `SIGCHLD`, of which there is none; and the second process of
a pipeline is a child of the first, which runs a program by then. So
nobody waits for either, and since a process with a child in the list
stays in it, both processes of a pipeline stay (`session_leaves`).
-/
import SyeLabs.Shell.Jobs

namespace SyeLabs.Shell

open Lib Process

variable {threadJoin : Option Tid → Option Tid}

-- ============================================================ who is left over

/-- The shell waits for the process. -/
def Code.awaited : Code → Bool
  | .child s _ => !s.background
  | _ => false

/-- Its PCB goes when it has been waited for: it has no child. -/
def Code.reclaimed : Code → Bool
  | .child s _ => !s.background && !s.pipeOn
  | _ => false

-- =============================================================== the invariant

/-- What the kernel holds of the processes, of which the shell owes a wait
to `due`: the list is those that are not reclaimed, `due` included; the
second process of a pipeline keeps the first in it; a process before its
second fork does not block and does not end; and the page tables freed are
those of the processes waited for. -/
structure Held (k : Procs) (trace : List Call) (code : Ref → Code)
    (due : Option Ref) : Prop where
  noPtrace : NoPtrace k
  numbered : Numbered k
  nodup : k.procList.Nodup
  shell : 0 < k.nextRef ∧ code 0 = .shell
  fresh : ∀ r, k.nextRef ≤ r → code r = .shell
  members : ∀ r, r ∈ k.procList
    ↔ r < k.nextRef ∧ ((code r).reclaimed = false ∨ due = some r)
  parent : ∀ r, r < k.nextRef → ∀ q, (k.pcb r).parent = some q →
    q < k.nextRef ∧ (code q).reclaimed = false
  second : ∀ r s, code r = .child s true →
    ∃ q, q < k.nextRef ∧ code q = .child2 ∧ (k.pcb q).parent = some r
  early : ∀ r, (code r).runs = false → r ≠ 0 → r < k.nextRef →
    (k.pcb r).state ≠ .WAITING ∧ (k.pcb r).state ≠ .ZOMBIE
  freed : ∀ r, trace.count (.resetRootPgtable r true)
    = if (code r).awaited = true ∧ due ≠ some r then 1 else 0

/-- The process the shell owes a wait to, by where it is. -/
def Owes (S : Session) : ShellPc → Option Ref → Prop
  | .prompt, due => S.sys.waits = [] ∧ due = none
  | .forked pidChild, due => S.sys.waits = [] ∧ ∃ c, due = some c
      ∧ c < S.sys.k.nextRef ∧ (S.code c).awaited = true
      ∧ (S.sys.k.pcb c).pid = pidChild
  | .waiting w, due => S.sys.waits = [w] ∧ due = some w.child
      ∧ w.child < S.sys.k.nextRef ∧ (S.code w.child).awaited = true

def SessionInv (S : Session) : Prop :=
  ∃ due, Held S.sys.k S.sys.trace S.code due ∧ Owes S S.pc due

variable {k k' : Procs} {trace trace' : List Call} {code : Ref → Code}
  {due : Option Ref}

/-- A step that creates, reaps and frees nobody. -/
theorem Held.same (h : Held k trace code due)
    (hlist : k'.procList = k.procList) (href : k'.nextRef = k.nextRef)
    (hcur : k'.pidCurrent = k.pidCurrent)
    (hpcb : ∀ r, (k'.pcb r).pid = (k.pcb r).pid
      ∧ (k'.pcb r).parent = (k.pcb r).parent
      ∧ (k'.pcb r).ptracePendingReq = (k.pcb r).ptracePendingReq)
    (hearly : ∀ r, (code r).runs = false → r ≠ 0 →
      (k.pcb r).state ≠ .WAITING ∧ (k.pcb r).state ≠ .ZOMBIE →
      (k'.pcb r).state ≠ .WAITING ∧ (k'.pcb r).state ≠ .ZOMBIE)
    (htrace : ∀ r, trace'.count (.resetRootPgtable r true)
      = trace.count (.resetRootPgtable r true)) :
    Held k' trace' code due where
  noPtrace := fun r => (hpcb r).2.2.trans (h.noPtrace r)
  numbered := h.numbered.same (hlist ▸ List.Subset.refl _) href hcur
    fun r => (hpcb r).1
  nodup := hlist ▸ h.nodup
  shell := href ▸ h.shell
  fresh := href ▸ h.fresh
  members := fun r => by rw [hlist, href, h.members]
  parent := fun r hr q hq => by
    rw [href] at hr ⊢
    exact h.parent r hr q ((hpcb r).2.1 ▸ hq)
  second := fun r s hr => by
    obtain ⟨q, hq, hcode, hparent⟩ := h.second r s hr
    exact ⟨q, href ▸ hq, hcode, (hpcb q).2.1.trans hparent⟩
  early := fun r hruns h0 hr => hearly r hruns h0
    (h.early r hruns h0 (href ▸ hr))
  freed := fun r => (htrace r).trans (h.freed r)

theorem reclaimed_awaited {c : Code} (h : c.reclaimed = true) :
    c.awaited = true := by
  cases c with
  | shell => cases h
  | child2 => cases h
  | child s forked2 => exact (Bool.and_eq_true_iff.mp h).1

/-- Whom the shell owes a wait to does not change as long as the processes
there are keep their pids and are waited for as before. -/
theorem Owes.kept {S : Session} {sys : Sys} {code' : Ref → Code}
    {pc : ShellPc} (howes : Owes S pc due)
    (hwaits : sys.waits = S.sys.waits)
    (hnext : S.sys.k.nextRef ≤ sys.k.nextRef)
    (hpid : ∀ r, r < S.sys.k.nextRef →
      (sys.k.pcb r).pid = (S.sys.k.pcb r).pid)
    (haw : ∀ r, r < S.sys.k.nextRef →
      (code' r).awaited = (S.code r).awaited) :
    Owes { S with sys, code := code' } pc due := by
  cases pc with
  | prompt => exact ⟨hwaits.trans howes.1, howes.2⟩
  | forked pidChild =>
      obtain ⟨hnone, r, heq, hlt, hawaited, hr⟩ := howes
      exact ⟨hwaits.trans hnone, r, heq, hlt.trans_le hnext,
        (haw r hlt).trans hawaited, (hpid r hlt).trans hr⟩
  | waiting w =>
      obtain ⟨hone, heq, hlt, hawaited⟩ := howes
      exact ⟨hwaits.trans hone, heq, hlt.trans_le hnext,
        (haw _ hlt).trans hawaited⟩

-- =============================================================== a new process

/-- What the creation of `new` does to the codes and to who is due: the
others are waited for and reclaimed as before, and the new process is due
if it is to be waited for at all. -/
structure Recoded (code code' : Ref → Code) (due due' : Option Ref)
    (new : Ref) : Prop where
  reclaimed : ∀ r, r ≠ new → (code' r).reclaimed = (code r).reclaimed
  awaited : ∀ r, r ≠ new → (code' r).awaited = (code r).awaited
  runs : ∀ r, r ≠ new → (code' r).runs = false → (code r).runs = false
  stillDue : ∀ r, r ≠ new → (due' = some r ↔ due = some r)
  newDue : (code' new).awaited = true → due' = some new
  shell : code' 0 = .shell
  fresh : ∀ r, new < r → code' r = .shell

section Forked

variable {p : Ref} {code' : Ref → Code} {due' : Option Ref}

theorem Held.nodup_forked (h : Held k trace code due)
    (hf : Forked k k' p) : k'.procList.Nodup := by
  rw [hf.procList]
  refine List.nodup_append.mpr ⟨h.nodup, List.nodup_singleton _, ?_⟩
  intro r hr r' hr' heq
  rw [List.mem_singleton.mp hr'] at heq
  exact absurd heq (Nat.ne_of_lt (h.numbered.old r hr))

theorem Held.members_forked (h : Held k trace code due)
    (hf : Forked k k' p) (hcode : Recoded code code' due due' k.nextRef)
    (r : Ref) :
    r ∈ k'.procList
      ↔ r < k'.nextRef ∧ ((code' r).reclaimed = false ∨ due' = some r) := by
  rw [hf.procList, hf.nextRef, List.mem_append, List.mem_singleton,
    h.members]
  by_cases hr : r = k.nextRef
  · have hin : (code' r).reclaimed = false ∨ due' = some r := by
      cases hrec : (code' r).reclaimed with
      | false => exact Or.inl rfl
      | true =>
          subst hr
          exact Or.inr (hcode.newDue (reclaimed_awaited hrec))
    exact iff_of_true (Or.inr hr) ⟨hr ▸ Nat.lt_succ_self _, hin⟩
  · rw [or_iff_left hr, hcode.reclaimed r hr, hcode.stillDue r hr,
      Nat.lt_succ_iff, Nat.le_iff_lt_or_eq, or_iff_left hr]

theorem Held.parent_forked (h : Held k trace code due)
    (hf : Forked k k' p) (hcode : Recoded code code' due due' k.nextRef)
    (hp : p < k.nextRef) (hparent : (code p).reclaimed = false) {r q : Ref}
    (hr : r < k'.nextRef) (hq : (k'.pcb r).parent = some q) :
    q < k'.nextRef ∧ (code' q).reclaimed = false := by
  rw [hf.nextRef] at hr ⊢
  have hof : ∀ q, q < k.nextRef → (code q).reclaimed = false →
      q < k.nextRef + 1 ∧ (code' q).reclaimed = false := by
    intro q hq hrec
    exact ⟨Nat.lt_succ_of_lt hq,
      (hcode.reclaimed q (Nat.ne_of_lt hq)).trans hrec⟩
  by_cases hnr : r = k.nextRef
  · rw [hnr, hf.parent] at hq
    cases hq
    exact hof p hp hparent
  · rw [hf.others r hnr] at hq
    obtain ⟨hlt, hrec⟩ := h.parent r
      (Nat.lt_of_le_of_ne (Nat.lt_succ_iff.mp hr) hnr) q hq
    exact hof q hlt hrec

theorem Held.early_forked (h : Held k trace code due)
    (hf : Forked k k' p) (hcode : Recoded code code' due due' k.nextRef)
    {r : Ref} (hruns : (code' r).runs = false) (h0 : r ≠ 0)
    (hr : r < k'.nextRef) :
    (k'.pcb r).state ≠ .WAITING ∧ (k'.pcb r).state ≠ .ZOMBIE := by
  by_cases hnr : r = k.nextRef
  · rw [hnr, hf.state]
    decide
  · rw [hf.others r hnr]
    rw [hf.nextRef] at hr
    exact h.early r (hcode.runs r hnr hruns) h0
      (Nat.lt_of_le_of_ne (Nat.lt_succ_iff.mp hr) hnr)

theorem Held.freed_forked (h : Held k trace code due)
    (hcode : Recoded code code' due due' k.nextRef) (r : Ref) :
    trace.count (.resetRootPgtable r true)
      = if (code' r).awaited = true ∧ due' ≠ some r then 1 else 0 := by
  rw [h.freed]
  by_cases hr : r = k.nextRef
  · have hold : code r = .shell := h.fresh r hr.ge
    have hno : ¬ ((code' r).awaited = true ∧ due' ≠ some r) := by
      intro hall
      subst hr
      exact hall.2 (hcode.newDue hall.1)
    rw [if_neg hno, hold]
    rfl
  · simp only [hcode.awaited r hr, ne_eq, hcode.stillDue r hr]

/-- A new process, whose parent stays in the list for its sake. -/
theorem Held.forked (h : Held k trace code due) (hf : Forked k k' p)
    (hcode : Recoded code code' due due' k.nextRef) (hp : p < k.nextRef)
    (hparent : (code p).reclaimed = false)
    (hsecond : ∀ r s, code' r = .child s true → ∃ q, q < k'.nextRef
      ∧ code' q = .child2 ∧ (k'.pcb q).parent = some r)
    (htrace : ∀ r, trace'.count (.resetRootPgtable r true)
      = trace.count (.resetRootPgtable r true)) :
    Held k' trace' code' due' where
  noPtrace := by
    intro r
    by_cases hr : r = k.nextRef
    · exact hr ▸ hf.ptrace
    · exact (hf.others r hr).symm ▸ h.noPtrace r
  numbered := h.numbered.forked hf
  nodup := h.nodup_forked hf
  shell := ⟨hf.nextRef ▸ Nat.succ_pos _, hcode.shell⟩
  fresh := by
    intro r hr
    rw [hf.nextRef] at hr
    exact hcode.fresh r hr
  members := h.members_forked hf hcode
  parent := fun _ hr _ hq => h.parent_forked hf hcode hp hparent hr hq
  second := hsecond
  early := fun _ hruns h0 hr => h.early_forked hf hcode hruns h0 hr
  freed := fun r => (htrace r).trans (h.freed_forked hcode r)

/-- The second processes there were. -/
theorem Held.second_forked (h : Held k trace code due)
    (hf : Forked k k' p) {r : Ref} {s : Split}
    (hcode : code r = .child s true)
    (hkept : ∀ q, q < k.nextRef → code q = .child2 → code' q = .child2) :
    ∃ q, q < k'.nextRef ∧ code' q = .child2
      ∧ (k'.pcb q).parent = some r := by
  obtain ⟨q, hq, hsecond, hparent⟩ := h.second r s hcode
  refine ⟨q, hf.nextRef ▸ Nat.lt_succ_of_lt hq, hkept q hq hsecond, ?_⟩
  rw [hf.others q hq.ne]
  exact hparent

end Forked

-- ============================================================ a wait that ends

/-- The first process of a pipeline, once it can be waited for, has the
second as a child in the list. -/
theorem Held.child_listed {c : Ref} (h : Held k trace code due)
    (hc : c < k.nextRef) (haw : (code c).awaited = true)
    (hrec : (code c).reclaimed = false)
    (hst : (k.pcb c).state = .WAITING ∨ (k.pcb c).state = .ZOMBIE) :
    ∃ q ∈ k.procList, (k.pcb q).parent = some c := by
  obtain ⟨s, hcode⟩ : ∃ s, code c = .child s true := by
    cases hcode : code c with
    | shell => rw [hcode] at haw; cases haw
    | child2 => rw [hcode] at haw; cases haw
    | child s forked2 =>
        cases forked2 with
        | true => exact ⟨s, rfl⟩
        | false =>
            have hruns : (code c).runs = false := by
              rw [hcode] at haw hrec ⊢
              simp only [Code.awaited, Code.reclaimed] at haw hrec
              rw [haw, Bool.true_and] at hrec
              simp only [Code.runs, hrec, Bool.or_false]
            have h0 : c ≠ 0 := by
              rintro rfl
              rw [h.shell.2] at hcode
              cases hcode
            exact absurd hst (not_or.mpr (h.early c hruns h0 hc))
  obtain ⟨q, hq, hsecond, hparent⟩ := h.second c s hcode
  refine ⟨q, ?_, hparent⟩
  rw [h.members, hsecond]
  exact ⟨hq, Or.inl rfl⟩

theorem Held.members_reaped {c : Ref} (h : Held k trace code (some c))
    (hc : c < k.nextRef) (haw : (code c).awaited = true)
    (hst : (k.pcb c).state = .WAITING ∨ (k.pcb c).state = .ZOMBIE)
    (hr : Reaped k k' c) (r : Ref) :
    r ∈ k'.procList ↔ r < k.nextRef ∧ (code r).reclaimed = false := by
  rw [hr.procList]
  cases hrec : (code c).reclaimed with
  | true =>
      -- nobody's parent, so it goes
      rw [reap_of_childless, h.nodup.mem_erase_iff, h.members]
      · constructor
        · rintro ⟨hne, hlt, hin | hin⟩
          · exact ⟨hlt, hin⟩
          · exact absurd (Option.some.inj hin).symm hne
        · rintro ⟨hlt, hin⟩
          refine ⟨fun heq => ?_, hlt, Or.inl hin⟩
          rw [heq, hrec] at hin
          cases hin
      · intro q hq hqc
        have hno := (h.parent q (h.numbered.old q hq) c hqc).2
        rw [hrec] at hno
        cases hno
  | false =>
      obtain ⟨q, hin, hparent⟩ := h.child_listed hc haw hrec hst
      rw [reap_of_child hin hparent, h.members]
      refine and_congr_right fun _ => or_iff_left_of_imp fun heq => ?_
      rw [← Option.some.inj heq]
      exact hrec

theorem Held.freed_reaped {c : Ref} (h : Held k trace code (some c))
    (haw : (code c).awaited = true) (r : Ref) :
    (trace ++ [Call.resetRootPgtable c true]).count
        (.resetRootPgtable r true)
      = if (code r).awaited = true ∧ none ≠ some r then 1 else 0 := by
  rw [List.count_append, h.freed]
  by_cases heq : r = c
  · subst heq
    simp [haw]
  · have hne : ¬ (some c = some r) := fun hs =>
      heq (Option.some.inj hs).symm
    have hcall : (Call.resetRootPgtable c true)
        ≠ .resetRootPgtable r true := fun hcall => by
      cases hcall
      exact heq rfl
    simp [hne, hcall]

/-- The end of the wait for the process that is due. -/
theorem Held.reaped {c : Ref} (h : Held k trace code (some c))
    (hc : c < k.nextRef) (haw : (code c).awaited = true)
    (hst : (k.pcb c).state = .WAITING ∨ (k.pcb c).state = .ZOMBIE)
    (hr : Reaped k k' c) :
    Held k' (trace ++ [.resetRootPgtable c true]) code none := by
  have hpcb : ∀ r, (k'.pcb r).parent = (k.pcb r).parent
      ∧ (k'.pcb r).state = (k.pcb r).state := by
    intro r
    obtain ⟨t, ht⟩ := hr.pcb r
    rw [ht]
    exact ⟨rfl, rfl⟩
  constructor
  case noPtrace => exact h.noPtrace.reaped hr
  case numbered => exact h.numbered.reaped hr
  case nodup =>
    rw [hr.procList]
    exact reap_nodup h.nodup c
  case shell => exact hr.nextRef ▸ h.shell
  case fresh => exact hr.nextRef ▸ h.fresh
  case members =>
    intro r
    rw [h.members_reaped hc haw hst hr, hr.nextRef, or_iff_left]
    exact fun hno => nomatch hno
  case parent =>
    intro r hlt q hq
    rw [hr.nextRef] at hlt ⊢
    exact h.parent r hlt q ((hpcb r).1 ▸ hq)
  case second =>
    intro r s hcode
    obtain ⟨q, hq, hsecond, hparent⟩ := h.second r s hcode
    exact ⟨q, hr.nextRef ▸ hq, hsecond, (hpcb q).1.trans hparent⟩
  case early =>
    intro r hruns h0 hlt
    rw [(hpcb r).2]
    exact h.early r hruns h0 (hr.nextRef ▸ hlt)
  case freed => exact h.freed_reaped haw

-- =================================================================== the steps

/-- The shell starts a command. -/
theorem sessionInv_line {S : Session} {sys : Sys} {ret : Int} (s : Split)
    (h : Held S.sys.k S.sys.trace S.code none) (hwaits : S.sys.waits = [])
    (hfork : forkBy threadJoin S.sys 0 = some (sys, ret)) :
    SessionInv {
      sys
      pc := if s.background then .prompt else .forked (BitVec.ofInt 32 ret)
      code := Function.update S.code S.sys.k.nextRef (.child s false) } := by
  obtain ⟨hf, hret, hwaits', htrace⟩ := forkBy_some hfork
  obtain ⟨hpos, hshell⟩ := h.shell
  have hold : ∀ r, r ≠ S.sys.k.nextRef → Function.update S.code
      S.sys.k.nextRef (.child s false) r = S.code r :=
    fun r hr => Function.update_of_ne hr _ _
  have hnew : Function.update S.code S.sys.k.nextRef (.child s false)
      S.sys.k.nextRef = .child s false := Function.update_self _ _ _
  have hcode : Recoded S.code
      (Function.update S.code S.sys.k.nextRef (.child s false)) none
      (if s.background then none else some S.sys.k.nextRef)
      S.sys.k.nextRef := by
    constructor
    case reclaimed => exact fun r hr => by rw [hold r hr]
    case awaited => exact fun r hr => by rw [hold r hr]
    case runs => exact fun r hr hruns => hold r hr ▸ hruns
    case stillDue =>
      intro r hr
      split
      · exact Iff.rfl
      · exact iff_of_false (fun heq => hr (Option.some.inj heq).symm)
          (fun heq => nomatch heq)
    case newDue =>
      intro haw
      rw [hnew] at haw
      have hfore : s.background = false := Bool.not_eq_true' _ ▸ haw
      rw [hfore]
      rfl
    case shell => exact (hold 0 hpos.ne).trans hshell
    case fresh => exact fun r hr => (hold r hr.ne').trans (h.fresh r hr.le)
  have hheld : Held sys.k sys.trace
      (Function.update S.code S.sys.k.nextRef (.child s false))
      (if s.background then none else some S.sys.k.nextRef) := by
    refine h.forked hf hcode hpos (by rw [hshell]; rfl)
      (fun r s' hr => ?_) fun r => ?_
    · have hne : r ≠ S.sys.k.nextRef := by
        rintro rfl
        rw [hnew] at hr
        cases hr
      rw [hold r hne] at hr
      exact h.second_forked hf hr fun q hq hq2 => (hold q hq.ne).trans hq2
    · rw [htrace]
      simp
  refine ⟨_, hheld, ?_⟩
  have hnone : sys.waits = [] := hwaits'.trans hwaits
  cases hback : s.background with
  | true => exact ⟨hnone, rfl⟩
  | false =>
      refine ⟨hnone, _, rfl, ?_, ?_, ?_⟩
      · show S.sys.k.nextRef < sys.k.nextRef
        rw [hf.nextRef]
        exact Nat.lt_succ_self _
      · show (Function.update S.code _ _ _).awaited = true
        rw [hnew, Code.awaited, hback]
        rfl
      · show (sys.k.pcb S.sys.k.nextRef).pid = BitVec.ofInt 32 ret
        rw [hf.pid, hret, BitVec.ofInt_toInt]

/-- The second process of a pipeline is waited for by nobody, and to the
rest its creation changes the code of the first alone. -/
theorem Held.recoded_fork2 {c : Ref} {s : Split} (h : Held k trace code due)
    (hcode : code c = .child s false) (hc : c < k.nextRef) :
    Recoded code (Function.update (Function.update code c (.child s true))
      k.nextRef .child2) due due k.nextRef := by
  have hself : ∀ r, r ≠ k.nextRef → r = c →
      Function.update (Function.update code c (.child s true))
        k.nextRef .child2 r = .child s true := by
    rintro r hr rfl
    rw [Function.update_of_ne hr, Function.update_self]
  have hold : ∀ r, r ≠ k.nextRef → r ≠ c →
      Function.update (Function.update code c (.child s true))
        k.nextRef .child2 r = code r := by
    intro r hr hrc
    rw [Function.update_of_ne hr, Function.update_of_ne hrc]
  constructor
  case reclaimed =>
    intro r hr
    by_cases hrc : r = c
    · rw [hself r hr hrc, hrc, hcode]
      rfl
    · rw [hold r hr hrc]
  case awaited =>
    intro r hr
    by_cases hrc : r = c
    · rw [hself r hr hrc, hrc, hcode]
      rfl
    · rw [hold r hr hrc]
  case runs =>
    intro r hr hruns
    by_cases hrc : r = c
    · rw [hself r hr hrc] at hruns
      simp [Code.runs] at hruns
    · exact hold r hr hrc ▸ hruns
  case stillDue => exact fun _ _ => Iff.rfl
  case newDue =>
    intro haw
    rw [Function.update_self] at haw
    cases haw
  case shell =>
    have h0 : 0 ≠ c := by
      rintro rfl
      rw [h.shell.2] at hcode
      cases hcode
    exact (hold 0 h.shell.1.ne h0).trans h.shell.2
  case fresh =>
    intro r hr
    exact (hold r hr.ne' fun hrc => absurd hc (hrc ▸ hr.not_gt)).trans
      (h.fresh r hr.le)

/-- The first process of a pipeline creates the second. -/
theorem sessionInv_fork2 {S : Session} {sys : Sys} {ret : Int} {c : Ref}
    {s : Split} (h : SessionInv S) (hcode : S.code c = .child s false)
    (hpipe : s.pipeOn = true)
    (hfork : forkBy threadJoin S.sys c = some (sys, ret)) :
    SessionInv { S with
      sys
      code := Function.update (Function.update S.code c (.child s true))
        S.sys.k.nextRef .child2 } := by
  obtain ⟨due, h, howes⟩ := h
  obtain ⟨hf, -, hwaits, htrace⟩ := forkBy_some hfork
  have hc : c < S.sys.k.nextRef := by
    by_contra hge
    rw [h.fresh c (Nat.le_of_not_lt hge)] at hcode
    cases hcode
  have hre := h.recoded_fork2 hcode hc
  refine ⟨due, h.forked hf hre hc ?_ (fun r s' hr => ?_) (fun r => ?_),
    howes.kept hwaits (hf.nextRef ▸ Nat.le_succ _)
      (fun r hr => by rw [hf.others r hr.ne])
      fun r hr => hre.awaited r hr.ne⟩
  · rw [hcode]
    simp [Code.reclaimed, hpipe]
  · dsimp only at hr ⊢
    by_cases hrc : r = c
    · refine ⟨S.sys.k.nextRef, hf.nextRef ▸ Nat.lt_succ_self _,
        Function.update_self _ _ _, ?_⟩
      rw [hrc]
      exact hf.parent
    · have hne : r ≠ S.sys.k.nextRef := by
        rintro rfl
        rw [Function.update_self] at hr
        cases hr
      rw [Function.update_of_ne hne, Function.update_of_ne hrc] at hr
      refine h.second_forked hf hr fun q hq hq2 => ?_
      have hqc : q ≠ c := by
        rintro rfl
        rw [hcode] at hq2
        cases hq2
      rw [Function.update_of_ne hq.ne, Function.update_of_ne hqc]
      exact hq2
  · rw [htrace]
    simp

/-- The shell calls `waitpid`. -/
theorem sessionInv_waitpid {S : Session} {sys : Sys} {pidChild : Pid}
    (h : SessionInv S) (hfew : S.sys.k.nextRef < 4294967295)
    (hpc : S.pc = .forked pidChild)
    (hstep : step threadJoin S.sys (.wait 0 pidChild none false)
      = some sys) :
    SessionInv { S with
      sys
      pc := match sys.waits with
        | [] => .prompt
        | w :: _ => .waiting w } := by
  obtain ⟨due, h, howes⟩ := h
  rw [hpc] at howes
  obtain ⟨hnone, c, rfl, hc, haw, rfl⟩ := howes
  have hmem : c ∈ S.sys.k.procList :=
    (h.members c).mpr ⟨hc, Or.inr rfl⟩
  have htarget := numbered_waitTarget h.numbered hfew hmem
  rcases wait_cases h.noPtrace htarget hstep with
    ⟨w, rfl, rfl⟩ | ⟨hst, k', hr, rfl⟩
  · refine ⟨some w.child, ?_, ?_⟩
    · exact h.same rfl rfl rfl (fun _ => ⟨rfl, rfl, rfl⟩)
        (fun _ _ _ hearly => hearly) fun _ => rfl
    · simp only [hnone, List.nil_append]
      exact ⟨rfl, rfl, hc, haw⟩
  · refine ⟨none, h.reaped hc haw hst hr, ?_⟩
    simp only [hnone]
    exact ⟨rfl, rfl⟩

/-- The wait of the shell ends. -/
theorem sessionInv_wake {S : Session} {sys : Sys} {w : Wait}
    (h : SessionInv S) (hpc : S.pc = .waiting w)
    (hstep : step threadJoin S.sys (.resume w) = some sys) :
    SessionInv { S with sys, pc := .prompt } := by
  obtain ⟨due, h, howes⟩ := h
  rw [hpc] at howes
  obtain ⟨hone, rfl, hc, haw⟩ := howes
  obtain ⟨hst, k', hr, rfl⟩ := resume_cases h.noPtrace hstep
  refine ⟨none, h.reaped hc haw (Or.inr hst) hr, ?_, rfl⟩
  show S.sys.waits.erase w = []
  rw [hone, List.erase_cons_head]

/-- A new state for one process that runs its program, or one that is
neither `WAITING` nor `ZOMBIE`. -/
theorem sessionInv_state {S : Session} {p : Ref} {f : Pcb → Pcb}
    (on : Bool) {calls : List Call} (h : SessionInv S)
    (hf : ∀ pcb, (f pcb).pid = pcb.pid ∧ (f pcb).parent = pcb.parent
      ∧ (f pcb).ptracePendingReq = pcb.ptracePendingReq)
    (hst : (S.code p).runs = false → p ≠ 0 → ∀ pcb,
      (f pcb).state ≠ .WAITING ∧ (f pcb).state ≠ .ZOMBIE)
    (hcalls : ∀ r, .resetRootPgtable r true ∉ calls) :
    SessionInv { S with
      sys := { S.sys with
        k := (S.sys.k.setIrq on).setPcb p f
        trace := S.sys.trace ++ calls } } := by
  obtain ⟨due, h, howes⟩ := h
  have hpcb : ∀ r, (((S.sys.k.setIrq on).setPcb p f).pcb r).pid
        = (S.sys.k.pcb r).pid
      ∧ (((S.sys.k.setIrq on).setPcb p f).pcb r).parent
        = (S.sys.k.pcb r).parent
      ∧ (((S.sys.k.setIrq on).setPcb p f).pcb r).ptracePendingReq
        = (S.sys.k.pcb r).ptracePendingReq := by
    intro r
    rw [setPcb_pcb]
    split
    · exact hf _
    · exact ⟨rfl, rfl, rfl⟩
  refine ⟨due, h.same rfl rfl rfl hpcb ?_ fun r => ?_, ?_⟩
  · intro r hruns h0 hearly
    rw [setPcb_pcb]
    split
    next heq =>
      subst heq
      exact hst hruns h0 _
    next => exact hearly
  · rw [List.count_append, List.count_eq_zero.mpr (hcalls r), Nat.add_zero]
  · exact howes.kept rfl (Nat.le_refl _) (fun r _ => (hpcb r).1)
      fun _ _ => rfl

theorem sessionInv_step {S S' : Session} {a : SessionAct}
    (h : SessionInv S) (hfew : S.sys.k.nextRef < 4294967295)
    (hstep : sessionStep threadJoin S a = some S') : SessionInv S' := by
  cases a with
  | line line =>
      simp only [sessionStep] at hstep
      split at hstep
      next hpc =>
        obtain ⟨start, -, hstep⟩ := Option.bind_eq_some_iff.mp hstep
        cases start with
        | none =>
            cases hstep
            exact h
        | some s =>
            obtain ⟨⟨sys, ret⟩, hfork, rfl⟩ :=
              Option.map_eq_some_iff.mp hstep
            obtain ⟨due, h, howes⟩ := h
            rw [hpc] at howes
            obtain ⟨hnone, rfl⟩ := howes
            exact sessionInv_line s h hnone hfork
      next => cases hstep
  | waitpid =>
      simp only [sessionStep] at hstep
      split at hstep
      next hpc =>
        obtain ⟨sys, hsys, rfl⟩ := Option.map_eq_some_iff.mp hstep
        exact sessionInv_waitpid h hfew hpc hsys
      next => cases hstep
  | wake =>
      simp only [sessionStep] at hstep
      split at hstep
      next hpc =>
        obtain ⟨sys, hsys, rfl⟩ := Option.map_eq_some_iff.mp hstep
        exact sessionInv_wake h hpc hsys
      next => cases hstep
  | fork2 c =>
      simp only [sessionStep] at hstep
      split at hstep
      next hcode =>
        split at hstep
        next hpipe =>
          obtain ⟨⟨sys, ret⟩, hfork, rfl⟩ := Option.map_eq_some_iff.mp hstep
          exact sessionInv_fork2 h hcode hpipe hfork
        next => cases hstep
      next => cases hstep
  | exit c status =>
      simp only [sessionStep] at hstep
      split at hstep
      next hruns =>
        obtain ⟨sys, hsys, rfl⟩ := Option.map_eq_some_iff.mp hstep
        rw [exit_cases hsys]
        refine sessionInv_state false h (fun _ => ⟨rfl, rfl, rfl⟩) ?_ (by simp)
        intro hno
        rw [hruns] at hno
        cases hno
      next => cases hstep
  | sched p st =>
      simp only [sessionStep] at hstep
      split at hstep
      next hblocks =>
        obtain ⟨sys, hsys, rfl⟩ := Option.map_eq_some_iff.mp hstep
        obtain ⟨hzombie, rfl⟩ := sched_cases hsys
        have hsame : S.sys.trace = S.sys.trace ++ [] :=
          (List.append_nil _).symm
        rw [hsame]
        refine sessionInv_state S.sys.k.irqEnabled h
          (fun _ => ⟨rfl, rfl, rfl⟩) ?_ (by simp)
        intro hno h0 _
        refine ⟨fun hst => ?_, hzombie⟩
        rcases hblocks hst with heq | hruns
        · exact h0 heq
        · rw [hno] at hruns
          cases hruns
      next => cases hstep

-- ======================================================================= a run

theorem sessionInv_init (P : Platform) : SessionInv (Session.init P) := by
  refine ⟨none, ?_, rfl, rfl⟩
  have hone : ∀ r, r < (Session.init P).sys.k.nextRef → r = 0 :=
    fun r hr => Nat.lt_one_iff.mp hr
  constructor
  case noPtrace => exact fun r => (init_pcb P r).1
  case numbered => exact numbered_init P
  case nodup => exact (listed_init P).nodup
  case shell => exact ⟨Nat.one_pos, rfl⟩
  case fresh => exact fun _ _ => rfl
  case members =>
    intro r
    constructor
    · intro hr
      exact ⟨(numbered_init P).old r hr, Or.inl rfl⟩
    · intro hr
      rw [hone r hr.1]
      exact List.mem_cons_self
  case parent =>
    intro r hr q hq
    have hnone := (init_pcb P r).2.1
    exact absurd (hq.symm.trans hnone) (by simp)
  case second => exact fun _ _ h => nomatch h
  case early => exact fun r _ h0 hr => absurd (hone r hr) h0
  case freed =>
    intro r
    have hzero : (Sys.init P).trace.count (.resetRootPgtable r true) = 0 := by
      rw [List.count_eq_zero]
      simp [Sys.init, createRootProcess]
    exact hzero

/-- The step leaves a process behind: the start of a command in the
background or of a pipeline, and the fork of its second process. -/
def SessionAct.leaves : SessionAct → Bool
  | .line str =>
      match startsOn str with
      | some (some s) => s.background || s.pipeOn
      | _ => false
  | .fork2 _ => true
  | _ => false

/-- What a step does to the code of the processes. -/
inductive Codes (S S' : Session) (a : SessionAct) : Prop
  | same : S'.sys.k.nextRef = S.sys.k.nextRef → S'.code = S.code →
      a.leaves = false → Codes S S' a
  | child (s : Split) : S'.sys.k.nextRef = S.sys.k.nextRef + 1 →
      S'.code = Function.update S.code S.sys.k.nextRef (.child s false) →
      a.leaves = (s.background || s.pipeOn) → Codes S S' a
  | child2 (c : Ref) (s : Split) : S.code c = .child s false →
      S'.sys.k.nextRef = S.sys.k.nextRef + 1 →
      S'.code = Function.update (Function.update S.code c (.child s true))
        S.sys.k.nextRef .child2 →
      a.leaves = true → Codes S S' a

/-- Only a fork creates a process. -/
theorem nextRef_of_not_fork {s s' : Sys} {b : Act}
    (hb : ∀ p t, b ≠ .fork p t) (hstep : step threadJoin s b = some s') :
    s'.k.nextRef = s.k.nextRef := by
  have htraced : tracedStep threadJoin s (.act b) = some s' := hstep
  cases tracedStep_taken threadJoin htraced with
  | quiet hq => exact hq.nextRef
  | forked _ _ _ => exact absurd rfl (hb _ _)
  | exited _ => rfl
  | scheduled _ _ => rfl
  | woken _ _ _ => rfl

theorem sessionStep_codes {S S' : Session} {a : SessionAct}
    (hstep : sessionStep threadJoin S a = some S') : Codes S S' a := by
  cases a with
  | line line =>
      simp only [sessionStep] at hstep
      split at hstep
      next =>
        obtain ⟨start, hstart, hstep⟩ := Option.bind_eq_some_iff.mp hstep
        cases start with
        | none =>
            cases hstep
            exact .same rfl rfl (by simp [SessionAct.leaves, hstart])
        | some s =>
            obtain ⟨⟨sys, ret⟩, h, rfl⟩ := Option.map_eq_some_iff.mp hstep
            exact .child s (forkBy_some h).1.nextRef rfl
              (by simp [SessionAct.leaves, hstart])
      next => cases hstep
  | waitpid | wake =>
      simp only [sessionStep] at hstep
      split at hstep
      next =>
        obtain ⟨sys, h, rfl⟩ := Option.map_eq_some_iff.mp hstep
        exact .same (nextRef_of_not_fork (by simp) h) rfl rfl
      next => cases hstep
  | fork2 c =>
      simp only [sessionStep] at hstep
      split at hstep
      next hcode =>
        split at hstep
        next =>
          obtain ⟨⟨sys, ret⟩, h, rfl⟩ := Option.map_eq_some_iff.mp hstep
          exact .child2 c _ hcode (forkBy_some h).1.nextRef rfl rfl
        next => cases hstep
      next => cases hstep
  | exit c status | sched p st =>
      simp only [sessionStep] at hstep
      split at hstep
      next =>
        obtain ⟨sys, h, rfl⟩ := Option.map_eq_some_iff.mp hstep
        exact .same (nextRef_of_not_fork (by simp) h) rfl rfl
      next => cases hstep

/-- How many of the processes are not reclaimed. -/
def kept (S : Session) : Nat :=
  (List.range S.sys.k.nextRef).countP fun r => !(S.code r).reclaimed

theorem kept_succ {S S' : Session}
    (href : S'.sys.k.nextRef = S.sys.k.nextRef + 1)
    (hcode : ∀ r, r < S.sys.k.nextRef →
      (S'.code r).reclaimed = (S.code r).reclaimed) :
    kept S' = kept S
      + (!(S'.code S.sys.k.nextRef).reclaimed).toNat := by
  have hold : (List.range S.sys.k.nextRef).countP
      (fun r => !(S'.code r).reclaimed) = kept S := by
    refine List.countP_congr fun r hr => ?_
    rw [hcode r (List.mem_range.mp hr)]
  rw [kept, href, List.range_succ, List.countP_append, hold,
    List.countP_singleton]
  cases (S'.code S.sys.k.nextRef).reclaimed <;> rfl

theorem kept_step {S S' : Session} {a : SessionAct}
    (hstep : sessionStep threadJoin S a = some S') :
    kept S' = kept S + a.leaves.toNat := by
  cases sessionStep_codes hstep with
  | same href hcode hleaves =>
      rw [kept, href, hcode, hleaves]
      rfl
  | child s href hcode hleaves =>
      rw [kept_succ href fun r hr => ?_]
      · rw [hcode, Function.update_self, hleaves]
        simp [Code.reclaimed]
      · rw [hcode, Function.update_of_ne hr.ne]
  | child2 c s hc href hcode hleaves =>
      rw [kept_succ href fun r hr => ?_]
      · rw [hcode, Function.update_self, hleaves]
        rfl
      · rw [hcode, Function.update_of_ne hr.ne]
        by_cases hrc : r = c
        · rw [hrc, Function.update_self, hc]
          rfl
        · rw [Function.update_of_ne hrc]

/-- In every session of fewer than 2^32 - 1 processes, whatever the
interleaving: at the prompt the list holds every process ever created but
the foreground children that started a single program, and the page tables
freed, each of them once, are those of the foreground children. So the
list has grown by one for each command in the background and by two for
each pipeline. -/
theorem session_leaves (P : Platform) (acts : List SessionAct) (S : Session)
    (hrun : run (sessionStep threadJoin) (Session.init P) acts = some S)
    (hfew : S.sys.k.nextRef < 4294967295) (hprompt : S.pc = .prompt) :
    (∀ r, r ∈ S.sys.k.procList
        ↔ r < S.sys.k.nextRef ∧ (S.code r).reclaimed = false)
      ∧ (∀ r, freed S.sys r = if (S.code r).awaited then 1 else 0)
      ∧ S.sys.k.procList.length
        = 1 + acts.countP SessionAct.leaves := by
  have hinv : S.sys.k.nextRef < 4294967295 → SessionInv S := by
    refine run_inv (I := fun S : Session =>
      S.sys.k.nextRef < 4294967295 → SessionInv S) ?_
      (fun _ => sessionInv_init P) hrun
    intro S a S' h hstep hfew
    have hle : S.sys.k.nextRef ≤ S'.sys.k.nextRef := by
      cases sessionStep_codes hstep with
      | same href _ _ => exact href.ge
      | child _ href _ _ => exact href ▸ Nat.le_succ _
      | child2 _ _ _ href _ _ => exact href ▸ Nat.le_succ _
    have hfew' := Nat.lt_of_le_of_lt hle hfew
    exact sessionInv_step (h hfew') hfew' hstep
  obtain ⟨due, h, howes⟩ := hinv hfew
  rw [hprompt] at howes
  obtain ⟨-, rfl⟩ := howes
  have hmembers : ∀ r, r ∈ S.sys.k.procList
      ↔ r < S.sys.k.nextRef ∧ (S.code r).reclaimed = false := by
    intro r
    rw [h.members, or_iff_left]
    exact fun hno => nomatch hno
  refine ⟨hmembers, fun r => ?_, ?_⟩
  · rw [freed, h.freed]
    simp
  · have hkept : kept S = kept (Session.init P)
        + acts.countP SessionAct.leaves :=
      run_count (I := fun _ => True) (f := kept) (p := SessionAct.leaves)
        (fun _ _ _ _ _ => trivial) (fun _ _ _ _ hst => kept_step hst)
        trivial hrun
    have hone : kept (Session.init P) = 1 := rfl
    have hperm : S.sys.k.procList.Perm
        ((List.range S.sys.k.nextRef).filter
          fun r => !(S.code r).reclaimed) := by
      refine (List.perm_ext_iff_of_nodup h.nodup
        (List.nodup_range.filter _)).mpr fun r => ?_
      rw [hmembers, List.mem_filter, List.mem_range, Bool.not_eq_true']
    rw [hperm.length_eq, ← List.countP_eq_length_filter]
    exact hone ▸ hkept

/-- The commands `a &` and `b | c`, and the end of all three programs. -/
theorem session_leaves_three :
    ∃ S, run (sessionStep fun _ => none) (Session.init .sample)
        [.line ['a', ' ', '&'], .exit 1 0,
          .line ['b', ' ', '|', ' ', 'c'], .waitpid, .fork2 2, .exit 3 0,
          .exit 2 0, .wake] = some S
      ∧ S.sys.k.procList.length = 4 ∧ 3 ∈ S.sys.k.procList
      ∧ freed S.sys 3 = 0 := by
  have hrun : ∃ S, run (sessionStep fun _ => none) (Session.init .sample)
        [.line ['a', ' ', '&'], .exit 1 0,
          .line ['b', ' ', '|', ' ', 'c'], .waitpid, .fork2 2, .exit 3 0,
          .exit 2 0, .wake] = some S
      ∧ S.sys.k.nextRef = 4 ∧ S.pc = .prompt ∧ S.code 3 = .child2 :=
    ⟨_, rfl, rfl, rfl, rfl⟩
  obtain ⟨S, hS, href, hpc, hcode⟩ := hrun
  obtain ⟨hmembers, hfreed, hlength⟩ :=
    session_leaves .sample _ S hS (by rw [href]; decide) hpc
  refine ⟨S, hS, hlength.trans rfl, (hmembers 3).mpr ?_, ?_⟩
  · rw [href, hcode]
    exact ⟨by decide, rfl⟩
  · rw [hfreed, hcode]
    rfl

end SyeLabs.Shell
