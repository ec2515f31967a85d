/-
The server and its clients together.

# The system

Any number of clients run the loop of socket_client.c against one server
running that of socket_server.c. A connection carries the messages of the
client one way and the replies the other, first in first out; the server
serves one connection at a time, and the others wait. A run interleaves
the steps of the clients, the signals they get and the steps of the
server in an arbitrary order.

A client writes 80 bytes of which the text and its NUL are what the loop
put there and the rest is whatever the buffer held, so the step that
writes takes any message with that text. A read returns a whole message:
what becomes of the promise when it does not is a matter of one
connection and not of this file. A read that fails, and the end of the
stream, are one step, which needs a client that has left its loop; the
server closes the connection then, and closes all of them when it leaves
its own. A `recv` on a connection that the server has closed returns
without a reply.

# What is shown

The client does not look at what `recv` returns, and the server answers
whatever it reads, so that the two stay in step is a matter of the client
never writing while a reply is due (`Exchange`). A signal at the wrong
moment breaks that: a client that wrote Quitter and is then asked for a
greeting waits for a reply that does not come, and writes on. But it does
so on a closed connection, where no reply can be taken for another
(`Lost`).
-/
import Mathlib.Data.List.Induction
import SyeLabs.Sockets.Client
import SyeLabs.Sockets.Framing

namespace SyeLabs.Sockets

open Lib

-- ================================================================== the system

/-- What the server has made of a connection. -/
inductive Peer
  | pending
  | accepted
  | closed
  deriving DecidableEq, Repr

/-- A client and its connection. What was written and received is
recorded. -/
structure Endpoint where
  loop : Loop
  up : List Message
  down : List (List Byte)
  peer : Peer
  written : List Message
  received : List (List Byte)

def Endpoint.init : Endpoint where
  loop := Loop.init
  up := []
  down := []
  peer := .pending
  written := []
  received := []

/-- A step of a client: a `write` is told what is written. -/
inductive ClientAct
  | go
  | signal (sig : Signal)
  | write (m : Message)

/-- The client is done with its `recv`, of the reply `r` if there was
one. -/
def Endpoint.receive (e : Endpoint) (r : Option (List Byte)) :
    Option Endpoint :=
  (loopStep e.loop .go).map fun loop =>
    { e with
      loop := loop, down := e.down.tail
      received := e.received ++ r.toList }

def clientStep (e : Endpoint) : ClientAct → Option Endpoint
  | .signal sig =>
      (loopStep e.loop (.signal sig)).map fun loop => { e with loop := loop }
  | .write m =>
      if e.loop.pc = .write ∧ m.text = e.loop.buffer then
        (loopStep e.loop .go).map fun loop =>
          { e with
            loop := loop, up := e.up ++ [m], written := e.written ++ [m] }
      else none
  | .go =>
      if e.loop.pc = .write then none
      else if e.loop.pc = .recv then
        -- `recv` waits for a reply or the end of the stream
        if e.down = [] ∧ e.peer ≠ .closed then none
        else e.receive e.down.head?
      else (loopStep e.loop .go).map fun loop => { e with loop := loop }

/-- Where the server stands: in `accept`, in `read`, before the `write`,
after the loop. -/
inductive ServerPc
  | accept
  | read (c : Nat)
  | write (c : Nat) (reply : List Byte)
  | exited
  deriving DecidableEq

/-- The system. What the server has read, and from whom, is recorded. -/
structure Session where
  server : Server
  pc : ServerPc
  ends : Nat → Endpoint
  served : List (Nat × Message)

def Session.init : Session where
  server := Server.init
  pc := .accept
  ends := fun _ => Endpoint.init
  served := []

inductive SessionAct
  | client (c : Nat) (a : ClientAct)
  | accept (c : Nat)
  | read
  | hangUp
  | write

def Session.setEnd (s : Session) (c : Nat) (e : Endpoint) : Session :=
  { s with ends := Function.update s.ends c e }

/-- The server has read message `m` of client `c`. -/
def Session.serve (ip : Nat → List Byte) (s : Session) (c : Nat)
    (m : Message) : Session :=
  match handle (ip c) s.server m.bytes with
  | (some reply, server) =>
      { s with
        server := server, pc := .write c reply
        served := s.served ++ [(c, m)] }
  | (none, server) =>
      { server := server, pc := .exited
        ends := fun d => { s.ends d with peer := .closed }
        served := s.served ++ [(c, m)] }

def sessionStep (ip : Nat → List Byte) (s : Session) :
    SessionAct → Option Session
  | .client c a => (clientStep (s.ends c) a).map (s.setEnd c)
  | .accept c =>
      if s.pc = .accept ∧ (s.ends c).peer = .pending then
        some { s.setEnd c { s.ends c with peer := .accepted } with
          pc := .read c }
      else none
  | .read =>
      match s.pc with
      | .read c =>
          match (s.ends c).up with
          | [] => none
          | m :: up =>
              some ((s.setEnd c { s.ends c with up := up }).serve ip c m)
      | _ => none
  | .hangUp =>
      match s.pc with
      | .read c =>
          if (s.ends c).loop.pc = .exited then
            some { s.setEnd c { s.ends c with peer := .closed } with
              pc := .accept }
          else none
      | _ => none
  | .write =>
      match s.pc with
      | .write c reply =>
          some { s.setEnd c
              { s.ends c with down := (s.ends c).down ++ [reply] } with
            pc := .read c }
      | _ => none

-- ================================================================= the promise

/-- The server over messages: a Quitter message has no reply, and the
value of the counter goes to the client that asks for it. -/
def sessionAnswer (ip : Nat → List Byte) (k : Nat) (x : Nat × Message) :
    Option (Nat × List Byte) × Nat :=
  if x.2.IsQuitter then (none, k)
  else
    (some (x.1, x.2.reply (ip x.1) (BitVec.ofNat 32 k + 1).toInt),
      (answer (ip x.1) k x.2).2)

/-- A reply, if it is one to client `c`. -/
def replyFor (c : Nat) : Option (Nat × List Byte) → Option (List Byte)
  | some (d, r) => if d = c then some r else none
  | none => none

/-- The replies to client `c`. -/
def repliesTo (ip : Nat → List Byte) (c : Nat) (xs : List (Nat × Message)) :
    List (List Byte) :=
  (answers (sessionAnswer ip) 0 xs).filterMap (replyFor c)

/-- The messages of client `c`. -/
def readFrom (c : Nat) (xs : List (Nat × Message)) : List Message :=
  xs.filterMap fun x => if x.1 = c then some x.2 else none

/-- How many of the messages ask for the counter. -/
def counted (xs : List (Nat × Message)) : Nat :=
  xs.countP fun x => x.2.text = compteur

/-- The server and the clients are in step. -/
structure InStep (ip : Nat → List Byte) (s : Session) : Prop where
  /-- The messages of a client are read in the order they are written. -/
  delivered : ∀ c, readFrom c s.served <+: (s.ends c).written
  /-- What a client receives are the replies to them, in that order. -/
  answered : ∀ c, (s.ends c).received <+: repliesTo ip c s.served
  /-- A reply that waits for a client answers the last message it has
  written. -/
  lockstep : ∀ c, (s.ends c).down ≠ [] →
    (s.ends c).down.length = 1
      ∧ (s.ends c).written.length = (s.ends c).received.length + 1
      ∧ readFrom c s.served = (s.ends c).written
      ∧ (s.ends c).received ++ (s.ends c).down = repliesTo ip c s.served
  /-- The n-th Compteur message, whoever sends it, is answered with n. -/
  counts : ∀ pre c m post, s.served = pre ++ (c, m) :: post →
    m.text = compteur → counted pre + 1 < 2147483648 →
    (answers (sessionAnswer ip) 0 s.served)[pre.length]?
      = some (some (c, snprintf (valeur ++ decimal (counted pre + 1))))
  /-- The server has left exactly if the last message it read is a Quitter
  message; no other one is. -/
  stops : (s.pc = .exited ↔ ∃ x ∈ s.served, x.2.IsQuitter)
    ∧ ∀ pre x post, s.served = pre ++ x :: post → x.2.IsQuitter → post = []

-- ======================================================= the server's sequence

theorem repliesTo_concat (ip : Nat → List Byte) (c : Nat)
    (xs : List (Nat × Message)) (x : Nat × Message) :
    repliesTo ip c (xs ++ [x]) = repliesTo ip c xs
      ++ (replyFor c (sessionAnswer ip (after (sessionAnswer ip) 0 xs)
        x).1).toList := by
  rw [repliesTo, answers_append, List.filterMap_append, ← repliesTo, answers,
    answers]
  cases hr : replyFor c (sessionAnswer ip (after (sessionAnswer ip) 0 xs)
    x).1 with
  | none => rw [List.filterMap_cons_none hr]; rfl
  | some r => rw [List.filterMap_cons_some hr]; rfl

theorem readFrom_concat (c : Nat) (xs : List (Nat × Message)) (d : Nat)
    (m : Message) :
    readFrom c (xs ++ [(d, m)])
      = readFrom c xs ++ if d = c then [m] else [] := by
  rw [readFrom, List.filterMap_append, ← readFrom]
  congr 1
  by_cases hd : d = c
  · simp [hd]
  · simp [hd]

/-- No message has two replies. -/
theorem repliesTo_length_le (ip : Nat → List Byte) (c : Nat)
    (xs : List (Nat × Message)) :
    (repliesTo ip c xs).length ≤ (readFrom c xs).length := by
  induction xs using List.reverseRecOn with
  | nil => exact Nat.le_refl 0
  | append_singleton xs x ih =>
      obtain ⟨d, m⟩ := x
      rw [repliesTo_concat, readFrom_concat, List.length_append,
        List.length_append]
      refine Nat.add_le_add ih ?_
      by_cases hd : d = c
      · rw [if_pos hd]
        exact Option.length_toList_le
      · have hnone : replyFor c (sessionAnswer ip
            (after (sessionAnswer ip) 0 xs) (d, m)).1 = none := by
          unfold sessionAnswer
          split
          · rfl
          · exact if_neg hd
        rw [hnone]
        exact Nat.zero_le _

theorem counted_concat (xs : List (Nat × Message)) (x : Nat × Message) :
    counted (xs ++ [x])
      = counted xs + if x.2.text = compteur then 1 else 0 := by
  simp [counted, List.countP_append, List.countP_singleton]

/-- The counter is the number of messages that asked for it. -/
theorem after_sessionAnswer (ip : Nat → List Byte)
    (xs : List (Nat × Message)) :
    after (sessionAnswer ip) 0 xs = counted xs := by
  induction xs using List.reverseRecOn with
  | nil => rfl
  | append_singleton xs x ih =>
      rw [after_append, ih, counted_concat, after, after, sessionAnswer]
      by_cases hq : x.2.IsQuitter
      · have hc : ¬ x.2.text = compteur := by
          rw [hq]
          decide
        rw [if_pos hq, if_neg hc]
        rfl
      · rw [if_neg hq, answer]
        dsimp only
        split <;> rfl

/-- A Compteur message is answered with its number. -/
theorem compteur_numbered (ip : Nat → List Byte)
    {pre post : List (Nat × Message)} {c : Nat} {m : Message}
    (hm : m.text = compteur) (hcount : counted pre + 1 < 2147483648) :
    (answers (sessionAnswer ip) 0 (pre ++ (c, m) :: post))[pre.length]?
      = some (some (c, snprintf (valeur ++ decimal (counted pre + 1)))) := by
  have hq : ¬ (c, m).2.IsQuitter := by
    show ¬ m.text = quitter
    rw [hm]
    decide
  have hb : ¬ m.text = bonjour := by
    rw [hm]
    decide
  have ha : ¬ m.text = aurevoir := by
    rw [hm]
    decide
  have hnext : (answer (ip c) (counted pre) m).2 < 2147483648 := by
    rw [answer, if_pos hm]
    exact hcount
  have hk : counted pre < 2147483648 := by
    omega
  have hreply := (@reply_eq_iff m (ip c) _ hk).mpr hnext
  rw [answers_append, List.getElem?_append_right (length_answers _ pre).le,
    length_answers, Nat.sub_self, answers, List.getElem?_cons_zero,
    after_sessionAnswer, sessionAnswer, if_neg hq]
  dsimp only
  rw [hreply, Message.reply, if_neg hb, if_neg ha, if_pos hm]

-- ================================================================== one client

/-- From the `write` to the `recv`. -/
def Midway (pc : LoopPc) : Prop := pc = .zero ∨ pc = .reswitch ∨ pc = .recv

/-- A client that writes only while no reply is due. -/
structure Exchange (e : Endpoint) : Prop where
  midway : Midway e.loop.pc → e.written.length = e.received.length + 1
  ready : ¬ Midway e.loop.pc → e.loop.running = true →
    e.written.length = e.received.length
  most : e.written.length ≤ e.received.length + 1

/-- A client on a connection that brings no more replies. -/
def Lost (e : Endpoint) : Prop := e.peer = .closed ∧ e.down = []

structure EndInv (e : Endpoint) : Prop where
  loop : LoopInv e.loop
  exchange : Exchange e ∨ Lost e

theorem EndInv.init : EndInv Endpoint.init :=
  ⟨LoopInv.init, Or.inl ⟨by simp [Midway, Endpoint.init, Loop.init],
    fun _ _ => rfl, Nat.zero_le _⟩⟩

/-- The steps of `clientStep`. -/
inductive ClientSteps (e : Endpoint) : ClientAct → Endpoint → Prop
  | signal {loop : Loop} (sig : Signal)
      (h : loopStep e.loop (.signal sig) = some loop) :
      ClientSteps e (.signal sig) { e with loop := loop }
  | write {loop : Loop} (m : Message) (hpc : e.loop.pc = .write)
      (h : loopStep e.loop .go = some loop) :
      ClientSteps e (.write m)
        { e with
          loop := loop, up := e.up ++ [m], written := e.written ++ [m] }
  | receive {loop : Loop} (hpc : e.loop.pc = .recv)
      (hwait : e.down = [] → e.peer = .closed)
      (h : loopStep e.loop .go = some loop) :
      ClientSteps e .go
        { e with
          loop := loop, down := e.down.tail
          received := e.received ++ e.down.head?.toList }
  | go {loop : Loop} (hwrite : e.loop.pc ≠ .write)
      (hrecv : e.loop.pc ≠ .recv) (h : loopStep e.loop .go = some loop) :
      ClientSteps e .go { e with loop := loop }

theorem clientSteps_of_clientStep {e e' : Endpoint} {a : ClientAct}
    (h : clientStep e a = some e') : ClientSteps e a e' := by
  cases a with
  | signal sig =>
      rw [clientStep] at h
      obtain ⟨loop, hloop, rfl⟩ := Option.map_eq_some_iff.mp h
      exact .signal sig hloop
  | write m =>
      simp only [clientStep] at h
      split at h
      next hm =>
        obtain ⟨loop, hloop, rfl⟩ := Option.map_eq_some_iff.mp h
        exact .write m hm.1 hloop
      next => cases h
  | go =>
      simp only [clientStep] at h
      split at h
      next => cases h
      next hwrite =>
        split at h
        next hrecv =>
          split at h
          next => cases h
          next hwait =>
            obtain ⟨loop, hloop, rfl⟩ := Option.map_eq_some_iff.mp h
            exact .receive hrecv
              (fun hd => not_not.mp fun hp => hwait ⟨hd, hp⟩) hloop
        next hrecv =>
          obtain ⟨loop, hloop, rfl⟩ := Option.map_eq_some_iff.mp h
          exact .go hwrite hrecv hloop

/-- A step of the loop that writes and receives nothing. -/
theorem Exchange.move {e : Endpoint} {loop : Loop} (h : Exchange e)
    (hmid : Midway loop.pc → Midway e.loop.pc)
    (hready : ¬ Midway loop.pc → loop.running = true →
      ¬ Midway e.loop.pc ∧ e.loop.running = true) :
    Exchange { e with loop := loop } :=
  ⟨fun hm => h.midway (hmid hm),
    fun hm hr => h.ready (hready hm hr).1 (hready hm hr).2, h.most⟩

/-- A step of the loop outside `write` and `recv`. -/
theorem Exchange.go {e : Endpoint} {loop : Loop} (h : Exchange e)
    (hloop : LoopInv e.loop) (hwrite : e.loop.pc ≠ .write)
    (hrecv : e.loop.pc ≠ .recv) (hstep : loopStep e.loop .go = some loop) :
    Exchange { e with loop := loop } := by
  have hout : ∀ {pc : LoopPc}, pc = .test ∨ pc = .switch ∨ pc = .write
      ∨ pc = .print ∨ pc = .reset ∨ pc = .exited → ¬ Midway pc := by
    unfold Midway
    rintro pc (rfl | rfl | rfl | rfl | rfl | rfl) <;> decide
  cases loopSteps_of_loopStep hstep with
  | enter hpc hrun =>
      exact h.move (fun hm => absurd hm (hout (by simp)))
        fun _ hr => ⟨hout (by simp [hpc]), hr⟩
  | exit hpc hrun =>
      exact h.move (fun hm => absurd hm (hout (by simp)))
        fun _ hr => ⟨hout (by simp [hpc]), hr⟩
  | prepare hpc =>
      refine h.move (fun hm => absurd hm (hout ?_))
        fun _ hr => ⟨hout (by simp [hpc]), Loop.prepare_running _ ▸ hr⟩
      rcases e.loop.prepare_pc with hp | hp
      · simp [hp]
      · simp [hp]
  | write hpc => exact absurd hpc hwrite
  | zero hpc =>
      exact h.move (fun _ => Or.inl hpc)
        fun hm _ => absurd (Or.inr (Or.inl rfl)) hm
  | answer hpc =>
      -- there is a request, so the loop calls `recv` or stops running
      obtain ⟨r, -, hm, -⟩ := hloop.late (by simp [hpc, Early])
        (by simp [hpc])
      rw [Loop.answer_some hm]
      split
      · exact h.move (fun hm => absurd hm (hout (by simp)))
          fun _ hr => absurd hr (by simp)
      · exact h.move (fun _ => Or.inr (Or.inl hpc))
          fun hm _ => absurd (Or.inr (Or.inr rfl)) hm
  | recv hpc => exact absurd hpc hrecv
  | print hpc =>
      exact h.move (fun hm => absurd hm (hout (by simp)))
        fun _ hr => ⟨hout (by simp [hpc]), hr⟩
  | reset hpc =>
      exact h.move (fun hm => absurd hm (hout (by simp)))
        fun _ hr => ⟨hout (by simp [hpc]), hr⟩

/-- Every step of a client keeps its invariant. -/
theorem EndInv.clientStep {e e' : Endpoint} {a : ClientAct} (h : EndInv e)
    (hstep : Sockets.clientStep e a = some e') : EndInv e' := by
  cases clientSteps_of_clientStep hstep with
  | signal sig hloop =>
      refine ⟨loopInv_step h.loop hloop, h.exchange.imp_left fun hx => ?_⟩
      cases hloop
      exact ⟨hx.midway, hx.ready, hx.most⟩
  | write m hpc hloop =>
      refine ⟨loopInv_step h.loop hloop, h.exchange.imp_left fun hx => ?_⟩
      have hrun := h.loop.running (Or.inr (Or.inl hpc))
      have hlen := hx.ready (by simp [Midway, hpc]) hrun
      simp only [loopStep, hpc, Option.some.injEq] at hloop
      subst hloop
      refine ⟨fun _ => ?_, fun hm => absurd (Or.inl rfl) hm, ?_⟩
      · simp [hlen]
      · simp [hlen]
  | receive hpc hwait hloop =>
      refine ⟨loopInv_step h.loop hloop, ?_⟩
      rcases h.exchange with hx | hlost
      · cases hd : e.down with
        | nil => exact Or.inr ⟨hwait hd, rfl⟩
        | cons r rest =>
            have hlen := hx.midway (Or.inr (Or.inr hpc))
            refine Or.inl ⟨fun hm => ?_, fun _ _ => ?_, ?_⟩
            · simp only [loopStep, hpc, Option.some.injEq] at hloop
              subst hloop
              simp [Midway] at hm
            · simp [hlen]
            · simp [hlen]
      · exact Or.inr ⟨hlost.1, by simp [hlost.2]⟩
  | go hwrite hrecv hloop =>
      exact ⟨loopInv_step h.loop hloop,
        h.exchange.imp_left fun hx => hx.go h.loop hwrite hrecv hloop⟩

-- ================================================================== the server

variable {ip : Nat → List Byte} {s s' : Session}

/-- The reply the server is about to write to client `c`. -/
def ServerPc.due (c : Nat) : ServerPc → List (List Byte)
  | .write d r => if d = c then [r] else []
  | _ => []

/-- The server serves connection `c`. -/
def ServerPc.Serves (c : Nat) : ServerPc → Prop
  | .read d | .write d _ => d = c
  | _ => False

/-- The invariant of the system. -/
structure SessionInv (ip : Nat → List Byte) (s : Session) : Prop where
  ends : ∀ c, EndInv (s.ends c)
  buffer : s.server.buffer.length = bufferLen
  counter : s.server.counter = BitVec.ofNat 32 (counted s.served)
  reads : ∀ c, readFrom c s.served ++ (s.ends c).up = (s.ends c).written
  replies : ∀ c, (s.ends c).received ++ (s.ends c).down ++ s.pc.due c
    = repliesTo ip c s.served
  serving : ∀ c, s.pc.Serves c → (s.ends c).peer = .accepted
  runs : s.pc ≠ .exited → ∀ x ∈ s.served, ¬ x.2.IsQuitter
  left : s.pc = .exited → ∃ xs x, s.served = xs ++ [x] ∧ x.2.IsQuitter
    ∧ ∀ y ∈ xs, ¬ y.2.IsQuitter

theorem SessionInv.init : SessionInv ip Session.init where
  ends := fun _ => EndInv.init
  buffer := rfl
  counter := rfl
  reads := fun _ => rfl
  replies := fun _ => rfl
  serving := nofun
  runs := nofun
  left := nofun

/-- A change of one endpoint. -/
theorem Session.setEnd_ends (s : Session) (c d : Nat) (e : Endpoint) :
    (s.setEnd c e).ends d = if d = c then e else s.ends d := by
  simp [Session.setEnd, Function.update_apply]

/-- A step of a client moves only its own messages. -/
theorem ClientSteps.moves {e e' : Endpoint} {a : ClientAct}
    (h : ClientSteps e a e') :
    e'.peer = e.peer ∧ e'.received ++ e'.down = e.received ++ e.down
      ∧ ∃ ms, e'.up = e.up ++ ms ∧ e'.written = e.written ++ ms := by
  cases h with
  | signal sig _ => exact ⟨rfl, rfl, [], by simp, by simp⟩
  | write m _ _ => exact ⟨rfl, rfl, [m], rfl, rfl⟩
  | receive _ _ _ =>
      refine ⟨rfl, ?_, [], by simp, by simp⟩
      cases e.down with
      | nil => simp
      | cons r rest => simp
  | go _ _ _ => exact ⟨rfl, rfl, [], by simp, by simp⟩

theorem SessionInv.client {c : Nat} {a : ClientAct} {e : Endpoint}
    (h : SessionInv ip s) (hstep : clientStep (s.ends c) a = some e) :
    SessionInv ip (s.setEnd c e) := by
  obtain ⟨hpeer, hdown, ms, hup, hwritten⟩ :=
    (clientSteps_of_clientStep hstep).moves
  refine ⟨fun d => ?_, h.buffer, h.counter, fun d => ?_, fun d => ?_,
    fun d hd => ?_, h.runs, h.left⟩
  all_goals
    rw [Session.setEnd_ends]
    by_cases hdc : d = c
  · rw [if_pos hdc]
    exact (h.ends c).clientStep hstep
  · rw [if_neg hdc]
    exact h.ends d
  · subst hdc
    rw [if_pos rfl, hup, hwritten, ← h.reads d, List.append_assoc]
    rfl
  · rw [if_neg hdc]
    exact h.reads d
  · subst hdc
    rw [if_pos rfl, hdown]
    exact h.replies d
  · rw [if_neg hdc]
    exact h.replies d
  · subst hdc
    rw [if_pos rfl, hpeer]
    exact h.serving d hd
  · rw [if_neg hdc]
    exact h.serving d hd

/-- The server goes on to another place in its loop, with other peers and
no message moved. -/
theorem SessionInv.goto {pc : ServerPc} {c : Nat} {peer : Peer}
    (h : SessionInv ip s) (hpc : s.pc ≠ .exited) (hpc' : pc ≠ .exited)
    (hdue : ∀ d, s.pc.due d = []) (hdue' : ∀ d, pc.due d = [])
    (hserves : ∀ d, pc.Serves d → d = c ∧ peer = .accepted)
    (hlost : Lost (s.ends c) → peer = .closed) :
    SessionInv ip { s.setEnd c { s.ends c with peer := peer } with
      pc := pc } := by
  refine ⟨fun d => ?_, h.buffer, h.counter, fun d => ?_, fun d => ?_,
    fun d hd => ?_, fun _ => h.runs hpc, fun hp => absurd hp hpc'⟩
  · show EndInv ((s.setEnd c { s.ends c with peer := peer }).ends d)
    rw [Session.setEnd_ends]
    split
    · refine ⟨(h.ends c).loop, (h.ends c).exchange.imp (fun hx => ?_)
        fun hl => ⟨hlost hl, hl.2⟩⟩
      exact ⟨hx.midway, hx.ready, hx.most⟩
    · exact h.ends d
  · show readFrom d s.served
      ++ ((s.setEnd c { s.ends c with peer := peer }).ends d).up = _
    rw [Session.setEnd_ends]
    split
    next hdc => exact hdc ▸ h.reads d
    next => exact h.reads d
  · have hold := h.replies d
    rw [hdue] at hold
    show ((s.setEnd c { s.ends c with peer := peer }).ends d).received
      ++ ((s.setEnd c { s.ends c with peer := peer }).ends d).down
      ++ pc.due d = _
    rw [Session.setEnd_ends, hdue']
    split
    next hdc => exact hdc ▸ hold
    next => exact hold
  · obtain ⟨rfl, hp⟩ := hserves d hd
    show ((s.setEnd d { s.ends d with peer := peer }).ends d).peer = _
    rw [Session.setEnd_ends, if_pos rfl]
    exact hp

/-- A Quitter message ends the server and all connections. -/
theorem Session.serve_quitter {c : Nat} {m : Message}
    (hbuffer : s.server.buffer.length = bufferLen) (hq : m.IsQuitter) :
    s.serve ip c m =
      { server := { s.server with running := false, buffer := m.bytes }
        pc := .exited
        ends := fun d => { s.ends d with peer := .closed }
        served := s.served ++ [(c, m)] } := by
  have hread := readInto_whole hbuffer m.length_eq
  have hstop : strcmp quitter (readInto s.server.buffer m.bytes) = 0 := by
    rw [hread]
    exact (strcmp_eq_zero_iff (chars_ne_zero (by simp))).mpr hq
  rw [Session.serve, handle_quit hstop, hread]

/-- Any other message is answered. -/
theorem Session.serve_reply {c k : Nat} {m : Message}
    (hbuffer : s.server.buffer.length = bufferLen)
    (hk : s.server.counter = BitVec.ofNat 32 k) (hq : ¬ m.IsQuitter) :
    s.serve ip c m =
      { s with
        server := { s.server with
          buffer := m.reply (ip c) (BitVec.ofNat 32 k + 1).toInt
          counter := BitVec.ofNat 32 (answer (ip c) k m).2 }
        pc := .write c (m.reply (ip c) (BitVec.ofNat 32 k + 1).toInt)
        served := s.served ++ [(c, m)] } := by
  rw [Session.serve, handle_whole (ip c) hbuffer hk hq]

/-- The server takes a message off a connection and deals with it. -/
theorem SessionInv.read {t : Session} {c : Nat} {m : Message}
    (h : SessionInv ip s) (hpc : s.pc = .read c)
    (hserver : t.server = s.server) (hserved : t.served = s.served)
    (hends : ∀ d, (t.ends d).loop = (s.ends d).loop
      ∧ (t.ends d).down = (s.ends d).down
      ∧ (t.ends d).peer = (s.ends d).peer
      ∧ (t.ends d).written = (s.ends d).written
      ∧ (t.ends d).received = (s.ends d).received)
    (hup : ∀ d, (s.ends d).up
      = (if c = d then [m] else []) ++ (t.ends d).up) :
    SessionInv ip (t.serve ip c m) := by
  have hruns := h.runs (by rw [hpc]; exact ServerPc.noConfusion)
  have hbuffer := hserver ▸ h.buffer
  have hcounter := hserver ▸ h.counter
  have hreads : ∀ d, readFrom d (t.served ++ [(c, m)]) ++ (t.ends d).up
      = (t.ends d).written := by
    intro d
    rw [readFrom_concat, hserved, (hends d).2.2.2.1, ← h.reads d, hup,
      List.append_assoc]
  have hinv : ∀ d, EndInv (t.ends d) := by
    intro d
    obtain ⟨hloop, hdown, hpeer, hwritten, hreceived⟩ := hends d
    refine ⟨hloop ▸ (h.ends d).loop, (h.ends d).exchange.imp (fun hx => ?_)
      fun hl => ⟨hpeer ▸ hl.1, hdown ▸ hl.2⟩⟩
    refine ⟨?_, ?_, ?_⟩
    all_goals
      rw [hwritten, hreceived]
    · exact hloop ▸ hx.midway
    · exact hloop ▸ hx.ready
    · exact hx.most
  have hkept : ∀ d, (t.ends d).received ++ (t.ends d).down
      = repliesTo ip d t.served := by
    intro d
    obtain ⟨-, hdown, -, -, hreceived⟩ := hends d
    have hold := h.replies d
    rw [hpc] at hold
    rw [hdown, hreceived, hserved, ← hold]
    exact (List.append_nil _).symm
  by_cases hq : m.IsQuitter
  · have hc : ¬ (c, m).2.text = compteur := by
      show ¬ m.text = compteur
      rw [hq]
      decide
    rw [Session.serve_quitter hbuffer hq]
    refine ⟨fun d => ?_, m.length_eq, ?_, hreads, fun d => ?_, nofun,
      fun hp => absurd rfl hp, fun _ => ⟨_, _, rfl, hq, hserved ▸ hruns⟩⟩
    · exact ⟨(hinv d).loop, (hinv d).exchange.imp
        (fun hx => ⟨hx.midway, hx.ready, hx.most⟩) fun hl => ⟨rfl, hl.2⟩⟩
    · dsimp only
      rw [counted_concat, if_neg hc, hcounter, hserved]
      rfl
    · dsimp only
      rw [repliesTo_concat, sessionAnswer, if_pos hq, ← hkept d]
      rfl
  · rw [Session.serve_reply hbuffer hcounter hq]
    refine ⟨hinv, reply_length _ _ _, ?_, hreads, fun d => ?_, fun d hd => ?_,
      fun _ => ?_, nofun⟩
    · dsimp only
      rw [counted_concat, answer, hserved]
      split <;> rfl
    · dsimp only
      rw [repliesTo_concat, after_sessionAnswer, sessionAnswer, if_neg hq,
        hkept d, hserved]
      congr 1
      by_cases hcd : c = d
      · simp [ServerPc.due, replyFor, hcd]
      · simp [ServerPc.due, replyFor, hcd]
    · obtain rfl : c = d := hd
      exact (hends c).2.2.1.trans (h.serving c (by rw [hpc]; rfl))
    · dsimp only
      rw [hserved]
      intro x hx
      rcases List.mem_append.mp hx with hx | hx
      · exact hruns x hx
      · rw [List.mem_singleton.mp hx]
        exact hq

/-- The server writes its reply. -/
theorem SessionInv.write {c : Nat} {reply : List Byte}
    (h : SessionInv ip s) (hpc : s.pc = .write c reply) :
    SessionInv ip { s.setEnd c
        { s.ends c with down := (s.ends c).down ++ [reply] } with
      pc := .read c } := by
  have hpeer : (s.ends c).peer = .accepted :=
    h.serving c (by rw [hpc]; rfl)
  have hends : ∀ d, (s.setEnd c
      { s.ends c with down := (s.ends c).down ++ [reply] }).ends d
        = if d = c then
            { s.ends c with down := (s.ends c).down ++ [reply] }
          else s.ends d :=
    fun d => s.setEnd_ends c d _
  refine ⟨fun d => ?_, h.buffer, h.counter, fun d => ?_, fun d => ?_,
    fun d hd => ?_, fun _ => h.runs (by rw [hpc]; exact nofun), nofun⟩
  · show EndInv ((s.setEnd c _).ends d)
    rw [hends]
    split
    · refine ⟨(h.ends c).loop, Or.inl ?_⟩
      rcases (h.ends c).exchange with hx | hl
      · exact ⟨hx.midway, hx.ready, hx.most⟩
      · cases hpeer.symm.trans hl.1
    · exact h.ends d
  · show readFrom d s.served ++ ((s.setEnd c _).ends d).up
      = ((s.setEnd c _).ends d).written
    rw [hends]
    split
    next hdc => exact hdc ▸ h.reads d
    next => exact h.reads d
  · have hold := h.replies d
    rw [hpc, ServerPc.due] at hold
    show ((s.setEnd c _).ends d).received ++ ((s.setEnd c _).ends d).down
      ++ [] = _
    rw [hends, List.append_nil]
    by_cases hdc : d = c
    · subst hdc
      rw [if_pos rfl] at hold ⊢
      exact (List.append_assoc _ _ _).symm.trans hold
    · rw [if_neg hdc]
      rw [if_neg fun hcd => hdc hcd.symm, List.append_nil] at hold
      exact hold
  · obtain rfl : c = d := hd
    show ((s.setEnd c _).ends c).peer = _
    rw [hends, if_pos rfl]
    exact hpeer

/-- Every step of the system keeps its invariant. -/
theorem sessionInv_step {a : SessionAct} (h : SessionInv ip s)
    (hstep : sessionStep ip s a = some s') : SessionInv ip s' := by
  cases a with
  | client c a =>
      obtain ⟨e, he, rfl⟩ := Option.map_eq_some_iff.mp hstep
      exact h.client he
  | accept c =>
      simp only [sessionStep] at hstep
      split at hstep
      next hc =>
        cases hstep
        obtain ⟨hpc, hpeer⟩ := hc
        refine h.goto (by rw [hpc]; exact nofun) nofun
          (fun d => by rw [hpc]; rfl) (fun _ => rfl)
          (fun d hd => ⟨hd.symm, rfl⟩) fun hl => ?_
        cases hpeer.symm.trans hl.1
      next => cases hstep
  | read =>
      simp only [sessionStep] at hstep
      split at hstep
      next c hpc =>
        split at hstep
        next => cases hstep
        next m up hup =>
          cases hstep
          refine h.read hpc rfl rfl (fun d => ?_) fun d => ?_
          · rw [Session.setEnd_ends]
            split
            next hdc => exact hdc ▸ ⟨rfl, rfl, rfl, rfl, rfl⟩
            next => exact ⟨rfl, rfl, rfl, rfl, rfl⟩
          · rw [Session.setEnd_ends]
            by_cases hdc : d = c
            · subst hdc
              rw [if_pos rfl, if_pos rfl, hup]
              rfl
            · rw [if_neg hdc, if_neg fun hcd => hdc hcd.symm]
              rfl
      next => cases hstep
  | hangUp =>
      simp only [sessionStep] at hstep
      split at hstep
      next c hpc =>
        split at hstep
        next =>
          cases hstep
          exact h.goto (by rw [hpc]; exact nofun) nofun
            (fun d => by rw [hpc]; rfl) (fun _ => rfl) nofun fun _ => rfl
        next => cases hstep
      next => cases hstep
  | write =>
      simp only [sessionStep] at hstep
      split at hstep
      next c reply hpc =>
        cases hstep
        exact h.write hpc
      next => cases hstep

-- ==================================================================== in step

/-- A reply that waits is the only one due. -/
theorem SessionInv.lockstep (h : SessionInv ip s) {c : Nat}
    (hdown : (s.ends c).down ≠ []) :
    (s.ends c).down.length = 1
      ∧ (s.ends c).written.length = (s.ends c).received.length + 1
      ∧ readFrom c s.served = (s.ends c).written
      ∧ (s.ends c).received ++ (s.ends c).down
        = repliesTo ip c s.served := by
  have hx := (h.ends c).exchange.resolve_right fun hl => hdown hl.2
  have hmost := hx.most
  have hpos := List.length_pos_iff.mpr hdown
  have hle := repliesTo_length_le ip c s.served
  have hreplies := h.replies c
  have hreads := h.reads c
  have hlen := congrArg List.length hreplies
  have hlen' := congrArg List.length hreads
  simp only [List.length_append] at hlen hlen'
  have hup : (s.ends c).up = [] := List.eq_nil_of_length_eq_zero (by omega)
  have hdue : s.pc.due c = [] := List.eq_nil_of_length_eq_zero (by omega)
  rw [hup, List.append_nil] at hreads
  rw [hdue, List.append_nil] at hreplies
  exact ⟨by omega, by omega, hreads, hreplies⟩

theorem SessionInv.inStep (h : SessionInv ip s) : InStep ip s where
  delivered := fun c => ⟨_, h.reads c⟩
  answered := fun c => ⟨_, (List.append_assoc _ _ _).symm.trans (h.replies c)⟩
  lockstep := fun _ => h.lockstep
  counts := by
    intro pre c m post hs hm hcount
    rw [hs]
    exact compteur_numbered ip hm hcount
  stops := by
    refine ⟨⟨fun hpc => ?_, fun hx => ?_⟩, fun pre x post hs hx => ?_⟩
    · obtain ⟨xs, x, hs, hx, -⟩ := h.left hpc
      exact ⟨x, by simp [hs], hx⟩
    · obtain ⟨x, hmem, hx⟩ := hx
      by_contra hpc
      exact h.runs hpc x hmem hx
    · have hmem : x ∈ s.served := by simp [hs]
      have hpc : s.pc = .exited := by
        by_contra hpc
        exact h.runs hpc x hmem hx
      obtain ⟨xs, y, hs', -, hxs⟩ := h.left hpc
      -- the message that is last is the only one
      rcases List.eq_nil_or_concat post with hp | ⟨init, z, rfl⟩
      · exact hp
      · have happ : (pre ++ x :: init) ++ [z] = xs ++ [y] := by
          rw [← hs', hs]
          simp
        have heq : pre ++ x :: init = xs := (List.append_inj' happ rfl).1
        exact absurd hx (hxs x (by simp [← heq]))

/-- In every interleaving of any number of clients, with any signals, and
the server, they are in step. -/
theorem clients_in_step (ip : Nat → List Byte) (acts : List SessionAct)
    (s : Session) (h : run (sessionStep ip) Session.init acts = some s) :
    InStep ip s :=
  (run_inv (I := SessionInv ip) (fun _ _ _ hI hstep => sessionInv_step hI
    hstep) SessionInv.init h).inStep

/-- Two clients ask for the counter, and the second one is served first. -/
theorem clients_in_step_counting :
    ∃ s, run (sessionStep fun _ => []) Session.init
        ([0, 1].flatMap (fun c => [.client c (.signal .sigusr2),
            .client c .go, .client c .go,
            .client c (.write compteurMessage), .client c .go,
            .client c .go])
          ++ [.accept 1, .read, .write, .client 1 .go]) = some s
      ∧ InStep (fun _ => []) s
      ∧ (s.ends 1).received = [snprintf (valeur ++ decimal 1)] := by
  have hret : ∃ s, run (sessionStep fun _ => []) Session.init
        ([0, 1].flatMap (fun c => [.client c (.signal .sigusr2),
            .client c .go, .client c .go,
            .client c (.write compteurMessage), .client c .go,
            .client c .go])
          ++ [.accept 1, .read, .write, .client 1 .go]) = some s
      ∧ (s.ends 1).received = [snprintf (valeur ++ decimal 1)] :=
    ⟨_, rfl, by decide⟩
  obtain ⟨s, hs, hreceived⟩ := hret
  exact ⟨s, hs, clients_in_step _ _ s hs, hreceived⟩

end SyeLabs.Sockets
