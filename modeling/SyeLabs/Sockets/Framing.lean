/-
Messages and reads of the server.

# What the clients are promised

`answer` is a server that is handed one message at a time, with a counter
that does not wrap around: an abstract machine over messages. `Framed`
asks that the server, which is handed pieces of a stream, answers as
that machine does and stops at the first Quitter message, which is where
a read first meets its bytes.

# When it keeps the promise

Every read is answered, so there are as many replies as reads: the
promise is kept exactly if every read before the Quitter message returns
a whole message (`WholeReads`), the first read of the Quitter message,
with what the buffer holds behind it, gives `Quitter`, and the counter
has not reached `2^31`.
-/
import SyeLabs.Lib.Framing
import SyeLabs.Lib.Mealy
import SyeLabs.Lib.Run
import SyeLabs.Sockets.Server

namespace SyeLabs.Sockets

open Lib

-- ================================================================ the messages

/-- What a client writes: a text, a NUL, and whatever follows. -/
structure Message where
  bytes : List Byte
  length_eq : bytes.length = bufferLen
  nul_mem : 0 ∈ bytes

def Message.text (m : Message) : List Byte := cstr m.bytes

/-- A client, with its messages as they are delivered. -/
structure Client where
  ip : List Byte
  messages : List Message
  pieces : List (List Byte)
  pieces_length : ∀ p ∈ pieces, 1 ≤ p.length ∧ p.length ≤ bufferLen
  delivered : pieces.flatten = (messages.map Message.bytes).flatten

def Message.IsQuitter (m : Message) : Prop := m.text = quitter

instance (m : Message) : Decidable m.IsQuitter :=
  inferInstanceAs (Decidable (m.text = quitter))

/-- The messages before the first Quitter message. -/
def Client.asked (c : Client) : List Message :=
  c.messages.takeWhile (¬ ·.IsQuitter)

def Client.Quits (c : Client) : Prop := ∃ m ∈ c.messages, m.IsQuitter

/-- The reply to a message, where `value` is the counter. -/
def Message.reply (m : Message) (ip : List Byte) (value : Int) : List Byte :=
  if m.text = bonjour then snprintf (bonjour ++ client ++ ip)
  else if m.text = aurevoir then snprintf (aurevoir ++ client ++ ip)
  else if m.text = compteur then snprintf (valeur ++ decimal value)
  else m.bytes

/-- The machine over messages: after `k` Compteur messages the next is
answered with `k + 1`; another text is sent back. -/
def answer (ip : List Byte) (k : Nat) (m : Message) : List Byte × Nat :=
  (m.reply ip (k + 1), if m.text = compteur then k + 1 else k)

/-- The server answers a client as the machine over messages does. -/
structure Framed (k : Nat) (s : Server) (c : Client) : Prop where
  replies : (serve c.ip s c.pieces).1 = answers (answer c.ip) k c.asked
  goesOn : ¬ c.Quits → (serve c.ip s c.pieces).2.running = true
  stops : c.Quits → (serve c.ip s c.pieces).2.running = false
    ∧ (c.pieces.take (serve c.ip s c.pieces).1.length).flatten
      = (c.asked.map Message.bytes).flatten

/-- The reads of a connection that keep the promise. -/
structure WholeReads (k : Nat) (s : Server) (c : Client) : Prop where
  whole : ∀ p ∈ c.pieces.take c.asked.length, p.length = bufferLen
  quitter : c.Quits → ∀ p, c.pieces[c.asked.length]? = some p →
    strcmp quitter (readInto (serveClient c.ip s
      (c.pieces.take c.asked.length)).2.buffer p) = 0
  counter : after (answer c.ip) k c.asked < 2147483648

/-- The server, and the number of Compteur messages so far, from client to
client. -/
def nextClient (t : Server × Nat) (c : Client) : Option (Server × Nat) :=
  some ((serve c.ip t.1 c.pieces).2, after (answer c.ip) t.2 c.asked)

/-- A client that is accepted is answered as promised. -/
def FramedAt (t : Server × Nat) (c : Client) : Prop :=
  t.1.running = true → Framed t.2 t.1 c

def WholeReadsAt (t : Server × Nat) (c : Client) : Prop :=
  t.1.running = true → WholeReads t.2 t.1 c

-- =================================================================== one reply

/-- The first byte after the label tells a sign from a digit. -/
theorem snprintf_valeur_head (digits : List Byte) :
    (snprintf (valeur ++ digits))[17]? = some (digits.headD 0) := by
  cases digits with
  | nil => decide
  | cons d digits => rfl

theorem decimal_neg_head {n : Int} (hn : n < 0) :
    (decimal n).headD 0 = 45 := by
  rw [decimal, if_pos hn]
  rfl

theorem decimal_nat_head (k : Nat) : (decimal k).headD 0 ≠ 45 := by
  have hdigits : decimal k = chars (Nat.toDigits 10 k) := by
    rw [decimal, if_neg (by omega)]
    rfl
  have hdigit : ∀ c ∈ Nat.toDigits 10 k, BitVec.ofNat 8 c.toNat ≠ 45 := by
    intro c hc
    have hisDigit := Nat.isDigit_of_mem_toDigits (by decide) (by decide) hc
    obtain ⟨hlo, hhi⟩ := Char.isDigit_iff_toNat.mp hisDigit
    have hzero : '0'.toNat = 48 := rfl
    have hnine : '9'.toNat = 57 := rfl
    intro heq
    have hnat := congrArg BitVec.toNat heq
    have hsign : (45 : BitVec 8).toNat = 45 := rfl
    rw [BitVec.toNat_ofNat, hsign] at hnat
    omega
  rw [hdigits]
  cases hlist : Nat.toDigits 10 k with
  | nil => decide
  | cons c cs => exact hdigit c (by rw [hlist]; exact List.mem_cons_self)

theorem decimal_ne {n : Int} (hn : n < 0) (k : Nat) :
    snprintf (valeur ++ decimal n) ≠ snprintf (valeur ++ decimal k) := by
  intro heq
  have hhead := congrArg (·[17]?) heq
  simp only [snprintf_valeur_head, decimal_neg_head hn] at hhead
  exact decimal_nat_head k (Option.some.inj hhead).symm

/-- The counter of the server tells the number of messages up to the last
value of an `int`. -/
theorem reply_eq_iff {m : Message} {ip : List Byte} {k : Nat}
    (hk : k < 2147483648) :
    m.reply ip (BitVec.ofNat 32 k + 1).toInt = m.reply ip (k + 1)
      ↔ (answer ip k m).2 < 2147483648 := by
  have hvalue : (BitVec.ofNat 32 k + 1).toInt
      = if k + 1 < 2147483648 then (k : Int) + 1 else -2147483648 := by
    have hnat : (BitVec.ofNat 32 k + 1).toNat = k + 1 := by
      have hone : (1 : BitVec 32) = BitVec.ofNat 32 1 := rfl
      rw [hone, ← BitVec.ofNat_add, BitVec.toNat_ofNat]
      omega
    rw [BitVec.toInt_eq_toNat_cond, hnat]
    split <;> split <;> omega
  by_cases hc : m.text = compteur
  · have hb : ¬ m.text = bonjour := by
      rw [hc]
      decide
    have ha : ¬ m.text = aurevoir := by
      rw [hc]
      decide
    simp only [Message.reply, answer, if_pos hc, if_neg hb, if_neg ha,
      hvalue]
    by_cases hlast : k + 1 < 2147483648
    · rw [if_pos hlast]
      exact iff_of_true rfl hlast
    · rw [if_neg hlast]
      refine iff_of_false (fun heq => ?_) hlast
      have hcast : ((k + 1 : Nat) : Int) = (k : Int) + 1 :=
        Int.natCast_succ k
      rw [← hcast] at heq
      exact decimal_ne (by decide) (k + 1) heq
  · simp only [Message.reply, answer, if_neg hc]
    exact iff_of_true trivial hk

-- ==================================================================== one read

theorem readInto_whole {buffer piece : List Byte}
    (hbuffer : buffer.length = bufferLen)
    (hpiece : piece.length = bufferLen) : readInto buffer piece = piece := by
  rw [readInto, List.drop_eq_nil_of_le (by omega), List.append_nil]

theorem snprintf_length (text : List Byte) :
    (snprintf text).length = bufferLen := by
  have hle : (text.take (bufferLen - 1)).length ≤ bufferLen - 1 :=
    List.length_take_le _ _
  rw [snprintf, List.length_rightpad]
  exact Nat.max_eq_left (by omega)

theorem reply_length (m : Message) (ip : List Byte) (value : Int) :
    (m.reply ip value).length = bufferLen := by
  unfold Message.reply
  split
  · exact snprintf_length _
  · split
    · exact snprintf_length _
    · split
      · exact snprintf_length _
      · exact m.length_eq

theorem handle_quit {ip : List Byte} {s : Server} {piece : List Byte}
    (hquit : strcmp quitter (readInto s.buffer piece) = 0) :
    handle ip s piece = (none, { s with
      running := false, buffer := readInto s.buffer piece }) := by
  rw [handle, if_pos hquit]

/-- A read that does not end the server is answered, and the server runs
on. -/
theorem handle_some (ip : List Byte) {s : Server} {piece : List Byte}
    (hquit : strcmp quitter (readInto s.buffer piece) ≠ 0) :
    ∃ reply s', handle ip s piece = (some reply, s')
      ∧ s'.running = s.running := by
  rw [handle, if_neg hquit]
  refine ⟨_, _, rfl, ?_⟩
  split
  · rfl
  · split
    · rfl
    · split <;> rfl

/-- A read of a whole message is answered by that message. -/
theorem handle_whole (ip : List Byte) {s : Server} {m : Message} {k : Nat}
    (hbuffer : s.buffer.length = bufferLen)
    (hk : s.counter = BitVec.ofNat 32 k) (hm : ¬ m.IsQuitter) :
    handle ip s m.bytes
      = (some (m.reply ip (BitVec.ofNat 32 k + 1).toInt),
        { s with
          buffer := m.reply ip (BitVec.ofNat 32 k + 1).toInt
          counter := BitVec.ofNat 32 (answer ip k m).2 }) := by
  have htext : ∀ {a : List Byte}, (∀ c ∈ a, c ≠ 0) →
      (strcmp a m.bytes = 0 ↔ m.text = a) :=
    fun ha => strcmp_eq_zero_iff ha
  have hquit := htext (a := quitter) (chars_ne_zero (by simp))
  have hb := htext (a := bonjour) (chars_ne_zero (by simp))
  have ha := htext (a := aurevoir) (chars_ne_zero (by simp))
  have hc := htext (a := compteur) (chars_ne_zero (by simp))
  simp only [handle, readInto_whole hbuffer m.length_eq]
  rw [if_neg fun h => hm (hquit.mp h)]
  by_cases htb : m.text = bonjour
  · have hnc : ¬ m.text = compteur := by
      rw [htb]
      decide
    simp only [if_pos (hb.mpr htb), Message.reply, answer, if_pos htb,
      if_neg hnc, hk]
  · by_cases hta : m.text = aurevoir
    · have hnc : ¬ m.text = compteur := by
        rw [hta]
        decide
      simp only [if_neg fun h => htb (hb.mp h), if_pos (ha.mpr hta),
        Message.reply, answer, if_neg htb, if_pos hta, if_neg hnc, hk]
    · by_cases htc : m.text = compteur
      · have hnext : BitVec.ofNat 32 k + 1 = BitVec.ofNat 32 (k + 1) :=
          (BitVec.ofNat_add k 1).symm
        simp only [if_neg fun h => htb (hb.mp h),
          if_neg fun h => hta (ha.mp h), if_pos (hc.mpr htc),
          Message.reply, answer, if_neg htb, if_neg hta, if_pos htc, hk,
          hnext]
      · simp only [if_neg fun h => htb (hb.mp h),
          if_neg fun h => hta (ha.mp h), if_neg fun h => htc (hc.mp h),
          Message.reply, answer, if_neg htb, if_neg hta, if_neg htc, hk]

-- ============================================================== one connection

/-- Of a connection whose first reads do not end the server. -/
theorem serveClient_append {ip : List Byte} {ps : List (List Byte)} :
    ∀ {s : Server}, (serveClient ip s ps).2.running = true →
      ∀ qs, serveClient ip s (ps ++ qs)
        = ((serveClient ip s ps).1
            ++ (serveClient ip (serveClient ip s ps).2 qs).1,
          (serveClient ip (serveClient ip s ps).2 qs).2) := by
  induction ps with
  | nil => exact fun _ _ => rfl
  | cons p ps ih =>
      intro s hrun qs
      by_cases hquit : strcmp quitter (readInto s.buffer p) = 0
      · rw [serveClient, handle_quit hquit] at hrun
        cases hrun
      · obtain ⟨reply, s', hhandle, -⟩ := handle_some ip hquit
        simp only [serveClient, hhandle] at hrun
        simp only [List.cons_append, serveClient, hhandle, ih hrun]

/-- The server runs on exactly when every read has been answered. -/
theorem serveClient_length {ip : List Byte} {ps : List (List Byte)} :
    ∀ {s : Server}, s.running = true →
      (serveClient ip s ps).1.length ≤ ps.length
        ∧ ((serveClient ip s ps).2.running = true
          ↔ (serveClient ip s ps).1.length = ps.length) := by
  induction ps with
  | nil => exact fun hs => ⟨Nat.le_refl 0, iff_of_true hs rfl⟩
  | cons p ps ih =>
      intro s hs
      by_cases hquit : strcmp quitter (readInto s.buffer p) = 0
      · rw [serveClient, handle_quit hquit]
        exact ⟨Nat.zero_le _, iff_of_false Bool.false_ne_true nofun⟩
      · obtain ⟨reply, s', hhandle, hs'⟩ := handle_some ip hquit
        obtain ⟨hle, hiff⟩ := ih (s := s') (hs'.trans hs)
        simp only [serveClient, hhandle, List.length_cons]
        exact ⟨Nat.succ_le_succ hle, hiff.trans Nat.succ_inj.symm⟩

/-- Where the server stops, the read after the replies gave Quitter. -/
theorem serveClient_stop {ip : List Byte} {ps : List (List Byte)} :
    ∀ {s : Server}, s.running = true →
      (serveClient ip s ps).2.running = false →
      ∃ p, ps[(serveClient ip s ps).1.length]? = some p
        ∧ (serveClient ip s
          (ps.take (serveClient ip s ps).1.length)).2.running = true
        ∧ strcmp quitter (readInto (serveClient ip s
          (ps.take (serveClient ip s ps).1.length)).2.buffer p) = 0 := by
  induction ps with
  | nil =>
      intro s hs hstop
      cases hs.symm.trans hstop
  | cons p ps ih =>
      intro s hs hstop
      by_cases hquit : strcmp quitter (readInto s.buffer p) = 0
      · have hnone : (serveClient ip s (p :: ps)).1 = [] := by
          rw [serveClient, handle_quit hquit]
        rw [hnone]
        exact ⟨p, rfl, hs, hquit⟩
      · obtain ⟨reply, s', hhandle, hs'⟩ := handle_some ip hquit
        simp only [serveClient, hhandle] at hstop ⊢
        obtain ⟨q, hq, hrest⟩ := ih (hs'.trans hs) hstop
        refine ⟨q, hq, ?_⟩
        simp only [List.length_cons, List.take_succ_cons, serveClient,
          hhandle]
        exact hrest

theorem le_answer (ip : List Byte) (k : Nat) (m : Message) :
    k ≤ (answer ip k m).2 := by
  unfold answer
  dsimp only
  split
  · exact Nat.le_succ k
  · exact Nat.le_refl k

theorem le_after (ip : List Byte) (ms : List Message) :
    ∀ k, k ≤ after (answer ip) k ms := by
  induction ms with
  | nil => exact Nat.le_refl
  | cons m ms ih => exact fun k => (le_answer ip k m).trans (ih _)

/-- What holds of the server between whole messages. -/
structure Ready (s : Server) (k : Nat) : Prop where
  running : s.running = true
  counter : s.counter = BitVec.ofNat 32 k
  buffer : s.buffer.length = bufferLen

/-- Whole messages are answered one by one. -/
theorem serveClient_whole (ip : List Byte) {ms : List Message} :
    ∀ {s : Server} {k : Nat}, Ready s k → (∀ m ∈ ms, ¬ m.IsQuitter) →
      Ready (serveClient ip s (ms.map Message.bytes)).2
          (after (answer ip) k ms)
        ∧ (serveClient ip s (ms.map Message.bytes)).1.length
          = ms.length := by
  induction ms with
  | nil => exact fun hs _ => ⟨hs, rfl⟩
  | cons m ms ih =>
      intro s k hs hms
      obtain ⟨hm, hms⟩ := List.forall_mem_cons.mp hms
      have hhandle := handle_whole ip hs.buffer hs.counter hm
      have hnext : Ready { s with
          buffer := m.reply ip (BitVec.ofNat 32 k + 1).toInt
          counter := BitVec.ofNat 32 (answer ip k m).2 } (answer ip k m).2 :=
        ⟨hs.running, rfl, reply_length m ip _⟩
      obtain ⟨hready, hlength⟩ := ih hnext hms
      simp only [List.map_cons, serveClient, hhandle, List.length_cons]
      exact ⟨hready, congrArg Nat.succ hlength⟩

/-- They are answered as they should exactly if the counter has not
wrapped around. -/
theorem replies_whole (ip : List Byte) {ms : List Message} :
    ∀ {s : Server} {k : Nat}, Ready s k → k < 2147483648 →
      (∀ m ∈ ms, ¬ m.IsQuitter) →
      ((serveClient ip s (ms.map Message.bytes)).1
          = answers (answer ip) k ms
        ↔ after (answer ip) k ms < 2147483648) := by
  induction ms with
  | nil => exact fun _ hk _ => iff_of_true rfl hk
  | cons m ms ih =>
      intro s k hs hk hms
      obtain ⟨hm, hms⟩ := List.forall_mem_cons.mp hms
      have hhandle := handle_whole ip hs.buffer hs.counter hm
      have hnext : Ready { s with
          buffer := m.reply ip (BitVec.ofNat 32 k + 1).toInt
          counter := BitVec.ofNat 32 (answer ip k m).2 } (answer ip k m).2 :=
        ⟨hs.running, rfl, reply_length m ip _⟩
      have hreply : m.reply ip (BitVec.ofNat 32 k + 1).toInt
          = (answer ip k m).1 ↔ (answer ip k m).2 < 2147483648 :=
        reply_eq_iff hk
      simp only [List.map_cons, serveClient, hhandle, answers, after,
        List.cons.injEq, hreply]
      by_cases hlt : (answer ip k m).2 < 2147483648
      · rw [and_iff_right hlt]
        exact ih hnext hlt hms
      · refine iff_of_false (fun h => hlt h.1) fun h => hlt ?_
        exact (le_after ip ms _).trans_lt h

-- ==================================================== the messages of a client

theorem asked_not_quitter (c : Client) : ∀ m ∈ c.asked, ¬ m.IsQuitter := by
  intro m hm
  simpa using List.mem_takeWhile_imp hm

/-- What a client has asked, and what follows. -/
theorem asked_split (ms : List Message) :
    (¬ ∃ m ∈ ms, m.IsQuitter) ∧ ms.takeWhile (¬ ·.IsQuitter) = ms
      ∨ ∃ m rest, m.IsQuitter
        ∧ ms = ms.takeWhile (¬ ·.IsQuitter) ++ m :: rest := by
  induction ms with
  | nil => exact Or.inl ⟨by simp, rfl⟩
  | cons m ms ih =>
      by_cases hm : m.IsQuitter
      · right
        refine ⟨m, ms, hm, ?_⟩
        rw [List.takeWhile_cons_of_neg (by simpa using hm)]
        rfl
      · rw [List.takeWhile_cons_of_pos (by simpa using hm)]
        rcases ih with ⟨hnone, heq⟩ | ⟨q, rest, hq, heq⟩
        · exact Or.inl ⟨by simpa [hm] using hnone, congrArg _ heq⟩
        · exact Or.inr ⟨q, rest, hq, congrArg _ heq⟩

theorem asked_of_not_quits {c : Client} (hc : ¬ c.Quits) :
    c.asked = c.messages := by
  rcases asked_split c.messages with ⟨-, heq⟩ | ⟨m, rest, hm, heq⟩
  · exact heq
  · exact absurd ⟨m, by rw [heq]; simp, hm⟩ hc

theorem messages_of_quits {c : Client} (hc : c.Quits) :
    ∃ m rest, m.IsQuitter ∧ c.messages = c.asked ++ m :: rest := by
  rcases asked_split c.messages with ⟨hnone, -⟩ | hsome
  · exact absurd hc hnone
  · exact hsome

theorem bytes_length (c : Client) :
    ∀ r ∈ c.messages.map Message.bytes, r.length = bufferLen := by
  intro r hr
  obtain ⟨m, -, rfl⟩ := List.mem_map.mp hr
  exact m.length_eq

/-- The first messages of a client are those it has asked. -/
theorem take_messages (c : Client) :
    (c.messages.map Message.bytes).take c.asked.length
      = c.asked.map Message.bytes := by
  have hprefix : c.messages.take c.asked.length = c.asked :=
    List.prefix_iff_eq_take.mp (List.takeWhile_prefix _) |>.symm
  rw [← List.map_take, hprefix]

/-- Reads of whole messages return the messages. -/
theorem take_pieces {c : Client}
    (hwhole : ∀ p ∈ c.pieces.take c.asked.length, p.length = bufferLen) :
    c.pieces.take c.asked.length = c.asked.map Message.bytes := by
  have hle : c.asked.length ≤ (c.messages.map Message.bytes).length := by
    rw [List.length_map]
    exact List.IsPrefix.length_le (List.takeWhile_prefix _)
  rw [take_eq_of_length (by decide) hwhole (bytes_length c) hle c.delivered,
    take_messages]

/-- What is delivered after them. -/
theorem drop_pieces {c : Client}
    (htake : c.pieces.take c.asked.length = c.asked.map Message.bytes) :
    (c.pieces.drop c.asked.length).flatten
      = ((c.messages.map Message.bytes).drop c.asked.length).flatten := by
  have hall := c.delivered
  rw [← List.take_append_drop c.asked.length c.pieces,
    ← List.take_append_drop c.asked.length
      (c.messages.map Message.bytes), List.flatten_append,
    List.flatten_append, htake, take_messages] at hall
  exact List.append_cancel_left hall

-- ============================================ the promise, and when it is kept

/-- All reads of a client that does not quit are its messages. -/
theorem pieces_of_not_quits {c : Client} (hc : ¬ c.Quits)
    (htake : c.pieces.take c.asked.length = c.asked.map Message.bytes) :
    c.pieces = c.asked.map Message.bytes := by
  have hrest := drop_pieces htake
  have hend : (c.messages.map Message.bytes).drop c.messages.length = [] :=
    List.drop_eq_nil_of_le (by rw [List.length_map])
  rw [asked_of_not_quits hc, hend, List.flatten_nil,
    List.flatten_eq_nil_iff] at hrest
  have hnil : c.pieces.drop c.messages.length = [] := by
    refine List.eq_nil_iff_forall_not_mem.mpr fun p hp => ?_
    have hlen := (c.pieces_length p (List.mem_of_mem_drop hp)).1
    rw [hrest p hp] at hlen
    cases hlen
  rw [← htake, asked_of_not_quits hc]
  exact (List.take_of_length_le (List.drop_eq_nil_iff.mp hnil)).symm

/-- There is a read of the Quitter message. -/
theorem exists_read_of_quits {c : Client} (hc : c.Quits)
    (htake : c.pieces.take c.asked.length = c.asked.map Message.bytes) :
    ∃ p rest, c.pieces = c.asked.map Message.bytes ++ p :: rest
      ∧ c.pieces[c.asked.length]? = some p := by
  obtain ⟨m, rest, -, hmessages⟩ := messages_of_quits hc
  have hrest := drop_pieces htake
  have hsplit := List.take_append_drop c.asked.length c.pieces
  cases hdrop : c.pieces.drop c.asked.length with
  | nil =>
      have hbytes : c.asked.length
          = (c.asked.map Message.bytes).length := (List.length_map _).symm
      rw [hdrop, hmessages, List.map_append, hbytes, List.drop_left,
        List.map_cons, List.flatten_cons, List.flatten_nil] at hrest
      have hlen := m.length_eq
      rw [(List.append_eq_nil_iff.mp hrest.symm).1] at hlen
      cases hlen
  | cons p ps =>
      rw [hdrop, htake] at hsplit
      refine ⟨p, ps, hsplit.symm, ?_⟩
      rw [← List.head?_drop, hdrop]
      rfl

/-- A connection whose first read of the Quitter message gives Quitter
ends there. -/
theorem serveClient_quits {ip : List Byte} {s : Server} {k : Nat}
    {ms : List Message} {p : List Byte} (rest : List (List Byte))
    (hs : Ready s k) (hms : ∀ m ∈ ms, ¬ m.IsQuitter)
    (hquit : strcmp quitter (readInto
      (serveClient ip s (ms.map Message.bytes)).2.buffer p) = 0) :
    (serveClient ip s (ms.map Message.bytes ++ p :: rest)).1
        = (serveClient ip s (ms.map Message.bytes)).1
      ∧ (serveClient ip s (ms.map Message.bytes ++ p :: rest)).2.running
        = false := by
  obtain ⟨hready, -⟩ := serveClient_whole ip hs hms
  rw [serveClient_append hready.running]
  simp only [serveClient, handle_quit hquit, List.append_nil, and_self]

theorem framed_of_wholeReads {s : Server} {k : Nat} {c : Client}
    (hs : Ready s k) (hk : k < 2147483648) (hw : WholeReads k s c) :
    Framed k s c := by
  have hserve : serve c.ip s c.pieces = serveClient c.ip s c.pieces :=
    if_pos hs.running
  have hasked := asked_not_quitter c
  obtain ⟨hready, hlength⟩ := serveClient_whole c.ip hs hasked
  have hreplies := (replies_whole c.ip hs hk hasked).mpr hw.counter
  have htake := take_pieces hw.whole
  by_cases hc : c.Quits
  · obtain ⟨p, rest, hpieces, hp⟩ := exists_read_of_quits hc htake
    have hquit := hw.quitter hc p hp
    rw [htake] at hquit
    obtain ⟨hout, hstop⟩ := serveClient_quits rest hs hasked hquit
    refine ⟨?_, fun h => absurd hc h, fun _ => ⟨?_, ?_⟩⟩
    · rw [hserve, hpieces, hout, hreplies]
    · rw [hserve, hpieces, hstop]
    · rw [hserve, hpieces, hout, hlength, ← hpieces, htake]
  · have hpieces := pieces_of_not_quits hc htake
    refine ⟨?_, fun _ => ?_, fun h => absurd h hc⟩
    · rw [hserve, hpieces, hreplies]
    · rw [hserve, hpieces, hready.running]

theorem answers_length (ip : List Byte) (ms : List Message) :
    ∀ k, (answers (answer ip) k ms).length = ms.length := by
  induction ms with
  | nil => exact fun _ => rfl
  | cons m ms ih => exact fun k => congrArg Nat.succ (ih _)

theorem wholeReads_of_framed {s : Server} {k : Nat} {c : Client}
    (hs : Ready s k) (hk : k < 2147483648) (hf : Framed k s c) :
    WholeReads k s c := by
  have hserve : serve c.ip s c.pieces = serveClient c.ip s c.pieces :=
    if_pos hs.running
  have hasked := asked_not_quitter c
  have hle : ∀ j, ∀ p ∈ c.pieces.take j, p.length ≤ bufferLen :=
    fun j p hp => (c.pieces_length p (List.mem_of_mem_take hp)).2
  have heq : ∀ r ∈ c.asked.map Message.bytes, r.length = bufferLen := by
    intro r hr
    obtain ⟨m, -, rfl⟩ := List.mem_map.mp hr
    exact m.length_eq
  have hreplies := hf.replies
  rw [hserve] at hreplies
  have hlength : (serveClient c.ip s c.pieces).1.length = c.asked.length := by
    rw [hreplies, answers_length]
  have hstop : c.Quits → ∃ p, c.pieces[c.asked.length]? = some p
      ∧ strcmp quitter (readInto (serveClient c.ip s
        (c.pieces.take c.asked.length)).2.buffer p) = 0 := by
    intro hc
    have hfalse := (hf.stops hc).1
    rw [hserve] at hfalse
    obtain ⟨p, hp, -, hquit⟩ := serveClient_stop hs.running hfalse
    rw [hlength] at hp hquit
    exact ⟨p, hp, hquit⟩
  have htake : c.pieces.take c.asked.length
      = c.asked.map Message.bytes := by
    by_cases hc : c.Quits
    · obtain ⟨p, hp, -⟩ := hstop hc
      obtain ⟨hlt, -⟩ := List.getElem?_eq_some_iff.mp hp
      have hflat := (hf.stops hc).2
      rw [hserve, hlength] at hflat
      refine eq_of_flatten_eq (hle _) heq ?_ hflat
      rw [List.length_take, List.length_map, Nat.min_eq_left hlt.le]
    · have hrun := hf.goesOn hc
      rw [hserve] at hrun
      have hcount := (serveClient_length hs.running).2.mp hrun
      rw [hlength] at hcount
      have hflat := c.delivered
      rw [← asked_of_not_quits hc] at hflat
      have hpieces : c.pieces = c.asked.map Message.bytes :=
        eq_of_flatten_eq (fun p hp => (c.pieces_length p hp).2) heq
          (by rw [List.length_map, hcount]) hflat
      rw [hpieces]
      exact List.take_of_length_le (by rw [List.length_map])
  refine ⟨?_, fun hc p hp => ?_, ?_⟩
  · rw [htake]
    exact heq
  · obtain ⟨q, hq, hquit⟩ := hstop hc
    obtain rfl := Option.some.inj (hp.symm.trans hq)
    exact hquit
  · obtain ⟨hready, hlen⟩ := serveClient_whole c.ip hs hasked
    rw [← replies_whole c.ip hs hk hasked]
    have hsplit := List.take_append_drop c.asked.length c.pieces
    rw [htake] at hsplit
    rw [← hsplit, serveClient_append hready.running] at hreplies
    rw [← List.append_nil (answers _ _ _)] at hreplies
    exact (List.append_inj hreplies
      (hlen.trans (answers_length c.ip c.asked k).symm)).1

theorem framed_iff {s : Server} {k : Nat} {c : Client} (hs : Ready s k)
    (hk : k < 2147483648) : Framed k s c ↔ WholeReads k s c :=
  ⟨wholeReads_of_framed hs hk, framed_of_wholeReads hs hk⟩

/-- After a client that is served as promised the server has stopped, or
is ready for the next. -/
theorem ready_next {s : Server} {k : Nat} {c : Client} (hs : Ready s k)
    (hk : k < 2147483648) (hw : WholeReads k s c)
    (hrun : (serve c.ip s c.pieces).2.running = true) :
    Ready (serve c.ip s c.pieces).2 (after (answer c.ip) k c.asked) := by
  have hf := framed_of_wholeReads hs hk hw
  have hc : ¬ c.Quits := by
    intro hc
    cases hrun.symm.trans (hf.stops hc).1
  have hserve : serve c.ip s c.pieces = serveClient c.ip s c.pieces :=
    if_pos hs.running
  rw [hserve, pieces_of_not_quits hc (take_pieces hw.whole)]
  exact (serveClient_whole c.ip hs (asked_not_quitter c)).1

-- ============================================================= all the clients

/-- Whatever the clients and however their messages are delivered: every
client that is accepted is answered as promised exactly when each of
their reads up to the Quitter message returns one whole message, the
first read of the Quitter message gives Quitter, and the counter does
not wrap around. -/
theorem framed_iff_wholeReads (clients : List Client) :
    Along nextClient FramedAt (Server.init, 0) clients
      ↔ Along nextClient WholeReadsAt (Server.init, 0) clients := by
  have hinit : Ready Server.init 0 := ⟨rfl, rfl, by decide⟩
  refine along_iff_along (I := fun t => t.1.running = true →
      Ready t.1 t.2 ∧ t.2 < 2147483648) (fun t c hI => ?_)
    (fun t c t' hI hw hstep => ?_) (fun _ => ⟨hinit, by decide⟩)
  · refine imp_congr_right fun hrun => ?_
    obtain ⟨hs, hk⟩ := hI hrun
    exact framed_iff hs hk
  · intro hrun'
    obtain rfl := Option.some.inj hstep
    by_cases hrun : t.1.running = true
    · obtain ⟨hs, hk⟩ := hI hrun
      exact ⟨ready_next hs hk (hw hrun) hrun', (hw hrun).counter⟩
    · rw [serve, if_neg hrun] at hrun'
      exact absurd hrun' hrun

/-- A Compteur message. -/
def compteurMessage : Message where
  bytes := compteur.rightpad bufferLen 0
  length_eq := by decide
  nul_mem := by decide

/-- A client whose one message is delivered in two halves. -/
def halvedClient : Client where
  ip := chars ['1']
  messages := [compteurMessage]
  pieces := [compteurMessage.bytes.take 40, compteurMessage.bytes.drop 40]
  pieces_length := by decide
  delivered := by decide

/-- A message that is read in two halves is answered twice. -/
theorem not_framed_halved :
    ¬ Along nextClient FramedAt (Server.init, 0) [halvedClient] := by
  intro halong
  obtain ⟨hframed, -⟩ := along_cons_iff.mp halong
  have hreplies := congrArg List.length (hframed rfl).replies
  rw [answers_length] at hreplies
  exact absurd hreplies (by decide)

end SyeLabs.Sockets
