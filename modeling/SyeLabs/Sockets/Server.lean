/-
The server of socket_server.c.

# What is modelled

The loop of `main` over the clients and, for each, the loop over its
reads: `handle` is what one `read` leads to, `serveClient` the loop of a
connection, `serve` the loop over connections. What a client has written
reaches the server as a list of pieces, one for each `read`; the read
after the last returns 0. The buffer is the 80 bytes of the source and
is carried from read to read and from client to client. What is printed
is left out, and `++counter` wraps around.

# C strings

A string is a list of bytes that ends at its first NUL or at its end
(`cstr`). The literals are spelt as characters.
-/
import Mathlib.Data.List.Basic
import Mathlib.Data.List.TakeWhile

namespace SyeLabs.Sockets

-- =================================================================== C strings

abbrev Byte := BitVec 8

def chars (cs : List Char) : List Byte :=
  cs.map fun c => BitVec.ofNat 8 c.toNat

theorem chars_ne_zero {cs : List Char}
    (hcs : ∀ c ∈ cs, c.toNat % 256 ≠ 0) : ∀ c ∈ chars cs, c ≠ 0 := by
  intro b hb
  obtain ⟨c, hc, rfl⟩ := List.mem_map.mp hb
  intro hzero
  apply hcs c hc
  simpa using congrArg BitVec.toNat hzero

/-- The string that starts at the first byte. -/
def cstr (bytes : List Byte) : List Byte := bytes.takeWhile (· != 0)

/-- `strcmp`: the difference at the first byte where the strings
differ. -/
def strcmp : List Byte → List Byte → Int
  | [], b => -((b.headD 0).toNat : Int)
  | c :: a, b =>
      if c = b.headD 0 ∧ c ≠ 0 then strcmp a b.tail
      else c.toNat - (b.headD 0).toNat

theorem cstr_cons (d : Byte) (b : List Byte) :
    cstr (d :: b) = if d = 0 then [] else d :: cstr b := by
  by_cases hd : d = 0
  · rw [if_pos hd, hd]
    rfl
  · rw [if_neg hd]
    exact List.takeWhile_cons_of_pos (by simpa using hd)

theorem sub_eq_zero_iff (c d : Byte) :
    (c.toNat : Int) - d.toNat = 0 ↔ c = d := by
  rw [BitVec.toNat_eq]
  omega

theorem strcmp_eq_zero_iff {a : List Byte} (ha : ∀ c ∈ a, c ≠ 0) :
    ∀ {b : List Byte}, strcmp a b = 0 ↔ cstr b = a := by
  induction a with
  | nil =>
      intro b
      cases b with
      | nil => exact iff_of_true rfl rfl
      | cons d b =>
          have hd := sub_eq_zero_iff 0 d
          rw [cstr_cons, strcmp, List.headD_cons]
          by_cases hzero : d = 0
          · subst hzero
            exact iff_of_true rfl rfl
          · rw [if_neg hzero]
            refine iff_of_false (fun h => hzero ?_) (List.cons_ne_nil _ _)
            exact (hd.mp (by simpa using h)).symm
  | cons c a ih =>
      intro b
      obtain ⟨hc, ha⟩ := List.forall_mem_cons.mp ha
      rw [strcmp]
      by_cases hcd : c = b.headD 0
      · cases b with
        | nil => exact absurd hcd hc
        | cons d b =>
            obtain rfl : c = d := hcd
            rw [List.headD_cons, List.tail_cons, if_pos ⟨rfl, hc⟩, ih ha,
              cstr_cons, if_neg hc, List.cons.injEq, and_iff_right rfl]
      · rw [if_neg fun h => hcd h.1, sub_eq_zero_iff]
        refine iff_of_false hcd fun heq => ?_
        cases b with
        | nil => cases heq
        | cons d b =>
            rw [cstr_cons] at heq
            split at heq
            next => cases heq
            next => exact hcd (List.cons.inj heq).1.symm

/-- `%d`. -/
def decimal (n : Int) : List Byte :=
  chars ((if n < 0 then ['-'] else []) ++ Nat.toDigits 10 n.natAbs)

-- ================================================================== the server

def bufferLen : Nat := 80

def bonjour : List Byte := chars ['B', 'o', 'n', 'j', 'o', 'u', 'r']

def aurevoir : List Byte :=
  chars ['A', 'u', 'r', 'e', 'v', 'o', 'i', 'r']

def compteur : List Byte :=
  chars ['C', 'o', 'm', 'p', 't', 'e', 'u', 'r']

def quitter : List Byte := chars ['Q', 'u', 'i', 't', 't', 'e', 'r']

def client : List Byte := chars [' ', 'c', 'l', 'i', 'e', 'n', 't', ' ']

def valeur : List Byte :=
  chars ['V', 'a', 'l', 'e', 'u', 'r', ' ', 'c', 'o', 'm', 'p', 't', 'e',
    'u', 'r', ':', ' ']

/-- `ZERO_MEMORY`, then `snprintf` with `BUFFER_LEN`. -/
def snprintf (text : List Byte) : List Byte :=
  (text.take (bufferLen - 1)).rightpad bufferLen 0

structure Server where
  running : Bool
  counter : BitVec 32
  buffer : List Byte

def Server.init : Server where
  running := true
  counter := 0
  buffer := List.replicate bufferLen 0

/-- `read` of a piece into the buffer. -/
def readInto (buffer piece : List Byte) : List Byte :=
  piece ++ buffer.drop piece.length

/-- One read of a connection: the reply, unless the server leaves. -/
def handle (ip : List Byte) (s : Server) (piece : List Byte) :
    Option (List Byte) × Server :=
  let buffer := readInto s.buffer piece
  if strcmp quitter buffer = 0 then
    (none, { s with running := false, buffer := buffer })
  else
    let s : Server :=
      if strcmp bonjour buffer = 0 then
        { s with buffer := snprintf (bonjour ++ client ++ ip) }
      else if strcmp aurevoir buffer = 0 then
        { s with buffer := snprintf (aurevoir ++ client ++ ip) }
      else if strcmp compteur buffer = 0 then
        { s with
          buffer := snprintf (valeur ++ decimal (s.counter + 1).toInt)
          counter := s.counter + 1 }
      else { s with buffer := buffer }
    (some s.buffer, s)

/-- The loop of a connection: the replies written. -/
def serveClient (ip : List Byte) :
    Server → List (List Byte) → List (List Byte) × Server
  | s, [] => ([], s)
  | s, piece :: pieces =>
      match handle ip s piece with
      | (none, s') => ([], s')
      | (some reply, s') =>
          let rest := serveClient ip s' pieces
          (reply :: rest.1, rest.2)

/-- The next client, which a server that has stopped does not accept. -/
def serve (ip : List Byte) (s : Server) (pieces : List (List Byte)) :
    List (List Byte) × Server :=
  if s.running then serveClient ip s pieces else ([], s)

end SyeLabs.Sockets
