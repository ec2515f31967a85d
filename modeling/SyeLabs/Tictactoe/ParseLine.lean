/-
`parse_line` with the memory it touches.

# Two levels

`parseLine` (Player.lean) is what `parse_line` makes of the characters of
a line. `parseLineAt` is the function itself: the string as memory that
goes on after its terminator, the two cursors, the buffer with what was
in it before, and a record of the offsets read and written.
`parseLineAt_eq` says that the two agree; the offsets are bounded here.

# The grammar

A line is accepted if it is a `Numeral`: one or more digits, fewer than
`MAX_BUFFER_LENGTH`, with a value from 1 to 9.
-/
import SyeLabs.Tictactoe.Player

namespace SyeLabs.Tictactoe

-- ================================================================ the function

/-- The locals of `parse_line`, and the offsets it has read in the string
and written in the buffer. -/
structure Scan where
  i : Nat
  j : Nat
  buffer : List Char
  reads : List Nat
  writes : List Nat

/-- What `parse_line` returns, what it has stored in `*index`, and the
offsets. -/
structure Parse where
  ret : Int
  index : Option Int
  reads : List Nat
  writes : List Nat

/-- `return ret`, with `index` in `*index`. -/
def Scan.leave (s : Scan) (ret : Int) (index : Option Int) : Parse :=
  { ret, index, reads := s.reads, writes := s.writes }

/-- `str[i]` is read. -/
def Scan.load (s : Scan) : Scan := { s with reads := s.reads ++ [s.i] }

/-- `buffer[j] = c`. -/
def Scan.store (s : Scan) (c : Char) : Scan :=
  { s with buffer := s.buffer.set s.j c, writes := s.writes ++ [s.j] }

/-- The string in a buffer. -/
def cString (buffer : List Char) : List Char :=
  buffer.takeWhile fun c => decide (c ≠ nul)

/-- The loop of `parse_line`, with the iterations it may still take. -/
def scanLoop (atoi : List Char → Int) (str : Nat → Char) :
    Nat → Scan → Parse
  | 0, s => s.leave 0 none
  | n + 1, s =>
      let c := str s.i
      let s := s.load
      if c ≥ '0' ∧ c ≤ '9' then
        let s := s.store c
        scanLoop atoi str n { s with i := s.i + 1, j := s.j + 1 }
      else if c = nul then
        let s := s.store nul
        let index := atoi (cString s.buffer)
        if index ≤ 0 ∨ index > 9 then s.leave 0 (some index)
        else s.leave 1 (some (index - 1))
      else s.leave 0 none

/-- `parse_line`, with what its buffer holds at first. -/
def parseLineAt (h : Header) (atoi : List Char → Int) (str : Nat → Char)
    (buffer : List Char) : Parse :=
  let s : Scan := { i := 0, j := 0, buffer, reads := [0], writes := [] }
  if str 0 = nul then s.leave 0 none
  else scanLoop atoi str h.maxBufferLength s

-- ======================================================== strings and numerals

/-- The memory holds a string: its characters, none of them NUL, and the
terminator. -/
structure HoldsString (str : Nat → Char) (line : List Char) : Prop where
  chars : ∀ i, (hi : i < line.length) → str i = (line)[i]
  noNul : nul ∉ line
  terminator : str line.length = nul

def IsDigit (c : Char) : Prop := c ≥ '0' ∧ c ≤ '9'

instance (c : Char) : Decidable (IsDigit c) :=
  inferInstanceAs (Decidable (_ ∧ _))

theorem IsDigit.ne_nul {c : Char} (hc : IsDigit c) : c ≠ nul := by
  rintro rfl
  exact absurd hc (by decide)

/-- The outcome is that of `parseLine`: accepted with an index, or not. -/
def Parse.Agrees (r : Parse) : Option Int → Prop
  | some index => r.ret = 1 ∧ r.index = some index
  | none => r.ret = 0

/-- What `parse_line` is to accept. -/
structure Numeral (h : Header) (line : List Char) : Prop where
  nonempty : line ≠ []
  digits : ∀ c ∈ line, IsDigit c
  fits : line.length < h.maxBufferLength
  pos : 1 ≤ decimal line
  le : decimal line ≤ 9

/-- `atoi` is exact on digits. -/
def Exact (atoi : List Char → Int) : Prop :=
  ∀ digits, digits ≠ [] → (∀ c ∈ digits, IsDigit c) →
    atoi digits = decimal digits

-- ============================================================== what is parsed

/-- A buffer that holds digits and a NUL holds the string of these. -/
theorem cString_digits {pre tail : List Char} (hpre : ∀ c ∈ pre, IsDigit c) :
    cString (pre ++ nul :: tail) = pre := by
  have hall : ∀ c ∈ pre, decide (c ≠ nul) = true :=
    fun c hc => decide_eq_true (hpre c hc).ne_nul
  unfold cString
  rw [List.takeWhile_append_of_pos hall, List.takeWhile_cons_of_neg (by simp),
    List.append_nil]

/-- The loop, at the memory: after the digits `pre`, with the characters
`rest` of the line to come, it does what the loop over the characters
does, and touches nothing past the line or the buffer. -/
theorem scanLoop_spec (atoi : List Char → Int) {str : Nat → Char}
    {line : List Char} (hstr : HoldsString str line) (n : Nat) :
    ∀ (pre rest tail : List Char) (s : Scan),
      line = pre ++ rest → (∀ c ∈ pre, IsDigit c) →
      s.i = pre.length → s.j = pre.length → s.buffer = pre ++ tail →
      n < tail.length →
      (∀ k ∈ s.reads, k ≤ line.length) →
      (∀ k ∈ s.writes, k < (pre ++ tail).length) →
      (scanLoop atoi str n s).Agrees (parseLoop atoi n rest pre)
        ∧ (∀ k ∈ (scanLoop atoi str n s).reads, k ≤ line.length)
        ∧ ∀ k ∈ (scanLoop atoi str n s).writes,
            k < (pre ++ tail).length := by
  induction n with
  | zero =>
      intro pre rest tail s _ _ _ _ _ _ hreads hwrites
      exact ⟨rfl, hreads, hwrites⟩
  | succ n ih =>
      intro pre rest tail s hline hpre hi hj hbuf htail hreads hwrites
      obtain ⟨t, tail, rfl⟩ := List.exists_cons_of_length_pos
        (Nat.lt_of_le_of_lt (Nat.zero_le _) htail)
      have hle : pre.length ≤ line.length := by
        rw [hline, List.length_append]
        omega
      have hreads' : ∀ k ∈ s.load.reads, k ≤ line.length :=
        List.forall_mem_append.mpr ⟨hreads, by simpa [hi] using hle⟩
      have hstore : ∀ c, (s.load.store c).buffer = pre ++ c :: tail := by
        intro c
        simp [Scan.store, Scan.load, hbuf, hj]
      have hwrites' : ∀ c, ∀ k ∈ (s.load.store c).writes,
          k < (pre ++ t :: tail).length := by
        intro c
        refine List.forall_mem_append.mpr ⟨hwrites, ?_⟩
        simp [Scan.load, hj]
      rw [scanLoop]
      cases rest with
      | nil =>
          -- the terminator
          have hc : str s.i = nul := by
            rw [hi, ← hstr.terminator, hline, List.append_nil]
          have hdigit : ¬ (nul ≥ '0' ∧ nul ≤ '9') := by decide
          rw [hc, if_neg hdigit, if_pos rfl, parseLoop, parseIndex]
          dsimp only
          rw [hstore, cString_digits hpre]
          split
          · exact ⟨rfl, hreads', hwrites' nul⟩
          · exact ⟨⟨rfl, rfl⟩, hreads', hwrites' nul⟩
      | cons c rest =>
          have hc : str s.i = c := by
            have hlt : pre.length < line.length := by
              rw [hline, List.length_append, List.length_cons]
              omega
            rw [hi, hstr.chars _ hlt]
            simp [hline]
          have hcnul : c ≠ nul := fun heq =>
            hstr.noNul (by rw [hline, ← heq]; simp)
          rw [hc, parseLoop]
          by_cases hdigit : c ≥ '0' ∧ c ≤ '9'
          · rw [if_pos hdigit, if_pos hdigit]
            have hpre' : ∀ d ∈ pre ++ [c], IsDigit d :=
              List.forall_mem_append.mpr
                ⟨hpre, List.forall_mem_singleton.mpr hdigit⟩
            have hlen : (pre ++ [c] ++ tail).length
                = (pre ++ t :: tail).length := by simp
            obtain ⟨hret, hr, hw⟩ := ih (pre ++ [c]) rest tail
              { s.load.store c with i := s.i + 1, j := s.j + 1 }
              (by simp [hline]) hpre' (by simp [hi]) (by simp [hj])
              (by simp [hstore]) (by simpa using htail) hreads'
              (by rw [hlen]; exact hwrites' c)
            exact ⟨hret, hr, by rw [← hlen]; exact hw⟩
          · rw [if_neg hdigit, if_neg hdigit, if_neg hcnul, if_neg hcnul]
            exact ⟨rfl, hreads', hwrites⟩

/-- `parse_line` makes of the memory what `parseLine` makes of the line,
and touches nothing past the line or the buffer. -/
theorem parseLineAt_eq (h : Header) (atoi : List Char → Int)
    {str : Nat → Char} {line : List Char} (hstr : HoldsString str line)
    {buffer : List Char} (hbuf : buffer.length = h.maxBufferLength + 1) :
    (parseLineAt h atoi str buffer).Agrees (parseLine h atoi line)
      ∧ (∀ k ∈ (parseLineAt h atoi str buffer).reads, k ≤ line.length)
      ∧ ∀ k ∈ (parseLineAt h atoi str buffer).writes,
          k < buffer.length := by
  have hfirst : line.headD nul = str 0 := by
    cases hline : line with
    | nil => rw [← hstr.terminator, hline]; rfl
    | cons c rest =>
        rw [hstr.chars 0 (by simp [hline])]
        simp [hline]
  unfold parseLine parseLineAt
  rw [hfirst]
  by_cases hnul : str 0 = nul
  · rw [if_pos hnul, if_pos hnul]
    exact ⟨rfl, by simp [Scan.leave], by simp [Scan.leave]⟩
  · rw [if_neg hnul, if_neg hnul]
    exact scanLoop_spec atoi hstr h.maxBufferLength [] line buffer _ rfl
      (by simp) rfl rfl rfl (by omega) (by simp) (by simp)

-- ================================================================= the grammar

/-- The loop accepts what is left of a line if it consists of digits,
fewer than the iterations that are left, and the number is in range. -/
theorem parseLoop_eq_some_iff (atoi : List Char → Int) (n : Nat) :
    ∀ {rest pre : List Char} {index : Int}, nul ∉ rest →
      (parseLoop atoi n rest pre = some index
        ↔ (∀ c ∈ rest, IsDigit c) ∧ rest.length < n
          ∧ parseIndex atoi (pre ++ rest) = some index) := by
  induction n with
  | zero => exact fun _ => by simp [parseLoop]
  | succ n ih =>
      intro rest pre index hnul
      cases rest with
      | nil => simp [parseLoop]
      | cons c rest =>
          have hrest : nul ∉ rest := fun hmem =>
            hnul (List.mem_cons_of_mem c hmem)
          have hcnul : c ≠ nul := fun heq => hnul (by simp [heq])
          rw [parseLoop]
          by_cases hdigit : c ≥ '0' ∧ c ≤ '9'
          · have hc : IsDigit c := hdigit
            rw [if_pos hdigit, ih hrest]
            simp [hc, List.append_assoc]
          · have hc : ¬ IsDigit c := hdigit
            rw [if_neg hdigit, if_neg hcnul]
            simp [hc]

theorem parseIndex_eq_some_iff {atoi : List Char → Int}
    {buffer : List Char} {index : Int} :
    parseIndex atoi buffer = some index
      ↔ 1 ≤ atoi buffer ∧ atoi buffer ≤ 9 ∧ index = atoi buffer - 1 := by
  simp only [parseIndex]
  split
  next hrange =>
    refine ⟨fun h => (by cases h), fun h => ?_⟩
    omega
  next hrange =>
    rw [Option.some.injEq]
    omega

/-- The lines `parseLine` accepts. -/
theorem parseLine_eq_some_iff {h : Header} {atoi : List Char → Int}
    (hatoi : Exact atoi) {line : List Char} (hnul : nul ∉ line)
    {index : Int} :
    parseLine h atoi line = some index
      ↔ Numeral h line ∧ index = decimal line - 1 := by
  cases hline : line with
  | nil =>
      refine ⟨fun hsome => (by cases hsome), fun hnum => ?_⟩
      exact absurd rfl hnum.1.nonempty
  | cons c rest =>
      rw [← hline]
      have hne : line ≠ [] := by simp [hline]
      have hfirst : line.headD nul ≠ nul := by
        intro heq
        have hc : c = nul := by rwa [hline] at heq
        rw [hline, hc] at hnul
        exact hnul List.mem_cons_self
      unfold parseLine
      rw [if_neg hfirst, parseLoop_eq_some_iff _ _ hnul, List.nil_append,
        parseIndex_eq_some_iff]
      constructor
      · intro hsome
        obtain ⟨hdigits, hfits, hpos, hle, hindex⟩ := hsome
        rw [hatoi line hne hdigits] at hpos hle hindex
        exact ⟨⟨hne, hdigits, hfits, hpos, hle⟩, hindex⟩
      · intro hnum
        obtain ⟨hnum, hindex⟩ := hnum
        rw [hatoi line hne hnum.digits]
        exact ⟨hnum.digits, hnum.fits, hnum.pos, hnum.le, hindex⟩

/-- `parse_line` returns 1 on numerals only, with the value less 1 in
`*index`, and on no string does it read past the terminator or write
past its buffer. -/
theorem parse_line_grammar (h : Header) {atoi : List Char → Int}
    (hatoi : Exact atoi) {str : Nat → Char} {line : List Char}
    (hstr : HoldsString str line) {buffer : List Char}
    (hbuf : buffer.length = h.maxBufferLength + 1) :
    ((parseLineAt h atoi str buffer).ret = 1 ↔ Numeral h line)
      ∧ ((parseLineAt h atoi str buffer).ret = 1 →
          (parseLineAt h atoi str buffer).index = some (decimal line - 1))
      ∧ (∀ k ∈ (parseLineAt h atoi str buffer).reads, k ≤ line.length)
      ∧ ∀ k ∈ (parseLineAt h atoi str buffer).writes,
          k < h.maxBufferLength + 1 := by
  obtain ⟨hagrees, hreads, hwrites⟩ := parseLineAt_eq h atoi hstr hbuf
  suffices hmain : ((parseLineAt h atoi str buffer).ret = 1 ↔ Numeral h line)
      ∧ ((parseLineAt h atoi str buffer).ret = 1 →
          (parseLineAt h atoi str buffer).index
            = some (decimal line - 1)) from
    ⟨hmain.1, hmain.2, hreads, hbuf ▸ hwrites⟩
  cases hline : parseLine h atoi line with
  | none =>
      rw [hline] at hagrees
      have hret : (parseLineAt h atoi str buffer).ret = 0 := hagrees
      rw [hret]
      refine ⟨⟨fun h1 => (by cases h1), fun hnum => ?_⟩, fun h1 => by cases h1⟩
      rw [(parseLine_eq_some_iff hatoi hstr.noNul).mpr ⟨hnum, rfl⟩] at hline
      cases hline
  | some index =>
      rw [hline] at hagrees
      obtain ⟨hret, hindex⟩ := hagrees
      obtain ⟨hnum, hval⟩ :=
        (parseLine_eq_some_iff hatoi hstr.noNul).mp hline
      exact ⟨⟨fun _ => hnum, fun _ => hret⟩, fun _ => hval ▸ hindex⟩

/-- The line 07, with more characters after its terminator. -/
def seven : Nat → Char
  | 0 => '0'
  | 1 => '7'
  | 2 => nul
  | _ => 'x'

theorem seven_holds : HoldsString seven ['0', '7'] where
  chars := by decide
  noNul := by decide
  terminator := rfl

/-- It is accepted, for cell 6. -/
theorem parse_line_grammar_seven :
    (parseLineAt Header.sample decimal seven (List.replicate 81 'x')).ret = 1
      ∧ (parseLineAt Header.sample decimal seven
          (List.replicate 81 'x')).index = some 6 := by
  obtain ⟨hret, hindex, -, -⟩ := parse_line_grammar Header.sample
    (fun _ _ _ => rfl : Exact decimal) seven_holds
    (List.length_replicate : (List.replicate 81 'x').length = 81)
  have hdigits : ∀ c ∈ ['0', '7'], IsDigit c :=
    List.forall_mem_cons.mpr
      ⟨by decide, List.forall_mem_singleton.mpr (by decide)⟩
  have hone := hret.mpr ⟨by decide, hdigits, by decide, by decide, by decide⟩
  exact ⟨hone, hindex hone⟩

end SyeLabs.Tictactoe
