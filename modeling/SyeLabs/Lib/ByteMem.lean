/-
Byte-addressed memory: block writes, 32-bit little-endian words and
NUL-terminated strings in it.

Every store is an instance of `writeBytes`, so one agreement lemma
(`writeBytes_of_not_mem`) frames them all. Reads are stated as facts
about a memory rather than about the store that produced it: `load32`
and `StrAt` depend only on the bytes of their extent (`load32_congr`,
`StrAt.congr`), which is what carries a fact over later stores
elsewhere and over a copy to another place.
-/
import Mathlib.Data.List.Basic
import Mathlib.Tactic.Common

namespace SyeLabs.Lib

/-- Memory as a map from addresses to bytes. -/
abbrev ByteMem := Nat → UInt8

-- ================================================================ block writes

/-- `memcpy` of a list of bytes to address `a`. -/
def writeBytes (m : ByteMem) (a : Nat) (bs : List UInt8) : ByteMem :=
  fun x => if a ≤ x then (bs[x - a]?).getD (m x) else m x

/-- `memset(a, v, n)`. -/
def memset (m : ByteMem) (a : Nat) (v : UInt8) (n : Nat) : ByteMem :=
  fun x => if a ≤ x ∧ x < a + n then v else m x

/-- `memcpy(dst, src, n)`. -/
def memcpy (m : ByteMem) (dst src n : Nat) : ByteMem :=
  fun x => if dst ≤ x ∧ x < dst + n then m (src + (x - dst)) else m x

/-- A write is invisible outside its extent. -/
theorem writeBytes_of_not_mem {m : ByteMem} {a x : Nat} {bs : List UInt8}
    (h : x < a ∨ a + bs.length ≤ x) : writeBytes m a bs x = m x := by
  unfold writeBytes
  split
  · rw [List.getElem?_eq_none (by omega)]
    rfl
  · rfl

/-- Inside its extent a write is what was written. -/
theorem writeBytes_getElem {m : ByteMem} {a i : Nat} {bs : List UInt8}
    (h : i < bs.length) : writeBytes m a bs (a + i) = bs[i] := by
  unfold writeBytes
  rw [if_pos (by omega), Nat.add_sub_cancel_left, List.getElem?_eq_getElem h]
  rfl

-- ======================================================================= words

/-- The four bytes of a word, least significant first. -/
def le32 (w : Nat) : List UInt8 :=
  [UInt8.ofNat w, UInt8.ofNat (w / 256), UInt8.ofNat (w / 65536),
    UInt8.ofNat (w / 16777216)]

@[simp] theorem le32_length (w : Nat) : (le32 w).length = 4 := rfl

/-- The word at address `a`. -/
def load32 (m : ByteMem) (a : Nat) : Nat :=
  (m a).toNat + (m (a + 1)).toNat * 256 + (m (a + 2)).toNat * 65536
    + (m (a + 3)).toNat * 16777216

/-- Store a word at address `a`. -/
def store32 (m : ByteMem) (a w : Nat) : ByteMem := writeBytes m a (le32 w)

/-- A loaded word depends on its four bytes only. -/
theorem load32_congr {m m' : ByteMem} {a a' : Nat}
    (h : ∀ i, i < 4 → m (a + i) = m' (a' + i)) :
    load32 m a = load32 m' a' := by
  unfold load32
  rw [show m a = m' a' from h 0 (by decide), h 1 (by decide),
    h 2 (by decide), h 3 (by decide)]

/-- A stored word reads back modulo 2^32. -/
theorem load32_store32 (m : ByteMem) (a w : Nat) :
    load32 (store32 m a w) a = w % 4294967296 := by
  have hb : ∀ i (hi : i < (le32 w).length),
      writeBytes m a (le32 w) (a + i) = (le32 w)[i] :=
    fun i hi => writeBytes_getElem hi
  unfold load32 store32
  rw [show writeBytes m a (le32 w) a = (le32 w)[0] from hb 0 (by simp),
    hb 1 (by simp), hb 2 (by simp), hb 3 (by simp)]
  simp only [le32, List.getElem_cons_zero, List.getElem_cons_succ,
    UInt8.toNat_ofNat']
  omega

theorem load32_store32_of_lt {m : ByteMem} {a w : Nat}
    (h : w < 4294967296) : load32 (store32 m a w) a = w := by
  rw [load32_store32, Nat.mod_eq_of_lt h]

/-- A store is invisible outside its four bytes. -/
theorem store32_of_not_mem {m : ByteMem} {a x w : Nat}
    (h : x < a ∨ a + 4 ≤ x) : store32 m a w x = m x :=
  writeBytes_of_not_mem h

/-- A word is zero only if its bytes are. -/
theorem load32_eq_zero {m : ByteMem} {a : Nat}
    (h : ∀ i, i < 4 → m (a + i) = 0) : load32 m a = 0 := by
  unfold load32
  rw [show m a = 0 from h 0 (by decide), h 1 (by decide), h 2 (by decide),
    h 3 (by decide)]
  rfl

-- ===================================================================== strings

/-- A C string: its bytes before the terminator, none of them NUL. -/
structure CString where
  bytes : List UInt8
  noNul : ∀ b ∈ bytes, b ≠ 0

/-- A string given by its bytes. -/
def CString.lit (bytes : List UInt8) (h : 0 ∉ bytes) : CString where
  bytes := bytes
  noNul := fun _ hb h0 => h (h0 ▸ hb)

/-- The bytes it takes with its terminator. -/
def CString.size (s : CString) : Nat := s.bytes.length + 1

/-- `strcpy(a, s)`. -/
def strcpy (m : ByteMem) (a : Nat) (s : CString) : ByteMem :=
  writeBytes m a (s.bytes ++ [0])

/-- The bytes of `s` and its terminator stand at `a`. -/
def StrAt (m : ByteMem) (a : Nat) (s : CString) : Prop :=
  (∀ i (hi : i < s.bytes.length), m (a + i) = s.bytes[i])
    ∧ m (a + s.bytes.length) = 0

theorem StrAt.congr {m m' : ByteMem} {a a' : Nat} {s : CString}
    (hs : StrAt m a s) (h : ∀ i, i < s.size → m' (a' + i) = m (a + i)) :
    StrAt m' a' s := by
  unfold CString.size at h
  refine ⟨fun i hi => ?_, ?_⟩
  · rw [h i (by omega)]
    exact hs.1 i hi
  · rw [h _ (by omega)]
    exact hs.2

theorem strAt_strcpy (m : ByteMem) (a : Nat) (s : CString) :
    StrAt (strcpy m a s) a s := by
  refine ⟨fun i hi => ?_, ?_⟩
  · have hlt : i < (s.bytes ++ [0]).length := by
      simp only [List.length_append, List.length_singleton]
      omega
    rw [strcpy, writeBytes_getElem hlt, List.getElem_append_left hi]
  · have hlt : s.bytes.length < (s.bytes ++ [0]).length := by simp
    rw [strcpy, writeBytes_getElem hlt]
    simp

theorem strcpy_of_not_mem {m : ByteMem} {a x : Nat} {s : CString}
    (h : x < a ∨ a + s.size ≤ x) : strcpy m a s x = m x := by
  apply writeBytes_of_not_mem
  unfold CString.size at h
  simpa using h

-- =============================================================== runs of bytes

/-- The bytes `bs` stand at `a`. -/
def BytesAt (m : ByteMem) (a : Nat) (bs : List UInt8) : Prop :=
  ∀ i (hi : i < bs.length), m (a + i) = bs[i]

theorem BytesAt.append {m : ByteMem} {a : Nat} {bs cs : List UInt8}
    (hb : BytesAt m a bs) (hc : BytesAt m (a + bs.length) cs) :
    BytesAt m a (bs ++ cs) := by
  intro i hi
  by_cases hlt : i < bs.length
  · rw [List.getElem_append_left hlt]
    exact hb i hlt
  · rw [List.length_append] at hi
    have hge : bs.length ≤ i := Nat.le_of_not_lt hlt
    rw [List.getElem_append_right hge, ← hc (i - bs.length) (by omega),
      Nat.add_assoc, Nat.add_sub_cancel' hge]

/-- Zero bytes. -/
theorem bytesAt_replicate {m : ByteMem} {a n : Nat}
    (h : ∀ i, i < n → m (a + i) = 0) :
    BytesAt m a (List.replicate n 0) := by
  intro i hi
  rw [List.length_replicate] at hi
  rw [h i hi, List.getElem_replicate]

/-- The bytes of the word at `a` are its little-endian form. -/
theorem bytesAt_le32 {m : ByteMem} {a w : Nat} (h : load32 m a = w) :
    BytesAt m a (le32 w) := by
  have h0 := (m a).toNat_lt
  have h1 := (m (a + 1)).toNat_lt
  have h2 := (m (a + 2)).toNat_lt
  have h3 := (m (a + 3)).toNat_lt
  unfold load32 at h
  have hbyte : ∀ b : UInt8, ∀ n : Nat, n % 256 = b.toNat →
      b = UInt8.ofNat n := by
    intro b n hn
    apply UInt8.toNat_inj.mp
    rw [UInt8.toNat_ofNat', ← hn]
  intro i hi
  rw [le32_length] at hi
  match i, hi with
  | 0, _ => exact hbyte (m a) _ (by omega)
  | 1, _ => exact hbyte _ _ (by omega)
  | 2, _ => exact hbyte _ _ (by omega)
  | 3, _ => exact hbyte _ _ (by omega)

/-- A string stands as its bytes and a NUL. -/
theorem StrAt.bytesAt {m : ByteMem} {a : Nat} {s : CString}
    (h : StrAt m a s) : BytesAt m a (s.bytes ++ [0]) := by
  apply BytesAt.append h.1
  intro i hi
  obtain rfl : i = 0 := Nat.lt_one_iff.mp hi
  exact h.2

/-- What a reader sees at `a`: the bytes up to the first NUL, at most
`fuel` of them. -/
def readStr (m : ByteMem) : Nat → Nat → List UInt8
  | 0, _ => []
  | fuel + 1, a => if m a = 0 then [] else m a :: readStr m fuel (a + 1)

/-- A string in memory is read back as it stands. -/
theorem readStr_of_strAt (fuel : Nat) {m : ByteMem} {s : CString}
    {a : Nat} (h : StrAt m a s) (hf : s.size ≤ fuel) :
    readStr m fuel a = s.bytes := by
  obtain ⟨bytes, hno⟩ := s
  unfold CString.size at hf
  dsimp only at hf
  induction bytes generalizing a fuel with
  | nil =>
      obtain ⟨f, rfl⟩ : ∃ f, fuel = f + 1 := ⟨fuel - 1, by simp at hf; omega⟩
      have hnul : m a = 0 := by simpa using h.2
      simp [readStr, hnul]
  | cons b bs ih =>
      obtain ⟨f, rfl⟩ : ∃ f, fuel = f + 1 := ⟨fuel - 1, by simp at hf; omega⟩
      have hb : m a = b := h.1 0 (Nat.zero_lt_succ _)
      have hb0 : b ≠ 0 := hno b (by simp)
      have hrest : StrAt m (a + 1) ⟨bs, fun c hc => hno c (by simp [hc])⟩ := by
        refine ⟨fun i hi => ?_, ?_⟩
        · have := h.1 (i + 1) (by simpa using hi)
          simpa [Nat.add_assoc, Nat.add_comm 1] using this
        · have := h.2
          simpa [Nat.add_assoc, Nat.add_comm 1] using this
      have htail := ih f (fun c hc => hno c (by simp [hc])) hrest
        (by simp at hf; omega)
      simp only [readStr, hb, if_neg hb0]
      rw [htail]

end SyeLabs.Lib
