/-
The argument page byte by byte, and when it is packed at all.

`ArgPage` says what a reader finds in the page; `argBytes` lists the
page, with its padding: a page that reads as the arguments and is zero
behind them has no other byte (`ArgPage.bytesAt`). So the page that
`post_setup_image` leaves depends on the arguments and on where it
stands, not on the page it was moved from (`packed_page`).

Packing fails exactly if the packed form is longer than the page
(`preserveArgsAndEnv_unfit`), as the name of the process, which no loop
checks, fits for itself.
-/
import SyeLabs.Process.ArgsRoundTrip

namespace SyeLabs.Process

open Lib

-- ============================================================= the closed form

/-- Strings back to back, each with its NUL. -/
def strBytes (ss : List CString) : List UInt8 :=
  ss.flatMap fun s => s.bytes ++ [0]

/-- Pointers one after the other. -/
def ptrBytes (ptrs : List Nat) : List UInt8 := ptrs.flatMap le32

/-- The argument page at `base`, in full. -/
def argBytes (base : Nat) (as es : List CString) : List UInt8 :=
  let str := base + headerSize as.length es.length
  le32 as.length
    ++ (ptrBytes (layout as str)
    ++ (ptrBytes (layout es (str + totalSize as))
    ++ (le32 0
    ++ (strBytes as
    ++ (strBytes es
    ++ List.replicate (pageSize - packedSize as es) 0)))))

theorem strBytes_length (ss : List CString) :
    (strBytes ss).length = totalSize ss := by
  induction ss with
  | nil => rfl
  | cons s ss ih =>
      rw [strBytes, List.flatMap_cons, List.length_append,
        List.length_append]
      show s.bytes.length + 1 + (strBytes ss).length = _
      rw [ih, totalSize_cons]
      rfl

theorem ptrBytes_length (ptrs : List Nat) :
    (ptrBytes ptrs).length = 4 * ptrs.length := by
  induction ptrs with
  | nil => rfl
  | cons p ptrs ih =>
      rw [ptrBytes, List.flatMap_cons, List.length_append, le32_length]
      show 4 + (ptrBytes ptrs).length = _
      rw [ih, List.length_cons]
      omega

/-- The packed form and its padding fill the page. -/
theorem argBytes_length {base : Nat} {as es : List CString}
    (hfit : packedSize as es ≤ pageSize) :
    (argBytes base as es).length = pageSize := by
  simp only [argBytes, List.length_append, le32_length, ptrBytes_length,
    layout_length, strBytes_length, List.length_replicate]
  unfold packedSize at hfit ⊢
  omega

-- =========================================================== what stands there

/-- A layout as bytes: its pointers in the slots, its strings behind. -/
theorem Laid.bytesAt {m : ByteMem} {ss : List CString}
    {slot str ptr : Nat} (h : Laid m ss slot str ptr) :
    BytesAt m slot (ptrBytes (layout ss ptr))
      ∧ BytesAt m str (strBytes ss) := by
  induction ss generalizing slot str ptr with
  | nil =>
      exact ⟨fun i hi => absurd hi (Nat.not_lt_zero i),
        fun i hi => absurd hi (Nat.not_lt_zero i)⟩
  | cons s ss ih =>
      obtain ⟨hptr, hs, hrest⟩ := h
      obtain ⟨hptrs, hstrs⟩ := ih hrest
      constructor
      · exact (bytesAt_le32 hptr).append hptrs
      · apply hs.bytesAt.append
        rw [List.length_append, List.length_singleton]
        exact hstrs

/-- A page that holds the arguments and is zero behind them is `argBytes`
and nothing else. -/
theorem ArgPage.bytesAt {m : ByteMem} {a : Nat} {as es : List CString}
    (h : ArgPage m a as es a)
    (hzero : ∀ i, packedSize as es ≤ i → i < pageSize → m (a + i) = 0) :
    BytesAt m a (argBytes a as es) := by
  obtain ⟨hargp, hargs⟩ := h.args.bytesAt
  obtain ⟨henvp, henvs⟩ := h.env.bytesAt
  have hnull := bytesAt_le32 h.null
  apply (bytesAt_le32 h.count).append
  rw [le32_length]
  apply hargp.append
  rw [ptrBytes_length, layout_length]
  apply henvp.append
  rw [ptrBytes_length, layout_length]
  apply hnull.append
  rw [le32_length]
  have hstr : a + 4 + 4 * as.length + 4 * es.length + 4
      = a + headerSize as.length es.length := by
    unfold headerSize
    omega
  rw [hstr]
  apply hargs.append
  rw [strBytes_length]
  apply henvs.append
  rw [strBytes_length]
  apply bytesAt_replicate
  intro i hi
  have hat : a + headerSize as.length es.length + totalSize as
      + totalSize es + i = a + (packedSize as es + i) := by
    unfold headerSize packedSize
    omega
  rw [hat]
  exact hzero _ (Nat.le_add_right _ i) (by omega)

/-- The page packed at `args` and moved to `base` is `argBytes`,
whatever the memory around it held and has become. -/
theorem packed_page (args base : Nat) (name : CString) (argc : Nat)
    (argv envp : Option (List CString)) (m : ByteMem)
    (hargc : argc ≤ (argv.getD []).length)
    (hfit : packedSize (argStrings name argc argv) (envp.getD [])
      ≤ pageSize)
    (hargs : args + pageSize ≤ 4294967296)
    (hbase : base + pageSize ≤ 4294967296) :
    ∃ m₁, preserveArgsAndEnv args name argc argv envp m = (m₁, .ok args)
      ∧ ∀ m₁', (∀ i, i < pageSize → m₁' (args + i) = m₁ (args + i)) →
          ∃ m₂, postSetupImage args base m₁' = some m₂
            ∧ BytesAt m₂ base
              (argBytes base (argStrings name argc argv)
                (envp.getD [])) := by
  obtain ⟨m₁, hrun, hpage, hzero⟩ :=
    preserveArgsAndEnv_page (m := m) hargc hfit hargs
  refine ⟨m₁, hrun, fun m₁' hsame => ?_⟩
  obtain ⟨m₂, hmove, hpage₂, hrest⟩ :=
    postSetupImage_page (hpage.frame hfit hsame) hfit hbase
  refine ⟨m₂, hmove, ?_⟩
  apply hpage₂.bytesAt
  intro i hi hi'
  rw [hrest i hi hi', hsame i hi']
  exact hzero _ (Nat.add_le_add_left hi args) (Nat.add_lt_add_left hi' args)

/-- Given arguments are all there is in the page. -/
theorem argStrings_some {name : CString} {as : List CString}
    (has : as ≠ []) : argStrings name as.length (some as) = as := by
  rw [argStrings, if_neg fun h => has (List.length_eq_zero_iff.mp h)]
  exact List.take_length

/-- A memory with the bytes of the page holds the page. -/
theorem argPage_of_bytesAt {m : ByteMem} {base : Nat} {as es : List CString}
    (has : as ≠ []) (hfit : packedSize as es ≤ pageSize)
    (hbase : base + pageSize ≤ 4294967296)
    (h : BytesAt m base (argBytes base as es)) :
    ArgPage m base as es base := by
  have hsize : packedSize (argStrings (as.head has) as.length (some as))
      ((some es).getD []) ≤ pageSize := by
    rw [argStrings_some has]
    exact hfit
  -- a page packed at `base` itself has the same bytes
  obtain ⟨m₁, -, hpage, hzero⟩ := preserveArgsAndEnv_page (m := fun _ => 0)
    (Nat.le_refl as.length) hsize hbase
  rw [argStrings_some has] at hpage hzero
  have hbytes : BytesAt m₁ base (argBytes base as es) :=
    hpage.bytesAt fun i hi hi' =>
      hzero _ (Nat.add_le_add_left hi base) (Nat.add_lt_add_left hi' base)
  refine hpage.frame hfit fun i hi => ?_
  have hlt : i < (argBytes base as es).length := by
    rw [argBytes_length hfit]
    exact hi
  rw [h i hlt, hbytes i hlt]

-- ================================================================ when it fits

/-- A packing loop gives up exactly if it packs anything and the cursor
ends past the page. -/
theorem packStrings_cursor (args : Nat) (ss : List CString) :
    ∀ (slot str : Nat) (m : ByteMem),
      (packStrings args ss slot str m).2
        = if ss ≠ [] ∧ pageSize < str + totalSize ss - args then none
          else some (str + totalSize ss) := by
  induction ss with
  | nil =>
      intro slot str m
      rw [if_neg fun h => h.1 rfl]
      rfl
  | cons s ss ih =>
      intro slot str m
      have hne : s :: ss ≠ [] := List.cons_ne_nil s ss
      have hsum : str + totalSize (s :: ss)
          = str + s.size + totalSize ss := by
        rw [totalSize_cons, Nat.add_assoc]
      rw [packStrings]
      split
      next hgt =>
        rw [if_pos ⟨hne, by omega⟩]
      next hle =>
        rw [ih, hsum]
        by_cases hpast : pageSize < str + s.size + totalSize ss - args
        · have hss : ss ≠ [] := by
            intro heq
            subst heq
            rw [totalSize_nil] at hpast
            omega
          rw [if_pos ⟨hss, hpast⟩, if_pos ⟨hne, hpast⟩]
        · rw [if_neg fun h => hpast h.2, if_neg fun h => hpast h.2]

/-- Where a packing loop that does not give up leaves the cursor. -/
theorem packStrings_some {args : Nat} {ss : List CString}
    {slot str str' : Nat} {m m' : ByteMem}
    (h : packStrings args ss slot str m = (m', some str')) :
    str' = str + totalSize ss
      ∧ (ss ≠ [] → str + totalSize ss - args ≤ pageSize) := by
  have hcursor := packStrings_cursor args ss slot str m
  rw [h] at hcursor
  dsimp only at hcursor
  split at hcursor
  next => cases hcursor
  next hok =>
    refine ⟨Option.some.inj hcursor, fun hne => ?_⟩
    exact Nat.le_of_not_lt fun hlt => hok ⟨hne, hlt⟩

/-- Arguments that do not fit are not packed. -/
theorem preserveArgsAndEnv_unfit {args : Nat} {name : CString}
    {argv envp : Option (List CString)} {m : ByteMem}
    (hname : packedSize [name] [] ≤ pageSize)
    (hfit : pageSize < packedSize
      (argStrings name (argv.getD []).length argv) (envp.getD [])) :
    (preserveArgsAndEnv args name (argv.getD []).length argv envp m).2
      = .error .ENOMEM := by
  have hgo : ¬ (0 < (argv.getD []).length ∧ argv = none) := by
    intro h
    obtain ⟨hpos, rfl⟩ := h
    exact absurd hpos (Nat.lt_irrefl 0)
  unfold preserveArgsAndEnv
  rw [if_neg hgo]
  dsimp only
  unfold argStrings at hfit
  rw [List.take_length] at hfit ⊢
  generalize argv.getD [] = ss at hfit ⊢
  split
  next => rfl
  next m₁ str hrun =>
    split
    next => rfl
    next m₂ str' hrun' =>
      -- both loops ran: only strings no loop checks could be too long
      exfalso
      obtain ⟨hstr, hchecked⟩ := packStrings_some hrun
      obtain ⟨-, hchecked'⟩ := packStrings_some hrun'
      unfold packedSize at hname hfit
      cases ss with
      | nil =>
          simp only [List.length_nil, if_true, totalSize_nil,
            totalSize_cons, List.length_cons, reserveEnv_cursor]
            at hstr hfit hname
          generalize envp.getD [] = es at *
          cases es with
          | nil =>
              rw [totalSize_nil, List.length_nil] at hfit
              omega
          | cons e es =>
              have hle := hchecked' (List.cons_ne_nil e es)
              rw [List.length_cons] at *
              omega
      | cons s ss =>
          have hne : ¬ (s :: ss).length = 0 := Nat.succ_ne_zero _
          simp only [if_neg hne, reserveEnv_cursor] at hstr hfit hchecked
          generalize envp.getD [] = es at *
          have hle := hchecked (List.cons_ne_nil s ss)
          cases es with
          | nil =>
              rw [totalSize_nil, List.length_nil] at *
              omega
          | cons e es =>
              have hle' := hchecked' (List.cons_ne_nil e es)
              omega

end SyeLabs.Process
