import Rdpgen.FileIo
import Mathlib.Data.List.DropRight

namespace Rdpgen

def newline : UInt8 := byte '\n'

/-- A file on the stack by its contents and the offset of its current character. -/
structure Place where
  bytes : Bytes
  offset : Nat
  deriving DecidableEq, Repr

def StackOp.place (ps : List Place) : StackOp → List Place
  | .openFile _ bytes => ⟨bytes, 0⟩ :: ps
  | .consume =>
    match ps with
    | [] => []
    | p :: ps =>
      if p.offset + 1 < p.bytes.length then { p with offset := p.offset + 1 } :: ps else ps

/-- Where the calls leave every file that is still open. -/
def places (ops : List StackOp) : List Place := ops.foldl StackOp.place []

/-- The bytes `consume_char` has read from the file. The first one came with
`open_input_file`. -/
def Place.consumed (p : Place) : Bytes := (p.bytes.take (p.offset + 1)).tail

/-- The bytes behind the last newline. -/
def lastLine (s : Bytes) : Bytes := s.rtakeWhile (· != newline)

structure Place.At (p : Place) (file : FilePtr) : Prop where
  fp : file.fp = p.bytes.drop (p.offset + 1)
  ch : file.ch = peek (p.bytes.drop p.offset)
  lineNo : file.lineNo = 1 + (p.consumed.count newline : Nat)
  colNo : file.colNo = 1 + ((lastLine p.consumed).length : Nat)

section

variable {s : Bytes} {b : UInt8}

@[simp] theorem lastLine_nil : lastLine [] = [] := rfl

theorem lastLine_concat (s : Bytes) (b : UInt8) :
    lastLine (s ++ [b]) = if b = newline then [] else lastLine s ++ [b] := by
  unfold lastLine
  rw [List.rtakeWhile_concat]
  by_cases hb : b = newline
  · simp [hb]
  · simp [hb]

theorem lastLine_of_notMem (h : newline ∉ s) : lastLine s = s := by
  unfold lastLine
  rw [List.rtakeWhile_eq_self_iff]
  intro b hb
  have hne : b ≠ newline := fun he => h (he ▸ hb)
  simp [hne]

/-- The first byte counts for a line without a newline in front of it only. -/
theorem lastLine_cons_of_mem (h : newline ∈ b :: s) : lastLine (b :: s) = lastLine s := by
  induction s using List.reverseRecOn with
  | nil =>
    have hb : newline = b := by simpa using h
    subst hb
    rfl
  | append_singleton s c ih =>
    rw [← List.cons_append, lastLine_concat, lastLine_concat]
    by_cases hc : c = newline
    · rw [if_pos hc, if_pos hc]
    · have hmem : newline ∈ b :: s := by
        simpa [List.mem_append, Ne.symm hc] using h
      rw [if_neg hc, if_neg hc, ih hmem]

end

namespace Place

variable {p : Place} {b : UInt8}

theorem consumed_succ (h : p.bytes[p.offset + 1]? = some b) :
    Place.consumed ⟨p.bytes, p.offset + 1⟩ = p.consumed ++ [b] := by
  obtain ⟨hlt, -⟩ := List.getElem?_eq_some_iff.mp h
  have hne : p.bytes.take (p.offset + 1) ≠ [] := by
    apply List.ne_nil_of_length_pos
    rw [List.length_take]
    omega
  unfold consumed
  rw [List.take_add_one, h, Option.toList_some, List.tail_append_of_ne_nil hne]

theorem at_openInputFile (fname bytes : Bytes) (st : FileStack) :
    ∃ file, st.openInputFile fname bytes = file :: st ∧ Place.At ⟨bytes, 0⟩ file := by
  refine ⟨_, rfl, ?_⟩
  cases bytes with
  | nil => exact ⟨rfl, rfl, rfl, rfl⟩
  | cons b bytes => exact ⟨rfl, rfl, rfl, rfl⟩

/-- At the last byte the file is closed. -/
theorem consumeChar_last {file : FilePtr} {next : FileStack} (h : p.At file)
    (hlast : p.bytes.length ≤ p.offset + 1) : FileStack.consumeChar (file :: next) = (next.getChar, next) := by
  have hfp : file.fp = [] := by rw [h.fp, List.drop_eq_nil_of_le hlast]
  simp [FileStack.consumeChar, fgetc, hfp, FileStack.closeInputFile]

theorem consumeChar_next {file : FilePtr} (next : FileStack) (h : p.At file)
    (hlt : p.offset + 1 < p.bytes.length) :
    ∃ file', (FileStack.consumeChar (file :: next)).2 = file' :: next ∧
      Place.At ⟨p.bytes, p.offset + 1⟩ file' := by
  have hb := List.getElem?_eq_getElem hlt
  generalize p.bytes[p.offset + 1] = b at hb
  have hdrop : p.bytes.drop (p.offset + 1) = b :: p.bytes.drop (p.offset + 1 + 1) := by
    obtain ⟨_, heq⟩ := List.getElem?_eq_some_iff.mp hb
    rw [List.drop_eq_getElem_cons hlt, heq]
  have hfp : file.fp = b :: p.bytes.drop (p.offset + 1 + 1) := h.fp.trans hdrop
  have hch : chr b = peek (p.bytes.drop (p.offset + 1)) := by rw [hdrop, peek_cons]
  by_cases hnl : b = newline
  · refine ⟨{ file with ch := chr b, fp := p.bytes.drop (p.offset + 1 + 1),
                        lineNo := file.lineNo + 1, colNo := 1 }, ?_, rfl, hch, ?_, ?_⟩
    · simp [FileStack.consumeChar, fgetc, hfp, hnl, newline]
    · simp [consumed_succ hb, hnl, h.lineNo, Int.add_assoc]
    · rw [consumed_succ hb, lastLine_concat, if_pos hnl]
      rfl
  · refine ⟨{ file with ch := chr b, fp := p.bytes.drop (p.offset + 1 + 1),
                        colNo := file.colNo + 1 }, ?_, rfl, hch, ?_, ?_⟩
    · have hne : ¬b = byte '\n' := hnl
      simp [FileStack.consumeChar, fgetc, hfp, hne]
    · simp [consumed_succ hb, hnl, h.lineNo]
    · rw [consumed_succ hb, lastLine_concat, if_neg hnl, h.colNo, List.length_append]
      simp [Int.add_assoc]

end Place

/-- Every open file is where the calls left it, whatever happened above it. -/
theorem places_run (ops : List StackOp) : List.Forall₂ Place.At (places ops) (FileStack.run ops) := by
  induction ops using List.reverseRecOn with
  | nil => exact .nil
  | append_singleton ops op ih =>
    rw [FileStack.run_append_singleton, places, List.foldl_append]
    change List.Forall₂ _ (op.place (places ops)) _
    cases op with
    | openFile fname bytes =>
      obtain ⟨file, heq, hat⟩ := Place.at_openInputFile fname bytes (FileStack.run ops)
      simp only [StackOp.apply, heq]
      exact .cons hat ih
    | consume =>
      generalize hps : places ops = ps at ih
      generalize hst : FileStack.run ops = st at ih
      cases ih with
      | nil => exact .nil
      | @cons p file ps next hat hrest =>
        simp only [StackOp.place, StackOp.apply]
        split
        · next hlt =>
          obtain ⟨file', heq, hat'⟩ := Place.consumeChar_next next hat hlt
          rw [heq]
          exact .cons hat' hrest
        · next hge =>
          rw [Place.consumeChar_last hat (Nat.le_of_not_lt hge)]
          exact hrest

theorem places_top {ops : List StackOp} {p : Place} (h : (places ops).head? = some p) :
    ∃ file next, FileStack.run ops = file :: next ∧ p.At file := by
  have hrun := places_run ops
  obtain ⟨ps, hps⟩ := List.head?_eq_some_iff.mp h
  rw [hps] at hrun
  generalize FileStack.run ops = st at hrun ⊢
  cases hrun with
  | cons hat _ => exact ⟨_, _, rfl, hat⟩

/-- An `int` counts up to `n`. A count from `2 ^ 31` on has overflowed. -/
def IntShows (counter : Int) (n : Nat) : Prop := counter = n ∧ counter < 2 ^ 31

section

variable {p : Place} {b : UInt8}

theorem getChar_of_at {file : FilePtr} {next : FileStack} (h : p.At file)
    (hb : p.bytes[p.offset]? = some b) : FileStack.getChar (file :: next) = chr b := by
  obtain ⟨hlt, heq⟩ := List.getElem?_eq_some_iff.mp hb
  change file.ch = chr b
  rw [h.ch, List.drop_eq_getElem_cons hlt, heq, peek_cons]

/-- In front of a character other than a newline all newlines but a first one have been counted. -/
theorem count_consumed (hb : p.bytes[p.offset]? = some b) (hnl : b ≠ newline) :
    p.consumed.count newline + (if p.bytes.head? = some newline then 1 else 0) =
      (p.bytes.take p.offset).count newline := by
  unfold Place.consumed
  rw [List.take_add_one, hb, Option.toList_some]
  cases hk : p.offset with
  | zero =>
    rw [hk, ← List.head?_eq_getElem?] at hb
    simp [hb, hnl]
  | succ k =>
    cases hbytes : p.bytes with
    | nil => simp [hbytes] at hb
    | cons c bytes =>
      simp only [List.take_succ_cons, List.cons_append, List.tail_cons, List.count_append,
        List.count_cons, List.count_nil, List.head?_cons, Option.some.injEq, beq_iff_eq, hnl,
        if_false, Nat.add_zero]

/-- Behind a newline the columns are one too large. -/
theorem length_lastLine_consumed (hb : p.bytes[p.offset]? = some b) (hnl : b ≠ newline) :
    (lastLine p.consumed).length =
      (lastLine (p.bytes.take p.offset)).length +
        (if newline ∈ p.bytes.take p.offset then 1 else 0) := by
  unfold Place.consumed
  rw [List.take_add_one, hb, Option.toList_some]
  cases hk : p.offset with
  | zero => simp
  | succ k =>
    cases hbytes : p.bytes with
    | nil => simp [hbytes] at hb
    | cons c bytes =>
      rw [List.take_succ_cons, List.cons_append, List.tail_cons, lastLine_concat, if_neg hnl]
      by_cases hmem : newline ∈ c :: bytes.take k
      · rw [lastLine_cons_of_mem hmem, if_pos hmem, List.length_append, List.length_singleton]
      · have htail : newline ∉ bytes.take k := fun h => hmem (List.mem_cons_of_mem c h)
        rw [lastLine_of_notMem hmem, lastLine_of_notMem htail, if_neg hmem]
        simp

end

/-- Line numbers are exact in a file that does not start with a newline. -/
theorem getLineNo_exact_iff {ops : List StackOp} {p : Place} {b : UInt8}
    (htop : (places ops).head? = some p) (hb : p.bytes[p.offset]? = some b) (hnl : b ≠ newline) :
    (FileStack.run ops).getChar = chr b ∧
      (IntShows (FileStack.run ops).getLineNo (1 + (p.bytes.take p.offset).count newline) ↔
        p.bytes.head? ≠ some newline ∧ 1 + (p.bytes.take p.offset).count newline < 2 ^ 31) := by
  obtain ⟨file, next, hrun, hat⟩ := places_top htop
  have hcount := count_consumed hb hnl
  have hline : (FileStack.run ops).getLineNo = 1 + (p.consumed.count newline : Nat) := by
    rw [hrun]
    exact hat.lineNo
  refine ⟨by rw [hrun]; exact getChar_of_at hat hb, ?_⟩
  unfold IntShows
  rw [hline]
  by_cases hfirst : p.bytes.head? = some newline
  · rw [if_pos hfirst] at hcount
    constructor
    · intro hshows
      omega
    · exact fun hcond => absurd hfirst hcond.1
  · rw [if_neg hfirst] at hcount
    constructor
    · intro hshows
      exact ⟨hfirst, by omega⟩
    · intro hcond
      omega

/-- The second byte of a file that starts with a newline is in line 1. -/
theorem getLineNo_misses_first_newline :
    ¬ IntShows (FileStack.run [.openFile [102] [10, 97], .consume]).getLineNo
      (1 + List.count newline (List.take 1 [10, 97])) := by
  intro h
  exact absurd h.1 (by decide)

/-- The line numbers of a file behind a file that was opened on top of it and read to its end. -/
theorem getLineNo_exact_nested :
    IntShows (FileStack.run [.openFile [102] [97, 10, 98], .consume, .consume,
      .openFile [103] [10], .consume]).getLineNo 2 :=
  (getLineNo_exact_iff (p := ⟨[97, 10, 98], 2⟩) (b := 98) rfl rfl (by decide)).2.mpr (by decide)

/-- Column numbers are exact in the first line. -/
theorem getColNo_exact_iff {ops : List StackOp} {p : Place} {b : UInt8}
    (htop : (places ops).head? = some p) (hb : p.bytes[p.offset]? = some b) (hnl : b ≠ newline) :
    (FileStack.run ops).getChar = chr b ∧
      (IntShows (FileStack.run ops).getColNo (1 + (lastLine (p.bytes.take p.offset)).length) ↔
        newline ∉ p.bytes.take p.offset ∧ 1 + p.offset < 2 ^ 31) := by
  obtain ⟨file, next, hrun, hat⟩ := places_top htop
  have hlength := length_lastLine_consumed hb hnl
  have hcol : (FileStack.run ops).getColNo = 1 + ((lastLine p.consumed).length : Nat) := by
    rw [hrun]
    exact hat.colNo
  refine ⟨by rw [hrun]; exact getChar_of_at hat hb, ?_⟩
  unfold IntShows
  rw [hcol]
  by_cases hmem : newline ∈ p.bytes.take p.offset
  · rw [if_pos hmem] at hlength
    constructor
    · intro hshows
      omega
    · exact fun hcond => absurd hmem hcond.1
  · rw [if_neg hmem] at hlength
    obtain ⟨hlt, -⟩ := List.getElem?_eq_some_iff.mp hb
    have hoffset : (lastLine (p.bytes.take p.offset)).length = p.offset := by
      rw [lastLine_of_notMem hmem, List.length_take]
      omega
    constructor
    · intro hshows
      exact ⟨hmem, by omega⟩
    · intro hcond
      omega

/-- The first character of the second line has column 2. -/
theorem getColNo_second_line :
    ¬ IntShows (FileStack.run [.openFile [102] [97, 10, 98], .consume, .consume]).getColNo
      (1 + (lastLine (List.take 2 [97, 10, 98])).length) := by
  intro h
  exact absurd h.1 (by decide)

theorem getColNo_exact_first_line :
    IntShows (FileStack.run [.openFile [102] [97, 98], .consume]).getColNo 2 :=
  (getColNo_exact_iff (p := ⟨[97, 98], 1⟩) (b := 98) rfl rfl (by decide)).2.mpr (by decide)

end Rdpgen
