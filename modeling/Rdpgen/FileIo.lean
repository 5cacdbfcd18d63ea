import Rdpgen.World
import Mathlib.Data.List.Infix
import Mathlib.Data.List.Induction

namespace Rdpgen

/-- `struct _file_ptr_`: `fp` holds the bytes `fgetc` has yet to deliver. -/
structure FilePtr where
  fp : Bytes
  fname : STR
  lineNo : Int
  colNo : Int
  ch : Int
  deriving DecidableEq, Repr

/-- The stack `file_stack`, linked by `next`. -/
abbrev FileStack := List FilePtr

def fgetc : Bytes → Int × Bytes
  | [] => (eof, [])
  | b :: fp => (chr b, fp)

namespace FileStack

def openInputFile (fname fp : Bytes) (st : FileStack) : FileStack :=
  -- an empty file is pushed as well, with the character `eof`
  let (ch, fp) := fgetc fp
  { fp, fname := copyStr fname, lineNo := 1, colNo := 1, ch } :: st

def closeInputFile : FileStack → FileStack
  | [] => []
  | _ :: next => next

def getChar : FileStack → Int
  | [] => eof
  | top :: _ => top.ch

def consumeChar : FileStack → Int × FileStack
  | [] => (eof, [])
  | top :: next =>
    let (ch, fp) := fgetc top.fp
    let top := { top with ch, fp }
    if ch = chr (byte '\n') then
      (ch, { top with lineNo := top.lineNo + 1, colNo := 1 } :: next)
    else if ch = eof then
      -- the answer is the current character of the file below
      let st := closeInputFile (top :: next)
      (getChar st, st)
    else
      (ch, { top with colNo := top.colNo + 1 } :: next)

def getLineNo : FileStack → Int
  | [] => -1
  | top :: _ => top.lineNo

def getColNo : FileStack → Int
  | [] => -1
  | top :: _ => top.colNo

end FileStack

/-- The bytes of one open file that no caller has consumed, its current
character included. -/
def FilePtr.unread (file : FilePtr) : Bytes :=
  if file.ch = eof then [] else uchar file.ch :: file.fp

/-- The remaining input: the unread bytes of every open file, top of stack first. -/
def FileStack.unread (st : FileStack) : Bytes := st.flatMap FilePtr.unread

def peek : Bytes → Int
  | [] => eof
  | b :: _ => chr b

@[simp] theorem peek_nil : peek [] = eof := rfl
@[simp] theorem peek_cons (b : UInt8) (u : Bytes) : peek (b :: u) = chr b := rfl

theorem peek_eq_eof {u : Bytes} : peek u = eof ↔ u = [] := by
  cases u <;> simp

/-- A file holds a character, or it was empty when it was opened. An empty
file hides nothing below it. -/
def FileStack.Clean : FileStack → Prop
  | [] => True
  | top :: next =>
    ((top.ch = eof ∧ top.fp = [] ∧ FileStack.unread next = []) ∨ ∃ b, top.ch = chr b) ∧ Clean next

namespace FileStack

@[simp] theorem unread_nil : unread [] = [] := rfl

@[simp] theorem unread_cons (top : FilePtr) (next : FileStack) :
    unread (top :: next) = top.unread ++ unread next := rfl

theorem unread_openInputFile (fname fp : Bytes) (st : FileStack) :
    (st.openInputFile fname fp).unread = fp ++ st.unread := by
  cases fp <;> simp [openInputFile, fgetc, FilePtr.unread]

theorem getChar_of_clean {st : FileStack} (h : st.Clean) : st.getChar = peek st.unread := by
  cases st with
  | nil => rfl
  | cons top next =>
    rcases h.1 with ⟨hch, -, hn⟩ | ⟨b, hb⟩
    · simp [getChar, FilePtr.unread, hch, hn]
    · simp [getChar, FilePtr.unread, hb]

theorem unread_consumeChar {st : FileStack} (h : st.Clean) :
    st.consumeChar.2.unread = st.unread.tail := by
  cases st with
  | nil => rfl
  | cons top next =>
    rcases h.1 with ⟨hch, hfp, hn⟩ | ⟨b, hb⟩
    · simp [consumeChar, fgetc, hfp, closeInputFile, FilePtr.unread, hch, hn]
    · cases hfp : top.fp with
      | nil => simp [consumeChar, fgetc, hfp, closeInputFile, FilePtr.unread, hb]
      | cons c fp =>
        by_cases hc : c = byte '\n'
        · simp [consumeChar, fgetc, hfp, FilePtr.unread, hb, hc]
        · simp [consumeChar, fgetc, hfp, FilePtr.unread, hb, hc]

theorem consumeChar_answer (st : FileStack) : st.consumeChar.1 = st.consumeChar.2.getChar := by
  cases st with
  | nil => rfl
  | cons top next =>
    simp only [consumeChar]
    split
    · rfl
    · split <;> rfl

theorem clean_consumeChar {st : FileStack} (h : st.Clean) : st.consumeChar.2.Clean := by
  cases st with
  | nil => trivial
  | cons top next =>
    cases hfp : top.fp with
    | nil => simpa [consumeChar, fgetc, hfp, closeInputFile] using h.2
    | cons c fp =>
      by_cases hc : c = byte '\n'
      · simpa [consumeChar, fgetc, hfp, hc, Clean] using h.2
      · simpa [consumeChar, fgetc, hfp, hc, Clean] using h.2

theorem clean_openInputFile {st : FileStack} (h : st.Clean) (fname : Bytes) {fp : Bytes}
    (hidden : fp = [] → st.unread = []) : (st.openInputFile fname fp).Clean := by
  cases fp with
  | nil => exact ⟨Or.inl ⟨rfl, rfl, hidden rfl⟩, h⟩
  | cons b fp => exact ⟨Or.inr ⟨b, rfl⟩, h⟩

end FileStack

inductive StackOp where
  | openFile (fname bytes : Bytes)
  | consume

def StackOp.apply (st : FileStack) : StackOp → FileStack
  | .openFile fname bytes => st.openInputFile fname bytes
  | .consume => st.consumeChar.2

def FileStack.run (ops : List StackOp) : FileStack := ops.foldl StackOp.apply []

/-- The same calls on one stream of characters. -/
def StackOp.stream (s : Bytes) : StackOp → Bytes
  | .openFile _ bytes => bytes ++ s
  | .consume => s.tail

def remaining (ops : List StackOp) : Bytes := ops.foldl StackOp.stream []

structure FileStack.StreamLike (st : FileStack) : Prop where
  getChar : st.getChar = peek st.unread
  consume : st.consumeChar.2.unread = st.unread.tail
  answer : st.consumeChar.1 = st.consumeChar.2.getChar
  openFile : ∀ fname bytes, (st.openInputFile fname bytes).unread = bytes ++ st.unread

/-- No call opens an empty file while input remains. -/
def NoneHidden (ops : List StackOp) : Prop :=
  ∀ pre fname, pre ++ [.openFile fname []] <+: ops → remaining pre = []

namespace FileStack

@[simp] theorem run_append_singleton (ops : List StackOp) (op : StackOp) :
    run (ops ++ [op]) = op.apply (run ops) := by
  simp [run]

@[simp] theorem remaining_append_singleton (ops : List StackOp) (op : StackOp) :
    remaining (ops ++ [op]) = op.stream (remaining ops) := by
  simp [remaining]

theorem streamLike_of_clean {st : FileStack} (h : st.Clean) : st.StreamLike where
  getChar := getChar_of_clean h
  consume := unread_consumeChar h
  answer := consumeChar_answer st
  openFile _ _ := unread_openInputFile _ _ st

theorem noneHidden_initial {ops pre : List StackOp} (h : NoneHidden ops) (hp : pre <+: ops) :
    NoneHidden pre :=
  fun p fname hq => h p fname (hq.trans hp)

/-- The file stack refines the stream as long as no empty file hides input. -/
theorem run_refines {ops : List StackOp} (h : NoneHidden ops) :
    (run ops).Clean ∧ (run ops).unread = remaining ops := by
  induction ops using List.reverseRecOn with
  | nil => exact ⟨trivial, rfl⟩
  | append_singleton ops op ih =>
    obtain ⟨hc, hu⟩ := ih (noneHidden_initial h (List.prefix_append _ _))
    rw [run_append_singleton, remaining_append_singleton]
    cases op with
    | consume => exact ⟨clean_consumeChar hc, by simp [StackOp.apply, StackOp.stream, unread_consumeChar hc, hu]⟩
    | openFile fname bytes =>
      refine ⟨clean_openInputFile hc fname ?_, by simp [StackOp.apply, StackOp.stream, unread_openInputFile, hu]⟩
      intro he
      subst he
      exact hu.trans (h ops fname List.prefix_rfl)

theorem run_unread_of_streamLike {ops : List StackOp}
    (h : ∀ pre, pre <+: ops → (run pre).StreamLike) : (run ops).unread = remaining ops := by
  induction ops using List.reverseRecOn with
  | nil => rfl
  | append_singleton ops op ih =>
    have hu := ih fun pre hp => h pre (hp.trans (List.prefix_append _ _))
    have hs := h ops (List.prefix_append _ _)
    rw [run_append_singleton, remaining_append_singleton]
    cases op with
    | consume => exact hs.consume.trans (by rw [hu, StackOp.stream])
    | openFile fname bytes => exact (hs.openFile fname bytes).trans (by rw [hu, StackOp.stream])

/-- A run of opens and reads behaves as one character stream in every state it
passes exactly if it opens no empty file on top of remaining input. -/
theorem run_streamLike_iff (ops : List StackOp) :
    (∀ pre, pre <+: ops → (run pre).StreamLike) ↔ NoneHidden ops := by
  constructor
  · intro h pre fname hp
    have hpre : pre <+: ops := (List.prefix_append _ _).trans hp
    have hu := run_unread_of_streamLike fun p hq => h p (hq.trans hpre)
    have hs := (h _ hp).getChar
    have hn := (h _ hpre).openFile fname []
    -- Behind the call the current character is `eof`, so nothing may remain.
    rw [run_append_singleton, StackOp.apply, hn, hu] at hs
    exact peek_eq_eof.mp hs.symm
  · exact fun h pre hp => streamLike_of_clean (run_refines (noneHidden_initial h hp)).1

/-- An empty file opened on top of an unread one hides it. -/
theorem run_hidden_byte :
    ¬ (run [.openFile [111] [97], .openFile [105] []]).StreamLike :=
  fun h => absurd h.getChar (by decide)

end FileStack

end Rdpgen
