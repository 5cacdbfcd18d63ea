import Rdpgen.StrRuns

namespace Rdpgen

/-- A string object with the block of its struct, to which the handle points. -/
structure StrCell where
  handle : Nat
  obj : StrObj

/-- `sizeof(struct _string_)` -/
def sizeofString : Nat := 24

namespace StrObj

/-- `strncmp` of the buffer from index `i` on and the C string `str`, over the length of `str`. The
standard fixes the sign of the answer alone. -/
def strncmpFrom {α : Type} (p : StrObj) (i : Nat) : Bytes → MemProg α Int
  | [] => pure 0
  | b :: str => do
    let c ← p.readAt i
    -- The zero at the end of the buffer differs as well.
    if c ≠ b then pure ((c.toNat : Int) - b.toNat) else p.strncmpFrom (i + 1) str

end StrObj

namespace StrCell

section

variable {α : Type} (junk : Nat → Nat → UInt8) (useGc : Bool)

def createStr (str : Option Bytes) : MemProg α StrCell := do
  let handle ← memAlloc sizeofString
  let obj ← StrObj.createStr junk str
  pure { handle, obj }

/-- `text` is what the format and its arguments stand for. -/
def createStrFmt (text : Bytes) : MemProg α StrCell := do
  let a ← memAlloc (sizeT ((StrObj.vsnprintf text).1 + 2))
  let c ← createStr junk (some (StrObj.vsnprintf text).2)
  memFree useGc (some a)
  pure c

def copyStr (c : StrCell) : MemProg α StrCell :=
  if 0 ∈ c.obj.buffer.val then createStr junk (some (cString c.obj.buffer.val)) else fault

def compStr (c : StrCell) (str : Bytes) : MemProg α Int := c.obj.strncmpFrom 0 str

def destroyStr (c : StrCell) : MemProg α Unit := do
  memFree useGc (some c.obj.buffer.addr)
  memFree useGc (some c.handle)

/-- The two blocks of the object. -/
def blocks (c : StrCell) : List Nat := [c.handle, c.obj.buffer.addr]

end

end StrCell

/-- The string objects in the order of their creation, without those destroyed. -/
abbrev Cells := List (Option StrCell)

def Cells.owned (cells : Cells) : List Nat := cells.flatMap fun c => c.elim [] StrCell.blocks

/-- A call of a function of `strs.h`; the objects are numbered in the order of their creation. -/
inductive StrCall where
  | create (str : Option Bytes)
  | createFmt (text : Bytes)
  | copy (h : Nat)
  | catChar (h : Nat) (ch : Int)
  | catStr (h : Nat) (str : Bytes)
  | catFmt (h : Nat) (text : Bytes)
  | clear (h : Nat)
  | upcase (h : Nat)
  | downcase (h : Nat)
  | comp (h : Nat) (str : Bytes)
  | destroy (h : Nat)

/-- The handle of a destroyed object is not for use. -/
def withCell {β : Type} (h : Nat) (f : Cells → StrCell → MemProg Cells β) : MemProg Cells β := do
  let cells ← object
  match cells[h]? with
  | some (some c) => f cells c
  | _ => fault

def addCell (f : MemProg Cells StrCell) : MemProg Cells (Option Int) := do
  let cells ← object
  let c ← f
  setObject (cells ++ [some c])
  pure none

def onCell (h : Nat) (f : StrObj → MemProg Cells (Option Int × StrObj)) :
    MemProg Cells (Option Int) :=
  withCell h fun cells c => do
    let r ← f c.obj
    setObject (cells.set h (some { c with obj := r.2 }))
    pure r.1

/-- A function that answers with the length of the text. -/
def withLength (f : MemProg Cells (Int × StrObj)) : MemProg Cells (Option Int × StrObj) := do
  let r ← f
  pure (some r.1, r.2)

/-- A function without an answer. -/
def withoutAnswer (f : MemProg Cells StrObj) : MemProg Cells (Option Int × StrObj) := do
  let p ← f
  pure (none, p)

section

variable (junk : Nat → Nat → UInt8) (useGc : Bool)

def runStrCall (call : StrCall) : MemProg Cells (Option Int) :=
  match call with
  | .create str => addCell (StrCell.createStr junk str)
  | .createFmt text => addCell (StrCell.createStrFmt junk useGc text)
  | .copy h => do
    let c ← withCell h fun _ c => pure c
    addCell (c.copyStr junk)
  | .catChar h ch => onCell h fun p => withLength (p.catStrChar junk ch)
  | .catStr h str => onCell h fun p => withLength (p.catStrStr junk str)
  | .catFmt h text => onCell h fun p => withLength (p.catStrFmt junk useGc text)
  | .clear h => onCell h fun p => withoutAnswer p.clearStr
  | .upcase h => onCell h fun p => withoutAnswer p.upcaseStr
  | .downcase h => onCell h fun p => withoutAnswer p.downcaseStr
  | .comp h str => withCell h fun _ c => do
    let n ← c.compStr str
    pure (some n)
  | .destroy h => withCell h fun cells c => do
    c.destroyStr useGc
    setObject (cells.set h none)
    pure none

def runStrCalls : List StrCall → MemProg Cells (List (Option Int))
  | [] => pure []
  | call :: calls => do
    let a ← runStrCall junk useGc call
    let as ← runStrCalls calls
    pure (a :: as)

end

/-! The same calls on texts; `none` stands for a destroyed object. -/

def textCall (texts : List (Option Bytes)) (call : StrCall) : List (Option Bytes) :=
  match call with
  | .create str => texts ++ [some (str.getD [])]
  | .createFmt text => texts ++ [some text]
  | .copy h => texts ++ [texts.getD h none]
  | .catChar h ch => texts.modify h (·.map (· ++ [uchar ch]))
  | .catStr h str => texts.modify h (·.map (· ++ str))
  | .catFmt h text => texts.modify h (·.map (· ++ text))
  | .clear h => texts.modify h (·.map fun _ => [])
  | .upcase h => texts.modify h (·.map (·.map upcaseByte))
  | .downcase h => texts.modify h (·.map (·.map downcaseByte))
  | .comp _ _ => texts
  | .destroy h => texts.modify h fun _ => none

def textCalls (texts : List (Option Bytes)) (calls : List StrCall) : List (Option Bytes) :=
  calls.foldl textCall texts

/-- A number with the sign of the comparison of `str` with as much of the text. -/
structure Compares (text str : Bytes) (n : Int) : Prop where
  zero : n = 0 ↔ str <+: text
  neg : n < 0 ↔ text.take str.length < str

/-- What a call on objects with these texts answers. -/
def CallAnswers (texts : List (Option Bytes)) (call : StrCall) (a : Option Int) : Prop :=
  match call with
  | .catChar h _ | .catStr h _ | .catFmt h _ =>
    ∃ text, (textCall texts call)[h]? = some (some text) ∧ a = some (toInt text.length)
  | .comp h str => ∃ text n, texts[h]? = some (some text) ∧ a = some n ∧ Compares text str n
  | _ => a = none

def CallsAnswer : List (Option Bytes) → List StrCall → List (Option Int) → Prop
  | _, [], as => as = []
  | texts, call :: calls, as =>
    ∃ a rest, as = a :: rest ∧ CallAnswers texts call a ∧ CallsAnswer (textCall texts call) calls rest

/-- The arguments are C strings, bytes other than zero and objects not yet destroyed, no text gets
`2 ^ 62` bytes, and a format stands for a text that `vsnprintf` produces. -/
def ValidStrCall (texts : List (Option Bytes)) (call : StrCall) : Prop :=
  match call with
  | .create str => 0 ∉ str.getD [] ∧ (str.getD []).length < 2 ^ 62
  | .createFmt text => 0 ∉ text ∧ text.length < 2 ^ 31
  | .copy h => ∃ text, texts[h]? = some (some text) ∧ text.length < 2 ^ 62
  | .catChar h ch =>
    ∃ text, texts[h]? = some (some text) ∧ 1 ≤ ch ∧ ch ≤ 255 ∧ text.length + 1 < 2 ^ 62
  | .catStr h str =>
    ∃ text, texts[h]? = some (some text) ∧ 0 ∉ str ∧ text.length + str.length < 2 ^ 62
  | .catFmt h str =>
    ∃ text, texts[h]? = some (some text) ∧ 0 ∉ str ∧ text.length + str.length < 2 ^ 62 ∧
      str.length < 2 ^ 31
  | .clear h | .upcase h | .downcase h | .destroy h => ∃ text, texts[h]? = some (some text)
  | .comp h str => (∃ text, texts[h]? = some (some text)) ∧ 0 ∉ str

def ValidStrCalls (texts : List (Option Bytes)) : List StrCall → Prop
  | [] => True
  | call :: calls => ValidStrCall texts call ∧ ValidStrCalls (textCall texts call) calls

/-- An append behind which the text and its zero fill `2 ^ 62` bytes. -/
def CallFills (texts : List (Option Bytes)) (call : StrCall) : Prop :=
  match call with
  | .catStr h str | .catFmt h str =>
    ∃ text, texts[h]? = some (some text) ∧ text.length + str.length + 1 = 2 ^ 62
  | _ => False

def CallsFill (texts : List (Option Bytes)) (calls : List StrCall) : Prop :=
  ∃ front call back, calls = front ++ call :: back ∧ CallFills (textCalls texts front) call

end Rdpgen
