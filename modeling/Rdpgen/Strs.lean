import Rdpgen.Memory

namespace Rdpgen

/-- The size of an object as `size_t` arithmetic leaves it. -/
def sizeT (n : Nat) : Nat := n % 2 ^ 64

/-- `struct _string_` -/
structure StrObj where
  buffer : Block Bytes
  len : Nat
  cap : Nat
  deriving DecidableEq

/-- The `char` with the byte `b`, which is signed. -/
def schar (b : UInt8) : Int := if b.toNat < 128 then b.toNat else b.toNat - 256

/-- The characters from `lo` to `hi` moved by `d`. -/
def shiftChar (lo hi : Nat) (d : Int) (ch : Int) : Int := if lo ≤ ch ∧ ch ≤ hi then ch + d else ch

/-! The C locale. -/

def toupper (ch : Int) : Int := shiftChar 97 122 (-32) ch

def tolower (ch : Int) : Int := shiftChar 65 90 32 ch

namespace StrObj

section

variable {α : Type} (junk : Nat → Nat → UInt8) (useGc : Bool)

/-- `p->buffer[i ..]` overwritten by `src`. -/
def write (p : StrObj) (i : Nat) (src : Bytes) : MemProg α StrObj := do
  let bytes ← memcpyTo p.buffer.val i src
  pure { p with buffer := { p.buffer with val := bytes } }

def readAt (p : StrObj) (i : Nat) : MemProg α UInt8 :=
  match p.buffer.val[i]? with
  | some b => pure b
  | none => fault

/-- `strlen` on the buffer from index `i` on; without a zero it leaves the buffer. -/
def strlenFrom (p : StrObj) (i : Nat) : MemProg α Nat :=
  if 0 ∈ p.buffer.val.drop i then pure (cString (p.buffer.val.drop i)).length else fault

/-- The loop that doubles the capacity while the condition on it holds. -/
def doubleWhile (small : Nat → Bool) (cap : Nat) : MemProg α Nat :=
  Prog.whileDo (fun cap _ => small cap) (fun cap => pure (sizeT (2 * cap))) cap

def realloc (p : StrObj) (cap : Nat) : MemProg α StrObj := do
  let buffer ← memRealloc junk p.buffer cap
  pure { p with buffer := buffer, cap := cap }

/-- `cat_string` and `cat_str_str` differ in the condition for growing. -/
def grow (small : Nat → Bool) (p : StrObj) : MemProg α StrObj :=
  if small p.cap then do
    let cap ← doubleWhile small p.cap
    realloc junk p cap
  else pure p

/-- The common end of `cat_string` and `cat_str_str`. -/
def putText (p : StrObj) (str : Bytes) : MemProg α StrObj := do
  let p ← p.write p.len (str ++ [0])
  let len := sizeT (p.len + str.length)
  let p ← p.write len [0]
  pure { p with len := len }

def catString (p : StrObj) (str : Bytes) : MemProg α StrObj := do
  let p ← grow junk (fun cap => cap < sizeT (p.len + str.length + 1)) p
  p.putText str

def catStrStr (p : StrObj) (str : Bytes) : MemProg α (Int × StrObj) := do
  let p ← grow junk (fun cap => cap ≤ sizeT (p.len + str.length + 1)) p
  let p ← p.putText str
  pure (toInt p.len, p)

/-- The two calls of `vsnprintf` on a format that stands for `text`: the length as `size_t`, and the
string in the block. The function answers an `int` and fails where the length is none; it then gives
`-1`, with which the block has one byte and the string is empty. -/
def vsnprintf (text : Bytes) : Nat × Bytes :=
  if text.length < 2 ^ 31 then (text.length, text) else (2 ^ 64 - 1, [])

/-- `text` is what the format and its arguments stand for. -/
def catStrFmt (p : StrObj) (text : Bytes) : MemProg α (Int × StrObj) := do
  let a ← memAlloc (sizeT ((vsnprintf text).1 + 2))
  let r ← catStrStr junk p (vsnprintf text).2
  memFree useGc (some a)
  pure (toInt r.2.len, r.2)

def catStrChar (p : StrObj) (ch : Int) : MemProg α (Int × StrObj) := do
  let p ← if p.cap ≤ sizeT (p.len + 1) then realloc junk p (sizeT (2 * p.cap)) else pure p
  let p ← p.write p.len [uchar ch]
  let len := sizeT (p.len + 1)
  let p ← p.write len [0]
  pure (toInt len, { p with len := len })

/-- `str` is the C string at the argument, or `none` for the null pointer. -/
def createStr (str : Option Bytes) : MemProg α StrObj := do
  let a ← memAlloc 8
  let p : StrObj := { buffer := ⟨a, List.replicate 8 0⟩, len := 0, cap := 8 }
  match str with
  | none => pure p
  | some s => if 0 < s.length then catString junk p s else pure p

def clearStr (p : StrObj) : MemProg α StrObj := { p with len := 0 }.write 0 [0]

def mapPass (f : Int → Int) (q : StrObj × Nat) : MemProg α (StrObj × Nat) := do
  let b ← q.1.readAt q.2
  let p ← q.1.write q.2 [uchar (f (schar b))]
  pure (p, q.2 + 1)

/-- The loop of `upcase_str` and `downcase_str`. -/
def mapStr (f : Int → Int) (p : StrObj) : MemProg α StrObj := do
  let q ← Prog.whileDo (fun q _ => q.1.buffer.val[q.2]? ≠ some 0) (mapPass f) (p, 0)
  pure q.1

def upcaseStr (p : StrObj) : MemProg α StrObj := mapStr toupper p

def downcaseStr (p : StrObj) : MemProg α StrObj := mapStr tolower p

def copyStr (p : StrObj) : MemProg α StrObj :=
  if 0 ∈ p.buffer.val then createStr junk (some (cString p.buffer.val)) else fault

def lenStr (p : StrObj) : Nat := p.len

/-- The bytes that a reader of the returned pointer gets. -/
def rawStr (p : StrObj) : Bytes := cString p.buffer.val

end

end StrObj

end Rdpgen
