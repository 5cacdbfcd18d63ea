import Rdpgen.Ring
import Mathlib.Algebra.Group.Nat.Defs
import Mathlib.Logic.Function.Basic

namespace Rdpgen

/-- A pointer as the `unsigned long` that the casts make of it. -/
abbrev Addr := UInt64

def NULL : Addr := 0

/-- `sizeof(LST_ELEM)` -/
def sizeofLstElem : Addr := 32

/-- The macro `VOID_TO_ELEM`. -/
def voidToElem (p : Addr) : Addr := p - sizeofLstElem

/-- The macro `ELEM_TO_VOID`. -/
def elemToVoid (p : Addr) : Addr := p + sizeofLstElem

@[simp] theorem voidToElem_elemToVoid (p : Addr) : voidToElem (elemToVoid p) = p := by
  simp [voidToElem, elemToVoid]

/-- The block of one element: its header and the `size` bytes behind it. -/
structure LstElem where
  type : Int
  size : Nat
  next : Addr
  prev : Addr
  data : List UInt8
  deriving DecidableEq, Repr

/-- `struct _list_` with the heap that holds its elements. -/
structure Lst where
  heap : Addr → Option LstElem
  first : Addr
  last : Addr
  crnt : Addr
  len : UInt64

/-- What a caller appends or inserts, `type` and the bytes at `data`, and the
block `elem` that `mem_alloc` answers with for it. -/
structure Entry where
  elem : Addr
  type : Int
  data : List UInt8
  deriving DecidableEq, Repr

def Entry.size (e : Entry) : Nat := e.data.length

def Entry.handle (e : Entry) : Addr := elemToVoid e.elem

namespace Lst

/-- `none` is a dereference outside of every block. -/
def load (l : Lst) (p : Addr) : Option LstElem := l.heap p

def store (l : Lst) (p : Addr) (f : LstElem → LstElem) : Option Lst := do
  let e ← l.load p
  some { l with heap := Function.update l.heap p (some (f e)) }

def setNext (l : Lst) (p q : Addr) : Option Lst := l.store p fun e => { e with next := q }

def setPrev (l : Lst) (p q : Addr) : Option Lst := l.store p fun e => { e with prev := q }

def createLst : Lst where
  heap _ := none
  first := NULL
  last := NULL
  crnt := NULL
  len := 0

def freeElem (l : Lst) (elem : Addr) : Lst :=
  { l with heap := Function.update l.heap elem none }

/-- The memory is cleared before the fields are set. -/
def createElem (l : Lst) (e : Entry) : Lst :=
  { l with
    heap := Function.update l.heap e.elem
      (some { type := e.type, size := e.size, next := NULL, prev := NULL, data := e.data }) }

def appendLst (l : Lst) (e : Entry) : Option Lst := do
  let l := l.createElem e
  let l ←
    if l.last ≠ NULL then do
      let l ← l.setPrev e.elem l.last
      l.setNext l.last e.elem
    else
      some { l with first := e.elem, crnt := e.elem }
  some { l with last := e.elem, len := l.len + 1 }

def prependLst (l : Lst) (e : Entry) : Option Lst := do
  let l := l.createElem e
  let l ←
    if l.first ≠ NULL then do
      let l ← l.setNext e.elem l.first
      l.setPrev l.first e.elem
    else
      some { l with last := e.elem, crnt := e.elem }
  some { l with first := e.elem, len := l.len + 1 }

/-- The last lines of `insert_lst`. -/
def insertBetween (l : Lst) (e : Entry) (next prev : Addr) : Option Lst := do
  let l := { l with len := l.len + 1 }
  let l := l.createElem e
  let l ← l.setNext e.elem next
  let l ← l.setPrev e.elem prev
  let l ← l.setPrev next e.elem
  l.setNext prev e.elem

/-- The element goes behind `elem` if the flag is set, else in front of it. -/
def insertLst (l : Lst) (elem : Addr) (e : Entry) (flag : Bool) : Option Lst :=
  if elem = NULL then none
  else do
    let c ← l.load (voidToElem elem)
    if flag then
      if c.next = NULL then l.appendLst e
      else do
        let n ← l.load c.next
        l.insertBetween e c.next n.prev
    else
      if c.prev = NULL then l.prependLst e
      else do
        let p ← l.load c.prev
        l.insertBetween e p.next c.prev

/-- At most `k` steps from the element `p`. -/
def steps (l : Lst) (field : LstElem → Addr) : Nat → Addr → Option Addr
  | 0, p => some p
  | k + 1, p => if p = NULL then some p else do
    let e ← l.load p
    steps l field k (field e)

def getElem (l : Lst) (index : Int) : Option Addr := do
  let e ←
    if 0 ≤ index then l.steps LstElem.next index.toNat l.first
    else l.steps LstElem.prev (-1 - index).toNat l.last
  some (if e = NULL then NULL else elemToVoid e)

def insertLstIdx (l : Lst) (index : Int) (e : Entry) (flag : Bool) : Option Lst := do
  let p ← l.getElem index
  l.insertLst p e flag

def getLstLen (l : Lst) : UInt64 := l.len

def removeLst (l : Lst) (elem : Addr) : Option Lst :=
  if elem = NULL then none
  else do
    let e := voidToElem elem
    let c ← l.load e
    let l ←
      if c.prev = NULL ∧ c.next ≠ NULL then do
        let l := { l with first := c.next }
        l.setPrev l.first NULL
      else if c.next = NULL ∧ c.prev ≠ NULL then do
        let l := { l with last := c.prev }
        l.setNext l.last NULL
      else if c.next = NULL ∧ c.prev = NULL then
        some { l with first := NULL, last := NULL, crnt := NULL }
      else do
        let l ← l.setPrev c.next c.prev
        l.setNext c.prev c.next
    let l := l.freeElem e
    some { l with len := l.len - 1 }

def removeLstIdx (l : Lst) (index : Int) : Option Lst := do
  let p ← l.getElem index
  l.removeLst p

def pushLst (l : Lst) (e : Entry) : Option Lst := l.prependLst e

def popLst (l : Lst) : Option Lst := do
  let tmp := l.first
  let c ← l.load l.first
  let l := { l with first := c.next }
  let l ←
    if l.first ≠ NULL then l.setPrev l.first NULL
    else some { l with last := NULL, crnt := NULL }
  -- `len` stays as it is
  some (l.freeElem tmp)

/-- The pointer is computed from `crnt` also where that is null. -/
def resetLst (l : Lst) : Addr × Lst := (elemToVoid l.first, { l with crnt := l.first })

def iterateLst (l : Lst) : Option (Addr × Lst) := do
  let l ←
    if l.crnt ≠ NULL then do
      let c ← l.load l.crnt
      some { l with crnt := c.next }
    else some l
  some (if l.crnt ≠ NULL then elemToVoid l.crnt else NULL, l)

end Lst

end Rdpgen
