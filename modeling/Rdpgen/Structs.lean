import Rdpgen.TypedLists

namespace Rdpgen

/-- The eight bytes of a pointer. -/
def wordBytes (a : Addr) : Bytes :=
  (List.range 8).map fun i => UInt8.ofNat (a.toNat / 256 ^ i)

def wordOf (bytes : Bytes) : Addr :=
  UInt64.ofNat (bytes.foldr (fun b n => b.toNat + 256 * n) 0)

@[simp] theorem wordOf_wordBytes (a : Addr) : wordOf (wordBytes a) = a := by
  have hlt := a.toNat_lt
  apply UInt64.toNat_inj.mp
  simp only [wordOf, wordBytes, List.range, List.range.loop, List.map_cons, List.map_nil,
    List.foldr_cons, List.foldr_nil, UInt8.toNat_ofNat', UInt64.toNat_ofNat']
  omega

/-- A field of the object in the bytes `block`; `none` is a read outside of them. -/
def Access.read {N : PtrLst} (a : Access N) (block : Bytes) : Option Bytes :=
  if a.offset + a.width ≤ block.length then some ((block.drop a.offset).take a.width) else none

def flagByte (b : Bool) : UInt8 := if b then 1 else 0

/-! ### The bytes of the objects in the lists -/

def patElemBytes (str : Addr) (isTerminal : Bool) : Bytes :=
  wordBytes str ++ flagByte isTerminal :: List.replicate 7 0

def patternBytes (elems code : Addr) : Bytes := wordBytes elems ++ wordBytes code

def ruleBytes (name : Addr) (isRecursive hasNonterms : Bool) (patterns : Addr) : Bytes :=
  wordBytes name ++ (flagByte isRecursive :: flagByte hasNonterms :: List.replicate 6 0) ++
    wordBytes patterns

section

variable (a b : Addr) (f g : Bool)

theorem read_rawStr : Access.rawStr.read (wordBytes a) = some (wordBytes a) := rfl

theorem read_patElemStr : Access.patElemStr.read (patElemBytes a f) = some (wordBytes a) := rfl

theorem read_patternElems : Access.patternElems.read (patternBytes a b) = some (wordBytes a) := rfl

theorem read_ruleName : Access.ruleName.read (ruleBytes a f g b) = some (wordBytes a) := rfl

theorem read_ruleIsRecursive : Access.ruleIsRecursive.read (ruleBytes a f g b) = some [flagByte f] := rfl

theorem read_rulePatterns : Access.rulePatterns.read (ruleBytes a f g b) = some (wordBytes b) := rfl

/-- The flag is set in place. -/
theorem patElemBytes_set (h : Bool) :
    (patElemBytes a f).set Access.patElemIsTerminal.offset (flagByte h) = patElemBytes a h := rfl

end

end Rdpgen
