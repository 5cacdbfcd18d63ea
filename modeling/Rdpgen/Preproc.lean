import Rdpgen.Parser
import Rdpgen.ListSeq

namespace Rdpgen

/-- A pointer that `FOR_LST` hands to its body. -/
inductive Ptr (α : Type) where
  | elem (a : α)
  /-- what `reset_lst` makes of a null pointer -/
  | wild

/-- The pointers of a traversal over the elements `xs`. -/
def pointers {α : Type} : List α → List (Ptr α)
  | [] => [.wild]
  | x :: xs => (x :: xs).map .elem

def Ptr.addr : Ptr Entry → Addr
  | .elem e => e.handle
  | .wild => elemToVoid NULL

/-- The pointers are those of the linked list. -/
theorem forLst_pointers {l : Lst} {s : List Entry} (h : l.Represents s) :
    l.ForLst ((pointers s).map Ptr.addr) := by
  have hv := Lst.forLst_represents h
  cases s with
  | nil => exact hv
  | cons e s =>
    rw [pointers, List.map_map]
    exact hv

section

variable {ι α β : Type}

def Ptr.deref : Ptr α → Prog Halt (World ι) α
  | .elem a => pure a
  | .wild => Prog.stop .fault

/-- The passes of `FOR_LST`. The body gets the variables that it changes and a
pointer, and answers with the variables and what then stands behind the pointer. -/
def forPtrs (body : β → Ptr α → Prog Halt (World ι) (β × α)) :
    List (Ptr α) → β → Prog Halt (World ι) (β × List α)
  | [], b => pure (b, [])
  | p :: ps, b => do
    let (b, x) ← body b p
    let (b, xs) ← forPtrs body ps b
    pure (b, x :: xs)

/-- `FOR_LST` over a list with the elements `xs`. -/
def forLst (xs : List α) (b : β) (body : β → Ptr α → Prog Halt (World ι) (β × α)) :
    Prog Halt (World ι) (β × List α) :=
  forPtrs body (pointers xs) b

/-- The loop runs over the indices of the list. -/
def strInLst (lst : List STR) (str : Bytes) : Bool := lst.any fun s => rawStr s = str

def isTerm (state : Pstate) (s : STR) : Bool :=
  if !strInLst state.terminals (rawStr s) && !strInLst state.nonTerminals (rawStr s) then true
  else false

def nonTermsBody (state : Pstate) (r : Ptr Rule) : Prog Halt (World ι) (Pstate × Rule) := do
  let rule ← r.deref
  if !strInLst state.nonTerminals (rawStr rule.name) then
    pure ({ state with nonTerminals := state.nonTerminals ++ [rule.name] }, rule)
  else do
    syntaxError "duplicate rule: %s" [textOf (rawStr rule.name)]
    pure (state, rule)

def makeNonTerms (state : Pstate) : Prog Halt (World ι) Pstate := do
  let (state, rules) ← forLst state.rules state nonTermsBody
  pure { state with rules }

def termsElemBody (state : Pstate) (pe : Ptr PatElem) : Prog Halt (World ι) (Pstate × PatElem) := do
  let pe ← pe.deref
  -- false at a second occurrence, when the name is in the list already
  if isTerm state pe.str then
    pure ({ state with terminals := state.terminals ++ [pe.str] }, { pe with isTerminal := true })
  else
    pure (state, pe)

def termsPatternBody (state : Pstate) (p : Ptr Pattern) :
    Prog Halt (World ι) (Pstate × Pattern) := do
  let p ← p.deref
  let (state, elems) ← forLst p.elems state termsElemBody
  pure (state, { p with elems })

def termsRuleBody (state : Pstate) (r : Ptr Rule) : Prog Halt (World ι) (Pstate × Rule) := do
  let r ← r.deref
  let (state, patterns) ← forLst r.patterns state termsPatternBody
  pure (state, { r with patterns })

def makeTerms (state : Pstate) : Prog Halt (World ι) Pstate := do
  let (state, rules) ← forLst state.rules state termsRuleBody
  pure { state with rules }

def preProcess (state : Pstate) : Prog Halt (World ι) Pstate := do
  let state ← makeNonTerms state
  makeTerms state

/-! ### `dump_state` -/

def dumpStrBody (_ : Unit) (item : Ptr STR) : Prog Halt (World ι) (Unit × STR) := do
  let item ← item.deref
  printf s!"{textOf (rawStr item)}\n"
  pure ((), item)

def dumpStrLst (lst : List STR) (label : String) (verbo : Int) : Prog Halt (World ι) Unit := do
  if verbo > 5 then
    printf s!"\n----- {label} ({lst.length}) -----\n"
    let _ ← forLst lst () dumpStrBody

def dumpElemBody (_ : Unit) (pe : Ptr PatElem) : Prog Halt (World ι) (Unit × PatElem) := do
  let pe ← pe.deref
  printf s!"{textOf (rawStr pe.str)} "
  pure ((), pe)

def dumpPatternBody (_ : Unit) (p : Ptr Pattern) : Prog Halt (World ι) (Unit × Pattern) := do
  printf "\t: "
  let p ← p.deref
  let _ ← forLst p.elems () dumpElemBody
  printf "\n"
  pure ((), p)

def dumpRuleBody (_ : Unit) (r : Ptr Rule) : Prog Halt (World ι) (Unit × Rule) := do
  let r ← r.deref
  let recursive := if r.isRecursive then "true" else "false"
  printf s!"{textOf (rawStr r.name)} - recursive:{recursive}\n"
  let _ ← forLst r.patterns () dumpPatternBody
  printf "\n"
  pure ((), r)

def dumpRules (state : Pstate) : Prog Halt (World ι) Unit := do
  if state.verbo > 3 then
    printf s!"----- rules ({state.rules.length}) -----\n\n"
    let _ ← forLst state.rules () dumpRuleBody

def dumpState (state : Pstate) : Prog Halt (World ι) Unit := do
  if state.verbo > 0 then
    printf "---------- state ----------\n"
    printf s!"%name:   {textOf (rawStr state.name)}\n"
    printf s!"%prefix: {textOf (rawStr state.outputPrefix)}\n"
    printf s!"%verbosity: {state.verbo}\n\n"
    printf "\n"
    dumpRules state
    dumpStrLst state.terminals "terminals" state.verbo
    dumpStrLst state.nonTerminals "non terminals" state.verbo
    dumpStrLst state.code "code" state.verbo
    printf "\n"
    printf "\n"

/-- The lines of `main` behind the call of `parse_input`. -/
def finishMain (state : Pstate) : Prog Halt (World ι) Int := do
  let errors ← getErrors
  let state ← if errors = 0 then preProcess state else pure state
  let errors ← getErrors
  if errors = 0 then
    dumpState state
  let errors ← getErrors
  printf s!"errors: {errors}\n"
  pure 0

def main (src : TokenSource ι) : Prog Halt (World ι) Int := do
  let state ← parseInput src
  finishMain state

end

end Rdpgen
