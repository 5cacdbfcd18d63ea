import Rdpgen.Structs
import Rdpgen.Traversal
import Rdpgen.Preproc
import Rdpgen.Refinement

namespace Rdpgen.OnHeap

/-- A call of `malloc`, of `realloc` for a block, or of `malloc` for an element of a list. -/
inductive Request where
  | alloc (size : Nat)
  | realloc (p : Addr) (size : Nat)
  | elem (lst : Addr) (size : Nat)

/-- Behind the lists: the static variables, the field `buffer` of each string object, the C strings
in the buffers, the blocks of objects and buffers that are in use, and the request that was answered
with a null pointer, which the program reports before it leaves. -/
structure Rest (ι : Type) where
  world : World ι
  strs : Addr → Option Addr
  texts : Addr → Option Bytes
  used : List Addr
  refused : Option Request

abbrev State (ι : Type) := Lists (Rest ι)

abbrev HeapProg (ι α : Type) := Prog Halt (State ι) α

/-- What `malloc` answers with for a number of bytes, for an object and for an element of list `k`,
and `realloc` for a block; `none` is a null pointer. -/
structure Malloc (ι : Type) where
  block : State ι → Nat → Option Addr
  again : State ι → Addr → Nat → Option Addr
  elem : State ι → Nat → Nat → Option Addr

/-- The answer to a request. -/
def Malloc.answer {ι : Type} (malloc : Malloc ι) (st : State ι) : Request → Option Addr
  | .alloc size => malloc.block st size
  | .realloc p size => malloc.again st p size
  | .elem lst size => malloc.elem st lst.toNat size

/-- The state in which `main` starts. -/
def boot {ι : Type} (input : ι) : State ι where
  lst _ := Lst.createLst
  rest := { world := World.boot input, strs := fun _ => none, texts := fun _ => none, used := [], refused := none }

/-- A list of the program is known by the address of its header. -/
def lstAt {ι : Type} (st : State ι) (lst : Addr) : Lst := st.lst lst.toNat

section

variable {ι α : Type}

def setWorld (w : World ι) (st : State ι) : State ι := { st with rest := { st.rest with world := w } }

/-- The parts of the program that touch neither lists nor string objects. -/
def inWorld (p : Prog Halt (World ι) α) : HeapProg ι α :=
  Prog.zoom (fun st : State ι => st.rest.world) setWorld p

def fault : HeapProg ι α := Prog.stop .fault

def fromOption (f : State ι → Option α) : HeapProg ι α := do
  let x ← Prog.gets f
  match x with
  | none => fault
  | some a => pure a

/-- The state in which the program reports that the request was refused. -/
def State.refuse (st : State ι) (request : Request) : State ι :=
  { st with rest := { st.rest with refused := some request } }

variable (malloc : Malloc ι)

/-- The answer to the request; without a block the program reports that and leaves. -/
def allocate (request : Request) : HeapProg ι Addr := do
  let block ← Prog.gets fun st => malloc.answer st request
  match block with
  | none => do
    Prog.modify fun st => st.refuse request
    Prog.stop (.exit 1)
  | some a => pure a

/-- The address of an object matters where the object is a list or a string. -/
def memAlloc (size : Nat) : HeapProg ι Addr := do
  let a ← allocate malloc (.alloc size)
  Prog.modify fun st => { st with rest := { st.rest with used := a :: st.rest.used } }
  pure a

def memRealloc (p : Addr) (size : Nat) : HeapProg ι Addr := do
  let a ← allocate malloc (.realloc p size)
  Prog.modify fun st => { st with rest := { st.rest with used := a :: st.rest.used.erase p } }
  pure a

/-! ### Strings and lists -/

/-- A buffer of 8 bytes, which `cat_string` enlarges to the next power of two for a text that does
not fit. -/
def createBuffer (text : Bytes) : HeapProg ι Addr := do
  let buffer ← memAlloc malloc 8
  if text.length + 1 > 8 then
    memRealloc malloc buffer (text.length + 1).nextPowerOfTwo
  else
    pure buffer

/-- The string object and its buffer, which gets `text`. -/
def createStr (text : Bytes) : HeapProg ι Addr := do
  let obj ← memAlloc malloc (structSize PtrLst.strLst.object)
  let buffer ← createBuffer malloc text
  Prog.modify fun st => { st with rest := { st.rest with
    strs := Function.update st.rest.strs obj (some buffer)
    texts := Function.update st.rest.texts buffer (some text) } }
  pure obj

def rawStr (str : Addr) : HeapProg ι Bytes :=
  fromOption fun st => (st.rest.strs str).bind st.rest.texts

def copyStr (str : Addr) : HeapProg ι Addr := do
  let text ← rawStr str
  createStr malloc text

/-- `sizeof(struct _list_)` -/
def sizeofLst : Nat := structSize [8, 8, 8, 8]

def createLst : HeapProg ι Addr := do
  let lst ← memAlloc malloc sizeofLst
  Prog.modify fun st => st.setLst lst.toNat Lst.createLst
  pure lst

def append (lst : Addr) (data : Bytes) : HeapProg ι Unit := do
  let a ← allocate malloc (.elem lst data.length)
  Lists.link lst.toNat ⟨a, 0, data⟩

/-- The `sizeof(STR)` bytes that are copied are the field `buffer` of the object. -/
def strLstAdd (lst str : Addr) : HeapProg ι Unit := do
  let buffer ← fromOption fun st => st.rest.strs str
  append malloc lst (wordBytes buffer)

variable {malloc}

def lstLen (lst : Addr) : HeapProg ι UInt64 := Prog.gets fun st => (lstAt st lst).getLstLen

/-- The data of the element that the pointer `p` into a list belongs to. -/
def dataAt (st : State ι) (lst p : Addr) : Option Bytes :=
  ((lstAt st lst).load (voidToElem p)).map LstElem.data

def readField {N : PtrLst} (a : Access N) (lst p : Addr) : HeapProg ι Bytes :=
  fromOption fun st => (dataAt st lst p).bind a.read

def readWord {N : PtrLst} (a : Access N) (lst p : Addr) : HeapProg ι Addr := do
  let bytes ← readField a lst p
  pure (wordOf bytes)

/-- A write through the pointer `p` into a list. -/
def writeByte (lst p : Addr) (offset : Nat) (b : UInt8) : HeapProg ι Unit :=
  Lists.onLst lst.toNat fun l =>
    (l.store (voidToElem p) fun c => { c with data := c.data.set offset b }).map fun l' => ((), l')

/-- `raw_str` on a pointer into a `str_lst`. -/
def itemText (st : State ι) (lst p : Addr) : Option Bytes :=
  ((dataAt st lst p).bind Access.rawStr.read).bind fun bytes => st.rest.texts (wordOf bytes)

def strInLst (lst : Addr) (str : Bytes) : HeapProg ι Bool :=
  Lists.strInLst lst.toNat fun st p => itemText st lst p = some str

def forLst (lst : Addr) (body : Addr → HeapProg ι Unit) : HeapProg ι Unit := do
  let _ ← Lists.forLst lst.toNat body

variable (malloc)

/-! ### `parser.c` -/

/-- The fields of a local `Token` that the parser reads. -/
structure Token where
  type : TokenType
  str : Addr

structure Pattern where
  elems : Addr
  code : Addr

structure Pstate where
  finished : Bool
  verbo : Int
  name : Addr
  outputPrefix : Addr
  code : Addr
  rules : Addr
  terminals : Addr
  nonTerminals : Addr

/-- `sizeof(Pstate)` -/
def sizeofPstate : Nat := structSize [1, 4, 8, 8, 8, 8, 8, 8]

def getToken : HeapProg ι Token := do
  let tok ← Prog.gets fun st => st.rest.world.tok
  let str ← createStr malloc (Rdpgen.rawStr tok.str)
  pure { type := tok.type, str }

variable (src : TokenSource ι)

/-- `consume_token(&tok)` -/
def consumeToken : HeapProg ι Token := do
  let tok ← inWorld src.consumeToken
  let str ← createStr malloc (Rdpgen.rawStr tok.str)
  pure { type := tok.type, str }

/-- `consume_token(NULL)` -/
def consumeType : HeapProg ι TokenType := do
  let tok ← inWorld src.consumeToken
  pure tok.type

def createParser : HeapProg ι Pstate := do
  let _ ← memAlloc malloc sizeofPstate
  inWorld src.openInput
  let _ ← consumeType src
  let code ← createLst malloc
  let rules ← createLst malloc
  let outputPrefix ← createStr malloc []
  let name ← createStr malloc []
  let terminals ← createLst malloc
  let nonTerminals ← createLst malloc
  pure { finished := false, verbo := 5, code, rules, outputPrefix, name, terminals, nonTerminals }

def patternBody (elems : Addr) (tok : Token) : HeapProg ι Token := do
  let _ ← memAlloc malloc PtrLst.patElemLst.sizeofT
  let str ← copyStr malloc tok.str
  append malloc elems (patElemBytes str false)
  consumeToken malloc src

def parsePattern : HeapProg ι Pattern := do
  let _ ← memAlloc malloc PtrLst.patternLst.sizeofT
  let elems ← createLst malloc
  let tok ← consumeToken malloc src
  let _ ← Prog.whileDo (fun tok _ => tok.type = .SYMBOL) (patternBody malloc src elems) tok
  let tok ← getToken malloc
  if tok.type = .BLOCK then do
    let code ← copyStr malloc tok.str
    pure { elems, code }
  else do
    inWorld (syntaxError "expected a code block at the end of the pattern, but got %s"
      [tokToStr tok.type])
    pure { elems, code := NULL }

def ruleBody (patterns : Addr) (_ : Token) : HeapProg ι Token := do
  let pattern ← parsePattern malloc src
  append malloc patterns (patternBytes pattern.elems pattern.code)
  consumeToken malloc src

def parseRule (state : Pstate) : HeapProg ι Pstate := do
  let tok ← getToken malloc
  let _ ← memAlloc malloc PtrLst.ruleLst.sizeofT
  let patterns ← createLst malloc
  let name ← copyStr malloc tok.str
  let tok ← consumeToken malloc src
  let _ ← Prog.whileDo (fun tok _ => tok.type = .COLON) (ruleBody malloc src patterns) tok
  let len ← lstLen patterns
  if len = 0 then
    let type ← inWorld tokenType
    inWorld (syntaxError "expected a rule pattern but got a %s" [tokToStr type])
  append malloc state.rules (ruleBytes name false false patterns)
  pure state

/-- A directive and its one value of type `want`. -/
def parseDirective (want : TokenType) (fmt : String) (store : Addr → Pstate → HeapProg ι Pstate)
    (state : Pstate) : HeapProg ι Pstate := do
  let type ← consumeType src
  let state ←
    if type = want then do
      let tok ← getToken malloc
      store tok.str state
    else do
      inWorld (syntaxError fmt [tokToStr type])
      pure state
  let _ ← consumeType src
  pure state

def parseVerbo : Pstate → HeapProg ι Pstate :=
  parseDirective malloc src .NUMBER "expected a number but got a %s" fun str state => do
    let text ← rawStr str
    pure { state with verbo := toInt (strtol text) }

def parsePrefix : Pstate → HeapProg ι Pstate :=
  parseDirective malloc src .STRG "expected a string but got a %s" fun str state => do
    let outputPrefix ← copyStr malloc str
    pure { state with outputPrefix }

def parseName : Pstate → HeapProg ι Pstate :=
  parseDirective malloc src .STRG "expected a string but got a %s" fun str state => do
    let name ← copyStr malloc str
    pure { state with name }

def parseCode : Pstate → HeapProg ι Pstate :=
  parseDirective malloc src .BLOCK "expected a code block but got a %s" fun str state => do
    let block ← copyStr malloc str
    strLstAdd malloc state.code block
    pure state

def parseSwitch (type : TokenType) (state : Pstate) : HeapProg ι (Pstate × Bool) :=
  let more (p : HeapProg ι Pstate) : HeapProg ι (Pstate × Bool) := do
    let state ← p
    pure (state, false)
  match type with
  | .SYMBOL => more (parseRule malloc src state)
  | .VERBOSITY => more (parseVerbo malloc src state)
  | .NAME => more (parseName malloc src state)
  | .PREFIX => more (parsePrefix malloc src state)
  | .CODE => more (parseCode malloc src state)
  | .END_OF_INPUT => pure (state, true)
  | type => do
    inWorld (syntaxError "expected rule or directive but got %s" [tokToStr type])
    pure (state, false)

def parsePass (local_ : Pstate × Bool) : HeapProg ι (Pstate × Bool) := do
  let type ← inWorld tokenType
  parseSwitch malloc src type local_.1

def parseInput : HeapProg ι Pstate := do
  let state ← createParser malloc src
  let (state, _) ← Prog.whileDo (fun l st => !l.2 && st.rest.world.errors == 0) (parsePass malloc src)
    (state, false)
  pure state

/-! ### `preproc.c` -/

def isTerm (state : Pstate) (str : Addr) : HeapProg ι Bool := do
  let text ← rawStr str
  let terminal ← strInLst state.terminals text
  if terminal then
    pure false
  else do
    let text ← rawStr str
    let nonTerminal ← strInLst state.nonTerminals text
    pure (!nonTerminal)

def nonTermsBody (state : Pstate) (r : Addr) : HeapProg ι Unit := do
  let name ← readWord .ruleName state.rules r
  let text ← rawStr name
  let found ← strInLst state.nonTerminals text
  if !found then
    strLstAdd malloc state.nonTerminals name
  else
    inWorld (syntaxError "duplicate rule: %s" [textOf text])

def makeNonTerms (state : Pstate) : HeapProg ι Unit := forLst state.rules (nonTermsBody malloc state)

def termsElemBody (state : Pstate) (elems pe : Addr) : HeapProg ι Unit := do
  let str ← readWord .patElemStr elems pe
  let term ← isTerm state str
  if term then do
    strLstAdd malloc state.terminals str
    writeByte elems pe Access.patElemIsTerminal.offset (flagByte true)

def termsPatternBody (state : Pstate) (patterns p : Addr) : HeapProg ι Unit := do
  let elems ← readWord .patternElems patterns p
  forLst elems (termsElemBody malloc state elems)

def termsRuleBody (state : Pstate) (r : Addr) : HeapProg ι Unit := do
  let patterns ← readWord .rulePatterns state.rules r
  forLst patterns (termsPatternBody malloc state patterns)

def makeTerms (state : Pstate) : HeapProg ι Unit := forLst state.rules (termsRuleBody malloc state)

def preProcess (state : Pstate) : HeapProg ι Unit := do
  makeNonTerms malloc state
  makeTerms malloc state

variable {malloc}

/-! ### `dump.c` -/

def dumpStrBody (lst item : Addr) : HeapProg ι Unit := do
  let text ← fromOption fun st => itemText st lst item
  inWorld (printf s!"{textOf text}\n")

def dumpStrLst (lst : Addr) (label : String) (verbo : Int) : HeapProg ι Unit := do
  if verbo > 5 then
    let len ← lstLen lst
    inWorld (printf s!"\n----- {label} ({len.toNat}) -----\n")
    forLst lst (dumpStrBody lst)

def dumpElemBody (elems pe : Addr) : HeapProg ι Unit := do
  let str ← readWord .patElemStr elems pe
  let text ← rawStr str
  inWorld (printf s!"{textOf text} ")

def dumpPatternBody (patterns p : Addr) : HeapProg ι Unit := do
  inWorld (printf "\t: ")
  let elems ← readWord .patternElems patterns p
  forLst elems (dumpElemBody elems)
  inWorld (printf "\n")

def dumpRuleBody (rules r : Addr) : HeapProg ι Unit := do
  let name ← readWord .ruleName rules r
  let text ← rawStr name
  let flag ← readField .ruleIsRecursive rules r
  let recursive := if flag ≠ [0] then "true" else "false"
  inWorld (printf s!"{textOf text} - recursive:{recursive}\n")
  let patterns ← readWord .rulePatterns rules r
  forLst patterns (dumpPatternBody patterns)
  inWorld (printf "\n")

def dumpRules (state : Pstate) : HeapProg ι Unit := do
  if state.verbo > 3 then
    let len ← lstLen state.rules
    inWorld (printf s!"----- rules ({len.toNat}) -----\n\n")
    forLst state.rules (dumpRuleBody state.rules)

def dumpState (state : Pstate) : HeapProg ι Unit := do
  if state.verbo > 0 then
    inWorld (printf "---------- state ----------\n")
    let name ← rawStr state.name
    inWorld (printf s!"%name:   {textOf name}\n")
    let outputPrefix ← rawStr state.outputPrefix
    inWorld (printf s!"%prefix: {textOf outputPrefix}\n")
    inWorld (printf s!"%verbosity: {state.verbo}\n\n")
    inWorld (printf "\n")
    dumpRules state
    dumpStrLst state.terminals "terminals" state.verbo
    dumpStrLst state.nonTerminals "non terminals" state.verbo
    dumpStrLst state.code "code" state.verbo
    inWorld (printf "\n")
    inWorld (printf "\n")

variable (malloc)

/-! ### `rdpgen.c` -/

def finishMain (state : Pstate) : HeapProg ι Int := do
  let errors ← inWorld getErrors
  if errors = 0 then
    preProcess malloc state
  let errors ← inWorld getErrors
  if errors = 0 then
    dumpState state
  let errors ← inWorld getErrors
  inWorld (printf s!"errors: {errors}\n")
  pure 0

def main : HeapProg ι Int := do
  let state ← parseInput malloc src
  finishMain malloc state

end

end Rdpgen.OnHeap
