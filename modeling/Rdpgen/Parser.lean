import Rdpgen.Scanner

namespace Rdpgen

structure PatElem where
  str : STR
  isTerminal : Bool
  deriving DecidableEq, Repr

/-- `code` is `none` where the source leaves a null pointer. -/
structure Pattern where
  elems : List PatElem
  code : Option STR
  deriving DecidableEq, Repr

structure Rule where
  name : STR
  isRecursive : Bool
  hasNonterms : Bool
  patterns : List Pattern
  deriving DecidableEq, Repr

/-- The parser state. Its lists are modelled by the sequences of their
elements; `outputPrefix` is the field `prefix`. -/
structure Pstate where
  finished : Bool
  verbo : Int
  name : STR
  outputPrefix : STR
  code : List STR
  rules : List Rule
  terminals : List STR
  nonTerminals : List STR
  deriving DecidableEq, Repr

def tokToStr : TokenType → String
  | .ERROR => "error token"
  | .BLOCK => "block definition"
  | .COLON => ":"
  | .SYMBOL => "symbol definition"
  | .STRG => "quoted string"
  | .NUMBER => "number"
  | .VERBOSITY => "verbosity directive"
  | .NAME => "file name directive"
  | .PREFIX => "data structure prefix directive"
  | .CODE => "code directive"
  | .END_OF_INPUT => "UNKNOWN"

/-- The text tells the type. -/
theorem tokToStr_injective : Function.Injective tokToStr := by
  intro s t h
  cases s <;> cases t <;> first | rfl | simp [tokToStr] at h

structure TokenSource (ι : Type) where
  openInput : Prog Halt (World ι) Unit
  consumeToken : Prog Halt (World ι) Token

/-- The scanner on the file that `fopen` finds under a name. -/
def fileSource (fname : Bytes) (file : Except String Bytes) : TokenSource FileStack where
  openInput := openInputFile fname file
  consumeToken := consumeToken

section

variable {ι : Type} (src : TokenSource ι)

/-- `get_token(NULL)` -/
def tokenType : Prog Halt (World ι) TokenType := Prog.gets fun w => w.tok.type

/-- `get_token(&tok)` leaves the position in `tok` as it is. -/
def getToken (tok : Token) : Prog Halt (World ι) Token :=
  Prog.gets fun w => { tok with type := w.tok.type, str := copyStr w.tok.str }

/-- A local variable `tok` before its first use. -/
def Token.unset : Token := { type := .ERROR, str := [], line := 0, col := 0 }

def createParser : Prog Halt (World ι) Pstate := do
  src.openInput
  let _ ← src.consumeToken
  pure { finished := false, verbo := 5, code := [], rules := [], outputPrefix := [], name := [],
         terminals := [], nonTerminals := [] }

/-- One element of a pattern; `tok` is its symbol. -/
def patternBody (local_ : Token × List PatElem) : Prog Halt (World ι) (Token × List PatElem) := do
  let pe := { str := copyStr local_.1.str, isTerminal := false }
  let tok ← src.consumeToken
  pure (tok, local_.2 ++ [pe])

def parsePattern : Prog Halt (World ι) Pattern := do
  let tok ← src.consumeToken
  let (tok, elems) ← Prog.whileDo (fun l _ => l.1.type = .SYMBOL) (patternBody src) (tok, [])
  let tok ← getToken tok
  if tok.type = .BLOCK then
    pure { elems, code := some (copyStr tok.str) }
  else do
    syntaxError "expected a code block at the end of the pattern, but got %s" [tokToStr tok.type]
    pure { elems, code := none }

/-- One pattern of a rule; `tok` is its colon. -/
def ruleBody (local_ : Token × List Pattern) : Prog Halt (World ι) (Token × List Pattern) := do
  let pattern ← parsePattern src
  let tok ← src.consumeToken
  pure (tok, local_.2 ++ [pattern])

/-- When this is entered, the rule name has been read. -/
def parseRule (state : Pstate) : Prog Halt (World ι) Pstate := do
  let tok ← getToken Token.unset
  let name := copyStr tok.str
  let tok ← src.consumeToken
  let (_, patterns) ← Prog.whileDo (fun l _ => l.1.type = .COLON) (ruleBody src) (tok, [])
  if patterns.length = 0 then
    let type ← tokenType
    syntaxError "expected a rule pattern but got a %s" [tokToStr type]
  pure { state with
    rules := state.rules ++ [{ name, isRecursive := false, hasNonterms := false, patterns }] }

/-- A directive and its one value of type `want`. -/
def parseDirective (want : TokenType) (fmt : String) (store : STR → Pstate → Pstate)
    (state : Pstate) : Prog Halt (World ι) Pstate := do
  let tok ← src.consumeToken
  let state ←
    if tok.type = want then do
      let tok ← getToken Token.unset
      pure (store tok.str state)
    else do
      syntaxError fmt [tokToStr tok.type]
      pure state
  let _ ← src.consumeToken
  pure state

def parseVerbo : Pstate → Prog Halt (World ι) Pstate :=
  parseDirective src .NUMBER "expected a number but got a %s" fun str state =>
    { state with verbo := toInt (strtol (rawStr str)) }

def parsePrefix : Pstate → Prog Halt (World ι) Pstate :=
  parseDirective src .STRG "expected a string but got a %s" fun str state =>
    { state with outputPrefix := copyStr str }

def parseName : Pstate → Prog Halt (World ι) Pstate :=
  parseDirective src .STRG "expected a string but got a %s" fun str state =>
    { state with name := copyStr str }

def parseCode : Pstate → Prog Halt (World ι) Pstate :=
  parseDirective src .BLOCK "expected a code block but got a %s" fun str state =>
    { state with code := state.code ++ [copyStr str] }

/-- The switch of `parse_input`, with the flag `finished` in the answer. -/
def parseSwitch (type : TokenType) (state : Pstate) : Prog Halt (World ι) (Pstate × Bool) :=
  let more (p : Prog Halt (World ι) Pstate) : Prog Halt (World ι) (Pstate × Bool) := do
    let state ← p
    pure (state, false)
  match type with
  | .SYMBOL => more (parseRule src state)
  | .VERBOSITY => more (parseVerbo src state)
  | .NAME => more (parseName src state)
  | .PREFIX => more (parsePrefix src state)
  | .CODE => more (parseCode src state)
  | .END_OF_INPUT => pure (state, true)
  | type => do
    syntaxError "expected rule or directive but got %s" [tokToStr type]
    pure (state, false)

theorem wp_more {p : Prog Halt (World ι) Pstate} {Q : Pstate × Bool → World ι → Prop}
    {E : Halt → World ι → Prop} {D : Prop} {w : World ι}
    (h : p.wp (fun state => Q (state, false)) E D w) :
    (do let state ← p; pure (state, false) : Prog Halt (World ι) (Pstate × Bool)).wp Q E D w := by
  rw [Prog.wp_bind]
  exact h.imp fun _ _ hq => Prog.wp_pure.mpr hq

theorem wp_unexpected {type : TokenType} {state : Pstate} {Q : Pstate × Bool → World ι → Prop}
    {E : Halt → World ι → Prop} {D : Prop} {w : World ι}
    (k : ∀ v : World ι, v.input = w.input → v.tok = w.tok → v.errors = w.errors + 1 →
      Q (state, false) v) :
    (do
      syntaxError "expected rule or directive but got %s" [tokToStr type]
      pure (state, false) : Prog Halt (World ι) (Pstate × Bool)).wp Q E D w := by
  rw [Prog.wp_bind]
  exact syntaxError_wp fun v hi ht he => Prog.wp_pure.mpr (k v hi ht he)

def parsePass (local_ : Pstate × Bool) : Prog Halt (World ι) (Pstate × Bool) := do
  let type ← tokenType
  parseSwitch src type local_.1

def parseInput : Prog Halt (World ι) Pstate := do
  let state ← createParser src
  let (state, _) ← Prog.whileDo (fun l w => !l.2 && w.errors == 0) (parsePass src) (state, false)
  pure state

end

end Rdpgen
