import Rdpgen.FileIo

namespace Rdpgen

abbrev Scan := Prog Halt (World FileStack)

def textOf (s : Bytes) : String := String.ofList (s.map fun b => Char.ofNat b.toNat)

/-- `file` is what `fopen` finds under the name, or the text of its error. -/
def openInputFile (fname : Bytes) (file : Except String Bytes) : Scan Unit :=
  match file with
  | .error reason => fatal "cannot open input file: %s: %s\n" [textOf fname, reason]
  | .ok bytes => Prog.modify fun w => { w with input := w.input.openInputFile fname bytes }

def getChar : Scan Int := Prog.gets fun w => w.input.getChar

def consumeChar : Scan Int :=
  Prog.act fun w => (w.input.consumeChar.1, { w with input := w.input.consumeChar.2 })

/-- `cat_str_char(_tok.str, ch)` -/
def catTok (ch : Int) : Scan Unit :=
  Prog.modify fun w => { w with tok := { w.tok with str := catStrChar w.tok.str ch } }

/-- `_tok.type = type` -/
def setType (type : TokenType) : Scan Unit :=
  Prog.modify fun w => { w with tok := { w.tok with type := type } }

/-- The `va_list` itself is what `syntax` gets as its argument. -/
def checkEof (fmt : String) : Scan Unit := do
  let ch ← getChar
  -- a byte above 0x7F; at the end of the file `ch` is -1
  if ch > 0x7F then
    syntaxError fmt []
    fatal "unexpected end of file" []

def consumeSpace : Scan Unit := do
  let ch ← getChar
  let _ ← Prog.whileDo (fun ch _ => isSpace ch) (fun _ => consumeChar) ch

def consumeComment : Scan Unit := do
  let ch ← consumeChar
  let _ ← Prog.whileDo (fun ch _ => ch != chr (byte '\n')) (fun _ => consumeChar) ch

def ascii (s : List Char) : Bytes := s.map byte

def directiveVerbosity : Bytes := ascii ['%', 'v', 'e', 'r', 'b', 'o', 's', 'i', 't', 'y']
def directiveName : Bytes := ascii ['%', 'n', 'a', 'm', 'e']
def directivePrefix : Bytes := ascii ['%', 'p', 'r', 'e', 'f', 'i', 'x']
def directiveCode : Bytes := ascii ['%', 'c', 'o', 'd', 'e']

def directiveType (text : Bytes) : TokenType :=
  if text = directiveVerbosity then .VERBOSITY
  else if text = directiveName then .NAME
  else if text = directivePrefix then .PREFIX
  else if text = directiveCode then .CODE
  else .ERROR

def directiveBody (ch : Int) : Scan Int := do
  catTok ch
  let ch ← consumeChar
  checkEof "invalid directive: %s"
  pure ch

def getDirective : Scan Unit := do
  -- save the leading '%'
  catTok (← getChar)
  let _ ← consumeChar
  let ch ← getChar
  let _ ← Prog.whileDo (fun ch _ => isSymbol ch) directiveBody ch
  let text ← Prog.gets fun w => rawStr w.tok.str
  setType (directiveType text)
  if directiveType text = .ERROR then
    syntaxError "unknown directive: %s" [textOf text]

def stringBody (ch : Int) : Scan Int := do
  catTok ch
  let ch ← consumeChar
  checkEof "invalid string"
  pure ch

def getString : Scan Unit := do
  let _ ← consumeChar
  let ch ← getChar
  let _ ← Prog.whileDo (fun ch _ => ch != chr (byte '"')) stringBody ch
  let _ ← consumeChar
  setType .STRG

def numberBody (ch : Int) : Scan Int := do
  catTok ch
  consumeChar

def getNumber : Scan Unit := do
  let ch ← getChar
  catTok ch
  let ch ← consumeChar
  let _ ← Prog.whileDo (fun ch _ => isDigit ch) numberBody ch
  setType .NUMBER

/-- The new brace count after the character `ch` of a block. -/
def blockChar (count ch : Int) : Scan Int :=
  if ch = chr (byte '{') then do
    -- `count` is an `int`, and the braces of a block can be more than it holds
    let count ← checkInt (count + 1)
    catTok ch
    pure count
  else if ch = chr (byte '}') then do
    if count - 1 > 0 then catTok ch
    pure (count - 1)
  else do
    catTok ch
    pure count

def blockBody (count : Int) : Scan Int := do
  let ch ← getChar
  let count ← blockChar count ch
  let _ ← consumeChar
  pure count

def getBlock : Scan Unit := do
  -- do not save the enclosing braces
  let _ ← consumeChar
  let _ ← Prog.whileDo (fun count _ => count > 0) blockBody 1
  setType .BLOCK

def symbolBody (ch : Int) : Scan Int := do
  catTok ch
  consumeChar

def getSymbol : Scan Unit := do
  let ch ← getChar
  if isSymbol ch then
    catTok ch
    let ch ← consumeChar
    let _ ← Prog.whileDo (fun ch _ => isSymbol1 ch) symbolBody ch
    setType .SYMBOL
  else
    setType .ERROR
    syntaxError "invalid symbol" []

/-- The switch of `consume_token`; the answer is the flag `finished`. -/
def scanSwitch (c : UInt8) : Scan Bool :=
  if c = 0xFF then do
    setType .END_OF_INPUT
    pure true
  else if c = byte '#' then do
    consumeComment
    pure false
  else if c = byte ':' then do
    setType .COLON
    let _ ← consumeChar
    pure true
  else if c = byte '%' then do
    getDirective
    pure true
  else if c = byte '"' then do
    getString
    pure true
  else if c = byte '{' then do
    getBlock
    pure true
  else do
    let ch ← getChar
    if isDigit ch then getNumber else getSymbol
    pure true

def scanPass (_ : Bool) : Scan Bool := do
  consumeSpace
  let ch ← getChar
  scanSwitch (uchar ch)

/-- An empty string is in `_tok.str` after `clear_str` and after the
`create_str(NULL)` of the first call alike. -/
def consumeToken : Scan Token := do
  Prog.modify fun w => { w with tok := { w.tok with str := [] } }
  let _ ← Prog.whileDo (fun finished _ => !finished) scanPass false
  Prog.gets fun w =>
    { type := w.tok.type, str := copyStr w.tok.str,
      line := w.input.getLineNo, col := w.input.getColNo }

end Rdpgen
