import Rdpgen.Preproc
import Rdpgen.Cursors
import Rdpgen.Strs

namespace Rdpgen

/-- An argument of an output format. -/
inductive Arg where
  | str (s : Bytes)
  | num (n : UInt32)
  deriving DecidableEq

/-- What one `EMIT` appends to the output file: the format and its arguments. -/
structure Emission where
  fmt : String
  args : List Arg
  deriving DecidableEq

structure OutFile where
  name : STR
  text : List Emission
  deriving DecidableEq

/-- The files written so far; `fp` is the one that is open. -/
structure Output where
  stderr : List Diag
  closed : List OutFile
  fp : Option OutFile
  deriving DecidableEq

abbrev Emit := Prog Halt Output

/-- `fopen` is the error text for a name under which no file can be opened. -/
def openOutfile (fopen : Bytes → Option String) (name : STR) : Emit Unit :=
  match fopen (rawStr name) with
  | some reason => do
    -- for the name the `%s` gets the string object and not its text
    Prog.modify fun o =>
      { o with stderr := o.stderr ++ [⟨.fatalError, "cannot open output file: \"%s\": %s", [reason]⟩] }
    Prog.stop (.exit 1)
  | none => Prog.modify fun o => { o with fp := some ⟨name, []⟩ }

def closeOutfile : Emit Unit := do
  let o ← Prog.gets id
  match o.fp with
  | none => Prog.stop .fault
  | some f => Prog.modify fun o => { o with closed := o.closed ++ [f], fp := none }

/-- The macro `EMIT`. -/
def emit (fmt : String) (args : List Arg) : Emit Unit := do
  let o ← Prog.gets id
  match o.fp with
  | none => Prog.stop .fault
  | some f => Prog.modify fun o => { o with fp := some { f with text := f.text ++ [⟨fmt, args⟩] } }

/-- The `buffer` of a string object as the argument of a `%s`. -/
def bufferArg (s : STR) : Arg := .str (rawStr s)

/-- `upcase_str` stops at the first zero. -/
def upcaseStr (str : STR) : STR :=
  (cString str).map (fun b => uchar (toupper (schar b))) ++ str.drop (cString str).length

/-- `header_name` and `source_name` differ in the message and in the two characters they add. -/
def fileName (missing : String) (ext : Bytes) (name : STR) : Emit STR := do
  let tmp := copyStr name
  if tmp.length = 0 then
    Prog.modify fun o => { o with stderr := o.stderr ++ [⟨.fatalError, missing, []⟩] }
    Prog.stop (.exit 1)
  pure (tmp ++ ext)

def headerName (name : STR) : Emit STR :=
  fileName "header file name does not exist" [46, 104] name

def sourceName (name : STR) : Emit STR :=
  fileName "source file name does not exist" [46, 99] name

/-! ### `emit_ast` -/

def emitAstTypes (lst : List STR) : Emit Unit := do
  emit "typedef enum \x7b\n" []
  Cursor.forEach lst () fun _ s => do
    let tmp := upcaseStr (copyStr s)
    emit "  AST_%s,\n" [bufferArg tmp]
  emit "\x7d AstType;\n\n" []

def emitTypedefs (lst : List STR) : Emit Unit := do
  emit "typedef struct \x7b\n  AstType type;\n\x7d Ast;\n\n" []
  Cursor.forEach lst () fun _ s => emit "typedef struct _%s_ %s_t;\n" [bufferArg s, bufferArg s]
  emit "\n" []

/-- The body of the inner loop of `emit_data`. -/
def dataElemBody (state : Pstate) (tmp : List STR) (pe : PatElem) : Emit (List STR) :=
  if strInLst state.nonTerminals (rawStr pe.str) && !strInLst tmp (rawStr pe.str) then
    pure (tmp ++ [pe.str])
  else
    pure tmp

def emitData (state : Pstate) (rule : Rule) : Emit Unit := do
  emit "struct _%s_ \x7b\n  Ast ast;\n" [bufferArg rule.name]
  let tmp ← Cursor.forEach rule.patterns [] fun tmp p =>
    Cursor.forEach p.elems tmp (dataElemBody state)
  if tmp.length = 0 then
    emit "  TokenType type\n" []
  else
    Cursor.forEach tmp () fun _ s => emit "  %s_t* m_%s;\n" [bufferArg s, bufferArg s]
  emit "\x7d;\n\n" []

def emitDataStructures (state : Pstate) : Emit Unit :=
  Cursor.forEach state.rules () fun _ r => emitData state r

/-- `astName` is the field `ast_name`, which the parser state has lost. -/
def astHeader (fopen : Bytes → Option String) (astName : STR) (state : Pstate) : Emit Unit := do
  let tmp ← headerName astName
  openOutfile fopen tmp
  emit "// This file is generated: DO NOT EDIT\n" []
  let tmp := upcaseStr (copyStr astName)
  emit "#ifndef _%s_H\n#define _%s_H\n\n" [bufferArg tmp, bufferArg tmp]
  emitAstTypes state.nonTerminals
  emitTypedefs state.nonTerminals
  emitDataStructures state
  emit "#endif /* _%s_H */\n\n" [bufferArg tmp]
  closeOutfile

def emitAst (fopen : Bytes → Option String) (astName : STR) (s : Pstate) : Emit Unit :=
  astHeader fopen astName s

/-! ### `emit_parser` -/

/-- The body of the loop over the terminals; `count` is an `unsigned`. -/
def terminalBody (count : UInt32) (s : STR) : Emit UInt32 := do
  emit "  TOK_%s = %d,\n" [bufferArg s, .num count]
  pure (count + 1)

/-- `parserName` is the field `parser_name`, which the parser state has lost. -/
def emitHeader (fopen : Bytes → Option String) (astName parserName : STR) (state : Pstate) :
    Emit Unit := do
  let tmp ← headerName parserName
  openOutfile fopen tmp
  emit "// This file is generated: DO NOT EDIT\n" []
  let tmp := upcaseStr (copyStr parserName)
  emit "#ifndef _%s_H\n#define _%s_H\n\n" [bufferArg tmp, bufferArg tmp]
  let ast ← headerName astName
  emit "#include \"%s\"\n\n" [bufferArg ast]
  emit "typedef enum \x7b\n" []
  let _ ← Cursor.forEach state.terminals 275 terminalBody
  emit "\x7d TokenType;\n\n" []
  emit "Ast* parser(cont char* name);\n\n" []
  emit "#endif /* _%s_H */\n\n" [bufferArg tmp]
  closeOutfile

def emitProtos (state : Pstate) : Emit STR := do
  let rule := (Cursor.reset ⟨state.rules, []⟩).1
  emit "// prototypes\n" []
  match rule with
  -- the null pointer of an empty list
  | none => Prog.stop .fault
  | some rule => do
    emit "Ast* %s();\n" [bufferArg rule.name]
    let tmp : STR := rawStr rule.name
    Cursor.forRest state.rules () fun _ rule => emit "Ast* %s();\n" [bufferArg rule.name]
    emit "\n" []
    pure tmp

def emitRuleGuts (pat : Pattern) : Emit Unit := do
  emit "  // " []
  Cursor.forEach pat.elems () fun _ pe => emit "%s " [bufferArg pe.str]
  emit "\n" []

def emitSingleRule (rule : Rule) : Emit Unit := do
  Cursor.forEach rule.patterns () fun _ pat => do
    emit "static void* %s() \x7b\n" [bufferArg rule.name]
    emitRuleGuts pat
    emit "\x7d\n\n" []
  emit "\n" []

def emitRules (state : Pstate) : Emit STR := do
  let tmp ← emitProtos state
  emit "// function definitions\n" []
  Cursor.forEach state.rules () fun _ rule => emitSingleRule rule
  pure tmp

def emitIncludes (parserName : STR) : Emit Unit := do
  emit "#include <stdio.h>\n" []
  emit "#include <stdlib.h>\n" []
  emit "#include <stddef.h>\n" []
  emit "\n" []
  let header ← headerName parserName
  emit "#include \"%s\"\n" [bufferArg header]
  emit "\n" []

def emitSource (fopen : Bytes → Option String) (parserName : STR) (state : Pstate) : Emit Unit := do
  let tmp ← sourceName parserName
  openOutfile fopen tmp
  emit "// This file is generated: DO NOT EDIT\n" []
  emitIncludes parserName
  let tmp ← emitRules state
  emit "// external interface\n" []
  emit "Ast* parser(cont char* name) \x7b\n" []
  emit "  return %s();\n" [bufferArg tmp]
  emit "\x7d\n" []
  closeOutfile

def emitParser (fopen : Bytes → Option String) (astName parserName : STR) (s : Pstate) :
    Emit Unit := do
  emitHeader fopen astName parserName s
  emitSource fopen parserName s

end Rdpgen
