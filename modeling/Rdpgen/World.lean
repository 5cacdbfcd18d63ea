import Rdpgen.ProgRules
import Rdpgen.Chars

namespace Rdpgen

inductive TokenType where
  | ERROR
  | BLOCK
  | COLON
  | SYMBOL
  | STRG
  | NUMBER
  | VERBOSITY
  | PREFIX
  | NAME
  | CODE
  | END_OF_INPUT
  deriving DecidableEq, Repr

/-- A string object is modelled by its contents, the `len` bytes in front of
the terminating zero. -/
abbrev STR := Bytes

def rawStr (s : STR) : Bytes := cString s

def copyStr (s : STR) : STR := cString s

def catStrChar (s : STR) (ch : Int) : STR := s ++ [uchar ch]

structure Token where
  type : TokenType
  str : STR
  line : Int
  col : Int
  deriving DecidableEq, Repr

/-- The fields of the static `_tok` that the scanner uses. -/
structure Tok where
  type : TokenType
  str : STR
  deriving DecidableEq, Repr

inductive Severity where
  | syntaxError
  | fatalError
  deriving DecidableEq, Repr

/-- One line on `stderr`: the format and its arguments. -/
structure Diag where
  severity : Severity
  fmt : String
  args : List String
  deriving DecidableEq, Repr

/-- The ways to leave the program other than by returning from `main`. -/
inductive Halt where
  | exit (status : Int)
  | fault
  deriving DecidableEq, Repr

/-- The result of an `int` operation; out of the range it is undefined. -/
def checkInt {σ : Type} (n : Int) : Prog Halt σ Int :=
  if -2 ^ 31 ≤ n ∧ n < 2 ^ 31 then pure n else Prog.stop .fault

theorem checkInt_wp {σ : Type} {n : Int} {Q : Int → σ → Prop} {E : Halt → σ → Prop} {D : Prop} {s : σ}
    (ok : -2 ^ 31 ≤ n ∧ n < 2 ^ 31 → Q n s) (overflow : ¬(-2 ^ 31 ≤ n ∧ n < 2 ^ 31) → E .fault s) :
    (checkInt n).wp Q E D s := by
  unfold checkInt
  split
  · next h => exact Prog.wp_pure.mpr (ok h)
  · next h => exact Prog.wp_stop.mpr (overflow h)

/-- The static variables of the program over an input of type `ι`. The counter
`errors` is an `int` in the source: it is exact up to 2 ^ 31 - 1 messages. -/
structure World (ι : Type) where
  input : ι
  tok : Tok
  errors : Nat
  stderr : List Diag
  stdout : List String
  deriving DecidableEq, Repr

/-- The static variables when `main` starts. The type in `_tok` is set before
it is read. -/
def World.boot {ι : Type} (input : ι) : World ι where
  input := input
  tok := { type := .END_OF_INPUT, str := [] }
  errors := 0
  stderr := []
  stdout := []

section

variable {ι : Type}

def report (line : Diag) : Prog Halt (World ι) Unit :=
  Prog.modify fun w => { w with stderr := w.stderr ++ [line], errors := w.errors + 1 }

/-- The function `syntax`. -/
def syntaxError (fmt : String) (args : List String) : Prog Halt (World ι) Unit :=
  report ⟨.syntaxError, fmt, args⟩

/-- A message changes the error counter and nothing the program reads besides. -/
theorem syntaxError_wp {fmt : String} {args : List String} {w : World ι}
    {Q : Unit → World ι → Prop} {E : Halt → World ι → Prop} {D : Prop}
    (k : ∀ v : World ι, v.input = w.input → v.tok = w.tok → v.errors = w.errors + 1 → Q () v) :
    (syntaxError fmt args).wp Q E D w :=
  Prog.wp_modify.mpr (k _ rfl rfl rfl)

def fatal {α : Type} (fmt : String) (args : List String) : Prog Halt (World ι) α := do
  report ⟨.fatalError, fmt, args⟩
  Prog.stop (.exit 1)

def getErrors : Prog Halt (World ι) Nat := Prog.gets (·.errors)

def printf (text : String) : Prog Halt (World ι) Unit :=
  Prog.modify fun w => { w with stdout := w.stdout ++ [text] }

end

end Rdpgen
