import Mathlib.Algebra.Group.Int.Defs
import Mathlib.Algebra.Group.Nat.Defs
import Mathlib.Data.List.TakeWhile

namespace Rdpgen

abbrev Bytes := List UInt8

/-- A byte as `fgetc` delivers it. -/
def chr (b : UInt8) : Int := b.toNat

/-- The answer of `fgetc` when no byte is left. -/
def eof : Int := -1

/-- The conversion of an `int` to `unsigned char`, also that of a store into a `char`. -/
def uchar (ch : Int) : UInt8 := UInt8.ofNat (ch % 256).toNat

def byte (c : Char) : UInt8 := UInt8.ofNat c.toNat

@[simp] theorem chr_inj {a b : UInt8} : chr a = chr b ↔ a = b := by
  constructor
  · intro h
    exact UInt8.toNat_inj.mp (Int.ofNat_inj.mp h)
  · intro he
    subst he
    rfl

@[simp] theorem chr_ne_eof (b : UInt8) : chr b ≠ eof := by
  simp only [chr, eof]
  omega

@[simp] theorem eof_ne_chr (b : UInt8) : eof ≠ chr b := (chr_ne_eof b).symm

@[simp] theorem uchar_chr (b : UInt8) : uchar (chr b) = b := by
  have hb := b.toNat_lt
  have hm : ((b.toNat : Int) % 256).toNat = b.toNat := by omega
  simp [uchar, chr, hm]

@[simp] theorem uchar_eof : uchar eof = 0xFF := rfl

/-! The C locale: the classifications take a byte or `eof`. -/

def isSpace (ch : Int) : Bool := ch = 32 || (9 ≤ ch && ch ≤ 13)

def isDigit (ch : Int) : Bool := 48 ≤ ch && ch ≤ 57

def isAlpha (ch : Int) : Bool := (65 ≤ ch && ch ≤ 90) || (97 ≤ ch && ch ≤ 122)

def isAlnum (ch : Int) : Bool := isAlpha ch || isDigit ch

/-- The macro `IS_SYMBOL`. -/
def isSymbol (ch : Int) : Bool := isAlpha ch || ch = chr (byte '_')

/-- The macro `IS_SYMBOL1`. -/
def isSymbol1 (ch : Int) : Bool := isAlnum ch || ch = chr (byte '_')

theorem isSymbol1_of_isSymbol {ch : Int} (h : isSymbol ch) : isSymbol1 ch := by
  simp only [isSymbol, Bool.or_eq_true] at h
  simp only [isSymbol1, isAlnum, Bool.or_eq_true]
  exact h.imp_left Or.inl

theorem isSymbol1_of_isDigit {ch : Int} (h : isDigit ch) : isSymbol1 ch := by
  simp [isSymbol1, isAlnum, h]

/-- The bytes that C string functions see: those before the first NUL. -/
def cString (s : Bytes) : Bytes := s.takeWhile (· ≠ 0)

theorem cString_of_nulFree {s : Bytes} (h : 0 ∉ s) : cString s = s := by
  rw [cString, List.takeWhile_eq_self_iff]
  intro b hb
  have : b ≠ 0 := fun he => h (he ▸ hb)
  simpa using this

theorem cString_append_zero {s : Bytes} (rest : Bytes) (h : 0 ∉ s) :
    cString (s ++ 0 :: rest) = s := by
  rw [cString, List.takeWhile_append_of_pos]
  · simp
  · intro b hb
    have hne : b ≠ 0 := fun he => h (he ▸ hb)
    simpa using hne

theorem zero_notMem_cString (s : Bytes) : 0 ∉ cString s := by
  intro h
  simpa using List.mem_takeWhile_imp h

@[simp] theorem cString_cString (s : Bytes) : cString (cString s) = cString s :=
  cString_of_nulFree (zero_notMem_cString s)

/-- `strtol(s, NULL, 10)` on a C string, with `long` of 64 bits. -/
def strtol (s : Bytes) : Int :=
  let s := s.dropWhile fun b => isSpace (chr b)
  let negative := s.head? = some (byte '-')
  let s := if negative ∨ s.head? = some (byte '+') then s.tail else s
  let n := (s.takeWhile fun b => isDigit (chr b)).foldl (fun n b => n * 10 + (chr b - 48)) 0
  max (-2 ^ 63) (min (2 ^ 63 - 1) (if negative then -n else n))

/-- The conversion of a `long` to `int`. -/
def toInt (n : Int) : Int := n.bmod (2 ^ 32)

theorem toInt_of_lt {n : Nat} (h : n < 2 ^ 31) : toInt n = n := by
  unfold toInt
  rw [Int.bmod_def]
  omega

theorem toInt_of_ge {n : Nat} (hn : 2 ^ 31 ≤ n) (h : n < 2 ^ 32) : toInt n = n - 2 ^ 32 := by
  unfold toInt
  rw [Int.bmod_def]
  omega

end Rdpgen
