import Rdpgen.Lexed

namespace Rdpgen

/-- Where the bytes read so far leave the scanner. -/
inductive LexMode where
  | between
  | comment
  | percent
  | directive
  | quote
  | string
  | block (depth : Nat)
  | number
  | symbol
  | halted
  | overflown
  | stuck
  | cut
  deriving DecidableEq, Repr

namespace LexMode

/-- The first byte behind a token or behind white space. -/
def start (b : UInt8) : LexMode :=
  if isSpace (chr b) then between
  else if b = byte '#' then comment
  else if b = 0xFF then cut
  else if b = byte ':' then between
  else if b = byte '%' then percent
  else if b = byte '"' then quote
  else if b = byte '{' then block 0
  else if isDigit (chr b) then number
  else if isSymbol (chr b) then symbol
  else stuck

def next : LexMode → UInt8 → LexMode
  | between, b => start b
  | comment, b => if b = byte '\n' then between else comment
  | percent, b => if isSymbol (chr b) then directive else start b
  | directive, b =>
    if chr b > 0x7F then halted else if isSymbol (chr b) then directive else start b
  | quote, b => if b = byte '"' then between else string
  | string, b => if chr b > 0x7F then halted else if b = byte '"' then between else string
  | block depth, b =>
    if b = byte '{' then if depth + 2 < 2 ^ 31 then block (depth + 1) else overflown
    else if b = byte '}' then if depth = 0 then between else block (depth - 1)
    else block depth
  | number, b => if isDigit (chr b) then number else start b
  | symbol, b => if isSymbol1 (chr b) then symbol else start b
  | halted, _ => halted
  | overflown, _ => overflown
  | stuck, _ => stuck
  | cut, _ => cut

def after (m : LexMode) (u : Bytes) : LexMode := u.foldl next m

end LexMode

/-- How the last byte of a file finds the scanner. -/
inductive Ending where
  | plain
  /-- inside of a comment, a string or a block -/
  | inside
  /-- cut short at a byte 0xFF where a token would start -/
  | cut
  /-- behind more open braces than `get_block` can count -/
  | overflow
  deriving DecidableEq, Repr

namespace LexMode

def ending : LexMode → Ending
  | comment | quote | string | block _ => .inside
  | cut => .cut
  | overflown => .overflow
  | _ => .plain

@[simp] theorem after_cons (m : LexMode) (b : UInt8) (u : Bytes) :
    m.after (b :: u) = (m.next b).after u := rfl

theorem after_of_fixed {m : LexMode} (h : ∀ b, m.next b = m) (u : Bytes) : m.after u = m := by
  induction u with
  | nil => rfl
  | cons b u ih => rw [after_cons, h, ih]

theorem after_halted (u : Bytes) : halted.after u = halted := after_of_fixed (fun _ => rfl) u
theorem after_overflown (u : Bytes) : overflown.after u = overflown := after_of_fixed (fun _ => rfl) u
theorem after_stuck (u : Bytes) : stuck.after u = stuck := after_of_fixed (fun _ => rfl) u
theorem after_cut (u : Bytes) : cut.after u = cut := after_of_fixed (fun _ => rfl) u

/-- The ending of a call's bytes tells what the call comes to. -/
def Tracks (m : LexMode) (u : Bytes) : Lexed → Prop
  | .token _ _ rest _ => (m.after u).ending = (between.after rest).ending
  | .stop (.exit status) => status = 1 ∧ (m.after u).ending = .plain
  | .stop .fault => (m.after u).ending = .overflow
  | .hang => (m.after u).ending = .inside

@[simp] theorem tracks_cons {m : LexMode} {b : UInt8} {u : Bytes} {r : Lexed} :
    Tracks m (b :: u) r ↔ Tracks (m.next b) u r := by
  cases r with
  | stop e => cases e <;> rfl
  | token => rfl
  | hang => rfl

/-- A mode that ends a token reads on as a token boundary does. -/
theorem tracks_token {m : LexMode} {type : TokenType} {text u : Bytes} {n : Nat}
    (hm : m.ending = .plain) (h : ∀ b, peek u = chr b → m.next b = start b) :
    Tracks m u (.token type text u n) := by
  cases u with
  | nil => exact hm
  | cons b u =>
    rw [tracks_cons, h b rfl]
    rfl

theorem tracks_lexWhile {m : LexMode} {p : Int → Bool} (type : TokenType) (hm : m.ending = .plain)
    (h : ∀ b, m.next b = if p (chr b) then m else start b) (text u : Bytes) :
    Tracks m u (lexWhile type p text u) := by
  induction u generalizing text with
  | nil => exact hm
  | cons b u ih =>
    by_cases hb : p (chr b)
    · simpa [lexWhile, hb, h] using ih (text ++ [b])
    · simp only [lexWhile, hb]
      refine tracks_token hm fun c hc => ?_
      have hp : p (chr c) = false := by simpa [← hc] using hb
      simp [h, hp]

theorem ending_after_halted {u : Bytes} {m : LexMode} (hp : peek u > 0x7F)
    (hm : ∀ b, chr b > 0x7F → m.next b = halted) : (m.after u).ending = .plain := by
  cases u with
  | nil => simp [eof] at hp
  | cons b u =>
    rw [after_cons, hm b hp, after_halted]
    rfl

theorem tracks_lexDirective {m : LexMode} (text : Bytes) {u : Bytes} (hm : m.ending = .plain)
    (h : ∀ b, peek u = chr b → m.next b = if isSymbol (chr b) then directive else start b) :
    Tracks m u (lexDirective text u) := by
  induction u generalizing m text with
  | nil => exact hm
  | cons b u ih =>
    by_cases hb : isSymbol (chr b)
    · have hn : m.next b = directive := by simp [h b rfl, hb]
      rw [lexDirective, if_pos hb, tracks_cons, hn]
      split
      · next hp => exact ⟨rfl, ending_after_halted hp fun c hc => by simp [next, hc]⟩
      · next hp => exact ih _ rfl fun c hc => by simp [next, ← hc, hp]
    · rw [lexDirective, if_neg hb, endDirective]
      refine tracks_token hm fun c hc => ?_
      rw [h c hc, ← hc, peek_cons, if_neg hb]

theorem tracks_lexString {m : LexMode} (text : Bytes) {u : Bytes} (hm : m.ending = .inside)
    (h : ∀ b, peek u = chr b → m.next b = if b = byte '"' then between else string) :
    Tracks m u (lexString text u) := by
  induction u generalizing m text with
  | nil => exact hm
  | cons b u ih =>
    rw [tracks_cons, h b rfl, lexString]
    by_cases hb : b = byte '"'
    · rw [if_pos hb, if_pos hb]
      rfl
    · rw [if_neg hb, if_neg hb]
      split
      · next hp => exact ⟨rfl, ending_after_halted hp fun c hc => by simp [next, hc]⟩
      · next hp => exact ih _ rfl fun c hc => by simp [next, ← hc, hp]

theorem tracks_lexBlock (depth : Nat) (text u : Bytes) :
    Tracks (block depth) u (lexBlock depth text u) := by
  induction u generalizing depth text with
  | nil => rfl
  | cons b u ih =>
    rw [tracks_cons, next, lexBlock]
    split
    · split
      · exact ih _ _
      · exact congrArg ending (after_overflown u)
    · split
      · split
        · rfl
        · exact ih _ _
      · exact ih _ _

theorem tracks_lexFrom {u : Bytes} (hs : isSpace (peek u) = false) (hu : ∀ v, u ≠ byte '#' :: v) :
    Tracks between u (lexFrom u) := by
  cases u with
  | nil => rfl
  | cons b u =>
    have hb : b ≠ byte '#' := fun he => hu u (by rw [he])
    rw [peek_cons] at hs
    by_cases hend : b = 0xFF
    · rw [lexFrom, if_pos hend]
      rfl
    rw [tracks_cons, lexFrom, next, start, if_neg (by simp [hs]), if_neg hb, if_neg hend, if_neg hend]
    by_cases hcolon : b = byte ':'
    · rw [if_pos hcolon, if_pos hcolon]
      rfl
    rw [if_neg hcolon, if_neg hcolon]
    by_cases hpercent : b = byte '%'
    · rw [if_pos hpercent, if_pos hpercent]
      exact tracks_lexDirective _ rfl fun _ _ => rfl
    rw [if_neg hpercent, if_neg hpercent]
    by_cases hquote : b = byte '"'
    · rw [if_pos hquote, if_pos hquote]
      exact tracks_lexString _ rfl fun _ _ => rfl
    rw [if_neg hquote, if_neg hquote]
    by_cases hbrace : b = byte '{'
    · rw [if_pos hbrace, if_pos hbrace]
      exact tracks_lexBlock 0 [] u
    rw [if_neg hbrace, if_neg hbrace]
    by_cases hdigit : isDigit (chr b)
    · rw [if_pos hdigit, if_pos hdigit]
      exact tracks_lexWhile _ rfl (fun _ => rfl) _ _
    rw [if_neg hdigit, if_neg hdigit]
    by_cases hsymbol : isSymbol (chr b)
    · rw [if_pos hsymbol, if_pos hsymbol]
      exact tracks_lexWhile _ rfl (fun _ => rfl) _ _
    · rw [if_neg hsymbol, if_neg hsymbol]
      have hstuck : between.after (b :: u) = stuck := by
        rw [after_cons, next, start, if_neg (by simp [hs]), if_neg hb, if_neg hend, if_neg hcolon,
          if_neg hpercent, if_neg hquote, if_neg hbrace, if_neg hdigit, if_neg hsymbol, after_stuck]
      rw [Tracks, hstuck, after_stuck]

def trivia (c : Bool) : LexMode := if c then comment else between

theorem skipTrivia_cons (c : Bool) (b : UInt8) (u : Bytes) :
    (∃ c', skipTrivia c (b :: u) = skipTrivia c' u ∧ (trivia c).next b = trivia c') ∨
      (c = false ∧ isSpace (chr b) = false ∧ b ≠ byte '#' ∧ skipTrivia c (b :: u) = some (b :: u)) := by
  cases c with
  | true =>
    refine Or.inl ⟨b != byte '\n', by simp [skipTrivia], ?_⟩
    by_cases hb : b = byte '\n' <;> simp [trivia, next, hb]
  | false =>
    by_cases hs : isSpace (chr b)
    · exact Or.inl ⟨false, by simp [skipTrivia, hs], by simp [trivia, next, start, hs]⟩
    · by_cases hb : b = byte '#'
      · subst b
        have hn : isSpace (chr (byte '#')) = false := rfl
        exact Or.inl ⟨true, by simp [skipTrivia, hn], by simp [trivia, next, start, hn]⟩
      · exact Or.inr ⟨rfl, by simpa using hs, hb, by simp [skipTrivia, hs, hb]⟩

theorem ending_of_skipTrivia_none {c : Bool} {u : Bytes} (h : skipTrivia c u = none) :
    ((trivia c).after u).ending = .inside := by
  induction u generalizing c with
  | nil =>
    cases c with
    | true => rfl
    | false => simp [skipTrivia] at h
  | cons b u ih =>
    rcases skipTrivia_cons c b u with ⟨c', hc, hm⟩ | ⟨-, -, -, hc⟩
    · rw [after_cons, hm]
      exact ih (hc ▸ h)
    · simp [hc] at h

/-- Skipping trivia ends between tokens and at the first byte of a token. -/
theorem after_skipTrivia {c : Bool} {u v : Bytes} (h : skipTrivia c u = some v) :
    (trivia c).after u = between.after v ∧ isSpace (peek v) = false ∧ (∀ r, v ≠ byte '#' :: r) ∧
      v <:+ u := by
  induction u generalizing c with
  | nil =>
    cases c with
    | true => simp [skipTrivia] at h
    | false =>
      cases Option.some.inj h
      exact ⟨rfl, rfl, by simp, List.suffix_rfl⟩
  | cons b u ih =>
    rcases skipTrivia_cons c b u with ⟨c', hc, hm⟩ | ⟨rfl, hs, hb, hc⟩
    · obtain ⟨hv, hs, hn, hsuf⟩ := ih (hc ▸ h)
      exact ⟨by rw [after_cons, hm, hv], hs, hn, hsuf.trans (List.suffix_cons b u)⟩
    · cases Option.some.inj (hc.symm.trans h)
      exact ⟨rfl, hs, by simpa using hb, List.suffix_rfl⟩

theorem Tracks.congr {m m' : LexMode} {u u' : Bytes} {r : Lexed} (h : Tracks m u r)
    (he : m'.after u' = m.after u) : Tracks m' u' r := by
  cases r with
  | stop e => cases e <;> simpa only [Tracks, he] using h
  | token => simpa only [Tracks, he] using h
  | hang => simpa only [Tracks, he] using h

theorem tracks_lex (u : Bytes) : Tracks between u (lex u) := by
  cases h : skipTrivia false u with
  | none =>
    simp only [lex, h]
    exact ending_of_skipTrivia_none h
  | some v =>
    obtain ⟨hv, hs, hn, -⟩ := after_skipTrivia h
    simp only [lex, h]
    exact (tracks_lexFrom hs hn).congr hv

end LexMode

/-! ### What a token leaves behind -/

theorem lexWhile_rest {type t : TokenType} {p : Int → Bool} {text u text' rest : Bytes} {n : Nat}
    (h : lexWhile type p text u = .token t text' rest n) : t = type ∧ rest <:+ u := by
  induction u generalizing text with
  | nil =>
    cases h
    exact ⟨rfl, List.suffix_rfl⟩
  | cons b u ih =>
    rw [lexWhile] at h
    split at h
    · exact ⟨(ih h).1, (ih h).2.trans (List.suffix_cons b u)⟩
    · cases h
      exact ⟨rfl, List.suffix_rfl⟩

theorem endDirective_rest {t : TokenType} {text u text' rest : Bytes} {n : Nat}
    (h : endDirective text u = .token t text' rest n) : t ≠ .END_OF_INPUT ∧ rest = u := by
  rw [endDirective] at h
  injection h with ht _ hr
  refine ⟨?_, hr.symm⟩
  rw [← ht, directiveType]
  repeat' split
  all_goals decide

theorem lexDirective_rest {t : TokenType} {text u text' rest : Bytes} {n : Nat}
    (h : lexDirective text u = .token t text' rest n) : t ≠ .END_OF_INPUT ∧ rest <:+ u := by
  induction u generalizing text with
  | nil =>
    obtain ⟨ht, rfl⟩ := endDirective_rest h
    exact ⟨ht, List.suffix_rfl⟩
  | cons b u ih =>
    rw [lexDirective] at h
    split at h
    · split at h
      · cases h
      · exact ⟨(ih h).1, (ih h).2.trans (List.suffix_cons b u)⟩
    · obtain ⟨ht, rfl⟩ := endDirective_rest h
      exact ⟨ht, List.suffix_rfl⟩

theorem lexString_rest {t : TokenType} {text u text' rest : Bytes} {n : Nat}
    (h : lexString text u = .token t text' rest n) : t = .STRG ∧ rest <:+ u := by
  induction u generalizing text with
  | nil => cases h
  | cons b u ih =>
    rw [lexString] at h
    split at h
    · cases h
      exact ⟨rfl, List.suffix_cons b _⟩
    · split at h
      · cases h
      · exact ⟨(ih h).1, (ih h).2.trans (List.suffix_cons b u)⟩

theorem lexBlock_rest {t : TokenType} {depth : Nat} {text u text' rest : Bytes} {n : Nat}
    (h : lexBlock depth text u = .token t text' rest n) : t = .BLOCK ∧ rest <:+ u := by
  induction u generalizing depth text with
  | nil => cases h
  | cons b u ih =>
    have keep : ∀ {d}, lexBlock d (text ++ [b]) u = .token t text' rest n →
        t = .BLOCK ∧ rest <:+ b :: u :=
      fun h => ⟨(ih h).1, (ih h).2.trans (List.suffix_cons b u)⟩
    rw [lexBlock] at h
    split at h
    · split at h
      · exact keep h
      · cases h
    · split at h
      · split at h
        · cases h
          exact ⟨rfl, List.suffix_cons b _⟩
        · exact keep h
      · exact keep h

/-- A token other than the end of input takes its first byte away, unless that
byte starts nothing: then it is met again on every call. -/
theorem lexFrom_rest {t : TokenType} {b : UInt8} {u text rest : Bytes} {n : Nat} (hend : b ≠ 0xFF)
    (h : lexFrom (b :: u) = .token t text rest n) :
    t ≠ .END_OF_INPUT ∧ (rest <:+ u ∨ rest = b :: u ∧
      (isSpace (chr b) = false → b ≠ byte '#' → LexMode.start b = .stuck)) := by
  rw [lexFrom, if_neg hend] at h
  split at h
  · cases h
    exact ⟨by decide, Or.inl List.suffix_rfl⟩
  split at h
  · exact ⟨(lexDirective_rest h).1, Or.inl (lexDirective_rest h).2⟩
  split at h
  · obtain ⟨rfl, hr⟩ := lexString_rest h
    exact ⟨by decide, Or.inl hr⟩
  split at h
  · obtain ⟨rfl, hr⟩ := lexBlock_rest h
    exact ⟨by decide, Or.inl hr⟩
  split at h
  · obtain ⟨rfl, hr⟩ := lexWhile_rest h
    exact ⟨by decide, Or.inl hr⟩
  split at h
  · obtain ⟨rfl, hr⟩ := lexWhile_rest h
    exact ⟨by decide, Or.inl hr⟩
  · cases h
    refine ⟨by decide, Or.inr ⟨rfl, fun hs hb => ?_⟩⟩
    simp_all [LexMode.start]

/-- The end of input is found where no byte is left and at a byte 0xFF. -/
theorem lexFrom_end_iff {t : TokenType} {u text rest : Bytes} {n : Nat}
    (h : lexFrom u = .token t text rest n) :
    t = .END_OF_INPUT ↔ u = [] ∨ ∃ v, u = 0xFF :: v := by
  cases u with
  | nil =>
    cases h
    simp
  | cons b u =>
    by_cases hend : b = 0xFF
    · rw [lexFrom, if_pos hend] at h
      cases h
      simp [hend]
    · simp [(lexFrom_rest hend h).1, hend]

end Rdpgen
