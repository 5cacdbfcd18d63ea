import Rdpgen.Layout

namespace Rdpgen

/-! ### What each part of the scanner has read -/

theorem lexWhile_iff {p : Int → Bool} (hp : p eof = false) {type t : TokenType}
    {text u text' rest : Bytes} {n : Nat} :
    lexWhile type p text u = .token t text' rest n ↔
      t = type ∧ n = 0 ∧ p (peek rest) = false ∧
        ∃ v, text' = text ++ v ∧ u = v ++ rest ∧ ∀ b ∈ v, p (chr b) := by
  constructor
  · intro h
    induction u generalizing text with
    | nil =>
      cases h
      exact ⟨rfl, rfl, hp, [], by simp, rfl, by simp⟩
    | cons b u ih =>
      rw [lexWhile] at h
      split at h
      · next hb =>
        obtain ⟨ht, hn, hr, v, rfl, rfl, hv⟩ := ih h
        refine ⟨ht, hn, hr, b :: v, by simp, rfl, ?_⟩
        exact List.forall_mem_cons.mpr ⟨hb, hv⟩
      · next hb =>
        cases h
        exact ⟨rfl, rfl, by simpa using hb, [], by simp, rfl, by simp⟩
  · intro h
    obtain ⟨rfl, rfl, hr, v, rfl, rfl, hv⟩ := h
    exact lexWhile_append hv hr text

theorem lexString_iff {t : TokenType} {text u text' rest : Bytes} {n : Nat} :
    lexString text u = .token t text' rest n ↔
      t = .STRG ∧ n = 0 ∧ ∃ v, text' = text ++ v ∧ u = v ++ byte '"' :: rest ∧ byte '"' ∉ v ∧
        ∀ b ∈ v.tail, b < 0x80 := by
  have low (b : UInt8) : ¬ chr b > 0x7F ↔ b < 0x80 := by
    rw [UInt8.lt_iff_toNat_lt, chr]
    simp only [UInt8.toNat_ofNat]
    omega
  constructor
  · intro h
    induction u generalizing text with
    | nil => cases h
    | cons b u ih =>
      rw [lexString] at h
      split at h
      · next hb =>
        cases h
        exact ⟨rfl, rfl, [], by simp, by simp [hb], by simp, by simp⟩
      split at h
      · cases h
      · next hb hp =>
        obtain ⟨ht, hn, v, rfl, rfl, hq, hv⟩ := ih h
        refine ⟨ht, hn, b :: v, by simp, rfl, ?_, ?_⟩
        · simpa [hq] using fun he => hb he.symm
        · cases v with
          | nil => simp
          | cons c v => exact List.forall_mem_cons.mpr ⟨(low c).mp hp, hv⟩
  · intro h
    obtain ⟨rfl, rfl, v, rfl, rfl, hq, hv⟩ := h
    induction v generalizing text with
    | nil => simp [lexString]
    | cons b v ih =>
      rw [List.mem_cons, not_or] at hq
      have hp : ¬ peek (v ++ byte '"' :: rest) > 0x7F := by
        cases v with
        | nil => exact (low _).mpr (by decide)
        | cons c v => exact (low c).mpr (hv c (by simp))
      rw [List.cons_append, lexString, if_neg (Ne.symm hq.1), if_neg hp]
      rw [ih hq.2 fun c hc => hv c (List.mem_of_mem_tail hc)]
      simp

theorem lexBlock_iff {t : TokenType} {depth : Nat} {text u text' rest : Bytes} {n : Nat} :
    lexBlock depth text u = .token t text' rest n ↔
      t = .BLOCK ∧ n = 0 ∧ ∃ v, text' = text ++ v ∧ u = v ++ byte '}' :: rest ∧
        Balanced depth v := by
  constructor
  · intro h
    induction u generalizing depth text with
    | nil => cases h
    | cons b u ih =>
      rw [lexBlock] at h
      split at h
      · next hb =>
        split at h
        · next hd =>
          obtain ⟨ht, hn, v, rfl, rfl, hv⟩ := ih h
          exact ⟨ht, hn, b :: v, by simp, rfl, by rw [Balanced, if_pos hb]; exact ⟨hd, hv⟩⟩
        · cases h
      split at h
      · next hb hc =>
        split at h
        · next hd =>
          cases h
          exact ⟨rfl, rfl, [], by simp, by simp [hc], hd⟩
        · next hd =>
          obtain ⟨ht, hn, v, rfl, rfl, hv⟩ := ih h
          refine ⟨ht, hn, b :: v, by simp, rfl, ?_⟩
          rw [Balanced, if_neg hb, if_pos hc]
          exact ⟨Nat.pos_of_ne_zero hd, hv⟩
      · next hb hc =>
        obtain ⟨ht, hn, v, rfl, rfl, hv⟩ := ih h
        exact ⟨ht, hn, b :: v, by simp, rfl, by rwa [Balanced, if_neg hb, if_neg hc]⟩
  · intro h
    obtain ⟨rfl, rfl, v, rfl, rfl, hv⟩ := h
    exact lexBlock_append hv text rest

theorem lexDirective_iff {t : TokenType} {text u text' rest : Bytes} {n : Nat} :
    lexDirective text u = .token t text' rest n ↔
      endDirective text' rest = .token t text' rest n ∧ isSymbol (peek rest) = false ∧
        ∃ v, text' = text ++ v ∧ u = v ++ rest ∧ (∀ b ∈ v, isSymbol (chr b)) ∧
          (v ≠ [] → ¬ peek rest > 0x7F) := by
  constructor
  · intro h
    induction u generalizing text with
    | nil =>
      have hr := (endDirective_rest h).2
      subst hr
      have ht : text' = text := by
        injection h with _ ht
        exact ht.symm
      subst ht
      exact ⟨h, rfl, [], by simp, rfl, by simp, by simp⟩
    | cons b u ih =>
      rw [lexDirective] at h
      split at h
      · next hb =>
        split at h
        · cases h
        · next hp =>
          obtain ⟨he, hr, v, rfl, rfl, hv, hlow⟩ := ih h
          refine ⟨he, hr, b :: v, by simp, rfl, List.forall_mem_cons.mpr ⟨hb, hv⟩, fun _ => ?_⟩
          cases v with
          | nil => exact hp
          | cons c v => exact hlow (by simp)
      · next hb =>
        have hr := (endDirective_rest h).2
        subst hr
        have ht : text' = text := by
          injection h with _ ht
          exact ht.symm
        subst ht
        exact ⟨h, by simpa using hb, [], by simp, rfl, by simp, by simp⟩
  · intro h
    obtain ⟨he, hr, v, rfl, rfl, hv, hlow⟩ := h
    rw [← he]
    induction v generalizing text with
    | nil =>
      cases rest with
      | nil => simp [lexDirective]
      | cons b rest => simp [lexDirective, show isSymbol (chr b) = false from hr]
    | cons b v ih =>
      obtain ⟨hb, hv⟩ := List.forall_mem_cons.mp hv
      have hp : ¬ peek (v ++ rest) > 0x7F := by
        cases v with
        | nil => exact hlow (by simp)
        | cons c v => exact isSymbol_le (hv c (by simp))
      rw [List.cons_append, lexDirective, if_pos hb, if_neg hp]
      have happ : text ++ b :: v = text ++ [b] ++ v := by simp
      rw [happ] at he ⊢
      exact ih he hv fun _ => hlow (by simp)

/-! ### Tokens as they are written -/

/-- The tokens that the scanner finds without an error. -/
def Tok.Writable (t : Tok) : Prop :=
  match t.type with
  | .COLON => t.str = []
  | .SYMBOL => ∃ b v, t.str = b :: v ∧ isSymbol (chr b) ∧ ∀ c ∈ v, isSymbol1 (chr c)
  | .NUMBER => ∃ b v, t.str = b :: v ∧ isDigit (chr b) ∧ ∀ c ∈ v, isDigit (chr c)
  | .STRG => byte '"' ∉ t.str ∧ ∀ b ∈ t.str.tail, b < 0x80
  | .BLOCK => Balanced 0 t.str
  | .VERBOSITY => t.str = directiveVerbosity
  | .NAME => t.str = directiveName
  | .PREFIX => t.str = directivePrefix
  | .CODE => t.str = directiveCode
  | .ERROR | .END_OF_INPUT => False

def Tok.bytes (t : Tok) : Bytes :=
  match t.type with
  | .COLON => [byte ':']
  | .STRG => byte '"' :: t.str ++ [byte '"']
  | .BLOCK => byte '{' :: t.str ++ [byte '}']
  | _ => t.str

/-- What may stand right behind a token. -/
def Tok.Apart (t : Tok) (u : Bytes) : Prop :=
  match t.type with
  | .SYMBOL => isSymbol1 (peek u) = false
  | .NUMBER => isDigit (peek u) = false
  | .VERBOSITY | .NAME | .PREFIX | .CODE => isSymbol (peek u) = false ∧ ¬ peek u > 0x7F
  | _ => True

/-- The directive that is a token of the given type. -/
def directiveText : TokenType → Option Bytes
  | .VERBOSITY => some directiveVerbosity
  | .NAME => some directiveName
  | .PREFIX => some directivePrefix
  | .CODE => some directiveCode
  | _ => none

theorem directiveType_iff {text : Bytes} {type : TokenType} :
    directiveText type = some text ↔ directiveType text = type ∧ type ≠ .ERROR := by
  unfold directiveType
  constructor
  · intro h
    cases type <;> cases h <;> decide
  · intro h
    obtain ⟨rfl, hne⟩ := h
    split at hne
    · next ht => rw [ht]; rfl
    split at hne
    · next ht => rw [ht]; rfl
    split at hne
    · next ht => rw [ht]; rfl
    split at hne
    · next ht => rw [ht]; rfl
    · exact absurd rfl hne

theorem Tok.directive {t : Tok} {text : Bytes} (h : directiveText t.type = some text) :
    (t.Writable ↔ t.str = text) ∧
      (∀ u, t.Apart u ↔ isSymbol (peek u) = false ∧ ¬ peek u > 0x7F) ∧ t.bytes = t.str := by
  obtain ⟨type, str⟩ := t
  cases type <;> cases h <;> exact ⟨Iff.rfl, fun _ => Iff.rfl, rfl⟩

/-- The text of a directive is a percent sign and letters. -/
theorem directiveText_eq {text : Bytes} {type : TokenType} (h : directiveText type = some text) :
    rawStr text = text ∧ ∃ v, text = byte '%' :: v ∧ v ≠ [] ∧ ∀ b ∈ v, isSymbol (chr b) := by
  cases type <;> cases h <;>
    exact ⟨by decide, _, rfl, List.cons_ne_nil _ _, List.all_eq_true.mp rfl⟩

theorem lexDirective_written {t : Tok} {u rest : Bytes} :
    lexDirective [byte '%'] u = .token t.type t.str rest 0 ↔
      (directiveText t.type).isSome ∧ t.Writable ∧ t.Apart rest ∧
        byte '%' :: u = t.bytes ++ rest := by
  rw [lexDirective_iff]
  constructor
  · intro h
    obtain ⟨he, hr, v, hstr, rfl, hv, hlow⟩ := h
    have hraw : rawStr t.str = t.str := by
      apply cString_of_nulFree
      rw [hstr]
      intro h0
      rcases List.mem_cons.mp h0 with h0 | h0
      · exact absurd h0 (by decide)
      · exact absurd (hv 0 h0) (by decide)
    rw [endDirective, hraw] at he
    injection he with htype _ _ hn
    have hne : t.type ≠ .ERROR := fun hc => by simp [htype, hc] at hn
    have htext := directiveType_iff.mpr ⟨htype, hne⟩
    obtain ⟨hw, ha, hb⟩ := Tok.directive htext
    refine ⟨by simp [htext], hw.mpr rfl, (ha rest).mpr ⟨hr, hlow ?_⟩, by rw [hb, hstr]; simp⟩
    obtain ⟨-, v', hv', hne', -⟩ := directiveText_eq htext
    rw [hstr] at hv'
    have htail : v = v' := (List.cons.inj hv').2
    rwa [htail]
  · intro h
    obtain ⟨hsome, hw, ha, hu⟩ := h
    obtain ⟨text, htext⟩ := Option.isSome_iff_exists.mp hsome
    obtain ⟨hw', ha', hb⟩ := Tok.directive htext
    obtain ⟨hraw, v, hv, hne, hsym⟩ := directiveText_eq htext
    obtain ⟨hr, hlow⟩ := (ha' rest).mp ha
    rw [hb, hw'.mp hw, hv] at hu
    have hstr : t.str = byte '%' :: v := (hw'.mp hw).trans hv
    refine ⟨?_, hr, v, hstr, (List.cons.inj hu).2, hsym, fun _ => hlow⟩
    obtain ⟨htype, hne'⟩ := directiveType_iff.mp htext
    rw [endDirective, hw'.mp hw, hraw, htype, if_neg hne']

/-- At the first byte of a token the scanner finds `t` exactly if `t` is written there. -/
theorem lexFrom_iff {t : Tok} {u rest : Bytes} (ht : t.type ≠ .END_OF_INPUT) :
    lexFrom u = .token t.type t.str rest 0 ↔ t.Writable ∧ t.Apart rest ∧ u = t.bytes ++ rest := by
  constructor
  · intro h
    obtain ⟨type, str⟩ := t
    cases u with
    | nil =>
      cases h
      exact absurd rfl ht
    | cons b u =>
      rw [lexFrom] at h
      split at h
      · cases h
        exact absurd rfl ht
      split at h
      · next hb =>
        cases h
        exact ⟨rfl, trivial, by simp [Tok.bytes, hb]⟩
      split at h
      · next hb =>
        subst hb
        obtain ⟨-, hw, ha, hu⟩ := lexDirective_written.mp h
        exact ⟨hw, ha, hu⟩
      split at h
      · next hb =>
        obtain ⟨rfl, -, v, rfl, rfl, hq, hv⟩ := lexString_iff.mp h
        exact ⟨⟨hq, hv⟩, trivial, by simp [Tok.bytes, hb]⟩
      split at h
      · next hb =>
        obtain ⟨rfl, -, v, rfl, rfl, hv⟩ := lexBlock_iff.mp h
        exact ⟨hv, trivial, by simp [Tok.bytes, hb]⟩
      split at h
      · next hb =>
        obtain ⟨rfl, -, hr, v, rfl, rfl, hv⟩ := (lexWhile_iff rfl).mp h
        exact ⟨⟨b, v, rfl, hb, hv⟩, hr, rfl⟩
      split at h
      · next hb =>
        obtain ⟨rfl, -, hr, v, rfl, rfl, hv⟩ := (lexWhile_iff rfl).mp h
        exact ⟨⟨b, v, rfl, hb, hv⟩, hr, rfl⟩
      · cases h
  · intro h
    obtain ⟨type, str⟩ := t
    obtain ⟨hw, ha, rfl⟩ := h
    have directive (text v : Bytes) (htext : directiveText type = some text)
        (hstr : str = text) (hv : text = byte '%' :: v) :
        lexFrom (Tok.bytes ⟨type, str⟩ ++ rest) = .token type str rest 0 := by
      obtain ⟨-, -, hb⟩ := Tok.directive (t := ⟨type, str⟩) htext
      have hu : byte '%' :: (v ++ rest) = Tok.bytes ⟨type, str⟩ ++ rest := by
        rw [hb, hstr, hv]
        rfl
      rw [← hu]
      exact lexDirective_written.mpr ⟨by simp [htext], hw, ha, hu⟩
    cases type with
    | ERROR => exact hw.elim
    | END_OF_INPUT => exact hw.elim
    | COLON =>
      cases (show str = [] from hw)
      rfl
    | SYMBOL =>
      obtain ⟨b, v, rfl, hb, hv⟩ := hw
      exact (lexFrom_symbol hb _).trans (lexWhile_append hv ha [b])
    | NUMBER =>
      obtain ⟨b, v, rfl, hb, hv⟩ := hw
      exact (lexFrom_number hb _).trans (lexWhile_append hv ha [b])
    | STRG =>
      simp only [Tok.bytes, List.cons_append, List.append_assoc, List.nil_append]
      exact lexString_iff.mpr ⟨rfl, rfl, str, rfl, rfl, hw.1, hw.2⟩
    | BLOCK =>
      simp only [Tok.bytes, List.cons_append, List.append_assoc, List.nil_append]
      exact lexBlock_iff.mpr ⟨rfl, rfl, str, rfl, rfl, hw⟩
    | VERBOSITY => exact directive _ _ rfl hw rfl
    | NAME => exact directive _ _ rfl hw rfl
    | PREFIX => exact directive _ _ rfl hw rfl
    | CODE => exact directive _ _ rfl hw rfl

theorem symbol1_starts {b : UInt8} (h : isSymbol1 (chr b)) :
    isSpace (chr b) = false ∧ b ≠ byte '#' := by
  refine ⟨?_, fun hb => absurd (hb ▸ h) (by decide)⟩
  have hu : chr (byte '_') = 95 := rfl
  simp only [isSymbol1, isAlnum, isAlpha, isDigit, Bool.or_eq_true, decide_eq_true_eq,
    Bool.and_eq_true] at h
  simp only [isSpace, Bool.or_eq_false_iff, decide_eq_false_iff_not, Bool.and_eq_false_iff]
  omega

/-- A written token starts with neither white space nor a comment. -/
theorem Tok.Writable.starts {t : Tok} (h : t.Writable) :
    ∃ b v, t.bytes = b :: v ∧ isSpace (chr b) = false ∧ b ≠ byte '#' := by
  obtain ⟨type, str⟩ := t
  have directive (text : Bytes) (htext : directiveText type = some text) :
      ∃ b v, Tok.bytes ⟨type, str⟩ = b :: v ∧ isSpace (chr b) = false ∧ b ≠ byte '#' := by
    obtain ⟨hw, -, hb⟩ := Tok.directive (t := ⟨type, str⟩) htext
    obtain ⟨-, v, hv, -⟩ := directiveText_eq htext
    exact ⟨byte '%', v, by rw [hb, hw.mp h, hv], rfl, by decide⟩
  cases type with
  | ERROR => exact h.elim
  | END_OF_INPUT => exact h.elim
  | COLON => exact ⟨_, _, rfl, rfl, by decide⟩
  | STRG => exact ⟨_, _, rfl, rfl, by decide⟩
  | BLOCK => exact ⟨_, _, rfl, rfl, by decide⟩
  | SYMBOL =>
    obtain ⟨b, v, rfl, hb, -⟩ := h
    exact ⟨b, v, rfl, symbol1_starts (isSymbol1_of_isSymbol hb)⟩
  | NUMBER =>
    obtain ⟨b, v, rfl, hb, -⟩ := h
    exact ⟨b, v, rfl, symbol1_starts (isSymbol1_of_isDigit hb)⟩
  | VERBOSITY => exact directive _ rfl
  | NAME => exact directive _ rfl
  | PREFIX => exact directive _ rfl
  | CODE => exact directive _ rfl

/-! ### Files as they are written -/

theorem gap_of_skipTrivia {comment : Bool} {u v : Bytes} (h : skipTrivia comment u = some v) :
    if comment then ∃ body gap, byte '\n' ∉ body ∧ u = body ++ byte '\n' :: (Gap.bytes gap ++ v)
    else ∃ gap, u = Gap.bytes gap ++ v := by
  induction u generalizing comment with
  | nil =>
    cases comment with
    | true => cases h
    | false =>
      cases h
      exact ⟨[], rfl⟩
  | cons b u ih =>
    rw [skipTrivia] at h
    cases comment with
    | true =>
      rw [if_pos rfl] at h ⊢
      by_cases hb : b = byte '\n'
      · rw [hb, bne_self_eq_false] at h
        obtain ⟨gap, rfl⟩ := ih h
        exact ⟨[], gap, by simp, by rw [hb]; rfl⟩
      · rw [bne_iff_ne.mpr hb] at h
        obtain ⟨body, gap, hn, rfl⟩ := ih h
        refine ⟨b :: body, gap, ?_, rfl⟩
        simpa [hn] using fun he => hb he.symm
    | false =>
      rw [if_neg (by simp)] at h ⊢
      split at h
      · next hs =>
        obtain ⟨gap, rfl⟩ := ih h
        exact ⟨.space b hs :: gap, rfl⟩
      split at h
      · next hs hb =>
        obtain ⟨body, gap, hn, rfl⟩ := ih h
        exact ⟨.comment body hn :: gap, by simp [Gap.bytes, Piece.bytes, hb]⟩
      · cases h
        exact ⟨[], rfl⟩

/-- Where the scanner finds the end of the input. -/
def AtEnd (u : Bytes) : Prop := u = [] ∨ ∃ v, u = 0xFF :: v

theorem AtEnd.lexFrom_eq {u : Bytes} (h : AtEnd u) : lexFrom u = .token .END_OF_INPUT [] u 0 := by
  rcases h with rfl | ⟨v, rfl⟩ <;> rfl

theorem AtEnd.lex_gap {u : Bytes} (h : AtEnd u) (gap : Gap) :
    lex (Gap.bytes gap ++ u) = .token .END_OF_INPUT [] u 0 := by
  have hs : skipTrivia false u = some u := by
    rcases h with rfl | ⟨v, rfl⟩ <;> rfl
  simp only [lex, skipTrivia_gap, hs]
  exact h.lexFrom_eq

theorem lex_end_iff {u text rest : Bytes} {n : Nat} :
    lex u = .token .END_OF_INPUT text rest n ↔
      text = [] ∧ n = 0 ∧ AtEnd rest ∧ ∃ gap, u = Gap.bytes gap ++ rest := by
  constructor
  · intro h
    obtain ⟨hs, hend⟩ := lex_end h
    have hrest : lex u = .token .END_OF_INPUT [] rest 0 := by
      simp only [lex, hs]
      exact AtEnd.lexFrom_eq hend
    cases h.symm.trans hrest
    exact ⟨rfl, rfl, hend, gap_of_skipTrivia hs⟩
  · intro h
    obtain ⟨rfl, rfl, hend, gap, rfl⟩ := h
    exact hend.lex_gap gap

/-- The scanner finds `t` exactly if `t` is written behind some trivia. -/
theorem lex_iff {t : Tok} {u rest : Bytes} (ht : t.type ≠ .END_OF_INPUT) :
    lex u = .token t.type t.str rest 0 ↔
      t.Writable ∧ t.Apart rest ∧ ∃ gap, u = Gap.bytes gap ++ (t.bytes ++ rest) := by
  constructor
  · intro h
    cases hs : skipTrivia false u with
    | none => simp [lex, hs] at h
    | some v =>
      simp only [lex, hs] at h
      obtain ⟨hw, ha, rfl⟩ := (lexFrom_iff ht).mp h
      exact ⟨hw, ha, gap_of_skipTrivia hs⟩
  · intro h
    obtain ⟨hw, ha, gap, rfl⟩ := h
    obtain ⟨b, v, hb, hspace, hcomment⟩ := hw.starts
    have hs : skipTrivia false (t.bytes ++ rest) = some (t.bytes ++ rest) := by
      rw [hb]
      exact skipTrivia_self hspace fun r hr => hcomment (List.cons.inj hr).1
    simp only [lex, skipTrivia_gap, hs]
    exact (lexFrom_iff ht).mpr ⟨hw, ha, rfl⟩

/-- The scanner finds the tokens `ts` without an error, and then the end of the input. -/
inductive Lexes : Bytes → List Tok → Prop
  | done {u rest : Bytes} : lex u = .token .END_OF_INPUT [] rest 0 → Lexes u []
  | cons {u rest : Bytes} {t : Tok} {ts : List Tok} : t.type ≠ .END_OF_INPUT →
      lex u = .token t.type t.str rest 0 → Lexes rest ts → Lexes u (t :: ts)

/-- A file in which the tokens `ts` are written, with white space and comments around them, up to
where the scanner finds the end of the input. -/
inductive Written : Bytes → List Tok → Prop
  | done (gap : Gap) {rest : Bytes} : AtEnd rest → Written (Gap.bytes gap ++ rest) []
  | cons (gap : Gap) {t : Tok} {rest : Bytes} {ts : List Tok} : t.Writable → t.Apart rest →
      Written rest ts → Written (Gap.bytes gap ++ (t.bytes ++ rest)) (t :: ts)

theorem Tok.Writable.type_ne {t : Tok} (h : t.Writable) :
    t.type ≠ .END_OF_INPUT ∧ t.type ≠ .ERROR := by
  constructor
  · intro ht
    simp [Tok.Writable, ht] at h
  · intro ht
    simp [Tok.Writable, ht] at h

theorem lexes_iff_written {u : Bytes} {ts : List Tok} : Lexes u ts ↔ Written u ts := by
  constructor
  · intro h
    induction h with
    | done hl =>
      obtain ⟨-, -, hend, gap, rfl⟩ := lex_end_iff.mp hl
      exact .done gap hend
    | cons ht hl _ ih =>
      obtain ⟨hw, ha, gap, rfl⟩ := (lex_iff ht).mp hl
      exact .cons gap hw ha ih
  · intro h
    induction h with
    | done gap hend => exact .done (hend.lex_gap gap)
    | cons gap hw ha _ ih =>
      have ht := hw.type_ne.1
      exact .cons ht ((lex_iff ht).mpr ⟨hw, ha, gap, rfl⟩) ih

theorem Lexes.type_ne {u : Bytes} {ts : List Tok} (h : Lexes u ts) :
    ∀ t ∈ ts, t.type ≠ .END_OF_INPUT ∧ t.type ≠ .ERROR := by
  induction h with
  | done _ => simp
  | cons ht hl _ ih => exact List.forall_mem_cons.mpr ⟨((lex_iff ht).mp hl).1.type_ne, ih⟩

/-! ### Runs of the scanner -/

theorem Delivers.errors_le {w w' : World FileStack} {tokens : List (TokenType × Bytes)}
    (h : Delivers w tokens w') (hc : w.input.Clean) : w.errors ≤ w'.errors := by
  induction h with
  | nil => exact le_rfl
  | cons hr _ ih =>
    obtain ⟨_, n, -, hc', -, herr, -⟩ := consumeToken_returns hc hr
    have hrest := ih hc'
    omega

theorem Delivers.lexes {w w' : World FileStack} {tokens : List (TokenType × Bytes)}
    (hd : Delivers w (tokens ++ [(.END_OF_INPUT, [])]) w') (hc : w.input.Clean)
    (h0 : w'.errors = 0) (hne : ∀ p ∈ tokens, p.1 ≠ .END_OF_INPUT) :
    ∃ ts, Lexes w.input.unread ts ∧ tokens = ts.map fun t => (t.type, copyStr t.str) := by
  induction tokens generalizing w with
  | nil =>
    generalize hl : [] ++ [(TokenType.END_OF_INPUT, ([] : Bytes))] = l at hd
    cases hd with
    | nil => cases hl
    | @cons _ v _ tk _ hr _ =>
      obtain ⟨htype, -⟩ := Prod.mk.inj (List.cons.inj hl).1
      obtain ⟨text, n, hlex, -⟩ := consumeToken_returns hc hr
      rw [← htype] at hlex
      obtain ⟨rfl, rfl, -⟩ := lex_end_iff.mp hlex
      exact ⟨[], .done hlex, rfl⟩
  | cons p tokens ih =>
    generalize hl : p :: tokens ++ [(TokenType.END_OF_INPUT, ([] : Bytes))] = l at hd
    cases hd with
    | nil => cases hl
    | @cons _ v _ tk _ hr hrest =>
      obtain ⟨rfl, rfl⟩ := List.cons.inj hl
      obtain ⟨hp, hne⟩ := List.forall_mem_cons.mp hne
      obtain ⟨text, n, hlex, hc', -, herr, hstr⟩ := consumeToken_returns hc hr
      have hle := Delivers.errors_le hrest hc'
      have hn : n = 0 := by omega
      subst hn
      obtain ⟨ts, hts, rfl⟩ := ih hrest hc' hne
      refine ⟨⟨tk.type, text⟩ :: ts, .cons hp hlex hts, ?_⟩
      rw [hstr]
      rfl

theorem Lexes.delivers {u : Bytes} {ts : List Tok} (h : Lexes u ts) {w : World FileStack} {tok : Tok}
    {errs : Nat} (hw : w.Shows u tok errs) :
    ∃ w', Delivers w (ts.map (fun t => (t.type, copyStr t.str)) ++ [(.END_OF_INPUT, [])]) w' ∧
      w'.errors = errs := by
  induction h generalizing w tok with
  | done hl =>
    obtain ⟨tk, w', hr, hw', htype, hstr⟩ := exists_token hw hl
    have hd := Delivers.cons hr .nil
    rw [htype, hstr] at hd
    exact ⟨w', hd, hw'.errors⟩
  | cons ht hl _ ih =>
    obtain ⟨tk, w', hr, hw', htype, hstr⟩ := exists_token hw hl
    obtain ⟨w'', hd, he⟩ := ih hw'
    have hcons := Delivers.cons hr hd
    rw [htype, hstr] at hcons
    exact ⟨w'', hcons, he⟩

end Rdpgen
