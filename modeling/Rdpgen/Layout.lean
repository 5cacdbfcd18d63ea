import Rdpgen.ScanRuns

namespace Rdpgen

/-- The braces of a text match, never close more than was opened, and with the
outer pair nest at most 2 ^ 31 - 1 deep, as `get_block` can count. -/
def Balanced (depth : Nat) : Bytes → Prop
  | [] => depth = 0
  | b :: u =>
    if b = byte '{' then depth + 2 < 2 ^ 31 ∧ Balanced (depth + 1) u
    else if b = byte '}' then 0 < depth ∧ Balanced (depth - 1) u
    else Balanced depth u

/-- A token as it may be written into a grammar file. -/
inductive Lexeme where
  | colon
  | symbol (first : UInt8) (more : Bytes) (hf : isSymbol (chr first)) (hm : ∀ b ∈ more, isSymbol1 (chr b))
  | number (first : UInt8) (more : Bytes) (hf : isDigit (chr first)) (hm : ∀ b ∈ more, isDigit (chr b))
  | strg (text : Bytes) (ht : ∀ b ∈ text, b ≠ 0 ∧ b < 0x80 ∧ b ≠ byte '"')
  | block (text : Bytes) (hn : 0 ∉ text) (hb : Balanced 0 text)
  | verbosity
  | name
  | code
  | outputPrefix

namespace Lexeme

def type : Lexeme → TokenType
  | colon => .COLON
  | symbol .. => .SYMBOL
  | number .. => .NUMBER
  | strg .. => .STRG
  | block .. => .BLOCK
  | verbosity => .VERBOSITY
  | name => .NAME
  | code => .CODE
  | outputPrefix => .PREFIX

def text : Lexeme → Bytes
  | colon => []
  | symbol first more _ _ => first :: more
  | number first more _ _ => first :: more
  | strg text _ => text
  | block text _ _ => text
  | verbosity => directiveVerbosity
  | name => directiveName
  | code => directiveCode
  | outputPrefix => directivePrefix

def bytes : Lexeme → Bytes
  | colon => [byte ':']
  | strg text _ => byte '"' :: text ++ [byte '"']
  | block text _ _ => byte '{' :: text ++ [byte '}']
  | lx => lx.text

end Lexeme

/-- White space or one comment up to its newline. -/
inductive Piece where
  | space (b : UInt8) (h : isSpace (chr b))
  | comment (body : Bytes) (h : byte '\n' ∉ body)

def Piece.bytes : Piece → Bytes
  | space b _ => [b]
  | comment body _ => byte '#' :: body ++ [byte '\n']

abbrev Gap := List Piece

def Gap.bytes (gap : Gap) : Bytes := gap.flatMap Piece.bytes

/-- A grammar file: trivia, then tokens each with the trivia behind it. -/
def render (lead : Gap) (items : List (Lexeme × Gap)) : Bytes :=
  Gap.bytes lead ++ items.flatMap fun item => item.1.bytes ++ Gap.bytes item.2

/-- Adjacent tokens have something between them. A directive at the very end
of a file needs nothing behind it. -/
def Spaced : List (Lexeme × Gap) → Prop
  | [] => True
  | [_] => True
  | (_, gap) :: items => gap ≠ [] ∧ Spaced items

/-- What may stand right behind a token. -/
def Delimits (u : Bytes) : Prop :=
  ∀ b v, u = b :: v → isSpace (chr b) ∨ b = byte '#'

theorem skipTrivia_comment {body : Bytes} (h : byte '\n' ∉ body) (u : Bytes) :
    skipTrivia true (body ++ byte '\n' :: u) = skipTrivia false u := by
  induction body with
  | nil => simp [skipTrivia]
  | cons b body ih =>
    rw [List.mem_cons, not_or] at h
    have hb : (b != byte '\n') = true := bne_iff_ne.mpr (Ne.symm h.1)
    simp [skipTrivia, hb, ih h.2]

theorem skipTrivia_gap (gap : Gap) (u : Bytes) :
    skipTrivia false (Gap.bytes gap ++ u) = skipTrivia false u := by
  induction gap with
  | nil => rfl
  | cons piece gap ih =>
    cases piece with
    | space b hb => simpa [Gap.bytes, Piece.bytes, skipTrivia, hb] using ih
    | comment body hb =>
      have hs : isSpace (chr (byte '#')) = false := rfl
      have hc := skipTrivia_comment hb (Gap.bytes gap ++ u)
      simp only [Gap.bytes, List.flatMap_cons, Piece.bytes, List.cons_append, List.append_assoc,
        List.nil_append, skipTrivia, hs, Bool.false_eq_true, if_false, if_true] at hc ih ⊢
      exact hc.trans ih

theorem delimits_gap {gap : Gap} (h : gap ≠ []) (u : Bytes) : Delimits (Gap.bytes gap ++ u) := by
  intro b v hv
  cases gap with
  | nil => exact absurd rfl h
  | cons piece gap =>
    cases piece with
    | space c hc =>
      simp only [Gap.bytes, List.flatMap_cons, Piece.bytes, List.cons_append] at hv
      injection hv with hb
      exact Or.inl (hb ▸ hc)
    | comment body hc =>
      simp only [Gap.bytes, List.flatMap_cons, Piece.bytes, List.cons_append] at hv
      injection hv with hb
      exact Or.inr hb.symm

theorem Delimits.peek_cases {u : Bytes} (h : Delimits u) :
    peek u = eof ∨ isSpace (peek u) ∨ peek u = chr (byte '#') := by
  cases u with
  | nil => exact Or.inl rfl
  | cons b v =>
    rcases h b v rfl with hb | hb
    · exact Or.inr (Or.inl hb)
    · exact Or.inr (Or.inr (by rw [hb, peek_cons]))

theorem Delimits.not_symbol1 {u : Bytes} (h : Delimits u) : isSymbol1 (peek u) = false := by
  rcases h.peek_cases with he | hs | he
  · rw [he]; rfl
  · generalize peek u = ch at hs
    simp only [isSpace, Bool.or_eq_true, decide_eq_true_eq, Bool.and_eq_true] at hs
    simp only [isSymbol1, isAlnum, isAlpha, isDigit, Bool.or_eq_false_iff, Bool.and_eq_false_iff,
      decide_eq_false_iff_not]
    have hu : chr (byte '_') = 95 := rfl
    omega
  · rw [he]; rfl

theorem Delimits.not_digit {u : Bytes} (h : Delimits u) : isDigit (peek u) = false := by
  have hs := h.not_symbol1
  simp only [isSymbol1, isAlnum, Bool.or_eq_false_iff] at hs
  exact hs.1.2

theorem Delimits.not_symbol {u : Bytes} (h : Delimits u) : isSymbol (peek u) = false := by
  have hs := h.not_symbol1
  simp only [isSymbol1, isAlnum, Bool.or_eq_false_iff] at hs
  simp [isSymbol, hs.1.1, hs.2]

theorem Delimits.peek_le {u : Bytes} (h : Delimits u) : ¬ peek u > 0x7F := by
  rcases h.peek_cases with he | hs | he
  · rw [he]; decide
  · generalize peek u = ch at hs
    simp only [isSpace, Bool.or_eq_true, decide_eq_true_eq, Bool.and_eq_true] at hs
    omega
  · rw [he]; decide

/-! ### The lexer on one written token -/

theorem lexWhile_append {type : TokenType} {p : Int → Bool} {v u : Bytes} (hv : ∀ b ∈ v, p (chr b))
    (hu : p (peek u) = false) (text : Bytes) :
    lexWhile type p text (v ++ u) = .token type (text ++ v) u 0 := by
  induction v generalizing text with
  | nil =>
    cases u with
    | nil => simp [lexWhile]
    | cons b u => simp [lexWhile, show p (chr b) = false from hu]
  | cons b v ih =>
    have hb := hv b (by simp)
    simp only [List.cons_append, lexWhile, hb, if_true]
    rw [ih (fun c hc => hv c (by simp [hc]))]
    simp

theorem isSymbol_le {ch : Int} (h : isSymbol ch) : ¬ ch > 0x7F := by
  simp only [isSymbol, isAlpha, Bool.or_eq_true, decide_eq_true_eq, Bool.and_eq_true] at h
  have hu : chr (byte '_') = 95 := rfl
  omega

theorem lexDirective_append {v u : Bytes} (hv : ∀ b ∈ v, isSymbol (chr b)) (hu : Delimits u)
    (text : Bytes) : lexDirective text (v ++ u) = endDirective (text ++ v) u := by
  induction v generalizing text with
  | nil =>
    cases u with
    | nil => simp [lexDirective]
    | cons b u => simp [lexDirective, show isSymbol (chr b) = false from hu.not_symbol]
  | cons b v ih =>
    have hb := hv b (by simp)
    have hp : ¬ peek (v ++ u) > 0x7F := by
      cases v with
      | nil => exact hu.peek_le
      | cons c v => exact isSymbol_le (hv c (by simp))
    simp only [List.cons_append, lexDirective, hb, hp, if_true, if_false]
    rw [ih (fun c hc => hv c (by simp [hc]))]
    simp

theorem lexString_append {v : Bytes} (hv : ∀ b ∈ v, b ≠ 0 ∧ b < 0x80 ∧ b ≠ byte '"')
    (text u : Bytes) :
    lexString text (v ++ byte '"' :: u) = .token .STRG (text ++ v) u 0 := by
  induction v generalizing text with
  | nil => simp [lexString]
  | cons b v ih =>
    have hb := (hv b (by simp)).2.2
    have hp : ¬ peek (v ++ byte '"' :: u) > 0x7F := by
      cases v with
      | nil =>
        change ¬ chr (byte '"') > 0x7F
        decide
      | cons c v =>
        have hc := UInt8.lt_iff_toNat_lt.mp (hv c (by simp)).2.1
        simp only [List.cons_append, peek_cons, chr]
        simp at hc
        omega
    simp only [List.cons_append, lexString, hb, hp, if_false]
    rw [ih (fun c hc => hv c (by simp [hc]))]
    simp

theorem lexBlock_append {v : Bytes} {depth : Nat} (hv : Balanced depth v) (text u : Bytes) :
    lexBlock depth text (v ++ byte '}' :: u) = .token .BLOCK (text ++ v) u 0 := by
  induction v generalizing depth text with
  | nil =>
    have hd : depth = 0 := hv
    subst depth
    rw [List.nil_append, List.append_nil, lexBlock, if_neg (by decide), if_pos rfl, if_pos rfl]
  | cons b v ih =>
    rw [Balanced] at hv
    rw [List.cons_append, lexBlock]
    split
    · next hb =>
      rw [if_pos hb] at hv
      rw [if_pos hv.1]
      simp [ih hv.2]
    · next hb =>
      rw [if_neg hb] at hv
      split
      · next hc =>
        rw [if_pos hc] at hv
        rw [if_neg (by omega)]
        simp [ih hv.2]
      · next hc =>
        rw [if_neg hc] at hv
        simp [ih hv]

theorem lexFrom_symbol {b : UInt8} (h : isSymbol (chr b)) (u : Bytes) :
    lexFrom (b :: u) = lexWhile .SYMBOL isSymbol1 [b] u := by
  have hne : ∀ c, isSymbol (chr c) = false → b ≠ c := by
    intro c hc he
    subst he
    simp [hc] at h
  have hd : isDigit (chr b) = false := by
    have hu : chr (byte '_') = 95 := rfl
    simp only [isSymbol, isAlpha, Bool.or_eq_true, decide_eq_true_eq, Bool.and_eq_true] at h
    simp only [isDigit, Bool.and_eq_false_iff, decide_eq_false_iff_not]
    omega
  rw [lexFrom, if_neg (hne _ rfl), if_neg (hne _ rfl), if_neg (hne _ rfl), if_neg (hne _ rfl),
    if_neg (hne _ rfl), if_neg (by simp [hd]), if_pos h]

theorem lexFrom_number {b : UInt8} (h : isDigit (chr b)) (u : Bytes) :
    lexFrom (b :: u) = lexWhile .NUMBER isDigit [b] u := by
  have hne : ∀ c, isDigit (chr c) = false → b ≠ c := by
    intro c hc he
    subst he
    simp [hc] at h
  rw [lexFrom, if_neg (hne _ rfl), if_neg (hne _ rfl), if_neg (hne _ rfl), if_neg (hne _ rfl),
    if_neg (hne _ rfl), if_pos h]

theorem lexFrom_directive {d u : Bytes} (hd : d.all fun b => isSymbol (chr b)) (hu : Delimits u) :
    lexFrom (byte '%' :: (d ++ u)) = endDirective (byte '%' :: d) u :=
  lexDirective_append (List.all_eq_true.mp hd) hu [byte '%']

namespace Lexeme

/-- A written token is read back, whatever delimiter stands behind it. -/
theorem lexFrom_bytes (lx : Lexeme) {u : Bytes} (hu : Delimits u) :
    lexFrom (lx.bytes ++ u) = .token lx.type lx.text u 0 := by
  cases lx with
  | colon => rfl
  | symbol first more hf hm =>
    exact (lexFrom_symbol hf _).trans (lexWhile_append hm hu.not_symbol1 [first])
  | number first more hf hm =>
    exact (lexFrom_number hf _).trans (lexWhile_append hm hu.not_digit [first])
  | strg text ht =>
    simp only [bytes, List.cons_append, List.append_assoc, List.nil_append]
    exact lexString_append ht [] u
  | block text hn hb =>
    simp only [bytes, List.cons_append, List.append_assoc, List.nil_append]
    exact lexBlock_append hb [] u
  | verbosity => exact lexFrom_directive (d := directiveVerbosity.tail) rfl hu
  | name => exact lexFrom_directive (d := directiveName.tail) rfl hu
  | code => exact lexFrom_directive (d := directiveCode.tail) rfl hu
  | outputPrefix => exact lexFrom_directive (d := directivePrefix.tail) rfl hu

theorem bytes_head (lx : Lexeme) :
    ∃ b v, lx.bytes = b :: v ∧ isSpace (chr b) = false ∧ b ≠ byte '#' := by
  have symbolic : ∀ {b : UInt8}, isSymbol1 (chr b) → isSpace (chr b) = false ∧ b ≠ byte '#' := by
    intro b hb
    refine ⟨?_, ?_⟩
    · generalize chr b = ch at hb
      have hu : chr (byte '_') = 95 := rfl
      simp only [isSymbol1, isAlnum, isAlpha, isDigit, Bool.or_eq_true, decide_eq_true_eq,
        Bool.and_eq_true] at hb
      simp only [isSpace, Bool.or_eq_false_iff, decide_eq_false_iff_not, Bool.and_eq_false_iff]
      omega
    · intro he
      subst he
      exact absurd hb (by decide)
  cases lx with
  | symbol first more hf hm => exact ⟨first, more, rfl, symbolic (isSymbol1_of_isSymbol hf)⟩
  | number first more hf hm => exact ⟨first, more, rfl, symbolic (isSymbol1_of_isDigit hf)⟩
  | colon => exact ⟨_, _, rfl, rfl, by decide⟩
  | strg text ht => exact ⟨_, _, rfl, rfl, by decide⟩
  | block text hn hb => exact ⟨_, _, rfl, rfl, by decide⟩
  | verbosity => exact ⟨_, _, rfl, rfl, by decide⟩
  | name => exact ⟨_, _, rfl, rfl, by decide⟩
  | code => exact ⟨_, _, rfl, rfl, by decide⟩
  | outputPrefix => exact ⟨_, _, rfl, rfl, by decide⟩

theorem skipTrivia_bytes (lx : Lexeme) (u : Bytes) :
    skipTrivia false (lx.bytes ++ u) = some (lx.bytes ++ u) := by
  obtain ⟨b, v, he, hs, hb⟩ := lx.bytes_head
  rw [he]
  refine skipTrivia_self hs ?_
  intro r hr
  injection hr with hr
  exact hb hr

theorem copyStr_text (lx : Lexeme) : copyStr lx.text = lx.text := by
  apply cString_of_nulFree
  have symbolic : ∀ {v : Bytes}, (∀ b ∈ v, isSymbol1 (chr b)) → 0 ∉ v :=
    fun hv h0 => absurd (hv 0 h0) (by decide)
  cases lx with
  | symbol first more hf hm =>
    exact symbolic (List.forall_mem_cons.mpr ⟨isSymbol1_of_isSymbol hf, hm⟩)
  | number first more hf hm =>
    refine symbolic (List.forall_mem_cons.mpr ⟨isSymbol1_of_isDigit hf, ?_⟩)
    exact fun b hb => isSymbol1_of_isDigit (hm b hb)
  | strg text ht => exact fun h0 => (ht 0 h0).1 rfl
  | block text hn hb => exact hn
  | _ => decide

end Lexeme

theorem lex_written (gap : Gap) (lx : Lexeme) {u : Bytes} (hu : Delimits u) :
    lex (Gap.bytes gap ++ (lx.bytes ++ u)) = .token lx.type lx.text u 0 := by
  simp only [lex, skipTrivia_gap, lx.skipTrivia_bytes]
  exact lx.lexFrom_bytes hu

/-- A run of scanner calls that all return, with the type and the text of
every token. -/
inductive Delivers : World FileStack → List (TokenType × Bytes) → World FileStack → Prop
  | nil {w : World FileStack} : Delivers w [] w
  | cons {w w' w'' : World FileStack} {tk : Token} {tokens : List (TokenType × Bytes)} :
      consumeToken.Runs w (.ok tk w') → Delivers w' tokens w'' →
      Delivers w ((tk.type, tk.str) :: tokens) w''

theorem exists_token {w : World FileStack} {u text rest : Bytes} {tok : Tok} {errs n : Nat}
    {type : TokenType} (h : w.Shows u tok errs) (hl : lex u = .token type text rest n) :
    ∃ tk w', consumeToken.Runs w (.ok tk w') ∧ w'.Shows rest ⟨type, text⟩ (errs + n) ∧
      tk.type = type ∧ tk.str = copyStr text := by
  have hw := consumeToken_wp h
  rw [hl] at hw
  refine (hw.mono ?_ (by simp) (by simp)).returns
  intro tk w' hpost
  obtain ⟨type', text', rest', n', he, hs, ht, hstr⟩ := hpost
  cases he
  exact ⟨hs, ht, hstr⟩

theorem skipTrivia_end (gap : Gap) : lex (Gap.bytes gap) = .token .END_OF_INPUT [] [] 0 := by
  have hg := skipTrivia_gap gap []
  rw [List.append_nil] at hg
  simp only [lex, hg]
  rfl

theorem delivers_end (k : Nat) (gap : Gap) {w : World FileStack} {tok : Tok} {errs : Nat}
    (h : w.Shows (Gap.bytes gap) tok errs) :
    ∃ w', Delivers w (List.replicate k (.END_OF_INPUT, [])) w' ∧ w'.errors = errs := by
  induction k generalizing gap w tok with
  | zero => exact ⟨w, .nil, h.errors⟩
  | succ k ih =>
    obtain ⟨tk, w', hr, hs, ht, hstr⟩ := exists_token h (skipTrivia_end gap)
    obtain ⟨w'', hd, he⟩ := ih [] hs
    have hc := Delivers.cons hr hd
    rw [ht, hstr] at hc
    exact ⟨w'', hc, he⟩

theorem delimits_item {gap : Gap} {items : List (Lexeme × Gap)} {lx : Lexeme}
    (h : Spaced ((lx, gap) :: items)) :
    Delimits (Gap.bytes gap ++ items.flatMap fun item => item.1.bytes ++ Gap.bytes item.2) := by
  cases items with
  | nil =>
    cases gap with
    | nil => intro b v hv; simp [Gap.bytes] at hv
    | cons piece gap => exact delimits_gap (by simp) _
  | cons item items => exact delimits_gap h.1 _

theorem Spaced.tail {item : Lexeme × Gap} {items : List (Lexeme × Gap)}
    (h : Spaced (item :: items)) : Spaced items := by
  cases items with
  | nil => trivial
  | cons _ _ => exact h.2

theorem delivers_items (k : Nat) {items : List (Lexeme × Gap)} (lead : Gap) (hs : Spaced items)
    {w : World FileStack} {tok : Tok} {errs : Nat} (h : w.Shows (render lead items) tok errs) :
    ∃ w', Delivers w
      (items.map (fun item => (item.1.type, item.1.text)) ++ List.replicate k (.END_OF_INPUT, [])) w' ∧
      w'.errors = errs := by
  induction items generalizing lead w tok with
  | nil =>
    simp only [render, List.flatMap_nil, List.append_nil] at h
    exact delivers_end k lead h
  | cons item items ih =>
    obtain ⟨lx, gap⟩ := item
    have hl := lex_written lead lx (delimits_item hs)
    simp only [render, List.flatMap_cons, List.append_assoc] at h
    obtain ⟨tk, w', hr, hw, ht, hstr⟩ := exists_token h hl
    obtain ⟨w'', hd, he⟩ := ih gap hs.tail hw
    have hc := Delivers.cons hr hd
    rw [ht, hstr, lx.copyStr_text] at hc
    exact ⟨w'', hc, he⟩

/-- The scanner reads back every token list however it is written into a
file: whatever stands between the tokens, each call returns the next of them
and then, for ever, the end of input. -/
theorem consumeToken_render (fname : Bytes) (lead : Gap) (items : List (Lexeme × Gap))
    (hs : Spaced items) (k : Nat) :
    ∃ w, Delivers (World.opened fname (render lead items))
      (items.map (fun item => (item.1.type, item.1.text)) ++ List.replicate k (.END_OF_INPUT, [])) w ∧
      w.errors = 0 :=
  delivers_items k lead hs (opened_shows fname _)

/-- The file `r :#`, a newline and the string `"#"`. -/
theorem consumeToken_render_rule :
    ∃ w, Delivers (World.opened [102] [114, 32, 58, 35, 10, 34, 35, 34])
      [(.SYMBOL, [114]), (.COLON, []), (.STRG, [35]), (.END_OF_INPUT, [])] w ∧ w.errors = 0 :=
  consumeToken_render [102] []
    [(.symbol 114 [] rfl (by simp), [.space 32 rfl]), (.colon, [.comment [] (by simp)]),
      (.strg [35] (List.forall_mem_singleton.mpr (by decide)), [])]
    ⟨by simp, by simp, trivial⟩ 1

/-! ### Blocks that are too deep -/

/-- Braces, `n` inside of each other. -/
def nestedBraces (n : Nat) : Bytes := List.replicate n (byte '{') ++ List.replicate n (byte '}')

/-- One more brace than can be counted ends the program, whatever follows. -/
theorem lexBlock_deep {depth n : Nat} (hd : depth + 1 < 2 ^ 31) (hn : 2 ^ 31 ≤ depth + 1 + n)
    (text u : Bytes) : lexBlock depth text (List.replicate n (byte '{') ++ u) = .stop .fault := by
  induction n generalizing depth text with
  | zero => omega
  | succ n ih =>
    rw [List.replicate_succ, List.cons_append, lexBlock, if_pos rfl]
    by_cases hmore : depth + 2 < 2 ^ 31
    · rw [if_pos hmore]
      exact ih (by omega) (by omega) _
    · rw [if_neg hmore]

/-- The bytes of the block that has `n` braces inside of each other in it. -/
def deepBlock (n : Nat) : Bytes := byte '{' :: nestedBraces n ++ [byte '}']

theorem lex_deepBlock {n : Nat} (h : 2 ^ 31 ≤ n + 1) : lex (deepBlock n) = .stop .fault := by
  have hskip (u : Bytes) : skipTrivia false (byte '{' :: u) = some (byte '{' :: u) :=
    skipTrivia_self rfl (by simp [show byte '{' ≠ byte '#' by decide])
  rw [deepBlock, nestedBraces, List.cons_append, List.append_assoc, lex, hskip]
  exact lexBlock_deep (by omega) (by omega) [] _

theorem consumeToken_deepBlock (fname : Bytes) {n : Nat} (h : 2 ^ 31 ≤ n + 1) :
    consumeToken.wp (fun _ _ => False) (fun e _ => e = .fault) False
      (World.opened fname (deepBlock n)) := by
  have hwp := consumeToken_wp (opened_shows fname (deepBlock n))
  rw [lex_deepBlock h] at hwp
  refine hwp.mono ?_ ?_ (by simp)
  · intro tk w' hpost
    obtain ⟨_, _, _, _, he, -⟩ := hpost
    cases he
  · intro e _ he
    cases he
    rfl

/-- The block with `2 ^ 31 - 1` braces inside of each other, and its own two around them, does not
come back as the token that it is. -/
theorem consumeToken_render_deep :
    (∃ w, consumeToken.Runs (World.opened [102] (deepBlock (2 ^ 31 - 1))) (.stop .fault w)) ∧
      ¬ ∃ w, Delivers (World.opened [102] (deepBlock (2 ^ 31 - 1)))
        [(.BLOCK, nestedBraces (2 ^ 31 - 1))] w := by
  have hdeep : 2 ^ 31 ≤ 2 ^ 31 - 1 + 1 := by omega
  generalize 2 ^ 31 - 1 = n at hdeep ⊢
  have hwp := consumeToken_deepBlock [102] hdeep
  refine ⟨?_, ?_⟩
  · rcases Prog.run_cases consumeToken (World.opened [102] (deepBlock n)) with
      ⟨tk, w, hr⟩ | ⟨e, w, hr⟩ | hd
    · exact (hwp.1 tk w hr).elim
    · exact ⟨w, hwp.2.1 e w hr ▸ hr⟩
    · exact (hwp.2.2 hd).elim
  · intro hdelivers
    obtain ⟨w, hw⟩ := hdelivers
    generalize htokens : [(TokenType.BLOCK, nestedBraces n)] = tokens at hw
    cases hw with
    | nil => exact List.cons_ne_nil _ _ htokens
    | cons hr _ => exact hwp.1 _ _ hr

end Rdpgen
