import Rdpgen.Scanner

namespace Rdpgen

/-- What one call of the scanner comes to on the remaining input: a token with
its text, the input left behind it and the errors counted on the way; the end
of the program; or a loop that never ends. -/
inductive Lexed where
  | token (type : TokenType) (text rest : Bytes) (errs : Nat)
  | stop (e : Halt)
  | hang

def endDirective (text rest : Bytes) : Lexed :=
  .token (directiveType (rawStr text)) text rest
    (if directiveType (rawStr text) = .ERROR then 1 else 0)

/-- Behind the percent sign; `text` has been read. -/
def lexDirective (text : Bytes) : Bytes → Lexed
  | [] => endDirective text []
  | b :: u =>
    if isSymbol (chr b) then
      if peek u > 0x7F then .stop (.exit 1) else lexDirective (text ++ [b]) u
    else endDirective text (b :: u)

/-- Behind the opening quote. -/
def lexString (text : Bytes) : Bytes → Lexed
  | [] => .hang
  | b :: u =>
    if b = byte '"' then .token .STRG text u 0
    else if peek u > 0x7F then .stop (.exit 1)
    else lexString (text ++ [b]) u

/-- Behind the opening brace, inside of `depth` more open braces. All of them
are counted in an `int`. -/
def lexBlock (depth : Nat) (text : Bytes) : Bytes → Lexed
  | [] => .hang
  | b :: u =>
    if b = byte '{' then
      if depth + 2 < 2 ^ 31 then lexBlock (depth + 1) (text ++ [b]) u else .stop .fault
    else if b = byte '}' then
      if depth = 0 then .token .BLOCK text u 0 else lexBlock (depth - 1) (text ++ [b]) u
    else lexBlock depth (text ++ [b]) u

def lexWhile (type : TokenType) (p : Int → Bool) (text : Bytes) : Bytes → Lexed
  | [] => .token type text [] 0
  | b :: u => if p (chr b) then lexWhile type p (text ++ [b]) u else .token type text (b :: u) 0

/-- The input behind whitespace and comments; `none` when the input ends
inside of a comment. -/
def skipTrivia (comment : Bool) : Bytes → Option Bytes
  | [] => if comment then none else some []
  | b :: u =>
    if comment then skipTrivia (b != byte '\n') u
    else if isSpace (chr b) then skipTrivia false u
    else if b = byte '#' then skipTrivia true u
    else some (b :: u)

/-- At the first character of a token. -/
def lexFrom : Bytes → Lexed
  | [] => .token .END_OF_INPUT [] [] 0
  | b :: u =>
    if b = 0xFF then .token .END_OF_INPUT [] (b :: u) 0
    else if b = byte ':' then .token .COLON [] u 0
    else if b = byte '%' then lexDirective [b] u
    else if b = byte '"' then lexString [] u
    else if b = byte '{' then lexBlock 0 [] u
    else if isDigit (chr b) then lexWhile .NUMBER isDigit [b] u
    else if isSymbol (chr b) then lexWhile .SYMBOL isSymbol1 [b] u
    else .token .ERROR [] (b :: u) 1

def lex (u : Bytes) : Lexed :=
  match skipTrivia false u with
  | none => .hang
  | some v => lexFrom v

structure World.Shows (w : World FileStack) (u : Bytes) (tok : Tok) (errs : Nat) : Prop where
  clean : w.input.Clean
  unread : w.input.unread = u
  tok : w.tok = tok
  errors : w.errors = errs

section Steps

variable {Q : Int → World FileStack → Prop} {R : Unit → World FileStack → Prop}
  {E : Halt → World FileStack → Prop} {D : Prop}
  {w : World FileStack} {u : Bytes} {tok : Tok} {errs : Nat}

theorem wp_getChar (h : w.Shows u tok errs) (k : Q (peek u) w) : getChar.wp Q E D w := by
  rw [getChar, Prog.wp_gets, FileStack.getChar_of_clean h.clean, h.unread]
  exact k

theorem wp_consumeChar (h : w.Shows u tok errs)
    (k : ∀ w', w'.Shows u.tail tok errs → Q (peek u.tail) w') : consumeChar.wp Q E D w := by
  have hc := FileStack.clean_consumeChar h.clean
  have hu := FileStack.unread_consumeChar h.clean
  rw [h.unread] at hu
  rw [consumeChar, Prog.wp_act, FileStack.consumeChar_answer, FileStack.getChar_of_clean hc, hu]
  exact k _ ⟨hc, hu, h.tok, h.errors⟩

theorem wp_catTok (h : w.Shows u tok errs) {ch : Int}
    (k : ∀ w', w'.Shows u ⟨tok.type, catStrChar tok.str ch⟩ errs → R () w') :
    (catTok ch).wp R E D w := by
  rw [catTok, Prog.wp_modify]
  exact k _ ⟨h.clean, h.unread, by simp [h.tok], h.errors⟩

theorem wp_setType (h : w.Shows u tok errs) {type : TokenType}
    (k : ∀ w', w'.Shows u ⟨type, tok.str⟩ errs → R () w') : (setType type).wp R E D w := by
  rw [setType, Prog.wp_modify]
  exact k _ ⟨h.clean, h.unread, by simp [h.tok], h.errors⟩

theorem wp_syntaxError (h : w.Shows u tok errs) {fmt : String} {args : List String}
    (k : ∀ w', w'.Shows u tok (errs + 1) → R () w') : (syntaxError fmt args).wp R E D w := by
  refine syntaxError_wp fun w' hi ht he => k w' ⟨?_, ?_, ht.trans h.tok, by rw [he, h.errors]⟩
  · exact hi ▸ h.clean
  · exact hi ▸ h.unread

/-- The guard against the end of the file leaves the program on a byte above 0x7F. -/
theorem wp_checkEof (h : w.Shows u tok errs) {fmt : String}
    (stop : peek u > 0x7F → ∀ w', E (.exit 1) w') (k : ¬ peek u > 0x7F → R () w) :
    (checkEof fmt).wp R E D w := by
  rw [checkEof, Prog.wp_bind]
  apply wp_getChar h
  rw [Prog.wp_ite]
  split
  · next hp =>
    rw [Prog.wp_bind]
    refine wp_syntaxError h fun w' _ => ?_
    rw [fatal, Prog.wp_bind, report, Prog.wp_modify, Prog.wp_stop]
    exact stop hp _
  · next hp => exact (Prog.wp_pure).mpr (k hp)

/-! ### The loops at the end of the input -/

/-- No byte is left and none ever comes. -/
def World.Exhausted (ch : Int) (w : World FileStack) : Prop :=
  ch = eof ∧ ∃ tok errs, w.Shows [] tok errs

theorem commentLoop_diverges (h : w.Shows [] tok errs) :
    (Prog.whileDo (fun ch _ => ch != chr (byte '\n')) (fun _ => consumeChar) eof).Diverges w := by
  refine Prog.diverges_whileDo World.Exhausted ?_ ⟨rfl, tok, errs, h⟩
  intro ch w hend
  obtain ⟨rfl, tok, errs, h⟩ := hend
  refine ⟨by simp, wp_consumeChar h fun w' h' => ?_⟩
  exact ⟨rfl, tok, errs, h'⟩

theorem stringLoop_diverges (h : w.Shows [] tok errs) :
    (Prog.whileDo (fun ch _ => ch != chr (byte '"')) stringBody eof).Diverges w := by
  refine Prog.diverges_whileDo World.Exhausted ?_ ⟨rfl, tok, errs, h⟩
  intro ch w hend
  obtain ⟨rfl, tok, errs, h⟩ := hend
  refine ⟨by simp, ?_⟩
  unfold stringBody
  simp only [Prog.wp_bind]
  refine wp_catTok h fun w h => wp_consumeChar h fun w h => ?_
  refine wp_checkEof h (by simp [eof]) fun _ => ?_
  exact Prog.wp_pure.mpr ⟨rfl, _, _, h⟩

theorem blockLoop_diverges (h : w.Shows [] tok errs) {count : Int} (hc : 0 < count) :
    (Prog.whileDo (fun count _ => count > 0) blockBody count).Diverges w := by
  refine Prog.diverges_whileDo (fun count w => 0 < count ∧ World.Exhausted eof w) ?_
    ⟨hc, rfl, tok, errs, h⟩
  intro count w hend
  obtain ⟨hc, -, tok, errs, h⟩ := hend
  refine ⟨by simpa using hc, ?_⟩
  unfold blockBody
  simp only [Prog.wp_bind]
  apply wp_getChar h
  simp only [blockChar, peek_nil, eof_ne_chr, if_false, Prog.wp_bind]
  refine wp_catTok h fun w h => Prog.wp_pure.mpr ?_
  refine wp_consumeChar h fun w h => Prog.wp_pure.mpr ⟨hc, rfl, _, _, h⟩

/-! ### The loops on the remaining input -/

theorem wp_spaceLoop (h : w.Shows u tok errs)
    (k : ∀ v w', skipTrivia false v = skipTrivia false u → v.length ≤ u.length →
      isSpace (peek v) = false → w'.Shows v tok errs → Q (peek v) w') :
    (Prog.whileDo (fun ch _ => isSpace ch) (fun _ => consumeChar) (peek u)).wp Q E D w := by
  induction u generalizing w with
  | nil =>
    rw [Prog.wp_whileDo]
    exact k [] w rfl le_rfl rfl h
  | cons b u ih =>
    rw [Prog.wp_whileDo]
    by_cases hb : isSpace (chr b)
    · simp only [peek_cons, hb, if_true]
      refine wp_consumeChar h fun w' h' => ih h' fun v w'' hv hl => ?_
      refine k v w'' ?_ (by simp only [List.length_cons]; omega)
      rw [hv]
      simp [skipTrivia, hb]
    · simp only [peek_cons, hb]
      exact k (b :: u) w rfl le_rfl (by simpa using hb) h

theorem wp_commentLoop (h : w.Shows u tok errs) (hang : skipTrivia true u = none → D)
    (k : ∀ v w', skipTrivia false v = skipTrivia true u → v.length ≤ u.length →
      w'.Shows v tok errs → Q (peek v) w') :
    (Prog.whileDo (fun ch _ => ch != chr (byte '\n')) (fun _ => consumeChar) (peek u)).wp Q E D w := by
  induction u generalizing w with
  | nil => exact (Prog.wp_of_diverges (commentLoop_diverges h)).mpr (hang rfl)
  | cons b u ih =>
    rw [Prog.wp_whileDo]
    by_cases hb : b = byte '\n'
    · subst b
      refine k (byte '\n' :: u) w ?_ le_rfl h
      simp [skipTrivia, show isSpace (chr (byte '\n')) = true from rfl]
    · have hs : skipTrivia true (b :: u) = skipTrivia true u := by
        simp [skipTrivia, (bne_iff_ne.mpr hb : (b != byte '\n') = true)]
      simp only [peek_cons, bne_iff_ne, ne_eq, chr_inj, hb, not_false_eq_true, if_true]
      refine wp_consumeChar h fun w' h' => ih h' (fun hn => hang (hs ▸ hn)) fun v w'' hv hl => ?_
      exact k v w'' (hv.trans hs.symm) (by simp only [List.length_cons]; omega)

theorem wp_munchLoop {p : Int → Bool} (hp : p eof = false) {t : TokenType} {text : Bytes}
    (type : TokenType) (h : w.Shows u ⟨t, text⟩ errs)
    (k : ∀ text' rest w', lexWhile type p text u = .token type text' rest 0 →
      w'.Shows rest ⟨t, text'⟩ errs → Q (peek rest) w') :
    (Prog.whileDo (fun ch _ => p ch) numberBody (peek u)).wp Q E D w := by
  induction u generalizing text w with
  | nil =>
    rw [Prog.wp_whileDo]
    simp only [peek_nil, hp]
    exact k text [] w rfl h
  | cons b u ih =>
    rw [Prog.wp_whileDo]
    by_cases hb : p (chr b)
    · simp only [peek_cons, hb, if_true, numberBody, Prog.wp_bind]
      refine wp_catTok h fun w h => wp_consumeChar h fun w h => ?_
      simp only [catStrChar, uchar_chr] at h
      refine ih h fun text' rest w' ht => k text' rest w' ?_
      simpa [lexWhile, hb] using ht
    · simp only [peek_cons, hb]
      exact k text (b :: u) w (by simp [lexWhile, hb]) h

theorem wp_stringLoop {t : TokenType} {text : Bytes} (h : w.Shows u ⟨t, text⟩ errs)
    (fatal : lexString text u = .stop (.exit 1) → ∀ w', E (.exit 1) w')
    (hang : lexString text u = .hang → D)
    (k : ∀ text' rest w', lexString text u = .token .STRG text' rest 0 →
      w'.Shows (byte '"' :: rest) ⟨t, text'⟩ errs → Q (chr (byte '"')) w') :
    (Prog.whileDo (fun ch _ => ch != chr (byte '"')) stringBody (peek u)).wp Q E D w := by
  induction u generalizing text w with
  | nil => exact (Prog.wp_of_diverges (stringLoop_diverges h)).mpr (hang rfl)
  | cons b u ih =>
    rw [Prog.wp_whileDo]
    by_cases hb : b = byte '"'
    · subst b
      exact k text u w (by simp [lexString]) h
    · simp only [peek_cons, bne_iff_ne, ne_eq, chr_inj, hb, not_false_eq_true, if_true, stringBody,
        Prog.wp_bind]
      refine wp_catTok h fun w h => wp_consumeChar h fun w h => ?_
      simp only [catStrChar, uchar_chr, List.tail_cons] at h
      refine wp_checkEof h (fun hp => fatal (by simp [lexString, hb, hp])) fun hp => ?_
      have hs : lexString text (b :: u) = lexString (text ++ [b]) u := by
        simp only [lexString, hb, hp, if_false]
      rw [hs] at fatal hang k
      exact Prog.wp_pure.mpr (ih h fatal hang k)

theorem wp_directiveLoop {t : TokenType} {text : Bytes} (h : w.Shows u ⟨t, text⟩ errs)
    (fatal : lexDirective text u = .stop (.exit 1) → ∀ w', E (.exit 1) w')
    (k : ∀ text' rest w', lexDirective text u = endDirective text' rest →
      w'.Shows rest ⟨t, text'⟩ errs → Q (peek rest) w') :
    (Prog.whileDo (fun ch _ => isSymbol ch) directiveBody (peek u)).wp Q E D w := by
  induction u generalizing text w with
  | nil =>
    rw [Prog.wp_whileDo]
    exact k text [] w rfl h
  | cons b u ih =>
    rw [Prog.wp_whileDo]
    by_cases hb : isSymbol (chr b)
    · simp only [peek_cons, hb, if_true, directiveBody, Prog.wp_bind]
      refine wp_catTok h fun w h => wp_consumeChar h fun w h => ?_
      simp only [catStrChar, uchar_chr, List.tail_cons] at h
      refine wp_checkEof h (fun hp => fatal (by simp [lexDirective, hb, hp])) fun hp => ?_
      have hs : lexDirective text (b :: u) = lexDirective (text ++ [b]) u := by
        simp only [lexDirective, hb, hp, if_true, if_false]
      rw [hs] at fatal k
      exact Prog.wp_pure.mpr (ih h fatal k)
    · simp only [peek_cons, hb]
      exact k text (b :: u) w (by simp [lexDirective, hb]) h

theorem wp_blockChar {t : TokenType} {text : Bytes} {b : UInt8} (depth : Nat)
    (h : w.Shows (b :: u) ⟨t, text⟩ errs)
    (overflow : lexBlock depth text (b :: u) = .stop .fault → E .fault w)
    (close : lexBlock depth text (b :: u) = .token .BLOCK text u 0 → ∀ w',
      w'.Shows (b :: u) ⟨t, text⟩ errs → Q 0 w')
    (keep : ∀ depth' w', lexBlock depth text (b :: u) = lexBlock depth' (text ++ [b]) u →
      w'.Shows (b :: u) ⟨t, text ++ [b]⟩ errs → Q (depth' + 1) w') :
    (blockChar (depth + 1) (chr b)).wp Q E D w := by
  simp only [blockChar, chr_inj]
  by_cases ho : b = byte '{'
  · rw [if_pos ho, Prog.wp_bind]
    refine checkInt_wp (fun hfits => ?_) fun hover => overflow ?_
    · rw [Prog.wp_bind]
      refine wp_catTok h fun w h => Prog.wp_pure.mpr ?_
      simp only [catStrChar, uchar_chr] at h
      exact keep (depth + 1) w (by rw [lexBlock, if_pos ho, if_pos (by omega)]) h
    · rw [lexBlock, if_pos ho, if_neg (by omega)]
  · rw [if_neg ho]
    by_cases hc : b = byte '}'
    · rw [if_pos hc]
      cases depth with
      | zero =>
        rw [if_neg (by simp)]
        exact Prog.wp_pure.mpr (close (by rw [lexBlock, if_neg ho, if_pos hc, if_pos rfl]) w h)
      | succ depth =>
        rw [if_pos (by push_cast; omega), Prog.wp_bind]
        refine wp_catTok h fun w h => Prog.wp_pure.mpr ?_
        simp only [catStrChar, uchar_chr] at h
        simpa using keep depth w (by rw [lexBlock, if_neg ho, if_pos hc]; rfl) h
    · rw [if_neg hc, Prog.wp_bind]
      refine wp_catTok h fun w h => Prog.wp_pure.mpr ?_
      simp only [catStrChar, uchar_chr] at h
      exact keep depth w (by rw [lexBlock, if_neg ho, if_neg hc]) h

theorem wp_blockLoop {t : TokenType} {text : Bytes} (depth : Nat) (h : w.Shows u ⟨t, text⟩ errs)
    (overflow : lexBlock depth text u = .stop .fault → ∀ w', E .fault w')
    (hang : lexBlock depth text u = .hang → D)
    (k : ∀ text' rest w', lexBlock depth text u = .token .BLOCK text' rest 0 →
      w'.Shows rest ⟨t, text'⟩ errs → Q 0 w') :
    (Prog.whileDo (fun count _ => count > 0) blockBody (depth + 1)).wp Q E D w := by
  induction u generalizing text depth w with
  | nil =>
    have hcount : (0 : Int) < depth + 1 := by omega
    have hd := blockLoop_diverges h hcount
    exact (Prog.wp_of_diverges hd).mpr (hang rfl)
  | cons b u ih =>
    rw [Prog.wp_whileDo, if_pos (by simp)]
    unfold blockBody
    simp only [Prog.wp_bind]
    refine wp_getChar h (wp_blockChar depth h (fun ho => overflow ho w) ?_ ?_)
    · intro hs w h
      refine wp_consumeChar h fun w h => Prog.wp_pure.mpr ?_
      rw [Prog.wp_whileDo, if_neg (by simp)]
      exact k text u w hs h
    · intro depth' w hs h
      rw [hs] at overflow hang k
      exact wp_consumeChar h fun w h => Prog.wp_pure.mpr (ih depth' h overflow hang k)

end Steps

/-- `p` comes to `r` in the world `w` with `errs` errors so far. -/
def Yields {α : Type} (p : Scan α) (w : World FileStack) (errs : Nat) (r : Lexed) : Prop :=
  p.wp
    (fun _ w' => ∃ type text rest n, r = .token type text rest n ∧ w'.Shows rest ⟨type, text⟩ (errs + n))
    (fun e _ => r = .stop e) (r = .hang) w

section Scanners

variable {w : World FileStack} {u : Bytes} {t : TokenType} {errs : Nat}

theorem getDirective_yields (h : w.Shows (byte '%' :: u) ⟨t, []⟩ errs) :
    Yields getDirective w errs (lexDirective [byte '%'] u) := by
  unfold Yields getDirective
  simp only [Prog.wp_bind]
  refine wp_getChar h (wp_catTok h fun w h => wp_consumeChar h fun w h => wp_getChar h ?_)
  simp only [peek_cons, catStrChar, uchar_chr, List.tail_cons, List.nil_append] at h
  refine wp_directiveLoop h (fun hf _ => hf) fun text rest w hr h => ?_
  rw [Prog.wp_gets, h.tok]
  refine wp_setType h fun w h => ?_
  rw [endDirective] at hr
  by_cases he : directiveType (rawStr text) = .ERROR
  · rw [if_pos he] at hr ⊢
    exact wp_syntaxError h fun w h => ⟨_, _, _, _, hr, h⟩
  · rw [if_neg he] at hr ⊢
    exact Prog.wp_pure.mpr ⟨_, _, _, _, hr, h⟩

theorem getString_yields (h : w.Shows (byte '"' :: u) ⟨t, []⟩ errs) :
    Yields getString w errs (lexString [] u) := by
  unfold Yields getString
  simp only [Prog.wp_bind]
  refine wp_consumeChar h fun w h => wp_getChar h ?_
  refine wp_stringLoop h (fun hf _ => hf) id fun text rest w hr h => ?_
  refine wp_consumeChar h fun w h => wp_setType h fun w h => ?_
  exact ⟨_, _, _, _, hr, h⟩

theorem getBlock_yields (h : w.Shows (byte '{' :: u) ⟨t, []⟩ errs) :
    Yields getBlock w errs (lexBlock 0 [] u) := by
  unfold Yields getBlock
  simp only [Prog.wp_bind]
  refine wp_consumeChar h fun w h => ?_
  refine wp_blockLoop 0 h (fun ho _ => ho) id fun text rest w hr h => ?_
  exact wp_setType h fun w h => ⟨_, _, _, _, hr, h⟩

theorem getNumber_yields {b : UInt8} (h : w.Shows (b :: u) ⟨t, []⟩ errs) :
    Yields getNumber w errs (lexWhile .NUMBER isDigit [b] u) := by
  unfold Yields getNumber
  simp only [Prog.wp_bind]
  refine wp_getChar h (wp_catTok h fun w h => wp_consumeChar h fun w h => ?_)
  simp only [peek_cons, catStrChar, uchar_chr, List.tail_cons, List.nil_append] at h
  refine wp_munchLoop rfl .NUMBER h fun text rest w hr h => ?_
  exact wp_setType h fun w h => ⟨_, _, _, _, hr, h⟩

theorem getSymbol_yields {b : UInt8} (hb : isSymbol (chr b)) (h : w.Shows (b :: u) ⟨t, []⟩ errs) :
    Yields getSymbol w errs (lexWhile .SYMBOL isSymbol1 [b] u) := by
  unfold Yields getSymbol
  simp only [Prog.wp_bind]
  apply wp_getChar h
  rw [peek_cons, if_pos hb, Prog.wp_bind]
  refine wp_catTok h fun w h => ?_
  rw [Prog.wp_bind]
  refine wp_consumeChar h fun w h => ?_
  simp only [catStrChar, uchar_chr, List.tail_cons, List.nil_append] at h
  rw [Prog.wp_bind]
  refine wp_munchLoop rfl .SYMBOL h fun text rest w hr h => ?_
  exact wp_setType h fun w h => ⟨_, _, _, _, hr, h⟩

theorem getSymbol_yields_error {b : UInt8} (hb : isSymbol (chr b) = false)
    (h : w.Shows (b :: u) ⟨t, []⟩ errs) :
    Yields getSymbol w errs (.token .ERROR [] (b :: u) 1) := by
  unfold Yields getSymbol
  simp only [Prog.wp_bind]
  apply wp_getChar h
  rw [peek_cons, if_neg (by simp [hb]), Prog.wp_bind]
  exact wp_setType h fun w h => wp_syntaxError h fun w h => ⟨_, _, _, _, rfl, h⟩

theorem consumeSpace_wp {R : Unit → World FileStack → Prop} {E : Halt → World FileStack → Prop}
    {D : Prop} {tok : Tok} (h : w.Shows u tok errs)
    (k : ∀ v w', skipTrivia false v = skipTrivia false u → v.length ≤ u.length →
      isSpace (peek v) = false → w'.Shows v tok errs → R () w') : consumeSpace.wp R E D w := by
  unfold consumeSpace
  simp only [Prog.wp_bind]
  refine wp_getChar h (wp_spaceLoop h fun v w hv hl hp h => Prog.wp_pure.mpr ?_)
  exact k v w hv hl hp h

theorem consumeComment_wp {R : Unit → World FileStack → Prop} {E : Halt → World FileStack → Prop}
    {D : Prop} {tok : Tok} {b : UInt8} (h : w.Shows (b :: u) tok errs)
    (hang : skipTrivia true u = none → D)
    (k : ∀ v w', skipTrivia false v = skipTrivia true u → v.length ≤ u.length →
      w'.Shows v tok errs → R () w') : consumeComment.wp R E D w := by
  unfold consumeComment
  simp only [Prog.wp_bind]
  refine wp_consumeChar h fun w h => wp_commentLoop h hang fun v w hv hl h => ?_
  exact Prog.wp_pure.mpr (k v w hv hl h)

/-- `p` comes to `r` and raises the flag `finished`. -/
def Finishes (p : Scan Bool) (w : World FileStack) (errs : Nat) (r : Lexed) : Prop :=
  p.wp
    (fun finished w' => finished = true ∧ ∃ type text rest n,
      r = .token type text rest n ∧ w'.Shows rest ⟨type, text⟩ (errs + n))
    (fun e _ => r = .stop e) (r = .hang) w

theorem Yields.finishes {p : Scan Unit} {r : Lexed} (h : Yields p w errs r) :
    Finishes (p >>= fun _ => pure true) w errs r := by
  rw [Finishes, Prog.wp_bind]
  exact Prog.wp.imp h fun _ w' hw => Prog.wp_pure.mpr ⟨rfl, hw⟩

theorem scanSwitch_finishes (h : w.Shows u ⟨t, []⟩ errs) (hu : ∀ v, u ≠ byte '#' :: v) :
    Finishes (scanSwitch (uchar (peek u))) w errs (lexFrom u) := by
  cases u with
  | nil =>
    rw [peek_nil, uchar_eof, scanSwitch, if_pos rfl]
    exact Yields.finishes (wp_setType h fun w h => ⟨_, _, _, _, rfl, h⟩)
  | cons b u =>
    rw [peek_cons, uchar_chr, scanSwitch, lexFrom]
    by_cases hend : b = 0xFF
    · rw [if_pos hend, if_pos hend]
      exact Yields.finishes (wp_setType h fun w h => ⟨_, _, _, _, rfl, h⟩)
    rw [if_neg hend, if_neg hend, if_neg (fun hb => hu u (by rw [hb]))]
    by_cases hcolon : b = byte ':'
    · rw [if_pos hcolon, if_pos hcolon, Finishes]
      simp only [Prog.wp_bind]
      refine wp_setType h fun w h => wp_consumeChar h fun w h => Prog.wp_pure.mpr ?_
      exact ⟨rfl, _, _, _, _, rfl, h⟩
    rw [if_neg hcolon, if_neg hcolon]
    by_cases hpercent : b = byte '%'
    · subst b
      exact (getDirective_yields h).finishes
    rw [if_neg hpercent, if_neg hpercent]
    by_cases hquote : b = byte '"'
    · subst b
      exact (getString_yields h).finishes
    rw [if_neg hquote, if_neg hquote]
    by_cases hbrace : b = byte '{'
    · subst b
      exact (getBlock_yields h).finishes
    rw [if_neg hbrace, if_neg hbrace, Finishes, Prog.wp_bind]
    apply wp_getChar h
    rw [peek_cons]
    by_cases hdigit : isDigit (chr b)
    · rw [if_pos hdigit, if_pos hdigit]
      exact (getNumber_yields h).finishes
    rw [if_neg hdigit, if_neg hdigit]
    by_cases hsymbol : isSymbol (chr b)
    · rw [if_pos hsymbol]
      exact (getSymbol_yields hsymbol h).finishes
    · rw [if_neg hsymbol]
      exact (getSymbol_yields_error (by simpa using hsymbol) h).finishes

theorem skipTrivia_self {v : Bytes} (hs : isSpace (peek v) = false) (hv : ∀ u, v ≠ byte '#' :: u) :
    skipTrivia false v = some v := by
  cases v with
  | nil => rfl
  | cons b u =>
    have hb : b ≠ byte '#' := fun he => hv u (by rw [he])
    simp only [peek_cons] at hs
    simp [skipTrivia, hs, hb]

theorem scanLoop_wp (h : w.Shows u ⟨t, []⟩ errs) :
    (Prog.whileDo (fun finished _ => !finished) scanPass false).wp
      (fun _ w' => ∃ type text rest n,
        lex u = .token type text rest n ∧ w'.Shows rest ⟨type, text⟩ (errs + n))
      (fun e _ => lex u = .stop e) (lex u = .hang) w := by
  induction hn : u.length using Nat.strongRecOn generalizing u w with
  | ind n ih =>
    rw [Prog.wp_whileDo, if_pos (by rfl)]
    unfold scanPass
    simp only [Prog.wp_bind]
    refine consumeSpace_wp h fun v w hv hl hs h => wp_getChar h ?_
    have hlex : lex u = lex v := by simp only [lex, hv]
    rw [hlex]
    by_cases hc : ∃ r, v = byte '#' :: r
    · -- A comment goes back to the head of the loop with fewer bytes unread.
      obtain ⟨r, rfl⟩ := hc
      have hskip : skipTrivia false (byte '#' :: r) = skipTrivia true r := by
        simp [skipTrivia, show isSpace (chr (byte '#')) = false from rfl]
      rw [peek_cons, uchar_chr, scanSwitch, if_neg (by decide), if_pos rfl, Prog.wp_bind]
      refine consumeComment_wp h (fun hn => by simp only [lex, hskip, hn]) fun v w hv hl' h => ?_
      have hlex' : lex (byte '#' :: r) = lex v := by simp only [lex, hskip, hv]
      rw [Prog.wp_pure, hlex']
      refine ih v.length ?_ h rfl
      simp only [List.length_cons] at hl
      omega
    · have hv' : ∀ r, v ≠ byte '#' :: r := fun r he => hc ⟨r, he⟩
      have hfrom : lex v = lexFrom v := by simp only [lex, skipTrivia_self hs hv']
      rw [hfrom]
      apply Prog.wp.imp (scanSwitch_finishes h hv')
      intro finished w' hpost
      obtain ⟨rfl, hw⟩ := hpost
      rw [Prog.wp_whileDo]
      exact hw

/-- The scanner refines the lexer on bytes. -/
theorem consumeToken_wp {tok : Tok} (h : w.Shows u tok errs) :
    consumeToken.wp
      (fun tk w' => ∃ type text rest n, lex u = .token type text rest n ∧
        w'.Shows rest ⟨type, text⟩ (errs + n) ∧ tk.type = type ∧ tk.str = copyStr text)
      (fun e _ => lex u = .stop e) (lex u = .hang) w := by
  unfold consumeToken
  simp only [Prog.wp_bind, Prog.wp_modify]
  have hclear : World.Shows { w with tok := { w.tok with str := [] } } u ⟨w.tok.type, []⟩ errs :=
    ⟨h.clean, h.unread, rfl, h.errors⟩
  apply Prog.wp.imp (scanLoop_wp hclear)
  intro _ w' hpost
  obtain ⟨type, text, rest, n, hr, hw⟩ := hpost
  rw [Prog.wp_gets]
  exact ⟨type, text, rest, n, hr, hw, by rw [hw.tok], by rw [hw.tok]⟩

end Scanners

end Rdpgen
