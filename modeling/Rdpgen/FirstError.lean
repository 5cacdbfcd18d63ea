import Rdpgen.Expected
import Rdpgen.TokenText
import Rdpgen.Messages
import Rdpgen.ScanRuns

namespace Rdpgen

open Prog (Moves)

/-- From the place `q` the tokens lead to `p`, where the last one is `t`. -/
inductive Leads (p : GrammarPlace) (t : Tok) : GrammarPlace → List Tok → Prop
  | here : Leads p t p [t]
  | step {q r : GrammarPlace} {s : Tok} {ts : List Tok} : q.step s.type = some r → Leads p t r ts →
      Leads p t q (s :: ts)

theorem leads_of_run {p q : GrammarPlace} {t : Tok} {ts : List Tok} (h : q.run ts = some p) :
    Leads p t q (ts ++ [t]) := by
  induction ts generalizing q with
  | nil =>
    cases h
    exact .here
  | cons s ts ih =>
    obtain ⟨r, hr, hrun⟩ := GrammarPlace.exists_step_of_cons h
    exact .step hr (ih hrun)

/-- The message about `t` at the place `p`. -/
def blame (p : GrammarPlace) (t : Tok) : Diag := ⟨.syntaxError, p.fmt, [tokToStr t.type]⟩

section

variable {ι α : Type}

/-- The first message is the one about `t` at `p`. -/
def Blamed (p : GrammarPlace) (t : Tok) (w : World ι) : Prop := w.stderr.head? = some (blame p t)

/-- A source that hands out the tokens ahead of it, and reports nothing with them. -/
structure TokenSource.Hands (src : TokenSource ι) (Ahead : World ι → List Tok → Prop) : Prop where
  moves : Moves src.consumeToken World.Logs Exits
  consume : ∀ w t ts, Ahead w (t :: ts) → src.consumeToken.wp
    (fun tk v => tk.type = v.tok.type ∧ v.tok.type = t.type ∧ Ahead v ts ∧ v.errors = w.errors)
    (fun _ _ => False) True w

/-- The parser has used up the tokens in front of the place `q`, and no message has been written. -/
structure Passed (Ahead : World ι → List Tok → Prop) (p : GrammarPlace) (t : Tok) (q : GrammarPlace)
    (w : World ι) : Prop where
  ahead : ∃ ts, Leads p t q ts ∧ Ahead w ts
  errors : w.errors = 0
  stderr : w.stderr = []

/-- The parser looks at the token behind the place `q`, and no message has been written. -/
structure Facing (Ahead : World ι → List Tok → Prop) (p : GrammarPlace) (t : Tok) (q : GrammarPlace)
    (w : World ι) : Prop where
  ahead : ∃ s ts, Leads p t q (s :: ts) ∧ w.tok.type = s.type ∧ Ahead w ts
  errors : w.errors = 0
  stderr : w.stderr = []

variable {src : TokenSource ι} {Ahead : World ι → List Tok → Prop} {p q r : GrammarPlace} {t : Tok}
  {w : World ι}

/-- Later messages come behind the first one. -/
theorem Blamed.append {v : World ι} {lines : List Diag} (h : Blamed p t w)
    (hv : v.stderr = w.stderr ++ lines) : Blamed p t v := by
  unfold Blamed at h ⊢
  rw [hv, List.head?_append, h]
  rfl

theorem Blamed.logs {v : World ι} (h : Blamed p t w) (hv : w.Logs v) : Blamed p t v := by
  obtain ⟨lines, -, hstderr, -⟩ := hv
  exact h.append hstderr

theorem Blamed.exits {v : World ι} {e : Halt} (h : Blamed p t w) (hv : Exits e w v) : Blamed p t v := by
  rcases hv with ⟨-, u, line, hu, -, hstderr, -⟩ | ⟨-, hlogs⟩
  · exact (h.logs hu).append hstderr
  · exact h.logs hlogs

theorem Blamed.keeps {prog : Prog Halt (World ι) α} (hm : Moves prog World.Logs Exits)
    (h : Blamed p t w) : prog.wp (fun _ v => Blamed p t v) (fun _ v => Blamed p t v) True w :=
  (hm w).mono (fun _ _ hv => h.logs hv) (fun _ _ hv => h.exits hv) id

theorem Passed.consume (hsrc : src.Hands Ahead) (h : Passed Ahead p t q w) :
    src.consumeToken.wp (fun tk v => tk.type = v.tok.type ∧ Facing Ahead p t q v) (fun _ _ => False)
      True w := by
  obtain ⟨ts, hleads, hahead⟩ := h.ahead
  cases ts with
  | nil => cases hleads
  | cons s ts =>
    apply ((hsrc.consume w s ts hahead).and (hsrc.moves w)).mono ?_ (fun _ _ hv => hv.1) fun _ => trivial
    intro tk v hpost
    obtain ⟨⟨htype, htok, hts, herr⟩, lines, -, hstderr, hcount, -⟩ := hpost
    have hnone : lines = [] := List.length_eq_zero_iff.mp (by omega)
    refine ⟨htype, ⟨s, ts, hleads, htok, hts⟩, herr.trans h.errors, ?_⟩
    rw [hstderr, h.stderr, hnone]
    rfl

theorem Facing.passed (hp : p.step t.type = none) (h : Facing Ahead p t q w)
    (hq : q.step w.tok.type = some r) : Passed Ahead p t r w := by
  obtain ⟨s, ts, hleads, htok, hahead⟩ := h.ahead
  rw [htok] at hq
  cases hleads with
  | here => simp [hp] at hq
  | step hs hleads =>
    cases hs.symm.trans hq
    exact ⟨⟨ts, hleads, hahead⟩, h.errors, h.stderr⟩

/-- The message about a token that cannot stand at its place. -/
theorem Facing.blamed (h : Facing Ahead p t q w) (hq : q.step w.tok.type = none) {E D} :
    (syntaxError q.fmt [tokToStr w.tok.type]).wp (fun _ v => Blamed p t v) E D w := by
  obtain ⟨s, ts, hleads, htok, -⟩ := h.ahead
  cases hleads with
  | here =>
    apply Prog.wp_modify.mpr
    simp [Blamed, blame, h.stderr, htok]
  | step hs _ =>
    rw [htok, hs] at hq
    cases hq

/-! ### The parser, up to its first message -/

theorem parsePattern_blames (hsrc : src.Hands Ahead) (hp : p.step t.type = none)
    (h : Passed Ahead p t .pattern w) :
    (parsePattern src).wp (fun _ v => Blamed p t v ∨ Passed Ahead p t .ruled v)
      (fun _ v => Blamed p t v) True w := by
  unfold parsePattern
  simp only [Prog.wp_bind]
  apply (h.consume hsrc).mono ?_ (fun _ _ hv => hv.elim) id
  intro tk v hv
  refine Prog.wp_whileDo_of_invariant
    (fun l v => l.1.type = v.tok.type ∧ Facing Ahead p t .pattern v) ?_ ?_ hv
  · intro l v hl hc
    obtain ⟨htype, hface⟩ := hl
    have hsymbol : v.tok.type = .SYMBOL := htype.symm.trans (by simpa using hc)
    have hpassed : Passed Ahead p t .pattern v := hface.passed hp (by rw [hsymbol]; rfl)
    unfold patternBody
    simp only [Prog.wp_bind]
    apply (hpassed.consume hsrc).mono ?_ (fun _ _ hv => hv.elim) id
    intro tk u hu
    exact Prog.wp_pure.mpr hu
  · intro l v hl hc
    obtain ⟨htype, hface⟩ := hl
    have hsymbol : v.tok.type ≠ .SYMBOL := by simpa [htype] using hc
    simp only [getToken, Prog.wp_gets]
    by_cases hb : v.tok.type = .BLOCK
    · rw [if_pos hb]
      exact Prog.wp_pure.mpr (Or.inr (hface.passed hp (by rw [hb]; rfl)))
    · rw [if_neg hb, Prog.wp_bind]
      have hnone : GrammarPlace.pattern.step v.tok.type = none := by
        cases hty : v.tok.type
        case SYMBOL => exact absurd hty hsymbol
        case BLOCK => exact absurd hty hb
        all_goals rfl
      apply (hface.blamed hnone).imp
      intro _ u hu
      exact Prog.wp_pure.mpr (Or.inl hu)

/-- In the loop of `parse_rule` a rule without a pattern is at its name. -/
structure RuleFaces (Ahead : World ι → List Tok → Prop) (p : GrammarPlace) (t : Tok)
    (l : Token × List Pattern) (w : World ι) : Prop where
  type : l.1.type = w.tok.type
  first : l.2 = [] → Facing Ahead p t .named w
  later : l.2 ≠ [] → Facing Ahead p t .ruled w

theorem RuleFaces.passed (hp : p.step t.type = none) {l : Token × List Pattern}
    (h : RuleFaces Ahead p t l w) (hc : l.1.type = .COLON) : Passed Ahead p t .pattern w := by
  have hcolon : w.tok.type = .COLON := h.type.symm.trans hc
  by_cases hl : l.2 = []
  · exact (h.first hl).passed hp (by rw [hcolon]; rfl)
  · exact (h.later hl).passed hp (by rw [hcolon]; rfl)

theorem RuleFaces.ne_colon {l : Token × List Pattern} (h : RuleFaces Ahead p t l w)
    (hc : decide (l.1.type = .COLON) = false) : w.tok.type ≠ .COLON := by
  rw [← h.type]
  exact of_decide_eq_false hc

theorem ruleBody_blames (hsrc : src.Hands Ahead) (hp : p.step t.type = none)
    {l : Token × List Pattern} (h : Passed Ahead p t .pattern w) :
    (ruleBody src l).wp (fun l' v => Blamed p t v ∨ RuleFaces Ahead p t l' v)
      (fun _ v => Blamed p t v) True w := by
  unfold ruleBody
  simp only [Prog.wp_bind]
  apply (parsePattern_blames hsrc hp h).imp
  intro pattern v hv
  rcases hv with hv | hv
  · exact (hv.keeps hsrc.moves).imp fun _ _ hu => Prog.wp_pure.mpr (Or.inl hu)
  · apply (hv.consume hsrc).mono ?_ (fun _ _ hu => hu.elim) id
    intro tk u hu
    refine Prog.wp_pure.mpr (Or.inr ⟨hu.1, fun hnil => ?_, fun _ => hu.2⟩)
    exact absurd hnil (by simp)

theorem ruleBody_moves (hsrc : src.Hands Ahead) (l : Token × List Pattern) :
    Moves (ruleBody src l) World.Logs Exits :=
  logged.bind (parsePattern_moves hsrc.moves) fun _ => logged.bind hsrc.moves fun _ => logged.pure _

theorem parseRule_blames (hsrc : src.Hands Ahead) (hp : p.step t.type = none)
    (h : Passed Ahead p t .named w) (state : Pstate) :
    (parseRule src state).wp
      (fun _ v => Blamed p t v ∨ Facing Ahead p t .ruled v ∧ v.tok.type ≠ .COLON)
      (fun _ v => Blamed p t v) True w := by
  unfold parseRule
  simp only [getToken, Prog.wp_bind, Prog.wp_gets]
  apply (h.consume hsrc).mono ?_ (fun _ _ hv => hv.elim) id
  intro tk v hv
  refine Prog.wp_whileDo_of_invariant (fun l v => Blamed p t v ∨ RuleFaces Ahead p t l v) ?_ ?_
    (Or.inr ⟨hv.1, fun _ => hv.2, fun hne => absurd rfl hne⟩)
  · intro l v hl hc
    rcases hl with hl | hl
    · exact (hl.keeps (ruleBody_moves hsrc l)).imp fun _ _ hu => Or.inl hu
    · exact ruleBody_blames hsrc hp (hl.passed hp (by simpa using hc))
  · intro l v hl hc
    obtain ⟨tok, patterns⟩ := l
    by_cases hz : patterns.length = 0
    · rw [if_pos hz]
      simp only [tokenType, Prog.wp_bind, Prog.wp_gets]
      rcases hl with hl | hl
      · exact (hl.keeps (syntaxError_moves _ _)).imp fun _ _ hu => Prog.wp_pure.mpr (Or.inl hu)
      · have hface := hl.first (List.length_eq_zero_iff.mp hz)
        have hcolon : GrammarPlace.named.step .COLON = some .pattern := rfl
        have hnone : GrammarPlace.named.step v.tok.type = none :=
          GrammarPlace.step_of_ne (Or.inl rfl) hcolon (hl.ne_colon hc)
        exact (hface.blamed hnone).imp fun _ _ hu => Prog.wp_pure.mpr (Or.inl hu)
    · rw [if_neg hz]
      apply Prog.wp_pure.mpr
      rcases hl with hl | hl
      · exact Or.inl hl
      · exact Or.inr ⟨hl.later fun hnil => hz (congrArg List.length hnil), hl.ne_colon hc⟩

theorem parseDirective_blames (hsrc : src.Hands Ahead) (hp : p.step t.type = none)
    {want : TokenType} {store : STR → Pstate → Pstate} (h : Passed Ahead p t q w)
    (hwant : q.step want = some .top) (hother : ∀ type, type ≠ want → q.step type = none)
    (state : Pstate) :
    (parseDirective src want q.fmt store state).wp (fun _ v => Blamed p t v ∨ Facing Ahead p t .top v)
      (fun _ v => Blamed p t v) True w := by
  unfold parseDirective
  simp only [Prog.wp_bind]
  apply (h.consume hsrc).mono ?_ (fun _ _ hv => hv.elim) id
  intro tk v hv
  obtain ⟨htype, hface⟩ := hv
  by_cases hw : tk.type = want
  · have hpassed : Passed Ahead p t .top v := hface.passed hp (by rw [← htype, hw, hwant])
    rw [if_pos hw]
    simp only [getToken, Prog.wp_bind, Prog.wp_gets, Prog.wp_pure]
    apply (hpassed.consume hsrc).mono ?_ (fun _ _ hu => hu.elim) id
    intro tk' u hu
    exact Prog.wp_pure.mpr (Or.inr hu.2)
  · rw [if_neg hw, htype]
    simp only [Prog.wp_bind]
    apply (hface.blamed (hother _ (htype ▸ hw))).imp
    intro _ u hu
    apply Prog.wp_pure.mpr
    exact (hu.keeps hsrc.moves).imp fun _ _ hv => Prog.wp_pure.mpr (Or.inl hv)

/-- The tokens do not lead on from the end of the input. -/
theorem Passed.not_closed (hp : p ≠ .closed) (h : Passed Ahead p t .closed w) : False := by
  obtain ⟨ts, hleads, -⟩ := h.ahead
  cases hleads with
  | here => exact hp rfl
  | step hs _ => cases hs

/-- The parser is in front of an item, or at the end. -/
def AtItem (Ahead : World ι → List Tok → Prop) (p : GrammarPlace) (t : Tok) (w : World ι) : Prop :=
  ∃ q : GrammarPlace, q.Open ∧ q.step w.tok.type = GrammarPlace.start w.tok.type ∧
    Facing Ahead p t q w

theorem Facing.atItem (hq : q.Open) (h : Facing Ahead p t q w) (hc : w.tok.type ≠ .COLON) :
    AtItem Ahead p t w := ⟨q, hq, hq.step hc, h⟩

theorem AtItem.passed (hp : p.step t.type = none) (h : AtItem Ahead p t w)
    (hr : GrammarPlace.start w.tok.type = some r) : Passed Ahead p t r w := by
  obtain ⟨q, -, hstep, hface⟩ := h
  exact hface.passed hp (hstep.trans hr)

theorem AtItem.blamed {type : TokenType} (h : AtItem Ahead p t w) (htype : w.tok.type = type)
    (hn : GrammarPlace.start type = none) {E D} :
    (syntaxError "expected rule or directive but got %s" [tokToStr type]).wp
      (fun _ v => Blamed p t v) E D w := by
  subst htype
  obtain ⟨q, hq, hstep, hface⟩ := h
  rcases hq with rfl | rfl
  · exact hface.blamed (hstep.trans hn)
  · exact hface.blamed (hstep.trans hn)

theorem parsePass_blames (hsrc : src.Hands Ahead) (hp : p.step t.type = none) (hclosed : p ≠ .closed)
    (h : AtItem Ahead p t w) (l : Pstate × Bool) :
    (parsePass src l).wp (fun l' v => Blamed p t v ∨ l'.2 = false ∧ AtItem Ahead p t v)
      (fun _ v => Blamed p t v) True w := by
  have more {prog : Prog Halt (World ι) Pstate}
      (hprog : prog.wp (fun _ v => Blamed p t v ∨ AtItem Ahead p t v) (fun _ v => Blamed p t v) True w) :
      (do let state ← prog; pure (state, false) : Prog Halt (World ι) (Pstate × Bool)).wp
        (fun l' v => Blamed p t v ∨ l'.2 = false ∧ AtItem Ahead p t v)
        (fun _ v => Blamed p t v) True w :=
    wp_more (hprog.imp fun _ _ hv => hv.imp_right fun hitem => ⟨rfl, hitem⟩)
  have directive {r : GrammarPlace} {want : TokenType} (store : STR → Pstate → Pstate)
      (hr : GrammarPlace.start w.tok.type = some r) (hwant : r.step want = some .top)
      (hone : r = .named ∨ r = .number ∨ r = .text ∨ r = .block) :
      (do let state ← parseDirective src want r.fmt store l.1; pure (state, false) :
          Prog Halt (World ι) (Pstate × Bool)).wp
        (fun l' v => Blamed p t v ∨ l'.2 = false ∧ AtItem Ahead p t v)
        (fun _ v => Blamed p t v) True w := by
    apply more
    apply (parseDirective_blames hsrc hp (h.passed hp hr) hwant
      (fun _ hne => GrammarPlace.step_of_ne hone hwant hne) l.1).imp
    exact fun _ _ hv => hv.imp_right fun hface => ⟨.top, Or.inl rfl, rfl, hface⟩
  unfold parsePass
  simp only [tokenType, Prog.wp_bind, Prog.wp_gets]
  cases hty : w.tok.type
  case SYMBOL =>
    apply more
    apply (parseRule_blames hsrc hp (h.passed hp (by rw [hty]; rfl)) l.1).imp
    exact fun _ _ hv => hv.imp_right fun hface => hface.1.atItem (Or.inr rfl) hface.2
  case VERBOSITY => exact directive _ (r := .number) (by rw [hty]; rfl) rfl (by simp)
  case NAME | PREFIX => exact directive _ (r := .text) (by rw [hty]; rfl) rfl (by simp)
  case CODE => exact directive _ (r := .block) (by rw [hty]; rfl) rfl (by simp)
  case END_OF_INPUT => exact ((h.passed hp (by rw [hty]; rfl)).not_closed hclosed).elim
  all_goals
    unfold parseSwitch
    rw [Prog.wp_bind]
    exact (h.blamed hty rfl).imp fun _ _ hv => Prog.wp_pure.mpr (Or.inl hv)

/-- The first message of the parser is about the token that cannot stand where it does. -/
theorem parseInput_blames (hsrc : src.Hands Ahead) (hp : p.step t.type = none) (hclosed : p ≠ .closed)
    (hopen : src.openInput.wp (fun _ v => Passed Ahead p t .top v) (fun _ _ => False) True w) :
    (parseInput src).wp (fun _ v => Blamed p t v) (fun _ v => Blamed p t v) True w := by
  unfold parseInput createParser
  simp only [Prog.wp_bind]
  apply hopen.mono ?_ (fun _ _ hv => hv.elim) id
  intro _ v hv
  apply (hv.consume hsrc).mono ?_ (fun _ _ hu => hu.elim) id
  intro tk u hu
  apply Prog.wp_pure.mpr
  refine Prog.wp_whileDo_of_invariant
    (fun l v => Blamed p t v ∨ l.2 = false ∧ AtItem Ahead p t v) ?_ ?_
    (Or.inr ⟨rfl, .top, Or.inl rfl, rfl, hu.2⟩)
  · intro l v hl _
    rcases hl with hl | hl
    · exact (hl.keeps (parsePass_moves hsrc.moves l)).imp fun _ _ hv => Or.inl hv
    · exact parsePass_blames hsrc hp hclosed hl.2 l
  · intro l v hl hc
    apply Prog.wp_pure.mpr
    rcases hl with hl | hl
    · exact hl
    · obtain ⟨hflag, q, -, -, hface⟩ := hl
      simp [hflag, hface.errors] at hc

end

/-! ### Files -/

/-- A file in which the tokens `ts` come first, with white space and comments around them, whatever
bytes follow. The end of input may be the last one of them. -/
inductive Begins : Bytes → List Tok → Prop
  | any (u : Bytes) : Begins u []
  | done (gap : Gap) {rest : Bytes} : AtEnd rest → Begins (Gap.bytes gap ++ rest) [⟨.END_OF_INPUT, []⟩]
  | cons (gap : Gap) {t : Tok} {rest : Bytes} {ts : List Tok} : t.Writable → t.Apart rest →
      Begins rest ts → Begins (Gap.bytes gap ++ (t.bytes ++ rest)) (t :: ts)

theorem Begins.lex {u : Bytes} {t : Tok} {ts : List Tok} (h : Begins u (t :: ts)) :
    ∃ rest, lex u = .token t.type t.str rest 0 ∧ Begins rest ts := by
  cases h with
  | done gap hend => exact ⟨_, hend.lex_gap gap, .any _⟩
  | @cons gap _ rest _ hw ha hrest =>
    exact ⟨rest, (lex_iff hw.type_ne.1).mpr ⟨hw, ha, gap, rfl⟩, hrest⟩

/-- The scanner has the tokens `ts` before it. -/
def Unread (w : World FileStack) (ts : List Tok) : Prop := w.input.Clean ∧ Begins w.input.unread ts

theorem fileSource_hands (fname : Bytes) (file : Except String Bytes) :
    (fileSource fname file).Hands Unread where
  moves := consumeToken_moves
  consume w t ts h := by
    obtain ⟨hclean, hbegins⟩ := h
    obtain ⟨rest, hlex, hrest⟩ := hbegins.lex
    obtain ⟨tk, v, hrun, hv, htype, -⟩ := exists_token (World.Shows.self hclean) hlex
    apply (Prog.wp_of_runs_ok hrun).mpr
    exact ⟨by rw [htype, hv.tok], by rw [hv.tok], ⟨hv.clean, hv.unread.symm ▸ hrest⟩, hv.errors⟩

section

variable {bytes : Bytes} {before : List Tok} {t : Tok} {p : GrammarPlace}

theorem main_blamed (fname : Bytes) (hbegins : Begins bytes (before ++ [t]))
    (hrun : GrammarPlace.top.run before = some p) (hp : p.step t.type = none) (hclosed : p ≠ .closed) :
    (main (fileSource fname (.ok bytes))).wp (fun _ w => Blamed p t w) (fun _ w => Blamed p t w) True
      (World.boot []) := by
  have hs := opened_shows fname bytes
  have hopen : (fileSource fname (.ok bytes)).openInput.wp
      (fun _ v => Passed Unread p t .top v) (fun _ _ => False) True (World.boot []) := by
    apply Prog.wp_act.mpr
    exact ⟨⟨_, leads_of_run hrun, hs.clean, hs.unread.symm ▸ hbegins⟩, rfl, rfl⟩
  unfold main
  rw [Prog.wp_bind]
  apply (parseInput_blames (fileSource_hands fname (.ok bytes)) hp hclosed hopen).imp
  intro state w hw
  apply (finishMain_accounts state w).mono ?_ ?_ id
  · intro r v hpost
    obtain ⟨-, u, dump, hu, hstderr, -⟩ := hpost
    exact (hw.logs hu).append (hstderr.trans (List.append_nil _).symm)
  · intro e v hpost
    obtain ⟨-, u, hu, hstderr, -⟩ := hpost
    exact (hw.logs hu).append (hstderr.trans (List.append_nil _).symm)

/-- Where the tokens of a file leave the grammar, whatever comes later in the file, the first message
of `main` names the type of the first token that cannot stand where it does, and no other type has
that name (the end of input is `UNKNOWN`); it asks for tokens that can stand there. -/
theorem main_blames (fname : Bytes) (hbegins : Begins bytes (before ++ [t]))
    (hbefore : ∃ us items, IsFile (before ++ us) items) (ht : ¬ Continues before t) :
    ∃ fmt types, (fmt, types) ∈ expectations ∧
      (∀ type ∈ types, ∀ text, Continues before ⟨type, text⟩) ∧
      (∀ type, tokToStr type = tokToStr t.type → type = t.type) ∧
      (main (fileSource fname (.ok bytes))).wp
        (fun _ w => w.stderr.head? = some ⟨.syntaxError, fmt, [tokToStr t.type]⟩)
        (fun _ w => w.stderr.head? = some ⟨.syntaxError, fmt, [tokToStr t.type]⟩) True
        (World.boot []) := by
  obtain ⟨us, items, hfile⟩ := hbefore
  obtain ⟨p, hrun, hclosed⟩ := run_of_begins hfile
  obtain ⟨types, hmem, htypes⟩ := expectations_sound hrun hclosed
  have hp : p.step t.type = none := by
    rw [Option.eq_none_iff_forall_ne_some]
    exact fun q hq => ht ((continues_iff hrun).mpr ⟨q, hq⟩)
  exact ⟨p.fmt, types, hmem, htypes, fun _ h => tokToStr_injective h,
    main_blamed fname hbegins hrun hp hclosed⟩

/-- The file `a:7}`: a number stands where the code block should be, and behind it is a character
with a message of its own. -/
theorem main_blames_number :
    ∃ fmt w, (main (fileSource [102] (.ok [97, 58, 55, 125]))).Runs (World.boot []) (.ok 0 w) ∧
      w.stderr.head? = some ⟨.syntaxError, fmt, ["number"]⟩ ∧ w.stderr.length = 2 := by
  have ha : Tok.Writable ⟨.SYMBOL, [97]⟩ := ⟨97, [], rfl, rfl, by simp⟩
  have hcolon : Tok.Writable ⟨.COLON, []⟩ := rfl
  have h7 : Tok.Writable ⟨.NUMBER, [55]⟩ := ⟨55, [], rfl, rfl, by simp⟩
  have hnumber : Begins [55, 125] [⟨.NUMBER, [55]⟩] :=
    .cons [] h7 (show isDigit (chr 125) = false from rfl) (.any [125])
  have hbegins : Begins [97, 58, 55, 125] ([⟨.SYMBOL, [97]⟩, ⟨.COLON, []⟩] ++ [⟨.NUMBER, [55]⟩]) :=
    .cons [] ha (show isSymbol1 (chr 58) = false from rfl) (.cons [] hcolon trivial hnumber)
  have hrun : GrammarPlace.top.run [⟨.SYMBOL, [97]⟩, ⟨.COLON, []⟩] = some .pattern := rfl
  have hbefore : ∃ us items, IsFile ([⟨.SYMBOL, [97]⟩, ⟨.COLON, []⟩] ++ us) items :=
    (stands_of_run hrun).completes (by decide)
  have ht : ¬ Continues [⟨.SYMBOL, [97]⟩, ⟨.COLON, []⟩] ⟨.NUMBER, [55]⟩ := by
    rw [continues_iff hrun]
    rintro ⟨q, hq⟩
    cases hq
  obtain ⟨fmt, types, -, -, -, hwp⟩ := main_blames [102] hbegins hbefore ht
  obtain ⟨w, hmain, hlen⟩ : ∃ w, (main (fileSource [102] (.ok [97, 58, 55, 125]))).Runs (World.boot [])
      (.ok 0 w) ∧ w.stderr.length = 2 := ⟨_, ⟨9, rfl⟩, rfl⟩
  exact ⟨fmt, w, hmain, (Prog.wp_of_runs_ok hmain).mp hwp, hlen⟩

end

end Rdpgen
