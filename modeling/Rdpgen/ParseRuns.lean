import Rdpgen.Parser
import Rdpgen.ScanRuns

namespace Rdpgen

/-! ### What a parser run builds and keeps -/

def IsText (s : STR) : Prop := copyStr s = s

theorem isText_copyStr (s : STR) : IsText (copyStr s) := by simp [IsText, copyStr]

def PatElem.Fresh (pe : PatElem) : Prop := IsText pe.str ∧ pe.isTerminal = false

structure Rule.Fresh (rule : Rule) : Prop where
  name : IsText rule.name
  elems : ∀ p ∈ rule.patterns, ∀ pe ∈ p.elems, pe.Fresh

/-- A state before the passes over the grammar. -/
structure Pstate.Fresh (state : Pstate) : Prop where
  rules : ∀ r ∈ state.rules, r.Fresh
  terminals : state.terminals = []
  nonTerminals : state.nonTerminals = []

theorem Pstate.Fresh.rules_append {state : Pstate} (h : state.Fresh) {rule : Rule}
    (hr : rule.Fresh) : Pstate.Fresh { state with rules := state.rules ++ [rule] } where
  rules r hmem := by
    rcases List.mem_append.mp hmem with hmem | hmem
    · exact h.rules r hmem
    · rw [List.mem_singleton.mp hmem]
      exact hr
  terminals := h.terminals
  nonTerminals := h.nonTerminals

section Keeps

variable {ι : Type} {src : TokenSource ι} {I : World ι → Prop}

/-- The token source keeps `I` and takes no error back; a message keeps `I` too. -/
structure TokenSource.Keeps (src : TokenSource ι) (I : World ι → Prop) : Prop where
  consume : ∀ w, I w → src.consumeToken.wp (fun _ v => I v ∧ w.errors ≤ v.errors)
    (fun _ _ => True) True w
  report : ∀ w v, I w → v.input = w.input → v.tok = w.tok → I v

theorem parsePattern_keeps (hk : src.Keeps I) {w : World ι} (h : I w) :
    (parsePattern src).wp
      (fun p v => I v ∧ w.errors ≤ v.errors ∧ ∀ pe ∈ p.elems, pe.Fresh)
      (fun _ _ => True) True w := by
  unfold parsePattern
  simp only [Prog.wp_bind]
  refine (hk.consume w h).imp fun tk v hv => ?_
  refine Prog.wp_whileDo_of_invariant
    (fun l v => I v ∧ w.errors ≤ v.errors ∧ ∀ pe ∈ l.2, pe.Fresh) ?_ ?_ ⟨hv.1, hv.2, by simp⟩
  · intro l v hinv _
    obtain ⟨tok, elems⟩ := l
    obtain ⟨hI, he, hl⟩ := hinv
    unfold patternBody
    simp only [Prog.wp_bind]
    refine (hk.consume v hI).imp fun tk u hu => Prog.wp_pure.mpr ⟨hu.1, he.trans hu.2, ?_⟩
    intro pe hpe
    rcases List.mem_append.mp hpe with hpe | hpe
    · exact hl pe hpe
    · rw [List.mem_singleton.mp hpe]
      exact ⟨isText_copyStr _, rfl⟩
  · intro l v hinv _
    obtain ⟨tok, elems⟩ := l
    obtain ⟨hI, he, hl⟩ := hinv
    simp only [getToken, Prog.wp_gets]
    rw [Prog.wp_ite]
    split
    · exact Prog.wp_pure.mpr ⟨hI, he, hl⟩
    · rw [Prog.wp_bind]
      refine syntaxError_wp fun u hi ht hu => Prog.wp_pure.mpr ⟨hk.report v u hI hi ht, ?_, hl⟩
      omega

/-- Nothing wrong yet, so every rule has a pattern. -/
def Fed (state : Pstate) (w : World ι) : Prop := w.errors = 0 → ∀ r ∈ state.rules, r.patterns ≠ []

theorem Fed.mono {state : Pstate} {v w : World ι} (h : Fed state w) (he : w.errors ≤ v.errors) :
    Fed state v := fun hv => h (by omega)

theorem parseRule_keeps (hk : src.Keeps I) {w : World ι} (h : I w) {state : Pstate}
    (hs : state.Fresh) (hf : Fed state w) :
    (parseRule src state).wp (fun s v => I v ∧ s.Fresh ∧ Fed s v) (fun _ _ => True) True w := by
  unfold parseRule
  simp only [getToken, Prog.wp_bind, Prog.wp_gets]
  refine (hk.consume w h).imp fun tk v hv => ?_
  refine Prog.wp_whileDo_of_invariant
    (fun l v => I v ∧ w.errors ≤ v.errors ∧ ∀ p ∈ l.2, ∀ pe ∈ p.elems, pe.Fresh) ?_ ?_
    ⟨hv.1, hv.2, by simp⟩
  · intro l v hinv _
    obtain ⟨tok, patterns⟩ := l
    obtain ⟨hI, he, hl⟩ := hinv
    unfold ruleBody
    simp only [Prog.wp_bind]
    apply (parsePattern_keeps hk hI).imp
    intro p u hpost
    obtain ⟨hu, hue, hp⟩ := hpost
    refine (hk.consume u hu).imp fun tk u' hu' => Prog.wp_pure.mpr ⟨hu'.1, by omega, ?_⟩
    intro q hq
    rcases List.mem_append.mp hq with hq | hq
    · exact hl q hq
    · rw [List.mem_singleton.mp hq]
      exact hp
  · intro l v hinv _
    obtain ⟨tok, patterns⟩ := l
    obtain ⟨hI, he, hl⟩ := hinv
    have hrule : Rule.Fresh ⟨copyStr w.tok.str, false, false, patterns⟩ := ⟨isText_copyStr _, hl⟩
    have hfresh := hs.rules_append hrule
    by_cases hz : patterns.length = 0
    · rw [if_pos hz]
      simp only [tokenType, Prog.wp_bind, Prog.wp_gets]
      refine syntaxError_wp fun u hi ht hu => Prog.wp_pure.mpr ?_
      exact ⟨hk.report v u hI hi ht, by simpa [copyStr] using hfresh, fun h0 => by omega⟩
    · rw [if_neg hz]
      refine Prog.wp_pure.mpr ⟨hI, by simpa [copyStr] using hfresh, fun h0 r hr => ?_⟩
      rcases List.mem_append.mp hr with hr | hr
      · exact hf (by omega) r hr
      · rw [List.mem_singleton.mp hr]
        exact fun hn => hz (by simpa using congrArg List.length hn)

theorem parseDirective_keeps (hk : src.Keeps I) {w : World ι} (h : I w) {state : Pstate}
    {want : TokenType} {fmt : String} {store : STR → Pstate → Pstate}
    (hstore : ∀ str, (store str state).Fresh ∧ (store str state).rules = state.rules)
    (hs : state.Fresh) (hf : Fed state w) :
    (parseDirective src want fmt store state).wp (fun s v => I v ∧ s.Fresh ∧ Fed s v)
      (fun _ _ => True) True w := by
  have last {s : Pstate} {v : World ι} (hI : I v) (hs : s.Fresh) (hf : Fed s v) :
      src.consumeToken.wp (fun _ => (pure s : Prog Halt (World ι) Pstate).wp
        (fun s v => I v ∧ s.Fresh ∧ Fed s v) (fun _ _ => True) True) (fun _ _ => True) True v :=
    (hk.consume v hI).imp fun _ u hu => Prog.wp_pure.mpr ⟨hu.1, hs, hf.mono hu.2⟩
  unfold parseDirective
  simp only [Prog.wp_bind]
  refine (hk.consume w h).imp fun tk v hv => ?_
  rw [Prog.wp_ite]
  split
  · simp only [getToken, Prog.wp_bind, Prog.wp_gets, Prog.wp_pure]
    obtain ⟨hfresh, hrules⟩ := hstore (copyStr v.tok.str)
    refine last hv.1 hfresh fun h0 => ?_
    rw [hrules]
    exact hf.mono hv.2 h0
  · simp only [Prog.wp_bind]
    refine syntaxError_wp fun u hi ht hu => Prog.wp_pure.mpr ?_
    exact last (hk.report v u hv.1 hi ht) hs (hf.mono (by omega))

theorem parseSwitch_keeps (hk : src.Keeps I) {w : World ι} (h : I w) {state : Pstate}
    (hs : state.Fresh) (hf : Fed state w) :
    (parseSwitch src w.tok.type state).wp
      (fun l v => I v ∧ l.1.Fresh ∧ Fed l.1 v ∧ (l.2 = true → v.tok.type = .END_OF_INPUT))
      (fun _ _ => True) True w := by
  have again {s : Pstate} {v : World ι} (hv : I v ∧ s.Fresh ∧ Fed s v) :
      I v ∧ s.Fresh ∧ Fed s v ∧ (false = true → v.tok.type = .END_OF_INPUT) :=
    ⟨hv.1, hv.2.1, hv.2.2, by simp⟩
  -- No directive touches the rules or the two name lists.
  have stored {s : Pstate} (hrules : s.rules = state.rules) (hT : s.terminals = state.terminals)
      (hN : s.nonTerminals = state.nonTerminals) : s.Fresh ∧ s.rules = state.rules :=
    ⟨⟨hrules ▸ hs.rules, hT.trans hs.terminals, hN.trans hs.nonTerminals⟩, hrules⟩
  cases ht : w.tok.type
  case SYMBOL => exact wp_more ((parseRule_keeps hk h hs hf).imp fun _ _ => again)
  case END_OF_INPUT => exact Prog.wp_pure.mpr ⟨h, hs, hf, fun _ => ht⟩
  case VERBOSITY | NAME | PREFIX | CODE =>
    refine wp_more ((parseDirective_keeps hk h (fun _ => ?_) hs hf).imp fun _ _ => again)
    exact stored rfl rfl rfl
  all_goals
    refine wp_unexpected fun v hi ht he => again ⟨hk.report w v h hi ht, hs, hf.mono ?_⟩
    omega

/-- A parser run keeps what the token source keeps. Its state is fresh, and
without an error it has found the end of the input and a pattern of every rule. -/
theorem parseInput_keeps (hk : src.Keeps I) {w : World ι}
    (hopen : src.openInput.wp
      (fun _ => src.consumeToken.wp (fun _ v => I v) (fun _ _ => True) True)
      (fun _ _ => True) True w) :
    (parseInput src).wp
      (fun state v => I v ∧ state.Fresh ∧ (v.errors = 0 →
        v.tok.type = .END_OF_INPUT ∧ ∀ r ∈ state.rules, r.patterns ≠ []))
      (fun _ _ => True) True w := by
  unfold parseInput
  simp only [createParser, Prog.wp_bind]
  refine hopen.imp fun _ u hu => hu.imp fun _ v hv => Prog.wp_pure.mpr ?_
  refine Prog.wp_whileDo_of_invariant
    (fun l v => I v ∧ l.1.Fresh ∧ Fed l.1 v ∧ (l.2 = true → v.tok.type = .END_OF_INPUT)) ?_ ?_
    ⟨hv, ⟨by simp, rfl, rfl⟩, fun _ => by simp, by simp⟩
  · intro l v h _
    obtain ⟨hI, hs, hf, -⟩ := h
    unfold parsePass
    simp only [tokenType, Prog.wp_bind, Prog.wp_gets]
    exact parseSwitch_keeps hk hI hs hf
  · intro l v h hc
    obtain ⟨hI, hs, hf, hend⟩ := h
    refine Prog.wp_pure.mpr ⟨hI, hs, fun he => ⟨hend ?_, hf he⟩⟩
    simpa [he] using hc

end Keeps

/-! ### The whole file -/

/-- What the scanner keeps on a file: the unread bytes end as the file does,
and at the end of input none is left or the next one is 0xFF. -/
structure World.Reads (bytes : Bytes) (w : World FileStack) : Prop where
  clean : w.input.Clean
  ending : fileEnding w.input.unread = fileEnding bytes
  tok : w.tok.type = .END_OF_INPUT → w.input.unread = [] ∨ ∃ v, w.input.unread = 0xFF :: v

theorem consumeToken_reads {bytes : Bytes} {w : World FileStack} (hc : w.input.Clean)
    (he : fileEnding w.input.unread = fileEnding bytes) :
    consumeToken.wp (fun _ v => v.Reads bytes ∧ w.errors ≤ v.errors) (fun _ _ => True) True w := by
  refine (consumeToken_wp (World.Shows.self hc)).mono ?_ (fun _ _ _ => trivial) fun _ => trivial
  intro tk v h
  obtain ⟨type, text, rest, n, hlex, hv, -, -⟩ := h
  refine ⟨⟨hv.clean, ?_, fun ht => ?_⟩, by rw [hv.errors]; omega⟩
  · rw [hv.unread, fileEnding_of_token hlex, he]
  · rw [hv.tok] at ht
    simp only at ht
    subst ht
    rw [hv.unread]
    exact (lex_end hlex).2

theorem fileSource_keeps (fname bytes : Bytes) :
    (fileSource fname (.ok bytes)).Keeps (World.Reads bytes) where
  consume _ h := consumeToken_reads h.clean h.ending
  report _ _ h hi ht := ⟨hi ▸ h.clean, hi ▸ h.ending, fun hv => hi ▸ h.tok (ht ▸ hv)⟩

theorem fileSource_opens (fname bytes : Bytes) :
    (fileSource fname (.ok bytes)).openInput.wp
      (fun _ => (fileSource fname (.ok bytes)).consumeToken.wp (fun _ v => v.Reads bytes)
        (fun _ _ => True) True)
      (fun _ _ => True) True (World.boot []) := by
  have hs := opened_shows fname bytes
  have hend := congrArg fileEnding hs.unread
  exact Prog.wp_modify.mpr ((consumeToken_reads hs.clean hend).imp fun _ _ hv => hv.1)

theorem parseInput_fresh {fname bytes : Bytes} {state : Pstate} {w : World FileStack}
    (hr : (parseInput (fileSource fname (.ok bytes))).Runs (World.boot []) (.ok state w)) :
    state.Fresh ∧ (w.errors = 0 → ∀ r ∈ state.rules, r.patterns ≠ []) := by
  obtain ⟨-, hf, hp⟩ :=
    (parseInput_keeps (fileSource_keeps fname bytes) (fileSource_opens fname bytes)).1 state w hr
  exact ⟨hf, fun h0 => (hp h0).2⟩

/-- An accepted file has been read to its end, unless a byte 0xFF cuts it short. -/
theorem parseInput_unread {fname bytes : Bytes} {state : Pstate} {w : World FileStack}
    (hr : (parseInput (fileSource fname (.ok bytes))).Runs (World.boot []) (.ok state w))
    (h0 : w.errors = 0) : w.input.unread = [] ↔ fileEnding bytes ≠ .cut := by
  obtain ⟨hw, -, hend⟩ :=
    (parseInput_keeps (fileSource_keeps fname bytes) (fileSource_opens fname bytes)).1 state w hr
  rw [← hw.ending]
  rcases hw.tok (hend h0).1 with hn | ⟨v, hn⟩
  · simp [hn]
  · simp [hn]

/-- A scanner call answers with the end of input exactly where no byte is left,
and the parser accepts no file before its end, if and only if no byte 0xFF
stands where a token of the file would start. -/
theorem consumeToken_end_iff (fname bytes : Bytes) :
    ((∀ w, ScanReach fname bytes w → ∀ tk w', consumeToken.Runs w (.ok tk w') →
        (tk.type = .END_OF_INPUT ↔ skipTrivia false w.input.unread = some [])) ↔
      fileEnding bytes ≠ .cut) ∧
    ∀ state w, (parseInput (fileSource fname (.ok bytes))).Runs (World.boot []) (.ok state w) →
      w.errors = 0 → (w.input.unread = [] ↔ fileEnding bytes ≠ .cut) := by
  refine ⟨⟨fun h he => ?_, fun he w hw tk w' hr => ?_⟩, fun state w => parseInput_unread⟩
  · have hplain : fileEnding bytes ≠ .plain := by rw [he]; decide
    obtain ⟨w, hw, hd | ⟨tk, w', hr, ht⟩⟩ := ScanReach.last fname hplain
    · exact absurd (hw.tokenOrExit (by rw [he]; decide) (by rw [he]; decide)) hd
    · obtain ⟨-, hu⟩ := hw.ending
      rw [fileEnding_of_skipTrivia ((h w hw tk w' hr).mp ht), he] at hu
      simp at hu
  · obtain ⟨hc, hu⟩ := hw.ending
    obtain ⟨text, n, hlex, -⟩ := consumeToken_returns hc hr
    constructor
    · intro ht
      rw [ht] at hlex
      rcases fileEnding_of_end hlex with ⟨hn, -⟩ | ⟨-, hcut⟩
      · rw [← hn]
        exact (lex_end hlex).1
      · exact absurd (hu.symm.trans hcut) he
    · intro hs
      simp only [lex, hs, lexFrom, Lexed.token.injEq] at hlex
      exact hlex.1.symm

/-- The file of the one byte 0xFF is accepted, and the byte is left. -/
theorem consumeToken_end_at_ff :
    ¬ ((∀ w, ScanReach [102] [0xFF] w → ∀ tk w', consumeToken.Runs w (.ok tk w') →
        (tk.type = .END_OF_INPUT ↔ skipTrivia false w.input.unread = some [])) ∧
      ∀ state w, (parseInput (fileSource [102] (.ok [0xFF]))).Runs (World.boot []) (.ok state w) →
        w.errors = 0 → w.input.unread = []) := by
  intro hboth
  obtain ⟨-, h⟩ := hboth
  have hn := h _ _ ⟨2, rfl⟩ rfl
  exact absurd hn (by decide)

end Rdpgen
