import Rdpgen.Guarantee
import Rdpgen.Preproc

namespace Rdpgen

open Prog (Moves)

section

variable {ι : Type}

/-- From `w` to `v` there were syntax errors alone, each counted, and no output. -/
def World.Logs (w v : World ι) : Prop :=
  ∃ lines : List Diag, (∀ l ∈ lines, l.severity = .syntaxError) ∧ v.stderr = w.stderr ++ lines ∧
    v.errors = w.errors + lines.length ∧ v.stdout = w.stdout

/-- The program has been left at a wild pointer or an overflow. -/
def Faults (e : Halt) (w v : World ι) : Prop := e = .fault ∧ w.Logs v

/-- The program has been left by `fatal`, whose message is the last one, or at an overflow. -/
def Exits (e : Halt) (w v : World ι) : Prop :=
  (e = .exit 1 ∧ ∃ u line, w.Logs u ∧ line.severity = .fatalError ∧ v.stderr = u.stderr ++ [line] ∧
    v.errors = u.errors + 1 ∧ v.stdout = u.stdout) ∨ Faults e w v

/-- The program has been left with the status 1 and a fatal message as the last one. -/
def FatalExit (e : Halt) (v : World ι) : Prop :=
  e = .exit 1 ∧ ∃ before line, v.stderr = before ++ [line] ∧ line.severity = .fatalError

theorem Exits.fatalExit {e : Halt} {w v : World ι} (h : Exits e w v) (he : e = .exit 1) :
    FatalExit e v := by
  rcases h with ⟨-, u, line, -, hline, hstderr, -⟩ | ⟨hfault, -⟩
  · exact ⟨he, u.stderr, line, hstderr, hline⟩
  · rw [he] at hfault
    cases hfault

theorem World.Logs.refl (w : World ι) : w.Logs w := ⟨[], by simp, by simp, rfl, rfl⟩

theorem World.Logs.trans {w v u : World ι} (h : w.Logs v) (h' : v.Logs u) : w.Logs u := by
  obtain ⟨xs, hxs, hstderr, herr, hout⟩ := h
  obtain ⟨ys, hys, hstderr', herr', hout'⟩ := h'
  refine ⟨xs ++ ys, List.forall_mem_append.mpr ⟨hxs, hys⟩, ?_, ?_, hout'.trans hout⟩
  · rw [hstderr', hstderr, List.append_assoc]
  · rw [herr', herr, List.length_append, Nat.add_assoc]

theorem logged : Guarantee (World.Logs (ι := ι)) Exits where
  refl := World.Logs.refl
  trans := World.Logs.trans
  leave := by
    intro e w v u h hx
    rcases hx with ⟨he, t, line, ht, hline⟩ | ⟨he, ht⟩
    · exact Or.inl ⟨he, t, line, h.trans ht, hline⟩
    · exact Or.inr ⟨he, h.trans ht⟩

theorem walked : Guarantee (World.Logs (ι := ι)) Faults where
  refl := World.Logs.refl
  trans := World.Logs.trans
  leave h hx := ⟨hx.1, h.trans hx.2⟩

section

variable {X : Halt → World ι → World ι → Prop}

theorem moves_silent {α : Type} {f : World ι → α × World ι} (herr : ∀ w, (f w).2.stderr = w.stderr)
    (hcount : ∀ w, (f w).2.errors = w.errors) (hout : ∀ w, (f w).2.stdout = w.stdout) :
    Moves (Prog.act f) World.Logs X :=
  Prog.moves_act fun w => ⟨[], by simp, by simp [herr], by simp [hcount], hout w⟩

theorem syntaxError_moves (fmt : String) (args : List String) :
    Moves (syntaxError fmt args) (World.Logs (ι := ι)) X :=
  Prog.moves_act fun w => ⟨[⟨.syntaxError, fmt, args⟩], by simp, rfl, rfl, rfl⟩

end

theorem fatal_moves {α : Type} (fmt : String) (args : List String) :
    Moves (fatal fmt args : Prog Halt (World ι) α) World.Logs Exits := by
  intro w
  unfold fatal report
  rw [Prog.wp_bind]
  exact Prog.wp_modify.mpr (Prog.wp_stop.mpr (Or.inl ⟨rfl, w, _, .refl w, rfl, rfl, rfl, rfl⟩))

end

/-! ### The scanner -/

theorem getChar_moves : Moves getChar World.Logs Exits := logged.gets _

theorem consumeChar_moves : Moves consumeChar World.Logs Exits :=
  moves_silent (fun _ => rfl) (fun _ => rfl) fun _ => rfl

theorem checkInt_moves (n : Int) : Moves (checkInt n : Scan Int) World.Logs Exits := by
  intro w
  exact checkInt_wp (fun _ => .refl w) fun _ => Or.inr ⟨rfl, .refl w⟩

theorem catTok_moves (ch : Int) : Moves (catTok ch) World.Logs Exits :=
  moves_silent (fun _ => rfl) (fun _ => rfl) fun _ => rfl

theorem setType_moves (type : TokenType) : Moves (setType type) World.Logs Exits :=
  moves_silent (fun _ => rfl) (fun _ => rfl) fun _ => rfl

theorem checkEof_moves (fmt : String) : Moves (checkEof fmt) World.Logs Exits :=
  logged.bind getChar_moves fun _ =>
    .ite (logged.bind (syntaxError_moves _ _) fun _ => fatal_moves _ _) (logged.pure _)

theorem consumeSpace_moves : Moves consumeSpace World.Logs Exits :=
  logged.bind getChar_moves fun _ =>
    logged.bind (logged.whileDo (fun _ => consumeChar_moves) _) fun _ => logged.pure _

theorem consumeComment_moves : Moves consumeComment World.Logs Exits :=
  logged.bind consumeChar_moves fun _ =>
    logged.bind (logged.whileDo (fun _ => consumeChar_moves) _) fun _ => logged.pure _

/-- The body of the loops of `get_directive` and `get_string`. -/
theorem checkedBody_moves (fmt : String) (ch : Int) :
    Moves (catTok ch >>= fun _ => consumeChar >>= fun ch => checkEof fmt >>= fun _ => pure ch)
      World.Logs Exits :=
  logged.bind (catTok_moves ch) fun _ => logged.bind consumeChar_moves fun _ =>
    logged.bind (checkEof_moves _) fun _ => logged.pure _

theorem getDirective_moves : Moves getDirective World.Logs Exits := by
  refine logged.bind getChar_moves fun _ => logged.bind (catTok_moves _) fun _ =>
    logged.bind consumeChar_moves fun _ => logged.bind getChar_moves fun _ =>
    logged.bind (logged.whileDo (checkedBody_moves _) _) fun _ => logged.bind (logged.gets _)
    fun _ => logged.bind (setType_moves _) fun _ => ?_
  exact .ite (syntaxError_moves _ _) (logged.pure _)

theorem getString_moves : Moves getString World.Logs Exits :=
  logged.bind consumeChar_moves fun _ => logged.bind getChar_moves fun _ =>
    logged.bind (logged.whileDo (checkedBody_moves _) _) fun _ =>
    logged.bind consumeChar_moves fun _ => setType_moves _

/-- The body of the loops of `get_number` and `get_symbol`. -/
theorem munchBody_moves (ch : Int) : Moves (numberBody ch) World.Logs Exits :=
  logged.bind (catTok_moves ch) fun _ => consumeChar_moves

theorem getNumber_moves : Moves getNumber World.Logs Exits :=
  logged.bind getChar_moves fun _ => logged.bind (catTok_moves _) fun _ =>
    logged.bind consumeChar_moves fun _ => logged.bind (logged.whileDo munchBody_moves _) fun _ =>
    setType_moves _

theorem getSymbol_moves : Moves getSymbol World.Logs Exits := by
  refine logged.bind getChar_moves fun _ => .ite ?_ ?_
  · exact logged.bind (catTok_moves _) fun _ => logged.bind consumeChar_moves fun _ =>
      logged.bind (logged.whileDo munchBody_moves _) fun _ => setType_moves _
  · exact logged.bind (setType_moves _) fun _ => syntaxError_moves _ _

theorem blockChar_moves (count ch : Int) : Moves (blockChar count ch) World.Logs Exits := by
  have keep (n : Int) : Moves (catTok ch >>= fun _ => pure n) World.Logs Exits :=
    logged.bind (catTok_moves ch) fun _ => logged.pure n
  exact .ite (logged.bind (checkInt_moves _) fun _ => keep _)
    (.ite (.ite (keep _) (logged.pure _)) (keep _))

theorem getBlock_moves : Moves getBlock World.Logs Exits := by
  have body (count : Int) : Moves (blockBody count) World.Logs Exits :=
    logged.bind getChar_moves fun _ => logged.bind (blockChar_moves _ _) fun _ =>
      logged.bind consumeChar_moves fun _ => logged.pure _
  exact logged.bind consumeChar_moves fun _ => logged.bind (logged.whileDo body _) fun _ =>
    setType_moves _

theorem scanSwitch_moves (c : UInt8) : Moves (scanSwitch c) World.Logs Exits := by
  have flag (p : Scan Unit) (b : Bool) (hp : Moves p World.Logs Exits) :
      Moves (p >>= fun _ => pure b) World.Logs Exits :=
    logged.bind hp fun _ => logged.pure b
  have colon : Moves (setType .COLON >>= fun _ => consumeChar >>= fun _ => pure true)
      World.Logs Exits :=
    logged.bind (setType_moves _) fun _ => logged.bind consumeChar_moves fun _ => logged.pure _
  have rest : Moves (getChar >>= fun ch => if isDigit ch then getNumber >>= fun _ => pure true
      else getSymbol >>= fun _ => pure true) World.Logs Exits :=
    logged.bind getChar_moves fun _ => .ite (flag _ _ getNumber_moves) (flag _ _ getSymbol_moves)
  exact .ite (flag _ _ (setType_moves _)) (.ite (flag _ _ consumeComment_moves) (.ite colon
    (.ite (flag _ _ getDirective_moves) (.ite (flag _ _ getString_moves)
      (.ite (flag _ _ getBlock_moves) rest)))))

theorem scanPass_moves (finished : Bool) : Moves (scanPass finished) World.Logs Exits :=
  logged.bind consumeSpace_moves fun _ => logged.bind getChar_moves fun _ => scanSwitch_moves _

theorem consumeToken_moves : Moves consumeToken World.Logs Exits := by
  have clear : Moves (Prog.modify fun w => { w with tok := { w.tok with str := [] } } : Scan Unit)
      World.Logs Exits :=
    moves_silent (fun _ => rfl) (fun _ => rfl) fun _ => rfl
  exact logged.bind clear fun _ => logged.bind (logged.whileDo scanPass_moves _) fun _ => logged.gets _

/-! ### The parser -/

section

variable {ι : Type} {src : TokenSource ι}

theorem openInputFile_moves (fname : Bytes) (file : Except String Bytes) :
    Moves (openInputFile fname file) World.Logs Exits := by
  cases file with
  | error reason => exact fatal_moves _ _
  | ok bytes => exact moves_silent (fun _ => rfl) (fun _ => rfl) fun _ => rfl

theorem parsePattern_moves (h : Moves src.consumeToken World.Logs Exits) :
    Moves (parsePattern src) World.Logs Exits := by
  have body (l : Token × List PatElem) : Moves (patternBody src l) World.Logs Exits :=
    logged.bind h fun _ => logged.pure _
  refine logged.bind h fun _ => logged.bind (logged.whileDo body _) fun l => ?_
  exact logged.bind (logged.gets _) fun _ => .ite (logged.pure _)
    (logged.bind (syntaxError_moves _ _) fun _ => logged.pure _)

theorem parseRule_moves (h : Moves src.consumeToken World.Logs Exits) (state : Pstate) :
    Moves (parseRule src state) World.Logs Exits := by
  have body (l : Token × List Pattern) : Moves (ruleBody src l) World.Logs Exits :=
    logged.bind (parsePattern_moves h) fun _ => logged.bind h fun _ => logged.pure _
  refine logged.bind (logged.gets _) fun _ => logged.bind h fun _ =>
    logged.bind (logged.whileDo body _) fun l => .ite ?_ (logged.pure _)
  exact logged.bind (logged.gets _) fun _ => logged.bind (syntaxError_moves _ _) fun _ =>
    logged.pure _

theorem parseDirective_moves (h : Moves src.consumeToken World.Logs Exits) (want : TokenType)
    (fmt : String) (store : STR → Pstate → Pstate) (state : Pstate) :
    Moves (parseDirective src want fmt store state) World.Logs Exits := by
  have last (s : Pstate) : Moves (src.consumeToken >>= fun _ => pure s) World.Logs Exits :=
    logged.bind h fun _ => logged.pure s
  refine logged.bind h fun _ => .ite ?_ ?_
  · exact logged.bind (logged.gets _) fun _ => last _
  · exact logged.bind (syntaxError_moves _ _) fun _ => last _

theorem parsePass_moves (h : Moves src.consumeToken World.Logs Exits) (l : Pstate × Bool) :
    Moves (parsePass src l) World.Logs Exits := by
  have more (p : Prog Halt (World ι) Pstate) (hp : Moves p World.Logs Exits) :
      Moves (p >>= fun s => pure (s, false)) World.Logs Exits :=
    logged.bind hp fun _ => logged.pure _
  refine logged.bind (logged.gets _) fun type => ?_
  cases type
  case SYMBOL => exact more _ (parseRule_moves h _)
  case VERBOSITY | NAME | PREFIX | CODE => exact more _ (parseDirective_moves h _ _ _ _)
  case END_OF_INPUT => exact logged.pure _
  all_goals exact logged.bind (syntaxError_moves _ _) fun _ => logged.pure _

/-- The parser writes no line but the counted messages. -/
theorem parseInput_moves (hopen : Moves src.openInput World.Logs Exits)
    (h : Moves src.consumeToken World.Logs Exits) : Moves (parseInput src) World.Logs Exits := by
  have create : Moves (createParser src) World.Logs Exits :=
    logged.bind hopen fun _ => logged.bind h fun _ => logged.pure _
  exact logged.bind create fun _ => logged.bind (logged.whileDo (parsePass_moves h) _) fun _ =>
    logged.pure _

end

/-! ### The lines of `main` behind `parse_input` -/

section

variable {ι α β : Type} {G : World ι → World ι → Prop} {X : Halt → World ι → World ι → Prop}

theorem forLst_moves (g : Guarantee G X) {body : β → Ptr α → Prog Halt (World ι) (β × α)}
    (h : ∀ b p, Moves (body b p) G X) (xs : List α) (b : β) : Moves (forLst xs b body) G X := by
  have main (ps : List (Ptr α)) (b : β) : Moves (forPtrs body ps b) G X := by
    induction ps generalizing b with
    | nil => exact g.pure _
    | cons p ps ih => exact g.bind (h b p) fun l => g.bind (ih l.1) fun _ => g.pure _
  exact main _ b

theorem deref_moves (hwild : ∀ w, X .fault w w) (g : Guarantee G X) (p : Ptr α) :
    Moves p.deref G X := by
  cases p with
  | elem a => exact g.pure a
  | wild => exact fun w => Prog.wp_stop.mpr (hwild w)

theorem derefLogs (p : Ptr α) : Moves p.deref (World.Logs (ι := ι)) Faults :=
  deref_moves (fun w => ⟨rfl, .refl w⟩) walked p

theorem preProcess_moves (state : Pstate) :
    Moves (preProcess state) (World.Logs (ι := ι)) Faults := by
  have nonTerms (s : Pstate) (r : Ptr Rule) : Moves (nonTermsBody s r) (World.Logs (ι := ι)) Faults :=
    walked.bind (derefLogs r) fun _ => .ite (walked.pure _)
      (walked.bind (syntaxError_moves _ _) fun _ => walked.pure _)
  have elem (s : Pstate) (pe : Ptr PatElem) :
      Moves (termsElemBody s pe) (World.Logs (ι := ι)) Faults :=
    walked.bind (derefLogs pe) fun _ => .ite (walked.pure _) (walked.pure _)
  have pattern (s : Pstate) (p : Ptr Pattern) :
      Moves (termsPatternBody s p) (World.Logs (ι := ι)) Faults :=
    walked.bind (derefLogs p) fun _ => walked.bind (forLst_moves walked elem _ _) fun _ =>
      walked.pure _
  have rule (s : Pstate) (r : Ptr Rule) : Moves (termsRuleBody s r) (World.Logs (ι := ι)) Faults :=
    walked.bind (derefLogs r) fun _ => walked.bind (forLst_moves walked pattern _ _) fun _ =>
      walked.pure _
  exact walked.bind (walked.bind (forLst_moves walked nonTerms _ _) fun _ => walked.pure _) fun _ =>
    walked.bind (forLst_moves walked rule _ _) fun _ => walked.pure _

/-- The output grows, and nothing else is written or counted. -/
structure World.Outputs (w v : World ι) : Prop where
  stderr : v.stderr = w.stderr
  errors : v.errors = w.errors
  stdout : w.stdout <+: v.stdout

/-- The output has broken off at a wild pointer. -/
def Breaks (e : Halt) (w v : World ι) : Prop := e = .fault ∧ w.Outputs v

theorem World.Outputs.trans {w v u : World ι} (h : w.Outputs v) (h' : v.Outputs u) : w.Outputs u where
  stderr := h'.stderr.trans h.stderr
  errors := h'.errors.trans h.errors
  stdout := h.stdout.trans h'.stdout

theorem dumped : Guarantee (World.Outputs (ι := ι)) Breaks where
  refl _ := ⟨rfl, rfl, List.prefix_rfl⟩
  trans := World.Outputs.trans
  leave h hx := ⟨hx.1, h.trans hx.2⟩

theorem printf_moves (text : String) : Moves (printf text) (World.Outputs (ι := ι)) Breaks :=
  Prog.moves_act fun w => ⟨rfl, rfl, List.prefix_append w.stdout [text]⟩

theorem derefOutputs (p : Ptr α) : Moves p.deref (World.Outputs (ι := ι)) Breaks :=
  deref_moves (fun w => ⟨rfl, dumped.refl w⟩) dumped p

theorem dumpStrLst_moves (lst : List STR) (label : String) (verbo : Int) :
    Moves (dumpStrLst lst label verbo) (World.Outputs (ι := ι)) Breaks := by
  have item (b : Unit) (s : Ptr STR) : Moves (dumpStrBody b s) (World.Outputs (ι := ι)) Breaks :=
    dumped.bind (derefOutputs s) fun _ => dumped.bind (printf_moves _) fun _ => dumped.pure _
  refine .ite ?_ (dumped.pure _)
  exact dumped.bind (printf_moves _) fun _ => dumped.bind (forLst_moves dumped item _ _) fun _ =>
    dumped.pure _

theorem dumpRules_moves (state : Pstate) :
    Moves (dumpRules state) (World.Outputs (ι := ι)) Breaks := by
  have elem (b : Unit) (pe : Ptr PatElem) :
      Moves (dumpElemBody b pe) (World.Outputs (ι := ι)) Breaks :=
    dumped.bind (derefOutputs pe) fun _ => dumped.bind (printf_moves _) fun _ => dumped.pure _
  have pattern (b : Unit) (p : Ptr Pattern) :
      Moves (dumpPatternBody b p) (World.Outputs (ι := ι)) Breaks :=
    dumped.bind (printf_moves _) fun _ => dumped.bind (derefOutputs p) fun _ =>
      dumped.bind (forLst_moves dumped elem _ _) fun _ => dumped.bind (printf_moves _) fun _ =>
      dumped.pure _
  have rule (b : Unit) (r : Ptr Rule) : Moves (dumpRuleBody b r) (World.Outputs (ι := ι)) Breaks :=
    dumped.bind (derefOutputs r) fun _ => dumped.bind (printf_moves _) fun _ =>
      dumped.bind (forLst_moves dumped pattern _ _) fun _ => dumped.bind (printf_moves _) fun _ =>
      dumped.pure _
  refine .ite ?_ (dumped.pure _)
  exact dumped.bind (printf_moves _) fun _ => dumped.bind (forLst_moves dumped rule _ _) fun _ =>
    dumped.pure _

theorem dumpState_moves (state : Pstate) :
    Moves (dumpState state) (World.Outputs (ι := ι)) Breaks := by
  have line {β : Type} (text : String) {p : Prog Halt (World ι) β}
      (hp : Moves p World.Outputs Breaks) :
      Moves (printf text >>= fun _ => p) (World.Outputs (ι := ι)) Breaks :=
    dumped.bind (printf_moves text) fun _ => hp
  refine .ite (line _ (line _ (line _ (line _ (line _ ?_))))) (dumped.pure _)
  exact dumped.bind (dumpRules_moves state) fun _ => dumped.bind (dumpStrLst_moves _ _ _) fun _ =>
    dumped.bind (dumpStrLst_moves _ _ _) fun _ => dumped.bind (dumpStrLst_moves _ _ _) fun _ =>
    line _ (printf_moves _)

/-- Behind `parse_input`: syntax errors, then the dump unless there was one, then their number. -/
theorem finishMain_accounts (state : Pstate) (w : World ι) :
    (finishMain state).wp
      (fun r v => r = 0 ∧ ∃ u dump, w.Logs u ∧ v.stderr = u.stderr ∧ v.errors = u.errors ∧
        v.stdout = u.stdout ++ dump ++ [s!"errors: {v.errors}\n"] ∧ (v.errors ≠ 0 → dump = []))
      (fun e v => e = .fault ∧ ∃ u, w.Logs u ∧ v.stderr = u.stderr ∧ v.errors = u.errors) True w := by
  have last (s : Pstate) (u : World ι) (hu : w.Logs u) :
      (do
        let errors ← getErrors
        if errors = 0 then
          dumpState s
        let errors ← getErrors
        printf s!"errors: {errors}\n"
        pure 0 : Prog Halt (World ι) Int).wp
      (fun r v => r = 0 ∧ ∃ u dump, w.Logs u ∧ v.stderr = u.stderr ∧ v.errors = u.errors ∧
        v.stdout = u.stdout ++ dump ++ [s!"errors: {v.errors}\n"] ∧ (v.errors ≠ 0 → dump = []))
      (fun e v => e = .fault ∧ ∃ u, w.Logs u ∧ v.stderr = u.stderr ∧ v.errors = u.errors) True u := by
    simp only [getErrors, Prog.wp_bind, Prog.wp_gets]
    by_cases h0 : u.errors = 0
    · rw [if_pos h0, Prog.wp_bind]
      refine (dumpState_moves s u).mono ?_ ?_ id
      · intro _ v hv
        obtain ⟨dump, hdump⟩ := hv.stdout
        simp only [Prog.wp_gets, Prog.wp_bind, printf, Prog.wp_modify, Prog.wp_pure]
        refine ⟨trivial, u, dump, hu, hv.stderr, hv.errors, by rw [hdump], ?_⟩
        intro hne
        exact absurd (hv.errors.trans h0) hne
      · intro e v hbreak
        obtain ⟨he, hv⟩ := hbreak
        exact ⟨he, u, hu, hv.stderr, hv.errors⟩
    · rw [if_neg h0]
      simp only [Prog.wp_gets, Prog.wp_bind, printf, Prog.wp_modify, Prog.wp_pure]
      exact ⟨trivial, u, [], hu, rfl, rfl, by simp, fun _ => rfl⟩
  unfold finishMain
  rw [Prog.wp_bind, getErrors, Prog.wp_gets]
  split
  · rw [Prog.wp_bind]
    refine (preProcess_moves state w).mono (fun s u hu => last s u hu) ?_ id
    intro e v hfault
    obtain ⟨he, hv⟩ := hfault
    exact ⟨he, v, hv, rfl, rfl⟩
  · exact last state w (.refl w)

end

/-- Along every run of the program the error counter is the number of messages. A run that returns
has written the number last, and nothing else if there was an error; the exit follows a fatal
error, the one that ends the messages; before a wild pointer or an overflow the messages are
syntax errors. -/
theorem main_accounts (fname : Bytes) (file : Except String Bytes) :
    (main (fileSource fname file)).wp
      (fun r w => r = 0 ∧ (∀ l ∈ w.stderr, l.severity = .syntaxError) ∧
        w.errors = w.stderr.length ∧ (∃ dump, w.stdout = dump ++ [s!"errors: {w.errors}\n"]) ∧
        (w.errors ≠ 0 → w.stdout = [s!"errors: {w.errors}\n"]))
      (fun e w => w.errors = w.stderr.length ∧
        (e = .exit 1 ∧ w.stdout = [] ∧ (∃ before last, w.stderr = before ++ [last] ∧
            (∀ l ∈ before, l.severity = .syntaxError) ∧ last.severity = .fatalError) ∨
          e = .fault ∧ ∀ l ∈ w.stderr, l.severity = .syntaxError))
      True (World.boot []) := by
  have hparse : Moves (parseInput (fileSource fname file)) World.Logs Exits :=
    parseInput_moves (openInputFile_moves fname file) consumeToken_moves
  unfold main
  rw [Prog.wp_bind]
  refine (hparse (World.boot [])).mono ?_ ?_ id
  · intro state w hw
    refine (finishMain_accounts state w).mono ?_ ?_ id
    · intro r v hpost
      obtain ⟨hr, u, dump, hu, hstderr, herr, hout, hnone⟩ := hpost
      obtain ⟨lines, hlines, hu1, hu2, hu3⟩ := hw.trans hu
      have hlog : v.stderr = lines := by rw [hstderr, hu1]; rfl
      have hcount : v.errors = lines.length := by rw [herr, hu2]; simp [World.boot]
      have hstdout : v.stdout = dump ++ [s!"errors: {v.errors}\n"] := by
        rw [hout, hu3]
        rfl
      rw [hlog]
      refine ⟨hr, hlines, hcount, ⟨dump, hstdout⟩, fun hne => ?_⟩
      rw [hstdout, hnone hne]
      rfl
    · intro e v hpost
      obtain ⟨he, u, hu, hstderr, herr⟩ := hpost
      obtain ⟨lines, hlines, hu1, hu2, -⟩ := hw.trans hu
      have hlog : v.stderr = lines := by rw [hstderr, hu1]; rfl
      rw [hlog, herr, hu2]
      exact ⟨by simp [World.boot], .inr ⟨he, hlines⟩⟩
  · intro e v hexit
    rcases hexit with ⟨he, u, line, hu, hline, hstderr, herr, hout⟩ | ⟨he, lines, hlines, hstderr, herr, -⟩
    · obtain ⟨lines, hlines, hu1, hu2, hu3⟩ := hu
      have hlog : v.stderr = lines ++ [line] := by rw [hstderr, hu1]; rfl
      refine ⟨?_, .inl ⟨he, by rw [hout, hu3]; rfl, lines, line, hlog, hlines, hline⟩⟩
      rw [hlog, herr, hu2]
      simp [World.boot]
    · have hlog : v.stderr = lines := by rw [hstderr]; rfl
      rw [hlog, herr]
      exact ⟨by simp [World.boot], .inr ⟨he, hlines⟩⟩

end Rdpgen
