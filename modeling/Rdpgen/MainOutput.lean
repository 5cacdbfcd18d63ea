import Rdpgen.Messages
import Rdpgen.FileGrammar
import Rdpgen.Pipeline

namespace Rdpgen

open Prog (Moves)

/-! ### What `dump_state` prints -/

section

variable {ι α β : Type}

/-- `p` returns `a`, and all it does is to print `text`. -/
def Prints (p : Prog Halt (World ι) α) (a : α) (text : List String) : Prop :=
  ∀ w, p.Runs w (.ok a { w with stdout := w.stdout ++ text })

variable {p : Prog Halt (World ι) α} {a : α} {t u : List String}

theorem Prints.congr (h : Prints p a t) (htu : t = u) : Prints p a u := htu ▸ h

theorem prints_pure (a : α) : Prints (pure a : Prog Halt (World ι) α) a [] := by
  intro w
  simp only [List.append_nil]
  exact Prog.runs_act.mpr rfl

theorem prints_printf (text : String) : Prints (printf text : Prog Halt (World ι) Unit) () [text] :=
  fun _ => Prog.runs_act.mpr rfl

theorem Prints.bind {f : α → Prog Halt (World ι) β} {b : β} (hp : Prints p a t)
    (hf : Prints (f a) b u) : Prints (p >>= f) b (t ++ u) := by
  intro w
  have hrest := hf { w with stdout := w.stdout ++ t }
  rw [List.append_assoc] at hrest
  exact Prog.runs_bind.mpr (.inl ⟨a, _, hp w, hrest⟩)

/-- A traversal whose body prints a text for each element and leaves it as it is. -/
theorem Prints.forLst {body : Unit → Ptr α → Prog Halt (World ι) (Unit × α)} {xs : List α}
    (hne : xs ≠ []) (text : α → List String)
    (pass : ∀ x ∈ xs, Prints (body () (.elem x)) ((), x) (text x)) :
    Prints (Rdpgen.forLst xs () body) ((), xs) (xs.flatMap text) := by
  have main : ∀ xs : List α, (∀ x ∈ xs, Prints (body () (.elem x)) ((), x) (text x)) →
      Prints (forPtrs body (xs.map .elem) ()) ((), xs) (xs.flatMap text) := by
    intro xs pass
    induction xs with
    | nil => exact prints_pure _
    | cons x xs ih =>
      obtain ⟨hx, hxs⟩ := List.forall_mem_cons.mp pass
      have hlast : Prints (forPtrs body (x :: xs |>.map .elem) ()) ((), x :: xs)
          (text x ++ (xs.flatMap text ++ [])) := by
        apply hx.bind
        apply (ih hxs).bind
        exact prints_pure _
      rwa [List.append_nil] at hlast
  obtain ⟨x, xs, rfl⟩ := List.exists_cons_of_ne_nil hne
  exact main (x :: xs) pass

theorem Prints.ite {c : Prop} [Decidable c] {p : Prog Halt (World ι) Unit}
    (h : c → Prints p () t) :
    Prints (if c then p else pure ()) () (if c then t else []) := by
  by_cases hc : c
  · rw [if_pos hc, if_pos hc]
    exact h hc
  · rw [if_neg hc, if_neg hc]
    exact prints_pure ()

end

def strLstText (lst : List STR) (label : String) (verbo : Int) : List String :=
  if verbo > 5 then
    s!"\n----- {label} ({lst.length}) -----\n" :: lst.map fun item => s!"{textOf (rawStr item)}\n"
  else []

def dumpedPattern (p : Pattern) : List String :=
  "\t: " :: (p.elems.map (fun pe => s!"{textOf (rawStr pe.str)} ") ++ ["\n"])

def dumpedRule (r : Rule) : List String :=
  let recursive := if r.isRecursive then "true" else "false"
  s!"{textOf (rawStr r.name)} - recursive:{recursive}\n" ::
    (r.patterns.flatMap dumpedPattern ++ ["\n"])

def dumpedRules (state : Pstate) : List String :=
  if state.verbo > 3 then
    s!"----- rules ({state.rules.length}) -----\n\n" :: state.rules.flatMap dumpedRule
  else []

def dumpedState (state : Pstate) : List String :=
  if state.verbo > 0 then
    ["---------- state ----------\n", s!"%name:   {textOf (rawStr state.name)}\n",
      s!"%prefix: {textOf (rawStr state.outputPrefix)}\n", s!"%verbosity: {state.verbo}\n\n", "\n"] ++
    (dumpedRules state ++ (strLstText state.terminals "terminals" state.verbo ++
      (strLstText state.nonTerminals "non terminals" state.verbo ++
        (strLstText state.code "code" state.verbo ++ ["\n", "\n"]))))
  else []

section

variable {ι : Type}

theorem dumpStrLst_prints {lst : List STR} {verbo : Int} (label : String)
    (h : verbo > 5 → lst ≠ []) :
    Prints (dumpStrLst lst label verbo : Prog Halt (World ι) Unit) ()
      (strLstText lst label verbo) := by
  apply Prints.ite
  intro hv
  have pass (item : STR) : Prints (ι := ι) (dumpStrBody () (.elem item)) ((), item)
      [s!"{textOf (rawStr item)}\n"] :=
    (prints_pure item).bind ((prints_printf _).bind (prints_pure _))
  have loop := Prints.forLst (h hv) _ fun item _ => pass item
  rw [← List.map_eq_flatMap] at loop
  apply (prints_printf _).bind
  refine .congr ?_ (List.append_nil _)
  apply loop.bind
  exact prints_pure _

theorem dumpPatternBody_prints {p : Pattern} (h : p.elems ≠ []) :
    Prints (ι := ι) (dumpPatternBody () (.elem p)) ((), p) (dumpedPattern p) := by
  have pass (pe : PatElem) : Prints (ι := ι) (dumpElemBody () (.elem pe)) ((), pe)
      [s!"{textOf (rawStr pe.str)} "] :=
    (prints_pure pe).bind ((prints_printf _).bind (prints_pure _))
  have loop := Prints.forLst h _ fun pe _ => pass pe
  rw [← List.map_eq_flatMap] at loop
  exact (prints_printf _).bind ((prints_pure p).bind (loop.bind ((prints_printf _).bind (prints_pure _))))

theorem dumpRules_prints {state : Pstate} (h : state.verbo > 3 → WalkableRules state.rules) :
    Prints (dumpRules state : Prog Halt (World ι) Unit) () (dumpedRules state) := by
  apply Prints.ite
  intro hv
  obtain ⟨hne, hrules⟩ := h hv
  have loop : Prints (ι := ι) (forLst state.rules () dumpRuleBody) ((), state.rules)
      (state.rules.flatMap dumpedRule) := by
    apply Prints.forLst hne
    intro r hr
    obtain ⟨hne, hpatterns⟩ := hrules r hr
    have patterns : Prints (ι := ι) (forLst r.patterns () dumpPatternBody) ((), r.patterns)
        (r.patterns.flatMap dumpedPattern) :=
      .forLst hne _ fun p hp => dumpPatternBody_prints (hpatterns p hp).1
    exact (prints_pure r).bind ((prints_printf _).bind (patterns.bind
      ((prints_printf _).bind (prints_pure _))))
  apply (prints_printf _).bind
  refine .congr ?_ (List.append_nil _)
  apply loop.bind
  exact prints_pure _

theorem dumpState_prints {state : Pstate} (h : state.verbo > 0 →
      (state.verbo > 3 → WalkableRules state.rules) ∧
      (state.verbo > 5 → state.terminals ≠ [] ∧ state.nonTerminals ≠ [] ∧ state.code ≠ [])) :
    Prints (dumpState state : Prog Halt (World ι) Unit) () (dumpedState state) := by
  apply Prints.ite
  intro hv
  obtain ⟨hrules, hlists⟩ := h hv
  refine (prints_printf _).bind ((prints_printf _).bind ((prints_printf _).bind
    ((prints_printf _).bind ((prints_printf _).bind ?_))))
  exact (dumpRules_prints hrules).bind ((dumpStrLst_prints _ fun h => (hlists h).1).bind
    ((dumpStrLst_prints _ fun h => (hlists h).2.1).bind
    ((dumpStrLst_prints _ fun h => (hlists h).2.2).bind
    ((prints_printf _).bind (prints_printf _)))))

end

/-! ### The messages of `pre_process` -/

/-- The names that have occurred before; the names `before` have occurred already. -/
def repeated : List STR → List STR → List STR
  | _, [] => []
  | before, s :: ss => (if before.contains s then [s] else []) ++ repeated (before ++ [s]) ss

def duplicateLine (s : STR) : Diag := ⟨.syntaxError, "duplicate rule: %s", [textOf (rawStr s)]⟩

theorem repeated_concat (before names : List STR) (s : STR) :
    repeated before (names ++ [s]) =
      repeated before names ++ if s ∈ before ++ names then [s] else [] := by
  induction names generalizing before with
  | nil => simp [repeated]
  | cons t names ih => simp [repeated, ih]

theorem repeated_eq_nil_iff {before names : List STR} :
    repeated before names = [] ↔ names.Nodup ∧ ∀ s ∈ names, s ∉ before := by
  induction names generalizing before with
  | nil => simp [repeated]
  | cons s names ih =>
    by_cases hs : s ∈ before
    · simp [repeated, hs]
    · have hcons : repeated before (s :: names) = repeated (before ++ [s]) names := by
        simp [repeated, hs]
      simp only [hcons, ih, List.nodup_cons, List.forall_mem_cons, List.mem_append,
        List.mem_singleton, not_or]
      constructor
      · intro h
        obtain ⟨hd, hall⟩ := h
        exact ⟨⟨fun hmem => (hall s hmem).2 rfl, hd⟩, hs, fun t ht => (hall t ht).1⟩
      · intro h
        obtain ⟨⟨hmem, hd⟩, -, hall⟩ := h
        exact ⟨hd, fun t ht => ⟨hall t ht, fun he => hmem (he ▸ ht)⟩⟩

section

variable {ι : Type} {w : World ι}

/-- `make_non_terms` reports the rules whose names have occurred before, in their order. -/
theorem makeNonTerms_messages {state : Pstate} (h : state.Fresh) :
    (makeNonTerms state).wp
      (fun _ v => v.stderr = w.stderr ++ (repeated [] (ruleNames state)).map duplicateLine)
      (fun e _ => e = .fault ∧ ¬ Walkable (fun _ => True) state.rules) False w := by
  unfold makeNonTerms
  simp only [Prog.wp_bind]
  refine (wp_forLst (fun _ => True)
    (fun before s _ v => (∀ r ∈ before, IsText r.name) ∧
      s.nonTerminals = (before.map Rule.name).eraseDups ∧
      v.stderr = w.stderr ++ (repeated [] (before.map Rule.name)).map duplicateLine) ?_ ?_ ?_).imp ?_
  · intro s v
    simp [nonTermsBody, Ptr.deref]
  · intro before s out v r hr hloop
    obtain ⟨htexts, hnames, hstderr⟩ := hloop
    have hr' := (h.rules r hr).name
    have hin : strInLst s.nonTerminals (rawStr r.name) = true ↔ r.name ∈ before.map Rule.name := by
      rw [hnames, strInLst_iff ?_ hr']
      · exact List.mem_eraseDups
      · intro t ht
        obtain ⟨q, hq, rfl⟩ := List.mem_map.mp (List.mem_eraseDups.mp ht)
        exact htexts q hq
    have htexts' : ∀ q ∈ before ++ [r], IsText q.name :=
      List.forall_mem_append.mpr ⟨htexts, by simpa using hr'⟩
    unfold nonTermsBody
    simp only [Ptr.deref, Prog.wp_bind, Prog.wp_pure, List.map_append, List.map_cons, List.map_nil,
      repeated_concat, List.nil_append]
    by_cases hmem : r.name ∈ before.map Rule.name
    · rw [if_neg (by simp [hin.mpr hmem]), if_pos hmem, eraseDups_concat_of_mem hmem, Prog.wp_bind]
      refine Prog.wp_modify.mpr (Prog.wp_pure.mpr ⟨trivial, htexts', hnames, ?_⟩)
      simp [hstderr, duplicateLine]
    · rw [if_pos (by simp [mt hin.mp hmem]), if_neg hmem, eraseDups_concat_of_notMem hmem]
      refine Prog.wp_pure.mpr ⟨trivial, htexts', by simp [hnames], ?_⟩
      simpa using hstderr
  · exact ⟨by simp, by simp [h.nonTerminals], by simp [repeated]⟩
  · intro l v hpost
    obtain ⟨s, rules⟩ := l
    exact Prog.wp_pure.mpr hpost.2.2.2

theorem makeTerms_silent (state : Pstate) :
    Moves (makeTerms state) (fun w v : World ι => v = w) fun _ _ _ => True := by
  have g : Guarantee (fun w v : World ι => v = w) fun (_ : Halt) _ _ => True :=
    ⟨fun _ => rfl, fun h h' => h'.trans h, fun _ _ => trivial⟩
  have deref {α : Type} (p : Ptr α) : Moves p.deref (fun w v : World ι => v = w) fun _ _ _ => True :=
    deref_moves (fun _ => trivial) g p
  have elem (s : Pstate) (pe : Ptr PatElem) :
      Moves (termsElemBody s pe) (fun w v : World ι => v = w) fun _ _ _ => True :=
    g.bind (deref pe) fun _ => .ite (g.pure _) (g.pure _)
  have pattern (s : Pstate) (p : Ptr Pattern) :
      Moves (termsPatternBody s p) (fun w v : World ι => v = w) fun _ _ _ => True :=
    g.bind (deref p) fun _ => g.bind (forLst_moves g elem _ _) fun _ => g.pure _
  have rule (s : Pstate) (r : Ptr Rule) :
      Moves (termsRuleBody s r) (fun w v : World ι => v = w) fun _ _ _ => True :=
    g.bind (deref r) fun _ => g.bind (forLst_moves g pattern _ _) fun _ => g.pure _
  exact g.bind (forLst_moves g rule _ _) fun _ => g.pure _

theorem preProcess_messages {state : Pstate} (h : state.Fresh) :
    (preProcess state).wp
      (fun _ v => v.stderr = w.stderr ++ (repeated [] (ruleNames state)).map duplicateLine)
      (fun _ _ => True) True w := by
  unfold preProcess
  rw [Prog.wp_bind]
  refine (makeNonTerms_messages h).mono ?_ (fun _ _ _ => trivial) fun _ => trivial
  intro s v hv
  refine (makeTerms_silent s v).mono ?_ (fun _ _ _ => trivial) id
  intro s' u hu
  rw [hu]
  exact hv

end

/-! ### The whole output -/

/-- The state that is dumped when `state` has been parsed. -/
def Pstate.listed (state : Pstate) : Pstate :=
  { state with
    terminals := firstTerms (ruleNames state) (elemNames state)
    nonTerminals := ruleNames state }

/-- What `main` prints when it has parsed `state` without an error. -/
def mainText (state : Pstate) : List String :=
  (if repeated [] (ruleNames state) = [] then dumpedState state.listed else []) ++
    [s!"errors: {(repeated [] (ruleNames state)).length}\n"]

theorem dumpedRule_reset (r : Rule) : dumpedRule r.reset = dumpedRule r := by
  have hpattern (p : Pattern) : dumpedPattern p.reset = dumpedPattern p := by
    simp [dumpedPattern, Pattern.reset, PatElem.reset, Function.comp_def]
  simp only [dumpedRule, Rule.reset, List.flatMap_map, hpattern]
  rfl

/-- The flags do not show in the dump. -/
theorem PreProcessed.dumped {ι : Type} {state s : Pstate} {w v : World ι}
    (h : PreProcessed state w s v) (hd : (ruleNames state).Nodup) :
    dumpedState s = dumpedState state.listed := by
  have hnames : s.nonTerminals = ruleNames state := by rw [h.nonTerminals, eraseDups_of_nodup hd]
  let lists (q : Pstate) : Pstate :=
    { q with terminals := s.terminals, nonTerminals := s.nonTerminals }
  have hlisted : state.listed = { s with rules := s.rules.map Rule.reset } := by
    calc state.listed = lists state := by rw [Pstate.listed, ← h.terminals, ← hnames]
      _ = { s with rules := s.rules.map Rule.reset } := congrArg lists h.same.symm
  rw [hlisted]
  simp only [dumpedState, dumpedRules, List.length_map, List.flatMap_map, dumpedRule_reset]

theorem dumpState_wp {ι : Type} (state : Pstate) (w : World ι) {c : Prop}
    (hc : (state.verbo > 0 → (state.verbo > 3 → WalkableRules state.rules) ∧
      (state.verbo > 5 → state.terminals ≠ [] ∧ state.nonTerminals ≠ [] ∧ state.code ≠ [])) ↔ c) :
    (dumpState state).wp (fun _ v => c ∧ v = { w with stdout := w.stdout ++ dumpedState state })
      (fun e _ => e = .fault ∧ ¬ c) False w := by
  by_cases hd : c
  · exact (Prog.wp_of_runs_ok (dumpState_prints (hc.mpr hd) w)).mpr ⟨hd, rfl⟩
  · refine ((dumpState_completes state).iff hc w).mono ?_ (fun _ _ h => h) id
    exact fun _ _ h => absurd h hd

theorem finishMain_prints {ι : Type} {state : Pstate} {w : World ι} (h : state.Fresh)
    (h0 : w.errors = 0) :
    (finishMain state).wp
      (fun r v => r = 0 ∧ Dumpable state ∧
        v.stderr = w.stderr ++ (repeated [] (ruleNames state)).map duplicateLine ∧
        v.stdout = w.stdout ++ mainText state)
      (fun e _ => e = .fault ∧ ¬ Dumpable state) False w := by
  unfold finishMain
  simp only [getErrors, Prog.wp_bind, Prog.wp_gets]
  rw [if_pos h0, Prog.wp_bind]
  refine (((preProcess_wp h).and (preProcess_messages h)).and (preProcess_moves state w)).mono ?_ ?_
    fun hf => hf.1.1
  · intro s v hpost
    obtain ⟨⟨⟨hw, hpre⟩, hstderr⟩, lines, -, hlines, herr, hout⟩ := hpost
    rw [hstderr, List.append_cancel_left_eq] at hlines
    rw [h0, ← hlines, List.length_map, Nat.zero_add] at herr
    simp only [Prog.wp_gets, Prog.wp_bind]
    by_cases hnone : repeated [] (ruleNames state) = []
    · obtain ⟨hd, -⟩ := repeated_eq_nil_iff.mp hnone
      have hcond : _ ↔ Dumpable state := (hpre.dumpable_iff hw).trans
        ⟨fun hl => ⟨hw, fun _ => hl⟩, fun hdump => hdump.lists hd⟩
      have hv : v.errors = 0 := by rw [herr, hnone]; rfl
      rw [if_pos hv, Prog.wp_bind]
      apply (dumpState_wp s v hcond).imp
      intro _ u hu
      obtain ⟨hdump, rfl⟩ := hu
      simp only [Prog.wp_gets, Prog.wp_bind, printf, Prog.wp_modify, Prog.wp_pure]
      refine ⟨trivial, hdump, hstderr, ?_⟩
      rw [mainText, if_pos hnone, hpre.dumped hd, hout, herr, List.append_assoc]
    · have hv : v.errors ≠ 0 := by rw [herr]; exact fun hl => hnone (List.length_eq_zero_iff.mp hl)
      rw [if_neg hv]
      simp only [Prog.wp_gets, Prog.wp_bind, printf, Prog.wp_modify, Prog.wp_pure]
      refine ⟨trivial, ⟨hw, fun hd => absurd ?_ hnone⟩, hstderr, ?_⟩
      · exact repeated_eq_nil_iff.mpr ⟨hd, by simp⟩
      · rw [mainText, if_neg hnone, hout, herr]
        rfl
  · intro e v hpost
    obtain ⟨⟨⟨he, hn⟩, -⟩, -⟩ := hpost
    exact ⟨he, fun hdump => hn hdump.rules⟩

/-- On a file in which a grammar is written `main` reports the rules that are defined again, and
prints the dump and the number of errors, however the grammar is laid out. It breaks off only at a
list of the grammar that is empty. -/
theorem main_output (fname : Bytes) {bytes : Bytes} {ts : List Tok} {items : List Item}
    (hw : Written bytes ts) (hf : IsFile ts items) :
    (main (fileSource fname (.ok bytes))).wp
      (fun r w => r = 0 ∧ Dumpable (stateOf items) ∧
        w.stderr = (repeated [] (ruleNames (stateOf items))).map duplicateLine ∧
        w.stdout = mainText (stateOf items))
      (fun e _ => e = .fault ∧ ¬ Dumpable (stateOf items)) False (World.boot []) := by
  obtain ⟨state, w, hr, hiff, hstate⟩ := parseInput_file fname (lexes_iff_written.mpr hw)
  have h0 := hiff.mpr ⟨items, hf⟩
  have hparse : Moves (parseInput (fileSource fname (.ok bytes))) World.Logs Exits :=
    parseInput_moves (openInputFile_moves fname (.ok bytes)) consumeToken_moves
  obtain ⟨lines, -, hstderr, herr, hout⟩ := (hparse (World.boot [])).1 state w hr
  have hnone : lines = [] := by
    rw [h0] at herr
    exact List.length_eq_zero_iff.mp (by simpa [World.boot] using herr.symm)
  rw [← hstate items hf]
  unfold main
  rw [Prog.wp_bind, Prog.wp_of_runs_ok hr]
  apply (finishMain_prints (parseInput_fresh hr).1 h0).imp
  intro r v hpost
  rw [hstderr, hnone, hout] at hpost
  exact hpost

/-- The file `a:x{}`. -/
theorem main_output_rule :
    ∃ w, (main (fileSource [102] (.ok [97, 58, 120, 123, 125]))).Runs (World.boot []) (.ok 0 w) ∧
      w.stderr = [] ∧ w.stdout = mainText (stateOf [.rule [97] [⟨[⟨[120], false⟩], some []⟩]]) := by
  have ha : Tok.Writable ⟨.SYMBOL, [97]⟩ := ⟨97, [], rfl, rfl, by simp⟩
  have hx : Tok.Writable ⟨.SYMBOL, [120]⟩ := ⟨120, [], rfl, rfl, by simp⟩
  have hcolon : Tok.Writable ⟨.COLON, []⟩ := rfl
  have hblock : Tok.Writable ⟨.BLOCK, []⟩ := rfl
  have hpattern : Written [120, 123, 125] [⟨.SYMBOL, [120]⟩, ⟨.BLOCK, []⟩] :=
    .cons [] hx (show isSymbol1 (chr 123) = false from rfl) (.cons [] hblock trivial (.done [] (.inl rfl)))
  have hwritten : Written [97, 58, 120, 123, 125] [⟨.SYMBOL, [97]⟩, ⟨.COLON, []⟩, ⟨.SYMBOL, [120]⟩,
      ⟨.BLOCK, []⟩] :=
    .cons [] ha (show isSymbol1 (chr 58) = false from rfl) (.cons [] hcolon trivial hpattern)
  have hitem := IsItem.rule ⟨.SYMBOL, [97]⟩ _ _ rfl (by simp)
    (.cons (.mk ⟨.COLON, []⟩ [⟨.SYMBOL, [120]⟩] ⟨.BLOCK, []⟩ rfl (by simp) rfl) .nil)
  have hdumpable : Dumpable (stateOf [.rule [97] [⟨[⟨[120], false⟩], some []⟩]]) :=
    ⟨⟨by decide, by simp [Walkable, stateOf, Item.rule?]⟩, fun _ h => absurd h (by decide)⟩
  obtain ⟨r, w, hr, rfl, -, hstderr, hout⟩ :=
    (main_output [102] hwritten (.cons hitem .nil)).returns_of_not_stop fun _ _ he => he.2 hdumpable
  exact ⟨w, hr, hstderr, hout⟩

end Rdpgen
