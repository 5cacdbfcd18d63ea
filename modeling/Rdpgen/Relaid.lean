import Rdpgen.FileGrammar
import Rdpgen.Messages

namespace Rdpgen

open Prog (Agree Moves agree_act agree_pure agree_gets agree_modify agree_stop agree_ite)

/-- The same messages, counted alike, and the same output. -/
structure World.SameLogs {ι κ : Type} (w : World ι) (v : World κ) : Prop where
  errors : w.errors = v.errors
  stderr : w.stderr = v.stderr
  stdout : w.stdout = v.stdout

/-- Nothing differs but what has been read already: the names of the files and the places in them. -/
structure World.Like (w v : World FileStack) : Prop extends w.SameLogs v where
  clean : w.input.Clean ∧ v.input.Clean
  unread : w.input.unread = v.input.unread
  tok : w.tok = v.tok

/-- From related worlds the program ends alike in both, with the same result, or in neither. -/
def Blind {α : Type} (R : World FileStack → World FileStack → Prop) (p : Scan α) : Prop :=
  ∀ w v, R w v → Agree p p (fun a w' b v' => a = b ∧ R w' v')
    (fun e w' d v' => e = d ∧ w'.SameLogs v') w v

section

variable {α β : Type} {R : World FileStack → World FileStack → Prop} {p q : Scan α} {f : α → Scan β}

theorem blind_pure (a : α) : Blind R (pure a : Scan α) := fun _ _ h => agree_pure ⟨rfl, h⟩

theorem blind_gets {g : World FileStack → α} (h : ∀ w v : World FileStack, R w v → g w = g v) :
    Blind R (Prog.gets g) :=
  fun w v hw => agree_gets ⟨h w v hw, hw⟩

theorem blind_modify {g : World FileStack → World FileStack}
    (h : ∀ w v : World FileStack, R w v → R (g w) (g v)) : Blind R (Prog.modify g) :=
  fun w v hw => agree_modify ⟨rfl, h w v hw⟩

theorem Blind.bind (hp : Blind R p) (hf : ∀ a, Blind R (f a)) : Blind R (p >>= f) := by
  intro w v h
  apply (hp w v h).bind
  intro a w' b v' hab
  obtain ⟨rfl, h'⟩ := hab
  exact hf a w' v' h'

theorem Blind.ite {c : Prop} [Decidable c] (hp : Blind R p) (hq : Blind R q) :
    Blind R (if c then p else q) := by
  split
  · exact hp
  · exact hq

theorem Blind.whileDo {cond : β → World FileStack → Bool} {body : β → Scan β}
    (test : ∀ b (w v : World FileStack), R w v → cond b w = cond b v) (hbody : ∀ b, Blind R (body b))
    (b : β) : Blind R (Prog.whileDo cond body b) := by
  intro w v h
  apply Agree.whileDo ?_ ?_ ⟨rfl, h⟩
  · intro a w b v hab
    obtain ⟨rfl, h⟩ := hab
    exact test a w v h
  · intro a w b v hab _
    obtain ⟨rfl, h⟩ := hab
    exact hbody a w v h

end

/-! ### The scanner -/

theorem getChar_blind : Blind World.Like getChar := by
  apply blind_gets
  intro w v h
  rw [FileStack.getChar_of_clean h.clean.1, FileStack.getChar_of_clean h.clean.2, h.unread]

theorem consumeChar_blind : Blind World.Like consumeChar := by
  intro w v h
  have hw := FileStack.clean_consumeChar h.clean.1
  have hv := FileStack.clean_consumeChar h.clean.2
  have hu : w.input.consumeChar.2.unread = v.input.consumeChar.2.unread := by
    rw [FileStack.unread_consumeChar h.clean.1, FileStack.unread_consumeChar h.clean.2, h.unread]
  apply agree_act
  refine ⟨?_, ⟨h.errors, h.stderr, h.stdout⟩, ⟨hw, hv⟩, hu, h.tok⟩
  rw [FileStack.consumeChar_answer, FileStack.consumeChar_answer, FileStack.getChar_of_clean hw,
    FileStack.getChar_of_clean hv, hu]

theorem tok_blind (g : Tok → Tok) : Blind World.Like (Prog.modify fun w => { w with tok := g w.tok }) :=
  blind_modify fun w v h => ⟨⟨h.errors, h.stderr, h.stdout⟩, h.clean, h.unread, by rw [h.tok]⟩

theorem checkInt_blind (n : Int) : Blind World.Like (checkInt n) :=
  .ite (blind_pure n) fun _ _ h => agree_stop ⟨rfl, h.toSameLogs⟩

theorem catTok_blind (ch : Int) : Blind World.Like (catTok ch) :=
  tok_blind fun tok => { tok with str := catStrChar tok.str ch }

theorem setType_blind (type : TokenType) : Blind World.Like (setType type) :=
  tok_blind fun tok => { tok with type := type }

theorem report_blind (line : Diag) : Blind World.Like (report line) :=
  blind_modify fun w v h =>
    ⟨⟨by rw [h.errors], by rw [h.stderr], h.stdout⟩, h.clean, h.unread, h.tok⟩

theorem syntaxError_blind (fmt : String) (args : List String) : Blind World.Like (syntaxError fmt args) :=
  report_blind _

theorem fatal_blind {α : Type} (fmt : String) (args : List String) : Blind World.Like (fatal fmt args : Scan α) :=
  (report_blind _).bind fun _ _ _ h => agree_stop ⟨rfl, h.toSameLogs⟩

theorem checkEof_blind (fmt : String) : Blind World.Like (checkEof fmt) :=
  getChar_blind.bind fun _ =>
    .ite ((syntaxError_blind _ _).bind fun _ => fatal_blind _ _) (blind_pure _)

theorem charLoop_blind {cond : Int → Bool} {body : Int → Scan Int} (hbody : ∀ ch, Blind World.Like (body ch))
    (ch : Int) : Blind World.Like (Prog.whileDo (fun ch _ => cond ch) body ch) :=
  .whileDo (fun _ _ _ _ => rfl) hbody ch

theorem consumeSpace_blind : Blind World.Like consumeSpace :=
  getChar_blind.bind fun _ =>
    .bind (charLoop_blind (fun _ => consumeChar_blind) _) fun _ => blind_pure _

theorem consumeComment_blind : Blind World.Like consumeComment :=
  consumeChar_blind.bind fun _ =>
    .bind (charLoop_blind (fun _ => consumeChar_blind) _) fun _ => blind_pure _

theorem directiveBody_blind (ch : Int) : Blind World.Like (directiveBody ch) :=
  (catTok_blind ch).bind fun _ => consumeChar_blind.bind fun _ =>
    (checkEof_blind _).bind fun _ => blind_pure _

theorem getDirective_blind : Blind World.Like getDirective := by
  refine getChar_blind.bind fun _ => (catTok_blind _).bind fun _ => consumeChar_blind.bind fun _ =>
    getChar_blind.bind fun _ => .bind (charLoop_blind directiveBody_blind _) fun _ =>
    .bind (blind_gets ?_) fun _ => (setType_blind _).bind fun _ => ?_
  · intro w v h
    rw [h.tok]
  · exact .ite (syntaxError_blind _ _) (blind_pure _)

theorem stringBody_blind (ch : Int) : Blind World.Like (stringBody ch) :=
  (catTok_blind ch).bind fun _ => consumeChar_blind.bind fun _ =>
    (checkEof_blind _).bind fun _ => blind_pure _

theorem getString_blind : Blind World.Like getString :=
  consumeChar_blind.bind fun _ => getChar_blind.bind fun _ =>
    .bind (charLoop_blind stringBody_blind _) fun _ => consumeChar_blind.bind fun _ => setType_blind _

theorem numberBody_blind (ch : Int) : Blind World.Like (numberBody ch) :=
  (catTok_blind ch).bind fun _ => consumeChar_blind

theorem getNumber_blind : Blind World.Like getNumber :=
  getChar_blind.bind fun _ => (catTok_blind _).bind fun _ => consumeChar_blind.bind fun _ =>
    .bind (charLoop_blind numberBody_blind _) fun _ => setType_blind _

theorem blockBody_blind (count : Int) : Blind World.Like (blockBody count) := by
  have keep (ch n : Int) : Blind World.Like (catTok ch >>= fun _ => pure n) :=
    (catTok_blind ch).bind fun _ => blind_pure n
  have hchar (ch : Int) : Blind World.Like (blockChar count ch) :=
    .ite ((checkInt_blind _).bind fun _ => keep ch _)
      (.ite (.ite (keep ch _) (blind_pure _)) (keep ch _))
  exact getChar_blind.bind fun ch => (hchar ch).bind fun _ => consumeChar_blind.bind fun _ =>
    blind_pure _

theorem getBlock_blind : Blind World.Like getBlock :=
  consumeChar_blind.bind fun _ =>
    .bind (charLoop_blind blockBody_blind _) fun _ => setType_blind _

theorem getSymbol_blind : Blind World.Like getSymbol := by
  refine getChar_blind.bind fun ch => .ite ?_ ?_
  · exact (catTok_blind ch).bind fun _ => consumeChar_blind.bind fun _ =>
      .bind (charLoop_blind (fun ch => (catTok_blind ch).bind fun _ => consumeChar_blind) _)
        fun _ => setType_blind _
  · exact (setType_blind _).bind fun _ => syntaxError_blind _ _

theorem scanSwitch_blind (c : UInt8) : Blind World.Like (scanSwitch c) := by
  have flag (p : Scan Unit) (b : Bool) (hp : Blind World.Like p) : Blind World.Like (p >>= fun _ => pure b) :=
    hp.bind fun _ => blind_pure b
  have colon : Blind World.Like (setType .COLON >>= fun _ => consumeChar >>= fun _ => pure true) :=
    (setType_blind _).bind fun _ => consumeChar_blind.bind fun _ => blind_pure _
  have rest : Blind World.Like (getChar >>= fun ch => if isDigit ch then getNumber >>= fun _ => pure true
      else getSymbol >>= fun _ => pure true) :=
    getChar_blind.bind fun _ => .ite (flag _ _ getNumber_blind) (flag _ _ getSymbol_blind)
  exact .ite (flag _ _ (setType_blind _)) (.ite (flag _ _ consumeComment_blind) (.ite colon
    (.ite (flag _ _ getDirective_blind) (.ite (flag _ _ getString_blind)
      (.ite (flag _ _ getBlock_blind) rest)))))

theorem scanPass_blind (finished : Bool) : Blind World.Like (scanPass finished) :=
  consumeSpace_blind.bind fun _ => getChar_blind.bind fun _ => scanSwitch_blind _

/-! ### The lines of `main` behind `parse_input` -/

section

variable {α β : Type}

theorem getErrors_blind : Blind World.SameLogs getErrors := blind_gets fun _ _ h => h.errors

theorem printf_blind (text : String) : Blind World.SameLogs (printf text) :=
  blind_modify fun _ _ h => ⟨h.errors, h.stderr, by rw [h.stdout]⟩

theorem syntaxError_logs (fmt : String) (args : List String) :
    Blind World.SameLogs (syntaxError fmt args) :=
  blind_modify fun _ _ h => ⟨by rw [h.errors], by rw [h.stderr], h.stdout⟩

theorem deref_blind (p : Ptr α) : Blind World.SameLogs p.deref := by
  cases p with
  | elem a => exact blind_pure a
  | wild => exact fun _ _ h => agree_stop ⟨rfl, h⟩

theorem forPtrs_blind {body : β → Ptr α → Scan (β × α)} (hbody : ∀ b p, Blind World.SameLogs (body b p))
    (ps : List (Ptr α)) (b : β) : Blind World.SameLogs (forPtrs body ps b) := by
  induction ps generalizing b with
  | nil => exact blind_pure _
  | cons p ps ih => exact (hbody b p).bind fun r => (ih r.1).bind fun _ => blind_pure _

theorem forLst_blind {body : β → Ptr α → Scan (β × α)} (hbody : ∀ b p, Blind World.SameLogs (body b p))
    (xs : List α) (b : β) : Blind World.SameLogs (forLst xs b body) :=
  forPtrs_blind hbody _ b

end

theorem nonTermsBody_blind (state : Pstate) (r : Ptr Rule) : Blind World.SameLogs (nonTermsBody state r) :=
  (deref_blind r).bind fun _ => .ite (blind_pure _) ((syntaxError_logs _ _).bind fun _ => blind_pure _)

theorem termsElemBody_blind (state : Pstate) (pe : Ptr PatElem) : Blind World.SameLogs (termsElemBody state pe) :=
  (deref_blind pe).bind fun _ => .ite (blind_pure _) (blind_pure _)

theorem termsPatternBody_blind (state : Pstate) (p : Ptr Pattern) : Blind World.SameLogs (termsPatternBody state p) :=
  (deref_blind p).bind fun _ => (forLst_blind termsElemBody_blind _ _).bind fun _ => blind_pure _

theorem termsRuleBody_blind (state : Pstate) (r : Ptr Rule) : Blind World.SameLogs (termsRuleBody state r) :=
  (deref_blind r).bind fun _ => (forLst_blind termsPatternBody_blind _ _).bind fun _ => blind_pure _

theorem preProcess_blind (state : Pstate) : Blind World.SameLogs (preProcess state) :=
  .bind ((forLst_blind nonTermsBody_blind _ _).bind fun _ => blind_pure _) fun _ =>
    (forLst_blind termsRuleBody_blind _ _).bind fun _ => blind_pure _

theorem dumpStrLst_blind (lst : List STR) (label : String) (verbo : Int) :
    Blind World.SameLogs (dumpStrLst lst label verbo) := by
  have body (b : Unit) (item : Ptr STR) : Blind World.SameLogs (dumpStrBody b item) :=
    (deref_blind item).bind fun _ => (printf_blind _).bind fun _ => blind_pure _
  exact .ite ((printf_blind _).bind fun _ => (forLst_blind body _ _).bind fun _ => blind_pure _)
    (blind_pure _)

theorem dumpPatternBody_blind (b : Unit) (p : Ptr Pattern) : Blind World.SameLogs (dumpPatternBody b p) := by
  have body (b : Unit) (pe : Ptr PatElem) : Blind World.SameLogs (dumpElemBody b pe) :=
    (deref_blind pe).bind fun _ => (printf_blind _).bind fun _ => blind_pure _
  exact (printf_blind _).bind fun _ => (deref_blind p).bind fun _ => (forLst_blind body _ _).bind
    fun _ => (printf_blind _).bind fun _ => blind_pure _

theorem dumpRuleBody_blind (b : Unit) (r : Ptr Rule) : Blind World.SameLogs (dumpRuleBody b r) :=
  (deref_blind r).bind fun _ => (printf_blind _).bind fun _ =>
    (forLst_blind dumpPatternBody_blind _ _).bind fun _ => (printf_blind _).bind fun _ => blind_pure _

theorem dumpState_blind (state : Pstate) : Blind World.SameLogs (dumpState state) := by
  have rules : Blind World.SameLogs (dumpRules state) :=
    .ite ((printf_blind _).bind fun _ => (forLst_blind dumpRuleBody_blind _ _).bind fun _ => blind_pure _)
      (blind_pure _)
  refine .ite ?_ (blind_pure _)
  exact (printf_blind _).bind fun _ => (printf_blind _).bind fun _ => (printf_blind _).bind fun _ =>
    (printf_blind _).bind fun _ => (printf_blind _).bind fun _ => rules.bind fun _ =>
    (dumpStrLst_blind _ _ _).bind fun _ => (dumpStrLst_blind _ _ _).bind fun _ =>
    (dumpStrLst_blind _ _ _).bind fun _ => (printf_blind _).bind fun _ => printf_blind _

theorem finishMain_blind (state : Pstate) : Blind World.SameLogs (finishMain state) := by
  have last : Blind World.SameLogs (getErrors >>= fun errors => printf s!"errors: {errors}\n" >>= fun _ =>
      (pure 0 : Scan Int)) :=
    getErrors_blind.bind fun _ => (printf_blind _).bind fun _ => blind_pure _
  have dump (s : Pstate) : Blind World.SameLogs (getErrors >>= fun errors =>
      if errors = 0 then dumpState s >>= fun _ => getErrors >>= fun errors =>
        printf s!"errors: {errors}\n" >>= fun _ => (pure 0 : Scan Int)
      else getErrors >>= fun errors => printf s!"errors: {errors}\n" >>= fun _ => pure 0) :=
    getErrors_blind.bind fun _ => .ite ((dumpState_blind s).bind fun _ => last) last
  exact getErrors_blind.bind fun _ =>
    .ite ((preProcess_blind state).bind dump) ((blind_pure state).bind dump)

/-! ### Trivia -/

section

variable {w w' : World FileStack} {v : Bytes}

/-- Without an error there is no message. -/
theorem logs_of_errors {α : Type} {p : Scan α} {a : α} (hp : Moves p World.Logs Exits)
    (hr : p.Runs w (.ok a w')) (he : w'.errors = w.errors) : w.SameLogs w' := by
  obtain ⟨lines, -, hstderr, herr, hout⟩ := (hp w).1 a w' hr
  have hnone : lines = [] := by
    rw [← List.length_eq_zero_iff]
    omega
  exact ⟨he.symm, by rw [hstderr, hnone, List.append_nil], hout.symm⟩

/-- The scanner goes on from `w` as from `w'`. -/
def SameScan (w w' : World FileStack) : Prop :=
  ∀ o, (Prog.whileDo (fun finished _ => !finished) scanPass false).Runs w o ↔
    (Prog.whileDo (fun finished _ => !finished) scanPass false).Runs w' o

theorem scanLoop_runs (w : World FileStack) {o : Outcome Halt (World FileStack) Bool} :
    (Prog.whileDo (fun finished _ => !finished) scanPass false).Runs w o ↔
      (scanPass false >>= Prog.whileDo (fun finished _ => !finished) scanPass).Runs w o := by
  rw [Prog.runs_whileDo]
  exact iff_of_eq (if_pos rfl)

theorem consumeSpace_stays {u : Bytes} {tok : Tok} {errs : Nat} (h : w.Shows u tok errs)
    (hpeek : isSpace (peek u) = false) : consumeSpace.Runs w (.ok () w) := by
  have hstays : consumeSpace.wp (fun _ w' => w' = w) (fun _ _ => False) False w := by
    unfold consumeSpace
    rw [Prog.wp_bind]
    refine wp_getChar h ?_
    rw [Prog.wp_bind, Prog.wp_whileDo, hpeek]
    exact Prog.wp_pure.mpr rfl
  obtain ⟨_, w', hrun, hw'⟩ := hstays.returns
  exact hw' ▸ hrun

/-- White space is passed in front of a token, and then there is none. -/
theorem space_runs (hc : w.input.Clean) :
    ∃ v w', skipTrivia false v = skipTrivia false w.input.unread ∧ v.length ≤ w.input.unread.length ∧
      isSpace (peek v) = false ∧ w'.Shows v w.tok w.errors ∧ w.SameLogs w' ∧ SameScan w w' := by
  have hspace : consumeSpace.wp (fun _ w' => ∃ v, skipTrivia false v = skipTrivia false w.input.unread ∧
      v.length ≤ w.input.unread.length ∧ isSpace (peek v) = false ∧ w'.Shows v w.tok w.errors)
      (fun _ _ => False) False w :=
    consumeSpace_wp (World.Shows.self hc) fun v w' h₁ h₂ h₃ h₄ => ⟨v, h₁, h₂, h₃, h₄⟩
  obtain ⟨_, w', hrun, v, hskip, hlen, hpeek, hv⟩ := hspace.returns
  have hpass (o : Outcome Halt (World FileStack) Bool) :
      (scanPass false).Runs w o ↔ (scanPass false).Runs w' o := by
    unfold scanPass
    rw [Prog.runs_bind_of_ok hrun, Prog.runs_bind_of_ok (consumeSpace_stays hv hpeek)]
  refine ⟨v, w', hskip, hlen, hpeek, hv, logs_of_errors consumeSpace_moves hrun hv.errors, ?_⟩
  intro o
  rw [scanLoop_runs, scanLoop_runs]
  simp only [Prog.runs_bind, hpass]

/-- A comment takes one pass of the loop. -/
theorem comment_runs {r : Bytes} {tok : Tok} {errs : Nat} (hw : w.Shows (byte '#' :: r) tok errs)
    (hs : skipTrivia true r ≠ none) :
    ∃ v w', skipTrivia false v = skipTrivia true r ∧ v.length ≤ r.length ∧
      w'.Shows v tok errs ∧ w.SameLogs w' ∧ SameScan w w' := by
  have hpass : (scanPass false).wp (fun finished w' => finished = false ∧
      ∃ v, skipTrivia false v = skipTrivia true r ∧ v.length ≤ r.length ∧ w'.Shows v tok errs)
      (fun _ _ => False) False w := by
    unfold scanPass
    rw [Prog.wp_bind, Prog.wp_of_runs_ok (consumeSpace_stays hw rfl), Prog.wp_bind]
    refine wp_getChar hw ?_
    rw [peek_cons, uchar_chr, scanSwitch, if_neg (by decide), if_pos rfl, Prog.wp_bind]
    refine consumeComment_wp hw hs fun v w' hskip hlen hv => ?_
    exact Prog.wp_pure.mpr ⟨rfl, v, hskip, hlen, hv⟩
  obtain ⟨_, w', hrun, rfl, v, hskip, hlen, hv⟩ := hpass.returns
  refine ⟨v, w', hskip, hlen, hv,
    logs_of_errors (scanPass_moves false) hrun (hv.errors.trans hw.errors.symm), ?_⟩
  intro o
  rw [scanLoop_runs, Prog.runs_bind_of_ok hrun]

/-- In front of a token the scanner comes to its first byte, with nothing else done. -/
theorem trivia_runs (hc : w.input.Clean) (h : skipTrivia false w.input.unread = some v) :
    ∃ w', w'.Shows v w.tok w.errors ∧ w.SameLogs w' ∧ SameScan w w' := by
  induction hn : w.input.unread.length using Nat.strongRecOn generalizing w with
  | ind n ih =>
    obtain ⟨u, w₁, hskip, hlen, hpeek, hu, hlogs, hscan⟩ := space_runs hc
    by_cases hcomment : ∃ r, u = byte '#' :: r
    · obtain ⟨r, rfl⟩ := hcomment
      have hr : skipTrivia true r = some v := by
        rw [← h, ← hskip]
        rfl
      obtain ⟨x, w₂, hskip', hlen', hx, hlogs', hscan'⟩ := comment_runs hu (by simp [hr])
      have hlt : w₂.input.unread.length < n := by
        rw [hx.unread]
        rw [List.length_cons] at hlen
        omega
      obtain ⟨w', hw', hlogs'', hscan''⟩ := ih _ hlt hx.clean
        (by rw [hx.unread, hskip', hr]) rfl
      rw [hx.tok, hx.errors] at hw'
      refine ⟨w', hw', ⟨?_, ?_, ?_⟩, fun o => (hscan o).trans ((hscan' o).trans (hscan'' o))⟩
      · rw [hlogs.errors, hlogs'.errors, hlogs''.errors]
      · rw [hlogs.stderr, hlogs'.stderr, hlogs''.stderr]
      · rw [hlogs.stdout, hlogs'.stdout, hlogs''.stdout]
    · have hself : u = v := by
        rw [skipTrivia_self hpeek fun r hr => hcomment ⟨r, hr⟩, h] at hskip
        exact Option.some.inj hskip
      exact ⟨w₁, hself ▸ hu, hlogs, hscan⟩

end

/-! ### Files that differ in their layout -/

/-- Two files with the same tokens and other trivia between them, up to a common rest. -/
inductive Relaid : Bytes → Bytes → Prop
  | rest (gap gap' : Gap) (u : Bytes) : Relaid (Gap.bytes gap ++ u) (Gap.bytes gap' ++ u)
  | token (gap gap' : Gap) {t : Tok} {u v : Bytes} : t.Writable → t.Apart u → t.Apart v → Relaid u v →
      Relaid (Gap.bytes gap ++ (t.bytes ++ u)) (Gap.bytes gap' ++ (t.bytes ++ v))

structure World.Relaid (w v : World FileStack) : Prop extends w.SameLogs v where
  clean : w.input.Clean ∧ v.input.Clean
  unread : Rdpgen.Relaid w.input.unread v.input.unread
  tok : w.tok = v.tok

theorem World.Like.relaid {w v : World FileStack} (h : w.Like v) : w.Relaid v :=
  ⟨h.toSameLogs, h.clean, by rw [h.unread]; exact .rest [] [] _, h.tok⟩

section

variable {w v : World FileStack}

/-- How the calls on the two files end. -/
def TokensAgree (w v : World FileStack) : Prop :=
  Agree consumeToken consumeToken (fun tk w' tk' v' => tk.Alike tk' ∧ w'.Relaid v')
    (fun e w' d v' => e = d ∧ w'.SameLogs v') w v

/-- The trivia in front of a token do not matter, whatever follows. -/
theorem consumeToken_skips (h : w.SameLogs v) (ht : w.tok = v.tok)
    (hc : w.input.Clean ∧ v.input.Clean)
    (hs : skipTrivia false w.input.unread = skipTrivia false v.input.unread) : TokensAgree w v := by
  cases hu : skipTrivia false w.input.unread with
  | none =>
    have hang {x : World FileStack} (hx : x.input.Clean) (hn : skipTrivia false x.input.unread = none) :
        consumeToken.Diverges x := consumeToken_diverges hx (by simp [lex, hn])
    refine ⟨fun o hr => ?_, fun o hr => ?_⟩
    · exact absurd ⟨o, hr⟩ (Prog.diverges_iff.mp (hang hc.1 hu))
    · exact absurd ⟨o, hr⟩ (Prog.diverges_iff.mp (hang hc.2 (hs ▸ hu)))
  | some u =>
    unfold TokensAgree consumeToken
    apply Agree.bind (Q := fun _ w' _ v' => w'.SameLogs v' ∧ w'.tok = v'.tok ∧
      w'.input = w.input ∧ v'.input = v.input)
    · exact agree_modify ⟨⟨h.errors, h.stderr, h.stdout⟩, by rw [ht], rfl, rfl⟩
    intro _ w₀ _ v₀ hclear
    obtain ⟨h, ht, hw, hv⟩ := hclear
    obtain ⟨w', hw', hlogs, hscan⟩ := trivia_runs (hw ▸ hc.1) (hw ▸ hu)
    obtain ⟨v', hv', hlogs', hscan'⟩ := trivia_runs (hv ▸ hc.2) (hv ▸ hs ▸ hu)
    have hlike : w'.Like v' := by
      refine ⟨⟨?_, ?_, ?_⟩, ⟨hw'.clean, hv'.clean⟩, hw'.unread.trans hv'.unread.symm, ?_⟩
      · exact hlogs.errors.symm.trans (h.errors.trans hlogs'.errors)
      · exact hlogs.stderr.symm.trans (h.stderr.trans hlogs'.stderr)
      · exact hlogs.stdout.symm.trans (h.stdout.trans hlogs'.stdout)
      · rw [hw'.tok, hv'.tok, ht]
    have hpasses : Blind World.Like (Prog.whileDo (fun finished _ => !finished) scanPass false) :=
      .whileDo (fun _ _ _ _ => rfl) scanPass_blind false
    have hloop := hpasses w' v' hlike
    apply (hloop.of_runs_iff hscan hscan').bind
    intro _ x _ y hxy
    obtain ⟨rfl, hxy⟩ := hxy
    exact agree_gets ⟨⟨by rw [hxy.tok], by rw [hxy.tok]⟩, hxy.relaid⟩

theorem consumeToken_relaid (h : w.Relaid v) : TokensAgree w v := by
  obtain ⟨hlogs, hc, hu, ht⟩ := h
  generalize hw : w.input.unread = u at hu
  generalize hv : v.input.unread = u' at hu
  cases hu with
  | rest gap gap' u =>
    refine consumeToken_skips hlogs ht hc ?_
    rw [hw, hv, skipTrivia_gap, skipTrivia_gap]
  | @token gap gap' t u u' hwrite hu hu' hrest =>
    have hne := hwrite.type_ne.1
    have hlex : lex w.input.unread = .token t.type t.str u 0 :=
      (lex_iff hne).mpr ⟨hwrite, hu, gap, hw⟩
    have hlex' : lex v.input.unread = .token t.type t.str u' 0 :=
      (lex_iff hne).mpr ⟨hwrite, hu', gap', hv⟩
    obtain ⟨tk, w', hrun, hw', htype, hstr⟩ := exists_token (World.Shows.self hc.1) hlex
    obtain ⟨tk', v', hrun', hv', htype', hstr'⟩ := exists_token (World.Shows.self hc.2) hlex'
    have hlw := logs_of_errors consumeToken_moves hrun hw'.errors
    have hlv := logs_of_errors consumeToken_moves hrun' hv'.errors
    apply Prog.agree_of_runs hrun hrun'
    refine .ok ⟨⟨htype.trans htype'.symm, hstr.trans hstr'.symm⟩, ⟨?_, ?_, ?_⟩,
      ⟨hw'.clean, hv'.clean⟩, ?_, hw'.tok.trans hv'.tok.symm⟩
    · exact hlw.errors.symm.trans (hlogs.errors.trans hlv.errors)
    · exact hlw.stderr.symm.trans (hlogs.stderr.trans hlv.stderr)
    · exact hlw.stdout.symm.trans (hlogs.stdout.trans hlv.stdout)
    · rw [hw'.unread, hv'.unread]
      exact hrest

end

theorem fileSource_relaid (fname fname' bytes bytes' : Bytes) :
    (fileSource fname (.ok bytes)).Couples (fileSource fname' (.ok bytes')) World.Relaid
      (fun e w d v => e = d ∧ w.SameLogs v) where
  tok _ _ h := h.tok
  errors _ _ h := h.errors
  consume _ _ h := consumeToken_relaid h
  report _ _ line h := ⟨⟨by rw [h.errors], by rw [h.stderr], h.stdout⟩, h.clean, h.unread, h.tok⟩

/-- White space and comments between the tokens make no difference to the program, on no file: it
ends on both with the same messages and the same output, or on neither. -/
theorem main_relaid (fname fname' : Bytes) {bytes bytes' : Bytes} (h : Relaid bytes bytes') :
    Agree (main (fileSource fname (.ok bytes))) (main (fileSource fname' (.ok bytes')))
      (fun r w r' v => r = r' ∧ w.SameLogs v) (fun e w d v => e = d ∧ w.SameLogs v)
      (World.boot []) (World.boot []) := by
  have hw := opened_shows fname bytes
  have hv := opened_shows fname' bytes'
  have hopened : (World.opened fname bytes).Relaid (World.opened fname' bytes') :=
    ⟨⟨rfl, rfl, rfl⟩, ⟨hw.clean, hv.clean⟩, hw.unread.symm ▸ hv.unread.symm ▸ h, rfl⟩
  have hstart : Agree (createParser (fileSource fname (.ok bytes)))
      (createParser (fileSource fname' (.ok bytes'))) (fun s w s' v => s = s' ∧ w.Relaid v)
      (fun e w d v => e = d ∧ w.SameLogs v) (World.boot []) (World.boot []) := by
    unfold createParser
    apply Agree.bind (Q := fun _ w _ v => w = World.opened fname bytes ∧ v = World.opened fname' bytes')
    · exact agree_act ⟨rfl, rfl⟩
    intro _ w _ v hwv
    obtain ⟨rfl, rfl⟩ := hwv
    apply Agree.bind (consumeToken_relaid hopened)
    intro _ w _ v htok
    exact agree_pure ⟨rfl, htok.2⟩
  unfold main
  apply (parseInput_agree (fileSource_relaid fname fname' bytes bytes') hstart).bind
  intro s w s' v hs
  obtain ⟨rfl, hs⟩ := hs
  exact finishMain_blind s w v hs.toSameLogs

/-- The file `a:x`, and its tokens with blanks, a comment and newlines around them: the code block is
missing in both. -/
theorem main_relaid_missing_block :
    ∃ w, (main (fileSource [103] (.ok [32, 97, 32, 58, 35, 10, 120, 10]))).Runs (World.boot [])
        (.ok 0 w) ∧ w.errors = 1 ∧
      w.stderr = [⟨.syntaxError, "expected a code block at the end of the pattern, but got %s",
        ["UNKNOWN"]⟩] := by
  have ha : Tok.Writable ⟨.SYMBOL, [97]⟩ := ⟨97, [], rfl, rfl, by simp⟩
  have hx : Tok.Writable ⟨.SYMBOL, [120]⟩ := ⟨120, [], rfl, rfl, by simp⟩
  have hcolon : Tok.Writable ⟨.COLON, []⟩ := rfl
  have hend : Relaid [] [10] := .rest [] [.space 10 rfl] []
  have hpattern : Relaid [120] [35, 10, 120, 10] :=
    .token [] [.comment [] (by simp)] hx (by rfl) (by rfl) hend
  have hrelaid : Relaid [97, 58, 120] [32, 97, 32, 58, 35, 10, 120, 10] :=
    .token [] [.space 32 rfl] ha (by rfl) (by rfl)
      (.token [] [.space 32 rfl] hcolon trivial trivial hpattern)
  obtain ⟨w, hrun, herr, hmsg⟩ : ∃ w, (main (fileSource [102] (.ok [97, 58, 120]))).Runs (World.boot [])
      (.ok 0 w) ∧ w.errors = 1 ∧ w.stderr = [⟨.syntaxError,
        "expected a code block at the end of the pattern, but got %s", ["UNKNOWN"]⟩] :=
    ⟨_, ⟨9, rfl⟩, rfl, rfl⟩
  obtain ⟨r, v, hrun', rfl, hlogs⟩ := (main_relaid [102] [103] hrelaid).returns hrun
  exact ⟨v, hrun', hlogs.errors.symm.trans herr, hlogs.stderr.symm.trans hmsg⟩

end Rdpgen
