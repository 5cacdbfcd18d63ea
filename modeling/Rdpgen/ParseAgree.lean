import Rdpgen.Parser
import Rdpgen.Simulation

namespace Rdpgen

open Prog (Agree agree_pure agree_gets agree_modify agree_ite)

section

variable {ι κ : Type}

/-- What the parser reads of a token: not its position. -/
structure Token.Alike (tk tk' : Token) : Prop where
  type : tk.type = tk'.type
  str : tk.str = tk'.str

/-- Two token sources in related states hand out the same tokens and count the same errors. -/
structure TokenSource.Couples (src : TokenSource ι) (src' : TokenSource κ)
    (R : World ι → World κ → Prop) (E : Halt → World ι → Halt → World κ → Prop) : Prop where
  tok : ∀ w v, R w v → w.tok = v.tok
  errors : ∀ w v, R w v → w.errors = v.errors
  consume : ∀ w v, R w v → Agree src.consumeToken src'.consumeToken
    (fun tk w' tk' v' => tk.Alike tk' ∧ R w' v') E w v
  report : ∀ w v line, R w v → R { w with stderr := w.stderr ++ [line], errors := w.errors + 1 }
    { v with stderr := v.stderr ++ [line], errors := v.errors + 1 }

variable {src : TokenSource ι} {src' : TokenSource κ} {R : World ι → World κ → Prop}
  {E : Halt → World ι → Halt → World κ → Prop} {w : World ι} {v : World κ}

theorem TokenSource.Couples.syntaxError (hc : src.Couples src' R E) (h : R w v) (fmt : String)
    (args : List String) :
    Agree (syntaxError fmt args) (syntaxError fmt args) (fun _ w' _ v' => R w' v') E w v :=
  agree_modify (hc.report w v _ h)

theorem TokenSource.Couples.getToken (hc : src.Couples src' R E) (h : R w v) {tok tok' : Token} :
    Agree (getToken tok) (getToken tok') (fun tk w' tk' v' => tk.Alike tk' ∧ R w' v') E w v := by
  apply agree_gets
  exact ⟨⟨by rw [hc.tok w v h], by rw [hc.tok w v h]⟩, h⟩

theorem parsePattern_agree (hc : src.Couples src' R E) (h : R w v) :
    Agree (parsePattern src) (parsePattern src') (fun p w' p' v' => p = p' ∧ R w' v') E w v := by
  unfold parsePattern
  apply (hc.consume w v h).bind
  intro tk w tk' v hv
  apply Agree.bind (Q := fun l w' l' v' => (l.1.Alike l'.1 ∧ l.2 = l'.2) ∧ R w' v')
  · apply Agree.whileDo ?_ ?_ ⟨⟨hv.1, rfl⟩, hv.2⟩
    · intro l w l' v hl
      rw [hl.1.1.type]
    · intro l w l' v hl _
      obtain ⟨⟨htok, helems⟩, hR⟩ := hl
      unfold patternBody
      apply (hc.consume w v hR).bind
      intro tk w tk' v hv
      apply agree_pure
      rw [helems, htok.str]
      exact ⟨⟨hv.1, rfl⟩, hv.2⟩
  · intro l w l' v hl
    obtain ⟨tok, elems⟩ := l
    obtain ⟨tok', elems'⟩ := l'
    obtain ⟨⟨-, rfl⟩, hR⟩ := hl
    apply (hc.getToken hR).bind
    intro tk w tk' v hv
    obtain ⟨htok, hR⟩ := hv
    apply agree_ite (by rw [htok.type])
    · intro _
      apply agree_pure
      rw [htok.str]
      exact ⟨rfl, hR⟩
    · intro _
      rw [htok.type]
      apply (hc.syntaxError hR _ _).bind
      intro _ w _ v hR
      exact agree_pure ⟨rfl, hR⟩

theorem parseRule_agree (hc : src.Couples src' R E) (h : R w v) (state : Pstate) :
    Agree (parseRule src state) (parseRule src' state) (fun s w' s' v' => s = s' ∧ R w' v') E w v := by
  unfold parseRule
  apply (hc.getToken h).bind
  intro name w name' v hname
  obtain ⟨hname, hR⟩ := hname
  rw [hname.str]
  apply (hc.consume w v hR).bind
  intro tk w tk' v hv
  apply Agree.bind (Q := fun l w' l' v' => (l.1.Alike l'.1 ∧ l.2 = l'.2) ∧ R w' v')
  · apply Agree.whileDo ?_ ?_ ⟨⟨hv.1, rfl⟩, hv.2⟩
    · intro l w l' v hl
      rw [hl.1.1.type]
    · intro l w l' v hl _
      obtain ⟨⟨-, hpatterns⟩, hR⟩ := hl
      unfold ruleBody
      apply (parsePattern_agree hc hR).bind
      intro p w p' v hp
      obtain ⟨rfl, hR⟩ := hp
      apply (hc.consume w v hR).bind
      intro tk w tk' v hv
      apply agree_pure
      rw [hpatterns]
      exact ⟨⟨hv.1, rfl⟩, hv.2⟩
  · intro l w l' v hl
    obtain ⟨tok, patterns⟩ := l
    obtain ⟨tok', patterns'⟩ := l'
    obtain ⟨⟨-, hpatterns⟩, hR⟩ := hl
    simp only at hpatterns
    subst hpatterns
    apply agree_ite Iff.rfl
    · intro _
      apply Agree.bind (Q := fun type w' type' v' => type = type' ∧ R w' v')
      · exact agree_gets ⟨by rw [hc.tok w v hR], hR⟩
      · intro type w type' v ht
        obtain ⟨rfl, hR⟩ := ht
        apply (hc.syntaxError hR _ _).bind
        intro _ w _ v hR
        exact agree_pure ⟨rfl, hR⟩
    · intro _
      exact agree_pure ⟨rfl, hR⟩

theorem parseDirective_agree (hc : src.Couples src' R E) (h : R w v) (want : TokenType)
    (fmt : String) (store : STR → Pstate → Pstate) (state : Pstate) :
    Agree (parseDirective src want fmt store state) (parseDirective src' want fmt store state)
      (fun s w' s' v' => s = s' ∧ R w' v') E w v := by
  have last {s : Pstate} {w : World ι} {v : World κ} (hR : R w v) :
      Agree (do let _ ← src.consumeToken; pure s) (do let _ ← src'.consumeToken; pure s)
        (fun s w' s' v' => s = s' ∧ R w' v') E w v := by
    apply (hc.consume w v hR).bind
    intro _ w _ v hv
    exact agree_pure ⟨rfl, hv.2⟩
  unfold parseDirective
  apply (hc.consume w v h).bind
  intro tk w tk' v hv
  obtain ⟨htok, hR⟩ := hv
  apply agree_ite (by rw [htok.type])
  · intro _
    apply (hc.getToken hR).bind
    intro tk w tk' v hv
    obtain ⟨htok, hR⟩ := hv
    rw [htok.str]
    exact last hR
  · intro _
    rw [htok.type]
    apply (hc.syntaxError hR _ _).bind
    intro _ w _ v hR
    exact last hR

theorem parseSwitch_agree (hc : src.Couples src' R E) (h : R w v) (type : TokenType)
    (state : Pstate) :
    Agree (parseSwitch src type state) (parseSwitch src' type state)
      (fun l w' l' v' => l = l' ∧ R w' v') E w v := by
  have more {p : Prog Halt (World ι) Pstate} {q : Prog Halt (World κ) Pstate}
      (hpq : Agree p q (fun s w' s' v' => s = s' ∧ R w' v') E w v) :
      Agree (do let s ← p; pure (s, false)) (do let s ← q; pure (s, false))
        (fun l w' l' v' => l = l' ∧ R w' v') E w v := by
    apply hpq.bind
    intro s w s' v hs
    obtain ⟨rfl, hR⟩ := hs
    exact agree_pure ⟨rfl, hR⟩
  cases type
  case SYMBOL => exact more (parseRule_agree hc h state)
  case VERBOSITY | NAME | PREFIX | CODE => exact more (parseDirective_agree hc h _ _ _ state)
  case END_OF_INPUT => exact agree_pure ⟨rfl, h⟩
  all_goals
    apply (hc.syntaxError h _ _).bind
    intro _ w _ v hR
    exact agree_pure ⟨rfl, hR⟩

/-- The parser sees no more of its source than the types and the texts of the tokens. -/
theorem parseInput_agree (hc : src.Couples src' R E)
    (start : Agree (createParser src) (createParser src') (fun s w' s' v' => s = s' ∧ R w' v') E w v) :
    Agree (parseInput src) (parseInput src') (fun s w' s' v' => s = s' ∧ R w' v') E w v := by
  unfold parseInput
  apply start.bind
  intro s w s' v hs
  obtain ⟨rfl, hR⟩ := hs
  apply Agree.bind (Q := fun l w' l' v' => l = l' ∧ R w' v')
  · apply Agree.whileDo ?_ ?_ ⟨rfl, hR⟩
    · intro l w l' v hl
      rw [hl.1, hc.errors w v hl.2]
    · intro l w l' v hl _
      obtain ⟨rfl, hR⟩ := hl
      unfold parsePass
      apply Agree.bind (Q := fun type w' type' v' => type = type' ∧ R w' v')
      · exact agree_gets ⟨by rw [hc.tok w v hR], hR⟩
      · intro type w type' v ht
        obtain ⟨rfl, hR⟩ := ht
        exact parseSwitch_agree hc hR type l.1
  · intro l w l' v hl
    obtain ⟨s, finished⟩ := l
    obtain ⟨rfl, hR⟩ := hl
    exact agree_pure ⟨rfl, hR⟩

end

end Rdpgen
