import Rdpgen.HeapSteps

namespace Rdpgen.OnHeap

variable {ι α β : Type} {malloc : Malloc ι} {src : TokenSource ι} {st st₀ st' : State ι}
  {G G₀ G' : Known}

structure TokenAt (G : Known) (tok : Token) (tok' : Rdpgen.Token) : Prop where
  type : tok.type = tok'.type
  str : G.StrAt tok.str tok'.str

theorem getToken_realizes (hm : malloc.Honest) (hs : Sound st G) (tok' : Rdpgen.Token) :
    Realizes malloc st (getToken malloc) (Rdpgen.getToken tok') fun tok st' tok' =>
      ∃ G', Grows st G st' G' ∧ TokenAt G' tok tok' := by
  apply realizes_gets
  unfold getToken
  rw [Prog.wp_bind, Prog.wp_gets, Prog.wp_bind]
  refine (createStr_wp hm hs _).imp ?_
  intro p st' hpost
  obtain ⟨hw, G', hg, b, hb, ht⟩ := hpost
  rw [Prog.wp_pure]
  refine ⟨hw, G', hg, rfl, b, hb, ?_⟩
  rw [ht, Rdpgen.rawStr, Rdpgen.rawStr, Rdpgen.copyStr, cString_cString]

theorem consumeToken_realizes (hm : malloc.Honest) (hs : Sound st G) :
    Realizes malloc st (consumeToken malloc src) src.consumeToken fun tok st' tok' =>
      ∃ G', Grows st G st' G' ∧ TokenAt G' tok tok' := by
  refine (realizes_inWorld _).behind ?_
  intro tok st' _ hpost
  obtain ⟨rfl, w, rfl⟩ := hpost
  rw [Prog.wp_bind]
  refine (createStr_wp hm (hs.setWorld w) _).imp ?_
  intro p st' hpost
  obtain ⟨hw, G', hg, b, hb, ht⟩ := hpost
  rw [Prog.wp_pure]
  exact ⟨hw, G', (hs.grows.setWorld w).trans hg, rfl, b, hb, ht⟩

theorem consumeType_realizes :
    Realizes malloc st (consumeType src) src.consumeToken fun type st' tok' =>
      type = tok'.type ∧ ∃ w, st' = setWorld w st := by
  refine (realizes_inWorld _).behind ?_
  intro tok st' _ hpost
  obtain ⟨rfl, w, rfl⟩ := hpost
  exact Prog.wp_pure.mpr ⟨rfl, rfl, w, rfl⟩

/-! ### Patterns and rules -/

/-- A loop that fills a new list, with the token it looks at. -/
structure Collects (R : Bytes → α → Prop) (P : Known → α → β → Prop) (st₀ : State ι) (G₀ : Known)
    (lst : Addr) (tok : Token) (st : State ι) (G : Known) (l : Rdpgen.Token × List β) : Prop where
  grows : Grows st₀ G₀ st G
  new : lst ∉ st₀.rest.used
  used : lst ∈ st.rest.used
  opened : G.lists lst = none
  list : ListAt R P st G lst l.2
  token : TokenAt G tok l.1

theorem NewList.nil {R : Bytes → α → Prop} {P : Known → α → β → Prop} {lst : Addr}
    (h : NewList st₀ G₀ lst st G) : ListAt R P st G lst [] :=
  ⟨[], by rw [h.empty]; exact Lst.holds_createLst, .nil⟩

section

variable {R : Bytes → α → Prop} {P : Known → α → β → Prop} {lst : Addr} {tok tok₁ : Token}
  {tok₁' : Rdpgen.Token} {l : Rdpgen.Token × List β} {data : Bytes} {n : α} {x : β}

theorem NewList.collects {tok' : Rdpgen.Token} (h : NewList st₀ G₀ lst st G)
    (htok : TokenAt G tok tok') : Collects R P st₀ G₀ lst tok st G (tok', []) where
  grows := h.grows
  new := h.new
  used := h.used
  opened := h.opened
  list := h.nil
  token := htok

theorem Collects.grow (h : Collects R P st₀ G₀ lst tok st G l) (hg : Grows st G st' G')
    (hP : ∀ n x, P G n x → P G' n x) (htok : TokenAt G' tok₁ tok₁') :
    Collects R P st₀ G₀ lst tok₁ st' G' (tok₁', l.2) where
  grows := h.grows.trans hg
  new := h.new
  used := hg.used lst h.used
  opened := (hg.opened lst h.used).trans h.opened
  list := h.list.mono hP (hg.same lst h.used)
  token := htok

theorem Collects.append (hm : malloc.Honest) (h : Collects R P st₀ G₀ lst tok st G l)
    (hd : R data n) (hx : P G n x) :
    (append malloc lst data).wp (fun _ st' => st'.rest.world = st.rest.world ∧
      Collects R P st₀ G₀ lst tok st' G (l.1, l.2 ++ [x])) (Refused malloc) False st := by
  refine (h.list.append hm hd hx).imp ?_
  intro _ st' hpost
  obtain ⟨l', rfl, hl'⟩ := hpost
  exact ⟨rfl, h.grows.setLst h.new h.opened l', h.new, h.used, h.opened, hl', h.token⟩

/-- The list is finished. -/
theorem Collects.close (h : Collects R P st₀ G₀ lst tok st G l) {x : Held}
    (hx : x.In (lstAt st lst)) :
    ∃ G', Grows st₀ G₀ st G' ∧ G.Extends G' ∧ G'.lists lst = some x :=
  ⟨_, h.grows.close h.new h.used h.opened hx,
    ⟨fun _ _ hb => hb, fun _ _ ht => ht, fun _ _ => update_extends h.opened⟩,
    Function.update_self _ _ _⟩

end

theorem TokenAt.extends {tok : Token} {tok' : Rdpgen.Token} (h : TokenAt G tok tok')
    (hG : G.Extends G') : TokenAt G' tok tok' :=
  ⟨h.type, h.str.extends hG⟩

abbrev ElemWord (G : Known) (str : Addr) (pe : PatElem) : Prop := G.StrAt str pe.str

theorem patternBody_realizes {elems : Addr} {tok : Token} {l : Rdpgen.Token × List PatElem}
    (hm : malloc.Honest) (h : Collects IsElem ElemWord st₀ G₀ elems tok st G l) :
    Realizes malloc st (patternBody malloc src elems tok) (Rdpgen.patternBody src l)
      fun tok st' l => ∃ G', Collects IsElem ElemWord st₀ G₀ elems tok st' G' l := by
  unfold patternBody
  refine .step (obj_wp hm h.grows.sound _) ?_
  intro _ st₁ hg₁
  refine .step (copyStr_wp hm hg₁.sound (h.token.str.extends hg₁.known)) ?_
  intro str st₂ hpost
  obtain ⟨G₂, hg₂, hstr⟩ := hpost
  have hg := hg₁.trans hg₂
  have h₂ := h.grow hg (fun _ _ hx => hx.extends hg.known) (h.token.extends hg.known)
  refine .step (h₂.append (x := ⟨Rdpgen.copyStr l.1.str, false⟩) hm ⟨false, rfl⟩ hstr) ?_
  intro _ st₃ h₃
  refine (consumeToken_realizes hm h₃.grows.sound).answer ?_
  intro tok' st₄ tok'' hpost
  obtain ⟨G₄, hg₄, htok⟩ := hpost
  exact ⟨G₄, h₃.grow hg₄ (fun _ _ hx => hx.extends hg₄.known) htok⟩

theorem Collects.pattern {elems : Addr} {tok : Token} {l : Rdpgen.Token × List PatElem} {p : Addr}
    (h : Collects IsElem ElemWord st₀ G₀ elems tok st G l) (code : Option STR) (hp : G.CodeAt p code) :
    ∃ G', Grows st₀ G₀ st G' ∧ G'.PatternAt (elems, p) { elems := l.2, code } := by
  obtain ⟨nodes, hnodes, hpes⟩ := h.list
  obtain ⟨G', hg, hext, hlst⟩ := h.close (x := .elems nodes) hnodes
  exact ⟨G', hg, ⟨nodes, hlst, hpes.imp fun _ _ hx => hx.extends hext⟩, hp.extends hext⟩

theorem parsePattern_realizes (hm : malloc.Honest) (hs : Sound st G) :
    Realizes malloc st (parsePattern malloc src) (Rdpgen.parsePattern src) fun p st' x =>
      ∃ G', Grows st G st' G' ∧ G'.PatternAt (p.elems, p.code) x := by
  unfold parsePattern
  refine .step (obj_wp hm hs _) ?_
  intro _ st₁ hg₁
  refine .step (createLst_wp hm hg₁.sound) ?_
  intro elems st₂ hnew
  refine (consumeToken_realizes hm hnew.grows.sound).bind ?_
  intro tok st₃ tok' hpost
  obtain ⟨G₃, hg₃, htok⟩ := hpost
  have hstart : Collects IsElem ElemWord st G elems tok st₃ G₃ (tok', []) :=
    ((hnew.behind hg₁).grow hg₃).collects htok
  refine Realizes.bind (realizes_whileDo (Q := fun tok st l =>
    ∃ G', Collects IsElem ElemWord _ G elems tok st G' l) ?_ ?_ ⟨G₃, hstart⟩) ?_
  · intro tok st l hpost
    obtain ⟨G', h⟩ := hpost
    rw [h.token.type]
  · intro tok st l hpost _
    obtain ⟨G', h⟩ := hpost
    exact patternBody_realizes hm h
  intro _ st₄ l hpost
  obtain ⟨tok', pes⟩ := l
  obtain ⟨G₄, h₄⟩ := hpost
  refine (getToken_realizes hm h₄.grows.sound tok').bind ?_
  intro tok st₅ tok' hpost
  obtain ⟨G₅, hg₅, htok⟩ := hpost
  have h₅ := h₄.grow hg₅ (fun _ _ hx => hx.extends hg₅.known) htok
  refine realizes_ite (by rw [htok.type]) ?_ ?_
  · intro _
    refine realizes_of_wp ?_
    rw [Prog.wp_bind]
    refine (copyStr_wp hm h₅.grows.sound htok.str).imp ?_
    intro code st₆ hpost
    obtain ⟨hw₆, G₆, hg₆, hcode⟩ := hpost
    rw [Prog.wp_pure]
    have h₆ := h₅.grow hg₆ (fun _ _ hx => hx.extends hg₆.known) (htok.extends hg₆.known)
    exact ⟨hw₆, h₆.pattern (some _) hcode⟩
  · intro _
    rw [htok.type]
    refine (realizes_inWorld _).bind ?_
    intro _ st₆ _ hpost
    obtain ⟨-, w, rfl⟩ := hpost
    have h₆ := h₅.grow (h₅.grows.sound.grows.setWorld w) (fun _ _ hx => hx) htok
    exact realizes_pure (h₆.pattern none rfl)

theorem ruleBody_realizes {patterns : Addr} {tok : Token} {l : Rdpgen.Token × List Rdpgen.Pattern}
    (hm : malloc.Honest) (h : Collects IsPattern Known.PatternAt st₀ G₀ patterns tok st G l) :
    Realizes malloc st (ruleBody malloc src patterns tok) (Rdpgen.ruleBody src l)
      fun tok st' l => ∃ G', G.Extends G' ∧
        Collects IsPattern Known.PatternAt st₀ G₀ patterns tok st' G' l := by
  unfold ruleBody
  refine (parsePattern_realizes hm h.grows.sound).bind ?_
  intro pattern st₁ x hpost
  obtain ⟨G₁, hg₁, hx⟩ := hpost
  have h₁ := h.grow hg₁ (fun _ _ hx => hx.extends hg₁.known) (h.token.extends hg₁.known)
  refine .step (h₁.append (n := (pattern.elems, pattern.code)) hm rfl hx) ?_
  intro _ st₂ h₂
  refine (consumeToken_realizes hm h₂.grows.sound).answer ?_
  intro tok' st₃ tok'' hpost
  obtain ⟨G₃, hg₃, htok⟩ := hpost
  exact ⟨G₃, hg₁.known.trans hg₃.known, h₂.grow hg₃ (fun _ _ hx => hx.extends hg₃.known) htok⟩

theorem Collects.rule {patterns name : Addr} {tok : Token} {l : Rdpgen.Token × List Rdpgen.Pattern}
    {x : STR} (h : Collects IsPattern Known.PatternAt st₀ G₀ patterns tok st G l)
    (hname : G.StrAt name x) :
    ∃ G', Grows st₀ G₀ st G' ∧ G'.RuleAt (name, patterns)
      { name := x, isRecursive := false, hasNonterms := false, patterns := l.2 } := by
  obtain ⟨nodes, hnodes, hps⟩ := h.list
  obtain ⟨G', hg, hext, hlst⟩ := h.close (x := .patterns nodes) hnodes
  exact ⟨G', hg, hname.extends hext, rfl, nodes, hlst, hps.imp fun _ _ hp => hp.extends hext⟩

theorem addRule_realizes {o : Pstate} {s : Rdpgen.Pstate} {name patterns : Addr} {x : Rule}
    (hm : malloc.Honest) (hs : Sound st G) (ho : HasState st G o s) (hx : G.RuleAt (name, patterns) x) :
    Realizes malloc st
      (do append malloc o.rules (ruleBytes name false false patterns); pure o)
      (pure { s with rules := s.rules ++ [x] }) fun o st' s => Stands st' o s := by
  refine realizes_of_wp ?_
  rw [Prog.wp_bind]
  refine (ho.rules.append hm rfl hx).imp ?_
  intro _ st' hpost
  obtain ⟨l, rfl, hl⟩ := hpost
  rw [Prog.wp_pure]
  exact ⟨rfl, G, hs.setRoot ho (by simp [Pstate.roots]) l, ho.setRules hl⟩

theorem parseRule_realizes {o : Pstate} {s : Rdpgen.Pstate} (hm : malloc.Honest) (h : Stands st o s) :
    Realizes malloc st (parseRule malloc src o) (Rdpgen.parseRule src s) fun o st' s => Stands st' o s := by
  obtain ⟨G, hs, ho⟩ := h
  unfold parseRule
  refine (getToken_realizes hm hs Token.unset).bind ?_
  intro tok st₁ tok' hpost
  obtain ⟨G₁, hg₁, htok⟩ := hpost
  refine .step (obj_wp hm hg₁.sound _) ?_
  intro _ st₂ hg₂
  refine .step (createLst_wp hm hg₂.sound) ?_
  intro patterns st₃ hnew
  have hname := htok.str.extends (hg₂.trans hnew.grows).known
  refine .step (copyStr_wp hm hnew.grows.sound hname) ?_
  intro name st₄ hpost
  obtain ⟨G₄, hg₄, hname⟩ := hpost
  refine (consumeToken_realizes hm hg₄.sound).bind ?_
  intro tok st₅ tok' hpost
  obtain ⟨G₅, hg₅, htok⟩ := hpost
  have hstart : Collects IsPattern Known.PatternAt st G patterns tok st₅ G₅ (tok', []) :=
    ((hnew.behind (hg₁.trans hg₂)).grow (hg₄.trans hg₅)).collects htok
  refine Realizes.bind (realizes_whileDo (Q := fun tok st l => ∃ G', G₅.Extends G' ∧
    Collects IsPattern Known.PatternAt _ G patterns tok st G' l) ?_ ?_ ⟨G₅, .refl, hstart⟩) ?_
  · intro tok st l hpost
    obtain ⟨G', -, h⟩ := hpost
    rw [h.token.type]
  · intro tok st l hpost _
    obtain ⟨G', hext, h⟩ := hpost
    refine (ruleBody_realizes hm h).mono ?_
    intro tok st l hpost
    obtain ⟨G'', hext', h'⟩ := hpost
    exact ⟨G'', hext.trans hext', h'⟩
  intro _ st₆ l hpost
  obtain ⟨tok', ps⟩ := l
  obtain ⟨G₆, hext, h₆⟩ := hpost
  have hname₆ := hname.extends (hg₅.known.trans hext)
  refine .before (Prog.wp_gets.mpr ⟨rfl, ?_⟩)
  have hlen : (lstAt st₆ patterns).getLstLen = 0 ↔ ps.length = 0 := by
    rw [← UInt64.toNat_inj, h₆.list.length]
    rfl
  refine realizes_ite hlen ?_ ?_
  · intro _
    refine (realizes_inWorld _).bind ?_
    intro type st₇ _ hpost
    obtain ⟨rfl, w, rfl⟩ := hpost
    refine (realizes_inWorld _).bind ?_
    intro _ st₈ _ hpost
    obtain ⟨-, w', rfl⟩ := hpost
    obtain ⟨G₈, hg₈, hr⟩ := h₆.rule hname₆
    have hg := (hg₈.setWorld w).setWorld w'
    exact addRule_realizes hm hg.sound (ho.grows hg) hr
  · intro _
    obtain ⟨G₈, hg₈, hr⟩ := h₆.rule hname₆
    exact addRule_realizes hm hg₈.sound (ho.grows hg₈) hr

/-! ### Directives -/

theorem parseDirective_realizes {want : TokenType} {fmt : String}
    {store : Addr → Pstate → HeapProg ι Pstate} {store' : STR → Rdpgen.Pstate → Rdpgen.Pstate}
    {o : Pstate} {s : Rdpgen.Pstate} (hm : malloc.Honest)
    (hstore : ∀ st G str x, Sound st G → HasState st G o s → G.StrAt str x →
      (store str o).wp (fun o' st' => st'.rest.world = st.rest.world ∧ Stands st' o' (store' x s))
        (Refused malloc) False st)
    (h : Stands st o s) :
    Realizes malloc st (parseDirective malloc src want fmt store o)
      (Rdpgen.parseDirective src want fmt store' s) fun o st' s => Stands st' o s := by
  have last {st : State ι} {o : Pstate} {s : Rdpgen.Pstate} (h : Stands st o s) :
      Realizes malloc st (do let _ ← consumeType src; pure o) (do let _ ← src.consumeToken; pure s)
        fun o st' s => Stands st' o s := by
    refine consumeType_realizes.bind ?_
    intro _ st' _ hpost
    obtain ⟨-, w, rfl⟩ := hpost
    exact realizes_pure (h.setWorld w)
  unfold parseDirective
  refine consumeType_realizes.bind ?_
  intro type st₁ tok' hpost
  obtain ⟨rfl, w, rfl⟩ := hpost
  obtain ⟨G, hs, ho⟩ := h.setWorld w
  refine realizes_ite Iff.rfl ?_ ?_
  · intro _
    refine (getToken_realizes hm hs Token.unset).bind ?_
    intro tok st₂ tok' hpost
    obtain ⟨G₂, hg₂, htok⟩ := hpost
    refine .step (hstore st₂ G₂ tok.str tok'.str hg₂.sound (ho.grows hg₂) htok.str) ?_
    intro o' st₃ h₃
    exact last h₃
  · intro _
    refine (realizes_inWorld _).bind ?_
    intro _ st₂ _ hpost
    obtain ⟨-, w', rfl⟩ := hpost
    exact last ((h.setWorld w).setWorld w')

section

variable {o : Pstate} {s : Rdpgen.Pstate}

theorem parseVerbo_realizes (hm : malloc.Honest) (h : Stands st o s) :
    Realizes malloc st (parseVerbo malloc src o) (Rdpgen.parseVerbo src s) fun o st' s => Stands st' o s := by
  refine parseDirective_realizes hm ?_ h
  intro st G str x hs ho hx
  rw [Prog.wp_bind, rawStr_wp hs hx, Prog.wp_pure]
  exact ⟨rfl, G, hs, rfl, ho.name, ho.outputPrefix, ho.code, ho.rules, ho.terminals, ho.nonTerminals,
    ho.roots, ho.apart⟩

theorem parsePrefix_realizes (hm : malloc.Honest) (h : Stands st o s) :
    Realizes malloc st (parsePrefix malloc src o) (Rdpgen.parsePrefix src s)
      fun o st' s => Stands st' o s := by
  refine parseDirective_realizes hm ?_ h
  intro st G str x hs ho hx
  rw [Prog.wp_bind]
  refine (copyStr_wp hm hs hx).imp ?_
  intro p st' hpost
  obtain ⟨hw, G', hg, hp⟩ := hpost
  have ho' := ho.grows hg
  rw [Prog.wp_pure]
  exact ⟨hw, G', hg.sound, ho'.verbo, ho'.name, hp, ho'.code, ho'.rules, ho'.terminals,
    ho'.nonTerminals, ho'.roots, ho'.apart⟩

theorem parseName_realizes (hm : malloc.Honest) (h : Stands st o s) :
    Realizes malloc st (parseName malloc src o) (Rdpgen.parseName src s) fun o st' s => Stands st' o s := by
  refine parseDirective_realizes hm ?_ h
  intro st G str x hs ho hx
  rw [Prog.wp_bind]
  refine (copyStr_wp hm hs hx).imp ?_
  intro p st' hpost
  obtain ⟨hw, G', hg, hp⟩ := hpost
  have ho' := ho.grows hg
  rw [Prog.wp_pure]
  exact ⟨hw, G', hg.sound, ho'.verbo, hp, ho'.outputPrefix, ho'.code, ho'.rules, ho'.terminals,
    ho'.nonTerminals, ho'.roots, ho'.apart⟩

theorem parseCode_realizes (hm : malloc.Honest) (h : Stands st o s) :
    Realizes malloc st (parseCode malloc src o) (Rdpgen.parseCode src s) fun o st' s => Stands st' o s := by
  refine parseDirective_realizes hm ?_ h
  intro st G str x hs ho hx
  rw [Prog.wp_bind]
  refine (copyStr_wp hm hs hx).imp ?_
  intro p st₁ hpost
  obtain ⟨hw₁, G₁, hg₁, hp⟩ := hpost
  have ho₁ := ho.grows hg₁
  rw [Prog.wp_bind]
  refine (strLstAdd_wp hm hg₁.sound ho₁.code hp).imp ?_
  intro _ st₂ hpost
  obtain ⟨l, rfl, hl⟩ := hpost
  rw [Prog.wp_pure]
  exact ⟨hw₁, G₁, hg₁.sound.setRoot ho₁ (by simp [Pstate.roots]) l, ho₁.setCode hl⟩

/-! ### The parser -/

theorem parsePass_realizes {l : Pstate × Bool} {l' : Rdpgen.Pstate × Bool} (hm : malloc.Honest)
    (h : Stands st l.1 l'.1) :
    Realizes malloc st (parsePass malloc src l) (Rdpgen.parsePass src l') fun l st' l' =>
      l.2 = l'.2 ∧ Stands st' l.1 l'.1 := by
  have more {st : State ι} {p : HeapProg ι Pstate} {q : Prog Halt (World ι) Rdpgen.Pstate}
      (hpq : Realizes malloc st p q fun o st' s => Stands st' o s) :
      Realizes malloc st (do let o ← p; pure (o, false)) (do let s ← q; pure (s, false))
        fun l st' l' => l.2 = l'.2 ∧ Stands st' l.1 l'.1 :=
    hpq.bind fun _ _ _ h => realizes_pure ⟨rfl, h⟩
  unfold parsePass
  refine (realizes_inWorld _).bind ?_
  intro type st₁ _ hpost
  obtain ⟨rfl, w, rfl⟩ := hpost
  have h₁ := h.setWorld w
  have unexpected {type : TokenType} : Realizes malloc (setWorld w st)
      (do
        inWorld (syntaxError "expected rule or directive but got %s" [tokToStr type])
        pure (l.1, false))
      (do
        syntaxError "expected rule or directive but got %s" [tokToStr type]
        pure (l'.1, false)) fun l st' l' => l.2 = l'.2 ∧ Stands st' l.1 l'.1 := by
    refine (realizes_inWorld _).bind ?_
    intro _ st₂ _ hpost
    obtain ⟨-, w', rfl⟩ := hpost
    exact realizes_pure ⟨rfl, h₁.setWorld w'⟩
  cases type with
  | SYMBOL => exact more (parseRule_realizes hm h₁)
  | VERBOSITY => exact more (parseVerbo_realizes hm h₁)
  | NAME => exact more (parseName_realizes hm h₁)
  | PREFIX => exact more (parsePrefix_realizes hm h₁)
  | CODE => exact more (parseCode_realizes hm h₁)
  | END_OF_INPUT => exact realizes_pure ⟨rfl, h₁⟩
  | ERROR => exact unexpected
  | BLOCK => exact unexpected
  | COLON => exact unexpected
  | STRG => exact unexpected
  | NUMBER => exact unexpected

theorem createParser_realizes (hm : malloc.Honest) (hs : Sound st G) :
    Realizes malloc st (createParser malloc src) (Rdpgen.createParser src)
      fun o st' s => Stands st' o s := by
  unfold createParser
  refine .step (obj_wp hm hs _) ?_
  intro _ st₁ hg₁
  refine (realizes_inWorld _).bind ?_
  intro _ st₂ _ hpost
  obtain ⟨-, w, rfl⟩ := hpost
  refine consumeType_realizes.bind ?_
  intro _ st₃ _ hpost
  obtain ⟨-, w', rfl⟩ := hpost
  refine .step (createLst_wp hm ((hg₁.sound.setWorld w).setWorld w')) ?_
  intro code st₄ hcode
  refine .step (createLst_wp hm hcode.grows.sound) ?_
  intro rules st₅ hrules
  refine .step (createStr_wp hm hrules.grows.sound []) ?_
  intro outputPrefix st₆ hpost
  obtain ⟨G₆, hg₆, hprefix⟩ := hpost
  refine .step (createStr_wp hm hg₆.sound []) ?_
  intro name st₇ hpost
  obtain ⟨G₇, hg₇, hname⟩ := hpost
  refine .step (createLst_wp hm hg₇.sound) ?_
  intro terminals st₈ hterminals
  refine .step (createLst_wp hm hterminals.grows.sound) ?_
  intro nonTerminals st₉ hnonTerminals
  refine realizes_pure ⟨G₇, hnonTerminals.grows.sound, ?_⟩
  -- Each list is in use before the next one is made.
  have hrules₇ := (hrules.grow hg₆).grow hg₇
  have hcode₇ := hcode.grow hrules₇.grows
  have hterminals₉ := hterminals.grow hnonTerminals.grows
  have hcode₉ := hcode₇.grow hterminals₉.grows
  have hrules₉ := hrules₇.grow hterminals₉.grows
  refine ⟨rfl, hname, Known.StrAt.extends (x := []) hprefix hg₇.known, hcode₉.nil, hrules₉.nil, hterminals₉.nil,
    hnonTerminals.nil, ?_, ?_⟩
  · simp only [Pstate.roots, List.forall_mem_cons]
    exact ⟨⟨hcode₉.used, hcode₉.opened⟩, ⟨hrules₉.used, hrules₉.opened⟩,
      ⟨hterminals₉.used, hterminals₉.opened⟩, ⟨hnonTerminals.used, hnonTerminals.opened⟩,
      List.forall_mem_nil _⟩
  · have h₁ : code ≠ rules := fun h => hrules.new (h ▸ hcode.used)
    have h₂ : code ≠ terminals := fun h => hterminals.new (h ▸ hcode₇.used)
    have h₃ : rules ≠ terminals := fun h => hterminals.new (h ▸ hrules₇.used)
    have h₄ : ∀ a ∈ st₈.rest.used, a ≠ nonTerminals := fun a ha h => hnonTerminals.new (h ▸ ha)
    simp [Pstate.roots, h₁, h₂, h₃, h₄ _ (hterminals.grows.used _ hcode₇.used),
      h₄ _ (hterminals.grows.used _ hrules₇.used), h₄ _ hterminals.used]

theorem parseInput_realizes (hm : malloc.Honest) (hs : Sound st G) :
    Realizes malloc st (parseInput malloc src) (Rdpgen.parseInput src) fun o st' s => Stands st' o s := by
  unfold parseInput
  refine (createParser_realizes hm hs).bind ?_
  intro o st₁ s h₁
  refine Realizes.bind (realizes_whileDo (Q := fun l st l' => l.2 = l'.2 ∧ Stands st l.1 l'.1) ?_ ?_
    ⟨rfl, h₁⟩) ?_
  · intro l st l' hpost
    obtain ⟨hb, -⟩ := hpost
    rw [hb]
  · intro l st l' hpost _
    obtain ⟨-, h⟩ := hpost
    exact parsePass_realizes hm h
  · intro l st₂ l' hpost
    obtain ⟨o, b⟩ := l
    obtain ⟨s, b'⟩ := l'
    obtain ⟨-, h⟩ := hpost
    exact realizes_pure h

end

end Rdpgen.OnHeap
