import Rdpgen.HeapDump

namespace Rdpgen.OnHeap

variable {ι : Type} {malloc : Malloc ι} {st : State ι} {G : Known} {o : Pstate} {s : Rdpgen.Pstate}
  {rs : List Rule}

/-- What the loops of `pre_process` keep over the rules `rs`: the names in the two lists are distinct,
and they are names of rules and of elements. -/
structure Sorts (G : Known) (o : Pstate) (rs : List Rule) (st : State ι) (s : Rdpgen.Pstate) : Prop where
  sound : Sound st G
  state : HasState st G o s
  rules : s.rules = rs
  nonTerminals : s.nonTerminals.Nodup ∧ s.nonTerminals ⊆ rs.map Rule.name
  terminals : s.terminals.Nodup ∧ s.terminals ⊆ (elemsOf rs).map PatElem.str

theorem Sorts.setWorld (h : Sorts G o rs st s) (w : World ι) : Sorts G o rs (setWorld w st) s :=
  ⟨h.sound.setWorld w, h.state.setWorld w, h.rules, h.nonTerminals, h.terminals⟩

theorem Sorts.crnt (h : Sorts G o rs st s) (k c : Addr) :
    Sorts G o rs (st.setLst k.toNat { lstAt st k with crnt := c }) s :=
  ⟨h.sound.crnt k c, h.state.crnt k c, h.rules, h.nonTerminals, h.terminals⟩

/-! ### `str_in_lst` -/

theorem strInLst_wp {lst : Addr} {xs : List STR} {H : Halt → State ι → Prop} (hs : Sound st G)
    (h : TextsAt st G lst xs) (hsmall : xs.length < 2 ^ 31) (str : Bytes) :
    (strInLst lst str).wp (fun found st' => st' = st ∧ found = Rdpgen.strInLst xs str) H False st := by
  obtain ⟨nodes, hn, hx⟩ := h
  have hsame : ∀ n ∈ nodes, decide (itemText st lst (elemToVoid n.1) = some str) =
      decide (G.texts n.2 = some str) := by
    intro n hp
    obtain ⟨p, b⟩ := n
    rw [itemText_eq hs hn hp]
  have hany : nodes.any (fun n => decide (G.texts n.2 = some str)) = Rdpgen.strInLst xs str := by
    clear hn hsame hsmall
    induction hx with
    | nil => rfl
    | cons ht _ ih =>
      rw [List.any_cons, ih, ht]
      simp [Rdpgen.strInLst]
  rw [← hany]
  exact Lists.strInLst_any _ hn (hx.length_eq ▸ hsmall) hsame

/-- A string of the list is found. -/
theorem mem_of_not_found {xs : List STR} {x : STR}
    (h : Rdpgen.strInLst xs (Rdpgen.rawStr x) = false) : x ∉ xs := by
  intro hx
  have hfound : Rdpgen.strInLst xs (Rdpgen.rawStr x) = true :=
    List.any_eq_true.mpr ⟨x, hx, decide_eq_true rfl⟩
  rw [h] at hfound
  cases hfound

/-- One more name among those that may be there. -/
theorem nodup_concat {xs M : List STR} {x : STR} (h : xs.Nodup ∧ xs ⊆ M)
    (hnew : Rdpgen.strInLst xs (Rdpgen.rawStr x) = false) (hx : x ∈ M) :
    (xs ++ [x]).Nodup ∧ xs ++ [x] ⊆ M :=
  ⟨List.nodup_append_comm.mp (List.nodup_cons.mpr ⟨mem_of_not_found hnew, h.1⟩),
    List.append_subset.mpr ⟨h.2, List.cons_subset.mpr ⟨hx, List.nil_subset M⟩⟩⟩

theorem length_lt_of_subset {xs M : List STR} (h : xs.Nodup ∧ xs ⊆ M) (hM : M.length < 2 ^ 31) :
    xs.length < 2 ^ 31 :=
  (h.1.subperm h.2).length_le.trans_lt hM

/-! ### The names of rules -/

theorem nonTermsBody_realizes {nodes : List (Addr × Addr × Addr)} {q name patterns : Addr} {r : Rule}
    (hm : malloc.Honest) (hlen : rs.length < 2 ^ 31) (hq : (q, name, patterns) ∈ nodes)
    (hr : G.RuleAt (name, patterns) r) (hmem : r ∈ rs) (h : Sorts G o rs st s)
    (hn : (lstAt st o.rules).Holds IsRule nodes) :
    Realizes malloc st (nonTermsBody malloc o (elemToVoid q)) (Rdpgen.nonTermsBody s (.elem r))
      fun _ st' p => Sorts G o rs st' p.1 ∧ p.2 = r ∧ lstAt st' o.rules = lstAt st o.rules := by
  unfold nonTermsBody
  refine .before ((readRuleName_wp hn hq).mpr ⟨rfl, ?_⟩)
  refine .before ((rawStr_wp h.sound hr.1).mpr ⟨rfl, ?_⟩)
  refine .before ((strInLst_wp h.sound h.state.nonTerminals
    (length_lt_of_subset h.nonTerminals (by rwa [List.length_map])) _).imp ?_)
  intro _ st' hpost
  obtain ⟨rfl, rfl⟩ := hpost
  refine ⟨rfl, realizes_deref (realizes_ite Iff.rfl ?_ ?_)⟩
  · intro hnew
    refine realizes_of_wp ((strLstAdd_wp hm h.sound h.state.nonTerminals hr.1).imp ?_)
    intro _ st'' hpost
    obtain ⟨l, rfl, hl⟩ := hpost
    have hnew' : Rdpgen.strInLst s.nonTerminals (Rdpgen.rawStr r.name) = false := by simpa using hnew
    refine ⟨rfl, ⟨h.sound.setRoot h.state (by simp [Pstate.roots]) l, h.state.setNonTerminals hl,
      h.rules, nodup_concat h.nonTerminals hnew' (List.mem_map_of_mem hmem), h.terminals⟩, rfl, ?_⟩
    rw [lstAt_setLst, if_neg h.state.ne.2.1.2]
  · intro _
    refine (realizes_inWorld _).answer ?_
    intro _ st'' _ hpost
    obtain ⟨-, w, rfl⟩ := hpost
    exact ⟨h.setWorld w, rfl, rfl⟩

theorem makeNonTerms_realizes (hm : malloc.Honest) (hlen : rs.length < 2 ^ 31)
    (h : Sorts G o rs st s) :
    Realizes malloc st (makeNonTerms malloc o) (Rdpgen.makeNonTerms s) fun _ st' s =>
      Sorts G o rs st' s := by
  unfold Rdpgen.makeNonTerms
  rw [h.rules]
  obtain ⟨nodes, hn, hx⟩ := h.state.rules
  rw [h.rules] at hx
  refine (forLst_realizes (f := id) (J := Sorts G o rs) (fun st b c hb => hb.crnt o.rules c) ?_ ?_ hn
    h).answer ?_
  · refine (forall₂_mem hx).imp ?_
    intro n r hpost st b hb hn
    obtain ⟨q, name, patterns⟩ := n
    obtain ⟨hq, hmem, hr⟩ := hpost
    refine (nonTermsBody_realizes hm hlen hq hr hmem hb hn).mono ?_
    intro _ st' p hpost
    obtain ⟨hp, hpr, hl⟩ := hpost
    exact ⟨hp, congrArg id hpr, hl ▸ hn, congrArg Lst.crnt hl⟩
  · exact fun st _ hw _ => realizes_wild (readWord_wild hw)
  · intro _ st' r hpost
    obtain ⟨b, rules⟩ := r
    obtain ⟨hb, hrules⟩ := hpost
    obtain rfl : rules = rs := by simpa using hrules
    exact ⟨hb.sound, ⟨hb.state.verbo, hb.state.name, hb.state.outputPrefix, hb.state.code,
      hb.rules ▸ hb.state.rules, hb.state.terminals, hb.state.nonTerminals, hb.state.roots,
      hb.state.apart⟩, rfl, hb.nonTerminals, hb.terminals⟩

/-! ### The names of elements -/

theorem isTerm_wp {str : Addr} {x : STR} {H : Halt → State ι → Prop} (hlen : rs.length < 2 ^ 31)
    (helems : (elemsOf rs).length < 2 ^ 31) (h : Sorts G o rs st s) (hx : G.StrAt str x) :
    (isTerm o str).wp (fun b st' => st' = st ∧ b = Rdpgen.isTerm s x) H False st := by
  unfold isTerm
  rw [Prog.wp_bind, rawStr_wp h.sound hx, Prog.wp_bind]
  refine (strInLst_wp h.sound h.state.terminals
    (length_lt_of_subset h.terminals (by rwa [List.length_map])) _).imp ?_
  intro _ st' hpost
  obtain ⟨rfl, rfl⟩ := hpost
  cases hfound : Rdpgen.strInLst s.terminals (Rdpgen.rawStr x) with
  | true =>
    rw [if_pos rfl, Prog.wp_pure]
    simp [Rdpgen.isTerm, hfound]
  | false =>
    rw [if_neg Bool.false_ne_true, Prog.wp_bind, rawStr_wp h.sound hx, Prog.wp_bind]
    refine (strInLst_wp h.sound h.state.nonTerminals
      (length_lt_of_subset h.nonTerminals (by rwa [List.length_map])) _).imp ?_
    intro _ st'' hpost
    obtain ⟨rfl, rfl⟩ := hpost
    rw [Prog.wp_pure]
    simp [Rdpgen.isTerm, hfound]

/-- The flag of an element is set through the pointer. -/
theorem setFlag_wp {nodes : List (Addr × Addr)} {elems p str : Addr} {H : Halt → State ι → Prop}
    (h : Sorts G o rs st s) (helems : G.lists elems = some (.elems nodes)) (hp : (p, str) ∈ nodes) :
    (writeByte elems (elemToVoid p) Access.patElemIsTerminal.offset (flagByte true)).wp
      (fun _ st' => st'.rest.world = st.rest.world ∧ Sorts G o rs st' s ∧ Keeps G o 1 st st' ∧
        (lstAt st' elems).crnt = (lstAt st elems).crnt) H False st := by
  have hn : (lstAt st elems).Holds IsElem nodes := h.sound.lists elems _ helems
  obtain ⟨l, hl, hn', hc⟩ := hn.store hp
    (f := fun data => data.set Access.patElemIsTerminal.offset (flagByte true))
    (fun _ => List.length_set) (by
      intro _ hpost
      obtain ⟨f, rfl⟩ := hpost
      exact ⟨true, patElemBytes_set str f true⟩)
  unfold writeByte
  rw [Lists.wp_onLst (by rw [voidToElem_elemToVoid]; rw [lstAt] at hl; rw [hl]; rfl)]
  refine ⟨rfl, ⟨h.sound.setLst ?_, h.state.setHeld helems l, h.rules, h.nonTerminals, h.terminals⟩, ?_,
    ?_⟩
  · intro x hx
    rw [helems] at hx
    cases hx
    exact hn'
  · intro a ha _
    have hrank : G.rank elems = 0 := by rw [Known.rank, helems]
    have hne : a ≠ elems := by
      rintro rfl
      omega
    rw [lstAt_setLst, if_neg hne]
  · rw [lstAt_setLst, if_pos rfl]
    exact hc

theorem termsElemBody_realizes {nodes : List (Addr × Addr)} {elems p str : Addr} {pe : PatElem}
    (hm : malloc.Honest) (hlen : rs.length < 2 ^ 31) (hlen' : (elemsOf rs).length < 2 ^ 31)
    (helems : G.lists elems = some (.elems nodes)) (hp : (p, str) ∈ nodes) (hstr : G.StrAt str pe.str)
    (hmem : pe ∈ elemsOf rs) (h : Sorts G o rs st s) :
    Realizes malloc st (termsElemBody malloc o elems (elemToVoid p)) (Rdpgen.termsElemBody s (.elem pe))
      fun _ st' r => Sorts G o rs st' r.1 ∧ r.2.reset = pe.reset ∧ Keeps G o 1 st st' ∧
        (lstAt st' elems).crnt = (lstAt st elems).crnt := by
  have hn : (lstAt st elems).Holds IsElem nodes := h.sound.lists elems _ helems
  unfold termsElemBody
  refine .before ((readPatElemStr_wp hn hp).mpr ⟨rfl, ?_⟩)
  refine .before ((isTerm_wp hlen hlen' h hstr).imp ?_)
  intro _ st₁ hpost
  obtain ⟨rfl, rfl⟩ := hpost
  refine ⟨rfl, realizes_deref (realizes_ite Iff.rfl ?_ fun _ => realizes_pure ?_)⟩
  · intro hterm
    refine realizes_of_wp ?_
    rw [Prog.wp_bind]
    refine (strLstAdd_wp hm h.sound h.state.terminals hstr).imp ?_
    intro _ st₂ hpost
    obtain ⟨l, rfl, hl⟩ := hpost
    have hnew : Rdpgen.strInLst s.terminals (Rdpgen.rawStr pe.str) = false := by
      by_contra hfound
      simp [Rdpgen.isTerm, hfound] at hterm
    have h₂ : Sorts G o rs (st₁.setLst o.terminals.toNat l)
        { s with terminals := s.terminals ++ [pe.str] } :=
      ⟨h.sound.setRoot h.state (by simp [Pstate.roots]) l, h.state.setTerminals hl, h.rules,
        h.nonTerminals, nodup_concat h.terminals hnew (List.mem_map_of_mem hmem)⟩
    have hkeep : ∀ a, a ≠ o.terminals → lstAt (st₁.setLst o.terminals.toNat l) a = lstAt st₁ a :=
      fun a ha => by rw [lstAt_setLst, if_neg ha]
    refine (setFlag_wp h₂ helems hp).imp ?_
    intro _ st₃ hpost
    obtain ⟨hw₃, h₃, hk₃, hc₃⟩ := hpost
    refine ⟨hw₃, h₃, rfl, fun a hr ha => (hk₃ a hr ha).trans (hkeep a ha), ?_⟩
    rw [hc₃, hkeep elems (h.state.ne_terminals helems)]
  · exact ⟨h, rfl, fun _ _ _ => rfl, rfl⟩

theorem termsElems_realizes {elems : Addr} {es : List PatElem} (hm : malloc.Honest)
    (hlen : rs.length < 2 ^ 31) (hlen' : (elemsOf rs).length < 2 ^ 31) (he : G.ElemsAt elems es)
    (hes : es ⊆ elemsOf rs) (h : Sorts G o rs st s) :
    Realizes malloc st (forLst elems (termsElemBody malloc o elems))
      (Rdpgen.forLst es s Rdpgen.termsElemBody) fun _ st' r => Sorts G o rs st' r.1 ∧
        r.2.map PatElem.reset = es.map PatElem.reset ∧ Keeps G o 1 st st' := by
  obtain ⟨nodes, hlst, hx⟩ := he
  refine forRank_realizes (I := Sorts G o rs) (by rw [Known.rank, hlst])
    (fun _ _ hb => hb.sound.lists elems _ hlst) (fun st b c hb => hb.crnt elems c) ?_ ?_ h
  · refine (forall₂_mem hx).imp ?_
    intro n pe hpost st b hb
    obtain ⟨p, str⟩ := n
    obtain ⟨hp, hmem, hstr⟩ := hpost
    exact termsElemBody_realizes hm hlen hlen' hlst hp hstr (hes hmem) hb
  · exact fun st _ hw _ => realizes_wild (readWord_wild hw)

theorem termsPatterns_realizes {patterns : Addr} {ps : List Rdpgen.Pattern} (hm : malloc.Honest)
    (hlen : rs.length < 2 ^ 31) (hlen' : (elemsOf rs).length < 2 ^ 31) (hps : G.PatternsAt patterns ps)
    (hmem : ∀ p ∈ ps, p.elems ⊆ elemsOf rs) (h : Sorts G o rs st s) :
    Realizes malloc st (forLst patterns (termsPatternBody malloc o patterns))
      (Rdpgen.forLst ps s Rdpgen.termsPatternBody) fun _ st' r => Sorts G o rs st' r.1 ∧
        r.2.map Pattern.reset = ps.map Pattern.reset ∧ Keeps G o 2 st st' := by
  obtain ⟨nodes, hlst, hx⟩ := hps
  have hrank : G.rank patterns = 1 := by rw [Known.rank, hlst]
  have hn {st : State ι} {b : Rdpgen.Pstate} (hb : Sorts G o rs st b) :
      (lstAt st patterns).Holds IsPattern nodes := hb.sound.lists patterns _ hlst
  refine forRank_realizes (I := Sorts G o rs) hrank (fun _ _ hb => hn hb)
    (fun st b c hb => hb.crnt patterns c) ?_ ?_ h
  · refine (forall₂_mem hx).imp ?_
    intro n p hpost st b hb
    obtain ⟨q, elems, code⟩ := n
    obtain ⟨hq, hp, helems, -⟩ := hpost
    refine .before ((readPatternElems_wp (hn hb) hq).mpr ⟨rfl, realizes_deref ?_⟩)
    refine (termsElems_realizes hm hlen hlen' helems (hmem p hp) hb).answer ?_
    intro _ st' r hpost
    obtain ⟨b', es⟩ := r
    obtain ⟨hb', hes, hk⟩ := hpost
    refine ⟨hb', ?_, hk.mono (by decide),
      congrArg Lst.crnt (hk patterns hrank.ge (hb.state.ne_terminals hlst))⟩
    simp only [Pattern.reset]
    rw [hes]
  · exact fun st _ hw _ => realizes_wild (readWord_wild hw)

theorem elemsAt_reset {elems : Addr} {es : List PatElem} :
    G.ElemsAt elems (es.map PatElem.reset) ↔ G.ElemsAt elems es := by
  simp only [Known.ElemsAt, List.forall₂_map_right_iff, PatElem.reset]

theorem patternsAt_reset {patterns : Addr} {ps : List Rdpgen.Pattern} :
    G.PatternsAt patterns (ps.map Pattern.reset) ↔ G.PatternsAt patterns ps := by
  simp only [Known.PatternsAt, List.forall₂_map_right_iff, Known.PatternAt, Pattern.reset, elemsAt_reset]

/-- The flags of the elements are not part of what a rule says. -/
theorem rulesAt_reset {lst : Addr} {rules : List Rule} :
    RulesAt st G lst (rules.map Rule.reset) ↔ RulesAt st G lst rules := by
  simp only [RulesAt, ListAt, List.forall₂_map_right_iff, Known.RuleAt, Rule.reset, patternsAt_reset]

theorem subset_elemsOf {r : Rule} {p : Rdpgen.Pattern} (hr : r ∈ rs) (hp : p ∈ r.patterns) :
    p.elems ⊆ elemsOf rs := by
  intro pe hpe
  exact List.mem_flatMap.mpr ⟨r, hr, List.mem_flatMap.mpr ⟨p, hp, hpe⟩⟩

theorem makeTerms_realizes (hm : malloc.Honest) (hlen : rs.length < 2 ^ 31)
    (hlen' : (elemsOf rs).length < 2 ^ 31) (h : Sorts G o rs st s) :
    Realizes malloc st (makeTerms malloc o) (Rdpgen.makeTerms s) fun _ st' s => Stands st' o s := by
  unfold Rdpgen.makeTerms
  rw [h.rules]
  obtain ⟨nodes, hn, hx⟩ := h.state.rules
  rw [h.rules] at hx
  refine (forLst_realizes (f := Rule.reset) (J := Sorts G o rs) (fun st b c hb => hb.crnt o.rules c) ?_ ?_
    hn h).answer ?_
  · refine (forall₂_mem hx).imp ?_
    intro n r hpost st b hb hn
    obtain ⟨q, name, patterns⟩ := n
    obtain ⟨hq, hmem, -, -, hps⟩ := hpost
    refine .before ((readRulePatterns_wp hn hq).mpr ⟨rfl, realizes_deref ?_⟩)
    refine (termsPatterns_realizes hm hlen hlen' hps (fun p => subset_elemsOf hmem) hb).answer ?_
    intro _ st' r hpost
    obtain ⟨b', ps⟩ := r
    obtain ⟨hb', hps', hk⟩ := hpost
    have hl := hk.rules hb.state
    refine ⟨hb', ?_, hl ▸ hn, congrArg Lst.crnt hl⟩
    simp only [Rule.reset]
    rw [hps']
  · exact fun st _ hw _ => realizes_wild (readWord_wild hw)
  · intro _ st' r hpost
    obtain ⟨b, rules⟩ := r
    obtain ⟨hb, hrules⟩ := hpost
    have hrs : RulesAt st' G o.rules rules := by
      rw [← rulesAt_reset, hrules, rulesAt_reset, ← hb.rules]
      exact hb.state.rules
    exact ⟨G, hb.sound, hb.state.verbo, hb.state.name, hb.state.outputPrefix, hb.state.code, hrs,
      hb.state.terminals, hb.state.nonTerminals, hb.state.roots, hb.state.apart⟩

theorem preProcess_realizes (hm : malloc.Honest) (hlen : rs.length < 2 ^ 31)
    (hlen' : (elemsOf rs).length < 2 ^ 31) (h : Sorts G o rs st s) :
    Realizes malloc st (preProcess malloc o) (Rdpgen.preProcess s) fun _ st' s => Stands st' o s :=
  (makeNonTerms_realizes hm hlen h).bind fun _ _ _ h' => makeTerms_realizes hm hlen hlen' h'

end Rdpgen.OnHeap
