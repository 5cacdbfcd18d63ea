import Rdpgen.HeapWalk

namespace Rdpgen.OnHeap

variable {ι : Type} {malloc : Malloc ι} {st : State ι} {G : Known} {o : Pstate} {s : Rdpgen.Pstate}

/-- What `dump_state` leaves alone: all but the cursors of the lists. -/
structure Dumps (G : Known) (o : Pstate) (s : Rdpgen.Pstate) (st : State ι) : Prop where
  sound : Sound st G
  state : HasState st G o s

theorem Dumps.setWorld (h : Dumps G o s st) (w : World ι) : Dumps G o s (setWorld w st) :=
  ⟨h.sound.setWorld w, h.state.setWorld w⟩

theorem Dumps.crnt (h : Dumps G o s st) (k c : Addr) :
    Dumps G o s (st.setLst k.toNat { lstAt st k with crnt := c }) :=
  ⟨h.sound.crnt k c, h.state.crnt k c⟩

/-- A line of output. -/
theorem Dumps.line {γ δ : Type} {text : String} {f : Unit → HeapProg ι γ}
    {g : Unit → Prog Halt (World ι) δ} {Q : γ → State ι → δ → Prop} (h : Dumps G o s st)
    (hf : ∀ st', Dumps G o s st' → lstAt st' = lstAt st → Realizes malloc st' (f ()) (g ()) Q) :
    Realizes malloc st (inWorld (printf text) >>= f) (printf text >>= g) Q := by
  refine (realizes_inWorld _).bind ?_
  intro _ st' _ hpost
  obtain ⟨-, w, rfl⟩ := hpost
  exact hf _ (h.setWorld w) rfl

/-- Output is the last step of a pass. -/
theorem printf_realizes {χ : Type} {text : String} {x : χ} (h : Dumps G o s st) :
    Realizes malloc st (inWorld (printf text)) (do printf text; pure ((), x)) fun _ st' r =>
      Dumps G o s st' ∧ r.2 = x ∧ lstAt st' = lstAt st := by
  refine (realizes_inWorld _).answer ?_
  intro _ st' _ hpost
  obtain ⟨-, w, rfl⟩ := hpost
  exact ⟨h.setWorld w, rfl, rfl⟩

/-! The loops, from the inside out. -/

theorem dumpStrLst_realizes {lst : Addr} {xs : List STR} {label : String} {verbo : Int}
    (hlst : TextsAt st G lst xs) (h : Dumps G o s st) :
    Realizes malloc st (dumpStrLst lst label verbo) (Rdpgen.dumpStrLst xs label verbo)
      fun _ st' _ => Dumps G o s st' := by
  refine realizes_ite Iff.rfl ?_ fun _ => realizes_pure h
  intro _
  refine .before (Prog.wp_gets.mpr ⟨rfl, ?_⟩)
  rw [hlst.length]
  refine h.line ?_
  intro st₁ h₁ hl₁
  obtain ⟨nodes, hn, hx⟩ := hlst
  refine (forLst_realizes (f := id) (J := fun st (_ : Unit) => Dumps G o s st)
    (fun st b c hd => hd.crnt lst c) ?_ ?_ (hl₁ ▸ hn) h₁).answer ?_
  · refine (forall₂_mem hx).imp ?_
    intro n x hpost st _ hd hn
    obtain ⟨p, b⟩ := n
    obtain ⟨hp, -, ht⟩ := hpost
    refine .before ((fromOption_wp ((itemText_eq hd.sound hn hp).trans ht)).mpr ⟨rfl, ?_⟩)
    refine (printf_realizes hd).mono ?_
    intro _ st' r hpost
    obtain ⟨hd', hr, hl⟩ := hpost
    rw [hr, hl]
    exact ⟨hd', rfl, hn, rfl⟩
  · intro st _ hn hd
    refine realizes_wild (fromOption_fault ?_)
    rw [itemText, dataAt_wild hn, Option.bind_none, Option.bind_none]
  · exact fun _ _ _ hpost => hpost.1

theorem dumpElems_realizes {elems : Addr} {es : List PatElem} (he : G.ElemsAt elems es)
    (h : Dumps G o s st) :
    Realizes malloc st (forLst elems (dumpElemBody elems)) (Rdpgen.forLst es () Rdpgen.dumpElemBody)
      fun _ st' _ => Dumps G o s st' ∧ Keeps G o 1 st st' := by
  obtain ⟨nodes, hlst, hx⟩ := he
  have hn {st : State ι} (hd : Dumps G o s st) : (lstAt st elems).Holds IsElem nodes :=
    hd.sound.lists elems _ hlst
  refine (forRank_realizes (f := id) (o := o) (I := fun st (_ : Unit) => Dumps G o s st)
    (by rw [Known.rank, hlst]) (fun _ _ hd => hn hd) (fun st b c hd => hd.crnt elems c) ?_ ?_ h).mono ?_
  · refine (forall₂_mem hx).imp ?_
    intro n pe hpost st _ hd
    obtain ⟨p, str⟩ := n
    obtain ⟨hp, -, hstr⟩ := hpost
    refine .before ((readPatElemStr_wp (hn hd) hp).mpr ⟨rfl, ?_⟩)
    refine .before ((rawStr_wp hd.sound hstr).mpr ⟨rfl, ?_⟩)
    refine (printf_realizes hd).mono ?_
    intro _ st' r hpost
    obtain ⟨hd', hr, hl⟩ := hpost
    rw [hr, hl]
    exact ⟨hd', rfl, fun a _ _ => congrFun hl a, rfl⟩
  · exact fun st _ hw _ => realizes_wild (readWord_wild hw)
  · exact fun _ _ _ hpost => ⟨hpost.1, hpost.2.2⟩

theorem dumpPatterns_realizes {patterns : Addr} {ps : List Rdpgen.Pattern}
    (hps : G.PatternsAt patterns ps) (h : Dumps G o s st) :
    Realizes malloc st (forLst patterns (dumpPatternBody patterns))
      (Rdpgen.forLst ps () Rdpgen.dumpPatternBody) fun _ st' _ => Dumps G o s st' ∧ Keeps G o 2 st st' := by
  obtain ⟨nodes, hlst, hx⟩ := hps
  have hrank : G.rank patterns = 1 := by rw [Known.rank, hlst]
  have hn {st : State ι} (hd : Dumps G o s st) : (lstAt st patterns).Holds IsPattern nodes :=
    hd.sound.lists patterns _ hlst
  refine (forRank_realizes (f := id) (o := o) (I := fun st (_ : Unit) => Dumps G o s st) hrank
    (fun _ _ hd => hn hd) (fun st b c hd => hd.crnt patterns c) ?_ ?_ h).mono ?_
  · refine (forall₂_mem hx).imp ?_
    intro n p hpost st _ hd
    obtain ⟨q, elems, code⟩ := n
    obtain ⟨hq, -, helems, -⟩ := hpost
    refine hd.line ?_
    intro st₁ hd₁ hl₁
    refine .before ((readPatternElems_wp (hn hd₁) hq).mpr ⟨rfl, realizes_deref ?_⟩)
    refine (dumpElems_realizes helems hd₁).bind ?_
    intro _ st₂ _ hpost
    obtain ⟨hd₂, hk⟩ := hpost
    refine (printf_realizes hd₂).mono ?_
    intro _ st' r hpost
    obtain ⟨hd', hr, hl⟩ := hpost
    have hsame : Keeps G o 1 st st' := fun a hra ha => by rw [hl, hk a hra ha, hl₁]
    exact ⟨hd', hr, hsame.mono (by decide),
      congrArg Lst.crnt (hsame patterns hrank.ge (hd.state.ne_terminals hlst))⟩
  · intro st _ hw hd
    refine hd.line ?_
    intro st₁ _ hl₁
    exact realizes_wild (readWord_wild (hl₁ ▸ hw))
  · exact fun _ _ _ hpost => ⟨hpost.1, hpost.2.2⟩

theorem dumpRules_realizes (h : Dumps G o s st) :
    Realizes malloc st (dumpRules o) (Rdpgen.dumpRules s) fun _ st' _ => Dumps G o s st' := by
  refine realizes_ite (by rw [h.state.verbo]) ?_ fun _ => realizes_pure h
  intro _
  refine .before (Prog.wp_gets.mpr ⟨rfl, ?_⟩)
  rw [h.state.rules.length]
  refine h.line ?_
  intro st₁ h₁ _
  obtain ⟨nodes, hn, hx⟩ := h₁.state.rules
  refine (forLst_realizes (f := id) (J := fun st (_ : Unit) => Dumps G o s st)
    (fun st b c hd => hd.crnt o.rules c) ?_ ?_ hn h₁).answer ?_
  · refine (forall₂_mem hx).imp ?_
    intro n r hpost st _ hd hn
    obtain ⟨q, name, patterns⟩ := n
    obtain ⟨hq, -, hname, hflag, hpatterns⟩ := hpost
    refine .before ((readRuleName_wp hn hq).mpr ⟨rfl, ?_⟩)
    refine .before ((rawStr_wp hd.sound hname).mpr ⟨rfl, ?_⟩)
    refine .before ((readRuleFlag_wp hn hq).mpr ⟨rfl, realizes_deref ?_⟩)
    rw [hflag]
    refine hd.line ?_
    intro st₁ hd₁ hl₁
    refine .before ((readRulePatterns_wp (hl₁ ▸ hn) hq).mpr ⟨rfl, ?_⟩)
    refine (dumpPatterns_realizes hpatterns hd₁).bind ?_
    intro _ st₂ _ hpost
    obtain ⟨hd₂, hk⟩ := hpost
    refine (printf_realizes hd₂).mono ?_
    intro _ st' r hpost
    obtain ⟨hd', hr, hl⟩ := hpost
    have hrules : lstAt st' o.rules = lstAt st o.rules := by rw [hl, hk.rules hd₁.state, hl₁]
    rw [hr, hrules]
    exact ⟨hd', rfl, hn, rfl⟩
  · exact fun st _ hw _ => realizes_wild (readWord_wild hw)
  · exact fun _ _ _ hpost => hpost.1

theorem dumpState_realizes (h : Dumps G o s st) :
    Realizes malloc st (dumpState o) (Rdpgen.dumpState s) fun _ st' _ => Dumps G o s st' := by
  refine realizes_ite (by rw [h.state.verbo]) ?_ fun _ => realizes_pure h
  intro _
  refine h.line ?_
  intro st₁ h₁ _
  refine .before ((rawStr_wp h₁.sound h₁.state.name).mpr ⟨rfl, h₁.line ?_⟩)
  intro st₂ h₂ _
  refine .before ((rawStr_wp h₂.sound h₂.state.outputPrefix).mpr ⟨rfl, h₂.line ?_⟩)
  intro st₃ h₃ _
  rw [h.state.verbo]
  refine h₃.line ?_
  intro st₄ h₄ _
  refine h₄.line ?_
  intro st₅ h₅ _
  refine (dumpRules_realizes h₅).bind ?_
  intro _ st₆ _ h₆
  refine (dumpStrLst_realizes h₆.state.terminals h₆).bind ?_
  intro _ st₇ _ h₇
  refine (dumpStrLst_realizes h₇.state.nonTerminals h₇).bind ?_
  intro _ st₈ _ h₈
  refine (dumpStrLst_realizes h₈.state.code h₈).bind ?_
  intro _ st₉ _ h₉
  refine h₉.line ?_
  intro st₁₀ h₁₀ _
  refine (realizes_inWorld _).mono ?_
  intro _ st₁₁ _ hpost
  obtain ⟨-, w, rfl⟩ := hpost
  exact h₁₀.setWorld w

end Rdpgen.OnHeap
