import Rdpgen.Parser
import Mathlib.Data.List.Forall2

namespace Rdpgen

/-- A finite list of tokens, then the end of input for ever. Reading an error
token counts one error. -/
def nextToken (w : World (List Tok)) : World (List Tok) :=
  match w.input with
  | [] => { w with tok := ⟨.END_OF_INPUT, []⟩ }
  | t :: ts =>
    { w with input := ts, tok := t, errors := if t.type = .ERROR then w.errors + 1 else w.errors }

def listSource : TokenSource (List Tok) where
  openInput := pure ()
  consumeToken := do
    Prog.modify nextToken
    getToken Token.unset

/-! ### The grammar of grammar files -/

/-- `COLON SYMBOL* BLOCK` -/
inductive IsPattern : List Tok → Pattern → Prop
  | mk (colon : Tok) (symbols : List Tok) (block : Tok) : colon.type = .COLON →
      (∀ t ∈ symbols, t.type = .SYMBOL) → block.type = .BLOCK →
      IsPattern (colon :: (symbols ++ [block]))
        { elems := symbols.map fun t => { str := copyStr t.str, isTerminal := false },
          code := some (copyStr block.str) }

inductive Item where
  | rule (name : STR) (patterns : List Pattern)
  | verbosity (number : STR)
  | name (text : STR)
  | outputPrefix (text : STR)
  | code (block : STR)

/-- `SYMBOL pattern+`, or a directive and its value -/
inductive IsItem : List Tok → Item → Prop
  | rule (name : Tok) (tss : List (List Tok)) (patterns : List Pattern) : name.type = .SYMBOL →
      patterns ≠ [] → List.Forall₂ IsPattern tss patterns →
      IsItem (name :: tss.flatten) (.rule (copyStr name.str) patterns)
  | verbosity (d v : Tok) : d.type = .VERBOSITY → v.type = .NUMBER →
      IsItem [d, v] (.verbosity (copyStr v.str))
  | name (d v : Tok) : d.type = .NAME → v.type = .STRG → IsItem [d, v] (.name (copyStr v.str))
  | outputPrefix (d v : Tok) : d.type = .PREFIX → v.type = .STRG →
      IsItem [d, v] (.outputPrefix (copyStr v.str))
  | code (d v : Tok) : d.type = .CODE → v.type = .BLOCK → IsItem [d, v] (.code (copyStr v.str))

inductive IsFile : List Tok → List Item → Prop
  | nil : IsFile [] []
  | cons {ts rest : List Tok} {item : Item} {items : List Item} :
      IsItem ts item → IsFile rest items → IsFile (ts ++ rest) (item :: items)

namespace Item

def rule? : Item → Option Rule
  | rule n patterns => some { name := n, isRecursive := false, hasNonterms := false, patterns }
  | _ => none

def verbosity? : Item → Option STR
  | verbosity number => some number
  | _ => none

def name? : Item → Option STR
  | name text => some text
  | _ => none

def outputPrefix? : Item → Option STR
  | outputPrefix text => some text
  | _ => none

def code? : Item → Option STR
  | code block => some block
  | _ => none

end Item

/-- The parser state that the items of a file describe. -/
def stateOf (items : List Item) : Pstate where
  finished := false
  verbo := ((items.filterMap Item.verbosity?).getLast?.map fun s => toInt (strtol s)).getD 5
  name := (items.filterMap Item.name?).getLast?.getD []
  outputPrefix := (items.filterMap Item.outputPrefix?).getLast?.getD []
  code := items.filterMap Item.code?
  rules := items.filterMap Item.rule?
  terminals := []
  nonTerminals := []

/-- What the parser does to its state for one item. -/
def Item.store (state : Pstate) : Item → Pstate
  | rule n patterns =>
    { state with
      rules := state.rules ++ [{ name := n, isRecursive := false, hasNonterms := false, patterns }] }
  | verbosity number => { state with verbo := toInt (strtol number) }
  | name text => { state with name := text }
  | outputPrefix text => { state with outputPrefix := text }
  | code block => { state with code := state.code ++ [block] }

theorem stateOf_append (items : List Item) (item : Item) :
    stateOf (items ++ [item]) = item.store (stateOf items) := by
  cases item <;>
    simp [stateOf, Item.store, List.filterMap_append, Item.rule?, Item.verbosity?, Item.name?,
      Item.outputPrefix?, Item.code?]

theorem IsFile.snoc {ts rest : List Tok} {items : List Item} {item : Item} (h : IsFile ts items)
    (hi : IsItem rest item) : IsFile (ts ++ rest) (items ++ [item]) := by
  induction h with
  | nil => simpa using IsFile.cons hi .nil
  | cons hj _ ih =>
    rw [List.append_assoc]
    exact .cons hj ih

/-! ### The token list as the parser sees it -/

/-- The tokens not used up: the current one and those behind it. -/
def World.pending (w : World (List Tok)) : List Tok :=
  if w.tok.type = .END_OF_INPUT then [] else w.tok :: w.input

/-- The end of input is no token of the list. -/
structure World.Proper (w : World (List Tok)) : Prop where
  input : ∀ t ∈ w.input, t.type ≠ .END_OF_INPUT
  tok : w.tok.type = .END_OF_INPUT → w.input = []

theorem World.Proper.congr {v w : World (List Tok)} (h : v.Proper) (hi : w.input = v.input)
    (ht : w.tok = v.tok) : w.Proper :=
  ⟨hi ▸ h.input, fun hw => hi ▸ h.tok (ht ▸ hw)⟩

theorem pending_nextToken {w : World (List Tok)} (h : ∀ t ∈ w.input, t.type ≠ .END_OF_INPUT) :
    (nextToken w).pending = w.input := by
  cases hi : w.input with
  | nil => simp [nextToken, hi, World.pending]
  | cons t ts => simp [nextToken, hi, World.pending, h t (by simp [hi])]

theorem proper_nextToken {w : World (List Tok)} (h : ∀ t ∈ w.input, t.type ≠ .END_OF_INPUT) :
    (nextToken w).Proper := by
  cases hi : w.input with
  | nil => exact ⟨by simp [nextToken, hi], by simp [nextToken, hi]⟩
  | cons t ts =>
    refine ⟨fun s hs => h s ?_, ?_⟩
    · simp only [nextToken, hi] at hs
      simp [hi, hs]
    · simp [nextToken, hi, h t (by simp [hi])]

theorem errors_nextToken (w : World (List Tok)) : w.errors ≤ (nextToken w).errors := by
  cases hi : w.input with
  | nil => simp [nextToken, hi]
  | cons t ts =>
    simp only [nextToken, hi]
    split <;> omega

theorem length_input_nextToken (w : World (List Tok)) :
    (nextToken w).input.length ≤ w.input.length := by
  cases hi : w.input with
  | nil => simp [nextToken, hi]
  | cons t ts => simp [nextToken, hi]

theorem pending_of_ne {w : World (List Tok)} (h : w.tok.type ≠ .END_OF_INPUT) :
    w.pending = w.tok :: w.input := by
  rw [World.pending, if_neg h]

/-! ### What the parser accepts is derivable -/

section Sound

theorem wp_listConsume {w : World (List Tok)} {Q : Token → World (List Tok) → Prop}
    {E : Halt → World (List Tok) → Prop} {D : Prop}
    (k : ∀ tk : Token, tk.type = (nextToken w).tok.type → tk.str = copyStr (nextToken w).tok.str →
      Q tk (nextToken w)) : listSource.consumeToken.wp Q E D w := by
  unfold listSource
  simp only [Prog.wp_bind, Prog.wp_modify, getToken, Prog.wp_gets]
  exact k _ rfl rfl

structure PatternLoop (w : World (List Tok)) (l : Token × List PatElem) (v : World (List Tok)) :
    Prop where
  proper : v.Proper
  type : l.1.type = v.tok.type
  str : l.1.str = copyStr v.tok.str
  length : v.pending.length ≤ w.input.length
  errors : w.errors ≤ v.errors
  read : v.errors = w.errors → ∃ symbols : List Tok, w.input = symbols ++ v.pending ∧
    (∀ t ∈ symbols, t.type = .SYMBOL) ∧
    l.2 = symbols.map fun t => { str := copyStr t.str, isTerminal := false }

theorem PatternLoop.pass {w v : World (List Tok)} {l : Token × List PatElem}
    (h : PatternLoop w l v) (hs : l.1.type = .SYMBOL) :
    (patternBody listSource l).wp
      (fun l' v' => PatternLoop w l' v' ∧ v'.pending.length < v.pending.length)
      (fun _ _ => False) False v := by
  have hv : v.tok.type = .SYMBOL := h.type ▸ hs
  have hp := pending_of_ne (w := v) (by rw [hv]; decide)
  unfold patternBody
  simp only [Prog.wp_bind]
  refine wp_listConsume fun tk ht hstr => Prog.wp_pure.mpr ?_
  have hn := pending_nextToken h.proper.input
  have hlen : (nextToken v).pending.length < v.pending.length := by rw [hn, hp]; simp
  refine ⟨⟨proper_nextToken h.proper.input, ht, hstr, hlen.le.trans h.length,
    h.errors.trans (errors_nextToken v), ?_⟩, hlen⟩
  intro he
  have hev : v.errors = w.errors := le_antisymm (he ▸ errors_nextToken v) h.errors
  obtain ⟨symbols, hi, hsym, hl⟩ := h.read hev
  refine ⟨symbols ++ [v.tok], by rw [hi, hp, hn]; simp, ?_, ?_⟩
  · intro t ht
    rcases List.mem_append.mp ht with ht | ht
    · exact hsym t ht
    · rw [List.mem_singleton.mp ht, hv]
  · simp [hl, h.str, copyStr]

theorem parsePattern_sound {w : World (List Tok)} (hw : ∀ t ∈ w.input, t.type ≠ .END_OF_INPUT) :
    (parsePattern listSource).wp
      (fun pattern v => v.Proper ∧ v.input.length ≤ w.input.length ∧ w.errors ≤ v.errors ∧
        (v.errors = w.errors → ∀ colon : Tok, colon.type = .COLON →
          ∃ ts, IsPattern (colon :: ts) pattern ∧ w.input = ts ++ v.input))
      (fun _ _ => False) False w := by
  unfold parsePattern
  simp only [Prog.wp_bind]
  refine wp_listConsume fun tk ht hstr => ?_
  have hstart : PatternLoop w (tk, []) (nextToken w) :=
    ⟨proper_nextToken hw, ht, hstr, (congrArg List.length (pending_nextToken hw)).le,
      errors_nextToken w, fun _ => ⟨[], by simp [pending_nextToken hw]⟩⟩
  refine Prog.wp_whileDo_of_measure (PatternLoop w) (fun _ v => v.pending.length) ?_ ?_ hstart
  · intro l v h hc
    exact h.pass (by simpa using hc)
  · intro l v h hc
    obtain ⟨tok, elems⟩ := l
    simp only [getToken, Prog.wp_gets]
    by_cases hb : v.tok.type = .BLOCK
    · have hp := pending_of_ne (w := v) (by rw [hb]; decide)
      rw [if_pos hb]
      refine Prog.wp_pure.mpr ⟨h.proper, ?_, h.errors, ?_⟩
      · have hl := h.length
        rw [hp, List.length_cons] at hl
        omega
      · intro he colon hcolon
        obtain ⟨symbols, hi, hsym, hl⟩ := h.read he
        simp only at hl
        subst hl
        refine ⟨symbols ++ [v.tok], ?_, by rw [hi, hp]; simp⟩
        have hpat := IsPattern.mk colon symbols v.tok hcolon hsym hb
        simpa [copyStr] using hpat
    · rw [if_neg hb]
      simp only [Prog.wp_bind]
      refine syntaxError_wp fun u hi ht hu => Prog.wp_pure.mpr ?_
      have hl := h.length
      have he := h.errors
      refine ⟨h.proper.congr hi ht, ?_, by omega, by omega⟩
      rw [hi]
      by_cases hend : v.tok.type = .END_OF_INPUT
      · simp [h.proper.tok hend]
      · rw [pending_of_ne hend, List.length_cons] at hl
        omega

structure RuleLoop (w : World (List Tok)) (l : Token × List Pattern) (v : World (List Tok)) :
    Prop where
  proper : v.Proper
  type : l.1.type = v.tok.type
  length : v.pending.length ≤ w.input.length
  errors : w.errors ≤ v.errors
  read : v.errors = w.errors → ∃ tss : List (List Tok), w.input = tss.flatten ++ v.pending ∧
    List.Forall₂ IsPattern tss l.2

theorem RuleLoop.pass {w v : World (List Tok)} {l : Token × List Pattern}
    (h : RuleLoop w l v) (hc : l.1.type = .COLON) :
    (ruleBody listSource l).wp
      (fun l' v' => RuleLoop w l' v' ∧ v'.pending.length < v.pending.length)
      (fun _ _ => False) False v := by
  have hv : v.tok.type = .COLON := h.type ▸ hc
  have hp := pending_of_ne (w := v) (by rw [hv]; decide)
  unfold ruleBody
  simp only [Prog.wp_bind]
  apply (parsePattern_sound h.proper.input).imp
  intro pattern u hpost
  obtain ⟨hu, hlen, herr, hread⟩ := hpost
  refine wp_listConsume fun tk ht _ => Prog.wp_pure.mpr ?_
  have hn := pending_nextToken hu.input
  have hlt : (nextToken u).pending.length < v.pending.length := by
    rw [hn, hp, List.length_cons]
    omega
  have hmono := errors_nextToken u
  have hbase := h.errors
  refine ⟨⟨proper_nextToken hu.input, ht, hlt.le.trans h.length, by omega, ?_⟩, hlt⟩
  intro he
  obtain ⟨tss, hi, hf⟩ := h.read (by omega)
  obtain ⟨ts, hpat, hts⟩ := hread (by omega) v.tok hv
  refine ⟨tss ++ [v.tok :: ts], ?_, List.rel_append hf (.cons hpat .nil)⟩
  rw [hi, hp, hts, hn]
  simp

/-- One item has been read, or an error has been counted. -/
structure ItemRead (w v : World (List Tok)) : Prop where
  proper : v.Proper
  length : v.pending.length < w.pending.length
  errors : w.errors ≤ v.errors
  read : v.errors = w.errors → ∃ ts item, w.pending = ts ++ v.pending ∧ IsItem ts item

theorem parseRule_sound {w : World (List Tok)} (hw : w.Proper) (ht : w.tok.type = .SYMBOL)
    (state : Pstate) :
    (parseRule listSource state).wp (fun _ => ItemRead w) (fun _ _ => False) False w := by
  have hp := pending_of_ne (w := w) (by rw [ht]; decide)
  unfold parseRule
  simp only [getToken, Prog.wp_bind, Prog.wp_gets]
  refine wp_listConsume fun tk htk _ => ?_
  have hstart : RuleLoop w (tk, []) (nextToken w) :=
    ⟨proper_nextToken hw.input, htk, (congrArg List.length (pending_nextToken hw.input)).le,
      errors_nextToken w, fun _ => ⟨[], by simp [pending_nextToken hw.input]⟩⟩
  refine Prog.wp_whileDo_of_measure (RuleLoop w) (fun _ v => v.pending.length) ?_ ?_ hstart
  · intro l v h hc
    exact h.pass (by simpa using hc)
  · intro l v h _
    obtain ⟨tok, patterns⟩ := l
    have hlt : v.pending.length < w.pending.length := by
      rw [hp, List.length_cons]
      exact Nat.lt_succ_of_le h.length
    by_cases hz : patterns.length = 0
    · rw [if_pos hz]
      simp only [tokenType, Prog.wp_bind, Prog.wp_gets]
      refine syntaxError_wp fun u hi ht hu => Prog.wp_pure.mpr ?_
      have he := h.errors
      refine ⟨h.proper.congr hi ht, ?_, by omega, by omega⟩
      rw [World.pending, ht, hi]
      exact hlt
    · rw [if_neg hz]
      refine Prog.wp_pure.mpr ⟨h.proper, hlt, h.errors, fun he => ?_⟩
      obtain ⟨tss, hi, hf⟩ := h.read he
      refine ⟨w.tok :: tss.flatten, .rule (copyStr w.tok.str) patterns, ?_, ?_⟩
      · rw [hp, hi, List.cons_append]
      · exact .rule w.tok tss patterns ht (fun hn => hz (by simp [hn])) hf

theorem parseDirective_sound {w : World (List Tok)} (hw : w.Proper) {want : TokenType}
    (hd : w.tok.type ≠ .END_OF_INPUT) (hwant : want ≠ .END_OF_INPUT) {fmt : String}
    {store : STR → Pstate → Pstate} {item : Tok → Item} (state : Pstate)
    (hitem : ∀ v : Tok, v.type = want → IsItem [w.tok, v] (item v)) :
    (parseDirective listSource want fmt store state).wp (fun _ => ItemRead w) (fun _ _ => False)
      False w := by
  have hp := pending_of_ne hd
  have hn := pending_nextToken hw.input
  have hproper := proper_nextToken hw.input
  have herr := errors_nextToken w
  unfold parseDirective
  simp only [Prog.wp_bind]
  refine wp_listConsume fun tk htk _ => ?_
  by_cases hv : tk.type = want
  · have hvw : (nextToken w).tok.type = want := htk ▸ hv
    have hp' := pending_of_ne (w := nextToken w) (by rw [hvw]; exact hwant)
    have hn' := pending_nextToken hproper.input
    rw [if_pos hv]
    simp only [getToken, Prog.wp_bind, Prog.wp_gets, Prog.wp_pure]
    refine wp_listConsume fun tk' _ _ => Prog.wp_pure.mpr ?_
    refine ⟨proper_nextToken hproper.input, ?_, herr.trans (errors_nextToken _), fun _ => ?_⟩
    · rw [hn', hp, ← hn, hp', List.length_cons, List.length_cons]
      omega
    · refine ⟨[w.tok, (nextToken w).tok], item (nextToken w).tok, ?_, hitem _ hvw⟩
      rw [hp, hn', ← hn, hp']
      rfl
  · rw [if_neg hv]
    simp only [Prog.wp_bind]
    refine syntaxError_wp fun u hi _ he => Prog.wp_pure.mpr ?_
    refine wp_listConsume fun tk' _ _ => Prog.wp_pure.mpr ?_
    have hui : ∀ t ∈ u.input, t.type ≠ .END_OF_INPUT := hi ▸ hproper.input
    have herru := errors_nextToken u
    refine ⟨proper_nextToken hui, ?_, by omega, by omega⟩
    rw [pending_nextToken hui, hi, hp, List.length_cons]
    exact Nat.lt_succ_of_le (length_input_nextToken w)

/-- One round of the main loop reads an item, counts an error or finds the end. -/
theorem parseSwitch_sound {w : World (List Tok)} (hw : w.Proper) (state : Pstate) :
    (parseSwitch listSource w.tok.type state).wp
      (fun l v => l.2 = false ∧ ItemRead w v ∨ l.2 = false ∧ v.errors = w.errors + 1 ∨
        l.2 = true ∧ v = w ∧ w.pending = [])
      (fun _ _ => False) False w := by
  cases ht : w.tok.type
  case SYMBOL =>
    exact wp_more ((parseRule_sound hw ht state).imp fun _ _ hv => Or.inl ⟨rfl, hv⟩)
  case VERBOSITY =>
    refine wp_more ((parseDirective_sound hw (by simp [ht]) (by decide) state
      fun v hv => IsItem.verbosity w.tok v ht hv).imp fun _ _ hv => Or.inl ⟨rfl, hv⟩)
  case NAME =>
    refine wp_more ((parseDirective_sound hw (by simp [ht]) (by decide) state
      fun v hv => IsItem.name w.tok v ht hv).imp fun _ _ hv => Or.inl ⟨rfl, hv⟩)
  case PREFIX =>
    refine wp_more ((parseDirective_sound hw (by simp [ht]) (by decide) state
      fun v hv => IsItem.outputPrefix w.tok v ht hv).imp fun _ _ hv => Or.inl ⟨rfl, hv⟩)
  case CODE =>
    refine wp_more ((parseDirective_sound hw (by simp [ht]) (by decide) state
      fun v hv => IsItem.code w.tok v ht hv).imp fun _ _ hv => Or.inl ⟨rfl, hv⟩)
  case END_OF_INPUT => exact Prog.wp_pure.mpr (Or.inr (Or.inr ⟨rfl, rfl, if_pos ht⟩))
  all_goals exact wp_unexpected fun v _ _ he => Or.inr (Or.inl ⟨rfl, he⟩)

structure FileLoop (ts : List Tok) (l : Pstate × Bool) (v : World (List Tok)) : Prop where
  read : v.errors = 0 → v.Proper ∧ ∃ before items, ts = before ++ v.pending ∧ IsFile before items
  finished : l.2 = true → v.pending = []

theorem parseInput_sound {ts : List Tok} (hts : ∀ t ∈ ts, t.type ≠ .END_OF_INPUT) :
    (parseInput listSource).wp (fun _ v => v.errors = 0 → ∃ items, IsFile ts items)
      (fun _ _ => False) False (World.boot ts) := by
  have hn := pending_nextToken (w := World.boot ts) hts
  have hproper := proper_nextToken (w := World.boot ts) hts
  unfold parseInput
  simp only [createParser, Prog.wp_bind]
  refine Prog.wp_pure.mpr (wp_listConsume fun tk _ _ => Prog.wp_pure.mpr ?_)
  -- The loop stops at the first error: from there on the tokens do not matter.
  refine Prog.wp_whileDo_of_measure (FileLoop ts)
    (fun l v => if !l.2 && v.errors == 0 then v.pending.length + 1 else 0) ?_ ?_
    ⟨fun _ => ⟨hproper, [], [], hn.symm, .nil⟩, by simp⟩
  · intro l v h hc
    obtain ⟨hl, he⟩ : l.2 = false ∧ v.errors = 0 := by simpa using hc
    obtain ⟨hv, before, items, hts, hf⟩ := h.read he
    unfold parsePass
    simp only [tokenType, Prog.wp_bind, Prog.wp_gets]
    refine (parseSwitch_sound hv l.1).imp fun l' v' hstep => ?_
    rw [if_pos hc]
    rcases hstep with ⟨hl', hr⟩ | ⟨hl', he'⟩ | ⟨hl', rfl, hend⟩
    · refine ⟨⟨fun he' => ⟨hr.proper, ?_⟩, by simp [hl']⟩, ?_⟩
      · obtain ⟨us, item, hus, hitem⟩ := hr.read (he'.trans he.symm)
        exact ⟨before ++ us, items ++ [item], by rw [hts, hus, List.append_assoc], hf.snoc hitem⟩
      · have := hr.length
        split <;> omega
    · refine ⟨⟨fun h0 => by omega, by simp [hl']⟩, ?_⟩
      simp [hl', he']
    · exact ⟨⟨h.read, fun _ => hend⟩, by simp [hl']⟩
  · intro l v h hc
    refine Prog.wp_pure.mpr fun he => ?_
    have hl : l.2 = true := by simpa [he] using hc
    obtain ⟨_, before, items, hts, hf⟩ := h.read he
    rw [h.finished hl, List.append_nil] at hts
    exact ⟨items, hts ▸ hf⟩

end Sound

/-! ### What is derivable is accepted -/

section Complete

/-- The parser has read no error and stands in front of the tokens `ts`. -/
structure World.At (w : World (List Tok)) (ts : List Tok) : Prop where
  proper : w.Proper
  pending : w.pending = ts
  noError : ∀ t ∈ w.input, t.type ≠ .ERROR
  errors : w.errors = 0

theorem World.At.cons {w : World (List Tok)} {t : Tok} {ts : List Tok} (h : w.At (t :: ts)) :
    w.tok = t ∧ w.input = ts := by
  have hp := h.pending
  rw [World.pending] at hp
  split at hp
  · exact absurd hp (by simp)
  · exact List.cons.inj hp

theorem World.At.nil {w : World (List Tok)} (h : w.At []) : w.tok.type = .END_OF_INPUT := by
  have hp := h.pending
  rw [World.pending] at hp
  split at hp
  · assumption
  · exact absurd hp (by simp)

theorem at_nextToken {w : World (List Tok)} {ts : List Tok}
    (hend : ∀ t ∈ w.input, t.type ≠ .END_OF_INPUT) (herr : ∀ t ∈ w.input, t.type ≠ .ERROR)
    (h0 : w.errors = 0) (hi : w.input = ts) : (nextToken w).At ts := by
  refine ⟨proper_nextToken hend, (pending_nextToken hend).trans hi, ?_, ?_⟩
  · cases hw : w.input with
    | nil => simp [nextToken, hw]
    | cons t us =>
      rw [hw] at herr
      simpa [nextToken, hw] using fun s hs => herr s (List.mem_cons_of_mem t hs)
  · cases hw : w.input with
    | nil => simpa [nextToken, hw] using h0
    | cons t us => simpa [nextToken, hw, herr t (by simp [hw])] using h0

theorem World.At.consume {w : World (List Tok)} {t : Tok} {ts : List Tok} (h : w.At (t :: ts))
    {Q : Token → World (List Tok) → Prop} {E : Halt → World (List Tok) → Prop} {D : Prop}
    (k : ∀ tk v, v.At ts → tk.type = v.tok.type → tk.str = copyStr v.tok.str → Q tk v) :
    listSource.consumeToken.wp Q E D w :=
  wp_listConsume fun tk ht hs =>
    k tk _ (at_nextToken h.proper.input h.noError h.errors h.cons.2) ht hs

theorem patternLoop_complete {symbols rest : List Tok} {block : Tok}
    (hsym : ∀ t ∈ symbols, t.type = .SYMBOL) (hblock : block.type = .BLOCK)
    {l : Token × List PatElem} {w : World (List Tok)} (h : w.At (symbols ++ block :: rest))
    (ht : l.1.type = w.tok.type) (hs : l.1.str = copyStr w.tok.str) :
    (Prog.whileDo (fun l _ => l.1.type = .SYMBOL) (patternBody listSource) l).wp
      (fun l' v => v.At (block :: rest) ∧
        l'.2 = l.2 ++ symbols.map fun t => { str := copyStr t.str, isTerminal := false })
      (fun _ _ => False) False w := by
  induction symbols generalizing l w with
  | nil =>
    rw [Prog.wp_whileDo, if_neg (by simp [ht, h.cons.1, hblock])]
    exact ⟨h, by simp⟩
  | cons t symbols ih =>
    have htok := h.cons.1
    rw [Prog.wp_whileDo, if_pos (by simp [ht, htok, hsym t (by simp)])]
    unfold patternBody
    simp only [Prog.wp_bind]
    refine h.consume fun tk v hv ht' hs' => Prog.wp_pure.mpr ?_
    apply (ih (fun s hmem => hsym s (List.mem_cons_of_mem t hmem)) hv ht' hs').imp
    intro l' v' hpost
    obtain ⟨hv', hl'⟩ := hpost
    refine ⟨hv', ?_⟩
    rw [hl', hs, htok]
    simp [copyStr]

theorem parsePattern_complete {ts rest : List Tok} {pattern : Pattern} (hp : IsPattern ts pattern)
    {w : World (List Tok)} (h : w.At (ts ++ rest)) :
    (parsePattern listSource).wp (fun p v => p = pattern ∧ ∃ block, v.At (block :: rest))
      (fun _ _ => False) False w := by
  obtain ⟨colon, symbols, block, -, hsym, hblock⟩ := hp
  rw [List.cons_append, List.append_assoc] at h
  unfold parsePattern
  simp only [Prog.wp_bind]
  refine h.consume fun tk v hv ht hs => ?_
  apply (patternLoop_complete hsym hblock hv ht hs).imp
  intro l u hpost
  obtain ⟨tok, elems⟩ := l
  obtain ⟨hu, hl⟩ := hpost
  have htok := hu.cons.1
  simp only [getToken, Prog.wp_gets]
  rw [if_pos (by rw [htok, hblock])]
  refine Prog.wp_pure.mpr ⟨?_, block, hu⟩
  simp only [List.nil_append] at hl
  simp [hl, htok, copyStr]

theorem ruleLoop_complete {tss : List (List Tok)} {patterns : List Pattern} {rest : List Tok}
    (hf : List.Forall₂ IsPattern tss patterns) (hrest : ∀ t ∈ rest.head?, t.type ≠ .COLON)
    {l : Token × List Pattern} {w : World (List Tok)} (h : w.At (tss.flatten ++ rest))
    (ht : l.1.type = w.tok.type) :
    (Prog.whileDo (fun l _ => l.1.type = .COLON) (ruleBody listSource) l).wp
      (fun l' v => v.At rest ∧ l'.2 = l.2 ++ patterns) (fun _ _ => False) False w := by
  induction hf generalizing l w with
  | nil =>
    -- The token behind the rule is no colon: it starts an item, or it is the end of input.
    rw [Prog.wp_whileDo, if_neg ?_]
    · exact ⟨by simpa using h, by simp⟩
    · cases rest with
      | nil => simp [ht, World.At.nil (by simpa using h)]
      | cons t rest =>
        have hat : w.At (t :: rest) := by simpa using h
        simpa [ht, hat.cons.1] using hrest t (by simp)
  | @cons ts pattern tss patterns hp _ ih =>
    rw [List.flatten_cons, List.append_assoc] at h
    have hc : l.1.type = .COLON := by
      obtain ⟨colon, symbols, block, hcolon, -, -⟩ := hp
      rw [ht, (World.At.cons h).1, hcolon]
    rw [Prog.wp_whileDo, if_pos (by simp [hc])]
    unfold ruleBody
    simp only [Prog.wp_bind]
    apply (parsePattern_complete hp h).imp
    intro p v hpost
    obtain ⟨rfl, block, hv⟩ := hpost
    refine hv.consume fun tk u hu ht' _ => Prog.wp_pure.mpr ?_
    apply (ih hu ht').imp
    intro l' u' hpost
    obtain ⟨hu', hl'⟩ := hpost
    exact ⟨hu', by simp [hl']⟩

theorem parseRule_complete {name : Tok} {tss : List (List Tok)} {patterns : List Pattern}
    (hne : patterns ≠ []) (hf : List.Forall₂ IsPattern tss patterns) {rest : List Tok}
    (hrest : ∀ t ∈ rest.head?, t.type ≠ .COLON) {w : World (List Tok)}
    (h : w.At (name :: tss.flatten ++ rest)) (state : Pstate) :
    (parseRule listSource state).wp
      (fun state' v => state' = (Item.rule (copyStr name.str) patterns).store state ∧ v.At rest)
      (fun _ _ => False) False w := by
  have htok := (World.At.cons h).1
  unfold parseRule
  simp only [getToken, Prog.wp_bind, Prog.wp_gets]
  refine World.At.consume h fun tk v hv ht _ => ?_
  apply (ruleLoop_complete hf hrest hv ht).imp
  intro l u hpost
  obtain ⟨tok, patterns'⟩ := l
  obtain ⟨hu, hl⟩ := hpost
  rw [List.nil_append] at hl
  simp only at hl
  subst hl
  rw [if_neg (by simpa using hne)]
  refine Prog.wp_pure.mpr ⟨?_, hu⟩
  simp [Item.store, htok, copyStr]

theorem parseDirective_complete {d v : Tok} {rest : List Tok} {want : TokenType} {fmt : String}
    {store : STR → Pstate → Pstate} (hv : v.type = want) {w : World (List Tok)}
    (h : w.At (d :: v :: rest)) (state : Pstate) :
    (parseDirective listSource want fmt store state).wp
      (fun state' v' => state' = store (copyStr v.str) state ∧ v'.At rest) (fun _ _ => False) False
      w := by
  unfold parseDirective
  simp only [Prog.wp_bind]
  refine h.consume fun tk u hu ht _ => ?_
  have htok := hu.cons.1
  rw [if_pos (by rw [ht, htok, hv])]
  simp only [getToken, Prog.wp_bind, Prog.wp_gets, Prog.wp_pure]
  refine hu.consume fun tk' u' hu' _ _ => Prog.wp_pure.mpr ⟨by rw [htok], hu'⟩

theorem parseSwitch_complete {ts rest : List Tok} {item : Item} (hi : IsItem ts item)
    (hrest : ∀ t ∈ rest.head?, t.type ≠ .COLON) {w : World (List Tok)} (h : w.At (ts ++ rest))
    (state : Pstate) :
    (parseSwitch listSource w.tok.type state).wp
      (fun l v => l = (item.store state, false) ∧ v.At rest) (fun _ _ => False) False w := by
  have stored (v : Tok) : rawStr (copyStr v.str) = copyStr v.str := by simp [rawStr, copyStr]
  cases hi with
  | rule name tss patterns hn hne hf =>
    rw [(World.At.cons h).1, hn]
    refine wp_more ((parseRule_complete hne hf hrest h state).imp ?_)
    exact fun s v hv => ⟨by rw [hv.1], hv.2⟩
  | verbosity d v hd hv =>
    rw [(World.At.cons h).1, hd]
    refine wp_more ((parseDirective_complete hv h state).imp ?_)
    exact fun s u hu => ⟨by rw [hu.1, stored]; rfl, hu.2⟩
  | name d v hd hv =>
    rw [(World.At.cons h).1, hd]
    refine wp_more ((parseDirective_complete hv h state).imp ?_)
    exact fun s u hu => ⟨by simp [hu.1, Item.store, copyStr], hu.2⟩
  | outputPrefix d v hd hv =>
    rw [(World.At.cons h).1, hd]
    refine wp_more ((parseDirective_complete hv h state).imp ?_)
    exact fun s u hu => ⟨by simp [hu.1, Item.store, copyStr], hu.2⟩
  | code d v hd hv =>
    rw [(World.At.cons h).1, hd]
    refine wp_more ((parseDirective_complete hv h state).imp ?_)
    exact fun s u hu => ⟨by simp [hu.1, Item.store, copyStr], hu.2⟩

theorem IsItem.head_ne_colon {ts : List Tok} {item : Item} (h : IsItem ts item) :
    ∃ t us, ts = t :: us ∧ t.type ≠ .COLON := by
  cases h with
  | rule name tss patterns hn => exact ⟨_, _, rfl, by simp [hn]⟩
  | verbosity d v hd => exact ⟨_, _, rfl, by simp [hd]⟩
  | name d v hd => exact ⟨_, _, rfl, by simp [hd]⟩
  | outputPrefix d v hd => exact ⟨_, _, rfl, by simp [hd]⟩
  | code d v hd => exact ⟨_, _, rfl, by simp [hd]⟩

theorem IsFile.head_ne_colon {ts : List Tok} {items : List Item} (h : IsFile ts items) :
    ∀ t ∈ ts.head?, t.type ≠ .COLON := by
  cases h with
  | nil => simp
  | cons hi _ =>
    obtain ⟨t, us, rfl, ht⟩ := hi.head_ne_colon
    simpa using ht

theorem fileLoop_complete {ts : List Tok} {items : List Item} (hf : IsFile ts items)
    {w : World (List Tok)} (h : w.At ts) (state : Pstate) :
    (Prog.whileDo (fun l w => !l.2 && w.errors == 0) (parsePass listSource) (state, false)).wp
      (fun l v => l.1 = items.foldl (fun s item => item.store s) state ∧ v.At [])
      (fun _ _ => False) False w := by
  induction hf generalizing w state with
  | nil =>
    rw [Prog.wp_whileDo, if_pos (by simp [h.errors])]
    unfold parsePass
    simp only [tokenType, Prog.wp_bind, Prog.wp_gets, h.nil, parseSwitch]
    apply Prog.wp_pure.mpr
    rw [Prog.wp_whileDo, if_neg (by simp)]
    exact ⟨rfl, h⟩
  | cons hi hrest ih =>
    rw [Prog.wp_whileDo, if_pos (by simp [h.errors])]
    unfold parsePass
    simp only [tokenType, Prog.wp_bind, Prog.wp_gets]
    apply (parseSwitch_complete hi hrest.head_ne_colon h state).imp
    intro l v hpost
    obtain ⟨rfl, hv⟩ := hpost
    exact ih hv _

theorem foldl_store (items : List Item) :
    items.foldl (fun s item => item.store s) (stateOf []) = stateOf items := by
  induction items using List.reverseRecOn with
  | nil => rfl
  | append_singleton items item ih => rw [List.foldl_append, ih, stateOf_append]; rfl

theorem IsPattern.type_ne {ts : List Tok} {pattern : Pattern} (h : IsPattern ts pattern) :
    ∀ t ∈ ts, t.type ≠ .END_OF_INPUT ∧ t.type ≠ .ERROR := by
  obtain ⟨colon, symbols, block, hcolon, hsym, hblock⟩ := h
  intro t ht
  simp only [List.mem_cons, List.mem_append, List.not_mem_nil, or_false] at ht
  rcases ht with rfl | ht | rfl
  · simp [hcolon]
  · simp [hsym t ht]
  · simp [hblock]

theorem IsItem.type_ne {ts : List Tok} {item : Item} (h : IsItem ts item) :
    ∀ t ∈ ts, t.type ≠ .END_OF_INPUT ∧ t.type ≠ .ERROR := by
  cases h with
  | rule name tss patterns hn hne hf =>
    intro t ht
    rcases List.mem_cons.mp ht with rfl | ht
    · simp [hn]
    · obtain ⟨us, hus, ht⟩ := List.mem_flatten.mp ht
      obtain ⟨i, hi, rfl⟩ := List.mem_iff_getElem.mp hus
      have hlen := hf.length_eq
      exact IsPattern.type_ne (List.Forall₂.get hf hi (hlen ▸ hi)) t ht
  | verbosity d v hd hv => simp [hd, hv]
  | name d v hd hv => simp [hd, hv]
  | outputPrefix d v hd hv => simp [hd, hv]
  | code d v hd hv => simp [hd, hv]

theorem IsFile.type_ne {ts : List Tok} {items : List Item} (h : IsFile ts items) :
    ∀ t ∈ ts, t.type ≠ .END_OF_INPUT ∧ t.type ≠ .ERROR := by
  induction h with
  | nil => simp
  | cons hi _ ih =>
    intro t ht
    rcases List.mem_append.mp ht with ht | ht
    · exact hi.type_ne t ht
    · exact ih t ht

theorem parseInput_complete {ts : List Tok} {items : List Item} (h : IsFile ts items) :
    (parseInput listSource).wp (fun state w => state = stateOf items ∧ w.errors = 0 ∧ w.input = [])
      (fun _ _ => False) False (World.boot ts) := by
  unfold parseInput
  simp only [createParser, Prog.wp_bind]
  refine Prog.wp_pure.mpr (wp_listConsume fun tk _ _ => Prog.wp_pure.mpr ?_)
  have hat : (nextToken (World.boot ts)).At ts :=
    at_nextToken (fun t ht => (h.type_ne t ht).1) (fun t ht => (h.type_ne t ht).2) rfl rfl
  apply (fileLoop_complete h hat _).imp
  intro l v hpost
  obtain ⟨hl, hv⟩ := hpost
  exact Prog.wp_pure.mpr ⟨hl.trans (foldl_store items), hv.errors, hv.proper.tok hv.nil⟩

end Complete

/-- The parser always returns. It accepts the derivable token lists, reads
them to the end and builds the state they describe. -/
theorem parseInput_accepts (ts : List Tok) (hts : ∀ t ∈ ts, t.type ≠ .END_OF_INPUT) :
    ∃ state w, (parseInput listSource).Runs (World.boot ts) (.ok state w) ∧
      (w.errors = 0 ↔ ∃ items, IsFile ts items) ∧
      ∀ items, IsFile ts items → state = stateOf items ∧ w.input = [] := by
  obtain ⟨state, w, hr, hs⟩ := (parseInput_sound hts).returns
  have complete : ∀ items, IsFile ts items →
      state = stateOf items ∧ w.errors = 0 ∧ w.input = [] :=
    fun items h => (Prog.wp_of_runs_ok hr).mp (parseInput_complete h)
  refine ⟨state, w, hr, ⟨hs, ?_⟩, fun items h => ?_⟩
  · intro hitems
    obtain ⟨items, h⟩ := hitems
    exact (complete items h).2.1
  · obtain ⟨hstate, -, hi⟩ := complete items h
    exact ⟨hstate, hi⟩

/-- The file `%verbosity 7 r : x {}`. -/
theorem parseInput_accepts_rule :
    ∃ state w, (parseInput listSource).Runs
        (World.boot [⟨.VERBOSITY, []⟩, ⟨.NUMBER, [55]⟩, ⟨.SYMBOL, [114]⟩, ⟨.COLON, []⟩,
          ⟨.SYMBOL, [120]⟩, ⟨.BLOCK, []⟩]) (.ok state w) ∧
      w.errors = 0 ∧ state.verbo = 7 ∧
      state.rules = [⟨[114], false, false, [⟨[⟨[120], false⟩], some []⟩]⟩] := by
  have hfile : IsFile [⟨.VERBOSITY, []⟩, ⟨.NUMBER, [55]⟩, ⟨.SYMBOL, [114]⟩, ⟨.COLON, []⟩,
      ⟨.SYMBOL, [120]⟩, ⟨.BLOCK, []⟩]
      [.verbosity [55], .rule [114] [⟨[⟨[120], false⟩], some []⟩]] := by
    have hpattern := IsPattern.mk ⟨.COLON, []⟩ [⟨.SYMBOL, [120]⟩] ⟨.BLOCK, []⟩ rfl (by simp) rfl
    have hrule := IsItem.rule ⟨.SYMBOL, [114]⟩ _ _ rfl (by simp) (.cons hpattern .nil)
    have hverbosity := IsItem.verbosity ⟨.VERBOSITY, []⟩ ⟨.NUMBER, [55]⟩ rfl rfl
    exact .cons hverbosity (.cons hrule .nil)
  obtain ⟨state, w, hr, hiff, hstate⟩ := parseInput_accepts [⟨.VERBOSITY, []⟩, ⟨.NUMBER, [55]⟩,
    ⟨.SYMBOL, [114]⟩, ⟨.COLON, []⟩, ⟨.SYMBOL, [120]⟩, ⟨.BLOCK, []⟩] (by decide)
  obtain ⟨rfl, -⟩ := hstate _ hfile
  exact ⟨_, w, hr, hiff.mpr ⟨_, hfile⟩, by decide, rfl⟩

end Rdpgen
