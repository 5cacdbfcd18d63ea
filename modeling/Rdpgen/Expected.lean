import Rdpgen.Grammar

namespace Rdpgen

/-- A grammar file can go on with `t` behind the tokens `before`, or end there if `t` is the end of
input. -/
def Continues (before : List Tok) (t : Tok) : Prop :=
  if t.type = .END_OF_INPUT then ∃ items, IsFile before items
  else ∃ us items, IsFile (before ++ t :: us) items

/-- What each message of the parser asks for. -/
def expectations : List (String × List TokenType) :=
  [("expected rule or directive but got %s", [.SYMBOL, .VERBOSITY, .NAME, .PREFIX, .CODE]),
    ("expected a rule pattern but got a %s", [.COLON]),
    ("expected a code block at the end of the pattern, but got %s", [.BLOCK]),
    ("expected a number but got a %s", [.NUMBER]),
    ("expected a string but got a %s", [.STRG]),
    ("expected a code block but got a %s", [.BLOCK])]

/-- The places of a grammar file: in front of an item, behind the name of a rule, in a pattern,
behind a pattern, behind a directive, and behind the end of input. -/
inductive GrammarPlace where
  | top
  | named
  | pattern
  | ruled
  | number
  | text
  | block
  | closed
  deriving DecidableEq

namespace GrammarPlace

def start : TokenType → Option GrammarPlace
  | .SYMBOL => some named
  | .VERBOSITY => some number
  | .NAME | .PREFIX => some text
  | .CODE => some block
  | .END_OF_INPUT => some closed
  | _ => none

def step : GrammarPlace → TokenType → Option GrammarPlace
  | top, type => start type
  | named, .COLON => some pattern
  | pattern, .SYMBOL => some pattern
  | pattern, .BLOCK => some ruled
  | ruled, .COLON => some pattern
  | ruled, type => start type
  | number, .NUMBER => some top
  | text, .STRG => some top
  | block, .BLOCK => some top
  | _, _ => none

def run (p : GrammarPlace) (ts : List Tok) : Option GrammarPlace :=
  ts.foldlM (fun p t => p.step t.type) p

/-- The format of the message about a token that cannot stand at a place. -/
def fmt : GrammarPlace → String
  | top | ruled | closed => "expected rule or directive but got %s"
  | named => "expected a rule pattern but got a %s"
  | pattern => "expected a code block at the end of the pattern, but got %s"
  | number => "expected a number but got a %s"
  | text => "expected a string but got a %s"
  | block => "expected a code block but got a %s"

/-- An item may begin here, and the file may end. -/
def Open (p : GrammarPlace) : Prop := p = top ∨ p = ruled

section

variable {p q : GrammarPlace} {t : Tok} {ts us : List Tok}

theorem run_cons (h : p.step t.type = some q) : p.run (t :: ts) = q.run ts := by
  simp [run, List.foldlM_cons, h]

theorem run_append (h : p.run ts = some q) : p.run (ts ++ us) = q.run us := by
  unfold run at h ⊢
  rw [List.foldlM_append, h]
  rfl

theorem exists_run_of_append (h : p.run (ts ++ us) = some q) :
    ∃ r, p.run ts = some r ∧ r.run us = some q := by
  unfold run at h ⊢
  rw [List.foldlM_append] at h
  exact Option.bind_eq_some_iff.mp h

theorem exists_step_of_cons (h : p.run (t :: ts) = some q) :
    ∃ r, p.step t.type = some r ∧ r.run ts = some q := by
  unfold run at h ⊢
  rw [List.foldlM_cons] at h
  exact Option.bind_eq_some_iff.mp h

/-- Behind a name or a directive tokens of one type alone can stand. -/
theorem step_of_ne {type want : TokenType} (hp : p = named ∨ p = number ∨ p = text ∨ p = block)
    (h : p.step want = some q) (hne : type ≠ want) : p.step type = none := by
  rcases hp with rfl | rfl | rfl | rfl <;> cases want <;> cases h <;> cases type
  all_goals first | rfl | exact absurd rfl hne

theorem Open.step (h : p.Open) (ht : t.type ≠ .COLON) : p.step t.type = start t.type := by
  rcases h with rfl | rfl
  · rfl
  · cases hty : t.type
    case COLON => exact absurd hty ht
    all_goals rfl

end

end GrammarPlace

/-! ### A grammar file goes from place to place -/

section

variable {p : GrammarPlace} {ts : List Tok}

theorem IsPattern.run {pattern : Pattern} (h : IsPattern ts pattern)
    (hp : p.step .COLON = some .pattern) : p.run ts = some .ruled := by
  obtain ⟨colon, symbols, block, hcolon, hsym, hblock⟩ := h
  have hsymbols : GrammarPlace.pattern.run symbols = some .pattern := by
    induction symbols with
    | nil => rfl
    | cons t symbols ih =>
      rw [GrammarPlace.run_cons (q := .pattern) (by rw [hsym t (by simp)]; rfl)]
      exact ih fun s hs => hsym s (List.mem_cons_of_mem t hs)
  rw [GrammarPlace.run_cons (by rw [hcolon, hp]), GrammarPlace.run_append hsymbols,
    GrammarPlace.run_cons (q := .ruled) (by rw [hblock]; rfl)]
  rfl

theorem patterns_run {tss : List (List Tok)} {patterns : List Pattern}
    (h : List.Forall₂ IsPattern tss patterns) : GrammarPlace.ruled.run tss.flatten = some .ruled := by
  induction h with
  | nil => rfl
  | cons hp _ ih =>
    rw [List.flatten_cons, GrammarPlace.run_append (hp.run rfl), ih]

theorem IsItem.run {item : Item} (h : IsItem ts item) (hp : p.Open) :
    ∃ q : GrammarPlace, q.Open ∧ p.run ts = some q := by
  have directive {d v : Tok} {q : GrammarPlace} (hd : d.type ≠ .COLON)
      (hq : GrammarPlace.start d.type = some q) (hv : q.step v.type = some .top) : ∃ q : GrammarPlace, q.Open ∧ p.run [d, v] = some q := by
    refine ⟨.top, Or.inl rfl, ?_⟩
    rw [GrammarPlace.run_cons ((hp.step hd).trans hq), GrammarPlace.run_cons hv]
    rfl
  cases h with
  | rule name tss patterns hname hne hf =>
    cases hf with
    | nil => exact absurd rfl hne
    | cons hpat hrest =>
      refine ⟨.ruled, Or.inr rfl, ?_⟩
      rw [GrammarPlace.run_cons (q := .named) ((hp.step (by simp [hname])).trans (by rw [hname]; rfl)),
        List.flatten_cons, GrammarPlace.run_append (hpat.run rfl), patterns_run hrest]
  | verbosity d v hd hv => exact directive (by simp [hd]) (by rw [hd]; rfl) (by rw [hv]; rfl)
  | name d v hd hv => exact directive (by simp [hd]) (by rw [hd]; rfl) (by rw [hv]; rfl)
  | outputPrefix d v hd hv => exact directive (by simp [hd]) (by rw [hd]; rfl) (by rw [hv]; rfl)
  | code d v hd hv => exact directive (by simp [hd]) (by rw [hd]; rfl) (by rw [hv]; rfl)

theorem IsFile.run {items : List Item} (h : IsFile ts items) (hp : p.Open) :
    ∃ q : GrammarPlace, q.Open ∧ p.run ts = some q := by
  induction h generalizing p with
  | nil => exact ⟨p, hp, rfl⟩
  | cons hi _ ih =>
    obtain ⟨r, hr, hrun⟩ := hi.run hp
    rw [GrammarPlace.run_append hrun]
    exact ih hr

end

/-! ### At each place a grammar file can go on -/

/-- The tokens of a rule, read so far: its name and patterns. -/
def RuleBegun (ts : List Tok) (patterns : List Pattern) : Prop :=
  ∃ before items name tss, IsFile before items ∧ name.type = .SYMBOL ∧
    List.Forall₂ IsPattern tss patterns ∧ ts = before ++ name :: tss.flatten

/-- What has been read in front of a place. -/
def GrammarPlace.Stands : GrammarPlace → List Tok → Prop
  | top, ts => ∃ items, IsFile ts items
  | named, ts => RuleBegun ts []
  | pattern, ts => ∃ begun patterns colon symbols, RuleBegun begun patterns ∧ colon.type = .COLON ∧
      (∀ t ∈ symbols, t.type = .SYMBOL) ∧ ts = begun ++ colon :: symbols
  | ruled, ts => ∃ patterns, patterns ≠ [] ∧ RuleBegun ts patterns
  | number, ts => ∃ before items d, IsFile before items ∧ d.type = .VERBOSITY ∧ ts = before ++ [d]
  | text, ts => ∃ before items d, IsFile before items ∧ (d.type = .NAME ∨ d.type = .PREFIX) ∧
      ts = before ++ [d]
  | block, ts => ∃ before items d, IsFile before items ∧ d.type = .CODE ∧ ts = before ++ [d]
  | closed, _ => True

section

variable {p q : GrammarPlace} {t : Tok} {ts : List Tok} {patterns : List Pattern}

theorem RuleBegun.file (h : RuleBegun ts patterns) (hne : patterns ≠ []) :
    ∃ items, IsFile ts items := by
  obtain ⟨before, items, name, tss, hb, hname, hf, rfl⟩ := h
  exact ⟨_, hb.snoc (.rule name tss patterns hname hne hf)⟩

theorem RuleBegun.snoc (h : RuleBegun ts patterns) {us : List Tok} {pattern : Pattern}
    (hp : IsPattern us pattern) : RuleBegun (ts ++ us) (patterns ++ [pattern]) := by
  obtain ⟨before, items, name, tss, hb, hname, hf, rfl⟩ := h
  refine ⟨before, items, name, tss ++ [us], hb, hname, List.rel_append hf (.cons hp .nil), ?_⟩
  simp

theorem GrammarPlace.Open.file (hp : p.Open) (h : p.Stands ts) : ∃ items, IsFile ts items := by
  rcases hp with rfl | rfl
  · exact h
  · obtain ⟨patterns, hne, hbegun⟩ := h
    exact hbegun.file hne

theorem stands_start {items : List Item} (h : IsFile ts items)
    (hq : GrammarPlace.start t.type = some q) : q.Stands (ts ++ [t]) := by
  cases hty : t.type <;> rw [hty] at hq <;> cases hq
  case SYMBOL => exact ⟨ts, items, t, [], h, hty, .nil, rfl⟩
  case VERBOSITY => exact ⟨ts, items, t, h, hty, rfl⟩
  case NAME => exact ⟨ts, items, t, h, Or.inl hty, rfl⟩
  case PREFIX => exact ⟨ts, items, t, h, Or.inr hty, rfl⟩
  case CODE => exact ⟨ts, items, t, h, hty, rfl⟩
  case END_OF_INPUT => trivial

theorem stands_pattern (h : RuleBegun ts patterns) (ht : t.type = .COLON) :
    GrammarPlace.pattern.Stands (ts ++ [t]) := ⟨ts, patterns, t, [], h, ht, by simp, rfl⟩

theorem stands_step (h : p.Stands ts) (hq : p.step t.type = some q) : q.Stands (ts ++ [t]) := by
  have fromFile (hp : p.Open) (hc : t.type ≠ .COLON) : q.Stands (ts ++ [t]) := by
    obtain ⟨items, hf⟩ := hp.file h
    exact stands_start hf ((hp.step hc).symm.trans hq)
  cases p with
  | top =>
    obtain ⟨items, hf⟩ := h
    exact stands_start hf hq
  | named =>
    cases hty : t.type <;> rw [hty] at hq <;> cases hq
    exact stands_pattern h hty
  | pattern =>
    obtain ⟨begun, patterns, colon, symbols, hbegun, hcolon, hsym, rfl⟩ := h
    rw [List.append_assoc, List.cons_append]
    cases hty : t.type <;> rw [hty] at hq <;> cases hq
    · exact ⟨_, by simp, hbegun.snoc (.mk colon symbols t hcolon hsym hty)⟩
    · refine ⟨begun, patterns, colon, symbols ++ [t], hbegun, hcolon, ?_, rfl⟩
      exact List.forall_mem_append.mpr ⟨hsym, by simp [hty]⟩
  | ruled =>
    by_cases hc : t.type = .COLON
    · obtain ⟨patterns, -, hbegun⟩ := h
      rw [hc] at hq
      cases hq
      exact stands_pattern hbegun hc
    · exact fromFile (Or.inr rfl) hc
  | number =>
    obtain ⟨before, items, d, hf, hd, rfl⟩ := h
    cases hty : t.type <;> rw [hty] at hq <;> cases hq
    rw [List.append_assoc]
    exact ⟨_, hf.snoc (.verbosity d t hd hty)⟩
  | text =>
    obtain ⟨before, items, d, hf, hd, rfl⟩ := h
    cases hty : t.type <;> rw [hty] at hq <;> cases hq
    rw [List.append_assoc]
    rcases hd with hd | hd
    · exact ⟨_, hf.snoc (.name d t hd hty)⟩
    · exact ⟨_, hf.snoc (.outputPrefix d t hd hty)⟩
  | block =>
    obtain ⟨before, items, d, hf, hd, rfl⟩ := h
    cases hty : t.type <;> rw [hty] at hq <;> cases hq
    rw [List.append_assoc]
    exact ⟨_, hf.snoc (.code d t hd hty)⟩
  | closed => cases hq

theorem stands_run (h : p.Stands ts) {us : List Tok} (hq : p.run us = some q) : q.Stands (ts ++ us) := by
  induction us generalizing p ts with
  | nil =>
    cases hq
    rwa [List.append_nil]
  | cons t us ih =>
    obtain ⟨r, hr, hrun⟩ := GrammarPlace.exists_step_of_cons hq
    have hnext := ih (stands_step h hr) hrun
    rwa [List.append_assoc] at hnext

theorem stands_of_run (h : GrammarPlace.top.run ts = some p) : p.Stands ts := by
  have hnil : GrammarPlace.top.Stands [] := ⟨[], .nil⟩
  exact stands_run hnil h

/-- From every place but the last one the tokens can be completed to a grammar file. -/
theorem GrammarPlace.Stands.completes (h : p.Stands ts) (hp : p ≠ .closed) :
    ∃ us items, IsFile (ts ++ us) items := by
  have step (t : Tok) (q : GrammarPlace) (hq : q.Open) (hs : p.step t.type = some q) :
      ∃ us items, IsFile (ts ++ us) items := ⟨[t], hq.file (stands_step h hs)⟩
  cases p with
  | top =>
    obtain ⟨items, hf⟩ := h
    exact ⟨[], items, by rwa [List.append_nil]⟩
  | ruled =>
    obtain ⟨items, hf⟩ := GrammarPlace.Open.file (Or.inr rfl) h
    exact ⟨[], items, by rwa [List.append_nil]⟩
  | named =>
    have hrun : GrammarPlace.named.run [⟨.COLON, []⟩, ⟨.BLOCK, []⟩] = some .ruled := rfl
    exact ⟨_, GrammarPlace.Open.file (Or.inr rfl) (stands_run h hrun)⟩
  | pattern => exact step ⟨.BLOCK, []⟩ .ruled (Or.inr rfl) rfl
  | number => exact step ⟨.NUMBER, []⟩ .top (Or.inl rfl) rfl
  | text => exact step ⟨.STRG, []⟩ .top (Or.inl rfl) rfl
  | block => exact step ⟨.BLOCK, []⟩ .top (Or.inl rfl) rfl
  | closed => exact absurd rfl hp

theorem step_eq_closed (h : p.step t.type = some .closed) : p.Open ∧ t.type = .END_OF_INPUT := by
  cases p <;> cases hty : t.type <;> rw [hty] at h <;> cases h
  · exact ⟨Or.inl rfl, rfl⟩
  · exact ⟨Or.inr rfl, rfl⟩

theorem step_end (h : p.step .END_OF_INPUT = some q) : q = .closed := by
  cases p <;> cases h <;> rfl

end

/-- A token can stand behind others exactly if there is a step for it from their place. -/
theorem continues_iff {p : GrammarPlace} {before : List Tok} {t : Tok}
    (hp : GrammarPlace.top.run before = some p) : Continues before t ↔ ∃ q, p.step t.type = some q := by
  have hstands : p.Stands before := stands_of_run hp
  unfold Continues
  constructor
  · intro h
    split at h
    · next hend =>
      obtain ⟨items, hf⟩ := h
      obtain ⟨r, hr, hrun⟩ := hf.run (p := .top) (Or.inl rfl)
      cases hp.symm.trans hrun
      exact ⟨.closed, (hr.step (by simp [hend])).trans (by rw [hend]; rfl)⟩
    · obtain ⟨us, items, hf⟩ := h
      obtain ⟨r, -, hrun⟩ := hf.run (p := .top) (Or.inl rfl)
      obtain ⟨p', hp', hrest⟩ := GrammarPlace.exists_run_of_append hrun
      cases hp.symm.trans hp'
      obtain ⟨q, hq, -⟩ := GrammarPlace.exists_step_of_cons hrest
      exact ⟨q, hq⟩
  · intro h
    obtain ⟨q, hq⟩ := h
    split
    · next hend =>
      rw [hend] at hq
      cases step_end hq
      exact (step_eq_closed (t := t) (hend ▸ hq)).1.file hstands
    · next hend =>
      have hne : q ≠ .closed := fun hc => hend (step_eq_closed (hc ▸ hq)).2
      obtain ⟨us, items, hf⟩ := (stands_step hstands hq).completes hne
      exact ⟨us, items, by rwa [List.append_assoc] at hf⟩

/-- The tokens that a grammar file may begin with lead to a place that is not behind the end. -/
theorem run_of_begins {before us : List Tok} {items : List Item} (h : IsFile (before ++ us) items) :
    ∃ p : GrammarPlace, GrammarPlace.top.run before = some p ∧ p ≠ .closed := by
  obtain ⟨r, hr, hrun⟩ := h.run (p := .top) (Or.inl rfl)
  obtain ⟨p, hp, hrest⟩ := GrammarPlace.exists_run_of_append hrun
  refine ⟨p, hp, ?_⟩
  rintro rfl
  cases us with
  | nil =>
    cases hrest
    rcases hr with hr | hr <;> cases hr
  | cons t us =>
    obtain ⟨q, hq, -⟩ := GrammarPlace.exists_step_of_cons hrest
    cases hq

/-- What the message for a place asks for can stand there. -/
theorem expectations_sound {p : GrammarPlace} {before : List Tok}
    (hp : GrammarPlace.top.run before = some p) (hne : p ≠ .closed) :
    ∃ types, (p.fmt, types) ∈ expectations ∧
      ∀ type ∈ types, ∀ text, Continues before ⟨type, text⟩ := by
  have asks (types : List TokenType) (hmem : (p.fmt, types) ∈ expectations)
      (hsteps : ∀ type ∈ types, (p.step type).isSome) :
      ∃ types, (p.fmt, types) ∈ expectations ∧
        ∀ type ∈ types, ∀ text, Continues before ⟨type, text⟩ := by
    refine ⟨types, hmem, fun type htype text => ?_⟩
    exact (continues_iff hp).mpr (Option.isSome_iff_exists.mp (hsteps type htype))
  cases p with
  | top => exact asks _ (.head _) (by decide)
  | ruled => exact asks _ (.head _) (by decide)
  | named => exact asks _ (.tail _ (.head _)) (by decide)
  | pattern => exact asks _ (.tail _ (.tail _ (.head _))) (by decide)
  | number => exact asks _ (.tail _ (.tail _ (.tail _ (.head _)))) (by decide)
  | text => exact asks _ (.tail _ (.tail _ (.tail _ (.tail _ (.head _))))) (by decide)
  | block => exact asks _ (.tail _ (.tail _ (.tail _ (.tail _ (.tail _ (.head _)))))) (by decide)
  | closed => exact absurd rfl hne

end Rdpgen
