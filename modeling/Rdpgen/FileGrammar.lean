import Rdpgen.TokenText
import Rdpgen.ParseAgree
import Rdpgen.Grammar
import Rdpgen.ParseRuns

namespace Rdpgen

open Prog (Agree)

theorem AtEnd.lexes {u : Bytes} (h : AtEnd u) : Lexes u [] := .done (h.lex_gap [])

theorem AtEnd.lexes_eq_nil {u : Bytes} (h : AtEnd u) {ts : List Tok} (hl : Lexes u ts) : ts = [] := by
  cases hl with
  | done _ => rfl
  | cons ht hl _ =>
    rw [show lex u = .token .END_OF_INPUT [] u 0 from h.lex_gap []] at hl
    injection hl with he
    exact absurd he.symm ht

/-! ### Written tokens to the scanner are the tokens of the list -/

/-- The scanner has before it what the list source holds. -/
structure World.Mirrors (w : World FileStack) (v : World (List Tok)) : Prop where
  clean : w.input.Clean
  lexes : Lexes w.input.unread v.input
  tok : w.tok = v.tok
  errors : w.errors = v.errors

theorem consumeToken_mirrors {w : World FileStack} {v : World (List Tok)} (hc : w.input.Clean)
    (hl : Lexes w.input.unread v.input) (he : w.errors = v.errors) {E} :
    Agree consumeToken listSource.consumeToken
      (fun tk w' tk' v' => tk.Alike tk' ∧ w'.Mirrors v') E w v := by
  have next {t : Tok} {rest : Bytes} (hlex : lex w.input.unread = .token t.type t.str rest 0)
      (htok : (nextToken v).tok = t) (herr : (nextToken v).errors = v.errors)
      (hrest : Lexes rest (nextToken v).input) :
      Agree consumeToken listSource.consumeToken
        (fun tk w' tk' v' => tk.Alike tk' ∧ w'.Mirrors v') E w v := by
    obtain ⟨tk, w', hrun, hw, htype, hstr⟩ := exists_token (World.Shows.self hc) hlex
    obtain ⟨tk', v', hrun', htype', hstr', rfl⟩ :=
      (wp_listConsume (w := v) (E := fun _ _ => False) (D := False)
        (Q := fun tk u => tk.type = (nextToken v).tok.type ∧
          tk.str = copyStr (nextToken v).tok.str ∧ u = nextToken v)
        fun tk ht hs => ⟨ht, hs, rfl⟩).returns
    apply Prog.agree_of_runs hrun hrun'
    refine .ok ⟨⟨?_, ?_⟩, hw.clean, ?_, ?_, ?_⟩
    · rw [htype, htype', htok]
    · rw [hstr, hstr', htok]
    · rwa [hw.unread]
    · rw [hw.tok, htok]
    · rw [hw.errors, herr, he, Nat.add_zero]
  cases hi : v.input with
  | nil =>
    rw [hi] at hl
    cases hl with
    | @done _ rest hlex =>
      obtain ⟨-, -, hend, -⟩ := lex_end_iff.mp hlex
      apply next (t := ⟨.END_OF_INPUT, []⟩) hlex <;> simp [nextToken, hi, hend.lexes]
  | cons t ts =>
    rw [hi] at hl
    cases hl with
    | cons ht hlex hrest =>
      have hne := (((lex_iff ht).mp hlex).1.type_ne).2
      apply next hlex <;> simp [nextToken, hi, hne, hrest]

theorem fileSource_couples (fname bytes : Bytes) (E : Halt → World FileStack → Halt → World (List Tok) → Prop) :
    (fileSource fname (.ok bytes)).Couples listSource World.Mirrors E where
  tok _ _ h := h.tok
  errors _ _ h := h.errors
  consume _ _ h := consumeToken_mirrors h.clean h.lexes h.errors
  report _ _ _ h := ⟨h.clean, h.lexes, h.tok, by simp [h.errors]⟩

/-- On a file with the tokens `ts` the parser does what it does on the list of them. -/
theorem parseInput_mirrors (fname : Bytes) {bytes : Bytes} {ts : List Tok} (h : Lexes bytes ts) :
    Agree (parseInput (fileSource fname (.ok bytes))) (parseInput listSource)
      (fun s w s' v => s = s' ∧ w.Mirrors v) (fun _ _ _ _ => False) (World.boot []) (World.boot ts) := by
  apply parseInput_agree (fileSource_couples fname bytes _)
  have hs := opened_shows fname bytes
  unfold createParser
  apply Agree.bind (Q := fun _ w _ v => w = World.opened fname bytes ∧ v = World.boot ts)
  · exact Prog.agree_act ⟨rfl, rfl⟩
  · intro _ w _ v hw
    obtain ⟨rfl, rfl⟩ := hw
    apply (consumeToken_mirrors hs.clean (hs.unread.symm ▸ h) hs.errors).bind
    intro _ w _ v hv
    exact Prog.agree_pure ⟨rfl, hv.2⟩

/-! ### What an accepted file has been read as -/

/-- Without an error so far, the tokens of the unread bytes complete those of the whole file. -/
structure World.Traces (bytes : Bytes) (w : World FileStack) : Prop where
  clean : w.input.Clean
  atEnd : w.tok.type = .END_OF_INPUT → AtEnd w.input.unread
  read : w.errors = 0 → ∃ ts, ∀ ts', Lexes w.input.unread ts' → Lexes bytes (ts ++ ts')

theorem consumeToken_traces {bytes : Bytes} {w : World FileStack} (hc : w.input.Clean)
    (hr : w.errors = 0 → ∃ ts, ∀ ts', Lexes w.input.unread ts' → Lexes bytes (ts ++ ts')) :
    consumeToken.wp (fun _ v => v.Traces bytes ∧ w.errors ≤ v.errors) (fun _ _ => True) True w := by
  refine (consumeToken_wp (World.Shows.self hc)).mono ?_ (fun _ _ _ => trivial) fun _ => trivial
  intro tk v hpost
  obtain ⟨type, text, rest, n, hlex, hv, -, -⟩ := hpost
  refine ⟨⟨hv.clean, ?_, ?_⟩, by rw [hv.errors]; omega⟩
  · intro ht
    rw [hv.tok] at ht
    cases (show type = .END_OF_INPUT from ht)
    rw [hv.unread]
    exact (lex_end_iff.mp hlex).2.2.1
  · intro h0
    rw [hv.errors] at h0
    obtain ⟨h0, rfl⟩ := Nat.add_eq_zero_iff.mp h0
    obtain ⟨ts, hts⟩ := hr h0
    rw [hv.unread]
    by_cases ht : type = .END_OF_INPUT
    · subst ht
      obtain ⟨rfl, -, hend, -⟩ := lex_end_iff.mp hlex
      refine ⟨ts, fun ts' hl => hts ts' ?_⟩
      rw [hend.lexes_eq_nil hl]
      exact .done hlex
    · refine ⟨ts ++ [⟨type, text⟩], fun ts' hl => ?_⟩
      have hcons := hts (⟨type, text⟩ :: ts') (.cons ht hlex hl)
      simpa using hcons

/-- Counting an error ends the trace, so the parser's own messages keep it as well. -/
theorem fileSource_traces (fname bytes : Bytes) :
    (fileSource fname (.ok bytes)).Couples (fileSource fname (.ok bytes))
      (fun w v => w = v ∧ w.Traces bytes) (fun _ _ _ _ => True) where
  tok _ _ h := by rw [h.1]
  errors _ _ h := by rw [h.1]
  consume w v h := by
    obtain ⟨rfl, h⟩ := h
    apply (Prog.agree_self (consumeToken_traces h.clean h.read)).mono ?_ fun _ _ _ _ _ => trivial
    intro tk w tk' v hpost
    obtain ⟨⟨rfl, rfl⟩, hw, -⟩ := hpost
    exact ⟨⟨rfl, rfl⟩, rfl, hw⟩
  report w v _ h := by
    obtain ⟨rfl, h⟩ := h
    exact ⟨rfl, h.clean, h.atEnd, by simp⟩

theorem parseInput_traces {fname bytes : Bytes} {state : Pstate} {w : World FileStack}
    (hr : (parseInput (fileSource fname (.ok bytes))).Runs (World.boot []) (.ok state w)) :
    w.Traces bytes := by
  have hs := opened_shows fname bytes
  have hagree := parseInput_agree (w := World.boot []) (v := World.boot [])
    (fileSource_traces fname bytes) ?_
  · obtain ⟨_, _, _, -, -, hw⟩ := hagree.returns hr
    exact hw
  · unfold createParser
    apply Agree.bind (Q := fun _ w _ v => w = World.opened fname bytes ∧ v = w)
    · exact Prog.agree_act ⟨rfl, rfl⟩
    · intro _ w _ v hw
      obtain ⟨rfl, rfl⟩ := hw
      have hwp : (fileSource fname (.ok bytes)).consumeToken.wp
          (fun _ v => v.Traces bytes ∧ (World.opened fname bytes).errors ≤ v.errors)
          (fun _ _ => True) True (World.opened fname bytes) :=
        consumeToken_traces hs.clean fun _ => ⟨[], fun ts' hl => by rwa [hs.unread] at hl⟩
      apply ((Prog.agree_self hwp).mono (fun _ _ _ _ h => h) fun _ _ _ _ _ => trivial).bind
      intro _ w _ v hpost
      obtain ⟨⟨-, rfl⟩, hw, -⟩ := hpost
      exact Prog.agree_pure ⟨rfl, rfl, hw⟩

theorem parseInput_lexes {fname bytes : Bytes} {state : Pstate} {w : World FileStack}
    (hr : (parseInput (fileSource fname (.ok bytes))).Runs (World.boot []) (.ok state w))
    (h0 : w.errors = 0) : ∃ ts, Lexes bytes ts := by
  obtain ⟨-, -, hend⟩ :=
    (parseInput_keeps (fileSource_keeps fname bytes) (fileSource_opens fname bytes)).1 state w hr
  have htrace := parseInput_traces hr
  obtain ⟨ts, hts⟩ := htrace.read h0
  exact ⟨_, hts [] (htrace.atEnd (hend h0).1).lexes⟩

/-! ### The accepted files -/

theorem parseInput_file (fname : Bytes) {bytes : Bytes} {ts : List Tok} (h : Lexes bytes ts) :
    ∃ state w, (parseInput (fileSource fname (.ok bytes))).Runs (World.boot []) (.ok state w) ∧
      (w.errors = 0 ↔ ∃ items, IsFile ts items) ∧ ∀ items, IsFile ts items → state = stateOf items := by
  have hne (t : Tok) (ht : t ∈ ts) : t.type ≠ .END_OF_INPUT := (h.type_ne t ht).1
  obtain ⟨state, v, hlist, hsound⟩ := (parseInput_sound hne).returns
  obtain ⟨state', w, hfile, hs, hw⟩ := (parseInput_mirrors fname h).symm.returns hlist
  subst hs
  have complete (items : List Item) (hf : IsFile ts items) : state' = stateOf items ∧ v.errors = 0 := by
    obtain ⟨hstate, h0, -⟩ := (Prog.wp_of_runs_ok hlist).mp (parseInput_complete hf)
    exact ⟨hstate, h0⟩
  refine ⟨state', w, hfile, ?_, fun items hf => (complete items hf).1⟩
  rw [hw.errors]
  constructor
  · exact hsound
  · intro hitems
    obtain ⟨items, hf⟩ := hitems
    exact (complete items hf).2

/-- The parser accepts a file exactly if tokens that the grammar derives are written in it, and
the state it builds is the one that their items describe. -/
theorem parseInput_accepts_file (fname bytes : Bytes) (state : Pstate) :
    (∃ w, (parseInput (fileSource fname (.ok bytes))).Runs (World.boot []) (.ok state w) ∧
        w.errors = 0) ↔
      ∃ ts items, Written bytes ts ∧ IsFile ts items ∧ state = stateOf items := by
  constructor
  · intro h
    obtain ⟨w, hr, h0⟩ := h
    obtain ⟨ts, hts⟩ := parseInput_lexes hr h0
    obtain ⟨state', w', hr', hiff, hstate⟩ := parseInput_file fname hts
    cases hr.det hr'
    obtain ⟨items, hf⟩ := hiff.mp h0
    exact ⟨ts, items, lexes_iff_written.mp hts, hf, hstate items hf⟩
  · intro h
    obtain ⟨ts, items, hw, hf, rfl⟩ := h
    obtain ⟨state, w, hr, hiff, hstate⟩ := parseInput_file fname (lexes_iff_written.mpr hw)
    exact ⟨w, hstate items hf ▸ hr, hiff.mpr ⟨items, hf⟩⟩

end Rdpgen
