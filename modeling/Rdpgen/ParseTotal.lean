import Rdpgen.ParseEnds
import Rdpgen.Messages
import Rdpgen.Pipeline

namespace Rdpgen

open Prog (Moves)

section

variable {ι : Type} {src : TokenSource ι} {I : World ι → Prop} {μ : World ι → Nat} {w v u : World ι}

/-- From `w` to `v` the rank has not risen, and has fallen if a token was there to go on from. -/
structure Drops (I : World ι → Prop) (μ : World ι → Nat) (w v : World ι) : Prop where
  keeps : I v
  le : μ v ≤ μ w
  lt : ¬w.tok.type.Last → μ v < μ w

/-- Every call returns or leaves the program, and takes the rank down until nothing but ends of input
and errors are left. -/
structure TokenSource.Ranks (src : TokenSource ι) (I : World ι → Prop) (μ : World ι → Nat) :
    Prop where
  consume : ∀ w, I w → src.consumeToken.wp (fun tk v => tk.type = v.tok.type ∧ Drops I μ w v)
    (fun _ _ => True) False w
  report : ∀ w v, I w → v.input = w.input → v.tok = w.tok → I v ∧ μ v = μ w

theorem Drops.trans (h : Drops I μ w v) (h' : Drops I μ v u) : Drops I μ w u :=
  ⟨h'.keeps, h'.le.trans h.le, fun hw => h'.le.trans_lt (h.lt hw)⟩

theorem TokenSource.Ranks.syntaxError (hr : src.Ranks I μ) (h : Drops I μ w v) {fmt : String}
    {args : List String} {Q : Unit → World ι → Prop} {E : Halt → World ι → Prop} {D : Prop}
    (post : ∀ u, Drops I μ w u → u.errors = v.errors + 1 → Q () u) :
    (syntaxError fmt args).wp Q E D v := by
  apply syntaxError_wp
  intro u hi ht he
  obtain ⟨hu, hμ⟩ := hr.report v u h.keeps hi ht
  exact post u ⟨hu, hμ ▸ h.le, fun hw => hμ ▸ h.lt hw⟩ he

theorem parsePattern_drops (hr : src.Ranks I μ) (h : I w) :
    (parsePattern src).wp (fun _ v => Drops I μ w v) (fun _ _ => True) False w := by
  unfold parsePattern
  simp only [Prog.wp_bind]
  apply (hr.consume w h).imp
  intro tk v hv
  -- A pass of the loop starts at a symbol, so its call takes the rank down.
  refine Prog.wp_whileDo_of_measure (fun l v => l.1.type = v.tok.type ∧ Drops I μ w v)
    (fun _ v => μ v) ?_ ?_ hv
  · intro l v hinv hc
    obtain ⟨htok, hv⟩ := hinv
    have hmore : ¬v.tok.type.Last := by
      rw [← htok, of_decide_eq_true hc]
      unfold TokenType.Last
      decide
    unfold patternBody
    simp only [Prog.wp_bind]
    apply (hr.consume v hv.keeps).imp
    intro tk u hu
    exact Prog.wp_pure.mpr ⟨⟨hu.1, hv.trans hu.2⟩, hu.2.lt hmore⟩
  · intro l v hinv _
    obtain ⟨tok, elems⟩ := l
    simp only [getToken, Prog.wp_gets]
    rw [Prog.wp_ite]
    split
    · exact Prog.wp_pure.mpr hinv.2
    · rw [Prog.wp_bind]
      exact hr.syntaxError hinv.2 fun u hu _ => Prog.wp_pure.mpr hu

theorem parseRule_drops (hr : src.Ranks I μ) (h : I w) (state : Pstate) :
    (parseRule src state).wp (fun _ v => Drops I μ w v) (fun _ _ => True) False w := by
  unfold parseRule
  simp only [getToken, Prog.wp_bind, Prog.wp_gets]
  apply (hr.consume w h).imp
  intro tk v hv
  refine Prog.wp_whileDo_of_measure (fun l v => l.1.type = v.tok.type ∧ Drops I μ w v)
    (fun _ v => μ v) ?_ ?_ hv
  · intro l v hinv hc
    obtain ⟨htok, hv⟩ := hinv
    have hmore : ¬v.tok.type.Last := by
      rw [← htok, of_decide_eq_true hc]
      unfold TokenType.Last
      decide
    unfold ruleBody
    simp only [Prog.wp_bind]
    apply (parsePattern_drops hr hv.keeps).imp
    intro p u hu
    apply (hr.consume u hu.keeps).imp
    intro tk x hx
    exact Prog.wp_pure.mpr ⟨⟨hx.1, hv.trans (hu.trans hx.2)⟩, (hu.trans hx.2).lt hmore⟩
  · intro l v hinv _
    obtain ⟨tok, patterns⟩ := l
    by_cases hz : patterns.length = 0
    · rw [if_pos hz]
      simp only [tokenType, Prog.wp_bind, Prog.wp_gets]
      exact hr.syntaxError hinv.2 fun u hu _ => Prog.wp_pure.mpr hu
    · rw [if_neg hz]
      exact Prog.wp_pure.mpr hinv.2

theorem parseDirective_drops (hr : src.Ranks I μ) (h : I w) (want : TokenType) (fmt : String)
    (store : STR → Pstate → Pstate) (state : Pstate) :
    (parseDirective src want fmt store state).wp (fun _ v => Drops I μ w v) (fun _ _ => True) False w := by
  have value (s : Pstate) (v : World ι) (hv : Drops I μ w v) :
      src.consumeToken.wp (fun _ => (pure s : Prog Halt (World ι) Pstate).wp
        (fun _ u => Drops I μ w u) (fun _ _ => True) False) (fun _ _ => True) False v := by
    apply (hr.consume v hv.keeps).imp
    intro tk u hu
    exact Prog.wp_pure.mpr (hv.trans hu.2)
  unfold parseDirective
  simp only [Prog.wp_bind]
  apply (hr.consume w h).imp
  intro tk v hv
  rw [Prog.wp_ite]
  split
  · simp only [getToken, Prog.wp_bind, Prog.wp_gets, Prog.wp_pure]
    exact value _ v hv.2
  · rw [Prog.wp_bind]
    apply hr.syntaxError hv.2
    intro u hu _
    simp only [Prog.wp_bind, Prog.wp_pure]
    exact value state u hu

/-- A pass takes the rank down, reports an error or is the last one. -/
theorem parsePass_drops (hr : src.Ranks I μ) (h : I w) (l : Pstate × Bool) :
    (parsePass src l).wp
      (fun l' v => I v ∧ (μ v < μ w ∨ 0 < v.errors ∨ l'.2 = true)) (fun _ _ => True) False w := by
  have read (type : TokenType) (ht : w.tok.type = type) (hmore : ¬type.Last) (s : Pstate)
      (v : World ι) (hv : Drops I μ w v) :
      I v ∧ (μ v < μ w ∨ 0 < v.errors ∨ (s, false).2 = true) :=
    ⟨hv.keeps, .inl (hv.lt (ht ▸ hmore))⟩
  unfold parsePass
  simp only [tokenType, Prog.wp_bind, Prog.wp_gets]
  cases ht : w.tok.type
  case SYMBOL =>
    exact wp_more ((parseRule_drops hr h l.1).imp (read _ ht (by unfold TokenType.Last; decide)))
  case VERBOSITY | NAME | PREFIX | CODE =>
    exact wp_more ((parseDirective_drops hr h _ _ _ l.1).imp
      (read _ ht (by unfold TokenType.Last; decide)))
  case END_OF_INPUT => exact Prog.wp_pure.mpr ⟨h, .inr (.inr rfl)⟩
  all_goals
    apply wp_unexpected
    intro v hi hv he
    exact ⟨(hr.report w v h hi hv).1, .inr (.inl (by omega))⟩

theorem parseLoop_ranked (hr : src.Ranks I μ) (h : I w) (l : Pstate × Bool) :
    (Prog.whileDo goesOn (parsePass src) l).wp (fun _ _ => True) (fun _ _ => True) False w := by
  refine Prog.wp_whileDo_of_rank (fun n l v => I v ∧ (goesOn l v = true → μ v < n)) ?_
    (fun _ _ _ _ _ => trivial) (n := μ w + 1) ⟨h, fun _ => Nat.lt_succ_self _⟩
  intro n l v hinv hc
  obtain ⟨hv, hn⟩ := hinv
  apply (parsePass_drops hr hv l).imp
  intro l' u hpost
  obtain ⟨hu, hway⟩ := hpost
  have hlt := hn hc
  refine ⟨n - 1, by omega, hu, ?_⟩
  intro hc'
  unfold goesOn at hc'
  rw [Bool.and_eq_true, beq_iff_eq] at hc'
  obtain ⟨hgo, herr⟩ := hc'
  rcases hway with hdrop | herr' | hfin
  · omega
  · omega
  · rw [hfin] at hgo
    cases hgo

end

/-! ### The scanner on a file -/

/-- Every token other than the end of input and an error takes input away. -/
theorem lexFrom_shorter {t : TokenType} {b : UInt8} {u text rest : Bytes} {n : Nat}
    (h : lexFrom (b :: u) = .token t text rest n) (ht : ¬t.Last) : rest <:+ u := by
  rw [lexFrom] at h
  split at h
  · cases h
    exact absurd (.inl rfl) ht
  split at h
  · cases h
    exact List.suffix_rfl
  split at h
  · exact (lexDirective_rest h).2
  split at h
  · exact (lexString_rest h).2
  split at h
  · exact (lexBlock_rest h).2
  split at h
  · exact (lexWhile_rest h).2
  split at h
  · exact (lexWhile_rest h).2
  · cases h
    exact absurd (.inr rfl) ht

theorem lexFrom_suffix {t : TokenType} {u text rest : Bytes} {n : Nat}
    (h : lexFrom u = .token t text rest n) : rest <:+ u := by
  cases u with
  | nil =>
    cases h
    exact List.suffix_rfl
  | cons b u =>
    by_cases hend : b = 0xFF
    · rw [lexFrom, if_pos hend] at h
      cases h
      exact List.suffix_rfl
    · rcases (lexFrom_rest hend h).2 with hr | ⟨rfl, -⟩
      · exact hr.trans (List.suffix_cons b u)
      · exact List.suffix_rfl

theorem lex_length {t : TokenType} {u text rest : Bytes} {n : Nat}
    (h : lex u = .token t text rest n) :
    rest.length ≤ u.length ∧ (¬t.Last → rest.length < u.length) := by
  cases hs : skipTrivia false u with
  | none => simp [lex, hs] at h
  | some v =>
    simp only [lex, hs] at h
    obtain ⟨-, -, -, hsuf⟩ := LexMode.after_skipTrivia hs
    have hle := hsuf.length_le
    refine ⟨(lexFrom_suffix h).length_le.trans hle, fun ht => ?_⟩
    cases v with
    | nil =>
      cases h
      exact absurd (.inl rfl) ht
    | cons b v =>
      have hrest := (lexFrom_shorter h ht).length_le
      rw [List.length_cons] at hle
      omega

instance (type : TokenType) : Decidable type.Last :=
  inferInstanceAs (Decidable (type = .END_OF_INPUT ∨ type = .ERROR))

/-- The bytes left, and one more for a token that the parser can go on from. -/
def World.rank (w : World FileStack) : Nat :=
  w.input.unread.length + if w.tok.type.Last then 0 else 1

/-- The scanner has not come to a comment, a string or a block without an end, nor will it. -/
structure World.Ending (w : World FileStack) : Prop where
  clean : w.input.Clean
  ending : fileEnding w.input.unread ≠ .inside

theorem consumeToken_drops {w : World FileStack} (h : w.Ending) :
    consumeToken.wp (fun tk v => tk.type = v.tok.type ∧ Drops World.Ending World.rank w v)
      (fun _ _ => True) False w := by
  refine (consumeToken_wp (World.Shows.self h.clean)).mono ?_ (fun _ _ _ => trivial) ?_
  · intro tk v hpost
    obtain ⟨type, text, rest, n, hlex, hv, htype, -⟩ := hpost
    have hnew : v.tok.type = type := by rw [hv.tok]
    have hlen := lex_length hlex
    have hends : v.Ending :=
      ⟨hv.clean, by rw [hv.unread, fileEnding_of_token hlex]; exact h.ending⟩
    refine ⟨htype.trans hnew.symm, hends, ?_, ?_⟩
    · unfold World.rank
      rw [hv.unread, hnew]
      by_cases ht : type.Last
      · rw [if_pos ht]
        omega
      · have hlt := hlen.2 ht
        rw [if_neg ht]
        omega
    · intro hmore
      unfold World.rank
      rw [hv.unread, hnew, if_neg hmore]
      by_cases ht : type.Last
      · rw [if_pos ht]
        omega
      · have hlt := hlen.2 ht
        rw [if_neg ht]
        omega
  · intro hhang
    exact h.ending (fileEnding_of_hang hhang)

theorem fileSource_ranks (fname bytes : Bytes) :
    (fileSource fname (.ok bytes)).Ranks World.Ending World.rank where
  consume _ h := consumeToken_drops h
  report w v h hi ht := ⟨⟨hi ▸ h.clean, hi ▸ h.ending⟩, by rw [World.rank, World.rank, hi, ht]⟩

theorem parseInput_ranked (fname : Bytes) {bytes : Bytes} (h : fileEnding bytes ≠ .inside) :
    (parseInput (fileSource fname (.ok bytes))).wp (fun _ _ => True) (fun _ _ => True) False
      (World.boot []) := by
  have hs := opened_shows fname bytes
  have hstart : (World.opened fname bytes).Ending := ⟨hs.clean, by rw [hs.unread]; exact h⟩
  unfold parseInput createParser
  simp only [Prog.wp_bind]
  apply Prog.wp_modify.mpr
  apply (consumeToken_drops hstart).imp
  intro tk w hw
  rw [Prog.wp_pure]
  apply (parseLoop_ranked (fileSource_ranks fname bytes) hw.2.keeps _).imp
  intro l v _
  exact Prog.wp_pure.mpr trivial

theorem finishMain_ends {ι : Type} {state : Pstate} (h : state.Fresh) (w : World ι) :
    (finishMain state).wp (fun r _ => r = 0) (fun e _ => e = .fault) False w := by
  have hends : (finishMain state).wp (fun _ _ => True) (fun _ _ => True) False w := by
    by_cases h0 : w.errors = 0
    · exact (finishMain_completes h h0).mono (fun _ _ _ => trivial) (fun _ _ _ => trivial) id
    · unfold finishMain
      simp only [getErrors, Prog.wp_bind, Prog.wp_gets, if_neg h0, Prog.wp_pure]
      simp only [printf, Prog.wp_modify, Prog.wp_pure]
  exact (hends.and (finishMain_accounts state w)).mono (fun _ _ hq => hq.2.1) (fun _ _ he => he.2.1)
    fun hd => hd.1

/-- Whatever the file holds, the program ends, unless the file ends inside of a comment, a string or
a block. -/
theorem main_ends (fname : Bytes) (file : Except String Bytes) :
    (main (fileSource fname file)).wp (fun r _ => r = 0) (fun e _ => e = .exit 1 ∨ e = .fault)
      (∃ bytes, file = .ok bytes ∧ fileEnding bytes = .inside) (World.boot []) := by
  have hmoves : Moves (parseInput (fileSource fname file)) World.Logs Exits :=
    parseInput_moves (openInputFile_moves fname file) consumeToken_moves
  have hparse : (parseInput (fileSource fname file)).wp (fun state _ => state.Fresh)
      (fun e _ => e = .exit 1 ∨ e = .fault) (∃ bytes, file = .ok bytes ∧ fileEnding bytes = .inside)
      (World.boot []) := by
    cases file with
    | error reason =>
      unfold parseInput createParser
      simp only [Prog.wp_bind]
      unfold fileSource openInputFile fatal report
      simp only [Prog.wp_bind, Prog.wp_modify, Prog.wp_stop]
      exact .inl trivial
    | ok bytes =>
      refine ⟨fun _ _ hr => (parseInput_fresh hr).1,
        fun e w hr => ((hmoves _).2.1 e w hr).imp And.left And.left, ?_⟩
      intro hdiv
      by_contra hplain
      exact (parseInput_ranked fname fun hend => hplain ⟨bytes, rfl, hend⟩).2.2 hdiv
  unfold main
  rw [Prog.wp_bind]
  refine hparse.mono ?_ (fun _ _ he => he) id
  intro state w hfresh
  exact (finishMain_ends hfresh w).mono (fun _ _ hr => hr) (fun _ _ he => .inr he) False.elim

end Rdpgen
