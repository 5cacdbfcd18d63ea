import Rdpgen.ParseRuns

namespace Rdpgen

/-- From `w` to `v` in `k` calls of `consume_token` with messages in between. -/
inductive TokenSource.Calls {ι : Type} (src : TokenSource ι) (w : World ι) :
    Nat → World ι → Prop
  | none : Calls src w 0 w
  | consume {k : Nat} {v u : World ι} {tk : Token} : Calls src w k v →
      src.consumeToken.Runs v (.ok tk u) → Calls src w (k + 1) u
  | message {k : Nat} {v : World ι} (line : Diag) : Calls src w k v →
      Calls src w k { v with stderr := v.stderr ++ [line], errors := v.errors + 1 }

def TokenType.Last (type : TokenType) : Prop := type = .END_OF_INPUT ∨ type = .ERROR

/-- From `w` on each call returns and leaves its token in `_tok`, and behind `n` calls there is
nothing but ends of input and errors. -/
structure TokenSource.Settles {ι : Type} (src : TokenSource ι) (w : World ι) (n : Nat) : Prop where
  returns : ∀ k v, src.Calls w k v →
    src.consumeToken.wp (fun tk u => tk.type = u.tok.type) (fun _ _ => False) False v
  last : ∀ k v tk u, n ≤ k → src.Calls w k v → src.consumeToken.Runs v (.ok tk u) → tk.type.Last

/-- After `k` calls of a source that settles within `n` calls. -/
structure TokenSource.After {ι : Type} (src : TokenSource ι) (w : World ι) (n k : Nat)
    (v : World ι) : Prop where
  calls : src.Calls w k v
  last : n < k → v.tok.type.Last

section

variable {ι : Type} {src : TokenSource ι} {w v : World ι} {n k : Nat}

theorem TokenSource.Calls.trans {j : Nat} {u : World ι} (h : src.Calls w k v)
    (h' : src.Calls v j u) : src.Calls w (k + j) u := by
  induction h' with
  | none => exact h
  | consume _ hrun ih => exact .consume ih hrun
  | message line _ ih => exact .message line ih

theorem TokenSource.Settles.later (hs : src.Settles w n) (h : src.Calls w k v) : src.Settles v n := by
  refine ⟨fun j u hu => hs.returns (k + j) u (h.trans hu), ?_⟩
  intro j u tk t hj hu hrun
  exact hs.last (k + j) u tk t (by omega) (h.trans hu) hrun

theorem consume_after (hs : src.Settles w n) (h : src.Calls w k v)
    {Q : Token → World ι → Prop}
    (post : ∀ tk u, src.After w n (k + 1) u → tk.type = u.tok.type → Q tk u) :
    src.consumeToken.wp Q (fun _ _ => False) False v := by
  obtain ⟨tk, u, hrun, htype⟩ := (hs.returns k v h).returns
  refine (Prog.wp_of_runs_ok hrun).mpr (post tk u ⟨.consume h hrun, ?_⟩ htype)
  intro hlt
  rw [← htype]
  exact hs.last k v tk u (by omega) h hrun

theorem syntax_after (h : src.After w n k v) {fmt : String} {args : List String}
    {Q : Unit → World ι → Prop} {E : Halt → World ι → Prop} {D : Prop}
    (post : ∀ u, src.After w n k u → u.errors = v.errors + 1 → Q () u) :
    (syntaxError fmt args).wp Q E D v :=
  Prog.wp_modify.mpr (post _ ⟨.message _ h.calls, h.last⟩ rfl)

/-- A token that a loop goes on with is not one of the last ones. -/
theorem TokenSource.After.early (h : src.After w n k v) {type : TokenType} (ht : v.tok.type = type)
    (hmore : ¬type.Last) : k ≤ n := by
  by_contra hgt
  exact hmore (ht ▸ h.last (by omega))

theorem parsePattern_after (hs : src.Settles w n) (h : src.After w n k v)
    {Q : Pattern → World ι → Prop}
    (post : ∀ p u j, src.After w n j u → k < j → Q p u) :
    (parsePattern src).wp Q (fun _ _ => False) False v := by
  unfold parsePattern
  simp only [Prog.wp_bind]
  apply consume_after hs h.calls
  intro tk u hu htype
  -- Each pass of the loop is one call, and the calls behind number `n` answer no symbol.
  refine Prog.wp_whileDo_of_rank
    (fun m l u => ∃ j, src.After w n j u ∧ k < j ∧ l.1.type = u.tok.type ∧ m = n + 1 - j) ?_ ?_
    ⟨k + 1, hu, by omega, htype, rfl⟩
  · intro m l u hinv hc
    obtain ⟨j, hj, hkj, htok, hm⟩ := hinv
    have hsym : u.tok.type = .SYMBOL := by
      rw [← htok]
      exact of_decide_eq_true hc
    have hjn := hj.early hsym (by unfold TokenType.Last; decide)
    unfold patternBody
    simp only [Prog.wp_bind]
    apply consume_after hs hj.calls
    intro tk t ht htype
    exact Prog.wp_pure.mpr ⟨n + 1 - (j + 1), by omega, j + 1, ht, by omega, htype, rfl⟩
  · intro m l u hinv _
    obtain ⟨j, hj, hkj, -, -⟩ := hinv
    obtain ⟨tok, elems⟩ := l
    simp only [getToken, Prog.wp_gets]
    rw [Prog.wp_ite]
    split
    · exact Prog.wp_pure.mpr (post _ u j hj hkj)
    · rw [Prog.wp_bind]
      apply syntax_after hj
      intro t ht _
      exact Prog.wp_pure.mpr (post _ t j ht hkj)

theorem parseRule_after (hs : src.Settles w n) (h : src.After w n k v) {state : Pstate}
    {Q : Pstate → World ι → Prop}
    (post : ∀ s u j, src.After w n j u → k < j → Q s u) :
    (parseRule src state).wp Q (fun _ _ => False) False v := by
  unfold parseRule
  simp only [getToken, Prog.wp_bind, Prog.wp_gets]
  apply consume_after hs h.calls
  intro tk u hu htype
  refine Prog.wp_whileDo_of_rank
    (fun m l u => ∃ j, src.After w n j u ∧ k < j ∧ l.1.type = u.tok.type ∧ m = n + 1 - j) ?_ ?_
    ⟨k + 1, hu, by omega, htype, rfl⟩
  · intro m l u hinv hc
    obtain ⟨j, hj, hkj, htok, hm⟩ := hinv
    have hcolon : u.tok.type = .COLON := by
      rw [← htok]
      exact of_decide_eq_true hc
    have hjn := hj.early hcolon (by unfold TokenType.Last; decide)
    unfold ruleBody
    simp only [Prog.wp_bind]
    apply parsePattern_after hs hj
    intro p t i ht hji
    apply consume_after hs ht.calls
    intro tk t' ht' htype
    exact Prog.wp_pure.mpr ⟨n + 1 - (i + 1), by omega, i + 1, ht', by omega, htype, rfl⟩
  · intro m l u hinv _
    obtain ⟨j, hj, hkj, -, -⟩ := hinv
    obtain ⟨tok, patterns⟩ := l
    by_cases hz : patterns.length = 0
    · rw [if_pos hz]
      simp only [tokenType, Prog.wp_bind, Prog.wp_gets]
      apply syntax_after hj
      intro t ht _
      exact Prog.wp_pure.mpr (post _ t j ht hkj)
    · rw [if_neg hz]
      exact Prog.wp_pure.mpr (post _ u j hj hkj)

theorem parseDirective_after (hs : src.Settles w n) (h : src.After w n k v) {state : Pstate}
    {want : TokenType} {fmt : String} {store : STR → Pstate → Pstate}
    {Q : Pstate → World ι → Prop}
    (post : ∀ s u j, src.After w n j u → k < j → Q s u) :
    (parseDirective src want fmt store state).wp Q (fun _ _ => False) False v := by
  unfold parseDirective
  simp only [Prog.wp_bind]
  apply consume_after hs h.calls
  intro tk u hu _
  have hvalue : ∀ s t, src.After w n (k + 1) t →
      src.consumeToken.wp (fun _ => (pure s : Prog Halt (World ι) Pstate).wp Q
        (fun _ _ => False) False) (fun _ _ => False) False t := by
    intro s t ht
    apply consume_after hs ht.calls
    intro tk t' ht' _
    exact Prog.wp_pure.mpr (post s t' (k + 1 + 1) ht' (by omega))
  rw [Prog.wp_ite]
  split
  · simp only [getToken, Prog.wp_bind, Prog.wp_gets, Prog.wp_pure]
    exact hvalue _ u hu
  · rw [Prog.wp_bind]
    apply syntax_after hu
    intro t ht _
    simp only [Prog.wp_bind, Prog.wp_pure]
    exact hvalue state t ht

/-- The three ways in which a pass of the main loop gets on. -/
theorem parsePass_after (hs : src.Settles w n) (h : src.After w n k v) (l : Pstate × Bool) :
    (parsePass src l).wp
      (fun l' u => ∃ j, src.After w n j u ∧ (k < j ∧ k ≤ n ∨ 0 < u.errors ∨ l'.2 = true))
      (fun _ _ => False) False v := by
  have hread : ∀ type : TokenType, v.tok.type = type → ¬type.Last →
      ∀ (s : Pstate) (u : World ι) j, src.After w n j u → k < j →
        ∃ j, src.After w n j u ∧ (k < j ∧ k ≤ n ∨ 0 < u.errors ∨ (s, false).2 = true) :=
    fun type ht hmore s u j hj hkj => ⟨j, hj, .inl ⟨hkj, h.early ht hmore⟩⟩
  unfold parsePass
  simp only [tokenType, Prog.wp_bind, Prog.wp_gets]
  cases ht : v.tok.type
  case SYMBOL =>
    exact wp_more (parseRule_after hs h (hread _ ht (by unfold TokenType.Last; decide)))
  case VERBOSITY | NAME | PREFIX | CODE =>
    exact wp_more (parseDirective_after hs h (hread _ ht (by unfold TokenType.Last; decide)))
  case END_OF_INPUT => exact Prog.wp_pure.mpr ⟨k, h, .inr (.inr rfl)⟩
  all_goals
    unfold parseSwitch
    rw [Prog.wp_bind]
    apply syntax_after h
    intro u hu he
    exact Prog.wp_pure.mpr ⟨k, hu, .inr (.inl (by omega))⟩

end

/-- The loop condition of `parse_input`. -/
def goesOn {ι : Type} (l : Pstate × Bool) (w : World ι) : Bool := !l.2 && w.errors == 0

section

variable {ι : Type} {src : TokenSource ι} {w v : World ι} {n : Nat}

theorem createParser_after
    (hopen : src.openInput.wp (fun _ v => ∃ n, src.Settles v n) (fun _ _ => False) False w) :
    (createParser src).wp (fun _ v => ∃ w' n, src.Settles w' n ∧ src.After w' n 1 v)
      (fun _ _ => False) False w := by
  unfold createParser
  simp only [Prog.wp_bind]
  apply hopen.imp
  intro _ u hset
  obtain ⟨n, hs⟩ := hset
  apply consume_after hs .none
  intro tk t ht _
  exact Prog.wp_pure.mpr ⟨u, n, hs, ht⟩

theorem parseLoop_ends (hs : src.Settles w n) {k : Nat} (h : src.After w n k v)
    {l : Pstate × Bool} :
    (Prog.whileDo goesOn (parsePass src) l).wp (fun _ _ => True) (fun _ _ => False) False v := by
  -- One more than the calls that are left, until the loop is known to end.
  refine Prog.wp_whileDo_of_rank
    (fun m l u => ∃ j, src.After w n j u ∧ (goesOn l u = true → n + 2 - j ≤ m ∧ 0 < m)) ?_
    (fun _ _ _ _ _ => trivial) (n := n + 2) ⟨k, h, fun _ => by omega⟩
  · intro m l u hinv hc
    obtain ⟨j, hj, hm⟩ := hinv
    have hrank := hm hc
    apply (parsePass_after hs hj l).imp
    intro l' u' hpost
    obtain ⟨i, hi, hway⟩ := hpost
    refine ⟨m - 1, by omega, i, hi, ?_⟩
    intro hc'
    unfold goesOn at hc'
    rw [Bool.and_eq_true, beq_iff_eq] at hc'
    obtain ⟨hgo, herr⟩ := hc'
    rcases hway with hread | herr' | hfin
    · omega
    · omega
    · rw [hfin] at hgo
      cases hgo

/-- Each state in which the main loop tests its condition lies on a way of calls. -/
theorem LoopReach_calls (hs : src.Settles w n) {k : Nat} (h : src.After w n k v)
    {l l' : Pstate × Bool} {u : World ι}
    (hr : Prog.LoopReach goesOn (parsePass src) l v l' u) : ∃ j, src.After w n j u := by
  induction hr with
  | start => exact ⟨k, h⟩
  | pass _ _ hrun ih =>
    obtain ⟨j, hj⟩ := ih
    obtain ⟨i, hi, -⟩ := (parsePass_after hs hj _).1 _ _ hrun
    exact ⟨i, hi⟩

end

/-- `parse_input` ends on every token source that settles. Each pass of its main loop reads a token,
raises the error counter or ends the loop. -/
theorem parseInput_ends {ι : Type} (src : TokenSource ι) (w : World ι)
    (hopen : src.openInput.wp (fun _ v => ∃ n, src.Settles v n) (fun _ _ => False) False w) :
    (parseInput src).wp (fun _ _ => True) (fun _ _ => False) False w ∧
      ∀ state v l u, (createParser src).Runs w (.ok state v) →
        Prog.LoopReach goesOn (parsePass src) (state, false) v l u → goesOn l u = true →
        (parsePass src l).wp
          (fun l' u' => (∃ k, 1 ≤ k ∧ src.Calls u k u') ∨ 0 < u'.errors ∨ goesOn l' u' = false)
          (fun _ _ => False) False u := by
  have hcreate := createParser_after hopen
  refine ⟨?_, ?_⟩
  · unfold parseInput
    simp only [Prog.wp_bind]
    apply hcreate.imp
    intro state v hset
    obtain ⟨w', n, hs, hv⟩ := hset
    apply (parseLoop_ends hs hv).imp
    intro l u _
    exact Prog.wp_pure.mpr trivial
  · intro state v l u hrun hr _
    obtain ⟨w', n, hs, hv⟩ := hcreate.1 state v hrun
    obtain ⟨j, hj⟩ := LoopReach_calls hs hv hr
    -- The calls are counted from the state in which the pass begins.
    have hstart : src.After u n 0 u := ⟨.none, fun hlt => absurd hlt (Nat.not_lt_zero n)⟩
    apply (parsePass_after (hs.later hj.calls) hstart l).imp
    intro l' u' hpost
    obtain ⟨k, hk, hway⟩ := hpost
    rcases hway with hread | herr | hfin
    · exact .inl ⟨k, hread.1, hk.calls⟩
    · exact .inr (.inl herr)
    · refine .inr (.inr ?_)
      unfold goesOn
      rw [hfin]
      rfl

/-- The tokens of a list, then the same error in every call. -/
def stuckSource : TokenSource (List Tok) where
  openInput := pure ()
  consumeToken := do
    Prog.modify fun w =>
      match w.input with
      | tok :: rest => { w with input := rest, tok := tok }
      | [] => { w with tok := { type := .ERROR, str := [] }, errors := w.errors + 1 }
    getToken Token.unset

theorem stuckSource_consume (v : World (List Tok)) :
    stuckSource.consumeToken.wp
      (fun tk u => tk.type = u.tok.type ∧ u.input = v.input.tail ∧ (v.input = [] → tk.type = .ERROR))
      (fun _ _ => False) False v := by
  unfold stuckSource
  simp only [Prog.wp_bind, Prog.wp_modify, getToken, Prog.wp_gets]
  cases hv : v.input with
  | nil => exact ⟨trivial, rfl, fun _ => rfl⟩
  | cons tok rest => exact ⟨trivial, rfl, fun hnil => by cases hnil⟩

theorem stuckSource_settles (w : World (List Tok)) : stuckSource.Settles w w.input.length := by
  have hleft : ∀ k v, stuckSource.Calls w k v → v.input = w.input.drop k := by
    intro k v h
    induction h with
    | none => rfl
    | consume _ hrun ih =>
      obtain ⟨-, htail, -⟩ := (stuckSource_consume _).1 _ _ hrun
      rw [htail, ih, List.tail_drop]
    | message _ _ ih => exact ih
  refine ⟨fun k v _ => (stuckSource_consume v).imp fun _ _ hpost => hpost.1, ?_⟩
  intro k v tk u hk h hrun
  have hnil : v.input = [] := by rw [hleft k v h, List.drop_eq_nil_of_le hk]
  obtain ⟨-, -, herr⟩ := (stuckSource_consume v).1 tk u hrun
  exact .inr (herr hnil)

/-- A rule is cut short by a character that comes back as an error in every call. -/
theorem parseInput_ends_stuck :
    (parseInput stuckSource).wp (fun _ _ => True) (fun _ _ => False) False
      (World.boot [⟨.SYMBOL, [97]⟩, ⟨.COLON, []⟩, ⟨.SYMBOL, [98]⟩]) :=
  (parseInput_ends stuckSource _ (Prog.wp_pure.mpr ⟨_, stuckSource_settles _⟩)).1

end Rdpgen
