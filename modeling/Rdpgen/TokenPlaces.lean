import Rdpgen.EofGuard

namespace Rdpgen

/-- In the call of `consume_token` at `w` the first character of the token is current at `s`. -/
structure TokenStart (w s : World FileStack) : Prop where
  switch : ∃ u, Prog.LoopReach (fun finished _ => !finished) scanPass false
    { w with tok := { w.tok with str := [] } } false u ∧ consumeSpace.Runs u (.ok () s)
  noComment : uchar s.input.getChar ≠ byte '#'

/-- Some branch of the switch consumes a character in front of this one. -/
def StartsToken (b : UInt8) : Prop :=
  b = byte ':' ∨ b = byte '%' ∨ b = byte '"' ∨ b = byte '{' ∨ isDigit (chr b) ∨ isSymbol (chr b)

/-- Nothing is open, or one file with positions from 1 on. -/
def FileStack.OneFile : FileStack → Prop
  | [] => True
  | [file] => 1 ≤ file.lineNo ∧ 1 ≤ file.colNo
  | _ => False

namespace FileStack

variable {st : FileStack}

/-- `st'` shows no position, or a later one than `st`. -/
def Passed (st st' : FileStack) : Prop :=
  st' = [] ∨ st.getLineNo < st'.getLineNo ∨
    st.getLineNo = st'.getLineNo ∧ st.getColNo < st'.getColNo

theorem consumeChar_oneFile (h : st.OneFile) :
    st.consumeChar.2.OneFile ∧ st.Passed st.consumeChar.2 := by
  unfold Passed
  match st, h with
  | [], _ => exact ⟨trivial, .inl rfl⟩
  | [file], h =>
    obtain ⟨hline, hcol⟩ := h
    simp only [consumeChar]
    split
    · simp only [OneFile, getLineNo, getColNo]
      exact ⟨⟨by omega, by omega⟩, .inr (.inl (by omega))⟩
    · split
      · exact ⟨trivial, .inl rfl⟩
      · simp only [OneFile, getLineNo, getColNo]
        exact ⟨⟨hline, by omega⟩, .inr (.inr ⟨trivial, by omega⟩)⟩

theorem consumes_oneFile (h : st.OneFile) (n : Nat) : (st.consumes n).OneFile :=
  consumes_keeps (I := OneFile) (fun _ hone => (consumeChar_oneFile hone).1) h n

theorem passed_consumes (h : st.OneFile) (n : Nat) : st.Passed (st.consumes (n + 1)) := by
  induction n with
  | zero => exact (consumeChar_oneFile h).2
  | succ n ih =>
    obtain ⟨-, hnext⟩ := consumeChar_oneFile (consumes_oneFile h (n + 1))
    rw [consumes_succ]
    unfold Passed at ih hnext ⊢
    rcases ih with hnil | hlater
    · exact .inl (by rw [hnil]; rfl)
    · rcases hnext with hnil | hnext
      · exact .inl hnil
      · exact .inr (by omega)

/-- Whoever has consumed a character of an open file sees another position. -/
theorem position_consumes_iff (h : st.OneFile) (hopen : st.unread ≠ []) (n : Nat) :
    (st.consumes n).getLineNo = st.getLineNo ∧ (st.consumes n).getColNo = st.getColNo ↔ n = 0 := by
  constructor
  · intro hsame
    obtain ⟨hline, hcol⟩ := hsame
    cases n with
    | zero => rfl
    | succ n =>
      rcases passed_consumes h n with hnil | hlater
      · rw [hnil] at hline
        match st, h with
        | [], _ => exact absurd rfl hopen
        | [file], hone =>
          have hpos : 1 ≤ file.lineNo := hone.1
          change -1 = file.lineNo at hline
          omega
      · omega
  · intro hn
    subst hn
    exact ⟨rfl, rfl⟩

end FileStack

section

variable {fname bytes : Bytes} {w w' s : World FileStack} {tk : Token}

theorem ScanReach.oneFile (h : ScanReach fname bytes w) : w.input.OneFile := by
  induction h with
  | start =>
    change FileStack.OneFile (FileStack.openInputFile fname bytes [])
    cases bytes with
    | nil => exact ⟨Int.le_refl 1, Int.le_refl 1⟩
    | cons b bytes => exact ⟨Int.le_refl 1, Int.le_refl 1⟩
  | call _ hrun ih =>
    obtain ⟨n, hn⟩ := (consumeToken_consumes _).1 _ _ hrun
    rw [hn]
    exact FileStack.consumes_oneFile ih n
  | outside _ hi _ ih => rw [hi]; exact ih

theorem TokenStart.oneFile (hs : TokenStart w s) (h : w.input.OneFile) : s.input.OneFile := by
  obtain ⟨u, hloop, hspace⟩ := hs.switch
  have hu : u.input.OneFile := by
    apply hloop.invariant (fun _ v => v.input.OneFile) h
    intro finished v hv _
    have hread := scanPass_reads finished v
    refine hread.mono ?_ (fun _ _ _ => trivial) id
    intro _ v' hread
    obtain ⟨n, hn⟩ := hread
    rw [hn]
    exact FileStack.consumes_oneFile hv n
  obtain ⟨n, hn⟩ := (consumeSpace_reads u).1 _ _ hspace
  rw [hn]
  exact FileStack.consumes_oneFile hu n

/-- Behind the space a pass of the scanner is its switch. -/
theorem scanPass_runs {u : World FileStack} {finished finished' : Bool}
    (hspace : consumeSpace.Runs u (.ok () s)) :
    (scanPass finished).Runs u (.ok finished' w') ↔
      (scanSwitch (uchar s.input.getChar)).Runs s (.ok finished' w') := by
  unfold scanPass
  constructor
  · intro hpass
    obtain ⟨_, s₁, hspace', hpass⟩ := Prog.runs_bind_ok.mp hpass
    cases hspace.det hspace'
    obtain ⟨ch, s₂, hget, hswitch⟩ := Prog.runs_bind_ok.mp hpass
    cases Prog.runs_act.mp hget
    exact hswitch
  · intro hswitch
    exact Prog.runs_bind_ok.mpr ⟨(), s, hspace,
      Prog.runs_bind_ok.mpr ⟨_, s, Prog.runs_act.mpr rfl, hswitch⟩⟩

/-- The token that the call delivers is the one the switch scans at its start. -/
theorem TokenStart.scans (hw : ScanReach fname bytes w) (hs : TokenStart w s)
    (hrun : consumeToken.Runs w (.ok tk w')) :
    tk.line = w'.input.getLineNo ∧ tk.col = w'.input.getColNo ∧
      ∃ m text rest n, w'.input = s.input.consumes m ∧
        lexFrom s.input.unread = .token tk.type text rest n ∧ w'.input.unread = rest := by
  obtain ⟨u, hloop, hspace⟩ := hs.switch
  obtain ⟨v, t, errs, hshows, -⟩ := SwitchAt.shows ⟨w, u, hw, hloop, hspace⟩
  have hchar : s.input.getChar = peek v := by
    rw [FileStack.getChar_of_clean hshows.clean, hshows.unread]
  have hcomment : ∀ r, v ≠ byte '#' :: r := by
    intro r hv
    apply hs.noComment
    rw [hchar, hv, peek_cons, uchar_chr]
  have hfinish := scanSwitch_finishes hshows hcomment
  rw [← hchar] at hfinish
  unfold consumeToken at hrun
  obtain ⟨_, w₁, hclear, hrun⟩ := Prog.runs_bind_ok.mp hrun
  cases Prog.runs_act.mp hclear
  obtain ⟨fin, w₂, hwhile, hget⟩ := Prog.runs_bind_ok.mp hrun
  cases Prog.runs_act.mp hget
  have hgo : (!false) = true := rfl
  rw [hloop.runs_iff, Prog.runs_whileDo, if_pos hgo] at hwhile
  obtain ⟨finished, u₁, hpass, hrest⟩ := Prog.runs_bind_ok.mp hwhile
  have hswitch := (scanPass_runs hspace).mp hpass
  obtain ⟨hfin, type, text, rest, n, hlex, hend⟩ := hfinish.1 _ _ hswitch
  obtain ⟨m, hm⟩ := (scanSwitch_reads _ s).1 _ _ hswitch
  subst hfin
  rw [Prog.runs_whileDo, if_neg (by decide)] at hrest
  cases hrest
  refine ⟨rfl, rfl, m, text, rest, n, hm, ?_, hend.unread⟩
  change lexFrom s.input.unread = .token w₂.tok.type text rest n
  rw [hshows.unread, hlex, hend.tok]

/-- Every call that returns has met the first character of its token. -/
theorem tokenStart_exists (hrun : consumeToken.Runs w (.ok tk w')) : ∃ s, TokenStart w s := by
  unfold consumeToken at hrun
  obtain ⟨_, w₁, hclear, hrun⟩ := Prog.runs_bind_ok.mp hrun
  cases Prog.runs_act.mp hclear
  obtain ⟨fin, w₂, hwhile, -⟩ := Prog.runs_bind_ok.mp hrun
  obtain ⟨hreach, hstop⟩ := hwhile.loopReach
  cases hreach with
  | start => simp at hstop
  | @pass finished _ u _ hreach hgo hpass =>
    have hfalse : finished = false := by simpa using hgo
    have htrue : fin = true := by simpa using hstop
    subst hfalse
    subst htrue
    obtain ⟨_, s, hspace, -⟩ := Prog.runs_bind_ok.mp hpass
    have hswitch := (scanPass_runs hspace).mp hpass
    refine ⟨s, ⟨u, hreach, hspace⟩, ?_⟩
    intro hhash
    rw [hhash, scanSwitch, if_neg (by decide), if_pos rfl] at hswitch
    obtain ⟨_, _, -, hflag⟩ := Prog.runs_bind_ok.mp hswitch
    cases Prog.runs_act.mp hflag

/-- The characters that start a token are those that the switch does not leave current. -/
theorem start_ne_stuck {b : UInt8} (h : StartsToken b) (hs : isSpace (chr b) = false)
    (hb : b ≠ byte '#') (hend : b ≠ 0xFF) : LexMode.start b ≠ .stuck := by
  rw [LexMode.start, if_neg (by simp [hs]), if_neg hb, if_neg hend]
  split
  · decide
  next hcolon =>
  split
  · decide
  next hpercent =>
  split
  · decide
  next hquote =>
  split
  · decide
  next hbrace =>
  split
  · decide
  next hdigit =>
  split
  · decide
  next hsymbol =>
  rcases h with h | h | h | h | h | h <;> contradiction

/-- A token whose first character starts nothing leaves it current. -/
theorem lexFrom_keeps_iff {b : UInt8} {u text rest : Bytes} {t : TokenType} {n : Nat}
    (h : lexFrom (b :: u) = .token t text rest n) (ht : t ≠ .END_OF_INPUT)
    (hs : isSpace (chr b) = false) (hb : b ≠ byte '#') : rest = b :: u ↔ ¬StartsToken b := by
  have hend : b ≠ 0xFF := fun he => ht ((lexFrom_end_iff h).mpr (.inr ⟨u, by rw [he]⟩))
  constructor
  · intro hrest hstart
    rcases (lexFrom_rest hend h).2 with hsuf | ⟨-, hstuck⟩
    · have hlen := hsuf.length_le
      rw [hrest, List.length_cons] at hlen
      omega
    · exact start_ne_stuck hstart hs hb hend (hstuck hs hb)
  · intro hno
    unfold StartsToken at hno
    simp only [not_or] at hno
    obtain ⟨hcolon, hpercent, hquote, hbrace, hdigit, hsymbol⟩ := hno
    rw [lexFrom, if_neg hend, if_neg hcolon, if_neg hpercent, if_neg hquote, if_neg hbrace,
      if_neg hdigit, if_neg hsymbol] at h
    cases h
    rfl

theorem TokenStart.position_iff (hw : ScanReach fname bytes w)
    (hrun : consumeToken.Runs w (.ok tk w')) (htype : tk.type ≠ .END_OF_INPUT)
    (hs : TokenStart w s) :
    tk.line = s.input.getLineNo ∧ tk.col = s.input.getColNo ↔
      ¬StartsToken (uchar s.input.getChar) := by
  obtain ⟨u, hloop, hspace⟩ := hs.switch
  obtain ⟨v, t, errs, hshows, hblank⟩ := SwitchAt.shows ⟨w, u, hw, hloop, hspace⟩
  obtain ⟨hline, hcol, m, text, rest, n, hread, hlex, hrest⟩ := hs.scans hw hrun
  have hchar := FileStack.getChar_of_clean hshows.clean
  have hcomment := hs.noComment
  rw [← hshows.unread] at hblank
  cases hv : s.input.unread with
  | nil =>
    rw [hv] at hlex
    exact absurd ((lexFrom_end_iff hlex).mpr (.inl rfl)) htype
  | cons b v =>
    have hopen : s.input.unread ≠ [] := by rw [hv]; exact List.cons_ne_nil b v
    rw [hchar, hv, peek_cons, uchar_chr] at hcomment ⊢
    rw [hv, peek_cons] at hblank
    rw [hv] at hlex
    rw [← lexFrom_keeps_iff hlex htype hblank hcomment, hline, hcol, hread,
      FileStack.position_consumes_iff (hs.oneFile hw.oneFile) hopen m, ← hrest, hread,
      FileStack.unread_consumes hshows.clean, hv]
    constructor
    · intro hm
      rw [hm]
      rfl
    · intro hdrop
      have hlen := congrArg List.length hdrop
      rw [List.length_drop, List.length_cons] at hlen
      omega

end

/-- A token carries the position of its first character exactly if that
character starts no token, so that nothing has been consumed. -/
theorem token_position_iff {fname bytes : Bytes} {w w' : World FileStack} {tk : Token}
    (hw : ScanReach fname bytes w) (hrun : consumeToken.Runs w (.ok tk w'))
    (htype : tk.type ≠ .END_OF_INPUT) :
    (∃ s, TokenStart w s) ∧ ∀ s, TokenStart w s →
      (tk.line = s.input.getLineNo ∧ tk.col = s.input.getColNo ↔
        ¬StartsToken (uchar s.input.getChar)) :=
  ⟨tokenStart_exists hrun, fun _ hs => hs.position_iff hw hrun htype⟩

/-- The colon of the one line `:a` has the position of the letter. -/
theorem token_position_late :
    ∃ tk w' s, consumeToken.Runs (World.opened [102] [58, 97]) (.ok tk w') ∧ tk.type = .COLON ∧
      TokenStart (World.opened [102] [58, 97]) s ∧
      ¬(tk.line = s.input.getLineNo ∧ tk.col = s.input.getColNo) := by
  refine ⟨_, _, _, ⟨2, rfl⟩, rfl, ⟨⟨_, .start, ⟨1, rfl⟩⟩, by decide⟩, ?_⟩
  decide

/-- The equals sign of the file `=` starts no token. -/
theorem token_position_invalid :
    ∃ tk w' s, consumeToken.Runs (World.opened [102] [61]) (.ok tk w') ∧
      TokenStart (World.opened [102] [61]) s ∧
      tk.line = s.input.getLineNo ∧ tk.col = s.input.getColNo := by
  have hrun : consumeToken.Runs (World.opened [102] [61]) (.ok _ _) := ⟨2, rfl⟩
  have hs : TokenStart (World.opened [102] [61]) (World.opened [102] [61]) :=
    ⟨⟨_, .start, ⟨1, rfl⟩⟩, by decide⟩
  refine ⟨_, _, _, hrun, hs, ?_⟩
  apply ((token_position_iff .start hrun (by decide)).2 _ hs).mpr
  unfold StartsToken
  decide

end Rdpgen
