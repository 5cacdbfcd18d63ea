import Rdpgen.ScanReads

namespace Rdpgen

/-! ### The moments at which `check_eof` is called -/

/-- The switch of `consume_token` is entered at `v` in a run of the scanner on the file. -/
def SwitchAt (fname bytes : Bytes) (v : World FileStack) : Prop :=
  ∃ w u, ScanReach fname bytes w ∧
    Prog.LoopReach (fun finished _ => !finished) scanPass false
      { w with tok := { w.tok with str := [] } } false u ∧
    consumeSpace.Runs u (.ok () v)

/-- The calls in front of the loop of `get_string`. -/
def stringHead : Scan Int := do
  let _ ← consumeChar
  getChar

/-- The calls in front of the loop of `get_directive`. -/
def directiveHead : Scan Int := do
  catTok (← getChar)
  let _ ← consumeChar
  getChar

/-- The part of the two loop bodies in front of `check_eof`. -/
def guardHead (ch : Int) : Scan Int := do
  catTok ch
  consumeChar

/-- The states in which a run of the scanner on the file comes to a call of `check_eof`. -/
inductive GuardMoment (fname bytes : Bytes) : World FileStack → Prop
  | string {v s t w : World FileStack} {ch ch' ch'' : Int} : SwitchAt fname bytes v →
      uchar v.input.getChar = byte '"' → stringHead.Runs v (.ok ch s) →
      Prog.LoopReach (fun ch _ => ch != chr (byte '"')) stringBody ch s ch' t →
      (ch' != chr (byte '"')) = true → (guardHead ch').Runs t (.ok ch'' w) →
      GuardMoment fname bytes w
  | directive {v s t w : World FileStack} {ch ch' ch'' : Int} : SwitchAt fname bytes v →
      uchar v.input.getChar = byte '%' → directiveHead.Runs v (.ok ch s) →
      Prog.LoopReach (fun ch _ => isSymbol ch) directiveBody ch s ch' t →
      isSymbol ch' = true → (guardHead ch').Runs t (.ok ch'' w) → GuardMoment fname bytes w

/-- `check_eof` takes the fatal exit. -/
def TakesExit (w : World FileStack) : Prop :=
  ∃ fmt w', (checkEof fmt).Runs w (.stop (.exit 1) w')

section

variable {w : World FileStack} {u : Bytes} {tok : Tok} {errs : Nat} {fname bytes : Bytes}

theorem guardHead_shows (h : w.Shows u tok errs) (ch : Int) :
    (guardHead ch).wp (fun ch' w' => ch' = peek u.tail ∧ ∃ tok, w'.Shows u.tail tok errs)
      (fun _ _ => True) True w := by
  unfold guardHead
  rw [Prog.wp_bind]
  exact wp_catTok h fun w h => wp_consumeChar h fun w h => ⟨rfl, _, h⟩

/-- A loop of the scanner stands at the character that comes next. -/
def StandsAt (ch : Int) (w : World FileStack) : Prop := ∃ u tok errs, w.Shows u tok errs ∧ ch = peek u

theorem guardBody_stands (ch : Int) (fmt : String) (h : StandsAt ch w) :
    (do
      catTok ch
      let ch ← consumeChar
      checkEof fmt
      pure ch : Scan Int).wp StandsAt (fun _ _ => True) True w := by
  obtain ⟨u, tok, errs, h, -⟩ := h
  simp only [Prog.wp_bind]
  refine wp_catTok h fun w h => wp_consumeChar h fun w h => ?_
  exact wp_checkEof h (fun _ _ => trivial) fun _ => Prog.wp_pure.mpr ⟨_, _, _, h, rfl⟩

/-- A pass that does not finish has skipped a comment. -/
theorem scanPass_shows {t : TokenType} (h : w.Shows u ⟨t, []⟩ errs) :
    (scanPass false).wp
      (fun finished w' => finished = false → ∃ v, w'.Shows v ⟨t, []⟩ errs)
      (fun _ _ => True) True w := by
  unfold scanPass
  simp only [Prog.wp_bind]
  refine consumeSpace_wp h fun v w _ _ _ h => wp_getChar h ?_
  by_cases hc : ∃ r, v = byte '#' :: r
  · obtain ⟨r, hv⟩ := hc
    subst hv
    rw [peek_cons, uchar_chr, scanSwitch, if_neg (by decide), if_pos rfl, Prog.wp_bind]
    refine consumeComment_wp h (fun _ => trivial) fun v w _ _ h => ?_
    exact Prog.wp_pure.mpr fun _ => ⟨v, h⟩
  · refine Prog.wp.mono (scanSwitch_finishes h fun r he => hc ⟨r, he⟩) ?_ (fun _ _ _ => trivial)
      fun _ => trivial
    intro finished w' hpost hfalse
    rw [hpost.1] at hfalse
    cases hfalse

theorem SwitchAt.shows (h : SwitchAt fname bytes w) :
    ∃ u t errs, w.Shows u ⟨t, []⟩ errs ∧ isSpace (peek u) = false := by
  obtain ⟨w₀, u, hw₀, hloop, hspace⟩ := h
  obtain ⟨hc, -⟩ := hw₀.ending
  have hstart : World.Shows { w₀ with tok := { w₀.tok with str := [] } } w₀.input.unread
      ⟨w₀.tok.type, []⟩ w₀.errors := ⟨hc, rfl, rfl, rfl⟩
  have hshows := hloop.invariant
    (fun finished w => finished = false → ∃ v, w.Shows v ⟨w₀.tok.type, []⟩ w₀.errors)
    (fun _ => ⟨_, hstart⟩) ?_ rfl
  · obtain ⟨v, hv⟩ := hshows
    have hskip : consumeSpace.wp (fun _ w' => ∃ u t errs, w'.Shows u ⟨t, []⟩ errs ∧
        isSpace (peek u) = false) (fun _ _ => True) True u :=
      consumeSpace_wp hv fun v _ _ _ hp h => ⟨v, _, _, h, hp⟩
    exact hskip.1 _ _ hspace
  · intro finished w hinv hgo
    have hfalse : finished = false := by simpa using hgo
    obtain ⟨v, hv⟩ := hinv hfalse
    rw [hfalse]
    exact scanPass_shows hv

theorem SwitchAt.clean (h : SwitchAt fname bytes w) : w.input.Clean := by
  obtain ⟨u, t, errs, hw, -⟩ := h.shows
  exact hw.clean

theorem GuardMoment.clean (h : GuardMoment fname bytes w) : w.input.Clean := by
  have hguard : ∀ {ch ch' : Int} {t : World FileStack}, StandsAt ch t →
      (guardHead ch).Runs t (.ok ch' w) → w.input.Clean := by
    intro ch ch' t hat hrun
    obtain ⟨u, tok, errs, hu, -⟩ := hat
    obtain ⟨-, tok', hw⟩ := (guardHead_shows hu ch).1 ch' w hrun
    exact hw.clean
  cases h with
  | @string v _ _ _ _ _ _ hv _ hhead hloop _ hrun =>
    have hshows := World.Shows.self hv.clean
    have hat : stringHead.wp StandsAt (fun _ _ => True) True v := by
      unfold stringHead
      rw [Prog.wp_bind]
      exact wp_consumeChar hshows fun w h => wp_getChar h ⟨_, _, _, h, rfl⟩
    refine hguard (hloop.invariant StandsAt (hat.1 _ _ hhead) ?_) hrun
    intro ch w h _
    exact guardBody_stands ch _ h
  | @directive v _ _ _ _ _ _ hv _ hhead hloop _ hrun =>
    have hshows := World.Shows.self hv.clean
    have hat : directiveHead.wp StandsAt (fun _ _ => True) True v := by
      unfold directiveHead
      simp only [Prog.wp_bind]
      exact wp_getChar hshows (wp_catTok hshows fun w h => wp_consumeChar h fun w h =>
        wp_getChar h ⟨_, _, _, h, rfl⟩)
    refine hguard (hloop.invariant StandsAt (hat.1 _ _ hhead) ?_) hrun
    intro ch w h _
    exact guardBody_stands ch _ h

theorem takesExit_iff (hc : w.input.Clean) : TakesExit w ↔ peek w.input.unread > 0x7F := by
  have hshows := World.Shows.self hc
  constructor
  · intro hexit
    obtain ⟨fmt, w', hrun⟩ := hexit
    by_contra hlow
    have hstay : (checkEof fmt).wp (fun _ _ => True) (fun _ _ => False) True w :=
      wp_checkEof hshows (fun hhigh => absurd hhigh hlow) fun _ => trivial
    exact hstay.2.1 _ _ hrun
  · intro hhigh
    have hleave : (checkEof "").wp (fun _ _ => False) (fun e _ => e = .exit 1) False w :=
      wp_checkEof hshows (fun _ _ => rfl) fun hlow => absurd hhigh hlow
    rcases Prog.run_cases (checkEof "") w with ⟨a, w', hrun⟩ | ⟨e, w', hrun⟩ | hdiv
    · exact (hleave.1 a w' hrun).elim
    · have he := hleave.2.1 e w' hrun
      subst he
      exact ⟨"", w', hrun⟩
    · exact (hleave.2.2 hdiv).elim

/-- The guard is right exactly in front of a byte of ASCII. -/
theorem guard_right_iff (hc : w.input.Clean) :
    (TakesExit w ↔ w.input.unread = []) ↔ ∃ b u, w.input.unread = b :: u ∧ b < 0x80 := by
  rw [takesExit_iff hc]
  cases hu : w.input.unread with
  | nil => simp [eof]
  | cons b u =>
    have hb : chr b > 0x7F ↔ ¬b < 0x80 := by
      rw [UInt8.lt_iff_toNat_lt]
      have h80 : (0x80 : UInt8).toNat = 128 := rfl
      unfold chr
      omega
    simp only [peek_cons, hb, reduceCtorEq, iff_false, Decidable.not_not]
    constructor
    · intro hlow
      exact ⟨b, u, rfl, hlow⟩
    · intro hex
      obtain ⟨b', u', he, hlow⟩ := hex
      cases he
      exact hlow

/-! ### Strings -/

theorem peek_guard {t rest : Bytes} (hrest : ¬peek rest > 0x7F) :
    peek (t ++ rest) > 0x7F ↔ ∃ b, t.head? = some b ∧ 0x80 ≤ b := by
  cases t with
  | nil => simpa using hrest
  | cons b t =>
    have h80 : (0x80 : UInt8).toNat = 128 := rfl
    simp only [List.cons_append, peek_cons, List.head?_cons, Option.some.injEq, exists_eq_left',
      UInt8.le_iff_toNat_le]
    unfold chr
    omega

/-- Only the bytes behind the first one are guarded. -/
def Guarded (t : Bytes) : Prop := ∃ b ∈ t.tail, 0x80 ≤ b

theorem guarded_cons {b : UInt8} {t : Bytes} :
    Guarded (b :: t) ↔ (∃ c, t.head? = some c ∧ 0x80 ≤ c) ∨ Guarded t := by
  unfold Guarded
  cases t with
  | nil => simp
  | cons c t => simp

theorem lexString_closed {t : Bytes} (rest text : Bytes) (hq : byte '"' ∉ t) :
    lexString text (t ++ byte '"' :: rest) = .token .STRG (text ++ t) rest 0 ∧ ¬Guarded t ∨
      lexString text (t ++ byte '"' :: rest) = .stop (.exit 1) ∧ Guarded t := by
  have hrest : ¬peek (byte '"' :: rest) > 0x7F := by
    have hquote : chr (byte '"') = 34 := rfl
    rw [peek_cons, hquote]
    omega
  induction t generalizing text with
  | nil =>
    refine .inl ⟨?_, by simp [Guarded]⟩
    simp [lexString]
  | cons b t ih =>
    have hb : b ≠ byte '"' := fun he => hq (he ▸ List.mem_cons_self)
    have hnext := ih (text ++ [b]) fun hmem => hq (List.mem_cons_of_mem b hmem)
    rw [guarded_cons, List.cons_append, lexString, if_neg hb]
    by_cases hp : peek (t ++ byte '"' :: rest) > 0x7F
    · rw [if_pos hp]
      exact .inr ⟨rfl, .inl ((peek_guard hrest).mp hp)⟩
    · have hhead : ¬∃ c, t.head? = some c ∧ 0x80 ≤ c := fun hex => hp ((peek_guard hrest).mpr hex)
      rw [if_neg hp]
      simpa [hhead] using hnext

theorem lexString_open {t : Bytes} (text : Bytes) (hq : byte '"' ∉ t) :
    lexString text t = .hang ∧ ¬Guarded t ∨ lexString text t = .stop (.exit 1) ∧ Guarded t := by
  induction t generalizing text with
  | nil => exact .inl ⟨rfl, by simp [Guarded]⟩
  | cons b t ih =>
    have hb : b ≠ byte '"' := fun he => hq (he ▸ List.mem_cons_self)
    have hnext := ih (text ++ [b]) fun hmem => hq (List.mem_cons_of_mem b hmem)
    have hguard : peek t > 0x7F ↔ ∃ c, t.head? = some c ∧ 0x80 ≤ c := by
      have hnil : ¬peek [] > 0x7F := by simp [eof]
      have hg := peek_guard (t := t) hnil
      rwa [List.append_nil] at hg
    rw [guarded_cons, lexString, if_neg hb]
    by_cases hp : peek t > 0x7F
    · rw [if_pos hp]
      exact .inr ⟨rfl, .inl (hguard.mp hp)⟩
    · have hhead : ¬∃ c, t.head? = some c ∧ 0x80 ≤ c := fun hex => hp (hguard.mpr hex)
      rw [if_neg hp]
      simpa [hhead] using hnext

end

/-! ### What becomes of a string -/

/-- The string `t` comes back as one token, and the input behind its quote is left. -/
def ReturnsString (w : World FileStack) (t rest : Bytes) : Prop :=
  ∃ tk w', consumeToken.Runs w (.ok tk w') ∧ tk.type = .STRG ∧ tk.str = t ∧ w'.input.unread = rest

/-- The scanner call ends with a message: it takes the fatal exit, whose message is the last one,
or it answers with an error. -/
def ReportsError (w : World FileStack) : Prop :=
  (∃ e w', consumeToken.Runs w (.stop e w') ∧ FatalExit e w') ∨
    ∃ tk w', consumeToken.Runs w (.ok tk w') ∧ tk.type = .ERROR

section

variable {w : World FileStack} {fname bytes : Bytes}

theorem lex_string {u v : Bytes} (h : skipTrivia false u = some (byte '"' :: v)) :
    lex u = lexString [] v := by
  unfold lex
  rw [h]
  rfl

theorem returnsString_iff {t rest : Bytes} (hc : w.input.Clean)
    (hu : skipTrivia false w.input.unread = some (byte '"' :: (t ++ byte '"' :: rest)))
    (hnul : 0 ∉ t) (hq : byte '"' ∉ t) : ReturnsString w t rest ↔ ¬Guarded t := by
  have hlex := lex_string hu
  constructor
  · intro hret hguard
    obtain ⟨tk, w', hrun, -⟩ := hret
    obtain ⟨text, n, htok, -⟩ := consumeToken_returns hc hrun
    rw [hlex] at htok
    rcases lexString_closed _ [] hq with ⟨-, hno⟩ | ⟨hfatal, -⟩
    · exact hno hguard
    · rw [hfatal] at htok
      cases htok
  · intro hno
    rcases lexString_closed rest [] hq with ⟨htoken, -⟩ | ⟨-, hguard⟩
    · have hwp := consumeToken_wp (World.Shows.self hc)
      rw [hlex, htoken] at hwp
      have hret := Prog.wp.returns (hwp.mono (fun _ _ hq => hq) (fun _ _ he => by cases he)
        fun hd => by cases hd)
      obtain ⟨tk, w', hrun, type, text, rest', n, heq, hw, htype, hstr⟩ := hret
      cases heq
      refine ⟨tk, w', hrun, htype, ?_, hw.unread⟩
      rw [hstr]
      exact cString_of_nulFree hnul
    · exact absurd hguard hno

theorem reportsError_iff {t : Bytes} (hc : w.input.Clean)
    (hu : skipTrivia false w.input.unread = some (byte '"' :: t)) (hq : byte '"' ∉ t) :
    ReportsError w ↔ Guarded t := by
  have hlex := lex_string hu
  have hwp := consumeToken_wp (World.Shows.self hc)
  rcases lexString_open [] hq with ⟨hhang, hno⟩ | ⟨hfatal, hguard⟩
  · have hdiv := consumeToken_diverges hc (hlex.trans hhang)
    refine iff_of_false ?_ hno
    intro hrep
    rcases hrep with ⟨e, w', hrun, -⟩ | ⟨tk, w', hrun, -⟩
    · exact Prog.diverges_iff.mp hdiv ⟨_, hrun⟩
    · exact Prog.diverges_iff.mp hdiv ⟨_, hrun⟩
  · refine iff_of_true ?_ hguard
    rw [hlex, hfatal] at hwp
    rcases Prog.run_cases consumeToken w with ⟨tk, w', hrun⟩ | ⟨e, w', hrun⟩ | hdiv
    · obtain ⟨_, _, _, _, heq, -⟩ := hwp.1 tk w' hrun
      cases heq
    · cases hwp.2.1 e w' hrun
      have hexits := (consumeToken_moves w).2.1 _ w' hrun
      exact .inl ⟨_, w', hrun, hexits.fatalExit rfl⟩
    · exact absurd (hwp.2.2 hdiv) (by simp)

end

/-- The guard against the end of the file is right exactly in front of a byte of ASCII. So a closed
string is returned if and only if its bytes behind the first are ASCII, and an unterminated one is
reported if and only if one of them is not. -/
theorem checkEof_exact_iff (fname bytes : Bytes) :
    (∀ w, GuardMoment fname bytes w →
      ((TakesExit w ↔ w.input.unread = []) ↔ ∃ b u, w.input.unread = b :: u ∧ b < 0x80)) ∧
    (∀ w t rest, ScanReach fname bytes w →
      skipTrivia false w.input.unread = some (byte '"' :: (t ++ byte '"' :: rest)) →
      0 ∉ t → byte '"' ∉ t → (ReturnsString w t rest ↔ ∀ b ∈ t.tail, b < 0x80)) ∧
    ∀ w t, ScanReach fname bytes w → skipTrivia false w.input.unread = some (byte '"' :: t) →
      byte '"' ∉ t → (ReportsError w ↔ ∃ b ∈ t.tail, 0x80 ≤ b) := by
  refine ⟨?_, ?_, ?_⟩
  · intro w hw
    exact guard_right_iff hw.clean
  · intro w t rest hw hu hnul hq
    rw [returnsString_iff hw.ending.1 hu hnul hq]
    unfold Guarded
    simp only [not_exists, not_and, UInt8.not_le]
  · intro w t hw hu hq
    exact reportsError_iff hw.ending.1 hu hq

/-- The string of one character in two bytes takes the exit in front of its second byte, and a
string without an end is read on and on behind the end of the file. -/
theorem checkEof_misses_end :
    (∃ w, GuardMoment [102] [34, 0xC3, 0xA9, 34] w ∧ TakesExit w ∧ w.input.unread ≠ []) ∧
      (∃ w, GuardMoment [102] [34, 97] w ∧ ¬TakesExit w ∧ w.input.unread = []) ∧
      ¬ReportsError (World.opened [102] [34, 97]) := by
  refine ⟨?_, ?_, ?_⟩
  · have hat : SwitchAt [102] [34, 0xC3, 0xA9, 34] (World.opened [102] [34, 0xC3, 0xA9, 34]) :=
      ⟨_, _, .start, .start, ⟨1, rfl⟩⟩
    refine ⟨_, .string hat rfl ⟨0, rfl⟩ .start rfl ⟨0, rfl⟩, ⟨"", _, 0, rfl⟩, ?_⟩
    decide
  · have hat : SwitchAt [102] [34, 97] (World.opened [102] [34, 97]) :=
      ⟨_, _, .start, .start, ⟨1, rfl⟩⟩
    have hmoment : GuardMoment [102] [34, 97] _ := .string hat rfl ⟨0, rfl⟩ .start rfl ⟨0, rfl⟩
    refine ⟨_, hmoment, ?_, rfl⟩
    rw [takesExit_iff hmoment.clean]
    decide
  · have hshows := opened_shows [102] [34, 97]
    rw [reportsError_iff hshows.clean (by rw [hshows.unread]; rfl) (by decide)]
    unfold Guarded
    simp

end Rdpgen
