import Rdpgen.LexMode
import Rdpgen.Messages

namespace Rdpgen

/-- The static variables right after `open_input_file` at the start of the program. -/
def World.opened (fname bytes : Bytes) : World FileStack :=
  World.boot (FileStack.openInputFile fname bytes [])

/-- The states between the scanner calls on one input file. The rest of the
program touches neither the file stack nor `_tok`. -/
inductive ScanReach (fname bytes : Bytes) : World FileStack → Prop
  | start : ScanReach fname bytes (World.opened fname bytes)
  | call {w w' : World FileStack} {tk : Token} : ScanReach fname bytes w →
      consumeToken.Runs w (.ok tk w') → ScanReach fname bytes w'
  | outside {w w' : World FileStack} : ScanReach fname bytes w → w'.input = w.input →
      w'.tok = w.tok → ScanReach fname bytes w'

/-- How the file ends, read from its first byte on. -/
def fileEnding (bytes : Bytes) : Ending := (LexMode.between.after bytes).ending

theorem opened_shows (fname bytes : Bytes) :
    (World.opened fname bytes).Shows bytes (World.opened fname bytes).tok 0 where
  clean := FileStack.clean_openInputFile (show FileStack.Clean [] from trivial) fname fun _ => rfl
  unread := by simp [World.opened, World.boot, FileStack.unread_openInputFile]
  tok := rfl
  errors := rfl

theorem World.Shows.self {w : World FileStack} (h : w.input.Clean) :
    w.Shows w.input.unread w.tok w.errors :=
  ⟨h, rfl, rfl, rfl⟩

theorem consumeToken_returns {w w' : World FileStack} {tk : Token} (h : w.input.Clean)
    (hr : consumeToken.Runs w (.ok tk w')) :
    ∃ text n, lex w.input.unread = .token tk.type text w'.input.unread n ∧ w'.input.Clean ∧
      w'.tok = ⟨tk.type, text⟩ ∧ w'.errors = w.errors + n ∧ tk.str = copyStr text := by
  obtain ⟨type, text, rest, n, hlex, hw, rfl, hs⟩ := (consumeToken_wp (World.Shows.self h)).1 tk w' hr
  exact ⟨text, n, by rw [hlex, hw.unread], hw.clean, hw.tok, hw.errors, hs⟩

theorem consumeToken_diverges {w : World FileStack} (h : w.input.Clean)
    (hl : lex w.input.unread = .hang) : consumeToken.Diverges w := by
  have hw := consumeToken_wp (World.Shows.self h)
  rw [hl] at hw
  exact Prog.diverges_iff_wp.mpr (hw.mono (by simp) (by simp) fun _ => trivial)

/-- A call returns a token or takes the fatal exit. -/
def TokenOrExit (w : World FileStack) : Prop :=
  consumeToken.wp (fun _ _ => True) FatalExit False w

/-- Between two calls the unread bytes end as the whole file does. -/
theorem ScanReach.ending {fname bytes : Bytes} {w : World FileStack} (h : ScanReach fname bytes w) :
    w.input.Clean ∧ fileEnding w.input.unread = fileEnding bytes := by
  induction h with
  | start =>
    have hs := opened_shows fname bytes
    exact ⟨hs.clean, by rw [hs.unread]⟩
  | @call w w' tk _ hr ih =>
    obtain ⟨text, n, hlex, hc, -⟩ := consumeToken_returns ih.1 hr
    have ht := LexMode.tracks_lex w.input.unread
    rw [hlex] at ht
    exact ⟨hc, ht.symm.trans ih.2⟩
  | outside _ hi _ ih => rw [hi]; exact ih

@[simp] theorem fileEnding_nil : fileEnding [] = .plain := rfl

@[simp] theorem fileEnding_cut (u : Bytes) : fileEnding (0xFF :: u) = .cut := by
  rw [fileEnding, LexMode.after_cons, show LexMode.between.next 0xFF = .cut from rfl,
    LexMode.after_cut]
  rfl

theorem fileEnding_of_skipTrivia {u v : Bytes} (h : skipTrivia false u = some v) :
    fileEnding u = fileEnding v := by
  rw [fileEnding, fileEnding, ← (LexMode.after_skipTrivia h).1]
  rfl

theorem fileEnding_of_token {u text rest : Bytes} {t : TokenType} {n : Nat}
    (h : lex u = .token t text rest n) : fileEnding rest = fileEnding u := by
  have ht := LexMode.tracks_lex u
  rw [h] at ht
  exact ht.symm

/-- The end of input leaves its place where it is. -/
theorem lex_end {u text rest : Bytes} {n : Nat} (h : lex u = .token .END_OF_INPUT text rest n) :
    skipTrivia false u = some rest ∧ (rest = [] ∨ ∃ v, rest = 0xFF :: v) := by
  cases hv : skipTrivia false u with
  | none => simp [lex, hv] at h
  | some v =>
    simp only [lex, hv] at h
    rcases (lexFrom_end_iff h).mp rfl with rfl | ⟨r, rfl⟩
    · cases h
      exact ⟨rfl, Or.inl rfl⟩
    · rw [lexFrom, if_pos rfl] at h
      cases h
      exact ⟨rfl, Or.inr ⟨r, rfl⟩⟩

theorem fileEnding_of_end {u text rest : Bytes} {n : Nat}
    (h : lex u = .token .END_OF_INPUT text rest n) :
    rest = [] ∧ fileEnding u = .plain ∨ (∃ v, rest = 0xFF :: v) ∧ fileEnding u = .cut := by
  obtain ⟨hv, rfl | ⟨v, rfl⟩⟩ := lex_end h
  · exact Or.inl ⟨rfl, fileEnding_of_skipTrivia hv⟩
  · exact Or.inr ⟨⟨v, rfl⟩, by rw [fileEnding_of_skipTrivia hv, fileEnding_cut]⟩

/-- In a file that does not end plainly every other token takes input away. -/
theorem lex_shorter {u text rest : Bytes} {t : TokenType} {n : Nat}
    (h : lex u = .token t text rest n) (ht : t ≠ .END_OF_INPUT) (he : fileEnding u ≠ .plain) :
    rest.length < u.length := by
  cases hv : skipTrivia false u with
  | none => simp [lex, hv] at h
  | some v =>
    obtain ⟨-, hs, hn, hsuf⟩ := LexMode.after_skipTrivia hv
    rw [fileEnding_of_skipTrivia hv] at he
    simp only [lex, hv] at h
    cases v with
    | nil => simp at he
    | cons b v =>
      have hend : b ≠ 0xFF := by
        intro heq
        subst heq
        exact ht ((lexFrom_end_iff h).mpr (Or.inr ⟨v, rfl⟩))
      rcases (lexFrom_rest hend h).2 with hr | ⟨-, hstuck⟩
      · exact (Nat.lt_succ_of_le hr.length_le).trans_le hsuf.length_le
      · have hb : LexMode.start b = .stuck := hstuck hs fun hb => hn v (by rw [hb])
        rw [fileEnding, LexMode.after_cons, LexMode.next, hb, LexMode.after_stuck] at he
        simp [LexMode.ending] at he

/-- The end of the program tells how the file ends. -/
theorem fileEnding_of_stop {u : Bytes} {e : Halt} (h : lex u = .stop e) :
    e = .exit 1 ∧ fileEnding u = .plain ∨ e = .fault ∧ fileEnding u = .overflow := by
  have ht := LexMode.tracks_lex u
  rw [h] at ht
  cases e with
  | exit status => exact Or.inl ⟨by rw [ht.1], ht.2⟩
  | fault => exact Or.inr ⟨rfl, ht⟩

theorem fileEnding_of_hang {u : Bytes} (h : lex u = .hang) : fileEnding u = .inside := by
  have ht := LexMode.tracks_lex u
  rwa [h] at ht

theorem ScanReach.tokenOrExit {fname bytes : Bytes} {w : World FileStack}
    (hw : ScanReach fname bytes w) (hin : fileEnding bytes ≠ .inside)
    (hover : fileEnding bytes ≠ .overflow) : TokenOrExit w := by
  obtain ⟨hc, hu⟩ := hw.ending
  have hends := (consumeToken_wp (World.Shows.self hc)).and (consumeToken_moves w)
  refine hends.mono (fun _ _ _ => trivial) ?_ fun hl => ?_
  · intro e v hstop
    obtain ⟨hl, hexits⟩ := hstop
    rcases fileEnding_of_stop hl with ⟨he, -⟩ | ⟨-, he⟩
    · exact hexits.fatalExit he
    · exact absurd (hu.symm.trans he) hover
  · exact hin (hu.symm.trans (fileEnding_of_hang hl.1))

/-- In a file that does not end plainly some call of the scanner does not answer or
finds the end of the input. -/
theorem ScanReach.last (fname : Bytes) {bytes : Bytes} (he : fileEnding bytes ≠ .plain) :
    ∃ w, ScanReach fname bytes w ∧ (¬TokenOrExit w ∨
      ∃ tk w', consumeToken.Runs w (.ok tk w') ∧ tk.type = .END_OF_INPUT) := by
  have main : ∀ k w, ScanReach fname bytes w → w.input.unread.length = k →
      ∃ w, ScanReach fname bytes w ∧ (¬TokenOrExit w ∨
        ∃ tk w', consumeToken.Runs w (.ok tk w') ∧ tk.type = .END_OF_INPUT) := by
    intro k
    induction k using Nat.strongRecOn with
    | ind k ih =>
      intro w hw hk
      obtain ⟨hc, hu⟩ := hw.ending
      rcases Prog.run_cases consumeToken w with ⟨tk, w', hr⟩ | ⟨e, w', hr⟩ | hd
      · by_cases ht : tk.type = .END_OF_INPUT
        · exact ⟨w, hw, Or.inr ⟨tk, w', hr, ht⟩⟩
        · obtain ⟨text, n, hlex, -⟩ := consumeToken_returns hc hr
          exact ih _ (hk ▸ lex_shorter hlex ht (hu ▸ he)) w' (hw.call hr) rfl
      · rcases fileEnding_of_stop ((consumeToken_wp (World.Shows.self hc)).2.1 e w' hr) with
          ⟨-, hplain⟩ | ⟨rfl, -⟩
        · -- A file with a fatal exit ends plainly, whatever follows.
          exact absurd (hu.symm.trans hplain) he
        · exact ⟨w, hw, Or.inl fun ha => Halt.noConfusion (ha.2.1 _ _ hr).1⟩
      · exact ⟨w, hw, Or.inl fun ha => ha.2.2 hd⟩
  exact main _ _ .start rfl

/-- Every scanner call on a file returns or takes the fatal exit, exactly if
the file does not end inside of a comment, a string or a block, and opens no
more braces in a block than an `int` can count. -/
theorem consumeToken_terminates_iff (fname bytes : Bytes) :
    (∀ w, ScanReach fname bytes w → TokenOrExit w) ↔
      fileEnding bytes ≠ .inside ∧ fileEnding bytes ≠ .overflow := by
  constructor
  · intro h
    by_contra hends
    have hplain : fileEnding bytes ≠ .plain := fun he => hends (by rw [he]; decide)
    have hcut : fileEnding bytes ≠ .cut := fun he => hends (by rw [he]; decide)
    obtain ⟨w, hw, hd | ⟨tk, w', hr, ht⟩⟩ := ScanReach.last fname hplain
    · exact hd (h w hw)
    · obtain ⟨hc, hu⟩ := hw.ending
      obtain ⟨text, n, hlex, -⟩ := consumeToken_returns hc hr
      rw [ht] at hlex
      rcases fileEnding_of_end hlex with ⟨-, hend⟩ | ⟨-, hend⟩
      · exact hplain (hu.symm.trans hend)
      · exact hcut (hu.symm.trans hend)
  · exact fun he w hw => hw.tokenOrExit he.1 he.2

/-- The file of the one byte `#`. -/
theorem consumeToken_comment_never_ends :
    ¬ ∀ w, ScanReach [102] [35] w → TokenOrExit w := by
  intro h
  have hs := opened_shows [102] [35]
  have hd := consumeToken_diverges hs.clean (by rw [hs.unread]; rfl)
  exact (h _ .start).2.2 hd

end Rdpgen
