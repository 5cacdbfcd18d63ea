import Rdpgen.ScanRuns

namespace Rdpgen

/-- The file stack after `n` calls of `consume_char`. -/
def FileStack.consumes (n : Nat) (st : FileStack) : FileStack :=
  (fun st : FileStack => st.consumeChar.2)^[n] st

namespace FileStack

theorem consumes_add (m n : Nat) (st : FileStack) :
    (st.consumes m).consumes n = st.consumes (n + m) :=
  (Function.iterate_add_apply _ n m st).symm

theorem consumes_succ (n : Nat) (st : FileStack) :
    st.consumes (n + 1) = (st.consumes n).consumeChar.2 :=
  Function.iterate_succ_apply' _ n st

/-- Whatever `consume_char` keeps. -/
theorem consumes_keeps {I : FileStack → Prop} (step : ∀ st, I st → I st.consumeChar.2) {st : FileStack}
    (h : I st) (n : Nat) : I (st.consumes n) := by
  induction n with
  | zero => exact h
  | succ n ih =>
    rw [consumes_succ]
    exact step _ ih

theorem unread_consumes {st : FileStack} (h : st.Clean) (n : Nat) :
    (st.consumes n).unread = st.unread.drop n := by
  induction n with
  | zero => rfl
  | succ n ih =>
    have hc := consumes_keeps (fun _ => clean_consumeChar) h n
    rw [consumes_succ, unread_consumeChar hc, ih, List.tail_drop]

end FileStack

/-- `p` changes the file stack by calls of `consume_char` only, and leaves the
program by `exit(1)` and by an overflow only. -/
def Reads {α : Type} (p : Scan α) : Prop :=
  ∀ w, p.wp (fun _ w' => ∃ n, w'.input = w.input.consumes n)
    (fun e _ => e = .exit 1 ∨ e = .fault) True w

section

variable {α β : Type}

theorem reads_act {f : World FileStack → α × World FileStack} (h : ∀ w, (f w).2.input = w.input) :
    Reads (Prog.act f : Scan α) :=
  fun w => Prog.wp_act.mpr ⟨0, h w⟩

theorem reads_pure (a : α) : Reads (pure a : Scan α) := reads_act fun _ => rfl

theorem getChar_reads : Reads getChar := reads_act fun _ => rfl

theorem catTok_reads (ch : Int) : Reads (catTok ch) := reads_act fun _ => rfl

theorem setType_reads (type : TokenType) : Reads (setType type) := reads_act fun _ => rfl

theorem syntaxError_reads (fmt : String) (args : List String) :
    Reads (syntaxError fmt args : Scan Unit) := reads_act fun _ => rfl

theorem checkInt_reads (n : Int) : Reads (checkInt n) :=
  fun _ => checkInt_wp (fun _ => ⟨0, rfl⟩) fun _ => Or.inr rfl

theorem consumeChar_reads : Reads consumeChar := fun _ => Prog.wp_act.mpr ⟨1, rfl⟩

theorem Reads.bind {p : Scan α} {f : α → Scan β} (hp : Reads p) (hf : ∀ a, Reads (f a)) :
    Reads (p >>= f) := by
  intro w
  rw [Prog.wp_bind]
  apply (hp w).imp
  intro a w' hread
  obtain ⟨m, hm⟩ := hread
  apply (hf a w').imp
  intro b w'' hread
  obtain ⟨n, hn⟩ := hread
  exact ⟨n + m, by rw [hn, hm, FileStack.consumes_add]⟩

theorem Reads.ite {cond : Prop} [Decidable cond] {p q : Scan α} (hp : Reads p) (hq : Reads q) :
    Reads (if cond then p else q) := by
  split
  · exact hp
  · exact hq

theorem Reads.whileDo {cond : β → World FileStack → Bool} {body : β → Scan β}
    (hbody : ∀ b, Reads (body b)) (b : β) : Reads (Prog.whileDo cond body b) := by
  intro w
  apply Prog.wp_whileDo_of_invariant fun _ w' => ∃ n, w'.input = w.input.consumes n
  · intro b w' hread _
    obtain ⟨m, hm⟩ := hread
    apply (hbody b w').imp
    intro b' w'' hread
    obtain ⟨n, hn⟩ := hread
    exact ⟨n + m, by rw [hn, hm, FileStack.consumes_add]⟩
  · exact fun _ _ hread _ => hread
  · exact ⟨0, rfl⟩

end

/-! ### The functions of the scanner -/

theorem checkEof_reads (fmt : String) : Reads (checkEof fmt) := by
  have hfatal : Reads (fatal "unexpected end of file" [] : Scan Unit) := by
    intro w
    unfold fatal
    rw [Prog.wp_bind]
    exact Prog.wp_modify.mpr (Prog.wp_stop.mpr (Or.inl rfl))
  exact getChar_reads.bind fun _ => .ite ((syntaxError_reads _ _).bind fun _ => hfatal) (reads_pure _)

theorem consumeSpace_reads : Reads consumeSpace :=
  getChar_reads.bind fun _ => .bind (.whileDo (fun _ => consumeChar_reads) _) fun _ => reads_pure _

theorem consumeComment_reads : Reads consumeComment :=
  consumeChar_reads.bind fun _ => .bind (.whileDo (fun _ => consumeChar_reads) _) fun _ =>
    reads_pure _

theorem getDirective_reads : Reads getDirective := by
  have hbody : ∀ ch, Reads (directiveBody ch) := fun ch =>
    (catTok_reads ch).bind fun _ => consumeChar_reads.bind fun _ =>
      (checkEof_reads _).bind fun _ => reads_pure _
  refine getChar_reads.bind fun _ => (catTok_reads _).bind fun _ => consumeChar_reads.bind fun _ =>
    getChar_reads.bind fun _ => .bind (.whileDo hbody _) fun _ => .bind (reads_act fun _ => rfl)
    fun _ => (setType_reads _).bind fun _ => ?_
  exact .ite (syntaxError_reads _ _) (reads_pure _)

theorem getString_reads : Reads getString := by
  have hbody : ∀ ch, Reads (stringBody ch) := fun ch =>
    (catTok_reads ch).bind fun _ => consumeChar_reads.bind fun _ =>
      (checkEof_reads _).bind fun _ => reads_pure _
  exact consumeChar_reads.bind fun _ => getChar_reads.bind fun _ => .bind (.whileDo hbody _)
    fun _ => consumeChar_reads.bind fun _ => setType_reads _

theorem getBlock_reads : Reads getBlock := by
  have hchar : ∀ count ch, Reads (blockChar count ch) := by
    intro count ch
    have hkeep : ∀ n : Int, Reads (catTok ch >>= fun _ => pure n) := fun n =>
      (catTok_reads ch).bind fun _ => reads_pure n
    exact .ite ((checkInt_reads _).bind fun _ => hkeep _)
      (.ite (.ite (hkeep _) (reads_pure _)) (hkeep _))
  have hbody : ∀ count, Reads (blockBody count) := fun count =>
    getChar_reads.bind fun _ => .bind (hchar _ _) fun _ => consumeChar_reads.bind fun _ =>
      reads_pure _
  exact consumeChar_reads.bind fun _ => .bind (.whileDo hbody _) fun _ => setType_reads _

theorem getNumber_reads : Reads getNumber := by
  have hbody : ∀ ch, Reads (numberBody ch) := fun ch =>
    (catTok_reads ch).bind fun _ => consumeChar_reads
  exact getChar_reads.bind fun _ => (catTok_reads _).bind fun _ => consumeChar_reads.bind fun _ =>
    .bind (.whileDo hbody _) fun _ => setType_reads _

theorem getSymbol_reads : Reads getSymbol := by
  have hbody : ∀ ch, Reads (symbolBody ch) := fun ch =>
    (catTok_reads ch).bind fun _ => consumeChar_reads
  refine getChar_reads.bind fun _ => .ite ?_ ?_
  · exact (catTok_reads _).bind fun _ => consumeChar_reads.bind fun _ =>
      .bind (.whileDo hbody _) fun _ => setType_reads _
  · exact (setType_reads _).bind fun _ => syntaxError_reads _ _

theorem scanSwitch_reads (c : UInt8) : Reads (scanSwitch c) := by
  have hflag : ∀ (p : Scan Unit) (b : Bool), Reads p → Reads (p >>= fun _ => pure b) :=
    fun p b hp => hp.bind fun _ => reads_pure b
  have hcolon : Reads (setType .COLON >>= fun _ => consumeChar >>= fun _ => pure true) :=
    (setType_reads _).bind fun _ => consumeChar_reads.bind fun _ => reads_pure _
  have hrest : Reads (getChar >>= fun ch => if isDigit ch then getNumber >>= fun _ => pure true
      else getSymbol >>= fun _ => pure true) :=
    getChar_reads.bind fun _ => .ite (hflag _ _ getNumber_reads) (hflag _ _ getSymbol_reads)
  exact .ite (hflag _ _ (setType_reads _)) (.ite (hflag _ _ consumeComment_reads) (.ite hcolon
    (.ite (hflag _ _ getDirective_reads) (.ite (hflag _ _ getString_reads)
      (.ite (hflag _ _ getBlock_reads) hrest)))))

theorem scanPass_reads (finished : Bool) : Reads (scanPass finished) :=
  consumeSpace_reads.bind fun _ => getChar_reads.bind fun _ => scanSwitch_reads _

theorem consumeToken_consumes : Reads consumeToken := by
  have hclear : Reads (Prog.modify fun w => { w with tok := { w.tok with str := [] } } : Scan Unit) :=
    reads_act fun _ => rfl
  exact hclear.bind fun _ => .bind (.whileDo scanPass_reads _) fun _ => reads_act fun _ => rfl

end Rdpgen
