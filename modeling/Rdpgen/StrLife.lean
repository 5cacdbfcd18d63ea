import Rdpgen.StrBlocks

namespace Rdpgen

theorem compares_nil (text : Bytes) : Compares text [] 0 := by
  refine ⟨?_, ?_⟩
  · simp
  · simp

/-- The first difference decides. -/
theorem compares_differ {c b : UInt8} (hne : c ≠ b) (text str : Bytes) :
    Compares (c :: text) (b :: str) ((c.toNat : Int) - b.toNat) := by
  have hnat : c.toNat ≠ b.toNat := fun he => hne (UInt8.toNat_inj.mp he)
  refine ⟨?_, ?_⟩
  · rw [List.cons_prefix_cons]
    constructor
    · intro hzero
      omega
    · intro hpre
      exact absurd hpre.1.symm hne
  · rw [List.length_cons, List.take_succ_cons, List.cons_lt_cons_iff, UInt8.lt_iff_toNat_lt]
    constructor
    · intro hneg
      exact .inl (by omega)
    · intro hlt
      rcases hlt with hlt | ⟨he, -⟩
      · omega
      · exact absurd he hne

/-- The zero behind the text comes before every other byte. -/
theorem compares_ended {b : UInt8} (hb : b ≠ 0) (str : Bytes) :
    Compares [] (b :: str) (((0 : UInt8).toNat : Int) - b.toNat) := by
  have hpos : b.toNat ≠ 0 := fun he => hb (UInt8.toNat_inj.mp he)
  have hnul : (0 : UInt8).toNat = 0 := rfl
  refine ⟨?_, ?_⟩
  · rw [hnul, List.prefix_nil]
    constructor
    · intro hzero
      omega
    · intro hnil
      cases hnil
  · rw [hnul, List.take_nil]
    constructor
    · exact fun _ => List.nil_lt_cons b str
    · intro _
      omega

theorem Compares.cons {text str : Bytes} {n : Int} (h : Compares text str n) (b : UInt8) :
    Compares (b :: text) (b :: str) n := by
  refine ⟨?_, ?_⟩
  · rw [List.cons_prefix_cons, h.zero]
    simp
  · rw [List.length_cons, List.take_succ_cons, List.cons_lt_cons_iff, h.neg]
    simp

section

variable {α : Type} {junk : Nat → Nat → UInt8} {useGc : Bool} {m : Memory α}
  {E : Halt → Memory α → Prop} {D : Prop}

/-- The comparison from index `i` on, at most at the zero. -/
theorem strncmpFrom_wp {p : StrObj} {text str : Bytes} {i : Nat} (hp : p.Holds text)
    (hi : i ≤ text.length) (hstr : 0 ∉ str) :
    (p.strncmpFrom i str).wp (fun n m' => m' = m ∧ Compares (text.drop i) str n) E D m := by
  induction str generalizing i with
  | nil => exact Prog.wp_pure.mpr ⟨rfl, compares_nil _⟩
  | cons b str ih =>
    obtain ⟨hb, hrest⟩ := List.ne_and_not_mem_of_not_mem_cons hstr
    unfold StrObj.strncmpFrom StrObj.readAt
    rw [Prog.wp_bind]
    rcases Nat.lt_or_eq_of_le hi with hlt | rfl
    · have hread : p.buffer.val[i]? = some text[i] := by
        rw [hp.buffer_eq, List.getElem?_append_left hlt, List.getElem?_eq_getElem hlt]
      simp only [hread, Prog.wp_pure, List.drop_eq_getElem_cons hlt]
      split
      · next hne => exact Prog.wp_pure.mpr ⟨rfl, compares_differ hne _ _⟩
      · next he =>
        have heq : text[i] = b := not_ne_iff.mp he
        rw [heq]
        apply (ih hlt hrest).imp
        intro n m' h
        exact ⟨h.1, h.2.cons b⟩
    · have hread : p.buffer.val[text.length]? = some 0 := by
        rw [hp.buffer_eq, List.getElem?_append_right (Nat.le_refl _), Nat.sub_self]
        rfl
      simp only [hread, Prog.wp_pure, List.drop_length]
      rw [if_pos hb]
      exact Prog.wp_pure.mpr ⟨rfl, compares_ended (Ne.symm hb) str⟩

open StrObj

/-- What an appending function answers and leaves. -/
structure Appended (text str : Bytes) (r : Int × StrObj) : Prop where
  length_eq : r.1 = toInt (text ++ str).length
  holds : r.2.Holds (text ++ str)

theorem withText_appended {p p' : StrObj} {m' : Memory α} {text str : Bytes} (hp : p.Holds text)
    (hstr : 0 ∉ str) (hg : Grown m m' p p') (hroom : p'.len + str.length < p'.cap) :
    Appended text str (toInt (p'.withText str).len, p'.withText str) := by
  have hnew := hp.sized.gives hg hroom
  rw [hp.contents_eq] at hnew
  have hholds : (p'.withText str).Holds (text ++ str) := by
    refine ⟨hnew.sized, hnew.contents_eq, ?_⟩
    intro hmem
    rcases List.mem_append.mp hmem with hmem | hmem
    · exact hp.nulFree hmem
    · exact hstr hmem
  have hlen : (p'.withText str).len = (text ++ str).length := hholds.lenStr_eq
  refine ⟨?_, hholds⟩
  rw [← hlen]

theorem createCell_wp (str : Option Bytes) (hlong : (str.getD []).length < 2 ^ 62)
    (hstr : 0 ∉ str.getD []) :
    (StrCell.createStr junk str).wp (fun c _ => c.obj.Holds (str.getD [])) E False m := by
  unfold StrCell.createStr
  rw [Prog.wp_bind, wp_memAlloc (by decide), Prog.wp_bind]
  apply createStr_wp hlong
  intro p m' hg
  exact Prog.wp_pure.mpr ⟨hg.sized, hg.contents_eq, hstr⟩

theorem createFmtCell_wp {text : Bytes} (hint : text.length < 2 ^ 31) (htext : 0 ∉ text) :
    (StrCell.createStrFmt junk useGc text).wp (fun c _ => c.obj.Holds text) E False m := by
  have hlong : text.length < 2 ^ 62 := by omega
  unfold StrCell.createStrFmt
  rw [vsnprintf_of_lt hint, Prog.wp_bind, wp_memAlloc (vsnprintf_size hint), Prog.wp_bind]
  apply (createCell_wp (some text) hlong htext).imp
  intro c m' hc
  rw [Prog.wp_bind]
  apply memFree_wp
  · exact fun _ _ => Prog.wp_pure.mpr hc
  · intro hnull
    cases hnull

theorem copyCell_wp {c : StrCell} {text : Bytes} (hc : c.obj.Holds text)
    (hlong : text.length < 2 ^ 62) :
    (c.copyStr junk).wp (fun c' _ => c'.obj.Holds text) E False m := by
  have hraw : cString c.obj.buffer.val = text := hc.rawStr_eq
  have hzero : 0 ∈ c.obj.buffer.val := List.mem_of_getElem? hc.sized.nul
  unfold StrCell.copyStr
  rw [if_pos hzero, hraw]
  exact createCell_wp (some text) hlong hc.nulFree

end

/-- Every object that is left holds its text. -/
def CellsHold (cells : Cells) (texts : List (Option Bytes)) : Prop :=
  List.Forall₂ (Option.Rel fun c text => c.obj.Holds text) cells texts

section

variable {cells : Cells} {texts : List (Option Bytes)} {h : Nat} {text : Bytes}

theorem CellsHold.get (hh : CellsHold cells texts) (ht : texts[h]? = some (some text)) :
    ∃ c, cells[h]? = some (some c) ∧ c.obj.Holds text := by
  obtain ⟨hlt, he⟩ := List.getElem?_eq_some_iff.mp ht
  have hlt' : h < cells.length := by rwa [hh.length_eq]
  have hrel := List.Forall₂.get hh hlt' hlt
  rw [List.get_eq_getElem, List.get_eq_getElem, he] at hrel
  rw [List.getElem?_eq_getElem hlt']
  generalize cells[h] = x at hrel
  cases hrel with
  | some hc => exact ⟨_, rfl, hc⟩

theorem CellsHold.add {c : StrCell} (hh : CellsHold cells texts) (hc : c.obj.Holds text) :
    CellsHold (cells ++ [some c]) (texts ++ [some text]) :=
  List.rel_append hh (List.Forall₂.cons (.some hc) List.Forall₂.nil)

/-- One object changes with its text. -/
theorem CellsHold.set {x : Option StrCell} {f : Option Bytes → Option Bytes}
    (hh : CellsHold cells texts) (ht : texts[h]? = some (some text))
    (hx : Option.Rel (fun c text => c.obj.Holds text) x (f (some text))) :
    CellsHold (cells.set h x) (texts.modify h f) := by
  unfold CellsHold at hh ⊢
  induction hh generalizing h with
  | nil => simp at ht
  | @cons y t cells texts hy hrest ih =>
    cases h with
    | zero =>
      have he : t = some text := by simpa using ht
      subst he
      exact List.Forall₂.cons hx hrest
    | succ h =>
      rw [List.set_cons_succ, List.modify_succ_cons]
      exact List.Forall₂.cons hy (ih (by simpa using ht))

end

section

open StrObj

variable {junk : Nat → Nat → UInt8} {useGc : Bool} {m : Memory Cells} {texts : List (Option Bytes)}
  {E : Halt → Memory Cells → Prop} {D : Prop}

theorem addCell_wp {text : Bytes} {f : MemProg Cells StrCell} (hh : CellsHold m.obj texts)
    (hf : f.wp (fun c _ => c.obj.Holds text) E D m) :
    (addCell f).wp (fun a m' => a = none ∧ CellsHold m'.obj (texts ++ [some text])) E D m := by
  unfold addCell
  rw [Prog.wp_bind, wp_object, Prog.wp_bind]
  apply hf.imp
  intro c m' hc
  rw [Prog.wp_bind, wp_setObject, Prog.wp_pure]
  exact ⟨rfl, hh.add hc⟩

theorem withCell_wp {β : Type} {h : Nat} {text : Bytes} {f : Cells → StrCell → MemProg Cells β}
    {Q : β → Memory Cells → Prop} (hh : CellsHold m.obj texts) (ht : texts[h]? = some (some text))
    (hf : ∀ c, c.obj.Holds text → (f m.obj c).wp Q E D m) : (withCell h f).wp Q E D m := by
  obtain ⟨c, hc, hholds⟩ := hh.get ht
  unfold withCell
  rw [Prog.wp_bind, wp_object]
  simp only [hc]
  exact hf c hholds

/-- A function on an object that holds `text` leaves it with `g text`. -/
theorem onCell_wp {h : Nat} {text : Bytes} {g : Bytes → Bytes} {a : Option Int}
    {f : StrObj → MemProg Cells (Option Int × StrObj)} (hh : CellsHold m.obj texts)
    (ht : texts[h]? = some (some text))
    (hf : ∀ p, p.Holds text → (f p).wp (fun r _ => r.1 = a ∧ r.2.Holds (g text)) E D m) :
    (onCell h f).wp (fun b m' => b = a ∧ CellsHold m'.obj (texts.modify h (·.map g))) E D m := by
  refine withCell_wp hh ht fun c hc => ?_
  rw [Prog.wp_bind]
  apply (hf c.obj hc).imp
  intro r m' hr
  rw [Prog.wp_bind, wp_setObject, Prog.wp_pure]
  exact ⟨hr.1, hh.set ht (.some hr.2)⟩

/-- An appending function answers with the new length. -/
theorem appendCell_wp {h : Nat} {text : Bytes} (str : Bytes) {f : StrObj → MemProg Cells (Int × StrObj)}
    (hh : CellsHold m.obj texts) (ht : texts[h]? = some (some text))
    (hf : ∀ p, p.Holds text → (f p).wp (fun r _ => Appended text str r) E D m) :
    (onCell h fun p => withLength (f p)).wp
      (fun a m' => (∃ t, (texts.modify h (·.map (· ++ str)))[h]? = some (some t) ∧
        a = some (toInt t.length)) ∧ CellsHold m'.obj (texts.modify h (·.map (· ++ str)))) E D m := by
  have hnew : (texts.modify h (·.map (· ++ str)))[h]? = some (some (text ++ str)) := by
    rw [List.getElem?_modify_eq, ht]
    rfl
  have hcall : (onCell h fun p => withLength (f p)).wp
      (fun a m' => a = some (toInt (text ++ str).length) ∧
        CellsHold m'.obj (texts.modify h (·.map (· ++ str)))) E D m := by
    refine onCell_wp hh ht fun p hp => ?_
    unfold withLength
    rw [Prog.wp_bind]
    apply (hf p hp).imp
    intro r m' hr
    rw [Prog.wp_pure]
    exact ⟨congrArg some hr.length_eq, hr.holds⟩
  exact hcall.imp fun a m' ha => ⟨⟨text ++ str, hnew, ha.1⟩, ha.2⟩

/-- A function without an answer that maps the text. -/
theorem changeCell_wp {h : Nat} {text : Bytes} {g : Bytes → Bytes} {f : StrObj → MemProg Cells StrObj}
    (hh : CellsHold m.obj texts) (ht : texts[h]? = some (some text))
    (hf : ∀ p, p.Holds text → (f p).wp (fun q _ => q.Holds (g text)) E D m) :
    (onCell h fun p => withoutAnswer (f p)).wp
      (fun a m' => a = none ∧ CellsHold m'.obj (texts.modify h (·.map g))) E D m := by
  refine onCell_wp hh ht fun p hp => ?_
  unfold withoutAnswer
  rw [Prog.wp_bind]
  apply (hf p hp).imp
  intro q m' hq
  rw [Prog.wp_pure]
  exact ⟨rfl, hq⟩

theorem mapCell_wp {h lo hi : Nat} {d : Int} {text : Bytes} (hh : CellsHold m.obj texts)
    (ht : texts[h]? = some (some text)) (hhi : hi < 128) (hlow : 0 < lo + d) (hhigh : hi + d < 128) :
    (onCell h fun p => withoutAnswer (mapStr (shiftChar lo hi d) p)).wp
      (fun a m' => a = none ∧
        CellsHold m'.obj (texts.modify h (·.map (·.map (shiftByte lo hi d))))) E False m := by
  refine changeCell_wp hh ht fun p hp => ?_
  apply mapStr_wp hp (uchar_shiftChar hhi hlow hhigh)
  intro q hs hcont
  exact ⟨hs, hcont, zero_notMem_map (fun b hb => shiftByte_ne_zero hlow hhigh hb) hp.nulFree⟩

/-- Each call answers and leaves the texts as it says. -/
theorem runStrCall_wp {call : StrCall} (hh : CellsHold m.obj texts)
    (hvalid : ValidStrCall texts call) :
    (runStrCall junk useGc call).wp
      (fun a m' => CallAnswers texts call a ∧ CellsHold m'.obj (textCall texts call))
      (fun e m' => Denied e m' ∧ CallFills texts call) False m := by
  cases call with
  | create str => exact addCell_wp hh (createCell_wp str hvalid.2 hvalid.1)
  | createFmt text => exact addCell_wp hh (createFmtCell_wp hvalid.2 hvalid.1)
  | copy h =>
    obtain ⟨text, ht, hlong⟩ := hvalid
    have htext : textCall texts (.copy h) = texts ++ [some text] := by
      show texts ++ [texts.getD h none] = _
      rw [List.getD_eq_getElem?_getD, ht, Option.getD_some]
    rw [htext]
    unfold runStrCall
    rw [Prog.wp_bind]
    refine withCell_wp hh ht fun c hc => ?_
    rw [Prog.wp_pure]
    exact addCell_wp hh (copyCell_wp hc hlong)
  | catChar h ch =>
    obtain ⟨text, ht, hlow, hhigh, hlong⟩ := hvalid
    refine appendCell_wp (f := fun p => p.catStrChar junk ch) [uchar ch] hh ht fun p hp => ?_
    rw [← hp.lenStr_eq] at hlong
    apply catStrChar_wp hp.sized.fits hlong
    intro p' m' hg hroom
    refine withText_appended hp ?_ hg hroom
    rw [List.mem_singleton]
    exact (uchar_ne_zero hlow hhigh).symm
  | catStr h str =>
    obtain ⟨text, ht, hstr, hlong⟩ := hvalid
    refine appendCell_wp (f := fun p => p.catStrStr junk str) str hh ht fun p hp => ?_
    have hlen : p.len = text.length := hp.lenStr_eq
    rw [← hlen] at hlong
    apply catStrStr_wp hp.sized.fits hlong
    · exact fun p' m' hg hroom => withText_appended hp hstr hg hroom
    · exact fun e m' he => ⟨he.2, text, ht, by rw [← hlen]; exact he.1⟩
  | catFmt h str =>
    obtain ⟨text, ht, hstr, hlong, hint⟩ := hvalid
    refine appendCell_wp (f := fun p => p.catStrFmt junk useGc str) str hh ht fun p hp => ?_
    have hlen : p.len = text.length := hp.lenStr_eq
    rw [← hlen] at hlong
    apply catStrFmt_wp hp.sized.fits hlong hint
    · exact fun p' m' hg hroom => withText_appended hp hstr hg hroom
    · exact fun e m' he => ⟨he.2, text, ht, by rw [← hlen]; exact he.1⟩
  | clear h =>
    obtain ⟨text, ht⟩ := hvalid
    refine changeCell_wp hh ht fun p hp => ?_
    apply clearStr_wp hp.sized
    intro q hs hcont
    exact ⟨hs, hcont, List.not_mem_nil⟩
  | upcase h =>
    obtain ⟨text, ht⟩ := hvalid
    exact mapCell_wp hh ht (by decide) (by decide) (by decide)
  | downcase h =>
    obtain ⟨text, ht⟩ := hvalid
    exact mapCell_wp hh ht (by decide) (by decide) (by decide)
  | comp h str =>
    obtain ⟨⟨text, ht⟩, hstr⟩ := hvalid
    refine withCell_wp hh ht fun c hc => ?_
    rw [Prog.wp_bind]
    apply (strncmpFrom_wp hc (Nat.zero_le _) hstr).imp
    intro n m' hn
    rw [hn.1, Prog.wp_pure]
    exact ⟨⟨text, n, ht, rfl, hn.2⟩, hh⟩
  | destroy h =>
    obtain ⟨text, ht⟩ := hvalid
    refine withCell_wp hh ht fun c hc => ?_
    unfold StrCell.destroyStr
    rw [Prog.wp_bind, Prog.wp_bind]
    refine memFree_wp (fun m₁ _ => ?_) fun hnull => by cases hnull
    refine memFree_wp (fun m₂ _ => ?_) fun hnull => by cases hnull
    rw [Prog.wp_bind, wp_setObject, Prog.wp_pure]
    exact ⟨rfl, hh.set ht .none⟩

end

/-- What a run of calls makes of the memory `m`. -/
structure Lived (useGc : Bool) (m m' : Memory Cells) (texts : List (Option Bytes)) : Prop where
  hold : CellsHold m'.obj texts
  balance : useGc = false → Balances m m' (Cells.owned m.obj) (Cells.owned m'.obj)

theorem Lived.trans {useGc : Bool} {m m₁ m' : Memory Cells} {texts texts' : List (Option Bytes)}
    (h : Lived useGc m m₁ texts) (h' : Lived useGc m₁ m' texts') : Lived useGc m m' texts' :=
  ⟨h'.hold, fun hgc => (h.balance hgc).trans (h'.balance hgc)⟩

section

variable {junk : Nat → Nat → UInt8} {useGc : Bool} {m : Memory Cells} {texts : List (Option Bytes)}

/-- One call, with its texts and its blocks. -/
theorem runStrCall_lived {call : StrCall} (hh : CellsHold m.obj texts)
    (hvalid : ValidStrCall texts call) :
    (runStrCall junk useGc call).wp
      (fun a m' => CallAnswers texts call a ∧ Lived useGc m m' (textCall texts call))
      (fun e m' => StrObj.Denied e m' ∧ CallFills texts call) False m := by
  have htexts : (runStrCall junk useGc call).wp
      (fun a m' => CallAnswers texts call a ∧ CellsHold m'.obj (textCall texts call))
      (fun e m' => StrObj.Denied e m' ∧ CallFills texts call) False m := runStrCall_wp hh hvalid
  cases useGc with
  | true =>
    apply htexts.imp
    intro a m' h
    refine ⟨h.1, h.2, fun hgc => ?_⟩
    cases hgc
  | false =>
    apply (htexts.and (runStrCall_accounts call m)).mono
    · intro a m' h
      exact ⟨h.1.1, h.1.2, fun _ => h.2⟩
    · exact fun _ _ he => he.1
    · exact fun hd => hd.1

theorem runStrCalls_lived {calls : List StrCall} (hh : CellsHold m.obj texts)
    (hvalid : ValidStrCalls texts calls) :
    (runStrCalls junk useGc calls).wp
      (fun as m' => CallsAnswer texts calls as ∧ Lived useGc m m' (textCalls texts calls))
      (fun e m' => StrObj.Denied e m' ∧ CallsFill texts calls) False m := by
  induction calls generalizing m texts with
  | nil => exact Prog.wp_pure.mpr ⟨rfl, hh, fun _ => Balances.refl m _⟩
  | cons call calls ih =>
    unfold runStrCalls
    rw [Prog.wp_bind]
    apply (runStrCall_lived hh hvalid.1).mono
    · intro a m₁ h₁
      obtain ⟨hanswer, hlived⟩ := h₁
      rw [Prog.wp_bind]
      apply (ih hlived.hold hvalid.2).mono
      · intro as m' h'
        obtain ⟨hanswers, hlived'⟩ := h'
        rw [Prog.wp_pure]
        exact ⟨⟨a, as, rfl, hanswer, hanswers⟩, hlived.trans hlived'⟩
      · intro e m' he
        obtain ⟨hdenied, front, call', back, hcalls, hfills⟩ := he
        exact ⟨hdenied, call :: front, call', back, congrArg (call :: ·) hcalls, hfills⟩
      · exact id
    · exact fun e m' he => ⟨he.1, [], call, calls, rfl, he.2⟩
    · exact id

end

/-- Strings over their whole life: in every run of valid calls, each answers with the length of the new
text or with the comparison, the objects that are left represent their texts, and without the collector
every block handed out belongs to one of these objects or has been freed, once. The program is left only
at an append that gives a text of `2 ^ 62 - 1` bytes. -/
theorem strCalls_account (junk : Nat → Nat → UInt8) (useGc : Bool) (calls : List StrCall)
    (hvalid : ValidStrCalls [] calls) :
    (runStrCalls junk useGc calls).wp
      (fun as m' => CallsAnswer [] calls as ∧
        List.Forall₂ (Option.Rel fun c text => c.obj.Represents text) m'.obj (textCalls [] calls) ∧
        (useGc = false → (Cells.owned m'.obj ++ m'.freed).Perm (List.range m'.blocks)))
      (fun e m' => StrObj.Denied e m' ∧ CallsFill [] calls) False { Memory.boot with obj := [] } := by
  have hnone : CellsHold [] [] := List.Forall₂.nil
  apply (runStrCalls_lived (m := { Memory.boot with obj := [] }) hnone hvalid).imp
  intro as m' h
  obtain ⟨hanswers, hlived⟩ := h
  refine ⟨hanswers, hlived.hold.imp ?_, fun hgc => (hlived.balance hgc).accounts rfl rfl⟩
  intro x text hx
  cases hx with
  | some hc => exact .some hc.represents
  | none => exact .none

/-- A formatted string is copied, grows, is compared and destroyed; its copy is left. -/
def lifeCalls : List StrCall :=
  [.createFmt [97, 98], .copy 0, .catFmt 0 (List.replicate 6 99), .comp 0 [97, 99], .destroy 0,
    .create none]

theorem lifeCalls_account :
    ∃ m', (runStrCalls (fun _ _ => 255) false lifeCalls).Runs { Memory.boot with obj := [] }
        (.ok [none, none, some 8, some (-1), none, none] m') ∧
      CallsAnswer [] lifeCalls [none, none, some 8, some (-1), none, none] ∧
      (Cells.owned m'.obj ++ m'.freed).Perm (List.range m'.blocks) ∧ m'.freed.length = 5 := by
  have hvalid : ValidStrCalls [] lifeCalls :=
    ⟨⟨by decide, by decide⟩, ⟨_, rfl, by decide⟩, ⟨_, rfl, by decide, by decide, by decide⟩,
      ⟨⟨_, rfl⟩, by decide⟩, ⟨_, rfl⟩, ⟨by decide, by decide⟩, trivial⟩
  have htwo : StrObj.vsnprintf [97, 98] = (2, [97, 98]) := rfl
  have hsix : StrObj.vsnprintf (List.replicate 6 99) = (6, List.replicate 6 99) := rfl
  have hrun : ∃ m', (runStrCalls (fun _ _ => 255) false lifeCalls).Runs
      { Memory.boot with obj := [] } (.ok [none, none, some 8, some (-1), none, none] m') ∧
      m'.freed.length = 5 := by
    refine ⟨?left, ⟨9, ?run⟩, ?freed⟩
    case run =>
      simp only [lifeCalls, runStrCalls, runStrCall, StrCell.createStrFmt, StrObj.catStrFmt, htwo,
        hsix]
      rfl
    case freed => rfl
  obtain ⟨m', hrun, hfreed⟩ := hrun
  have h := (strCalls_account (fun _ _ => 255) false lifeCalls hvalid).1 _ _ hrun
  exact ⟨m', hrun, h.1, h.2.2 rfl, hfreed⟩

end Rdpgen
