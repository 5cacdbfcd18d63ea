import Rdpgen.HeapSteps
import Rdpgen.Symbols

namespace Rdpgen.OnHeap

variable {ι β ν χ φ : Type} {malloc : Malloc ι} {st : State ι} {G : Known}

/-! ### Reading what a pointer into a list shows -/

section

variable {R : Bytes → ν → Prop} {nodes : List (Addr × ν)} {lst p : Addr} {x : ν} {N : PtrLst}
  {a : Access N}

theorem readField_wp {bytes : Bytes} {Q : Bytes → State ι → Prop} {E : Halt → State ι → Prop}
    (hn : (lstAt st lst).Holds R nodes) (hx : (p, x) ∈ nodes)
    (hread : ∀ data, R data x → a.read data = some bytes) :
    (readField a lst (elemToVoid p)).wp Q E False st ↔ Q bytes st := by
  obtain ⟨c, hc, hdata⟩ := hn.load hx
  refine fromOption_wp ?_
  rw [dataAt, voidToElem_elemToVoid, hc, Option.map_some, Option.bind_some, hread _ hdata]

theorem readWord_wp {w : Addr} {Q : Addr → State ι → Prop} {E : Halt → State ι → Prop}
    (hn : (lstAt st lst).Holds R nodes) (hx : (p, x) ∈ nodes)
    (hread : ∀ data, R data x → a.read data = some (wordBytes w)) :
    (readWord a lst (elemToVoid p)).wp Q E False st ↔ Q w st := by
  unfold readWord
  rw [Prog.wp_bind, readField_wp hn hx hread, Prog.wp_pure, wordOf_wordBytes]

section

variable {Q : Addr → State ι → Prop} {E : Halt → State ι → Prop}

theorem readPatElemStr_wp {nodes : List (Addr × Addr)} {str : Addr}
    (hn : (lstAt st lst).Holds IsElem nodes) (hp : (p, str) ∈ nodes) :
    (readWord .patElemStr lst (elemToVoid p)).wp Q E False st ↔ Q str st := by
  refine readWord_wp hn hp ?_
  intro _ hpost
  obtain ⟨f, rfl⟩ := hpost
  exact read_patElemStr str f

variable {nodes : List (Addr × Addr × Addr)} {w₁ w₂ : Addr}

theorem readPatternElems_wp (hn : (lstAt st lst).Holds IsPattern nodes) (hp : (p, w₁, w₂) ∈ nodes) :
    (readWord .patternElems lst (elemToVoid p)).wp Q E False st ↔ Q w₁ st := by
  refine readWord_wp hn hp ?_
  rintro _ rfl
  exact read_patternElems w₁ w₂

theorem readRuleName_wp (hn : (lstAt st lst).Holds IsRule nodes) (hp : (p, w₁, w₂) ∈ nodes) :
    (readWord .ruleName lst (elemToVoid p)).wp Q E False st ↔ Q w₁ st := by
  refine readWord_wp hn hp ?_
  rintro _ rfl
  exact read_ruleName w₁ w₂ false false

theorem readRulePatterns_wp (hn : (lstAt st lst).Holds IsRule nodes) (hp : (p, w₁, w₂) ∈ nodes) :
    (readWord .rulePatterns lst (elemToVoid p)).wp Q E False st ↔ Q w₂ st := by
  refine readWord_wp hn hp ?_
  rintro _ rfl
  exact read_rulePatterns w₁ w₂ false false

end

theorem readRuleFlag_wp {nodes : List (Addr × Addr × Addr)} {w₁ w₂ : Addr} {Q : Bytes → State ι → Prop}
    {E : Halt → State ι → Prop} (hn : (lstAt st lst).Holds IsRule nodes) (hp : (p, w₁, w₂) ∈ nodes) :
    (readField .ruleIsRecursive lst (elemToVoid p)).wp Q E False st ↔ Q [0] st := by
  refine readField_wp hn hp ?_
  rintro _ rfl
  exact read_ruleIsRecursive w₁ w₂ false false

theorem itemText_eq {nodes : List (Addr × Addr)} {b : Addr} (hs : Sound st G)
    (hn : (lstAt st lst).Holds IsBuffer nodes) (hp : (p, b) ∈ nodes) :
    itemText st lst (elemToVoid p) = G.texts b := by
  obtain ⟨c, hc, hdata⟩ := hn.load hp
  have hread : Access.rawStr.read c.data = some (wordBytes b) := by rw [hdata]; exact read_rawStr b
  rw [itemText, dataAt, voidToElem_elemToVoid, hc, Option.map_some, Option.bind_some, hread,
    Option.bind_some, wordOf_wordBytes, hs.texts]

/-- Nothing is at the null pointer. -/
theorem dataAt_wild (hn : (lstAt st lst).Holds R nodes) : dataAt st lst (elemToVoid NULL) = none := by
  obtain ⟨s, -, -, hnull, -⟩ := hn
  rw [dataAt, voidToElem_elemToVoid, Lst.load, hnull, Option.map_none]

theorem readWord_wild (hn : (lstAt st lst).Holds R nodes) :
    (readWord a lst (elemToVoid NULL)).Runs st (.stop .fault st) := by
  refine Prog.runs_bind.mpr (.inr ⟨_, _, fromOption_fault ?_, rfl⟩)
  rw [dataAt_wild hn, Option.bind_none]

end

/-! ### `FOR_LST` -/

section

variable {R : Bytes → ν → Prop} {P : ν → χ → Prop} {lst : Addr} {nodes n₁ n₂ : List (Addr × ν)}
  {n : Addr × ν} {xs x₂ : List χ} {x : χ} {f : χ → φ} {J : State ι → β → Prop}
  {body : Addr → HeapProg ι Unit} {body' : β → Ptr χ → Prog Halt (World ι) (β × χ)} {b : β}

/-- A pass over the node with the value `x`: it keeps `J`, the list and its cursor, and changes
nothing about `x` that `f` sees. -/
def PassRealizes (malloc : Malloc ι) (R : Bytes → ν → Prop) (lst : Addr) (nodes : List (Addr × ν))
    (f : χ → φ) (J : State ι → β → Prop) (body : Addr → HeapProg ι Unit)
    (body' : β → Ptr χ → Prog Halt (World ι) (β × χ)) (n : Addr × ν) (x : χ) : Prop :=
  ∀ st b, J st b → (lstAt st lst).Holds R nodes →
    Realizes malloc st (body (elemToVoid n.1)) (body' b (.elem x)) fun _ st' r =>
      J st' r.1 ∧ f r.2 = f x ∧ (lstAt st' lst).Holds R nodes ∧
        (lstAt st' lst).crnt = (lstAt st lst).crnt

theorem forPass_realizes
    (crnt : ∀ st b c, J st b → J (st.setLst lst.toNat { lstAt st lst with crnt := c }) b)
    (hpass : PassRealizes malloc R lst (n₁ ++ n :: n₂) f J body body' n x)
    (hn : (lstAt st lst).Holds R (n₁ ++ n :: n₂)) (hc : (lstAt st lst).crnt = n.1) (hJ : J st b)
    (acc : List Addr) :
    Realizes malloc st (Lists.forPass lst.toNat body (elemToVoid n.1, acc)) (body' b (.elem x))
      fun q st' r => q.1 = (n₂.head?).elim NULL (fun m => elemToVoid m.1) ∧ J st' r.1 ∧ f r.2 = f x ∧
        (lstAt st' lst).Holds R (n₁ ++ n :: n₂) ∧
        (lstAt st' lst).crnt = (n₂.map Prod.fst).headD NULL := by
  unfold Lists.forPass
  refine (hpass st b hJ hn).behind ?_
  intro _ st' r hpost
  obtain ⟨hJ', hf, hn', hc'⟩ := hpost
  have hit := Lst.Holds.iterate (x := n.2) hn' (hc'.trans hc)
  unfold Lists.iterate
  rw [Prog.wp_bind, Lists.wp_onLst hit, Prog.wp_pure]
  refine ⟨rfl, rfl, crnt st' r.1 _ hJ', hf, ?_, ?_⟩
  · rw [lstAt_setLst, if_pos rfl]
    exact hn'.crnt _
  · rw [lstAt_setLst, if_pos rfl]

/-- The loop of `FOR_LST` from the pointer `p` on. -/
def forLoop (lst : Addr) (body : Addr → HeapProg ι Unit) (p : Addr) (acc : List Addr) :
    HeapProg ι (Addr × List Addr) :=
  Prog.whileDo (fun q _ => q.1 ≠ NULL) (Lists.forPass lst.toNat body) (p, acc)

theorem forLoop_step {Q : Addr × List Addr → State ι → β × List χ → Prop}
    (crnt : ∀ st b c, J st b → J (st.setLst lst.toNat { lstAt st lst with crnt := c }) b)
    (hpass : PassRealizes malloc R lst (n₁ ++ n :: n₂) f J body body' n x)
    (hn : (lstAt st lst).Holds R (n₁ ++ n :: n₂)) (hc : (lstAt st lst).crnt = n.1) (hJ : J st b)
    (acc : List Addr)
    (rest : ∀ acc st' b' x', J st' b' → f x' = f x → (lstAt st' lst).Holds R (n₁ ++ n :: n₂) →
      (lstAt st' lst).crnt = (n₂.map Prod.fst).headD NULL →
      Realizes malloc st' (forLoop lst body ((n₂.head?).elim NULL fun m => elemToVoid m.1) acc)
        (do let r ← forPtrs body' (x₂.map .elem) b'; pure (r.1, x' :: r.2)) Q) :
    Realizes malloc st (forLoop lst body (elemToVoid n.1) acc)
      (forPtrs body' ((x :: x₂).map .elem) b) Q := by
  have hmem : (n.1, n.2) ∈ n₁ ++ n :: n₂ := by simp
  refine Prog.refines_whileDo.mpr ?_
  rw [if_pos (decide_eq_true (hn.handle_ne hmem))]
  refine Realizes.bind (forPass_realizes crnt hpass hn hc hJ acc) ?_
  intro n st' n' hpost
  obtain ⟨p, acc'⟩ := n
  obtain ⟨b', x'⟩ := n'
  obtain ⟨rfl, hJ', hf, hn', hc'⟩ := hpost
  exact rest acc' st' b' x' hJ' hf hn' hc'

/-- From the element `n` on the loop does what the passes over the values from `x` on do. -/
theorem forLoop_realizes
    (crnt : ∀ st b c, J st b → J (st.setLst lst.toNat { lstAt st lst with crnt := c }) b)
    (hx : List.Forall₂ (PassRealizes malloc R lst (n₁ ++ n :: n₂) f J body body') (n :: n₂) (x :: x₂))
    (hn : (lstAt st lst).Holds R (n₁ ++ n :: n₂)) (hc : (lstAt st lst).crnt = n.1) (hJ : J st b)
    (acc : List Addr) :
    Realizes malloc st (forLoop lst body (elemToVoid n.1) acc)
      (forPtrs body' ((x :: x₂).map .elem) b)
      fun _ st' r => J st' r.1 ∧ r.2.map f = (x :: x₂).map f := by
  induction n₂ generalizing n₁ n x x₂ st b acc with
  | nil =>
    obtain ⟨hpass, hrest⟩ := List.forall₂_cons.mp hx
    refine forLoop_step crnt hpass hn hc hJ acc ?_
    intro acc' st' b' x' hJ' hf _ _
    cases hrest
    refine Prog.refines_whileDo.mpr ?_
    exact realizes_pure (a := (NULL, acc')) (b := (b', [x'])) ⟨hJ', congrArg ([·]) hf⟩
  | cons m n₂ ih =>
    obtain ⟨hpass, hrest⟩ := List.forall₂_cons.mp hx
    refine forLoop_step crnt hpass hn hc hJ acc ?_
    intro acc' st' b' x' hJ' hf hn' hc'
    cases hrest with
    | @cons _ y _ x₂ hpass' hrest =>
      rw [List.append_cons] at hn' hpass' hrest
      refine (ih (.cons hpass' hrest) hn' hc' hJ' acc').answer ?_
      intro _ st'' r hpost
      obtain ⟨hJ'', hxs⟩ := hpost
      exact ⟨hJ'', congrArg₂ List.cons hf hxs⟩

theorem forLst_realizes
    (crnt : ∀ st b c, J st b → J (st.setLst lst.toNat { lstAt st lst with crnt := c }) b)
    (pass : List.Forall₂ (PassRealizes malloc R lst nodes f J body body') nodes xs)
    (wild : ∀ st b, (lstAt st lst).Holds R [] → J st b →
      Realizes malloc st (body (elemToVoid NULL)) (body' b .wild) fun _ _ _ => False)
    (hn : (lstAt st lst).Holds R nodes) (hJ : J st b) :
    Realizes malloc st (forLst lst body) (Rdpgen.forLst xs b body') fun _ st' r =>
      J st' r.1 ∧ r.2.map f = xs.map f := by
  have hloop {st : State ι} {p : Addr} (hn : (lstAt st lst).Holds R nodes) (hJ : J st b)
      (hp : p = (nodes.map Prod.fst).headD NULL) (hc : (lstAt st lst).crnt = p) :
      Realizes malloc st (forLoop lst body (elemToVoid p) []) (Rdpgen.forLst xs b body') fun _ st' r =>
        J st' r.1 ∧ r.2.map f = xs.map f := by
    cases pass with
    | nil =>
      obtain rfl : p = NULL := hp
      refine Prog.refines_whileDo.mpr ?_
      rw [if_pos (decide_eq_true (by decide))]
      have hout := (wild st b hn hJ).behind (f := fun _ => do
        let p ← Lists.iterate lst.toNat
        pure (p, ([] : List Addr) ++ [elemToVoid NULL])) (R := fun _ _ _ => False)
        fun _ _ _ hfalse => hfalse.elim
      exact Realizes.bind hout fun _ _ _ hfalse => hfalse.elim
    | cons h hs =>
      subst hp
      have hn' : (lstAt st lst).Holds R ([] ++ _ :: _) := hn
      exact forLoop_realizes crnt (.cons h hs) hn' hc hJ []
  have hreset : Realizes malloc st (Lists.forLst lst.toNat body) (Rdpgen.forLst xs b body')
      fun _ st' r => J st' r.1 ∧ r.2.map f = xs.map f := by
    unfold Lists.forLst Lists.reset
    refine .before ((Lists.wp_onLst rfl).mpr ⟨rfl, (hloop ?_ (crnt st b _ hJ) hn.first ?_).behind ?_⟩)
    · rw [lstAt_setLst, if_pos rfl]
      exact hn.crnt _
    · rw [lstAt_setLst, if_pos rfl]
      rfl
    · exact fun _ _ _ hpost => Prog.wp_pure.mpr ⟨rfl, hpost⟩
  exact hreset.behind fun _ _ _ hpost => Prog.wp_pure.mpr ⟨rfl, hpost⟩

end

theorem realizes_deref {α δ : Type} {p : HeapProg ι α} {g : χ → Prog Halt (World ι) δ} {x : χ}
    {Q : α → State ι → δ → Prop} (h : Realizes malloc st p (g x) Q) :
    Realizes malloc st p ((Ptr.elem x).deref >>= g) Q := h

theorem realizes_wild {α γ δ : Type} {p : HeapProg ι α} {f : α → HeapProg ι γ}
    {g : χ → Prog Halt (World ι) δ} {Q : γ → State ι → δ → Prop} (hp : p.Runs st (.stop .fault st)) :
    Realizes malloc st (p >>= f) ((Ptr.wild : Ptr χ).deref >>= g) Q :=
  realizes_fault (Prog.runs_bind.mpr (.inr ⟨_, _, hp, rfl⟩))
    (Prog.runs_bind.mpr (.inr ⟨_, _, Prog.runs_stop.mpr rfl, rfl⟩))

/-! ### Loops within loops -/

/-- The depth at which a list stands: elements in patterns, patterns in rules, and the lists of the
parser state. -/
def Known.rank (G : Known) (lst : Addr) : Nat :=
  match G.lists lst with
  | some (.elems _) => 0
  | some (.patterns _) => 1
  | none => 2

/-- The lists from a rank on are as they were, but for the terminals. -/
def Keeps (G : Known) (o : Pstate) (rank : Nat) (st st' : State ι) : Prop :=
  ∀ a, rank ≤ G.rank a → a ≠ o.terminals → lstAt st' a = lstAt st a

section

variable {o : Pstate} {rank : Nat} {st₁ st₂ : State ι}

theorem Keeps.trans (h : Keeps G o rank st st₁) (h' : Keeps G o rank st₁ st₂) :
    Keeps G o rank st st₂ :=
  fun a hr ha => (h' a hr ha).trans (h a hr ha)

theorem Keeps.rules {s : Rdpgen.Pstate} (h : Keeps G o 2 st st₁) (ho : HasState st G o s) :
    lstAt st₁ o.rules = lstAt st o.rules := by
  refine h o.rules ?_ ho.ne.2.1.1
  rw [Known.rank, (ho.roots o.rules (by simp [Pstate.roots])).2]

theorem Keeps.mono {n : Nat} (h : Keeps G o rank st st₁) (hn : rank ≤ n) : Keeps G o n st st₁ :=
  fun a hr ha => h a (hn.trans hr) ha

variable {R : Bytes → ν → Prop} {lst : Addr} {nodes : List (Addr × ν)} {xs : List χ} {f : χ → φ}
  {I : State ι → β → Prop} {body : Addr → HeapProg ι Unit}
  {body' : β → Ptr χ → Prog Halt (World ι) (β × χ)} {b : β}

/-- A loop over a list of some rank, whose body leaves the lists above alone. -/
theorem forRank_realizes (hrank : G.rank lst = rank)
    (hI : ∀ st b, I st b → (lstAt st lst).Holds R nodes)
    (crnt : ∀ st b c, I st b → I (st.setLst lst.toNat { lstAt st lst with crnt := c }) b)
    (pass : List.Forall₂ (fun n x => ∀ st b, I st b →
      Realizes malloc st (body (elemToVoid n.1)) (body' b (.elem x)) fun _ st' r =>
        I st' r.1 ∧ f r.2 = f x ∧ Keeps G o (rank + 1) st st' ∧
          (lstAt st' lst).crnt = (lstAt st lst).crnt) nodes xs)
    (wild : ∀ st b, (lstAt st lst).Holds R [] → I st b →
      Realizes malloc st (body (elemToVoid NULL)) (body' b .wild) fun _ _ _ => False)
    (h : I st b) :
    Realizes malloc st (forLst lst body) (Rdpgen.forLst xs b body') fun _ st' r =>
      I st' r.1 ∧ r.2.map f = xs.map f ∧ Keeps G o (rank + 1) st st' := by
  refine (forLst_realizes (f := f) (J := fun st' b => I st' b ∧ Keeps G o (rank + 1) st st') ?_
    (pass.imp ?_) ?_ (hI st b h) ⟨h, fun _ _ _ => rfl⟩).mono ?_
  · intro st' b c hpost
    obtain ⟨h', hk⟩ := hpost
    refine ⟨crnt st' b c h', fun a hr ha => ?_⟩
    have hne : a ≠ lst := by
      rintro rfl
      omega
    rw [lstAt_setLst, if_neg hne]
    exact hk a hr ha
  · intro n x hpass st' b hpost hn
    obtain ⟨h', hk⟩ := hpost
    refine (hpass st' b h').mono ?_
    intro _ st'' r hpost
    obtain ⟨h'', hf, hk', hc⟩ := hpost
    exact ⟨⟨h'', hk.trans hk'⟩, hf, hI st'' r.1 h'', hc⟩
  · exact fun st' b hn h' => wild st' b hn h'.1
  · exact fun _ st' r hpost => ⟨hpost.1.1, hpost.2, hpost.1.2⟩

end

end Rdpgen.OnHeap
