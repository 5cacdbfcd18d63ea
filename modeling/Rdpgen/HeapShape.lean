import Rdpgen.OnHeap
import Rdpgen.ListNodes

namespace Rdpgen.OnHeap

/-- The words in the elements of a list that an object points to. -/
inductive Held where
  | elems (nodes : List (Addr × Addr))
  | patterns (nodes : List (Addr × Addr × Addr))

/-- What is known of the memory: its strings, and the lists that no one appends to any more. -/
structure Known where
  strs : Addr → Option Addr
  texts : Addr → Option Bytes
  lists : Addr → Option Held

section

variable {κ ν : Type} [DecidableEq κ] {f : κ → Option ν} {k a : κ} {v w : ν}

theorem update_extends (hk : f k = none) (ha : f a = some w) :
    Function.update f k (some v) a = some w := by
  rw [Function.update_of_ne, ha]
  rintro rfl
  rw [hk] at ha
  cases ha

theorem of_update_some (h : Function.update f k (some v) a = some w) :
    (a = k ∧ w = v) ∨ f a = some w := by
  by_cases hak : a = k
  · rw [hak, Function.update_self] at h
    exact .inl ⟨hak, (Option.some.inj h).symm⟩
  · rw [Function.update_of_ne hak] at h
    exact .inr h

end

/-! ### The bytes of the elements -/

def IsBuffer (data : Bytes) (buffer : Addr) : Prop := data = wordBytes buffer

/-- The flag `is_terminal` is whatever it is. -/
def IsElem (data : Bytes) (str : Addr) : Prop := ∃ isTerminal, data = patElemBytes str isTerminal

def IsPattern (data : Bytes) (p : Addr × Addr) : Prop := data = patternBytes p.1 p.2

def IsRule (data : Bytes) (r : Addr × Addr) : Prop := data = ruleBytes r.1 false false r.2

def Held.In (l : Lst) : Held → Prop
  | elems nodes => l.Holds IsElem nodes
  | patterns nodes => l.Holds IsPattern nodes

theorem Held.In.crnt {l : Lst} {h : Held} (hin : h.In l) (c : Addr) : h.In { l with crnt := c } := by
  cases h with
  | elems nodes => exact Lst.Holds.crnt hin c
  | patterns nodes => exact Lst.Holds.crnt hin c

/-! ### What the words point to -/

namespace Known

/-- The string object at `p` has the contents `x` up to its first zero. -/
def StrAt (G : Known) (p : Addr) (x : STR) : Prop :=
  ∃ b, G.strs p = some b ∧ G.texts b = some (Rdpgen.rawStr x)

def CodeAt (G : Known) (p : Addr) : Option STR → Prop
  | none => p = NULL
  | some x => G.StrAt p x

def ElemsAt (G : Known) (lst : Addr) (elems : List PatElem) : Prop :=
  ∃ nodes, G.lists lst = some (.elems nodes) ∧ List.Forall₂ (fun n pe => G.StrAt n.2 pe.str) nodes elems

def PatternAt (G : Known) (p : Addr × Addr) (x : Rdpgen.Pattern) : Prop :=
  G.ElemsAt p.1 x.elems ∧ G.CodeAt p.2 x.code

def PatternsAt (G : Known) (lst : Addr) (patterns : List Rdpgen.Pattern) : Prop :=
  ∃ nodes, G.lists lst = some (.patterns nodes) ∧
    List.Forall₂ (fun n p => G.PatternAt n.2 p) nodes patterns

def RuleAt (G : Known) (r : Addr × Addr) (x : Rule) : Prop :=
  G.StrAt r.1 x.name ∧ x.isRecursive = false ∧ G.PatternsAt r.2 x.patterns

structure Extends (G G' : Known) : Prop where
  strs : ∀ p b, G.strs p = some b → G'.strs p = some b
  texts : ∀ b t, G.texts b = some t → G'.texts b = some t
  lists : ∀ a h, G.lists a = some h → G'.lists a = some h

section

variable {G G' G'' : Known}

theorem Extends.refl : G.Extends G := ⟨fun _ _ h => h, fun _ _ h => h, fun _ _ h => h⟩

theorem Extends.trans (h : G.Extends G') (h' : G'.Extends G'') : G.Extends G'' where
  strs p b hb := h'.strs p b (h.strs p b hb)
  texts b t ht := h'.texts b t (h.texts b t ht)
  lists a x hx := h'.lists a x (h.lists a x hx)

theorem StrAt.extends {p : Addr} {x : STR} (h : G.StrAt p x) (hG : G.Extends G') : G'.StrAt p x := by
  obtain ⟨b, hp, hb⟩ := h
  exact ⟨b, hG.strs p b hp, hG.texts b _ hb⟩

theorem CodeAt.extends {p : Addr} {code : Option STR} (h : G.CodeAt p code) (hG : G.Extends G') :
    G'.CodeAt p code := by
  cases code with
  | none => exact h
  | some x => exact StrAt.extends h hG

theorem ElemsAt.extends {a : Addr} {elems : List PatElem} (h : G.ElemsAt a elems)
    (hG : G.Extends G') : G'.ElemsAt a elems := by
  obtain ⟨nodes, ha, hn⟩ := h
  exact ⟨nodes, hG.lists a _ ha, hn.imp fun _ _ hx => hx.extends hG⟩

theorem PatternAt.extends {p : Addr × Addr} {x : Rdpgen.Pattern} (h : G.PatternAt p x)
    (hG : G.Extends G') : G'.PatternAt p x :=
  ⟨h.1.extends hG, h.2.extends hG⟩

theorem PatternsAt.extends {a : Addr} {patterns : List Rdpgen.Pattern} (h : G.PatternsAt a patterns)
    (hG : G.Extends G') : G'.PatternsAt a patterns := by
  obtain ⟨nodes, ha, hn⟩ := h
  exact ⟨nodes, hG.lists a _ ha, hn.imp fun _ _ hp => hp.extends hG⟩

theorem RuleAt.extends {r : Addr × Addr} {x : Rule} (h : G.RuleAt r x) (hG : G.Extends G') :
    G'.RuleAt r x :=
  ⟨h.1.extends hG, h.2.1, h.2.2.extends hG⟩

end

end Known

section

variable {ι α β γ δ : Type} {st st₀ st' : State ι} {G G₀ G' : Known}

theorem lstAt_setLst (k : Addr) (l : Lst) (a : Addr) :
    lstAt (st.setLst k.toNat l) a = if a = k then l else lstAt st a := by
  by_cases h : a = k
  · rw [if_pos h, h]
    exact Lists.setLst_same l
  · rw [if_neg h]
    exact Lists.setLst_other l fun hn => h (UInt64.toNat_inj.mp hn)

/-- The memory is as it is known, and no address is in use for two lists. -/
structure Sound (st : State ι) (G : Known) : Prop where
  strs : st.rest.strs = G.strs
  texts : st.rest.texts = G.texts
  strs_used : ∀ p b, G.strs p = some b → p ∈ st.rest.used
  texts_used : ∀ b t, G.texts b = some t → b ∈ st.rest.used
  lists_used : ∀ a h, G.lists a = some h → a ∈ st.rest.used
  lists : ∀ a h, G.lists a = some h → h.In (lstAt st a)

theorem sound_boot (input : ι) : Sound (boot input) ⟨fun _ => none, fun _ => none, fun _ => none⟩ where
  strs := rfl
  texts := rfl
  strs_used _ _ h := nomatch h
  texts_used _ _ h := nomatch h
  lists_used _ _ h := nomatch h
  lists _ _ h := nomatch h

theorem Sound.setWorld (h : Sound st G) (w : World ι) : Sound (setWorld w st) G :=
  ⟨h.strs, h.texts, h.strs_used, h.texts_used, h.lists_used, h.lists⟩

theorem Sound.setLst (h : Sound st G) {k : Addr} {l : Lst}
    (hl : ∀ x, G.lists k = some x → x.In l) : Sound (st.setLst k.toNat l) G where
  strs := h.strs
  texts := h.texts
  strs_used := h.strs_used
  texts_used := h.texts_used
  lists_used := h.lists_used
  lists a x hx := by
    rw [lstAt_setLst]
    split
    · next hak => exact hl x (hak ▸ hx)
    · exact h.lists a x hx

theorem Sound.crnt (h : Sound st G) (k c : Addr) :
    Sound (st.setLst k.toNat { lstAt st k with crnt := c }) G :=
  h.setLst fun x hx => (h.lists k x hx).crnt c

/-- What was there stays as it is: memory is allocated, and lists that are new are filled. -/
structure Grows (st : State ι) (G : Known) (st' : State ι) (G' : Known) : Prop where
  sound : Sound st' G'
  known : G.Extends G'
  used : ∀ a ∈ st.rest.used, a ∈ st'.rest.used
  same : ∀ a ∈ st.rest.used, lstAt st' a = lstAt st a
  opened : ∀ a ∈ st.rest.used, G'.lists a = G.lists a

theorem Sound.grows (h : Sound st G) : Grows st G st G :=
  ⟨h, .refl, fun _ ha => ha, fun _ _ => rfl, fun _ _ => rfl⟩

theorem Grows.trans {st₁ st₂ : State ι} {G₁ G₂ : Known} (h : Grows st G st₁ G₁)
    (h' : Grows st₁ G₁ st₂ G₂) : Grows st G st₂ G₂ where
  sound := h'.sound
  known := h.known.trans h'.known
  used a ha := h'.used a (h.used a ha)
  same a ha := (h'.same a (h.used a ha)).trans (h.same a ha)
  opened a ha := (h'.opened a (h.used a ha)).trans (h.opened a ha)

theorem Grows.setWorld (h : Grows st₀ G₀ st G) (w : World ι) : Grows st₀ G₀ (setWorld w st) G :=
  ⟨h.sound.setWorld w, h.known, h.used, h.same, h.opened⟩

/-- A new list is changed. -/
theorem Grows.setLst (h : Grows st₀ G₀ st G) {k : Addr} (hk : k ∉ st₀.rest.used)
    (hopen : G.lists k = none) (l : Lst) : Grows st₀ G₀ (st.setLst k.toNat l) G where
  sound := h.sound.setLst fun x hx => by rw [hopen] at hx; cases hx
  known := h.known
  used := h.used
  same a ha := by
    rw [lstAt_setLst, if_neg fun hak : a = k => hk (hak ▸ ha)]
    exact h.same a ha
  opened := h.opened

/-- A new list is finished. -/
theorem Grows.close (h : Grows st₀ G₀ st G) {k : Addr} (hk : k ∉ st₀.rest.used)
    (hused : k ∈ st.rest.used) (hopen : G.lists k = none) {x : Held} (hx : x.In (lstAt st k)) :
    Grows st₀ G₀ st { G with lists := Function.update G.lists k (some x) } := by
  have hlists : ∀ a y, Function.update G.lists k (some x) a = some y →
      a ∈ st.rest.used ∧ y.In (lstAt st a) := by
    intro a y hy
    rcases of_update_some hy with ⟨rfl, rfl⟩ | hy
    · exact ⟨hused, hx⟩
    · exact ⟨h.sound.lists_used a y hy, h.sound.lists a y hy⟩
  refine ⟨⟨h.sound.strs, h.sound.texts, h.sound.strs_used, h.sound.texts_used,
    fun a y hy => (hlists a y hy).1, fun a y hy => (hlists a y hy).2⟩,
    h.known.trans ⟨fun _ _ hb => hb, fun _ _ ht => ht, fun a y => update_extends hopen⟩, h.used,
    h.same, fun a ha => ?_⟩
  have hak : a ≠ k := fun hak => hk (hak ▸ ha)
  exact (Function.update_of_ne hak _ _).trans (h.opened a ha)

/-- An empty list that was made on the way. -/
structure NewList (st : State ι) (G : Known) (lst : Addr) (st' : State ι) (G' : Known) : Prop where
  grows : Grows st G st' G'
  new : lst ∉ st.rest.used
  used : lst ∈ st'.rest.used
  opened : G'.lists lst = none
  empty : lstAt st' lst = Lst.createLst

section

variable {lst : Addr} {st₁ st₂ : State ι} {G₁ G₂ : Known}

theorem NewList.behind (h : NewList st₁ G₁ lst st₂ G₂) (hg : Grows st G st₁ G₁) :
    NewList st G lst st₂ G₂ :=
  ⟨hg.trans h.grows, fun ha => h.new (hg.used lst ha), h.used, h.opened, h.empty⟩

theorem NewList.grow (h : NewList st G lst st₁ G₁) (hg : Grows st₁ G₁ st₂ G₂) :
    NewList st G lst st₂ G₂ :=
  ⟨h.grows.trans hg, h.new, hg.used lst h.used, (hg.opened lst h.used).trans h.opened,
    (hg.same lst h.used).trans h.empty⟩

end

/-! ### The state of the parser -/

/-- The list at `lst` has an element for each of the values `xs`. -/
def ListAt (R : Bytes → α → Prop) (P : Known → α → β → Prop) (st : State ι) (G : Known) (lst : Addr)
    (xs : List β) : Prop :=
  ∃ nodes, (lstAt st lst).Holds R nodes ∧ List.Forall₂ (fun n x => P G n.2 x) nodes xs

/-- A `str_lst` with these strings. -/
abbrev TextsAt (st : State ι) : Known → Addr → List STR → Prop :=
  ListAt IsBuffer (fun G b x => G.texts b = some (Rdpgen.rawStr x)) st

abbrev RulesAt (st : State ι) : Known → Addr → List Rule → Prop := ListAt IsRule Known.RuleAt st

/-- The lists of a state, which are appended to. -/
def Pstate.roots (state : Pstate) : List Addr :=
  [state.code, state.rules, state.terminals, state.nonTerminals]

structure HasState (st : State ι) (G : Known) (o : Pstate) (s : Rdpgen.Pstate) : Prop where
  verbo : o.verbo = s.verbo
  name : G.StrAt o.name s.name
  outputPrefix : G.StrAt o.outputPrefix s.outputPrefix
  code : TextsAt st G o.code s.code
  rules : RulesAt st G o.rules s.rules
  terminals : TextsAt st G o.terminals s.terminals
  nonTerminals : TextsAt st G o.nonTerminals s.nonTerminals
  roots : ∀ a ∈ o.roots, a ∈ st.rest.used ∧ G.lists a = none
  apart : o.roots.Nodup

theorem ListAt.mono {R : Bytes → α → Prop} {P : Known → α → β → Prop} {lst : Addr} {xs : List β}
    (h : ListAt R P st G lst xs) (hP : ∀ n x, P G n x → P G' n x)
    (hl : lstAt st' lst = lstAt st lst) : ListAt R P st' G' lst xs := by
  obtain ⟨nodes, hn, hx⟩ := h
  exact ⟨nodes, hl ▸ hn, hx.imp fun _ _ => hP _ _⟩

variable {o : Pstate} {s : Rdpgen.Pstate}

theorem HasState.grows (h : HasState st G o s) (hg : Grows st G st' G') : HasState st' G' o s := by
  have hsame : ∀ a ∈ o.roots, lstAt st' a = lstAt st a := fun a ha => hg.same a (h.roots a ha).1
  refine ⟨h.verbo, h.name.extends hg.known, h.outputPrefix.extends hg.known,
    h.code.mono (fun _ _ => hg.known.texts _ _) (hsame _ ?_),
    h.rules.mono (fun _ _ hr => hr.extends hg.known) (hsame _ ?_),
    h.terminals.mono (fun _ _ => hg.known.texts _ _) (hsame _ ?_),
    h.nonTerminals.mono (fun _ _ => hg.known.texts _ _) (hsame _ ?_),
    fun a ha => ?_, h.apart⟩
  · simp [Pstate.roots]
  · simp [Pstate.roots]
  · simp [Pstate.roots]
  · simp [Pstate.roots]
  · have ha' := h.roots a ha
    exact ⟨hg.used a ha'.1, (hg.opened a ha'.1).trans ha'.2⟩

theorem HasState.setWorld (h : HasState st G o s) (w : World ι) : HasState (setWorld w st) G o s :=
  ⟨h.verbo, h.name, h.outputPrefix, h.code, h.rules, h.terminals, h.nonTerminals, h.roots, h.apart⟩

/-- The state of the parser on the heap stands for `s`. -/
def Stands (st : State ι) (o : Pstate) (s : Rdpgen.Pstate) : Prop :=
  ∃ G, Sound st G ∧ HasState st G o s

theorem Stands.setWorld (h : Stands st o s) (w : World ι) : Stands (setWorld w st) o s := by
  obtain ⟨G, hs, ho⟩ := h
  exact ⟨G, hs.setWorld w, ho.setWorld w⟩

/-! Each list of a state changes on its own. -/

section

variable {R : Bytes → α → Prop} {P : Known → α → β → Prop} {k lst : Addr} {l : Lst} {xs : List β}

theorem ListAt.length (h : ListAt R P st G lst xs) : (lstAt st lst).getLstLen.toNat = xs.length := by
  obtain ⟨nodes, hn, hx⟩ := h
  exact hn.length.trans hx.length_eq

theorem ListAt.other (h : ListAt R P st G lst xs) (hne : lst ≠ k) :
    ListAt R P (st.setLst k.toNat l) G lst xs :=
  h.mono (fun _ _ hx => hx) (by rw [lstAt_setLst, if_neg hne])

theorem HasState.ne (h : HasState st G o s) :
    (o.code ≠ o.rules ∧ o.code ≠ o.terminals ∧ o.code ≠ o.nonTerminals) ∧
      (o.rules ≠ o.terminals ∧ o.rules ≠ o.nonTerminals) ∧ o.terminals ≠ o.nonTerminals := by
  simpa [Pstate.roots] using h.apart

theorem Sound.setRoot (h : Sound st G) (ho : HasState st G o s) (hk : k ∈ o.roots) (l : Lst) :
    Sound (st.setLst k.toNat l) G :=
  h.setLst fun x hx => by
    rw [(ho.roots k hk).2] at hx
    cases hx

theorem ListAt.crnt (h : ListAt R P st G lst xs) (c : Addr) :
    ListAt R P (st.setLst k.toNat { lstAt st k with crnt := c }) G lst xs := by
  by_cases hk : lst = k
  · obtain ⟨nodes, hn, hx⟩ := h
    refine ⟨nodes, ?_, hx⟩
    rw [lstAt_setLst, if_pos hk, ← hk]
    exact hn.crnt c
  · exact h.other hk

theorem HasState.crnt (h : HasState st G o s) (k c : Addr) :
    HasState (st.setLst k.toNat { lstAt st k with crnt := c }) G o s :=
  ⟨h.verbo, h.name, h.outputPrefix, h.code.crnt c, h.rules.crnt c, h.terminals.crnt c,
    h.nonTerminals.crnt c, h.roots, h.apart⟩

/-- A list that an object points to is none of the state. -/
theorem HasState.ne_root (h : HasState st G o s) {x : Held} (hk : G.lists k = some x)
    (ha : lst ∈ o.roots) : lst ≠ k := by
  rintro rfl
  rw [(h.roots lst ha).2] at hk
  cases hk

theorem HasState.ne_terminals (h : HasState st G o s) {x : Held} (hk : G.lists k = some x) :
    k ≠ o.terminals :=
  (h.ne_root hk (by simp [Pstate.roots])).symm

theorem HasState.setHeld (h : HasState st G o s) {x : Held} (hk : G.lists k = some x) (l : Lst) :
    HasState (st.setLst k.toNat l) G o s :=
  ⟨h.verbo, h.name, h.outputPrefix, h.code.other (h.ne_root hk (by simp [Pstate.roots])),
    h.rules.other (h.ne_root hk (by simp [Pstate.roots])),
    h.terminals.other (h.ne_root hk (by simp [Pstate.roots])),
    h.nonTerminals.other (h.ne_root hk (by simp [Pstate.roots])), h.roots, h.apart⟩

theorem HasState.setCode (h : HasState st G o s) {code : List STR}
    (hl : TextsAt (st.setLst o.code.toNat l) G o.code code) :
    HasState (st.setLst o.code.toNat l) G o { s with code } := by
  obtain ⟨⟨hr, ht, hn⟩, -, -⟩ := h.ne
  exact ⟨h.verbo, h.name, h.outputPrefix, hl, h.rules.other hr.symm, h.terminals.other ht.symm,
    h.nonTerminals.other hn.symm, h.roots, h.apart⟩

theorem HasState.setRules (h : HasState st G o s) {rules : List Rule}
    (hl : RulesAt (st.setLst o.rules.toNat l) G o.rules rules) :
    HasState (st.setLst o.rules.toNat l) G o { s with rules } := by
  obtain ⟨⟨hc, -, -⟩, ⟨ht, hn⟩, -⟩ := h.ne
  exact ⟨h.verbo, h.name, h.outputPrefix, h.code.other hc, hl, h.terminals.other ht.symm,
    h.nonTerminals.other hn.symm, h.roots, h.apart⟩

theorem HasState.setTerminals (h : HasState st G o s) {terminals : List STR}
    (hl : TextsAt (st.setLst o.terminals.toNat l) G o.terminals terminals) :
    HasState (st.setLst o.terminals.toNat l) G o { s with terminals } := by
  obtain ⟨⟨-, hc, -⟩, ⟨hr, -⟩, hn⟩ := h.ne
  exact ⟨h.verbo, h.name, h.outputPrefix, h.code.other hc, h.rules.other hr, hl,
    h.nonTerminals.other hn.symm, h.roots, h.apart⟩

theorem HasState.setNonTerminals (h : HasState st G o s) {nonTerminals : List STR}
    (hl : TextsAt (st.setLst o.nonTerminals.toNat l) G o.nonTerminals nonTerminals) :
    HasState (st.setLst o.nonTerminals.toNat l) G o { s with nonTerminals } := by
  obtain ⟨⟨-, -, hc⟩, ⟨-, hr⟩, ht⟩ := h.ne
  exact ⟨h.verbo, h.name, h.outputPrefix, h.code.other hc, h.rules.other hr, h.terminals.other ht, hl,
    h.roots, h.apart⟩

end

end

end Rdpgen.OnHeap
