import Rdpgen.Preproc
import Rdpgen.ParseRuns
import Mathlib.Data.List.Perm.Subperm

namespace Rdpgen

/-! ### First occurrences -/

section Firsts

variable {α : Type} [BEq α] [LawfulBEq α]

theorem nodup_eraseDups (xs : List α) : xs.eraseDups.Nodup := by
  induction hn : xs.length using Nat.strongRecOn generalizing xs with
  | ind n ih =>
    cases xs with
    | nil => simp
    | cons x xs =>
      rw [List.eraseDups_cons, List.nodup_cons]
      refine ⟨by simp, ih _ ?_ _ rfl⟩
      rw [← hn, List.length_cons]
      exact Nat.lt_succ_of_le (List.length_filter_le _ _)

theorem eraseDups_concat_of_mem {x : α} {xs : List α} (h : x ∈ xs) :
    (xs ++ [x]).eraseDups = xs.eraseDups := by
  simp [List.eraseDups_append, List.removeAll, h]

theorem eraseDups_concat_of_notMem {x : α} {xs : List α} (h : x ∉ xs) :
    (xs ++ [x]).eraseDups = xs.eraseDups ++ [x] := by
  simp [List.eraseDups_append, List.removeAll, h, List.eraseDups_cons]

theorem eraseDups_of_nodup {xs : List α} (h : xs.Nodup) : xs.eraseDups = xs := by
  induction xs using List.reverseRecOn with
  | nil => rfl
  | append_singleton xs x ih =>
    rw [eraseDups_concat_of_notMem, ih h.of_append_left]
    exact fun hx => List.disjoint_of_nodup_append h hx List.mem_cons_self

theorem length_eraseDups_le (xs : List α) : xs.eraseDups.length ≤ xs.length :=
  (List.Nodup.subperm (nodup_eraseDups xs) fun _ hx => List.mem_eraseDups.mp hx).length_le

end Firsts

/-! ### The rule for traversals -/

/-- A traversal whose body runs through on the elements with `ok` runs through. -/
def Walkable {α : Type} (ok : α → Prop) (xs : List α) : Prop := xs ≠ [] ∧ ∀ x ∈ xs, ok x

section Rule

variable {ι α β : Type} {body : β → Ptr α → Prog Halt (World ι) (β × α)} {ok : α → Prop}

theorem wp_forPtrs (J : List α → β → List α → World ι → Prop) {xs : List α}
    (pass : ∀ before b out w x, x ∈ xs → J before b out w →
      (body b (.elem x)).wp (fun r w' => ok x ∧ J (before ++ [x]) r.1 (out ++ [r.2]) w')
        (fun e _ => e = .fault ∧ ¬ ok x) False w)
    {before : List α} {b : β} {out : List α} {w : World ι} (h : J before b out w) :
    (forPtrs body (xs.map .elem) b).wp
      (fun r w' => (∀ x ∈ xs, ok x) ∧ J (before ++ xs) r.1 (out ++ r.2) w')
      (fun e _ => e = .fault ∧ ¬ ∀ x ∈ xs, ok x) False w := by
  induction xs generalizing before b out w with
  | nil => exact Prog.wp_pure.mpr ⟨by simp, by simpa using h⟩
  | cons x xs ih =>
    simp only [List.map_cons, forPtrs, Prog.wp_bind]
    refine (pass before b out w x (by simp) h).mono ?_ ?_ id
    · intro l w' hpost
      obtain ⟨b', x'⟩ := l
      obtain ⟨hok, hJ⟩ := hpost
      refine (ih (fun before b out w y hy => pass before b out w y (List.mem_cons_of_mem x hy)) hJ).mono
        ?_ ?_ id
      · intro l w'' hpost
        obtain ⟨b'', ys⟩ := l
        obtain ⟨hall, hJ'⟩ := hpost
        refine Prog.wp_pure.mpr ⟨?_, by simpa using hJ'⟩
        intro y hy
        rcases List.mem_cons.mp hy with rfl | hy
        · exact hok
        · exact hall y hy
      · intro e w'' hpost
        obtain ⟨he, hn⟩ := hpost
        exact ⟨he, fun hall => hn fun y hy => hall y (List.mem_cons_of_mem x hy)⟩
    · intro e w' hpost
      obtain ⟨he, hn⟩ := hpost
      exact ⟨he, fun hall => hn (hall x (by simp))⟩

/-- The traversal of an empty list leaves the program at the wild pointer. -/
theorem wp_forLst (ok : α → Prop) (J : List α → β → List α → World ι → Prop) {xs : List α}
    (wild : ∀ b w, (body b .wild).wp (fun _ _ => False) (fun e _ => e = .fault) False w)
    (pass : ∀ before b out w x, x ∈ xs → J before b out w →
      (body b (.elem x)).wp (fun r w' => ok x ∧ J (before ++ [x]) r.1 (out ++ [r.2]) w')
        (fun e _ => e = .fault ∧ ¬ ok x) False w)
    {b : β} {w : World ι} (h : J [] b [] w) :
    (forLst xs b body).wp (fun r w' => Walkable ok xs ∧ J xs r.1 r.2 w')
      (fun e _ => e = .fault ∧ ¬ Walkable ok xs) False w := by
  cases xs with
  | nil =>
    unfold forLst
    simp only [pointers, forPtrs, Prog.wp_bind]
    refine (wild b w).mono (by simp) ?_ id
    exact fun e _ he => ⟨he, fun hw => hw.1 rfl⟩
  | cons x xs =>
    rw [forLst, pointers]
    refine (wp_forPtrs J pass h).mono ?_ ?_ id
    · intro l w' hpost
      obtain ⟨b', ys⟩ := l
      obtain ⟨hall, hJ⟩ := hpost
      exact ⟨⟨by simp, hall⟩, by simpa using hJ⟩
    · intro e w' hpost
      obtain ⟨he, hn⟩ := hpost
      exact ⟨he, fun hw => hn hw.2⟩

end Rule

/-! ### The names of a grammar -/

def Rule.elems (r : Rule) : List PatElem := r.patterns.flatMap Pattern.elems

def elemsOf (rules : List Rule) : List PatElem := rules.flatMap Rule.elems

def ruleNames (state : Pstate) : List STR := state.rules.map Rule.name

def elemNames (state : Pstate) : List STR := (elemsOf state.rules).map PatElem.str

theorem strInLst_iff {lst : List STR} {s : STR} (hl : ∀ t ∈ lst, IsText t) (hs : IsText s) :
    strInLst lst (rawStr s) = true ↔ s ∈ lst := by
  have hraw : ∀ t : STR, IsText t → rawStr t = t := fun t ht => ht
  rw [strInLst, List.any_eq_true]
  constructor
  · intro hany
    obtain ⟨t, ht, he⟩ := hany
    rw [decide_eq_true_iff, hraw t (hl t ht), hraw s hs] at he
    exact he ▸ ht
  · exact fun h => ⟨s, h, by simp⟩

section NonTerms

variable {ι : Type} {w : World ι}

/-- `make_non_terms` behind the rules `before`. -/
structure NonTermsLoop (state : Pstate) (w : World ι) (before : List Rule) (s : Pstate)
    (out : List Rule) (v : World ι) : Prop where
  state : s = { state with nonTerminals := (before.map Rule.name).eraseDups }
  out : out = before
  texts : ∀ r ∈ before, IsText r.name
  errors : v.errors = w.errors + (before.length - (before.map Rule.name).eraseDups.length)

theorem NonTermsLoop.pass {state s : Pstate} {before out : List Rule} {v : World ι} {r : Rule}
    (h : NonTermsLoop state w before s out v) (hr : IsText r.name) :
    (nonTermsBody s (.elem r)).wp
      (fun a v' => NonTermsLoop state w (before ++ [r]) a.1 (out ++ [a.2]) v')
      (fun _ _ => False) False v := by
  have htexts : ∀ q ∈ before ++ [r], IsText q.name := by
    intro q hq
    rcases List.mem_append.mp hq with hq | hq
    · exact h.texts q hq
    · exact List.mem_singleton.mp hq ▸ hr
  have hin : strInLst s.nonTerminals (rawStr r.name) = true ↔ r.name ∈ before.map Rule.name := by
    rw [h.state, strInLst_iff ?_ hr]
    · exact List.mem_eraseDups
    · intro t ht
      obtain ⟨q, hq, rfl⟩ := List.mem_map.mp (List.mem_eraseDups.mp ht)
      exact h.texts q hq
  have hle := length_eraseDups_le (before.map Rule.name)
  rw [List.length_map] at hle
  have herr := h.errors
  unfold nonTermsBody
  simp only [Ptr.deref, Prog.wp_bind, Prog.wp_pure]
  by_cases hmem : r.name ∈ before.map Rule.name
  · have hdups := eraseDups_concat_of_mem hmem
    rw [if_neg (by simp [hin.mpr hmem]), Prog.wp_bind]
    refine syntaxError_wp fun u _ _ hu => Prog.wp_pure.mpr ⟨?_, by rw [h.out], htexts, ?_⟩
    · simpa [hdups] using h.state
    · simp only [List.map_append, List.map_cons, List.map_nil, hdups, List.length_append,
        List.length_cons, List.length_nil]
      omega
  · have hdups := eraseDups_concat_of_notMem hmem
    rw [if_pos (by simp [mt hin.mp hmem])]
    refine Prog.wp_pure.mpr ⟨?_, by rw [h.out], htexts, ?_⟩
    · simp [hdups, h.state]
    · simp only [List.map_append, List.map_cons, List.map_nil, hdups, List.length_append,
        List.length_cons, List.length_nil]
      omega

theorem makeNonTerms_wp {state : Pstate} (h : state.Fresh) :
    (makeNonTerms state).wp
      (fun s v => Walkable (fun _ => True) state.rules ∧
        NonTermsLoop state w state.rules s state.rules v)
      (fun e _ => e = .fault ∧ ¬ Walkable (fun _ => True) state.rules) False w := by
  unfold makeNonTerms
  simp only [Prog.wp_bind]
  refine (wp_forLst (fun _ => True) (NonTermsLoop state w) ?_ ?_ ?_).imp ?_
  · intro s v
    simp [nonTermsBody, Ptr.deref]
  · intro before s out v r hr hloop
    exact (hloop.pass (h.rules r hr).name).mono (fun _ _ ha => ⟨trivial, ha⟩)
      (fun _ _ hf => hf.elim) id
  · exact ⟨by rw [List.map_nil, List.eraseDups_nil, ← h.nonTerminals], rfl, by simp, by simp⟩
  · intro l v hpost
    obtain ⟨s, rules⟩ := l
    obtain ⟨hw, hloop⟩ := hpost
    refine Prog.wp_pure.mpr ⟨hw, ?_, rfl, hloop.texts, hloop.errors⟩
    rw [hloop.state, hloop.out]

end NonTerms

/-! ### Terminals -/

/-- The distinct names that are not in `N`, at their first occurrences. -/
def firstTerms (N names : List STR) : List STR := (names.filter (· ∉ N)).eraseDups

/-- The elements with the flag set at the first occurrence of a name that is
not in `N`; the names `before` have occurred already. -/
def marked (N : List STR) : List STR → List PatElem → List PatElem
  | _, [] => []
  | before, pe :: pes =>
    { pe with isTerminal := decide (pe.str ∉ N ∧ pe.str ∉ before) } ::
      marked N (before ++ [pe.str]) pes

theorem marked_append (N before : List STR) (xs ys : List PatElem) :
    marked N before (xs ++ ys) = marked N before xs ++ marked N (before ++ xs.map PatElem.str) ys := by
  induction xs generalizing before with
  | nil => simp [marked]
  | cons x xs ih => simp [marked, ih]

theorem mem_firstTerms {N names : List STR} {s : STR} : s ∈ firstTerms N names ↔ s ∈ names ∧ s ∉ N := by
  rw [firstTerms, List.mem_eraseDups, List.mem_filter, decide_eq_true_iff]

theorem firstTerms_concat {N before : List STR} {s : STR} :
    firstTerms N (before ++ [s]) =
      if s ∉ N ∧ s ∉ before then firstTerms N before ++ [s] else firstTerms N before := by
  rw [firstTerms, List.filter_append]
  by_cases hN : s ∈ N
  · simp [hN, firstTerms]
  · by_cases hb : s ∈ before
    · rw [if_neg fun h => h.2 hb, firstTerms]
      simpa [hN] using eraseDups_concat_of_mem (List.mem_filter.mpr ⟨hb, by simpa using hN⟩)
    · rw [if_pos ⟨hN, hb⟩, firstTerms]
      simpa [hN] using eraseDups_concat_of_notMem fun h => hb (List.mem_filter.mp h).1

/-- The flags are right exactly if no name outside of `N` occurs twice. -/
theorem marked_right_iff (N before : List STR) (es : List PatElem) :
    (∀ pe ∈ marked N before es, (pe.isTerminal = true ↔ pe.str ∉ N)) ↔
      ((es.map PatElem.str).filter (· ∉ N)).Nodup ∧
        ∀ s ∈ (es.map PatElem.str).filter (· ∉ N), s ∉ before := by
  induction es generalizing before with
  | nil => simp [marked]
  | cons pe es ih =>
    simp only [marked, List.forall_mem_cons, ih, List.map_cons, List.filter_cons]
    by_cases hN : pe.str ∈ N
    · simp only [hN, not_true_eq_false, false_and, decide_false, Bool.false_eq_true, if_false,
        iff_self, true_and, List.mem_append, List.mem_singleton, not_or]
      refine and_congr_right fun _ => forall₂_congr fun s hs => ?_
      rw [List.mem_filter, decide_eq_true_iff] at hs
      exact ⟨fun h => h.1, fun h => ⟨h, fun he => hs.2 (he ▸ hN)⟩⟩
    · simp only [hN, not_false_eq_true, true_and, decide_true, if_true, iff_true, decide_eq_true_iff,
        List.nodup_cons, List.forall_mem_cons, List.mem_append, List.mem_singleton, not_or]
      constructor
      · intro hall
        obtain ⟨hb, hd, hs⟩ := hall
        exact ⟨⟨fun hm => (hs _ hm).2 rfl, hd⟩, hb, fun s hm => (hs s hm).1⟩
      · intro hall
        obtain ⟨⟨hm, hd⟩, hb, hs⟩ := hall
        exact ⟨hb, hd, fun s hsm => ⟨hs s hsm, fun he => hm (he ▸ hsm)⟩⟩

section Terms

variable {ι α : Type}

/-- What `make_terms` does to the part `x` of the grammar with the elements
`flat x`, behind the names `before`. -/
structure Marks (N : List STR) (flat : α → List PatElem) (reset : α → α) (before : List STR)
    (s : Pstate) (x : α) (s' : Pstate) (x' : α) : Prop where
  state : s' = { s with terminals := firstTerms N (before ++ (flat x).map PatElem.str) }
  elems : flat x' = marked N before (flat x)
  shape : reset x' = reset x

/-- The loop body `body` does that to every `x` with `ok`, and leaves the program at
the others. -/
def BodyMarks (N : List STR) (flat : α → List PatElem) (reset : α → α) (ok : α → Prop)
    (body : Pstate → Ptr α → Prog Halt (World ι) (Pstate × α)) (x : α) : Prop :=
  ∀ before s w, (∀ t ∈ before, IsText t) → s.nonTerminals = N → s.terminals = firstTerms N before →
    (body s (.elem x)).wp (fun r w' => ok x ∧ w' = w ∧ Marks N flat reset before s x r.1 r.2)
      (fun e _ => e = .fault ∧ ¬ ok x) False w

theorem forLst_marks {N : List STR} {flat : α → List PatElem} {reset : α → α} {ok : α → Prop}
    {body : Pstate → Ptr α → Prog Halt (World ι) (Pstate × α)} {xs : List α}
    (wild : ∀ s w, (body s .wild).wp (fun _ _ => False) (fun e _ => e = .fault) False w)
    (hbody : ∀ x ∈ xs, BodyMarks N flat reset ok body x)
    (hx : ∀ x ∈ xs, ∀ pe ∈ flat x, pe.Fresh)
    {before : List STR} {s : Pstate} {w : World ι} (hb : ∀ t ∈ before, IsText t)
    (hN : s.nonTerminals = N) (hT : s.terminals = firstTerms N before) :
    (forLst xs s body).wp
      (fun r w' => Walkable ok xs ∧ w' = w ∧
        Marks N (List.flatMap flat) (List.map reset) before s xs r.1 r.2)
      (fun e _ => e = .fault ∧ ¬ Walkable ok xs) False w := by
  refine wp_forLst ok (fun ys t out v => (∀ pe ∈ ys.flatMap flat, IsText pe.str) ∧ v = w ∧
    Marks N (List.flatMap flat) (List.map reset) before s ys t out) wild ?_ ?_ |>.imp ?_
  · intro ys t out v x hmem h
    obtain ⟨htexts, rfl, hm⟩ := h
    have hb' : ∀ u ∈ before ++ (ys.flatMap flat).map PatElem.str, IsText u := by
      intro u hu
      rcases List.mem_append.mp hu with hu | hu
      · exact hb u hu
      · obtain ⟨pe, hpe, rfl⟩ := List.mem_map.mp hu
        exact htexts pe hpe
    have hs := hm.state
    apply (hbody x hmem _ t v hb' (by rw [hs]; exact hN) (by rw [hs])).imp
    intro l v' h
    obtain ⟨t', x'⟩ := l
    obtain ⟨hok, rfl, hm'⟩ := h
    refine ⟨hok, ?_, rfl, ?_, ?_, ?_⟩
    · intro pe hpe
      rw [List.flatMap_append, List.mem_append] at hpe
      rcases hpe with hpe | hpe
      · exact htexts pe hpe
      · exact (hx x hmem pe (by simpa using hpe)).1
    · rw [hm'.state, hs]
      simp
    · have he := hm.elems
      have he' := hm'.elems
      simp only [List.flatMap_append, List.flatMap_singleton, marked_append] at he he' ⊢
      rw [he, he']
    · have hr := hm.shape
      have hr' := hm'.shape
      simp only [List.map_append, List.map_cons, List.map_nil] at hr hr' ⊢
      rw [hr, hr']
  · exact ⟨by simp, rfl, by simp [← hT], by simp [marked], rfl⟩
  · intro r v h
    obtain ⟨hw, -, hv, hm⟩ := h
    exact ⟨hw, hv, hm⟩

/-! The three loops, from the inside out. -/

def PatElem.reset (pe : PatElem) : PatElem := { pe with isTerminal := false }

def Pattern.reset (p : Pattern) : Pattern := { p with elems := p.elems.map PatElem.reset }

def Rule.reset (r : Rule) : Rule := { r with patterns := r.patterns.map Pattern.reset }

variable {N : List STR}

theorem termsElemBody_marks (hN : ∀ t ∈ N, IsText t) {pe : PatElem} (hpe : pe.Fresh) :
    BodyMarks (ι := ι) N (fun pe => [pe]) PatElem.reset (fun _ => True) termsElemBody pe := by
  intro before s w hb hsN hsT
  have hin : strInLst s.terminals (rawStr pe.str) = true ↔ pe.str ∈ before ∧ pe.str ∉ N := by
    rw [strInLst_iff ?_ hpe.1, hsT, mem_firstTerms]
    intro t ht
    rw [hsT] at ht
    exact hb t (mem_firstTerms.mp ht).1
  have hinN : strInLst s.nonTerminals (rawStr pe.str) = true ↔ pe.str ∈ N := by
    rw [strInLst_iff (hsN ▸ hN) hpe.1, hsN]
  have hterm : isTerm s pe.str = true ↔ pe.str ∉ N ∧ pe.str ∉ before := by
    rw [isTerm]
    split
    · next h =>
      simp only [Bool.and_eq_true, Bool.not_eq_true', ← Bool.not_eq_true, hin, hinN] at h
      tauto
    · next h =>
      simp only [Bool.and_eq_true, Bool.not_eq_true', ← Bool.not_eq_true, hin, hinN] at h
      simp only [Bool.false_eq_true, false_iff]
      tauto
  unfold termsElemBody
  simp only [Ptr.deref, Prog.wp_bind, Prog.wp_pure]
  -- The list of terminals is `firstTerms N before`, so the test asks for a first occurrence.
  by_cases hnew : pe.str ∉ N ∧ pe.str ∉ before
  · rw [if_pos (hterm.mpr hnew)]
    refine Prog.wp_pure.mpr ⟨trivial, rfl, ?_, ?_, rfl⟩
    · rw [List.map_singleton, firstTerms_concat, if_pos hnew, hsT]
    · simp [marked, hnew]
  · rw [if_neg (mt hterm.mp hnew)]
    refine Prog.wp_pure.mpr ⟨trivial, rfl, ?_, ?_, rfl⟩
    · rw [List.map_singleton, firstTerms_concat, if_neg hnew, ← hsT]
    · simp only [marked, decide_eq_false hnew, ← hpe.2]

theorem termsPatternBody_marks (hN : ∀ t ∈ N, IsText t) {p : Pattern}
    (hp : ∀ pe ∈ p.elems, pe.Fresh) :
    BodyMarks (ι := ι) N Pattern.elems Pattern.reset (fun p => Walkable (fun _ => True) p.elems)
      termsPatternBody p := by
  intro before s w hb hsN hsT
  unfold termsPatternBody
  simp only [Ptr.deref, Prog.wp_bind, Prog.wp_pure]
  refine (forLst_marks ?_ (fun pe hpe => termsElemBody_marks hN (hp pe hpe)) (by simpa using hp) hb
    hsN hsT).imp ?_
  · intro s v
    simp [termsElemBody, Ptr.deref]
  · intro r v h
    obtain ⟨s', elems⟩ := r
    obtain ⟨hw, hv, hm⟩ := h
    refine Prog.wp_pure.mpr ⟨hw, hv, ?_, ?_, ?_⟩
    · simpa using hm.state
    · simpa using hm.elems
    · simp only [Pattern.reset, hm.shape]

theorem termsRuleBody_marks (hN : ∀ t ∈ N, IsText t) {r : Rule} (hr : r.Fresh) :
    BodyMarks (ι := ι) N Rule.elems Rule.reset
      (fun r => Walkable (fun p => Walkable (fun _ => True) p.elems) r.patterns) termsRuleBody r := by
  intro before s w hb hsN hsT
  unfold termsRuleBody
  simp only [Ptr.deref, Prog.wp_bind, Prog.wp_pure]
  refine (forLst_marks ?_ (fun p hp => termsPatternBody_marks hN (hr.elems p hp)) hr.elems hb hsN
    hsT).imp ?_
  · intro s v
    simp [termsPatternBody, Ptr.deref]
  · intro l v h
    obtain ⟨s', patterns⟩ := l
    obtain ⟨hw, hv, hm⟩ := h
    refine Prog.wp_pure.mpr ⟨hw, hv, hm.state, hm.elems, ?_⟩
    simp only [Rule.reset, hm.shape]

/-- The rules over which the three loops of `make_terms` run through. -/
def WalkableRules (rules : List Rule) : Prop :=
  Walkable (fun r => Walkable (fun p => Walkable (fun _ => True) p.elems) r.patterns) rules

theorem makeTerms_wp {state : Pstate} {w : World ι} (hN : ∀ t ∈ state.nonTerminals, IsText t)
    (hr : ∀ r ∈ state.rules, r.Fresh) (hT : state.terminals = []) :
    (makeTerms state).wp
      (fun s v => WalkableRules state.rules ∧ v = w ∧
        s = { state with
          rules := s.rules
          terminals := firstTerms state.nonTerminals (elemNames state) } ∧
        elemsOf s.rules = marked state.nonTerminals [] (elemsOf state.rules) ∧
        s.rules.map Rule.reset = state.rules.map Rule.reset)
      (fun e _ => e = .fault ∧ ¬ WalkableRules state.rules) False w := by
  unfold makeTerms
  simp only [Prog.wp_bind]
  have hnil : ∀ t ∈ ([] : List STR), IsText t := by simp
  refine (forLst_marks ?_ (fun r hmem => termsRuleBody_marks hN (hr r hmem)) ?_ hnil rfl hT).imp ?_
  · intro s v
    simp [termsRuleBody, Ptr.deref]
  · intro r hmem pe hpe
    obtain ⟨p, hp, hpe⟩ := List.mem_flatMap.mp hpe
    exact (hr r hmem).elems p hp pe hpe
  · intro l v h
    obtain ⟨s, rules⟩ := l
    obtain ⟨hw, hv, hm⟩ := h
    have hs := hm.state
    simp only at hs
    exact Prog.wp_pure.mpr ⟨hw, hv, by rw [hs]; rfl, hm.elems, hm.shape⟩

theorem map_eq_self {β : Type} {f : β → β} {xs : List β} (h : ∀ x ∈ xs, f x = x) : xs.map f = xs :=
  (List.map_congr_left h).trans (List.map_id xs)

theorem Rule.Fresh.reset {r : Rule} (h : r.Fresh) : r.reset = r := by
  have hp : r.patterns.map Pattern.reset = r.patterns := by
    refine map_eq_self fun p hmem => ?_
    have he : p.elems.map PatElem.reset = p.elems := by
      refine map_eq_self fun pe hpe => ?_
      rw [PatElem.reset, ← (h.elems p hmem pe hpe).2]
    rw [Pattern.reset, he]
  rw [Rule.reset, hp]

theorem Pstate.Fresh.lists {state : Pstate} (h : state.Fresh) :
    { state with terminals := [], nonTerminals := [] } = state := by
  obtain ⟨-, ht, hn⟩ := h
  cases state
  simp only at ht hn
  subst ht hn
  rfl

/-! ### `pre_process` -/

/-- What `pre_process` has done to the state `state`. -/
structure PreProcessed (state : Pstate) (w : World ι) (s : Pstate) (v : World ι) : Prop where
  nonTerminals : s.nonTerminals = (ruleNames state).eraseDups
  terminals : s.terminals = firstTerms (ruleNames state) (elemNames state)
  elems : elemsOf s.rules = marked (ruleNames state).eraseDups [] (elemsOf state.rules)
  same : { s with rules := s.rules.map Rule.reset, terminals := [], nonTerminals := [] } = state
  errors : v.errors = w.errors + (state.rules.length - (ruleNames state).eraseDups.length)

theorem firstTerms_eraseDups (N names : List STR) :
    firstTerms N.eraseDups names = firstTerms N names := by
  simp only [firstTerms, List.mem_eraseDups]

theorem preProcess_wp {state : Pstate} {w : World ι} (h : state.Fresh) :
    (preProcess state).wp
      (fun s v => WalkableRules state.rules ∧ PreProcessed state w s v)
      (fun e _ => e = .fault ∧ ¬ WalkableRules state.rules) False w := by
  unfold preProcess
  simp only [Prog.wp_bind]
  refine (makeNonTerms_wp h).mono ?_ ?_ id
  · intro s v hpost
    obtain ⟨-, hn⟩ := hpost
    have hs := hn.state
    have hrules : s.rules = state.rules := by rw [hs]
    have hN : s.nonTerminals = (ruleNames state).eraseDups := by rw [hs]; rfl
    have htexts : ∀ t ∈ s.nonTerminals, IsText t := by
      intro t ht
      rw [hN, List.mem_eraseDups] at ht
      obtain ⟨r, hr, rfl⟩ := List.mem_map.mp ht
      exact (h.rules r hr).name
    refine (makeTerms_wp htexts (by rw [hrules]; exact h.rules) (by rw [hs]; exact h.terminals)).mono
      ?_ ?_ id
    · intro s' v' hpost
      obtain ⟨hw, rfl, hs', he, hshape⟩ := hpost
      rw [hrules] at hw he hshape
      refine ⟨hw, ?_, ?_, ?_, ?_, hn.errors⟩
      · rw [hs', hN]
      · rw [hs', hN, firstTerms_eraseDups, elemNames, hrules]
        rfl
      · rw [he, hN]
      · have hreset : state.rules.map Rule.reset = state.rules :=
          map_eq_self fun r hr => (h.rules r hr).reset
        rw [hshape, hreset, hs', hs]
        exact h.lists
    · intro e v' hpost
      obtain ⟨he, hnot⟩ := hpost
      exact ⟨he, hrules ▸ hnot⟩
  · intro e v hpost
    obtain ⟨he, hnot⟩ := hpost
    exact ⟨he, fun hw => hnot ⟨hw.1, fun _ _ => trivial⟩⟩

end Terms

theorem marked_str (N before : List STR) (es : List PatElem) :
    (marked N before es).map PatElem.str = es.map PatElem.str := by
  induction es generalizing before with
  | nil => rfl
  | cons pe es ih => simp [marked, ih]

section Results

variable {ι : Type} {state s : Pstate} {w v : World ι}

theorem PreProcessed.ruleNames_eq (h : PreProcessed state w s v) : ruleNames s = ruleNames state := by
  have hsame := congrArg ruleNames h.same
  simpa [ruleNames, List.map_map, Function.comp_def, Rule.reset] using hsame

theorem PreProcessed.elemNames_eq (h : PreProcessed state w s v) : elemNames s = elemNames state := by
  rw [elemNames, h.elems, marked_str, elemNames]

theorem PreProcessed.texts (h : PreProcessed state w s v) (hf : state.Fresh) :
    (∀ t ∈ s.nonTerminals, IsText t) ∧ ∀ r ∈ s.rules, ∀ pe ∈ r.elems, IsText pe.str := by
  constructor
  · intro t ht
    rw [h.nonTerminals, List.mem_eraseDups] at ht
    obtain ⟨r, hr, rfl⟩ := List.mem_map.mp ht
    exact (hf.rules r hr).name
  · intro r hr pe hpe
    have hmem : pe.str ∈ elemNames s := List.mem_map_of_mem (List.mem_flatMap.mpr ⟨r, hr, hpe⟩)
    rw [h.elemNames_eq] at hmem
    obtain ⟨pe', hpe', heq⟩ := List.mem_map.mp hmem
    obtain ⟨r', hr', hin⟩ := List.mem_flatMap.mp hpe'
    obtain ⟨p, hp, hin⟩ := List.mem_flatMap.mp hin
    exact heq ▸ ((hf.rules r' hr').elems p hp pe' hin).1

theorem PreProcessed.split (h : PreProcessed state w s v) {t : STR} (ht : t ∈ elemNames state) :
    t ∈ s.terminals ∧ t ∉ s.nonTerminals ∨ t ∉ s.terminals ∧ t ∈ s.nonTerminals := by
  rw [h.terminals, h.nonTerminals, mem_firstTerms, List.mem_eraseDups]
  tauto

end Results

/-- `pre_process` on a parsed file finds the distinct rule names and the
distinct element names that are not rule names, and counts the other rules. -/
theorem preProcess_lists (fname bytes : Bytes) {state s : Pstate} {w v : World FileStack}
    (hparse : (parseInput (fileSource fname (.ok bytes))).Runs (World.boot []) (.ok state w))
    (hpre : (preProcess state).Runs w (.ok s v)) :
    s.nonTerminals = (ruleNames state).eraseDups ∧
      s.terminals = ((elemNames state).filter (· ∉ ruleNames state)).eraseDups ∧
      s.nonTerminals.Nodup ∧ s.terminals.Nodup ∧ s.terminals.Disjoint s.nonTerminals ∧
      (∀ pe ∈ elemsOf s.rules, Xor (pe.str ∈ s.terminals) (pe.str ∈ s.nonTerminals)) ∧
      v.errors = w.errors + (state.rules.length - (ruleNames state).eraseDups.length) ∧
      { s with rules := s.rules.map Rule.reset, terminals := [], nonTerminals := [] } = state := by
  obtain ⟨-, h⟩ := (preProcess_wp (parseInput_fresh hparse).1).1 s v hpre
  refine ⟨h.nonTerminals, h.terminals, ?_, ?_, ?_, ?_, h.errors, h.same⟩
  · rw [h.nonTerminals]
    exact nodup_eraseDups _
  · rw [h.terminals]
    exact nodup_eraseDups _
  · intro t ht hn
    rw [h.terminals, mem_firstTerms] at ht
    rw [h.nonTerminals, List.mem_eraseDups] at hn
    exact ht.2 hn
  · intro pe hpe
    have hmem : pe.str ∈ elemNames state := h.elemNames_eq ▸ List.mem_map_of_mem hpe
    rcases h.split hmem with ⟨ht, hn⟩ | ⟨ht, hn⟩
    · exact Or.inl ⟨ht, hn⟩
    · exact Or.inr ⟨hn, ht⟩

/-- The file `a:x a{}`. -/
theorem preProcess_lists_rule :
    ∃ state s w v, (parseInput (fileSource [102] (.ok [97, 58, 120, 32, 97, 123, 125]))).Runs
        (World.boot []) (.ok state w) ∧ (preProcess state).Runs w (.ok s v) ∧
      s.nonTerminals = [[97]] ∧ s.terminals = [[120]] ∧ v.errors = 0 := by
  obtain ⟨hn, ht, -, -, -, -, he, -⟩ :=
    preProcess_lists [102] [97, 58, 120, 32, 97, 123, 125] ⟨9, rfl⟩ ⟨9, rfl⟩
  exact ⟨_, _, _, _, ⟨9, rfl⟩, ⟨9, rfl⟩, hn, ht, he⟩

/-- The flags are right exactly if no name but the rule names occurs twice. -/
theorem isTerminal_right_iff (fname bytes : Bytes) {state s : Pstate} {w v : World FileStack}
    (hparse : (parseInput (fileSource fname (.ok bytes))).Runs (World.boot []) (.ok state w))
    (hpre : (preProcess state).Runs w (.ok s v)) :
    (∀ pe ∈ elemsOf s.rules, (pe.isTerminal = true ↔ pe.str ∉ ruleNames s)) ↔
      ((elemNames state).filter (· ∉ ruleNames state)).Nodup := by
  obtain ⟨-, h⟩ := (preProcess_wp (parseInput_fresh hparse).1).1 s v hpre
  have hiff := marked_right_iff (ruleNames state).eraseDups [] (elemsOf state.rules)
  simp only [List.mem_eraseDups, List.not_mem_nil, not_false_eq_true, implies_true, and_true] at hiff
  rw [h.ruleNames_eq, h.elems]
  exact hiff

/-- The file `a:x a{}`. -/
theorem isTerminal_right_rule :
    ∃ state s w v, (parseInput (fileSource [102] (.ok [97, 58, 120, 32, 97, 123, 125]))).Runs
        (World.boot []) (.ok state w) ∧ (preProcess state).Runs w (.ok s v) ∧
      ∀ pe ∈ elemsOf s.rules, (pe.isTerminal = true ↔ pe.str ∉ ruleNames s) := by
  have h := isTerminal_right_iff [102] [97, 58, 120, 32, 97, 123, 125] ⟨9, rfl⟩ ⟨9, rfl⟩
  exact ⟨_, _, _, _, ⟨9, rfl⟩, ⟨9, rfl⟩, h.mpr (by decide)⟩

/-- In the file `a:x x{}` the second `x` is not flagged. -/
theorem isTerminal_second_occurrence :
    ¬ ∀ fname bytes state s w v,
      (parseInput (fileSource fname (.ok bytes))).Runs (World.boot []) (.ok state w) →
      w.errors = 0 → (preProcess state).Runs w (.ok s v) →
      ∀ pe ∈ elemsOf s.rules, (pe.isTerminal = true ↔ pe.str ∉ ruleNames s) := by
  intro h
  have hx := h [102] [97, 58, 120, 32, 120, 123, 125] _ _ _ _ ⟨9, rfl⟩ rfl ⟨9, rfl⟩
    ⟨[120], false⟩ (by decide)
  exact absurd hx (by decide)

end Rdpgen
