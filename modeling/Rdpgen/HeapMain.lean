import Rdpgen.HeapParse
import Rdpgen.HeapPreproc
import Rdpgen.FileGrammar

namespace Rdpgen

/-! ### The size of a file bounds that of its grammar -/

theorem length_le_of_written {u : Bytes} {ts : List Tok} (h : Written u ts) : ts.length ≤ u.length := by
  induction h with
  | done => exact Nat.zero_le _
  | cons gap hw _ _ ih =>
    obtain ⟨b, v, hb, -⟩ := hw.starts
    simp only [hb, List.length_append, List.length_cons]
    omega

theorem length_patterns {tss : List (List Tok)} {ps : List Pattern}
    (h : List.Forall₂ IsPattern tss ps) :
    (ps.flatMap Pattern.elems).length ≤ tss.flatten.length := by
  induction h with
  | nil => exact Nat.le_refl 0
  | cons hp _ ih =>
    obtain ⟨colon, symbols, block⟩ := hp
    simp only [List.flatMap_cons, List.flatten_cons, List.length_append, List.length_cons,
      List.length_map, List.length_nil]
    omega

/-- The rules and the elements that the lists of the parser state get. -/
structure Small (s : Pstate) (n : Nat) : Prop where
  rules : s.rules.length ≤ n
  elems : (elemsOf s.rules).length ≤ n
  terminals : s.terminals = []
  nonTerminals : s.nonTerminals = []

theorem small_stateOf {ts : List Tok} {items : List Item} (h : IsFile ts items) :
    Small (stateOf items) ts.length := by
  have hsize : (items.filterMap Item.rule?).length ≤ ts.length ∧
      (elemsOf (items.filterMap Item.rule?)).length ≤ ts.length := by
    induction h with
    | nil => exact ⟨Nat.le_refl 0, Nat.le_refl 0⟩
    | cons hi _ ih =>
      cases hi with
      | rule name tss patterns _ _ hps =>
        have hle := length_patterns hps
        simp only [List.filterMap_cons, Item.rule?, elemsOf, List.flatMap_cons, Rule.elems,
          List.length_append, List.length_cons] at ih ⊢
        omega
      | verbosity d v =>
        simp only [List.filterMap_cons, Item.rule?, List.length_append]
        omega
      | name d v =>
        simp only [List.filterMap_cons, Item.rule?, List.length_append]
        omega
      | outputPrefix d v =>
        simp only [List.filterMap_cons, Item.rule?, List.length_append]
        omega
      | code d v =>
        simp only [List.filterMap_cons, Item.rule?, List.length_append]
        omega
  exact ⟨hsize.1, hsize.2, rfl, rfl⟩

theorem small_parseInput {fname bytes : Bytes} {s : Pstate} {w : World FileStack}
    (hr : (parseInput (fileSource fname (.ok bytes))).Runs (World.boot []) (.ok s w))
    (h0 : w.errors = 0) : Small s bytes.length := by
  obtain ⟨ts, hts⟩ := parseInput_lexes hr h0
  obtain ⟨s', w', hr', hiff, hstate⟩ := parseInput_file fname hts
  cases hr.det hr'
  obtain ⟨items, hf⟩ := hiff.mp h0
  have hle := length_le_of_written (lexes_iff_written.mp hts)
  have hsmall := small_stateOf hf
  rw [hstate items hf]
  exact ⟨hsmall.rules.trans hle, hsmall.elems.trans hle, rfl, rfl⟩

/-! ### `main` -/

namespace OnHeap

section

variable {ι : Type} {malloc : Malloc ι} {src : TokenSource ι} {st : State ι} {o : Pstate}
  {s : Rdpgen.Pstate}

theorem dumpMain_realizes (h : Stands st o s) :
    Realizes malloc st
      (do
        let errors ← inWorld getErrors
        if errors = 0 then
          dumpState o
        let errors ← inWorld getErrors
        inWorld (printf s!"errors: {errors}\n")
        pure (0 : Int))
      (do
        let errors ← getErrors
        if errors = 0 then
          Rdpgen.dumpState s
        let errors ← getErrors
        printf s!"errors: {errors}\n"
        pure (0 : Int)) fun r _ r' => r = r' := by
  obtain ⟨G, hs, ho⟩ := h
  have last {st : State ι} : Realizes malloc st
      (do
        let errors ← inWorld getErrors
        inWorld (printf s!"errors: {errors}\n")
        pure (0 : Int))
      (do
        let errors ← getErrors
        printf s!"errors: {errors}\n"
        pure (0 : Int)) fun r _ r' => r = r' := by
    refine (realizes_inWorld _).bind ?_
    intro errors st' _ hpost
    obtain ⟨rfl, w, rfl⟩ := hpost
    refine (realizes_inWorld _).bind ?_
    intro _ st' _ _
    exact realizes_pure rfl
  refine (realizes_inWorld _).bind ?_
  intro errors st₁ _ hpost
  obtain ⟨rfl, w, rfl⟩ := hpost
  refine realizes_ite Iff.rfl (fun _ => ?_) fun _ => last
  refine (dumpState_realizes (o := o) ⟨hs.setWorld w, ho.setWorld w⟩).bind ?_
  exact fun _ _ _ _ => last

theorem finishMain_realizes (hm : malloc.Honest) (h : Stands st o s)
    (hsmall : st.rest.world.errors = 0 → ∃ n, n < 2 ^ 31 ∧ Small s n) :
    Realizes malloc st (finishMain malloc o) (Rdpgen.finishMain s) fun r _ r' => r = r' := by
  obtain ⟨G, hs, ho⟩ := h
  have herrors : Realizes malloc st (inWorld getErrors) getErrors fun a st' b =>
      (a = b ∧ ∃ w, st' = setWorld w st) ∧ b = st.rest.world.errors := by
    have hvalue : getErrors.wp (fun b _ => b = st.rest.world.errors) (fun _ _ => True) True
        st.rest.world := Prog.wp_gets.mpr rfl
    refine (Prog.Refines.strengthen (realizes_inWorld getErrors) hvalue).mono ?_
    intro a st' b w hpost
    obtain ⟨⟨hw, hab⟩, he⟩ := hpost
    exact ⟨hw, hab, he⟩
  refine herrors.bind ?_
  intro errors st₁ _ hpost
  obtain ⟨⟨rfl, w, rfl⟩, he⟩ := hpost
  refine realizes_ite Iff.rfl ?_ fun _ => dumpMain_realizes ⟨G, hs.setWorld w, ho.setWorld w⟩
  intro h0
  obtain ⟨n, hn, hsize⟩ := hsmall (he ▸ h0)
  have hsorts : Sorts G o s.rules (setWorld w st) s := by
    refine ⟨hs.setWorld w, ho.setWorld w, rfl, ?_, ?_⟩
    · rw [hsize.nonTerminals]
      exact ⟨List.nodup_nil, List.nil_subset _⟩
    · rw [hsize.terminals]
      exact ⟨List.nodup_nil, List.nil_subset _⟩
  exact (preProcess_realizes hm (hsize.rules.trans_lt hn) (hsize.elems.trans_lt hn) hsorts).bind
    fun _ _ _ h' => dumpMain_realizes h'

theorem main_realizes (hm : malloc.Honest) {input : ι}
    (hsmall : (Rdpgen.parseInput src).wp
      (fun s w => w.errors = 0 → ∃ n, n < 2 ^ 31 ∧ Small s n) (fun _ _ => True) True (World.boot input)) :
    Realizes malloc (boot input) (main malloc src) (Rdpgen.main src) fun r _ r' => r = r' := by
  have hparse : Realizes malloc (boot input) (parseInput malloc src) (Rdpgen.parseInput src)
      fun o st s => Stands st o s := parseInput_realizes hm (sound_boot input)
  refine Prog.Refines.bind (Prog.Refines.strengthen hparse hsmall) ?_
  intro o st s w hpost
  obtain ⟨⟨rfl, h⟩, hw⟩ := hpost
  exact finishMain_realizes hm h hw

end

/-- An allocator for blocks at `n` places that are far apart. A block is enlarged where it is. -/
def arena {ι : Type} (n : Nat) : Malloc ι where
  block st _ := ((List.range n).map fun i => UInt64.ofNat (4096 * (i + 1))).find? (· ∉ st.rest.used)
  again _ p _ := some p
  elem st k size := ((List.range n).map fun i => UInt64.ofNat (4096 * (i + 1))).find? fun a =>
    a ≠ NULL ∧ ((st.lst k).load a).isNone ∧ a.toNat + 32 + size < 2 ^ 64

theorem arena_honest {ι : Type} (n : Nat) : (arena n : Malloc ι).Honest where
  block st size a ha := by simpa using List.find?_some ha
  again st p size a ha := .inl (Option.some.inj ha).symm
  elem st k a type data s hr ha := by
    obtain ⟨hne, hfree, hroom⟩ : a ≠ NULL ∧ ((st.lst k).load a).isNone ∧
      a.toNat + 32 + data.length < 2 ^ 64 := by simpa using List.find?_some ha
    refine ⟨?_, hroom⟩
    intro hmem
    rcases List.mem_cons.mp hmem with hnull | hmem
    · exact hne hnull
    · obtain ⟨e, he, rfl⟩ := List.mem_map.mp hmem
      obtain ⟨c, hc, -⟩ := hr.load he
      rw [Lst.load, hc] at hfree
      cases hfree

end OnHeap

end Rdpgen
