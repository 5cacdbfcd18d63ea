import Rdpgen.Symbols

namespace Rdpgen

section Completes

variable {ι α β : Type}

/-- `p` returns if `c` holds and dereferences a wild pointer otherwise. -/
def Completes (p : Prog Halt (World ι) α) (c : Prop) : Prop :=
  ∀ w, p.wp (fun _ _ => c) (fun e _ => e = .fault ∧ ¬ c) False w

variable {p : Prog Halt (World ι) α} {c d : Prop}

theorem Completes.iff (h : Completes p c) (hcd : c ↔ d) : Completes p d := propext hcd ▸ h

theorem completes_pure (a : α) : Completes (pure a : Prog Halt (World ι) α) True :=
  fun _ => Prog.wp_pure.mpr trivial

theorem completes_printf (text : String) : Completes (printf text : Prog Halt (World ι) Unit) True :=
  fun _ => Prog.wp_modify.mpr trivial

theorem Completes.bind {f : α → Prog Halt (World ι) β} (h : Completes p c)
    (hf : ∀ a, Completes (f a) d) : Completes (p >>= f) (c ∧ d) := by
  intro w
  rw [Prog.wp_bind]
  refine (h w).mono ?_ (fun e _ he => ⟨he.1, fun hcd => he.2 hcd.1⟩) id
  intro a v hc
  exact (hf a v).mono (fun _ _ hd => ⟨hc, hd⟩) (fun e _ he => ⟨he.1, fun hcd => he.2 hcd.2⟩) id

theorem Completes.deref {f : α → Prog Halt (World ι) β} {a : α} (h : Completes (f a) c) :
    Completes ((Ptr.elem a).deref >>= f) c := h

theorem completes_wild (f : α → Prog Halt (World ι) β) :
    Completes ((Ptr.wild : Ptr α).deref >>= f) False := by
  intro w
  rw [Prog.wp_bind]
  exact Prog.wp_stop.mpr ⟨rfl, id⟩

theorem Completes.ite {b : Prop} [Decidable b] {p : Prog Halt (World ι) Unit} (h : Completes p c) :
    Completes (if b then p else pure ()) (b → c) := by
  by_cases hb : b
  · rw [if_pos hb]
    exact h.iff (by simp [hb])
  · rw [if_neg hb]
    exact (completes_pure ()).iff (by simp [hb])

theorem Completes.forLst {body : Unit → Ptr α → Prog Halt (World ι) (Unit × α)} {ok : α → Prop}
    (wild : Completes (body () .wild) False) (xs : List α)
    (pass : ∀ x ∈ xs, Completes (body () (.elem x)) (ok x)) :
    Completes (forLst xs () body) (Walkable ok xs) := by
  intro w
  refine (wp_forLst ok (fun _ _ _ _ => True) ?_ ?_ trivial).imp fun _ _ h => h.1
  · exact fun _ v => (wild v).mono (fun _ _ h => h) (fun _ _ h => h.1) id
  · exact fun _ _ _ v x hx _ => (pass x hx v).imp fun _ _ h => ⟨h, trivial⟩

end Completes

/-! ### `dump_state` -/

section Dump

variable {ι : Type}

theorem dumpStrLst_completes (lst : List STR) (label : String) (verbo : Int) :
    Completes (dumpStrLst lst label verbo : Prog Halt (World ι) Unit) (verbo > 5 → lst ≠ []) := by
  have pass (item : STR) : Completes (ι := ι) (dumpStrBody () (.elem item)) True :=
    .deref (((completes_printf _).bind fun _ => completes_pure _).iff (by simp))
  have loop := Completes.forLst (completes_wild _) lst fun item _ => pass item
  refine .ite (((completes_printf _).bind fun _ => loop.bind fun _ => completes_pure _).iff ?_)
  simp [Walkable]

theorem dumpElemBody_completes (pe : PatElem) :
    Completes (ι := ι) (dumpElemBody () (.elem pe)) True :=
  .deref (((completes_printf _).bind fun _ => completes_pure _).iff (by simp))

theorem dumpPatternBody_completes (p : Pattern) :
    Completes (ι := ι) (dumpPatternBody () (.elem p)) (Walkable (fun _ => True) p.elems) := by
  have loop := Completes.forLst (ι := ι) (completes_wild _) p.elems fun pe _ =>
    dumpElemBody_completes pe
  refine Completes.iff ((completes_printf _).bind fun _ => .deref (loop.bind fun _ =>
    (completes_printf _).bind fun _ => completes_pure _)) ?_
  simp

theorem dumpRuleBody_completes (r : Rule) :
    Completes (ι := ι) (dumpRuleBody () (.elem r))
      (Walkable (fun p => Walkable (fun _ => True) p.elems) r.patterns) := by
  have wild : Completes (ι := ι) (dumpPatternBody () .wild) False :=
    ((completes_printf _).bind fun _ => completes_wild _).iff (by simp)
  have loop := wild.forLst r.patterns fun p _ => dumpPatternBody_completes p
  refine .deref (((completes_printf _).bind fun _ => loop.bind fun _ =>
    (completes_printf _).bind fun _ => completes_pure _).iff ?_)
  simp

theorem dumpRules_completes (state : Pstate) :
    Completes (ι := ι) (dumpRules state) (state.verbo > 3 → WalkableRules state.rules) := by
  have loop := Completes.forLst (ι := ι) (completes_wild _) state.rules fun r _ =>
    dumpRuleBody_completes r
  refine .ite (((completes_printf _).bind fun _ => loop.bind fun _ => completes_pure _).iff ?_)
  simp [WalkableRules]

theorem dumpState_completes (state : Pstate) :
    Completes (ι := ι) (dumpState state)
      (state.verbo > 0 → (state.verbo > 3 → WalkableRules state.rules) ∧
        (state.verbo > 5 → state.terminals ≠ [] ∧ state.nonTerminals ≠ [] ∧ state.code ≠ [])) := by
  refine .ite (((completes_printf _).bind fun _ => (completes_printf _).bind fun _ =>
    (completes_printf _).bind fun _ => (completes_printf _).bind fun _ =>
    (completes_printf _).bind fun _ => (dumpRules_completes state).bind fun _ =>
    (dumpStrLst_completes _ _ _).bind fun _ => (dumpStrLst_completes _ _ _).bind fun _ =>
    (dumpStrLst_completes _ _ _).bind fun _ => (completes_printf _).bind fun _ =>
    completes_printf _).iff ?_)
  simp only [true_and, and_true, ← imp_and]

end Dump

/-! ### The lines of `main` behind `parse_input` -/

theorem length_eraseDups_iff {xs : List STR} : xs.eraseDups.length = xs.length ↔ xs.Nodup := by
  have hsub : xs.eraseDups.Subperm xs :=
    List.Nodup.subperm (nodup_eraseDups xs) fun _ hx => List.mem_eraseDups.mp hx
  constructor
  · exact fun hl => (hsub.perm_of_length_le hl.ge).nodup_iff.mp (nodup_eraseDups xs)
  · intro hd
    refine le_antisymm hsub.length_le (List.Nodup.subperm hd fun x hx => ?_).length_le
    exact List.mem_eraseDups.mpr hx

theorem walkableRules_reset {rules : List Rule} :
    WalkableRules (rules.map Rule.reset) ↔ WalkableRules rules := by
  simp [WalkableRules, Walkable, Rule.reset, Pattern.reset]

theorem walkableRules_iff {rules : List Rule} (h : ∀ r ∈ rules, r.patterns ≠ []) :
    WalkableRules rules ↔ rules ≠ [] ∧ ∀ r ∈ rules, ∀ p ∈ r.patterns, p.elems ≠ [] := by
  simp only [WalkableRules, Walkable, implies_true, and_true]
  exact and_congr_right fun _ => forall₂_congr fun r hr => and_iff_right (h r hr)

/-- What the lines of `main` behind `parse_input` need of its state. -/
structure Dumpable (state : Pstate) : Prop where
  rules : WalkableRules state.rules
  lists : (ruleNames state).Nodup → state.verbo > 5 →
    state.code ≠ [] ∧ ∃ t ∈ elemNames state, t ∉ ruleNames state

theorem firstTerms_ne_nil {N names : List STR} : firstTerms N names ≠ [] ↔ ∃ t ∈ names, t ∉ N := by
  rw [ne_eq, List.eq_nil_iff_forall_not_mem]
  simp [mem_firstTerms]

/-- Where `pre_process` has run through, `dump_state` needs the lists alone. -/
theorem PreProcessed.dumpable_iff {ι : Type} {state s : Pstate} {w v : World ι}
    (h : PreProcessed state w s v) (hw : WalkableRules state.rules) :
    (s.verbo > 0 → (s.verbo > 3 → WalkableRules s.rules) ∧
        (s.verbo > 5 → s.terminals ≠ [] ∧ s.nonTerminals ≠ [] ∧ s.code ≠ [])) ↔
      (state.verbo > 5 → state.code ≠ [] ∧ ∃ t ∈ elemNames state, t ∉ ruleNames state) := by
  have hverbo : s.verbo = state.verbo := by rw [← h.same]
  have hcode : s.code = state.code := by rw [← h.same]
  have hrules : WalkableRules s.rules := by
    rw [← h.same] at hw
    exact walkableRules_reset.mp hw
  have hnon : s.nonTerminals ≠ [] := by
    rw [h.nonTerminals]
    obtain ⟨r, hr⟩ := List.exists_mem_of_ne_nil _ hw.1
    exact List.ne_nil_of_mem (List.mem_eraseDups.mpr (List.mem_map_of_mem hr))
  rw [h.terminals, firstTerms_ne_nil, hverbo, hcode]
  constructor
  · intro hd hv
    obtain ⟨ht, -, hc⟩ := (hd (by omega)).2 hv
    exact ⟨hc, ht⟩
  · intro hd _
    exact ⟨fun _ => hrules, fun hv => ⟨(hd hv).2, hnon, (hd hv).1⟩⟩

theorem finishMain_completes {ι : Type} {state : Pstate} {w : World ι} (h : state.Fresh)
    (h0 : w.errors = 0) :
    (finishMain state).wp (fun _ _ => Dumpable state)
      (fun e _ => e = .fault ∧ ¬ Dumpable state) False w := by
  unfold finishMain
  simp only [getErrors, Prog.wp_bind, Prog.wp_gets]
  rw [if_pos h0, Prog.wp_bind]
  refine (preProcess_wp h).mono ?_ (fun e _ he => ⟨he.1, fun hd => he.2 hd.rules⟩) id
  intro s v hpost
  obtain ⟨hw, hpre⟩ := hpost
  have herr : v.errors = 0 ↔ (ruleNames state).Nodup := by
    have hle := length_eraseDups_le (ruleNames state)
    rw [← length_eraseDups_iff, hpre.errors, h0]
    simp only [ruleNames, List.length_map] at hle ⊢
    omega
  simp only [Prog.wp_gets, Prog.wp_bind]
  -- A duplicate rule is an error, and then nothing is dumped.
  by_cases hv : v.errors = 0
  · have hd : (state.verbo > 5 → state.code ≠ [] ∧ ∃ t ∈ elemNames state, t ∉ ruleNames state) ↔
        Dumpable state :=
      ⟨fun hl => ⟨hw, fun _ => hl⟩, fun hd => hd.lists (herr.mp hv)⟩
    rw [if_pos hv, Prog.wp_bind]
    apply (((dumpState_completes s).iff ((hpre.dumpable_iff hw).trans hd)) v).imp
    intro _ u hdump
    simp only [Prog.wp_gets, Prog.wp_bind, printf, Prog.wp_modify, Prog.wp_pure]
    exact hdump
  · rw [if_neg hv]
    simp only [Prog.wp_gets, Prog.wp_bind, printf, Prog.wp_modify, Prog.wp_pure]
    exact ⟨hw, fun hd => absurd (herr.mpr hd) hv⟩

/-- After an accepted file `main` runs to its end exactly if there is a rule, no
pattern is empty and, where the lists are dumped, none of them is empty. -/
theorem finishMain_completes_iff (fname bytes : Bytes) (verbo : Int) {state : Pstate}
    {w : World FileStack}
    (hparse : (parseInput (fileSource fname (.ok bytes))).Runs (World.boot []) (.ok state w))
    (h0 : w.errors = 0) :
    (∃ r v, (finishMain { state with verbo }).Runs w (.ok r v)) ↔
      state.rules ≠ [] ∧ (∀ r ∈ state.rules, ∀ p ∈ r.patterns, p.elems ≠ []) ∧
        ((ruleNames state).Nodup → verbo > 5 →
          state.code ≠ [] ∧ ∃ t ∈ elemNames state, t ∉ ruleNames state) := by
  obtain ⟨hfresh, hpat⟩ := parseInput_fresh hparse
  have hfresh' : Pstate.Fresh { state with verbo } :=
    ⟨hfresh.rules, hfresh.terminals, hfresh.nonTerminals⟩
  have hwp := finishMain_completes hfresh' h0
  rw [← and_assoc, ← walkableRules_iff (hpat h0)]
  constructor
  · intro hrun
    obtain ⟨r, v, hr⟩ := hrun
    have hd := hwp.1 r v hr
    exact ⟨hd.rules, hd.lists⟩
  · intro hcond
    obtain ⟨hw, hl⟩ := hcond
    obtain ⟨r, v, hr, -⟩ := hwp.returns_of_not_stop fun _ _ he => he.2 ⟨hw, hl⟩
    exact ⟨r, v, hr⟩

/-- The file `a:x{}` with the default verbosity. -/
theorem finishMain_completes_rule :
    ∃ state w r v, (parseInput (fileSource [102] (.ok [97, 58, 120, 123, 125]))).Runs (World.boot [])
        (.ok state w) ∧ (finishMain { state with verbo := 5 }).Runs w (.ok r v) := by
  have h := finishMain_completes_iff [102] [97, 58, 120, 123, 125] 5 ⟨9, rfl⟩ rfl
  obtain ⟨r, v, hr⟩ := h.mpr ⟨by decide, by decide, by decide⟩
  exact ⟨_, _, r, v, ⟨9, rfl⟩, hr⟩

/-- The empty file. -/
theorem finishMain_empty_file :
    ¬ ∀ fname bytes verbo state w,
      (parseInput (fileSource fname (.ok bytes))).Runs (World.boot []) (.ok state w) →
      w.errors = 0 → ∃ r v, (finishMain { state with verbo }).Runs w (.ok r v) := by
  intro h
  obtain ⟨r, v, hr⟩ := h [102] [] 5 _ _ ⟨9, rfl⟩ rfl
  have he := hr.det ⟨9, rfl⟩
  cases he

end Rdpgen
