import Rdpgen.EmitText

namespace Rdpgen

/-! ### The lines of the source file -/

def protoLine (r : Rule) : Emission := ⟨"Ast* %s();\n", [bufferArg r.name]⟩

def functionHead (r : Rule) : Emission := ⟨"static void* %s() \x7b\n", [bufferArg r.name]⟩

def elemText (pe : PatElem) : Emission := ⟨"%s ", [bufferArg pe.str]⟩

def protosText (rules : List Rule) : List Emission :=
  ⟨"// prototypes\n", []⟩ :: (rules.map protoLine ++ [⟨"\n", []⟩])

def gutsText (pat : Pattern) : List Emission :=
  ⟨"  // ", []⟩ :: (pat.elems.map elemText ++ [⟨"\n", []⟩])

def functionText (r : Rule) (pat : Pattern) : List Emission :=
  functionHead r :: (gutsText pat ++ [⟨"\x7d\n\n", []⟩])

def singleRuleText (r : Rule) : List Emission :=
  r.patterns.flatMap (functionText r) ++ [⟨"\n", []⟩]

def rulesText (rules : List Rule) : List Emission :=
  protosText rules ++ ⟨"// function definitions\n", []⟩ :: rules.flatMap singleRuleText

def includesText (parser : STR) : List Emission :=
  [⟨"#include <stdio.h>\n", []⟩, ⟨"#include <stdlib.h>\n", []⟩, ⟨"#include <stddef.h>\n", []⟩,
    ⟨"\n", []⟩, ⟨"#include \"%s\"\n", [bufferArg (rawStr parser ++ [46, 104])]⟩, ⟨"\n", []⟩]

/-- The function `parser` that calls the function of the rule `r`. -/
def entryText (r : Rule) : List Emission :=
  [⟨"Ast* parser(cont char* name) \x7b\n", []⟩, ⟨"  return %s();\n", [bufferArg r.name]⟩,
    ⟨"\x7d\n", []⟩]

/-- The source file for rules of which `r` is the first. -/
def sourceText (parser : STR) (r : Rule) (rules : List Rule) : List Emission :=
  ⟨"// This file is generated: DO NOT EDIT\n", []⟩ ::
    (includesText parser ++ rulesText rules ++ ⟨"// external interface\n", []⟩ :: entryText r)

theorem emitRuleGuts_writes (pat : Pattern) : Writes (emitRuleGuts pat) () (gutsText pat) := by
  apply (writes_emit _ _).bind
  apply Writes.bind (.forEach (writes_lines elemText _)) (writes_emit _ _)
  exact fun pe _ => writes_emit _ _

theorem emitSingleRule_writes (r : Rule) : Writes (emitSingleRule r) () (singleRuleText r) := by
  apply Writes.bind (.forEach (writes_each (functionText r) _)) (writes_emit _ _)
  intro pat _
  exact (writes_emit _ _).bind ((emitRuleGuts_writes pat).bind (writes_emit _ _))

/-- The first prototype is written apart and the second traversal leaves its rule out. -/
theorem emitProtos_writes {state : Pstate} {r : Rule} {rs : List Rule} (h : state.rules = r :: rs) :
    Writes (emitProtos state) (rawStr r.name) (protosText state.rules) := by
  have loop : Writes (Cursor.forRest (r :: rs) () fun _ rule =>
      emit "Ast* %s();\n" [bufferArg rule.name]) () (rs.map protoLine) :=
    .forRest (writes_lines protoLine fun rule _ => writes_emit _ _)
  unfold emitProtos
  simp only [h, Cursor.reset, List.head?_cons]
  exact (writes_emit _ _).bind ((writes_emit _ _).bind
    (loop.bind ((writes_emit _ _).bind (writes_pure _))))

theorem emitRules_writes {state : Pstate} {r : Rule} {rs : List Rule} (h : state.rules = r :: rs) :
    Writes (emitRules state) (rawStr r.name) (rulesText state.rules) := by
  have loop : Writes (Cursor.forEach state.rules () fun _ rule => emitSingleRule rule) ()
      (state.rules.flatMap singleRuleText) :=
    .forEach (writes_each singleRuleText fun rule _ => emitSingleRule_writes rule)
  have htext : rulesText state.rules = protosText state.rules ++
      ([⟨"// function definitions\n", []⟩] ++ (state.rules.flatMap singleRuleText ++ [])) := by
    rw [List.append_nil]
    rfl
  rw [htext]
  exact (emitProtos_writes h).bind ((writes_emit _ _).bind (loop.bind (writes_pure _)))

theorem headerName_writes {name : STR} (h : rawStr name ≠ []) :
    Writes (headerName name) (rawStr name ++ [46, 104]) [] := by
  apply Writes.of_wp
  intro err closed f
  rw [headerName, wp_fileName, if_neg h]
  simp

theorem emitIncludes_writes {parser : STR} (h : rawStr parser ≠ []) :
    Writes (emitIncludes parser) () (includesText parser) :=
  (writes_emit _ _).bind ((writes_emit _ _).bind ((writes_emit _ _).bind ((writes_emit _ _).bind
    ((headerName_writes h).bind ((writes_emit _ _).bind (writes_emit _ _))))))

/-! ### The header of the parser -/

def terminalLine (l : STR × UInt32) : Emission := ⟨"  TOK_%s = %d,\n", [bufferArg l.1, .num l.2]⟩

/-- The terminals with the numbers from `count` on; the number is an `unsigned`. -/
def numbered : UInt32 → List STR → List (STR × UInt32)
  | _, [] => []
  | count, s :: ss => (s, count) :: numbered (count + 1) ss

def headerText (ast parser : STR) (terminals : List STR) : List Emission :=
  let tmp := upcaseStr (copyStr parser)
  [⟨"// This file is generated: DO NOT EDIT\n", []⟩,
    ⟨"#ifndef _%s_H\n#define _%s_H\n\n", [bufferArg tmp, bufferArg tmp]⟩,
    ⟨"#include \"%s\"\n\n", [bufferArg (rawStr ast ++ [46, 104])]⟩,
    ⟨"typedef enum \x7b\n", []⟩] ++
  (numbered 275 terminals).map terminalLine ++
  [⟨"\x7d TokenType;\n\n", []⟩, ⟨"Ast* parser(cont char* name);\n\n", []⟩,
    ⟨"#endif /* _%s_H */\n\n", [bufferArg tmp]⟩]

theorem numbered_fst (count : UInt32) (ss : List STR) : (numbered count ss).map Prod.fst = ss := by
  induction ss generalizing count with
  | nil => rfl
  | cons s ss ih => rw [numbered, List.map_cons, ih]

theorem numbered_length (count : UInt32) (ss : List STR) : (numbered count ss).length = ss.length := by
  rw [← List.length_map Prod.fst, numbered_fst]

theorem numbered_get (count : UInt32) (ss : List STR) (i : Nat) (hi : i < (numbered count ss).length) :
    ((numbered count ss)[i]).2.toNat = (count.toNat + i) % 2 ^ 32 := by
  induction ss generalizing count i with
  | nil => simp [numbered] at hi
  | cons s ss ih =>
    cases i with
    | zero =>
      have hc := count.toNat_lt
      simp only [numbered, List.getElem_cons_zero, Nat.add_zero]
      omega
    | succ i =>
      have hi' : i < (numbered (count + 1) ss).length := by
        simp only [numbered, List.length_cons] at hi
        omega
      have hnext := ih (count + 1) i hi'
      simp only [numbered, List.getElem_cons_succ]
      rw [hnext, UInt32.toNat_add]
      simp
      omega

/-- The numbers differ as long as they do not wrap around. -/
theorem numbered_nodup_iff (count : UInt32) (ss : List STR) :
    ((numbered count ss).map Prod.snd).Nodup ↔ ss.length ≤ 2 ^ 32 := by
  have hlen := numbered_length count ss
  constructor
  · intro h
    by_contra hlong
    have h0 : 0 < ((numbered count ss).map Prod.snd).length := by
      rw [List.length_map]
      omega
    have hlast : 2 ^ 32 < ((numbered count ss).map Prod.snd).length := by
      rw [List.length_map]
      omega
    have hget : ((numbered count ss).map Prod.snd)[0] = ((numbered count ss).map Prod.snd)[2 ^ 32] := by
      apply UInt32.toNat_inj.mp
      rw [List.getElem_map, List.getElem_map, numbered_get, numbered_get]
      omega
    have hindex := h.getElem_inj_iff.mp hget
    omega
  · intro h
    rw [List.Nodup, List.pairwise_iff_getElem]
    intro i j hi hj hij heq
    rw [List.length_map] at hi hj
    have hi' := numbered_get count ss i hi
    have hj' := numbered_get count ss j hj
    rw [List.getElem_map, List.getElem_map] at heq
    rw [heq, hj'] at hi'
    omega

theorem terminalBody_writes (ss : List STR) (count : UInt32) :
    ∃ n, Writes (ss.foldlM terminalBody count) n ((numbered count ss).map terminalLine) := by
  induction ss generalizing count with
  | nil => exact ⟨count, writes_pure count⟩
  | cons s ss ih =>
    obtain ⟨n, h⟩ := ih (count + 1)
    have hs : Writes (terminalBody count s) (count + 1) [terminalLine (s, count)] :=
      (writes_emit _ _).bind (writes_pure _)
    exact ⟨n, hs.bind h⟩

theorem emitHeader_text {fopen : Bytes → Option String} {astName parserName : STR} {state : Pstate}
    {o : Output} :
    (emitHeader fopen astName parserName state).wp
      (fun _ o' => (rawStr astName ≠ [] ∧ rawStr parserName ≠ []) ∧
        o' = ⟨o.stderr, o.closed ++
          [⟨rawStr parserName ++ [46, 104], headerText astName parserName state.terminals⟩], none⟩)
      (fun e _ => e = .exit 1 ∧ (Unwritable fopen parserName [46, 104] ∨ rawStr astName = [])) False
      o := by
  obtain ⟨n, hterm⟩ := terminalBody_writes state.terminals 275
  unfold emitHeader
  simp only [headerName, Prog.wp_bind, wp_fileName]
  split
  · next h => exact ⟨trivial, Or.inl (Or.inl h)⟩
  · next hp =>
    refine openOutfile_wp (by decide) (fun hf _ => ⟨rfl, Or.inl (Or.inr hf)⟩) fun _ => ?_
    simp only [wp_emit, wp_fileName]
    split
    · next h => exact ⟨trivial, Or.inr h⟩
    · next ha =>
      simp only [wp_emit, hterm.forEach.wp_iff, wp_closeOutfile]
      refine ⟨⟨ha, hp⟩, ?_⟩
      simp [headerText]

theorem emitSource_wp {fopen : Bytes → Option String} {parserName : STR} {state : Pstate} {r : Rule}
    {rs : List Rule} {o : Output} (h : state.rules = r :: rs) (hp : rawStr parserName ≠ []) :
    (emitSource fopen parserName state).wp
      (fun _ o' => o' = ⟨o.stderr, o.closed ++
        [⟨rawStr parserName ++ [46, 99], sourceText parserName r state.rules⟩], none⟩)
      (fun e _ => e = .exit 1 ∧ Unwritable fopen parserName [46, 99]) False o := by
  unfold emitSource
  simp only [sourceName, Prog.wp_bind, wp_fileName, if_neg hp]
  refine openOutfile_wp (by decide) (fun hf _ => ⟨rfl, Or.inr hf⟩) fun _ => ?_
  simp only [wp_emit, (emitIncludes_writes hp).wp_iff, (emitRules_writes h).wp_iff, wp_closeOutfile]
  simp [sourceText, entryText, bufferArg, rawStr]

/-! ### The functions of the source file -/

/-- The text has one prototype and one function for every rule in their order, and ends with the
entry that calls the function of the first rule. -/
structure DeclaresFunctions (rules : List Rule) (text : List Emission) : Prop where
  prototypes : linesOf "Ast* %s();\n" text = rules.map protoLine
  functions : linesOf "static void* %s() \x7b\n" text = rules.map functionHead
  entry : ∀ r, rules.head? = some r → entryText r <:+ text

theorem flatMap_replicate_eq_map_iff {α β : Type} {f : α → β} {k : α → Nat} {xs : List α}
    (hd : (xs.map f).Nodup) :
    xs.flatMap (fun x => List.replicate (k x) (f x)) = xs.map f ↔ ∀ x ∈ xs, k x = 1 := by
  induction xs with
  | nil => simp
  | cons x xs ih =>
    rw [List.map_cons, List.nodup_cons] at hd
    obtain ⟨hnew, hd⟩ := hd
    have hrest : f x ∉ xs.flatMap fun y => List.replicate (k y) (f y) := by
      intro hmem
      obtain ⟨y, hy, hrep⟩ := List.mem_flatMap.mp hmem
      exact hnew ((List.eq_of_mem_replicate hrep) ▸ List.mem_map_of_mem hy)
    rw [List.flatMap_cons, List.map_cons, List.forall_mem_cons, ← ih hd]
    rcases hk : k x with _ | _ | n
    · refine iff_of_false (fun he => hrest ?_) (by simp)
      rw [List.replicate_zero, List.nil_append] at he
      exact he ▸ List.mem_cons_self
    · simp
    · refine iff_of_false (fun he => hnew ?_) (by simp)
      rw [List.replicate_succ, List.cons_append] at he
      have htail := (List.cons.inj he).2
      rw [List.replicate_succ, List.cons_append] at htail
      exact htail ▸ List.mem_cons_self

theorem functionHead_nodup {rules : List Rule} (hd : (rules.map fun r => rawStr r.name).Nodup) :
    (rules.map functionHead).Nodup := by
  have hmap : rules.map functionHead =
      (rules.map fun r => rawStr r.name).map fun b => ⟨"static void* %s() \x7b\n", [.str b]⟩ := by
    rw [List.map_map]
    rfl
  rw [hmap]
  apply hd.map
  intro b b' he
  simpa using he

section Lines

variable {parser : STR} {r : Rule} {rules : List Rule}

theorem protoLine_fmt (r : Rule) : (protoLine r).fmt = "Ast* %s();\n" := rfl

theorem functionHead_fmt (r : Rule) : (functionHead r).fmt = "static void* %s() \x7b\n" := rfl

theorem elemText_fmt (pe : PatElem) : (elemText pe).fmt = "%s " := rfl

theorem singleRuleText_lines (r : Rule) : linesOf "Ast* %s();\n" (singleRuleText r) = [] ∧
    linesOf "static void* %s() \x7b\n" (singleRuleText r) =
      List.replicate r.patterns.length (functionHead r) := by
  have hmany : r.patterns.flatMap (fun _ => [functionHead r]) =
      List.replicate r.patterns.length (functionHead r) := by
    rw [← List.map_eq_flatMap, List.map_const']
  rw [← hmany]
  simp [singleRuleText, functionText, gutsText, functionHead_fmt, linesOf_map elemText_fmt]

theorem sourceText_prototypes :
    linesOf "Ast* %s();\n" (sourceText parser r rules) = rules.map protoLine := by
  simp [sourceText, includesText, rulesText, protosText, entryText, singleRuleText_lines,
    linesOf_map protoLine_fmt]

/-- A rule has as many functions as patterns. -/
theorem sourceText_functions :
    linesOf "static void* %s() \x7b\n" (sourceText parser r rules) =
      rules.flatMap fun q => List.replicate q.patterns.length (functionHead q) := by
  simp [sourceText, includesText, rulesText, protosText, entryText, singleRuleText_lines,
    linesOf_map protoLine_fmt]

theorem sourceText_entry : entryText r <:+ sourceText parser r rules :=
  ((List.suffix_cons _ _).trans (List.suffix_append _ _)).trans (List.suffix_cons _ _)

end Lines

/-- For distinct rule names the prototypes, the functions and the entry are those of the rules
exactly if every rule has one pattern. -/
theorem emitParser_functions_iff (fopen : Bytes → Option String) (astName parserName : STR)
    {state : Pstate} (o : Output)
    (hne : state.rules ≠ []) (hd : (state.rules.map fun r => rawStr r.name).Nodup) :
    (emitParser fopen astName parserName state).wp
      (fun _ o' => ∃ header text,
        o'.closed = o.closed ++ [header, ⟨rawStr parserName ++ [46, 99], text⟩] ∧
        (DeclaresFunctions state.rules text ↔ ∀ r ∈ state.rules, r.patterns.length = 1))
      (fun e _ => e = .exit 1 ∧ (Unwritable fopen parserName [46, 104] ∨ rawStr astName = [] ∨
        Unwritable fopen parserName [46, 99])) False o := by
  obtain ⟨r, rs, hrules⟩ := List.exists_cons_of_ne_nil hne
  have hiff : DeclaresFunctions state.rules (sourceText parserName r state.rules) ↔
      ∀ r ∈ state.rules, r.patterns.length = 1 := by
    rw [← flatMap_replicate_eq_map_iff (functionHead_nodup hd), ← sourceText_functions]
    constructor
    · exact fun h => h.functions
    · intro hf
      refine ⟨sourceText_prototypes, hf, ?_⟩
      intro q hq
      rw [hrules, List.head?_cons, Option.some.injEq] at hq
      exact hq ▸ sourceText_entry
  unfold emitParser
  rw [Prog.wp_bind]
  refine emitHeader_text.mono ?_ (fun e _ he => ⟨he.1, he.2.imp id Or.inl⟩) id
  intro _ o' hheader
  obtain ⟨⟨-, hp⟩, rfl⟩ := hheader
  refine (emitSource_wp hrules hp).mono ?_ (fun _ _ he => ⟨he.1, .inr (.inr he.2)⟩) id
  intro _ o' hsource
  subst hsource
  exact ⟨⟨_, headerText astName parserName state.terminals⟩, _, List.append_assoc _ _ _, hiff⟩

/-- The file `a:b{}b:x{}`. -/
theorem emitParser_functions_rules :
    ∃ state s w v o header text, (parseInput (fileSource [102]
        (.ok [97, 58, 98, 123, 125, 98, 58, 120, 123, 125]))).Runs (World.boot []) (.ok state w) ∧
      (preProcess state).Runs w (.ok s v) ∧
      (emitParser (fun _ => none) [103] [112] s).Runs ⟨[], [], none⟩ (.ok () o) ∧
      o.closed = [header, ⟨[112, 46, 99], text⟩] ∧ DeclaresFunctions s.rules text := by
  obtain ⟨state, s, w, v, hparse, hpre, hne, hd, hone⟩ : ∃ state s w v, (parseInput (fileSource [102]
        (.ok [97, 58, 98, 123, 125, 98, 58, 120, 123, 125]))).Runs (World.boot []) (.ok state w) ∧
      (preProcess state).Runs w (.ok s v) ∧ s.rules ≠ [] ∧
      (s.rules.map fun r => rawStr r.name).Nodup ∧ ∀ r ∈ s.rules, r.patterns.length = 1 :=
    ⟨_, _, _, _, ⟨14, rfl⟩, ⟨14, rfl⟩, by decide, by decide, by decide⟩
  have h := emitParser_functions_iff (fun _ => none) [103] [112] ⟨[], [], none⟩ hne hd
  obtain ⟨_, o, hemit, header, text, hclosed, hiff⟩ :=
    h.returns_of_not_stop fun _ _ he => absurd he.2 (by decide)
  exact ⟨state, s, w, v, o, header, text, hparse, hpre, hemit, hclosed, hiff.mpr hone⟩

/-- In the file `a:x{}:y{}` the rule has two patterns, and two functions of one name. -/
theorem emitParser_two_functions :
    ¬ ∀ fopen fname bytes astName parserName state s w v o o' header source,
      (parseInput (fileSource fname (.ok bytes))).Runs (World.boot []) (.ok state w) →
      (preProcess state).Runs w (.ok s v) → s.rules ≠ [] →
      (s.rules.map fun r => rawStr r.name).Nodup →
      (emitParser fopen astName parserName s).Runs o (.ok () o') →
      o'.closed = o.closed ++ [header, source] → DeclaresFunctions s.rules source.text := by
  intro h
  have hd := h (fun _ => none) [102] [97, 58, 120, 123, 125, 58, 121, 123, 125] [103] [112] _ _ _ _
    ⟨[], [], none⟩ _ _ _ ⟨14, rfl⟩ ⟨14, rfl⟩ (by decide) (by decide) ⟨14, rfl⟩ rfl
  exact absurd hd.functions (by decide)

end Rdpgen
