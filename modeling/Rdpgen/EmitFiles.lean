import Rdpgen.EmitAst
import Rdpgen.EmitParser

namespace Rdpgen

/-! ### The three files -/

theorem PreProcessed.terminals_text {ι : Type} {state s : Pstate} {w v : World ι}
    (h : PreProcessed state w s v) (hf : state.Fresh) : ∀ t ∈ s.terminals, IsText t := by
  intro t ht
  rw [h.terminals, mem_firstTerms, ← h.elemNames_eq] at ht
  obtain ⟨pe, hpe, rfl⟩ := List.mem_map.mp ht.1
  obtain ⟨r, hr, hin⟩ := List.mem_flatMap.mp hpe
  exact (h.texts hf).2 r hr pe hin

/-- The files of `emit_ast` and `emit_parser`. -/
def emittedFiles (astName parserName : STR) (s : Pstate) (r : Rule) : List OutFile :=
  [⟨rawStr astName ++ [46, 104], astText astName s.nonTerminals s.rules⟩,
    ⟨rawStr parserName ++ [46, 104], headerText astName parserName s.terminals⟩,
    ⟨rawStr parserName ++ [46, 99], sourceText parserName r s.rules⟩]

/-- One of the three files cannot be written. -/
def SomeUnwritable (fopen : Bytes → Option String) (astName parserName : STR) : Prop :=
  Unwritable fopen astName [46, 104] ∨ Unwritable fopen parserName [46, 104] ∨
    Unwritable fopen parserName [46, 99]

instance (fopen : Bytes → Option String) (astName parserName : STR) :
    Decidable (SomeUnwritable fopen astName parserName) :=
  inferInstanceAs (Decidable (_ ∨ _))

theorem emitFiles_wp {fopen : Bytes → Option String} {astName parserName : STR} {s : Pstate} {r : Rule}
    {rs : List Rule} {o : Output}
    (hn : ∀ t ∈ s.nonTerminals, IsText t) (he : ∀ r ∈ s.rules, ∀ pe ∈ r.elems, IsText pe.str)
    (hrules : s.rules = r :: rs) :
    (do emitAst fopen astName s; emitParser fopen astName parserName s : Emit Unit).wp
      (fun _ o' => o'.closed = o.closed ++ emittedFiles astName parserName s r)
      (fun e _ => e = .exit 1 ∧ SomeUnwritable fopen astName parserName) False o := by
  unfold emitParser
  simp only [Prog.wp_bind]
  refine (emitAst_wp hn he).mono ?_ (fun e _ h => ⟨h.1, .inl h.2⟩) id
  intro _ o₁ hast
  obtain ⟨ha, rfl⟩ := hast
  have hunwritable (h : Unwritable fopen parserName [46, 104] ∨ rawStr astName = []) :
      SomeUnwritable fopen astName parserName := by
    rcases h with hp | hn
    · exact .inr (.inl hp)
    · exact absurd hn ha
  refine emitHeader_text.mono ?_ (fun e _ h => ⟨h.1, hunwritable h.2⟩) id
  intro _ o₂ hheader
  obtain ⟨⟨-, hp⟩, rfl⟩ := hheader
  refine (emitSource_wp hrules hp).mono ?_ (fun _ _ h => ⟨h.1, .inr (.inr h.2)⟩) id
  intro _ o₃ hsource
  subst hsource
  simp [emittedFiles, hrules]

/-! ### Names are declared before they are used -/

/-- In front of every line `use t` of the text there is the line `decl t`. -/
def DeclaredFirst (decl use : STR → Emission) (text : List Emission) : Prop :=
  ∀ before t after, text = before ++ use t :: after → decl t ∈ before

theorem declaredFirst_append {decl use : STR → Emission} {xs ys : List Emission}
    (front : ∀ t, use t ∉ xs) (back : ∀ t, use t ∈ ys → decl t ∈ xs) :
    DeclaredFirst decl use (xs ++ ys) := by
  intro before t after h
  rcases List.append_eq_append_iff.mp h with ⟨zs, rfl, hys⟩ | ⟨zs, rfl, hzs⟩
  · exact List.mem_append_left zs (back t (hys ▸ by simp))
  · cases zs with
    | nil =>
      rw [List.nil_append] at hzs
      have hdecl := back t (hzs ▸ List.mem_cons_self)
      simpa using hdecl
    | cons z zs =>
      obtain ⟨rfl, -⟩ := List.cons.inj hzs
      exact absurd (by simp) (front t)

def protoOf (name : STR) : Emission := ⟨"Ast* %s();\n", [bufferArg name]⟩

def functionOf (name : STR) : Emission := ⟨"static void* %s() \x7b\n", [bufferArg name]⟩

def callOf (name : STR) : Emission := ⟨"  return %s();\n", [bufferArg name]⟩

section

variable {ast parser : STR} {names : List STR} {r : Rule} {rules : List Rule}

theorem membersText_member {t : STR} {members : List STR} (h : memberLine t ∈ membersText members) :
    ∃ u ∈ members, bufferArg t = bufferArg u := by
  unfold membersText at h
  split at h
  · simp [memberLine] at h
  · obtain ⟨u, hu, he⟩ := List.mem_map.mp h
    exact ⟨u, hu, by simpa [memberLine, eq_comm] using he⟩

theorem typedefLine_congr {t u : STR} (h : bufferArg t = bufferArg u) : typedefLine t = typedefLine u := by
  rw [typedefLine, typedefLine, h]

theorem typedef_mem {t : STR} (ht : t ∈ names) : typedefLine t ∈ typedefsText names :=
  List.mem_cons_of_mem _ (List.mem_append_left _ (List.mem_map_of_mem ht))

/-- The header up to the structs. -/
def astFront (ast : STR) (names : List STR) : List Emission :=
  let tmp := upcaseStr (copyStr ast)
  [⟨"// This file is generated: DO NOT EDIT\n", []⟩,
    ⟨"#ifndef _%s_H\n#define _%s_H\n\n", [bufferArg tmp, bufferArg tmp]⟩] ++
  typesText names ++ typedefsText names

theorem astText_front : ∃ back, astText ast names rules =
    astFront ast names ++ (rules.flatMap (dataText names) ++ back) ∧
      ∀ t, memberLine t ∉ back ∧ structHead t ∉ back := by
  refine ⟨[⟨"#endif /* _%s_H */\n\n", [bufferArg (upcaseStr (copyStr ast))]⟩], ?_, ?_⟩
  · simp [astText, astLines, astFront]
  · simp [memberLine, structHead]

theorem typedef_mem_front {t : STR} (ht : t ∈ names) : typedefLine t ∈ astFront ast names :=
  List.mem_append_right _ (typedef_mem ht)

/-- The members of the structs have types that are declared in front of them. -/
theorem astText_members : DeclaredFirst typedefLine memberLine (astText ast names rules) := by
  obtain ⟨back, htext, hback⟩ := @astText_front ast names rules
  rw [htext]
  apply declaredFirst_append
  · simp [astFront, typesText, typedefsText, memberLine, enumerator, typedefLine]
  · intro t ht
    rcases List.mem_append.mp ht with ht | ht
    · obtain ⟨r, hr, hmem⟩ := List.mem_flatMap.mp ht
      have hline : memberLine t ∈ membersText (memberNames names r) := by
        simpa [dataText, memberLine, structHead, structEnd] using hmem
      obtain ⟨u, hu, he⟩ := membersText_member hline
      rw [memberNames, List.mem_eraseDups, List.mem_filter, List.contains_iff_mem] at hu
      exact typedefLine_congr he ▸ typedef_mem_front hu.2
    · exact absurd ht (hback t).1

/-- So have the structs themselves. -/
theorem astText_heads (h : ∀ r ∈ rules, r.name ∈ names) :
    DeclaredFirst typedefLine structHead (astText ast names rules) := by
  obtain ⟨back, htext, hback⟩ := @astText_front ast names rules
  rw [htext]
  apply declaredFirst_append
  · simp [astFront, typesText, typedefsText, structHead, enumerator, typedefLine]
  · intro t ht
    rcases List.mem_append.mp ht with ht | ht
    · obtain ⟨r, hr, hmem⟩ := List.mem_flatMap.mp ht
      have he : bufferArg t = bufferArg r.name := by
        rcases List.mem_cons.mp hmem with he | hrest
        · simpa [structHead] using he
        · refine absurd hrest ?_
          unfold membersText
          split
          · simp [structHead, structEnd]
          · simp [structHead, structEnd, memberLine]
      exact typedefLine_congr he ▸ typedef_mem_front (h r hr)
    · exact absurd ht (hback t).2

/-! The source file: the prototypes stand in front of the functions. -/

theorem sourceText_front : ∃ back, sourceText parser r rules =
    (⟨"// This file is generated: DO NOT EDIT\n", []⟩ :: (includesText parser ++ protosText rules)) ++
      (⟨"// function definitions\n", []⟩ :: (rules.flatMap singleRuleText ++ back)) ∧
      back = ⟨"// external interface\n", []⟩ :: entryText r := by
  refine ⟨_, ?_, rfl⟩
  simp [sourceText, rulesText]

theorem proto_mem_front {q : Rule} (hq : q ∈ rules) : protoOf q.name ∈
    ⟨"// This file is generated: DO NOT EDIT\n", []⟩ :: (includesText parser ++ protosText rules) := by
  refine List.mem_cons_of_mem _ (List.mem_append_right _ (List.mem_cons_of_mem _ ?_))
  exact List.mem_append_left _ (List.mem_map_of_mem (f := protoLine) hq)

theorem protoOf_congr {t u : STR} (h : bufferArg t = bufferArg u) : protoOf t = protoOf u := by
  rw [protoOf, protoOf, h]

theorem sourceText_functions_declared :
    DeclaredFirst protoOf functionOf (sourceText parser r rules) := by
  obtain ⟨back, htext, rfl⟩ := @sourceText_front parser r rules
  rw [htext]
  apply declaredFirst_append
  · simp [includesText, protosText, functionOf, protoLine]
  · intro t ht
    have hmem : functionOf t ∈ rules.flatMap singleRuleText := by
      simpa [functionOf, entryText] using ht
    obtain ⟨q, hq, hmem⟩ := List.mem_flatMap.mp hmem
    have he : bufferArg t = bufferArg q.name := by
      obtain ⟨pat, -, hmem⟩ : ∃ pat ∈ q.patterns, functionOf t ∈ functionText q pat := by
        simpa [singleRuleText, functionOf] using hmem
      simpa [functionText, gutsText, functionOf, functionHead, elemText] using hmem
    exact protoOf_congr he ▸ proto_mem_front hq

theorem sourceText_call_declared (hr : r ∈ rules) :
    DeclaredFirst protoOf callOf (sourceText parser r rules) := by
  obtain ⟨back, htext, rfl⟩ := @sourceText_front parser r rules
  rw [htext]
  apply declaredFirst_append
  · simp [includesText, protosText, callOf, protoLine]
  · intro t ht
    have he : bufferArg t = bufferArg r.name := by
      simpa [callOf, entryText, singleRuleText, functionText, gutsText, functionHead, elemText] using ht
    exact protoOf_congr he ▸ proto_mem_front hr

/-! ### The included files -/

/-- The two formats of the lines that include a generated file. -/
def IsInclude (e : Emission) : Prop := e.fmt = "#include \"%s\"\n\n" ∨ e.fmt = "#include \"%s\"\n"

/-- A file includes the names of files that were written before it. -/
def IncludesEarlier (files : List OutFile) : Prop :=
  ∀ before f after, files = before ++ f :: after →
    ∀ e ∈ f.text, IsInclude e → ∃ g ∈ before, e.args = [.str g.name]

theorem includesEarlier_nil : IncludesEarlier [] := by
  intro before f after hsplit
  exact absurd hsplit.symm (by simp)

theorem includesEarlier_snoc {files : List OutFile} {f : OutFile} (h : IncludesEarlier files)
    (hf : ∀ e ∈ f.text, IsInclude e → ∃ g ∈ files, e.args = [.str g.name]) :
    IncludesEarlier (files ++ [f]) := by
  intro before g after hsplit
  rcases List.eq_nil_or_concat after with rfl | ⟨after, g', rfl⟩
  · obtain ⟨rfl, hg⟩ := List.append_inj' hsplit rfl
    obtain ⟨rfl, -⟩ := List.cons.inj hg
    exact hf
  · rw [List.concat_eq_append, ← List.cons_append, ← List.append_assoc] at hsplit
    exact h before g after (List.append_inj' hsplit rfl).1

/-- The name of a header has no zero in it. -/
theorem bufferArg_header (s : STR) : bufferArg (rawStr s ++ [46, 104]) = .str (rawStr s ++ [46, 104]) := by
  rw [bufferArg, rawStr, cString_of_nulFree]
  simp [rawStr, zero_notMem_cString]

theorem terminalLine_fmt (l : STR × UInt32) : (terminalLine l).fmt = "  TOK_%s = %d,\n" := rfl

theorem dataText_includes {e : Emission} (hfmt : IsInclude e) (q : Rule) :
    linesOf e.fmt (dataText names q) = [] := by
  unfold dataText membersText
  rcases hfmt with hfmt | hfmt <;> rw [hfmt] <;> split <;>
    simp [structHead, structEnd, linesOf_map memberLine_fmt]

theorem astText_includes {e : Emission} (he : e ∈ astText ast names rules) : ¬ IsInclude e := by
  intro hfmt
  have hline := mem_linesOf.mpr ⟨he, rfl⟩
  have hdata : ∀ q, linesOf e.fmt (dataText names q) = [] := dataText_includes hfmt
  rcases hfmt with hfmt | hfmt
  all_goals
    simp only [hfmt] at hline hdata
    simp [astText, astLines, typesText, typedefsText, hdata, linesOf_map enumerator_fmt,
      linesOf_map typedefLine_fmt] at hline

theorem headerText_includes {ss : List STR} {e : Emission} (he : e ∈ headerText ast parser ss)
    (hfmt : IsInclude e) : e.args = [.str (rawStr ast ++ [46, 104])] := by
  have hline := mem_linesOf.mpr ⟨he, rfl⟩
  rcases hfmt with hfmt | hfmt
  · rw [hfmt] at hline
    have heq : e = ⟨"#include \"%s\"\n\n", [bufferArg (rawStr ast ++ [46, 104])]⟩ := by
      simpa [headerText, linesOf_map terminalLine_fmt] using hline
    rw [heq, bufferArg_header]
  · rw [hfmt] at hline
    simp [headerText, linesOf_map terminalLine_fmt] at hline

theorem rulesText_includes {e : Emission} (hfmt : IsInclude e) : linesOf e.fmt (rulesText rules) = [] := by
  rcases hfmt with hfmt | hfmt <;> rw [hfmt] <;>
    simp [rulesText, protosText, singleRuleText, functionText, gutsText, functionHead,
      linesOf_map protoLine_fmt, linesOf_map elemText_fmt]

theorem sourceText_includes {e : Emission} (he : e ∈ sourceText parser r rules) (hfmt : IsInclude e) :
    e.args = [.str (rawStr parser ++ [46, 104])] := by
  have hline := mem_linesOf.mpr ⟨he, rfl⟩
  have hrules : linesOf e.fmt (rulesText rules) = [] := rulesText_includes hfmt
  rcases hfmt with hfmt | hfmt
  · simp only [hfmt] at hline hrules
    simp [sourceText, includesText, entryText, hrules] at hline
  · simp only [hfmt] at hline hrules
    have heq : e = ⟨"#include \"%s\"\n", [bufferArg (rawStr parser ++ [46, 104])]⟩ := by
      simpa [sourceText, includesText, entryText, hrules] using hline
    rw [heq, bufferArg_header]

theorem emittedFiles_include (s : Pstate) : IncludesEarlier (emittedFiles ast parser s r) := by
  have hsplit : emittedFiles ast parser s r =
      (([] ++ [⟨rawStr ast ++ [46, 104], astText ast s.nonTerminals s.rules⟩]) ++
        [⟨rawStr parser ++ [46, 104], headerText ast parser s.terminals⟩]) ++
        [⟨rawStr parser ++ [46, 99], sourceText parser r s.rules⟩] := rfl
  rw [hsplit]
  apply includesEarlier_snoc
  · apply includesEarlier_snoc
    · exact includesEarlier_snoc includesEarlier_nil fun e he hfmt => absurd hfmt (astText_includes he)
    · exact fun e he hfmt => ⟨_, List.mem_cons_self, headerText_includes he hfmt⟩
  · exact fun e he hfmt => ⟨_, List.mem_append_right _ List.mem_cons_self, sourceText_includes he hfmt⟩

theorem emittedFiles_names (s : Pstate) :
    ((emittedFiles ast parser s r).map OutFile.name).Nodup ↔ rawStr ast ≠ rawStr parser := by
  have hlast : rawStr ast ++ [46, 104] ≠ rawStr parser ++ [46, 99] := by
    intro h
    have hext := (List.append_inj' h rfl).2
    exact absurd hext (by decide)
  simp [emittedFiles, hlast]

end

section

variable {ι : Type} {state s : Pstate} {w v : World ι}

theorem PreProcessed.rules_cons (h : PreProcessed state w s v) (hne : state.rules ≠ []) :
    ∃ r rs, s.rules = r :: rs := by
  apply List.exists_cons_of_ne_nil
  intro hnil
  have hnames := h.ruleNames_eq
  rw [ruleNames, hnil, List.map_nil, eq_comm, ruleNames, List.map_eq_nil_iff] at hnames
  exact hne hnames

theorem PreProcessed.name_mem (h : PreProcessed state w s v) {r : Rule} (hr : r ∈ s.rules) :
    r.name ∈ s.nonTerminals := by
  rw [h.nonTerminals, List.mem_eraseDups, ← h.ruleNames_eq]
  exact List.mem_map_of_mem hr

end

theorem headerText_terminals (ast parser : STR) (ss : List STR) :
    linesOf "  TOK_%s = %d,\n" (headerText ast parser ss) = (numbered 275 ss).map terminalLine := by
  simp [headerText, linesOf_map terminalLine_fmt]

/-- The lines of the terminals differ also where their numbers do not. -/
theorem terminalLines_nodup (count : UInt32) {ss : List STR} (hd : ss.Nodup) (ht : ∀ t ∈ ss, IsText t) :
    ((numbered count ss).map terminalLine).Nodup := by
  have hlines : (numbered count ss).Nodup := by
    apply List.Nodup.of_map Prod.fst
    rw [numbered_fst]
    exact hd
  have htext : ∀ l ∈ numbered count ss, IsText l.1 := by
    intro l hl
    have hmem := List.mem_map_of_mem (f := Prod.fst) hl
    rw [numbered_fst] at hmem
    exact ht _ hmem
  apply hlines.map_on
  intro l hl l' hl' heq
  obtain ⟨hraw, hnum⟩ : rawStr l.1 = rawStr l'.1 ∧ l.2 = l'.2 := by
    simpa [terminalLine, bufferArg] using heq
  have hname : l.1 = l'.1 := (htext l hl).symm.trans (hraw.trans (htext l' hl'))
  exact Prod.ext hname hnum

end Rdpgen
