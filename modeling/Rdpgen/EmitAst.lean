import Rdpgen.EmitText
import Rdpgen.StrRuns

namespace Rdpgen

/-! ### The lines of the header -/

def enumerator (s : STR) : Emission := ⟨"  AST_%s,\n", [bufferArg (upcaseStr (copyStr s))]⟩

def typedefLine (s : STR) : Emission := ⟨"typedef struct _%s_ %s_t;\n", [bufferArg s, bufferArg s]⟩

def structHead (s : STR) : Emission := ⟨"struct _%s_ \x7b\n  Ast ast;\n", [bufferArg s]⟩

def memberLine (s : STR) : Emission := ⟨"  %s_t* m_%s;\n", [bufferArg s, bufferArg s]⟩

def structEnd : Emission := ⟨"\x7d;\n\n", []⟩

/-- The distinct names of `names` in the patterns of `r`, at their first occurrences. -/
def memberNames (names : List STR) (r : Rule) : List STR :=
  ((r.elems.map PatElem.str).filter names.contains).eraseDups

def typesText (lst : List STR) : List Emission :=
  ⟨"typedef enum \x7b\n", []⟩ :: (lst.map enumerator ++ [⟨"\x7d AstType;\n\n", []⟩])

def typedefsText (lst : List STR) : List Emission :=
  ⟨"typedef struct \x7b\n  AstType type;\n\x7d Ast;\n\n", []⟩ ::
    (lst.map typedefLine ++ [⟨"\n", []⟩])

def membersText (members : List STR) : List Emission :=
  if members = [] then [⟨"  TokenType type\n", []⟩] else members.map memberLine

def dataText (names : List STR) (r : Rule) : List Emission :=
  structHead r.name :: (membersText (memberNames names r) ++ [structEnd])

theorem emitAstTypes_writes (lst : List STR) : Writes (emitAstTypes lst) () (typesText lst) := by
  apply (writes_emit _ _).bind
  apply Writes.bind (.forEach (writes_lines enumerator _)) (writes_emit _ _)
  exact fun s _ => writes_emit _ _

theorem emitTypedefs_writes (lst : List STR) : Writes (emitTypedefs lst) () (typedefsText lst) := by
  apply (writes_emit _ _).bind
  apply Writes.bind (.forEach (writes_lines typedefLine _)) (writes_emit _ _)
  exact fun s _ => writes_emit _ _

/-! ### `emit_data` -/

def collectElem (names : List STR) (tmp : List STR) (pe : PatElem) : List STR :=
  if strInLst names (rawStr pe.str) && !strInLst tmp (rawStr pe.str) then tmp ++ [pe.str] else tmp

theorem dataElemBody_writes (state : Pstate) (tmp : List STR) (pe : PatElem) :
    Writes (dataElemBody state tmp pe) (collectElem state.nonTerminals tmp pe) [] := by
  unfold dataElemBody collectElem
  split
  · exact writes_pure _
  · exact writes_pure _

/-- The two loops of `emit_data` collect the names of a rule. -/
theorem collectElem_foldl {names : List STR} (hn : ∀ t ∈ names, IsText t) {es : List PatElem}
    (he : ∀ pe ∈ es, IsText pe.str) :
    es.foldl (collectElem names) [] = ((es.map PatElem.str).filter names.contains).eraseDups := by
  induction es using List.reverseRecOn with
  | nil => rfl
  | append_singleton es pe ih =>
    have hpe : IsText pe.str := he pe (by simp)
    have htmp := ih fun q hq => he q (List.mem_append_left _ hq)
    have hin : ∀ t ∈ ((es.map PatElem.str).filter names.contains).eraseDups, IsText t := by
      intro t ht
      rw [List.mem_eraseDups, List.mem_filter, List.contains_iff_mem] at ht
      exact hn t ht.2
    have hold := strInLst_iff hn hpe
    have hnew := strInLst_iff hin hpe
    rw [List.foldl_concat, htmp, collectElem, List.map_append, List.map_singleton,
      List.filter_append]
    by_cases hmem : pe.str ∈ names
    · by_cases hdup : pe.str ∈ (es.map PatElem.str).filter names.contains
      · rw [if_neg (by simp [hnew.mpr (List.mem_eraseDups.mpr hdup)])]
        simp [hmem, eraseDups_concat_of_mem hdup]
      · rw [if_pos (by simp [hold.mpr hmem, mt hnew.mp (mt List.mem_eraseDups.mp hdup)])]
        simp [hmem, eraseDups_concat_of_notMem hdup]
    · rw [if_neg (by simp [mt hold.mp hmem])]
      simp [hmem]

theorem emitData_writes {state : Pstate} {r : Rule} (hn : ∀ t ∈ state.nonTerminals, IsText t)
    (he : ∀ pe ∈ r.elems, IsText pe.str) :
    Writes (emitData state r) () (dataText state.nonTerminals r) := by
  have hcollect : Writes (Cursor.forEach r.patterns [] fun tmp p =>
      Cursor.forEach p.elems tmp (dataElemBody state)) (memberNames state.nonTerminals r) [] := by
    rw [memberNames, ← collectElem_foldl hn he, Rule.elems, List.foldl_flatMap]
    apply Writes.forEach
    apply writes_collect
    intro tmp p _
    exact .forEach (writes_collect _ tmp fun tmp pe _ => dataElemBody_writes state tmp pe)
  unfold emitData
  apply (writes_emit _ _).bind
  apply hcollect.bind
  unfold membersText
  simp only [List.length_eq_zero_iff]
  split
  · exact (writes_emit _ _).bind (writes_emit _ _)
  · apply Writes.bind (.forEach (writes_lines memberLine _)) (writes_emit _ _)
    exact fun s _ => writes_emit _ _

/-- The header for the name `ast` and the non-terminals `names`, up to the last struct. -/
def astLines (ast : STR) (names : List STR) (rules : List Rule) : List Emission :=
  let tmp := upcaseStr (copyStr ast)
  [⟨"// This file is generated: DO NOT EDIT\n", []⟩,
    ⟨"#ifndef _%s_H\n#define _%s_H\n\n", [bufferArg tmp, bufferArg tmp]⟩] ++
  typesText names ++ typedefsText names ++ rules.flatMap (dataText names)

def astText (ast : STR) (names : List STR) (rules : List Rule) : List Emission :=
  astLines ast names rules ++ [⟨"#endif /* _%s_H */\n\n", [bufferArg (upcaseStr (copyStr ast))]⟩]

theorem emitAst_wp {fopen : Bytes → Option String} {astName : STR} {s : Pstate} {o : Output}
    (hn : ∀ t ∈ s.nonTerminals, IsText t) (he : ∀ r ∈ s.rules, ∀ pe ∈ r.elems, IsText pe.str) :
    (emitAst fopen astName s).wp
      (fun _ o' => rawStr astName ≠ [] ∧
        o' = ⟨o.stderr, o.closed ++
          [⟨rawStr astName ++ [46, 104], astText astName s.nonTerminals s.rules⟩], none⟩)
      (fun e _ => e = .exit 1 ∧ Unwritable fopen astName [46, 104]) False o := by
  have hdata : Writes (emitDataStructures s) () (s.rules.flatMap (dataText s.nonTerminals)) :=
    .forEach (writes_each _ fun r hr => emitData_writes hn (he r hr))
  unfold emitAst astHeader
  simp only [headerName, Prog.wp_bind, wp_fileName]
  split
  · next h => exact ⟨trivial, .inl h⟩
  · next h =>
    refine openOutfile_wp (by decide) (fun hf _ => ⟨rfl, .inr hf⟩) fun _ => ?_
    simp only [wp_emit, (emitAstTypes_writes _).wp_iff, (emitTypedefs_writes _).wp_iff, hdata.wp_iff,
      wp_closeOutfile]
    refine ⟨h, ?_⟩
    simp [astText, astLines]

/-! ### What the header declares -/

/-- The lines behind the head of the struct of `name`, up to its end. -/
def structBody (name : STR) (text : List Emission) : List Emission :=
  ((text.dropWhile (· ≠ structHead name)).drop 1).takeWhile (· ≠ structEnd)

/-- The enumerators differ, every rule has one typedef and one struct, and the members of its
struct are the distinct non-terminals of its patterns. -/
structure DeclaresOnce (s : Pstate) (text : List Emission) : Prop where
  enumerators : (linesOf "  AST_%s,\n" text).Nodup
  typedefs : linesOf "typedef struct _%s_ %s_t;\n" text = (ruleNames s).map typedefLine
  structs : linesOf "struct _%s_ \x7b\n  Ast ast;\n" text = (ruleNames s).map structHead
  members : ∀ r ∈ s.rules, linesOf "  %s_t* m_%s;\n" (structBody r.name text) =
    (memberNames (ruleNames s) r).map memberLine

theorem enumerator_fmt (s : STR) : (enumerator s).fmt = "  AST_%s,\n" := rfl

theorem typedefLine_fmt (s : STR) : (typedefLine s).fmt = "typedef struct _%s_ %s_t;\n" := rfl

theorem structHead_fmt (s : STR) : (structHead s).fmt = "struct _%s_ \x7b\n  Ast ast;\n" := rfl

theorem memberLine_fmt (s : STR) : (memberLine s).fmt = "  %s_t* m_%s;\n" := rfl

section Parts

variable {ast : STR} {names : List STR} {rules : List Rule}

theorem membersText_members (members : List STR) :
    linesOf "  %s_t* m_%s;\n" (membersText members) = members.map memberLine := by
  unfold membersText
  split
  · next h => simp [h]
  · simp [linesOf_map memberLine_fmt]

/-- A struct holds neither enumerators nor typedefs, and one head. -/
theorem dataText_lines (r : Rule) : linesOf "  AST_%s,\n" (dataText names r) = [] ∧
    linesOf "typedef struct _%s_ %s_t;\n" (dataText names r) = [] ∧
    linesOf "struct _%s_ \x7b\n  Ast ast;\n" (dataText names r) = [structHead r.name] := by
  unfold dataText membersText
  split
  · simp [structHead_fmt, structEnd]
  · simp [structHead_fmt, structEnd, linesOf_map memberLine_fmt]

theorem astText_enumerators :
    linesOf "  AST_%s,\n" (astText ast names rules) = names.map enumerator := by
  simp [astText, astLines, typesText, typedefsText, dataText_lines, linesOf_map enumerator_fmt,
    linesOf_map typedefLine_fmt]

theorem astText_typedefs :
    linesOf "typedef struct _%s_ %s_t;\n" (astText ast names rules) = names.map typedefLine := by
  simp [astText, astLines, typesText, typedefsText, dataText_lines, linesOf_map enumerator_fmt,
    linesOf_map typedefLine_fmt]

theorem astText_structs : linesOf "struct _%s_ \x7b\n  Ast ast;\n" (astText ast names rules) =
    rules.map fun r => structHead r.name := by
  rw [List.map_eq_flatMap]
  simp [astText, astLines, typesText, typedefsText, dataText_lines, linesOf_map enumerator_fmt,
    linesOf_map typedefLine_fmt]

/-! A struct is read back from the text. -/

theorem structBody_append {name : STR} {front body back : List Emission}
    (hfront : structHead name ∉ front) (hbody : structEnd ∉ body) :
    structBody name (front ++ structHead name :: (body ++ structEnd :: back)) = body := by
  have hf : ∀ e ∈ front, decide (e ≠ structHead name) = true := by
    intro e he
    rw [decide_eq_true_iff]
    exact fun heq => hfront (heq ▸ he)
  have hb : ∀ e ∈ body, decide (e ≠ structEnd) = true := by
    intro e he
    rw [decide_eq_true_iff]
    exact fun heq => hbody (heq ▸ he)
  rw [structBody, List.dropWhile_append_of_pos hf, List.dropWhile_cons_of_neg (by simp),
    List.drop_one, List.tail_cons, List.takeWhile_append_of_pos hb,
    List.takeWhile_cons_of_neg (by simp), List.append_nil]

theorem structEnd_notMem_membersText (members : List STR) : structEnd ∉ membersText members := by
  unfold membersText
  split
  · simp [structEnd]
  · simp [structEnd, memberLine]

theorem structHead_inj {s t : STR} (hs : IsText s) (ht : IsText t) (h : structHead s = structHead t) :
    s = t := by
  have hraw : rawStr s = rawStr t := by simpa [structHead, bufferArg] using h
  exact hs.symm.trans (hraw.trans ht)

/-- The struct of a rule has the members that `emit_data` wrote for the rule. -/
theorem astText_structBody {r : Rule} (hd : (rules.map Rule.name).Nodup)
    (ht : ∀ q ∈ rules, IsText q.name) (hr : r ∈ rules) :
    structBody r.name (astText ast names rules) = membersText (memberNames names r) := by
  obtain ⟨as, bs, rfl⟩ := List.append_of_mem hr
  have hfront : structHead r.name ∉ astLines ast names as := by
    intro hmem
    have hline : structHead r.name ∈
        linesOf "struct _%s_ \x7b\n  Ast ast;\n" (astText ast names as) :=
      mem_linesOf.mpr ⟨List.mem_append_left _ hmem, structHead_fmt r.name⟩
    rw [astText_structs] at hline
    obtain ⟨q, hq, he⟩ := List.mem_map.mp hline
    have hname := structHead_inj (ht q (List.mem_append_left _ hq)) (ht r hr) he
    rw [List.map_append, List.map_cons] at hd
    exact List.disjoint_of_nodup_append hd (List.mem_map_of_mem hq) (hname ▸ List.mem_cons_self)
  have hsplit : astText ast names (as ++ r :: bs) = astLines ast names as ++
      structHead r.name :: (membersText (memberNames names r) ++ structEnd ::
        (bs.flatMap (dataText names) ++
          [⟨"#endif /* _%s_H */\n\n", [bufferArg (upcaseStr (copyStr ast))]⟩])) := by
    simp [astText, astLines, dataText]
  rw [hsplit]
  exact structBody_append hfront (structEnd_notMem_membersText _)

end Parts

/-! ### Names in upper case -/

/-- Two names that differ at most in the case of their letters. -/
def SameButCase (s t : STR) : Prop := s.map downcaseByte = t.map downcaseByte

instance (s t : STR) : Decidable (SameButCase s t) :=
  inferInstanceAs (Decidable (s.map downcaseByte = t.map downcaseByte))

theorem toNat_shiftByte (lo hi : Nat) (d : Int) (b : UInt8) : (shiftByte lo hi d b).toNat =
    if lo ≤ b.toNat ∧ b.toNat ≤ hi then (b.toNat + d).toNat % 256 else b.toNat := by
  unfold shiftByte
  split
  · rw [UInt8.toNat_ofNat']
  · rfl

theorem upcaseByte_eq_iff (b b' : UInt8) :
    upcaseByte b = upcaseByte b' ↔ downcaseByte b = downcaseByte b' := by
  have hb := b.toNat_lt
  have hb' := b'.toNat_lt
  unfold upcaseByte downcaseByte
  simp only [← UInt8.toNat_inj, toNat_shiftByte]
  split <;> split <;> split <;> split <;> omega

theorem map_eq_map_congr {α β γ : Type} {f : α → β} {g : α → γ} (h : ∀ a b, f a = f b ↔ g a = g b)
    (xs ys : List α) : xs.map f = ys.map f ↔ xs.map g = ys.map g := by
  induction xs generalizing ys with
  | nil => simp [eq_comm]
  | cons x xs ih =>
    cases ys with
    | nil => simp
    | cons y ys => simp [h, ih]

theorem rawStr_upcaseStr (s : STR) : rawStr (upcaseStr (copyStr s)) = (rawStr s).map upcaseByte := by
  have hbyte : (fun b => uchar (toupper (schar b))) = upcaseByte :=
    funext fun b => uchar_shiftChar (by decide) (by decide) (by decide) b
  have hnul : 0 ∉ (cString s).map upcaseByte :=
    zero_notMem_map (fun b hb => shiftByte_ne_zero (by decide) (by decide) hb) (zero_notMem_cString s)
  rw [rawStr, upcaseStr, copyStr, cString_cString, List.drop_length, List.append_nil, hbyte,
    cString_of_nulFree hnul, rawStr]

theorem enumerator_eq_iff {s t : STR} (hs : IsText s) (ht : IsText t) :
    enumerator s = enumerator t ↔ SameButCase s t := by
  have hraw : ∀ u : STR, IsText u → rawStr u = u := fun u hu => hu
  unfold enumerator bufferArg SameButCase
  rw [rawStr_upcaseStr, rawStr_upcaseStr, hraw s hs, hraw t ht, ← map_eq_map_congr upcaseByte_eq_iff]
  simp

theorem enumerators_nodup_iff {names : List STR} (h : ∀ t ∈ names, IsText t) :
    (names.map enumerator).Nodup ↔ names.Pairwise fun s t => ¬ SameButCase s t := by
  rw [List.Nodup, List.pairwise_map]
  apply List.Pairwise.iff_of_mem
  intro s t hs ht
  exact not_congr (enumerator_eq_iff (h s hs) (h t ht))

theorem astText_declaresOnce_iff {ast : STR} {s : Pstate} (hd : (ruleNames s).Nodup)
    (ht : ∀ t ∈ ruleNames s, IsText t) :
    DeclaresOnce s (astText ast (ruleNames s) s.rules) ↔
      (ruleNames s).Pairwise fun a b => ¬ SameButCase a b := by
  rw [← enumerators_nodup_iff ht]
  constructor
  · intro h
    have he := h.enumerators
    rw [astText_enumerators] at he
    exact he
  · intro he
    refine ⟨?_, astText_typedefs, ?_, ?_⟩
    · rw [astText_enumerators]
      exact he
    · rw [astText_structs, ruleNames, List.map_map]
      rfl
    · intro r hr
      rw [astText_structBody hd (fun q hq => ht _ (List.mem_map_of_mem hq)) hr, membersText_members]

/-- For a state as `pre_process` leaves it, of rules with distinct names, the header declares
every name once exactly if no two rule names are equal but for the case of their letters. -/
theorem emitAst_declaresOnce_iff {ι : Type} (fopen : Bytes → Option String) (astName : STR)
    {state s : Pstate} {w v : World ι} (o : Output) (hfresh : state.Fresh) (hpre : PreProcessed state w s v)
    (hd : (ruleNames state).Nodup) :
    (emitAst fopen astName s).wp
      (fun _ o' => ∃ text, o'.closed = o.closed ++ [⟨rawStr astName ++ [46, 104], text⟩] ∧
        (DeclaresOnce s text ↔ (ruleNames s).Pairwise fun a b => ¬ SameButCase a b))
      (fun e _ => e = .exit 1 ∧ Unwritable fopen astName [46, 104]) False o := by
  have hnames := hpre.ruleNames_eq
  have hN : s.nonTerminals = ruleNames s := by
    rw [hpre.nonTerminals, eraseDups_of_nodup hd, hnames]
  obtain ⟨ht, he⟩ := hpre.texts hfresh
  apply (emitAst_wp ht he).imp
  rintro _ _ ⟨-, rfl⟩
  refine ⟨_, rfl, ?_⟩
  rw [hN]
  exact astText_declaresOnce_iff (hnames ▸ hd) (hN ▸ ht)

/-- The file `a:b{}b:x{}`. -/
theorem emitAst_declaresOnce_rules :
    ∃ state s w v o text, (parseInput (fileSource [102]
        (.ok [97, 58, 98, 123, 125, 98, 58, 120, 123, 125]))).Runs (World.boot []) (.ok state w) ∧
      (preProcess state).Runs w (.ok s v) ∧
      (emitAst (fun _ => none) [103] s).Runs ⟨[], [], none⟩ (.ok () o) ∧
      o.closed = [⟨[103, 46, 104], text⟩] ∧ DeclaresOnce s text := by
  obtain ⟨state, w, hparse, s, v, hrun, hd, hcase⟩ : ∃ state w, (parseInput (fileSource [102]
      (.ok [97, 58, 98, 123, 125, 98, 58, 120, 123, 125]))).Runs (World.boot []) (.ok state w) ∧
      ∃ s v, (preProcess state).Runs w (.ok s v) ∧ (ruleNames state).Nodup ∧
        (ruleNames s).Pairwise fun a b => ¬ SameButCase a b :=
    ⟨_, _, ⟨14, rfl⟩, _, _, ⟨14, rfl⟩, by decide, by decide⟩
  have hfresh := (parseInput_fresh hparse).1
  have hpre := ((preProcess_wp hfresh).1 s v hrun).2
  have h := emitAst_declaresOnce_iff (fun _ => none) [103] ⟨[], [], none⟩ hfresh hpre hd
  obtain ⟨_, o, hemit, text, hclosed, hiff⟩ :=
    h.returns_of_not_stop fun _ _ he => absurd he.2 (by decide)
  exact ⟨state, s, w, v, o, text, hparse, hrun, hemit, hclosed, hiff.mpr hcase⟩

/-- The file `a:x{}A:x{}`: the two enumerators are `AST_A`. -/
theorem emitAst_same_enumerators :
    ¬ ∀ fopen fname bytes astName state s w v o o' text,
      (parseInput (fileSource fname (.ok bytes))).Runs (World.boot []) (.ok state w) →
      (preProcess state).Runs w (.ok s v) → (ruleNames state).Nodup →
      (emitAst fopen astName s).Runs o (.ok () o') → o'.closed = o.closed ++ [text] →
      DeclaresOnce s text.text := by
  intro h
  have hd := h (fun _ => none) [102] [97, 58, 120, 123, 125, 65, 58, 120, 123, 125] [103] _ _ _ _
    ⟨[], [], none⟩ _ _ ⟨14, rfl⟩ ⟨14, rfl⟩ (by decide) ⟨14, rfl⟩ rfl
  exact absurd hd.enumerators (by decide)

end Rdpgen
