import Rdpgen.FileGrammar

namespace Rdpgen

/-! ### Numbers -/

def digit (n : Nat) : UInt8 := UInt8.ofNat (48 + n % 10)

/-- The decimal digits of a number. -/
def decimal (n : Nat) : Bytes := if n < 10 then [digit n] else decimal (n / 10) ++ [digit n]
termination_by n
decreasing_by omega

theorem chr_digit (n : Nat) : chr (digit n) = 48 + n % 10 := by
  have hlt : 48 + n % 10 < 256 := by omega
  simp only [chr, digit, UInt8.toNat_ofNat', Nat.mod_eq_of_lt hlt]
  push_cast
  rfl

theorem isDigit_digit (n : Nat) : isDigit (chr (digit n)) := by
  rw [chr_digit]
  simp only [isDigit, Bool.and_eq_true, decide_eq_true_eq]
  omega

theorem decimal_ne_nil (n : Nat) : decimal n ≠ [] := by
  rw [decimal]
  split <;> simp

theorem decimal_digits (n : Nat) : ∀ b ∈ decimal n, isDigit (chr b) := by
  fun_induction decimal n with
  | case1 n _ => simpa using isDigit_digit n
  | case2 n _ ih =>
    intro b hb
    rcases List.mem_append.mp hb with hb | hb
    · exact ih b hb
    · rw [List.mem_singleton.mp hb]
      exact isDigit_digit n

theorem decimal_value (n : Nat) :
    (decimal n).foldl (fun (m : Int) b => m * 10 + (chr b - 48)) 0 = n := by
  fun_induction decimal n with
  | case1 n hn =>
    simp only [List.foldl_cons, List.foldl_nil, chr_digit]
    omega
  | case2 n _ ih =>
    rw [List.foldl_append, ih]
    simp only [List.foldl_cons, List.foldl_nil, chr_digit]
    omega

theorem strtol_digits {s : Bytes} (hs : s ≠ []) (h : ∀ b ∈ s, isDigit (chr b)) :
    strtol s = max (-2 ^ 63) (min (2 ^ 63 - 1) (s.foldl (fun m b => m * 10 + (chr b - 48)) 0)) := by
  obtain ⟨b, v, rfl⟩ := List.exists_cons_of_ne_nil hs
  have hb := h b List.mem_cons_self
  have hspace : isSpace (chr b) = false := (symbol1_starts (isSymbol1_of_isDigit hb)).1
  have hsign (c : UInt8) (hc : isDigit (chr c) = false) : b ≠ c := fun he => by simp [← he, hb] at hc
  have hminus := hsign (byte '-') rfl
  have hplus := hsign (byte '+') rfl
  have htake : (b :: v).takeWhile (fun b => isDigit (chr b)) = b :: v :=
    List.takeWhile_eq_self_iff.mpr h
  simp only [strtol, List.dropWhile_cons, hspace, List.head?_cons, Option.some.injEq, hminus, hplus,
    or_self, if_false, Bool.false_eq_true, htake]

theorem strtol_decimal {n : Nat} (h : n < 2 ^ 63) : strtol (decimal n) = n := by
  rw [strtol_digits (decimal_ne_nil n) (decimal_digits n), decimal_value]
  omega

/-! ### Braces -/

/-- The number of open braces behind a text inside of `depth` open ones; `none` if it closes more
than were opened or opens more than `get_block` can count. -/
def openBraces (depth : Nat) : Bytes → Option Nat
  | [] => some depth
  | b :: u =>
    if b = byte '{' then if depth + 2 < 2 ^ 31 then openBraces (depth + 1) u else none
    else if b = byte '}' then if depth = 0 then none else openBraces (depth - 1) u
    else openBraces depth u

theorem balanced_iff {depth : Nat} {u : Bytes} : Balanced depth u ↔ openBraces depth u = some 0 := by
  induction u generalizing depth with
  | nil => simp [Balanced, openBraces]
  | cons b u ih =>
    rw [Balanced, openBraces]
    split
    · rw [ih]
      by_cases hd : depth + 2 < 2 ^ 31
      · simp only [hd, true_and, if_true]
      · simp only [hd, false_and, if_false, reduceCtorEq]
    split
    · rw [ih]
      by_cases hd : depth = 0
      · simp [hd]
      · simp [hd, Nat.pos_of_ne_zero hd]
    · exact ih

theorem openBraces_append (depth : Nat) (u v : Bytes) :
    openBraces depth (u ++ v) = (openBraces depth u).bind fun d => openBraces d v := by
  induction u generalizing depth with
  | nil => rfl
  | cons b u ih =>
    simp only [List.cons_append, openBraces]
    split
    · split
      · exact ih _
      · rfl
    split
    · split
      · rfl
      · exact ih _
    · exact ih _

theorem openBraces_close (k : Nat) : openBraces k (List.replicate k (byte '}')) = some 0 := by
  induction k with
  | zero => rfl
  | succ k ih =>
    rw [List.replicate_succ, openBraces, if_neg (by decide), if_pos rfl, if_neg (by omega)]
    exact ih

/-! ### The states that a grammar file can describe -/

def IsName (s : STR) : Prop := ∃ b v, s = b :: v ∧ isSymbol (chr b) ∧ ∀ c ∈ v, isSymbol1 (chr c)

/-- What stands behind a quote, up to the next one or to a zero byte. -/
structure IsQuoted (s : STR) : Prop where
  text : IsText s
  quote : byte '"' ∉ s
  low : ∀ b ∈ s.tail, b < 0x80

/-- The text of a block, up to its end or to a zero byte. -/
structure IsCode (s : STR) : Prop where
  text : IsText s
  braces : ∃ depth, openBraces 0 s = some depth

structure Pattern.Parsed (p : Pattern) : Prop where
  elems : ∀ pe ∈ p.elems, IsName pe.str ∧ pe.isTerminal = false
  code : ∃ c, p.code = some c ∧ IsCode c

structure Rule.Parsed (r : Rule) : Prop where
  name : IsName r.name
  flags : r.isRecursive = false ∧ r.hasNonterms = false
  nonempty : r.patterns ≠ []
  patterns : ∀ p ∈ r.patterns, p.Parsed

structure Pstate.Parsed (state : Pstate) : Prop where
  finished : state.finished = false
  verbo : -2 ^ 31 ≤ state.verbo ∧ state.verbo < 2 ^ 31
  name : IsQuoted state.name
  outputPrefix : IsQuoted state.outputPrefix
  code : ∀ c ∈ state.code, IsCode c
  rules : ∀ r ∈ state.rules, r.Parsed
  terminals : state.terminals = []
  nonTerminals : state.nonTerminals = []

def Item.Parsed : Item → Prop
  | rule n patterns => IsName n ∧ patterns ≠ [] ∧ ∀ p ∈ patterns, p.Parsed
  | verbosity _ => True
  | name text => IsQuoted text
  | outputPrefix text => IsQuoted text
  | code block => IsCode block

theorem IsName.copyStr {s : STR} (h : IsName s) : copyStr s = s := by
  obtain ⟨b, v, rfl, hb, hv⟩ := h
  apply cString_of_nulFree
  intro h0
  rcases List.mem_cons.mp h0 with h0 | h0
  · exact absurd (h0 ▸ hb) (by decide)
  · exact absurd (hv 0 h0) (by decide)

theorem isName_of_writable {t : Tok} (ht : t.type = .SYMBOL) (h : t.Writable) :
    IsName (copyStr t.str) := by
  have hn : IsName t.str := by simpa [Tok.Writable, ht, IsName] using h
  rwa [hn.copyStr]

theorem isQuoted_of_writable {t : Tok} (ht : t.type = .STRG) (h : t.Writable) :
    IsQuoted (copyStr t.str) := by
  obtain ⟨hq, hlow⟩ : byte '"' ∉ t.str ∧ ∀ b ∈ t.str.tail, b < 0x80 := by
    simpa [Tok.Writable, ht] using h
  obtain ⟨v, hv⟩ : copyStr t.str <+: t.str := List.takeWhile_prefix _
  rw [← hv] at hq hlow
  refine ⟨isText_copyStr _, fun hmem => hq (List.mem_append_left v hmem), fun b hb => hlow b ?_⟩
  cases hc : copyStr t.str with
  | nil => simp [hc] at hb
  | cons c s =>
    rw [hc] at hb
    exact List.mem_append_left v hb

theorem isCode_of_writable {t : Tok} (ht : t.type = .BLOCK) (h : t.Writable) :
    IsCode (copyStr t.str) := by
  have hb : Balanced 0 t.str := by simpa [Tok.Writable, ht] using h
  refine ⟨isText_copyStr _, ?_⟩
  obtain ⟨v, hv⟩ : copyStr t.str <+: t.str := List.takeWhile_prefix _
  rw [balanced_iff, ← hv, openBraces_append, Option.bind_eq_some_iff] at hb
  obtain ⟨depth, hd, -⟩ := hb
  exact ⟨depth, hd⟩

theorem IsPattern.parsed {ts : List Tok} {p : Pattern} (h : IsPattern ts p)
    (hw : ∀ t ∈ ts, t.Writable) : p.Parsed := by
  obtain ⟨colon, symbols, block, -, hsym, hblock⟩ := h
  refine ⟨?_, _, rfl, isCode_of_writable hblock (hw block (by simp))⟩
  intro pe hpe
  obtain ⟨t, ht, rfl⟩ := List.mem_map.mp hpe
  exact ⟨isName_of_writable (hsym t ht) (hw t (by simp [ht])), rfl⟩

theorem IsItem.parsed {ts : List Tok} {item : Item} (h : IsItem ts item)
    (hw : ∀ t ∈ ts, t.Writable) : item.Parsed := by
  cases h with
  | rule name tss patterns hn hne hf =>
    refine ⟨isName_of_writable hn (hw name (by simp)), hne, ?_⟩
    intro p hp
    obtain ⟨i, hi, rfl⟩ := List.mem_iff_getElem.mp hp
    have hi' : i < tss.length := hf.length_eq ▸ hi
    apply IsPattern.parsed (List.Forall₂.get hf hi' hi)
    intro t ht
    exact hw t (List.mem_cons_of_mem _ (List.mem_flatten.mpr ⟨_, List.get_mem _ _, ht⟩))
  | verbosity d v hd hv => trivial
  | name d v hd hv => exact isQuoted_of_writable hv (hw v (by simp))
  | outputPrefix d v hd hv => exact isQuoted_of_writable hv (hw v (by simp))
  | code d v hd hv => exact isCode_of_writable hv (hw v (by simp))

theorem IsFile.parsed {ts : List Tok} {items : List Item} (h : IsFile ts items)
    (hw : ∀ t ∈ ts, t.Writable) : ∀ item ∈ items, item.Parsed := by
  induction h with
  | nil => simp
  | cons hi _ ih =>
    rw [List.forall_mem_append] at hw
    exact List.forall_mem_cons.mpr ⟨hi.parsed hw.1, ih hw.2⟩

theorem toInt_range (n : Int) : -2 ^ 31 ≤ toInt n ∧ toInt n < 2 ^ 31 := by
  unfold toInt
  rw [Int.bmod_def]
  omega

theorem Item.Parsed.store {item : Item} {state : Pstate} (h : item.Parsed) (hs : state.Parsed) :
    (item.store state).Parsed := by
  cases item with
  | rule n patterns =>
    obtain ⟨hn, hne, hp⟩ := h
    refine { hs with rules := ?_ }
    intro r hr
    rcases List.mem_append.mp hr with hr | hr
    · exact hs.rules r hr
    · rw [List.mem_singleton.mp hr]
      exact ⟨hn, ⟨rfl, rfl⟩, hne, hp⟩
  | verbosity number => exact { hs with verbo := toInt_range _ }
  | name text => exact { hs with name := h }
  | outputPrefix text => exact { hs with outputPrefix := h }
  | code block =>
    refine { hs with code := ?_ }
    intro c hc
    rcases List.mem_append.mp hc with hc | hc
    · exact hs.code c hc
    · rw [List.mem_singleton.mp hc]
      exact h

theorem stateOf_parsed {items : List Item} (h : ∀ item ∈ items, item.Parsed) :
    (stateOf items).Parsed := by
  have empty : IsQuoted [] := ⟨rfl, by simp, by simp⟩
  induction items using List.reverseRecOn with
  | nil => exact ⟨rfl, by decide, empty, empty, by simp [stateOf], by simp [stateOf], rfl, rfl⟩
  | append_singleton items item ih =>
    rw [stateOf_append]
    exact (h item (by simp)).store (ih fun i hi => h i (by simp [hi]))

theorem Written.writable {u : Bytes} {ts : List Tok} (h : Written u ts) : ∀ t ∈ ts, t.Writable := by
  induction h with
  | done _ _ => simp
  | cons _ hw _ _ ih => exact List.forall_mem_cons.mpr ⟨hw, ih⟩

/-! ### Writing a state into a file -/

/-- A block that is read as `c`: what is open in `c` is closed behind a zero byte. -/
def closedBlock (c : STR) : Tok :=
  match openBraces 0 c with
  | some (depth + 1) => ⟨.BLOCK, c ++ 0 :: List.replicate (depth + 1) (byte '}')⟩
  | _ => ⟨.BLOCK, c⟩

def Pattern.toks (p : Pattern) : List Tok :=
  ⟨.COLON, []⟩ :: (p.elems.map (fun pe => ⟨.SYMBOL, pe.str⟩) ++ [closedBlock (p.code.getD [])])

def Rule.toks (r : Rule) : List Tok := ⟨.SYMBOL, r.name⟩ :: (r.patterns.map Pattern.toks).flatten

def codeToks (c : STR) : List Tok := [⟨.CODE, directiveCode⟩, closedBlock c]

/-- The digits of the `unsigned` with the same bits. -/
def verboDigits (verbo : Int) : Bytes := decimal (verbo % 2 ^ 32).toNat

def Pstate.toks (state : Pstate) : List Tok :=
  [⟨.VERBOSITY, directiveVerbosity⟩, ⟨.NUMBER, verboDigits state.verbo⟩] ++
  ([⟨.NAME, directiveName⟩, ⟨.STRG, state.name⟩] ++
  ([⟨.PREFIX, directivePrefix⟩, ⟨.STRG, state.outputPrefix⟩] ++
  (state.code.flatMap codeToks ++ state.rules.flatMap Rule.toks)))

def Pstate.items (state : Pstate) : List Item :=
  .verbosity (verboDigits state.verbo) :: .name state.name :: .outputPrefix state.outputPrefix ::
    (state.code.map .code ++ state.rules.map fun r => .rule r.name r.patterns)

/-- One blank behind each token. -/
def writeToks (ts : List Tok) : Bytes := ts.flatMap fun t => t.bytes ++ [32]

theorem closedBlock_type (c : STR) : (closedBlock c).type = .BLOCK := by
  unfold closedBlock
  split <;> rfl

theorem IsCode.read {c : STR} (h : IsCode c) : copyStr (closedBlock c).str = c := by
  have hc : 0 ∉ c := h.text ▸ zero_notMem_cString c
  unfold closedBlock
  split
  · exact cString_append_zero _ hc
  · exact h.text

theorem IsCode.writable {c : STR} (h : IsCode c) : (closedBlock c).Writable := by
  obtain ⟨depth, hd⟩ := h.braces
  unfold closedBlock
  split
  · next k hk =>
    have hz : openBraces (k + 1) (0 :: List.replicate (k + 1) (byte '}')) = some 0 :=
      openBraces_close (k + 1)
    apply balanced_iff.mpr
    rw [openBraces_append, hk, Option.bind_some, hz]
  · next hk =>
    cases depth with
    | zero => exact balanced_iff.mpr hd
    | succ k => exact absurd hd (hk k)

theorem verboDigits_read {verbo : Int} (h : -2 ^ 31 ≤ verbo ∧ verbo < 2 ^ 31) :
    toInt (strtol (verboDigits verbo)) = verbo := by
  rw [verboDigits, strtol_decimal (by omega), toInt, Int.bmod_def]
  omega

theorem Pattern.Parsed.isPattern {p : Pattern} (h : p.Parsed) : IsPattern p.toks p := by
  obtain ⟨elems, code⟩ := p
  obtain ⟨helems, c, rfl, hc⟩ := h
  have hp := IsPattern.mk ⟨.COLON, []⟩ (elems.map fun pe => ⟨.SYMBOL, pe.str⟩) (closedBlock c) rfl
    (by simp) (closedBlock_type c)
  have hread : (elems.map fun pe => (⟨.SYMBOL, pe.str⟩ : Tok)).map
      (fun t => { str := copyStr t.str, isTerminal := false }) = elems := by
    rw [List.map_map]
    refine (List.map_congr_left fun pe hpe => ?_).trans (List.map_id elems)
    obtain ⟨hname, hterm⟩ := helems pe hpe
    simp only [Function.comp_apply, hname.copyStr, ← hterm, id]
  rwa [hread, hc.read] at hp

theorem Pattern.Parsed.writable {p : Pattern} (h : p.Parsed) : ∀ t ∈ p.toks, t.Writable := by
  obtain ⟨c, hcode, hc⟩ := h.code
  intro t ht
  rcases List.mem_cons.mp ht with rfl | ht
  · rfl
  rcases List.mem_append.mp ht with ht | ht
  · obtain ⟨pe, hpe, rfl⟩ := List.mem_map.mp ht
    exact (h.elems pe hpe).1
  · rw [List.mem_singleton.mp ht, hcode]
    exact hc.writable

theorem Rule.Parsed.isItem {r : Rule} (h : r.Parsed) : IsItem r.toks (.rule r.name r.patterns) := by
  have hpatterns : List.Forall₂ IsPattern (r.patterns.map Pattern.toks) r.patterns := by
    rw [List.forall₂_map_left_iff, List.forall₂_same]
    exact fun p hp => (h.patterns p hp).isPattern
  have hi := IsItem.rule ⟨.SYMBOL, r.name⟩ _ _ rfl h.nonempty hpatterns
  rwa [h.name.copyStr] at hi

theorem Rule.Parsed.writable {r : Rule} (h : r.Parsed) : ∀ t ∈ r.toks, t.Writable := by
  intro t ht
  rcases List.mem_cons.mp ht with rfl | ht
  · exact h.name
  · obtain ⟨ts, hts, ht⟩ := List.mem_flatten.mp ht
    obtain ⟨p, hp, rfl⟩ := List.mem_map.mp hts
    exact (h.patterns p hp).writable t ht

theorem IsFile.append {ts us : List Tok} {items items' : List Item} (h : IsFile ts items)
    (h' : IsFile us items') : IsFile (ts ++ us) (items ++ items') := by
  induction h with
  | nil => exact h'
  | cons hi _ ih =>
    rw [List.append_assoc]
    exact .cons hi ih

theorem isFile_flatMap {α : Type} {f : α → List Tok} {g : α → Item} {xs : List α}
    (h : ∀ x ∈ xs, IsItem (f x) (g x)) : IsFile (xs.flatMap f) (xs.map g) := by
  induction xs with
  | nil => exact .nil
  | cons x xs ih =>
    rw [List.flatMap_cons, List.map_cons]
    exact .cons (h x List.mem_cons_self) (ih fun y hy => h y (List.mem_cons_of_mem x hy))

theorem Pstate.Parsed.isFile {state : Pstate} (h : state.Parsed) : IsFile state.toks state.items := by
  have hverbo : copyStr (verboDigits state.verbo) = verboDigits state.verbo := by
    apply cString_of_nulFree
    exact fun h0 => absurd (decimal_digits _ 0 h0) (by decide)
  have hv := IsItem.verbosity ⟨.VERBOSITY, directiveVerbosity⟩ ⟨.NUMBER, verboDigits state.verbo⟩ rfl rfl
  have hn := IsItem.name ⟨.NAME, directiveName⟩ ⟨.STRG, state.name⟩ rfl rfl
  have hp := IsItem.outputPrefix ⟨.PREFIX, directivePrefix⟩ ⟨.STRG, state.outputPrefix⟩ rfl rfl
  simp only [hverbo, show copyStr state.name = state.name from h.name.text,
    show copyStr state.outputPrefix = state.outputPrefix from h.outputPrefix.text] at hv hn hp
  refine .cons hv (.cons hn (.cons hp (.append ?_ ?_)))
  · apply isFile_flatMap
    intro c hc
    have hi := IsItem.code ⟨.CODE, directiveCode⟩ (closedBlock c) rfl (closedBlock_type c)
    rwa [(h.code c hc).read] at hi
  · exact isFile_flatMap fun r hr => (h.rules r hr).isItem

theorem Pstate.Parsed.writable {state : Pstate} (h : state.Parsed) : ∀ t ∈ state.toks, t.Writable := by
  have hverbo : Tok.Writable ⟨.NUMBER, verboDigits state.verbo⟩ := by
    obtain ⟨b, v, hbv⟩ := List.exists_cons_of_ne_nil (decimal_ne_nil (state.verbo % 2 ^ 32).toNat)
    have hd := decimal_digits (state.verbo % 2 ^ 32).toNat
    rw [hbv, List.forall_mem_cons] at hd
    exact ⟨b, v, hbv, hd.1, hd.2⟩
  simp only [Pstate.toks, List.forall_mem_append, List.forall_mem_cons]
  refine ⟨⟨rfl, hverbo, by simp⟩, ⟨rfl, ⟨h.name.quote, h.name.low⟩, by simp⟩,
    ⟨rfl, ⟨h.outputPrefix.quote, h.outputPrefix.low⟩, by simp⟩, ?_, ?_⟩
  · intro t ht
    obtain ⟨c, hc, ht⟩ := List.mem_flatMap.mp ht
    rcases List.mem_cons.mp ht with rfl | ht
    · rfl
    · rw [List.mem_singleton.mp ht]
      exact (h.code c hc).writable
  · intro t ht
    obtain ⟨r, hr, ht⟩ := List.mem_flatMap.mp ht
    exact (h.rules r hr).writable t ht

theorem Pstate.Parsed.stateOf_items {state : Pstate} (h : state.Parsed) :
    stateOf state.items = state := by
  have hrules : state.rules.map (fun r => ⟨r.name, false, false, r.patterns⟩) = state.rules := by
    refine (List.map_congr_left fun r hr => ?_).trans (List.map_id state.rules)
    obtain ⟨hrec, hnon⟩ := (h.rules r hr).flags
    cases r
    simp_all
  have hverbo := verboDigits_read h.verbo
  have hfinished := h.finished
  have hterms := h.terminals
  have hnonTerms := h.nonTerminals
  cases state
  simp only [stateOf, Pstate.items, List.filterMap_cons, List.filterMap_append, List.filterMap_map,
    Item.rule?, Item.verbosity?, Item.name?, Item.outputPrefix?, Item.code?]
  simp_all [Function.comp_def, Item.rule?, Item.verbosity?, Item.name?, Item.outputPrefix?, Item.code?]

theorem apart_space (t : Tok) (u : Bytes) : t.Apart (32 :: u) := by
  obtain ⟨type, str⟩ := t
  cases type with
  | SYMBOL => exact (rfl : isSymbol1 32 = false)
  | NUMBER => exact (rfl : isDigit 32 = false)
  | VERBOSITY | NAME | PREFIX | CODE =>
    have h : isSymbol 32 = false ∧ ¬ (32 : Int) > 0x7F := ⟨rfl, by decide⟩
    exact h
  | _ => trivial

theorem written_writeToks (gap : Gap) {ts : List Tok} (h : ∀ t ∈ ts, t.Writable) :
    Written (Gap.bytes gap ++ writeToks ts) ts := by
  induction ts generalizing gap with
  | nil => exact .done gap (.inl rfl)
  | cons t ts ih =>
    obtain ⟨ht, hts⟩ := List.forall_mem_cons.mp h
    have hrest := ih [.space 32 rfl] hts
    have happ : writeToks (t :: ts) = t.bytes ++ (Gap.bytes [.space 32 rfl] ++ writeToks ts) := by
      simp [writeToks, Gap.bytes, Piece.bytes]
    rw [happ]
    exact .cons gap ht (apart_space t _) hrest

theorem Pstate.Parsed.read {state : Pstate} (h : state.Parsed) (fname : Bytes) {bytes : Bytes}
    (hw : Written bytes state.toks) :
    ∃ w, (parseInput (fileSource fname (.ok bytes))).Runs (World.boot []) (.ok state w) ∧
      w.errors = 0 := by
  obtain ⟨state', w, hr, hiff, hstate⟩ := parseInput_file fname (lexes_iff_written.mpr hw)
  refine ⟨w, ?_, hiff.mpr ⟨_, h.isFile⟩⟩
  rwa [hstate _ h.isFile, h.stateOf_items] at hr

/-- A state written into a file is read back, however the file is laid out; one layout is the
one with a blank behind each token. -/
theorem parseInput_reads_back (fname : Bytes) {state : Pstate} (h : state.Parsed) :
    (∀ bytes, Written bytes state.toks →
      ∃ w, (parseInput (fileSource fname (.ok bytes))).Runs (World.boot []) (.ok state w) ∧
        w.errors = 0) ∧
      Written (writeToks state.toks) state.toks :=
  ⟨fun _ hw => h.read fname hw, written_writeToks [] h.writable⟩

/-- One rule, one code block and the names, with the verbosity -1. -/
theorem parseInput_reads_back_rule :
    ∃ state w, state.verbo = -1 ∧ state.name = [110] ∧ state.code = [[32]] ∧
      state.rules = [⟨[114], false, false, [⟨[⟨[120], false⟩], some [123]⟩]⟩] ∧
      (parseInput (fileSource [102] (.ok (writeToks state.toks)))).Runs (World.boot [])
        (.ok state w) ∧ w.errors = 0 := by
  have hparsed : Pstate.Parsed ⟨false, -1, [110], [112], [[32]],
      [⟨[114], false, false, [⟨[⟨[120], false⟩], some [123]⟩]⟩], [], []⟩ := by
    refine ⟨rfl, by decide, ⟨rfl, by decide, by simp⟩, ⟨rfl, by decide, by simp⟩, ?_, ?_, rfl, rfl⟩
    · simpa using (⟨rfl, 0, rfl⟩ : IsCode [32])
    · refine List.forall_mem_singleton.mpr ⟨⟨114, [], rfl, rfl, by simp⟩, ⟨rfl, rfl⟩, by simp, ?_⟩
      refine List.forall_mem_singleton.mpr ⟨?_, [123], rfl, rfl, 1, rfl⟩
      exact List.forall_mem_singleton.mpr ⟨⟨120, [], rfl, rfl, by simp⟩, rfl⟩
  obtain ⟨hread, hwritten⟩ := parseInput_reads_back [102] hparsed
  obtain ⟨w, hr, h0⟩ := hread _ hwritten
  exact ⟨_, w, rfl, rfl, rfl, rfl, hr, h0⟩

/-- The states that the parser builds from the files it accepts are those with names, texts and
blocks that can be written, and a number that an `int` holds. -/
theorem parseInput_states_iff (fname : Bytes) (state : Pstate) :
    (∃ bytes w, (parseInput (fileSource fname (.ok bytes))).Runs (World.boot []) (.ok state w) ∧
        w.errors = 0) ↔ state.Parsed := by
  constructor
  · intro h
    obtain ⟨bytes, w, hr, h0⟩ := h
    obtain ⟨ts, hts⟩ := parseInput_lexes hr h0
    obtain ⟨state', w', hr', hiff, hstate⟩ := parseInput_file fname hts
    cases hr.det hr'
    obtain ⟨items, hf⟩ := hiff.mp h0
    rw [hstate items hf]
    exact stateOf_parsed (hf.parsed (lexes_iff_written.mp hts).writable)
  · intro h
    obtain ⟨w, hr, h0⟩ := h.read fname (written_writeToks [] h.writable)
    exact ⟨_, w, hr, h0⟩

end Rdpgen
