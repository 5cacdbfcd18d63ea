import Rdpgen.ListRuns
import Rdpgen.Chars

namespace Rdpgen

/-! ### The objects that the lists are made for -/

def alignUp (n width : Nat) : Nat := (n + width - 1) / width * width

/-- The offset of a field behind the first `n` bytes; each field is aligned to its width. -/
def fieldOffset (n : Nat) : List Nat → Nat → Nat
  | [], _ => n
  | w :: _, 0 => alignUp n w
  | w :: ws, i + 1 => fieldOffset (alignUp n w + w) ws i

/-- `sizeof` a struct whose fields have these widths. -/
def structSize (widths : List Nat) : Nat :=
  alignUp (fieldOffset 0 widths widths.length) (widths.foldl max 1)

/-- The instantiations of `PTRLST_IMPL`. -/
inductive PtrLst where
  | strLst
  | ruleLst
  | patternLst
  | patElemLst
  deriving DecidableEq

/-- The fields of the object behind the pointers that `N_add` gets. -/
def PtrLst.object : PtrLst → List Nat
  -- `struct _string_`: `buffer`, `len`, `cap`
  | strLst => [8, 8, 8]
  -- `name`, `is_recursive`, `has_nonterms`, `patterns`
  | ruleLst => [8, 1, 1, 8]
  -- `elems`, `code`
  | patternLst => [8, 8]
  -- `str`, `is_terminal`
  | patElemLst => [8, 1]

/-- `sizeof(T)`; the `T` of `str_lst` is `STR`, a `void*`. -/
def PtrLst.sizeofT : PtrLst → Nat
  | strLst => 8
  | N => structSize N.object

/-- The ways to look at an object of the list. -/
inductive Access : PtrLst → Type
  | rawStr : Access .strLst
  | lenStr : Access .strLst
  | copyStr : Access .strLst
  | ruleName : Access .ruleLst
  | ruleIsRecursive : Access .ruleLst
  | ruleHasNonterms : Access .ruleLst
  | rulePatterns : Access .ruleLst
  | patternElems : Access .patternLst
  | patternCode : Access .patternLst
  | patElemStr : Access .patElemLst
  | patElemIsTerminal : Access .patElemLst

namespace Access

variable {N : PtrLst}

/-- The number of the field that is read. -/
def field : Access N → Nat
  | rawStr => 0
  | lenStr => 1
  | copyStr => 0
  | ruleName => 0
  | ruleIsRecursive => 1
  | ruleHasNonterms => 2
  | rulePatterns => 3
  | patternElems => 0
  | patternCode => 1
  | patElemStr => 0
  | patElemIsTerminal => 1

def offset (a : Access N) : Nat := fieldOffset 0 N.object a.field

def width (a : Access N) : Nat := N.object.getD a.field 0

/-- `copy_str` goes on to the C string behind the pointer. -/
def follows : Access N → Bool
  | copyStr => true
  | _ => false

def isLenStr : Access N → Bool
  | lenStr => true
  | _ => false

/-- What is seen of an object in the bytes `block`; `none` is a read outside of them. `texts` are the
C strings in memory by the bytes of the pointers to them. -/
def observe (texts : Bytes → Bytes) (a : Access N) (block : Bytes) : Option Bytes :=
  if a.offset + a.width ≤ block.length then
    let bytes := (block.drop a.offset).take a.width
    some (if a.follows then texts bytes else bytes)
  else none

theorem inside_iff (a : Access N) : a.offset + a.width ≤ N.sizeofT ↔ a.isLenStr = false := by
  cases a <;> decide

theorem sizeofT_le (N : PtrLst) : N.sizeofT ≤ structSize N.object := by
  cases N <;> decide

theorem inside_object (a : Access N) : a.offset + a.width ≤ structSize N.object := by
  cases a <;> decide

/-- The copy that the list stores shows the same, as far as it goes. -/
theorem observe_take {texts : Bytes → Bytes} {a : Access N} {obj : Bytes}
    (hobj : obj.length = structSize N.object) :
    a.observe texts (obj.take N.sizeofT) = if a.isLenStr then none else a.observe texts obj := by
  have hle := sizeofT_le N
  have hin := a.inside_iff
  unfold observe
  rw [List.length_take, Nat.min_eq_left (by omega)]
  by_cases hlen : a.isLenStr = true
  · rw [if_pos hlen, if_neg]
    intro hinside
    rw [hin.mp hinside] at hlen
    cases hlen
  · have hinside := hin.mpr (by simpa using hlen)
    have hsame : ((obj.take N.sizeofT).drop a.offset).take a.width = (obj.drop a.offset).take a.width := by
      rw [List.drop_take, List.take_take, Nat.min_eq_left (by omega)]
    rw [if_neg hlen, if_pos hinside, if_pos (by omega), hsame]

end Access

/-! ### The functions of the macro -/

/-- `mem_alloc` answers with `elem`, and `ptr` points to the object with the bytes `obj`. -/
def ptrLstAdd (N : PtrLst) (l : Lst) (elem : Addr) (obj : Bytes) : Option Lst :=
  if N.sizeofT ≤ obj.length then l.appendLst ⟨elem, 0, obj.take N.sizeofT⟩ else none

def ptrLstReset (l : Lst) : Addr × Lst := l.resetLst

def ptrLstIterate (l : Lst) : Option (Addr × Lst) := l.iterateLst

/-- The `unsigned int` becomes the `int` of `get_elem`. -/
def ptrLstGet (l : Lst) (idx : UInt32) : Option Addr := l.getElem (toInt idx.toNat)

def ptrLstAddAll (N : PtrLst) (adds : List (Addr × Bytes)) : Option Lst :=
  adds.foldlM (fun l x => ptrLstAdd N l x.1 x.2) Lst.createLst

/-- The pointer of the reset, or of the iterate number `i` behind it. -/
def ptrLstNth (l : Lst) : Nat → Option (Addr × Lst)
  | 0 => some (ptrLstReset l)
  | i + 1 => do
    let r ← ptrLstNth l i
    ptrLstIterate r.2

/-- What is seen through a pointer that the list gave out. -/
def seenAt {N : PtrLst} (texts : Bytes → Bytes) (a : Access N) (l : Lst) (p : Addr) : Option Bytes :=
  if p = NULL then none else (l.load (voidToElem p)).bind fun c => a.observe texts c.data

namespace Lst

variable {l : Lst} {s : List Entry}

/-- The pointer number `i` of a traversal is the one of the element number `i`. -/
theorem ptrLstNth_eq (h : l.Represents s) {i : Nat} (hi : i < s.length) :
    ptrLstNth l i = some (s[i].handle, { l with crnt := s[i].elem }) := by
  induction i with
  | zero =>
    cases s with
    | nil => simp at hi
    | cons e s =>
      have hfirst : l.first = e.elem := h.first
      unfold ptrLstNth ptrLstReset resetLst
      rw [hfirst]
      rfl
  | succ i ih =>
    have hprev : i < s.length := by omega
    have hsplit : s = s.take i ++ s[i] :: s[i + 1] :: s.drop (i + 1 + 1) := by
      rw [← List.drop_eq_getElem_cons hi, ← List.drop_eq_getElem_cons hprev, List.take_append_drop]
    have hmid : l.Represents (s.take i ++ s[i] :: s[i + 1] :: s.drop (i + 1 + 1)) := by
      rw [← hsplit]
      exact h
    obtain ⟨c, hc, hn, -⟩ := hmid.load_mid
    have hnext : c.next = s[i + 1].elem := hn
    have hcur := h.notNull (List.getElem_mem hprev)
    have hnew := h.notNull (List.getElem_mem hi)
    unfold ptrLstNth ptrLstIterate
    rw [ih hprev]
    simp [iterateLst, hcur, load, hc, hnext, hnew, Entry.handle]

theorem ptrLstGet_eq (h : l.Represents s) {i : Nat} (hi : i < s.length) (hidx : i < 2 ^ 32) :
    ∃ e, s[intIndex s.length i]? = some e ∧ ptrLstGet l (UInt32.ofNat i) = some e.handle := by
  have hnat : (UInt32.ofNat i).toNat = i := by
    rw [UInt32.toNat_ofNat']
    exact Nat.mod_eq_of_lt hidx
  obtain ⟨e, he, hat⟩ := entryAt_toInt hidx (.inl hi)
  refine ⟨e, he, ?_⟩
  unfold ptrLstGet
  rw [getElem_eq h, hnat, hat]
  rfl

theorem seenAt_handle {N : PtrLst} {texts : Bytes → Bytes} {a : Access N} {e : Entry}
    (h : l.Represents s) (he : e ∈ s) : seenAt texts a l e.handle = a.observe texts e.data := by
  obtain ⟨c, hc, hcontent⟩ := h.load he
  have hdata : c.data = e.data := congrArg (fun t => t.2.2) hcontent
  have hne := h.handle_ne he
  unfold Entry.handle at hne ⊢
  unfold seenAt
  rw [if_neg hne, voidToElem_elemToVoid, load, hc, Option.bind_some, hdata]

end Lst

/-- What `N_add` appends for the block and the object `x`. -/
def PtrLst.entry (N : PtrLst) (x : Addr × Bytes) : Entry := ⟨x.1, 0, x.2.take N.sizeofT⟩

/-- The objects have their size and each block is new to the list. -/
structure ValidAdds (N : PtrLst) (adds : List (Addr × Bytes)) : Prop where
  size : ∀ x ∈ adds, x.2.length = structSize N.object
  fresh : LstOp.Valid [] (adds.map fun x => .append (N.entry x))

theorem ptrLstAddAll_eq {N : PtrLst} {adds : List (Addr × Bytes)}
    (hsize : ∀ x ∈ adds, x.2.length = structSize N.object) :
    ptrLstAddAll N adds = runLst (adds.map fun x => .append (N.entry x)) := by
  have hfold : ∀ l : Lst, adds.foldlM (fun l x => ptrLstAdd N l x.1 x.2) l =
      (adds.map fun x => LstOp.append (N.entry x)).foldlM LstOp.exec l := by
    induction adds with
    | nil => exact fun l => rfl
    | cons x adds ih =>
      intro l
      have hle := Access.sizeofT_le N
      have hx := hsize x List.mem_cons_self
      have hadd : ptrLstAdd N l x.1 x.2 = LstOp.exec l (.append (N.entry x)) := by
        unfold ptrLstAdd
        rw [if_pos (by omega)]
        rfl
      rw [List.map_cons, List.foldlM_cons, List.foldlM_cons, hadd]
      exact congrArg _ (funext (ih fun y hy => hsize y (List.mem_cons_of_mem x hy)))
  exact hfold Lst.createLst

theorem foldl_append_apply (N : PtrLst) (adds : List (Addr × Bytes)) (s : List Entry) :
    (adds.map fun x => LstOp.append (N.entry x)).foldl LstOp.apply s = s ++ adds.map N.entry := by
  induction adds generalizing s with
  | nil => simp
  | cons x adds ih =>
    rw [List.map_cons, List.foldl_cons, ih, List.map_cons, List.append_cons]
    rfl

theorem ptrLstAddAll_represents {N : PtrLst} {adds : List (Addr × Bytes)} (h : ValidAdds N adds) :
    ∃ l, ptrLstAddAll N adds = some l ∧ l.Represents (adds.map N.entry) := by
  have hrun : ptrLstAddAll N adds = runLst (adds.map fun x => .append (N.entry x)) :=
    ptrLstAddAll_eq h.size
  have hseq : seqOf (adds.map fun x => LstOp.append (N.entry x)) = adds.map N.entry := by
    have hfold := foldl_append_apply N adds []
    rwa [List.nil_append] at hfold
  obtain ⟨l, hl, hr, -⟩ := runLst_represents h.fresh
  exact ⟨l, hrun.trans hl, hseq ▸ hr⟩

/-- The pointers for the element number `i` show what the object `obj` shows, and all reads stay
inside of the bytes that the list stores. -/
structure Returns {N : PtrLst} (texts : Bytes → Bytes) (a : Access N) (l : Lst) (i : Nat)
    (obj : Bytes) : Prop where
  iterated : ∃ p l' v, ptrLstNth l i = some (p, l') ∧ seenAt texts a l' p = some v ∧
    a.observe texts obj = some v
  got : i < 2 ^ 32 → ∃ p v, ptrLstGet l (UInt32.ofNat i) = some p ∧ seenAt texts a l p = some v ∧
    a.observe texts obj = some v

section

variable {N : PtrLst} (texts : Bytes → Bytes) (a : Access N) {adds : List (Addr × Bytes)} {l : Lst}
  {i : Nat}

/-- A node shows what the first bytes of its object show. -/
theorem observe_entry (h : ValidAdds N adds) {x : Addr × Bytes} (hx : x ∈ adds) :
    a.observe texts (N.entry x).data = if a.isLenStr then none else a.observe texts x.2 :=
  Access.observe_take (h.size x hx)

theorem ptrLstNth_shows (h : ValidAdds N adds) (hr : l.Represents (adds.map N.entry))
    (hi : i < adds.length) :
    ∃ p l', ptrLstNth l i = some (p, l') ∧
      seenAt texts a l' p = if a.isLenStr then none else a.observe texts adds[i].2 := by
  have hi' : i < (adds.map N.entry).length := by rw [List.length_map]; exact hi
  have hmem : (adds.map N.entry)[i] ∈ adds.map N.entry := List.getElem_mem hi'
  refine ⟨_, _, Lst.ptrLstNth_eq hr hi', ?_⟩
  rw [Lst.seenAt_handle (hr.crnt _) hmem, List.getElem_map]
  exact observe_entry texts a h (List.getElem_mem hi)

theorem ptrLstGet_shows (h : ValidAdds N adds) (hr : l.Represents (adds.map N.entry))
    (hi : i < adds.length) (hidx : i < 2 ^ 32) :
    ∃ x p, adds[intIndex adds.length i]? = some x ∧ ptrLstGet l (UInt32.ofNat i) = some p ∧
      seenAt texts a l p = if a.isLenStr then none else a.observe texts x.2 := by
  have hi' : i < (adds.map N.entry).length := by rw [List.length_map]; exact hi
  obtain ⟨e, he, hp⟩ := Lst.ptrLstGet_eq hr hi' hidx
  rw [List.length_map, List.getElem?_map, Option.map_eq_some_iff] at he
  obtain ⟨x, hx, hex⟩ := he
  have hmem := List.mem_of_getElem? hx
  refine ⟨x, e.handle, hx, hp, ?_⟩
  rw [← hex, Lst.seenAt_handle hr (List.mem_map_of_mem hmem)]
  exact observe_entry texts a h hmem

theorem observe_object (h : ValidAdds N adds) {x : Addr × Bytes} (hx : x ∈ adds) :
    ∃ v, a.observe texts x.2 = some v := by
  have hin := a.inside_object
  have hsize := h.size x hx
  unfold Access.observe
  rw [if_pos (by omega)]
  exact ⟨_, rfl⟩

end

/-- Each list of objects returns what was put in, except for the length of a string; an index that
does not fit into an `int` must name an element that shows the same. -/
theorem ptrLst_returns_iff (N : PtrLst) (texts : Bytes → Bytes) (adds : List (Addr × Bytes))
    (h : ValidAdds N adds) :
    ∃ l, ptrLstAddAll N adds = some l ∧ ∀ (a : Access N) (i : Nat) (hi : i < adds.length),
      Returns texts a l i adds[i].2 ↔
        a.isLenStr = false ∧ (i < 2 ^ 32 →
          (adds[intIndex adds.length i]?.bind fun x => a.observe texts x.2) =
            a.observe texts adds[i].2) := by
  obtain ⟨l, hl, hr⟩ := ptrLstAddAll_represents h
  refine ⟨l, hl, ?_⟩
  intro a i hi
  obtain ⟨p, l', hnth, hseen⟩ := ptrLstNth_shows texts a h hr hi
  constructor
  · intro hret
    obtain ⟨p', l'', v, hnth', hv, hobj⟩ := hret.iterated
    rw [hnth] at hnth'
    cases hnth'
    rw [hseen] at hv
    have hnot : a.isLenStr = false := by
      cases hb : a.isLenStr with
      | true =>
        rw [hb] at hv
        cases hv
      | false => rfl
    refine ⟨hnot, ?_⟩
    intro hidx
    obtain ⟨x, q, hx, hq, hs⟩ := ptrLstGet_shows texts a h hr hi hidx
    obtain ⟨q', v', hq', hv', hobj'⟩ := hret.got hidx
    rw [hq] at hq'
    cases hq'
    rw [hnot, if_neg Bool.false_ne_true] at hs
    rw [hx, Option.bind_some, ← hs, hv', hobj']
  · intro hcond
    obtain ⟨hnot, hidx⟩ := hcond
    obtain ⟨v, hv⟩ := observe_object texts a h (List.getElem_mem hi)
    rw [hnot, if_neg Bool.false_ne_true, hv] at hseen
    refine ⟨⟨p, l', v, hnth, hseen, hv⟩, ?_⟩
    intro hlt
    obtain ⟨x, q, hx, hq, hs⟩ := ptrLstGet_shows texts a h hr hi hlt
    have hsame := hidx hlt
    rw [hx, Option.bind_some, hv] at hsame
    rw [hnot, if_neg Bool.false_ne_true, hsame] at hs
    exact ⟨q, v, hq, hs, hv⟩

/-- Two rules, the second one with `has_nonterms`. -/
def twoRules : List (Addr × Bytes) :=
  [(64, List.replicate 24 1), (128, List.replicate 9 2 ++ 1 :: List.replicate 14 3)]

theorem twoRules_valid : ValidAdds .ruleLst twoRules := by
  refine ⟨?_, by decide⟩
  intro x hx
  rcases List.mem_cons.mp hx with he | hx
  · rw [he]
    rfl
  · rw [List.mem_singleton.mp hx]
    rfl

theorem twoRules_return :
    ∃ l, ptrLstAddAll .ruleLst twoRules = some l ∧
      Returns id .ruleHasNonterms l 1 (List.replicate 9 2 ++ 1 :: List.replicate 14 3) := by
  obtain ⟨l, hl, hall⟩ := ptrLst_returns_iff .ruleLst id twoRules twoRules_valid
  exact ⟨l, hl, (hall .ruleHasNonterms 1 (by decide)).mpr ⟨rfl, fun _ => rfl⟩⟩

/-- A string of one character: the address of its buffer, the length 1 and the capacity 8. -/
def oneString : Bytes := [0x90, 0x12, 0x22, 0x11, 0x55, 0x55, 0, 0, 1, 0, 0, 0, 0, 0, 0, 0,
  8, 0, 0, 0, 0, 0, 0, 0]

/-- The list stores the first eight bytes, and `len_str` reads the eight behind them. -/
theorem ptrLst_loses_length :
    ValidAdds .strLst [(64, oneString)] ∧
      ∃ l, ptrLstAddAll .strLst [(64, oneString)] = some l ∧ ¬Returns id .lenStr l 0 oneString := by
  refine ⟨⟨?_, by decide⟩, _, rfl, ?_⟩
  · intro x hx
    rw [List.mem_singleton.mp hx]
    rfl
  · intro hret
    obtain ⟨p, l', v, hnth, hseen, -⟩ := hret.iterated
    cases hnth
    cases hseen

end Rdpgen
