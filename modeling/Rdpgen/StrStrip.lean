import Rdpgen.StrSpec
import Mathlib.Data.List.DropRight

namespace Rdpgen

/-- The `n` bytes of a number in the memory of a little-endian machine. -/
def littleEndian : Nat → Nat → Bytes
  | 0, _ => []
  | n + 1, x => UInt8.ofNat x :: littleEndian n (x / 256)

def blank (b : UInt8) : Bool := isSpace (chr b)

namespace StrObj

section

variable {α : Type} (place : Nat → UInt64)

/-- The bytes of the `struct _string_` itself, with `place` the addresses of the blocks. -/
def structBytes (p : StrObj) : Bytes :=
  littleEndian 8 (place p.buffer.addr).toNat ++ littleEndian 8 p.len ++ littleEndian 8 p.cap

/-- `strlen` on the handle; without a zero in it the function leaves the object. -/
def strlenStruct (p : StrObj) : Option Nat :=
  if 0 ∈ p.structBytes place then some (cString (p.structBytes place)).length else none

/-- `p->buffer[idx]` with an `int` index. -/
def byteAt (p : StrObj) (idx : Int) : Option UInt8 :=
  if 0 ≤ idx then p.buffer.val[idx.toNat]? else none

def skipPass (p : StrObj) (idx : Int) : MemProg α Int :=
  match p.byteAt idx with
  | none => fault
  | some _ => checkInt (idx + 1)

/-- The first loop. An index outside of the buffer is left to the pass. -/
def skipBlanks (p : StrObj) (idx : Int) : MemProg α Int :=
  Prog.whileDo (fun idx _ => (p.byteAt idx).all fun b => isSpace (schar b) && b ≠ 0) (skipPass p) idx

def cutPass (q : StrObj × Int) : MemProg α (StrObj × Int) :=
  match q.1.byteAt q.2 with
  | none => fault
  | some _ => do
    let p ← q.1.write q.2.toNat [0]
    pure (p, q.2 - 1)

/-- The last loop. -/
def cutBlanks (p : StrObj) (idx : Int) : MemProg α (StrObj × Int) :=
  Prog.whileDo
    (fun q _ => (q.1.byteAt q.2).all fun b => isSpace (schar b) && decide (0 < q.2)) cutPass (p, idx)

/-- `if(idx > 0) memmove(p->buffer, &p->buffer[idx], strlen(&p->buffer[idx]) + 1)` -/
def moveDown (p : StrObj) (idx : Int) : MemProg α StrObj :=
  if 0 < idx then do
    let n ← p.strlenFrom idx.toNat
    p.write 0 ((p.buffer.val.drop idx.toNat).take (n + 1))
  else pure p

def stripStr (p : StrObj) : MemProg α (Int × StrObj) := do
  let idx ← skipBlanks p 0
  let p ← p.moveDown idx
  let n ← p.strlenFrom 0
  let q ← cutBlanks p (toInt (sizeT (n + 2 ^ 64 - 1)))
  -- `strlen(ptr)`, not `strlen(p->buffer)`
  match q.1.strlenStruct place with
  | none => fault
  | some len => pure (toInt len, { q.1 with len := len })

end

/-- The buffer begins with the text and its zero. -/
def Shows (p : StrObj) (t : Bytes) : Prop := 0 ∉ t ∧ ∃ rest, p.buffer.val = t ++ 0 :: rest

theorem isSpace_schar (b : UInt8) : isSpace (schar b) = blank b := by
  have hb := b.toNat_lt
  unfold schar blank isSpace chr
  by_cases hneg : b.toNat < 128
  · rw [if_pos hneg]
  · rw [if_neg hneg, Bool.eq_iff_iff]
    simp only [Bool.or_eq_true, Bool.and_eq_true, decide_eq_true_eq]
    omega

section

variable {α : Type} {E : Halt → Memory α → Prop} {D : Prop} {m : Memory α} {p : StrObj}
  {a c rest t : Bytes}

theorem byteAt_nat (i : Nat) : p.byteAt i = p.buffer.val[i]? := by
  unfold byteAt
  rw [if_pos (by omega), Int.toNat_natCast]

theorem Shows.strlenFrom_wp {Q : Nat → Memory α → Prop} (h : p.Shows (a ++ c)) :
    (p.strlenFrom a.length : MemProg α Nat).wp Q E D m ↔ Q c.length m := by
  obtain ⟨hnul, rest, hbuf⟩ := h
  have hdrop : p.buffer.val.drop a.length = c ++ 0 :: rest := by
    rw [hbuf, List.append_assoc, List.drop_left]
  have hmem : 0 ∈ c ++ 0 :: rest := by simp
  have hstr : cString (c ++ 0 :: rest) = c :=
    cString_append_zero rest fun hmem => hnul (List.mem_append_right a hmem)
  unfold strlenFrom
  rw [hdrop, if_pos hmem, hstr, Prog.wp_pure]

theorem moveDown_wp {Q : StrObj → Memory α → Prop} (h : p.Shows (a ++ c)) :
    (p.moveDown (a.length : Nat) : MemProg α StrObj).wp Q E D m ↔
      Q (p.withBytes (c ++ 0 :: p.buffer.val.drop (c.length + 1))) m := by
  have hsrc : (p.buffer.val.drop a.length).take (c.length + 1) = c ++ [0] := by
    obtain ⟨-, rest, hbuf⟩ := h
    rw [hbuf, List.append_assoc, List.drop_left, List.take_append,
      List.take_of_length_le (by omega)]
    simp
  have hroom : 0 + (c ++ [0]).length ≤ p.buffer.val.length := by
    obtain ⟨-, rest, hbuf⟩ := h
    rw [hbuf]
    simp only [List.length_append, List.length_cons, List.length_nil]
    omega
  unfold moveDown
  split
  · rw [Int.toNat_natCast, Prog.wp_bind, h.strlenFrom_wp, hsrc, wp_write hroom]
    simp [withBytes]
  · next hpos =>
    -- Without leading blanks the text stays where it is.
    have ha : a = [] := List.length_eq_zero_iff.mp (by omega)
    obtain ⟨-, rest, hbuf⟩ := h
    rw [ha, List.nil_append] at hbuf
    have hsame : p.withBytes (c ++ 0 :: p.buffer.val.drop (c.length + 1)) = p := by
      unfold withBytes
      rw [hbuf, ← List.drop_drop, List.drop_left, List.drop_one, List.tail_cons, ← hbuf]
    rw [Prog.wp_pure, hsame]

/-- The first loop stops behind the leading blanks unless there are too many for an `int`. -/
theorem skipBlanks_wp {Q : Int → Memory α → Prop} (h : p.Shows (a ++ c)) (ha : ∀ b ∈ a, blank b)
    (hc : ∀ b, c.head? = some b → blank b = false) :
    (skipBlanks p 0 : MemProg α Int).wp Q E D m ↔
      if a.length < 2 ^ 31 then Q a.length m else E .fault m := by
  obtain ⟨hnul, rest, hbuf⟩ := h
  have main : ∀ d i : Nat, i + d = a.length → i < 2 ^ 31 →
      ((skipBlanks p i : MemProg α Int).wp Q E D m ↔
        if a.length < 2 ^ 31 then Q a.length m else E .fault m) := by
    intro d
    -- The induction is on the blanks that are left.
    induction d with
    | zero =>
      intro i hi hlt
      have hia : i = a.length := by omega
      have hstop : ((p.byteAt i).all fun b => isSpace (schar b) && b ≠ 0) = false := by
        rw [byteAt_nat, hbuf, hia, List.append_assoc,
          List.getElem?_append_right (Nat.le_refl _), Nat.sub_self]
        cases c with
        | nil => rfl
        | cons b c => simp [isSpace_schar, hc b rfl]
      unfold skipBlanks
      rw [Prog.wp_whileDo, hstop, if_neg Bool.false_ne_true, if_pos (by omega), hia]
    | succ d ih =>
      intro i hi hlt
      have hia : i < a.length := by omega
      have hbyte : p.byteAt i = some a[i] := by
        rw [byteAt_nat, hbuf, List.append_assoc, List.getElem?_append_left hia,
          List.getElem?_eq_getElem hia]
      have hblank : blank a[i] = true := ha a[i] (List.getElem_mem hia)
      have hne : a[i] ≠ 0 := fun he =>
        hnul (he ▸ List.mem_append_left c (List.getElem_mem hia))
      have hgo : ((p.byteAt i).all fun b => isSpace (schar b) && b ≠ 0) = true := by
        rw [hbyte]
        simp [isSpace_schar, hblank, hne]
      unfold skipBlanks
      rw [Prog.wp_whileDo, hgo, if_pos rfl]
      unfold skipPass checkInt
      simp only [hbyte]
      by_cases hend : (i : Int) + 1 < 2 ^ 31
      · rw [if_pos (by omega), Prog.wp_pure]
        have hcast : ((i + 1 : Nat) : Int) = i + 1 := by omega
        have hnext := ih (i + 1) (by omega) (by omega)
        rw [hcast] at hnext
        exact hnext
      · rw [if_neg (by omega), Prog.wp_stop, if_neg (by omega)]
  exact main a.length 0 (by omega) (by omega)

theorem cutBlanks_negative {Q : StrObj × Int → Memory α → Prop} {idx : Int} (h : idx < 0) :
    (cutBlanks p idx : MemProg α (StrObj × Int)).wp Q E D m ↔ E .fault m := by
  have hbyte : p.byteAt idx = none := by
    unfold byteAt
    rw [if_neg (by omega)]
  unfold cutBlanks
  rw [Prog.wp_whileDo]
  simp only [hbyte, Option.all_none, if_true]
  unfold cutPass
  simp only [hbyte, wp_fault]

/-- One round at the blank `b` behind `front`. -/
theorem cutPass_wp {Q : StrObj × Int → Memory α → Prop} {front w : Bytes} {b : UInt8}
    (hbuf : p.buffer.val = front ++ b :: w) :
    (cutPass (p, (front.length : Nat)) : MemProg α (StrObj × Int)).wp Q E D m ↔
      Q (p.withBytes (front ++ 0 :: w), (front.length : Nat) - 1) m := by
  have hbyte : p.byteAt (front.length : Nat) = some b := by
    rw [byteAt_nat, hbuf, List.getElem?_append_right (Nat.le_refl _), Nat.sub_self]
    rfl
  have hroom : front.length + [(0 : UInt8)].length ≤ p.buffer.val.length := by
    rw [hbuf]
    simp only [List.length_append, List.length_cons, List.length_nil]
    omega
  have hover : p.buffer.val.take front.length ++ [0] ++
      p.buffer.val.drop (front.length + [(0 : UInt8)].length) = front ++ 0 :: w := by
    rw [hbuf, List.length_singleton, overwrite_next rfl]
  unfold cutPass
  simp only [hbyte, Prog.wp_bind, Int.toNat_natCast, wp_write hroom, Prog.wp_pure, hover]
  rfl

/-- The last loop writes zeros over the blanks `v` and stops at what is in front of them. -/
theorem cutBlanks_wp {Q : StrObj × Int → Memory α → Prop} {u v w : Bytes} {x : UInt8}
    (hx : blank x = false) (hv : ∀ b ∈ v, blank b) (hbuf : p.buffer.val = u ++ x :: (v ++ w)) :
    (cutBlanks p (u.length + v.length : Nat) : MemProg α (StrObj × Int)).wp Q E D m ↔
      Q (p.withBytes (u ++ x :: (List.replicate v.length 0 ++ w)), (u.length : Nat)) m := by
  induction v using List.reverseRecOn generalizing p w with
  | nil =>
    have hbyte : p.byteAt (u.length : Nat) = some x := by
      rw [byteAt_nat, hbuf, List.getElem?_append_right (Nat.le_refl _), Nat.sub_self]
      rfl
    have hsame : p.withBytes (u ++ x :: ([] ++ w)) = p := by
      unfold withBytes
      rw [← hbuf]
    unfold cutBlanks
    rw [Prog.wp_whileDo]
    simp only [List.length_nil, Nat.add_zero, hbyte, Option.all_some, isSpace_schar, hx,
      Bool.false_and, Bool.false_eq_true, if_false, List.replicate_zero, hsame]
  | append_singleton v b ih =>
    have hfront : u.length + (v ++ [b]).length = (u ++ x :: v).length := by
      simp only [List.length_append, List.length_cons, List.length_nil]
    have hbuf' : p.buffer.val = (u ++ x :: v) ++ b :: w := by
      rw [hbuf]
      simp
    have hbyte : p.byteAt ((u ++ x :: v).length : Nat) = some b := by
      rw [byteAt_nat, hbuf', List.getElem?_append_right (Nat.le_refl _), Nat.sub_self]
      rfl
    have hpos : (0 : Int) < ((u ++ x :: v).length : Nat) := by
      simp only [List.length_append, List.length_cons]
      omega
    have hgo : ((p.byteAt ((u ++ x :: v).length : Nat)).all fun b =>
        isSpace (schar b) && decide ((0 : Int) < ((u ++ x :: v).length : Nat))) = true := by
      simp only [hbyte, Option.all_some, isSpace_schar, hv b (by simp), hpos, decide_true,
        Bool.and_self]
    have hback : (((u ++ x :: v).length : Nat) : Int) - 1 = (u.length + v.length : Nat) := by
      simp only [List.length_append, List.length_cons]
      omega
    have hnext : u ++ x :: v ++ 0 :: w = u ++ x :: (v ++ 0 :: w) := by simp
    have hzeros : List.replicate (v ++ [b]).length (0 : UInt8) ++ w =
        List.replicate v.length 0 ++ 0 :: w := by
      rw [List.length_append, List.length_singleton, List.replicate_succ']
      simp
    have hrest : ∀ b ∈ v, blank b := fun b hb => hv b (by simp [hb])
    unfold cutBlanks
    rw [hfront, Prog.wp_whileDo, hgo, if_pos rfl, cutPass_wp hbuf', hback, hzeros, hnext]
    exact ih (p := p.withBytes (u ++ x :: (v ++ 0 :: w))) hrest rfl

end

section

variable {text : Bytes}

/-- The text without the blanks at its two ends. -/
def stripped (text : Bytes) : Bytes := (text.dropWhile blank).rdropWhile blank

/-- The `int` at which the last loop begins. -/
def lastIndex (text : Bytes) : Int := toInt (sizeT ((text.dropWhile blank).length + 2 ^ 64 - 1))

/-- What the last loop leaves of `t` when it begins at index `r`. -/
def kept (t : Bytes) (r : Nat) : Bytes :=
  if t[r]?.any blank then (t.take (r + 1)).rdropWhile blank else t

theorem rdropWhile_append_blanks {l v : Bytes} (hv : ∀ b ∈ v, blank b) :
    (l ++ v).rdropWhile blank = l.rdropWhile blank := by
  induction v using List.reverseRecOn with
  | nil => rw [List.append_nil]
  | append_singleton v b ih =>
    rw [← List.append_assoc, List.rdropWhile_concat_pos _ _ _ (hv b (by simp))]
    exact ih fun b hb => hv b (by simp [hb])

/-- A text that begins with a non-blank splits in front of its last run of blanks. -/
theorem split_last {t : Bytes} {y : UInt8} (hy : t.head? = some y) (hb : blank y = false) :
    ∃ u x v, t = u ++ x :: v ∧ blank x = false ∧ (∀ b ∈ v, blank b) ∧
      t.rdropWhile blank = u ++ [x] := by
  have hne : t.rdropWhile blank ≠ [] := by
    intro hnil
    have hall := List.rdropWhile_eq_nil_iff.mp hnil
    rw [hall y (List.mem_of_mem_head? hy)] at hb
    cases hb
  have hlast := List.rdropWhile_last_not blank t hne
  have hfront := List.dropLast_append_getLast hne
  refine ⟨(t.rdropWhile blank).dropLast, (t.rdropWhile blank).getLast hne, t.rtakeWhile blank,
    ?_, by simpa using hlast, fun _ hb => List.mem_rtakeWhile_imp hb, hfront.symm⟩
  calc t = t.rdropWhile blank ++ t.rtakeWhile blank := List.rdropWhile_append_rtakeWhile.symm
    _ = (t.rdropWhile blank).dropLast ++ [(t.rdropWhile blank).getLast hne] ++
        t.rtakeWhile blank := by rw [hfront]
    _ = _ := by rw [List.append_assoc, List.singleton_append]

/-- The byte at which the last loop stops, with the blanks between it and index `r`. -/
theorem kept_split {t : Bytes} {y : UInt8} {r : Nat} (hy : t.head? = some y) (hb : blank y = false)
    (hr : r < t.length) :
    ∃ u x v, blank x = false ∧ (∀ b ∈ v, blank b) ∧ r = u.length + v.length ∧
      t = u ++ x :: (v ++ t.drop (r + 1)) ∧ kept t r = if v = [] then t else u ++ [x] := by
  have hhead : (t.take (r + 1)).head? = some y := by
    rw [List.head?_take, if_neg (by omega), hy]
  obtain ⟨u, x, v, hfront, hx, hv, hdrop⟩ := split_last hhead hb
  have hlen : r = u.length + v.length := by
    have hl := congrArg List.length hfront
    rw [List.length_take, List.length_append, List.length_cons] at hl
    omega
  have hall : t = u ++ x :: (v ++ t.drop (r + 1)) := by
    calc t = t.take (r + 1) ++ t.drop (r + 1) := (List.take_append_drop (r + 1) t).symm
      _ = (u ++ x :: v) ++ t.drop (r + 1) := by rw [hfront]
      _ = _ := by rw [List.append_assoc, List.cons_append]
  have hbyte : t[r]? = (u ++ x :: v)[u.length + v.length]? := by
    rw [← hfront, ← hlen, List.getElem?_take_of_lt (by omega)]
  refine ⟨u, x, v, hx, hv, hlen, hall, ?_⟩
  unfold kept
  rw [hdrop, hbyte, List.getElem?_append_right (by omega), Nat.add_sub_cancel_left]
  cases v using List.reverseRecOn with
  | nil => simp [hx]
  | append_singleton v b => simp [hv b (by simp)]

/-- The cut text is the stripped one when the last loop begins behind it. -/
theorem kept_eq_iff {t : Bytes} {r : Nat} (hr : r < t.length) :
    kept t r = t.rdropWhile blank ↔
      if t[r]?.any blank then (t.rdropWhile blank).length ≤ r
      else (t.rdropWhile blank).length = t.length := by
  have hsplit : t.rdropWhile blank ++ t.rtakeWhile blank = t := List.rdropWhile_append_rtakeWhile
  have hpre : t.rdropWhile blank <+: t := List.rdropWhile_prefix blank t
  unfold kept
  rw [List.getElem?_eq_getElem hr, Option.any_some]
  by_cases hb : blank t[r] = true
  · rw [if_pos hb, if_pos hb]
    constructor
    · intro he
      have hshort : ((t.take (r + 1)).rdropWhile blank).length ≤ r := by
        rw [List.take_succ_eq_append_getElem hr, List.rdropWhile_concat_pos _ _ _ hb]
        apply Nat.le_trans (List.rdropWhile_prefix blank _).length_le
        rw [List.length_take]
        omega
      rw [he] at hshort
      exact hshort
    · intro hle
      have htake : t.take (r + 1) = t.rdropWhile blank ++
          (t.rtakeWhile blank).take (r + 1 - (t.rdropWhile blank).length) := by
        conv_lhs => rw [← hsplit]
        rw [List.take_append, List.take_of_length_le (by omega)]
      have hblank : ∀ b ∈ (t.rtakeWhile blank).take (r + 1 - (t.rdropWhile blank).length),
          blank b := fun b hb => List.mem_rtakeWhile_imp (List.mem_of_mem_take hb)
      rw [htake, rdropWhile_append_blanks hblank, List.rdropWhile_idempotent]
  · rw [if_neg hb, if_neg hb]
    constructor
    · intro he
      exact congrArg List.length he.symm
    · intro hlen
      exact (hpre.eq_of_length hlen).symm

theorem lastIndex_nil (h : text.dropWhile blank = []) : lastIndex text = -1 := by
  unfold lastIndex sizeT
  rw [h]
  decide

theorem lastIndex_lt {r : Nat} (hlong : text.length < 2 ^ 64) (h : lastIndex text = r) :
    r < (text.dropWhile blank).length := by
  have hle := List.length_dropWhile_le blank text
  by_cases hnil : text.dropWhile blank = []
  · rw [lastIndex_nil hnil] at h
    omega
  · have hpos := List.length_pos_iff.mpr hnil
    unfold lastIndex sizeT toInt at h
    rw [Int.bmod_def] at h
    omega

end

/-- The object is in a valid state with the text: `len = strlen(buffer) < cap`. -/
structure InState (p : StrObj) (text : Bytes) : Prop where
  shows : p.Shows text
  len_eq : p.len = text.length
  length_eq : p.buffer.val.length = p.cap
  cap_le : p.cap ≤ ptrdiffMax

section

variable {α : Type} {E : Halt → Memory α → Prop} {D : Prop} {m : Memory α} {p : StrObj}
  {place : Nat → UInt64} {text : Bytes} {Q : Int × StrObj → Memory α → Prop}

theorem InState.length_lt (h : p.InState text) : text.length < p.cap := by
  obtain ⟨⟨-, rest, hbuf⟩, -, hlen, -⟩ := h
  rw [hbuf, List.length_append, List.length_cons] at hlen
  omega

theorem InState.fits (h : p.InState text) : p.Fits :=
  ⟨h.length_eq, by rw [h.len_eq]; exact h.length_lt, h.cap_le⟩

/-- A text put behind the old one by an append. -/
theorem InState.withText {p' : StrObj} {m' : Memory α} {str : Bytes} (h : p.InState text)
    (hg : Grown m m' p p') (hnul : 0 ∉ str) (hroom : p'.len + str.length < p'.cap) :
    (p'.withText str).InState (text ++ str) := by
  obtain ⟨⟨hnul', rest, hbuf⟩, hlen, -, -⟩ := h
  obtain ⟨tail, hbytes⟩ := hg.bytes_eq
  have hlen' : p'.len = text.length := hg.len_eq.trans hlen
  have htake : p'.buffer.val.take p'.len = text := by
    rw [hbytes, hbuf, hlen', List.append_assoc, List.take_left]
  have hfull := hg.fits.length_eq
  have hval : (p'.withText str).buffer.val =
      text ++ str ++ 0 :: p'.buffer.val.drop (p'.len + str.length + 1) := by
    rw [← htake]
    rfl
  refine ⟨⟨by simp [hnul, hnul'], _, hval⟩, ?_, ?_, hg.fits.cap_le⟩
  · rw [List.length_append, ← hlen']
    rfl
  · rw [hval, List.length_append, List.length_append, List.length_cons, List.length_drop, ← hlen']
    show _ = p'.cap
    omega

/-- Each of the `cat_str` functions puts its text right behind the text of the object. Only an append
that gives `2 ^ 62 - 1` bytes leaves the program. -/
def AppendsTo (junk : Nat → Nat → UInt8) (useGc : Bool) (p : StrObj) (text : Bytes)
    (m : Memory α) : Prop :=
  (∀ str, 0 ∉ str → text.length + str.length < 2 ^ 62 →
    (catStrStr junk p str).wp (fun r _ => r.2.InState (text ++ str))
      (Refused (text.length + str.length)) False m ∧
    (str.length < 2 ^ 31 → (catStrFmt junk useGc p str).wp (fun r _ => r.2.InState (text ++ str))
      (Refused (text.length + str.length)) False m)) ∧
  ∀ ch, uchar ch ≠ 0 → text.length + 1 < 2 ^ 62 →
    (catStrChar junk p ch).wp (fun r _ => r.2.InState (text ++ [uchar ch])) (fun _ _ => False)
      False m

theorem InState.appendsTo {junk : Nat → Nat → UInt8} {useGc : Bool} (h : p.InState text) :
    p.AppendsTo junk useGc text m := by
  refine ⟨?_, ?_⟩
  · intro str hnul hlong
    rw [← h.len_eq] at hlong ⊢
    refine ⟨catStrStr_wp h.fits hlong ?_ fun _ _ he => he, fun hint =>
      catStrFmt_wp h.fits hlong hint ?_ fun _ _ he => he⟩
    · intro p' m' hg hroom
      exact h.withText hg hnul hroom
    · intro p' m' hg hroom
      exact h.withText hg hnul hroom
  · intro ch hch hlong
    rw [← h.len_eq] at hlong
    refine catStrChar_wp h.fits hlong ?_
    intro p' m' hg hroom
    exact h.withText hg (by simpa using hch.symm) hroom

/-- The end of `strip_str`: the length is taken from the bytes of the handle. -/
def recount (place : Nat → UInt64) (p : StrObj) : MemProg α (Int × StrObj) :=
  match p.strlenStruct place with
  | none => fault
  | some len => pure (toInt len, { p with len := len })

/-- After the two scans from the left the text begins with its first non-blank. -/
theorem stripStr_front (h : p.InState text) :
    (stripStr place p : MemProg α (Int × StrObj)).wp Q E D m ↔
      if (text.takeWhile blank).length < 2 ^ 31 then
        (cutBlanks (p.withBytes (text.dropWhile blank ++
            0 :: p.buffer.val.drop ((text.dropWhile blank).length + 1))) (lastIndex text)).wp
          (fun q => (recount place q.1).wp Q E D) E D m
      else E .fault m := by
  have hsplit : text.takeWhile blank ++ text.dropWhile blank = text :=
    List.takeWhile_append_dropWhile
  have hshows := h.shows
  rw [← hsplit] at hshows
  have hlead : ∀ b ∈ text.takeWhile blank, blank b := fun b hb => List.mem_takeWhile_imp hb
  have hhead : ∀ b, (text.dropWhile blank).head? = some b → blank b = false := by
    intro b hb
    have hnot := List.head?_dropWhile_not blank text
    rw [hb] at hnot
    simpa using hnot
  have hnext : (p.withBytes (text.dropWhile blank ++
      0 :: p.buffer.val.drop ((text.dropWhile blank).length + 1))).Shows
      ([] ++ text.dropWhile blank) := ⟨fun hmem => h.shows.1 (List.dropWhile_subset _ hmem), _, rfl⟩
  unfold stripStr
  simp only [Prog.wp_bind]
  rw [skipBlanks_wp hshows hlead hhead]
  split
  · rw [moveDown_wp hshows]
    exact hnext.strlenFrom_wp
  · rfl

/-- The last loop begins in front of the buffer or is not reached at all. -/
theorem stripStr_fault (h : p.InState text)
    (hbad : ¬((text.takeWhile blank).length < 2 ^ 31 ∧ 0 ≤ lastIndex text)) :
    (stripStr place p : MemProg α (Int × StrObj)).wp Q E D m ↔ E .fault m := by
  rw [stripStr_front h]
  split
  · next hlead => exact cutBlanks_negative (by omega)
  · rfl

/-- The last loop from index `r` on. -/
theorem cutBlanks_shows {Q : StrObj × Int → Memory α → Prop} {c rest : Bytes} {y : UInt8} {r : Nat}
    (hnul : 0 ∉ c) (hbuf : p.buffer.val = c ++ 0 :: rest) (hy : c.head? = some y)
    (hb : blank y = false) (hr : r < c.length) :
    ∃ bytes i, bytes.length = p.buffer.val.length ∧ (p.withBytes bytes).Shows (kept c r) ∧
      ((cutBlanks p (r : Nat) : MemProg α (StrObj × Int)).wp Q E D m ↔
        Q (p.withBytes bytes, i) m) := by
  obtain ⟨u, x, v, hx, hv, hlen, hall, hkept⟩ := kept_split hy hb hr
  have hbuf' : p.buffer.val = u ++ x :: (v ++ (c.drop (r + 1) ++ 0 :: rest)) := by
    calc p.buffer.val = c ++ 0 :: rest := hbuf
      _ = u ++ x :: (v ++ c.drop (r + 1)) ++ 0 :: rest := by rw [← hall]
      _ = _ := by simp
  refine ⟨u ++ x :: (List.replicate v.length 0 ++ (c.drop (r + 1) ++ 0 :: rest)), u.length, ?_, ?_,
    ?_⟩
  · rw [hbuf']
    simp
  · rw [hkept]
    cases v with
    | nil =>
      refine ⟨hnul, rest, ?_⟩
      have hsame : u ++ x :: (c.drop (r + 1) ++ 0 :: rest) = c ++ 0 :: rest := by
        rw [← hbuf, hbuf']
        rfl
      exact hsame
    | cons b v =>
      refine ⟨fun hmem => hnul ?_, _, (List.append_cons u x _)⟩
      rw [hall]
      rcases List.mem_append.mp hmem with hmem | hmem
      · exact List.mem_append_left _ hmem
      · rw [List.mem_singleton.mp hmem]
        simp
  · rw [hlen]
    exact cutBlanks_wp hx hv (hlen ▸ hbuf')

theorem stripStr_wp (place : Nat → UInt64) (h : p.InState text)
    (hlead : (text.takeWhile blank).length < 2 ^ 31) {r : Nat} (hr : lastIndex text = r) :
    ∃ bytes, bytes.length = p.cap ∧ (p.withBytes bytes).Shows (kept (text.dropWhile blank) r) ∧
      ((stripStr place p : MemProg α (Int × StrObj)).wp Q E D m ↔
        (recount place (p.withBytes bytes)).wp Q E D m) := by
  have hlong := h.length_lt
  have hcap := h.cap_le
  have hlen := h.length_eq
  have hle := List.length_dropWhile_le blank text
  have hlt := lastIndex_lt (by unfold ptrdiffMax at hcap; omega) hr
  have hnul : 0 ∉ text.dropWhile blank := fun hmem => h.shows.1 (List.dropWhile_subset _ hmem)
  obtain ⟨y, c, hy⟩ := List.exists_cons_of_length_pos (Nat.zero_lt_of_lt hlt)
  have hhead : (text.dropWhile blank).head? = some y := congrArg List.head? hy
  have hblank : blank y = false := by
    have hnot := List.head?_dropWhile_not blank text
    rw [hhead] at hnot
    simpa using hnot
  rw [stripStr_front h, if_pos hlead, hr]
  obtain ⟨bytes, i, hsize, hshows, hwp⟩ := cutBlanks_shows (α := α) (E := E) (D := D) (m := m)
    (Q := fun q => (recount place q.1).wp Q E D) hnul
    (p := p.withBytes (text.dropWhile blank ++
      0 :: p.buffer.val.drop ((text.dropWhile blank).length + 1))) rfl hhead hblank hlt
  refine ⟨bytes, ?_, hshows, hwp⟩
  rw [hsize]
  simp only [withBytes, List.length_append, List.length_cons, List.length_drop]
  omega

/-- What `strip_str` is for: the object is in a valid state with the stripped text, the returned
length is its length and the next text goes right behind it. -/
def Strips (place : Nat → UInt64) (junk : Nat → Nat → UInt8) (useGc : Bool) (p : StrObj)
    (text : Bytes) (m : Memory α) : Prop :=
  (stripStr place p).wp
    (fun r m' => r.2.InState (stripped text) ∧ r.2.rawStr = stripped text ∧
      r.1 = (stripped text).length ∧ r.2.lenStr = (stripped text).length ∧
      r.2.AppendsTo junk useGc (stripped text) m')
    (fun _ _ => False) False m

/-- No index leaves the buffer, the last loop begins behind the stripped text, and the handle's own
bytes happen to have their first zero at the length of it. -/
structure StripsWell (place : Nat → UInt64) (p : StrObj) (text : Bytes) : Prop where
  lead : (text.takeWhile blank).length < 2 ^ 31
  index : 0 ≤ lastIndex text
  behind : if (text.dropWhile blank)[(lastIndex text).toNat]?.any blank
    then (stripped text).length ≤ lastIndex text
    else (stripped text).length = (text.dropWhile blank).length
  handle : p.strlenStruct place = some (stripped text).length

/-- The condition on the last loop says that it leaves the stripped text. -/
theorem behind_iff {r : Nat} (hlt : r < (text.dropWhile blank).length) (hr : lastIndex text = r) :
    (if (text.dropWhile blank)[(lastIndex text).toNat]?.any blank
      then (stripped text).length ≤ lastIndex text
      else (stripped text).length = (text.dropWhile blank).length) ↔
      kept (text.dropWhile blank) r = stripped text := by
  rw [hr, Int.toNat_natCast, Int.ofNat_le]
  exact (kept_eq_iff hlt).symm

theorem Shows.rawStr_eq (h : p.Shows text) : p.rawStr = text := by
  obtain ⟨hnul, rest, hbuf⟩ := h
  unfold rawStr
  rw [hbuf, cString_append_zero rest hnul]

theorem toInt_strlen {n : Nat} (h : p.strlenStruct place = some n) : toInt n = n := by
  have hshort : n ≤ 24 := by
    unfold strlenStruct at h
    split at h
    · have hn := Option.some.inj h
      have hle : (cString (p.structBytes place)).length ≤ (p.structBytes place).length :=
        (List.takeWhile_prefix _).length_le
      have hall : (p.structBytes place).length = 24 := rfl
      omega
    · cases h
  exact toInt_of_lt (by omega)

theorem stripStr_strips_iff (place : Nat → UInt64) (junk : Nat → Nat → UInt8) (useGc : Bool)
    (p : StrObj) (text : Bytes) (m : Memory α) (h : p.InState text) :
    Strips place junk useGc p text m ↔ StripsWell place p text := by
  unfold Strips
  by_cases hin : (text.takeWhile blank).length < 2 ^ 31 ∧ 0 ≤ lastIndex text
  · obtain ⟨r, hr⟩ := Int.eq_ofNat_of_zero_le hin.2
    have hlong := h.length_lt
    have hcap := h.cap_le
    have hlt := lastIndex_lt (by unfold ptrdiffMax at hcap; omega) hr
    have hkept := behind_iff hlt hr
    obtain ⟨bytes, hsize, hshows, hwp⟩ := stripStr_wp (α := α) place h hin.1 hr
    rw [hwp]
    unfold recount
    have hsame : (p.withBytes bytes).strlenStruct place = p.strlenStruct place := rfl
    rw [hsame]
    cases hhandle : p.strlenStruct place with
    | none =>
      rw [wp_fault]
      refine iff_of_false id fun hwell => ?_
      have hsome := hwell.handle
      rw [hhandle] at hsome
      cases hsome
    | some len =>
      rw [Prog.wp_pure]
      constructor
      · intro hpost
        obtain ⟨hin', hraw, -, hlen, -⟩ := hpost
        have hcut : kept (text.dropWhile blank) r = stripped text := by
          rw [← hraw]
          exact hshows.rawStr_eq.symm
        refine ⟨hin.1, hin.2, hkept.mpr hcut, ?_⟩
        rw [hhandle, ← hlen]
        rfl
      · intro hwell
        have hlen : len = (stripped text).length := by
          have hsome := hwell.handle
          rw [hhandle] at hsome
          exact Option.some.inj hsome
        rw [hkept.mp hwell.behind] at hshows
        have hnew : InState { p.withBytes bytes with len := len } (stripped text) :=
          ⟨hshows, hlen, hsize, h.cap_le⟩
        refine ⟨hnew, hshows.rawStr_eq, ?_, hlen, hnew.appendsTo⟩
        rw [toInt_strlen hhandle, hlen]
  · rw [stripStr_fault h hin]
    exact iff_of_false id fun hwell => hin ⟨hwell.lead, hwell.index⟩

end

/-- An object of 16 bytes with the text, at an address with six bytes other than zero. -/
def sample (text : Bytes) : StrObj :=
  { buffer := ⟨3, text ++ List.replicate (16 - text.length) 0⟩, len := text.length, cap := 16 }

def samplePlace : Nat → UInt64 := fun a => 0x555511221230 + 32 * UInt64.ofNat a

theorem sample_inState {text : Bytes} (hnul : 0 ∉ text) (hlen : text.length < 16) :
    (sample text).InState text := by
  have hzeros : List.replicate (16 - text.length) (0 : UInt8) =
      0 :: List.replicate (15 - text.length) 0 := by
    rw [← List.replicate_succ]
    congr 1
    omega
  have hcap : 16 ≤ ptrdiffMax := by decide
  refine ⟨⟨hnul, _, congrArg (text ++ ·) hzeros⟩, rfl, ?_, hcap⟩
  simp only [sample, List.length_append, List.length_replicate]
  omega

/-- Six bytes are left of the text, and six bytes of the handle lie in front of its first zero. -/
theorem stripStr_strips_six :
    Strips samplePlace (fun _ _ => 255) false (sample [32, 97, 98, 32, 99, 100, 101, 9])
      [32, 97, 98, 32, 99, 100, 101, 9] { Memory.boot with obj := () } :=
  (stripStr_strips_iff samplePlace (fun _ _ => 255) false _ _ _
    (sample_inState (by decide) (by decide))).mpr
    ⟨by decide, by decide, by decide, by decide⟩

/-- The four bytes that are left are counted as six. -/
theorem stripStr_counts_handle :
    (sample [32, 32, 97, 98, 32, 99, 32, 32]).InState [32, 32, 97, 98, 32, 99, 32, 32] ∧
      ¬Strips samplePlace (fun _ _ => 255) false (sample [32, 32, 97, 98, 32, 99, 32, 32])
        [32, 32, 97, 98, 32, 99, 32, 32] { Memory.boot with obj := () } := by
  have hstate : (sample [32, 32, 97, 98, 32, 99, 32, 32]).InState [32, 32, 97, 98, 32, 99, 32, 32] :=
    sample_inState (by decide) (by decide)
  refine ⟨hstate, ?_⟩
  intro hstrips
  have hlead : ([32, 32, 97, 98, 32, 99, 32, 32].takeWhile blank).length < 2 ^ 31 := by decide
  have hindex : lastIndex [32, 32, 97, 98, 32, 99, 32, 32] = 5 := by decide
  obtain ⟨bytes, -, -, hwp⟩ := stripStr_wp _ hstate hlead hindex
  have hhandle : (sample [32, 32, 97, 98, 32, 99, 32, 32]).strlenStruct samplePlace = some 6 := by
    decide
  have hsame : ((sample [32, 32, 97, 98, 32, 99, 32, 32]).withBytes bytes).strlenStruct samplePlace =
      (sample [32, 32, 97, 98, 32, 99, 32, 32]).strlenStruct samplePlace := rfl
  have hpost := hwp.mp hstrips
  unfold recount at hpost
  rw [hsame, hhandle, Prog.wp_pure] at hpost
  obtain ⟨-, -, hlen, -⟩ := hpost
  have hfour : toInt (6 : Nat) = (4 : Nat) := hlen
  revert hfour
  decide

end StrObj

end Rdpgen
