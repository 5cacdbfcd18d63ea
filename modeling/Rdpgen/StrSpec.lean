import Rdpgen.Strs

namespace Rdpgen

namespace StrObj

/-- The object is in order: a terminated text inside a buffer of `cap` bytes. -/
structure Sized (p : StrObj) : Prop where
  power : ∃ k, 3 ≤ k ∧ k ≤ 62 ∧ p.cap = 2 ^ k
  length_eq : p.buffer.val.length = p.cap
  len_lt : p.len < p.cap
  nul : p.buffer.val[p.len]? = some 0

/-- The buffer has `cap` bytes and room for the text and its zero. -/
structure Fits (p : StrObj) : Prop where
  length_eq : p.buffer.val.length = p.cap
  len_lt : p.len < p.cap
  cap_le : p.cap ≤ ptrdiffMax

def withBytes (p : StrObj) (bytes : Bytes) : StrObj :=
  { p with buffer := { p.buffer with val := bytes } }

/-- The `len` bytes in front of the terminating zero. -/
def contents (p : StrObj) : STR := p.buffer.val.take p.len

/-- The object holds the text, which has no zero of its own. -/
structure Holds (p : StrObj) (text : Bytes) : Prop where
  sized : p.Sized
  contents_eq : p.contents = text
  nulFree : 0 ∉ text

/-- What an operation from the memory `m` gives: an object in order with the contents, and no
change to other objects. -/
structure Gives {α : Type} (m m' : Memory α) (p : StrObj) (contents : STR) : Prop where
  sized : p.Sized
  contents_eq : p.contents = contents
  obj_eq : m'.obj = m.obj

/-- The object has got a longer buffer with the old bytes in front. -/
structure Grown {α : Type} (m m' : Memory α) (p p' : StrObj) : Prop where
  len_eq : p'.len = p.len
  bytes_eq : ∃ tail, p'.buffer.val = p.buffer.val ++ tail
  cap_eq : ∃ j, p'.cap = p.cap * 2 ^ j
  fits : p'.Fits
  obj_eq : m'.obj = m.obj

/-- `mem_realloc` leaves the program: no allocation has `2 ^ 63` bytes. -/
def Denied {α : Type} (e : Halt) (m : Memory α) : Prop :=
  e = .exit 1 ∧ m.stderr.getLast? = some "Cannot reallocate memory: 9223372036854775808\n"

/-- The same at an append that gives a text of `len` bytes: with its zero the text fills a buffer of
`2 ^ 62` bytes, which `cat_str_str` takes for too small. -/
def Refused {α : Type} (len : Nat) (e : Halt) (m : Memory α) : Prop :=
  len + 1 = 2 ^ 62 ∧ Denied e m

section

variable {p : StrObj} {text : Bytes}

theorem Sized.length_contents (hs : p.Sized) : p.contents.length = p.len := by
  have hlen := hs.length_eq
  have hlt := hs.len_lt
  unfold contents
  rw [List.length_take]
  omega

theorem Sized.cap_le (hs : p.Sized) : p.cap ≤ 2 ^ 62 := by
  obtain ⟨k, -, hk, hcap⟩ := hs.power
  rw [hcap]
  exact Nat.pow_le_pow_right (by omega) hk

theorem Sized.cap_ge (hs : p.Sized) : 8 ≤ p.cap := by
  obtain ⟨k, hk, -, hcap⟩ := hs.power
  rw [hcap]
  exact Nat.pow_le_pow_right (n := 2) (by omega) hk

theorem Sized.fits (hs : p.Sized) : p.Fits := by
  have hle := hs.cap_le
  exact ⟨hs.length_eq, hs.len_lt, by unfold ptrdiffMax; omega⟩

theorem Holds.lenStr_eq (h : p.Holds text) : p.lenStr = text.length := by
  rw [← h.contents_eq, h.sized.length_contents]
  rfl

/-- The buffer is the text, its zero and what lies behind. -/
theorem Holds.buffer_eq (h : p.Holds text) :
    p.buffer.val = text ++ 0 :: p.buffer.val.drop (text.length + 1) := by
  have hlen : text.length = p.len := h.lenStr_eq.symm
  obtain ⟨hlt, hnul⟩ := List.getElem?_eq_some_iff.mp h.sized.nul
  calc p.buffer.val = p.buffer.val.take p.len ++ p.buffer.val.drop p.len :=
        (List.take_append_drop p.len p.buffer.val).symm
    _ = text ++ 0 :: p.buffer.val.drop (text.length + 1) := by
        rw [List.drop_eq_getElem_cons hlt, hnul, hlen]
        exact congrArg (· ++ _) h.contents_eq

/-- A reader of the pointer gets the text. -/
theorem Holds.rawStr_eq (h : p.Holds text) : p.rawStr = text := by
  unfold rawStr
  rw [h.buffer_eq, cString_append_zero _ h.nulFree]

end

section

variable {α : Type} {Q : StrObj → Memory α → Prop} {E : Halt → Memory α → Prop} {D : Prop}
  {m : Memory α} {p : StrObj} {junk : Nat → Nat → UInt8}

theorem wp_write {i : Nat} {src : Bytes} (h : i + src.length ≤ p.buffer.val.length) :
    (p.write i src : MemProg α StrObj).wp Q E D m ↔
      Q { p with buffer := { p.buffer with
        val := p.buffer.val.take i ++ src ++ p.buffer.val.drop (i + src.length) } } m := by
  unfold write memcpyTo
  rw [if_pos h]
  simp only [Prog.wp_bind, Prog.wp_pure]

/-- The text is put behind the old one, over the old zero. -/
def withText (p : StrObj) (str : Bytes) : StrObj :=
  { p with
    buffer := { p.buffer with
      val := p.buffer.val.take p.len ++ str ++ 0 :: p.buffer.val.drop (p.len + str.length + 1) }
    len := p.len + str.length }

theorem Sized.withText {str : Bytes} (hs : p.Sized) (hroom : p.len + str.length < p.cap) :
    (p.withText str).Sized ∧ (p.withText str).contents = p.contents ++ str := by
  have hlen := hs.length_contents
  have hfull := hs.length_eq
  have hfront : (p.contents ++ str).length = p.len + str.length := by
    rw [List.length_append, hlen]
  have hval : (p.withText str).buffer.val =
      p.contents ++ str ++ 0 :: p.buffer.val.drop (p.len + str.length + 1) := rfl
  refine ⟨⟨hs.power, ?_, hroom, ?_⟩, ?_⟩
  · rw [hval, List.length_append, hfront, List.length_cons, List.length_drop]
    show _ = p.cap
    omega
  · show (p.withText str).buffer.val[p.len + str.length]? = some 0
    rw [hval, List.getElem?_append_right (by omega), hfront, Nat.sub_self]
    rfl
  · show (p.withText str).buffer.val.take (p.len + str.length) = _
    rw [hval, List.take_append_of_le_length (by omega), ← hfront, List.take_length]

theorem Fits.length_take (hf : p.Fits) : (p.buffer.val.take p.len).length = p.len := by
  have hlen := hf.length_eq
  have hlt := hf.len_lt
  rw [List.length_take]
  omega

theorem overwrite_next {front rest : Bytes} {x y : UInt8} {i : Nat} (hi : i = front.length) :
    (front ++ x :: rest).take i ++ [y] ++ (front ++ x :: rest).drop (i + 1) = front ++ y :: rest := by
  subst hi
  simp

theorem putText_wp {str : Bytes} (hf : p.Fits) (hroom : p.len + str.length < p.cap) :
    (p.putText str : MemProg α StrObj).wp Q E D m ↔ Q (p.withText str) m := by
  have hfull := hf.length_eq
  have hcap := hf.cap_le
  have hsum : sizeT (p.len + str.length) = p.len + str.length :=
    Nat.mod_eq_of_lt (by unfold ptrdiffMax at hcap; omega)
  have htake := hf.length_take
  have hfront : p.len + str.length = (p.buffer.val.take p.len ++ str).length := by
    rw [List.length_append, htake]
  have hfirst : p.buffer.val.take p.len ++ (str ++ [0]) ++
      p.buffer.val.drop (p.len + (str ++ [0]).length) =
      p.buffer.val.take p.len ++ str ++ 0 :: p.buffer.val.drop (p.len + str.length + 1) := by
    simp [Nat.add_assoc]
  unfold putText
  simp only [Prog.wp_bind]
  rw [wp_write (by rw [List.length_append, List.length_singleton]; omega)]
  simp only [hfirst, hsum]
  rw [wp_write]
  · -- The second zero falls on the first.
    simp only [List.length_singleton, overwrite_next hfront, Prog.wp_pure]
    rfl
  · simp only [List.length_append, htake, List.length_cons, List.length_drop, List.length_nil]
    omega

/-- The character goes over the zero, and a new zero over the byte behind. -/
theorem putChar_wp {ch : Int} {Q : Int × StrObj → Memory α → Prop} (hf : p.Fits)
    (hroom : p.len + 1 < p.cap) :
    (do
      let p ← p.write p.len [uchar ch]
      let len := sizeT (p.len + 1)
      let p ← p.write len [0]
      pure (toInt len, { p with len := len }) : MemProg α (Int × StrObj)).wp Q E D m ↔
      Q (toInt (p.withText [uchar ch]).len, p.withText [uchar ch]) m := by
  have hfull := hf.length_eq
  have hcap := hf.cap_le
  have hsum : sizeT (p.len + 1) = p.len + 1 :=
    Nat.mod_eq_of_lt (by unfold ptrdiffMax at hcap; omega)
  have htake := hf.length_take
  have hnext : p.len + 1 = (p.buffer.val.take p.len ++ [uchar ch]).length := by
    rw [List.length_append, htake, List.length_singleton]
  have hdrop := List.drop_eq_getElem_cons (show p.len + 1 < p.buffer.val.length by omega)
  simp only [Prog.wp_bind]
  rw [wp_write (by rw [List.length_singleton]; omega)]
  simp only [List.length_singleton, hsum, hdrop]
  rw [wp_write]
  · simp only [List.length_singleton, overwrite_next hnext, Prog.wp_pure]
    rfl
  · simp only [List.length_append, htake, List.length_cons, List.length_drop, List.length_nil]
    omega

/-- The doubling ends at the first capacity that is not too small. -/
theorem doubleWhile_wp {small : Nat → Bool} {Q : Nat → Memory α → Prop} {cap : Nat}
    (hsmall : ∀ c, small c = true → c ≤ 2 ^ 62) (hpos : 0 < cap) (hcap : cap ≤ 2 ^ 63)
    (ok : ∀ l, cap * 2 ^ l ≤ 2 ^ 63 → small (cap * 2 ^ l) = false →
      (∀ k, l = k + 1 → small (cap * 2 ^ k) = true) → Q (cap * 2 ^ l) m) :
    (doubleWhile small cap : MemProg α Nat).wp Q E False m := by
  refine Prog.wp_whileDo_of_measure
    (fun c m' => m' = m ∧ c ≤ 2 ^ 63 ∧ ∃ l, c = cap * 2 ^ l ∧
      ∀ k, l = k + 1 → small (cap * 2 ^ k) = true)
    (fun c _ => 2 ^ 63 - c) ?_ ?_ ⟨rfl, hcap, 0, by omega, by omega⟩
  · intro c m' hinv hc
    obtain ⟨hm, -, l, hcl, -⟩ := hinv
    have hle := hsmall c hc
    have hl := Nat.two_pow_pos l
    have hcpos : 0 < c := by
      rw [hcl]
      exact Nat.mul_pos hpos hl
    have hdouble : sizeT (2 * c) = 2 * c := Nat.mod_eq_of_lt (by omega)
    have hnext : 2 * c = cap * 2 ^ (l + 1) := by
      rw [hcl, Nat.pow_succ, Nat.mul_comm 2, Nat.mul_assoc]
    rw [Prog.wp_pure, hdouble]
    refine ⟨⟨hm, by omega, l + 1, hnext, ?_⟩, by omega⟩
    intro k hk
    rwa [← Nat.succ.inj hk, ← hcl]
  · intro c m' hinv hc
    obtain ⟨hm, hle, l, hcl, hlast⟩ := hinv
    subst hm hcl
    exact ok l hle hc hlast

theorem realloc_wp {l : Nat} (hf : p.Fits) (hle : p.cap * 2 ^ l ≤ 2 ^ 63)
    (ok : ∀ (p' : StrObj) m', Grown m m' p p' → p'.cap = p.cap * 2 ^ l → Q p' m')
    (denied : p.cap * 2 ^ l = 2 ^ 63 → ∀ e (m' : Memory α), Denied e m' → E e m') :
    (realloc junk p (p.cap * 2 ^ l) : MemProg α StrObj).wp Q E D m := by
  have hfull := hf.length_eq
  have hlt := hf.len_lt
  have hl := Nat.two_pow_pos l
  have hmore : p.cap ≤ p.cap * 2 ^ l := Nat.le_mul_of_pos_right p.cap hl
  unfold realloc memRealloc
  by_cases hbig : ptrdiffMax < p.cap * 2 ^ l
  · -- Nothing else than `2 ^ 63` lies between the two bounds.
    have hall : p.cap * 2 ^ l = 9223372036854775808 := by
      unfold ptrdiffMax at hbig
      omega
    rw [if_pos hbig]
    simp only [Prog.wp_bind, wp_memError]
    refine denied hall _ _ ⟨rfl, ?_⟩
    rw [List.getLast?_concat, hall]
    rfl
  · rw [if_neg hbig]
    simp only [Prog.wp_bind, wp_newBlock, Prog.wp_modify, Prog.wp_pure]
    rw [List.take_of_length_le (by omega)]
    refine ok _ _ ⟨rfl, ⟨_, rfl⟩, ⟨l, rfl⟩, ⟨?_, Nat.lt_of_lt_of_le hlt hmore, Nat.le_of_not_lt hbig⟩,
      rfl⟩ rfl
    simp only [List.length_append, List.length_map, List.length_range]
    omega

theorem grow_wp {small : Nat → Bool} (hf : p.Fits) (hsmall : ∀ c, small c = true → c ≤ 2 ^ 62)
    (ok : ∀ (p' : StrObj) m', Grown m m' p p' → small p'.cap = false → Q p' m')
    (denied : small (2 ^ 62) = true → ∀ e (m' : Memory α), Denied e m' → E e m') :
    (grow junk small p : MemProg α StrObj).wp Q E False m := by
  have hlt := hf.len_lt
  have hcap := hf.cap_le
  unfold grow
  by_cases hc : small p.cap = true
  · simp only [hc, if_true, Prog.wp_bind]
    apply doubleWhile_wp hsmall (by omega) (by unfold ptrdiffMax at hcap; omega)
    intro l hle hstop hlast
    refine realloc_wp hf hle ?_ ?_
    · intro p' m' hg hcap'
      exact ok p' m' hg (by rw [hcap']; exact hstop)
    · -- The capacity before the last doubling was too small.
      intro hall
      unfold ptrdiffMax at hcap
      obtain ⟨k, rfl⟩ := Nat.exists_eq_succ_of_ne_zero (show l ≠ 0 by rintro rfl; omega)
      have hhalf : p.cap * 2 ^ k = 2 ^ 62 := by
        rw [Nat.pow_succ, ← Nat.mul_assoc] at hall
        omega
      exact denied (hhalf ▸ hlast k rfl)
  · simp only [hc, Bool.false_eq_true, if_false, Prog.wp_pure]
    exact ok p m ⟨rfl, ⟨[], by simp⟩, ⟨0, by omega⟩, hf, rfl⟩ (by simpa using hc)

/-- `cat_string` and `cat_str_str` make room for the text and its zero. -/
theorem catText_wp {small : Nat → Bool} {str : Bytes} (hf : p.Fits)
    (hsmall : ∀ c, small c = true → c ≤ 2 ^ 62)
    (hroom : ∀ c, small c = false → p.len + str.length < c)
    (ok : ∀ (p' : StrObj) m', Grown m m' p p' → p'.len + str.length < p'.cap →
      Q (p'.withText str) m')
    (denied : small (2 ^ 62) = true → ∀ e (m' : Memory α), Denied e m' → E e m') :
    (do
      let p ← grow junk small p
      p.putText str : MemProg α StrObj).wp Q E False m := by
  rw [Prog.wp_bind]
  refine grow_wp hf hsmall ?_ denied
  intro p' m' hg hstop
  have hfit := hroom p'.cap hstop
  rw [← hg.len_eq] at hfit
  rw [putText_wp hg.fits hfit]
  exact ok p' m' hg hfit

/-- A buffer of `2 ^ 62` bytes is enough. -/
theorem catString_wp {str : Bytes} (hf : p.Fits) (hlong : p.len + str.length < 2 ^ 62)
    (ok : ∀ (p' : StrObj) m', Grown m m' p p' → p'.len + str.length < p'.cap →
      Q (p'.withText str) m') :
    (catString junk p str : MemProg α StrObj).wp Q E False m := by
  have hsum : sizeT (p.len + str.length + 1) = p.len + str.length + 1 :=
    Nat.mod_eq_of_lt (by omega)
  refine catText_wp hf ?_ ?_ ok ?_
  · intro c hc
    rw [hsum, decide_eq_true_eq] at hc
    omega
  · intro c hc
    rw [hsum, decide_eq_false_iff_not] at hc
    omega
  · intro hfull
    rw [hsum, decide_eq_true_eq] at hfull
    omega

theorem catStrStr_wp {str : Bytes} {Q : Int × StrObj → Memory α → Prop} (hf : p.Fits)
    (hlong : p.len + str.length < 2 ^ 62)
    (ok : ∀ (p' : StrObj) m', Grown m m' p p' → p'.len + str.length < p'.cap →
      Q (toInt (p'.withText str).len, p'.withText str) m')
    (refused : ∀ e (m' : Memory α), Refused (p.len + str.length) e m' → E e m') :
    (catStrStr junk p str : MemProg α (Int × StrObj)).wp Q E False m := by
  have hsum : sizeT (p.len + str.length + 1) = p.len + str.length + 1 :=
    Nat.mod_eq_of_lt (by omega)
  have hcat : (grow junk (fun cap => cap ≤ sizeT (p.len + str.length + 1)) p >>=
      fun p => p.putText str : MemProg α StrObj).wp (fun p' => Q (toInt p'.len, p')) E False m :=
    catText_wp hf (fun c hc => by rw [hsum, decide_eq_true_eq] at hc; omega)
      (fun c hc => by rw [hsum, decide_eq_false_iff_not] at hc; omega) ok fun hfull e m' hd =>
        refused e m' ⟨by rw [hsum, decide_eq_true_eq] at hfull; omega, hd⟩
  unfold catStrStr
  simpa only [Prog.wp_bind, Prog.wp_pure_eq] using hcat

/-- `vsnprintf` produces a text whose length is an `int`. -/
theorem vsnprintf_of_lt {text : Bytes} (hint : text.length < 2 ^ 31) :
    vsnprintf text = (text.length, text) :=
  if_pos hint

theorem vsnprintf_size {text : Bytes} (hint : text.length < 2 ^ 31) :
    sizeT (text.length + 2) ≤ ptrdiffMax := by
  unfold sizeT ptrdiffMax
  omega

theorem catStrFmt_wp {text : Bytes} {useGc : Bool} {Q : Int × StrObj → Memory α → Prop}
    (hf : p.Fits) (hlong : p.len + text.length < 2 ^ 62) (hint : text.length < 2 ^ 31)
    (ok : ∀ (p' : StrObj) m', Grown m m' p p' → p'.len + text.length < p'.cap →
      Q (toInt (p'.withText text).len, p'.withText text) m')
    (refused : ∀ e (m' : Memory α), Refused (p.len + text.length) e m' → E e m') :
    (catStrFmt junk useGc p text : MemProg α (Int × StrObj)).wp Q E False m := by
  unfold catStrFmt
  rw [vsnprintf_of_lt hint]
  simp only [Prog.wp_bind, wp_memAlloc (vsnprintf_size hint), Prog.wp_pure_eq]
  refine catStrStr_wp hf hlong ?_ refused
  intro p' m' hg hroom
  refine memFree_wp (fun m'' hm => ok p' m'' ?_ hroom) ?_
  · exact ⟨hg.len_eq, hg.bytes_eq, hg.cap_eq, hg.fits, hm.trans hg.obj_eq⟩
  · intro hnull
    cases hnull

theorem catStrChar_wp {ch : Int} {Q : Int × StrObj → Memory α → Prop} (hf : p.Fits)
    (hlong : p.len + 1 < 2 ^ 62)
    (ok : ∀ (p' : StrObj) m', Grown m m' p p' → p'.len + [uchar ch].length < p'.cap →
      Q (toInt (p'.withText [uchar ch]).len, p'.withText [uchar ch]) m') :
    (catStrChar junk p ch : MemProg α (Int × StrObj)).wp Q E D m := by
  have hlt := hf.len_lt
  have hsum : sizeT (p.len + 1) = p.len + 1 := Nat.mod_eq_of_lt (by omega)
  unfold catStrChar
  by_cases hc : p.cap ≤ p.len + 1
  · have hdouble : sizeT (2 * p.cap) = p.cap * 2 ^ 1 := by
      unfold sizeT
      omega
    simp only [hsum, hc, if_true, hdouble]
    rw [Prog.wp_bind]
    refine realloc_wp hf (by omega) ?_ fun hall => by omega
    intro p' m' hg hcap'
    have hlen := hg.len_eq
    exact (putChar_wp hg.fits (by omega)).mpr (ok p' m' hg (by rw [List.length_singleton]; omega))
  · simp only [hsum, hc, if_false]
    rw [Prog.wp_bind, Prog.wp_pure]
    refine (putChar_wp hf (by omega)).mpr (ok p m ?_ (by rw [List.length_singleton]; omega))
    exact ⟨rfl, ⟨[], by simp⟩, ⟨0, by omega⟩, hf, rfl⟩

/-- An object in order stays so when it grows and gets a text behind its own. -/
theorem Sized.gives {p' : StrObj} {m' : Memory α} {str : Bytes} (hs : p.Sized)
    (hg : Grown m m' p p') (hroom : p'.len + str.length < p'.cap) :
    Gives m m' (p'.withText str) (p.contents ++ str) := by
  obtain ⟨k, hlow, hhigh, hcap⟩ := hs.power
  obtain ⟨j, hcap'⟩ := hg.cap_eq
  obtain ⟨tail, hbytes⟩ := hg.bytes_eq
  have hle := hg.fits.cap_le
  have hfull := hs.length_eq
  have hlt := hs.len_lt
  have hpow : p'.cap = 2 ^ (k + j) := by rw [hcap', hcap, Nat.pow_add]
  have hbound : k + j ≤ 62 := by
    by_contra hgt
    have hbig := Nat.pow_le_pow_right (show 0 < 2 by omega) (show 63 ≤ k + j by omega)
    unfold ptrdiffMax at hle
    omega
  have hsized : p'.Sized := by
    refine ⟨⟨k + j, by omega, hbound, hpow⟩, hg.fits.length_eq, hg.fits.len_lt, ?_⟩
    rw [hbytes, hg.len_eq, List.getElem?_append_left (by omega)]
    exact hs.nul
  have hsame : p'.contents = p.contents := by
    unfold contents
    rw [hbytes, hg.len_eq, List.take_append_of_le_length (by omega)]
  obtain ⟨hnew, hall⟩ := hsized.withText hroom
  exact ⟨hnew, by rw [hall, hsame], hg.obj_eq⟩

theorem createStr_wp {str : Option Bytes} (hlong : (str.getD []).length < 2 ^ 62)
    (ok : ∀ (p' : StrObj) m', Gives m m' p' (str.getD []) → Q p' m') :
    (createStr junk str : MemProg α StrObj).wp Q E False m := by
  have hs : ∀ a : Nat, Sized { buffer := ⟨a, List.replicate 8 0⟩, len := 0, cap := 8 } :=
    fun a => ⟨⟨3, by decide, by decide, rfl⟩, rfl, Nat.succ_pos 7, rfl⟩
  unfold createStr
  rw [Prog.wp_bind, wp_memAlloc (by decide)]
  cases str with
  | none =>
    rw [Prog.wp_pure]
    exact ok _ _ ⟨hs _, rfl, rfl⟩
  | some s =>
    simp only [Option.getD_some] at hlong ok
    simp only
    split
    · refine catString_wp (hs _).fits (by simpa using hlong) ?_
      intro p' m' hg hroom
      have hnew := (hs _).gives hg hroom
      exact ok _ m' ⟨hnew.sized, hnew.contents_eq, hnew.obj_eq⟩
    · next hempty =>
      have he : s = [] := List.length_eq_zero_iff.mp (by omega)
      rw [Prog.wp_pure]
      exact ok _ _ ⟨hs _, by rw [he]; rfl, rfl⟩

theorem clearStr_wp (hs : p.Sized)
    (ok : ∀ p' : StrObj, p'.Sized → p'.contents = [] → Q p' m) :
    (clearStr p : MemProg α StrObj).wp Q E D m := by
  have hfull := hs.length_eq
  have hge := hs.cap_ge
  unfold clearStr
  rw [wp_write (by show 0 + 1 ≤ p.buffer.val.length; omega)]
  refine ok _ ⟨hs.power, ?_, by show 0 < p.cap; omega, ?_⟩ rfl
  · simp only [List.take_zero, List.nil_append, List.length_append, List.length_singleton,
      List.length_drop]
    omega
  · rfl

/-- The buffer when the loop of `mapStr` has come to index `i`. -/
def mapped (g : UInt8 → UInt8) (text rest : Bytes) (i : Nat) : Bytes :=
  (text.take i).map g ++ (text.drop i ++ 0 :: rest)

theorem mapped_at {g : UInt8 → UInt8} {text rest : Bytes} {i : Nat} (hi : i < text.length) :
    mapped g text rest i = (text.take i).map g ++ text[i] :: (text.drop (i + 1) ++ 0 :: rest) := by
  unfold mapped
  rw [List.drop_eq_getElem_cons hi, List.cons_append]

@[simp] theorem mapped_length {g : UInt8 → UInt8} {text rest : Bytes} :
    mapped g text rest text.length = text.map g ++ 0 :: rest := by
  simp [mapped]

/-- The loop is at its end when all characters are done. -/
theorem mapped_ends {g : UInt8 → UInt8} {text rest : Bytes} {i : Nat} (hnul : 0 ∉ text)
    (hi : i ≤ text.length) : (mapped g text rest i)[i]? = some 0 ↔ i = text.length := by
  rcases Nat.lt_or_eq_of_le hi with hlt | heq
  · have hfront : ((text.take i).map g).length = i := by simp [hi]
    rw [mapped_at hlt, List.getElem?_append_right (by omega), hfront, Nat.sub_self]
    constructor
    · intro he
      exact (hnul (Option.some.inj he ▸ List.getElem_mem hlt)).elim
    · intro he
      omega
  · rw [heq, mapped_length, List.getElem?_append_right (by simp)]
    simp

/-- One pass of the loop maps the character at index `i`. -/
theorem mapPass_wp {f : Int → Int} {g : UInt8 → UInt8} {text rest : Bytes} {i : Nat}
    {Q : StrObj × Nat → Memory α → Prop} (hg : ∀ b, uchar (f (schar b)) = g b)
    (hlt : i < text.length) :
    (mapPass f (p.withBytes (mapped g text rest i), i)).wp Q E D m ↔
      Q (p.withBytes (mapped g text rest (i + 1)), i + 1) m := by
  have hfront : i = ((text.take i).map g).length := by simp [Nat.le_of_lt hlt]
  have hhere : (mapped g text rest i)[i]? = some text[i] := by
    rw [mapped_at hlt, List.getElem?_append_right (by omega), ← hfront, Nat.sub_self]
    rfl
  have hroom : i + [uchar (f (schar text[i]))].length ≤
      (p.withBytes (mapped g text rest i)).buffer.val.length :=
    (List.getElem?_eq_some_iff.mp hhere).1
  have hread : (p.withBytes (mapped g text rest i)).buffer.val[i]? = some text[i] := hhere
  have hnext : mapped g text rest (i + 1) =
      (text.take i).map g ++ g text[i] :: (text.drop (i + 1) ++ 0 :: rest) := by
    unfold mapped
    rw [List.take_succ_eq_append_getElem hlt, List.map_append, List.append_assoc]
    rfl
  unfold mapPass readAt
  simp only [hread, Prog.wp_bind, Prog.wp_pure, wp_write hroom]
  simp only [withBytes, mapped_at hlt, List.length_singleton, overwrite_next hfront, hnext, hg]

theorem Holds.withMapped {g : UInt8 → UInt8} {text rest : Bytes} (h : p.Holds text)
    (hbuf : p.buffer.val = text ++ 0 :: rest) :
    (p.withBytes (text.map g ++ 0 :: rest)).Sized ∧
      (p.withBytes (text.map g ++ 0 :: rest)).contents = text.map g := by
  have hlen : p.len = text.length := h.lenStr_eq
  have hfull := h.sized.length_eq
  rw [hbuf] at hfull
  refine ⟨⟨h.sized.power, ?_, h.sized.len_lt, ?_⟩, ?_⟩
  · show (text.map g ++ 0 :: rest).length = p.cap
    rw [← hfull]
    simp
  · show (text.map g ++ 0 :: rest)[p.len]? = some 0
    rw [hlen, List.getElem?_append_right (by simp)]
    simp
  · show (text.map g ++ 0 :: rest).take p.len = text.map g
    rw [hlen]
    simp

theorem mapStr_wp {f : Int → Int} {g : UInt8 → UInt8} {text : Bytes} (h : p.Holds text)
    (hg : ∀ b, uchar (f (schar b)) = g b)
    (ok : ∀ p' : StrObj, p'.Sized → p'.contents = text.map g → Q p' m) :
    (mapStr f p : MemProg α StrObj).wp Q E False m := by
  obtain ⟨rest, hbuf⟩ : ∃ rest, p.buffer.val = text ++ 0 :: rest := ⟨_, h.buffer_eq⟩
  unfold mapStr
  simp only [Prog.wp_bind, Prog.wp_pure_eq]
  refine Prog.wp_whileDo_of_measure
    (fun q m' => m' = m ∧ q.2 ≤ text.length ∧ q.1 = p.withBytes (mapped g text rest q.2))
    (fun q _ => text.length - q.2) ?_ ?_ ⟨rfl, Nat.zero_le _, ?_⟩
  · intro q m' hinv hc
    obtain ⟨q₁, i⟩ := q
    obtain ⟨hm, hle, hq⟩ := hinv
    simp only at hle hq hc
    subst hq
    have hne : i ≠ text.length := by
      intro he
      have hend : (mapped g text rest i)[i]? = some 0 := (mapped_ends h.nulFree hle).mpr he
      simp [withBytes, hend] at hc
    have hlt : i < text.length := Nat.lt_of_le_of_ne hle hne
    rw [mapPass_wp hg hlt]
    exact ⟨⟨hm, hlt, rfl⟩, Nat.sub_succ_lt_self _ _ hlt⟩
  · intro q m' hinv hc
    obtain ⟨q₁, i⟩ := q
    obtain ⟨hm, hle, hq⟩ := hinv
    simp only at hle hq hc
    subst hm hq
    have hend : (mapped g text rest i)[i]? = some 0 :=
      Decidable.of_not_not (of_decide_eq_false hc)
    have he : i = text.length := (mapped_ends h.nulFree hle).mp hend
    obtain ⟨hsized, hcontents⟩ := h.withMapped (g := g) hbuf
    rw [he, mapped_length]
    exact ok _ hsized hcontents
  · simp [withBytes, mapped, ← hbuf]

theorem copyStr_wp {text : Bytes} (h : p.Holds text) (hlong : text.length < 2 ^ 62)
    (ok : ∀ (p' : StrObj) m', Gives m m' p' text → Q p' m') :
    (copyStr junk p : MemProg α StrObj).wp Q E False m := by
  have hraw : cString p.buffer.val = text := h.rawStr_eq
  have hzero : 0 ∈ p.buffer.val := List.mem_of_getElem? h.sized.nul
  unfold copyStr
  rw [if_pos hzero, hraw]
  exact createStr_wp hlong ok

end

end StrObj

end Rdpgen
