import Rdpgen.StrSpec
import Mathlib.Data.List.Forall2

namespace Rdpgen

/-- A call on the string objects, which are numbered in the order of their creation. -/
inductive StrOp where
  | create (str : Option Bytes)
  | catChar (h : Nat) (ch : Int)
  | catStr (h : Nat) (str : Bytes)
  | catFmt (h : Nat) (text : Bytes)
  | clear (h : Nat)
  | upcase (h : Nat)
  | downcase (h : Nat)
  | copy (h : Nat)

/-- The string objects of the program. -/
abbrev Store := List StrObj

def onStr (h : Nat) (f : StrObj → MemProg Store StrObj) : MemProg Store Unit := do
  let store ← object
  match store[h]? with
  | none => fault
  | some p => do
    let p ← f p
    let store ← object
    setObject (store.set h p)

def newStr (f : MemProg Store StrObj) : MemProg Store Unit := do
  let p ← f
  let store ← object
  setObject (store ++ [p])

section

variable (junk : Nat → Nat → UInt8) (useGc : Bool)

def runStrOp (op : StrOp) : MemProg Store Unit :=
  match op with
  | .create str => newStr (StrObj.createStr junk str)
  | .catChar h ch => onStr h fun p => do
    let r ← p.catStrChar junk ch
    pure r.2
  | .catStr h str => onStr h fun p => do
    let r ← p.catStrStr junk str
    pure r.2
  | .catFmt h text => onStr h fun p => do
    let r ← p.catStrFmt junk useGc text
    pure r.2
  | .clear h => onStr h StrObj.clearStr
  | .upcase h => onStr h StrObj.upcaseStr
  | .downcase h => onStr h StrObj.downcaseStr
  | .copy h => do
    let store ← object
    match store[h]? with
    | none => fault
    | some p => newStr (p.copyStr junk)

def runStrOps : List StrOp → MemProg Store Unit
  | [] => pure ()
  | op :: ops => do
    runStrOp junk useGc op
    runStrOps ops

end

/-! The same operations on texts. -/

def shiftByte (lo hi : Nat) (d : Int) (b : UInt8) : UInt8 :=
  if lo ≤ b.toNat ∧ b.toNat ≤ hi then UInt8.ofNat (b.toNat + d).toNat else b

def upcaseByte (b : UInt8) : UInt8 := shiftByte 97 122 (-32) b

def downcaseByte (b : UInt8) : UInt8 := shiftByte 65 90 32 b

/-- What a call makes of the texts, numbered as the objects. -/
def textOp (texts : List Bytes) (op : StrOp) : List Bytes :=
  match op with
  | .create str => texts ++ [str.getD []]
  | .catChar h ch => texts.modify h (· ++ [uchar ch])
  | .catStr h str => texts.modify h (· ++ str)
  | .catFmt h text => texts.modify h (· ++ text)
  | .clear h => texts.modify h fun _ => []
  | .upcase h => texts.modify h (·.map upcaseByte)
  | .downcase h => texts.modify h (·.map downcaseByte)
  | .copy h => texts ++ [texts.getD h []]

def textOps (texts : List Bytes) (ops : List StrOp) : List Bytes := ops.foldl textOp texts

/-- The arguments are C strings, bytes other than zero and objects there are, no text gets `2 ^ 62`
bytes, and a format stands for a text that `vsnprintf` produces. -/
def ValidStrOp (texts : List Bytes) (op : StrOp) : Prop :=
  match op with
  | .create str => 0 ∉ str.getD [] ∧ (str.getD []).length < 2 ^ 62
  | .catChar h ch => ∃ text, texts[h]? = some text ∧ 1 ≤ ch ∧ ch ≤ 255 ∧ text.length + 1 < 2 ^ 62
  | .catStr h str => ∃ text, texts[h]? = some text ∧ 0 ∉ str ∧ text.length + str.length < 2 ^ 62
  | .catFmt h str =>
    ∃ text, texts[h]? = some text ∧ 0 ∉ str ∧ text.length + str.length < 2 ^ 62 ∧ str.length < 2 ^ 31
  | .clear h => h < texts.length
  | .upcase h => h < texts.length
  | .downcase h => h < texts.length
  | .copy h => ∃ text, texts[h]? = some text ∧ text.length < 2 ^ 62

def ValidStrOps (texts : List Bytes) : List StrOp → Prop
  | [] => True
  | op :: ops => ValidStrOp texts op ∧ ValidStrOps (textOp texts op) ops

/-- An append behind which the text and its zero fill `2 ^ 62` bytes. -/
def Fills (texts : List Bytes) (op : StrOp) : Prop :=
  match op with
  | .catStr h str | .catFmt h str =>
    ∃ text, texts[h]? = some text ∧ text.length + str.length + 1 = 2 ^ 62
  | _ => False

def RunFills (texts : List Bytes) (ops : List StrOp) : Prop :=
  ∃ front op back, ops = front ++ op :: back ∧ Fills (textOps texts front) op

theorem uchar_schar (b : UInt8) : uchar (schar b) = b := by
  have hb := b.toNat_lt
  apply UInt8.toNat_inj.mp
  unfold uchar schar
  rw [UInt8.toNat_ofNat']
  split <;> omega

/-- The case maps leave the bytes from 128 on alone, which are negative as `char`. -/
theorem uchar_shiftChar {lo hi : Nat} {d : Int} (hhi : hi < 128) (hlow : 0 < lo + d)
    (hhigh : hi + d < 128) (b : UInt8) :
    uchar (shiftChar lo hi d (schar b)) = shiftByte lo hi d b := by
  have hb := b.toNat_lt
  unfold shiftChar shiftByte
  by_cases hin : lo ≤ b.toNat ∧ b.toNat ≤ hi
  · have hs : schar b = b.toNat := by
      unfold schar
      rw [if_pos (by omega)]
    have hmod : ((b.toNat : Int) + d) % 256 = b.toNat + d := Int.emod_eq_of_lt (by omega) (by omega)
    rw [if_pos hin, hs, if_pos (by omega)]
    unfold uchar
    rw [hmod]
  · have hs : ¬((lo : Int) ≤ schar b ∧ schar b ≤ hi) := by
      unfold schar
      split <;> omega
    rw [if_neg hin, if_neg hs, uchar_schar]

theorem shiftByte_ne_zero {lo hi : Nat} {d : Int} (hlow : 0 < lo + d) (hhigh : hi + d < 128)
    {b : UInt8} (hb : b ≠ 0) : shiftByte lo hi d b ≠ 0 := by
  unfold shiftByte
  split
  · next hin =>
    intro he
    have hzero := congrArg UInt8.toNat he
    rw [UInt8.toNat_ofNat'] at hzero
    change (b.toNat + d).toNat % 256 = 0 at hzero
    omega
  · exact hb

theorem zero_notMem_map {f : UInt8 → UInt8} {text : Bytes} (hf : ∀ b, b ≠ 0 → f b ≠ 0)
    (h : 0 ∉ text) : 0 ∉ text.map f := by
  intro hmem
  obtain ⟨b, hb, he⟩ := List.mem_map.mp hmem
  exact hf b (fun hz => h (hz ▸ hb)) he

theorem uchar_ne_zero {ch : Int} (hlow : 1 ≤ ch) (hhigh : ch ≤ 255) : uchar ch ≠ 0 := by
  intro he
  have hzero := congrArg UInt8.toNat he
  unfold uchar at hzero
  rw [UInt8.toNat_ofNat'] at hzero
  change (ch % 256).toNat % 256 = 0 at hzero
  omega

section

open StrObj

variable {junk : Nat → Nat → UInt8} {useGc : Bool} {m : Memory Store} {texts : List Bytes}

/-- Every object holds its text. -/
def Holding (store : Store) (texts : List Bytes) : Prop := List.Forall₂ Holds store texts

theorem Holding.get {store : Store} {h : Nat} {text : Bytes} (hh : Holding store texts)
    (ht : texts[h]? = some text) : ∃ p, store[h]? = some p ∧ p.Holds text := by
  induction hh generalizing h with
  | nil => simp at ht
  | @cons p t store texts hp _ ih =>
    cases h with
    | zero =>
      have he : t = text := by simpa using ht
      subst he
      exact ⟨p, rfl, hp⟩
    | succ h => exact ih (by simpa using ht)

theorem Holding.set {store : Store} {h : Nat} {p : StrObj} {f : Bytes → Bytes}
    (hh : Holding store texts) (hp : ∀ text, texts[h]? = some text → p.Holds (f text)) :
    Holding (store.set h p) (texts.modify h f) := by
  induction hh generalizing h with
  | nil =>
    rw [List.set_nil, List.modify_nil]
    exact List.Forall₂.nil
  | @cons q t store texts hq hrest ih =>
    cases h with
    | zero => exact List.Forall₂.cons (hp t rfl) hrest
    | succ h =>
      rw [List.set_cons_succ, List.modify_succ_cons]
      exact List.Forall₂.cons hq (ih fun text ht => hp text (by simpa using ht))

theorem onStr_wp {h : Nat} {text : Bytes} {f : StrObj → MemProg Store StrObj} {g : Bytes → Bytes}
    {E : Halt → Memory Store → Prop} {D : Prop} (hh : Holding m.obj texts)
    (ht : texts[h]? = some text) (hg : 0 ∉ g text)
    (hf : ∀ p, p.Holds text → (f p).wp (fun p' m' => Gives m m' p' (g text)) E D m) :
    (onStr h f).wp (fun _ m' => Holding m'.obj (texts.modify h g)) E D m := by
  obtain ⟨p, hslot, hp⟩ := hh.get ht
  unfold onStr
  simp only [Prog.wp_bind, wp_object, hslot]
  apply (hf p hp).imp
  intro p' m' hgives
  rw [wp_object, wp_setObject, hgives.obj_eq]
  refine hh.set fun text' ht' => ?_
  rw [ht] at ht'
  cases ht'
  exact ⟨hgives.sized, hgives.contents_eq, hg⟩

theorem newStr_wp {text : Bytes} {f : MemProg Store StrObj} {E : Halt → Memory Store → Prop}
    {D : Prop} (hh : Holding m.obj texts) (ht : 0 ∉ text)
    (hf : f.wp (fun p' m' => Gives m m' p' text) E D m) :
    (newStr f).wp (fun _ m' => Holding m'.obj (texts ++ [text])) E D m := by
  unfold newStr
  rw [Prog.wp_bind]
  apply hf.imp
  intro p' m' hgives
  rw [Prog.wp_bind, wp_object, wp_setObject, hgives.obj_eq]
  exact List.rel_append hh
    (List.Forall₂.cons ⟨hgives.sized, hgives.contents_eq, ht⟩ List.Forall₂.nil)

/-- `upcase_str` and `downcase_str` map the text of the object. -/
theorem mapStr_holding {h lo hi : Nat} {d : Int} {E : Halt → Memory Store → Prop}
    (hh : Holding m.obj texts) (hlt : h < texts.length)
    (hhi : hi < 128) (hlow : 0 < lo + d) (hhigh : hi + d < 128) :
    (onStr h (mapStr (shiftChar lo hi d))).wp
      (fun _ m' => Holding m'.obj (texts.modify h (·.map (shiftByte lo hi d)))) E False m := by
  have ht : texts[h]? = some texts[h] := List.getElem?_eq_getElem hlt
  obtain ⟨p, -, hp⟩ := hh.get ht
  apply onStr_wp hh ht (zero_notMem_map (fun b hb => shiftByte_ne_zero hlow hhigh hb) hp.nulFree)
  intro q hq
  apply mapStr_wp hq (uchar_shiftChar hhi hlow hhigh)
  intro q' hs' hcont
  exact ⟨hs', hcont, rfl⟩

/-- Each call does to the texts what it says. -/
theorem runStrOp_wp {op : StrOp} (hh : Holding m.obj texts) (hvalid : ValidStrOp texts op) :
    (runStrOp junk useGc op).wp (fun _ m' => Holding m'.obj (textOp texts op))
      (fun e m' => Denied e m' ∧ Fills texts op) False m := by
  cases op with
  | create str =>
    obtain ⟨hnul, hlong⟩ := hvalid
    exact newStr_wp hh hnul (createStr_wp hlong fun _ _ hg => hg)
  | catChar h ch =>
    obtain ⟨text, ht, hlow, hhigh, hlong⟩ := hvalid
    obtain ⟨q, -, hq⟩ := hh.get ht
    refine onStr_wp hh ht ?_ ?_
    · intro hmem
      rcases List.mem_append.mp hmem with hmem | hmem
      · exact hq.nulFree hmem
      · exact uchar_ne_zero hlow hhigh (List.mem_singleton.mp hmem).symm
    · intro p hp
      rw [Prog.wp_bind]
      simp only [Prog.wp_pure_eq]
      refine catStrChar_wp hp.sized.fits (by rw [← hp.lenStr_eq] at hlong; exact hlong) ?_
      intro p' m' hg hroom
      have hnew := hp.sized.gives hg hroom
      rw [hp.contents_eq] at hnew
      exact hnew
  | catStr h str =>
    obtain ⟨text, ht, hnul, hlong⟩ := hvalid
    obtain ⟨q, -, hq⟩ := hh.get ht
    apply onStr_wp hh ht (by simp [hq.nulFree, hnul])
    intro p hp
    rw [Prog.wp_bind]
    simp only [Prog.wp_pure_eq]
    have hlen : p.len = text.length := hp.lenStr_eq
    refine catStrStr_wp hp.sized.fits (by rw [hlen]; exact hlong) ?_
      fun e m' he => ⟨he.2, text, ht, by rw [← hlen]; exact he.1⟩
    intro p' m' hg hroom
    have hnew := hp.sized.gives hg hroom
    rw [hp.contents_eq] at hnew
    exact hnew
  | catFmt h str =>
    obtain ⟨text, ht, hnul, hlong, hint⟩ := hvalid
    obtain ⟨q, -, hq⟩ := hh.get ht
    apply onStr_wp hh ht (by simp [hq.nulFree, hnul])
    intro p hp
    rw [Prog.wp_bind]
    simp only [Prog.wp_pure_eq]
    have hlen : p.len = text.length := hp.lenStr_eq
    refine catStrFmt_wp hp.sized.fits (by rw [hlen]; exact hlong) hint ?_
      fun e m' he => ⟨he.2, text, ht, by rw [← hlen]; exact he.1⟩
    intro p' m' hg hroom
    have hnew := hp.sized.gives hg hroom
    rw [hp.contents_eq] at hnew
    exact hnew
  | clear h =>
    have ht : texts[h]? = some texts[h] := List.getElem?_eq_getElem hvalid
    apply onStr_wp hh ht (by simp)
    intro p hp
    exact clearStr_wp hp.sized fun p' hs' hcont => ⟨hs', hcont, rfl⟩
  | upcase h => exact mapStr_holding hh hvalid (by decide) (by decide) (by decide)
  | downcase h => exact mapStr_holding hh hvalid (by decide) (by decide) (by decide)
  | copy h =>
    obtain ⟨text, ht, hlong⟩ := hvalid
    obtain ⟨p, hslot, hp⟩ := hh.get ht
    have htext : texts.getD h [] = text := by rw [List.getD_eq_getElem?_getD, ht, Option.getD_some]
    have hrun : runStrOp junk useGc (.copy h) = object >>= fun store =>
        match store[h]? with
        | none => fault
        | some p => newStr (p.copyStr junk) := rfl
    have hop : textOp texts (.copy h) = texts ++ [text] := congrArg (fun t => texts ++ [t]) htext
    rw [hrun, hop, Prog.wp_bind, wp_object]
    simp only [hslot]
    exact newStr_wp hh hp.nulFree (copyStr_wp hp hlong fun _ _ hg => hg)

end

theorem runStrOps_wp {junk : Nat → Nat → UInt8} {useGc : Bool} {ops : List StrOp} {m : Memory Store}
    {texts : List Bytes} (hh : Holding m.obj texts) (hvalid : ValidStrOps texts ops) :
    (runStrOps junk useGc ops).wp (fun _ m' => Holding m'.obj (textOps texts ops))
      (fun e m' => StrObj.Denied e m' ∧ RunFills texts ops) False m := by
  induction ops generalizing m texts with
  | nil =>
    simp only [runStrOps, Prog.wp_pure]
    exact hh
  | cons op ops ih =>
    simp only [runStrOps, Prog.wp_bind]
    apply (runStrOp_wp hh hvalid.1).mono
    · intro _ m' hh'
      apply (ih hh' hvalid.2).mono (fun _ _ h => h) ?_ id
      intro e m'' he
      obtain ⟨hdenied, front, op', back, hops, hfills⟩ := he
      exact ⟨hdenied, op :: front, op', back, congrArg (op :: ·) hops, hfills⟩
    · exact fun e m' he => ⟨he.1, [], op, ops, rfl, he.2⟩
    · exact id

/-- The object shows the text to its callers, inside a buffer of `cap` bytes. -/
structure StrObj.Represents (p : StrObj) (text : Bytes) : Prop where
  raw_eq : p.rawStr = text
  len_eq : p.lenStr = text.length
  nul : p.buffer.val[p.len]? = some 0
  power : ∃ k, 3 ≤ k ∧ p.cap = 2 ^ k
  len_lt : p.len < p.cap
  length_eq : p.buffer.val.length = p.cap

theorem StrObj.Holds.represents {p : StrObj} {text : Bytes} (h : p.Holds text) :
    p.Represents text := by
  obtain ⟨k, hk, -, hcap⟩ := h.sized.power
  exact ⟨h.rawStr_eq, h.lenStr_eq, h.sized.nul, ⟨k, hk, hcap⟩, h.sized.len_lt, h.sized.length_eq⟩

/-- The growable string represents its text exactly: after every run of calls each object shows the
text that the same calls make of lists of bytes. No write leaves a buffer and no loop goes on for
ever; the program is left only at an append that gives a text of `2 ^ 62 - 1` bytes. -/
theorem strObjs_represent (junk : Nat → Nat → UInt8) (useGc : Bool) (ops : List StrOp)
    (m : Memory Store) (hnone : m.obj = []) (hvalid : ValidStrOps [] ops) :
    (runStrOps junk useGc ops).wp
      (fun _ m' => List.Forall₂ StrObj.Represents m'.obj (textOps [] ops))
      (fun e m' => StrObj.Denied e m' ∧ RunFills [] ops) False m := by
  have hh : Holding m.obj [] := by
    rw [hnone]
    exact List.Forall₂.nil
  exact (runStrOps_wp hh hvalid).imp fun _ _ hh' => hh'.imp fun _ _ => StrObj.Holds.represents

/-- The end of the buffer is met exactly, and a cleared object is filled again. -/
def boundaryCalls : List StrOp :=
  [.create (some (List.replicate 7 97)), .catChar 0 98, .upcase 0, .copy 0, .clear 0,
    .catStr 0 [99], .catFmt 1 [100]]

/-- The run returns, with two objects. -/
theorem boundaryCalls_represent :
    ∃ m', (runStrOps (fun _ _ => 255) false boundaryCalls).Runs { Memory.boot with obj := [] }
        (.ok () m') ∧
      List.Forall₂ StrObj.Represents m'.obj [[99], [65, 65, 65, 65, 65, 65, 65, 66, 100]] := by
  have hvalid : ValidStrOps [] boundaryCalls :=
    ⟨⟨by decide, by decide⟩, ⟨_, rfl, by decide, by decide, by decide⟩, Nat.succ_pos 0,
      ⟨_, rfl, by decide⟩, Nat.succ_pos 1, ⟨_, rfl, by decide, by decide⟩,
      ⟨_, rfl, by decide, by decide, by decide⟩, trivial⟩
  have hrun : ∃ m', (runStrOps (fun _ _ => 255) false boundaryCalls).Runs
      { Memory.boot with obj := [] } (.ok () m') := ⟨_, ⟨12, rfl⟩⟩
  obtain ⟨m', hrun⟩ := hrun
  exact ⟨m', hrun, (strObjs_represent (fun _ _ => 255) false boundaryCalls _ rfl hvalid).1 _ _ hrun⟩

end Rdpgen
