import Rdpgen.ListDestroy

namespace Rdpgen

/-- The lists of the program by numbers, and the rest of its memory. -/
structure Lists (ρ : Type) where
  lst : Nat → Lst
  rest : ρ

abbrev ListProg (ρ α : Type) := Prog Halt (Lists ρ) α

namespace Lists

section

variable {ρ α : Type}

def setLst (st : Lists ρ) (k : Nat) (l : Lst) : Lists ρ :=
  { st with lst := Function.update st.lst k l }

/-- A function of the list module on list `k`; `none` is a fault. -/
def onLst (k : Nat) (f : Lst → Option (α × Lst)) : ListProg ρ α := do
  let st ← Prog.gets id
  match f (st.lst k) with
  | none => Prog.stop .fault
  | some r => do
    Prog.modify fun st => st.setLst k r.2
    pure r.1

def reset (k : Nat) : ListProg ρ Addr := onLst k fun l => some l.resetLst

def iterate (k : Nat) : ListProg ρ Addr := onLst k Lst.iterateLst

def getElem (k : Nat) (index : Int) : ListProg ρ Addr :=
  onLst k fun l => (l.getElem index).map fun p => (p, l)

/-- `append_lst` with the block that it has got. -/
def link (k : Nat) (e : Entry) : ListProg ρ Unit :=
  onLst k fun l => (l.appendLst e).map fun l' => ((), l')

/-- `malloc` is the allocator; without a block `mem_alloc` leaves the program. -/
def append (malloc : Lists ρ → Nat → Nat → Option Addr) (k : Nat) (type : Int)
    (data : List UInt8) : ListProg ρ Unit := do
  let st ← Prog.gets id
  match malloc st k data.length with
  | none => Prog.stop (.exit 1)
  | some a => link k ⟨a, type, data⟩

def strInPass (k : Nat) (same : Lists ρ → Addr → Bool) (q : UInt32 × Bool) :
    ListProg ρ (UInt32 × Bool) := do
  let p ← getElem k (toInt q.1.toNat)
  if p = NULL then Prog.stop .fault
  else do
    let hit ← Prog.gets fun st => same st p
    pure (if hit then (q.1, true) else (q.1 + 1, false))

/-- `str_in_lst`; `same` says whether the string behind a pointer equals the one looked for. -/
def strInLst (k : Nat) (same : Lists ρ → Addr → Bool) : ListProg ρ Bool := do
  let q ← Prog.whileDo (fun q st => !q.2 && q.1.toNat < (st.lst k).getLstLen.toNat)
    (strInPass k same) (0, false)
  pure q.2

def forPass (k : Nat) (body : Addr → ListProg ρ Unit) (q : Addr × List Addr) :
    ListProg ρ (Addr × List Addr) := do
  body q.1
  let p ← iterate k
  pure (p, q.2 ++ [q.1])

/-- The macro `FOR_LST` with its body; the answer are the pointers that the body gets. -/
def forLst (k : Nat) (body : Addr → ListProg ρ Unit) : ListProg ρ (List Addr) := do
  let p ← reset k
  let q ← Prog.whileDo (fun q _ => q.1 ≠ NULL) (forPass k body) (p, [])
  pure q.2

/-- The data of the element behind a pointer that a traversal of list `k` has handed out. -/
def deref (k : Nat) (p : Addr) : ListProg ρ (List UInt8) :=
  onLst k fun l => (l.load (voidToElem p)).map fun c => (c.data, l)

/-- A step of the program that changes no list. -/
def step (f : Lists ρ → α × ρ) : ListProg ρ α :=
  Prog.act fun st => ((f st).1, { st with rest := (f st).2 })

end

/-- The allocator answers with blocks that the list does not hold yet. -/
def Grants {ρ : Type} (malloc : Lists ρ → Nat → Nat → Option Addr) : Prop :=
  ∀ st k a type data s, (st.lst k).Represents s → malloc st k data.length = some a →
    Entry.Fresh ⟨a, type, data⟩ s

/-- What a body may do while the lists of `opened` are traversed and have handed out a pointer each:
look at the elements behind these, read whatever else it likes, append to other lists, traverse other
lists of `inner`, and look for a string in list `k` if `strs` is set. -/
inductive Allowed {ρ : Type} (malloc : Lists ρ → Nat → Nat → Option Addr) (strs : Bool)
    (inner : List Nat) (k : Nat) : List (Nat × Addr) → ∀ {α : Type}, ListProg ρ α → Prop
  | step {opened : List (Nat × Addr)} {α : Type} (f : Lists ρ → α × ρ) :
      Allowed malloc strs inner k opened (step f)
  | deref {opened : List (Nat × Addr)} (j : Nat) (p : Addr) : (j, p) ∈ opened →
      Allowed malloc strs inner k opened (deref j p)
  | bind {opened : List (Nat × Addr)} {α β : Type} {p : ListProg ρ α} {f : α → ListProg ρ β} :
      Allowed malloc strs inner k opened p → (∀ a, Allowed malloc strs inner k opened (f a)) →
      Allowed malloc strs inner k opened (p >>= f)
  | append {opened : List (Nat × Addr)} (j : Nat) (type : Int) (data : List UInt8) :
      j ∉ opened.map Prod.fst → Allowed malloc strs inner k opened (append malloc j type data)
  | getElem {opened : List (Nat × Addr)} (j : Nat) (index : Int) :
      Allowed malloc strs inner k opened (getElem j index)
  | strInLst {opened : List (Nat × Addr)} (same : Lists ρ → Addr → Bool) : strs = true →
      Allowed malloc strs inner k opened (strInLst k same)
  | forLst {opened : List (Nat × Addr)} (j : Nat) (body : Addr → ListProg ρ Unit) : j ∈ inner →
      j ∉ opened.map Prod.fst → (∀ p, Allowed malloc strs inner k ((j, p) :: opened) (body p)) →
      Allowed malloc strs inner k opened (forLst j body)

/-- Each index that the loop of `str_in_lst` comes to is one of an element, also after its
conversion to `int`, and the `unsigned` counter reaches the length. -/
def Searchable (l : Lst) (n : Nat) : Prop :=
  (l.getLstLen.toNat ≤ n ∨ 2 ^ 31 ≤ n) ∧ l.getLstLen.toNat < 2 ^ 32

section

variable {ρ α : Type} {E : Halt → Lists ρ → Prop} {D : Prop} {st : Lists ρ} {k : Nat}
  {s : List Entry}

@[simp] theorem setLst_same (l : Lst) : (st.setLst k l).lst k = l := by
  simp [setLst]

theorem setLst_other {j : Nat} (l : Lst) (h : j ≠ k) : (st.setLst k l).lst j = st.lst j := by
  simp [setLst, h]

@[simp] theorem setLst_self : st.setLst k (st.lst k) = st := by
  simp [setLst]

/-- Every list is one, and those of `inner` have an element. -/
def Sound (inner : List Nat) (st : Lists ρ) : Prop :=
  ∀ j, ∃ s, (st.lst j).Represents s ∧ (j ∈ inner → s ≠ [])

theorem Sound.setLst {inner : List Nat} {l : Lst} (hs : Sound inner st) (hl : l.Represents s)
    (hne : k ∈ inner → s ≠ []) : Sound inner (st.setLst k l) := by
  intro j
  by_cases hjk : j = k
  · subst hjk
    rw [setLst_same]
    exact ⟨s, hl, hne⟩
  · rw [setLst_other l hjk]
    exact hs j

theorem Sound.setCrnt {inner : List Nat} (hs : Sound inner st) (k : Nat) (c : Addr) :
    Sound inner (st.setLst k { st.lst k with crnt := c }) := by
  obtain ⟨s, hr, hne⟩ := hs k
  exact hs.setLst (hr.crnt c) hne

theorem wp_onLst {f : Lst → Option (α × Lst)} {a : α} {l : Lst} {Q : α → Lists ρ → Prop}
    (h : f (st.lst k) = some (a, l)) : (onLst k f).wp Q E D st ↔ Q a (st.setLst k l) := by
  unfold onLst
  simp only [Prog.wp_bind, Prog.wp_gets, id_eq, h, Prog.wp_modify, Prog.wp_pure]

theorem wp_onLst_none {f : Lst → Option (α × Lst)} {Q : α → Lists ρ → Prop}
    (h : f (st.lst k) = none) : (onLst k f).wp Q E D st ↔ E .fault st := by
  unfold onLst
  simp only [Prog.wp_bind, Prog.wp_gets, id_eq, h, Prog.wp_stop]

theorem wp_getElem {index : Int} {Q : Addr → Lists ρ → Prop} (h : (st.lst k).Represents s) :
    (getElem k index).wp Q E D st ↔ Q ((Lst.entryAt s index).elim NULL Entry.handle) st := by
  unfold getElem
  rw [wp_onLst (by rw [Lst.getElem_eq h]; rfl), setLst_self]

theorem wp_append {malloc : Lists ρ → Nat → Nat → Option Addr} {type : Int} {data : List UInt8}
    {Q : Unit → Lists ρ → Prop} (hm : Grants malloc) (h : (st.lst k).Represents s)
    (ok : ∀ e l, l.Represents (s ++ [e]) → Q () (st.setLst k l)) (refused : E (.exit 1) st) :
    (append malloc k type data).wp Q E D st := by
  unfold append
  rw [Prog.wp_bind, Prog.wp_gets]
  cases ha : malloc st k data.length with
  | none =>
    simp only [id_eq, ha, Prog.wp_stop]
    exact refused
  | some a =>
    have hfresh := hm st k a type data s h ha
    obtain ⟨l, hl, hr, -⟩ := Lst.appendLst_represents h hfresh
    simp only [id_eq, ha]
    unfold link
    rw [wp_onLst (by rw [hl]; rfl)]
    exact ok _ l hr

theorem toNat_succ {i : UInt32} {n : Nat} (hi : i.toNat < n) (hn : n < 2 ^ 32) :
    (i + 1).toNat = i.toNat + 1 := by
  have hone : (1 : UInt32).toNat = 1 := rfl
  rw [UInt32.toNat_add, hone]
  exact Nat.mod_eq_of_lt (by omega)

theorem strInLst_wp {same : Lists ρ → Addr → Bool} (h : (st.lst k).Represents s)
    (hs : Searchable (st.lst k) s.length) :
    (strInLst k same).wp (fun _ st' => st' = st) E False st := by
  obtain ⟨hin, hlen⟩ := hs
  unfold strInLst
  rw [Prog.wp_bind]
  refine Prog.wp_whileDo_of_measure (fun _ st' => st' = st)
    (fun q _ => if q.2 then 0 else (st.lst k).getLstLen.toNat - q.1.toNat + 1) ?_ ?_ rfl
  · intro q st' hst hc
    subst hst
    obtain ⟨hfound, hlt⟩ : q.2 = false ∧ q.1.toNat < (st'.lst k).getLstLen.toNat := by
      simpa using hc
    obtain ⟨e, hget, hat⟩ := Lst.entryAt_toInt (s := s) (i := q.1.toNat) (by omega) (by omega)
    have he := List.mem_of_getElem? hget
    have hnext := toNat_succ hlt hlen
    unfold strInPass
    rw [Prog.wp_bind, wp_getElem h, hat, Option.elim_some, if_neg (h.handle_ne he), Prog.wp_bind,
      Prog.wp_gets, Prog.wp_pure]
    refine ⟨rfl, ?_⟩
    have hless : (st'.lst k).getLstLen.toNat - (q.1.toNat + 1) + 1 <
        (st'.lst k).getLstLen.toNat - q.1.toNat + 1 := by omega
    rw [hfound]
    split
    · exact Nat.succ_pos _
    · rw [hnext]
      exact hless
  · intro q st' hst _
    exact Prog.wp_pure.mpr hst

/-- Otherwise a search for a string that is not there comes to a null pointer or never ends. -/
theorem strInLst_lost (h : (st.lst k).Represents s) (hs : ¬Searchable (st.lst k) s.length) :
    (strInLst k fun _ _ => false).wp (fun _ _ => False) (fun e _ => e = .fault) True st := by
  unfold strInLst
  rw [Prog.wp_bind]
  refine Prog.wp_whileDo_of_invariant
    (fun q st' => st' = st ∧ q.2 = false ∧
      (s.length < 2 ^ 31 → s.length < (st.lst k).getLstLen.toNat → q.1.toNat ≤ s.length)) ?_ ?_
    ⟨rfl, rfl, fun _ _ => Nat.zero_le _⟩
  · intro q st' hinv hc
    obtain ⟨hst, hfound, hle⟩ := hinv
    subst hst
    unfold strInPass
    rw [Prog.wp_bind, wp_getElem h]
    split
    · exact Prog.wp_stop.mpr rfl
    · next hnull =>
      rw [Prog.wp_bind, Prog.wp_gets, Prog.wp_pure, if_neg Bool.false_ne_true]
      refine ⟨rfl, rfl, ?_⟩
      intro hsmall hlong
      have hq := hle hsmall hlong
      have hne : q.1.toNat ≠ s.length := by
        intro he
        apply hnull
        rw [he, Lst.entryAt_of_lt hsmall, List.getElem?_eq_none (Nat.le_refl _)]
        rfl
      rw [toNat_succ (Nat.lt_of_le_of_ne hq hne) (by omega)]
      omega
  · intro q st' hinv hc
    exfalso
    obtain ⟨hst, hfound, hle⟩ := hinv
    subst hst
    have hend : (st'.lst k).getLstLen.toNat ≤ q.1.toNat := by simpa [hfound] using hc
    have hbound := q.1.toNat_lt
    refine hs ⟨?_, by omega⟩
    by_contra hneither
    have hq := hle (by omega) (by omega)
    omega

theorem iterateLst_crnt {l l' : Lst} {p : Addr} (h : l.iterateLst = some (p, l')) :
    ∃ c, l' = { l with crnt := c } := by
  unfold Lst.iterateLst at h
  by_cases hc : l.crnt = NULL
  · simp only [hc, ne_eq, not_true_eq_false, if_false, Option.bind_eq_bind, Option.bind_some,
      Option.some.injEq, Prod.mk.injEq] at h
    exact ⟨l.crnt, h.2.symm⟩
  · simp only [ne_eq, hc, not_false_eq_true, if_true, Option.bind_eq_bind] at h
    cases hl : l.load l.crnt with
    | none => simp [hl] at h
    | some c =>
      simp only [hl, Option.bind_some, Option.some.injEq, Prod.mk.injEq] at h
      exact ⟨c.next, h.2.symm⟩

/-- A body that keeps `I` and leaves list `k` alone gets the pointers of the traversal. -/
theorem forPass_visits {body : Addr → ListProg ρ Unit} {d : Lst} {I : Lists ρ → Prop}
    (hcrnt : ∀ st c, I st → I (st.setLst k { st.lst k with crnt := c }))
    {a : List Addr} (hbody : ∀ p st c, p ∈ a → I st → st.lst k = { d with crnt := c } →
      (body p).wp (fun _ st' => I st' ∧ st'.lst k = st.lst k) E False st)
    {p : Addr} {l : Lst} {ps : List Addr} (h : Lst.Visits p l ps) (hps : ps ⊆ a) (hI : I st)
    (hl : st.lst k = l) (hc : ∃ c, l = { d with crnt := c }) (acc : List Addr) :
    (Prog.whileDo (fun q _ => q.1 ≠ NULL) (forPass k body) (p, acc)).wp
      (fun q st' => q.2 = acc ++ ps ∧ I st' ∧ ∃ c, st'.lst k = { d with crnt := c }) E False st := by
  induction h generalizing st acc with
  | done l =>
    rw [Prog.wp_whileDo, if_neg (by simp)]
    exact ⟨(List.append_nil acc).symm, hI, hl ▸ hc⟩
  | @pass p q l l' ps hne hit _ ih =>
    obtain ⟨c, hc⟩ := hc
    obtain ⟨c', hc'⟩ := iterateLst_crnt hit
    rw [Prog.wp_whileDo, if_pos (by simpa using hne)]
    unfold forPass
    rw [Prog.wp_bind]
    apply (hbody p st c (hps List.mem_cons_self) hI (hl.trans hc)).imp
    intro _ st' hst'
    obtain ⟨hI', hsame⟩ := hst'
    have hl' : st'.lst k = l := hsame.trans hl
    have hit' : (st'.lst k).iterateLst = some (q, l') := by rw [hl', hit]
    unfold iterate
    rw [Prog.wp_bind, wp_onLst hit', Prog.wp_pure]
    have hI'' : I (st'.setLst k l') := by
      rw [hc', ← hl']
      exact hcrnt st' c' hI'
    have hnext := ih (fun _ hq => hps (List.mem_cons_of_mem p hq)) hI'' (setLst_same l')
      ⟨c', by rw [hc', hc]⟩ (acc ++ [p])
    rw [List.append_assoc, List.singleton_append] at hnext
    exact hnext

/-- The pointers that a traversal hands out. -/
def handed (s : List Entry) : List Addr :=
  if s = [] then [elemToVoid NULL] else s.map Entry.handle

/-- A traversal of a list with the elements `s`. -/
theorem forLst_wp {body : Addr → ListProg ρ Unit} {I : Lists ρ → Prop}
    (h : (st.lst k).Represents s) (hcrnt : ∀ st c, I st → I (st.setLst k { st.lst k with crnt := c }))
    (hbody : ∀ p st, p ∈ handed s → I st → (st.lst k).Represents s →
      (body p).wp (fun _ st' => I st' ∧ st'.lst k = st.lst k) E False st) (hI : I st) :
    (forLst k body).wp
      (fun ps st' => ps = handed s ∧ I st' ∧ ∃ c, st'.lst k = { st.lst k with crnt := c }) E False
      st := by
  have hvisits := Lst.forLst_represents h
  have hreset : (st.lst k).resetLst.2 = { st.lst k with crnt := (st.lst k).first } := rfl
  have hstart : I (st.setLst k (st.lst k).resetLst.2) := hcrnt st _ hI
  unfold forLst reset
  rw [Prog.wp_bind, wp_onLst rfl, Prog.wp_bind]
  refine (forPass_visits (d := st.lst k) (a := handed s) hcrnt ?_ hvisits (fun _ hq => hq) hstart
    (setLst_same _) ⟨_, hreset⟩ []).imp ?_
  · intro p st' c hp hst' hl
    exact hbody p st' hp hst' (hl ▸ h.crnt c)
  · intro q st' hpost
    exact Prog.wp_pure.mpr hpost

/-- A first call of the body that does not return. -/
theorem forLst_lost {body : Addr → ListProg ρ Unit} (h : (st.lst k).Represents s)
    (hbody : ∀ st' c, st' = st.setLst k { st.lst k with crnt := c } →
      (body (elemToVoid (st.lst k).first)).wp (fun _ _ => False) E D st') :
    (forLst k body).wp (fun _ _ => False) E D st := by
  have hp : elemToVoid (st.lst k).first ≠ NULL := by
    have hfirst := h.first
    cases s with
    | nil =>
      have hnull : (st.lst k).first = NULL := hfirst
      rw [hnull]
      decide
    | cons e s =>
      have helem : (st.lst k).first = e.elem := hfirst
      rw [helem]
      exact h.handle_ne (by simp)
  have hgo : decide (elemToVoid (st.lst k).first ≠ NULL) = true := decide_eq_true hp
  unfold forLst reset
  rw [Prog.wp_bind, wp_onLst rfl, Prog.wp_bind, Prog.wp_whileDo, if_pos hgo]
  unfold forPass
  rw [Prog.wp_bind]
  exact (hbody _ _ rfl).imp fun _ _ hfalse => hfalse.elim

theorem deref_wp {e : Entry} {Q : List UInt8 → Lists ρ → Prop} (h : (st.lst k).Represents s)
    (he : e ∈ s) : (deref k e.handle).wp Q E D st ↔ Q e.data st := by
  obtain ⟨c, hc, hcontent⟩ := h.load he
  have hdata : c.data = e.data := congrArg (fun t => t.2.2) hcontent
  have hload : (st.lst k).load (voidToElem e.handle) = some c := by
    rw [Entry.handle, voidToElem_elemToVoid, Lst.load]
    exact hc
  unfold deref
  rw [wp_onLst (by rw [hload]; rfl), setLst_self, hdata]

/-- What a body keeps: each list is a list, and those under traversal are as they were. -/
structure KeepsLists (inner : List Nat) (opened : List (Nat × Addr)) (st st' : Lists ρ) : Prop where
  sound : Sound inner st'
  same : ∀ x ∈ opened, st'.lst x.1 = st.lst x.1

/-- Behind each pointer that was handed out there is an element. -/
def Hands (opened : List (Nat × Addr)) (st : Lists ρ) : Prop :=
  ∀ x ∈ opened, ∃ s e, (st.lst x.1).Represents s ∧ e ∈ s ∧ x.2 = e.handle

theorem Hands.keep {inner : List Nat} {opened : List (Nat × Addr)} {st' : Lists ρ}
    (h : Hands opened st) (hkeep : KeepsLists inner opened st st') : Hands opened st' := by
  intro x hx
  rw [hkeep.same x hx]
  exact h x hx

theorem allowed_wp {malloc : Lists ρ → Nat → Nat → Option Addr} {strs : Bool} {inner : List Nat}
    {opened : List (Nat × Addr)} {p : ListProg ρ α} (hp : Allowed malloc strs inner k opened p)
    (hm : Grants malloc) (hk : k ∈ opened.map Prod.fst) (hs : Sound inner st) (hh : Hands opened st)
    (hsearch : strs = true → ∃ s, (st.lst k).Represents s ∧ Searchable (st.lst k) s.length) :
    p.wp (fun _ st' => KeepsLists inner opened st st') (fun e _ => e = .exit 1) False st := by
  have ofOpened {opened : List (Nat × Addr)} {st st' : Lists ρ} (hk : k ∈ opened.map Prod.fst)
      (hkeep : KeepsLists inner opened st st') : st'.lst k = st.lst k := by
    obtain ⟨x, hx, hxk⟩ := List.mem_map.mp hk
    exact hxk ▸ hkeep.same x hx
  induction hp generalizing st with
  | step f => exact Prog.wp_act.mpr ⟨hs, fun _ _ => rfl⟩
  | deref j p hjp =>
    obtain ⟨s, e, hr, he, hpe⟩ := hh (j, p) hjp
    rw [show p = e.handle from hpe, deref_wp hr he]
    exact ⟨hs, fun _ _ => rfl⟩
  | bind hp _ ihp ihf =>
    rw [Prog.wp_bind]
    apply (ihp hk hs hh hsearch).imp
    intro a st' hkeep
    refine (ihf a hk hkeep.sound (hh.keep hkeep) ?_).imp ?_
    · rw [ofOpened hk hkeep]
      exact hsearch
    · intro _ st'' hkeep'
      exact ⟨hkeep'.sound, fun x hx => (hkeep'.same x hx).trans (hkeep.same x hx)⟩
  | append j type data hj =>
    obtain ⟨s, hr, -⟩ := hs j
    refine wp_append hm hr ?_ rfl
    intro e l hl
    refine ⟨hs.setLst hl fun _ => List.append_ne_nil_of_right_ne_nil s (List.cons_ne_nil e []), ?_⟩
    intro x hx
    exact setLst_other l fun hxj => hj (hxj ▸ List.mem_map_of_mem hx)
  | getElem j index =>
    obtain ⟨s, hr, -⟩ := hs j
    exact (wp_getElem hr).mpr ⟨hs, fun _ _ => rfl⟩
  | strInLst same hstrs =>
    obtain ⟨s, hr, hlen⟩ := hsearch hstrs
    apply (strInLst_wp hr hlen).imp
    intro _ st' hst'
    rw [hst']
    exact ⟨hs, fun _ _ => rfl⟩
  | @forLst opened j body hin hj _ ih =>
    obtain ⟨s, hr, hne⟩ := hs j
    refine (forLst_wp (I := KeepsLists inner opened st) hr ?_ ?_ ⟨hs, fun _ _ => rfl⟩).imp ?_
    · intro st' c hkeep
      refine ⟨hkeep.sound.setCrnt j c, ?_⟩
      intro x hx
      rw [setLst_other _ fun hxj : x.1 = j => hj (hxj ▸ List.mem_map_of_mem hx)]
      exact hkeep.same x hx
    · intro p st' hp hkeep hr'
      -- The list is not empty, so that the pointer is that of an element.
      rw [handed, if_neg (hne hin)] at hp
      obtain ⟨e, he, hpe⟩ := List.mem_map.mp hp
      have hhands : Hands ((j, p) :: opened) st' := by
        intro x hx
        rcases List.mem_cons.mp hx with rfl | hx
        · exact ⟨s, e, hr', he, hpe.symm⟩
        · exact hh.keep hkeep x hx
      have hsearch' : strs = true →
          ∃ s, (st'.lst k).Represents s ∧ Searchable (st'.lst k) s.length := by
        rw [ofOpened hk hkeep]
        exact hsearch
      apply (ih p (List.mem_cons_of_mem j hk) hkeep.sound hhands hsearch').imp
      intro _ st'' hkeep'
      refine ⟨⟨hkeep'.sound, ?_⟩, hkeep'.same (j, p) List.mem_cons_self⟩
      intro x hx
      exact (hkeep'.same x (List.mem_cons_of_mem (j, p) hx)).trans (hkeep.same x hx)
    · intro _ st' hpost
      exact hpost.2.1

end

/-- A body that looks for a string that is not in the list. -/
def searchBody {ρ : Type} (k : Nat) : ListProg ρ Unit := do
  let _ ← strInLst k fun _ _ => false
  step fun st => ((), st.rest)

/-- A body that looks at each element of another list. -/
def readBody {ρ : Type} (j : Nat) : ListProg ρ Unit := do
  let _ ← forLst j fun p => do
    let _ ← deref j p
    step fun st => ((), st.rest)
  step fun st => ((), st.rest)

/-- In an empty list there is nothing behind the pointer 32. -/
theorem readBody_lost {ρ : Type} {st : Lists ρ} {j : Nat} (h : (st.lst j).Represents [])
    (hb : (st.lst j).Blocks []) :
    (readBody j).wp (fun _ _ => False) (fun e _ => e = .fault) True st := by
  unfold readBody
  rw [Prog.wp_bind]
  refine (forLst_lost h ?_).imp fun _ _ hfalse => hfalse.elim
  intro st' c hst'
  have hfirst : (st.lst j).first = NULL := h.first_eq_null.mpr rfl
  have hnone : (st.lst j).heap NULL = none := not_ne_iff.mp fun hsome => by simpa using (hb NULL).mp hsome
  have hload : (st'.lst j).load (voidToElem (elemToVoid (st.lst j).first)) = none := by
    rw [hst', setLst_same, hfirst, voidToElem_elemToVoid]
    exact hnone
  unfold deref
  rw [Prog.wp_bind]
  exact (wp_onLst_none (by rw [hload]; rfl)).mpr rfl

/-- Each list is the result of calls on a new list, with its cursor anywhere. -/
structure Reached {ρ : Type} (st : Lists ρ) (ops : Nat → List LstOp) : Prop where
  valid : ∀ j, LstOp.Valid [] (ops j)
  run : ∀ j, ∃ l c, runLst (ops j) = some l ∧ st.lst j = { l with crnt := c }

theorem Reached.blocks {ρ : Type} {st : Lists ρ} {ops : Nat → List LstOp} (h : st.Reached ops)
    (j : Nat) : (st.lst j).Blocks (seqOf (ops j)) := by
  obtain ⟨l, c, hl, hst⟩ := h.run j
  obtain ⟨l', hl', -, hb, -⟩ :=
    LstOp.runFrom_blocks (h.valid j) Lst.represents_createLst Lst.blocks_createLst (k := 0) rfl
  have hrun : runLst (ops j) = some l' := hl'
  rw [hl] at hrun
  cases hrun
  rw [hst]
  exact hb

theorem Reached.represents {ρ : Type} {st : Lists ρ} {ops : Nat → List LstOp} (h : st.Reached ops)
    (j : Nat) : (st.lst j).Represents (seqOf (ops j)) := by
  obtain ⟨l, c, hl, hst⟩ := h.run j
  obtain ⟨l', hl', hr, -⟩ := runLst_represents (h.valid j)
  rw [hl] at hl'
  cases hl'
  rw [hst]
  exact hr.crnt c

/-- Whatever an allowed body does, a traversal of list `k` presents the pointers `ps` and ends,
unless there is no memory left. -/
def Presents {ρ : Type} (strs : Bool) (inner : List Nat) (st : Lists ρ) (k : Nat) (ps : List Addr) :
    Prop :=
  ∀ malloc, Grants malloc → ∀ body : Addr → ListProg ρ Unit,
    (∀ p, Allowed malloc strs inner k [(k, p)] (body p)) →
    (forLst k body).wp (fun ps' _ => ps' = ps) (fun e _ => e = .exit 1) False st

theorem presents_of {ρ : Type} {strs : Bool} {inner : List Nat} {st : Lists ρ} {k : Nat}
    {s : List Entry} (hs : Sound inner st) (hr : (st.lst k).Represents s) (hne : s ≠ [])
    (hsearch : strs = true → Searchable (st.lst k) s.length) :
    Presents strs inner st k (s.map Entry.handle) := by
  intro malloc hm body hbody
  have hhanded : handed s = s.map Entry.handle := if_neg hne
  -- The cursor of the list is the only thing about it that the traversal changes.
  refine (forLst_wp (I := fun st' => Sound inner st' ∧
    (strs = true → Searchable (st'.lst k) s.length)) hr ?_ ?_ ⟨hs, hsearch⟩).imp ?_
  · intro st' c hI
    obtain ⟨hs', hsearch'⟩ := hI
    refine ⟨hs'.setCrnt k c, ?_⟩
    rw [setLst_same]
    exact hsearch'
  · intro p st' hp hI hr'
    obtain ⟨hs', hsearch'⟩ := hI
    rw [hhanded] at hp
    obtain ⟨e, he, hpe⟩ := List.mem_map.mp hp
    have hhands : Hands [(k, p)] st' := by
      intro x hx
      rw [List.mem_singleton.mp hx]
      exact ⟨s, e, hr', he, hpe.symm⟩
    refine (allowed_wp (hbody p) hm List.mem_cons_self hs' hhands
      fun hstrs => ⟨s, hr', hsearch' hstrs⟩).imp ?_
    intro _ st'' hkeep
    have hsame : st''.lst k = st'.lst k := hkeep.same (k, p) List.mem_cons_self
    refine ⟨⟨hkeep.sound, ?_⟩, hsame⟩
    rw [hsame]
    exact hsearch'
  · intro ps st' hpost
    rw [hpost.1, hhanded]

theorem grants_none {ρ : Type} : Grants fun (_ : Lists ρ) _ _ => none := by
  intro st k a type data s _ ha
  cases ha

/-- The body of a traversal is entered at least once. -/
theorem Presents.ne_nil {ρ : Type} {strs : Bool} {inner : List Nat} {st : Lists ρ} {k : Nat}
    {s : List Entry} (h : Presents strs inner st k (s.map Entry.handle))
    (hr : (st.lst k).Represents s) : s ≠ [] := by
  intro hnil
  have hbody : ∀ (p : Addr) (st' : Lists ρ), p ∈ handed s → True → (st'.lst k).Represents s →
      (step fun st => ((), st.rest) : ListProg ρ Unit).wp
        (fun _ u => True ∧ u.lst k = st'.lst k) (fun _ _ => False) False st' :=
    fun _ _ _ _ _ => Prog.wp_act.mpr ⟨trivial, rfl⟩
  have hempty := forLst_wp hr (fun _ _ _ => trivial) hbody trivial
  obtain ⟨ps, st', hrun, hps, -⟩ := hempty.returns
  have hnone : ps = s.map Entry.handle := (h _ grants_none _ fun _ => .step _).1 ps st' hrun
  rw [hnone, hnil] at hps
  cases hps

/-- A body that does not return cannot be allowed to fault. -/
theorem Presents.not_lost {ρ : Type} {strs : Bool} {inner : List Nat} {st : Lists ρ} {k : Nat}
    {ps : List Addr} {s : List Entry} (h : Presents strs inner st k ps)
    (hr : (st.lst k).Represents s) {b : Addr → ListProg ρ Unit}
    (hallowed : ∀ p, Allowed (fun _ _ _ => none) strs inner k [(k, p)] (b p))
    (hbody : ∀ p st' c, st' = st.setLst k { st.lst k with crnt := c } →
      (b p).wp (fun _ _ => False) (fun e _ => e = .fault) True st') : False := by
  have hall := h _ grants_none b hallowed
  have hnever := forLst_lost hr (hbody _)
  rcases Prog.run_cases (forLst k b) st with ⟨a, t, hrun⟩ | ⟨e, t, hrun⟩ | hdiv
  · exact hnever.1 a t hrun
  · have hexit := hall.2.1 e t hrun
    rw [hnever.2.1 e t hrun] at hexit
    cases hexit
  · exact hall.2.2 hdiv

/-- A body that looks for an absent string finds out whether the counter of the list is in order. -/
theorem Presents.searchable {ρ : Type} {strs : Bool} {inner : List Nat} {st : Lists ρ} {k : Nat}
    {s : List Entry} {ps : List Addr} (h : Presents strs inner st k ps)
    (hr : (st.lst k).Represents s) (hstrs : strs = true) : Searchable (st.lst k) s.length := by
  by_contra hlost
  refine h.not_lost hr (b := fun _ => searchBody k)
    (fun _ => .bind (.strInLst _ hstrs) fun _ => .step _) ?_
  intro _ st' c hst'
  subst hst'
  have hr' : ((st.setLst k { st.lst k with crnt := c }).lst k).Represents s := by
    rw [setLst_same]
    exact hr.crnt c
  have hlost' : ¬Searchable ((st.setLst k { st.lst k with crnt := c }).lst k) s.length := by
    rw [setLst_same]
    exact hlost
  unfold searchBody
  rw [Prog.wp_bind]
  exact (strInLst_lost hr' hlost').imp fun _ _ hfalse => hfalse.elim

/-- A body that looks at the elements of another list finds out whether that has one. -/
theorem Presents.inner_ne_nil {ρ : Type} {strs : Bool} {inner : List Nat} {st : Lists ρ} {k j : Nat}
    {s s' : List Entry} {ps : List Addr} (h : Presents strs inner st k ps)
    (hr : (st.lst k).Represents s) (hr' : (st.lst j).Represents s') (hb' : (st.lst j).Blocks s')
    (hj : j ∈ inner) (hjk : j ≠ k) : s' ≠ [] := by
  intro hnil
  rw [hnil] at hr' hb'
  refine h.not_lost hr (b := fun _ => readBody j)
    (fun _ => .bind (.forLst j _ hj (by simpa using hjk) fun p =>
      .bind (.deref j p List.mem_cons_self) fun _ => .step _) fun _ => .step _) ?_
  intro _ st' c hst'
  have hsame : st'.lst j = st.lst j := by rw [hst', setLst_other _ hjk]
  exact readBody_lost (hsame ▸ hr') (hsame ▸ hb')

/-- List 0 has two elements, list 1 has one, every other list has none. -/
def sampleOps (j : Nat) : List LstOp :=
  if j = 0 then [.append ⟨64, 0, [7]⟩, .append ⟨128, 0, [8, 9]⟩]
  else if j = 1 then [.append ⟨192, 0, [6]⟩] else []

def sampleLists : Lists Unit := { lst := fun j => (runLst (sampleOps j)).getD Lst.createLst, rest := () }

theorem sampleLists_reached : sampleLists.Reached sampleOps := by
  have hvalid : ∀ j, LstOp.Valid [] (sampleOps j) := by
    intro j
    unfold sampleOps
    split
    · decide
    · split
      · decide
      · trivial
  refine ⟨hvalid, ?_⟩
  intro j
  obtain ⟨l, hl, -⟩ := runLst_represents (hvalid j)
  exact ⟨l, l.crnt, hl, by simp [sampleLists, hl]⟩

end Lists

end Rdpgen
