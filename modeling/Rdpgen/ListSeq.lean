import Rdpgen.Chars
import Rdpgen.LinkedList

namespace Rdpgen

def LstElem.content (c : LstElem) : Int × Nat × List UInt8 := (c.type, c.size, c.data)

def Entry.content (e : Entry) : Int × Nat × List UInt8 := (e.type, e.size, e.data)

def fieldAt (heap : Addr → Option LstElem) (f : LstElem → Addr) (p : Addr) : Addr :=
  ((heap p).map f).getD NULL

@[simp] theorem fieldAt_update (heap : Addr → Option LstElem) (f : LstElem → Addr) (p q : Addr)
    (c : LstElem) :
    fieldAt (Function.update heap p (some c)) f q = if q = p then f c else fieldAt heap f q := by
  by_cases h : q = p <;> simp [fieldAt, h]

@[simp] theorem fieldAt_free (heap : Addr → Option LstElem) (f : LstElem → Addr) (p q : Addr) :
    fieldAt (Function.update heap p none) f q = if q = p then NULL else fieldAt heap f q := by
  by_cases h : q = p <;> simp [fieldAt, h]

theorem fieldAt_of_some {heap : Addr → Option LstElem} {p : Addr} {c : LstElem}
    (h : heap p = some c) (f : LstElem → Addr) : fieldAt heap f p = f c := by
  simp [fieldAt, h]

/-- What an update of the links leaves alone. -/
def contentAt (heap : Addr → Option LstElem) (p : Addr) : Option (Int × Nat × List UInt8) :=
  (heap p).map LstElem.content

@[simp] theorem contentAt_update (heap : Addr → Option LstElem) (p q : Addr) (c : LstElem) :
    contentAt (Function.update heap p (some c)) q =
      if q = p then some c.content else contentAt heap q := by
  by_cases h : q = p <;> simp [contentAt, h]

@[simp] theorem contentAt_free (heap : Addr → Option LstElem) (p q : Addr) :
    contentAt (Function.update heap p none) q = if q = p then none else contentAt heap q := by
  by_cases h : q = p <;> simp [contentAt, h]

theorem contentAt_of_some {heap : Addr → Option LstElem} {p : Addr} {c : LstElem}
    (h : heap p = some c) : contentAt heap p = some c.content := by
  simp [contentAt, h]

/-- The links of the elements; the list header closes them in the place of `NULL`. -/
def Lst.links (l : Lst) : Links Addr where
  next p := if p = NULL then l.first else fieldAt l.heap LstElem.next p
  prev p := if p = NULL then l.last else fieldAt l.heap LstElem.prev p

/-- The list holds the sequence `s`. -/
structure Lst.Represents (l : Lst) (s : List Entry) : Prop where
  ring : l.links.Ring NULL (s.map Entry.elem)
  nodup : (NULL :: s.map Entry.elem).Nodup
  content : ∀ e ∈ s, contentAt l.heap e.elem = some e.content
  room : ∀ e ∈ s, e.elem.toNat + 32 + e.size < 2 ^ 64

/-- A block that the allocator may answer with while the list holds `s`. -/
structure Entry.Fresh (e : Entry) (s : List Entry) : Prop where
  notMem : e.elem ∉ NULL :: s.map Entry.elem
  room : e.elem.toNat + 32 + e.size < 2 ^ 64

instance (e : Entry) (s : List Entry) : Decidable (e.Fresh s) :=
  decidable_of_iff (e.elem ∉ NULL :: s.map Entry.elem ∧ e.elem.toNat + 32 + e.size < 2 ^ 64)
    ⟨fun h => ⟨h.1, h.2⟩, fun h => ⟨h.notMem, h.room⟩⟩

/-- The number of the element that `get_elem` finds for an unsigned index, in a list of `n`. -/
def intIndex (n i : Nat) : Nat := if i < 2 ^ 31 then i else n + i - 2 ^ 32

namespace Lst

variable {l l' : Lst} {s s₁ s₂ : List Entry} {e a : Entry}

theorem represents_createLst : createLst.Represents [] where
  ring := ⟨rfl, rfl, trivial⟩
  nodup := by simp
  content := by simp
  room := by simp

theorem Represents.first (h : l.Represents s) : l.first = (s.map Entry.elem).headD NULL :=
  h.ring.next_closing

theorem Represents.last (h : l.Represents s) : l.last = (s.map Entry.elem).getLastD NULL :=
  h.ring.prev_closing

theorem Represents.notNull (h : l.Represents s) (he : e ∈ s) : e.elem ≠ NULL := by
  intro hn
  exact (List.nodup_cons.mp h.nodup).1 (hn ▸ List.mem_map_of_mem he)

theorem Represents.elem_ne {x y : Entry} (h : l.Represents (s₁ ++ s₂)) (hx : x ∈ s₁) (hy : y ∈ s₂) :
    x.elem ≠ y.elem := by
  have hd := (List.nodup_cons.mp h.nodup).2
  rw [List.map_append] at hd
  exact (List.nodup_append.mp hd).2.2 _ (List.mem_map_of_mem hx) _ (List.mem_map_of_mem hy)

theorem Represents.load (h : l.Represents s) (he : e ∈ s) :
    ∃ c, l.heap e.elem = some c ∧ c.content = e.content := by
  have hc := h.content e he
  rw [contentAt, Option.map_eq_some_iff] at hc
  exact hc

theorem Represents.load_first (h : l.Represents s) (hn : l.first ≠ NULL) :
    ∃ c, l.heap l.first = some c := by
  rw [h.first] at hn ⊢
  cases s with
  | nil => exact absurd rfl hn
  | cons a s =>
    obtain ⟨c, hc, -⟩ := h.load (e := a) (by simp)
    exact ⟨c, hc⟩

theorem Represents.load_last (h : l.Represents s) (hn : l.last ≠ NULL) :
    ∃ c, l.heap l.last = some c := by
  rw [h.last] at hn ⊢
  cases s using List.reverseRecOn with
  | nil => exact absurd rfl hn
  | append_singleton s a =>
    obtain ⟨c, hc, -⟩ := h.load (e := a) (by simp)
    exact ⟨c, by simpa using hc⟩

theorem Represents.load_mid (h : l.Represents (s₁ ++ a :: s₂)) :
    ∃ c, l.heap a.elem = some c ∧ c.next = (s₂.map Entry.elem).headD NULL ∧
      c.prev = (s₁.map Entry.elem).getLastD NULL := by
  obtain ⟨c, hc, -⟩ := h.load (e := a) (by simp)
  have hne := h.notNull (e := a) (by simp)
  have hring := h.ring
  rw [List.map_append, List.map_cons] at hring
  have hn := hring.next_of_mem
  have hp := hring.prev_of_mem
  simp only [links, if_neg hne, fieldAt_of_some hc] at hn hp
  exact ⟨c, hc, hn, hp⟩

theorem Represents.insert (h : l.Represents (s₁ ++ s₂)) (he : e.Fresh (s₁ ++ s₂))
    (hs : l.links.Splices l'.links ((s₁.map Entry.elem).getLastD NULL) e.elem
      ((s₂.map Entry.elem).headD NULL))
    (hnew : contentAt l'.heap e.elem = some e.content)
    (hold : ∀ p, p ≠ e.elem → contentAt l'.heap p = contentAt l.heap p) : l'.Represents (s₁ ++ e :: s₂) := by
  have hn := he.notMem
  have hring := h.ring
  have hd := h.nodup
  rw [List.map_append] at hn hring hd
  refine ⟨?_, ?_, ?_, ?_⟩
  · rw [List.map_append, List.map_cons]
    exact hring.splice hd hn rfl rfl hs
  · rw [List.map_append, List.map_cons, ← List.cons_append, List.nodup_middle, List.nodup_cons]
    exact ⟨hn, hd⟩
  · intro b hb
    have hmem : b = e ∨ b ∈ s₁ ++ s₂ := by
      simp only [List.mem_append, List.mem_cons] at hb ⊢
      tauto
    rcases hmem with rfl | hb
    · exact hnew
    · rw [hold b.elem, h.content b hb]
      intro hbe
      exact he.notMem (List.mem_cons_of_mem _ (hbe ▸ List.mem_map_of_mem hb))
  · intro b hb
    have hmem : b = e ∨ b ∈ s₁ ++ s₂ := by
      simp only [List.mem_append, List.mem_cons] at hb ⊢
      tauto
    rcases hmem with rfl | hb
    · exact he.room
    · exact h.room b hb

theorem Represents.erase (h : l.Represents (s₁ ++ a :: s₂))
    (hs : l.links.Skips l'.links ((s₁.map Entry.elem).getLastD NULL) a.elem
      ((s₂.map Entry.elem).headD NULL))
    (hold : ∀ p, p ≠ a.elem → contentAt l'.heap p = contentAt l.heap p) : l'.Represents (s₁ ++ s₂) := by
  have hring := h.ring
  have hd := h.nodup
  rw [List.map_append, List.map_cons] at hring hd
  obtain ⟨hna, hd'⟩ := List.nodup_cons.mp (List.nodup_middle.mp (List.cons_append ▸ hd))
  have hsub : ∀ b ∈ s₁ ++ s₂, b ∈ s₁ ++ a :: s₂ := by
    intro b hb
    simp only [List.mem_append, List.mem_cons] at hb ⊢
    tauto
  refine ⟨?_, ?_, ?_, fun b hb => h.room b (hsub b hb)⟩
  · rw [List.map_append]
    exact hring.skip hd rfl rfl hs
  · rw [List.map_append]
    exact hd'
  · intro b hb
    rw [hold b.elem, h.content b (hsub b hb)]
    intro hba
    have hmem := List.mem_map_of_mem (f := Entry.elem) hb
    rw [hba, List.map_append] at hmem
    exact hna (List.mem_cons_of_mem _ hmem)

theorem Represents.handle_ne (h : l.Represents s) (he : e ∈ s) : e.handle ≠ NULL := by
  have hr := h.room e he
  intro hn
  have hz := congrArg UInt64.toNat hn
  rw [Entry.handle, elemToVoid, UInt64.toNat_add] at hz
  simp only [sizeofLstElem, NULL, UInt64.reduceToNat] at hz
  omega

/-! ### The operations -/

theorem appendLst_represents (h : l.Represents s) (he : e.Fresh s) :
    ∃ l', l.appendLst e = some l' ∧ l'.Represents (s ++ [e]) ∧ l'.len = l.len + 1 := by
  have hne : e.elem ≠ NULL := fun hn => he.notMem (by simp [hn])
  have hle : l.last ≠ e.elem := fun hle => he.notMem (hle ▸ h.last ▸ List.getLastD_mem_cons)
  have hins {l' : Lst} (hs : l.links.Splices l'.links l.last e.elem NULL)
      (hnew : contentAt l'.heap e.elem = some e.content)
      (hold : ∀ p, p ≠ e.elem → contentAt l'.heap p = contentAt l.heap p) :
      l'.Represents (s ++ [e]) := by
    have h' : l.Represents (s ++ []) := by simpa using h
    exact h'.insert (by simpa using he) (h.last ▸ hs) hnew hold
  by_cases hl : l.last = NULL
  · simp only [appendLst, createElem, hl, ne_eq, not_true_eq_false, if_false, Option.bind_eq_bind,
      Option.bind_some, Option.some.injEq, exists_eq_left', and_true]
    refine hins ⟨?_, ?_, ?_, ?_, ?_, ?_⟩ ?_ ?_
    all_goals simp +contextual [links, hl, hne, Entry.content, LstElem.content]
  · obtain ⟨c, hc⟩ := h.load_last hl
    simp only [appendLst, createElem, hl, setPrev, setNext, store, load, ne_eq, not_false_eq_true,
      if_true, Option.bind_eq_bind, Option.bind_some, Function.update_self, Function.update_of_ne hle,
      Function.update_idem, hc, Option.some.injEq, exists_eq_left', and_true]
    refine hins ⟨?_, ?_, ?_, ?_, ?_, ?_⟩ ?_ ?_
    all_goals simp +contextual [links, hl, hle.symm, hne, Entry.content, LstElem.content,
      fieldAt_of_some hc, contentAt_of_some hc]

theorem prependLst_represents (h : l.Represents s) (he : e.Fresh s) :
    ∃ l', l.prependLst e = some l' ∧ l'.Represents (e :: s) ∧ l'.len = l.len + 1 := by
  have hne : e.elem ≠ NULL := fun hn => he.notMem (by simp [hn])
  have hfe : l.first ≠ e.elem := by
    intro hfe
    rw [h.first] at hfe
    cases s with
    | nil => exact hne hfe.symm
    | cons a s => exact he.notMem (by simp [← hfe])
  have hins {l' : Lst} (hs : l.links.Splices l'.links NULL e.elem l.first)
      (hnew : contentAt l'.heap e.elem = some e.content)
      (hold : ∀ p, p ≠ e.elem → contentAt l'.heap p = contentAt l.heap p) :
      l'.Represents (e :: s) := by
    have h' : l.Represents ([] ++ s) := h
    exact h'.insert he (h.first ▸ hs) hnew hold
  by_cases hf : l.first = NULL
  · simp only [prependLst, createElem, hf, ne_eq, not_true_eq_false, if_false, Option.bind_eq_bind,
      Option.bind_some, Option.some.injEq, exists_eq_left', and_true]
    refine hins ⟨?_, ?_, ?_, ?_, ?_, ?_⟩ ?_ ?_
    all_goals simp +contextual [links, hf, hne, Entry.content, LstElem.content]
  · obtain ⟨c, hc⟩ := h.load_first hf
    simp only [prependLst, createElem, hf, setPrev, setNext, store, load, ne_eq, not_false_eq_true,
      if_true, Option.bind_eq_bind, Option.bind_some, Function.update_self, Function.update_of_ne hfe,
      Function.update_idem, hc, Option.some.injEq, exists_eq_left', and_true]
    refine hins ⟨?_, ?_, ?_, ?_, ?_, ?_⟩ ?_ ?_
    all_goals simp +contextual [links, hf, hfe.symm, hne, Entry.content, LstElem.content,
      fieldAt_of_some hc, contentAt_of_some hc]

theorem insertBetween_represents {b : Entry} (h : l.Represents (s₁ ++ a :: b :: s₂))
    (he : e.Fresh (s₁ ++ a :: b :: s₂)) :
    ∃ l', l.insertBetween e b.elem a.elem = some l' ∧ l'.Represents (s₁ ++ a :: e :: b :: s₂) ∧
      l'.len = l.len + 1 := by
  have hne : e.elem ≠ NULL := fun hn => he.notMem (by simp [hn])
  have hae : a.elem ≠ e.elem := fun hae => he.notMem (by simp [← hae])
  have hbe : b.elem ≠ e.elem := fun hbe => he.notMem (by simp [← hbe])
  have han := h.notNull (e := a) (by simp)
  have hbn := h.notNull (e := b) (by simp)
  have hab : a.elem ≠ b.elem :=
    (List.append_cons s₁ a (b :: s₂) ▸ h).elem_ne (by simp) (by simp)
  obtain ⟨ca, hca, -⟩ := h.load (e := a) (by simp)
  obtain ⟨cb, hcb, -⟩ := h.load (e := b) (by simp)
  have hins {l' : Lst} (hs : l.links.Splices l'.links a.elem e.elem b.elem)
      (hnew : contentAt l'.heap e.elem = some e.content)
      (hold : ∀ p, p ≠ e.elem → contentAt l'.heap p = contentAt l.heap p) :
      l'.Represents (s₁ ++ a :: e :: b :: s₂) := by
    have h' : l.Represents ((s₁ ++ [a]) ++ b :: s₂) := by simpa using h
    have hl' := h'.insert (by simpa using he) (by simpa using hs) hnew hold
    simpa using hl'
  simp only [insertBetween, createElem, setPrev, setNext, store, load, Option.bind_eq_bind,
    Option.bind_some, Function.update_self, Function.update_idem, Function.update_of_ne hae,
    Function.update_of_ne hbe, Function.update_of_ne hab, hca, hcb, Option.some.injEq,
    exists_eq_left', and_true]
  refine hins ⟨?_, ?_, ?_, ?_, fun z hza hze => ?_, fun z hzb hze => ?_⟩ ?_ fun p hpe => ?_
  · simp [links, han]
  · simp [links, hne, hae.symm, hbe.symm]
  · simp [links, hbn, hab.symm]
  · simp [links, hne, hae.symm, hbe.symm]
  · by_cases hzb : z = b.elem
    · simp [links, hzb, hab.symm, fieldAt_of_some hcb]
    · simp [links, hza, hzb, hze]
  · by_cases hza : z = a.elem
    · simp [links, hza, fieldAt_of_some hca]
    · simp [links, hza, hzb, hze]
  · simp [hae.symm, hbe.symm, Entry.content, LstElem.content]
  · by_cases hpa : p = a.elem
    · simp [hpa, contentAt_of_some hca, LstElem.content]
    · by_cases hpb : p = b.elem
      · simp [hpb, hab.symm, contentAt_of_some hcb, LstElem.content]
      · simp [hpa, hpb, hpe]

/-! The four ways through `insert_lst`. -/

theorem insertLst_last (h : l.Represents (s ++ [a])) (e : Entry) :
    l.insertLst a.handle e true = l.appendLst e := by
  obtain ⟨c, hc, hn, -⟩ := h.load_mid
  rw [insertLst, if_neg (h.handle_ne (by simp)), Entry.handle, voidToElem_elemToVoid, load, hc,
    Option.bind_eq_bind, Option.bind_some, if_pos rfl,
    if_pos (show c.next = NULL from hn)]

theorem insertLst_first (h : l.Represents (a :: s)) (e : Entry) :
    l.insertLst a.handle e false = l.prependLst e := by
  have hmid : l.Represents ([] ++ a :: s) := h
  obtain ⟨c, hc, -, hp⟩ := hmid.load_mid
  rw [insertLst, if_neg (h.handle_ne (by simp)), Entry.handle, voidToElem_elemToVoid, load, hc,
    Option.bind_eq_bind, Option.bind_some, if_neg Bool.false_ne_true,
    if_pos (show c.prev = NULL from hp)]

theorem insertLst_behind {b : Entry} (h : l.Represents (s₁ ++ a :: b :: s₂)) (e : Entry) :
    l.insertLst a.handle e true = l.insertBetween e b.elem a.elem := by
  obtain ⟨c, hc, hn, -⟩ := h.load_mid
  simp only [List.map_cons, List.headD_cons] at hn
  have hmid : l.Represents ((s₁ ++ [a]) ++ b :: s₂) := by simpa using h
  obtain ⟨cb, hcb, -, hbp⟩ := hmid.load_mid
  simp only [List.map_append, List.map_cons, List.map_nil, List.getLastD_concat] at hbp
  rw [insertLst, if_neg (h.handle_ne (by simp)), Entry.handle, voidToElem_elemToVoid, load, hc,
    Option.bind_eq_bind, Option.bind_some, if_pos rfl, if_neg (hn ▸ h.notNull (by simp)), hn, load,
    hcb, Option.bind_some, hbp]

theorem insertLst_front {b : Entry} (h : l.Represents (s₁ ++ b :: a :: s₂)) (e : Entry) :
    l.insertLst a.handle e false = l.insertBetween e a.elem b.elem := by
  have hmid : l.Represents ((s₁ ++ [b]) ++ a :: s₂) := by simpa using h
  obtain ⟨c, hc, -, hp⟩ := hmid.load_mid
  simp only [List.map_append, List.map_cons, List.map_nil, List.getLastD_concat] at hp
  obtain ⟨cb, hcb, hbn, -⟩ := h.load_mid
  simp only [List.map_cons, List.headD_cons] at hbn
  rw [insertLst, if_neg (h.handle_ne (by simp)), Entry.handle, voidToElem_elemToVoid, load, hc,
    Option.bind_eq_bind, Option.bind_some, if_neg Bool.false_ne_true,
    if_neg (hp ▸ h.notNull (by simp)), hp, load, hcb, Option.bind_some, hbn]

theorem insertLst_represents (h : l.Represents (s₁ ++ a :: s₂)) (he : e.Fresh (s₁ ++ a :: s₂))
    (flag : Bool) :
    ∃ l', l.insertLst a.handle e flag = some l' ∧
      l'.Represents (if flag then s₁ ++ a :: e :: s₂ else s₁ ++ e :: a :: s₂) ∧
      l'.len = l.len + 1 := by
  cases flag with
  | true =>
    cases s₂ with
    | nil =>
      rw [insertLst_last h]
      simpa using appendLst_represents h he
    | cons b s₂ =>
      rw [insertLst_behind h]
      exact insertBetween_represents h he
  | false =>
    cases s₁ using List.reverseRecOn with
    | nil =>
      rw [insertLst_first h]
      exact prependLst_represents h he
    | append_singleton s₁ b =>
      have hmid : l.Represents (s₁ ++ b :: a :: s₂) := by simpa using h
      rw [insertLst_front hmid]
      simpa using insertBetween_represents hmid (by simpa using he)

theorem removeLst_middle {b d : Entry} (h : l.Represents ((s₁ ++ [b]) ++ a :: d :: s₂)) :
    ∃ l', l.removeLst a.handle = some l' ∧ l'.Represents ((s₁ ++ [b]) ++ d :: s₂) ∧
      l'.len = l.len - 1 := by
  obtain ⟨c, hc, hn, hp⟩ := h.load_mid
  have hdel {l' : Lst} (hs : l.links.Skips l'.links c.prev a.elem c.next)
      (hold : ∀ p, p ≠ a.elem → contentAt l'.heap p = contentAt l.heap p) :
      l'.Represents ((s₁ ++ [b]) ++ d :: s₂) := h.erase (hn ▸ hp ▸ hs) hold
  rw [removeLst, if_neg (h.handle_ne (by simp)), Entry.handle, voidToElem_elemToVoid]
  simp only [List.map_append, List.map_cons, List.map_nil, List.getLastD_concat] at hp
  have hbn := h.notNull (e := b) (by simp)
  have hba : b.elem ≠ a.elem := h.elem_ne (by simp) (by simp)
  obtain ⟨cb, hcb, -⟩ := h.load (e := b) (by simp)
  simp only [List.map_cons, List.headD_cons] at hn
  have hdn := h.notNull (e := d) (by simp)
  have hbd : b.elem ≠ d.elem := h.elem_ne (by simp) (by simp)
  have had : a.elem ≠ d.elem := (List.append_cons _ a (d :: s₂) ▸ h).elem_ne (by simp) (by simp)
  obtain ⟨cd, hcd, -⟩ := h.load (e := d) (by simp)
  simp only [load, hc, hp, hn, hbn, hdn, hcb, hcd, false_and, and_true, if_false, setNext, setPrev,
    store, Option.bind_eq_bind, Option.bind_some, Function.update_of_ne hbd,
    Option.some.injEq, exists_eq_left', freeElem]
  refine hdel ⟨?_, ?_, fun z hzb hza => ?_, fun z hzd hza => ?_⟩ fun p hpa => ?_
  · simp [links, hp, hn, hbn, hba]
  · simp [links, hp, hn, hdn, hbd.symm, had.symm]
  · rw [hp] at hzb
    by_cases hzd : z = d.elem
    · simp [links, hzd, hbd.symm, had.symm, fieldAt_of_some hcd]
    · simp [links, hza, hzb, hzd]
  · rw [hn] at hzd
    by_cases hzb : z = b.elem
    · simp [links, hzb, hba, fieldAt_of_some hcb]
    · simp [links, hza, hzb, hzd]
  · by_cases hpb : p = b.elem
    · simp [hpb, hba, contentAt_of_some hcb, LstElem.content]
    · by_cases hpd : p = d.elem
      · simp [hpd, hbd.symm, had.symm, contentAt_of_some hcd, LstElem.content]
      · simp [hpa, hpb, hpd]

theorem removeLst_represents (h : l.Represents (s₁ ++ a :: s₂)) :
    ∃ l', l.removeLst a.handle = some l' ∧ l'.Represents (s₁ ++ s₂) ∧ l'.len = l.len - 1 := by
  obtain ⟨c, hc, hn, hp⟩ := h.load_mid
  have hdel {l' : Lst} (hs : l.links.Skips l'.links c.prev a.elem c.next)
      (hold : ∀ p, p ≠ a.elem → contentAt l'.heap p = contentAt l.heap p) :
      l'.Represents (s₁ ++ s₂) := h.erase (hn ▸ hp ▸ hs) hold
  -- The four branches of the source: alone, first, last, in the middle.
  cases s₁ using List.reverseRecOn with
  | nil =>
    simp only [List.map_nil, List.getLastD_nil] at hp
    cases s₂ with
    | nil =>
      simp only [List.map_nil, List.headD_nil] at hn
      rw [removeLst, if_neg (h.handle_ne (by simp)), Entry.handle, voidToElem_elemToVoid]
      simp only [load, hc, hp, hn, ne_eq, not_true_eq_false, and_false, and_true, if_false, if_true,
        Option.bind_eq_bind, Option.bind_some, Option.some.injEq, exists_eq_left', freeElem]
      refine hdel ⟨?_, ?_, ?_, ?_⟩ ?_
      all_goals simp +contextual [links, hp, hn]
    | cons b s₂ =>
      simp only [List.map_cons, List.headD_cons] at hn
      have hbn := h.notNull (e := b) (by simp)
      have h' : l.Represents ([a] ++ b :: s₂) := h
      have hba : a.elem ≠ b.elem := h'.elem_ne (by simp) (by simp)
      obtain ⟨cb, hcb, -⟩ := h.load (e := b) (by simp)
      rw [removeLst, if_neg (h.handle_ne (by simp)), Entry.handle, voidToElem_elemToVoid]
      simp only [load, hc, hp, hn, hbn, hcb, ne_eq, not_false_eq_true, and_true, if_true, setPrev,
        store, Option.bind_eq_bind, Option.bind_some, Option.some.injEq, exists_eq_left', freeElem]
      refine hdel ⟨?_, ?_, ?_, ?_⟩ ?_
      all_goals simp +contextual [links, hp, hn, hbn, hba.symm, LstElem.content,
        fieldAt_of_some hcb, contentAt_of_some hcb]
  | append_singleton s₁ b =>
    simp only [List.map_append, List.map_cons, List.map_nil, List.getLastD_concat] at hp
    have hbn := h.notNull (e := b) (by simp)
    have hba : b.elem ≠ a.elem := h.elem_ne (by simp) (by simp)
    obtain ⟨cb, hcb, -⟩ := h.load (e := b) (by simp)
    cases s₂ with
    | nil =>
      simp only [List.map_nil, List.headD_nil] at hn
      rw [removeLst, if_neg (h.handle_ne (by simp)), Entry.handle, voidToElem_elemToVoid]
      simp only [load, hc, hp, hn, hbn, hcb, ne_eq, not_true_eq_false, not_false_eq_true, and_true,
        and_false, if_true, if_false, setNext, store, Option.bind_eq_bind, Option.bind_some,
        Option.some.injEq, exists_eq_left', freeElem]
      refine hdel ⟨?_, ?_, ?_, ?_⟩ ?_
      all_goals simp +contextual [links, hp, hn, hbn, hba, LstElem.content, fieldAt_of_some hcb,
        contentAt_of_some hcb]
    | cons d s₂ => exact removeLst_middle h

/-- `pop_lst` leaves the counter as it is. -/
theorem popLst_represents (h : l.Represents (a :: s)) :
    ∃ l', l.popLst = some l' ∧ l'.Represents s ∧ l'.len = l.len := by
  have h' : l.Represents ([] ++ a :: s) := h
  obtain ⟨c, hc, hn, -⟩ := h'.load_mid
  have hf : l.first = a.elem := h.first
  have hdel {l' : Lst} (hs : l.links.Skips l'.links NULL a.elem c.next)
      (hold : ∀ p, p ≠ a.elem → contentAt l'.heap p = contentAt l.heap p) : l'.Represents s :=
    h'.erase (hn ▸ hs) hold
  cases s with
  | nil =>
    simp only [List.map_nil, List.headD_nil] at hn
    simp only [popLst, load, hf, hc, hn, ne_eq, not_true_eq_false, if_false, Option.bind_eq_bind,
      Option.bind_some, Option.some.injEq, exists_eq_left', freeElem, and_true]
    refine hdel ⟨?_, ?_, ?_, ?_⟩ ?_
    all_goals simp +contextual [links, hn]
  | cons b s =>
    simp only [List.map_cons, List.headD_cons] at hn
    have hbn := h.notNull (e := b) (by simp)
    have h' : l.Represents ([a] ++ b :: s) := h
    have hab : a.elem ≠ b.elem := h'.elem_ne (by simp) (by simp)
    obtain ⟨cb, hcb, -⟩ := h.load (e := b) (by simp)
    simp only [popLst, load, hf, hc, hn, hbn, hcb, ne_eq, not_false_eq_true, if_true, setPrev, store,
      Option.bind_eq_bind, Option.bind_some, Option.some.injEq, exists_eq_left', freeElem, and_true]
    refine hdel ⟨?_, ?_, ?_, ?_⟩ ?_
    all_goals simp +contextual [links, hn, hbn, hab.symm, LstElem.content, fieldAt_of_some hcb,
      contentAt_of_some hcb]

/-! ### Reading the list -/

/-- Following a field from `p` meets the elements of `s` and then `NULL`. -/
def Follows (l : Lst) (field : LstElem → Addr) (p : Addr) : List Entry → Prop
  | [] => p = NULL
  | e :: s => p = e.elem ∧ p ≠ NULL ∧ ∃ c, l.heap p = some c ∧ c.content = e.content ∧
    l.Follows field (field c) s

theorem follows_of_meets {field : LstElem → Addr} {g : Addr → Addr}
    (hg : ∀ p c, p ≠ NULL → l.heap p = some c → g p = field c) {p : Addr}
    (hc : ∀ e ∈ s, contentAt l.heap e.elem = some e.content)
    (h : Links.Meets g NULL p (s.map Entry.elem)) : l.Follows field p s := by
  induction s generalizing p with
  | nil => exact h
  | cons e s ih =>
    obtain ⟨rfl, hne, hs⟩ := h
    obtain ⟨c, hec, hce⟩ := Option.map_eq_some_iff.mp (hc e (by simp))
    refine ⟨rfl, hne, c, hec, hce, ih (fun b hb => hc b (List.mem_cons_of_mem e hb)) ?_⟩
    rw [← hg _ _ hne hec]
    exact hs

theorem next_eq_of_load {p : Addr} {c : LstElem} (hp : p ≠ NULL) (hc : l.heap p = some c) :
    l.links.next p = c.next := by
  simp [links, hp, fieldAt_of_some hc]

theorem prev_eq_of_load {p : Addr} {c : LstElem} (hp : p ≠ NULL) (hc : l.heap p = some c) :
    l.links.prev p = c.prev := by
  simp [links, hp, fieldAt_of_some hc]

theorem Represents.meets_next (h : l.Represents s) :
    Links.Meets l.links.next NULL l.first (s.map Entry.elem) :=
  h.ring.meets_next (List.nodup_cons.mp h.nodup).1

theorem Represents.meets_prev (h : l.Represents s) :
    Links.Meets l.links.prev NULL l.last (s.reverse.map Entry.elem) := by
  rw [List.map_reverse]
  exact h.ring.meets_prev (List.nodup_cons.mp h.nodup).1

theorem Represents.follows_next (h : l.Represents s) : l.Follows LstElem.next l.first s :=
  follows_of_meets (fun _ _ => next_eq_of_load) h.content h.meets_next

theorem Represents.follows_prev (h : l.Represents s) : l.Follows LstElem.prev l.last s.reverse :=
  follows_of_meets (fun _ _ => prev_eq_of_load) (fun e he => h.content e (List.mem_reverse.mp he))
    h.meets_prev

theorem Represents.first_eq_null (h : l.Represents s) : l.first = NULL ↔ s = [] := by
  rw [h.first]
  cases s with
  | nil => simp
  | cons a s => simpa using h.notNull (e := a) (by simp)

theorem Represents.last_eq_null (h : l.Represents s) : l.last = NULL ↔ s = [] := by
  rw [h.last]
  cases s using List.reverseRecOn with
  | nil => simp
  | append_singleton s a => simpa using h.notNull (e := a) (by simp)

theorem steps_eq {field : LstElem → Addr} {p : Addr} (h : l.Follows field p s) (k : Nat) :
    l.steps field k p = some ((s[k]?).elim NULL Entry.elem) := by
  induction k generalizing p s with
  | zero =>
    cases s with
    | nil => simpa [steps] using (show p = NULL from h)
    | cons e s => simpa [steps] using h.1
  | succ k ih =>
    cases s with
    | nil =>
      have hp : p = NULL := h
      simp [steps, hp]
    | cons e s =>
      obtain ⟨-, hne, c, hc, -, hs⟩ := h
      rw [steps, if_neg hne, load, hc, Option.bind_eq_bind, Option.bind_some]
      simpa using ih hs

/-- The element that an index means: from the end if it is negative. -/
def entryAt (s : List Entry) (i : Int) : Option Entry :=
  if 0 ≤ i then s[i.toNat]? else if -s.length ≤ i then s[(s.length + i).toNat]? else none

theorem entryAt_of_neg {i : Int} (hi : i < 0) : entryAt s i = s.reverse[(-1 - i).toNat]? := by
  rw [entryAt, if_neg (by omega)]
  split
  · rw [List.getElem?_reverse (by omega)]
    congr 1
    omega
  · rw [List.getElem?_eq_none]
    rw [List.length_reverse]
    omega

theorem entryAt_of_lt {i : Nat} (hi : i < 2 ^ 31) : entryAt s (toInt i) = s[i]? := by
  rw [toInt_of_lt hi, entryAt, if_pos (Int.natCast_nonneg i), Int.toNat_natCast]

/-- From `2 ^ 31` on the converted index counts from the end of the list. -/
theorem entryAt_toInt {i : Nat} (hi : i < 2 ^ 32) (hin : i < s.length ∨ 2 ^ 31 ≤ s.length) :
    ∃ e, s[intIndex s.length i]? = some e ∧ entryAt s (toInt i) = some e := by
  have hlt : intIndex s.length i < s.length := by
    unfold intIndex
    split <;> omega
  refine ⟨s[intIndex s.length i], List.getElem?_eq_getElem hlt, ?_⟩
  rw [← List.getElem?_eq_getElem hlt]
  rcases Nat.lt_or_ge i (2 ^ 31) with hlow | hhigh
  · rw [entryAt_of_lt hlow, intIndex, if_pos hlow]
  · have hint := toInt_of_ge hhigh hi
    have hplace : (s.length + toInt i).toNat = s.length + i - 2 ^ 32 := by omega
    rw [entryAt, if_neg (by omega), if_pos (by omega), hplace, intIndex, if_neg (by omega)]

theorem getElem_eq (h : l.Represents s) (i : Int) :
    l.getElem i = some ((entryAt s i).elim NULL Entry.handle) := by
  have answer {s' : List Entry} (hs : ∀ e ∈ s', e ∈ s) (k : Nat) :
      (if (s'[k]?).elim NULL Entry.elem = NULL then NULL
        else elemToVoid ((s'[k]?).elim NULL Entry.elem)) = (s'[k]?).elim NULL Entry.handle := by
    cases hk : s'[k]? with
    | none => simp
    | some e => simp [h.notNull (hs e (List.mem_of_getElem? hk)), Entry.handle]
  by_cases hi : 0 ≤ i
  · rw [getElem, if_pos hi, steps_eq h.follows_next, Option.bind_eq_bind, Option.bind_some,
      entryAt, if_pos hi, ← answer fun _ => id]
  · rw [getElem, if_neg hi, steps_eq h.follows_prev, Option.bind_eq_bind, Option.bind_some,
      entryAt_of_neg (by omega), ← answer fun _ => List.mem_reverse.mp]

/-! ### `FOR_LST` -/

/-- The pointers that the loop body gets, from the pointer `p` on. -/
inductive Visits : Addr → Lst → List Addr → Prop
  | done (l : Lst) : Visits NULL l []
  | pass {p q : Addr} {l l' : Lst} {ps : List Addr} : p ≠ NULL → l.iterateLst = some (q, l') →
      Visits q l' ps → Visits p l (p :: ps)

/-- A traversal with a body that leaves the list alone. -/
def ForLst (l : Lst) (ps : List Addr) : Prop := Visits l.resetLst.1 l.resetLst.2 ps

theorem Represents.crnt (h : l.Represents s) (p : Addr) :
    Represents { l with crnt := p } s :=
  ⟨h.ring, h.nodup, h.content, h.room⟩

theorem visits_handles (h : l.Represents (s₁ ++ a :: s₂)) (hc : l.crnt = a.elem) :
    Visits a.handle l ((a :: s₂).map Entry.handle) := by
  induction s₂ generalizing l s₁ a with
  | nil =>
    obtain ⟨c, hac, hn, -⟩ := h.load_mid
    simp only [List.map_nil, List.headD_nil] at hn
    have hit : l.iterateLst = some (NULL, { l with crnt := NULL }) := by
      simp [iterateLst, hc, h.notNull, load, hac, hn]
    exact .pass (h.handle_ne (by simp)) hit (.done _)
  | cons b s₂ ih =>
    obtain ⟨c, hac, hn, -⟩ := h.load_mid
    simp only [List.map_cons, List.headD_cons] at hn
    have hit : l.iterateLst = some (b.handle, { l with crnt := b.elem }) := by
      simp [iterateLst, hc, h.notNull, load, hac, hn, Entry.handle]
    have h' : Represents { l with crnt := b.elem } ((s₁ ++ [a]) ++ b :: s₂) := by
      simpa using h.crnt b.elem
    exact .pass (h.handle_ne (by simp)) hit (ih h' rfl)

/-- A traversal visits the elements in order. On an empty list the body gets
the pointer that `reset_lst` computes from a null pointer. -/
theorem forLst_represents (h : l.Represents s) :
    l.ForLst (if s = [] then [elemToVoid NULL] else s.map Entry.handle) := by
  cases s with
  | nil =>
    have hf : l.first = NULL := h.first
    rw [if_pos rfl, ForLst, resetLst, hf]
    exact .pass (show elemToVoid NULL ≠ NULL by decide) rfl (.done _)
  | cons a s =>
    have hf : l.resetLst = (a.handle, { l with crnt := a.elem }) := by
      rw [resetLst, h.first]
      rfl
    rw [if_neg (by simp), ForLst, hf]
    have h' : Represents { l with crnt := a.elem } ([] ++ a :: s) := h.crnt a.elem
    exact visits_handles h' rfl

end Lst

end Rdpgen
