import Rdpgen.ListDestroy
import Rdpgen.Traversal
import Mathlib.Data.List.Forall2

namespace Rdpgen

theorem split_forall₂ {α β : Type} {P : α → β → Prop} {s : List α} {n₁ n₂ : List β} {n : β}
    (h : List.Forall₂ P s (n₁ ++ n :: n₂)) :
    ∃ s₁ e s₂, s = s₁ ++ e :: s₂ ∧ List.Forall₂ P s₁ n₁ ∧ P e n ∧ List.Forall₂ P s₂ n₂ := by
  induction n₁ generalizing s with
  | nil =>
    cases h with
    | cons he hs => exact ⟨[], _, _, rfl, .nil, he, hs⟩
  | cons m n₁ ih =>
    cases h with
    | cons hm hs =>
      obtain ⟨s₁, e, s₂, rfl, h₁, he, h₂⟩ := ih hs
      exact ⟨_ :: s₁, e, s₂, rfl, .cons hm h₁, he, h₂⟩

theorem forall₂_mem {α β : Type} {P : α → β → Prop} {xs : List α} {ys : List β}
    (h : List.Forall₂ P xs ys) : List.Forall₂ (fun x y => x ∈ xs ∧ y ∈ ys ∧ P x y) xs ys := by
  have hright := ((List.forall₂_and_left ys xs).mpr ⟨fun _ hy => hy, h.flip⟩).flip
  exact (List.forall₂_and_left xs ys).mpr ⟨fun _ hx => hx, hright⟩

namespace Lst

variable {α : Type} {l l' : Lst} {s s₁ s₂ : List Entry} {R : Bytes → α → Prop}
  {nodes n₁ n₂ : List (Addr × α)} {a : Addr} {x : α}

/-- The list has the nodes, each one at its address and with data that stand for its value; nothing
is at the null pointer. -/
def Holds (l : Lst) (R : Bytes → α → Prop) (nodes : List (Addr × α)) : Prop :=
  ∃ s, l.Represents s ∧ l.len.toNat = s.length ∧ l.heap NULL = none ∧
    List.Forall₂ (fun e n => e.elem = n.1 ∧ R e.data n.2) s nodes

theorem holds_createLst : createLst.Holds R [] := ⟨[], represents_createLst, rfl, rfl, .nil⟩

theorem Holds.crnt (h : l.Holds R nodes) (p : Addr) : Holds { l with crnt := p } R nodes := by
  obtain ⟨s, hr, hlen, hnull, hs⟩ := h
  exact ⟨s, hr.crnt p, hlen, hnull, hs⟩

theorem Holds.length (h : l.Holds R nodes) : l.getLstLen.toNat = nodes.length := by
  obtain ⟨s, -, hlen, -, hs⟩ := h
  exact hlen.trans hs.length_eq

theorem Holds.first (h : l.Holds R nodes) : l.first = (nodes.map Prod.fst).headD NULL := by
  obtain ⟨s, hr, -, -, hs⟩ := h
  rw [hr.first]
  cases hs with
  | nil => rfl
  | cons he _ => exact he.1

theorem Holds.load (h : l.Holds R nodes) (hx : (a, x) ∈ nodes) :
    ∃ c, l.load a = some c ∧ R c.data x := by
  obtain ⟨s, hr, -, -, hs⟩ := h
  obtain ⟨n₁, n₂, rfl⟩ := List.append_of_mem hx
  obtain ⟨s₁, e, s₂, rfl, -, he, -⟩ := split_forall₂ hs
  obtain ⟨c, hc, hcontent⟩ := hr.load (e := e) (by simp)
  obtain ⟨rfl, hdata⟩ := he
  have hsame : c.data = e.data := congrArg (fun t => t.2.2) hcontent
  exact ⟨c, hc, hsame ▸ hdata⟩

theorem Holds.handle_ne (h : l.Holds R nodes) (hx : (a, x) ∈ nodes) : elemToVoid a ≠ NULL := by
  obtain ⟨s, hr, -, -, hs⟩ := h
  obtain ⟨n₁, n₂, rfl⟩ := List.append_of_mem hx
  obtain ⟨s₁, e, s₂, rfl, -, he, -⟩ := split_forall₂ hs
  obtain ⟨rfl, -⟩ := he
  exact hr.handle_ne (by simp)

theorem Holds.append {data : Bytes} (h : l.Holds R nodes)
    (he : ∀ s, l.Represents s → Entry.Fresh ⟨a, 0, data⟩ s) (hd : R data x) :
    ∃ l', l.appendLst ⟨a, 0, data⟩ = some l' ∧ l'.Holds R (nodes ++ [(a, x)]) := by
  obtain ⟨s, hr, hlen, hnull, hs⟩ := h
  obtain ⟨l', hl', hr', hlen'⟩ := appendLst_represents hr (he s hr)
  refine ⟨l', hl', s ++ [⟨a, 0, data⟩], hr', ?_, ?_, List.rel_append hs (.cons ⟨rfl, hd⟩ .nil)⟩
  · have hone : (1 : UInt64).toNat = 1 := rfl
    have hlt := length_lt_of_nodup hr'.nodup
    rw [List.length_map, List.length_append, List.length_singleton] at hlt
    rw [hlen', UInt64.toNat_add, hone, hlen, List.length_append, List.length_singleton]
    exact Nat.mod_eq_of_lt hlt
  · have ha : NULL ≠ a := fun hn => (he s hr).notMem (by simp [← hn])
    have hgains := (appendLst_gains hl' NULL).not
    rw [not_not, not_or, not_not] at hgains
    exact hgains.mpr ⟨ha, hnull⟩

/-- The step of a traversal from a node to the next one. -/
theorem Holds.iterate (h : l.Holds R (n₁ ++ (a, x) :: n₂)) (hc : l.crnt = a) :
    l.iterateLst = some ((n₂.head?).elim NULL fun n => elemToVoid n.1,
      { l with crnt := (n₂.map Prod.fst).headD NULL }) := by
  obtain ⟨s, hr, -, -, hs⟩ := h
  obtain ⟨s₁, e, s₂, rfl, -, he, h₂⟩ := split_forall₂ hs
  obtain ⟨c, hec, hn, -⟩ := hr.load_mid
  have hne := hr.notNull (e := e) (by simp)
  rw [he.1] at hec hne
  cases h₂ with
  | nil =>
    simp only [List.map_nil, List.headD_nil] at hn
    simp [iterateLst, hc, hne, Lst.load, hec, hn]
  | @cons b n s₂ n₂ hb h₂ =>
    have hnb := hr.notNull (e := b) (by simp)
    simp only [List.map_cons, List.headD_cons] at hn
    rw [hb.1] at hn hnb
    simp [iterateLst, hc, hne, Lst.load, hec, hn, hnb]

/-- Other bytes at an element, as many as before. -/
theorem Represents.overwrite {e : Entry} {c : LstElem} {data : Bytes}
    (h : l.Represents (s₁ ++ e :: s₂)) (hc : l.heap e.elem = some c) (hlen : data.length = e.size) :
    Represents { l with heap := Function.update l.heap e.elem (some { c with data }) }
      (s₁ ++ { e with data } :: s₂) := by
  have hmap : (s₁ ++ { e with data } :: s₂).map Entry.elem = (s₁ ++ e :: s₂).map Entry.elem := by simp
  have hlinks : Lst.links { l with heap := Function.update l.heap e.elem (some { c with data }) } =
      l.links := by
    have hfield (f : LstElem → Addr) (hf : f { c with data } = f c) (p : Addr) :
        fieldAt (Function.update l.heap e.elem (some { c with data })) f p = fieldAt l.heap f p := by
      rw [fieldAt_update]
      split
      · next hp => rw [hp, fieldAt_of_some hc, hf]
      · rfl
    simp only [Lst.links, hfield LstElem.next rfl, hfield LstElem.prev rfl]
  have hother : ∀ b ∈ s₁ ++ s₂, b.elem ≠ e.elem := by
    have hd := (List.nodup_cons.mp h.nodup).2
    rw [List.map_append, List.map_cons, List.nodup_middle, ← List.map_append, List.nodup_cons] at hd
    exact fun b hb he => hd.1 (he ▸ List.mem_map_of_mem hb)
  have hold : ∀ b ∈ s₁ ++ s₂, b ∈ s₁ ++ e :: s₂ := by
    intro b hb
    simp only [List.mem_append, List.mem_cons] at hb ⊢
    tauto
  have hcontent := h.content e (by simp)
  rw [contentAt_of_some hc] at hcontent
  refine ⟨?_, ?_, ?_, ?_⟩
  · rw [hmap, hlinks]
    exact h.ring
  · rw [hmap]
    exact h.nodup
  · intro b hb
    have hmem : b = { e with data } ∨ b ∈ s₁ ++ s₂ := by
      simp only [List.mem_append, List.mem_cons] at hb ⊢
      tauto
    rcases hmem with rfl | hb
    · simp only [LstElem.content, Entry.content, Option.some.injEq, Prod.mk.injEq] at hcontent
      simp [LstElem.content, Entry.content, hcontent.1, hcontent.2.1, Entry.size, hlen]
    · rw [contentAt_update, if_neg (hother b hb)]
      exact h.content b (hold b hb)
  · intro b hb
    have hmem : b = { e with data } ∨ b ∈ s₁ ++ s₂ := by
      simp only [List.mem_append, List.mem_cons] at hb ⊢
      tauto
    rcases hmem with rfl | hb
    · have hroom := h.room e (by simp)
      rwa [Entry.size, hlen]
    · exact h.room b (hold b hb)

/-- The data of a node are overwritten. -/
theorem Holds.store (h : l.Holds R nodes) (hx : (a, x) ∈ nodes) {f : Bytes → Bytes}
    (hlen : ∀ data, (f data).length = data.length) (hf : ∀ data, R data x → R (f data) x) :
    ∃ l', l.store a (fun c => { c with data := f c.data }) = some l' ∧ l'.Holds R nodes ∧
      l'.crnt = l.crnt := by
  obtain ⟨s, hr, hcount, hnull, hs⟩ := h
  obtain ⟨n₁, n₂, rfl⟩ := List.append_of_mem hx
  obtain ⟨s₁, e, s₂, rfl, h₁, he, h₂⟩ := split_forall₂ hs
  obtain ⟨c, hc, hcontent⟩ := hr.load (e := e) (by simp)
  have hne := hr.notNull (e := e) (by simp)
  obtain ⟨rfl, hdata⟩ := he
  have hsame : c.data = e.data := congrArg (fun t => t.2.2) hcontent
  have hsize : (f c.data).length = e.size := by rw [hlen, hsame, Entry.size]
  refine ⟨_, by simp only [Lst.store, Lst.load, hc, Option.bind_eq_bind, Option.bind_some],
    ⟨_, hr.overwrite hc hsize, ?_, ?_, ?_⟩, rfl⟩
  · simpa using hcount
  · exact (Function.update_of_ne hne.symm _ _).trans hnull
  · exact List.rel_append h₁ (.cons ⟨rfl, hf _ (hsame ▸ hdata)⟩ h₂)

theorem Holds.getElem (h : l.Holds R nodes) {i : Nat} (hi : i < nodes.length)
    (hsmall : i < 2 ^ 31) : l.getElem (toInt i) = some (elemToVoid nodes[i].1) := by
  obtain ⟨s, hr, -, -, hs⟩ := h
  have his : i < s.length := hs.length_eq ▸ hi
  have he := (List.forall₂_iff_get.mp hs).2 i his hi
  rw [getElem_eq hr, entryAt_of_lt hsmall, List.getElem?_eq_getElem his, Option.elim_some, Entry.handle]
  exact congrArg (fun p => some (elemToVoid p)) he.1

end Lst

/-- The search compares the text with that of each element, up to the first that is equal. -/
theorem Lists.strInLst_any {ρ α : Type} {R : Bytes → α → Prop} {nodes : List (Addr × α)} {k : Nat}
    {st : Lists ρ} {E : Halt → Lists ρ → Prop} {same : Lists ρ → Addr → Bool}
    (hit : Addr × α → Bool) (h : (st.lst k).Holds R nodes) (hsmall : nodes.length < 2 ^ 31)
    (hsame : ∀ n ∈ nodes, same st (elemToVoid n.1) = hit n) :
    (strInLst k same).wp (fun found st' => st' = st ∧ found = nodes.any hit) E False st := by
  have hlen := h.length
  unfold strInLst
  rw [Prog.wp_bind]
  refine Prog.wp_whileDo_of_measure
    (fun q st' => st' = st ∧ q.1.toNat ≤ nodes.length ∧
      if q.2 then nodes.any hit = true else (nodes.take q.1.toNat).any hit = false)
    (fun q _ => if q.2 then 0 else nodes.length - q.1.toNat + 1) ?_ ?_ ⟨rfl, Nat.zero_le _, rfl⟩
  · rintro ⟨i, found⟩ st' ⟨hst, -, htaken⟩ hc
    subst hst
    rw [hlen, Bool.and_eq_true, Bool.not_eq_true', decide_eq_true_eq] at hc
    obtain ⟨rfl, hlt⟩ : found = false ∧ i.toNat < nodes.length := hc
    have hmem : nodes[i.toNat] ∈ nodes := List.getElem_mem hlt
    have hne : elemToVoid nodes[i.toNat].1 ≠ NULL := h.handle_ne hmem
    have hnext := toNat_succ hlt (by omega)
    have hget : (st'.lst k).getElem (toInt i.toNat) = some (elemToVoid nodes[i.toNat].1) :=
      h.getElem hlt (by omega)
    unfold strInPass Lists.getElem
    rw [Prog.wp_bind, wp_onLst (by rw [hget]; rfl), setLst_self, if_neg hne,
      Prog.wp_bind, Prog.wp_gets, Prog.wp_pure, hsame _ hmem]
    by_cases hhit : hit nodes[i.toNat] = true
    · rw [if_pos hhit]
      refine ⟨⟨rfl, hlt.le, ?_⟩, Nat.succ_pos _⟩
      exact List.any_eq_true.mpr ⟨_, hmem, hhit⟩
    · rw [if_neg hhit]
      refine ⟨⟨rfl, hnext ▸ hlt, ?_⟩, ?_⟩
      · have htaken' : (nodes.take i.toNat).any hit = false := htaken
        have hfalse : hit nodes[i.toNat] = false := by simpa using hhit
        rw [if_neg Bool.false_ne_true, hnext, List.take_succ_eq_append_getElem hlt, List.any_append,
          htaken']
        simpa using hfalse
      · have hless : nodes.length - (i.toNat + 1) + 1 < nodes.length - i.toNat + 1 := by omega
        rw [if_neg Bool.false_ne_true, if_neg Bool.false_ne_true, hnext]
        exact hless
  · rintro ⟨i, found⟩ st' ⟨hst, -, htaken⟩ hc
    subst hst
    rw [Prog.wp_pure]
    refine ⟨rfl, ?_⟩
    cases found with
    | true => exact htaken.symm
    | false =>
      have hend : nodes.length ≤ i.toNat := by simpa [hlen] using hc
      have htaken' : (nodes.take i.toNat).any hit = false := htaken
      rw [List.take_of_length_le hend] at htaken'
      exact htaken'.symm

end Rdpgen
