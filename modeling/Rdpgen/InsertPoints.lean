import Rdpgen.ListRuns

namespace Rdpgen

/-- Both calls return, with the same list. -/
def SameList (p q : Option Lst) : Prop := ∃ l', p = some l' ∧ q = some l'

/-- The index that names the same element from the other end of a list of `n`. -/
def otherIndex (n : Nat) (i : Int) : Int := if 0 ≤ i then i - n else i + n

/-- The ways of naming an insertion point in a list of `n` elements agree. -/
structure InsertionsAgree (l : Lst) (n : Nat) (e : Entry) : Prop where
  front : SameList (l.insertLstIdx 0 e false) (l.prependLst e)
  back : SameList (l.insertLstIdx (-1) e true) (l.appendLst e)
  signs : ∀ i : Int, -n ≤ i → i < n → ∀ flag,
    SameList (l.insertLstIdx i e flag) (l.insertLstIdx (otherIndex n i) e flag)
  neighbours : ∀ i : Int, 0 ≤ i → i + 1 < n →
    SameList (l.insertLstIdx i e true) (l.insertLstIdx (i + 1) e false)

namespace Lst

variable {l : Lst} {s s₁ s₂ : List Entry} {e a : Entry}

theorem insertLstIdx_eq {i : Int} (h : l.Represents s) (ha : entryAt s i = some a) (e : Entry)
    (flag : Bool) : l.insertLstIdx i e flag = l.insertLst a.handle e flag := by
  rw [insertLstIdx, getElem_eq h, ha]
  rfl

theorem insertLst_returns (h : l.Represents s) (he : e.Fresh s) (ha : a ∈ s) (flag : Bool) :
    ∃ l', l.insertLst a.handle e flag = some l' := by
  obtain ⟨s₁, s₂, hs⟩ := List.append_of_mem ha
  subst hs
  obtain ⟨l', hl, -⟩ := insertLst_represents h he flag
  exact ⟨l', hl⟩

theorem entryAt_otherIndex {i : Int} (hl : -s.length ≤ i) (hu : i < s.length) :
    entryAt s (otherIndex s.length i) = entryAt s i := by
  unfold otherIndex entryAt
  by_cases hi : 0 ≤ i
  · have hn : ¬0 ≤ i - s.length := by omega
    rw [if_pos hi, if_neg hn, if_pos hi, if_pos (by omega)]
    congr 1
    omega
  · have hn : 0 ≤ i + s.length := by omega
    rw [if_neg hi, if_pos hn, if_neg hi, if_pos hl]
    congr 1
    omega

theorem entryAt_mem {i : Int} (hl : -s.length ≤ i) (hu : i < s.length) :
    ∃ a ∈ s, entryAt s i = some a := by
  obtain ⟨s₁, a, s₂, hs, hat, -⟩ := LstOp.placeIdx_split hl hu
  exact ⟨a, by simp [hs], hat⟩

theorem Represents.prepends (h : l.Represents s) (he : e.Fresh s) (hs : s ≠ []) :
    SameList (l.insertLstIdx 0 e false) (l.prependLst e) := by
  obtain ⟨a, s, rfl⟩ := List.exists_cons_of_ne_nil hs
  obtain ⟨l', hl, -⟩ := prependLst_represents h he
  have hat : entryAt (a :: s) 0 = some a := rfl
  rw [insertLstIdx_eq h hat, insertLst_first h]
  exact ⟨l', hl, hl⟩

theorem Represents.appends (h : l.Represents s) (he : e.Fresh s) (hs : s ≠ []) :
    SameList (l.insertLstIdx (-1) e true) (l.appendLst e) := by
  cases s using List.reverseRecOn with
  | nil => exact absurd rfl hs
  | append_singleton s a =>
    obtain ⟨l', hl, -⟩ := appendLst_represents h he
    have hat : entryAt (s ++ [a]) (-1) = some a := by
      rw [entryAt_of_neg (by decide), List.reverse_concat]
      rfl
    rw [insertLstIdx_eq h hat, insertLst_last h]
    exact ⟨l', hl, hl⟩

theorem Represents.signs (h : l.Represents s) (he : e.Fresh s) {i : Int} (hl : -s.length ≤ i)
    (hu : i < s.length) (flag : Bool) :
    SameList (l.insertLstIdx i e flag) (l.insertLstIdx (otherIndex s.length i) e flag) := by
  obtain ⟨a, ha, hat⟩ := entryAt_mem hl hu
  have hother := (entryAt_otherIndex hl hu).trans hat
  obtain ⟨l', hins⟩ := insertLst_returns h he ha flag
  rw [insertLstIdx_eq h hat, insertLstIdx_eq h hother]
  exact ⟨l', hins, hins⟩

/-- Behind an element and in front of the next one the new element gets the same links. -/
theorem Represents.neighbours (h : l.Represents s) (he : e.Fresh s) {i : Int} (hi : 0 ≤ i)
    (hu : i + 1 < s.length) :
    SameList (l.insertLstIdx i e true) (l.insertLstIdx (i + 1) e false) := by
  have hl : -s.length ≤ i := by omega
  obtain ⟨s₁, a, s₂, hs, hat, hpl⟩ := LstOp.placeIdx_split hl (by omega)
  rw [LstOp.placeIdx, if_pos hi] at hpl
  subst hs
  cases s₂ with
  | nil =>
    rw [List.length_append, List.length_singleton] at hu
    omega
  | cons b s₂ =>
    have hnext : entryAt (s₁ ++ a :: b :: s₂) (i + 1) = some b := by
      have hplace : (i + 1).toNat = s₁.length + 1 := by omega
      rw [entryAt, if_pos (by omega), hplace, List.getElem?_append_right (by omega)]
      simp
    obtain ⟨l', hl, -⟩ := insertBetween_represents h he
    rw [insertLstIdx_eq h hat, insertLstIdx_eq h hnext, insertLst_behind h, insertLst_front h]
    exact ⟨l', hl, hl⟩

theorem Represents.insertionsAgree (h : l.Represents s) (he : e.Fresh s) (hs : s ≠ []) :
    InsertionsAgree l s.length e where
  front := h.prepends he hs
  back := h.appends he hs
  signs _ hl hu flag := h.signs he hl hu flag
  neighbours _ hi hu := h.neighbours he hi hu

/-- An empty list has no element at any index, and the call of `insert_lst` fails. -/
theorem insertLstIdx_empty (h : l.Represents []) (i : Int) (e : Entry) (flag : Bool) :
    l.insertLstIdx i e flag = none := by
  have hat : entryAt [] i = none := by
    unfold entryAt
    split
    · rfl
    · split
      · rfl
      · rfl
  rw [insertLstIdx, getElem_eq h, hat]
  rfl

end Lst

/-- In every run the ways of naming an insertion point agree exactly if the list is not empty. -/
theorem insertLstIdx_agrees_iff (ops : List LstOp) (h : LstOp.Valid [] ops) {e : Entry}
    (he : e.Fresh (seqOf ops)) :
    ∃ l, runLst ops = some l ∧
      (InsertionsAgree l (seqOf ops).length e ↔ seqOf ops ≠ []) := by
  obtain ⟨l, hl, hr, -⟩ := runLst_represents h
  refine ⟨l, hl, ?_, hr.insertionsAgree he⟩
  intro hagree hempty
  rw [hempty] at hr
  obtain ⟨l', hins, -⟩ := hagree.front
  rw [Lst.insertLstIdx_empty hr] at hins
  cases hins

theorem insertLstIdx_agrees_remove :
    ∃ l, runLst removingOps = some l ∧ InsertionsAgree l 2 ⟨256, 2, [8, 9]⟩ := by
  obtain ⟨l, hl, hiff⟩ := insertLstIdx_agrees_iff removingOps (by decide)
    (e := ⟨256, 2, [8, 9]⟩) (by decide)
  exact ⟨l, hl, hiff.mpr (by decide)⟩

/-- On the empty list `prepend_lst` returns and `insert_lst_idx` does not. -/
theorem insertLstIdx_empty_fails :
    runLst [] = some Lst.createLst ∧ ¬InsertionsAgree Lst.createLst 0 ⟨64, 1, [7]⟩ ∧
      (Lst.createLst.prependLst ⟨64, 1, [7]⟩).isSome ∧
      Lst.createLst.insertLstIdx 0 ⟨64, 1, [7]⟩ false = none := by
  refine ⟨rfl, ?_, rfl, rfl⟩
  intro hagree
  obtain ⟨l', hins, -⟩ := hagree.front
  cases hins

end Rdpgen
