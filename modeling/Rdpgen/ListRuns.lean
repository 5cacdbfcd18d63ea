import Rdpgen.ListSeq
import Mathlib.Data.List.InsertIdx
import Mathlib.Data.List.Perm.Subperm

namespace Rdpgen

/-- The calls that change a list. The first address of `insert` and the one of
`remove` are pointers that the list gave out. -/
inductive LstOp where
  | append (e : Entry)
  | prepend (e : Entry)
  | push (e : Entry)
  | insert (elem : Addr) (e : Entry) (flag : Bool)
  | insertIdx (index : Int) (e : Entry) (flag : Bool)
  | remove (elem : Addr)
  | removeIdx (index : Int)
  | pop
  deriving DecidableEq, Repr

namespace LstOp

def exec (l : Lst) : LstOp → Option Lst
  | append e => l.appendLst e
  | prepend e => l.prependLst e
  | push e => l.pushLst e
  | insert elem e flag => l.insertLst elem e flag
  | insertIdx index e flag => l.insertLstIdx index e flag
  | remove elem => l.removeLst elem
  | removeIdx index => l.removeLstIdx index
  | pop => l.popLst

/-! ### The same calls on a sequence -/

def place (s : List Entry) (elem : Addr) : Nat := s.findIdx fun e => e.handle = elem

def placeIdx (s : List Entry) (index : Int) : Nat :=
  if 0 ≤ index then index.toNat else (s.length + index).toNat

def insertAt (s : List Entry) (i : Nat) (e : Entry) (flag : Bool) : List Entry :=
  s.insertIdx (if flag then i + 1 else i) e

def apply (s : List Entry) : LstOp → List Entry
  | append e => s ++ [e]
  | prepend e => e :: s
  | push e => e :: s
  | insert elem e flag => insertAt s (place s elem) e flag
  | insertIdx index e flag => insertAt s (placeIdx s index) e flag
  | remove elem => s.eraseIdx (place s elem)
  | removeIdx index => s.eraseIdx (placeIdx s index)
  | pop => s.tail

def removed (s : List Entry) : LstOp → Option Entry
  | remove elem => s[place s elem]?
  | removeIdx index => s[placeIdx s index]?
  | pop => s.head?
  | _ => none

/-- What a call asks for: a new block, an element of the list, an index of one. -/
def Pre (s : List Entry) : LstOp → Prop
  | append e | prepend e | push e => e.Fresh s
  | insert elem e _ => e.Fresh s ∧ elem ∈ s.map Entry.handle
  | insertIdx index e _ => e.Fresh s ∧ -s.length ≤ index ∧ index < s.length
  | remove elem => elem ∈ s.map Entry.handle
  | removeIdx index => -s.length ≤ index ∧ index < s.length
  | pop => s ≠ []

instance decidablePre (s : List Entry) : (op : LstOp) → Decidable (op.Pre s)
  | append e | prepend e | push e => inferInstanceAs (Decidable (e.Fresh s))
  | insert elem e _ => inferInstanceAs (Decidable (e.Fresh s ∧ elem ∈ s.map Entry.handle))
  | insertIdx index e _ =>
    inferInstanceAs (Decidable (e.Fresh s ∧ -s.length ≤ index ∧ index < s.length))
  | remove elem => inferInstanceAs (Decidable (elem ∈ s.map Entry.handle))
  | removeIdx index => inferInstanceAs (Decidable (-s.length ≤ index ∧ index < s.length))
  | pop => inferInstanceAs (Decidable (s ≠ []))

/-- Every call of the run finds what it asks for. -/
def Valid : List Entry → List LstOp → Prop
  | _, [] => True
  | s, op :: ops => op.Pre s ∧ Valid (op.apply s) ops

instance decidableValid : (s : List Entry) → (ops : List LstOp) → Decidable (Valid s ops)
  | _, [] => inferInstanceAs (Decidable True)
  | s, op :: ops =>
    have := decidableValid (op.apply s) ops
    inferInstanceAs (Decidable (op.Pre s ∧ Valid (op.apply s) ops))

end LstOp

def runLst (ops : List LstOp) : Option Lst := ops.foldlM LstOp.exec Lst.createLst

def seqOf (ops : List LstOp) : List Entry := ops.foldl LstOp.apply []

namespace LstOp

variable {s s₁ s₂ : List Entry} {l : Lst} {a e : Entry}

theorem place_split {elem : Addr} (h : elem ∈ s.map Entry.handle) :
    ∃ s₁ a s₂, s = s₁ ++ a :: s₂ ∧ a.handle = elem ∧ place s elem = s₁.length := by
  obtain ⟨e, he, hh⟩ := List.mem_map.mp h
  have hlt : place s elem < s.length := List.findIdx_lt_length_of_exists ⟨e, he, by simpa using hh⟩
  refine ⟨s.take (place s elem), s[place s elem], s.drop (place s elem + 1), ?_, ?_, ?_⟩
  · rw [← List.drop_eq_getElem_cons hlt, List.take_append_drop]
  · exact of_decide_eq_true (List.findIdx_getElem (w := hlt))
  · rw [List.length_take]
    omega

theorem placeIdx_split {index : Int} (hl : -s.length ≤ index) (hu : index < s.length) :
    ∃ s₁ a s₂, s = s₁ ++ a :: s₂ ∧ Lst.entryAt s index = some a ∧ placeIdx s index = s₁.length := by
  have hlt : placeIdx s index < s.length := by
    rw [placeIdx]
    split <;> omega
  refine ⟨s.take (placeIdx s index), s[placeIdx s index], s.drop (placeIdx s index + 1), ?_, ?_, ?_⟩
  · rw [← List.drop_eq_getElem_cons hlt, List.take_append_drop]
  · rw [Lst.entryAt, ← List.getElem?_eq_getElem hlt, placeIdx]
    split
    · rfl
    · simp
  · rw [List.length_take]
    omega

theorem insertIdx_length_append (s₁ s₂ : List Entry) (x : Entry) :
    (s₁ ++ s₂).insertIdx s₁.length x = s₁ ++ x :: s₂ := by
  induction s₁ with
  | nil => rfl
  | cons b s₁ ih => simpa using ih

theorem insertAt_split (flag : Bool) :
    insertAt (s₁ ++ a :: s₂) s₁.length e flag =
      if flag then s₁ ++ a :: e :: s₂ else s₁ ++ e :: a :: s₂ := by
  cases flag with
  | false => simp [insertAt, insertIdx_length_append]
  | true =>
    have h := insertIdx_length_append (s₁ ++ [a]) s₂ e
    simpa [insertAt] using h

theorem eraseIdx_split : (s₁ ++ a :: s₂).eraseIdx s₁.length = s₁ ++ s₂ := by
  rw [List.eraseIdx_append_of_length_le (Nat.le_refl _), Nat.sub_self, List.eraseIdx_cons_zero]

/-- The counter after `k` forgotten elements. -/
def Counted (l : Lst) (s : List Entry) (k : Nat) : Prop := l.len = UInt64.ofNat (s.length + k)

theorem Counted.grow {l' : Lst} {s' : List Entry} {k : Nat} (h : Counted l s k)
    (hl : l'.len = l.len + 1) (hs : s'.length = s.length + 1) : Counted l' s' k := by
  rw [Counted, hl, h, hs, Nat.add_right_comm]
  exact (UInt64.ofNat_add _ 1).symm

theorem Counted.shrink {l' : Lst} {s' : List Entry} {k : Nat} (h : Counted l s k)
    (hl : l'.len = l.len - 1) (hs : s.length = s'.length + 1) : Counted l' s' k := by
  rw [Counted, hl, h, hs, Nat.add_right_comm, UInt64.ofNat_add]
  exact UInt64.add_sub_cancel _ _

/-- A call keeps the list a list of its sequence. -/
theorem exec_represents {op : LstOp} (h : l.Represents s) (hp : op.Pre s) {k : Nat}
    (hk : Counted l s k) :
    ∃ l', op.exec l = some l' ∧ l'.Represents (op.apply s) ∧
      Counted l' (op.apply s) (k + [op].count pop) := by
  have inserted {s₁ s₂ : List Entry} {a : Entry} (hs : s = s₁ ++ a :: s₂) {e : Entry}
      (he : e.Fresh s) (flag : Bool) : ∃ l', l.insertLst a.handle e flag = some l' ∧
        l'.Represents (insertAt s s₁.length e flag) ∧ Counted l' (insertAt s s₁.length e flag) k := by
    subst hs
    obtain ⟨l', hl, hr, hlen⟩ := Lst.insertLst_represents h he flag
    rw [insertAt_split]
    refine ⟨l', hl, hr, hk.grow hlen ?_⟩
    cases flag <;> simp <;> omega
  have removed {s₁ s₂ : List Entry} {a : Entry} (hs : s = s₁ ++ a :: s₂) :
      ∃ l', l.removeLst a.handle = some l' ∧ l'.Represents (s.eraseIdx s₁.length) ∧
        Counted l' (s.eraseIdx s₁.length) k := by
    subst hs
    obtain ⟨l', hl, hr, hlen⟩ := Lst.removeLst_represents h
    rw [eraseIdx_split]
    refine ⟨l', hl, hr, hk.shrink hlen ?_⟩
    simp only [List.length_append, List.length_cons]
    omega
  cases op with
  | append e =>
    obtain ⟨l', hl, hr, hlen⟩ := Lst.appendLst_represents h hp
    exact ⟨l', hl, hr, hk.grow hlen (by simp [apply])⟩
  | prepend e =>
    obtain ⟨l', hl, hr, hlen⟩ := Lst.prependLst_represents h hp
    exact ⟨l', hl, hr, hk.grow hlen (by simp [apply])⟩
  | push e =>
    obtain ⟨l', hl, hr, hlen⟩ := Lst.prependLst_represents h hp
    exact ⟨l', hl, hr, hk.grow hlen (by simp [apply])⟩
  | insert elem e flag =>
    obtain ⟨he, hmem⟩ := hp
    obtain ⟨s₁, a, s₂, hs, rfl, hpl⟩ := place_split hmem
    rw [apply, hpl]
    exact inserted hs he flag
  | insertIdx index e flag =>
    obtain ⟨he, hl, hu⟩ := hp
    obtain ⟨s₁, a, s₂, hs, hat, hpl⟩ := placeIdx_split hl hu
    rw [apply, hpl, exec, Lst.insertLstIdx, Lst.getElem_eq h, hat]
    exact inserted hs he flag
  | remove elem =>
    obtain ⟨s₁, a, s₂, hs, rfl, hpl⟩ := place_split hp
    rw [apply, hpl]
    exact removed hs
  | removeIdx index =>
    obtain ⟨s₁, a, s₂, hs, hat, hpl⟩ := placeIdx_split hp.1 hp.2
    rw [apply, hpl, exec, Lst.removeLstIdx, Lst.getElem_eq h, hat]
    exact removed hs
  | pop =>
    cases s with
    | nil => exact absurd rfl hp
    | cons a s =>
      obtain ⟨l', hl, hr, hlen⟩ := Lst.popLst_represents h
      refine ⟨l', hl, hr, ?_⟩
      rw [Counted, hlen, hk]
      congr 1
      simp only [apply, List.tail_cons, List.length_cons, List.count_singleton_self]
      omega

theorem runFrom_represents {ops : List LstOp} (hv : Valid s ops) (h : l.Represents s) {k : Nat}
    (hk : Counted l s k) :
    ∃ l', ops.foldlM exec l = some l' ∧ l'.Represents (ops.foldl apply s) ∧
      Counted l' (ops.foldl apply s) (k + ops.count pop) := by
  induction ops generalizing l s k with
  | nil => exact ⟨l, rfl, h, hk⟩
  | cons op ops ih =>
    obtain ⟨hp, hv⟩ := hv
    obtain ⟨l₁, hl₁, h₁, hk₁⟩ := exec_represents h hp hk
    obtain ⟨l', hl', h', hk'⟩ := ih hv h₁ hk₁
    refine ⟨l', ?_, h', ?_⟩
    · rw [List.foldlM_cons, hl₁]
      exact hl'
    · rw [← List.singleton_append, List.count_append, ← Nat.add_assoc]
      exact hk'

theorem mem_apply {op : LstOp} (he : e ∈ s) (hr : op.removed s ≠ some e) :
    e ∈ op.apply s := by
  have inserted (i : Nat) (b : Entry) (flag : Bool) : e ∈ insertAt s i b flag :=
    List.subset_insertIdx _ _ _ he
  have kept {i : Nat} (hi : s[i]? ≠ some e) : e ∈ s.eraseIdx i := by
    obtain ⟨j, hj⟩ := List.mem_iff_getElem?.mp he
    exact List.mem_eraseIdx_iff_getElem?.mpr ⟨j, fun hij => hi (hij ▸ hj), hj⟩
  cases op with
  | append b => exact List.mem_append_left _ he
  | prepend b => exact List.mem_cons_of_mem _ he
  | push b => exact List.mem_cons_of_mem _ he
  | insert elem b flag => exact inserted _ b flag
  | insertIdx index b flag => exact inserted _ b flag
  | remove elem => exact kept hr
  | removeIdx index => exact kept hr
  | pop =>
    cases s with
    | nil => exact he
    | cons a s =>
      rcases List.mem_cons.mp he with rfl | he
      · exact absurd rfl hr
      · exact he

end LstOp

theorem runLst_represents {ops : List LstOp} (h : LstOp.Valid [] ops) :
    ∃ l, runLst ops = some l ∧ l.Represents (seqOf ops) ∧
      LstOp.Counted l (seqOf ops) (ops.count .pop) := by
  have hr := LstOp.runFrom_represents h Lst.represents_createLst (k := 0) rfl
  rwa [Nat.zero_add] at hr

/-- In every run the list is the sequence, read from either end and by index. -/
theorem runLst_refines (ops : List LstOp) (h : LstOp.Valid [] ops) :
    ∃ l, runLst ops = some l ∧
      l.Follows LstElem.next l.first (seqOf ops) ∧
      l.Follows LstElem.prev l.last (seqOf ops).reverse ∧
      (l.first = NULL ↔ seqOf ops = []) ∧ (l.last = NULL ↔ seqOf ops = []) ∧
      (∀ op : LstOp, ∀ e ∈ seqOf ops, op.removed (seqOf ops) ≠ some e → e ∈ seqOf (ops ++ [op])) ∧
      ∀ i, l.getElem i = some ((Lst.entryAt (seqOf ops) i).elim NULL Entry.handle) := by
  obtain ⟨l, hl, hr, -⟩ := runLst_represents h
  refine ⟨l, hl, hr.follows_next, hr.follows_prev, hr.first_eq_null, hr.last_eq_null, ?_,
    Lst.getElem_eq hr⟩
  intro op e he hne
  rw [seqOf, List.foldl_append]
  exact LstOp.mem_apply he hne

/-- Two blocks, the second one behind the first, then the first one taken off. -/
theorem runLst_refines_remove :
    ∃ l, runLst [.push ⟨64, 1, [7]⟩, .insertIdx (-1) ⟨128, 2, [8, 9]⟩ true, .remove 96] = some l ∧
      l.Follows LstElem.next l.first [⟨128, 2, [8, 9]⟩] ∧ l.getElem 0 = some 160 ∧
      l.getElem 1 = some NULL := by
  obtain ⟨l, hl, hn, -, -, -, -, hi⟩ := runLst_refines
    [.push ⟨64, 1, [7]⟩, .insertIdx (-1) ⟨128, 2, [8, 9]⟩ true, .remove 96]
    (by decide)
  exact ⟨l, hl, hn, hi 0, hi 1⟩

theorem length_lt_of_nodup {s : List Addr} (h : (NULL :: s).Nodup) : s.length < 2 ^ 64 := by
  have hsub : (NULL :: s).map UInt64.toNat ⊆ List.range (2 ^ 64) := by
    intro n hn
    obtain ⟨p, -, rfl⟩ := List.mem_map.mp hn
    exact List.mem_range.mpr p.toNat_lt
  have hd : ((NULL :: s).map UInt64.toNat).Nodup :=
    h.map fun _ _ he => UInt64.toNat_inj.mp he
  have hlen := (List.Nodup.subperm hd hsub).length_le
  rw [List.length_map, List.length_range, List.length_cons] at hlen
  omega

/-- The counter is the number of elements exactly if the number of `pop_lst`
calls is a multiple of `2 ^ 64`, and then every index below it is an element. -/
theorem getLstLen_iff (ops : List LstOp) (h : LstOp.Valid [] ops) :
    ∃ l nodes, runLst ops = some l ∧ l.Follows LstElem.next l.first nodes ∧
      ((l.getLstLen.toNat = nodes.length ∧
          ∀ i : Int, 0 ≤ i → i < l.getLstLen.toNat → ∃ p, l.getElem i = some p ∧ p ≠ NULL) ↔
        2 ^ 64 ∣ ops.count .pop) := by
  obtain ⟨l, hl, hr, hk⟩ := runLst_represents h
  have hlt := length_lt_of_nodup hr.nodup
  rw [List.length_map] at hlt
  have hlen : l.getLstLen.toNat = ((seqOf ops).length + ops.count .pop) % 2 ^ 64 := by
    rw [Lst.getLstLen, hk, UInt64.toNat_ofNat']
  refine ⟨l, seqOf ops, hl, hr.follows_next, ?_, fun hd => ?_⟩
  · intro hboth
    obtain ⟨hn, -⟩ := hboth
    omega
  · have hn : l.getLstLen.toNat = (seqOf ops).length := by omega
    refine ⟨hn, fun i h0 hi => ⟨_, Lst.getElem_eq hr i, ?_⟩⟩
    have hi' : i.toNat < (seqOf ops).length := by omega
    rw [Lst.entryAt, if_pos h0, List.getElem?_eq_getElem hi']
    exact hr.handle_ne (List.getElem_mem hi')

/-- Three elements, of which the middle one is removed. -/
def removingOps : List LstOp :=
  [.push ⟨64, 1, [7]⟩, .append ⟨128, 2, [8, 9]⟩, .append ⟨192, 3, [5]⟩, .remove 160]

theorem getLstLen_remove :
    ∃ l nodes, runLst removingOps = some l ∧ l.Follows LstElem.next l.first nodes ∧
      nodes.length = 2 ∧ l.getLstLen.toNat = 2 ∧
      ∀ i : Int, 0 ≤ i → i < 2 → ∃ p, l.getElem i = some p ∧ p ≠ NULL := by
  obtain ⟨l, nodes, hl, hn, hiff⟩ := getLstLen_iff removingOps (by decide)
  obtain ⟨hlen, hget⟩ := hiff.mpr (by decide)
  have hreal : runLst removingOps = some l → l.getLstLen.toNat = 2 := by
    intro h
    cases h
    rfl
  have htwo := hreal hl
  rw [htwo] at hlen hget
  exact ⟨l, nodes, hl, hn, hlen.symm, htwo, hget⟩

/-- After one push and one pop the list is empty and its counter is one. -/
theorem getLstLen_push_pop :
    ¬ ∀ ops, LstOp.Valid [] ops → ∀ l nodes, runLst ops = some l →
      l.Follows LstElem.next l.first nodes → l.getLstLen.toNat = nodes.length := by
  intro h
  have hlen := h [.push ⟨64, 1, [7]⟩, .pop] (by decide) _ [] rfl rfl
  exact absurd hlen (by decide)

end Rdpgen
