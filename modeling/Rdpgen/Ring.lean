import Mathlib.Data.List.Induction
import Mathlib.Data.List.Nodup

/-- Two fields that lead from cell to cell. -/
structure Links (κ : Type) where
  next : κ → κ
  prev : κ → κ

namespace Links

variable {κ : Type} {m m' : Links κ}

def flip (m : Links κ) : Links κ := ⟨m.prev, m.next⟩

/-- Neighbours in the list are linked in both directions. -/
def Chained (m : Links κ) : List κ → Prop
  | x :: y :: l => m.next x = y ∧ m.prev y = x ∧ m.Chained (y :: l)
  | _ => True

theorem chained_cons_cons {x y : κ} {l : List κ} :
    m.Chained (x :: y :: l) ↔ m.next x = y ∧ m.prev y = x ∧ m.Chained (y :: l) := Iff.rfl

theorem chained_append {l₁ l₂ : List κ} {x : κ} :
    m.Chained (l₁ ++ x :: l₂) ↔ m.Chained (l₁ ++ [x]) ∧ m.Chained (x :: l₂) := by
  induction l₁ with
  | nil => simp [Chained]
  | cons a l₁ ih =>
    cases l₁ with
    | nil => simp [Chained, and_assoc]
    | cons b l₁ =>
      simp only [List.cons_append, chained_cons_cons, and_assoc] at ih ⊢
      rw [ih]

theorem Chained.flip {l : List κ} (h : m.Chained l) : m.flip.Chained l.reverse := by
  induction l with
  | nil => trivial
  | cons x l ih =>
    cases l with
    | nil => trivial
    | cons y l =>
      have hl := ih h.2.2
      rw [List.reverse_cons] at hl ⊢
      rw [List.reverse_cons, List.append_assoc]
      exact chained_append.mpr ⟨hl, h.2.1, h.1, trivial⟩

/-- A chain reads the field `next` of all cells but the last, and the field
`prev` of all but the first. -/
theorem Chained.congr {l : List κ} (h : m.Chained l) (hn : ∀ x ∈ l.dropLast, m'.next x = m.next x)
    (hp : ∀ x ∈ l.tail, m'.prev x = m.prev x) : m'.Chained l := by
  induction l with
  | nil => trivial
  | cons x l ih =>
    cases l with
    | nil => trivial
    | cons y l =>
      refine ⟨(hn x (by simp)).trans h.1, (hp y (by simp)).trans h.2.1, ih h.2.2 ?_ ?_⟩
      · exact fun z hz => hn z (by rw [List.dropLast_cons_cons]; exact List.mem_cons_of_mem x hz)
      · exact fun z hz => hp z (List.mem_of_mem_tail hz)

/-- `m'` is `m` with the cell `a` put between `x` and `y`. -/
structure Splices (m m' : Links κ) (x a y : κ) : Prop where
  next_left : m'.next x = a
  next_new : m'.next a = y
  prev_right : m'.prev y = a
  prev_new : m'.prev a = x
  next_else : ∀ z, z ≠ x → z ≠ a → m'.next z = m.next z
  prev_else : ∀ z, z ≠ y → z ≠ a → m'.prev z = m.prev z

/-- `m'` is `m` with the cell `a` between `x` and `y` left out. -/
structure Skips (m m' : Links κ) (x a y : κ) : Prop where
  next_left : m'.next x = y
  prev_right : m'.prev y = x
  next_else : ∀ z, z ≠ x → z ≠ a → m'.next z = m.next z
  prev_else : ∀ z, z ≠ y → z ≠ a → m'.prev z = m.prev z

/-- The cells `qs` in a ring that is closed by the cell `b`. -/
def Ring (m : Links κ) (b : κ) (qs : List κ) : Prop := m.Chained (b :: qs ++ [b])

variable {b : κ} {qs xs ys : List κ}

theorem Ring.flip (h : m.Ring b qs) : m.flip.Ring b qs.reverse := by
  simpa [Ring] using Chained.flip h

/-- The ring up to a place in it and the ring behind it. -/
theorem ring_append {x y : κ} (hx : xs.getLastD b = x) (hy : ys.headD b = y) :
    m.Ring b (xs ++ ys) ↔ m.Chained (b :: xs) ∧ m.next x = y ∧ m.prev y = x ∧
      m.Chained (ys ++ [b]) := by
  obtain ⟨pre, hpre⟩ : ∃ pre, b :: xs = pre ++ [x] := by
    rw [← hx]
    cases xs using List.reverseRecOn with
    | nil => exact ⟨[], rfl⟩
    | append_singleton xs q => exact ⟨b :: xs, by simp⟩
  obtain ⟨post, hpost⟩ : ∃ post, ys ++ [b] = y :: post := by
    rw [← hy]
    cases ys with
    | nil => exact ⟨[], rfl⟩
    | cons q ys => exact ⟨ys ++ [b], rfl⟩
  have hring : b :: (xs ++ ys) ++ [b] = pre ++ x :: y :: post := by
    rw [List.cons_append, List.append_assoc, hpost, ← List.cons_append, hpre]
    simp
  rw [Ring, hring, chained_append, chained_cons_cons, hpre, hpost]

theorem Ring.next_closing (h : m.Ring b qs) : m.next b = qs.headD b := by
  have h' : m.Ring b ([] ++ qs) := h
  exact ((ring_append rfl rfl).mp h').2.1

theorem Ring.prev_closing (h : m.Ring b qs) : m.prev b = qs.getLastD b := by
  have h' : m.Ring b (qs ++ []) := (List.append_nil qs).symm ▸ h
  exact ((ring_append rfl rfl).mp h').2.2.1

theorem Ring.next_of_mem {a : κ} (h : m.Ring b (xs ++ a :: ys)) : m.next a = ys.headD b := by
  rw [List.append_cons] at h
  exact ((ring_append (by simp) rfl).mp h).2.1

theorem Ring.prev_of_mem {a : κ} (h : m.Ring b (xs ++ a :: ys)) : m.prev a = xs.getLastD b :=
  ((ring_append rfl rfl).mp h).2.2.1

/-- A change of `next` at the last cell of `xs` and of `prev` at the first cell
of `ys` leaves the links inside of `xs` alone. -/
theorem Chained.keep_left {x a y : κ} (hd : (b :: (xs ++ ys)).Nodup) (ha : a ∉ b :: (xs ++ ys))
    (hx : xs.getLastD b = x) (hy : ys.headD b = y)
    (hn : ∀ z, z ≠ x → z ≠ a → m'.next z = m.next z)
    (hp : ∀ z, z ≠ y → z ≠ a → m'.prev z = m.prev z) (h : m.Chained (b :: xs)) :
    m'.Chained (b :: xs) := by
  have hsub : b :: xs ⊆ b :: (xs ++ ys) := List.cons_subset_cons b (List.subset_append_left xs ys)
  have hbxs : (b :: xs).Nodup := hd.sublist ((List.sublist_append_left xs ys).cons_cons b)
  have hlast : (b :: xs).dropLast ++ [x] = b :: xs := by
    rw [← hx, ← List.getLast_eq_getLastD (List.cons_ne_nil b xs), List.dropLast_concat_getLast]
  refine h.congr (fun z hz => hn z ?_ ?_) (fun z hz => hp z ?_ ?_)
  · intro he
    rw [← hlast] at hbxs
    exact (List.nodup_append.mp hbxs).2.2 z hz x (by simp) he
  · intro he
    exact ha (hsub (he ▸ List.dropLast_subset _ hz))
  · intro he
    subst he
    cases ys with
    | nil =>
      subst hy
      exact (List.nodup_cons.mp hbxs).1 hz
    | cons q ys =>
      have hdis := (List.nodup_append.mp (List.nodup_cons.mp hd).2).2.2
      exact hdis z hz z (by simp [← hy]) rfl
  · intro he
    exact ha (hsub (he ▸ List.mem_cons_of_mem b hz))

/-- The same at the other end. -/
theorem Chained.keep_right {x a y : κ} (hd : (b :: (xs ++ ys)).Nodup) (ha : a ∉ b :: (xs ++ ys))
    (hx : xs.getLastD b = x) (hy : ys.headD b = y)
    (hn : ∀ z, z ≠ x → z ≠ a → m'.next z = m.next z)
    (hp : ∀ z, z ≠ y → z ≠ a → m'.prev z = m.prev z) (h : m.Chained (ys ++ [b])) :
    m'.Chained (ys ++ [b]) := by
  have hperm : (b :: (ys.reverse ++ xs.reverse)).Perm (b :: (xs ++ ys)) := by
    rw [← List.reverse_append]
    exact (List.reverse_perm _).cons b
  have hf : m.flip.Chained (b :: ys.reverse) := by simpa using h.flip
  have hf' : m'.flip.Chained (b :: ys.reverse) :=
    hf.keep_left (hperm.nodup_iff.mpr hd) (fun hm => ha (hperm.mem_iff.mp hm)) (by simpa using hy)
      (by simpa using hx) hp hn
  have hback : m'.Chained (b :: ys.reverse).reverse := hf'.flip
  simpa using hback

theorem Ring.splice {x a y : κ} (h : m.Ring b (xs ++ ys)) (hd : (b :: (xs ++ ys)).Nodup)
    (ha : a ∉ b :: (xs ++ ys)) (hx : xs.getLastD b = x) (hy : ys.headD b = y)
    (hm : m.Splices m' x a y) : m'.Ring b (xs ++ a :: ys) := by
  obtain ⟨hl, -, -, hr⟩ := (ring_append hx hy).mp h
  have hl' := hl.keep_left hd ha hx hy hm.next_else hm.prev_else
  have hr' := hr.keep_right hd ha hx hy hm.next_else hm.prev_else
  refine (ring_append hx rfl).mpr ⟨hl', hm.next_left, hm.prev_new, ?_⟩
  have hn := hm.next_new
  have hp := hm.prev_right
  subst hy
  cases ys with
  | nil => exact ⟨hn, hp, hr'⟩
  | cons q ys => exact ⟨hn, hp, hr'⟩

theorem Ring.skip {x a y : κ} (h : m.Ring b (xs ++ a :: ys)) (hd : (b :: (xs ++ a :: ys)).Nodup)
    (hx : xs.getLastD b = x) (hy : ys.headD b = y) (hm : m.Skips m' x a y) :
    m'.Ring b (xs ++ ys) := by
  obtain ⟨ha, hd⟩ : a ∉ b :: (xs ++ ys) ∧ (b :: (xs ++ ys)).Nodup := by
    rw [← List.cons_append, List.nodup_middle, List.nodup_cons] at hd
    exact hd
  obtain ⟨hl, -, -, hr⟩ := (ring_append hx rfl).mp h
  have hl' := hl.keep_left hd ha hx hy hm.next_else hm.prev_else
  have hrest : m.Chained (ys ++ [b]) := by
    cases ys with
    | nil => trivial
    | cons q ys => exact hr.2.2
  have hr' := hrest.keep_right hd ha hx hy hm.next_else hm.prev_else
  exact (ring_append hx hy).mpr ⟨hl', hm.next_left, hm.prev_right, hr'⟩

/-! ### Following a field -/

/-- Following `f` from `x` meets the cells `qs` and then `b`. -/
def Meets (f : κ → κ) (b x : κ) : List κ → Prop
  | [] => x = b
  | q :: qs => x = q ∧ q ≠ b ∧ Meets f b (f q) qs

theorem Chained.meets (h : m.Chained (qs ++ [b])) (hb : b ∉ qs) :
    Meets m.next b (qs.headD b) qs := by
  induction qs with
  | nil => rfl
  | cons q qs ih =>
    have hne : q ≠ b := fun hq => hb (by simp [hq])
    have hqs : b ∉ qs := fun hq => hb (List.mem_cons_of_mem q hq)
    refine ⟨rfl, hne, ?_⟩
    cases qs with
    | nil => exact h.1
    | cons p qs =>
      rw [h.1]
      exact ih h.2.2 hqs

theorem Ring.meets_next (h : m.Ring b qs) (hb : b ∉ qs) : Meets m.next b (m.next b) qs := by
  have h' : m.Ring b ([] ++ qs) := h
  rw [h.next_closing]
  exact Chained.meets ((ring_append rfl rfl).mp h').2.2.2 hb

theorem Ring.meets_prev (h : m.Ring b qs) (hb : b ∉ qs) :
    Meets m.prev b (m.prev b) qs.reverse :=
  h.flip.meets_next (by simpa using hb)

end Links
