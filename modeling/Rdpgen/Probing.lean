import Mathlib.Data.Nat.Find
import Mathlib.Logic.Function.Basic

namespace Probing

/-- A cell of a table with open addressing. -/
inductive Cell (κ : Type) where
  | empty
  | tomb
  | live (k : κ)
  deriving DecidableEq, Repr

variable {ι κ : Type}

/-- A probe for `k` ends at a free cell and at `k` itself. -/
def Cell.Stops (k : κ) : Cell κ → Prop
  | .empty => True
  | .tomb => True
  | .live k' => k' = k

instance [DecidableEq κ] (k : κ) : DecidablePred (Cell.Stops k) := fun c =>
  match c with
  | .empty => inferInstanceAs (Decidable True)
  | .tomb => inferInstanceAs (Decidable True)
  | .live k' => inferInstanceAs (Decidable (k' = k))

theorem Cell.Stops.eq_live {k k' : κ} {c : Cell κ} (h : c.Stops k) (hc : c = .live k') :
    c = .live k := by
  subst hc
  exact congrArg Cell.live h

theorem Cell.Stops.cases {k : κ} {c : Cell κ} (h : c.Stops k) :
    c = .empty ∨ c = .tomb ∨ c = .live k := by
  cases c with
  | empty => exact Or.inl rfl
  | tomb => exact Or.inr (Or.inl rfl)
  | live k' => exact Or.inr (Or.inr (h.eq_live rfl))

/-- The place on the path at which a probe for `k` ends. -/
structure FirstStop (path : ℕ → ι) (cell : ι → Cell κ) (k : κ) (n : ℕ) : Prop where
  stops : (cell (path n)).Stops k
  first : ∀ m < n, ¬(cell (path m)).Stops k

def Stored (cell : ι → Cell κ) (k : κ) : Prop := ∃ i, cell i = .live k

/-- Every key lies on its own path, and no cell in front of it there is empty. -/
def Placed (path : κ → ℕ → ι) (cell : ι → Cell κ) : Prop :=
  ∀ i k, cell i = .live k → ∃ n, path k n = i ∧ ∀ m < n, cell (path k m) ≠ .empty

def Distinct (cell : ι → Cell κ) : Prop :=
  ∀ i j k, cell i = .live k → cell j = .live k → i = j

/-- No cell holds a tombstone. -/
def Clean (cell : ι → Cell κ) : Prop := ∀ i, cell i ≠ .tomb

/-- On the path of the key a tombstone comes before the key. -/
def Hidden (path : ℕ → ι) (cell : ι → Cell κ) (k : κ) : Prop :=
  ∃ n, cell (path n) = .tomb ∧ ∀ m < n, cell (path m) ≠ .live k

theorem exists_firstStop {path : ℕ → ι} {cell : ι → Cell κ} {k : κ} {l : ℕ}
    (h : (cell (path l)).Stops k) : ∃ n ≤ l, FirstStop path cell k n := by
  classical
  have hex : ∃ n, (cell (path n)).Stops k := ⟨l, h⟩
  exact ⟨Nat.find hex, Nat.find_le h, Nat.find_spec hex, fun m hm => Nat.find_min hex hm⟩

theorem Clean.not_hidden {path : ℕ → ι} {cell : ι → Cell κ} {k : κ} (h : Clean cell) :
    ¬Hidden path cell k := by
  intro hh
  obtain ⟨n, hn, -⟩ := hh
  exact h _ hn

section

variable {path : κ → ℕ → ι} {cell : ι → Cell κ} {k : κ} {n : ℕ}

/-- The key itself ends the probe exactly when it is stored and not hidden. -/
theorem FirstStop.live_iff (hs : FirstStop (path k) cell k n) (hp : Placed path cell) :
    cell (path k n) = .live k ↔ Stored cell k ∧ ¬Hidden (path k) cell k := by
  constructor
  · intro he
    refine ⟨⟨_, he⟩, ?_⟩
    intro hh
    obtain ⟨m, hm, hbefore⟩ := hh
    rcases Nat.lt_trichotomy m n with hlt | heq | hgt
    · exact hs.first m hlt (by rw [hm]; trivial)
    · rw [heq, he] at hm
      cases hm
    · exact hbefore n hgt he
  · intro h
    obtain ⟨⟨i, hi⟩, hh⟩ := h
    obtain ⟨m, hm, hne⟩ := hp i k hi
    have hnm : n ≤ m := by
      by_contra hlt
      apply hs.first m (by omega)
      rw [hm, hi]
      exact rfl
    rcases hs.stops.cases with he | he | he
    · -- An empty cell ends the path, so the key would have to lie in it.
      rcases Nat.lt_or_eq_of_le hnm with hlt | heq
      · exact (hne n hlt he).elim
      · rw [heq, hm]
        exact hi
    · refine (hh ⟨n, he, ?_⟩).elim
      intro l hl hlive
      apply hs.first l hl
      rw [hlive]
      exact rfl
    · exact he

end

section

variable [DecidableEq ι] {path : κ → ℕ → ι} {cell : ι → Cell κ} {k : κ} {n : ℕ} {i : ι}

/-- The key may be put where its probe ends. -/
theorem Placed.insert (hp : Placed path cell) (hs : FirstStop (path k) cell k n) :
    Placed path (Function.update cell (path k n) (.live k)) := by
  have hkeep : ∀ j, cell j ≠ .empty → Function.update cell (path k n) (.live k) j ≠ .empty := by
    intro j hj
    by_cases hjn : j = path k n
    · simp [hjn]
    · rwa [Function.update_of_ne hjn]
  intro j k' hj
  by_cases hjn : j = path k n
  · rw [hjn, Function.update_self] at hj
    cases hj
    refine ⟨n, hjn.symm, ?_⟩
    intro m hm
    apply hkeep
    intro he
    exact hs.first m hm (by rw [he]; trivial)
  · rw [Function.update_of_ne hjn] at hj
    obtain ⟨m, hm, hne⟩ := hp j k' hj
    exact ⟨m, hm, fun l hl => hkeep _ (hne l hl)⟩

theorem Placed.erase (hp : Placed path cell) : Placed path (Function.update cell i .tomb) := by
  intro j k' hj
  by_cases hji : j = i
  · rw [hji, Function.update_self] at hj
    cases hj
  · rw [Function.update_of_ne hji] at hj
    obtain ⟨m, hm, hne⟩ := hp j k' hj
    refine ⟨m, hm, ?_⟩
    intro l hl
    by_cases hli : path k' l = i
    · simp [hli]
    · rw [Function.update_of_ne hli]
      exact hne l hl

theorem Distinct.insert (hd : Distinct cell) (hk : ∀ j, cell j = .live k → j = i) :
    Distinct (Function.update cell i (.live k)) := by
  intro j l k' hj hl
  by_cases hji : j = i
  · by_cases hli : l = i
    · rw [hji, hli]
    · rw [hji, Function.update_self] at hj
      cases hj
      rw [Function.update_of_ne hli] at hl
      exact (hli (hk l hl)).elim
  · rw [Function.update_of_ne hji] at hj
    by_cases hli : l = i
    · rw [hli, Function.update_self] at hl
      cases hl
      exact (hji (hk j hj)).elim
    · rw [Function.update_of_ne hli] at hl
      exact hd j l k' hj hl

theorem Distinct.erase (hd : Distinct cell) : Distinct (Function.update cell i .tomb) := by
  have hback : ∀ j k', Function.update cell i .tomb j = .live k' → cell j = .live k' := by
    intro j k' hj
    by_cases hji : j = i
    · rw [hji, Function.update_self] at hj
      cases hj
    · rwa [Function.update_of_ne hji] at hj
  intro j l k' hj hl
  exact hd j l k' (hback j k' hj) (hback l k' hl)

theorem stored_insert {k' : κ} (hfree : ∀ l, cell i = .live l → l = k) :
    Stored (Function.update cell i (.live k)) k' ↔ Stored cell k' ∨ k' = k := by
  constructor
  · intro h
    obtain ⟨j, hj⟩ := h
    by_cases hji : j = i
    · rw [hji, Function.update_self] at hj
      cases hj
      exact Or.inr rfl
    · rw [Function.update_of_ne hji] at hj
      exact Or.inl ⟨j, hj⟩
  · intro h
    rcases h with ⟨j, hj⟩ | heq
    · by_cases hji : j = i
      · subst hji
        exact ⟨j, by rw [hfree k' hj, Function.update_self]⟩
      · exact ⟨j, by rw [Function.update_of_ne hji]; exact hj⟩
    · exact ⟨i, by rw [heq, Function.update_self]⟩

theorem Clean.insert (hc : Clean cell) : Clean (Function.update cell i (.live k)) := by
  intro j
  by_cases hji : j = i
  · simp [hji]
  · rw [Function.update_of_ne hji]
    exact hc j

end

end Probing
