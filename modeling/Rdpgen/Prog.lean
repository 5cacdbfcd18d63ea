/-- How a finished run ended: it returned a value, or it left the whole program. -/
inductive Outcome (ε σ α : Type) where
  | ok (a : α) (s : σ)
  | stop (e : ε) (s : σ)

/-- A sequential program over a state. `run` gets a budget for the passes of
its loops and answers `none` when the budget does not suffice; a run that has
finished does not change when the budget grows. -/
structure Prog (ε σ α : Type) where
  run : Nat → σ → Option (Outcome ε σ α)
  grow : ∀ {m n : Nat} {s : σ} {o : Outcome ε σ α}, m ≤ n → run m s = some o → run n s = some o

namespace Prog

variable {ε σ α β γ : Type}

/-- A step that reads and updates the state and always returns. -/
def act (f : σ → α × σ) : Prog ε σ α where
  run _ s := some (.ok (f s).1 (f s).2)
  grow _ h := h

def modify (f : σ → σ) : Prog ε σ Unit := act fun s => ((), f s)

def gets (f : σ → α) : Prog ε σ α := act fun s => (f s, s)

def stop (e : ε) : Prog ε σ α where
  run _ s := some (.stop e s)
  grow _ h := h

def bindRun (p : Option (Outcome ε σ α)) (f : α → σ → Option (Outcome ε σ β)) :
    Option (Outcome ε σ β) :=
  match p with
  | none => none
  | some (.stop e s) => some (.stop e s)
  | some (.ok a s) => f a s

theorem bindRun_eq_some {p : Option (Outcome ε σ α)} {f : α → σ → Option (Outcome ε σ β)}
    {o : Outcome ε σ β} :
    bindRun p f = some o ↔
      (∃ a s, p = some (.ok a s) ∧ f a s = some o) ∨ ∃ e s, p = some (.stop e s) ∧ o = .stop e s := by
  cases p with
  | none => simp [bindRun]
  | some q =>
    cases q with
    | ok a s => simp [bindRun, and_assoc]
    | stop e s => simp [bindRun, and_assoc, eq_comm]

def bind (p : Prog ε σ α) (f : α → Prog ε σ β) : Prog ε σ β where
  run n s := bindRun (p.run n s) fun a s' => (f a).run n s'
  grow := by
    intro m n s o hmn h
    rcases bindRun_eq_some.mp h with ⟨a, t, hp, hf⟩ | ⟨e, t, hp, he⟩
    · exact bindRun_eq_some.mpr (Or.inl ⟨a, t, p.grow hmn hp, (f a).grow hmn hf⟩)
    · exact bindRun_eq_some.mpr (Or.inr ⟨e, t, p.grow hmn hp, he⟩)

instance : Monad (Prog ε σ) where
  pure a := act fun s => (a, s)
  bind := bind

/-- At most `k` passes of a loop, every pass with the budget `n`. -/
def passes (cond : β → σ → Bool) (body : β → Prog ε σ β) (n : Nat) :
    Nat → β → σ → Option (Outcome ε σ β)
  | 0, _, _ => none
  | k + 1, b, s =>
    if cond b s then bindRun ((body b).run n s) (passes cond body n k) else some (.ok b s)

theorem passes_grow {cond : β → σ → Bool} {body : β → Prog ε σ β} {m n k l : Nat} (hmn : m ≤ n)
    {b : β} {s : σ} {o : Outcome ε σ β} (hkl : k ≤ l) (h : passes cond body m k b s = some o) :
    passes cond body n l b s = some o := by
  induction k generalizing l b s with
  | zero => simp [passes] at h
  | succ k ih =>
    obtain ⟨l, rfl⟩ : ∃ j, l = j + 1 := ⟨l - 1, by omega⟩
    by_cases hc : cond b s
    · simp only [passes, hc, if_true] at h ⊢
      rcases bindRun_eq_some.mp h with ⟨a, t, hp, hf⟩ | ⟨e, t, hp, he⟩
      · exact bindRun_eq_some.mpr (Or.inl ⟨a, t, (body b).grow hmn hp, ih (by omega) hf⟩)
      · exact bindRun_eq_some.mpr (Or.inr ⟨e, t, (body b).grow hmn hp, he⟩)
    · simpa [passes, hc] using h

/-- The loop `while (cond) body` with the local variables `b`. -/
def whileDo (cond : β → σ → Bool) (body : β → Prog ε σ β) (b : β) : Prog ε σ β where
  run n s := passes cond body n n b s
  grow hmn h := passes_grow hmn hmn h

def Runs (p : Prog ε σ α) (s : σ) (o : Outcome ε σ α) : Prop := ∃ n, p.run n s = some o

/-- No budget suffices. -/
def Diverges (p : Prog ε σ α) (s : σ) : Prop := ∀ n, p.run n s = none

def Terminates (p : Prog ε σ α) (s : σ) : Prop := ∃ o, Runs p s o

theorem Runs.det {p : Prog ε σ α} {s : σ} {o o' : Outcome ε σ α}
    (h : Runs p s o) (h' : Runs p s o') : o = o' := by
  obtain ⟨m, hm⟩ := h
  obtain ⟨n, hn⟩ := h'
  have hl := p.grow (Nat.le_max_left m n) hm
  have hr := p.grow (Nat.le_max_right m n) hn
  exact Option.some.inj (hl.symm.trans hr)

theorem diverges_iff {p : Prog ε σ α} {s : σ} : Diverges p s ↔ ¬ Terminates p s := by
  constructor
  · intro h hterm
    obtain ⟨o, n, hn⟩ := hterm
    simp [h n] at hn
  · intro h n
    cases hn : p.run n s with
    | none => rfl
    | some o => exact (h ⟨o, n, hn⟩).elim

end Prog
