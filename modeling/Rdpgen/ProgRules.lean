import Rdpgen.Prog

namespace Prog

variable {ε σ α β : Type}

theorem runs_act {f : σ → α × σ} {s : σ} {o : Outcome ε σ α} :
    (act f).Runs s o ↔ o = .ok (f s).1 (f s).2 := by
  simp [Runs, act, eq_comm]

theorem runs_stop {e : ε} {s : σ} {o : Outcome ε σ α} :
    (stop e : Prog ε σ α).Runs s o ↔ o = .stop e s := by
  simp [Runs, stop, eq_comm]

theorem runs_bind {p : Prog ε σ α} {f : α → Prog ε σ β} {s : σ} {o : Outcome ε σ β} :
    (p >>= f).Runs s o ↔
      (∃ a t, p.Runs s (.ok a t) ∧ (f a).Runs t o) ∨ ∃ e t, p.Runs s (.stop e t) ∧ o = .stop e t := by
  constructor
  · intro h
    obtain ⟨n, hn⟩ := h
    rcases bindRun_eq_some.mp hn with ⟨a, t, hp, hf⟩ | ⟨e, t, hp, he⟩
    · exact Or.inl ⟨a, t, ⟨n, hp⟩, ⟨n, hf⟩⟩
    · exact Or.inr ⟨e, t, ⟨n, hp⟩, he⟩
  · intro h
    rcases h with ⟨a, t, ⟨m, hp⟩, ⟨n, hf⟩⟩ | ⟨e, t, ⟨n, hp⟩, he⟩
    · refine ⟨max m n, bindRun_eq_some.mpr (Or.inl ⟨a, t, ?_, ?_⟩)⟩
      · exact p.grow (Nat.le_max_left m n) hp
      · exact (f a).grow (Nat.le_max_right m n) hf
    · exact ⟨n, bindRun_eq_some.mpr (Or.inr ⟨e, t, hp, he⟩)⟩

theorem runs_bind_ok {p : Prog ε σ α} {f : α → Prog ε σ β} {s t : σ} {b : β} :
    (p >>= f).Runs s (.ok b t) ↔ ∃ a u, p.Runs s (.ok a u) ∧ (f a).Runs u (.ok b t) := by
  rw [runs_bind]
  constructor
  · intro h
    rcases h with h | ⟨e, u, -, heq⟩
    · exact h
    · cases heq
  · exact Or.inl

theorem runs_bind_of_ok {p : Prog ε σ α} {f : α → Prog ε σ β} {s t : σ} {a : α}
    {o : Outcome ε σ β} (h : p.Runs s (.ok a t)) : (p >>= f).Runs s o ↔ (f a).Runs t o := by
  rw [runs_bind]
  constructor
  · intro hr
    rcases hr with ⟨b, u, hp, hf⟩ | ⟨e, u, hp, -⟩
    · cases h.det hp
      exact hf
    · cases h.det hp
  · exact fun hf => .inl ⟨a, t, h, hf⟩

theorem runs_whileDo {cond : β → σ → Bool} {body : β → Prog ε σ β} {b : β} {s : σ}
    {o : Outcome ε σ β} :
    (whileDo cond body b).Runs s o ↔
      if cond b s then (body b >>= whileDo cond body).Runs s o else o = .ok b s := by
  by_cases hc : cond b s
  · simp only [hc, if_true, runs_bind]
    constructor
    · intro h
      obtain ⟨n, hn⟩ := h
      cases n with
      | zero => simp [whileDo, passes] at hn
      | succ n =>
        simp only [whileDo, passes, hc, if_true] at hn
        rcases bindRun_eq_some.mp hn with ⟨a, t, hp, hf⟩ | ⟨e, t, hp, he⟩
        · exact Or.inl ⟨a, t, ⟨n + 1, hp⟩, ⟨n + 1, passes_grow (Nat.le_refl _) (Nat.le_succ n) hf⟩⟩
        · exact Or.inr ⟨e, t, ⟨n + 1, hp⟩, he⟩
    · intro h
      rcases h with ⟨a, t, ⟨m, hp⟩, ⟨n, hf⟩⟩ | ⟨e, t, ⟨n, hp⟩, he⟩
      · refine ⟨max m n + 1, ?_⟩
        simp only [whileDo, passes, hc, if_true]
        refine bindRun_eq_some.mpr (Or.inl ⟨a, t, ?_, ?_⟩)
        · exact (body b).grow (by omega) hp
        · exact passes_grow (by omega) (by omega) hf
      · refine ⟨n + 1, ?_⟩
        simp only [whileDo, passes, hc, if_true]
        exact bindRun_eq_some.mpr (Or.inr ⟨e, t, (body b).grow (Nat.le_succ n) hp, he⟩)
  · simp only [hc, Bool.false_eq_true, if_false]
    constructor
    · intro h
      obtain ⟨n, hn⟩ := h
      cases n with
      | zero => simp [whileDo, passes] at hn
      | succ n => simpa [whileDo, passes, hc, eq_comm] using hn
    · intro heq
      subst heq
      exact ⟨1, by simp [whileDo, passes, hc]⟩

/-- What the run of `p` from `s` comes to: `Q` when it returns, `E` when it
leaves the program, `D` when it never ends. With `D := False` this is total
correctness, with `D := True` partial correctness. -/
def wp (p : Prog ε σ α) (Q : α → σ → Prop) (E : ε → σ → Prop) (D : Prop) (s : σ) : Prop :=
  (∀ a t, p.Runs s (.ok a t) → Q a t) ∧ (∀ e t, p.Runs s (.stop e t) → E e t) ∧ (p.Diverges s → D)

variable {Q Q' : α → σ → Prop} {R : β → σ → Prop} {E E' : ε → σ → Prop} {D D' : Prop} {s : σ}

theorem wp_of_runs_ok {p : Prog ε σ α} {a : α} {t : σ} (h : p.Runs s (.ok a t)) :
    p.wp Q E D s ↔ Q a t := by
  constructor
  · exact fun hw => hw.1 a t h
  · intro hq
    refine ⟨?_, ?_, fun hd => (diverges_iff.mp hd ⟨_, h⟩).elim⟩
    · intro b u hb
      cases h.det hb
      exact hq
    · intro e u hb
      cases h.det hb

theorem wp_of_runs_stop {p : Prog ε σ α} {e : ε} {t : σ} (h : p.Runs s (.stop e t)) :
    p.wp Q E D s ↔ E e t := by
  constructor
  · exact fun hw => hw.2.1 e t h
  · intro hq
    refine ⟨?_, ?_, fun hd => (diverges_iff.mp hd ⟨_, h⟩).elim⟩
    · intro b u hb
      cases h.det hb
    · intro e u hb
      cases h.det hb
      exact hq

theorem wp_of_diverges {p : Prog ε σ α} (h : p.Diverges s) : p.wp Q E D s ↔ D := by
  constructor
  · exact fun hw => hw.2.2 h
  · intro hd
    refine ⟨fun a t hr => ?_, fun e t hr => ?_, fun _ => hd⟩
    · exact (diverges_iff.mp h ⟨_, hr⟩).elim
    · exact (diverges_iff.mp h ⟨_, hr⟩).elim

theorem run_cases (p : Prog ε σ α) (s : σ) :
    (∃ a t, p.Runs s (.ok a t)) ∨ (∃ e t, p.Runs s (.stop e t)) ∨ p.Diverges s := by
  by_cases h : p.Terminates s
  · obtain ⟨o, ho⟩ := h
    cases o with
    | ok a t => exact Or.inl ⟨a, t, ho⟩
    | stop e t => exact Or.inr (Or.inl ⟨e, t, ho⟩)
  · exact Or.inr (Or.inr (diverges_iff.mpr h))

theorem wp.mono {p : Prog ε σ α} (h : p.wp Q E D s) (hq : ∀ a t, Q a t → Q' a t)
    (he : ∀ e t, E e t → E' e t) (hd : D → D') : p.wp Q' E' D' s :=
  ⟨fun a t hr => hq a t (h.1 a t hr), fun e t hr => he e t (h.2.1 e t hr), fun hr => hd (h.2.2 hr)⟩

theorem wp.imp {p : Prog ε σ α} (h : p.wp Q E D s) (hq : ∀ a t, Q a t → Q' a t) :
    p.wp Q' E D s :=
  h.mono hq (fun _ _ he => he) id

theorem wp.and {p : Prog ε σ α} (h : p.wp Q E D s) (h' : p.wp Q' E' D' s) :
    p.wp (fun a t => Q a t ∧ Q' a t) (fun e t => E e t ∧ E' e t) (D ∧ D') s where
  left a t hr := ⟨h.1 a t hr, h'.1 a t hr⟩
  right := ⟨fun e t hr => ⟨h.2.1 e t hr, h'.2.1 e t hr⟩, fun hr => ⟨h.2.2 hr, h'.2.2 hr⟩⟩

/-- Postconditions that agree on what a program can end with are alike for it. -/
theorem wp.congr {p : Prog ε σ α} {R : α → σ → Prop} (h : p.wp R (fun _ _ => True) True s)
    (hq : ∀ a t, R a t → (Q a t ↔ Q' a t)) : p.wp Q E D s ↔ p.wp Q' E D s := by
  constructor
  · exact fun hp => (h.and hp).mono (fun a t hr => (hq a t hr.1).mp hr.2) (fun _ _ he => he.2) (·.2)
  · exact fun hp => (h.and hp).mono (fun a t hr => (hq a t hr.1).mpr hr.2) (fun _ _ he => he.2) (·.2)

theorem wp.returns {p : Prog ε σ α} (h : p.wp Q (fun _ _ => False) False s) :
    ∃ a t, p.Runs s (.ok a t) ∧ Q a t := by
  rcases run_cases p s with ⟨a, t, hr⟩ | ⟨e, t, hr⟩ | hr
  · exact ⟨a, t, hr, h.1 a t hr⟩
  · exact (h.2.1 e t hr).elim
  · exact (h.2.2 hr).elim

theorem wp.returns_of_not_stop {p : Prog ε σ α} (h : p.wp Q E False s) (he : ∀ e t, ¬ E e t) :
    ∃ a t, p.Runs s (.ok a t) ∧ Q a t :=
  (h.mono (fun _ _ hq => hq) he id).returns

/-- A program that never returns does not always return. -/
theorem wp.not_returns {p : Prog ε σ α} (h : p.wp (fun _ _ => False) E D s) :
    ¬ p.wp Q (fun _ _ => False) False s := by
  intro hret
  obtain ⟨a, t, hr, -⟩ := hret.returns
  exact h.1 a t hr

theorem wp.terminates {p : Prog ε σ α} (h : p.wp Q E False s) : p.Terminates s :=
  Classical.byContradiction fun hn => h.2.2 (diverges_iff.mpr hn)

theorem diverges_iff_wp {p : Prog ε σ α} :
    p.Diverges s ↔ p.wp (fun _ _ => False) (fun _ _ => False) True s := by
  rw [diverges_iff]
  constructor
  · exact fun h => ⟨fun a t hr => h ⟨_, hr⟩, fun e t hr => h ⟨_, hr⟩, fun _ => trivial⟩
  · intro hwp hterm
    obtain ⟨hq, he, -⟩ := hwp
    obtain ⟨o, ho⟩ := hterm
    cases o with
    | ok a t => exact hq a t ho
    | stop e t => exact he e t ho

@[simp] theorem wp_act {f : σ → α × σ} : (act f).wp Q E D s ↔ Q (f s).1 (f s).2 :=
  wp_of_runs_ok (runs_act.mpr rfl)

@[simp] theorem wp_pure {a : α} : (pure a : Prog ε σ α).wp Q E D s ↔ Q a s := wp_act

/-- The rule for a `pure` that is not yet applied to a state. -/
theorem wp_pure_eq {a : α} : (pure a : Prog ε σ α).wp Q E D = Q a :=
  funext fun _ => propext wp_pure

@[simp] theorem wp_modify {f : σ → σ} {Q : Unit → σ → Prop} :
    (modify f).wp Q E D s ↔ Q () (f s) := wp_act

@[simp] theorem wp_gets {f : σ → α} : (gets f).wp Q E D s ↔ Q (f s) s := wp_act

@[simp] theorem wp_stop {e : ε} : (stop e).wp Q E D s ↔ E e s :=
  wp_of_runs_stop (runs_stop.mpr rfl)

@[simp] theorem wp_bind {p : Prog ε σ α} {f : α → Prog ε σ β} :
    (p >>= f).wp R E D = p.wp (fun a => (f a).wp R E D) E D := by
  funext s
  apply propext
  rcases run_cases p s with ⟨a, t, hp⟩ | ⟨e, t, hp⟩ | hp
  · rw [wp_of_runs_ok hp]
    rcases run_cases (f a) t with ⟨b, u, hf⟩ | ⟨e, u, hf⟩ | hf
    · rw [wp_of_runs_ok hf, wp_of_runs_ok (runs_bind.mpr (Or.inl ⟨a, t, hp, hf⟩))]
    · rw [wp_of_runs_stop hf, wp_of_runs_stop (runs_bind.mpr (Or.inl ⟨a, t, hp, hf⟩))]
    · have hd : (p >>= f).Diverges s := by
        rw [diverges_iff]
        intro h
        obtain ⟨o, ho⟩ := h
        rcases runs_bind.mp ho with ⟨a', t', hp', hf'⟩ | ⟨e, t', hp', -⟩
        · cases hp.det hp'
          exact diverges_iff.mp hf ⟨o, hf'⟩
        · cases hp.det hp'
      rw [wp_of_diverges hf, wp_of_diverges hd]
  · rw [wp_of_runs_stop hp, wp_of_runs_stop (runs_bind.mpr (Or.inr ⟨e, t, hp, rfl⟩))]
  · have hd : (p >>= f).Diverges s := by
      rw [diverges_iff]
      intro h
      obtain ⟨o, ho⟩ := h
      rcases runs_bind.mp ho with ⟨a, t, hp', -⟩ | ⟨e, t, hp', -⟩
      · exact diverges_iff.mp hp ⟨_, hp'⟩
      · exact diverges_iff.mp hp ⟨_, hp'⟩
    rw [wp_of_diverges hp, wp_of_diverges hd]

theorem wp_ite {c : Prop} [Decidable c] {p q : Prog ε σ α} :
    (if c then p else q).wp Q E D s ↔ if c then p.wp Q E D s else q.wp Q E D s := by
  split <;> rfl

theorem wp_whileDo {cond : β → σ → Bool} {body : β → Prog ε σ β} {b : β} :
    (whileDo cond body b).wp R E D s ↔
      if cond b s then (body b).wp (fun b' => (whileDo cond body b').wp R E D) E D s else R b s := by
  by_cases hc : cond b s
  · have same : ∀ o, (whileDo cond body b).Runs s o ↔ (body b >>= whileDo cond body).Runs s o := by
      intro o
      simp only [runs_whileDo, hc, if_true]
    simp only [hc, if_true, ← wp_bind]
    simp only [wp, diverges_iff, Terminates, same]
  · simp only [hc, Bool.false_eq_true, if_false]
    exact wp_of_runs_ok (runs_whileDo.mpr (by simp [hc]))

/-- The loop rule for total correctness: every pass keeps the invariant and
makes the measure smaller. -/
theorem wp_whileDo_of_measure {cond : β → σ → Bool} {body : β → Prog ε σ β}
    (I : β → σ → Prop) (μ : β → σ → Nat)
    (pass : ∀ b s, I b s → cond b s → (body b).wp (fun b' s' => I b' s' ∧ μ b' s' < μ b s) E False s)
    (exit : ∀ b s, I b s → cond b s = false → R b s)
    {b : β} (h : I b s) : (whileDo cond body b).wp R E False s := by
  induction hm : μ b s using Nat.strongRecOn generalizing b s with
  | ind m ih =>
    rw [wp_whileDo]
    split
    · next hc => exact (pass b s h hc).imp fun b' s' hb => ih _ (hm ▸ hb.2) hb.1 rfl
    · next hc => exact exit b s h (by simpa using hc)

/-- The rule of total correctness for a measure that the invariant names. -/
theorem wp_whileDo_of_rank {cond : β → σ → Bool} {body : β → Prog ε σ β}
    (I : Nat → β → σ → Prop)
    (pass : ∀ n b s, I n b s → cond b s → (body b).wp (fun b' s' => ∃ k, k < n ∧ I k b' s') E False s)
    (exit : ∀ n b s, I n b s → cond b s = false → R b s)
    {n : Nat} {b : β} (h : I n b s) : (whileDo cond body b).wp R E False s := by
  induction n using Nat.strongRecOn generalizing b s with
  | ind n ih =>
    rw [wp_whileDo]
    split
    · next hc =>
      apply (pass n b s h hc).imp
      intro b' s' hnext
      obtain ⟨k, hk, hI⟩ := hnext
      exact ih k hk hI
    · next hc => exact exit n b s h (by simpa using hc)

/-- The loop rule for partial correctness. -/
theorem wp_whileDo_of_invariant {cond : β → σ → Bool} {body : β → Prog ε σ β} (I : β → σ → Prop)
    (pass : ∀ b s, I b s → cond b s → (body b).wp I E True s)
    (exit : ∀ b s, I b s → cond b s = false → R b s)
    {b : β} (h : I b s) : (whileDo cond body b).wp R E True s := by
  have main : ∀ n k b s o, I b s → passes cond body n k b s = some o →
      (∀ a t, o = .ok a t → R a t) ∧ ∀ e t, o = .stop e t → E e t := by
    intro n k
    -- The body keeps the whole budget `n` in every pass, so the induction is on `k` alone.
    induction k with
    | zero => intro b s o _ ho; simp [passes] at ho
    | succ k ih =>
      intro b s o hI ho
      by_cases hc : cond b s
      · simp only [passes, hc, if_true] at ho
        rcases bindRun_eq_some.mp ho with ⟨a, t, hp, hf⟩ | ⟨e, t, hp, rfl⟩
        · exact ih a t o ((pass b s hI hc).1 a t ⟨n, hp⟩) hf
        · refine ⟨by simp, ?_⟩
          intro e' t' he
          cases he
          exact (pass b s hI hc).2.1 e t ⟨n, hp⟩
      · simp only [passes, hc] at ho
        cases ho
        exact ⟨by rintro a t ⟨⟩; exact exit b s hI (by simpa using hc), by simp⟩
  refine ⟨?_, ?_, fun _ => trivial⟩
  · intro a t hrun
    obtain ⟨n, hn⟩ := hrun
    exact (main n n b s _ h hn).1 a t rfl
  · intro e t hrun
    obtain ⟨n, hn⟩ := hrun
    exact (main n n b s _ h hn).2 e t rfl

/-- A loop never ends when every pass from the invariant comes back to it and
the loop condition holds there. -/
theorem diverges_whileDo {cond : β → σ → Bool} {body : β → Prog ε σ β} (I : β → σ → Prop)
    (pass : ∀ b s, I b s → cond b s ∧ (body b).wp I (fun _ _ => False) True s)
    {b : β} (h : I b s) : (whileDo cond body b).Diverges s := by
  rw [diverges_iff_wp]
  refine wp_whileDo_of_invariant I (fun b s hI _ => (pass b s hI).2) ?_ h
  intro b s hI hc
  simp [(pass b s hI).1] at hc

/-- The states in which a loop from `b` and `s` tests its condition. -/
inductive LoopReach (cond : β → σ → Bool) (body : β → Prog ε σ β) (b : β) (s : σ) : β → σ → Prop
  | start : LoopReach cond body b s b s
  | pass {b₁ b₂ : β} {s₁ s₂ : σ} : LoopReach cond body b s b₁ s₁ → cond b₁ s₁ = true →
      (body b₁).Runs s₁ (.ok b₂ s₂) → LoopReach cond body b s b₂ s₂

/-- What every pass keeps holds at each test of the condition. -/
theorem LoopReach.invariant {cond : β → σ → Bool} {body : β → Prog ε σ β} {b b' : β} {s' : σ}
    (h : LoopReach cond body b s b' s') (I : β → σ → Prop) (start : I b s)
    (pass : ∀ b s, I b s → cond b s = true → (body b).wp I (fun _ _ => True) True s) : I b' s' := by
  induction h with
  | start => exact start
  | pass _ hc hrun ih => exact (pass _ _ ih hc).1 _ _ hrun

/-- A loop goes on in the same way from each of its tests. -/
theorem LoopReach.runs_iff {cond : β → σ → Bool} {body : β → Prog ε σ β} {b b' : β} {s' : σ}
    {o : Outcome ε σ β} (h : LoopReach cond body b s b' s') :
    (whileDo cond body b).Runs s o ↔ (whileDo cond body b').Runs s' o := by
  induction h with
  | start => rfl
  | pass _ hc hrun ih =>
    rw [ih, runs_whileDo, if_pos hc, runs_bind]
    constructor
    · intro hgo
      rcases hgo with ⟨a, t, hpass, hrest⟩ | ⟨e, t, hpass, -⟩
      · cases hrun.det hpass
        exact hrest
      · cases hrun.det hpass
    · exact fun hrest => .inl ⟨_, _, hrun, hrest⟩

/-- A loop that has returned stands at its last test. -/
theorem Runs.loopReach {cond : β → σ → Bool} {body : β → Prog ε σ β} {b b' : β} {s' : σ}
    (h : (whileDo cond body b).Runs s (.ok b' s')) :
    LoopReach cond body b s b' s' ∧ cond b' s' = false := by
  have hloop : (whileDo cond body b).wp
      (fun b' s' => LoopReach cond body b s b' s' ∧ cond b' s' = false) (fun _ _ => True) True s := by
    refine wp_whileDo_of_invariant (LoopReach cond body b s) ?_ (fun _ _ h hc => ⟨h, hc⟩) .start
    intro b₁ s₁ h hc
    exact ⟨fun _ _ hrun => .pass h hc hrun, fun _ _ _ => trivial, fun _ => trivial⟩
  exact hloop.1 b' s' h

end Prog
