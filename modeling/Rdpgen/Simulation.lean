import Rdpgen.ProgRules

variable {ε δ σ τ α β γ η : Type}

/-- Two runs ended in the same way, and what they left is related. -/
inductive Outcome.Match (Q : α → σ → β → τ → Prop) (E : ε → σ → δ → τ → Prop) :
    Outcome ε σ α → Outcome δ τ β → Prop
  | ok {a : α} {s : σ} {b : β} {t : τ} : Q a s b t → Match Q E (.ok a s) (.ok b t)
  | stop {e : ε} {s : σ} {d : δ} {t : τ} : E e s d t → Match Q E (.stop e s) (.stop d t)

theorem Outcome.Match.symm {Q : α → σ → β → τ → Prop} {E : ε → σ → δ → τ → Prop}
    {o : Outcome ε σ α} {o' : Outcome δ τ β} (h : o.Match Q E o') :
    o'.Match (fun b t a s => Q a s b t) (fun d t e s => E e s d t) o := by
  cases h with
  | ok hq => exact .ok hq
  | stop he => exact .stop he

theorem Outcome.Match.mono {Q Q' : α → σ → β → τ → Prop} {E E' : ε → σ → δ → τ → Prop}
    {o : Outcome ε σ α} {o' : Outcome δ τ β} (h : o.Match Q E o')
    (hq : ∀ a s b t, Q a s b t → Q' a s b t) (he : ∀ e s d t, E e s d t → E' e s d t) :
    o.Match Q' E' o' := by
  cases h with
  | ok h => exact .ok (hq _ _ _ _ h)
  | stop h => exact .stop (he _ _ _ _ h)

namespace Prog

/-- Every run of `p` that ends is matched by a run of `q`. -/
def Follows (p : Prog ε σ α) (q : Prog δ τ β) (Q : α → σ → β → τ → Prop)
    (E : ε → σ → δ → τ → Prop) (s : σ) (t : τ) : Prop :=
  ∀ o, p.Runs s o → ∃ o', q.Runs t o' ∧ o.Match Q E o'

/-- The two programs end in the same way, or neither ends. -/
structure Agree (p : Prog ε σ α) (q : Prog δ τ β) (Q : α → σ → β → τ → Prop)
    (E : ε → σ → δ → τ → Prop) (s : σ) (t : τ) : Prop where
  left : Follows p q Q E s t
  right : Follows q p (fun b t a s => Q a s b t) (fun d t e s => E e s d t) t s

variable {p : Prog ε σ α} {q : Prog δ τ β} {f : α → Prog ε σ γ} {g : β → Prog δ τ η}
  {Q Q' : α → σ → β → τ → Prop} {R : γ → σ → η → τ → Prop} {E E' : ε → σ → δ → τ → Prop}
  {s : σ} {t : τ}

theorem Follows.mono (h : Follows p q Q E s t) (hq : ∀ a s b t, Q a s b t → Q' a s b t)
    (he : ∀ e s d t, E e s d t → E' e s d t) : Follows p q Q' E' s t := by
  intro o hr
  obtain ⟨o', hr', hm⟩ := h o hr
  exact ⟨o', hr', hm.mono hq he⟩

theorem Follows.bind (h : Follows p q Q E s t)
    (hf : ∀ a s b t, Q a s b t → Follows (f a) (g b) R E s t) :
    Follows (p >>= f) (q >>= g) R E s t := by
  intro o hr
  rcases runs_bind.mp hr with ⟨a, s', hp, hfa⟩ | ⟨e, s', hp, rfl⟩
  · obtain ⟨o', hq, hm⟩ := h _ hp
    cases hm with
    | ok hab =>
      obtain ⟨o'', hg, hm'⟩ := hf _ _ _ _ hab o hfa
      exact ⟨o'', runs_bind.mpr (.inl ⟨_, _, hq, hg⟩), hm'⟩
  · obtain ⟨o', hq, hm⟩ := h _ hp
    cases hm with
    | stop he => exact ⟨_, runs_bind.mpr (.inr ⟨_, _, hq, rfl⟩), .stop he⟩

/-- The loop rule: related states test alike, and related passes keep the relation. -/
theorem Follows.whileDo {cond : α → σ → Bool} {body : α → Prog ε σ α} {cond' : β → τ → Bool}
    {body' : β → Prog δ τ β} (test : ∀ a s b t, Q a s b t → cond a s = cond' b t)
    (pass : ∀ a s b t, Q a s b t → cond a s = true → Follows (body a) (body' b) Q E s t)
    {a : α} {b : β} (h : Q a s b t) :
    Follows (whileDo cond body a) (whileDo cond' body' b) Q E s t := by
  have main : ∀ n k a s b t o, Q a s b t → passes cond body n k a s = some o →
      ∃ o', (Prog.whileDo cond' body' b).Runs t o' ∧ o.Match Q E o' := by
    intro n k
    induction k with
    | zero => intro a s b t o _ ho; simp [passes] at ho
    | succ k ih =>
      intro a s b t o hab ho
      have hc := test a s b t hab
      by_cases hca : cond a s
      · simp only [passes, hca, if_true] at ho
        rcases bindRun_eq_some.mp ho with ⟨a', s', hp, hrest⟩ | ⟨e, s', hp, rfl⟩
        · obtain ⟨o', hq, hm⟩ := pass a s b t hab hca _ ⟨n, hp⟩
          cases hm with
          | ok hab' =>
            obtain ⟨o'', hw, hm'⟩ := ih a' s' _ _ o hab' hrest
            refine ⟨o'', runs_whileDo.mpr ?_, hm'⟩
            rw [if_pos (hc ▸ hca)]
            exact runs_bind.mpr (.inl ⟨_, _, hq, hw⟩)
        · obtain ⟨o', hq, hm⟩ := pass a s b t hab hca _ ⟨n, hp⟩
          cases hm with
          | stop he =>
            refine ⟨_, runs_whileDo.mpr ?_, .stop he⟩
            rw [if_pos (hc ▸ hca)]
            exact runs_bind.mpr (.inr ⟨_, _, hq, rfl⟩)
      · simp only [passes, hca] at ho
        cases ho
        refine ⟨_, runs_whileDo.mpr ?_, .ok hab⟩
        rw [if_neg (hc ▸ hca)]
  intro o hr
  obtain ⟨n, hn⟩ := hr
  exact main n n a s b t o h hn

theorem Agree.symm (h : Agree p q Q E s t) :
    Agree q p (fun b t a s => Q a s b t) (fun d t e s => E e s d t) t s :=
  ⟨h.right, h.left⟩

theorem Agree.mono (h : Agree p q Q E s t) (hq : ∀ a s b t, Q a s b t → Q' a s b t)
    (he : ∀ e s d t, E e s d t → E' e s d t) : Agree p q Q' E' s t where
  left := h.left.mono hq he
  right := h.right.mono (fun b t a s => hq a s b t) fun d t e s => he e s d t

/-- Agreement of the states that the programs go on from. -/
theorem Agree.of_runs_iff {s' : σ} {t' : τ} (h : Agree p q Q E s' t')
    (hs : ∀ o, p.Runs s o ↔ p.Runs s' o) (ht : ∀ o, q.Runs t o ↔ q.Runs t' o) : Agree p q Q E s t where
  left o hr := by
    obtain ⟨o', hq, hm⟩ := h.left o ((hs o).mp hr)
    exact ⟨o', (ht o').mpr hq, hm⟩
  right o hr := by
    obtain ⟨o', hp, hm⟩ := h.right o ((ht o).mp hr)
    exact ⟨o', (hs o').mpr hp, hm⟩

theorem Agree.bind (h : Agree p q Q E s t)
    (hf : ∀ a s b t, Q a s b t → Agree (f a) (g b) R E s t) :
    Agree (p >>= f) (q >>= g) R E s t where
  left := h.left.bind fun a s b t hab => (hf a s b t hab).left
  right := h.right.bind fun b t a s hab => (hf a s b t hab).right

theorem Agree.whileDo {cond : α → σ → Bool} {body : α → Prog ε σ α} {cond' : β → τ → Bool}
    {body' : β → Prog δ τ β} (test : ∀ a s b t, Q a s b t → cond a s = cond' b t)
    (pass : ∀ a s b t, Q a s b t → cond a s = true → Agree (body a) (body' b) Q E s t)
    {a : α} {b : β} (h : Q a s b t) :
    Agree (whileDo cond body a) (whileDo cond' body' b) Q E s t where
  left := .whileDo test (fun a s b t hab hc => (pass a s b t hab hc).left) h
  right := .whileDo (fun b t a s hab => (test a s b t hab).symm)
    (fun b t a s hab hc => (pass a s b t hab (test a s b t hab ▸ hc)).right) h

theorem agree_of_runs {o : Outcome ε σ α} {o' : Outcome δ τ β} (hp : p.Runs s o) (hq : q.Runs t o')
    (h : o.Match Q E o') : Agree p q Q E s t where
  left _ hr := ⟨o', hq, hr.det hp ▸ h⟩
  right _ hr := ⟨o, hp, hr.det hq ▸ h.symm⟩

theorem agree_act {f : σ → α × σ} {g : τ → β × τ} (h : Q (f s).1 (f s).2 (g t).1 (g t).2) :
    Agree (act f) (act g) Q E s t :=
  agree_of_runs (runs_act.mpr rfl) (runs_act.mpr rfl) (.ok h)

theorem agree_pure {a : α} {b : β} (h : Q a s b t) :
    Agree (pure a : Prog ε σ α) (pure b : Prog δ τ β) Q E s t :=
  agree_act h

theorem agree_modify {f : σ → σ} {g : τ → τ} {Q : Unit → σ → Unit → τ → Prop}
    (h : Q () (f s) () (g t)) : Agree (modify f) (modify g) Q E s t :=
  agree_act h

theorem agree_gets {f : σ → α} {g : τ → β} (h : Q (f s) s (g t) t) :
    Agree (gets f) (gets g) Q E s t :=
  agree_act h

theorem agree_stop {e : ε} {d : δ} (h : E e s d t) :
    Agree (stop e : Prog ε σ α) (stop d : Prog δ τ β) Q E s t :=
  agree_of_runs (runs_stop.mpr rfl) (runs_stop.mpr rfl) (.stop h)

theorem agree_ite {c c' : Prop} [Decidable c] [Decidable c'] {p' : Prog ε σ α} {q' : Prog δ τ β}
    (hc : c ↔ c') (yes : c → Agree p q Q E s t) (no : ¬ c → Agree p' q' Q E s t) :
    Agree (if c then p else p') (if c' then q else q') Q E s t := by
  by_cases h : c
  · rw [if_pos h, if_pos (hc.mp h)]
    exact yes h
  · rw [if_neg h, if_neg (mt hc.mpr h)]
    exact no h

/-- A program agrees with itself, and both runs have what the one has. -/
theorem agree_self {Q : α → σ → Prop} {E : ε → σ → Prop} (h : p.wp Q E True s) :
    Agree p p (fun a s b t => (a = b ∧ s = t) ∧ Q a s) (fun e s d t => (e = d ∧ s = t) ∧ E e s) s s where
  left o hr := by
    refine ⟨o, hr, ?_⟩
    cases o with
    | ok a s' => exact .ok ⟨⟨rfl, rfl⟩, h.1 a s' hr⟩
    | stop e s' => exact .stop ⟨⟨rfl, rfl⟩, h.2.1 e s' hr⟩
  right o hr := by
    refine ⟨o, hr, ?_⟩
    cases o with
    | ok a s' => exact .ok ⟨⟨rfl, rfl⟩, h.1 a s' hr⟩
    | stop e s' => exact .stop ⟨⟨rfl, rfl⟩, h.2.1 e s' hr⟩

/-- A run that returns has a partner that returns. -/
theorem Agree.returns (h : Agree p q Q E s t) {a : α} {s' : σ} (hr : p.Runs s (.ok a s')) :
    ∃ b t', q.Runs t (.ok b t') ∧ Q a s' b t' := by
  obtain ⟨o', hq, hm⟩ := h.left _ hr
  cases hm with
  | ok hab => exact ⟨_, _, hq, hab⟩

end Prog
