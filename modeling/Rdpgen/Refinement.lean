import Rdpgen.Simulation

variable {ε δ σ τ α β γ η : Type}

namespace Prog

/-- Every end of `p` is one of `q`, unless `X` lets `p` be left; and `p` ends where `q` does. -/
structure Refines (p : Prog ε σ α) (q : Prog δ τ β) (X : ε → σ → Prop) (Q : α → σ → β → τ → Prop)
    (E : ε → σ → δ → τ → Prop) (s : σ) (t : τ) : Prop where
  follows : ∀ o, p.Runs s o →
    (∃ o', q.Runs t o' ∧ o.Match Q E o') ∨ ∃ e s', o = .stop e s' ∧ X e s'
  ends : q.Terminates t → p.Terminates s

section

variable {p p' : Prog ε σ α} {q q' : Prog δ τ β} {f : α → Prog ε σ γ} {g : β → Prog δ τ η}
  {X : ε → σ → Prop} {Q Q' : α → σ → β → τ → Prop} {R : γ → σ → η → τ → Prop}
  {E : ε → σ → δ → τ → Prop} {s : σ} {t : τ}

theorem terminates_bind (h : p.Terminates s)
    (hf : ∀ a s', p.Runs s (.ok a s') → (f a).Terminates s') : (p >>= f).Terminates s := by
  obtain ⟨o, ho⟩ := h
  cases o with
  | ok a s' =>
    obtain ⟨o', ho'⟩ := hf a s' ho
    exact ⟨o', runs_bind.mpr (.inl ⟨a, s', ho, ho'⟩)⟩
  | stop e s' => exact ⟨_, runs_bind.mpr (.inr ⟨e, s', ho, rfl⟩)⟩

theorem Refines.mono (h : Refines p q X Q E s t) (hq : ∀ a s b t, Q a s b t → Q' a s b t) :
    Refines p q X Q' E s t where
  follows o hr := by
    rcases h.follows o hr with ⟨o', hr', hm⟩ | hx
    · exact .inl ⟨o', hr', hm.mono hq fun _ _ _ _ he => he⟩
    · exact .inr hx
  ends := h.ends

theorem Refines.bind (h : Refines p q X Q E s t)
    (hf : ∀ a s b t, Q a s b t → Refines (f a) (g b) X R E s t) :
    Refines (p >>= f) (q >>= g) X R E s t where
  follows o hr := by
    rcases runs_bind.mp hr with ⟨a, s', hp, hfa⟩ | ⟨e, s', hp, rfl⟩
    · rcases h.follows _ hp with ⟨o', hq, hm⟩ | ⟨_, _, hstop, -⟩
      · cases hm with
        | ok hab =>
          rcases (hf _ _ _ _ hab).follows o hfa with ⟨o'', hg, hm'⟩ | hx
          · exact .inl ⟨o'', runs_bind.mpr (.inl ⟨_, _, hq, hg⟩), hm'⟩
          · exact .inr hx
      · cases hstop
    · rcases h.follows _ hp with ⟨o', hq, hm⟩ | ⟨e', s'', hstop, hx⟩
      · cases hm with
        | stop he => exact .inl ⟨_, runs_bind.mpr (.inr ⟨_, _, hq, rfl⟩), .stop he⟩
      · cases hstop
        exact .inr ⟨e, s', rfl, hx⟩
  ends hterm := by
    obtain ⟨o, ho⟩ := hterm
    have hq : q.Terminates t := by
      rcases runs_bind.mp ho with ⟨b, t', hq, -⟩ | ⟨d, t', hq, -⟩
      · exact ⟨_, hq⟩
      · exact ⟨_, hq⟩
    apply terminates_bind (h.ends hq)
    intro a s' hp
    rcases h.follows _ hp with ⟨o', hq', hm⟩ | ⟨_, _, hstop, -⟩
    · cases hm with
      | ok hab =>
        apply (hf _ _ _ _ hab).ends
        rcases runs_bind.mp ho with ⟨b, t', hqok, hg⟩ | ⟨d, t', hqstop, -⟩
        · cases hqok.det hq'
          exact ⟨o, hg⟩
        · cases hqstop.det hq'
    · cases hstop

/-- Steps of the first program alone, in front of the rest. -/
theorem Refines.before {q : Prog δ τ η} (h : p.wp (fun a s' => Refines (f a) q X R E s' t) X False s) :
    Refines (p >>= f) q X R E s t where
  follows o hr := by
    rcases runs_bind.mp hr with ⟨a, s', hp, hfa⟩ | ⟨e, s', hp, rfl⟩
    · exact (h.1 a s' hp).follows o hfa
    · exact .inr ⟨e, s', rfl, h.2.1 e s' hp⟩
  ends hterm := terminates_bind h.terminates fun a s' hp => (h.1 a s' hp).ends hterm

theorem refines_of_runs {b : β} {t' : τ} (hq : q.Runs t (.ok b t'))
    (h : p.wp (fun a s' => Q a s' b t') X False s) : Refines p q X Q E s t where
  follows o hr := by
    cases o with
    | ok a s' => exact .inl ⟨.ok b t', hq, .ok (h.1 a s' hr)⟩
    | stop e s' => exact .inr ⟨e, s', rfl, h.2.1 e s' hr⟩
  ends _ := h.terminates

theorem terminates_bind_pure {h : β → η} :
    (q >>= fun b => (pure (h b) : Prog δ τ η)).Terminates t ↔ q.Terminates t := by
  constructor
  · intro hterm
    obtain ⟨o, ho⟩ := hterm
    rcases runs_bind.mp ho with ⟨b, t', hq, -⟩ | ⟨d, t', hq, -⟩
    · exact ⟨_, hq⟩
    · exact ⟨_, hq⟩
  · exact fun hterm => terminates_bind hterm fun b t' _ => ⟨_, runs_act.mpr rfl⟩

/-- Steps of the first program alone, behind the rest. -/
theorem Refines.behind {R : γ → σ → β → τ → Prop} (h : Refines p q X Q E s t)
    (hf : ∀ a s b t, Q a s b t → (f a).wp (fun c s' => R c s' b t) X False s) :
    Refines (p >>= f) q X R E s t where
  follows o hr := by
    rcases runs_bind.mp hr with ⟨a, s', hp, hfa⟩ | ⟨e, s', hp, rfl⟩
    · rcases h.follows _ hp with ⟨o', hq, hm⟩ | ⟨_, _, hstop, -⟩
      · cases hm with
        | ok hab =>
          cases o with
          | ok c s'' => exact .inl ⟨_, hq, .ok ((hf _ _ _ _ hab).1 c s'' hfa)⟩
          | stop e s'' => exact .inr ⟨e, s'', rfl, (hf _ _ _ _ hab).2.1 e s'' hfa⟩
      · cases hstop
    · rcases h.follows _ hp with ⟨o', hq, hm⟩ | ⟨e', s'', hstop, hx⟩
      · cases hm with
        | stop he => exact .inl ⟨_, hq, .stop he⟩
      · cases hstop
        exact .inr ⟨e, s', rfl, hx⟩
  ends hterm := by
    apply terminates_bind (h.ends hterm)
    intro a s' hp
    rcases h.follows _ hp with ⟨o', hq', hm⟩ | ⟨_, _, hstop, -⟩
    · cases hm with
      | ok hab => exact (hf _ _ _ _ hab).terminates
    · cases hstop

/-- What the second program answers is turned into something else. -/
theorem Refines.answer {h : β → η} {R : α → σ → η → τ → Prop} (hpq : Refines p q X Q E s t)
    (hR : ∀ a s b t, Q a s b t → R a s (h b) t) :
    Refines p (q >>= fun b => pure (h b)) X R E s t where
  follows o hr := by
    rcases hpq.follows o hr with ⟨o', hq, hm⟩ | hx
    · cases hm with
      | ok hab => exact .inl ⟨_, runs_bind.mpr (.inl ⟨_, _, hq, runs_act.mpr rfl⟩), .ok (hR _ _ _ _ hab)⟩
      | stop he => exact .inl ⟨_, runs_bind.mpr (.inr ⟨_, _, hq, rfl⟩), .stop he⟩
    · exact .inr hx
  ends hterm := hpq.ends (terminates_bind_pure.mp hterm)

theorem refines_ite {c c' : Prop} [Decidable c] [Decidable c'] (hc : c ↔ c')
    (yes : c → Refines p q X Q E s t) (no : ¬ c → Refines p' q' X Q E s t) :
    Refines (if c then p else p') (if c' then q else q') X Q E s t := by
  by_cases h : c
  · rw [if_pos h, if_pos (hc.mp h)]
    exact yes h
  · rw [if_neg h, if_neg (mt hc.mpr h)]
    exact no h

/-- What the second program returns with on its own may be added. -/
theorem Refines.strengthen {P : β → τ → Prop} (h : Refines p q X Q E s t)
    (hq : q.wp P (fun _ _ => True) True t) :
    Refines p q X (fun a s b t => Q a s b t ∧ P b t) E s t where
  follows o hr := by
    rcases h.follows o hr with ⟨o', hr', hm⟩ | hx
    · refine .inl ⟨o', hr', ?_⟩
      cases hm with
      | ok hab => exact .ok ⟨hab, hq.1 _ _ hr'⟩
      | stop he => exact .stop he
    · exact .inr hx
  ends := h.ends

theorem refines_of_stops {e : ε} {s' : σ} {d : δ} {t' : τ} (hp : p.Runs s (.stop e s'))
    (hq : q.Runs t (.stop d t')) (h : E e s' d t') : Refines p q X Q E s t where
  follows o hr := by
    cases hr.det hp
    exact .inl ⟨_, hq, .stop h⟩
  ends _ := ⟨_, hp⟩

section

variable {cond : α → σ → Bool} {body : α → Prog ε σ α} {cond' : β → τ → Bool}
  {body' : β → Prog δ τ β} {a : α} {b : β}

theorem follows_passes (test : ∀ a s b t, Q a s b t → cond a s = cond' b t)
    (pass : ∀ a s b t, Q a s b t → cond a s = true → Refines (body a) (body' b) X Q E s t)
    (h : Q a s b t) {n k : Nat} {o : Outcome ε σ α} (ho : passes cond body n k a s = some o) :
    (∃ o', (Prog.whileDo cond' body' b).Runs t o' ∧ o.Match Q E o') ∨
      ∃ e s', o = .stop e s' ∧ X e s' := by
  induction k generalizing a s b t with
  | zero => simp [passes] at ho
  | succ k ih =>
    have hc := test a s b t h
    by_cases hca : cond a s
    · simp only [passes, hca, if_true] at ho
      rcases bindRun_eq_some.mp ho with ⟨a', s', hp, hrest⟩ | ⟨e, s', hp, rfl⟩
      · rcases (pass a s b t h hca).follows _ ⟨n, hp⟩ with ⟨o', hq, hm⟩ | ⟨_, _, hstop, -⟩
        · cases hm with
          | ok hab =>
            rcases ih hab hrest with ⟨o'', hw, hm'⟩ | hx
            · refine .inl ⟨o'', runs_whileDo.mpr ?_, hm'⟩
              rw [if_pos (hc ▸ hca)]
              exact runs_bind.mpr (.inl ⟨_, _, hq, hw⟩)
            · exact .inr hx
        · cases hstop
      · rcases (pass a s b t h hca).follows _ ⟨n, hp⟩ with ⟨o', hq, hm⟩ | ⟨_, _, hstop, hx⟩
        · cases hm with
          | stop he =>
            refine .inl ⟨_, runs_whileDo.mpr ?_, .stop he⟩
            rw [if_pos (hc ▸ hca)]
            exact runs_bind.mpr (.inr ⟨_, _, hq, rfl⟩)
        · cases hstop
          exact .inr ⟨e, s', rfl, hx⟩
    · simp only [passes, hca] at ho
      cases ho
      refine .inl ⟨_, runs_whileDo.mpr ?_, .ok h⟩
      rw [if_neg (hc ▸ hca)]

theorem terminates_passes (test : ∀ a s b t, Q a s b t → cond a s = cond' b t)
    (pass : ∀ a s b t, Q a s b t → cond a s = true → Refines (body a) (body' b) X Q E s t)
    (h : Q a s b t) {n k : Nat} {o : Outcome δ τ β} (ho : passes cond' body' n k b t = some o) :
    (Prog.whileDo cond body a).Terminates s := by
  induction k generalizing a s b t with
  | zero => simp [passes] at ho
  | succ k ih =>
    have hc := test a s b t h
    by_cases hcb : cond' b t
    · have hpass := pass a s b t h (hc.trans hcb)
      simp only [passes, hcb, if_true] at ho
      have hall : (body a >>= Prog.whileDo cond body).Terminates s := by
        rcases bindRun_eq_some.mp ho with ⟨b', t', hp, hrest⟩ | ⟨d, t', hp, rfl⟩
        · apply terminates_bind (hpass.ends ⟨_, n, hp⟩)
          intro a' s' ha'
          rcases hpass.follows _ ha' with ⟨o', hq, hm⟩ | ⟨_, _, hstop, -⟩
          · cases hq.det ⟨n, hp⟩
            cases hm with
            | ok hab => exact ih hab hrest
          · cases hstop
        · apply terminates_bind (hpass.ends ⟨_, n, hp⟩)
          intro a' s' ha'
          rcases hpass.follows _ ha' with ⟨o', hq, hm⟩ | ⟨_, _, hstop, -⟩
          · cases hq.det ⟨n, hp⟩
            cases hm
          · cases hstop
      obtain ⟨o', ho'⟩ := hall
      exact ⟨o', runs_whileDo.mpr (by rwa [if_pos (hc.trans hcb)])⟩
    · exact ⟨.ok a s, runs_whileDo.mpr (by rw [if_neg (hc ▸ hcb)])⟩

/-- The loop rule: related states test alike, and related passes keep the relation. -/
theorem Refines.whileDo (test : ∀ a s b t, Q a s b t → cond a s = cond' b t)
    (pass : ∀ a s b t, Q a s b t → cond a s = true → Refines (body a) (body' b) X Q E s t)
    (h : Q a s b t) :
    Refines (Prog.whileDo cond body a) (Prog.whileDo cond' body' b) X Q E s t where
  follows o hr := by
    obtain ⟨n, hn⟩ := hr
    exact follows_passes test pass h hn
  ends hterm := by
    obtain ⟨o, n, hn⟩ := hterm
    exact terminates_passes test pass h hn

end

/-- One test of the loop of the first program alone. -/
theorem refines_whileDo {cond : α → σ → Bool} {body : α → Prog ε σ α} {a : α} :
    Refines (Prog.whileDo cond body a) q X Q E s t ↔
      Refines (if cond a s then body a >>= Prog.whileDo cond body else pure a) q X Q E s t := by
  have hpure (o : Outcome ε σ α) : (pure a : Prog ε σ α).Runs s o ↔ o = .ok a s := runs_act
  have hruns (o : Outcome ε σ α) : (Prog.whileDo cond body a).Runs s o ↔
      (if cond a s then body a >>= Prog.whileDo cond body else pure a : Prog ε σ α).Runs s o := by
    rw [runs_whileDo]
    split
    · rfl
    · exact (hpure o).symm
  constructor
  · intro h
    refine ⟨fun o hr => h.follows o ((hruns o).mpr hr), fun hterm => ?_⟩
    obtain ⟨o, ho⟩ := h.ends hterm
    exact ⟨o, (hruns o).mp ho⟩
  · intro h
    refine ⟨fun o hr => h.follows o ((hruns o).mp hr), fun hterm => ?_⟩
    obtain ⟨o, ho⟩ := h.ends hterm
    exact ⟨o, (hruns o).mpr ho⟩

end

/-! ### Programs on a part of the state -/

/-- The program on the part of the state that `get` reads and `set` writes. -/
def zoom (get : σ → τ) (set : τ → σ → σ) (p : Prog ε τ α) : Prog ε σ α where
  run n s :=
    match p.run n (get s) with
    | none => none
    | some (.ok a t) => some (.ok a (set t s))
    | some (.stop e t) => some (.stop e (set t s))
  grow := by
    intro m n s o hmn h
    cases hp : p.run m (get s) with
    | none => simp [hp] at h
    | some o' => rwa [p.grow hmn hp, ← hp]

theorem runs_zoom {get : σ → τ} {set : τ → σ → σ} {p : Prog ε τ α} {s : σ} {o : Outcome ε σ α} :
    (zoom get set p).Runs s o ↔
      (∃ a t, p.Runs (get s) (.ok a t) ∧ o = .ok a (set t s)) ∨
        ∃ e t, p.Runs (get s) (.stop e t) ∧ o = .stop e (set t s) := by
  constructor
  · intro h
    obtain ⟨n, hn⟩ := h
    simp only [zoom] at hn
    cases hp : p.run n (get s) with
    | none => simp [hp] at hn
    | some o' =>
      cases o' with
      | ok a t =>
        rw [hp] at hn
        cases hn
        exact .inl ⟨a, t, ⟨n, hp⟩, rfl⟩
      | stop e t =>
        rw [hp] at hn
        cases hn
        exact .inr ⟨e, t, ⟨n, hp⟩, rfl⟩
  · intro h
    rcases h with ⟨a, t, ⟨n, hn⟩, rfl⟩ | ⟨e, t, ⟨n, hn⟩, rfl⟩
    · exact ⟨n, by simp [zoom, hn]⟩
    · exact ⟨n, by simp [zoom, hn]⟩

theorem zoom_refines (get : σ → τ) (set : τ → σ → σ) (p : Prog ε τ α) (X : ε → σ → Prop) (s : σ) :
    Refines (zoom get set p) p X (fun a s' b t => a = b ∧ s' = set t s)
      (fun e s' d t => e = d ∧ s' = set t s) s (get s) where
  follows o hr := by
    rcases runs_zoom.mp hr with ⟨a, t, hp, rfl⟩ | ⟨e, t, hp, rfl⟩
    · exact .inl ⟨_, hp, .ok ⟨rfl, rfl⟩⟩
    · exact .inl ⟨_, hp, .stop ⟨rfl, rfl⟩⟩
  ends hterm := by
    obtain ⟨o, ho⟩ := hterm
    cases o with
    | ok a t => exact ⟨_, runs_zoom.mpr (.inl ⟨a, t, ho, rfl⟩)⟩
    | stop e t => exact ⟨_, runs_zoom.mpr (.inr ⟨e, t, ho, rfl⟩)⟩

end Prog
