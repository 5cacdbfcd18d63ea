import Rdpgen.ProgRules

variable {ε σ α β : Type}

/-- A run may move the state along `G`, and may leave the program in a state that is `X` of
the first one. -/
structure Guarantee (G : σ → σ → Prop) (X : ε → σ → σ → Prop) : Prop where
  refl : ∀ s, G s s
  trans : ∀ {s t u}, G s t → G t u → G s u
  leave : ∀ {e s t u}, G s t → X e t u → X e s u

namespace Prog

/-- Wherever `p` starts, it keeps to what `G` and `X` allow. -/
def Moves (p : Prog ε σ α) (G : σ → σ → Prop) (X : ε → σ → σ → Prop) : Prop :=
  ∀ s, p.wp (fun _ t => G s t) (fun e t => X e s t) True s

section

variable {p q : Prog ε σ α} {G : σ → σ → Prop} {X : ε → σ → σ → Prop}

theorem moves_act {g : σ → α × σ} (h : ∀ s, G s (g s).2) : Moves (act g : Prog ε σ α) G X :=
  fun s => wp_act.mpr (h s)

theorem Moves.ite {c : Prop} [Decidable c] (hp : Moves p G X) (hq : Moves q G X) :
    Moves (if c then p else q) G X := by
  split
  · exact hp
  · exact hq

end

end Prog

open Prog (Moves)

namespace Guarantee

variable {G : σ → σ → Prop} {X : ε → σ → σ → Prop} {p : Prog ε σ α} {f : α → Prog ε σ β}

theorem pure (g : Guarantee G X) (a : α) : Moves (Pure.pure a : Prog ε σ α) G X :=
  Prog.moves_act g.refl

theorem gets (g : Guarantee G X) (h : σ → α) : Moves (Prog.gets h : Prog ε σ α) G X :=
  Prog.moves_act g.refl

theorem bind (g : Guarantee G X) (hp : Moves p G X) (hf : ∀ a, Moves (f a) G X) :
    Moves (p >>= f) G X := by
  intro s
  rw [Prog.wp_bind]
  refine (hp s).mono ?_ (fun _ _ h => h) id
  intro a t hst
  exact (hf a t).mono (fun _ _ htu => g.trans hst htu) (fun _ _ htu => g.leave hst htu) id

theorem whileDo (g : Guarantee G X) {cond : β → σ → Bool} {body : β → Prog ε σ β}
    (hbody : ∀ b, Moves (body b) G X) (b : β) : Moves (Prog.whileDo cond body b) G X := by
  intro s
  apply Prog.wp_whileDo_of_invariant fun _ t => G s t
  · intro b t hst _
    exact (hbody b t).mono (fun _ _ htu => g.trans hst htu) (fun _ _ htu => g.leave hst htu) id
  · exact fun _ _ hst _ => hst
  · exact g.refl s

end Guarantee
