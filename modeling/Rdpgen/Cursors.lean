import Rdpgen.ProgRules

/-- A list with the place of a traversal in it: `rest` begins with the current item. -/
structure Cursor (α : Type) where
  items : List α
  rest : List α

namespace Cursor

variable {ε σ α β : Type}

/-- To the first item. -/
def reset (cur : Cursor α) : Option α × Cursor α :=
  (cur.items.head?, { cur with rest := cur.items })

/-- To the next item. -/
def iterate (cur : Cursor α) : Option α × Cursor α :=
  (cur.rest.tail.head?, { cur with rest := cur.rest.tail })

/-- One pass of a traversal with the item in hand, and the step to the next one. -/
def pass (body : β → α → Prog ε σ β) (r : (Option α × Cursor α) × β) :
    Prog ε σ ((Option α × Cursor α) × β) :=
  match r.1.1 with
  | none => pure r
  | some x => do
    let b ← body r.2 x
    pure (r.1.2.iterate, b)

/-- `for(item = reset(list); item != NULL; item = iterate(list)) body` with the
local variables `b`. Every traversal begins with a reset. -/
def forEach (items : List α) (b : β) (body : β → α → Prog ε σ β) : Prog ε σ β := do
  let r ← Prog.whileDo (fun r _ => r.1.1.isSome) (pass body) (reset ⟨items, []⟩, b)
  pure r.2

/-- `item = reset(list); while((item = iterate(list)) != NULL) body` -/
def forRest (items : List α) (b : β) (body : β → α → Prog ε σ β) : Prog ε σ β := do
  let r ← Prog.whileDo (fun r _ => r.1.1.isSome) (pass body) (iterate (reset ⟨items, []⟩).2, b)
  pure r.2

section

variable {body : β → α → Prog ε σ β} {Q : β → σ → Prop} {E : ε → σ → Prop} {D : Prop}

/-- The loop gives the body the items from its place on, in their order. -/
theorem wp_passes {items rest : List α} {b : β} {s : σ} :
    (Prog.whileDo (fun r _ => r.1.1.isSome) (pass body) ((rest.head?, ⟨items, rest⟩), b)).wp
        (fun r => Q r.2) E D s ↔ (rest.foldlM body b).wp Q E D s := by
  induction rest generalizing b s with
  | nil => simp [Prog.wp_whileDo]
  | cons x rest ih =>
    rw [Prog.wp_whileDo, if_pos (by simp), List.foldlM_cons]
    simp only [pass, List.head?_cons, Prog.wp_bind, Prog.wp_pure_eq, iterate, List.tail_cons]
    have hrest : (fun b' s' => (Prog.whileDo (fun r _ => r.1.1.isSome) (pass body)
        ((rest.head?, ⟨items, rest⟩), b')).wp (fun r => Q r.2) E D s') =
        fun b' => (rest.foldlM body b').wp Q E D :=
      funext fun b' => funext fun s' => propext ih
    exact iff_of_eq (congrArg (fun R => (body b x).wp R E D s) hrest)

theorem wp_forEach {items : List α} {b : β} {s : σ} :
    (forEach items b body).wp Q E D s ↔ (items.foldlM body b).wp Q E D s := by
  unfold forEach
  simp only [Prog.wp_bind, Prog.wp_pure_eq]
  exact wp_passes

/-- The second loop leaves out the first item. -/
theorem wp_forRest {items : List α} {b : β} {s : σ} :
    (forRest items b body).wp Q E D s ↔ (items.tail.foldlM body b).wp Q E D s := by
  unfold forRest
  simp only [Prog.wp_bind, Prog.wp_pure_eq]
  exact wp_passes

end

end Cursor
