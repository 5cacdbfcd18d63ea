import Rdpgen.Memory

namespace Rdpgen

/-- From `m` to `m'` the blocks `used` have become the blocks `used'`: each of them and each new
block is used still or has been freed, as often as before. -/
structure Balances {α : Type} (m m' : Memory α) (used used' : List Nat) : Prop where
  blocks_le : m.blocks ≤ m'.blocks
  count_eq : ∀ a, used'.count a + m'.freed.count a =
    used.count a + m.freed.count a + if m.blocks ≤ a ∧ a < m'.blocks then 1 else 0

section

variable {α : Type} {m m₁ m' : Memory α} {used mid used' : List Nat}

theorem Balances.refl (m : Memory α) (used : List Nat) : Balances m m used used := by
  refine ⟨Nat.le_refl _, ?_⟩
  intro a
  rw [if_neg (by omega), Nat.add_zero]

theorem Balances.trans (h : Balances m m₁ used mid) (h' : Balances m₁ m' mid used') :
    Balances m m' used used' := by
  have hle := h.blocks_le
  have hle' := h'.blocks_le
  refine ⟨Nat.le_trans hle hle', ?_⟩
  intro a
  have hcount := h.count_eq a
  have hcount' := h'.count_eq a
  split at hcount <;> split at hcount' <;> split <;> omega

/-- Blocks that a part of the program does not know stay used. -/
theorem Balances.frame (h : Balances m m' used used') (w : List Nat) :
    Balances m m' (used ++ w) (used' ++ w) := by
  refine ⟨h.blocks_le, ?_⟩
  intro a
  have hcount := h.count_eq a
  rw [List.count_append, List.count_append]
  omega

theorem Balances.perm {v v' : List Nat} (h : Balances m m' used used') (hv : used.Perm v)
    (hv' : used'.Perm v') : Balances m m' v v' := by
  refine ⟨h.blocks_le, ?_⟩
  intro a
  rw [← hv.count_eq, ← hv'.count_eq]
  exact h.count_eq a

/-- From the first allocation on, the blocks handed out are those in use and those freed, each once. -/
theorem Balances.accounts (h : Balances m m' [] used') (hblocks : m.blocks = 0)
    (hfreed : m.freed = []) : (used' ++ m'.freed).Perm (List.range m'.blocks) := by
  rw [List.perm_iff_count]
  intro a
  have hcount := h.count_eq a
  rw [hblocks, hfreed, List.count_nil] at hcount
  rw [List.count_append, hcount, List.nodup_range.count]
  simp

end

/-- Whenever the program returns, it has made the blocks `used'` out of the blocks `used`. -/
def Exchanges {α β : Type} (p : MemProg α β) (used : List Nat) (used' : β → List Nat) : Prop :=
  ∀ m, p.wp (fun b m' => Balances m m' used (used' b)) (fun _ _ => True) True m

section

variable {α β γ : Type} {used : List Nat} {mid : β → List Nat} {used' : γ → List Nat}

theorem exchanges_act {f : Memory α → γ × Memory α}
    (h : ∀ m, Balances m (f m).2 used (used' (f m).1)) : Exchanges (Prog.act f) used used' :=
  fun m => Prog.wp_act.mpr (h m)

theorem exchanges_pure {c : γ} (h : used = used' c) : Exchanges (pure c : MemProg α γ) used used' :=
  exchanges_act fun m => h ▸ Balances.refl m used

theorem exchanges_fault : Exchanges (fault : MemProg α γ) used used' :=
  fun _ => wp_fault.mpr trivial

theorem exchanges_memError (text : String) : Exchanges (memError text : MemProg α γ) used used' :=
  fun _ => wp_memError.mpr trivial

theorem Exchanges.bind {p : MemProg α β} {f : β → MemProg α γ} (hp : Exchanges p used mid)
    (hf : ∀ b, Exchanges (f b) (mid b) used') : Exchanges (p >>= f) used used' := by
  intro m
  rw [Prog.wp_bind]
  apply (hp m).imp
  intro b m₁ h
  apply (hf b m₁).imp
  intro c m' h'
  exact h.trans h'

theorem Exchanges.ite {cond : Prop} [Decidable cond] {p q : MemProg α γ}
    (hp : Exchanges p used used') (hq : Exchanges q used used') :
    Exchanges (if cond then p else q) used used' := by
  split
  · exact hp
  · exact hq

theorem Exchanges.whileDo (own : γ → List Nat) {cond : γ → Memory α → Bool}
    {body : γ → MemProg α γ} (hbody : ∀ c, Exchanges (body c) (own c) own) (c : γ) :
    Exchanges (Prog.whileDo cond body c) (own c) own := by
  intro m
  apply Prog.wp_whileDo_of_invariant fun c' m' => Balances m m' (own c) (own c')
  · intro c₁ m₁ h₁ _
    apply (hbody c₁ m₁).imp
    intro c₂ m₂ h₂
    exact h₁.trans h₂
  · exact fun _ _ h _ => h
  · exact Balances.refl m (own c)

theorem Exchanges.frame {p : MemProg α γ} (hp : Exchanges p used used') (w : List Nat) :
    Exchanges p (used ++ w) fun c => used' c ++ w :=
  fun m => (hp m).imp fun _ _ h => h.frame w

theorem Exchanges.perm {p : MemProg α γ} {v : List Nat} {v' : γ → List Nat}
    (hp : Exchanges p used used') (hv : used.Perm v) (hv' : ∀ c, (used' c).Perm (v' c)) :
    Exchanges p v v' :=
  fun m => (hp m).imp fun c _ h => h.perm hv (hv' c)

end

/-! ### `memory.c` -/

section

variable {α : Type}

theorem newBlock_exchanges : Exchanges (newBlock : MemProg α Nat) [] fun a => [a] := by
  refine exchanges_act fun m => ⟨Nat.le_succ m.blocks, ?_⟩
  intro a
  show [m.blocks].count a + m.freed.count a =
    [].count a + m.freed.count a + if m.blocks ≤ a ∧ a < m.blocks + 1 then 1 else 0
  rw [List.count_singleton, List.count_nil]
  by_cases ha : m.blocks = a
  · rw [if_pos (by simpa using ha), if_pos (by omega)]
    omega
  · rw [if_neg (by simpa using ha), if_neg (by omega), Nat.add_zero]

theorem memAlloc_exchanges (size : Nat) : Exchanges (memAlloc size : MemProg α Nat) [] fun a => [a] :=
  .ite (exchanges_memError _) newBlock_exchanges

theorem release_exchanges (a : Nat) :
    Exchanges (Prog.modify fun m => { m with freed := a :: m.freed } : MemProg α Unit) [a]
      fun _ => [] := by
  refine exchanges_act fun m => ⟨Nat.le_refl m.blocks, ?_⟩
  intro b
  show [].count b + (a :: m.freed).count b =
    [a].count b + m.freed.count b + if m.blocks ≤ b ∧ b < m.blocks then 1 else 0
  rw [if_neg (by omega), List.count_nil, List.count_cons, List.count_singleton]
  omega

/-- The build without the collector. -/
theorem memFree_exchanges (a : Nat) :
    Exchanges (memFree false (some a) : MemProg α Unit) [a] fun _ => [] :=
  release_exchanges a

theorem memRealloc_exchanges (junk : Nat → Nat → UInt8) (ptr : Block Bytes) (size : Nat) :
    Exchanges (memRealloc junk ptr size : MemProg α (Block Bytes)) [ptr.addr] fun q => [q.addr] := by
  refine .ite (exchanges_memError _) (.bind (newBlock_exchanges.frame [ptr.addr]) fun a => ?_)
  have hfree := (release_exchanges (α := α) ptr.addr).frame [a]
  exact .bind (hfree.perm (List.Perm.swap a ptr.addr []) fun _ => List.Perm.refl _) fun _ =>
    exchanges_pure rfl

theorem memcpyTo_exchanges (bytes : Bytes) (i : Nat) (src : Bytes) :
    Exchanges (memcpyTo bytes i src : MemProg α Bytes) [] fun _ => [] :=
  .ite (exchanges_pure rfl) exchanges_fault

end

end Rdpgen
