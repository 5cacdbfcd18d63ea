import Rdpgen.ListRuns
import Rdpgen.World

namespace Rdpgen

/-- A list with the blocks that `mem_free` has got, the last one first. -/
structure Freeing where
  lst : Lst
  freed : List Addr

abbrev FreeProg (α : Type) := Prog Halt Freeing α

/-- `mem_free` on an element of the list; any other pointer is a fault. -/
def freeBlock (elem : Addr) : FreeProg Unit := do
  let st ← Prog.gets id
  match st.lst.load elem with
  | none => Prog.stop .fault
  | some _ => Prog.modify fun st => { lst := st.lst.freeElem elem, freed := elem :: st.freed }

def freeElem (elem : Addr) : FreeProg Unit :=
  if elem ≠ NULL then freeBlock elem else pure ()

/-- One pass of the loop of `destroy_lst`. -/
def destroyPass (elem : Addr) : FreeProg Addr := do
  let st ← Prog.gets id
  match st.lst.load elem with
  | none => Prog.stop .fault
  | some c => do
    freeElem elem
    pure c.next

/-- The block `lst` of the list itself is not one of the heap of its elements. -/
def destroyLst (lst : Addr) : FreeProg Unit := do
  let st ← Prog.gets id
  let _ ← Prog.whileDo (fun elem _ => decide (elem ≠ NULL)) destroyPass st.lst.first
  Prog.modify fun st => { st with freed := lst :: st.freed }

/-- The heap holds the blocks of `s` and no other ones. -/
def Lst.Blocks (l : Lst) (s : List Entry) : Prop := ∀ p, l.heap p ≠ none ↔ p ∈ s.map Entry.elem

namespace Lst

def Keeps (l l' : Lst) : Prop := ∀ p, l'.heap p ≠ none ↔ l.heap p ≠ none

def Gains (l l' : Lst) (q : Addr) : Prop := ∀ p, l'.heap p ≠ none ↔ p = q ∨ l.heap p ≠ none

def Loses (l l' : Lst) (q : Addr) : Prop := ∀ p, l'.heap p ≠ none ↔ p ≠ q ∧ l.heap p ≠ none

section

variable {l l₁ l₂ l' : Lst} {p q : Addr} {e : Entry}

theorem Keeps.trans (h : l.Keeps l₁) (h' : l₁.Keeps l') : l.Keeps l' := fun p => (h' p).trans (h p)

theorem Gains.keeps (h : l.Gains l₁ q) (h' : l₁.Keeps l') : l.Gains l' q :=
  fun p => (h' p).trans (h p)

theorem store_keeps {f : LstElem → LstElem} (h : l.store p f = some l') : l.Keeps l' := by
  obtain ⟨c, hc, hl⟩ := Option.bind_eq_some_iff.mp h
  cases hl
  intro q
  by_cases hq : q = p
  · subst hq
    have hsome : l.heap q = some c := hc
    simp [hsome]
  · simp [hq]

theorem createElem_gains (l : Lst) (e : Entry) : l.Gains (l.createElem e) e.elem := by
  intro p
  by_cases hp : p = e.elem
  · simp [createElem, hp]
  · simp [createElem, hp]

theorem freeElem_loses (l : Lst) (q : Addr) : l.Loses (l.freeElem q) q := by
  intro p
  by_cases hp : p = q
  · simp [freeElem, hp]
  · simp [freeElem, hp]

theorem Keeps.loses (h : l.Keeps l₁) (h' : l₁.Loses l' q) : l.Loses l' q := by
  intro p
  rw [h' p, h p]

theorem appendLst_gains (h : l.appendLst e = some l') : l.Gains l' e.elem := by
  unfold appendLst at h
  dsimp only at h
  split at h
  · obtain ⟨l₁, hl₁, h⟩ := Option.bind_eq_some_iff.mp h
    obtain ⟨l₂, hl₂, h⟩ := Option.bind_eq_some_iff.mp h
    cases h
    have hkeeps := (store_keeps hl₁).trans (store_keeps hl₂)
    exact (createElem_gains l e).keeps hkeeps
  · cases h
    exact createElem_gains l e

theorem prependLst_gains (h : l.prependLst e = some l') : l.Gains l' e.elem := by
  unfold prependLst at h
  dsimp only at h
  split at h
  · obtain ⟨l₁, hl₁, h⟩ := Option.bind_eq_some_iff.mp h
    obtain ⟨l₂, hl₂, h⟩ := Option.bind_eq_some_iff.mp h
    cases h
    have hkeeps := (store_keeps hl₁).trans (store_keeps hl₂)
    exact (createElem_gains l e).keeps hkeeps
  · cases h
    exact createElem_gains l e

theorem insertBetween_gains {next prev : Addr} (h : l.insertBetween e next prev = some l') :
    l.Gains l' e.elem := by
  unfold insertBetween at h
  obtain ⟨l₁, hl₁, h⟩ := Option.bind_eq_some_iff.mp h
  obtain ⟨l₂, hl₂, h⟩ := Option.bind_eq_some_iff.mp h
  obtain ⟨l₃, hl₃, h⟩ := Option.bind_eq_some_iff.mp h
  exact (createElem_gains _ e).keeps
    (((store_keeps hl₁).trans (store_keeps hl₂)).trans ((store_keeps hl₃).trans (store_keeps h)))

theorem insertLst_gains {elem : Addr} {flag : Bool} (h : l.insertLst elem e flag = some l') :
    l.Gains l' e.elem := by
  unfold insertLst at h
  split at h
  · cases h
  · obtain ⟨c, -, h⟩ := Option.bind_eq_some_iff.mp h
    split at h
    · split at h
      · exact appendLst_gains h
      · obtain ⟨n, -, h⟩ := Option.bind_eq_some_iff.mp h
        exact insertBetween_gains h
    · split at h
      · exact prependLst_gains h
      · obtain ⟨n, -, h⟩ := Option.bind_eq_some_iff.mp h
        exact insertBetween_gains h

theorem removeLst_loses {elem : Addr} (h : l.removeLst elem = some l') :
    l.Loses l' (voidToElem elem) := by
  unfold removeLst at h
  split at h
  · cases h
  · obtain ⟨c, -, h⟩ := Option.bind_eq_some_iff.mp h
    dsimp only at h
    split at h
    · obtain ⟨l₁, hl₁, h⟩ := Option.bind_eq_some_iff.mp h
      cases h
      exact (store_keeps (l := { l with first := c.next }) hl₁).loses (freeElem_loses l₁ _)
    · split at h
      · obtain ⟨l₁, hl₁, h⟩ := Option.bind_eq_some_iff.mp h
        cases h
        exact (store_keeps (l := { l with last := c.prev }) hl₁).loses (freeElem_loses l₁ _)
      · split at h
        · cases h
          exact freeElem_loses l _
        · obtain ⟨l₁, hl₁, h⟩ := Option.bind_eq_some_iff.mp h
          obtain ⟨l₂, hl₂, h⟩ := Option.bind_eq_some_iff.mp h
          cases h
          exact ((store_keeps hl₁).trans (store_keeps hl₂)).loses (freeElem_loses l₂ _)

theorem popLst_loses (h : l.popLst = some l') : l.Loses l' l.first := by
  unfold popLst at h
  obtain ⟨c, -, h⟩ := Option.bind_eq_some_iff.mp h
  dsimp only at h
  split at h
  · obtain ⟨l₁, hl₁, h⟩ := Option.bind_eq_some_iff.mp h
    cases h
    exact (store_keeps (l := { l with first := c.next }) hl₁).loses (freeElem_loses l₁ _)
  · cases h
    exact freeElem_loses l _

end

section

variable {l l' : Lst} {s s₁ s₂ : List Entry} {a e : Entry}

theorem Blocks.gain (h : l.Blocks s) (hg : l.Gains l' e.elem) {s' : List Entry}
    (hs : s'.Perm (e :: s)) : l'.Blocks s' := by
  intro p
  rw [hg p, h p, (hs.map Entry.elem).mem_iff, List.map_cons, List.mem_cons]

theorem Blocks.lose (h : l.Blocks s) (hd : (s.map Entry.elem).Nodup) (hl : l.Loses l' a.elem)
    {s' : List Entry} (hs : s.Perm (a :: s')) : l'.Blocks s' := by
  have hnot : a.elem ∉ s'.map Entry.elem :=
    (List.nodup_cons.mp ((hs.map Entry.elem).nodup_iff.mp hd)).1
  intro p
  rw [hl p, h p, (hs.map Entry.elem).mem_iff, List.map_cons, List.mem_cons]
  constructor
  · exact fun hp => hp.2.resolve_left hp.1
  · exact fun hp => ⟨fun he => hnot (he ▸ hp), .inr hp⟩

end

end Lst

namespace LstOp

/-- The block that a call gets from the allocator. -/
def acquired : LstOp → Option Addr
  | append e | prepend e | push e => some e.elem
  | insert _ e _ => some e.elem
  | insertIdx _ e _ => some e.elem
  | remove _ | removeIdx _ | pop => none

/-- The blocks that the calls give back. -/
def released (s : List Entry) : List LstOp → List Addr
  | [] => []
  | op :: ops => ((op.removed s).map Entry.elem).toList ++ released (op.apply s) ops

variable {l l' : Lst} {s : List Entry}

theorem insertAt_perm {i : Nat} (hi : i < s.length) (e : Entry) (flag : Bool) :
    (insertAt s i e flag).Perm (e :: s) := by
  unfold insertAt
  refine List.perm_insertIdx e s ?_
  split <;> omega

/-- What a call changes about the blocks, in the sequence and in the ledger. -/
inductive Trades (l l' : Lst) (s s' : List Entry) : Option Addr → Option Addr → Prop where
  | gain {e : Entry} (gains : l.Gains l' e.elem) (perm : s'.Perm (e :: s)) :
      Trades l l' s s' (some e.elem) none
  | lose {a : Entry} (loses : l.Loses l' a.elem) (perm : s.Perm (a :: s')) :
      Trades l l' s s' none (some a.elem)

theorem exec_trades {op : LstOp} (h : l.Represents s) (hp : op.Pre s) (hl : op.exec l = some l') :
    Trades l l' s (op.apply s) op.acquired ((op.removed s).map Entry.elem) := by
  have removed {s₁ s₂ : List Entry} {a : Entry} {i : Nat} (hs : s = s₁ ++ a :: s₂)
      (hi : i = s₁.length) (hloses : l.Loses l' a.elem) :
      Trades l l' s (s.eraseIdx i) none ((s[i]?).map Entry.elem) := by
    subst hs hi
    rw [eraseIdx_split, List.getElem?_append_right (Nat.le_refl _), Nat.sub_self,
      List.getElem?_cons_zero, Option.map_some]
    exact .lose hloses List.perm_middle
  cases op with
  | append e => exact .gain (Lst.appendLst_gains hl) (List.perm_append_singleton e s)
  | prepend e => exact .gain (Lst.prependLst_gains hl) (List.Perm.refl _)
  | push e => exact .gain (Lst.prependLst_gains hl) (List.Perm.refl _)
  | insert elem e flag =>
    obtain ⟨s₁, a, s₂, hs, -, hplace⟩ := place_split hp.2
    refine .gain (Lst.insertLst_gains hl) (insertAt_perm ?_ e flag)
    rw [hplace, hs, List.length_append, List.length_cons]
    omega
  | insertIdx index e flag =>
    obtain ⟨hfresh, hlow, hhigh⟩ := hp
    obtain ⟨s₁, a, s₂, hs, -, hplace⟩ := placeIdx_split hlow hhigh
    obtain ⟨p, -, hl⟩ := Option.bind_eq_some_iff.mp hl
    refine .gain (Lst.insertLst_gains hl) (insertAt_perm ?_ e flag)
    rw [hplace, hs, List.length_append, List.length_cons]
    omega
  | remove elem =>
    obtain ⟨s₁, a, s₂, hs, rfl, hplace⟩ := place_split hp
    have hloses := Lst.removeLst_loses hl
    rw [Entry.handle, voidToElem_elemToVoid] at hloses
    exact removed hs hplace hloses
  | removeIdx index =>
    obtain ⟨s₁, a, s₂, hs, hat, hplace⟩ := placeIdx_split hp.1 hp.2
    obtain ⟨p, hget, hl⟩ := Option.bind_eq_some_iff.mp hl
    rw [Lst.getElem_eq h, hat] at hget
    cases hget
    have hloses := Lst.removeLst_loses hl
    rw [Option.elim_some, Entry.handle, voidToElem_elemToVoid] at hloses
    exact removed hs hplace hloses
  | pop =>
    cases s with
    | nil => exact absurd rfl hp
    | cons a s =>
      have hloses := Lst.popLst_loses hl
      rw [h.first] at hloses
      exact .lose hloses (List.Perm.refl _)

theorem Trades.blocks {s' : List Entry} {got gone : Option Addr} (h : Trades l l' s s' got gone)
    (hd : (s.map Entry.elem).Nodup) (hb : l.Blocks s) : l'.Blocks s' := by
  cases h with
  | gain hgains hperm => exact hb.gain hgains hperm
  | lose hloses hperm => exact hb.lose hd hloses hperm

theorem Trades.ledger {s' : List Entry} {got gone : Option Addr} (h : Trades l l' s s' got gone) :
    (s.map Entry.elem ++ got.toList).Perm (gone.toList ++ s'.map Entry.elem) := by
  cases h with
  | gain hgains hperm =>
    exact (List.perm_append_singleton _ _).trans (hperm.map Entry.elem).symm
  | lose hloses hperm =>
    rw [Option.toList_none, List.append_nil]
    exact hperm.map Entry.elem

/-- Over a run every block that a call got is in the list or given back. -/
theorem runFrom_blocks {ops : List LstOp} (hv : Valid s ops) (h : l.Represents s) (hb : l.Blocks s)
    {k : Nat} (hk : Counted l s k) :
    ∃ l', ops.foldlM exec l = some l' ∧ l'.Represents (ops.foldl apply s) ∧
      l'.Blocks (ops.foldl apply s) ∧
      (s.map Entry.elem ++ ops.filterMap acquired).Perm
        (released s ops ++ (ops.foldl apply s).map Entry.elem) := by
  induction ops generalizing l s k with
  | nil =>
    refine ⟨l, rfl, h, hb, ?_⟩
    rw [List.filterMap_nil, List.append_nil]
    exact List.Perm.refl _
  | cons op ops ih =>
    obtain ⟨hp, hv⟩ := hv
    obtain ⟨l₁, hl₁, h₁, hk₁⟩ := exec_represents h hp hk
    have htrade := exec_trades h hp hl₁
    have hb₁ := htrade.blocks (List.nodup_cons.mp h.nodup).2 hb
    obtain ⟨l', hl', h', hb', hledger⟩ := ih hv h₁ hb₁ hk₁
    refine ⟨l', by rw [List.foldlM_cons, hl₁]; exact hl', h', hb', ?_⟩
    have hcons : (op :: ops).filterMap acquired = op.acquired.toList ++ ops.filterMap acquired := by
      rw [List.filterMap_cons]
      cases op.acquired <;> rfl
    have hhere := htrade.ledger.append_right (ops.filterMap acquired)
    have hlater := hledger.append_left ((op.removed s).map Entry.elem).toList
    rw [List.append_assoc, List.append_assoc] at hhere
    rw [hcons, released, List.foldl_cons, List.append_assoc]
    exact hhere.trans hlater

end LstOp

/-! ### The loop of `destroy_lst` -/

section

variable {l l' : Lst} {s : List Entry} {st : Freeing}

theorem Lst.Follows.congr {field : LstElem → Addr} {p : Addr} (h : l.Follows field p s)
    (hheap : ∀ e ∈ s, l'.heap e.elem = l.heap e.elem) : l'.Follows field p s := by
  induction s generalizing p with
  | nil => exact h
  | cons e s ih =>
    obtain ⟨rfl, hne, c, hc, hcontent, hrest⟩ := h
    refine ⟨rfl, hne, c, ?_, hcontent, ih hrest fun b hb => hheap b (List.mem_cons_of_mem e hb)⟩
    rw [hheap e List.mem_cons_self, hc]

/-- From the element `p` on the loop frees the blocks that are left, in their order. -/
theorem destroyLoop_wp {p : Addr} (hf : st.lst.Follows LstElem.next p s)
    (hd : (s.map Entry.elem).Nodup) (hb : st.lst.Blocks s) :
    (Prog.whileDo (fun elem _ => decide (elem ≠ NULL)) destroyPass p).wp
      (fun _ st' => st'.freed = (s.map Entry.elem).reverse ++ st.freed ∧ ∀ q, st'.lst.heap q = none)
      (fun _ _ => False) False st := by
  induction s generalizing p st with
  | nil =>
    have hp : p = NULL := hf
    rw [Prog.wp_whileDo, if_neg (by simp [hp])]
    exact ⟨rfl, fun q => by_contra fun hq => by simpa using (hb q).mp hq⟩
  | cons e s ih =>
    obtain ⟨rfl, hne, c, hc, -, hrest⟩ := hf
    obtain ⟨hnot, hd⟩ := List.nodup_cons.mp hd
    have hload : st.lst.load e.elem = some c := hc
    have hother : ∀ b ∈ s, (st.lst.freeElem e.elem).heap b.elem = st.lst.heap b.elem := by
      intro b hbs
      have hba : b.elem ≠ e.elem := fun he => hnot (he ▸ List.mem_map_of_mem hbs)
      simp [Lst.freeElem, hba]
    have hb' : (st.lst.freeElem e.elem).Blocks s :=
      hb.lose (List.nodup_cons.mpr ⟨hnot, hd⟩) (Lst.freeElem_loses st.lst e.elem) (List.Perm.refl _)
    rw [Prog.wp_whileDo, if_pos (by simp [hne])]
    unfold destroyPass Rdpgen.freeElem freeBlock
    simp only [Prog.wp_bind, Prog.wp_gets, id, hload, ne_eq, hne, not_false_eq_true, if_true,
      Prog.wp_modify, Prog.wp_pure]
    apply (ih (hrest.congr hother) hd hb').imp
    intro _ st' hend
    refine ⟨?_, hend.2⟩
    rw [hend.1, List.map_cons, List.reverse_cons, List.append_assoc]
    rfl

end

theorem Lst.blocks_createLst : Lst.createLst.Blocks [] := fun p => by simp [Lst.createLst]

/-- Over a run of calls with `destroy_lst` at its end every block that a call got is given back once,
by the call that removed the element or by the destruction; that one frees no other block but the
one of the list, and reads nothing it has freed. -/
theorem destroyLst_frees (ops : List LstOp) (h : LstOp.Valid [] ops) (lst : Addr) :
    ∃ l, runLst ops = some l ∧
      (destroyLst lst).wp
        (fun _ st => (∀ p, st.lst.heap p = none) ∧
          st.freed = lst :: ((seqOf ops).map Entry.elem).reverse ∧
          (ops.filterMap LstOp.acquired).Perm (LstOp.released [] ops ++ st.freed.tail))
        (fun _ _ => False) False ⟨l, []⟩ := by
  obtain ⟨l, hl, hr, hb, hledger⟩ :=
    LstOp.runFrom_blocks h Lst.represents_createLst Lst.blocks_createLst (k := 0) rfl
  refine ⟨l, hl, ?_⟩
  unfold destroyLst
  simp only [Prog.wp_bind, Prog.wp_gets, id]
  apply (destroyLoop_wp hr.follows_next (List.nodup_cons.mp hr.nodup).2 hb).imp
  intro _ st hend
  obtain ⟨hfreed, hheap⟩ := hend
  rw [List.append_nil] at hfreed
  rw [Prog.wp_modify]
  refine ⟨hheap, by rw [hfreed]; rfl, ?_⟩
  rw [List.tail_cons, hfreed]
  exact hledger.trans ((List.reverse_perm _).symm.append_left _)

/-- An element is taken out, and its block comes back for another one. -/
theorem destroyLst_frees_reused :
    ∃ l, runLst [.push ⟨64, 1, [7]⟩, .append ⟨128, 2, [8, 9]⟩, .pop, .append ⟨64, 3, []⟩] = some l ∧
      (destroyLst 32).wp (fun _ st => (∀ p, st.lst.heap p = none) ∧ st.freed = [32, 64, 128])
        (fun _ _ => False) False ⟨l, []⟩ := by
  obtain ⟨l, hl, hdestroy⟩ := destroyLst_frees
    [.push ⟨64, 1, [7]⟩, .append ⟨128, 2, [8, 9]⟩, .pop, .append ⟨64, 3, []⟩] (by decide) 32
  exact ⟨l, hl, hdestroy.imp fun _ _ hend => ⟨hend.1, hend.2.1⟩⟩

end Rdpgen
