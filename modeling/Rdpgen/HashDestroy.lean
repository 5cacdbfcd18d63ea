import Rdpgen.HashOwned

namespace Rdpgen

open Probing

/-- A node without a key has no payload either. -/
def Hash.Tidy (tab : Hash) : Prop :=
  ∀ node, some node ∈ tab.table.val → node.val.key = none → node.val.data = none

/-- The bucket holds a node, and a key there has a payload. -/
def Slot.Freeable (s : Slot) : Prop :=
  ∃ node, s = some node ∧ (node.val.key ≠ none → node.val.data ≠ none)

def Hash.Destroyable (tab : Hash) : Prop := ∀ s ∈ tab.table.val, s.Freeable

/-- The key that `hashRemove` finds has a payload; a key that it does not find can be counted. -/
def Hash.Removable (tab : Hash) (key : CStr) : Prop :=
  ∀ i s, tab.Ends key i s →
    (∀ node, matching s key = some node → node.val.data ≠ none) ∧
      (matching s key = none → tab.count + 1 < 2 ^ 31)

/-- The call returns. It has freed the key and the payload of the node it has found,
and they no longer belong to the table. -/
def RemoveFrees (m : Memory Hash) (key : CStr) : Prop :=
  (hashRemove false key).wp
    (fun _ m' => ∃ i s, m.obj.Ends key i s ∧
      m'.freed.Perm (Slot.held (matching s key) ++ m.freed) ∧
      m.obj.owned.Perm (Slot.held (matching s key) ++ m'.obj.owned))
    (fun _ _ => False) False m

/-- The call returns and has freed what the table owned. -/
def DestroyFrees (m : Memory Hash) : Prop :=
  (hashDestroy false).wp (fun _ m' => m'.freed.Perm (m.obj.owned ++ m.freed)) (fun _ _ => False)
    False m

section

variable {tab tab' : Hash} {k : Nat}

theorem Hash.Tidy.withSlot {i : Nat} {s : Slot} (h : tab.Tidy)
    (hs : ∀ node, s = some node → node.val.key = none → node.val.data = none) :
    (tab.withSlot i s).Tidy := by
  intro node hmem
  rcases List.mem_or_eq_of_mem_set hmem with hold | hnew
  · exact h node hold
  · exact hs node hnew.symm

theorem Hash.Tidy.counted (h : tab.Tidy) (c : Cell CStr) : (tab.counted c).Tidy := by
  unfold Hash.Tidy
  rw [Hash.counted_table]
  exact h

theorem Hash.Rehashed.tidy (hr : tab.Rehashed tab') (h : tab.Tidy) : tab'.Tidy := by
  cases hr with
  | idle => exact h
  | grown _ _ hm =>
    intro node hmem hk
    obtain ⟨i, hi⟩ := List.mem_iff_getElem?.mp hmem
    exact absurd (by rw [Hash.cell_of_slot hi]; simp [slotCell, hk]) (hm.filled.clean i)

theorem HashStep.tidy {op : HashOp} {r : HashAnswer} (hstep : HashStep tab op r tab')
    (h : tab.Tidy) : tab'.Tidy := by
  cases hstep with
  | found => exact h
  | notFound => exact h.counted _
  | @removed _ i node =>
    have hnone : ∀ node', some (tombNode node.addr) = some node' → node'.val.key = none →
        node'.val.data = none := by
      intro node' heq _
      cases heq
      rfl
    exact h.withSlot hnone
  | notRemoved => exact h.counted _
  | duplicate hr => exact hr.tidy h
  | inserted hr _ _ hfresh =>
    apply ((hr.tidy h).counted _).withSlot
    intro node heq hk
    cases heq
    have hkey := hfresh.1
    rw [hk] at hkey
    cases hkey

end

/-! ### `hashDestroy` -/

section

variable {m : Memory Hash} {i n : Nat} {s : Slot}

theorem destroySlot_frees {Q : Unit → Memory Hash → Prop} {E : Halt → Memory Hash → Prop} {D : Prop}
    {node : Block HashNode} (hs : m.obj.table.val[i]? = some (some node)) (htidy : m.obj.Tidy)
    (hdata : node.val.key ≠ none → node.val.data ≠ none)
    (ok : ∀ m' : Memory Hash, m'.obj = m.obj →
      m'.freed.Perm (Slot.owned (some node) ++ m.freed) → Q () m') :
    (destroySlot false i).wp Q E D m := by
  unfold destroySlot memFree
  rw [Prog.wp_bind, wp_slotAt hs]
  cases hk : node.val.key with
  | none =>
    have hnone := htidy node (List.mem_of_getElem? hs) hk
    simp only [hk, Option.isSome_none, Bool.false_eq_true, if_false, Option.map_some, Prog.wp_modify]
    refine ok _ rfl ?_
    simp [Slot.owned, Slot.held, hk, hnone]
  | some kb =>
    obtain ⟨d, hd⟩ := Option.ne_none_iff_exists'.mp (hdata (by simp [hk]))
    simp only [hk, hd, Option.isSome_some, if_true, Bool.false_eq_true, if_false, Option.map_some,
      Prog.wp_bind, Prog.wp_modify]
    refine ok _ rfl ?_
    simp only [Slot.owned, Slot.held, hk, hd, Option.map_some, Option.toList_some, List.cons_append,
      List.nil_append]
    exact (List.Perm.swap kb.addr d.addr m.freed).cons node.addr

/-- An empty bucket and a key without a payload hand a null pointer to `mem_free`. -/
theorem destroySlot_exits (hs : m.obj.table.val[i]? = some s)
    (hbad : ¬s.Freeable) :
    (destroySlot false i).wp (fun _ _ => False) (fun e _ => e = .exit 1) False m := by
  unfold destroySlot memFree
  rw [Prog.wp_bind, wp_slotAt hs]
  cases s with
  | none =>
    simp only [Bool.false_eq_true, if_false, Option.map_none, wp_memError]
  | some node =>
    have hnull : node.val.key ≠ none ∧ node.val.data = none := by
      simpa [Slot.Freeable] using hbad
    obtain ⟨kb, hk⟩ := Option.ne_none_iff_exists'.mp hnull.1
    simp only [hk, hnull.2, Option.isSome_some, if_true, Bool.false_eq_true, if_false,
      Option.map_some, Option.map_none, Prog.wp_bind, Prog.wp_modify, wp_memError]

theorem destroySlots_frees {Q : Unit → Memory Hash → Prop} {E : Halt → Memory Hash → Prop}
    {D : Prop} (htidy : m.obj.Tidy) (hn : n ≤ m.obj.table.val.length)
    (hfull : ∀ s ∈ m.obj.table.val.take n, s.Freeable)
    (ok : ∀ m' : Memory Hash, m'.obj = m.obj →
      m'.freed.Perm (slotBlocks (m.obj.table.val.take n) ++ m.freed) → Q () m') :
    (destroySlots false n).wp Q E D m := by
  induction n generalizing Q with
  | zero => exact Prog.wp_pure.mpr (ok m rfl (List.Perm.refl _))
  | succ n ih =>
    have hs := List.getElem?_eq_getElem (show n < m.obj.table.val.length from hn)
    have htake : m.obj.table.val.take (n + 1) = m.obj.table.val.take n ++ [m.obj.table.val[n]] := by
      rw [List.take_add_one, hs, Option.toList_some]
    rw [htake] at hfull
    obtain ⟨node, hnode, hdata⟩ := hfull _ (List.mem_append_right _ List.mem_cons_self)
    unfold destroySlots
    rw [Prog.wp_bind]
    apply ih (Nat.le_of_succ_le hn) (fun s hmem => hfull s (List.mem_append_left _ hmem))
    intro m₁ hobj₁ hperm₁
    rw [hnode] at hs htake
    apply destroySlot_frees (by rw [hobj₁]; exact hs) (by rw [hobj₁]; exact htidy) hdata
    intro m₂ hobj₂ hperm₂
    apply ok m₂ (hobj₂.trans hobj₁)
    have hcomm : (Slot.owned (some node) ++ slotBlocks (m.obj.table.val.take n)).Perm
        (slotBlocks (m.obj.table.val.take n) ++ Slot.owned (some node)) := List.perm_append_comm
    have hall : slotBlocks (m.obj.table.val.take (n + 1)) =
        slotBlocks (m.obj.table.val.take n) ++ Slot.owned (some node) := by
      unfold slotBlocks
      rw [htake, List.flatMap_append, List.flatMap_singleton]
    rw [hall]
    apply (hperm₂.trans (hperm₁.append_left _)).trans
    rw [← List.append_assoc]
    exact hcomm.append_right _

theorem destroySlots_exits (htidy : m.obj.Tidy) (hn : n ≤ m.obj.table.val.length)
    (hbad : ¬∀ s ∈ m.obj.table.val.take n, s.Freeable) :
    (destroySlots false n).wp (fun _ _ => False) (fun e _ => e = .exit 1) False m := by
  induction n with
  | zero => exact absurd (fun s hmem => by simp at hmem) hbad
  | succ n ih =>
    have hs := List.getElem?_eq_getElem (show n < m.obj.table.val.length from hn)
    unfold destroySlots
    rw [Prog.wp_bind]
    by_cases hearly : ∀ s ∈ m.obj.table.val.take n, s.Freeable
    · apply destroySlots_frees htidy (Nat.le_of_succ_le hn) hearly
      intro m₁ hobj _
      refine destroySlot_exits (by rw [hobj]; exact hs) fun hlast => hbad ?_
      rw [List.take_add_one, hs, Option.toList_some]
      intro s hmem
      rcases List.mem_append.mp hmem with hold | hnew
      · exact hearly s hold
      · rw [List.mem_singleton.mp hnew]
        exact hlast
    · exact (ih (Nat.le_of_succ_le hn) hearly).imp fun _ _ hfalse => hfalse.elim

/-- A table can be destroyed exactly if no bucket is empty and no key is without a payload. -/
theorem destroyFrees_iff {k : Nat} (h : m.obj.Sized k) (htidy : m.obj.Tidy) :
    DestroyFrees m ↔ m.obj.Destroyable := by
  have hcap : m.obj.cap.toNat = m.obj.table.val.length := by rw [h.capNat, h.length_eq]
  constructor
  · intro hfrees
    by_contra hbad
    have hexits : (hashDestroy false).wp (fun _ _ => False) (fun e _ => e = .exit 1) False m := by
      unfold hashDestroy
      rw [Prog.wp_bind, wp_object, Prog.wp_bind, hcap]
      apply (destroySlots_exits htidy (Nat.le_refl _) ?_).imp
      · exact fun _ _ hfalse => hfalse.elim
      · rw [List.take_length]
        exact hbad
    exact hexits.not_returns hfrees
  · intro hfull
    unfold DestroyFrees hashDestroy
    rw [Prog.wp_bind, wp_object, Prog.wp_bind, hcap]
    refine destroySlots_frees htidy (Nat.le_refl _) ?_ ?_
    · rw [List.take_length]
      exact hfull
    · intro m₁ hobj hperm
      rw [List.take_length] at hperm
      simp only [memFree, Bool.false_eq_true, if_false, Prog.wp_bind, Prog.wp_modify]
      unfold Hash.owned
      exact (hperm.cons m.obj.table.addr).cons m.obj.self

end

/-! ### `hashRemove` -/

section

variable {m : Memory Hash} {k i : Nat} {s : Slot} {key : CStr}

theorem Hash.owned_withSlot {tab : Hash} (h : tab.table.val[i]? = some s) (t : Slot) :
    (s.owned ++ (tab.withSlot i t).owned).Perm (t.owned ++ tab.owned) := by
  apply List.perm_iff_count.mpr
  intro a
  have hset := slotBlocks_set h t a
  rw [List.count_append, List.count_append, Hash.count_owned, Hash.count_owned]
  show _ + ([tab.self, tab.table.addr].count a + (slotBlocks (tab.table.val.set i t)).count a) = _
  omega

theorem Hash.owned_buried {tab : Hash} {node : Block HashNode}
    (h : tab.table.val[i]? = some (some node)) :
    tab.owned.Perm (Slot.held (some node) ++ (tab.buried i node.addr).owned) := by
  have hperm := Hash.owned_withSlot h (some (tombNode node.addr))
  exact ((List.perm_cons node.addr).mp hperm).symm

/-- The ways through `hashRemove`. -/
theorem hashRemove_cases {Q : HashResult → Memory Hash → Prop} {E : Halt → Memory Hash → Prop}
    {D : Prop} (h : m.obj.Sound k)
    (hit : ∀ i node, m.obj.Ends key i (some node) → matching (some node) key = some node →
      node.val.data ≠ none → ∀ m' : Memory Hash, m'.obj = m.obj.buried i node.addr →
      m'.freed.Perm (Slot.held (some node) ++ m.freed) → Q .HASH_OK m')
    (null : ∀ i node, m.obj.Ends key i (some node) → matching (some node) key = some node →
      node.val.data = none → ∀ m', E (.exit 1) m')
    (miss : ∀ i s, m.obj.Ends key i s → matching s key = none → m.obj.count + 1 < 2 ^ 31 →
      ∀ m' : Memory Hash, m'.obj = m.obj.counted (slotCell s) → m'.freed = m.freed → Q .HASH_NF m')
    (full : ∀ i s, m.obj.Ends key i s → matching s key = none → ¬m.obj.count + 1 < 2 ^ 31 →
      ∀ m', E .fault m') :
    (hashRemove false key).wp Q E D m := by
  obtain ⟨i, s, -, hends, hstop, hfind⟩ := findSlot_ends h.sized h.placed h.live_lt key
  unfold hashRemove
  rw [Prog.wp_bind, hfind]
  by_cases hmatch : slotCell s = .live key
  · obtain ⟨node, rfl⟩ := slotCell_live hmatch
    obtain ⟨kb, hk, -⟩ := key_of_live hmatch
    have hsame := matching_live hmatch
    rw [hmatch, wp_countStop_live, Prog.wp_bind, wp_slotAtInt hstop.slot]
    simp only [hsame]
    rw [Prog.wp_bind]
    cases hd : node.val.data with
    | none =>
      simp only [memFree, Bool.false_eq_true, if_false, Option.map_none, wp_memError]
      exact null i node hends hsame hd _
    | some d =>
      simp only [memFree, hk, Bool.false_eq_true, if_false, Option.map_some, Prog.wp_modify]
      rw [Prog.wp_bind, Prog.wp_modify]
      have hsound : Hash.Sound
          (Memory.obj { m with freed := kb.addr :: d.addr :: m.freed }) k := h
      apply buryNode_wp hsound hstop hmatch
      apply hit i node hends hsame (by simp [hd]) _ rfl
      simp [Slot.held, hk, hd]
  · have hother : ∀ key', slotCell s ≠ .live key' :=
      fun key' he => hmatch (hstop.stops.eq_live he)
    have hnone := matching_free hmatch
    refine wp_countStop h ?_ ?_
    · intro hroom
      rw [Prog.wp_bind, wp_slotAtInt (by rw [Hash.counted_table]; exact hstop.slot)]
      simp only [hnone, Prog.wp_pure]
      exact miss i s hends hnone (hroom hother) _ rfl rfl
    · intro _ hover m'
      exact full i s hends hnone (by omega) m'

theorem Hash.Ends.removable {tab : Hash} (h : tab.Ends key i s)
    (hnode : ∀ node, matching s key = some node → node.val.data ≠ none)
    (hnone : matching s key = none → tab.count + 1 < 2 ^ 31) : tab.Removable key := by
  intro j t hends
  obtain ⟨-, rfl⟩ := h.unique hends
  exact ⟨hnode, hnone⟩

theorem removeFrees_iff (h : m.obj.Sound k) : RemoveFrees m key ↔ m.obj.Removable key := by
  constructor
  · intro hfrees
    by_contra hbad
    have hleaves : (hashRemove false key).wp (fun _ _ => False) (fun _ _ => True) True m := by
      refine hashRemove_cases h ?_ (fun _ _ _ _ _ _ => trivial) ?_ fun _ _ _ _ _ _ => trivial
      · intro i node hends hsame hdata _ _ _
        apply hbad
        apply hends.removable
        · intro node' hsame'
          cases hsame.symm.trans hsame'
          exact hdata
        · intro hnone
          cases hsame.symm.trans hnone
      · intro i s hends hnone hroom _ _ _
        apply hbad
        apply hends.removable
        · intro node hsame
          cases hnone.symm.trans hsame
        · exact fun _ => hroom
    exact hleaves.not_returns hfrees
  · intro hok
    refine hashRemove_cases h ?_ ?_ ?_ ?_
    · intro i node hends hsame _ m' hobj hperm
      refine ⟨i, some node, hends, ?_, ?_⟩
      · rw [hsame]
        exact hperm
      · rw [hsame, hobj]
        exact Hash.owned_buried hends.slot
    · intro i node hends hsame hdata _
      exact (hok i _ hends).1 node hsame hdata
    · intro i s hends hnone _ m' hobj hfreed
      refine ⟨i, s, hends, ?_, ?_⟩
      · rw [hnone, hfreed]
        exact List.Perm.refl _
      · rw [hnone, hobj]
        have hsame : (m.obj.counted (slotCell s)).owned = m.obj.owned := by
          cases slotCell s <;> rfl
        rw [hsame]
        exact List.Perm.refl _
    · intro i s hends hnone hfull _
      exact hfull ((hok i s hends).2 hnone)

end

/-! ### Runs -/

/-- What holds between the calls of a run from `hashCreate` on. -/
structure InUse (m₀ m : Memory Hash) : Prop where
  sound : ∃ k, m.obj.Sound k
  tidy : m.obj.Tidy
  ledger : Ledger m₀ m

theorem Ledger.refl (m : Memory Hash) : Ledger m m := (Counts.refl m).ledger

theorem hashCreate_tidy {α : Type} (m : Memory α) : (hashCreate m).obj.Tidy := by
  intro node hmem
  have hnone := List.eq_of_mem_replicate (show some node ∈ List.replicate 8 none from hmem)
  cases hnone

theorem reached_inUse {α : Type} {m₀ : Memory α} {ops : List HashOp} {m : Memory Hash}
    (h : Reached false ops (hashCreate m₀) m) : InUse (hashCreate m₀) m := by
  apply h.invariant (InUse (hashCreate m₀))
  · intro op r m₁ m₂ hin hrun
    obtain ⟨k, hk⟩ := hin.sound
    have hstep := (runOp_wp hk).1 r m₂ hrun
    obtain ⟨k', hk', -⟩ := hstep.sound hk
    exact ⟨⟨k', hk'⟩, hstep.tidy hin.tidy, hin.ledger.trans ((runOp_ledger op).1 r m₂ hrun)⟩
  · exact ⟨⟨3, hashCreate_sound m₀⟩, hashCreate_tidy m₀, Ledger.refl _⟩

/-- From `hashCreate` on no block is owned twice, or owned and freed, or freed twice. -/
theorem Ledger.nodup {α : Type} {m₀ : Memory α} {m : Memory Hash} (h : Ledger (hashCreate m₀) m) :
    ∃ earlier, m.freed = earlier ++ m₀.freed ∧ (m.obj.owned ++ earlier).Nodup := by
  obtain ⟨earlier, heq⟩ := h.freed
  refine ⟨earlier, heq.symm, List.nodup_iff_count.mpr ?_⟩
  intro a
  have honce := h.once a
  have hblocks : (hashCreate m₀).blocks = m₀.blocks + 2 := rfl
  have hempty : (hashCreate m₀).obj.owned = [m₀.blocks, m₀.blocks + 1] := rfl
  rw [← heq, List.count_append, hempty, hblocks] at honce
  rw [List.count_append]
  simp only [List.count_cons, List.count_nil, beq_iff_eq] at honce
  split_ifs at honce <;> omega

/-- In every table of a run `hashRemove` of a key frees what it should exactly if the key it finds
has a payload, and `hashDestroy` exactly if all keys have one and no bucket is empty. Whatever is
freed belonged to the table and had not been freed before. -/
theorem hash_frees_iff {α : Type} {m₀ : Memory α} {ops : List HashOp} {m : Memory Hash}
    (h : Reached false ops (hashCreate m₀) m) :
    (∃ earlier, m.freed = earlier ++ m₀.freed ∧ (m.obj.owned ++ earlier).Nodup) ∧
      (∀ key, RemoveFrees m key ↔ m.obj.Removable key) ∧
      (DestroyFrees m ↔ m.obj.Destroyable) := by
  obtain ⟨⟨k, hk⟩, htidy, hledger⟩ := reached_inUse h
  exact ⟨hledger.nodup, fun _ => removeFrees_iff hk, destroyFrees_iff hk.sized htidy⟩

/-- A key with a payload is removed. -/
theorem hashRemove_frees_payload :
    ∃ m, Reached false [.insert keyA (some [7]) 1] (hashCreate Memory.boot) m ∧
      RemoveFrees m keyA := by
  have hreached : Reached false [.insert keyA (some [7]) 1] (hashCreate Memory.boot) _ :=
    ⟨_, List.prefix_refl _, [(.HASH_OK, none)], 4, rfl⟩
  refine ⟨_, hreached, ((hash_frees_iff hreached).2.1 keyA).mpr ?_⟩
  intro i s hends
  obtain ⟨-, rfl⟩ := hends.unique (j := 4) (t := some ⟨2, ⟨some ⟨3, keyA⟩, some ⟨4, [7]⟩, 1⟩⟩)
    ⟨0, ⟨rfl, fun _ hlt => absurd hlt (Nat.not_lt_zero _)⟩, rfl, rfl⟩
  constructor
  · intro node hsame
    cases hsame
    simp
  · intro hnone
    cases hnone

/-- A new table cannot be destroyed, and a key without a payload cannot be removed. -/
theorem hash_frees_null :
    (∃ m', (hashDestroy false).Runs (hashCreate Memory.boot) (.stop (.exit 1) m')) ∧
      ∃ m m', Reached false [.insert keyA none 0] (hashCreate Memory.boot) m ∧
        (hashRemove false keyA).Runs m (.stop (.exit 1) m') := by
  refine ⟨⟨_, 1, rfl⟩, _, _, ⟨_, List.prefix_refl _, [(.HASH_OK, none)], 4, rfl⟩, 3, rfl⟩

end Rdpgen
