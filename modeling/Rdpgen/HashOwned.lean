import Rdpgen.HashSound

namespace Rdpgen

/-- The blocks of the key and the payload of a node. -/
def Slot.held : Slot → List Nat
  | none => []
  | some node => (node.val.key.map Block.addr).toList ++ (node.val.data.map Block.addr).toList

def Slot.owned : Slot → List Nat
  | none => []
  | some node => node.addr :: Slot.held (some node)

/-- The blocks that the table refers to. -/
def Hash.owned (tab : Hash) : List Nat :=
  tab.self :: tab.table.addr :: tab.table.val.flatMap Slot.owned

/-- A block is owned or freed at the end as often as at the beginning, or it is
one of the new blocks and owned or freed once. -/
structure Ledger (m m' : Memory Hash) : Prop where
  blocks_le : m.blocks ≤ m'.blocks
  freed : m.freed <:+ m'.freed
  once : ∀ a, m'.obj.owned.count a + m'.freed.count a ≤
    m.obj.owned.count a + m.freed.count a + if m.blocks ≤ a ∧ a < m'.blocks then 1 else 0

/-- Nothing but counters and messages has changed. -/
structure Counts (m m' : Memory Hash) : Prop where
  blocks : m'.blocks = m.blocks
  freed : m'.freed = m.freed
  self : m'.obj.self = m.obj.self
  table : m'.obj.table = m.obj.table

section

variable {m m₁ m₂ m' : Memory Hash}

theorem Counts.refl (m : Memory Hash) : Counts m m := ⟨rfl, rfl, rfl, rfl⟩

theorem Counts.trans (h : Counts m m₁) (h' : Counts m₁ m₂) : Counts m m₂ :=
  ⟨h'.blocks.trans h.blocks, h'.freed.trans h.freed, h'.self.trans h.self, h'.table.trans h.table⟩

theorem Counts.owned (h : Counts m m') : m'.obj.owned = m.obj.owned := by
  unfold Hash.owned
  rw [h.self, h.table]

theorem Ledger.trans (h : Ledger m m₁) (h' : Ledger m₁ m₂) : Ledger m m₂ := by
  have hle := h.blocks_le
  have hle' := h'.blocks_le
  refine ⟨Nat.le_trans hle hle', h.freed.trans h'.freed, ?_⟩
  intro a
  have honce := h.once a
  have honce' := h'.once a
  split at honce <;> split at honce' <;> split <;> omega

theorem Counts.ledger (h : Counts m m') : Ledger m m' := by
  refine ⟨Nat.le_of_eq h.blocks.symm, h.freed.symm ▸ List.suffix_refl _, ?_⟩
  intro a
  rw [h.owned, h.freed]
  exact Nat.le_add_right _ _

end

/-! ### `find_slot` changes the counters only -/

def OnlyCounts {β : Type} (p : HashProg β) : Prop :=
  ∀ m, p.wp (fun _ m' => Counts m m') (fun _ _ => True) True m

section

variable {α β : Type}

theorem onlyCounts_act {f : Memory Hash → α × Memory Hash} (h : ∀ m, Counts m (f m).2) :
    OnlyCounts (Prog.act f : HashProg α) :=
  fun m => Prog.wp_act.mpr (h m)

theorem onlyCounts_pure (a : α) : OnlyCounts (pure a : HashProg α) := onlyCounts_act Counts.refl

theorem onlyCounts_object : OnlyCounts (object : HashProg Hash) := onlyCounts_act Counts.refl

theorem onlyCounts_fault : OnlyCounts (fault : HashProg α) := fun _ => wp_fault.mpr trivial

theorem OnlyCounts.bind {p : HashProg α} {f : α → HashProg β} (hp : OnlyCounts p)
    (hf : ∀ a, OnlyCounts (f a)) : OnlyCounts (p >>= f) := by
  intro m
  rw [Prog.wp_bind]
  apply (hp m).imp
  intro a m₁ h₁
  apply (hf a m₁).imp
  intro b m₂ h₂
  exact h₁.trans h₂

theorem OnlyCounts.ite {cond : Prop} [Decidable cond] {p q : HashProg α} (hp : OnlyCounts p)
    (hq : OnlyCounts q) : OnlyCounts (if cond then p else q) := by
  split
  · exact hp
  · exact hq

theorem OnlyCounts.whileDo {cond : β → Memory Hash → Bool} {body : β → HashProg β}
    (hbody : ∀ b, OnlyCounts (body b)) (b : β) : OnlyCounts (Prog.whileDo cond body b) := by
  intro m
  apply Prog.wp_whileDo_of_invariant fun _ m' => Counts m m'
  · intro b m₁ h₁ _
    apply (hbody b m₁).imp
    intro b' m₂ h₂
    exact h₁.trans h₂
  · exact fun _ _ h _ => h
  · exact Counts.refl m

end

theorem slotAt_onlyCounts (i : Nat) : OnlyCounts (slotAt i) := by
  refine onlyCounts_object.bind fun tab => ?_
  split
  · exact onlyCounts_pure _
  · exact onlyCounts_fault

theorem addCount_onlyCounts (n : Int) : OnlyCounts (addCount n) := by
  intro m
  rw [wp_addCount]
  split
  · exact ⟨rfl, rfl, rfl, rfl⟩
  · trivial

theorem addTombstones_onlyCounts (n : Int) : OnlyCounts (addTombstones n) := by
  intro m
  rw [wp_addTombstones]
  split
  · exact ⟨rfl, rfl, rfl, rfl⟩
  · trivial

theorem probePass_onlyCounts (key : CStr) (p : Probe) : OnlyCounts (probePass key p) := by
  refine (slotAt_onlyCounts _).bind fun s => ?_
  cases s with
  | none => exact (addCount_onlyCounts 1).bind fun _ => onlyCounts_pure _
  | some node =>
    simp only
    split
    · exact (addTombstones_onlyCounts _).bind fun _ => (addCount_onlyCounts 1).bind fun _ =>
        onlyCounts_pure _
    · exact .ite (onlyCounts_pure _) (onlyCounts_object.bind fun _ => onlyCounts_pure _)

theorem findSlot_onlyCounts (key : CStr) : OnlyCounts (findSlot key) := by
  have hround : ∀ p, OnlyCounts (probeRounds key p) := fun p =>
    .bind (.whileDo (probePass_onlyCounts key) _) fun _ => onlyCounts_pure _
  refine onlyCounts_object.bind fun tab => (slotAt_onlyCounts _).bind fun s => ?_
  cases s with
  | none => exact (addCount_onlyCounts 1).bind fun _ => onlyCounts_pure _
  | some node => exact .bind (.whileDo hround _) fun _ => onlyCounts_pure _

/-! ### The ledger of each operation -/

/-- The blocks of all slots. -/
def slotBlocks (table : List Slot) : List Nat := table.flatMap Slot.owned

section

variable {tab : Hash} {table : List Slot} {i : Nat} {s old : Slot}

theorem Hash.count_owned (tab : Hash) (a : Nat) :
    tab.owned.count a = [tab.self, tab.table.addr].count a + (slotBlocks tab.table.val).count a := by
  rw [← List.count_append]
  rfl

theorem slotBlocks_set (h : table[i]? = some old) (s : Slot) (a : Nat) :
    (slotBlocks (table.set i s)).count a + old.owned.count a =
      s.owned.count a + (slotBlocks table).count a := by
  obtain ⟨hi, he⟩ := List.getElem?_eq_some_iff.mp h
  have hold := ((List.getElem_cons_eraseIdx_perm hi).flatMap_right Slot.owned).count_eq a
  have hnew := ((List.set_perm_cons_eraseIdx hi s).flatMap_right Slot.owned).count_eq a
  rw [he] at hold
  unfold slotBlocks
  rw [List.flatMap_cons, List.count_append] at hold hnew
  omega

theorem slotBlocks_take_succ (h : table[i]? = some s) (a : Nat) :
    (slotBlocks (table.take (i + 1))).count a =
      (slotBlocks (table.take i)).count a + s.owned.count a := by
  unfold slotBlocks
  rw [List.take_add_one, h, Option.toList_some, List.flatMap_append, List.count_append,
    List.flatMap_singleton]

theorem slotBlocks_take_le (table : List Slot) (n a : Nat) :
    (slotBlocks (table.take n)).count a ≤ (slotBlocks table).count a := by
  unfold slotBlocks
  conv => rhs; rw [← List.take_append_drop n table]
  rw [List.flatMap_append, List.count_append]
  exact Nat.le_add_right _ _

end

section

variable {m : Memory Hash} {E : Halt → Memory Hash → Prop} {D : Prop}

theorem wp_setSlot_owned {i : Nat} {s : Slot} {Q : Unit → Memory Hash → Prop}
    (ok : ∀ old, m.obj.table.val[i]? = some old →
      Q () { m with obj := { m.obj with
        table := { m.obj.table with val := m.obj.table.val.set i s } } })
    (out : E .fault m) : (setSlot i s).wp Q E D m := by
  by_cases hi : i < m.obj.table.val.length
  · rw [wp_setSlot hi]
    exact ok _ (List.getElem?_eq_getElem hi)
  · unfold setSlot
    simp only [Prog.wp_bind, wp_object, hi, if_false, wp_fault]
    exact out

/-- The node that is moved takes the place of what was in its slot. -/
structure Moving (oldtab : List Slot) (n : Nat) (m m' : Memory Hash) : Prop where
  blocks : m'.blocks = m.blocks
  freed : m'.freed = m.freed
  self : m'.obj.self = m.obj.self
  addr : m'.obj.table.addr = m.obj.table.addr
  once : ∀ a, (slotBlocks m'.obj.table.val).count a ≤
    (slotBlocks m.obj.table.val).count a + (slotBlocks (oldtab.take n)).count a

theorem moveNode_moving {oldtab : List Slot} {n : Nat} {m₀ : Memory Hash}
    (h : Moving oldtab n m₀ m) :
    (moveNode oldtab n).wp (fun _ m' => Moving oldtab (n + 1) m₀ m') (fun _ _ => True) True m := by
  unfold moveNode
  cases hslot : oldtab[n]? with
  | none =>
    rw [wp_fault]
    trivial
  | some s =>
    have htake := slotBlocks_take_succ hslot
    have hskip : Moving oldtab (n + 1) m₀ m := by
      refine ⟨h.blocks, h.freed, h.self, h.addr, ?_⟩
      intro a
      have honce := h.once a
      rw [htake]
      omega
    cases s with
    | none => exact Prog.wp_pure.mpr hskip
    | some node =>
      simp only
      split
      · exact Prog.wp_pure.mpr hskip
      · next kb hk =>
        rw [Prog.wp_bind]
        apply (findSlot_onlyCounts kb.val m).imp
        intro slot m₁ hcounts
        unfold setSlotInt
        split
        · refine wp_setSlot_owned ?_ trivial
          intro old hold
          have hset := slotBlocks_set hold (some node)
          refine ⟨hcounts.blocks.trans h.blocks, hcounts.freed.trans h.freed,
            hcounts.self.trans h.self, (congrArg Block.addr hcounts.table).trans h.addr, ?_⟩
          intro a
          have honce := h.once a
          have hplace := hset a
          rw [hcounts.table] at hplace
          rw [htake]
          show (slotBlocks (m₁.obj.table.val.set slot.toNat (some node))).count a ≤ _
          rw [hcounts.table]
          omega
        · rw [wp_fault]
          trivial

theorem moveNodes_moving {oldtab : List Slot} (n : Nat) :
    (moveNodes oldtab n).wp (fun _ m' => Moving oldtab n m m') (fun _ _ => True) True m := by
  induction n with
  | zero =>
    unfold moveNodes
    exact Prog.wp_pure.mpr ⟨rfl, rfl, rfl, rfl, fun _ => Nat.le_add_right _ _⟩
  | succ n ih =>
    unfold moveNodes
    rw [Prog.wp_bind]
    apply ih.imp
    intro _ m₁ h₁
    exact moveNode_moving h₁

/-- A new block of the table is all that `freshTable` gives it. -/
theorem freshTable_owned {Q : Unit → Memory Hash → Prop}
    (ok : ∀ m' : Memory Hash, m'.blocks = m.blocks + 1 → m'.freed = m.freed →
      m'.obj.self = m.obj.self → m'.obj.table.addr = m.blocks →
      slotBlocks m'.obj.table.val = [] → Q () m')
    (refused : ∀ m', E (.exit 1) m') : freshTable.wp Q E D m := by
  unfold freshTable memAlloc
  simp only [Prog.wp_bind, wp_object, wp_setObject]
  split
  · rw [wp_memError]
    exact refused _
  · simp only [wp_newBlock, wp_object, wp_setObject]
    refine ok _ rfl rfl rfl rfl ?_
    unfold slotBlocks
    simp [Slot.owned]

theorem rehashTable_ledger :
    (rehashTable false).wp (fun _ m' => Ledger m m') (fun _ _ => True) True m := by
  unfold rehashTable
  rw [Prog.wp_bind, wp_object]
  split
  · rw [Prog.wp_bind]
    refine freshTable_owned ?_ fun _ => trivial
    intro m₁ hblocks hfreed hself haddr hempty
    rw [Prog.wp_bind]
    apply (moveNodes_moving _).imp
    intro _ m₂ hmoved
    unfold memFree
    simp only [Bool.false_eq_true, if_false, Prog.wp_modify]
    refine ⟨?_, ?_, ?_⟩
    · show m.blocks ≤ m₂.blocks
      rw [hmoved.blocks, hblocks]
      exact Nat.le_succ _
    · show m.freed <:+ m.obj.table.addr :: m₂.freed
      rw [hmoved.freed, hfreed]
      exact List.suffix_cons _ _
    · intro a
      have honce := hmoved.once a
      have htake := slotBlocks_take_le m.obj.table.val m.obj.cap.toNat a
      show m₂.obj.owned.count a + (m.obj.table.addr :: m₂.freed).count a ≤
        _ + if _ ∧ a < m₂.blocks then 1 else 0
      rw [Hash.count_owned, Hash.count_owned, hmoved.self, hmoved.addr, hmoved.freed, hmoved.blocks,
        hblocks, hfreed, hself, haddr]
      rw [hempty, List.count_nil] at honce
      simp only [List.count_cons, List.count_nil, beq_iff_eq]
      split_ifs <;> omega
  · exact Prog.wp_pure.mpr (Counts.refl m).ledger

theorem hashFind_onlyCounts (key : CStr) (size : Nat) : OnlyCounts (hashFind key size) := by
  have hmemcpy : ∀ bytes : Bytes, OnlyCounts (memcpyFrom bytes size : HashProg Bytes) := fun _ =>
    .ite (onlyCounts_pure _) onlyCounts_fault
  have hslot : ∀ slot, OnlyCounts (slotAtInt slot) := fun _ =>
    .ite (slotAt_onlyCounts _) onlyCounts_fault
  refine (findSlot_onlyCounts key).bind fun slot => (hslot slot).bind fun s => ?_
  split
  · next node _ =>
    have hcopy : OnlyCounts (copyData node.val size >>= fun copy =>
        pure (HashResult.HASH_OK, some copy)) := by
      refine .bind ?_ fun _ => onlyCounts_pure _
      unfold copyData
      split
      · exact hmemcpy _
      · exact hmemcpy _
    refine .ite (.bind (onlyCounts_act ?_) fun _ => hcopy) hcopy
    exact fun _ => ⟨rfl, rfl, rfl, rfl⟩
  · exact onlyCounts_pure _

theorem slotAtInt_owned {slot : Int} {Q : Slot → Memory Hash → Prop}
    (ok : ∀ s, 0 ≤ slot → m.obj.table.val[slot.toNat]? = some s → Q s m) (out : E .fault m) :
    (slotAtInt slot).wp Q E D m := by
  unfold slotAtInt
  split
  · next hpos =>
    cases hs : m.obj.table.val[slot.toNat]? with
    | none =>
      unfold slotAt
      simp only [Prog.wp_bind, wp_object, hs, wp_fault]
      exact out
    | some s =>
      rw [wp_slotAt hs]
      exact ok s hpos hs
  · exact wp_fault.mpr out

theorem matching_some {s : Slot} {key : CStr} {node : Block HashNode}
    (h : matching s key = some node) : s = some node ∧ ∃ kb, node.val.key = some kb ∧ kb.val = key := by
  unfold matching at h
  obtain ⟨hs, hkey⟩ := Option.filter_eq_some_iff.mp h
  refine ⟨hs, ?_⟩
  cases hk : node.val.key with
  | none => simp [hk] at hkey
  | some kb => exact ⟨kb, rfl, by simpa [hk] using hkey⟩

/-- Key and payload go from the table to the list of the freed blocks. -/
theorem hashRemove_ledger (key : CStr) :
    (hashRemove false key).wp (fun _ m' => Ledger m m') (fun _ _ => True) True m := by
  unfold hashRemove
  rw [Prog.wp_bind]
  apply (findSlot_onlyCounts key m).imp
  intro slot m₁ hcounts
  rw [Prog.wp_bind]
  refine slotAtInt_owned ?_ trivial
  intro s hpos hs
  split
  · next node hmatch =>
    obtain ⟨rfl, kb, hk, -⟩ := matching_some hmatch
    have hset := slotBlocks_set hs (some { node with val := { key := none, data := none, size := 0 } })
    obtain ⟨hi, -⟩ := List.getElem?_eq_some_iff.mp hs
    rw [Prog.wp_bind]
    cases hd : node.val.data with
    | none =>
      simp only [memFree, Bool.false_eq_true, if_false, Option.map_none, wp_memError]
    | some d =>
      simp only [memFree, hk, Bool.false_eq_true, if_false, Option.map_some, Prog.wp_modify]
      rw [Prog.wp_bind, Prog.wp_modify, Prog.wp_bind]
      unfold setSlotInt
      rw [if_pos hpos, wp_setSlot (by exact hi)]
      have htail : OnlyCounts (addCount (-1) >>= fun _ => addTombstones 1 >>= fun _ =>
          pure HashResult.HASH_OK) :=
        (addCount_onlyCounts _).bind fun _ => (addTombstones_onlyCounts _).bind fun _ =>
          onlyCounts_pure _
      apply (htail _).imp
      intro _ m' hm'
      apply hcounts.ledger.trans
      apply Ledger.trans ?_ hm'.ledger
      refine ⟨Nat.le_refl _, ⟨[kb.addr, d.addr], rfl⟩, ?_⟩
      intro a
      have hplace := hset a
      rw [Hash.count_owned, Hash.count_owned]
      show [m₁.obj.self, m₁.obj.table.addr].count a + (slotBlocks (m₁.obj.table.val.set _ _)).count a
        + (kb.addr :: d.addr :: m₁.freed).count a ≤ _
      simp only [Slot.owned, Slot.held, hk, hd, Option.map_some, Option.map_none, Option.toList_some,
        Option.toList_none, List.singleton_append, List.append_nil, List.count_cons, List.count_nil,
        beq_iff_eq] at hplace ⊢
      omega
  · exact Prog.wp_pure.mpr hcounts.ledger

/-- The payload takes at most one new block. -/
theorem dupData_owned {data : Option Bytes} {size : Nat}
    {Q : Option (Block Bytes) × Nat → Memory Hash → Prop}
    (ok : ∀ d (m' : Memory Hash), m'.obj = m.obj → m'.freed = m.freed → m.blocks ≤ m'.blocks →
      (∀ a, (d.1.map Block.addr).toList.count a ≤
        if m.blocks ≤ a ∧ a < m'.blocks then 1 else 0) → Q d m')
    (leave : ∀ e m', E e m') : (dupData data size).wp Q E D m := by
  have hnone : Q (none, 0) m := ok _ m rfl rfl (Nat.le_refl _) fun a => Nat.zero_le _
  unfold dupData
  cases data with
  | none => exact Prog.wp_pure.mpr hnone
  | some bytes =>
    simp only
    split
    · unfold memAlloc memcpyFrom
      rw [Prog.wp_bind]
      split
      · exact wp_memError.mpr (leave _ _)
      · rw [wp_newBlock, Prog.wp_bind]
        split
        · rw [Prog.wp_pure, Prog.wp_pure]
          refine ok _ _ rfl rfl (Nat.le_succ _) ?_
          intro a
          simp only [Option.map_some, Option.toList_some, List.count_singleton, beq_iff_eq]
          split_ifs <;> omega
        · exact wp_fault.mpr (leave _ _)
    · exact Prog.wp_pure.mpr hnone

/-- The new node in place of a slot without a key. -/
theorem storeNode_ledger {m₀ : Memory Hash} {a i : Nat} {s : Slot} {key : CStr}
    {data : Option Bytes} {size : Nat} {slot : Int} (hi : m₀.obj.table.val[i]? = some s)
    (hslot : slot = i) (hobj : m.obj = m₀.obj) (hfreed : m.freed = m₀.freed)
    (hblocks : m₀.blocks ≤ m.blocks)
    (hnode : ∀ x, [a].count x ≤ s.owned.count x + if m₀.blocks ≤ x ∧ x < m.blocks then 1 else 0) :
    (do
      let k ← memDupStr key
      let d ← dupData data size
      setSlotInt slot (some ⟨a, { key := some k, data := d.1, size := d.2 }⟩)
      pure HashResult.HASH_OK).wp (fun _ m' => Ledger m₀ m') (fun _ _ => True) True m := by
  rw [Prog.wp_bind, wp_memDupStr, Prog.wp_bind]
  refine dupData_owned ?_ fun _ _ => trivial
  intro d m' hobj' hfreed' hblocks' hpayload
  have hset := slotBlocks_set hi (some ⟨a, { key := some ⟨m.blocks, key⟩, data := d.1, size := d.2 }⟩)
  obtain ⟨hlt, -⟩ := List.getElem?_eq_some_iff.mp hi
  have htab : m'.obj = m₀.obj := hobj'.trans hobj
  unfold setSlotInt
  rw [Prog.wp_bind, if_pos (by omega), hslot, Int.toNat_natCast, wp_setSlot (by rw [htab]; exact hlt),
    Prog.wp_pure]
  simp only at hblocks' hpayload hfreed'
  refine ⟨?_, ?_, ?_⟩
  · show m₀.blocks ≤ m'.blocks
    omega
  · show m₀.freed <:+ m'.freed
    simp only [hfreed', hfreed, List.suffix_refl]
  · intro x
    have hplace := hset x
    have hx := hnode x
    have hpx := hpayload x
    rw [Hash.count_owned, Hash.count_owned]
    show [m'.obj.self, m'.obj.table.addr].count x + (slotBlocks (m'.obj.table.val.set i _)).count x
      + m'.freed.count x ≤ _ + if _ ∧ x < m'.blocks then 1 else 0
    rw [htab, hfreed', hfreed]
    simp only [Slot.owned, Slot.held, Option.map_some, Option.toList_some, List.singleton_append,
      List.count_cons, List.count_nil, beq_iff_eq] at hplace hx ⊢
    split_ifs at * <;> omega

theorem hashInsert_ledger (key : CStr) (data : Option Bytes) (size : Nat) :
    (hashInsert false key data size).wp (fun _ m' => Ledger m m') (fun _ _ => True) True m := by
  unfold hashInsert
  rw [Prog.wp_bind]
  apply rehashTable_ledger.imp
  intro _ m₁ hrehash
  rw [Prog.wp_bind]
  apply (findSlot_onlyCounts key m₁).imp
  intro slot m₂ hcounts
  have hbefore := hrehash.trans hcounts.ledger
  split
  · exact Prog.wp_pure.mpr hbefore
  · rw [Prog.wp_bind]
    refine slotAtInt_owned ?_ trivial
    intro s hpos hs
    have hslot : slot = slot.toNat := (Int.toNat_of_nonneg hpos).symm
    split
    · exact Prog.wp_pure.mpr hbefore
    · rw [Prog.wp_bind]
      unfold nodeAt
      cases s with
      | none =>
        simp only
        rw [wp_memAlloc (by decide)]
        refine Prog.wp.imp (storeNode_ledger hs hslot rfl rfl (Nat.le_succ _) ?_) fun _ _ h =>
          hbefore.trans h
        intro x
        simp only [List.count_singleton, beq_iff_eq]
        split_ifs <;> omega
      | some node =>
        simp only
        rw [Prog.wp_pure]
        refine Prog.wp.imp (storeNode_ledger hs hslot rfl rfl (Nat.le_refl _) ?_) fun _ _ h =>
          hbefore.trans h
        intro x
        simp only [Slot.owned, List.count_cons, List.count_nil]
        omega

theorem runOp_ledger (op : HashOp) :
    (runOp false op).wp (fun _ m' => Ledger m m') (fun _ _ => True) True m := by
  cases op with
  | insert key data size =>
    unfold runOp
    rw [Prog.wp_bind]
    apply (hashInsert_ledger key data size).imp
    exact fun _ _ h => Prog.wp_pure.mpr h
  | find key size => exact (hashFind_onlyCounts key size m).imp fun _ _ h => h.ledger
  | remove key =>
    unfold runOp
    rw [Prog.wp_bind]
    apply (hashRemove_ledger key).imp
    exact fun _ _ h => Prog.wp_pure.mpr h

end

end Rdpgen
