import Rdpgen.HashOwned
import Mathlib.Data.Multiset.AddSub

namespace Rdpgen

/-- A key with the payload of its node, `none` for the null pointer. -/
abbrev HashEntry := CStr × Option Bytes

/-- The entries that a run has put in and not taken out again, with one key any number of times. -/
abbrev Bag := Multiset HashEntry

def Slot.entry (s : Slot) : Option HashEntry :=
  s.bind fun node => node.val.key.map fun k => (k.val, node.val.data.map Block.val)

/-- The entries of the table in the order of their slots. -/
def Hash.entryList (tab : Hash) : List HashEntry := tab.table.val.filterMap Slot.entry

def Hash.entries (tab : Hash) : Bag := tab.entryList

/-- The payload that `hashInsert` copies. -/
def stored (data : Option Bytes) (size : Nat) : Option Bytes :=
  if size = 0 then none else data.map (·.take size)

/-! ### The calls on a bag -/

/-- The answers that a bag allows. A miss is always one of them. -/
inductive Bag.Step : Bag → HashOp → HashAnswer → Bag → Prop where
  | inserted (b : Bag) (key : CStr) (data : Option Bytes) (size : Nat) :
      Step b (.insert key data size) (.HASH_OK, none) ((key, stored data size) ::ₘ b)
  | duplicate {b : Bag} {key : CStr} (v data : Option Bytes) (size : Nat) (h : (key, v) ∈ b) :
      Step b (.insert key data size) (.HASH_DUP, none) b
  | found {b : Bag} {key : CStr} {v : Option Bytes} {size : Nat} (h : (key, v) ∈ b)
      (hsize : size ≤ (v.getD []).length) :
      Step b (.find key size) (.HASH_OK, some ((v.getD []).take size)) b
  | notFound (b : Bag) (key : CStr) (size : Nat) : Step b (.find key size) (.HASH_NF, none) b
  | removed {b : Bag} {key : CStr} {v : Option Bytes} (h : (key, v) ∈ b) :
      Step b (.remove key) (.HASH_OK, none) (b.erase (key, v))
  | notRemoved (b : Bag) (key : CStr) : Step b (.remove key) (.HASH_NF, none) b

def Bag.Runs (b : Bag) : List HashOp → List HashAnswer → Bag → Prop
  | [], as, b' => as = [] ∧ b' = b
  | op :: ops, as, b' => ∃ a b₁ rest, as = a :: rest ∧ Bag.Step b op a b₁ ∧ Bag.Runs b₁ ops rest b'

def Bag.copies (b : Bag) (key : CStr) : Nat := b.countP fun e => e.1 = key

def HashOp.insertsKey (key : CStr) : HashOp → Bool
  | .insert k _ _ => k = key
  | _ => false

def HashOp.removesKey (key : CStr) : HashOp → Bool
  | .remove k => k = key
  | _ => false

/-- The calls of one kind that were answered with `HASH_OK`. -/
def succeeded (kind : HashOp → Bool) (ops : List HashOp) (as : List HashAnswer) : Nat :=
  (ops.zip as).countP fun call => kind call.1 && call.2.1 == .HASH_OK

section

variable {b b' c : Bag} {key : CStr} {op : HashOp} {a : HashAnswer}

/-- A larger bag allows the same answers. -/
theorem Bag.Step.mono (h : Bag.Step b op a b') (hle : b ≤ c) : ∃ c', Bag.Step c op a c' ∧ b' ≤ c' := by
  cases h with
  | inserted key data size => exact ⟨_, .inserted c key data size, Multiset.cons_le_cons _ hle⟩
  | duplicate v data size hmem => exact ⟨c, .duplicate v data size (Multiset.mem_of_le hle hmem), hle⟩
  | found hmem hsize => exact ⟨c, .found (Multiset.mem_of_le hle hmem) hsize, hle⟩
  | notFound key size => exact ⟨c, .notFound c key size, hle⟩
  | removed hmem =>
    exact ⟨_, .removed (Multiset.mem_of_le hle hmem), Multiset.erase_le_erase _ hle⟩
  | notRemoved key => exact ⟨c, .notRemoved c key, hle⟩

theorem Bag.copies_cons (e : HashEntry) (b : Bag) :
    Bag.copies (e ::ₘ b) key = b.copies key + if e.1 = key then 1 else 0 :=
  Multiset.countP_cons _ e b

theorem Bag.copies_erase {e : HashEntry} (h : e ∈ b) :
    Bag.copies (b.erase e) key + (if e.1 = key then 1 else 0) = b.copies key := by
  rw [← Bag.copies_cons, Multiset.cons_erase h]

/-- A call that succeeds changes the number of copies of its key by one. -/
theorem Bag.Step.copies (h : Bag.Step b op a b') :
    b'.copies key + succeeded (HashOp.removesKey key) [op] [a] =
      b.copies key + succeeded (HashOp.insertsKey key) [op] [a] := by
  cases h with
  | inserted key' data size =>
    rw [Bag.copies_cons]
    simp [succeeded, HashOp.insertsKey, HashOp.removesKey, List.countP_cons]
  | removed hmem =>
    have herase : Bag.copies (b.erase _) key + _ = b.copies key := Bag.copies_erase hmem
    simp only [succeeded, HashOp.insertsKey, HashOp.removesKey, List.zip_cons_cons, List.zip_nil_right,
      List.countP_cons, List.countP_nil]
    simpa using herase
  | duplicate v data size hmem => simp [succeeded, HashOp.removesKey]
  | found => rfl
  | notFound => rfl
  | notRemoved key' => simp [succeeded, HashOp.insertsKey]

theorem succeeded_cons (kind : HashOp → Bool) (ops : List HashOp) (as : List HashAnswer) :
    succeeded kind (op :: ops) (a :: as) = succeeded kind [op] [a] + succeeded kind ops as := by
  unfold succeeded
  rw [List.zip_cons_cons, ← List.singleton_append, List.countP_append]
  rfl

theorem Bag.Runs.copies {ops : List HashOp} {as : List HashAnswer} (h : Bag.Runs b ops as b') :
    b'.copies key + succeeded (HashOp.removesKey key) ops as =
      b.copies key + succeeded (HashOp.insertsKey key) ops as := by
  induction ops generalizing b as with
  | nil =>
    obtain ⟨rfl, rfl⟩ := h
    rfl
  | cons op ops ih =>
    obtain ⟨a, b₁, rest, rfl, hstep, hruns⟩ := h
    have hhere : Bag.copies b₁ key + _ = b.copies key + _ := hstep.copies
    have hlater := ih hruns
    rw [succeeded_cons (HashOp.removesKey key), succeeded_cons (HashOp.insertsKey key)]
    omega

end

/-! ### The entries of a table -/

def slotEntries (table : List Slot) : Bag := table.filterMap Slot.entry

section

variable {table : List Slot} {i : Nat} {s old : Slot}

theorem slotEntries_cons (s : Slot) (table : List Slot) :
    slotEntries (s :: table) = (s.entry.toList : Bag) + slotEntries table := by
  unfold slotEntries
  rw [Multiset.coe_add]
  cases hs : s.entry <;> simp [hs]

theorem slotEntries_set (h : table[i]? = some old) (s : Slot) :
    slotEntries (table.set i s) + (old.entry.toList : Bag) =
      (s.entry.toList : Bag) + slotEntries table := by
  obtain ⟨hi, he⟩ := List.getElem?_eq_some_iff.mp h
  have hold : slotEntries table = slotEntries (old :: table.eraseIdx i) := by
    rw [← he]
    exact Multiset.coe_eq_coe.mpr ((List.getElem_cons_eraseIdx_perm hi).filterMap _).symm
  have hnew : slotEntries (table.set i s) = slotEntries (s :: table.eraseIdx i) :=
    Multiset.coe_eq_coe.mpr ((List.set_perm_cons_eraseIdx hi s).filterMap _)
  rw [hold, hnew, slotEntries_cons, slotEntries_cons, Multiset.add_assoc,
    Multiset.add_comm (slotEntries _) old.entry.toList]

theorem slotEntries_set_le (h : table[i]? = some old) (s : Slot) :
    slotEntries (table.set i s) ≤ (s.entry.toList : Bag) + slotEntries table := by
  rw [← slotEntries_set h s]
  exact Multiset.le_add_right _ _

theorem slotEntries_take_succ (h : table[i]? = some s) :
    slotEntries (table.take (i + 1)) = (s.entry.toList : Bag) + slotEntries (table.take i) := by
  have hperm : (table.take (i + 1)).Perm (s :: table.take i) := by
    rw [List.take_add_one, h, Option.toList_some]
    exact List.perm_append_singleton _ _
  rw [← slotEntries_cons]
  exact Multiset.coe_eq_coe.mpr (hperm.filterMap _)

theorem slotEntries_take_le (table : List Slot) (n : Nat) :
    slotEntries (table.take n) ≤ slotEntries table :=
  Multiset.coe_le.mpr ((List.take_sublist n table).filterMap _).subperm

theorem slotEntries_of_blocks (h : slotBlocks table = []) : slotEntries table = 0 := by
  unfold slotEntries
  rw [Multiset.coe_eq_zero, List.filterMap_eq_nil_iff]
  intro s hs
  cases s with
  | none => rfl
  | some node =>
    have hnil := List.flatMap_eq_nil_iff.mp h (some node) hs
    cases hnil

theorem mem_slotEntries {node : Block HashNode} {kb : Block CStr} (h : table[i]? = some (some node))
    (hk : node.val.key = some kb) : (kb.val, node.val.data.map Block.val) ∈ slotEntries table := by
  refine Multiset.mem_coe.mpr (List.mem_filterMap.mpr ⟨some node, List.mem_of_getElem? h, ?_⟩)
  simp [Slot.entry, hk]

end

theorem slotEntries_bury {table : List Slot} {i : Nat} {node : Block HashNode} {kb : Block CStr}
    {t : Slot} (h : table[i]? = some (some node)) (hk : node.val.key = some kb)
    (ht : t.entry = none) :
    slotEntries (table.set i t) =
      (slotEntries table).erase (kb.val, node.val.data.map Block.val) := by
  have hset := slotEntries_set h t
  have hentry : Slot.entry (some node) = some (kb.val, node.val.data.map Block.val) := by
    simp [Slot.entry, hk]
  rw [hentry, ht, Option.toList_some, Option.toList_none, Multiset.coe_nil, Multiset.zero_add,
    Multiset.coe_singleton, Multiset.add_comm, Multiset.singleton_add] at hset
  rw [← hset, Multiset.erase_cons_head]

theorem Counts.entries {m m' : Memory Hash} (h : Counts m m') : m'.obj.entries = m.obj.entries := by
  unfold Hash.entries Hash.entryList
  rw [h.table]

/-! ### `find_slot` comes back with a free slot or with one of the key -/

def Answers (tab : Hash) (key : CStr) (slot : Int) : Prop :=
  ∀ s kb, 0 ≤ slot → tab.table.val[slot.toNat]? = some s →
    (s.bind fun node => node.val.key) = some kb → kb.val = key

/-- The invariant of the loops, with the memory `m` from before the call. -/
def Probed (m : Memory Hash) (key : CStr) (p : Probe) (m' : Memory Hash) : Prop :=
  Counts m m' ∧ ∀ slot, p.slot = some slot → Answers m.obj key slot

theorem Answers.of_slot {tab : Hash} {key : CStr} {hash : UInt32} {s : Slot}
    (h : tab.table.val[hash.toNat]? = some s)
    (hkey : ∀ kb, (s.bind fun node => node.val.key) = some kb → kb.val = key) :
    Answers tab key (toInt hash.toNat) := by
  intro s' kb hpos hs hk
  have hlt := hash.toNat_lt
  have hsame : (toInt hash.toNat).toNat = hash.toNat := by
    unfold toInt at hpos ⊢
    rw [Int.bmod_def] at hpos ⊢
    split at hpos <;> omega
  rw [hsame, h] at hs
  cases hs
  exact hkey kb hk

section

variable {m : Memory Hash} {key : CStr}

theorem slotAt_owned {i : Nat} {Q : Slot → Memory Hash → Prop} {E : Halt → Memory Hash → Prop}
    {D : Prop} (ok : ∀ s, m.obj.table.val[i]? = some s → Q s m) (out : E .fault m) :
    (slotAt i).wp Q E D m := by
  cases hs : m.obj.table.val[i]? with
  | none =>
    unfold slotAt
    simp only [Prog.wp_bind, wp_object, hs, wp_fault]
    exact out
  | some s =>
    rw [wp_slotAt hs]
    exact ok s hs

theorem probePass_answers {m₀ : Memory Hash} {p : Probe} (hm : Counts m₀ m) (hp : p.slot = none) :
    (probePass key p).wp (Probed m₀ key) (fun _ _ => True) True m := by
  unfold probePass
  rw [Prog.wp_bind]
  refine slotAt_owned ?_ trivial
  intro s hs
  rw [hm.table] at hs
  cases s with
  | none =>
    simp only
    rw [Prog.wp_bind]
    apply (addCount_onlyCounts 1 m).imp
    intro _ m' hm'
    rw [Prog.wp_pure]
    refine ⟨hm.trans hm', fun slot hslot => ?_⟩
    rw [← Option.some.inj hslot]
    exact .of_slot hs fun kb hk => by cases hk
  | some node =>
    simp only
    split
    · next hk =>
      rw [Prog.wp_bind]
      apply (addTombstones_onlyCounts (-1) m).imp
      intro _ m₁ hm₁
      rw [Prog.wp_bind]
      apply (addCount_onlyCounts 1 m₁).imp
      intro _ m' hm'
      rw [Prog.wp_pure]
      refine ⟨(hm.trans hm₁).trans hm', fun slot hslot => ?_⟩
      rw [← Option.some.inj hslot]
      exact .of_slot hs fun kb hkb => by rw [Option.bind_some, hk] at hkb; cases hkb
    · next k hk =>
      split
      · next hsame =>
        rw [Prog.wp_pure]
        refine ⟨hm, fun slot hslot => ?_⟩
        rw [← Option.some.inj hslot]
        refine .of_slot hs fun kb hkb => ?_
        rw [Option.bind_some, hk] at hkb
        cases hkb
        exact hsame
      · simp only [Prog.wp_bind, wp_object, Prog.wp_pure]
        exact ⟨hm, fun slot hslot => by rw [hp] at hslot; cases hslot⟩

theorem findSlot_answers :
    (findSlot key).wp (fun slot m' => Counts m m' ∧ Answers m.obj key slot) (fun _ _ => True) True
      m := by
  have hround : ∀ p m₁, Counts m m₁ → p.slot = none →
      (probeRounds key p).wp (Probed m key) (fun _ _ => True) True m₁ := by
    intro p m₁ h₁ hp
    unfold probeRounds probeRound
    rw [Prog.wp_bind]
    refine Prog.wp_whileDo_of_invariant (Probed m key) ?_
      (fun _ _ h _ => Prog.wp_pure.mpr ⟨h.1, h.2⟩)
      ⟨h₁, fun slot hslot => by rw [hp] at hslot; cases hslot⟩
    intro p' m' h' hcond
    have hnone : p'.slot = none := by
      simp only [probing, Bool.and_eq_true, Option.isNone_iff_eq_none] at hcond
      exact hcond.1
    exact probePass_answers h'.1 hnone
  unfold findSlot
  rw [Prog.wp_bind, wp_object, Prog.wp_bind]
  refine slotAt_owned ?_ trivial
  intro s hs
  cases s with
  | none =>
    simp only
    rw [Prog.wp_bind]
    apply (addCount_onlyCounts 1 m).imp
    intro _ m' hm'
    exact Prog.wp_pure.mpr ⟨hm', .of_slot hs fun kb hk => by cases hk⟩
  | some node =>
    simp only
    rw [Prog.wp_bind]
    refine Prog.wp_whileDo_of_invariant (Probed m key) ?_ ?_
      ⟨Counts.refl m, fun slot hslot => by cases hslot⟩
    · intro p m₁ h₁ hcond
      exact hround p m₁ h₁.1 (Option.isNone_iff_eq_none.mp hcond)
    · intro p m' h' hcond
      rw [Prog.wp_pure]
      obtain ⟨slot, hslot⟩ := Option.isSome_iff_exists.mp (by simpa using hcond)
      rw [hslot]
      exact ⟨h'.1, h'.2 slot hslot⟩

/-! ### The bag of each operation -/

theorem hashFind_bag (size : Nat) :
    (hashFind key size).wp
      (fun a m' => ∃ b, Bag.Step m.obj.entries (.find key size) a b ∧ m'.obj.entries ≤ b)
      (fun _ _ => True) True m := by
  unfold hashFind
  rw [Prog.wp_bind]
  apply (findSlot_onlyCounts key m).imp
  intro slot m₁ hcounts
  rw [Prog.wp_bind]
  refine slotAtInt_owned ?_ trivial
  intro s _ hs
  split
  · next node hmatch =>
    obtain ⟨rfl, kb, hk, hkey⟩ := matching_some hmatch
    rw [hcounts.table] at hs
    have hmem := mem_slotEntries hs hk
    rw [hkey] at hmem
    have hcopy : ∀ m₂ : Memory Hash, m₂.obj = m₁.obj →
        (copyData node.val size >>= fun copy => pure (HashResult.HASH_OK, some copy)).wp
          (fun a m' => ∃ b, Bag.Step m.obj.entries (.find key size) a b ∧ m'.obj.entries ≤ b)
          (fun _ _ => True) True m₂ := by
      intro m₂ hm₂
      have hdata : copyData node.val size =
          memcpyFrom ((node.val.data.map Block.val).getD []) size := by
        unfold copyData
        cases node.val.data <;> rfl
      rw [Prog.wp_bind, hdata]
      unfold memcpyFrom
      split
      · next hsize =>
        rw [Prog.wp_pure, Prog.wp_pure]
        refine ⟨_, .found hmem hsize, ?_⟩
        rw [hm₂, hcounts.entries]
      · exact wp_fault.mpr trivial
    simp only
    split
    · rw [Prog.wp_bind, Prog.wp_modify]
      exact hcopy _ rfl
    · exact hcopy m₁ rfl
  · rw [Prog.wp_pure]
    exact ⟨_, .notFound _ key size, hcounts.entries.le⟩

theorem moveNode_bag {oldtab : List Slot} {n : Nat} (h : m.obj.entries ≤ slotEntries (oldtab.take n)) :
    (moveNode oldtab n).wp (fun _ m' => m'.obj.entries ≤ slotEntries (oldtab.take (n + 1)))
      (fun _ _ => True) True m := by
  unfold moveNode
  cases hslot : oldtab[n]? with
  | none => exact wp_fault.mpr trivial
  | some s =>
    have htake := slotEntries_take_succ hslot
    have hskip : m.obj.entries ≤ slotEntries (oldtab.take (n + 1)) := by
      rw [htake]
      exact h.trans (Multiset.le_add_left _ _)
    cases s with
    | none => exact Prog.wp_pure.mpr hskip
    | some node =>
      simp only
      split
      · exact Prog.wp_pure.mpr hskip
      · rw [Prog.wp_bind]
        apply (findSlot_onlyCounts _ m).imp
        intro slot m₁ hcounts
        unfold setSlotInt
        split
        · refine wp_setSlot_owned ?_ trivial
          intro old hold
          have hset := slotEntries_set_le hold (some node)
          rw [htake]
          refine hset.trans (Multiset.add_le_add_left ?_)
          rw [← hcounts.entries] at h
          exact h
        · exact wp_fault.mpr trivial

theorem moveNodes_bag {oldtab : List Slot} (h : m.obj.entries = 0) (n : Nat) :
    (moveNodes oldtab n).wp (fun _ m' => m'.obj.entries ≤ slotEntries (oldtab.take n))
      (fun _ _ => True) True m := by
  induction n with
  | zero =>
    unfold moveNodes
    exact Prog.wp_pure.mpr (h.le.trans (Multiset.zero_le _))
  | succ n ih =>
    unfold moveNodes
    rw [Prog.wp_bind]
    apply ih.imp
    intro _ m₁ h₁
    exact moveNode_bag h₁

/-- Of two nodes with the same key only the later one comes to the new table. -/
theorem rehashTable_bag (useGc : Bool) :
    (rehashTable useGc).wp (fun _ m' => m'.obj.entries ≤ m.obj.entries) (fun _ _ => True) True m := by
  unfold rehashTable
  rw [Prog.wp_bind, wp_object]
  split
  · rw [Prog.wp_bind]
    refine freshTable_owned ?_ fun _ => trivial
    intro m₁ _ _ _ _ hempty
    rw [Prog.wp_bind]
    apply (moveNodes_bag (slotEntries_of_blocks hempty) _).imp
    intro _ m₂ hmoved
    refine memFree_wp ?_ fun _ _ _ => trivial
    intro m' hm'
    rw [hm']
    exact hmoved.trans (slotEntries_take_le _ _)
  · exact Prog.wp_pure.mpr le_rfl

theorem dupData_bag (data : Option Bytes) (size : Nat) :
    (dupData data size).wp (fun d m' => m'.obj = m.obj ∧ d.1.map Block.val = stored data size)
      (fun _ _ => True) True m :=
  dupData_wp (fun _ _ hobj hval _ => ⟨hobj, hval⟩) (fun _ _ _ _ => trivial) fun _ _ _ _ => trivial

theorem nodeAt_bag (s : Slot) :
    (nodeAt s).wp (fun _ m' => m'.obj = m.obj) (fun _ _ => True) True m := by
  unfold nodeAt
  cases s with
  | none =>
    simp only
    rw [wp_memAlloc (by decide)]
  | some node => exact Prog.wp_pure.mpr rfl

theorem hashInsert_bag (useGc : Bool) (data : Option Bytes) (size : Nat) :
    (hashInsert useGc key data size).wp
      (fun r m' => ∃ b, Bag.Step m.obj.entries (.insert key data size) (r, none) b ∧
        m'.obj.entries ≤ b)
      (fun _ _ => True) True m := by
  have hgrow : ∀ m' : Memory Hash, m'.obj.entries ≤ (key, stored data size) ::ₘ m.obj.entries →
      ∃ b, Bag.Step m.obj.entries (.insert key data size) (.HASH_OK, none) b ∧ m'.obj.entries ≤ b :=
    fun m' hle => ⟨_, .inserted _ key data size, hle⟩
  unfold hashInsert
  rw [Prog.wp_bind]
  apply (rehashTable_bag useGc).imp
  intro _ m₁ hrehash
  rw [Prog.wp_bind]
  apply findSlot_answers.imp
  intro slot m₂ hprobe
  obtain ⟨hcounts, hanswer⟩ := hprobe
  have hbefore : m₂.obj.entries ≤ m.obj.entries := hcounts.entries.le.trans hrehash
  split
  · exact Prog.wp_pure.mpr (hgrow _ (hbefore.trans (Multiset.le_cons_self _ _)))
  · rw [Prog.wp_bind]
    refine slotAtInt_owned ?_ trivial
    intro s hpos hs
    split
    · next hkey =>
      obtain ⟨kb, hk⟩ := Option.isSome_iff_exists.mp hkey
      obtain ⟨node, rfl, hnode⟩ := Option.bind_eq_some_iff.mp hk
      have hsame : kb.val = key := hanswer _ kb hpos (hcounts.table ▸ hs) hk
      have hmem := Multiset.mem_of_le hbefore (mem_slotEntries hs hnode)
      rw [hsame] at hmem
      exact Prog.wp_pure.mpr ⟨_, .duplicate _ data size hmem, hbefore⟩
    · rw [Prog.wp_bind]
      apply (nodeAt_bag s).imp
      intro a m₃ hm₃
      rw [Prog.wp_bind, wp_memDupStr, Prog.wp_bind]
      apply (dupData_bag data size).imp
      intro d m₄ hd
      obtain ⟨hm₄, hval⟩ := hd
      have hobj : m₄.obj = m₂.obj := hm₄.trans hm₃
      obtain ⟨hi, -⟩ := List.getElem?_eq_some_iff.mp hs
      unfold setSlotInt
      rw [Prog.wp_bind, if_pos hpos, wp_setSlot (by rw [hobj]; exact hi), Prog.wp_pure]
      refine hgrow _ ?_
      show slotEntries (m₄.obj.table.val.set slot.toNat _) ≤ _
      rw [hobj]
      refine (slotEntries_set_le hs _).trans ?_
      simp only [Slot.entry, Option.bind_some, Option.map_some, Option.toList_some, hval,
        Multiset.coe_singleton, Multiset.singleton_add]
      exact Multiset.cons_le_cons _ hbefore

theorem hashRemove_bag (useGc : Bool) :
    (hashRemove useGc key).wp
      (fun r m' => ∃ b, Bag.Step m.obj.entries (.remove key) (r, none) b ∧ m'.obj.entries ≤ b)
      (fun _ _ => True) True m := by
  unfold hashRemove
  rw [Prog.wp_bind]
  apply (findSlot_onlyCounts key m).imp
  intro slot m₁ hcounts
  rw [Prog.wp_bind]
  refine slotAtInt_owned ?_ trivial
  intro s hpos hs
  split
  · next node hmatch =>
    obtain ⟨rfl, kb, hk, hkey⟩ := matching_some hmatch
    obtain ⟨hi, -⟩ := List.getElem?_eq_some_iff.mp hs
    rw [Prog.wp_bind]
    refine memFree_wp ?_ fun _ _ _ => trivial
    intro m₂ hm₂
    rw [Prog.wp_bind]
    refine memFree_wp ?_ fun _ _ _ => trivial
    intro m₃ hm₃
    have hobj : m₃.obj = m₁.obj := hm₃.trans hm₂
    unfold setSlotInt
    rw [if_pos hpos, Prog.wp_bind, wp_setSlot (by rw [hobj]; exact hi), Prog.wp_bind]
    apply (addCount_onlyCounts (-1) _).imp
    intro _ m₄ hm₄
    rw [Prog.wp_bind]
    apply (addTombstones_onlyCounts 1 m₄).imp
    intro _ m' hm'
    rw [hcounts.table] at hs
    have hmem := mem_slotEntries hs hk
    rw [hkey] at hmem
    have hbury := slotEntries_bury (t := some (tombNode node.addr)) hs hk rfl
    rw [hkey] at hbury
    rw [Prog.wp_pure]
    refine ⟨_, .removed hmem, ?_⟩
    rw [(hm₄.trans hm').entries]
    show slotEntries (m₃.obj.table.val.set slot.toNat _) ≤ _
    rw [hobj, hcounts.table]
    exact hbury.le
  · rw [Prog.wp_pure]
    exact ⟨_, .notRemoved _ key, hcounts.entries.le⟩

end

theorem runOp_bag (useGc : Bool) (op : HashOp) (m : Memory Hash) :
    (runOp useGc op).wp (fun a m' => ∃ b, Bag.Step m.obj.entries op a b ∧ m'.obj.entries ≤ b)
      (fun _ _ => True) True m := by
  cases op with
  | insert key data size =>
    unfold runOp
    simp only [Prog.wp_bind, Prog.wp_pure_eq]
    exact hashInsert_bag useGc data size
  | find key size => exact hashFind_bag size
  | remove key =>
    unfold runOp
    simp only [Prog.wp_bind, Prog.wp_pure_eq]
    exact hashRemove_bag useGc

theorem runOps_below (useGc : Bool) (ops : List HashOp) (m : Memory Hash) {b : Bag}
    (h : m.obj.entries ≤ b) :
    (runOps useGc ops).wp (fun as m' => ∃ b', b.Runs ops as b' ∧ m'.obj.entries ≤ b')
      (fun _ _ => True) True m := by
  induction ops generalizing m b with
  | nil => exact Prog.wp_pure.mpr ⟨b, ⟨rfl, rfl⟩, h⟩
  | cons op ops ih =>
    unfold runOps
    rw [Prog.wp_bind]
    apply (runOp_bag useGc op m).imp
    intro a m₁ hop
    obtain ⟨b₀, hstep₀, hle₀⟩ := hop
    obtain ⟨b₁, hstep, hle⟩ := hstep₀.mono h
    rw [Prog.wp_bind]
    apply (ih m₁ (hle₀.trans hle)).imp
    intro as m' hrest
    obtain ⟨b', hruns, hend⟩ := hrest
    exact Prog.wp_pure.mpr ⟨b', ⟨a, b₁, as, rfl, hstep, hruns⟩, hend⟩

/-- Whatever keys the tombstones hide, a table answers as a bag that may miss: what is found or
removed was put in under that key and not taken out, and each removal takes out one copy. -/
theorem runOps_bag (useGc : Bool) (ops : List HashOp) (m : Memory Hash) :
    (runOps useGc ops).wp
      (fun as m' => ∃ b, m.obj.entries.Runs ops as b ∧ m'.obj.entries ≤ b ∧
        ∀ key, b.copies key + succeeded (HashOp.removesKey key) ops as =
          m.obj.entries.copies key + succeeded (HashOp.insertsKey key) ops as)
      (fun _ _ => True) True m := by
  apply (runOps_below useGc ops m le_rfl).imp
  intro as m' hend
  obtain ⟨b, hruns, hle⟩ := hend
  exact ⟨b, hruns, hle, fun key => hruns.copies⟩

end Rdpgen
