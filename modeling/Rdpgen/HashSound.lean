import Rdpgen.HashRuns

namespace Rdpgen

open Probing

section

variable {tab tab' : Hash} {k i : Nat} {s : Slot} {key : CStr}

theorem Hash.counted_cap (tab : Hash) (c : Cell CStr) : (tab.counted c).cap = tab.cap := by
  cases c <;> rfl

theorem Hash.counted_path (tab : Hash) (c : Cell CStr) : (tab.counted c).path = tab.path := by
  cases c <;> rfl

theorem Hash.counted_cell (tab : Hash) (c : Cell CStr) : (tab.counted c).cell = tab.cell := by
  cases c <;> rfl

theorem Hash.counted_live (tab : Hash) (c : Cell CStr) : (tab.counted c).live = tab.live := by
  cases c <;> rfl

theorem Hash.counted_tombs (tab : Hash) (c : Cell CStr) : (tab.counted c).tombs = tab.tombs := by
  cases c <;> rfl

theorem isTomb_eq (s : Slot) : Slot.isTomb s = true ↔ slotCell s = .tomb := by
  cases s with
  | none => simp [Slot.isTomb, slotCell]
  | some node => cases hk : node.val.key <;> simp [Slot.isTomb, slotCell, hk]

theorem isTomb_of_slotCell (h : slotCell s = .live key) : Slot.isTomb s = false := by
  rw [Bool.eq_false_iff, Ne, isTomb_eq, h]
  intro he
  cases he

theorem Hash.Sized.counted (hs : tab.Sized k) (c : Cell CStr) : (tab.counted c).Sized k where
  low := hs.low
  high := hs.high
  cap_eq := by rw [Hash.counted_cap, hs.cap_eq]
  length_eq := by rw [Hash.counted_table, hs.length_eq]

/-- The counters where a probe has stopped without a match. -/
theorem Hash.Stop.counted (hstop : tab.Stop key i s) (hfree : slotCell s ≠ .live key) :
    (tab.counted (slotCell s)).count = tab.count + 1 ∧
      (tab.counted (slotCell s)).tombstones =
        tab.tombstones - if Slot.isTomb s then 1 else 0 := by
  have htomb := isTomb_eq s
  rcases (hstop.free hfree).1 with he | he
  · have hno : ¬Slot.isTomb s = true := by rw [htomb, he]; exact fun h => by cases h
    rw [if_neg hno, he]
    exact ⟨rfl, (Int.sub_zero _).symm⟩
  · rw [if_pos (htomb.mpr he), he]
    exact ⟨rfl, rfl⟩

/-- A miss leaves the nodes alone, so only the bounds of the counters are at stake. -/
theorem Hash.Sound.miss (h : tab.Sound k) (hstop : tab.Stop key i s) (hfree : slotCell s ≠ .live key)
    (hroom : tab.count + 1 < 2 ^ 31) : (tab.counted (slotCell s)).Sound k := by
  obtain ⟨hcount, htombs⟩ := hstop.counted hfree
  have hle := h.live_le
  have hdebt := h.debt
  have hmany := h.tombstones_le
  refine ⟨h.sized.counted _, ?_, ?_, ?_, ?_, ?_, ?_⟩
  · rw [Hash.counted_path, Hash.counted_cell]
    exact h.placed
  · rw [Hash.counted_live]
    exact h.live_lt
  · rw [Hash.counted_live, hcount]
    omega
  · rw [hcount]
    exact hroom
  · rw [hcount, htombs]
    split <;> omega
  · rw [htombs, Hash.counted_tombs]
    split <;> omega

/-- The counters and the numbers of slots change alike. -/
structure Hash.Shifts (tab tab' : Hash) (c t : Int) : Prop where
  count_eq : tab'.count = tab.count + c
  live_eq : tab'.live = tab.live + c
  tombstones_eq : tab'.tombstones = tab.tombstones + t
  tombs_eq : tab'.tombs = tab.tombs + t

/-- A new key takes an empty slot or a tombstone. -/
theorem Hash.Stop.put_shifts {t : Slot} (hstop : tab.Stop key i s)
    (hfree : slotCell s ≠ .live key) (ht : slotCell t = .live key) :
    ∃ n, -1 ≤ n ∧ n ≤ 0 ∧ tab.Shifts ((tab.counted (slotCell s)).withSlot i t) 1 n := by
  obtain ⟨hcount, htombs⟩ := hstop.counted hfree
  have hslot : (tab.counted (slotCell s)).table.val[i]? = some s := by
    rw [Hash.counted_table]
    exact hstop.slot
  have hl := Hash.live_withSlot (s := t) hslot
  have ht' := Hash.tombs_withSlot (s := t) hslot
  rw [isLive_of_slotCell ht, (hstop.free hfree).2.2, Hash.counted_live] at hl
  rw [isTomb_of_slotCell ht, Hash.counted_tombs] at ht'
  simp only [Bool.false_eq_true, if_false, if_true] at hl ht'
  cases hs : Slot.isTomb s with
  | false =>
    simp only [hs, Bool.false_eq_true, if_false] at htombs ht'
    exact ⟨0, by omega, by omega, hcount, by omega, htombs.trans (by omega), by omega⟩
  | true =>
    simp only [hs, if_true] at htombs ht'
    exact ⟨-1, by omega, by omega, hcount, by omega, htombs, by omega⟩

theorem Hash.Stop.bury_shifts {node : Block HashNode} (hstop : tab.Stop key i (some node))
    (hlive : slotCell (some node) = .live key) :
    tab.Shifts (tab.buried i node.addr) (-1) 1 := by
  have hl := Hash.live_withSlot (s := some (tombNode node.addr)) hstop.slot
  have ht := Hash.tombs_withSlot (s := some (tombNode node.addr)) hstop.slot
  have htomb : Slot.isTomb (some (tombNode node.addr)) = true := rfl
  have hdead : Slot.isLive (some (tombNode node.addr)) = false := rfl
  rw [isLive_of_slotCell hlive, hdead] at hl
  rw [isTomb_of_slotCell hlive, htomb] at ht
  simp only [Bool.false_eq_true, if_false, if_true] at hl ht
  refine ⟨rfl, ?_, rfl, ?_⟩
  · show ((tab.withSlot i (some (tombNode node.addr))).live : Int) = _
    omega
  · show ((tab.withSlot i (some (tombNode node.addr))).tombs : Int) = _
    omega

theorem Hash.Sound.put {t : Slot} (h : tab.Sound k) (hlive : tab.live + 1 < 2 ^ k)
    (hroom : tab.count + 1 < 2 ^ 31) (hstop : tab.Stop key i s) (hfree : slotCell s ≠ .live key)
    (ht : slotCell t = .live key) : ((tab.counted (slotCell s)).withSlot i t).Sound k := by
  obtain ⟨n, hlow, hhigh, hcount, hl, htombs, ht'⟩ := hstop.put_shifts hfree ht
  have hle := h.live_le
  have hdebt := h.debt
  have hmany := h.tombstones_le
  refine ⟨(h.sized.counted _).withSlot i t, ?_, by omega, by omega, by omega, by omega, by omega⟩
  have hpath : ((tab.counted (slotCell s)).withSlot i t).path = tab.path :=
    Hash.counted_path tab (slotCell s)
  have hcell : ((tab.counted (slotCell s)).withSlot i t).cell = (tab.withSlot i t).cell := by
    unfold Hash.cell Hash.withSlot
    rw [Hash.counted_table]
  rw [hpath, hcell]
  exact hstop.insert t ht

theorem Hash.Sound.bury {node : Block HashNode} (h : tab.Sound k)
    (hstop : tab.Stop key i (some node)) (hlive : slotCell (some node) = .live key) :
    (tab.buried i node.addr).Sound k := by
  have hi : i < tab.table.val.length := (List.getElem?_eq_some_iff.mp hstop.slot).1
  obtain ⟨hcount, hl, htombs, ht⟩ := hstop.bury_shifts hlive
  have hlt := h.live_lt
  have hle := h.live_le
  have hdebt := h.debt
  have hmany := h.tombstones_le
  have hmax := h.count_lt
  have hs := h.sized.withSlot i (some (tombNode node.addr))
  refine ⟨⟨hs.low, hs.high, hs.cap_eq, hs.length_eq⟩, ?_, by omega, by omega, by omega, by omega,
    by omega⟩
  show Placed tab.path (tab.withSlot i (some (tombNode node.addr))).cell
  rw [Hash.cell_withSlot hi]
  exact h.placed.erase

theorem Fresh.slotCell {node : Block HashNode} {data : Option Bytes} {size : Nat}
    (h : Fresh node key data size) : slotCell (some node) = .live key := by
  obtain ⟨kb, hk, hkey⟩ := Option.map_eq_some_iff.mp h.1
  simp [Rdpgen.slotCell, hk, hkey]

/-- No call breaks the bounds, and none adds more than one to the counter. -/
theorem HashStep.sound {op : HashOp} {r : HashAnswer} (hstep : HashStep tab op r tab')
    (h : tab.Sound k) : ∃ k', tab'.Sound k' ∧ tab'.count ≤ tab.count + 1 := by
  cases hstep with
  | found => exact ⟨k, h, by omega⟩
  | notFound hstop hfree hroom =>
    exact ⟨k, h.miss hstop hfree hroom, by rw [(hstop.counted hfree).1]⟩
  | removed hstop hlive =>
    refine ⟨k, h.bury hstop hlive, ?_⟩
    show tab.count - 1 ≤ tab.count + 1
    omega
  | notRemoved hstop hfree hroom =>
    exact ⟨k, h.miss hstop hfree hroom, by rw [(hstop.counted hfree).1]⟩
  | duplicate hr hstop hlive =>
    obtain ⟨k', hsound, -, hcount, -⟩ := hr.sound h
    exact ⟨k', hsound, by omega⟩
  | @inserted tab₁ _ _ _ _ s node hr hstop hfree hfresh =>
    obtain ⟨k', hsound, hlive, hcount, hroom⟩ := hr.sound h
    refine ⟨k', hsound.put hlive hroom hstop hfree hfresh.slotCell, ?_⟩
    show (tab₁.counted (Rdpgen.slotCell s)).count ≤ _
    rw [(hstop.counted hfree).1]
    omega

end

theorem hashCreate_filled {α : Type} (m : Memory α) : (hashCreate m).obj.Filled 3 :=
  (Hash.moved_blank (by omega) (by omega) rfl rfl rfl rfl []).filled

theorem hashCreate_live {α : Type} (m : Memory α) : (hashCreate m).obj.live = 0 := rfl

theorem hashCreate_sound {α : Type} (m : Memory α) : (hashCreate m).obj.Sound 3 :=
  (hashCreate_filled m).sound (by rw [hashCreate_live]; decide)

/-- Over a whole run every call adds at most one to the counter. -/
theorem runOps_sound {useGc : Bool} {ops : List HashOp} {m : Memory Hash} {k : Nat}
    (h : m.obj.Sound k) :
    (runOps useGc ops).wp
      (fun _ m' => ∃ k', m'.obj.Sound k' ∧ m'.obj.count ≤ m.obj.count + ops.length)
      (fun _ _ => True) False m := by
  induction ops generalizing m k with
  | nil =>
    simp only [runOps, Prog.wp_pure]
    exact ⟨k, h, by simp⟩
  | cons op ops ih =>
    simp only [runOps, Prog.wp_bind, Prog.wp_pure_eq]
    refine (runOp_wp h).mono ?_ (fun _ _ _ => trivial) id
    intro r m₁ hstep
    obtain ⟨k₁, h₁, hcount₁⟩ := hstep.sound h
    apply (ih h₁).imp
    intro rs m' hend
    obtain ⟨k', h', hcount'⟩ := hend
    refine ⟨k', h', ?_⟩
    simp only [List.length_cons]
    omega

/-- `find_slot` comes back with a slot of the table. -/
def FindsSlot (m : Memory Hash) : Prop :=
  ∀ key, (findSlot key).wp (fun slot _ => 0 ≤ slot ∧ slot < m.obj.cap) (fun _ _ => False) False m

theorem Hash.Sound.findsSlot {m : Memory Hash} {k : Nat} (h : m.obj.Sound k)
    (hroom : m.obj.count + 1 < 2 ^ 31) : FindsSlot m := by
  intro key
  obtain ⟨i, s, hi, hstop, hfind⟩ := findSlot_stop h.sized h.placed h.live_lt key
  have hcap := h.sized.cap_eq
  rw [hfind]
  refine wp_countStop h (fun _ => ?_) ?_
  · omega
  · intro _ hover
    omega

/-- While the new table is filled the probes end as well. -/
theorem moveNodes_findsSlot {m : Memory Hash} {k n : Nat} (hs : m.obj.Sized k)
    (hn : n ≤ m.obj.table.val.length) :
    (freshTable >>= fun _ => moveNodes m.obj.table.val n).wp (fun _ m' => FindsSlot m')
      (fun e _ => e = .exit 1 ∧ m.obj.cap = 2 ^ 30) False m := by
  rw [Prog.wp_bind]
  rcases Nat.lt_or_ge k 30 with hk | hk
  · have hroom : m.obj.table.val.countP Slot.isLive < 2 ^ (k + 1) := by
      have hle : m.obj.table.val.countP Slot.isLive ≤ 2 ^ k := hs.live_le
      have hlt := Nat.pow_lt_pow_right (show 1 < 2 by omega) (Nat.lt_succ_self k)
      omega
    rw [freshTable_wp hs (by omega)]
    apply moveNodes_wp (Hash.emptied_moved hs (by omega) m.blocks _) hn hroom
    intro tab htab
    have hle := (List.take_sublist n m.obj.table.val).countP_le (p := Slot.isLive)
    have hlive := htab.live_le
    have hcount := htab.filled.count_eq
    have hcap := htab.filled.sized.cap_le
    rw [htab.filled.sized.capNat] at hcap
    exact (htab.filled.sound (by omega)).findsSlot (by show tab.count + 1 < _; omega)
  · have h30 : k = 30 := Nat.le_antisymm hs.high hk
    subst h30
    exact freshTable_refused hs fun _ => ⟨rfl, hs.cap_eq⟩

theorem rehashTable_findsSlot {useGc : Bool} {m : Memory Hash} {k : Nat} (h : m.obj.Sound k)
    (hroom : m.obj.count + 1 < 2 ^ 31) :
    (rehashTable useGc).wp (fun _ m' => FindsSlot m')
      (fun e _ => e = .exit 1 ∧ m.obj.cap = 2 ^ 30) False m := by
  by_cases hc : m.obj.crowded = true
  · rcases Nat.lt_or_ge k 30 with hk | hk
    · refine rehashTable_wp h.sized (by omega) hc fun m' hm => ?_
      obtain ⟨k', hsound, -, -, hroom'⟩ := (Hash.Rehashed.grown hc h.sized hm).sound h
      exact hsound.findsSlot hroom'
    · have h30 : k = 30 := Nat.le_antisymm h.sized.high hk
      subst h30
      exact rehashTable_refused h.sized hc fun _ => ⟨rfl, h.sized.cap_eq⟩
  · rw [rehashTable_idle (by simpa using hc)]
    exact h.findsSlot hroom

/-- The load factor leaves a free slot, so `find_slot` returns for every key, from the operations
as from `rehash_table`, which itself returns or has no memory for a table of `2 ^ 31` slots. -/
structure ProbesEnd (useGc : Bool) (m : Memory Hash) : Prop where
  power : ∃ k, m.obj.cap = (2 ^ k : Nat)
  live_lt : (m.obj.live : Int) < m.obj.cap
  finds : FindsSlot m
  rehash : (rehashTable useGc).wp (fun _ m' => FindsSlot m')
    (fun e _ => e = .exit 1 ∧ m.obj.cap = 2 ^ 30) False m
  fill : ∀ n ≤ m.obj.table.val.length,
    (freshTable >>= fun _ => moveNodes m.obj.table.val n).wp (fun _ m' => FindsSlot m')
      (fun e _ => e = .exit 1 ∧ m.obj.cap = 2 ^ 30) False m

/-- Probing always ends: a run of fewer than `2 ^ 30` calls ends, and so does every probe in a table
that it leaves. -/
theorem findSlot_always_ends {α : Type} (useGc : Bool) (m : Memory α) (ops : List HashOp)
    (hfew : ops.length < 2 ^ 30) :
    (runOps useGc ops).wp (fun _ m' => ProbesEnd useGc m') (fun _ _ => True) False
      (hashCreate m) := by
  apply (runOps_sound (hashCreate_sound m)).imp
  intro _ m' hend
  obtain ⟨k, h, hcount⟩ := hend
  have hzero : (hashCreate m).obj.count = 0 := rfl
  have hcap := h.sized.cap_eq
  have hlive := h.live_lt
  exact ⟨⟨k, hcap⟩, by omega, h.findsSlot (by omega), rehashTable_findsSlot h (by omega),
    fun n hn => moveNodes_findsSlot h.sized hn⟩

/-- Two keys whose probes begin at the same bucket of a new table. -/
def keyA : CStr := ⟨[byte 'a'], by decide, by decide⟩

def keyI : CStr := ⟨[byte 'i'], by decide, by decide⟩

/-- A tombstone, five lookups that count the absent key in, and an insertion that resizes. -/
def resizingCalls : List HashOp :=
  [.insert keyA none 0, .remove keyA, .find keyI 8, .find keyI 8, .find keyI 8, .find keyI 8,
    .find keyI 8, .insert keyI none 0]

theorem findSlot_ends_after_removal :
    ∃ rs m', (runOps true resizingCalls).Runs (hashCreate Memory.boot) (.ok rs m') ∧
      m'.obj.cap = 16 ∧ ProbesEnd true m' := by
  have hrun : ∃ rs m', (runOps true resizingCalls).Runs (hashCreate Memory.boot) (.ok rs m') ∧
      m'.obj.cap = 16 := ⟨_, _, ⟨17, rfl⟩, rfl⟩
  obtain ⟨rs, m', hrun, hcap⟩ := hrun
  have hends := findSlot_always_ends true Memory.boot resizingCalls (by decide)
  exact ⟨rs, m', hrun, hcap, hends.1 rs m' hrun⟩

/-! A run from call to call. -/

/-- The memory `m'` is there before or after some call of the run. -/
def Reached (useGc : Bool) (ops : List HashOp) (m m' : Memory Hash) : Prop :=
  ∃ before, before <+: ops ∧ ∃ rs, (runOps useGc before).Runs m (.ok rs m')

/-- The run makes the call `op` when the memory is `m'`. -/
def Called (useGc : Bool) (ops : List HashOp) (m : Memory Hash) (op : HashOp) (m' : Memory Hash) :
    Prop :=
  ∃ before, before ++ [op] <+: ops ∧ ∃ rs, (runOps useGc before).Runs m (.ok rs m')

section

variable {useGc : Bool} {op call : HashOp} {ops : List HashOp} {m m' : Memory Hash}

theorem runs_nil {rs : List HashAnswer} :
    (runOps useGc []).Runs m (.ok rs m') ↔ rs = [] ∧ m' = m := by
  constructor
  · intro h
    cases (Prog.runs_act.mp h : _)
    exact ⟨rfl, rfl⟩
  · intro h
    obtain ⟨rfl, rfl⟩ := h
    exact Prog.runs_act.mpr rfl

theorem runs_cons {rs : List HashAnswer} :
    (runOps useGc (op :: ops)).Runs m (.ok rs m') ↔
      ∃ r m₁ rs₁, (runOp useGc op).Runs m (.ok r m₁) ∧ (runOps useGc ops).Runs m₁ (.ok rs₁ m') ∧
        rs = r :: rs₁ := by
  have hcons : runOps useGc (op :: ops) =
      runOp useGc op >>= fun r => runOps useGc ops >>= fun rs => pure (r :: rs) := rfl
  rw [hcons]
  constructor
  · intro h
    rcases Prog.runs_bind.mp h with ⟨r, m₁, hr, hrest⟩ | ⟨e, t, -, he⟩
    · rcases Prog.runs_bind.mp hrest with ⟨rs₁, m₂, hrs, hp⟩ | ⟨e, t, -, he⟩
      · cases (Prog.runs_act.mp hp : _)
        exact ⟨r, m₁, rs₁, hr, hrs, rfl⟩
      · cases he
    · cases he
  · intro h
    obtain ⟨r, m₁, rs₁, hr, hrs, heq⟩ := h
    subst heq
    exact Prog.runs_bind.mpr (Or.inl ⟨r, m₁, hr,
      Prog.runs_bind.mpr (Or.inl ⟨rs₁, m', hrs, Prog.runs_act.mpr rfl⟩)⟩)

theorem reached_nil : Reached useGc [] m m' ↔ m' = m := by
  constructor
  · intro h
    obtain ⟨before, hpre, rs, hrun⟩ := h
    rw [List.prefix_nil.mp hpre] at hrun
    exact (runs_nil.mp hrun).2
  · intro h
    exact ⟨[], List.prefix_refl _, [], runs_nil.mpr ⟨rfl, h⟩⟩

theorem reached_cons :
    Reached useGc (op :: ops) m m' ↔
      m' = m ∨ ∃ r m₁, (runOp useGc op).Runs m (.ok r m₁) ∧ Reached useGc ops m₁ m' := by
  constructor
  · intro h
    obtain ⟨before, hpre, rs, hrun⟩ := h
    cases before with
    | nil => exact Or.inl (runs_nil.mp hrun).2
    | cons op' before =>
      obtain ⟨heq, hpre'⟩ := List.cons_prefix_cons.mp hpre
      subst heq
      obtain ⟨r, m₁, rs₁, hr, hrs, -⟩ := runs_cons.mp hrun
      exact Or.inr ⟨r, m₁, hr, before, hpre', rs₁, hrs⟩
  · intro h
    rcases h with rfl | ⟨r, m₁, hr, before, hpre, rs, hrs⟩
    · exact ⟨[], List.nil_prefix, [], runs_nil.mpr ⟨rfl, rfl⟩⟩
    · exact ⟨op :: before, List.cons_prefix_cons.mpr ⟨rfl, hpre⟩, r :: rs,
        runs_cons.mpr ⟨r, m₁, rs, hr, hrs, rfl⟩⟩

/-- What every call that returns keeps holds all along a run. -/
theorem Reached.invariant (I : Memory Hash → Prop)
    (step : ∀ op r m₁ m₂, I m₁ → (runOp useGc op).Runs m₁ (.ok r m₂) → I m₂) (start : I m)
    (h : Reached useGc ops m m') : I m' := by
  induction ops generalizing m with
  | nil =>
    rw [reached_nil.mp h]
    exact start
  | cons op ops ih =>
    rcases reached_cons.mp h with heq | ⟨r, m₁, hr, hrest⟩
    · rw [heq]
      exact start
    · exact ih (step op r m m₁ start hr) hrest

theorem not_called_nil : ¬Called useGc [] m call m' := by
  intro h
  obtain ⟨before, hpre, -⟩ := h
  simp at hpre

theorem called_cons :
    Called useGc (op :: ops) m call m' ↔
      (call = op ∧ m' = m) ∨
        ∃ r m₁, (runOp useGc op).Runs m (.ok r m₁) ∧ Called useGc ops m₁ call m' := by
  constructor
  · intro h
    obtain ⟨before, hpre, rs, hrun⟩ := h
    cases before with
    | nil =>
      obtain ⟨heq, -⟩ := List.cons_prefix_cons.mp hpre
      exact Or.inl ⟨heq, (runs_nil.mp hrun).2⟩
    | cons op' before =>
      obtain ⟨heq, hpre'⟩ := List.cons_prefix_cons.mp hpre
      subst heq
      obtain ⟨r, m₁, rs₁, hr, hrs, -⟩ := runs_cons.mp hrun
      exact Or.inr ⟨r, m₁, hr, before, hpre', rs₁, hrs⟩
  · intro h
    rcases h with ⟨rfl, rfl⟩ | ⟨r, m₁, hr, before, hpre, rs, hrs⟩
    · exact ⟨[], List.cons_prefix_cons.mpr ⟨rfl, List.nil_prefix⟩, [], runs_nil.mpr ⟨rfl, rfl⟩⟩
    · exact ⟨op :: before, List.cons_prefix_cons.mpr ⟨rfl, hpre⟩, r :: rs,
        runs_cons.mpr ⟨r, m₁, rs, hr, hrs, rfl⟩⟩

end

end Rdpgen
