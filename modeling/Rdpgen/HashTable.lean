import Rdpgen.HashProbe
import Mathlib.Data.List.Perm.Basic
import Mathlib.Tactic.IntervalCases

namespace Rdpgen

open Probing

def Slot.isLive (s : Slot) : Bool := (s.bind fun node => node.val.key).isSome

def Slot.isTomb (s : Slot) : Bool := s.any fun node => node.val.key.isNone

/-- The number of slots with a live key. -/
def Hash.live (tab : Hash) : Nat := tab.table.val.countP Slot.isLive

/-- The number of slots that are tombstones. -/
def Hash.tombs (tab : Hash) : Nat := tab.table.val.countP Slot.isTomb

def liveNode (s : Slot) : Option (Block HashNode) := s.filter fun node => node.val.key.isSome

/-- The nodes with a key, in the order of their slots. -/
def Hash.nodes (tab : Hash) : List (Block HashNode) := tab.table.val.filterMap liveNode

def Hash.withSlot (tab : Hash) (i : Nat) (s : Slot) : Hash :=
  { tab with table := { tab.table with val := tab.table.val.set i s } }

theorem isSome_liveNode (s : Slot) : (liveNode s).isSome = Slot.isLive s := by
  cases s with
  | none => rfl
  | some node => cases hk : node.val.key <;> simp [liveNode, Slot.isLive, hk]

theorem Hash.length_nodes (tab : Hash) : tab.nodes.length = tab.live := by
  unfold Hash.nodes Hash.live
  rw [List.length_filterMap_eq_countP]
  simp only [isSome_liveNode]

theorem slotCell_live {s : Slot} {key : CStr} (h : slotCell s = .live key) :
    ∃ node, s = some node := by
  cases s with
  | none => simp [slotCell] at h
  | some node => exact ⟨node, rfl⟩

theorem key_of_live {node : Block HashNode} {key : CStr} (h : slotCell (some node) = .live key) :
    ∃ kb, node.val.key = some kb ∧ kb.val = key := by
  cases hk : node.val.key with
  | none => simp [slotCell, hk] at h
  | some kb =>
    have hkey : kb.val = key := by simpa [slotCell, hk] using h
    exact ⟨kb, rfl, hkey⟩

theorem liveNode_of_live {node : Block HashNode} {key : CStr}
    (h : slotCell (some node) = .live key) : liveNode (some node) = some node := by
  obtain ⟨kb, hk, -⟩ := key_of_live h
  simp [liveNode, hk]

theorem isLive_of_slotCell {s : Slot} {key : CStr} (h : slotCell s = .live key) :
    Slot.isLive s = true := by
  obtain ⟨node, hs⟩ := slotCell_live h
  subst hs
  obtain ⟨kb, hk, -⟩ := key_of_live h
  simp [Slot.isLive, hk]

theorem slotCell_of_isLive {s : Slot} (h : Slot.isLive s = true) : ∃ key, slotCell s = .live key := by
  cases s with
  | none => simp [Slot.isLive] at h
  | some node =>
    cases hk : node.val.key with
    | none => simp [Slot.isLive, hk] at h
    | some kb => exact ⟨kb.val, by simp [slotCell, hk]⟩

section

variable {tab : Hash} {k i : Nat} {s : Slot} {key : CStr}

theorem Hash.cell_of_slot (h : tab.table.val[i]? = some s) : tab.cell i = slotCell s := by
  simp [Hash.cell, cellAt, h]

theorem Hash.slot_of_cell (h : tab.cell i = .live key) :
    ∃ s, tab.table.val[i]? = some s ∧ slotCell s = .live key := by
  cases hs : tab.table.val[i]? with
  | none => simp [Hash.cell, cellAt, hs] at h
  | some s => exact ⟨s, rfl, by rw [← h, Hash.cell_of_slot hs]⟩

theorem Hash.cell_withSlot (hi : i < tab.table.val.length) :
    (tab.withSlot i s).cell = Function.update tab.cell i (slotCell s) := by
  funext j
  by_cases hj : j = i
  · subst hj
    simp [Hash.cell, cellAt, Hash.withSlot, hi]
  · rw [Function.update_of_ne hj]
    simp [Hash.cell, cellAt, Hash.withSlot, Ne.symm hj]

/-- The table before and after a store, up to the order of the slots. -/
theorem Hash.withSlot_perm {old : Slot} (h : tab.table.val[i]? = some old) :
    ∃ rest, tab.table.val.Perm (old :: rest) ∧ (tab.withSlot i s).table.val.Perm (s :: rest) := by
  obtain ⟨hi, he⟩ := List.getElem?_eq_some_iff.mp h
  refine ⟨tab.table.val.eraseIdx i, ?_, List.set_perm_cons_eraseIdx hi s⟩
  rw [← he]
  exact (List.getElem_cons_eraseIdx_perm hi).symm

theorem Hash.nodes_withSlot {old : Slot} (h : tab.table.val[i]? = some old) :
    ((liveNode old).toList ++ (tab.withSlot i s).nodes).Perm ((liveNode s).toList ++ tab.nodes) := by
  obtain ⟨rest, hold, hnew⟩ := Hash.withSlot_perm (s := s) h
  have hcons : ∀ t : Slot,
      (t :: rest).filterMap liveNode = (liveNode t).toList ++ rest.filterMap liveNode := by
    intro t
    cases ht : liveNode t <;> simp [ht]
  have hperm : ((liveNode old).toList ++ ((liveNode s).toList ++ rest.filterMap liveNode)).Perm
      ((liveNode s).toList ++ ((liveNode old).toList ++ rest.filterMap liveNode)) := by
    rw [← List.append_assoc, ← List.append_assoc]
    exact List.perm_append_comm.append_right _
  have hl := (hnew.filterMap liveNode).append_left (liveNode old).toList
  have hr := (hold.filterMap liveNode).append_left (liveNode s).toList
  rw [hcons] at hl hr
  exact (hl.trans hperm).trans hr.symm

theorem Hash.live_withSlot {old : Slot} (h : tab.table.val[i]? = some old) :
    (tab.withSlot i s).live + (if Slot.isLive old then 1 else 0) =
      tab.live + if Slot.isLive s then 1 else 0 := by
  obtain ⟨rest, hold, hnew⟩ := Hash.withSlot_perm (s := s) h
  unfold Hash.live
  rw [hold.countP_eq, hnew.countP_eq, List.countP_cons, List.countP_cons]
  omega

theorem Hash.tombs_withSlot {old : Slot} (h : tab.table.val[i]? = some old) :
    (tab.withSlot i s).tombs + (if Slot.isTomb old then 1 else 0) =
      tab.tombs + if Slot.isTomb s then 1 else 0 := by
  obtain ⟨rest, hold, hnew⟩ := Hash.withSlot_perm (s := s) h
  unfold Hash.tombs
  rw [hold.countP_eq, hnew.countP_eq, List.countP_cons, List.countP_cons]
  omega

theorem Hash.Sized.live_le (hs : tab.Sized k) : tab.live ≤ 2 ^ k := by
  rw [← hs.length_eq]
  exact List.countP_le_length

theorem Hash.Sized.tombs_le (hs : tab.Sized k) : tab.tombs ≤ 2 ^ k := by
  rw [← hs.length_eq]
  exact List.countP_le_length

/-- While a slot is free every probe ends. -/
theorem Hash.Sized.exists_firstStop (hs : tab.Sized k) (hlive : tab.live < 2 ^ k) (key : CStr) :
    ∃ n < 2 * 2 ^ k, FirstStop (tab.path key) tab.cell key n := by
  have hfree : ∃ s ∈ tab.table.val, ¬Slot.isLive s = true := by
    by_contra hall
    have heq : tab.live = tab.table.val.length :=
      List.countP_eq_length.mpr fun s hmem => by_contra fun hdead => hall ⟨s, hmem, hdead⟩
    rw [heq, hs.length_eq] at hlive
    omega
  obtain ⟨s, hmem, hdead⟩ := hfree
  obtain ⟨i, hi⟩ := List.mem_iff_getElem?.mp hmem
  have hlt : i < tab.cap.toNat := by
    rw [hs.capNat, ← hs.length_eq]
    exact (List.getElem?_eq_some_iff.mp hi).1
  obtain ⟨l, hl, hpath⟩ := exists_probePath key hlt
  have hstop : (tab.cell (tab.path key l)).Stops key := by
    unfold Hash.path
    rw [hpath, Hash.cell_of_slot hi]
    cases s with
    | none => trivial
    | some node =>
      cases hk : node.val.key with
      | none => simp [slotCell, hk, Cell.Stops]
      | some kb => simp [Slot.isLive, hk] at hdead
  obtain ⟨n, hn, hfirst⟩ := Probing.exists_firstStop hstop
  rw [hs.capNat] at hl
  exact ⟨n, by omega, hfirst⟩

end

/-- Slot `i` with content `s` is where the probe for `key` ends. -/
structure Hash.Stop (tab : Hash) (key : CStr) (i : Nat) (s : Slot) : Prop where
  slot : tab.table.val[i]? = some s
  stops : (slotCell s).Stops key
  live_iff : slotCell s = .live key ↔ Stored tab.cell key ∧ ¬Hidden (tab.path key) tab.cell key
  insert : ∀ t, slotCell t = .live key → Placed tab.path (tab.withSlot i t).cell

/-- The first slot on the path at which the probe for `key` stops is slot `i` with content `s`. -/
def Hash.Ends (tab : Hash) (key : CStr) (i : Nat) (s : Slot) : Prop :=
  ∃ n, FirstStop (tab.path key) tab.cell key n ∧ tab.path key n = i ∧ tab.table.val[i]? = some s

theorem Hash.Ends.slot {tab : Hash} {key : CStr} {i : Nat} {s : Slot} (h : tab.Ends key i s) :
    tab.table.val[i]? = some s := by
  obtain ⟨_, _, _, hs⟩ := h
  exact hs

theorem Hash.Ends.unique {tab : Hash} {key : CStr} {i j : Nat} {s t : Slot} (h : tab.Ends key i s)
    (h' : tab.Ends key j t) : i = j ∧ s = t := by
  obtain ⟨n, hn, hi, hs⟩ := h
  obtain ⟨n', hn', hj, ht⟩ := h'
  have hle : n ≤ n' := Nat.le_of_not_lt fun hlt => hn.first n' hlt hn'.stops
  have hge : n' ≤ n := Nat.le_of_not_lt fun hlt => hn'.first n hlt hn.stops
  have heq : n = n' := Nat.le_antisymm hle hge
  subst heq
  have hij : i = j := hi.symm.trans hj
  subst hij
  exact ⟨rfl, Option.some.inj (hs.symm.trans ht)⟩

/-- Every table with a free slot lets `find_slot` return. -/
theorem findSlot_ends {m : Memory Hash} {k : Nat} (hs : m.obj.Sized k)
    (hp : Placed m.obj.path m.obj.cell) (hlive : m.obj.live < 2 ^ k) (key : CStr) :
    ∃ i s, i < 2 ^ k ∧ m.obj.Ends key i s ∧ m.obj.Stop key i s ∧
      ∀ (Q : Int → Memory Hash → Prop) (E : Halt → Memory Hash → Prop) (D : Prop),
        (findSlot key).wp Q E D m ↔ (countStop (slotCell s)).wp (fun _ => Q i) E D m := by
  obtain ⟨n, hn, hfirst⟩ := hs.exists_firstStop hlive key
  have hlt := hs.path_lt key n
  obtain ⟨s, hslot, hcell⟩ := hs.slot_of_lt hlt
  refine ⟨m.obj.path key n, s, hlt, ⟨n, hfirst, rfl, hslot⟩, ⟨hslot, ?_, ?_, ?_⟩, ?_⟩
  · rw [← hcell]
    exact hfirst.stops
  · rw [← hcell]
    exact hfirst.live_iff hp
  · intro t ht
    rw [Hash.cell_withSlot (by rw [hs.length_eq]; exact hlt), ht]
    exact hp.insert hfirst
  · intro Q E D
    rw [findSlot_wp hs hn hfirst, hcell]

theorem findSlot_stop {m : Memory Hash} {k : Nat} (hs : m.obj.Sized k)
    (hp : Placed m.obj.path m.obj.cell) (hlive : m.obj.live < 2 ^ k) (key : CStr) :
    ∃ i s, i < 2 ^ k ∧ m.obj.Stop key i s ∧
      ∀ (Q : Int → Memory Hash → Prop) (E : Halt → Memory Hash → Prop) (D : Prop),
        (findSlot key).wp Q E D m ↔ (countStop (slotCell s)).wp (fun _ => Q i) E D m := by
  obtain ⟨i, s, hi, -, hstop, hfind⟩ := findSlot_ends hs hp hlive key
  exact ⟨i, s, hi, hstop, hfind⟩

/-- A slot that stops the probe without a match is free. -/
theorem Hash.Stop.free {tab : Hash} {key : CStr} {i : Nat} {s : Slot} (h : tab.Stop key i s)
    (hne : slotCell s ≠ .live key) :
    (slotCell s = .empty ∨ slotCell s = .tomb) ∧ liveNode s = none ∧ Slot.isLive s = false := by
  rcases h.stops.cases with he | he | he
  · cases s with
    | none => exact ⟨Or.inl rfl, rfl, rfl⟩
    | some node => cases hk : node.val.key <;> simp [slotCell, hk] at he
  · cases s with
    | none => simp [slotCell] at he
    | some node =>
      cases hk : node.val.key with
      | none => exact ⟨Or.inr he, by simp [liveNode, hk], by simp [Slot.isLive, hk]⟩
      | some kb => simp [slotCell, hk] at he
  · exact (hne he).elim

/-- A table as `rehash_table` fills it: no tombstones and exact counters. -/
structure Hash.Filled (tab : Hash) (k : Nat) : Prop where
  sized : tab.Sized k
  placed : Placed tab.path tab.cell
  distinct : Distinct tab.cell
  clean : Clean tab.cell
  count_eq : tab.count = tab.live
  tombstones_eq : tab.tombstones = 0

section

variable {tab : Hash} {k i : Nat} {s : Slot} {key : CStr}

theorem Hash.Sized.withSlot (hs : tab.Sized k) (i : Nat) (s : Slot) : (tab.withSlot i s).Sized k where
  low := hs.low
  high := hs.high
  cap_eq := hs.cap_eq
  length_eq := by
    rw [← hs.length_eq]
    exact List.length_set

theorem Hash.Filled.put {t : Slot} {count : Int} (hf : tab.Filled k) (hstop : tab.Stop key i s)
    (ht : slotCell t = .live key) (hcount : count = (tab.withSlot i t).live) :
    Hash.Filled { tab.withSlot i t with count := count } k := by
  have hi : i < tab.table.val.length := (List.getElem?_eq_some_iff.mp hstop.slot).1
  have hcell : (tab.withSlot i t).cell = Function.update tab.cell i (.live key) := by
    rw [Hash.cell_withSlot hi, ht]
  have hsame : ∀ j, tab.cell j = .live key → j = i := by
    intro j hj
    have hlive := hstop.live_iff.mpr ⟨⟨j, hj⟩, hf.clean.not_hidden⟩
    exact hf.distinct j i key hj (by rw [Hash.cell_of_slot hstop.slot, hlive])
  have hs := hf.sized.withSlot i t
  have hdistinct : Distinct (tab.withSlot i t).cell := by
    rw [hcell]
    exact hf.distinct.insert hsame
  have hclean : Clean (tab.withSlot i t).cell := by
    rw [hcell]
    exact hf.clean.insert
  exact ⟨⟨hs.low, hs.high, hs.cap_eq, hs.length_eq⟩, hstop.insert t ht, hdistinct, hclean, hcount,
    hf.tombstones_eq⟩

end

/-- The new table when the first `n` entries of the old one have been moved. -/
structure Hash.Moved (oldtab : List Slot) (n : Nat) (tab : Hash) (k : Nat) : Prop where
  filled : tab.Filled k
  live_le : tab.live ≤ (oldtab.take n).countP Slot.isLive
  stored : ∀ key, Stored tab.cell key → ∃ j < n, cellAt oldtab j = .live key
  nodes : Distinct (cellAt oldtab) → tab.nodes.Perm ((oldtab.take n).filterMap liveNode)

section

variable {oldtab : List Slot} {n k : Nat} {m : Memory Hash} {Q : Unit → Memory Hash → Prop}
  {E : Halt → Memory Hash → Prop} {D : Prop}

theorem Hash.Moved.skip {tab : Hash} {s : Slot} (hm : tab.Moved oldtab n k)
    (hslot : oldtab[n]? = some s) (hdead : liveNode s = none) : tab.Moved oldtab (n + 1) k := by
  have htake : oldtab.take (n + 1) = oldtab.take n ++ [s] := by
    rw [List.take_add_one, hslot, Option.toList_some]
  refine ⟨hm.filled, ?_, ?_, ?_⟩
  · rw [htake, List.countP_append]
    exact Nat.le_add_right_of_le hm.live_le
  · intro key hkey
    obtain ⟨j, hj, hcell⟩ := hm.stored key hkey
    exact ⟨j, by omega, hcell⟩
  · intro hd
    rw [htake, List.filterMap_append]
    simpa [hdead] using hm.nodes hd

theorem Hash.Moved.put {tab : Hash} {node : Block HashNode} {kb : Block CStr} {i : Nat} {s : Slot}
    {count : Int} (hm : tab.Moved oldtab n k) (hslot : oldtab[n]? = some (some node))
    (hk : node.val.key = some kb) (hstop : tab.Stop kb.val i s)
    (hcount : count = (tab.withSlot i (some node)).live) :
    Hash.Moved oldtab (n + 1) { tab.withSlot i (some node) with count := count } k := by
  have hi : i < tab.table.val.length := (List.getElem?_eq_some_iff.mp hstop.slot).1
  have htake : oldtab.take (n + 1) = oldtab.take n ++ [some node] := by
    rw [List.take_add_one, hslot, Option.toList_some]
  have hcell : slotCell (some node) = .live kb.val := by simp [slotCell, hk]
  have hold : cellAt oldtab n = .live kb.val := by simp [cellAt, hslot, hcell]
  have hnode : liveNode (some node) = some node := by simp [liveNode, hk]
  have hlive : Slot.isLive (some node) = true := by simp [Slot.isLive, hk]
  refine ⟨hm.filled.put hstop hcell hcount, ?_, ?_, ?_⟩
  · have hadd := Hash.live_withSlot (s := some node) hstop.slot
    have hle := hm.live_le
    rw [htake, List.countP_append, List.countP_singleton]
    show (tab.withSlot i (some node)).live ≤ _
    omega
  · intro key hkey
    have hnew : Stored (Function.update tab.cell i (.live kb.val)) key := by
      rw [← hcell, ← Hash.cell_withSlot hi]
      exact hkey
    have hsame : ∀ l, tab.cell i = .live l → l = kb.val := by
      intro l hl
      rw [Hash.cell_of_slot hstop.slot] at hl
      exact (Cell.live.inj ((hstop.stops.eq_live hl).symm.trans hl)).symm
    rcases (stored_insert hsame).mp hnew with hkey | heq
    · obtain ⟨j, hj, hc⟩ := hm.stored key hkey
      exact ⟨j, by omega, hc⟩
    · exact ⟨n, by omega, by rw [heq, hold]⟩
  · intro hd
    have hfree : liveNode s = none := by
      by_cases hmatch : slotCell s = .live kb.val
      · -- The key would be in the old table twice.
        obtain ⟨j, hj, hc⟩ := hm.stored kb.val ⟨i, by rw [Hash.cell_of_slot hstop.slot, hmatch]⟩
        have := hd j n kb.val hc hold
        omega
      · exact (hstop.free hmatch).2.1
    have hnodes := Hash.nodes_withSlot (s := some node) hstop.slot
    rw [hnode, hfree] at hnodes
    rw [htake, List.filterMap_append]
    simp only [List.filterMap_cons, hnode, List.filterMap_nil]
    exact (hnodes.trans (List.Perm.cons node (hm.nodes hd))).trans
      (List.perm_append_singleton _ _).symm

/-- In a filled table the probe counts exactly when the slot is new. -/
theorem findSlot_filled {key : CStr} {t : Slot} {Q : Int → Memory Hash → Prop}
    (hf : m.obj.Filled k) (hlive : m.obj.live < 2 ^ k) (ht : Slot.isLive t = true)
    (cont : ∀ i s, i < 2 ^ k → m.obj.Stop key i s →
      Q i { m with obj := { m.obj with count := (m.obj.withSlot i t).live } }) :
    (findSlot key).wp Q E D m := by
  obtain ⟨i, s, hi, hstop, hfind⟩ := findSlot_stop hf.sized hf.placed hlive key
  have hadd := Hash.live_withSlot (s := t) hstop.slot
  have hcount := hf.count_eq
  have hnext := cont i s hi hstop
  rw [if_pos ht] at hadd
  rw [hfind]
  by_cases hmatch : slotCell s = .live key
  · rw [if_pos (isLive_of_slotCell hmatch)] at hadd
    have hsame : ((m.obj.withSlot i t).live : Int) = m.obj.count := by omega
    rw [hsame] at hnext
    rw [hmatch, wp_countStop_live]
    exact hnext
  · obtain ⟨hkind, -, hsl⟩ := hstop.free hmatch
    have hempty : slotCell s = .empty :=
      hkind.resolve_right fun he => hf.clean i (by rw [Hash.cell_of_slot hstop.slot, he])
    have hle := hf.sized.cap_le
    rw [hf.sized.capNat] at hle
    rw [hsl] at hadd
    have hone : ((m.obj.withSlot i t).live : Int) = m.obj.count + 1 := by
      simp only [Bool.false_eq_true, if_false] at hadd
      omega
    rw [hone] at hnext
    unfold countStop
    simp only [hempty]
    rw [wp_addCount, if_pos (by omega)]
    exact hnext

/-- One pass of the loop that fills the new table. -/
theorem moveNode_wp (hm : m.obj.Moved oldtab n k) (hn : n < oldtab.length)
    (hroom : oldtab.countP Slot.isLive < 2 ^ k)
    (cont : ∀ tab : Hash, tab.Moved oldtab (n + 1) k → Q () { m with obj := tab }) :
    (moveNode oldtab n).wp Q E D m := by
  have hslot : oldtab[n]? = some oldtab[n] := List.getElem?_eq_getElem hn
  unfold moveNode
  cases hs : oldtab[n] with
  | none =>
    rw [hs] at hslot
    simp only [hslot, Prog.wp_pure]
    exact cont m.obj (hm.skip hslot rfl)
  | some node =>
    rw [hs] at hslot
    cases hk : node.val.key with
    | none =>
      simp only [hslot, hk, Prog.wp_pure]
      exact cont m.obj (hm.skip hslot (by simp [liveNode, hk]))
    | some kb =>
      have hlive : m.obj.live < 2 ^ k := by
        have hsub : (oldtab.take n).countP Slot.isLive ≤ oldtab.countP Slot.isLive :=
          (List.take_sublist n oldtab).countP_le
        have := hm.live_le
        omega
      simp only [hslot, hk, Prog.wp_bind]
      apply findSlot_filled (t := some node) hm.filled hlive (by simp [Slot.isLive, hk])
      intro i s hi hstop
      rw [← hm.filled.sized.length_eq] at hi
      unfold setSlotInt
      rw [if_pos (by omega), Int.toNat_natCast, wp_setSlot (by exact hi)]
      exact cont _ (hm.put hslot hk hstop rfl)

theorem moveNodes_wp (hm : m.obj.Moved oldtab 0 k) (hn : n ≤ oldtab.length)
    (hroom : oldtab.countP Slot.isLive < 2 ^ k)
    (cont : ∀ tab : Hash, tab.Moved oldtab n k → Q () { m with obj := tab }) :
    (moveNodes oldtab n).wp Q E D m := by
  induction n generalizing Q with
  | zero =>
    simp only [moveNodes, Prog.wp_pure]
    exact cont m.obj hm
  | succ n ih =>
    simp only [moveNodes, Prog.wp_bind]
    apply ih (by omega)
    intro tab htab
    exact moveNode_wp htab (by omega) hroom cont

end

/-- The table of `rehash_table` before the first node is moved. -/
def Hash.emptied (tab : Hash) (a : Nat) : Hash :=
  { tab with
    table := ⟨a, List.replicate (2 * tab.cap).toNat none⟩
    cap := 2 * tab.cap, count := 0, tombstones := 0 }

/-- A table without nodes is where the loop begins. -/
theorem Hash.moved_blank {tab : Hash} {k : Nat} (hlow : 3 ≤ k) (hhigh : k ≤ 30)
    (hcap : tab.cap = (2 ^ k : Nat)) (htable : tab.table.val = List.replicate (2 ^ k) none)
    (hcount : tab.count = 0) (htombs : tab.tombstones = 0) (oldtab : List Slot) :
    tab.Moved oldtab 0 k := by
  have hcell : ∀ i, tab.cell i = .empty := by
    intro i
    by_cases hi : i < 2 ^ k <;> simp [Hash.cell, cellAt, htable, hi, slotCell]
  have hlive : tab.live = 0 := by
    refine List.countP_eq_zero.mpr fun s hmem => ?_
    rw [htable] at hmem
    rw [List.eq_of_mem_replicate hmem]
    exact Bool.false_ne_true
  refine ⟨⟨⟨hlow, hhigh, hcap, by rw [htable, List.length_replicate]⟩, ?_, ?_, ?_, ?_, htombs⟩, ?_,
    ?_, ?_⟩
  · intro i key hi
    rw [hcell] at hi
    cases hi
  · intro i j key hi
    rw [hcell] at hi
    cases hi
  · intro i
    rw [hcell]
    exact fun h => by cases h
  · rw [hcount, hlive]
    rfl
  · rw [hlive]
    exact Nat.zero_le _
  · intro key hkey
    obtain ⟨i, hi⟩ := hkey
    rw [hcell] at hi
    cases hi
  · intro _
    have hnodes : tab.nodes = [] := by
      rw [← List.length_eq_zero_iff, Hash.length_nodes, hlive]
    rw [hnodes]
    exact List.Perm.refl _

theorem Hash.emptied_moved {tab : Hash} {k : Nat} (hs : tab.Sized k) (hk : k ≤ 29) (a : Nat)
    (oldtab : List Slot) : (tab.emptied a).Moved oldtab 0 (k + 1) := by
  have hlow := hs.low
  have hcap := hs.cap_eq
  have hpow : 2 ^ (k + 1) = 2 * 2 ^ k := by rw [Nat.pow_succ, Nat.mul_comm]
  have hlen : (2 * tab.cap).toNat = 2 ^ (k + 1) := by omega
  refine Hash.moved_blank (by omega) (by omega) ?_ ?_ rfl rfl oldtab
  · show 2 * tab.cap = _
    omega
  · show List.replicate (2 * tab.cap).toNat none = _
    rw [hlen]

section

variable {m : Memory Hash} {k : Nat} {useGc : Bool} {Q : Unit → Memory Hash → Prop}
  {E : Halt → Memory Hash → Prop} {D : Prop}

theorem freshTable_wp (hs : m.obj.Sized k) (hk : k ≤ 29) :
    freshTable.wp Q E D m ↔
      Q () { m with blocks := m.blocks + 1, obj := m.obj.emptied m.blocks } := by
  have hcap := hs.cap_eq
  have hpos := Nat.two_pow_pos k
  have hle := Nat.pow_le_pow_right (show 0 < 2 by omega) hk
  have hint : toInt (2 * m.obj.cap) = 2 * m.obj.cap := by
    unfold toInt
    rw [Int.bmod_def]
    omega
  have hsize : sizeofSlots (2 * m.obj.cap) ≤ ptrdiffMax := by
    unfold sizeofSlots ptrdiffMax
    omega
  unfold freshTable
  simp only [Prog.wp_bind, wp_object, wp_setObject, hint, wp_memAlloc hsize, Hash.emptied]

/-- The capacity that does not fit an `int` any more becomes a size that no allocation has. -/
theorem freshTable_refused (hs : m.obj.Sized 30) (he : ∀ m', E (.exit 1) m') :
    freshTable.wp Q E D m := by
  have hcap := hs.cap_eq
  have hint : toInt (2 * m.obj.cap) = -2 ^ 31 := by
    rw [hcap]
    rfl
  unfold freshTable memAlloc
  simp only [Prog.wp_bind, wp_object, wp_setObject, hint]
  rw [if_pos (by decide)]
  simp only [wp_memError]
  exact he _

theorem rehashTable_idle (hc : m.obj.crowded = false) :
    (rehashTable useGc).wp Q E D m ↔ Q () m := by
  unfold rehashTable
  simp only [Prog.wp_bind, wp_object, hc, Bool.false_eq_true, if_false, Prog.wp_pure]

theorem rehashTable_wp (hs : m.obj.Sized k) (hk : k ≤ 29) (hc : m.obj.crowded = true)
    (cont : ∀ m' : Memory Hash, m'.obj.Moved m.obj.table.val m.obj.table.val.length (k + 1) →
      Q () m') :
    (rehashTable useGc).wp Q E D m := by
  have hroom : m.obj.table.val.countP Slot.isLive < 2 ^ (k + 1) := by
    have hle : m.obj.table.val.countP Slot.isLive ≤ 2 ^ k := hs.live_le
    have hlt := Nat.pow_lt_pow_right (show 1 < 2 by omega) (Nat.lt_succ_self k)
    omega
  have hlen : m.obj.cap.toNat = m.obj.table.val.length := by rw [hs.capNat, hs.length_eq]
  unfold rehashTable
  simp only [Prog.wp_bind, wp_object, hc, if_true, freshTable_wp hs hk, hlen]
  apply moveNodes_wp (Hash.emptied_moved hs hk m.blocks _) (Nat.le_refl _) hroom
  intro tab htab
  unfold memFree
  cases useGc with
  | true =>
    simp only [if_true, Prog.wp_pure]
    exact cont _ htab
  | false =>
    simp only [Bool.false_eq_true, if_false, Prog.wp_modify]
    exact cont _ htab

theorem rehashTable_refused (hs : m.obj.Sized 30) (hc : m.obj.crowded = true)
    (he : ∀ m', E (.exit 1) m') : (rehashTable useGc).wp Q E D m := by
  unfold rehashTable
  simp only [Prog.wp_bind, wp_object, hc, if_true]
  exact freshTable_refused hs he

end

theorem Hash.Filled.tombs_eq {tab : Hash} {k : Nat} (hf : tab.Filled k) : tab.tombs = 0 := by
  refine List.countP_eq_zero.mpr fun s hmem htomb => ?_
  obtain ⟨i, hi⟩ := List.mem_iff_getElem?.mp hmem
  apply hf.clean i
  rw [Hash.cell_of_slot hi]
  cases s with
  | none => simp [Slot.isTomb] at htomb
  | some node =>
    cases hk : node.val.key with
    | none => simp [slotCell, hk]
    | some kb => simp [Slot.isTomb, hk] at htomb

/-- In a filled table every node is found where it is, and nothing is counted. -/
theorem Hash.Filled.findSlot_node {m : Memory Hash} {k : Nat} {node : Block HashNode}
    {kb : Block CStr} {Q : Int → Memory Hash → Prop} {E : Halt → Memory Hash → Prop} {D : Prop}
    (hf : m.obj.Filled k) (hlive : m.obj.live < 2 ^ k) (hmem : node ∈ m.obj.nodes)
    (hk : node.val.key = some kb)
    (cont : ∀ i : Nat, i < 2 ^ k → m.obj.table.val[i]? = some (some node) → Q i m) :
    (findSlot kb.val).wp Q E D m := by
  obtain ⟨s, hs, hlive'⟩ := List.mem_filterMap.mp hmem
  have hsn : s = some node := Option.eq_some_of_filter_eq_some hlive'
  subst hsn
  obtain ⟨j, hj⟩ := List.mem_iff_getElem?.mp hs
  have hcell : m.obj.cell j = .live kb.val := by
    rw [Hash.cell_of_slot hj]
    simp [slotCell, hk]
  obtain ⟨i, t, hi, hstop, hfind⟩ := findSlot_stop hf.sized hf.placed hlive kb.val
  have hmatch := hstop.live_iff.mpr ⟨⟨j, hcell⟩, hf.clean.not_hidden⟩
  have hij : i = j := hf.distinct i j kb.val (by rw [Hash.cell_of_slot hstop.slot, hmatch]) hcell
  subst hij
  rw [hfind, hmatch, wp_countStop_live]
  exact cont i hi hj

/-- The table of `m'` is that of `m` with twice the slots and without tombstones. -/
structure Doubled (m m' : Memory Hash) : Prop where
  cap_eq : m'.obj.cap = 2 * m.obj.cap
  length_eq : m'.obj.table.val.length = 2 * m.obj.table.val.length
  nodes : m'.obj.nodes.Perm m.obj.nodes
  tombs_eq : m'.obj.tombs = 0
  count_eq : m'.obj.count = m.obj.live
  tombstones_eq : m'.obj.tombstones = 0
  found : ∀ node ∈ m'.obj.nodes, ∀ kb, node.val.key = some kb →
    (findSlot kb.val).wp
      (fun slot m'' => m'' = m' ∧ 0 ≤ slot ∧ slot < m'.obj.cap ∧
        m'.obj.table.val[slot.toNat]? = some (some node))
      (fun _ _ => False) False m'

/-- `rehash_table` on any table with distinct keys: a crowded one is doubled, every other one
stays as it is. -/
theorem rehashTable_doubles (useGc : Bool) (m : Memory Hash) (k : Nat) (hlow : 3 ≤ k) (hhigh : k ≤ 29)
    (hcap : m.obj.cap = (2 ^ k : Nat)) (hlen : m.obj.table.val.length = 2 ^ k)
    (hdistinct : Distinct m.obj.cell) (hlive : m.obj.live < 2 ^ k) :
    (rehashTable useGc).wp
      (fun _ m' => if 4 * m.obj.cap < 7 * m.obj.count then Doubled m m' else m' = m)
      (fun _ _ => False) False m := by
  have hs : m.obj.Sized k := ⟨hlow, by omega, hcap, hlen⟩
  have hpow : 2 ^ (k + 1) = 2 * 2 ^ k := by rw [Nat.pow_succ, Nat.mul_comm]
  by_cases hc : 4 * m.obj.cap < 7 * m.obj.count
  · simp only [hc, if_true]
    apply rehashTable_wp hs hhigh (by simpa [Hash.crowded] using hc)
    intro m' hm
    have hf := hm.filled
    have hperm := hm.nodes hdistinct
    rw [List.take_length] at hperm
    have hsame : m'.obj.live = m.obj.live := by
      rw [← Hash.length_nodes, ← Hash.length_nodes]
      exact hperm.length_eq
    have hcap' := hf.sized.cap_eq
    refine ⟨by omega, by rw [hf.sized.length_eq, hlen, hpow], hperm, hf.tombs_eq,
      by rw [hf.count_eq, hsame], hf.tombstones_eq, ?_⟩
    intro node hmem kb hk
    apply hf.findSlot_node (by omega) hmem hk
    intro i hi hslot
    exact ⟨rfl, by omega, by omega, by simpa using hslot⟩
  · simp only [hc, if_false]
    exact (rehashTable_idle (by simpa [Hash.crowded] using hc)).mpr rfl

/-- A table with one key, one tombstone and a counter that has drifted past the limit. -/
def driftedTable : Memory Hash where
  blocks := 5
  freed := []
  stdout := []
  stderr := []
  obj :=
    { self := 0
      table := ⟨1,
        [none, some ⟨2, { key := none, data := none, size := 0 }⟩,
          some ⟨3, { key := some ⟨4, ⟨[], by decide, by decide⟩⟩, data := none, size := 0 }⟩,
          none, none, none, none, none]⟩
      cap := 8, count := 5, tombstones := 1 }

theorem driftedTable_doubles :
    (rehashTable false).wp
      (fun _ m' =>
        if 4 * driftedTable.obj.cap < 7 * driftedTable.obj.count then Doubled driftedTable m'
        else m' = driftedTable)
      (fun _ _ => False) False driftedTable := by
  refine rehashTable_doubles false driftedTable 3 (by decide) (by decide) rfl rfl ?_ (by decide)
  have honly : ∀ i key, driftedTable.obj.cell i = .live key → i = 2 := by
    intro i key hi
    by_contra hne
    rcases Nat.lt_or_ge i 8 with hlt | hge
    · interval_cases i <;> first | exact hne rfl | cases hi
    · rw [Hash.cell, cellAt, List.getElem?_eq_none (by exact hge)] at hi
      cases hi
  intro i j key hi hj
  rw [honly i key hi, honly j key hj]

end Rdpgen
