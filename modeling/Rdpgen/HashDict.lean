import Rdpgen.HashSound

namespace Rdpgen

open Probing

/-- What the table stands for: a finite map from keys to payloads. -/
abbrev Dict := CStr → Option Bytes

def Dict.empty : Dict := fun _ => none

/-- A call on the map itself. -/
def Dict.call (d : Dict) (op : HashOp) : HashAnswer × Dict :=
  match op with
  | .insert key data _ =>
    if (d key).isSome then ((.HASH_DUP, none), d)
    else ((.HASH_OK, none), Function.update d key data)
  | .find key _ =>
    match d key with
    | some v => ((.HASH_OK, some v), d)
    | none => ((.HASH_NF, none), d)
  | .remove key =>
    if (d key).isSome then ((.HASH_OK, none), Function.update d key none)
    else ((.HASH_NF, none), d)

def Dict.answers (d : Dict) : List HashOp → List HashAnswer
  | [] => []
  | op :: ops => (d.call op).1 :: Dict.answers (d.call op).2 ops

section

variable {d : Dict} {key : CStr} {v : Bytes} {data : Option Bytes} {size : Nat}

theorem Dict.insert_present (h : d key = some v) :
    d.call (.insert key data size) = ((.HASH_DUP, none), d) := by
  simp [Dict.call, h]

theorem Dict.insert_absent (h : d key = none) :
    d.call (.insert key data size) = ((.HASH_OK, none), Function.update d key data) := by
  simp [Dict.call, h]

theorem Dict.find_present (h : d key = some v) :
    d.call (.find key size) = ((.HASH_OK, some v), d) := by
  simp [Dict.call, h]

theorem Dict.find_absent (h : d key = none) : d.call (.find key size) = ((.HASH_NF, none), d) := by
  simp [Dict.call, h]

theorem Dict.remove_present (h : d key = some v) :
    d.call (.remove key) = ((.HASH_OK, none), Function.update d key none) := by
  simp [Dict.call, h]

theorem Dict.remove_absent (h : d key = none) : d.call (.remove key) = ((.HASH_NF, none), d) := by
  simp [Dict.call, h]

end

/-- Payloads are not empty, and a lookup passes the size the key was stored with. -/
def ValidCall (d : Dict) (op : HashOp) : Prop :=
  match op with
  | .insert _ data size =>
    ∃ v, data = some v ∧ v ≠ [] ∧ size = v.length ∧ v.length ≤ ptrdiffMax
  | .find key size => ∀ v, d key = some v → size = v.length
  | .remove _ => True

def ValidCalls (d : Dict) : List HashOp → Prop
  | [] => True
  | op :: ops => ValidCall d op ∧ ValidCalls (d.call op).2 ops

/-- The node holds the key and the payload. -/
def Carries (node : Block HashNode) (key : CStr) (v : Bytes) : Prop :=
  node.val.key.map Block.val = some key ∧ node.val.data.map Block.val = some v

/-- The table stands for the map. -/
structure Hash.Represents (tab : Hash) (d : Dict) : Prop where
  distinct : Distinct tab.cell
  node : ∀ node ∈ tab.nodes, ∃ key v, Carries node key v ∧ d key = some v
  entry : ∀ key v, d key = some v → ∃ node ∈ tab.nodes, Carries node key v

/-- A tombstone keeps `find_slot` from the key. -/
def Hash.Lost (tab : Hash) (key : CStr) : Prop :=
  Stored tab.cell key ∧ Hidden (tab.path key) tab.cell key

/-- The call gets past the tombstones and stays within the range of an `int`. -/
def Hash.Serves (tab : Hash) (op : HashOp) : Prop :=
  match op with
  | .insert key _ _ => if tab.crowded then tab.cap < 2 ^ 30 else ¬tab.Lost key
  | .find key _ => ¬tab.Lost key ∧ (¬Stored tab.cell key → tab.count + 1 < 2 ^ 31)
  | .remove key => ¬tab.Lost key ∧ (¬Stored tab.cell key → tab.count + 1 < 2 ^ 31)

section

variable {tab tab' : Hash} {d : Dict} {k i : Nat} {s : Slot} {key : CStr}

theorem Carries.slotCell {node : Block HashNode} {v : Bytes} (h : Carries node key v) :
    slotCell (some node) = .live key := by
  obtain ⟨kb, hk, hkey⟩ := Option.map_eq_some_iff.mp h.1
  simp [Rdpgen.slotCell, hk, hkey]

theorem Carries.payload {node : Block HashNode} {v : Bytes} (h : Carries node key v) :
    payload node = v := by
  unfold Rdpgen.payload
  rw [h.2, Option.getD_some]

theorem Hash.mem_nodes {node : Block HashNode} :
    node ∈ tab.nodes ↔
      ∃ i : Nat, tab.table.val[i]? = some (some node) ∧ ∃ key, slotCell (some node) = .live key := by
  constructor
  · intro hmem
    obtain ⟨s, hs, hlive⟩ := List.mem_filterMap.mp hmem
    have hsn : s = some node := Option.eq_some_of_filter_eq_some hlive
    subst hsn
    obtain ⟨i, hi⟩ := List.mem_iff_getElem?.mp hs
    refine ⟨i, hi, slotCell_of_isLive ?_⟩
    rw [← isSome_liveNode, hlive]
    rfl
  · intro h
    obtain ⟨i, hi, key, hcell⟩ := h
    exact List.mem_filterMap.mpr ⟨some node, List.mem_of_getElem? hi, liveNode_of_live hcell⟩

theorem Hash.Represents.stored_iff (h : tab.Represents d) :
    Stored tab.cell key ↔ ∃ v, d key = some v := by
  constructor
  · intro hst
    obtain ⟨i, hi⟩ := hst
    obtain ⟨s, hs, hcell⟩ := Hash.slot_of_cell hi
    obtain ⟨node, hsn⟩ := slotCell_live hcell
    subst hsn
    obtain ⟨key', v, hcarry, hv⟩ := h.node node (Hash.mem_nodes.mpr ⟨i, hs, key, hcell⟩)
    have hsame : key' = key := Cell.live.inj (hcarry.slotCell.symm.trans hcell)
    exact ⟨v, hsame ▸ hv⟩
  · intro hv
    obtain ⟨v, hv⟩ := hv
    obtain ⟨node, hmem, hcarry⟩ := h.entry key v hv
    obtain ⟨i, hi, -⟩ := Hash.mem_nodes.mp hmem
    exact ⟨i, by rw [Hash.cell_of_slot hi, hcarry.slotCell]⟩

theorem Hash.Represents.absent (h : tab.Represents d) (hst : ¬Stored tab.cell key) :
    d key = none := by
  cases hd : d key with
  | none => rfl
  | some v => exact (hst (h.stored_iff.mpr ⟨v, hd⟩)).elim

/-- The node where the probe matched holds the value of the map. -/
theorem Hash.Represents.at_stop {node : Block HashNode} (h : tab.Represents d)
    (hstop : tab.Stop key i (some node)) (hlive : slotCell (some node) = .live key) :
    ∃ v, Carries node key v ∧ d key = some v := by
  obtain ⟨key', v, hcarry, hv⟩ := h.node node (Hash.mem_nodes.mpr ⟨i, hstop.slot, key, hlive⟩)
  have hsame : key' = key := Cell.live.inj (hcarry.slotCell.symm.trans hlive)
  subst hsame
  exact ⟨v, hcarry, hv⟩

/-- Only the slots count. -/
theorem Hash.Represents.of_table (h : tab.Represents d) (he : tab'.table.val = tab.table.val) :
    tab'.Represents d := by
  have hcell : tab'.cell = tab.cell := by
    unfold Hash.cell
    rw [he]
  have hnodes : tab'.nodes = tab.nodes := by
    unfold Hash.nodes
    rw [he]
  refine ⟨?_, ?_, ?_⟩
  · rw [hcell]
    exact h.distinct
  · rw [hnodes]
    exact h.node
  · rw [hnodes]
    exact h.entry

theorem Hash.Represents.counted (h : tab.Represents d) (c : Cell CStr) :
    (tab.counted c).Represents d :=
  h.of_table (by rw [Hash.counted_table])

theorem Hash.Represents.rehashed (h : tab.Represents d) (hr : tab.Rehashed tab') :
    tab'.Represents d := by
  cases hr with
  | idle => exact h
  | grown _ _ hm =>
    have hperm := hm.nodes h.distinct
    rw [List.take_length] at hperm
    refine ⟨hm.filled.distinct, ?_, ?_⟩
    · intro node hmem
      exact h.node node (hperm.mem_iff.mp hmem)
    · intro key v hv
      obtain ⟨node, hmem, hcarry⟩ := h.entry key v hv
      exact ⟨node, hperm.mem_iff.mpr hmem, hcarry⟩

theorem Hash.Represents.put {node : Block HashNode} {v : Bytes} (h : tab.Represents d)
    (hstop : tab.Stop key i s) (hfree : slotCell s ≠ .live key) (hst : ¬Stored tab.cell key)
    (hcarry : Carries node key v) :
    (tab.withSlot i (some node)).Represents (Function.update d key (some v)) := by
  have hi : i < tab.table.val.length := (List.getElem?_eq_some_iff.mp hstop.slot).1
  have hcell := hcarry.slotCell
  have hnode := liveNode_of_live hcell
  have hnodes := Hash.nodes_withSlot (s := some node) hstop.slot
  rw [(hstop.free hfree).2.1, hnode] at hnodes
  have hnodes' : (tab.withSlot i (some node)).nodes.Perm (node :: tab.nodes) := hnodes
  have hother : ∀ key', d key' ≠ none → key' ≠ key := by
    intro key' hd heq
    rw [heq, h.absent hst] at hd
    exact hd rfl
  refine ⟨?_, ?_, ?_⟩
  · rw [Hash.cell_withSlot hi, hcell]
    exact h.distinct.insert fun j hj => (hst ⟨j, hj⟩).elim
  · intro node' hmem
    rcases List.mem_cons.mp (hnodes'.mem_iff.mp hmem) with heq | hmem
    · subst heq
      exact ⟨key, v, hcarry, Function.update_self ..⟩
    · obtain ⟨key', v', hc, hd⟩ := h.node node' hmem
      refine ⟨key', v', hc, ?_⟩
      rw [Function.update_of_ne (hother key' (by rw [hd]; exact Option.some_ne_none v')), hd]
  · intro key' v' hd
    by_cases hkey : key' = key
    · subst hkey
      rw [Function.update_self] at hd
      cases hd
      exact ⟨node, hnodes'.mem_iff.mpr List.mem_cons_self, hcarry⟩
    · rw [Function.update_of_ne hkey] at hd
      obtain ⟨node', hmem, hc⟩ := h.entry key' v' hd
      exact ⟨node', hnodes'.mem_iff.mpr (List.mem_cons_of_mem node hmem), hc⟩

theorem Hash.Represents.bury {node : Block HashNode} (h : tab.Represents d)
    (hstop : tab.Stop key i (some node)) (hlive : slotCell (some node) = .live key) :
    (tab.buried i node.addr).Represents (Function.update d key none) := by
  have hi : i < tab.table.val.length := (List.getElem?_eq_some_iff.mp hstop.slot).1
  have hcell : (tab.buried i node.addr).cell = Function.update tab.cell i .tomb :=
    Hash.cell_withSlot hi
  have hnode := liveNode_of_live hlive
  have hnodes := Hash.nodes_withSlot (s := some (tombNode node.addr)) hstop.slot
  have htomb : liveNode (some (tombNode node.addr)) = none := rfl
  rw [hnode, htomb] at hnodes
  have hnodes' : (node :: (tab.buried i node.addr).nodes).Perm tab.nodes := hnodes
  have hdistinct : Distinct (tab.buried i node.addr).cell := by
    rw [hcell]
    exact h.distinct.erase
  -- The key was in one slot only, so it is gone.
  have hgone : ¬Stored (tab.buried i node.addr).cell key := by
    intro hst
    obtain ⟨j, hj⟩ := hst
    rw [hcell] at hj
    by_cases hji : j = i
    · rw [hji, Function.update_self] at hj
      cases hj
    · rw [Function.update_of_ne hji] at hj
      exact hji (h.distinct j i key hj (by rw [Hash.cell_of_slot hstop.slot, hlive]))
  refine ⟨hdistinct, ?_, ?_⟩
  · intro node' hmem
    obtain ⟨key', v', hc, hd⟩ := h.node node' (hnodes'.mem_iff.mp (List.mem_cons_of_mem node hmem))
    have hkey : key' ≠ key := by
      intro heq
      subst heq
      obtain ⟨j, hj, -⟩ := Hash.mem_nodes.mp hmem
      exact hgone ⟨j, by rw [Hash.cell_of_slot hj, hc.slotCell]⟩
    exact ⟨key', v', hc, by rw [Function.update_of_ne hkey, hd]⟩
  · intro key' v' hd
    have hkey : key' ≠ key := by
      intro heq
      rw [heq, Function.update_self] at hd
      cases hd
    rw [Function.update_of_ne hkey] at hd
    obtain ⟨node', hmem, hc⟩ := h.entry key' v' hd
    rcases List.mem_cons.mp (hnodes'.mem_iff.mpr hmem) with heq | hmem
    · subst heq
      exact (hkey (Cell.live.inj (hc.slotCell.symm.trans hlive))).elim
    · exact ⟨node', hmem, hc⟩

theorem Fresh.carries {node : Block HashNode} {v : Bytes} (h : Fresh node key (some v) v.length)
    (hne : v ≠ []) : Carries node key v := by
  have hlen : v.length ≠ 0 := fun he => hne (List.length_eq_zero_iff.mp he)
  refine ⟨h.1, ?_⟩
  rw [h.2.1, if_neg hlen, Option.map_some, List.take_length]

/-- With a free stop the key is absent unless a tombstone hides it. -/
theorem Hash.Stop.not_stored (hstop : tab.Stop key i s) (hfree : slotCell s ≠ .live key)
    (hlost : ¬tab.Lost key) : ¬Stored tab.cell key :=
  fun hst => hfree (hstop.live_iff.mpr ⟨hst, fun hh => hlost ⟨hst, hh⟩⟩)

/-- Resizing clears the tombstones away. -/
theorem Hash.Rehashed.serves_iff {data : Option Bytes} {size : Nat} (hr : tab.Rehashed tab') :
    tab.Serves (.insert key data size) ↔ ¬tab'.Lost key := by
  cases hr with
  | idle hc => simp [Hash.Serves, hc]
  | @grown _ j hc hs hm =>
    have hcap := hs.cap_eq
    have hpow : 2 ^ (j + 1) = 2 * 2 ^ j := by rw [Nat.pow_succ, Nat.mul_comm]
    have hle := hm.filled.sized.cap_le
    have hpos := Nat.two_pow_pos j
    rw [hm.filled.sized.capNat] at hle
    have hsmall : tab.cap < 2 ^ 30 := by omega
    constructor
    · exact fun _ hlost => hm.filled.clean.not_hidden hlost.2
    · intro _
      simpa [Hash.Serves, hc] using hsmall

/-- A call that the table serves returns what the map says and leaves the changed map behind. -/
theorem HashStep.serves {op : HashOp} {r : HashAnswer} (hstep : HashStep tab op r tab')
    (h : tab.Represents d) (hvalid : ValidCall d op) (hserves : tab.Serves op) :
    r = (d.call op).1 ∧ tab'.Represents (d.call op).2 := by
  cases hstep with
  | found hstop hlive =>
    obtain ⟨v, hcarry, hv⟩ := h.at_stop hstop hlive
    rw [Dict.find_present hv, hcarry.payload, hvalid v hv, List.take_length]
    exact ⟨rfl, h⟩
  | notFound hstop hfree =>
    rw [Dict.find_absent (h.absent (hstop.not_stored hfree hserves.1))]
    exact ⟨rfl, h.counted _⟩
  | removed hstop hlive =>
    obtain ⟨v, -, hv⟩ := h.at_stop hstop hlive
    rw [Dict.remove_present hv]
    exact ⟨rfl, h.bury hstop hlive⟩
  | notRemoved hstop hfree =>
    rw [Dict.remove_absent (h.absent (hstop.not_stored hfree hserves.1))]
    exact ⟨rfl, h.counted _⟩
  | duplicate hr hstop hlive =>
    obtain ⟨node, hs⟩ := slotCell_live hlive
    subst hs
    obtain ⟨v, -, hv⟩ := (h.rehashed hr).at_stop hstop hlive
    rw [Dict.insert_present hv]
    exact ⟨rfl, h.rehashed hr⟩
  | @inserted tab₁ key _ _ _ s _ hr hstop hfree hfresh =>
    obtain ⟨v, rfl, hne, rfl, -⟩ := hvalid
    have hst := hstop.not_stored hfree (hr.serves_iff.mp hserves)
    rw [Dict.insert_absent ((h.rehashed hr).absent hst)]
    refine ⟨rfl, ((h.rehashed hr).put hstop hfree hst (hfresh.carries hne)).of_table ?_⟩
    unfold Hash.withSlot
    rw [Hash.counted_table]

/-- No other call does. -/
theorem HashStep.not_serves {op : HashOp} {r : HashAnswer} (hstep : HashStep tab op r tab')
    (h : tab.Represents d) (hserves : ¬tab.Serves op) : r ≠ (d.call op).1 := by
  cases hstep with
  | found hstop hlive =>
    obtain ⟨hst, hh⟩ := hstop.live_iff.mp hlive
    exact (hserves ⟨fun hl => hh hl.2, fun hno => (hno hst).elim⟩).elim
  | @notFound key _ _ _ hstop hfree hroom =>
    by_cases hst : Stored tab.cell key
    · obtain ⟨v, hv⟩ := h.stored_iff.mp hst
      rw [Dict.find_present hv]
      exact fun he => by cases he
    · exact (hserves ⟨fun hl => hst hl.1, fun _ => hroom⟩).elim
  | removed hstop hlive =>
    obtain ⟨hst, hh⟩ := hstop.live_iff.mp hlive
    exact (hserves ⟨fun hl => hh hl.2, fun hno => (hno hst).elim⟩).elim
  | @notRemoved key _ _ hstop hfree hroom =>
    by_cases hst : Stored tab.cell key
    · obtain ⟨v, hv⟩ := h.stored_iff.mp hst
      rw [Dict.remove_present hv]
      exact fun he => by cases he
    · exact (hserves ⟨fun hl => hst hl.1, fun _ => hroom⟩).elim
  | duplicate hr hstop hlive =>
    exact (hserves (hr.serves_iff.mpr fun hlost => (hstop.live_iff.mp hlive).2 hlost.2)).elim
  | @inserted tab₁ key _ _ _ _ _ hr =>
    have hlost : tab₁.Lost key := by_contra fun hno => hserves (hr.serves_iff.mpr hno)
    obtain ⟨v, hv⟩ := (h.rehashed hr).stored_iff.mp hlost.1
    rw [Dict.insert_present hv]
    exact fun he => by cases he

end

section

variable {useGc : Bool} {m : Memory Hash} {d : Dict} {k : Nat}

/-- A served call does return. -/
theorem runOp_returns_of_serves {op : HashOp} (h : m.obj.Sound k) (hr : m.obj.Represents d)
    (hvalid : ValidCall d op) (hserves : m.obj.Serves op) :
    ∃ m', (runOp useGc op).Runs m (.ok (d.call op).1 m') ∧ m'.obj.Represents (d.call op).2 ∧
      ∃ k', m'.obj.Sound k' := by
  have hnever : ∀ e, ¬HashLeaves useGc m.obj op e := by
    intro e he
    cases he with
    | overflowFind hstop hfree hfull =>
      have := hserves.2 (hstop.not_stored hfree hserves.1)
      omega
    | overflowRemove hstop hfree hfull =>
      have := hserves.2 (hstop.not_stored hfree hserves.1)
      omega
    | overread hstop hlive hshort =>
      obtain ⟨v, hcarry, hv⟩ := hr.at_stop hstop hlive
      rw [hcarry.payload, hvalid v hv] at hshort
      omega
    | freeNull hstop hlive hnull =>
      obtain ⟨v, hcarry, -⟩ := hr.at_stop hstop hlive
      have := hcarry.2
      rw [hnull] at this
      cases this
    | tableTooBig hc hs =>
      have hcap := hs.cap_eq
      have hsmall : m.obj.cap < 2 ^ 30 := by simpa [Hash.Serves, hc] using hserves
      omega
    | dataTooBig hbig =>
      obtain ⟨v, -, -, hsize, hle⟩ := hvalid
      omega
    | dataShort hshort =>
      obtain ⟨v, hv, -, hsize, -⟩ := hvalid
      cases hv
      omega
  have hwp : (runOp useGc op).wp (fun r m' => HashStep m.obj op r m'.obj) (fun _ _ => False) False m :=
    (runOp_wp h).mono (fun _ _ hq => hq) (fun e _ he => hnever e he) id
  obtain ⟨r, m', hrun, hstep⟩ := hwp.returns
  obtain ⟨hr', hrep⟩ := hstep.serves hr hvalid hserves
  obtain ⟨k', hsound, -⟩ := hstep.sound h
  subst hr'
  exact ⟨m', hrun, hrep, k', hsound⟩

/-- The answers of a whole run are those of the map if and only if every call is served. -/
theorem answers_run_iff {ops : List HashOp} (h : m.obj.Sound k) (hr : m.obj.Represents d)
    (hvalid : ValidCalls d ops) :
    (∃ m', (runOps useGc ops).Runs m (.ok (d.answers ops) m')) ↔
      ∀ op m', Called useGc ops m op m' → m'.obj.Serves op := by
  induction ops generalizing m d k with
  | nil =>
    constructor
    · intro _ op m' hcalled
      exact (not_called_nil hcalled).elim
    · intro _
      exact ⟨m, runs_nil.mpr ⟨rfl, rfl⟩⟩
  | cons op ops ih =>
    constructor
    · intro hrun call m'' hcalled
      obtain ⟨m', hrun⟩ := hrun
      obtain ⟨r, m₁, rs₁, hop, hops, heq⟩ := runs_cons.mp hrun
      obtain ⟨hr₁, hrs₁⟩ := List.cons.inj heq
      have hstep : HashStep m.obj op r m₁.obj := (runOp_wp h).1 r m₁ hop
      have hserves : m.obj.Serves op := by
        by_contra hno
        exact hstep.not_serves hr hno hr₁.symm
      obtain ⟨k₁, h₁, -⟩ := hstep.sound h
      rcases called_cons.mp hcalled with ⟨rfl, rfl⟩ | ⟨r', m₁', hop', hrest⟩
      · exact hserves
      · cases hop.det hop'
        have hrep := (hstep.serves hr hvalid.1 hserves).2
        exact (ih h₁ hrep hvalid.2).mp ⟨m', hrs₁ ▸ hops⟩ call m'' hrest
    · intro hall
      have hserves := hall op m (called_cons.mpr (Or.inl ⟨rfl, rfl⟩))
      have hret : ∃ m₁, (runOp useGc op).Runs m (.ok (d.call op).1 m₁) ∧
          m₁.obj.Represents (d.call op).2 ∧ ∃ k₁, m₁.obj.Sound k₁ :=
        runOp_returns_of_serves h hr hvalid.1 hserves
      obtain ⟨m₁, hop, hrep, k₁, h₁⟩ := hret
      obtain ⟨m', hops⟩ := (ih h₁ hrep hvalid.2).mpr fun call m'' hcalled =>
        hall call m'' (called_cons.mpr (Or.inr ⟨_, m₁, hop, hcalled⟩))
      exact ⟨m', runs_cons.mpr ⟨_, m₁, _, hop, hops, rfl⟩⟩

end

theorem hashCreate_represents {α : Type} (m : Memory α) :
    (hashCreate m).obj.Represents Dict.empty := by
  have hnodes : (hashCreate m).obj.nodes = [] := rfl
  refine ⟨(hashCreate_filled m).distinct, ?_, ?_⟩
  · intro node hmem
    rw [hnodes] at hmem
    cases hmem
  · intro key v hd
    cases hd

/-- From `hashCreate` on, the results of a run are those of a finite map if and only if in no call
a tombstone keeps `find_slot` from the key, and the counter and the capacity stay `int`s. -/
theorem hashAnswers_agree_iff {α : Type} (useGc : Bool) (m : Memory α) (ops : List HashOp)
    (hvalid : ValidCalls Dict.empty ops) :
    (∃ m', (runOps useGc ops).Runs (hashCreate m) (.ok (Dict.empty.answers ops) m')) ↔
      ∀ op m', Called useGc ops (hashCreate m) op m' → m'.obj.Serves op :=
  answers_run_iff (hashCreate_sound m) (hashCreate_represents m) hvalid

/-- Two keys whose probes begin alike, and the second one removed. -/
def keptCalls : List HashOp :=
  [.insert keyA (some [1]) 1, .insert keyI (some [2]) 1, .remove keyI, .find keyA 1]

theorem keptCalls_valid : ValidCalls Dict.empty keptCalls := by
  refine ⟨⟨[1], rfl, by decide, rfl, by decide⟩, ⟨[2], rfl, by decide, rfl, by decide⟩, trivial, ?_,
    trivial⟩
  intro v hv
  have he : v = [1] := (Option.some.inj hv).symm
  rw [he]
  rfl

theorem keptCalls_agree :
    (∃ m', (runOps false keptCalls).Runs (hashCreate Memory.boot)
        (.ok (Dict.empty.answers keptCalls) m')) ∧
      ∀ op m', Called false keptCalls (hashCreate Memory.boot) op m' → m'.obj.Serves op := by
  have hrun : ∃ m', (runOps false keptCalls).Runs (hashCreate Memory.boot)
      (.ok (Dict.empty.answers keptCalls) m') := ⟨_, 9, rfl⟩
  exact ⟨hrun, (hashAnswers_agree_iff false Memory.boot keptCalls keptCalls_valid).mp hrun⟩

/-- With the first key removed, the second one is no longer found behind the tombstone. -/
def hidingCalls : List HashOp :=
  [.insert keyA (some [1]) 1, .insert keyI (some [2]) 1, .remove keyA, .find keyI 1]

theorem hidingCalls_valid : ValidCalls Dict.empty hidingCalls := by
  refine ⟨⟨[1], rfl, by decide, rfl, by decide⟩, ⟨[2], rfl, by decide, rfl, by decide⟩, trivial, ?_,
    trivial⟩
  intro v hv
  have he : v = [2] := (Option.some.inj hv).symm
  rw [he]
  rfl

theorem hashFind_misses_hidden_key :
    ValidCalls Dict.empty hidingCalls ∧
      ¬∃ m', (runOps false hidingCalls).Runs (hashCreate Memory.boot)
        (.ok (Dict.empty.answers hidingCalls) m') := by
  refine ⟨hidingCalls_valid, ?_⟩
  intro h
  obtain ⟨m', hrun⟩ := h
  have hreal : ∃ m₁, (runOps false hidingCalls).Runs (hashCreate Memory.boot)
      (.ok [(.HASH_OK, none), (.HASH_OK, none), (.HASH_OK, none), (.HASH_NF, none)] m₁) :=
    ⟨_, 9, rfl⟩
  obtain ⟨m₁, hreal⟩ := hreal
  have hsame := hrun.det hreal
  injection hsame with hanswers
  revert hanswers
  decide

end Rdpgen
