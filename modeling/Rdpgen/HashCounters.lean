import Rdpgen.HashSound

namespace Rdpgen

open Probing

/-- `count` and `tombstones` are the numbers of slots they stand for. -/
def Hash.Exact (tab : Hash) : Prop := tab.count = tab.live ∧ tab.tombstones = tab.tombs

/-- The call looks for no key, or for a stored one with no tombstone before it on its path. -/
def Hash.Hits (tab : Hash) (op : HashOp) : Prop :=
  match op with
  | .insert _ _ _ => True
  | .find key _ => Stored tab.cell key ∧ ¬Hidden (tab.path key) tab.cell key
  | .remove key => Stored tab.cell key ∧ ¬Hidden (tab.path key) tab.cell key

section

variable {tab tab' : Hash} {k i : Nat} {s : Slot} {key : CStr}

/-- The key that `find_slot` counted is nowhere to be seen. -/
theorem Hash.Exact.miss (hx : tab.Exact) (hstop : tab.Stop key i s)
    (hfree : slotCell s ≠ .live key) : ¬(tab.counted (slotCell s)).Exact := by
  intro h
  have hcount := (hstop.counted hfree).1
  have hold := hx.1
  have hnew := h.1
  rw [Hash.counted_live] at hnew
  omega

theorem Hash.Shifts.exact {c t : Int} (hshift : tab.Shifts tab' c t) (hx : tab.Exact) :
    tab'.Exact := by
  obtain ⟨hcount, hlive, htombstones, htombs⟩ := hshift
  obtain ⟨hold, holdTombs⟩ := hx
  constructor
  · omega
  · omega

theorem Hash.Exact.put {t : Slot} (hx : tab.Exact) (hstop : tab.Stop key i s)
    (hfree : slotCell s ≠ .live key) (ht : slotCell t = .live key) :
    ((tab.counted (slotCell s)).withSlot i t).Exact := by
  obtain ⟨n, -, -, hshift⟩ := hstop.put_shifts hfree ht
  exact hshift.exact hx

theorem Hash.Exact.bury {node : Block HashNode} (hx : tab.Exact)
    (hstop : tab.Stop key i (some node)) (hlive : slotCell (some node) = .live key) :
    (tab.buried i node.addr).Exact :=
  (hstop.bury_shifts hlive).exact hx

theorem Hash.Filled.exact (hf : tab.Filled k) : tab.Exact := by
  refine ⟨hf.count_eq, ?_⟩
  rw [hf.tombstones_eq, hf.tombs_eq]
  rfl

theorem Hash.Rehashed.exact (hr : tab.Rehashed tab') (hx : tab.Exact) : tab'.Exact := by
  cases hr with
  | idle => exact hx
  | grown _ _ hm => exact hm.filled.exact

/-- From exact counters a call leads to exact counters if and only if it hits. -/
theorem HashStep.exact_iff {op : HashOp} {r : HashAnswer} (hstep : HashStep tab op r tab')
    (hx : tab.Exact) : tab'.Exact ↔ tab.Hits op := by
  cases hstep with
  | found hstop hlive => exact ⟨fun _ => hstop.live_iff.mp hlive, fun _ => hx⟩
  | notFound hstop hfree =>
    exact ⟨fun h => (hx.miss hstop hfree h).elim, fun h => (hfree (hstop.live_iff.mpr h)).elim⟩
  | removed hstop hlive => exact ⟨fun _ => hstop.live_iff.mp hlive, fun _ => hx.bury hstop hlive⟩
  | notRemoved hstop hfree =>
    exact ⟨fun h => (hx.miss hstop hfree h).elim, fun h => (hfree (hstop.live_iff.mpr h)).elim⟩
  | duplicate hr => exact ⟨fun _ => trivial, fun _ => hr.exact hx⟩
  | inserted hr hstop hfree hfresh =>
    exact ⟨fun _ => trivial, fun _ => (hr.exact hx).put hstop hfree hfresh.slotCell⟩

end

section

variable {useGc : Bool} {m : Memory Hash} {k : Nat}

/-- A call that misses returns, so its table is there to be seen. -/
theorem runOp_returns_of_miss {op : HashOp} (h : m.obj.Sound k) (hx : m.obj.Exact)
    (hmiss : ¬m.obj.Hits op) : ∃ r m', (runOp useGc op).Runs m (.ok r m') := by
  have hle := h.sized.live_le
  have hcap := h.sized.cap_le
  rw [h.sized.capNat] at hcap
  have hcount := hx.1
  have hnever : ∀ e, ¬HashLeaves useGc m.obj op e := by
    intro e he
    cases he with
    | overflowFind => omega
    | overflowRemove => omega
    | overread hstop hlive => exact hmiss (hstop.live_iff.mp hlive)
    | freeNull hstop hlive => exact hmiss (hstop.live_iff.mp hlive)
    | tableTooBig => exact hmiss trivial
    | dataTooBig => exact hmiss trivial
    | dataShort => exact hmiss trivial
  have hwp : (runOp useGc op).wp (fun r m' => HashStep m.obj op r m'.obj) (fun _ _ => False) False m :=
    (runOp_wp h).mono (fun _ _ hq => hq) (fun e _ he => hnever e he) id
  obtain ⟨r, m', hr, -⟩ := hwp.returns
  exact ⟨r, m', hr⟩

/-- The counters stay exact for a whole run if and only if every call of it hits. -/
theorem exact_run_iff {ops : List HashOp} (h : m.obj.Sound k) (hx : m.obj.Exact) :
    (∀ m', Reached useGc ops m m' → m'.obj.Exact) ↔
      ∀ op m', Called useGc ops m op m' → m'.obj.Hits op := by
  induction ops generalizing m k with
  | nil =>
    constructor
    · intro _ op m' hcalled
      exact (not_called_nil hcalled).elim
    · intro _ m' hreached
      rw [reached_nil.mp hreached]
      exact hx
  | cons op ops ih =>
    have hstep : ∀ r m₁, (runOp useGc op).Runs m (.ok r m₁) → HashStep m.obj op r m₁.obj :=
      fun r m₁ hr => (runOp_wp h).1 r m₁ hr
    constructor
    · intro hall
      have hhit : m.obj.Hits op := by
        by_contra hmiss
        have hret : ∃ r m₁, (runOp useGc op).Runs m (.ok r m₁) := runOp_returns_of_miss h hx hmiss
        obtain ⟨r, m₁, hr⟩ := hret
        refine hmiss (((hstep r m₁ hr).exact_iff hx).mp (hall m₁ ?_))
        exact reached_cons.mpr (Or.inr ⟨r, m₁, hr, [], List.nil_prefix, [], runs_nil.mpr ⟨rfl, rfl⟩⟩)
      intro call m' hcalled
      rcases called_cons.mp hcalled with ⟨rfl, rfl⟩ | ⟨r, m₁, hr, hrest⟩
      · exact hhit
      · obtain ⟨k₁, h₁, -⟩ := (hstep r m₁ hr).sound h
        refine (ih h₁ (((hstep r m₁ hr).exact_iff hx).mpr hhit)).mp ?_ call m' hrest
        intro m'' hreached
        exact hall m'' (reached_cons.mpr (Or.inr ⟨r, m₁, hr, hreached⟩))
    · intro hall m' hreached
      have hhit := hall op m (called_cons.mpr (Or.inl ⟨rfl, rfl⟩))
      rcases reached_cons.mp hreached with rfl | ⟨r, m₁, hr, hrest⟩
      · exact hx
      · obtain ⟨k₁, h₁, -⟩ := (hstep r m₁ hr).sound h
        refine (ih h₁ (((hstep r m₁ hr).exact_iff hx).mpr hhit)).mpr ?_ m' hrest
        intro call m'' hcalled
        exact hall call m'' (called_cons.mpr (Or.inr ⟨r, m₁, hr, hcalled⟩))

end

/-- From `hashCreate` on, `count` and `tombstones` are exact in every table of a run if and only
if every `hashFind` and `hashRemove` of the run meets a stored key that no tombstone hides. -/
theorem hashCounters_exact_iff {α : Type} (useGc : Bool) (m : Memory α) (ops : List HashOp) :
    (∀ m', Reached useGc ops (hashCreate m) m' → m'.obj.Exact) ↔
      ∀ op m', Called useGc ops (hashCreate m) op m' → m'.obj.Hits op :=
  exact_run_iff (hashCreate_sound m) (hashCreate_filled m).exact

/-- One lookup in a new table is enough: it counts a key that is not there. -/
theorem hashFind_counts_absent_key :
    ∃ m', Reached false [.find keyA 8] (hashCreate Memory.boot) m' ∧
      m'.obj.count = 1 ∧ m'.obj.live = 0 ∧ ¬m'.obj.Exact := by
  refine ⟨_, ⟨[.find keyA 8], List.prefix_refl _, [(.HASH_NF, none)], 4, rfl⟩, rfl, rfl, ?_⟩
  intro h
  have hcount := h.1
  revert hcount
  decide

end Rdpgen
