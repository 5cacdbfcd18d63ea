import Rdpgen.HashBag
import Rdpgen.HashDict
import Mathlib.Data.List.Pairwise

namespace Rdpgen

open Probing

/-- The callback leaves the table alone. -/
def HashDumpFunc.Keeps (func : HashDumpFunc) : Prop :=
  ∀ key data m, (func key data).wp (fun _ m' => m'.obj = m.obj) (fun _ _ => True) True m

/-- The callback for one entry after the other. -/
def present (func : HashDumpFunc) : List HashEntry → HashProg Unit
  | [] => pure ()
  | e :: es => do
    func e.1 e.2
    present func es

/-- The map behind a run. -/
def Dict.after (d : Dict) : List HashOp → Dict
  | [] => d
  | op :: ops => Dict.after (d.call op).2 ops

section

variable {func : HashDumpFunc} {m : Memory Hash} {Q : Unit → Memory Hash → Prop}
  {E : Halt → Memory Hash → Prop} {D : Prop}

theorem dumpSlot_wp {i : Nat} {s : Slot} {Q : Int → Memory Hash → Prop}
    (h : m.obj.table.val[i]? = some s) :
    (dumpSlot func i).wp Q E D m ↔
      (present func s.entry.toList).wp (fun _ => Q (i + 1 : Nat)) E D m := by
  unfold dumpSlot
  rw [Prog.wp_bind, wp_slotAtInt h]
  cases s with
  | none => simp [Slot.entry, present]
  | some node =>
    cases hk : node.val.key with
    | none => simp [Slot.entry, present, hk]
    | some kb => simp [Slot.entry, present, hk, Prog.wp_pure_eq]

theorem present_append (es es' : List HashEntry) :
    (present func (es ++ es')).wp Q E D m ↔
      (present func es).wp (fun _ => (present func es').wp Q E D) E D m := by
  induction es generalizing m with
  | nil => simp only [List.nil_append, present, Prog.wp_pure]
  | cons e es ih =>
    simp only [List.cons_append, present, Prog.wp_bind]
    exact Prog.wp.congr (R := fun _ _ => True) ⟨fun _ _ _ => trivial, fun _ _ _ => trivial, fun _ => trivial⟩
      fun _ t _ => ih (m := t)

theorem present_keeps (hfunc : func.Keeps) (es : List HashEntry) :
    (present func es).wp (fun _ m' => m'.obj = m.obj) (fun _ _ => True) True m := by
  induction es generalizing m with
  | nil => exact Prog.wp_pure.mpr rfl
  | cons e es ih =>
    unfold present
    rw [Prog.wp_bind]
    apply (hfunc e.1 e.2 m).imp
    intro _ m₁ h₁
    exact ih.imp fun _ _ h => h.trans h₁

/-- The loop from entry `i` on. -/
theorem dumpSlots_wp (hfunc : func.Keeps) {tab : Hash} {n i : Nat}
    (hcap : tab.cap = tab.table.val.length) (hn : i + n = tab.table.val.length) (hm : m.obj = tab) :
    (Prog.whileDo (fun i m => decide (i < m.obj.cap)) (dumpSlot func) (i : Int)).wp
        (fun _ => Q ()) E D m ↔
      (present func ((tab.table.val.drop i).filterMap Slot.entry)).wp Q E D m := by
  induction n generalizing i m with
  | zero =>
    have hdrop : tab.table.val.drop i = [] := List.drop_eq_nil_iff.mpr (by omega)
    rw [Prog.wp_whileDo, if_neg (by rw [hm, decide_eq_true_iff]; omega), hdrop]
    exact Prog.wp_pure.symm
  | succ n ih =>
    have hi : i < tab.table.val.length := by omega
    have hslot : tab.table.val[i]? = some tab.table.val[i] := List.getElem?_eq_getElem hi
    have hentries : (tab.table.val.drop i).filterMap Slot.entry =
        (Slot.entry tab.table.val[i]).toList ++ (tab.table.val.drop (i + 1)).filterMap Slot.entry := by
      rw [List.drop_eq_getElem_cons hi, List.filterMap_cons]
      cases Slot.entry tab.table.val[i] <;> rfl
    rw [Prog.wp_whileDo, if_pos (by rw [hm, decide_eq_true_iff]; omega),
      dumpSlot_wp (by rw [hm]; exact hslot), hentries, present_append]
    refine (present_keeps hfunc _).congr ?_
    intro _ m₁ h₁
    exact ih (by omega) (h₁.trans hm)

/-- The callback gets the entries of the table, one after the other. -/
theorem hashDump_wp (hfunc : func.Keeps) {k : Nat} (hs : m.obj.Sized k) :
    (hashDump func).wp Q E D m ↔ (present func m.obj.entryList).wp Q E D m := by
  have hcap : m.obj.cap = m.obj.table.val.length := by rw [hs.cap_eq, hs.length_eq]
  have hloop := dumpSlots_wp (Q := Q) (E := E) (D := D) hfunc hcap (Nat.zero_add _) rfl
  rw [List.drop_zero] at hloop
  unfold hashDump
  rw [Prog.wp_bind]
  simp only [Prog.wp_pure_eq]
  exact hloop

end

section

variable {tab : Hash} {d : Dict}

theorem slotCell_of_entry {s : Slot} {e : HashEntry} (h : s.entry = some e) :
    slotCell s = .live e.1 := by
  obtain ⟨node, rfl, hnode⟩ := Option.bind_eq_some_iff.mp h
  obtain ⟨kb, hk, rfl⟩ := Option.map_eq_some_iff.mp hnode
  simp [slotCell, hk]

theorem Hash.keys_nodup (h : Distinct tab.cell) : (tab.entryList.map Prod.fst).Nodup := by
  have hslots : tab.table.val.Pairwise fun s t => ∀ e e', s.entry = some e → t.entry = some e' →
      e.1 ≠ e'.1 := by
    rw [List.pairwise_iff_getElem]
    intro i j hi hj hij e e' he he' hsame
    have hcell : tab.cell i = .live e.1 := by
      rw [Hash.cell_of_slot (List.getElem?_eq_getElem hi), slotCell_of_entry he]
    have hcell' : tab.cell j = .live e.1 := by
      rw [Hash.cell_of_slot (List.getElem?_eq_getElem hj), slotCell_of_entry he', hsame]
    exact absurd (h i j e.1 hcell hcell') (by omega)
  rw [List.Nodup, List.pairwise_map]
  unfold Hash.entryList
  rw [List.pairwise_filterMap]
  exact hslots.imp fun hne e he e' he' => hne e e' he he'

theorem Carries.entry {node : Block HashNode} {key : CStr} {v : Bytes} (h : Carries node key v) :
    Slot.entry (some node) = some (key, some v) := by
  obtain ⟨kb, hk, hkey⟩ := Option.map_eq_some_iff.mp h.1
  simp [Slot.entry, hk, hkey, h.2]

/-- The entries of a table that stands for a map are those of the map. -/
theorem Hash.Represents.mem_entryList (h : tab.Represents d) {e : HashEntry} :
    e ∈ tab.entryList ↔ ∃ v, e.2 = some v ∧ d e.1 = some v := by
  constructor
  · intro he
    obtain ⟨s, hs, hentry⟩ := List.mem_filterMap.mp he
    obtain ⟨node, rfl, -⟩ := Option.bind_eq_some_iff.mp hentry
    obtain ⟨i, hi⟩ := List.mem_iff_getElem?.mp hs
    obtain ⟨key, v, hcarry, hv⟩ :=
      h.node node (Hash.mem_nodes.mpr ⟨i, hi, e.1, slotCell_of_entry hentry⟩)
    rw [hcarry.entry] at hentry
    cases hentry
    exact ⟨v, rfl, hv⟩
  · intro he
    obtain ⟨v, hv, hd⟩ := he
    obtain ⟨node, hmem, hcarry⟩ := h.entry e.1 v hd
    obtain ⟨i, hi, -⟩ := Hash.mem_nodes.mp hmem
    refine List.mem_filterMap.mpr ⟨some node, List.mem_of_getElem? hi, ?_⟩
    rw [hcarry.entry, ← hv]

end

/-- A run whose calls are all served ends with a table that stands for the map behind it. -/
theorem runOps_represents {useGc : Bool} {ops : List HashOp} {m : Memory Hash} {d : Dict} {k : Nat}
    (h : m.obj.Sound k) (hr : m.obj.Represents d) (hvalid : ValidCalls d ops)
    (hserved : ∀ op m', Called useGc ops m op m' → m'.obj.Serves op) :
    ∃ m' k', (runOps useGc ops).Runs m (.ok (d.answers ops) m') ∧ m'.obj.Represents (d.after ops) ∧
      m'.obj.Sound k' := by
  induction ops generalizing m d k with
  | nil => exact ⟨m, k, runs_nil.mpr ⟨rfl, rfl⟩, hr, h⟩
  | cons op ops ih =>
    have hserves := hserved op m (called_cons.mpr (Or.inl ⟨rfl, rfl⟩))
    obtain ⟨m₁, hop, hr₁, k₁, h₁⟩ : ∃ m₁, (runOp useGc op).Runs m (.ok (d.call op).1 m₁) ∧
        m₁.obj.Represents (d.call op).2 ∧ ∃ k₁, m₁.obj.Sound k₁ :=
      runOp_returns_of_serves h hr hvalid.1 hserves
    obtain ⟨m', k', hops, hr', h'⟩ := ih h₁ hr₁ hvalid.2 fun call m'' hcalled =>
      hserved call m'' (called_cons.mpr (Or.inr ⟨_, m₁, hop, hcalled⟩))
    exact ⟨m', k', runs_cons.mpr ⟨_, m₁, _, hop, hops, rfl⟩, hr', h'⟩

/-- After a run whose calls are all served, `hashDump` goes through the keys of the map, each one
once and with its payload. -/
theorem hashDump_presents {α : Type} (useGc : Bool) (m : Memory α) (ops : List HashOp)
    (hvalid : ValidCalls Dict.empty ops)
    (hserved : ∀ op m', Called useGc ops (hashCreate m) op m' → m'.obj.Serves op) :
    ∃ m' es, (runOps useGc ops).Runs (hashCreate m) (.ok (Dict.empty.answers ops) m') ∧
      (es.map Prod.fst).Nodup ∧
      (∀ e, e ∈ es ↔ ∃ v, e.2 = some v ∧ Dict.empty.after ops e.1 = some v) ∧
      ∀ func : HashDumpFunc, func.Keeps → ∀ Q E D,
        (hashDump func).wp Q E D m' ↔ (present func es).wp Q E D m' := by
  obtain ⟨m', k, hrun, hr, h⟩ :=
    runOps_represents (hashCreate_sound m) (hashCreate_represents m) hvalid hserved
  exact ⟨m', m'.obj.entryList, hrun, Hash.keys_nodup hr.distinct, fun _ => hr.mem_entryList,
    fun func hfunc _ _ _ => hashDump_wp hfunc h.sized⟩

theorem keptCalls_served (op : HashOp) (m' : Memory Hash)
    (h : Called false keptCalls (hashCreate Memory.boot) op m') : m'.obj.Serves op := by
  have hrun : ∃ m₁, (runOps false keptCalls).Runs (hashCreate Memory.boot)
      (.ok (Dict.empty.answers keptCalls) m₁) := ⟨_, 9, rfl⟩
  exact (answers_run_iff (hashCreate_sound _) (hashCreate_represents _) keptCalls_valid).mp hrun op m' h

theorem hashDump_presents_kept :
    ∃ m', (runOps false keptCalls).Runs (hashCreate Memory.boot)
        (.ok [(.HASH_OK, none), (.HASH_OK, none), (.HASH_OK, none), (.HASH_OK, some [1])] m') ∧
      ∀ func : HashDumpFunc, func.Keeps → ∀ Q E D,
        (hashDump func).wp Q E D m' ↔ (func keyA (some [1])).wp Q E D m' := by
  obtain ⟨m', es, hrun, hnodup, hmem, hdump⟩ :=
    hashDump_presents false Memory.boot keptCalls keptCalls_valid keptCalls_served
  have hafter : ∀ key v, Dict.empty.after keptCalls key = some v ↔ key = keyA ∧ v = [1] := by
    intro key v
    have hother : keyI ≠ keyA := by decide
    have hmap : Dict.empty.after keptCalls = Function.update Dict.empty keyA (some [1]) := by
      funext key
      by_cases hI : key = keyI
      · simp [keptCalls, Dict.after, Dict.call, Dict.empty, hI, hother,
          hother.symm]
      · simp [keptCalls, Dict.after, Dict.call, Dict.empty, Function.update_apply, hI, hother,
          hother.symm]
    rw [hmap, Function.update_apply]
    split
    · next hA => simp [hA, eq_comm]
    · next hA => simp [hA, Dict.empty]
  have hone : es = [(keyA, some [1])] := by
    refine List.perm_singleton.mp
      ((List.perm_ext_iff_of_nodup (List.Nodup.of_map _ hnodup) (List.nodup_singleton _)).mpr ?_)
    intro e
    rw [hmem, List.mem_singleton]
    simp only [hafter, Prod.ext_iff]
    constructor
    · intro h
      obtain ⟨v, hv, hkey, rfl⟩ := h
      exact ⟨hkey, hv⟩
    · intro h
      exact ⟨[1], h.2, h.1, rfl⟩
  refine ⟨m', hrun, fun func hfunc Q E D => ?_⟩
  rw [hdump func hfunc, hone]
  simp only [present, Prog.wp_bind, Prog.wp_pure_eq]

end Rdpgen
