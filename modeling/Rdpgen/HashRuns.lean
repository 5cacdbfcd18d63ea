import Rdpgen.HashTable

namespace Rdpgen

open Probing

/-- A call of one of the three operations. -/
inductive HashOp where
  | insert (key : CStr) (data : Option Bytes) (size : Nat)
  | find (key : CStr) (size : Nat)
  | remove (key : CStr)

/-- What a call returns, with what `hashFind` copies. -/
abbrev HashAnswer := HashResult × Option Bytes

def runOp (useGc : Bool) (op : HashOp) : HashProg HashAnswer :=
  match op with
  | .insert key data size => do
    let r ← hashInsert useGc key data size
    pure (r, none)
  | .find key size => hashFind key size
  | .remove key => do
    let r ← hashRemove useGc key
    pure (r, none)

def runOps (useGc : Bool) : List HashOp → HashProg (List HashAnswer)
  | [] => pure []
  | op :: ops => do
    let r ← runOp useGc op
    let rs ← runOps useGc ops
    pure (r :: rs)

/-- The counters after a stop at the cell. -/
def Hash.counted (tab : Hash) (c : Cell CStr) : Hash :=
  match c with
  | .empty => { tab with count := tab.count + 1 }
  | .tomb => { tab with count := tab.count + 1, tombstones := tab.tombstones - 1 }
  | .live _ => tab

/-- The tombstone that `hashRemove` leaves. -/
def tombNode (addr : Nat) : Block HashNode := ⟨addr, { key := none, data := none, size := 0 }⟩

def Hash.buried (tab : Hash) (i : Nat) (addr : Nat) : Hash :=
  { tab.withSlot i (some (tombNode addr)) with
    count := tab.count - 1, tombstones := tab.tombstones + 1 }

def payload (node : Block HashNode) : Bytes := (node.val.data.map Block.val).getD []

/-- What `rehash_table` makes of a table when it returns. -/
inductive Hash.Rehashed (tab : Hash) : Hash → Prop where
  | idle (h : tab.crowded = false) : Hash.Rehashed tab tab
  | grown {tab' : Hash} {k : Nat} (h : tab.crowded = true) (sized : tab.Sized k)
      (moved : tab'.Moved tab.table.val tab.table.val.length (k + 1)) : Hash.Rehashed tab tab'

/-- The node `hashInsert` makes of its arguments. -/
def Fresh (node : Block HashNode) (key : CStr) (data : Option Bytes) (size : Nat) : Prop :=
  node.val.key.map Block.val = some key ∧
  node.val.data.map Block.val = (if size = 0 then none else data.map (·.take size)) ∧
  node.val.size = if data.isSome then size else 0

/-- The ways in which a call returns. -/
inductive HashStep : Hash → HashOp → HashAnswer → Hash → Prop where
  | found {tab : Hash} {key : CStr} {i size : Nat} {node : Block HashNode}
      (stop : tab.Stop key i (some node)) (live : slotCell (some node) = .live key) :
      HashStep tab (.find key size) (.HASH_OK, some ((payload node).take size)) tab
  | notFound {tab : Hash} {key : CStr} {i size : Nat} {s : Slot}
      (stop : tab.Stop key i s) (free : slotCell s ≠ .live key) (room : tab.count + 1 < 2 ^ 31) :
      HashStep tab (.find key size) (.HASH_NF, none) (tab.counted (slotCell s))
  | removed {tab : Hash} {key : CStr} {i : Nat} {node : Block HashNode}
      (stop : tab.Stop key i (some node)) (live : slotCell (some node) = .live key) :
      HashStep tab (.remove key) (.HASH_OK, none) (tab.buried i node.addr)
  | notRemoved {tab : Hash} {key : CStr} {i : Nat} {s : Slot}
      (stop : tab.Stop key i s) (free : slotCell s ≠ .live key) (room : tab.count + 1 < 2 ^ 31) :
      HashStep tab (.remove key) (.HASH_NF, none) (tab.counted (slotCell s))
  | duplicate {tab tab' : Hash} {key : CStr} {data : Option Bytes} {i size : Nat} {s : Slot}
      (rehashed : tab.Rehashed tab') (stop : tab'.Stop key i s) (live : slotCell s = .live key) :
      HashStep tab (.insert key data size) (.HASH_DUP, none) tab'
  | inserted {tab tab' : Hash} {key : CStr} {data : Option Bytes} {i size : Nat} {s : Slot}
      {node : Block HashNode}
      (rehashed : tab.Rehashed tab') (stop : tab'.Stop key i s) (free : slotCell s ≠ .live key)
      (fresh : Fresh node key data size) :
      HashStep tab (.insert key data size) (.HASH_OK, none)
        ((tab'.counted (slotCell s)).withSlot i (some node))

/-- The ways in which a call does not return. -/
inductive HashLeaves (useGc : Bool) (tab : Hash) : HashOp → Halt → Prop where
  | overflowFind {key : CStr} {i size : Nat} {s : Slot} (stop : tab.Stop key i s)
      (free : slotCell s ≠ .live key) (full : 2 ^ 31 ≤ tab.count + 1) :
      HashLeaves useGc tab (.find key size) .fault
  | overflowRemove {key : CStr} {i : Nat} {s : Slot} (stop : tab.Stop key i s)
      (free : slotCell s ≠ .live key) (full : 2 ^ 31 ≤ tab.count + 1) :
      HashLeaves useGc tab (.remove key) .fault
  | overread {key : CStr} {i size : Nat} {node : Block HashNode} (stop : tab.Stop key i (some node))
      (live : slotCell (some node) = .live key) (short : (payload node).length < size) :
      HashLeaves useGc tab (.find key size) .fault
  | freeNull {key : CStr} {i : Nat} {node : Block HashNode} (stop : tab.Stop key i (some node))
      (live : slotCell (some node) = .live key) (null : node.val.data = none)
      (manual : useGc = false) : HashLeaves useGc tab (.remove key) (.exit 1)
  | tableTooBig {key : CStr} {data : Option Bytes} {size : Nat} (crowded : tab.crowded = true)
      (sized : tab.Sized 30) : HashLeaves useGc tab (.insert key data size) (.exit 1)
  | dataTooBig {key : CStr} {bytes : Bytes} {size : Nat} (big : ptrdiffMax < size) :
      HashLeaves useGc tab (.insert key (some bytes) size) (.exit 1)
  | dataShort {key : CStr} {bytes : Bytes} {size : Nat} (short : bytes.length < size) :
      HashLeaves useGc tab (.insert key (some bytes) size) .fault

/-- What holds of every table in use: the counters drift, but only so far. -/
structure Hash.Sound (tab : Hash) (k : Nat) : Prop where
  sized : tab.Sized k
  placed : Placed tab.path tab.cell
  live_lt : tab.live < 2 ^ k
  live_le : tab.live ≤ tab.count
  count_lt : tab.count < 2 ^ 31
  debt : 0 ≤ tab.count + tab.tombstones
  tombstones_le : tab.tombstones ≤ tab.tombs

section

variable {useGc : Bool} {m : Memory Hash} {k : Nat}

/-- A probe counts what it stops at unless the counter is at its end. -/
theorem wp_countStop {c : Cell CStr} {Q : Unit → Memory Hash → Prop}
    {E : Halt → Memory Hash → Prop} {D : Prop} (h : m.obj.Sound k)
    (ok : ((∀ key, c ≠ .live key) → m.obj.count + 1 < 2 ^ 31) →
      Q () { m with obj := m.obj.counted c })
    (overflow : (∀ key, c ≠ .live key) → 2 ^ 31 ≤ m.obj.count + 1 → ∀ m', E .fault m') :
    (countStop c).wp Q E D m := by
  have hlow := h.live_le
  have hdebt := h.debt
  have hlt := h.count_lt
  have htombs := h.tombstones_le
  have hle := h.sized.tombs_le
  have hcap := h.sized.cap_le
  rw [h.sized.capNat] at hcap
  cases c with
  | empty =>
    unfold countStop
    rw [wp_addCount]
    split
    · next hfit => exact ok fun _ => hfit.2
    · next hover => exact overflow (fun key he => by cases he) (by omega) _
  | tomb =>
    unfold countStop
    simp only [Prog.wp_bind]
    rw [wp_addTombstones, if_pos (by omega), wp_addCount]
    split
    · next hfit => exact ok fun _ => hfit.2
    · next hover =>
      exact overflow (fun key he => by cases he) (by simp only at hover; omega) _
  | live key => exact wp_countStop_live.mpr (ok fun hne => (hne key rfl).elim)

@[simp] theorem Hash.counted_table (tab : Hash) (c : Cell CStr) :
    (tab.counted c).table = tab.table := by
  cases c <;> rfl

theorem matching_live {node : Block HashNode} {key : CStr}
    (h : slotCell (some node) = .live key) : matching (some node) key = some node := by
  obtain ⟨kb, hk, hkey⟩ := key_of_live h
  simp [matching, hk, hkey]

theorem matching_free {s : Slot} {key : CStr} (h : slotCell s ≠ .live key) :
    matching s key = none := by
  cases s with
  | none => rfl
  | some node =>
    cases hk : node.val.key with
    | none => simp [matching, hk]
    | some kb =>
      have hne : kb.val ≠ key := fun he => h (by simp [slotCell, hk, he])
      simp [matching, hk, hne]

theorem wp_slotAtInt {i : Nat} {s : Slot} {Q : Slot → Memory Hash → Prop}
    {E : Halt → Memory Hash → Prop} {D : Prop} (h : m.obj.table.val[i]? = some s) :
    (slotAtInt i).wp Q E D m ↔ Q s m := by
  unfold slotAtInt
  rw [if_pos (by omega), Int.toNat_natCast, wp_slotAt h]

theorem wp_setSlotInt {i : Nat} {s : Slot} {Q : Unit → Memory Hash → Prop}
    {E : Halt → Memory Hash → Prop} {D : Prop} (h : i < m.obj.table.val.length) :
    (setSlotInt i s).wp Q E D m ↔ Q () { m with obj := m.obj.withSlot i s } := by
  unfold setSlotInt
  rw [if_pos (by omega), Int.toNat_natCast, wp_setSlot h]
  rfl

/-- The three operations begin with a probe. -/
theorem probe_wp {β : Type} {key : CStr} {f : Int → HashProg β} {Q : β → Memory Hash → Prop}
    {E : Halt → Memory Hash → Prop} {D : Prop} (h : m.obj.Sound k)
    (live : ∀ (i : Nat) node, m.obj.Stop key i (some node) → slotCell (some node) = .live key →
      (f i).wp Q E D m)
    (free : ∀ (i : Nat) s, m.obj.Stop key i s → slotCell s ≠ .live key →
      m.obj.count + 1 < 2 ^ 31 → (f i).wp Q E D { m with obj := m.obj.counted (slotCell s) })
    (overflow : ∀ i s, m.obj.Stop key i s → slotCell s ≠ .live key → 2 ^ 31 ≤ m.obj.count + 1 →
      ∀ m', E .fault m') :
    (findSlot key >>= f).wp Q E D m := by
  obtain ⟨i, s, -, hstop, hfind⟩ := findSlot_stop h.sized h.placed h.live_lt key
  simp only [Prog.wp_bind, hfind]
  by_cases hmatch : slotCell s = .live key
  · obtain ⟨node, hs⟩ := slotCell_live hmatch
    subst hs
    rw [hmatch, wp_countStop_live]
    exact live i node hstop hmatch
  · have hother : ∀ key', slotCell s ≠ .live key' :=
      fun key' he => hmatch (hstop.stops.eq_live he)
    exact wp_countStop h (fun hroom => free i s hstop hmatch (hroom hother))
      (fun _ => overflow i s hstop hmatch)

section

variable {key : CStr} {size : Nat} {data : Option Bytes} {E : Halt → Memory Hash → Prop} {D : Prop}

theorem hashFind_wp {Q : HashAnswer → Memory Hash → Prop} (h : m.obj.Sound k)
    (ok : ∀ r m', HashStep m.obj (.find key size) r m'.obj → Q r m')
    (leave : ∀ e m', HashLeaves useGc m.obj (.find key size) e → E e m') :
    (hashFind key size).wp Q E D m := by
  unfold hashFind
  refine probe_wp h ?_ ?_ ?_
  · intro i node hstop hlive
    have hcopy : ∀ m' : Memory Hash, m'.obj = m.obj →
        (do
          let copy ← copyData node.val size
          pure (HashResult.HASH_OK, some copy)).wp Q E D m' := by
      intro m' hm
      have hdata : copyData node.val size = memcpyFrom (payload node) size := by
        unfold copyData payload
        cases node.val.data <;> rfl
      rw [hdata]
      unfold memcpyFrom
      split
      · simp only [Prog.wp_bind, Prog.wp_pure]
        exact ok _ _ (by rw [hm]; exact .found hstop hlive)
      · next hshort =>
        simp only [Prog.wp_bind, wp_fault]
        exact leave _ _ (.overread hstop hlive (by omega))
    rw [Prog.wp_bind, wp_slotAtInt hstop.slot]
    simp only [matching_live hlive]
    split
    · rw [Prog.wp_bind, Prog.wp_modify]
      exact hcopy _ rfl
    · exact hcopy m rfl
  · intro i s hstop hfree hroom
    rw [Prog.wp_bind, wp_slotAtInt (by rw [Hash.counted_table]; exact hstop.slot)]
    simp only [matching_free hfree, Prog.wp_pure]
    exact ok _ _ (.notFound hstop hfree hroom)
  · intro i s hstop hfree hfull m'
    exact leave _ _ (.overflowFind hstop hfree hfull)

/-- The node that `hashRemove` found becomes a tombstone. -/
theorem buryNode_wp {i : Nat} {node : Block HashNode} {Q : HashResult → Memory Hash → Prop}
    (h : m.obj.Sound k) (hstop : m.obj.Stop key i (some node))
    (hlive : slotCell (some node) = .live key)
    (ok : Q .HASH_OK { m with obj := m.obj.buried i node.addr }) :
    (do
      setSlotInt i (some { node with val := { key := none, data := none, size := 0 } })
      addCount (-1)
      addTombstones 1
      pure HashResult.HASH_OK).wp Q E D m := by
  have hlen : i < m.obj.table.val.length := (List.getElem?_eq_some_iff.mp hstop.slot).1
  have hpos : 0 < m.obj.live := by
    have hadd := Hash.live_withSlot (s := none) hstop.slot
    have hnone : Slot.isLive none = false := rfl
    rw [if_pos (isLive_of_slotCell hlive), hnone, if_neg Bool.false_ne_true] at hadd
    omega
  have hlow := h.live_le
  have hlt := h.count_lt
  have hdebt := h.debt
  have htombs := h.tombstones_le
  have hle := h.sized.tombs_le
  have hcap := h.sized.cap_le
  rw [h.sized.capNat] at hcap
  have hcount : -2 ^ 31 ≤ m.obj.count + -1 ∧ m.obj.count + -1 < 2 ^ 31 := by omega
  have hmany : -2 ^ 31 ≤ m.obj.tombstones + 1 ∧ m.obj.tombstones + 1 < 2 ^ 31 := by omega
  simp only [Prog.wp_bind]
  rw [wp_setSlotInt hlen, wp_addCount, if_pos (by exact hcount), wp_addTombstones,
    if_pos (by exact hmany), Prog.wp_pure]
  exact ok

theorem hashRemove_wp {Q : HashResult → Memory Hash → Prop} (h : m.obj.Sound k)
    (ok : ∀ r m', HashStep m.obj (.remove key) (r, none) m'.obj → Q r m')
    (leave : ∀ e m', HashLeaves useGc m.obj (.remove key) e → E e m') :
    (hashRemove useGc key).wp Q E D m := by
  unfold hashRemove
  refine probe_wp h ?_ ?_ ?_
  · intro i node hstop hlive
    rw [Prog.wp_bind, wp_slotAtInt hstop.slot]
    simp only [matching_live hlive]
    rw [Prog.wp_bind]
    refine memFree_wp ?_ ?_
    · intro m' hm
      rw [Prog.wp_bind]
      refine memFree_wp ?_ ?_
      · intro m'' hm'
        have hsame : m''.obj = m.obj := hm'.trans hm
        have hstop' : m''.obj.Stop key i (some node) := hsame ▸ hstop
        refine buryNode_wp (hsame ▸ h) hstop' hlive (ok _ _ ?_)
        show HashStep m.obj (.remove key) (.HASH_OK, none) (m''.obj.buried i node.addr)
        rw [hsame]
        exact .removed hstop hlive
      · intro hnull
        obtain ⟨kb, hk, -⟩ := key_of_live hlive
        simp [hk] at hnull
    · intro hnull hgc m'
      exact leave _ _ (.freeNull hstop hlive (by simpa using hnull) hgc)
  · intro i s hstop hfree hroom
    rw [Prog.wp_bind, wp_slotAtInt (by rw [Hash.counted_table]; exact hstop.slot)]
    simp only [matching_free hfree, Prog.wp_pure]
    exact ok _ _ (.notRemoved hstop hfree hroom)
  · intro i s hstop hfree hfull m'
    exact leave _ _ (.overflowRemove hstop hfree hfull)

theorem dupData_wp {Q : Option (Block Bytes) × Nat → Memory Hash → Prop}
    (ok : ∀ d (m' : Memory Hash), m'.obj = m.obj →
      d.1.map Block.val = (if size = 0 then none else data.map (·.take size)) →
      d.2 = (if data.isSome then size else 0) → Q d m')
    (big : ∀ bytes, data = some bytes → ptrdiffMax < size → ∀ m', E (.exit 1) m')
    (short : ∀ bytes, data = some bytes → bytes.length < size → ∀ m', E .fault m') :
    (dupData data size).wp Q E D m := by
  unfold dupData
  cases data with
  | none =>
    rw [Prog.wp_pure]
    exact ok _ m rfl (by simp) rfl
  | some bytes =>
    by_cases hsize : size = 0
    · simp only [hsize, ne_eq, not_true, if_false, Prog.wp_pure]
      exact ok _ m rfl (by simp [hsize]) (by simp [hsize])
    · simp only [hsize, ne_eq, not_false_iff, if_true, Prog.wp_bind]
      by_cases hbig : ptrdiffMax < size
      · unfold memAlloc
        rw [if_pos hbig, wp_memError]
        exact big bytes rfl hbig _
      · rw [wp_memAlloc (by omega)]
        unfold memcpyFrom
        by_cases hshort : size ≤ bytes.length
        · simp only [hshort, if_true, Prog.wp_pure]
          exact ok _ _ rfl (by simp [hsize]) (by simp)
        · simp only [hshort, if_false, wp_fault]
          exact short bytes rfl (by omega) _

theorem Hash.Filled.sound {tab : Hash} (hf : tab.Filled k) (hlive : tab.live < 2 ^ k) :
    tab.Sound k := by
  have hcount := hf.count_eq
  have htombs := hf.tombstones_eq
  have hcap := hf.sized.cap_le
  rw [hf.sized.capNat] at hcap
  exact ⟨hf.sized, hf.placed, hlive, by omega, by omega, by omega, by omega⟩

/-- After `rehash_table` there is room for one more key. -/
theorem Hash.Rehashed.sound {tab tab' : Hash} (h : tab.Sound k) (hr : tab.Rehashed tab') :
    ∃ k', tab'.Sound k' ∧ tab'.live + 1 < 2 ^ k' ∧ tab'.count ≤ tab.count ∧
      tab'.count + 1 < 2 ^ 31 := by
  cases hr with
  | idle hc =>
    have hfew : ¬4 * tab.cap < 7 * tab.count := by simpa [Hash.crowded] using hc
    have hcap := h.sized.cap_eq
    have hlow := Nat.pow_le_pow_right (show 0 < 2 by omega) h.sized.low
    have hhigh := Nat.pow_le_pow_right (show 0 < 2 by omega) h.sized.high
    have hle := h.live_le
    exact ⟨k, h, by omega, Int.le_refl _, by omega⟩
  | @grown _ j _ hs hm =>
    have hold := hs.live_le
    have hlow := Nat.pow_le_pow_right (show 0 < 2 by omega) hs.low
    have hpow : 2 ^ (j + 1) = 2 * 2 ^ j := by rw [Nat.pow_succ, Nat.mul_comm]
    have hnew := hm.live_le
    rw [List.take_length] at hnew
    have hnew' : tab'.live ≤ tab.live := hnew
    have hcount := hm.filled.count_eq
    have hcap := hm.filled.sized.cap_le
    rw [hm.filled.sized.capNat] at hcap
    have hle := h.live_le
    exact ⟨j + 1, hm.filled.sound (by omega), by omega, by omega, by omega⟩

/-- The node of a new key is put where the probe stopped. -/
theorem storeNode_wp {a i : Nat} {Q : HashResult → Memory Hash → Prop}
    (hlen : i < m.obj.table.val.length)
    (ok : ∀ node (m' : Memory Hash), Fresh node key data size →
      m'.obj = m.obj.withSlot i (some node) → Q .HASH_OK m')
    {tab : Hash} (leave : ∀ e m', HashLeaves useGc tab (.insert key data size) e → E e m') :
    (do
      let k ← memDupStr key
      let d ← dupData data size
      setSlotInt i (some ⟨a, { key := some k, data := d.1, size := d.2 }⟩)
      pure HashResult.HASH_OK).wp Q E D m := by
  simp only [Prog.wp_bind, wp_memDupStr]
  refine dupData_wp ?_ ?_ ?_
  · intro d m' hobj hd1 hd2
    have hlen' : i < m'.obj.table.val.length := by rw [hobj]; exact hlen
    rw [wp_setSlotInt hlen', Prog.wp_pure]
    exact ok _ _ ⟨rfl, hd1, hd2⟩ (by rw [hobj])
  · intro bytes hbytes hbig m'
    subst hbytes
    exact leave _ _ (.dataTooBig hbig)
  · intro bytes hbytes hshort m'
    subst hbytes
    exact leave _ _ (.dataShort hshort)

/-- `hashInsert` behind the call of `rehash_table`. -/
theorem insertNode_wp {tab : Hash} {Q : HashResult → Memory Hash → Prop} (h : m.obj.Sound k)
    (hr : tab.Rehashed m.obj) (hcount : m.obj.count + 1 < 2 ^ 31)
    (ok : ∀ r m', HashStep tab (.insert key data size) (r, none) m'.obj → Q r m')
    (leave : ∀ e m', HashLeaves useGc tab (.insert key data size) e → E e m') :
    (findSlot key >>= fun slot =>
      if slot < 0 then pure .HASH_OK
      else do
        let s ← slotAtInt slot
        if (s.bind fun node => node.val.key).isSome then pure .HASH_DUP
        else do
          let a ← nodeAt s
          let k ← memDupStr key
          let d ← dupData data size
          setSlotInt slot (some ⟨a, { key := some k, data := d.1, size := d.2 }⟩)
          pure .HASH_OK).wp Q E D m := by
  refine probe_wp h ?_ ?_ ?_
  · intro i node hstop hlive
    obtain ⟨kb, hk, -⟩ := key_of_live hlive
    rw [if_neg (by omega), Prog.wp_bind, wp_slotAtInt hstop.slot]
    simp only [Option.bind_some, hk, Option.isSome_some, if_true, Prog.wp_pure]
    exact ok _ _ (.duplicate hr hstop hlive)
  · intro i s hstop hfree _
    have hslot : (m.obj.counted (slotCell s)).table.val[i]? = some s := by
      rw [Hash.counted_table]
      exact hstop.slot
    have hlen : i < (m.obj.counted (slotCell s)).table.val.length :=
      (List.getElem?_eq_some_iff.mp hslot).1
    have hdead : (s.bind fun node => node.val.key).isSome = false := (hstop.free hfree).2.2
    have hstored : ∀ node (m' : Memory Hash), Fresh node key data size →
        m'.obj = (m.obj.counted (slotCell s)).withSlot i (some node) → Q .HASH_OK m' := by
      intro node m' hfresh hobj
      apply ok _ _
      rw [hobj]
      exact .inserted hr hstop hfree hfresh
    rw [if_neg (by omega), Prog.wp_bind, wp_slotAtInt hslot]
    simp only [hdead, Bool.false_eq_true, if_false]
    rw [Prog.wp_bind]
    unfold nodeAt
    cases s with
    | none =>
      simp only
      rw [wp_memAlloc (by decide)]
      exact storeNode_wp hlen hstored leave
    | some node =>
      simp only
      rw [Prog.wp_pure]
      exact storeNode_wp hlen hstored leave
  · intro i s _ _ hfull
    omega

theorem hashInsert_wp {Q : HashResult → Memory Hash → Prop} (h : m.obj.Sound k)
    (ok : ∀ r m', HashStep m.obj (.insert key data size) (r, none) m'.obj → Q r m')
    (leave : ∀ e m', HashLeaves useGc m.obj (.insert key data size) e → E e m') :
    (hashInsert useGc key data size).wp Q E D m := by
  unfold hashInsert
  rw [Prog.wp_bind]
  by_cases hc : m.obj.crowded = true
  · rcases Nat.lt_or_ge k 30 with hk | hk
    · refine rehashTable_wp h.sized (by omega) hc fun m₁ hm => ?_
      obtain ⟨k', hsound, -, -, hcount⟩ := (Hash.Rehashed.grown hc h.sized hm).sound h
      exact insertNode_wp hsound (.grown hc h.sized hm) hcount ok leave
    · have h30 : k = 30 := Nat.le_antisymm h.sized.high hk
      subst h30
      exact rehashTable_refused h.sized hc fun m' => leave _ m' (.tableTooBig hc h.sized)
  · have hidle : m.obj.crowded = false := by simpa using hc
    obtain ⟨k', hsound, -, -, hcount⟩ := (Hash.Rehashed.idle hidle).sound h
    rw [rehashTable_idle hidle]
    exact insertNode_wp hsound (.idle hidle) hcount ok leave

/-- All that a call on a table in use can do. -/
theorem runOp_wp {op : HashOp} (h : m.obj.Sound k) :
    (runOp useGc op).wp (fun r m' => HashStep m.obj op r m'.obj)
      (fun e _ => HashLeaves useGc m.obj op e) False m := by
  cases op with
  | insert key data size =>
    unfold runOp
    simp only [Prog.wp_bind, Prog.wp_pure_eq]
    exact hashInsert_wp h (fun r m' hstep => hstep) (fun e m' he => he)
  | find key size => exact hashFind_wp h (fun r m' hstep => hstep) (fun e m' he => he)
  | remove key =>
    unfold runOp
    simp only [Prog.wp_bind, Prog.wp_pure_eq]
    exact hashRemove_wp h (fun r m' hstep => hstep) (fun e m' he => he)

end

end

end Rdpgen
