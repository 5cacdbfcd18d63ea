import Rdpgen.Hash
import Rdpgen.Probing
import Mathlib.Data.Nat.ModEq

namespace Rdpgen

open Probing

def slotCell (s : Slot) : Cell CStr :=
  match s with
  | none => .empty
  | some node =>
    match node.val.key with
    | none => .tomb
    | some k => .live k.val

def cellAt (table : List Slot) (i : Nat) : Cell CStr := table[i]?.elim .empty slotCell

def Hash.cell (tab : Hash) : Nat → Cell CStr := cellAt tab.table.val

/-- The capacity is a power of two and the bucket array has that length. -/
structure Hash.Sized (tab : Hash) (k : Nat) : Prop where
  low : 3 ≤ k
  high : k ≤ 30
  cap_eq : tab.cap = (2 ^ k : Nat)
  length_eq : tab.table.val.length = 2 ^ k

/-! The probe path of a key in a table of `cap` buckets: one round with the
stride of the key, then one with stride 1. -/

def probeStart (cap : Nat) (key : CStr) : Nat := (hashFunc key).toNat % cap

def probeStride (cap : Nat) (key : CStr) : Nat :=
  if probeStart cap key % 16 = 0 then 1 else probeStart cap key % 16

def probePath (cap : Nat) (key : CStr) (m : Nat) : Nat :=
  if m < cap then (probeStart cap key + m * probeStride cap key) % cap
  else (probeStart cap key + (m - cap)) % cap

/-- The path in the table as it stands. -/
def Hash.path (tab : Hash) (key : CStr) (m : Nat) : Nat := probePath tab.cap.toNat key m

/-- What `find_slot` does to the counters where it stops. -/
def countStop : Cell CStr → HashProg Unit
  | .empty => addCount 1
  | .tomb => do
    addTombstones (-1)
    addCount 1
  | .live _ => pure ()

section

variable {Q : Unit → Memory Hash → Prop} {E : Halt → Memory Hash → Prop} {D : Prop}
  {m : Memory Hash}

theorem wp_slotAt {i : Nat} {s : Slot} {Q : Slot → Memory Hash → Prop}
    (h : m.obj.table.val[i]? = some s) : (slotAt i).wp Q E D m ↔ Q s m := by
  unfold slotAt
  simp only [Prog.wp_bind, wp_object, h, Prog.wp_pure]

theorem wp_setSlot {i : Nat} {s : Slot} (h : i < m.obj.table.val.length) :
    (setSlot i s).wp Q E D m ↔
      Q () { m with obj := { m.obj with
        table := { m.obj.table with val := m.obj.table.val.set i s } } } := by
  unfold setSlot
  simp only [Prog.wp_bind, wp_object, h, if_true, wp_setObject]

theorem wp_addCount {n : Int} :
    (addCount n).wp Q E D m ↔
      if -2 ^ 31 ≤ m.obj.count + n ∧ m.obj.count + n < 2 ^ 31 then
        Q () { m with obj := { m.obj with count := m.obj.count + n } }
      else E .fault m := by
  unfold addCount checkInt
  simp only [Prog.wp_bind, wp_object]
  split <;> simp

theorem wp_addTombstones {n : Int} :
    (addTombstones n).wp Q E D m ↔
      if -2 ^ 31 ≤ m.obj.tombstones + n ∧ m.obj.tombstones + n < 2 ^ 31 then
        Q () { m with obj := { m.obj with tombstones := m.obj.tombstones + n } }
      else E .fault m := by
  unfold addTombstones checkInt
  simp only [Prog.wp_bind, wp_object]
  split <;> simp

theorem wp_countStop_live {key : CStr} : (countStop (.live key)).wp Q E D m ↔ Q () m :=
  Prog.wp_pure

end

/-! The words of the probe loop as numbers. -/

section

variable {tab : Hash} {k : Nat}

theorem Hash.Sized.capNat (hs : tab.Sized k) : tab.cap.toNat = 2 ^ k := by
  rw [hs.cap_eq]
  exact Int.toNat_natCast (2 ^ k)

theorem Hash.Sized.capPos (hs : tab.Sized k) : 0 < tab.cap.toNat := by
  rw [hs.capNat]
  exact Nat.two_pow_pos k

theorem Hash.Sized.cap_le (hs : tab.Sized k) : tab.cap.toNat ≤ 2 ^ 30 := by
  rw [hs.capNat]
  exact Nat.pow_le_pow_right (by omega) hs.high

theorem Hash.Sized.mask_toNat (hs : tab.Sized k) : tab.mask.toNat = 2 ^ k - 1 := by
  have hle := hs.cap_le
  have hpos := hs.capPos
  have hcap := hs.capNat
  unfold Hash.mask UInt32.ofInt
  rw [UInt32.toNat_ofNat']
  omega

theorem Hash.Sized.and_mask (hs : tab.Sized k) (x : UInt32) :
    (x &&& tab.mask).toNat = x.toNat % 2 ^ k := by
  rw [UInt32.toNat_and, hs.mask_toNat, Nat.and_two_pow_sub_one_eq_mod]

theorem Hash.Sized.hop_toNat (hs : tab.Sized k) (x inc : UInt32) :
    ((x + inc) &&& tab.mask).toNat = (x.toNat + inc.toNat) % 2 ^ k := by
  have hdvd : 2 ^ k ∣ 2 ^ 32 := Nat.pow_dvd_pow 2 (by have := hs.high; omega)
  rw [hs.and_mask, UInt32.toNat_add, Nat.mod_mod_of_dvd _ hdvd]

theorem and_0x0F_toNat (x : UInt32) : (x &&& 0x0F).toNat = x.toNat % 16 := by
  rw [UInt32.toNat_and]
  exact Nat.and_two_pow_sub_one_eq_mod x.toNat 4

end

/-- The hash after `n` further hops. -/
def hops (mask inc hash : UInt32) : Nat → UInt32
  | 0 => hash
  | n + 1 => hops mask inc ((hash + inc) &&& mask) n

section

variable {tab : Hash} {k : Nat}

theorem Hash.Sized.hops_toNat (hs : tab.Sized k) (inc : UInt32) (n : Nat) {hash : UInt32}
    (hh : hash.toNat < 2 ^ k) :
    (hops tab.mask inc hash n).toNat = (hash.toNat + n * inc.toNat) % 2 ^ k := by
  induction n generalizing hash with
  | zero => simp [hops, Nat.mod_eq_of_lt hh]
  | succ n ih =>
    have hlt : ((hash + inc) &&& tab.mask).toNat < 2 ^ k := by
      rw [hs.hop_toNat]
      exact Nat.mod_lt _ (Nat.two_pow_pos k)
    have hsum : hash.toNat + inc.toNat + n * inc.toNat = hash.toNat + (n + 1) * inc.toNat := by
      rw [Nat.add_one_mul]
      omega
    simp only [hops]
    rw [ih hlt, hs.hop_toNat, Nat.mod_add_mod, hsum]

theorem Hash.Sized.slot_of_lt (hs : tab.Sized k) {i : Nat} (hi : i < 2 ^ k) :
    ∃ s, tab.table.val[i]? = some s ∧ tab.cell i = slotCell s := by
  rw [← hs.length_eq] at hi
  refine ⟨tab.table.val[i], List.getElem?_eq_getElem hi, ?_⟩
  simp [Hash.cell, cellAt, hi]

end

section

variable {Q : Probe → Memory Hash → Prop} {E : Halt → Memory Hash → Prop} {D : Prop}
  {m : Memory Hash} {k : Nat} {key : CStr} {p : Probe}

theorem probePass_stop (hs : m.obj.Sized k) (hh : p.hash.toNat < 2 ^ k)
    (hstop : (m.obj.cell p.hash.toNat).Stops key) :
    (probePass key p).wp Q E D m ↔
      (countStop (m.obj.cell p.hash.toNat)).wp
        (fun _ => Q { p with slot := some (toInt p.hash.toNat) }) E D m := by
  obtain ⟨s, hslot, hcell⟩ := hs.slot_of_lt hh
  rw [hcell] at hstop ⊢
  unfold probePass
  simp only [Prog.wp_bind, wp_slotAt hslot]
  cases s with
  | none => simp only [slotCell, countStop, Prog.wp_bind, Prog.wp_pure_eq]
  | some node =>
    cases hkey : node.val.key with
    | none => simp only [slotCell, hkey, countStop, Prog.wp_bind, Prog.wp_pure_eq]
    | some k' =>
      simp only [slotCell, hkey] at hstop
      have he : k'.val = key := hstop
      simp only [slotCell, hkey, countStop, he, if_true, Prog.wp_pure]

theorem probePass_hop (hs : m.obj.Sized k) (hh : p.hash.toNat < 2 ^ k)
    (hstop : ¬(m.obj.cell p.hash.toNat).Stops key) :
    (probePass key p).wp Q E D m ↔
      Q { p with hash := (p.hash + p.inc) &&& m.obj.mask, i := p.i + 1 } m := by
  obtain ⟨s, hslot, hcell⟩ := hs.slot_of_lt hh
  rw [hcell] at hstop
  unfold probePass
  simp only [Prog.wp_bind, wp_slotAt hslot]
  cases s with
  | none => exact (hstop trivial).elim
  | some node =>
    cases hkey : node.val.key with
    | none => simp [slotCell, hkey, Cell.Stops] at hstop
    | some k' =>
      have hne : ¬k'.val = key := by simpa [slotCell, hkey, Cell.Stops] using hstop
      simp only [hkey, hne, if_false, Prog.wp_bind, wp_object, Prog.wp_pure]

theorem probing_stop {d : Nat} (hs : m.obj.Sized k) (hh : p.hash.toNat < 2 ^ k)
    (hp : p.slot = none) (hi : p.i + d < m.obj.cap)
    (hbefore : ∀ j < d, ¬(m.obj.cell (hops m.obj.mask p.inc p.hash j).toNat).Stops key)
    (hstop : (m.obj.cell (hops m.obj.mask p.inc p.hash d).toNat).Stops key) :
    (Prog.whileDo probing (probePass key) p).wp Q E D m ↔
      (countStop (m.obj.cell (hops m.obj.mask p.inc p.hash d).toNat)).wp
        (fun _ => Q
          { p with hash := hops m.obj.mask p.inc p.hash d, i := p.i + d
                   slot := some (toInt (hops m.obj.mask p.inc p.hash d).toNat) }) E D m := by
  have hcond : probing p m = true := by
    have hlt : p.i < m.obj.cap := by omega
    simp [probing, hp, hlt]
  rw [Prog.wp_whileDo, if_pos hcond]
  -- The induction is on the number of cells in front of the stop.
  induction d generalizing p with
  | zero =>
    have hout : ∀ (q : Probe) (v : Int),
        (Prog.whileDo probing (probePass key) { q with slot := some v }).wp Q E D =
          Q { q with slot := some v } := by
      intro q v
      funext m'
      rw [Prog.wp_whileDo, if_neg (by simp [probing])]
    have hzero : p.i + ((0 : Nat) : Int) = p.i := Int.add_zero p.i
    rw [probePass_stop hs hh hstop]
    simp only [hops, hzero]
    rw [funext fun _ : Unit => hout p _]
  | succ d ih =>
    have hnext : ((p.hash + p.inc) &&& m.obj.mask).toNat < 2 ^ k := by
      rw [hs.hop_toNat]
      exact Nat.mod_lt _ (Nat.two_pow_pos k)
    have hlt : p.i + 1 + (d : Int) < m.obj.cap := by
      push_cast at hi
      omega
    have hcond' : probing { p with hash := (p.hash + p.inc) &&& m.obj.mask, i := p.i + 1 } m := by
      have : p.i + 1 < m.obj.cap := by omega
      simp [probing, hp, this]
    have hsum : p.i + 1 + (d : Int) = p.i + ((d + 1 : Nat) : Int) := by
      push_cast
      omega
    have hrest := ih (p := { p with hash := (p.hash + p.inc) &&& m.obj.mask, i := p.i + 1 }) hnext
      hp hlt (fun j hj => hbefore (j + 1) (by omega)) hstop hcond'
    rw [probePass_hop hs hh (hbefore 0 (by omega)), Prog.wp_whileDo, if_pos hcond']
    simpa only [hops, hsum] using hrest

theorem probing_pass {d : Nat} (hs : m.obj.Sized k) (hh : p.hash.toNat < 2 ^ k)
    (hp : p.slot = none) (hi : p.i + d = m.obj.cap)
    (hbefore : ∀ j < d, ¬(m.obj.cell (hops m.obj.mask p.inc p.hash j).toNat).Stops key) :
    (Prog.whileDo probing (probePass key) p).wp Q E D m ↔
      Q { p with hash := hops m.obj.mask p.inc p.hash d, i := m.obj.cap } m := by
  rw [Prog.wp_whileDo]
  induction d generalizing p with
  | zero =>
    have hnot : ¬p.i < m.obj.cap := by omega
    have he : m.obj.cap = p.i := by omega
    rw [if_neg (by simp [probing, hnot])]
    simp only [hops, he]
  | succ d ih =>
    have hlt : p.i < m.obj.cap := by omega
    have hnext : ((p.hash + p.inc) &&& m.obj.mask).toNat < 2 ^ k := by
      rw [hs.hop_toNat]
      exact Nat.mod_lt _ (Nat.two_pow_pos k)
    rw [if_pos (by simp [probing, hp, hlt]), probePass_hop hs hh (hbefore 0 (by omega)),
      Prog.wp_whileDo]
    exact ih (p := { p with hash := (p.hash + p.inc) &&& m.obj.mask, i := p.i + 1 }) hnext hp
      (by push_cast at hi; show p.i + 1 + (d : Int) = _; omega)
      (fun j hj => hbefore (j + 1) (by omega))

theorem probeRound_stop {d : Nat} (hs : m.obj.Sized k) (hh : p.hash.toNat < 2 ^ k)
    (hp : p.slot = none) (hd : d < 2 ^ k)
    (hbefore : ∀ j < d, ¬(m.obj.cell (hops m.obj.mask p.inc p.hash j).toNat).Stops key)
    (hstop : (m.obj.cell (hops m.obj.mask p.inc p.hash d).toNat).Stops key) :
    (probeRound key p).wp Q E D m ↔
      (countStop (m.obj.cell (hops m.obj.mask p.inc p.hash d).toNat)).wp
        (fun _ => Q
          { p with hash := hops m.obj.mask p.inc p.hash d, i := d
                   slot := some (toInt (hops m.obj.mask p.inc p.hash d).toNat) }) E D m := by
  have hi : (0 : Int) + d < m.obj.cap := by
    rw [hs.cap_eq]
    omega
  have hmain := probing_stop (p := { p with i := 0 }) (Q := Q) (E := E) (D := D) hs hh hp hi
    hbefore hstop
  simpa only [probeRound, Int.zero_add] using hmain

theorem probeRound_pass (hs : m.obj.Sized k) (hh : p.hash.toNat < 2 ^ k) (hp : p.slot = none)
    (hbefore : ∀ j < 2 ^ k, ¬(m.obj.cell (hops m.obj.mask p.inc p.hash j).toNat).Stops key) :
    (probeRound key p).wp Q E D m ↔
      Q { p with hash := hops m.obj.mask p.inc p.hash (2 ^ k), i := m.obj.cap } m := by
  have hi : (0 : Int) + (2 ^ k : Nat) = m.obj.cap := by
    rw [hs.cap_eq]
    omega
  exact probing_pass (p := { p with i := 0 }) hs hh hp hi hbefore

theorem wp_probeRounds :
    (probeRounds key p).wp Q E D m ↔ (probeRound key p).wp (fun p => Q { p with inc := 1 }) E D m := by
  unfold probeRounds
  simp only [Prog.wp_bind, Prog.wp_pure_eq]

end

section

variable {tab : Hash} {k : Nat} {key : CStr}

theorem probePath_lt {cap : Nat} (hcap : 0 < cap) (key : CStr) (n : Nat) :
    probePath cap key n < cap := by
  unfold probePath
  split <;> exact Nat.mod_lt _ hcap

/-- The last `cap` cells of the path are all the cells. -/
theorem exists_probePath {cap i : Nat} (key : CStr) (hi : i < cap) :
    ∃ n < 2 * cap, probePath cap key n = i := by
  have hstart : probeStart cap key < cap := Nat.mod_lt _ (by omega)
  refine ⟨cap + (i + cap - probeStart cap key) % cap, ?_, ?_⟩
  · have := Nat.mod_lt (i + cap - probeStart cap key) (show 0 < cap by omega)
    omega
  · have hsum : probeStart cap key + (i + cap - probeStart cap key) = i + cap := by omega
    unfold probePath
    rw [if_neg (by omega), Nat.add_sub_cancel_left, Nat.add_mod_mod, hsum, Nat.add_mod_right,
      Nat.mod_eq_of_lt hi]

theorem Hash.Sized.path_lt (hs : tab.Sized k) (key : CStr) (n : Nat) : tab.path key n < 2 ^ k := by
  rw [← hs.capNat]
  exact probePath_lt hs.capPos key n

theorem Hash.Sized.start_toNat (hs : tab.Sized k) (key : CStr) :
    (hashFunc key &&& tab.mask).toNat = probeStart (2 ^ k) key := hs.and_mask _

/-- The stride of the first round. -/
def strideOf (hash : UInt32) : UInt32 := if hash &&& 0x0F = 0 then 1 else hash &&& 0x0F

theorem Hash.Sized.stride_toNat (hs : tab.Sized k) (key : CStr) :
    (strideOf (hashFunc key &&& tab.mask)).toNat = probeStride (2 ^ k) key := by
  have hlow := and_0x0F_toNat (hashFunc key &&& tab.mask)
  rw [hs.start_toNat] at hlow
  unfold strideOf probeStride
  rw [← hlow]
  by_cases hz : hashFunc key &&& tab.mask &&& 0x0F = 0
  · rw [if_pos hz, if_pos (by rw [hz]; rfl)]
    rfl
  · rw [if_neg hz, if_neg]
    intro h
    exact hz (UInt32.toNat_inj.mp h)

theorem Hash.Sized.start_lt (hs : tab.Sized k) (key : CStr) :
    (hashFunc key &&& tab.mask).toNat < 2 ^ k := by
  rw [hs.start_toNat]
  exact Nat.mod_lt _ (Nat.two_pow_pos k)

theorem Hash.Sized.first_round (hs : tab.Sized k) (key : CStr) : ∀ j < 2 ^ k,
    (hops tab.mask (strideOf (hashFunc key &&& tab.mask)) (hashFunc key &&& tab.mask) j).toNat =
      tab.path key j := by
  intro j hj
  unfold Hash.path probePath
  rw [hs.hops_toNat _ _ (hs.start_lt key), hs.start_toNat, hs.stride_toNat, hs.capNat, if_pos hj]

/-- After a whole round the probe is back where it began. -/
theorem Hash.Sized.round_end (hs : tab.Sized k) (key : CStr) (inc : UInt32) :
    (hops tab.mask inc (hashFunc key &&& tab.mask) (2 ^ k)).toNat = probeStart (2 ^ k) key := by
  have hlt := hs.start_lt key
  rw [hs.hops_toNat _ _ hlt, Nat.add_mul_mod_self_left, Nat.mod_eq_of_lt hlt, hs.start_toNat]

theorem Hash.Sized.second_round (hs : tab.Sized k) (key : CStr) (inc : UInt32) (j : Nat) :
    (hops tab.mask 1 (hops tab.mask inc (hashFunc key &&& tab.mask) (2 ^ k)) j).toNat =
      tab.path key (2 ^ k + j) := by
  have hend := hs.round_end key inc
  have hlt : (hops tab.mask inc (hashFunc key &&& tab.mask) (2 ^ k)).toNat < 2 ^ k := by
    rw [hend]
    exact Nat.mod_lt _ (Nat.two_pow_pos k)
  have hone : (1 : UInt32).toNat = 1 := rfl
  unfold Hash.path probePath
  rw [hs.hops_toNat _ _ hlt, hend, hs.capNat, if_neg (by omega), Nat.add_sub_cancel_left, hone,
    Nat.mul_one]

end

section

variable {Q : Int → Memory Hash → Prop} {E : Halt → Memory Hash → Prop} {D : Prop}
  {m : Memory Hash} {k n : Nat} {key : CStr}

/-- The outer loop with a first stop in either round. -/
theorem probeRounds_wp (hs : m.obj.Sized k) (hn : n < 2 * 2 ^ k)
    (hstop : FirstStop (m.obj.path key) m.obj.cell key n) :
    (Prog.whileDo (fun p _ => p.slot.isNone) (probeRounds key)
        { hash := hashFunc key &&& m.obj.mask, inc := strideOf (hashFunc key &&& m.obj.mask)
          i := 0, slot := none }).wp (fun p => Q (p.slot.getD (-1))) E D m ↔
      (countStop (m.obj.cell (m.obj.path key n))).wp (fun _ => Q (m.obj.path key n)) E D m := by
  have hout : ∀ (hash inc : UInt32) (i v : Int),
      (Prog.whileDo (fun p _ => p.slot.isNone) (probeRounds key)
        { hash := hash, inc := inc, i := i, slot := some v }).wp (fun p => Q (p.slot.getD (-1)))
        E D = Q v := by
    intro hash inc i v
    funext m'
    simp [Prog.wp_whileDo]
  have hint : toInt (m.obj.path key n) = m.obj.path key n := by
    have hlt := hs.path_lt key n
    have hle := hs.cap_le
    rw [hs.capNat] at hle
    exact toInt_of_lt (by omega)
  have hround := hs.first_round key
  rw [Prog.wp_whileDo]
  simp only [Option.isNone_none, if_true, wp_probeRounds]
  by_cases hfirst : n < 2 ^ k
  · rw [probeRound_stop hs (hs.start_lt key) rfl hfirst
      (fun j hj => by rw [hround j (by omega)]; exact hstop.first j hj)
      (by rw [hround n hfirst]; exact hstop.stops)]
    simp only [hround n hfirst, hint, hout]
  · obtain ⟨d, rfl⟩ : ∃ d, n = 2 ^ k + d := ⟨n - 2 ^ k, by omega⟩
    have hsecond := hs.second_round key (strideOf (hashFunc key &&& m.obj.mask))
    have hback : (hops m.obj.mask (strideOf (hashFunc key &&& m.obj.mask))
        (hashFunc key &&& m.obj.mask) (2 ^ k)).toNat < 2 ^ k := by
      rw [hs.round_end]
      exact Nat.mod_lt _ (Nat.two_pow_pos k)
    rw [probeRound_pass hs (hs.start_lt key) rfl
      (fun j hj => by rw [hround j hj]; exact hstop.first j (by omega)), Prog.wp_whileDo]
    simp only [Option.isNone_none, if_true, wp_probeRounds]
    rw [probeRound_stop hs hback rfl (d := d) (by omega)
      (fun j hj => by rw [hsecond]; exact hstop.first _ (by omega))
      (by rw [hsecond]; exact hstop.stops)]
    simp only [hsecond, hint, hout]

/-- `find_slot` counts at the first stop on the path and returns it. -/
theorem findSlot_wp (hs : m.obj.Sized k) (hn : n < 2 * 2 ^ k)
    (hstop : FirstStop (m.obj.path key) m.obj.cell key n) :
    (findSlot key).wp Q E D m ↔
      (countStop (m.obj.cell (m.obj.path key n))).wp (fun _ => Q (m.obj.path key n)) E D m := by
  obtain ⟨s, hslot, hcell⟩ := hs.slot_of_lt (hs.start_lt key)
  have hzero : (hashFunc key &&& m.obj.mask).toNat = m.obj.path key 0 :=
    hs.first_round key 0 (Nat.two_pow_pos k)
  unfold findSlot
  simp only [Prog.wp_bind, wp_object, wp_slotAt hslot]
  cases s with
  | none =>
    -- An empty bucket at the start is the first stop.
    have hempty : m.obj.cell (m.obj.path key 0) = .empty := by rw [← hzero, hcell]; rfl
    have h0 : n = 0 := by
      by_contra hne
      exact hstop.first 0 (by omega) (by rw [hempty]; trivial)
    have hlt := hs.path_lt key 0
    have hle := hs.cap_le
    rw [hs.capNat] at hle
    subst h0
    simp only [Prog.wp_bind, Prog.wp_pure_eq, hempty, countStop, hzero]
    rw [toInt_of_lt (by omega)]
  | some node =>
    simp only [Prog.wp_bind, Prog.wp_pure_eq]
    exact probeRounds_wp hs hn hstop

end

end Rdpgen
