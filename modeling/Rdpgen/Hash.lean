import Rdpgen.Memory

namespace Rdpgen

inductive HashResult where
  | HASH_OK
  | HASH_DUP
  | HASH_NF
  deriving DecidableEq, Repr

structure HashNode where
  key : Option (Block CStr)
  data : Option (Block Bytes)
  size : Nat
  deriving DecidableEq

/-- An entry of the bucket array. A node without a key is a tombstone. -/
abbrev Slot := Option (Block HashNode)

structure Hash where
  self : Nat
  table : Block (List Slot)
  cap : Int
  count : Int
  tombstones : Int
  deriving DecidableEq

abbrev HashProg (β : Type) := MemProg Hash β

def hashFunc (key : CStr) : UInt32 :=
  let slen := toInt key.bytes.length
  (key.bytes.take slen.toNat).foldl (fun hash b => (hash ^^^ b.toUInt32) * 16777619) 2166136261

/-- `tab->cap - 1` as an operand of `uint32_t`. -/
def Hash.mask (tab : Hash) : UInt32 := UInt32.ofInt (tab.cap - 1)

def slotAt (i : Nat) : HashProg Slot := do
  let tab ← object
  match tab.table.val[i]? with
  | some s => pure s
  | none => fault

def setSlot (i : Nat) (s : Slot) : HashProg Unit := do
  let tab ← object
  if i < tab.table.val.length then
    setObject { tab with table := { tab.table with val := tab.table.val.set i s } }
  else fault

/-- `tab->table[slot]` with an `int` index. -/
def slotAtInt (slot : Int) : HashProg Slot := if 0 ≤ slot then slotAt slot.toNat else fault

def setSlotInt (slot : Int) (s : Slot) : HashProg Unit :=
  if 0 ≤ slot then setSlot slot.toNat s else fault

def addCount (n : Int) : HashProg Unit := do
  let tab ← object
  let count ← checkInt (tab.count + n)
  setObject { tab with count := count }

def addTombstones (n : Int) : HashProg Unit := do
  let tab ← object
  let tombstones ← checkInt (tab.tombstones + n)
  setObject { tab with tombstones := tombstones }

/-- The local variables of `find_slot`, with what a `return` inside the loops delivers. -/
structure Probe where
  hash : UInt32
  inc : UInt32
  i : Int
  slot : Option Int

/-- One pass of the inner loop. -/
def probePass (key : CStr) (p : Probe) : HashProg Probe := do
  let s ← slotAt p.hash.toNat
  match s with
  | none => do
    addCount 1
    pure { p with slot := some (toInt p.hash.toNat) }
  | some node =>
    match node.val.key with
    | none => do
      addTombstones (-1)
      addCount 1
      pure { p with slot := some (toInt p.hash.toNat) }
    | some k =>
      if k.val = key then pure { p with slot := some (toInt p.hash.toNat) }
      else do
        let tab ← object
        pure { p with hash := (p.hash + p.inc) &&& tab.mask, i := p.i + 1 }

/-- The condition of the inner loop. -/
def probing (p : Probe) (m : Memory Hash) : Bool := p.slot.isNone && decide (p.i < m.obj.cap)

def probeRound (key : CStr) (p : Probe) : HashProg Probe :=
  Prog.whileDo probing (probePass key) { p with i := 0 }

/-- The body of the outer loop. -/
def probeRounds (key : CStr) (p : Probe) : HashProg Probe := do
  let p ← probeRound key p
  pure { p with inc := 1 }

def findSlot (key : CStr) : HashProg Int := do
  let tab ← object
  let hash := hashFunc key &&& tab.mask
  let inc := hash &&& 0x0F
  let inc := if inc = 0 then 1 else inc
  let s ← slotAt hash.toNat
  match s with
  | none => do
    addCount 1
    pure (toInt hash.toNat)
  | some _ => do
    let p ← Prog.whileDo (fun p _ => p.slot.isNone) (probeRounds key)
      { hash := hash, inc := inc, i := 0, slot := none }
    pure (p.slot.getD (-1))

/-- Entry `i` of the old array goes to its slot in the new one. -/
def moveNode (oldtab : List Slot) (i : Nat) : HashProg Unit :=
  match oldtab[i]? with
  | none => fault
  | some none => pure ()
  | some (some node) =>
    match node.val.key with
    | none => pure ()
    | some k => do
      let slot ← findSlot k.val
      setSlotInt slot (some node)

/-- The last loop of `rehash_table`, up to entry `n`. -/
def moveNodes (oldtab : List Slot) : Nat → HashProg Unit
  | 0 => pure ()
  | n + 1 => do
    moveNodes oldtab n
    moveNode oldtab n

/-- `sizeof(HashNode*) * n` for an `int` `n`. -/
def sizeofSlots (n : Int) : Nat := ((8 * n) % 2 ^ 64).toNat

/-- `tab->count * 1.75 > tab->cap`, which is exact in `double`. -/
def Hash.crowded (tab : Hash) : Bool := 4 * tab.cap < 7 * tab.count

/-- The old array replaced by an empty one of twice the size. -/
def freshTable : HashProg Unit := do
  let tab ← object
  let cap := toInt (2 * tab.cap)
  setObject { tab with cap := cap, tombstones := 0, count := 0 }
  let a ← memAlloc (sizeofSlots cap)
  let tab ← object
  setObject { tab with table := ⟨a, List.replicate cap.toNat none⟩ }

def rehashTable (useGc : Bool) : HashProg Unit := do
  let tab ← object
  if tab.crowded then do
    freshTable
    moveNodes tab.table.val tab.cap.toNat
    memFree useGc (some tab.table.addr)
  else pure ()

/-- Both requests are small, so `malloc` answers them. -/
def hashCreate {α : Type} (m : Memory α) : Memory Hash where
  blocks := m.blocks + 2
  freed := m.freed
  stdout := m.stdout
  stderr := m.stderr
  obj :=
    { self := m.blocks, table := ⟨m.blocks + 1, List.replicate 8 none⟩,
      cap := 8, count := 0, tombstones := 0 }

/-- `sizeof(HashNode)` -/
def sizeofHashNode : Nat := 24

/-- The node that `hashInsert` fills; the block is new or that of a tombstone. -/
def nodeAt (s : Slot) : HashProg Nat :=
  match s with
  | some node => pure node.addr
  | none => memAlloc sizeofHashNode

def dupData (data : Option Bytes) (size : Nat) : HashProg (Option (Block Bytes) × Nat) :=
  match data with
  | some bytes =>
    if size ≠ 0 then do
      let a ← memAlloc size
      let copy ← memcpyFrom bytes size
      pure (some ⟨a, copy⟩, size)
    else pure (none, 0)
  | none => pure (none, 0)

def hashInsert (useGc : Bool) (key : CStr) (data : Option Bytes) (size : Nat) :
    HashProg HashResult := do
  rehashTable useGc
  let slot ← findSlot key
  -- `return false` is `HASH_OK`
  if slot < 0 then pure .HASH_OK
  else do
    let s ← slotAtInt slot
    if (s.bind fun node => node.val.key).isSome then pure .HASH_DUP
    else do
      let a ← nodeAt s
      let k ← memDupStr key
      let d ← dupData data size
      setSlotInt slot (some ⟨a, { key := some k, data := d.1, size := d.2 }⟩)
      pure .HASH_OK

/-- `memcpy` from the payload of a node; from a null pointer only no bytes at all. -/
def copyData (node : HashNode) (size : Nat) : HashProg Bytes :=
  match node.data with
  | some d => memcpyFrom d.val size
  | none => memcpyFrom [] size

/-- The node at the slot if it has the key. -/
def matching (s : Slot) (key : CStr) : Option (Block HashNode) :=
  s.filter fun node => node.val.key.any fun k => k.val = key

/-- The second value is what is copied to `data`. -/
def hashFind (key : CStr) (size : Nat) : HashProg (HashResult × Option Bytes) := do
  let slot ← findSlot key
  let s ← slotAtInt slot
  match matching s key with
  | some node => do
    let stored := node.val.size
    if stored ≠ size then
      Prog.modify fun m =>
        { m with stdout := m.stdout ++ [s!"data size mismatch: {size} != {stored}\n"] }
    else pure ()
    let copy ← copyData node.val size
    pure (.HASH_OK, some copy)
  | none => pure (.HASH_NF, none)

def hashRemove (useGc : Bool) (key : CStr) : HashProg HashResult := do
  let slot ← findSlot key
  let s ← slotAtInt slot
  match matching s key with
  | some node => do
    memFree useGc (node.val.data.map Block.addr)
    memFree useGc (node.val.key.map Block.addr)
    setSlotInt slot (some { node with val := { key := none, data := none, size := 0 } })
    addCount (-1)
    addTombstones 1
    pure .HASH_OK
  | none => pure .HASH_NF

/-- One pass of the loop of `hashDestroy`. -/
def destroySlot (useGc : Bool) (i : Nat) : HashProg Unit := do
  let s ← slotAt i
  match s with
  | some node =>
    if node.val.key.isSome then do
      memFree useGc (node.val.key.map Block.addr)
      memFree useGc (node.val.data.map Block.addr)
    else pure ()
  | none => pure ()
  -- outside of the test against `NULL`
  memFree useGc (s.map Block.addr)

def destroySlots (useGc : Bool) : Nat → HashProg Unit
  | 0 => pure ()
  | n + 1 => do
    destroySlots useGc n
    destroySlot useGc n

/-- The table is not `NULL`. -/
def hashDestroy (useGc : Bool) : HashProg Unit := do
  let tab ← object
  destroySlots useGc tab.cap.toNat
  memFree useGc (some tab.table.addr)
  memFree useGc (some tab.self)

/-- The callback of `hashDump` gets the key and the payload of a node. -/
abbrev HashDumpFunc := CStr → Option Bytes → HashProg Unit

/-- One pass of the loop of `hashDump`. -/
def dumpSlot (func : HashDumpFunc) (i : Int) : HashProg Int := do
  let s ← slotAtInt i
  match s with
  | some node =>
    match node.val.key with
    | some k => func k.val (node.val.data.map Block.val)
    | none => pure ()
  | none => pure ()
  pure (i + 1)

def hashDump (func : HashDumpFunc) : HashProg Unit := do
  -- the callback may change the capacity
  let _ ← Prog.whileDo (fun i m => decide (i < m.obj.cap)) (dumpSlot func) 0
  pure ()

end Rdpgen
