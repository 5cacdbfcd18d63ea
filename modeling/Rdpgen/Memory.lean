import Rdpgen.World

namespace Rdpgen

/-- `PTRDIFF_MAX`, the size that no object exceeds and that `malloc` refuses to exceed. -/
def ptrdiffMax : Nat := 2 ^ 63 - 1

/-- A C string in memory, without the terminating zero. -/
structure CStr where
  bytes : Bytes
  nulFree : 0 ∉ bytes
  bounded : bytes.length < ptrdiffMax
  deriving DecidableEq

/-- A pointer to a block of the heap with what the block holds. -/
structure Block (α : Type) where
  addr : Nat
  val : α
  deriving DecidableEq

/-- The heap by the numbers of its blocks, the two output streams and the
objects of the program. -/
structure Memory (α : Type) where
  blocks : Nat
  freed : List Nat
  stdout : List String
  stderr : List String
  obj : α

/-- The memory before the first allocation. -/
def Memory.boot : Memory Unit where
  blocks := 0
  freed := []
  stdout := []
  stderr := []
  obj := ()

abbrev MemProg (α β : Type) := Prog Halt (Memory α) β

variable {α β : Type}

def object : MemProg α α := Prog.gets (·.obj)

def setObject (a : α) : MemProg α Unit := Prog.modify fun m => { m with obj := a }

def fault : MemProg α β := Prog.stop .fault

/-- A message on `stderr`, then `exit(1)`. -/
def memError (text : String) : MemProg α β := do
  Prog.modify fun m => { m with stderr := m.stderr ++ [text] }
  Prog.stop (.exit 1)

def newBlock : MemProg α Nat :=
  Prog.act fun m => (m.blocks, { m with blocks := m.blocks + 1 })

def memAlloc (size : Nat) : MemProg α Nat :=
  if ptrdiffMax < size then memError s!"Cannot allocate memory: {size}\n" else newBlock

/-- The bytes behind the old ones are whatever `junk` says of the new block. -/
def memRealloc (junk : Nat → Nat → UInt8) (ptr : Block Bytes) (size : Nat) :
    MemProg α (Block Bytes) := do
  if ptrdiffMax < size then memError s!"Cannot reallocate memory: {size}\n"
  else do
    let a ← newBlock
    Prog.modify fun m => { m with freed := ptr.addr :: m.freed }
    pure ⟨a, ptr.val.take size ++ (List.range (size - ptr.val.length)).map (junk a)⟩

def memDup (size : Nat) : MemProg α Nat :=
  if ptrdiffMax < size then memError s!"Cannot duplicate memory: {size}\n" else newBlock

def memDupStr (str : CStr) : MemProg α (Block CStr) := do
  let a ← memDup (str.bytes.length + 1)
  pure ⟨a, str⟩

/-- `useGc` is the build with `USE_GC`; `none` is the null pointer. -/
def memFree (useGc : Bool) (ptr : Option Nat) : MemProg α Unit :=
  if useGc then pure ()
  else match ptr with
    | some a => Prog.modify fun m => { m with freed := a :: m.freed }
    | none => memError "Attempt to free NULL pointer\n"

/-- `memcpy` out of an object with the given bytes. -/
def memcpyFrom (bytes : Bytes) (size : Nat) : MemProg α Bytes :=
  if size ≤ bytes.length then pure (bytes.take size) else fault

/-- `memcpy` into the block with the given bytes, from index `i` on. -/
def memcpyTo (bytes : Bytes) (i : Nat) (src : Bytes) : MemProg α Bytes :=
  if i + src.length ≤ bytes.length then
    pure (bytes.take i ++ src ++ bytes.drop (i + src.length))
  else fault

section

variable {Q : β → Memory α → Prop} {E : Halt → Memory α → Prop} {D : Prop} {m : Memory α}

@[simp] theorem wp_object {Q : α → Memory α → Prop} :
    (object : MemProg α α).wp Q E D m ↔ Q m.obj m :=
  Prog.wp_gets

@[simp] theorem wp_setObject {a : α} {Q : Unit → Memory α → Prop} :
    (setObject a).wp Q E D m ↔ Q () { m with obj := a } :=
  Prog.wp_modify

@[simp] theorem wp_fault : (fault : MemProg α β).wp Q E D m ↔ E .fault m :=
  Prog.wp_stop

@[simp] theorem wp_memError {text : String} :
    (memError text : MemProg α β).wp Q E D m ↔
      E (.exit 1) { m with stderr := m.stderr ++ [text] } := by
  unfold memError
  simp only [Prog.wp_bind, Prog.wp_modify, Prog.wp_stop]

@[simp] theorem wp_newBlock {Q : Nat → Memory α → Prop} :
    (newBlock : MemProg α Nat).wp Q E D m ↔ Q m.blocks { m with blocks := m.blocks + 1 } :=
  Prog.wp_act

theorem wp_memAlloc {size : Nat} {Q : Nat → Memory α → Prop} (h : size ≤ ptrdiffMax) :
    (memAlloc size : MemProg α Nat).wp Q E D m ↔ Q m.blocks { m with blocks := m.blocks + 1 } := by
  unfold memAlloc
  rw [if_neg (by omega), wp_newBlock]

theorem wp_memDupStr {str : CStr} {Q : Block CStr → Memory α → Prop} :
    (memDupStr str : MemProg α (Block CStr)).wp Q E D m ↔
      Q ⟨m.blocks, str⟩ { m with blocks := m.blocks + 1 } := by
  have hb := str.bounded
  unfold memDupStr memDup
  rw [if_neg (by omega)]
  simp only [Prog.wp_bind, wp_newBlock, Prog.wp_pure]

/-- `mem_free` leaves the objects alone. -/
theorem memFree_wp {useGc : Bool} {ptr : Option Nat} {Q : Unit → Memory α → Prop}
    (ok : ∀ m' : Memory α, m'.obj = m.obj → Q () m')
    (null : ptr = none → useGc = false → ∀ m', E (.exit 1) m') :
    (memFree useGc ptr).wp Q E D m := by
  unfold memFree
  cases useGc with
  | true =>
    simp only [if_true, Prog.wp_pure]
    exact ok m rfl
  | false =>
    cases ptr with
    | none =>
      simp only [Bool.false_eq_true, if_false, wp_memError]
      exact null rfl rfl _
    | some a =>
      simp only [Bool.false_eq_true, if_false, Prog.wp_modify]
      exact ok _ rfl

end

end Rdpgen
