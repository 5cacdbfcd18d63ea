import Rdpgen.StrCells
import Rdpgen.Exchange
import Mathlib.Data.List.Perm.Basic

namespace Rdpgen

namespace StrObj

section

variable {α : Type} {junk : Nat → Nat → UInt8} {p : StrObj}

theorem write_exchanges (i : Nat) (src : Bytes) :
    Exchanges (p.write i src : MemProg α StrObj) [p.buffer.addr] fun q => [q.buffer.addr] :=
  ((memcpyTo_exchanges p.buffer.val i src).frame [p.buffer.addr]).bind fun _ => exchanges_pure rfl

theorem readAt_exchanges (i : Nat) : Exchanges (p.readAt i : MemProg α UInt8) [] fun _ => [] := by
  unfold readAt
  split
  · exact exchanges_pure rfl
  · exact exchanges_fault

theorem realloc_exchanges (cap : Nat) :
    Exchanges (p.realloc junk cap : MemProg α StrObj) [p.buffer.addr] fun q => [q.buffer.addr] :=
  (memRealloc_exchanges junk p.buffer cap).bind fun _ => exchanges_pure rfl

theorem doubleWhile_exchanges (small : Nat → Bool) (cap : Nat) :
    Exchanges (doubleWhile small cap : MemProg α Nat) [] fun _ => [] :=
  Exchanges.whileDo (fun _ => []) (fun _ => exchanges_pure rfl) cap

theorem grow_exchanges (small : Nat → Bool) :
    Exchanges (grow junk small p : MemProg α StrObj) [p.buffer.addr] fun q => [q.buffer.addr] :=
  .ite (((doubleWhile_exchanges small p.cap).frame [p.buffer.addr]).bind fun _ =>
    realloc_exchanges _) (exchanges_pure rfl)

theorem putText_exchanges (str : Bytes) :
    Exchanges (p.putText str : MemProg α StrObj) [p.buffer.addr] fun q => [q.buffer.addr] :=
  (write_exchanges _ _).bind fun _ => (write_exchanges _ _).bind fun _ => exchanges_pure rfl

theorem catString_exchanges (str : Bytes) :
    Exchanges (p.catString junk str : MemProg α StrObj) [p.buffer.addr] fun q => [q.buffer.addr] :=
  (grow_exchanges _).bind fun _ => putText_exchanges str

theorem catStrStr_exchanges (str : Bytes) :
    Exchanges (p.catStrStr junk str : MemProg α (Int × StrObj)) [p.buffer.addr]
      fun r => [r.2.buffer.addr] :=
  (grow_exchanges _).bind fun _ => (putText_exchanges str).bind fun _ => exchanges_pure rfl

/-- The temporary is allocated and freed. -/
theorem catStrFmt_exchanges (text : Bytes) :
    Exchanges (p.catStrFmt junk false text : MemProg α (Int × StrObj)) [p.buffer.addr]
      fun r => [r.2.buffer.addr] := by
  unfold catStrFmt
  refine .bind ((memAlloc_exchanges _).frame [p.buffer.addr]) fun a => ?_
  refine .bind (((catStrStr_exchanges _).frame [a]).perm (List.Perm.swap a _ [])
    fun r => List.Perm.swap a r.2.buffer.addr []) fun r => ?_
  exact .bind ((memFree_exchanges a).frame [r.2.buffer.addr]) fun _ => exchanges_pure rfl

theorem catStrChar_exchanges (ch : Int) :
    Exchanges (p.catStrChar junk ch : MemProg α (Int × StrObj)) [p.buffer.addr]
      fun r => [r.2.buffer.addr] := by
  have hput : ∀ p : StrObj, Exchanges
      (do
        let p ← p.write p.len [uchar ch]
        let len := sizeT (p.len + 1)
        let p ← p.write len [0]
        pure (toInt len, { p with len := len }) : MemProg α (Int × StrObj))
      [p.buffer.addr] fun r => [r.2.buffer.addr] := fun _ =>
    (write_exchanges _ _).bind fun _ => (write_exchanges _ _).bind fun _ => exchanges_pure rfl
  exact .ite ((realloc_exchanges _).bind hput) (.bind (exchanges_pure rfl) hput)

theorem createStr_exchanges (str : Option Bytes) :
    Exchanges (createStr junk str : MemProg α StrObj) [] fun q => [q.buffer.addr] := by
  refine .bind (memAlloc_exchanges 8) fun a => ?_
  cases str with
  | none => exact exchanges_pure rfl
  | some s => exact .ite (catString_exchanges s) (exchanges_pure rfl)

theorem clearStr_exchanges :
    Exchanges (p.clearStr : MemProg α StrObj) [p.buffer.addr] fun q => [q.buffer.addr] :=
  write_exchanges 0 [0]

theorem mapStr_exchanges (f : Int → Int) :
    Exchanges (p.mapStr f : MemProg α StrObj) [p.buffer.addr] fun q => [q.buffer.addr] := by
  have hpass : ∀ q : StrObj × Nat, Exchanges (mapPass f q : MemProg α (StrObj × Nat))
      [q.1.buffer.addr] fun q => [q.1.buffer.addr] := fun q =>
    ((readAt_exchanges q.2).frame [q.1.buffer.addr]).bind fun _ => (write_exchanges _ _).bind fun _ =>
      exchanges_pure rfl
  exact .bind (.whileDo (fun q => [q.1.buffer.addr]) hpass (p, 0)) fun _ => exchanges_pure rfl

/-- The comparison reads the buffer and changes nothing. -/
theorem strncmpFrom_reads (str : Bytes) (i : Nat) (m : Memory α) :
    (p.strncmpFrom i str).wp (fun _ m' => m' = m) (fun _ _ => True) True m := by
  induction str generalizing i with
  | nil => exact Prog.wp_pure.mpr rfl
  | cons b str ih =>
    unfold strncmpFrom readAt
    rw [Prog.wp_bind]
    split
    · rw [Prog.wp_pure]
      split
      · exact Prog.wp_pure.mpr rfl
      · exact ih (i + 1)
    · exact wp_fault.mpr trivial

end

end StrObj

namespace StrCell

section

variable {α : Type} {junk : Nat → Nat → UInt8}

theorem createStr_exchanges (str : Option Bytes) :
    Exchanges (createStr junk str : MemProg α StrCell) [] blocks := by
  refine .bind (memAlloc_exchanges sizeofString) fun handle => ?_
  refine .bind (((StrObj.createStr_exchanges str).frame [handle]).perm (List.Perm.refl _)
    fun q => List.Perm.swap handle q.buffer.addr []) fun q => ?_
  exact exchanges_pure rfl

theorem createStrFmt_exchanges (text : Bytes) :
    Exchanges (createStrFmt junk false text : MemProg α StrCell) [] blocks := by
  unfold createStrFmt
  refine .bind (memAlloc_exchanges _) fun a => ?_
  refine .bind (((createStr_exchanges _).frame [a]).perm (List.Perm.refl _)
    fun c => List.perm_append_comm) fun c => ?_
  exact .bind ((memFree_exchanges a).frame c.blocks) fun _ => exchanges_pure rfl

theorem copyStr_exchanges (c : StrCell) :
    Exchanges (copyStr junk c : MemProg α StrCell) [] blocks :=
  .ite (createStr_exchanges _) exchanges_fault

theorem destroyStr_exchanges (c : StrCell) :
    Exchanges (c.destroyStr false : MemProg α Unit) c.blocks fun _ => [] := by
  have hbuffer := ((memFree_exchanges (α := α) c.obj.buffer.addr).frame [c.handle]).perm
    (List.Perm.swap c.handle _ []) fun _ => List.Perm.refl [c.handle]
  exact hbuffer.bind fun _ => memFree_exchanges c.handle

end

end StrCell

namespace Cells

/-- The blocks of one object and those of the others. -/
theorem owned_perm {cells : Cells} {h : Nat} {x : Option StrCell} (hx : cells[h]? = some x) :
    (owned cells).Perm (x.elim [] StrCell.blocks ++ owned (cells.eraseIdx h)) := by
  obtain ⟨hlt, he⟩ := List.getElem?_eq_some_iff.mp hx
  have hperm := (List.getElem_cons_eraseIdx_perm hlt).symm.flatMap_right fun c => c.elim [] StrCell.blocks
  rwa [he, List.flatMap_cons] at hperm

theorem owned_set_perm {cells : Cells} {h : Nat} (hlt : h < cells.length) (x : Option StrCell) :
    (x.elim [] StrCell.blocks ++ owned (cells.eraseIdx h)).Perm (owned (cells.set h x)) := by
  have hperm := (List.set_perm_cons_eraseIdx hlt x).symm.flatMap_right fun c => c.elim [] StrCell.blocks
  rwa [List.flatMap_cons] at hperm

theorem owned_concat (cells : Cells) (c : StrCell) :
    owned (cells ++ [some c]) = owned cells ++ c.blocks := by
  unfold owned
  rw [List.flatMap_append, List.flatMap_singleton]
  rfl

end Cells

/-- Whenever the program returns, the objects own what they have owned and what is new, less what has
been freed. -/
def Accounts {β : Type} (p : MemProg Cells β) : Prop :=
  ∀ m, p.wp (fun _ m' => Balances m m' (Cells.owned m.obj) (Cells.owned m'.obj))
    (fun _ _ => True) True m

section

variable {β : Type} {junk : Nat → Nat → UInt8}

theorem addCell_accounts {f : MemProg Cells StrCell} (hf : Exchanges f [] StrCell.blocks) :
    Accounts (addCell f) := by
  intro m
  unfold addCell
  rw [Prog.wp_bind, wp_object, Prog.wp_bind]
  apply (hf m).imp
  intro c m₁ hc
  rw [Prog.wp_bind, wp_setObject, Prog.wp_pure]
  show Balances m _ (Cells.owned m.obj) (Cells.owned (m.obj ++ [some c]))
  rw [Cells.owned_concat]
  have hall := (hc.frame (Cells.owned m.obj)).perm (List.Perm.refl _) List.perm_append_comm
  exact ⟨hall.blocks_le, hall.count_eq⟩

/-- The object `c` gives way to `x`. -/
theorem setCell_accounts {f : MemProg Cells β} {x : β → Option StrCell} {h : Nat} {m : Memory Cells}
    {c : StrCell} (hc : m.obj[h]? = some (some c))
    (hf : Exchanges f c.blocks fun b => (x b).elim [] StrCell.blocks) :
    f.wp (fun b m' => Balances m { m' with obj := m.obj.set h (x b) } (Cells.owned m.obj)
      (Cells.owned (m.obj.set h (x b)))) (fun _ _ => True) True m := by
  have hlt := (List.getElem?_eq_some_iff.mp hc).1
  apply (hf m).imp
  intro b m₁ hb
  have hall := (hb.frame (Cells.owned (m.obj.eraseIdx h))).perm (Cells.owned_perm hc).symm
    (Cells.owned_set_perm hlt (x b))
  exact ⟨hall.blocks_le, hall.count_eq⟩

theorem withCell_accounts {h : Nat} {f : Cells → StrCell → MemProg Cells β}
    (hf : ∀ (m : Memory Cells) c, m.obj[h]? = some (some c) → (f m.obj c).wp
      (fun _ m' => Balances m m' (Cells.owned m.obj) (Cells.owned m'.obj)) (fun _ _ => True) True m) :
    Accounts (withCell h f) := by
  intro m
  unfold withCell
  rw [Prog.wp_bind, wp_object]
  split
  · next c hc => exact hf m c hc
  · exact wp_fault.mpr trivial

theorem onCell_accounts (h : Nat) {f : StrObj → MemProg Cells (Option Int × StrObj)}
    (hf : ∀ p, Exchanges (f p) [p.buffer.addr] fun r => [r.2.buffer.addr]) :
    Accounts (onCell h f) := by
  refine withCell_accounts fun m c hc => ?_
  have hcell : Exchanges (f c.obj) c.blocks fun r => StrCell.blocks { c with obj := r.2 } :=
    ((hf c.obj).frame [c.handle]).perm (List.Perm.swap _ _ []) fun r => List.Perm.swap _ _ []
  rw [Prog.wp_bind]
  apply (setCell_accounts (x := fun r => some { c with obj := r.2 }) hc hcell).imp
  intro r m₁ hr
  rw [Prog.wp_bind, wp_setObject, Prog.wp_pure]
  exact hr

theorem withLength_exchanges {f : MemProg Cells (Int × StrObj)} {used : List Nat}
    (hf : Exchanges f used fun r => [r.2.buffer.addr]) :
    Exchanges (withLength f) used fun r => [r.2.buffer.addr] :=
  hf.bind fun _ => exchanges_pure rfl

theorem withoutAnswer_exchanges {f : MemProg Cells StrObj} {used : List Nat}
    (hf : Exchanges f used fun p => [p.buffer.addr]) :
    Exchanges (withoutAnswer f) used fun r => [r.2.buffer.addr] :=
  hf.bind fun _ => exchanges_pure rfl

/-- One call, in the build without the collector. -/
theorem runStrCall_accounts (call : StrCall) : Accounts (runStrCall junk false call) := by
  cases call with
  | create str => exact addCell_accounts (StrCell.createStr_exchanges str)
  | createFmt text => exact addCell_accounts (StrCell.createStrFmt_exchanges text)
  | copy h =>
    intro m
    unfold runStrCall withCell
    simp only [Prog.wp_bind, wp_object]
    split
    · exact Prog.wp_pure.mpr (addCell_accounts (StrCell.copyStr_exchanges _) m)
    · exact wp_fault.mpr trivial
  | catChar h ch =>
    exact onCell_accounts h fun _ => withLength_exchanges (StrObj.catStrChar_exchanges ch)
  | catStr h str =>
    exact onCell_accounts h fun _ => withLength_exchanges (StrObj.catStrStr_exchanges str)
  | catFmt h text =>
    exact onCell_accounts h fun _ => withLength_exchanges (StrObj.catStrFmt_exchanges text)
  | clear h => exact onCell_accounts h fun _ => withoutAnswer_exchanges StrObj.clearStr_exchanges
  | upcase h =>
    exact onCell_accounts h fun _ => withoutAnswer_exchanges (StrObj.mapStr_exchanges toupper)
  | downcase h =>
    exact onCell_accounts h fun _ => withoutAnswer_exchanges (StrObj.mapStr_exchanges tolower)
  | comp h str =>
    refine withCell_accounts fun m c hc => ?_
    rw [Prog.wp_bind]
    apply (StrObj.strncmpFrom_reads str 0 m).imp
    intro n m₁ hm
    rw [hm, Prog.wp_pure]
    exact Balances.refl m _
  | destroy h =>
    refine withCell_accounts fun m c hc => ?_
    rw [Prog.wp_bind]
    apply (setCell_accounts (x := fun _ => none) hc (StrCell.destroyStr_exchanges c)).imp
    intro _ m₁ hr
    rw [Prog.wp_bind, wp_setObject, Prog.wp_pure]
    exact hr

end

end Rdpgen
