import Rdpgen.Emit
import Rdpgen.Symbols

namespace Rdpgen

/-- With a file open `p` returns `a`, and all it does is to append `text`. -/
def Writes {α : Type} (p : Emit α) (a : α) (text : List Emission) : Prop :=
  ∀ err closed f, p.Runs ⟨err, closed, some f⟩
    (.ok a ⟨err, closed, some { f with text := f.text ++ text }⟩)

section Rules

variable {α β : Type} {p : Emit α} {a : α} {t : List Emission} {Q : α → Output → Prop}
  {E : Halt → Output → Prop} {D : Prop} {err : List Diag} {closed : List OutFile} {f : OutFile}

theorem Writes.wp_iff (h : Writes p a t) :
    p.wp Q E D ⟨err, closed, some f⟩ ↔
      Q a ⟨err, closed, some { f with text := f.text ++ t }⟩ :=
  Prog.wp_of_runs_ok (h err closed f)

theorem Writes.of_wp
    (h : ∀ err closed f, p.wp
      (fun b o => b = a ∧ o = ⟨err, closed, some { f with text := f.text ++ t }⟩)
      (fun _ _ => False) False ⟨err, closed, some f⟩) : Writes p a t := by
  intro err closed f
  obtain ⟨b, o, hrun, rfl, rfl⟩ := (h err closed f).returns
  exact hrun

theorem writes_pure (a : α) : Writes (pure a : Emit α) a [] := by
  apply Writes.of_wp
  simp

theorem writes_emit (fmt : String) (args : List Arg) : Writes (emit fmt args) () [⟨fmt, args⟩] := by
  apply Writes.of_wp
  simp [emit]

theorem Writes.bind {g : α → Emit β} {b : β} {u : List Emission} (h : Writes p a t)
    (hg : Writes (g a) b u) : Writes (p >>= g) b (t ++ u) := by
  apply Writes.of_wp
  intro err closed f
  rw [Prog.wp_bind, h.wp_iff, hg.wp_iff, List.append_assoc]
  exact ⟨rfl, rfl⟩

theorem Writes.forEach {items : List α} {body : β → α → Emit β} {b b' : β}
    (h : Writes (items.foldlM body b) b' t) : Writes (Cursor.forEach items b body) b' t := by
  apply Writes.of_wp
  intro err closed f
  rw [Cursor.wp_forEach, h.wp_iff]
  exact ⟨rfl, rfl⟩

theorem Writes.forRest {items : List α} {body : β → α → Emit β} {b b' : β}
    (h : Writes (items.tail.foldlM body b) b' t) : Writes (Cursor.forRest items b body) b' t := by
  apply Writes.of_wp
  intro err closed f
  rw [Cursor.wp_forRest, h.wp_iff]
  exact ⟨rfl, rfl⟩

/-- Every pass writes the text of its item. -/
theorem writes_each {items : List α} {body : Unit → α → Emit Unit} (text : α → List Emission)
    (pass : ∀ x ∈ items, Writes (body () x) () (text x)) :
    Writes (items.foldlM body ()) () (items.flatMap text) := by
  induction items with
  | nil => exact writes_pure ()
  | cons x items ih =>
    rw [List.foldlM_cons, List.flatMap_cons]
    have hx := pass x List.mem_cons_self
    exact hx.bind (ih fun y hy => pass y (List.mem_cons_of_mem x hy))

/-- Every pass changes the variables and writes nothing. -/
theorem writes_collect {items : List α} {body : β → α → Emit β} (step : β → α → β) (b : β)
    (pass : ∀ b, ∀ x ∈ items, Writes (body b x) (step b x) []) :
    Writes (items.foldlM body b) (items.foldl step b) [] := by
  induction items generalizing b with
  | nil => exact writes_pure b
  | cons x items ih =>
    rw [List.foldlM_cons, List.foldl_cons]
    have hx := pass b x List.mem_cons_self
    exact hx.bind (ih _ fun b y hy => pass b y (List.mem_cons_of_mem x hy))

/-- Every pass writes the line of its item. -/
theorem writes_lines {items : List α} {body : Unit → α → Emit Unit} (line : α → Emission)
    (pass : ∀ x ∈ items, Writes (body () x) () [line x]) :
    Writes (items.foldlM body ()) () (items.map line) := by
  rw [List.map_eq_flatMap]
  exact writes_each _ pass

end Rules

section Files

variable {Q : Unit → Output → Prop} {E : Halt → Output → Prop} {D : Prop} {o : Output}
  {err : List Diag} {closed : List OutFile} {f : OutFile}

theorem wp_fileName {missing : String} {ext : Bytes} {name : STR} {Q : STR → Output → Prop} :
    (fileName missing ext name).wp Q E D o ↔
      if rawStr name = [] then
        E (.exit 1) { o with stderr := o.stderr ++ [⟨.fatalError, missing, []⟩] }
      else Q (rawStr name ++ ext) o := by
  unfold fileName copyStr rawStr
  by_cases h : cString name = []
  · simp [h]
  · simp [h]

/-- No file can be written under the name with `ext` behind it: the name is empty, or the file
cannot be opened. -/
def Unwritable (fopen : Bytes → Option String) (name : STR) (ext : Bytes) : Prop :=
  rawStr name = [] ∨ fopen (rawStr name ++ ext) ≠ none

instance (fopen : Bytes → Option String) (name : STR) (ext : Bytes) :
    Decidable (Unwritable fopen name ext) :=
  inferInstanceAs (Decidable (_ ∨ _))

/-- A named file is opened, or the program is left. -/
theorem openOutfile_wp {fopen : Bytes → Option String} {name : STR} {ext : Bytes} (hext : 0 ∉ ext)
    (stop : fopen (rawStr name ++ ext) ≠ none → ∀ o', E (.exit 1) o')
    (k : fopen (rawStr name ++ ext) = none → Q () { o with fp := some ⟨rawStr name ++ ext, []⟩ }) :
    (openOutfile fopen (rawStr name ++ ext)).wp Q E D o := by
  have hraw : rawStr (rawStr name ++ ext) = rawStr name ++ ext := by
    apply cString_of_nulFree
    rw [List.mem_append, not_or]
    exact ⟨zero_notMem_cString name, hext⟩
  unfold openOutfile
  rw [hraw]
  cases hopen : fopen (rawStr name ++ ext) with
  | some reason =>
    simp only [Prog.wp_bind, Prog.wp_modify, Prog.wp_stop]
    exact stop (by simp [hopen]) _
  | none => exact Prog.wp_modify.mpr (k hopen)

theorem wp_closeOutfile :
    closeOutfile.wp Q E D ⟨err, closed, some f⟩ ↔ Q () ⟨err, closed ++ [f], none⟩ := by
  simp [closeOutfile]

theorem wp_emit {fmt : String} {args : List Arg} :
    (emit fmt args).wp Q E D ⟨err, closed, some f⟩ ↔
      Q () ⟨err, closed, some { f with text := f.text ++ [⟨fmt, args⟩] }⟩ :=
  (writes_emit fmt args).wp_iff

end Files

/-! ### The lines of a text -/

/-- The lines of a text with the format `fmt`. -/
def linesOf (fmt : String) (text : List Emission) : List Emission := text.filter (·.fmt = fmt)

section Lines

variable {fmt : String} {xs ys : List Emission}

@[simp] theorem linesOf_nil : linesOf fmt [] = [] := rfl

@[simp] theorem linesOf_cons (e : Emission) :
    linesOf fmt (e :: xs) = if e.fmt = fmt then e :: linesOf fmt xs else linesOf fmt xs := by
  simp [linesOf, List.filter_cons]

@[simp] theorem linesOf_append : linesOf fmt (xs ++ ys) = linesOf fmt xs ++ linesOf fmt ys :=
  List.filter_append xs ys

@[simp] theorem linesOf_flatMap {α : Type} (items : List α) (f : α → List Emission) :
    linesOf fmt (items.flatMap f) = items.flatMap fun x => linesOf fmt (f x) :=
  List.filter_flatMap

theorem mem_linesOf {e : Emission} : e ∈ linesOf fmt xs ↔ e ∈ xs ∧ e.fmt = fmt := by
  simp [linesOf]

/-- Lines that differ in their arguments alone. -/
theorem linesOf_map {α : Type} {line : α → Emission} {fmt' : String}
    (h : ∀ a, (line a).fmt = fmt') (items : List α) :
    linesOf fmt (items.map line) = if fmt' = fmt then items.map line else [] := by
  split
  · next he => simp [linesOf, h, he]
  · next he => simp [linesOf, h, he]

end Lines

end Rdpgen
