import Rdpgen.HeapShape

namespace Rdpgen.OnHeap

variable {ι α β γ δ : Type}

/-- Each block that is handed out is a new one, or the one that was to be enlarged. -/
structure Malloc.Honest (malloc : Malloc ι) : Prop where
  block : ∀ st size a, malloc.block st size = some a → a ∉ st.rest.used
  again : ∀ st p size a, malloc.again st p size = some a → a = p ∨ a ∉ st.rest.used
  elem : Lists.Grants malloc.elem

/-- The program was left because the request that it made was refused. -/
def Refused (malloc : Malloc ι) (e : Halt) (st : State ι) : Prop :=
  e = .exit 1 ∧ ∃ st₀ request, malloc.answer st₀ request = none ∧ st = st₀.refuse request

/-- `p` does to the heap what `q` does to the sequences, unless a request for memory is refused. -/
def Realizes (malloc : Malloc ι) (st : State ι) (p : HeapProg ι α) (q : Prog Halt (World ι) β)
    (Q : α → State ι → β → Prop) : Prop :=
  Prog.Refines p q (Refused malloc) (fun a st' b w => st'.rest.world = w ∧ Q a st' b)
    (fun e st' d w => e = d ∧ st'.rest.world = w) st st.rest.world

variable {malloc : Malloc ι} {st : State ι} {G : Known}

section

variable {p p' : HeapProg ι α} {q q' : Prog Halt (World ι) β} {f : α → HeapProg ι γ}
  {g : β → Prog Halt (World ι) δ} {Q Q' : α → State ι → β → Prop} {R : γ → State ι → δ → Prop}

theorem Realizes.mono (h : Realizes malloc st p q Q) (hq : ∀ a st b, Q a st b → Q' a st b) :
    Realizes malloc st p q Q' :=
  Prog.Refines.mono h fun a st b _ hab => ⟨hab.1, hq a st b hab.2⟩

theorem Realizes.bind (h : Realizes malloc st p q Q)
    (hf : ∀ a st' b, Q a st' b → Realizes malloc st' (f a) (g b) R) :
    Realizes malloc st (p >>= f) (q >>= g) R := by
  refine Prog.Refines.bind h ?_
  intro a st' b w hpost
  obtain ⟨rfl, hab⟩ := hpost
  exact hf a st' b hab

theorem Realizes.before {q : Prog Halt (World ι) δ}
    (h : p.wp (fun a st' => st'.rest.world = st.rest.world ∧ Realizes malloc st' (f a) q R)
      (Refused malloc) False st) : Realizes malloc st (p >>= f) q R := by
  refine Prog.Refines.before (h.imp ?_)
  intro a st' hpost
  obtain ⟨hw, hr⟩ := hpost
  exact hw ▸ hr

/-- The same for steps that leave the static variables alone. -/
theorem Realizes.step {q : Prog Halt (World ι) δ} {P : α → State ι → Prop}
    (h : p.wp (fun a st' => st'.rest.world = st.rest.world ∧ P a st') (Refused malloc) False st)
    (hf : ∀ a st', P a st' → Realizes malloc st' (f a) q R) : Realizes malloc st (p >>= f) q R :=
  .before (h.imp fun a st' hpost => ⟨hpost.1, hf a st' hpost.2⟩)

theorem Realizes.behind {R : γ → State ι → β → Prop} (h : Realizes malloc st p q Q)
    (hf : ∀ a st' b, Q a st' b →
      (f a).wp (fun c st'' => st''.rest.world = st'.rest.world ∧ R c st'' b) (Refused malloc) False st') :
    Realizes malloc st (p >>= f) q R := by
  refine Prog.Refines.behind h ?_
  intro a st' b w hpost
  obtain ⟨rfl, hab⟩ := hpost
  exact hf a st' b hab

theorem Realizes.answer {h : β → δ} {R : α → State ι → δ → Prop} (hpq : Realizes malloc st p q Q)
    (hR : ∀ a st' b, Q a st' b → R a st' (h b)) :
    Realizes malloc st p (q >>= fun b => pure (h b)) R := by
  refine Prog.Refines.answer hpq ?_
  intro a st' b w hpost
  obtain ⟨rfl, hab⟩ := hpost
  exact ⟨rfl, hR a st' b hab⟩

theorem realizes_of_wp {b : β}
    (h : p.wp (fun a st' => st'.rest.world = st.rest.world ∧ Q a st' b) (Refused malloc) False st) :
    Realizes malloc st p (pure b) Q :=
  Prog.refines_of_runs (Prog.runs_act.mpr rfl) h

theorem realizes_gets {h : World ι → β}
    (hp : p.wp (fun a st' => st'.rest.world = st.rest.world ∧ Q a st' (h st.rest.world))
      (Refused malloc) False st) : Realizes malloc st p (Prog.gets h) Q :=
  Prog.refines_of_runs (Prog.runs_act.mpr rfl) hp

theorem realizes_pure {a : α} {b : β} (h : Q a st b) :
    Realizes malloc st (pure a : HeapProg ι α) (pure b) Q :=
  realizes_of_wp (Prog.wp_pure.mpr ⟨rfl, h⟩)

theorem realizes_ite {c c' : Prop} [Decidable c] [Decidable c'] (hc : c ↔ c')
    (yes : c → Realizes malloc st p q Q) (no : ¬ c → Realizes malloc st p' q' Q) :
    Realizes malloc st (if c then p else p') (if c' then q else q') Q :=
  Prog.refines_ite hc yes no

theorem realizes_fault (hp : p.Runs st (.stop .fault st))
    (hq : q.Runs st.rest.world (.stop .fault st.rest.world)) : Realizes malloc st p q Q :=
  Prog.refines_of_stops hp hq ⟨rfl, rfl⟩

theorem realizes_inWorld (p : Prog Halt (World ι) α) :
    Realizes malloc st (inWorld p) p fun a st' b => a = b ∧ ∃ w, st' = setWorld w st := by
  have hz := Prog.zoom_refines (fun st : State ι => st.rest.world) setWorld p (Refused malloc) st
  constructor
  · intro o hr
    rcases hz.follows o hr with ⟨o', hr', hm⟩ | hx
    · refine .inl ⟨o', hr', hm.mono ?_ ?_⟩
      · intro a st' b w hpost
        obtain ⟨hab, rfl⟩ := hpost
        exact ⟨rfl, hab, w, rfl⟩
      · intro e st' d w hpost
        obtain ⟨he, rfl⟩ := hpost
        exact ⟨he, rfl⟩
    · exact .inr hx
  · exact hz.ends

theorem realizes_whileDo {cond : α → State ι → Bool} {body : α → HeapProg ι α}
    {cond' : β → World ι → Bool} {body' : β → Prog Halt (World ι) β} {a : α} {b : β}
    (test : ∀ a st b, Q a st b → cond a st = cond' b st.rest.world)
    (pass : ∀ a st b, Q a st b → cond a st = true → Realizes malloc st (body a) (body' b) Q)
    (h : Q a st b) : Realizes malloc st (Prog.whileDo cond body a) (Prog.whileDo cond' body' b) Q := by
  refine Prog.Refines.whileDo ?_ ?_ ⟨rfl, h⟩
  · intro a st b w hpost
    obtain ⟨rfl, hab⟩ := hpost
    exact test a st b hab
  · intro a st b w hpost hc
    obtain ⟨rfl, hab⟩ := hpost
    exact pass a st b hab hc

end

/-! ### Allocations and strings -/

theorem fromOption_wp {f : State ι → Option α} {a : α} {Q : α → State ι → Prop}
    {E : Halt → State ι → Prop} (h : f st = some a) : (fromOption f).wp Q E False st ↔ Q a st := by
  unfold fromOption
  rw [Prog.wp_bind, Prog.wp_gets, h]
  exact Prog.wp_pure

theorem fromOption_fault {f : State ι → Option α} (h : f st = none) :
    (fromOption f).Runs st (.stop .fault st) := by
  refine Prog.runs_bind.mpr (.inl ⟨none, st, Prog.runs_act.mpr ?_, Prog.runs_stop.mpr rfl⟩)
  rw [h]

/-- The program goes on with the block that it asked for, or leaves at this request. -/
theorem allocate_wp {request : Request} {Q : Addr → State ι → Prop}
    (ok : ∀ a, malloc.answer st request = some a → Q a st) :
    (allocate malloc request).wp Q (Refused malloc) False st := by
  unfold allocate
  rw [Prog.wp_bind, Prog.wp_gets]
  cases ha : malloc.answer st request with
  | none =>
    rw [Prog.wp_bind, Prog.wp_modify, Prog.wp_stop]
    exact ⟨rfl, st, request, ha, rfl⟩
  | some a => exact Prog.wp_pure.mpr (ok a ha)

theorem memAlloc_wp (hm : malloc.Honest) (size : Nat) :
    (memAlloc malloc size).wp (fun a st' => a ∉ st.rest.used ∧
      st' = { st with rest := { st.rest with used := a :: st.rest.used } }) (Refused malloc) False st := by
  unfold memAlloc
  rw [Prog.wp_bind]
  apply allocate_wp
  intro a ha
  rw [Prog.wp_bind, Prog.wp_modify, Prog.wp_pure]
  exact ⟨hm.block st size a ha, rfl⟩

/-- An enlarged block is a new one, too. -/
theorem createBuffer_wp (hm : malloc.Honest) (text : Bytes) :
    (createBuffer malloc text).wp (fun a st' => a ∉ st.rest.used ∧
      st' = { st with rest := { st.rest with used := a :: st.rest.used } }) (Refused malloc) False st := by
  unfold createBuffer
  rw [Prog.wp_bind]
  refine (memAlloc_wp hm _).imp ?_
  intro b st₁ hpost
  obtain ⟨hb, rfl⟩ := hpost
  rw [Prog.wp_ite]
  split
  · unfold memRealloc
    rw [Prog.wp_bind]
    apply allocate_wp
    intro a ha
    rw [Prog.wp_bind, Prog.wp_modify, Prog.wp_pure]
    refine ⟨?_, ?_⟩
    · rcases hm.again _ b _ a ha with rfl | hnew
      · exact hb
      · exact fun hmem => hnew (List.mem_cons_of_mem b hmem)
    · simp only [List.erase_cons_head]
  · exact Prog.wp_pure.mpr ⟨hb, rfl⟩

/-- A block of which nothing is known yet. -/
theorem Sound.alloc (h : Sound st G) (a : Addr) :
    Grows st G { st with rest := { st.rest with used := a :: st.rest.used } } G where
  sound := ⟨h.strs, h.texts, fun p b hb => List.mem_cons_of_mem a (h.strs_used p b hb),
    fun b t ht => List.mem_cons_of_mem a (h.texts_used b t ht),
    fun p x hx => List.mem_cons_of_mem a (h.lists_used p x hx), h.lists⟩
  known := .refl
  used _ hb := List.mem_cons_of_mem a hb
  same _ _ := rfl
  opened _ _ := rfl

theorem obj_wp (hm : malloc.Honest) (hs : Sound st G) (size : Nat) :
    (memAlloc malloc size).wp (fun _ st' => st'.rest.world = st.rest.world ∧ Grows st G st' G)
      (Refused malloc) False st := by
  refine (memAlloc_wp hm _).imp ?_
  intro a st' hpost
  obtain ⟨-, rfl⟩ := hpost
  exact ⟨rfl, hs.alloc a⟩

theorem createLst_wp (hm : malloc.Honest) (hs : Sound st G) :
    (createLst malloc).wp (fun a st' => st'.rest.world = st.rest.world ∧ NewList st G a st' G)
      (Refused malloc) False st := by
  unfold createLst
  rw [Prog.wp_bind]
  refine (memAlloc_wp hm _).imp ?_
  intro a st' hpost
  obtain ⟨ha, rfl⟩ := hpost
  rw [Prog.wp_bind, Prog.wp_modify, Prog.wp_pure]
  have hopen : G.lists a = none :=
    Option.eq_none_iff_forall_ne_some.mpr fun x hx => ha (hs.lists_used a x hx)
  refine ⟨rfl, (hs.alloc a).setLst ha hopen _, ha, List.mem_cons_self, hopen, ?_⟩
  rw [lstAt_setLst, if_pos rfl]

/-- A string is put into blocks of which nothing is known yet. -/
theorem Sound.putStr (h : Sound st G) {p b : Addr} (hp : p ∈ st.rest.used) (hb : b ∈ st.rest.used)
    (hnp : G.strs p = none) (hnb : G.texts b = none) (text : Bytes) :
    Grows st G
      { st with rest := { st.rest with
        strs := Function.update st.rest.strs p (some b)
        texts := Function.update st.rest.texts b (some text) } }
      { G with
        strs := Function.update G.strs p (some b)
        texts := Function.update G.texts b (some text) } where
  sound := by
    refine ⟨congrArg (Function.update · p (some b)) h.strs,
      congrArg (Function.update · b (some text)) h.texts, ?_, ?_, h.lists_used, h.lists⟩
    · intro q c hc
      rcases of_update_some hc with ⟨rfl, -⟩ | hc
      · exact hp
      · exact h.strs_used q c hc
    · intro c t ht
      rcases of_update_some ht with ⟨rfl, -⟩ | ht
      · exact hb
      · exact h.texts_used c t ht
  known := ⟨fun _ _ => update_extends hnp, fun _ _ => update_extends hnb, fun _ _ hx => hx⟩
  used _ ha := ha
  same _ _ := rfl
  opened _ _ := rfl

theorem createStr_wp (hm : malloc.Honest) (hs : Sound st G) (text : Bytes) :
    (createStr malloc text).wp (fun p st' => st'.rest.world = st.rest.world ∧ ∃ G', Grows st G st' G' ∧
      ∃ b, G'.strs p = some b ∧ G'.texts b = some text) (Refused malloc) False st := by
  unfold createStr
  rw [Prog.wp_bind]
  refine (memAlloc_wp hm _).imp ?_
  intro p st₁ hpost
  obtain ⟨hp, rfl⟩ := hpost
  rw [Prog.wp_bind]
  refine (createBuffer_wp hm text).imp ?_
  intro b st₂ hpost
  obtain ⟨hb, rfl⟩ := hpost
  rw [Prog.wp_bind, Prog.wp_modify, Prog.wp_pure]
  have hnp : G.strs p = none := Option.eq_none_iff_forall_ne_some.mpr fun c hc => hp (hs.strs_used p c hc)
  have hnb : G.texts b = none := Option.eq_none_iff_forall_ne_some.mpr fun t ht =>
    hb (List.mem_cons_of_mem p (hs.texts_used b t ht))
  have halloc := (hs.alloc p).trans ((hs.alloc p).sound.alloc b)
  have hput := halloc.sound.putStr (List.mem_cons_of_mem b List.mem_cons_self) List.mem_cons_self hnp
    hnb text
  exact ⟨rfl, _, halloc.trans hput, b, Function.update_self _ _ _, Function.update_self _ _ _⟩

theorem rawStr_wp {p : Addr} {x : STR} {Q : Bytes → State ι → Prop} {E : Halt → State ι → Prop}
    (hs : Sound st G) (hp : G.StrAt p x) :
    (rawStr p).wp Q E False st ↔ Q (Rdpgen.rawStr x) st := by
  obtain ⟨b, hb, ht⟩ := hp
  exact fromOption_wp (by rw [hs.strs, hs.texts, hb, Option.bind_some, ht])

/-- A copy has the text of the string. -/
theorem copyStr_wp {p : Addr} {x : STR} (hm : malloc.Honest) (hs : Sound st G) (hp : G.StrAt p x) :
    (copyStr malloc p).wp (fun q st' => st'.rest.world = st.rest.world ∧ ∃ G', Grows st G st' G' ∧
      G'.StrAt q (Rdpgen.copyStr x)) (Refused malloc) False st := by
  unfold copyStr
  rw [Prog.wp_bind, rawStr_wp hs hp]
  refine (createStr_wp hm hs _).imp ?_
  intro q st' hpost
  obtain ⟨hw, G', hg, b, hb, ht⟩ := hpost
  refine ⟨hw, G', hg, b, hb, ?_⟩
  rw [ht, Rdpgen.rawStr, Rdpgen.rawStr, Rdpgen.copyStr, cString_cString]

/-! ### Lists -/

theorem ListAt.append {k : Addr} {R : Bytes → α → Prop} {P : Known → α → β → Prop} {xs : List β}
    {data : Bytes} {n : α} {x : β} (hm : malloc.Honest) (h : ListAt R P st G k xs) (hd : R data n)
    (hx : P G n x) :
    (append malloc k data).wp (fun _ st' => ∃ l, st' = st.setLst k.toNat l ∧
      ListAt R P st' G k (xs ++ [x])) (Refused malloc) False st := by
  obtain ⟨nodes, hn, hxs⟩ := h
  unfold OnHeap.append
  rw [Prog.wp_bind]
  apply allocate_wp
  intro a ha
  obtain ⟨l, hl, hn'⟩ := hn.append (fun s hr => hm.elem st k.toNat a 0 data s hr ha) hd
  unfold Lists.link
  rw [Lists.wp_onLst (by rw [lstAt] at hl; rw [hl]; rfl)]
  refine ⟨l, rfl, nodes ++ [(a, n)], ?_, List.rel_append hxs (.cons hx .nil)⟩
  rw [lstAt_setLst, if_pos rfl]
  exact hn'

theorem strLstAdd_wp {k str : Addr} {xs : List STR} {x : STR} (hm : malloc.Honest) (hs : Sound st G)
    (h : TextsAt st G k xs) (hx : G.StrAt str x) :
    (strLstAdd malloc k str).wp (fun _ st' => ∃ l, st' = st.setLst k.toNat l ∧
      TextsAt st' G k (xs ++ [x])) (Refused malloc) False st := by
  obtain ⟨b, hb, ht⟩ := hx
  unfold strLstAdd
  rw [Prog.wp_bind, fromOption_wp (by rw [hs.strs, hb])]
  exact h.append hm rfl ht

end Rdpgen.OnHeap
