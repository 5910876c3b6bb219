import PostfixCompiler.Proofs.Typing.Ends

/-!
# Checked expressions are typed

The checker and the rules of typing follow the same cases, so the proof goes along the expression:
each operand is checked in the state that the ones before it left, and what was found out about
those stays true because the nodes are different ones.

Two kinds of expressions wait for their destination. Where one is adapted, the slot of its node
changes a second time, and the rules still hold of it.

## Main definitions

* `PostfixCompiler.Symbol.Settled`, `PostfixCompiler.Typing.Good`: the types of all symbols are
  settled.
* `PostfixCompiler.Typing.Found`: what a check of an expression makes sure of.
* `PostfixCompiler.Typing.Destined`: the same, once the expression is adapted to its destination.

## Main statements

* `PostfixCompiler.Expr.ends_check`: the check of an expression ends, and the expression is typed.
* `PostfixCompiler.Typing.Ends.destined`: the same for an expression that is adapted.
-/

namespace PostfixCompiler

open Typing

/-! ### Settled symbols -/

/-- **The types of a symbol are settled**, except that the type of a function may still be open, and
it has no place in a frame: places are given when code is written. -/
structure Symbol.Settled (P : Ty → Prop) (s : Symbol) : Prop where
  /-- What the uses of the name need is settled. -/
  meaning : s.meaning.Settled P
  /-- Only a function that is written without a type can be without one. -/
  type : (s.type = .auto ∧ s.isAuto = true) ∨ P s.type
  /-- The symbol has no place in a frame yet. -/
  offset : s.offset = 0

namespace Typing

/-- **The bindings of a state lead to symbols that are settled.** -/
structure Good (P : Ty → Prop) (s : State) : Prop where
  /-- Every binding leads to a symbol of that name. -/
  closed : s.symbols.Closed
  /-- Every symbol is settled. -/
  settled : ∀ id sym, s.symbols.get? id = some sym → sym.Settled P
  /-- The current function is a function. -/
  function : ∀ id, s.function = some id →
    ∃ sym, s.symbols.get? id = some sym ∧ sym.isFunction = true

variable {P : Ty → Prop} {s s' : State}

/-- The names of a good state are settled. -/
theorem Good.names (h : Good P s) : View.Settled P s.symbols.names := by
  intro x m hx
  obtain ⟨id, sym, hres, rfl⟩ := SymbolTable.exists_resolve_of_view hx
  exact (h.settled id sym (SymbolTable.get_of_resolve hres)).meaning

/-- No name of a good state stands for something in a frame. -/
theorem Good.isGlobal (h : Good P s) {name : String} {sym : Symbol}
    (hsym : s.symbols.view id name = some sym) :
    sym.isGlobal = true := by
  obtain ⟨i, sym', hres, rfl⟩ := SymbolTable.exists_resolve_of_view hsym
  exact decide_eq_true (h.settled i sym' (SymbolTable.get_of_resolve hres)).offset

theorem Good.fills {ids : List NodeId} (h : Good P s) (hf : Fills ids s s') : Good P s' := by
  constructor
  · rw [hf.symbols]
    exact h.closed
  · rw [hf.symbols]
    exact h.settled
  · rw [hf.symbols, hf.function]
    exact h.function

/-- The type of a node is recorded behind everything that was found out below it. -/
theorem Fills.recorded {ids : List NodeId} (h : Fills ids s s') (id : NodeId) (t : Ty) :
    Fills (id :: ids) s (s'.record id t) := by
  refine (h.trans (.record s' id t)).mono fun i hi => ?_
  rcases List.mem_append.mp hi with hi | hi
  · exact List.mem_cons_of_mem _ hi
  · exact List.mem_singleton.mp hi ▸ List.mem_cons_self

/-! ### Expressions -/

/-- **What a check of an expression makes sure of.** -/
structure Found (P : Ty → Prop) (e : Expr) (s : State) (t : Ty) (s' : State) : Prop where
  /-- Only slots of the expression were filled. -/
  fills : Fills e.ids s s'
  /-- The type was recorded. -/
  type : s'.types.get? e.id = some t
  /-- The expression is typed. -/
  typed : e.Typed P s'.types s.symbols.names
  /-- A type that is known is settled. -/
  known : t.containsAuto = false → P t
  /-- A type that is not known is that of fresh memory. -/
  waits : t.containsAuto = true → t = .pointer .auto ∧ ∃ site count, e = .stackAlloc site count

/-- **What a check of several expressions makes sure of**, with `R` true of the type of each. -/
structure AllFound (P R : Ty → Prop) (es : List Expr) (s : State) (ts : List Ty) (s' : State) :
    Prop where
  /-- Only slots of the expressions were filled. -/
  fills : Fills (Expr.idsOfAll es) s s'
  /-- The expressions are typed. -/
  typed : Expr.AllTyped P s'.types s.symbols.names es
  /-- Each has its type. -/
  types : List.Forall₂ (fun e t => ∃ u, s'.types.get? (Expr.id e) = some u ∧ u = t ∧ R t) es ts

/-- **What adapting a checked expression to its destination makes sure of.** -/
structure Destined (P : Ty → Prop) (e : Expr) (s : State) (t : Ty) (s' : State) : Prop where
  /-- Only slots of the expression were filled. -/
  fills : Fills e.ids s s'
  /-- The type was recorded. -/
  type : s'.types.get? e.id = some t
  /-- The expression is typed. -/
  typed : e.Typed P s'.types s.symbols.names
  /-- The type is settled, or the expression is fresh memory for which there is no destination. -/
  settled : P t ∨ t = .pointer .auto

/-- **An expression that is checked and adapted is typed.** -/
theorem Ends.destined {e : Expr} (hP : Ty.Stable P) (hr : Ready e.ids s) {target : Ty}
    (ht : P target ∨ target = .auto)
    (h : Ends e.check s (Found P e s)) {Q : Ty → State → Prop}
    (hq : ∀ t s', Destined P e s t s' → Q t s') :
    Ends e.check s fun _ s₁ => Ends (e.adapt target) s₁ fun _ s₂ => Ends (typeOf e.id) s₂ Q := by
  refine h.mono fun t s₁ hc => ?_
  have hstay : Ends (typeOf e.id) s₁ Q := by
    refine (ends_typeOf hc.type).mpr (hq t s₁ ⟨hc.fills, hc.type, hc.typed, ?_⟩)
    by_cases hk : t.containsAuto = true
    · exact .inr (hc.waits hk).1
    · exact .inl (hc.known (by simpa using hk))
  have hset : ∀ u, e.Typed P (s₁.record e.id u).types s.symbols.names → P u →
      Ends (typeOf e.id) (s₁.record e.id u) Q := by
    intro u hu hp
    refine (ends_typeOf (s₁.get?_record_self e.id u)).mpr (hq u _ ⟨?_, ?_, hu, .inl hp⟩)
    · exact (hc.fills.recorded e.id u).mono fun i hi =>
        (List.mem_cons.mp hi).elim (fun h => h ▸ e.id_mem_ids) id
    · exact s₁.get?_record_self e.id u
  cases e with
  | input site =>
    unfold Expr.adapt
    rw [ends_ite]
    refine ⟨fun hd => ?_, fun _ => hstay⟩
    rw [ends_setType]
    exact hset .double (.inr (s₁.get?_record_self _ _)) hP.double
  | stackAlloc site count =>
    simp only [Expr.adapt, ends_bind, ends_get, ends_ite]
    refine ⟨fun hcond => ?_, fun _ => hstay⟩
    rw [ends_setType]
    cases target with
    | pointer u =>
      have hp : P (.pointer u) := ht.resolve_right (by simp)
      obtain ⟨hsite, _, _⟩ := ready_cons.mp hr
      have hag := s₁.agrees_record hsite (.pointer u)
      obtain ⟨hn, hint, _⟩ := hc.typed
      exact hset (.pointer u) ⟨hn.mono (View.Le.refl _) hag, hag _ count.id_mem_ids _ hint, u,
        s₁.get?_record_self _ _⟩ hp
    | _ => cases hcond.1
  | _ => exact hstay

/-- No node is its own part. -/
theorem not_mem_singleton {id : NodeId} {ids : List NodeId} (h : id ∉ ids) :
    ∀ i ∈ ids, i ∉ [id] := by
  intro i hi hm
  rw [List.mem_singleton] at hm
  exact h (hm ▸ hi)

/-- What was found out about an expression stays true while other nodes are looked at. -/
theorem Found.keep {e : Expr} {t : Ty} {s₁ s₂ : State} {js : List NodeId} (h : Found P e s t s₁)
    (hf : Fills js s₁ s₂) (hd : ∀ i ∈ e.ids, i ∉ js) :
    e.Typed P s₂.types s.symbols.names ∧ s₂.types.get? e.id = some t :=
  ⟨h.typed.mono (.refl _) (hf.agrees hd), hf.agrees hd _ e.id_mem_ids _ h.type⟩

/-- It stays true when the type of the node is recorded whose operand the expression is. -/
theorem Found.keep_record {e : Expr} {t : Ty} {s₁ : State} {id : NodeId} (h : Found P e s t s₁)
    (hid : id ∉ e.ids) (u : Ty) :
    e.Typed P (s₁.record id u).types s.symbols.names ∧ (s₁.record id u).types.get? e.id = some t :=
  h.keep (.record s₁ id u) (not_mem_singleton hid)

/-- It stays true when another operand is looked at before that. -/
theorem Found.keep_beside {e : Expr} {t : Ty} {s₁ s₂ : State} {js : List NodeId} {id : NodeId}
    (h : Found P e s t s₁) (hf : Fills js s₁ s₂) (hd : ∀ i ∈ e.ids, i ∉ js)
    (hid : id ∉ e.ids) (u : Ty) :
    e.Typed P (s₂.record id u).types s.symbols.names ∧ (s₂.record id u).types.get? e.id = some t :=
  h.keep (hf.trans (.record s₂ id u)) fun i hi hm =>
    (List.mem_append.mp hm).elim (hd i hi) (not_mem_singleton hid i hi)

/-- The same for an expression that was adapted. -/
theorem Destined.keep {e : Expr} {t : Ty} {s₁ s₂ : State} {js : List NodeId}
    (h : Destined P e s t s₁) (hf : Fills js s₁ s₂) (hd : ∀ i ∈ e.ids, i ∉ js) :
    e.Typed P s₂.types s.symbols.names ∧ s₂.types.get? e.id = some t :=
  ⟨h.typed.mono (.refl _) (hf.agrees hd), hf.agrees hd _ e.id_mem_ids _ h.type⟩

/-- An expression of a settled type is checked once everything below it is. -/
theorem found_of_fills {e : Expr} {t : Ty} {ids : List NodeId} (hP : Ty.Stable P)
    (hids : e.ids = e.id :: ids) (hf : Fills ids s s')
    (ht : e.Typed P (s'.record e.id t).types s.symbols.names) (hp : P t) :
    Found P e s t (s'.record e.id t) where
  fills := hids ▸ hf.recorded e.id t
  type := s'.get?_record_self e.id t
  typed := ht
  known _ := hp
  waits h := by
    rw [hP.known hp] at h
    cases h

/-- No leaf is left open in a type that is settled, or that waits for its destination. -/
theorem leavesKnown_of_destined (hP : Ty.Stable P) {t : Ty} (h : P t ∨ t = .pointer .auto) :
    t.LeavesKnown := by
  rcases h with h | rfl
  · exact Ty.leavesKnown_of_containsAuto (hP.known h)
  · exact Ty.leavesKnown_pointer _

/-- Arguments that unify with the parameters as tuples fit them one by one. -/
theorem fits_of_arguments (hP : Ty.Stable P) {es : List Expr} {ps ts : List Ty}
    (hps : ∀ p ∈ ps, P p) (h : AllFound P (fun t => P t ∨ t = .pointer .auto) es s ts s')
    (hlen : ps.length = es.length)
    (hcompatible : ((Ty.tuple ps).compatible? .assignment (.tuple ts)).isSome = true) :
    List.Forall₂ (fun e p => ∃ u, s'.types.get? (Expr.id e) = some u ∧ p.Fits u) es ps := by
  obtain ⟨t, ht⟩ := Option.isSome_iff_exists.mp hcompatible
  have hkps : (Ty.tuple ps).LeavesKnown :=
    Ty.leavesKnown_tuple.mpr fun p hp => Ty.leavesKnown_of_containsAuto (hP.known (hps p hp))
  have hkts : (Ty.tuple ts).LeavesKnown := by
    refine Ty.leavesKnown_tuple.mpr fun t ht => ?_
    obtain ⟨e, _, u, _, rfl, hu⟩ := exists_of_mem_right h.types ht
    exact leavesKnown_of_destined hP hu
  have hfits := Ty.fitsAll_of_fits ((Ty.joins_of_compatible ht hkps hkts).narrow rfl)
    (hlen.trans h.types.length_eq)
  have htypes := h.types
  clear h hcompatible ht hkps hkts hlen hps
  induction htypes generalizing ps with
  | nil =>
    cases ps with
    | nil => exact .nil
    | cons => exact hfits.elim
  | cons he _ ih =>
    cases ps with
    | nil => exact hfits.elim
    | cons p ps =>
      obtain ⟨u, hu, rfl, _⟩ := he
      exact .cons ⟨u, hu, hfits.1⟩ (ih hfits.2)

end Typing

namespace Expr

open Typing

variable {P : Ty → Prop}

/-! ### One kind of expression after the other -/

/-- **The check of an expression ends, and the expression is typed**, in whatever good state it is
checked. -/
def Checks (P : Ty → Prop) (e : Expr) : Prop :=
  ∀ s : State, Good P s → Ready e.ids s → Ends e.check s (Found P e s)

/-- The same for the elements of a tuple. -/
def ComponentsCheck (P : Ty → Prop) (es : List Expr) : Prop :=
  ∀ s : State, Good P s → Ready (idsOfAll es) s →
    Ends (checkComponents es) s (AllFound P (fun t => P t ∧ t ≠ .void) es s)

/-- The same for the arguments of a call, each of which is adapted to its parameter. -/
def ArgumentsCheck (P : Ty → Prop) (es : List Expr) (ps : List Ty) : Prop :=
  ∀ s : State, Good P s → Ready (idsOfAll es) s →
    Ends (checkArguments es ps) s (AllFound P (fun t => P t ∨ t = .pointer .auto) es s)

section Check

variable {site : Site}

/-- **A node is checked and its type recorded**, so what has to be found out is about the check of
its parts. -/
theorem checks_node {e : Expr} {body : CheckM Ty} {ids : List NodeId}
    (hcheck : e.check = once e.id body) (hids : e.ids = e.id :: ids)
    (h : ∀ s : State, Good P s → e.id ∉ ids → Ready ids s →
      Ends body s fun t s' => Found P e s t (s'.record e.id t)) : e.Checks P := by
  intro s hs hr
  rw [hids] at hr
  obtain ⟨hnode, hfree, hparts⟩ := ready_cons.mp hr
  rw [hcheck, ends_once hfree]
  exact h s hs hnode hparts

/-- The type of a constant is always the same. -/
theorem checks_constant (hP : Ty.Stable P) {e : Expr} {t : Ty}
    (hcheck : e.check = once e.id (pure t)) (hids : e.ids = [e.id])
    (htyped : ∀ s : State, e.Typed P (s.record e.id t).types s.symbols.names) (ht : P t) :
    e.Checks P := by
  refine checks_node hcheck hids fun s _ _ _ => ?_
  rw [ends_pure]
  exact found_of_fills hP hids (.refl _ s) (htyped s) ht

theorem checks_variable (hP : Ty.Stable P) {name : String} :
    (Expr.variable site name).Checks P := by
  refine checks_node rfl rfl fun s hs _ _ => ?_
  simp only [ends_bind, ends_get]
  split
  · exact ends_fault
  · rename_i id sym hres
    rw [ends_ite]
    refine ⟨fun _ => ends_fault, fun hf => ends_pure.mpr ?_⟩
    have hmeaning : s.symbols.names name = some (.variable sym.type) := by
      rw [SymbolTable.names, SymbolTable.view_of_resolve _ hres, Symbol.meaning]
      rw [Symbol.isFunction, Bool.not_eq_true, Option.isSome_eq_false_iff,
        Option.isNone_iff_eq_none] at hf
      rw [hf]
    exact found_of_fills hP rfl (.refl _ s) ⟨_, hmeaning, s.get?_record_self _ _⟩
      (hP.of_storable (hs.names _ _ hmeaning))

theorem checks_rvalue (hP : Ty.Stable P) {place : Expr} (hplace : place.Checks P)
    (hw : place.isPlace = true) :
    (rvalue site place).Checks P := by
  refine checks_node rfl rfl fun s hs hsite hp => ?_
  refine (hplace s hs hp).mono fun t s₁ h => ?_
  -- Fresh memory is no place, so the type of what is read does not wait for anything.
  have hpt : P t := by
    refine h.known ?_
    by_contra hk
    obtain ⟨-, _, _, rfl⟩ := h.waits (by simpa using hk)
    cases hw
  obtain ⟨htyped, htype⟩ := h.keep_record hsite t
  exact found_of_fills hP rfl h.fills ⟨htyped, t, ⟨htype, hpt⟩, s₁.get?_record_self _ _⟩ hpt

theorem checks_unary (hP : Ty.Stable P) {op : UnaryOp} {a : Expr} (ha : a.Checks P) :
    (unary site op a).Checks P := by
  refine checks_node rfl rfl fun s hs hsite hra => ?_
  simp only [ends_bind, ends_known, ends_require, ends_pure]
  refine (ha s hs hra).mono fun t s₁ h hk hop => ?_
  have hpt : P t := h.known hk
  obtain ⟨htyped, htype⟩ := h.keep_record hsite t
  exact found_of_fills hP rfl h.fills ⟨htyped, t, ⟨htype, hpt⟩, hop, s₁.get?_record_self _ _⟩ hpt

theorem checks_addressOf (hP : Ty.Stable P) {place : Expr} (hplace : place.Checks P) :
    (addressOf site place).Checks P := by
  refine checks_node rfl rfl fun s hs hsite hp => ?_
  simp only [ends_bind, ends_known, ends_pure]
  refine (hplace s hs hp).mono fun t s₁ h hk => ?_
  have hpt : P t := h.known hk
  obtain ⟨htyped, htype⟩ := h.keep_record hsite (.pointer t)
  exact found_of_fills hP rfl h.fills ⟨htyped, t, ⟨htype, hpt⟩, s₁.get?_record_self _ _⟩
    (hP.pointer hpt)

theorem checks_sizeof (hP : Ty.Stable P) {e : Expr} (he : e.Checks P) :
    (sizeof site e).Checks P := by
  refine checks_node rfl rfl fun s hs hsite hre => ?_
  simp only [ends_bind, ends_pure]
  refine (he s hs hre).mono fun t s₁ h => ?_
  obtain ⟨htyped, -⟩ := h.keep_record hsite .int
  exact found_of_fills hP rfl h.fills ⟨htyped, s₁.get?_record_self _ _⟩ hP.int

/-- The type of fresh memory is not known before it is adapted to its destination. -/
theorem checks_stackAlloc {count : Expr} (hcount : count.Checks P) :
    (stackAlloc site count).Checks P := by
  refine checks_node rfl rfl fun s hs hsite hn => ?_
  simp only [ends_bind, ends_known, ends_require, ends_pure]
  refine (hcount s hs hn).mono fun t s₁ h hk hint => ?_
  obtain rfl : t = .int := of_decide_eq_true hint
  obtain ⟨htyped, htype⟩ := h.keep_record hsite (.pointer .auto)
  refine ⟨h.fills.recorded site.id _, s₁.get?_record_self _ _, ?_, ?_, ?_⟩
  · exact ⟨htyped, htype, .auto, s₁.get?_record_self _ _⟩
  · intro hauto
    simp [Ty.containsAuto] at hauto
  · exact fun _ => ⟨rfl, site, count, rfl⟩

theorem checks_pointerIndex (hP : Ty.Stable P) {b i : Expr} (hb : b.Checks P) (hi : i.Checks P) :
    (pointerIndex site b i).Checks P := by
  refine checks_node rfl rfl fun s hs hsite hbi => ?_
  obtain ⟨hrb, hri, hdis⟩ := ready_append.mp hbi
  simp only [ends_bind, ends_known]
  refine (hb s hs hrb).mono fun t s₁ h₁ hk₁ => ?_
  split
  · rename_i element href
    obtain rfl : t = .pointer element := by
      cases t <;> cases href
      rfl
    rw [ends_ite]
    refine ⟨fun _ => ends_fault, fun hvoid => ?_⟩
    simp only [ends_bind, ends_known, ends_require, ends_pure]
    refine (hi s₁ (hs.fills h₁.fills) (h₁.fills.ready hri hdis)).mono fun u s₂ h₂ hk₂ hint => ?_
    obtain rfl : u = .int := of_decide_eq_true hint
    rw [List.mem_append, not_or] at hsite
    obtain ⟨htb, hb'⟩ := h₁.keep_beside h₂.fills hdis hsite.1 element
    obtain ⟨hti, hi'⟩ := h₂.keep_record hsite.2 element
    rw [h₁.fills.symbols] at hti
    have hp : P (.pointer element) := h₁.known hk₁
    exact found_of_fills hP rfl (h₁.fills.trans h₂.fills)
      ⟨⟨htb, hti⟩, hi', element, ⟨hb', hp⟩, hvoid, s₂.get?_record_self _ _⟩ (hP.referent hp)
  · exact ends_fault

theorem checks_tupleIndex (hP : Ty.Stable P) {b : Expr} (hb : b.Checks P) {i : Int32} :
    (tupleIndex site b i).Checks P := by
  refine checks_node rfl rfl fun s hs hsite hrb => ?_
  simp only [ends_bind, ends_known]
  refine (hb s hs hrb).mono fun t s₁ h hk => ?_
  split
  · rename_i ts
    split
    · rename_i u hu
      obtain ⟨hpos, hget⟩ := Option.ite_none_right_eq_some.mp hu
      have hp : P (.tuple ts) := h.known hk
      obtain ⟨htyped, htype⟩ := h.keep_record hsite u
      exact found_of_fills hP rfl h.fills
        ⟨htyped, ts, u, ⟨htype, hp⟩, ⟨hpos, hget⟩, s₁.get?_record_self _ _⟩
        (hP.component hp (List.mem_of_getElem? hget))
    · exact ends_fault
  · exact ends_fault

theorem checks_assignment (hP : Ty.Stable P) {place value : Expr} (hplace : place.Checks P)
    (hvalue : value.Checks P) : (assignment site place value).Checks P := by
  refine checks_node rfl rfl fun s hs hsite hpv => ?_
  obtain ⟨hp, hv, hdis⟩ := ready_append.mp hpv
  simp only [ends_bind, ends_known]
  refine (hplace s hs hp).mono fun t s₁ h₁ hk => ?_
  have hpt : P t := h₁.known hk
  have hv₁ := h₁.fills.ready hv hdis
  -- The value is adapted to the place, so it is found out about a second time.
  refine Ends.destined hP hv₁ (.inl hpt) (hvalue s₁ (hs.fills h₁.fills) hv₁) fun u s₂ h₂ => ?_
  rw [ends_ite]
  refine ⟨fun _ => ends_fault, fun htuple => ?_⟩
  split
  · rename_i v hcompatible
    rw [ends_pure]
    have hfits : t.Fits u := (Ty.joins_of_compatible hcompatible (Ty.leavesKnown_of_containsAuto hk)
      (leavesKnown_of_destined hP h₂.settled)).narrow rfl
    rw [List.mem_append, not_or] at hsite
    obtain ⟨htp, hp'⟩ := h₁.keep_beside h₂.fills hdis hsite.1 t
    obtain ⟨htv, hv'⟩ := h₂.keep (.record s₂ site.id t) (not_mem_singleton hsite.2)
    rw [h₁.fills.symbols] at htv
    simp only [not_or, Bool.not_eq_true] at htuple
    exact found_of_fills hP rfl (h₁.fills.trans h₂.fills)
      ⟨⟨htp, htv⟩, t, u, ⟨hp', hpt⟩, hv', htuple, hfits, s₂.get?_record_self _ _⟩ hpt
  · exact ends_fault

theorem checks_binary (hP : Ty.Stable P) {op : BinaryOp} {l r : Expr} (hl : l.Checks P)
    (hr : r.Checks P) :
    (binary site op l r).Checks P := by
  refine checks_node rfl rfl fun s hs hsite hlr => ?_
  obtain ⟨hrl, hrr, hdis⟩ := ready_append.mp hlr
  simp only [ends_bind, ends_known]
  refine (hl s hs hrl).mono fun t s₁ h₁ hk₁ => ?_
  refine (hr s₁ (hs.fills h₁.fills) (h₁.fills.ready hrr hdis)).mono fun u s₂ h₂ hk₂ => ?_
  split
  · rename_i v hresult
    rw [ends_pure]
    have hpt : P t := h₁.known hk₁
    have hpu : P u := h₂.known hk₂
    rw [List.mem_append, not_or] at hsite
    obtain ⟨htl, hl'⟩ := h₁.keep_beside h₂.fills hdis hsite.1 v
    obtain ⟨htr, hr'⟩ := h₂.keep_record hsite.2 v
    rw [h₁.fills.symbols] at htr
    exact found_of_fills hP rfl (h₁.fills.trans h₂.fills)
      ⟨⟨htl, htr⟩, t, u, v, ⟨hl', hpt⟩, ⟨hr', hpu⟩, hresult, s₂.get?_record_self _ _⟩
      (stable_resultType hP hpt hpu hresult)
  · exact ends_fault

theorem checks_tuple (hP : Ty.Stable P) {es : List Expr} (hes : ComponentsCheck P es) :
    (tuple site es).Checks P := by
  refine checks_node rfl rfl fun s hs hsite hres => ?_
  simp only [ends_bind]
  refine (hes s hs hres).mono fun ts s₁ h => ?_
  have hnode : ts ≠ [] →
      Found P (tuple site es) s (.ofComponents ts) (s₁.record site.id (.ofComponents ts)) := by
    intro hne
    have hag := s₁.agrees_record hsite (.ofComponents ts)
    have hcomponents : ∀ t ∈ ts, P t ∧ t ≠ .void := fun t ht => by
      obtain ⟨e, _, u, _, rfl, hu⟩ := exists_of_mem_right h.types ht
      exact hu
    exact found_of_fills hP rfl h.fills
      ⟨h.typed.mono (.refl _) hag, ts, hne, forall₂_agrees hag h.types, s₁.get?_record_self _ _⟩
      (stable_ofComponents hP hne hcomponents).1
  split
  · exact ends_fault
  · exact hnode (by simp)
  · rename_i hne hsingle
    have heq : Ty.ofComponents ts = .tuple ts := by
      unfold Ty.ofComponents
      split
      · exact absurd rfl (hsingle _)
      · rfl
    rw [ends_pure, ← heq]
    exact hnode hne

theorem checks_call (hP : Ty.Stable P) {name : String} {args : List Expr}
    (hargs : ∀ ps, (∀ p ∈ ps, P p) → ps.length = args.length → ArgumentsCheck P args ps) :
    (call site name args).Checks P := by
  refine checks_node rfl rfl fun s hs hsite hrargs => ?_
  simp only [ends_bind, ends_get]
  split
  · exact ends_fault
  · rename_i id sym hres
    simp only [ends_bind, ends_require, ends_get]
    intro hfunction hlen
    obtain ⟨ps, hps⟩ := Option.isSome_iff_exists.mp hfunction
    have hparameters : sym.parameters = ps := by rw [Symbol.parameters, hps, Option.getD_some]
    have hmeaning : s.symbols.names name = some (.function ps) := by
      rw [SymbolTable.names, SymbolTable.view_of_resolve _ hres, Symbol.meaning, hps]
    have hp : ∀ p ∈ ps, P p := fun p hm => (hs.names _ _ hmeaning p hm).1
    rw [decide_eq_true_eq, hparameters] at hlen
    rw [Symbol.parameterTuple, hparameters]
    refine (hargs ps hp hlen s hs hrargs).mono fun ts s₁ h hcompatible htype => ?_
    rw [decide_eq_true_eq] at htype
    have hpt : P sym.type :=
      (hs.settled id sym (SymbolTable.get_of_resolve hres)).type.resolve_left fun ha => htype ha.1
    have hfits := fits_of_arguments hP hp h hlen hcompatible
    -- A call of the function that is being checked is noted, which no slot depends on.
    have hnode : ∀ calls, Found P (call site name args) s sym.type
        (State.record { s₁ with selfCalls := calls } site.id sym.type) := by
      intro calls
      have hag := s₁.agrees_record hsite sym.type
      have hfills : Fills (idsOfAll args) s { s₁ with selfCalls := calls } :=
        ⟨h.fills.symbols, h.fills.function, h.fills.types⟩
      exact found_of_fills hP rfl hfills ⟨h.typed.mono (.refl _) hag, ps, sym.type, hmeaning,
        forall₂_agrees hag hfits, ⟨htype, hpt⟩, s₁.get?_record_self _ _⟩ hpt
    rw [ends_ite]
    refine ⟨fun _ => ?_, fun _ => ends_pure.mpr (hnode s₁.selfCalls)⟩
    simp only [ends_bind, ends_modify, ends_pure]
    exact hnode _

theorem componentsCheck_nil : ComponentsCheck P [] := by
  intro s _ _
  rw [checkComponents, ends_pure]
  exact ⟨.refl _ s, trivial, .nil⟩

theorem componentsCheck_cons {e : Expr} {es : List Expr} (he : e.Checks P)
    (hes : ComponentsCheck P es) :
    ComponentsCheck P (e :: es) := by
  intro s hs hr
  obtain ⟨hre, hres, hdis⟩ := ready_append.mp hr
  rw [checkComponents]
  simp only [ends_bind, ends_known, ends_require, ends_pure]
  refine (he s hs hre).mono fun t s₁ h₁ hk hvoid => ?_
  rw [decide_eq_true_eq] at hvoid
  refine (hes s₁ (hs.fills h₁.fills) (h₁.fills.ready hres hdis)).mono fun ts s₂ h₂ => ?_
  obtain ⟨hte, he'⟩ := h₁.keep h₂.fills hdis
  have htes := h₂.typed
  rw [h₁.fills.symbols] at htes
  exact ⟨h₁.fills.trans h₂.fills, ⟨hte, htes⟩, .cons ⟨t, he', rfl, h₁.known hk, hvoid⟩ h₂.types⟩

theorem argumentsCheck_nil : ArgumentsCheck P [] [] := by
  intro s _ _
  rw [checkArguments, ends_pure]
  · exact ⟨.refl _ s, trivial, .nil⟩
  · simp

theorem argumentsCheck_cons (hP : Ty.Stable P) {e : Expr} {es : List Expr} {p : Ty} {ps : List Ty}
    (he : e.Checks P) (hp : P p) (hes : ArgumentsCheck P es ps) :
    ArgumentsCheck P (e :: es) (p :: ps) := by
  intro s hs hr
  obtain ⟨hre, hres, hdis⟩ := ready_append.mp hr
  rw [checkArguments]
  simp only [ends_bind, ends_pure]
  refine Ends.destined hP hre (.inl hp) (he s hs hre) fun t s₁ h₁ => ?_
  refine (hes s₁ (hs.fills h₁.fills) (h₁.fills.ready hres hdis)).mono fun ts s₂ h₂ => ?_
  obtain ⟨hte, he'⟩ := h₁.keep h₂.fills hdis
  have htes := h₂.typed
  rw [h₁.fills.symbols] at htes
  exact ⟨h₁.fills.trans h₂.fills, ⟨hte, htes⟩, .cons ⟨t, he', rfl, h₁.settled⟩ h₂.types⟩

end Check

/-! ### All expressions -/

mutual

/-- All kinds of expressions are checked alike. -/
theorem checks (hP : Ty.Stable P) : ∀ {e : Expr}, e.WellPlaced → e.Checks P
  | .integer .., _ => checks_constant hP rfl rfl (fun s => s.get?_record_self _ _) hP.int
  | .double .., _ => checks_constant hP rfl rfl (fun s => s.get?_record_self _ _) hP.double
  | .string .., _ => checks_constant hP rfl rfl (fun s => s.get?_record_self _ _) hP.string
  | .nullptr _, _ => checks_constant hP rfl rfl (fun s => s.get?_record_self _ _) hP.genericPointer
  | .input _, _ => checks_constant hP rfl rfl (fun s => .inl (s.get?_record_self _ _)) hP.int
  | .variable .., _ => checks_variable hP
  | .rvalue .., hw => checks_rvalue hP (checks hP hw.2) hw.1
  | .unary .., hw => checks_unary hP (checks hP hw.2)
  | .addressOf .., hw => checks_addressOf hP (checks hP hw.2)
  | .sizeof _ e, hw => checks_sizeof hP (checks (e := e) hP hw)
  | .stackAlloc .., hw => checks_stackAlloc (checks hP hw.2)
  | .pointerIndex .., hw => checks_pointerIndex hP (checks hP hw.1.2) (checks hP hw.2.2)
  | .tupleIndex _ b _, hw => checks_tupleIndex hP (checks (e := b) hP hw)
  | .assignment .., hw => checks_assignment hP (checks hP hw.1.2) (checks hP hw.2.2)
  | .binary .., hw => checks_binary hP (checks hP hw.1.2) (checks hP hw.2.2)
  | .tuple .., hw => checks_tuple hP (componentsCheck hP hw)
  | .call .., hw => checks_call hP fun _ hps hlen => argumentsCheck hP hw hps hlen

/-- As `checks`, for the elements of a tuple. -/
theorem componentsCheck (hP : Ty.Stable P) : ∀ {es : List Expr}, AllValues es → ComponentsCheck P es
  | [], _ => componentsCheck_nil
  | _ :: _, hw => componentsCheck_cons (checks hP hw.1.2) (componentsCheck hP hw.2)

/-- As `checks`, for the arguments of a call. -/
theorem argumentsCheck (hP : Ty.Stable P) :
    ∀ {es : List Expr} {ps : List Ty}, AllValues es → (∀ p ∈ ps, P p) →
    ps.length = es.length → ArgumentsCheck P es ps
  | [], [], _, _, _ => argumentsCheck_nil
  | [], _ :: _, _, _, hlen | _ :: _, [], _, _, hlen => by cases hlen
  | _ :: _, _ :: _, hw, hps, hlen =>
    argumentsCheck_cons hP (checks hP hw.1.2) (hps _ List.mem_cons_self)
      (argumentsCheck hP hw.2 (fun p hp => hps p (List.mem_cons_of_mem _ hp)) (Nat.succ.inj hlen))

end

variable {s : State} {es : List Expr}

/-- **The check of an expression ends, and the expression is typed.** -/
theorem ends_check (hP : Ty.Stable P) {e : Expr} (hs : Good P s) (hr : Ready e.ids s)
    (hw : e.WellPlaced) :
    Ends e.check s (Found P e s) := checks hP hw s hs hr

/-- As `ends_check`, for the elements of a tuple. -/
theorem ends_checkComponents (hP : Ty.Stable P) (hs : Good P s) (hr : Ready (idsOfAll es) s)
    (hw : AllValues es) :
    Ends (checkComponents es) s (AllFound P (fun t => P t ∧ t ≠ .void) es s) :=
  componentsCheck hP hw s hs hr

/-- As `ends_check`, for the arguments of a call. -/
theorem ends_checkArguments (hP : Ty.Stable P) {ps : List Ty} (hs : Good P s)
    (hr : Ready (idsOfAll es) s) (hw : AllValues es) (hps : ∀ p ∈ ps, P p)
    (hlen : ps.length = es.length) :
    Ends (checkArguments es ps) s (AllFound P (fun t => P t ∨ t = .pointer .auto) es s) :=
  argumentsCheck hP hw hps hlen s hs hr

end Expr

end PostfixCompiler
