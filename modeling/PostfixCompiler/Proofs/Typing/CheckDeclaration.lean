import PostfixCompiler.Proofs.Typing.Check

/-!
# Checked declarations are typed

A declaration of variables binds its names in the innermost scope, to symbols of the type that the
written type and the initializer unify to. A property of types holds of that type if it holds of the
written one, where that is known.

## Main definitions

* `PostfixCompiler.Symbol.Refines`: how the check of a body may change a symbol that there is.
* `PostfixCompiler.Typing.Binds`: names were bound in the innermost scope.

## Main statements

* `PostfixCompiler.VarDecl.ends_check`: the check of a declaration ends, and the declaration is
  typed.
-/

namespace PostfixCompiler

open Typing

/-! ### Symbols that change -/

/-- A type that is refined: an open type is decided, and what a decided one takes is still taken. -/
def Ty.Later (a b : Ty) : Prop := a = .auto ∨ b = a ∨ b.Fits a

theorem Ty.Later.refl (a : Ty) : a.Later a := .inr (.inl rfl)

theorem Ty.Later.trans {a b c : Ty} (h : a.Later b) (h' : b.Later c) : a.Later c := by
  rcases h with rfl | rfl | h
  · exact .inl rfl
  · exact h'
  · rcases h' with rfl | rfl | h'
    · simp [Ty.Fits] at h
    · exact .inr (.inr h)
    · exact .inr (.inr (h'.trans h))

/-- **How a symbol may change** while bodies are checked: only the type of a function is refined. -/
structure Symbol.Refines (a b : Symbol) : Prop where
  /-- It keeps its name. -/
  name : b.name = a.name
  /-- It stays a variable, or a function with its parameters. -/
  parameters : b.parameters? = a.parameters?
  /-- It keeps its qualifier. -/
  qualifier : b.qualifier = a.qualifier
  /-- It stays open or not. -/
  isAuto : b.isAuto = a.isAuto
  /-- The type of a variable stays, and that of a function that is written; one that is left open is
  refined. -/
  type : b.type = a.type ∨ (a.isFunction = true ∧ a.isAuto = true ∧ a.type.Later b.type)

namespace Symbol.Refines

theorem refl (a : Symbol) : a.Refines a := ⟨rfl, rfl, rfl, rfl, .inl rfl⟩

/-- A function may get a body. -/
theorem defined (a : Symbol) : a.Refines { a with defined := true } :=
  ⟨rfl, rfl, rfl, rfl, .inl rfl⟩

theorem later {a b : Symbol} (h : a.Refines b) : a.type.Later b.type :=
  h.type.elim (fun h => h ▸ .refl _) fun h => h.2.2

theorem isFunction_eq {a b : Symbol} (h : a.Refines b) : b.isFunction = a.isFunction := by
  rw [Symbol.isFunction, Symbol.isFunction, h.parameters]

theorem trans (a b c : Symbol) (h : a.Refines b) (h' : b.Refines c) : a.Refines c := by
  refine ⟨h'.name.trans h.name, h'.parameters.trans h.parameters, h'.qualifier.trans h.qualifier,
    h'.isAuto.trans h.isAuto, ?_⟩
  by_cases hf : a.isFunction = true ∧ a.isAuto = true
  · exact .inr ⟨hf.1, hf.2, h.later.trans h'.later⟩
  · have h₁ := h.type.resolve_right fun hr => hf ⟨hr.1, hr.2.1⟩
    have h₂ := h'.type.resolve_right fun hr => hf ⟨h.isFunction_eq ▸ hr.1, h.isAuto ▸ hr.2.1⟩
    exact .inl (h₂.trans h₁)

/-- What the uses of the name need does not change. -/
theorem meaning_eq (a b : Symbol) (h : a.Refines b) : b.meaning = a.meaning := by
  rw [Symbol.meaning, Symbol.meaning, h.parameters]
  split
  · rename_i hnone
    rw [h.type.resolve_right fun hr => by simp [Symbol.isFunction, hnone] at hr]
  · rfl

end Symbol.Refines

namespace Typing

variable {P : Ty → Prop} {s s' : State}

/-! ### Bindings -/

/-- **Names were bound in the innermost scope**, to variables of the given types. -/
structure Binds (ids : List NodeId) (bs : List (String × Ty)) (s s' : State) : Prop where
  /-- Of the slots only those of the given nodes were filled. -/
  moves : Moves (SymbolTable.Keeps Symbol.Refines) ids s s'
  /-- Inside a scope nothing was bound outside of it. -/
  inner : s.symbols.locals ≠ [] → SymbolTable.Inner Symbol.Refines s.symbols s'.symbols
  /-- Outside of all scopes no binding was lost. -/
  global : s.symbols.locals = [] → s'.symbols.locals = [] ∧ s.symbols.names.Le s'.symbols.names
  /-- The names were bound one after the other. -/
  names : s'.symbols.names = View.bindAll s.symbols.names bs

theorem Binds.of_fills {ids : List NodeId} (h : Fills ids s s') : Binds ids [] s s' where
  moves := h.imp fun h => h ▸ .refl Symbol.Refines.refl _
  inner hne := by
    rw [h.symbols]
    exact .refl Symbol.Refines.refl hne
  global hl := by
    rw [h.symbols]
    exact ⟨hl, .refl _⟩
  names := by rw [h.symbols]; rfl

theorem Binds.trans {is js : List NodeId} {bs cs : List (String × Ty)} {s'' : State}
    (h : Binds is bs s s') (h' : Binds js cs s' s'') : Binds (is ++ js) (bs ++ cs) s s'' where
  moves := h.moves.append h'.moves (SymbolTable.Keeps.trans Symbol.Refines.trans)
  inner hne :=
    (h.inner hne).trans Symbol.Refines.trans (h'.inner (h.inner hne).local_ne)
  global hl := ⟨(h'.global (h.global hl).1).1,
    (h.global hl).2.trans (h'.global (h.global hl).1).2⟩
  names := by rw [h'.names, h.names, View.bindAll_append]

theorem Binds.mono {is js : List NodeId} {bs : List (String × Ty)} (h : Binds is bs s s')
    (hs : ∀ i ∈ is, i ∈ js) : Binds js bs s s' :=
  ⟨h.moves.mono hs, h.inner, h.global, h.names⟩

/-- A name that the innermost scope does not bind is bound to a variable. -/
theorem binds_define (hs : s.symbols.Closed) {sym : Symbol} (hsym : sym.parameters? = none)
    (hfree : (s.symbols.lookupLocal? sym.name).isNone = true) :
    Binds [] [(sym.name, sym.type)] s { s with symbols := (s.symbols.define sym).2 } where
  moves := by
    refine ⟨fun id s' hs' => ⟨s', ?_, .refl s'⟩, rfl, fun _ _ => rfl⟩
    rw [SymbolTable.get?_define_lt _ _ (Array.getElem?_eq_some_iff.mp hs').1]
    exact hs'
  inner hne := SymbolTable.inner_define Symbol.Refines.refl hne sym
  global hl := by
    refine ⟨?_, ?_⟩
    · simp only [SymbolTable.define, hl]
    · rw [SymbolTable.names, SymbolTable.names, SymbolTable.view_define hs]
      refine View.le_bind (SymbolTable.view_of_lookup_none _ ?_) _
      rw [Option.isNone_iff_eq_none, SymbolTable.lookupLocal?, hl] at hfree
      simp only [SymbolTable.lookup?, SymbolTable.scopes, hl, List.nil_append, List.findSome?_cons,
        List.findSome?_nil]
      rw [List.headD_nil] at hfree
      rw [hfree]
  names := by
    rw [SymbolTable.names, SymbolTable.names, SymbolTable.view_define hs,
      View.bindAll, View.bindAll, Symbol.meaning, hsym]

theorem Good.define (h : Good P s) {sym : Symbol} (hsym : sym.Settled P) :
    Good P { s with symbols := (s.symbols.define sym).2 } where
  closed := h.closed.define sym
  settled id sym' hget := by
    by_cases hlt : id.index < s.symbols.symbols.size
    · rw [SymbolTable.get?_define_lt _ _ hlt] at hget
      exact h.settled id sym' hget
    · rw [SymbolTable.get?, SymbolTable.symbols_define] at hget
      have hlt' := (Array.getElem?_eq_some_iff.mp hget).1
      rw [Array.size_push] at hlt'
      have heq : id.index = s.symbols.symbols.size := by omega
      rw [heq, Array.getElem?_push_size] at hget
      cases hget
      exact hsym
  function id hid := by
    obtain ⟨sym', hget, hf⟩ := h.function id hid
    refine ⟨sym', ?_, hf⟩
    rw [SymbolTable.get?_define_lt _ _ (Array.getElem?_eq_some_iff.mp hget).1]
    exact hget

end Typing

/-! ### Declarations -/

namespace VarDecl

variable {P : Ty → Prop} {s : State}

/-- The symbols of a declaration are bound one after the other. -/
theorem ends_declareEach (hP : Ty.Stable P) (d : VarDecl) {bs : List (String × Ty)} (hs : Good P s)
    (hbs : ∀ b ∈ bs, Ty.Storable P b.2) :
    Ends (d.declareEach bs) s fun _ s' => Binds [] bs s s' ∧ Good P s' := by
  induction bs generalizing s with
  | nil =>
    rw [declareEach, ends_pure]
    exact ⟨.of_fills (.refl [] s), hs⟩
  | cons b bs ih =>
    rw [List.forall_mem_cons] at hbs
    simp only [declareEach, ends_bind, ends_get, ends_require, ends_define]
    intro hfree
    have hsym : Symbol.Settled P
        { Symbol.ofVariable b.1 d.qualifier b.2 d.line with
          isAuto := d.type = .auto, defined := d.initializer.isSome } :=
      ⟨hbs.1, .inr (hP.of_storable hbs.1), rfl⟩
    refine (ih (hs.define hsym) hbs.2).mono fun _ s' h => ⟨?_, h.2⟩
    exact (binds_define hs.closed rfl hfree).trans h.1

/-- **What is found out about the type of a declaration.** -/
structure Decides (P : Ty → Prop) (d : VarDecl) (isGlobal : Bool) (s : State)
    (t : Ty) (s' : State) : Prop where
  /-- Only slots of the initializer were filled. -/
  fills : Fills (Expr.idsOfOption d.initializer) s s'
  /-- The type is settled. -/
  settled : t.containsAuto = false → P t
  /-- There is a type for each variable. -/
  divides : d.Divides t
  /-- The initializer is typed and fits. -/
  fits : t.containsAuto = false → ∀ e ∈ d.initializer, e.Typed P s'.types s.symbols.names ∧
    ∃ u, s'.types.get? e.id = some u ∧ t.Fits u
  /-- A variable of the unit starts with a literal, and the type is as dense as that of the
  literal. -/
  literal : isGlobal = true → ∀ e ∈ d.initializer, e.isLiteral = true ∧
    ∀ u, s'.types.get? e.id = some u → u.LeavesKnown → u.Dense → t.Dense

/-- The type that the written type and an initializer unify to. -/
theorem ends_unify (hP : Ty.Stable P) {d : VarDecl} {u : Ty} (hu : P u ∨ u = .pointer .auto)
    (ht : d.type = .auto ∨ P d.type) :
    Ends (d.unify u) s fun t s' => s' = s ∧ (t.containsAuto = false → P t ∧ t.Fits u) ∧
      d.Divides t ∧ (u.LeavesKnown → u.Dense → t.Dense) := by
  unfold unify
  rw [ends_ite]
  refine ⟨fun hone => ?_, fun hmany => ?_⟩
  · split
    · rename_i t hcompatible
      rw [ends_pure]
      refine ⟨rfl, fun hk => ?_, .inl hone, fun hl => Ty.dense_of_compatible hcompatible hl⟩
      rcases ht with hauto | ht
      · rw [hauto] at hcompatible
        obtain rfl := Ty.eq_of_auto_compatible hcompatible
        refine ⟨?_, (Ty.fits_stripped_left _ _).mp (Ty.fits_refl (leavesKnown_of_destined hP hu))⟩
        rcases hu with hu | rfl
        · exact hP.stripped hu
        · simp [Ty.stripped, Ty.containsAuto] at hk
      · refine ⟨?_, (Ty.joins_of_compatible hcompatible
          (Ty.leavesKnown_of_containsAuto (hP.known ht)) (leavesKnown_of_destined hP hu)).right⟩
        rcases hu with hu | rfl
        · exact (hP.unify hcompatible ht hu).1
        · exact hP.unify_open hcompatible ht hk
    · exact ends_fault
  · split
    · rename_i ts
      rw [ends_ite]
      refine ⟨fun hlen => ends_pure.mpr ⟨rfl, fun hk => ?_, .inr ⟨ts, rfl, hlen⟩, fun _ h => h⟩,
        fun _ => ends_fault⟩
      have hp := hu.resolve_right (by simp)
      exact ⟨hp, Ty.fits_refl (Ty.leavesKnown_of_containsAuto hk)⟩
    · exact ends_fault

/-- The form of a declaration, as far as it matters. -/
theorem ends_checkForm {d : VarDecl} (hw : d.WellPlaced) {isGlobal : Bool} {Q : Unit → State → Prop}
    (h : (d.type = .auto ∨ d.type.containsAuto = false) →
      (d.initializer = none → d.names.length = 1 ∧ d.type ≠ .auto) → Q () s) :
    Ends (d.checkForm isGlobal) s Q := by
  simp only [checkForm, ends_bind, ends_require]
  intro _ _ _ _ hpartial hjoint hmissing
  refine h (by simpa using hpartial) fun hnone => ?_
  have hauto : d.type ≠ .auto := by simpa [hnone] using hmissing
  have hlen : d.names.length ≤ 1 := by simpa [hauto] using hjoint
  have hpos := List.length_pos_iff.mpr hw.1
  exact ⟨by omega, hauto⟩

/-- **The type of a declaration is decided.** -/
theorem ends_declaredType (hP : Ty.Stable P) {d : VarDecl} (hs : Good P s)
    (hr : Ready (Expr.idsOfOption d.initializer) s) (hw : d.WellPlaced) {isGlobal : Bool}
    (ht : d.type = .auto ∨ P d.type)
    (hnone : d.initializer = none → d.names.length = 1 ∧ d.type ≠ .auto) :
    Ends (d.declaredType isGlobal) s (d.Decides P isGlobal s) := by
  unfold declaredType
  have hw' := hw.2
  cases hinit : d.initializer with
  | none =>
    obtain ⟨hone, hauto⟩ := hnone hinit
    rw [ends_pure]
    exact ⟨.refl _ s, fun _ => ht.resolve_left hauto, .inl hone, by simp [hinit], by simp [hinit]⟩
  | some e =>
    rw [hinit] at hr hw'
    simp only [ends_bind, ends_require]
    intro hliteral
    refine Ends.destined hP hr ht.symm (Expr.ends_check hP hs hr hw'.2) fun u s₁ h => ?_
    refine (ends_unify hP h.settled ht).mono ?_
    rintro t _ ⟨rfl, hsettled, hdivides, hdense⟩
    refine ⟨by rw [hinit]; exact h.fills, fun hk => (hsettled hk).1, hdivides, fun hk e' he => ?_,
      fun hglobal e' he => ?_⟩
    · rw [hinit, Option.mem_some] at he
      cases he
      exact ⟨h.typed, u, h.type, (hsettled hk).2⟩
    · rw [hinit, Option.mem_some] at he
      cases he
      refine ⟨by simpa [hglobal] using hliteral, fun v hv hl hd => ?_⟩
      rw [h.type] at hv
      cases hv
      exact hdense hl hd

/-- **The check of a declaration ends, and the declaration is typed**; its variables are bound. -/
theorem ends_check (hP : Ty.Stable P) {d : VarDecl} (hs : Good P s) (hr : Ready d.ids s)
    (hw : d.WellPlaced) (hwritten : d.type.containsAuto = false → P d.type) :
    Ends d.check s fun _ s' => Binds d.ids (d.binding s'.types) s s' ∧ Good P s' ∧
      d.Typed P s'.types s.symbols.names ∧
      (s.symbols.locals = [] → d.TypedGlobal P s'.types s.symbols.names) := by
  obtain ⟨hid, hfree, hinit⟩ := ready_cons.mp hr
  simp only [check, ends_bind, ends_get]
  refine ends_checkForm hw fun hknown hnone => ?_
  refine (ends_declaredType hP hs hinit hw (hknown.imp_right hwritten) hnone).mono
    fun t s₁ h => ?_
  simp only [ends_require]
  intro hk hv
  have hk' : t.containsAuto = false := by simpa using hk
  have hv' : t ≠ .void := by simpa using hv
  have hp := h.settled hk'
  have hstorable : ∀ b ∈ d.names.zip (d.typesOfNames t), Ty.Storable P b.2 :=
    fun b hb => storable_typesOfNames hP hp hv' b.2 (List.of_mem_zip (a := b.1) (b := b.2) hb).2
  refine (ends_declareEach hP d (hs.fills h.fills) hstorable).mono fun _ s₂ h₂ => ?_
  · rw [ends_setType]
    have hrecord := s₂.get?_record_self d.id t
    have hmoves : Fills [d.id] s₂ (s₂.record d.id t) := .record s₂ d.id t
    have hbinds := ((Binds.of_fills h.fills).trans h₂.1).trans (.of_fills hmoves)
    have hag : s₁.types.Agrees (s₂.record d.id t).types (Expr.idsOfOption d.initializer) := by
      intro i hi u hu
      rw [hmoves.types i (not_mem_singleton hid i hi), h₂.1.moves.types i (by simp)]
      exact hu
    have hfits : ∀ e ∈ d.initializer, e.Typed P (s₂.record d.id t).types s.symbols.names ∧
        ∃ u, (s₂.record d.id t).types.get? e.id = some u ∧ t.Fits u := by
      intro e he
      obtain ⟨hte, u, hu, htu⟩ := h.fits hk' e he
      have hage : s₁.types.Agrees (s₂.record d.id t).types e.ids := by
        rw [Option.mem_def.mp he] at hag
        exact hag
      exact ⟨hte.mono (.refl _) hage, u, hage _ e.id_mem_ids _ hu, htu⟩
    have htyped : d.Typed P (s₂.record d.id t).types s.symbols.names :=
      ⟨t, ⟨hrecord, hp⟩, hv', h.divides, hfits⟩
    refine ⟨?_, h₂.2.fills hmoves, htyped, fun hl => ⟨htyped, fun e he => ?_⟩⟩
    · rw [VarDecl.binding_eq hrecord]
      simp only [List.nil_append, List.append_nil] at hbinds
      exact hbinds.mono fun i hi => by
        rw [ids, List.mem_cons]
        exact (List.mem_append.mp hi).elim .inr fun h => .inl (List.mem_singleton.mp h)
    · have hglobal : s.symbols.isGlobalScope = true := by rw [SymbolTable.isGlobalScope, hl]; rfl
      obtain ⟨hliteral, hdense⟩ := h.literal hglobal e he
      obtain ⟨hte, u, hu, _⟩ := h.fits hk' e he
      refine ⟨hliteral, ?_⟩
      rw [TypeTable.typeOf_eq hrecord]
      refine hdense u hu ?_ (hte.dense_of_isLiteral hliteral hu)
      obtain ⟨v, hv, hpv⟩ := hte.exists_type hP hs.names
      cases hu.symm.trans hv
      rcases hpv with hpv | ⟨w, rfl⟩
      · exact Ty.leavesKnown_of_containsAuto (hP.known hpv)
      · exact Ty.leavesKnown_pointer w

end VarDecl

end PostfixCompiler
