import PostfixCompiler.Proofs.Outcome
import PostfixCompiler.Proofs.Syntax.Valid
import PostfixCompiler.Proofs.Typing.CheckStatement

/-!
# Checked units are typed

The declarations of a unit are checked in order, and names only ever become known. So a declaration
that was found typed when it was checked is typed by the table and the names that the whole check
leaves behind.

## Main definitions

* `PostfixCompiler.SymbolTable.Extends`: how the table of a unit grows.
* `PostfixCompiler.Decl.Typed`: a declaration of the unit is typed.
* `PostfixCompiler.Typing.Accepted`: what is known of a unit when its check ends with an answer.

## Main statements

* `PostfixCompiler.Function.ends_check`: the check of a function ends, and the function is typed.
* `PostfixCompiler.Typing.ends_checkDecls`: the check of a unit ends, and the unit is accepted.
-/

namespace PostfixCompiler

open Typing

/-! ### Faults of control -/

namespace Stmt

theorem blames_of_reachable {before : Exits} {s : Stmt} {e : Error}
    (h : reachable before s = .error e) : e.BlamesProgram := by
  unfold reachable at h
  split at h
  · cases h
    trivial
  · split at h
    · cases h
      trivial
    · cases h

mutual

/-- Where control is not in order, the program is to blame. -/
theorem blames_of_exits : ∀ {s : Stmt} {inLoop : Bool} {e : Error}, s.exits inLoop = .error e →
    e.BlamesProgram
  | .block _ _ body, inLoop, e, h => by
    rw [exits] at h
    exact blames_of_exitsOfAll h
  | .break _, inLoop, e, h | .continue _, inLoop, e, h => by
    rw [exits] at h
    split at h
    · cases h
    · cases h
      trivial
  | .ifThen _ _ t, inLoop, e, h => by
    rw [exits] at h
    rcases bind_eq_error.mp h with h | ⟨_, _, h⟩
    · exact blames_of_exits h
    · cases h
  | .ifElse _ _ t f, inLoop, e, h => by
    rw [exits] at h
    rcases bind_eq_error.mp h with h | ⟨_, _, h⟩
    · exact blames_of_exits h
    · rcases bind_eq_error.mp h with h | ⟨_, _, h⟩
      · exact blames_of_exits h
      · cases h
  | .forLoop _ _ _ _ body, inLoop, e, h => by
    rw [exits] at h
    rcases bind_eq_error.mp h with h | ⟨_, _, h⟩
    · exact blames_of_exits h
    · cases h
  | .return _ _, inLoop, e, h | .evaluation _ _, inLoop, e, h | .write _ _ _, inLoop, e, h => by
    rw [exits] at h
    cases h

/-- As `blames_of_exits`, for several statements. -/
theorem blames_of_exitsOfAll : ∀ {ss : List Stmt} {inLoop : Bool} {before : Exits} {e : Error},
    exitsOfAll inLoop before ss = .error e → e.BlamesProgram
  | [], _, _, _, h => by cases h
  | s :: ss, inLoop, before, e, h => by
    rw [exitsOfAll] at h
    rcases bind_eq_error.mp h with h | ⟨_, _, h⟩
    · exact blames_of_reachable h
    · rcases bind_eq_error.mp h with h | ⟨_, _, h⟩
      · exact blames_of_exits h
      · exact blames_of_exitsOfAll h

end

end Stmt

theorem Function.blames_of_checkFlow {f : Function} {R : Ty} {e : Error}
    (h : f.checkFlow R = .error e) : e.BlamesProgram := by
  rw [checkFlow] at h
  rcases bind_eq_error.mp h with h | ⟨_, _, h⟩
  · exact Stmt.blames_of_exits h
  · split at h
    · cases h
      trivial
    · cases h

/-! ### The table of a unit -/

/-- **How the table of a unit grows** while declarations are checked: outside of all scopes, without
loss of names. -/
structure SymbolTable.Extends (t u : SymbolTable) : Prop where
  /-- Symbols change as they may. -/
  keeps : SymbolTable.Keeps Symbol.Refines t u
  /-- No scope is opened or left open. -/
  locals : t.locals = [] → u.locals = []
  /-- No name is lost. -/
  names : t.names.Le u.names

/-- Outside of all scopes, every binding is one of the innermost scope. -/
theorem SymbolTable.lookupLocal?_eq {t : SymbolTable} (h : t.locals = []) (name : String) :
    t.lookupLocal? name = t.lookup? name := by
  rw [lookupLocal?, lookup?, scopes, h, List.nil_append, List.findSome?_singleton, List.headD_nil]

/-- Outside of all scopes, every name is one of the innermost scope. -/
theorem SymbolTable.resolveLocal?_eq {t : SymbolTable} (h : t.locals = []) (name : String) :
    t.resolveLocal? name = t.resolve? name := by
  rw [resolveLocal?, resolve?, lookupLocal?_eq h]

namespace SymbolTable.Extends

/-- A name that is not known is defined without loss. -/
theorem define {t : SymbolTable} (ht : t.Closed) (hl : t.locals = []) {sym : Symbol}
    (hfree : t.resolve? sym.name = none) : t.Extends (t.define sym).2 := by
  refine ⟨fun id s' hs' => ⟨s', ?_, .refl s'⟩, fun _ => ?_, ?_⟩
  · rw [get?_define_lt _ _ (Array.getElem?_eq_some_iff.mp hs').1]
    exact hs'
  · simp only [SymbolTable.define, hl]
  · rw [SymbolTable.names, SymbolTable.names, view_define ht]
    refine View.le_bind ?_ _
    rw [view, hfree, Option.map_none]

theorem refl (t : SymbolTable) : t.Extends t := ⟨.refl Symbol.Refines.refl t, id, .refl _⟩

theorem trans {t u v : SymbolTable} (h : t.Extends u) (h' : u.Extends v) : t.Extends v :=
  ⟨h.keeps.trans Symbol.Refines.trans h'.keeps, fun hl => h'.locals (h.locals hl),
    h.names.trans h'.names⟩

end SymbolTable.Extends

namespace Typing

variable {P : Ty → Prop} {s s' : State}

theorem Moves.extends_of_fills {ids : List NodeId} (h : Fills ids s s') :
    Moves SymbolTable.Extends ids s s' :=
  h.imp fun h => h ▸ .refl _

theorem Moves.extends_of_outer {ids : List NodeId} (hs : Good P s)
    (h : Moves (SymbolTable.Outer Symbol.Refines) ids s s') :
    Moves SymbolTable.Extends ids s s' := by
  refine h.imp fun ho => ⟨ho.keeps, fun hl => ho.locals.trans hl, ?_⟩
  rw [names_eq hs h]
  exact .refl _

theorem Moves.extends_trans {is js : List NodeId} {s'' : State}
    (h : Moves SymbolTable.Extends is s s') (h' : Moves SymbolTable.Extends js s' s'') :
    Moves SymbolTable.Extends (is ++ js) s s'' :=
  h.append h' SymbolTable.Extends.trans

/-- The body of a function is checked with the symbols that are there. -/
theorem Good.within (h : Good P s) {id : SymbolId} {sym : Symbol}
    (hsym : s.symbols.get? id = some sym) (hf : sym.isFunction = true) : Good P (s.within id) := by
  refine ⟨h.closed, h.settled, fun i hi => ?_⟩
  cases hi
  exact ⟨sym, hsym, hf⟩

@[simp] theorem ends_throw {α : Type} {e : Error} {Q : α → State → Prop} :
    Ends (throw e) s Q ↔ e.BlamesProgram := Iff.rfl

end Typing

/-! ### Signatures -/

namespace Signature

variable {P : Ty → Prop} {s : State}

/-- The types of the parameters are those of the arguments, which are scalars. -/
theorem ends_checkArguments (sig : Signature) {ds : List VarDecl} {s : State}
    (hr : Ready (VarDecl.idsOfAll ds) s) (ht : ∀ t ∈ ds.map VarDecl.type, Written P t) :
    Ends (sig.checkArguments ds) s fun ps s' => Fills (VarDecl.idsOfAll ds) s s' ∧
      (∀ d ∈ ds, d.TypedArgument P s'.types) ∧ (Meaning.function ps).Settled P := by
  induction ds generalizing s with
  | nil => exact ⟨.refl _ s, by simp, by simp [Meaning.Settled]⟩
  | cons d ds ih =>
    obtain ⟨hd, hds, hdis⟩ := ready_append.mp hr
    rw [List.map_cons, List.forall_mem_cons] at ht
    simp only [checkArguments, VarDecl.argumentType, ends_bind, ends_require,
      ends_pure, ends_setType]
    intro hform hknown hscalar
    simp only [decide_eq_true_eq, Option.isNone_iff_eq_none,
      Bool.not_eq_true'] at hform hknown hscalar
    have hrecord : Fills d.ids s (s.record d.id d.type) :=
      (Fills.record s d.id d.type).mono fun i hi => List.mem_singleton.mp hi ▸ List.mem_cons_self
    refine (ih (hrecord.ready hds hdis) ht.2).mono fun ps s₂ h => ?_
    obtain ⟨hfills, htyped, hps⟩ := h
    have hp := ht.1 hknown
    refine ⟨hrecord.trans hfills, List.forall_mem_cons.mpr ⟨?_, htyped⟩, ?_⟩
    · refine ⟨hform.1, hform.2, d.type, ?_, hp, hscalar.1, hscalar.2⟩
      exact hfills.agrees hdis _ List.mem_cons_self _ (s.get?_record_self _ _)
    · exact List.forall_mem_cons.mpr ⟨⟨hp, hscalar⟩, hps⟩

/-- **What the check of a signature makes sure of**, which leaves a function of that name behind. -/
structure Declares (P : Ty → Prop) (sig : Signature) (s : State) (id : SymbolId) (s' : State) :
    Prop where
  /-- Of the slots only those of the signature were filled. -/
  moves : Moves SymbolTable.Extends sig.ids s s'
  /-- The symbols are settled. -/
  good : Good P s'
  /-- The symbol is that of a function. -/
  symbol : ∃ sym, s'.symbols.get? id = some sym ∧ sym.isFunction = true
  /-- The arguments are scalars. -/
  arguments : ∀ d ∈ sig.arguments, d.TypedArgument P s'.types
  /-- The function can be called by its name. -/
  name : ∃ ps, s'.symbols.names sig.name = some (.function ps)

/-- A signature is checked once its symbol is there and its type is recorded. -/
theorem declares_record {sig : Signature} (hr : Ready sig.ids s) {id : SymbolId} {t : Ty}
    {s₁ s₂ : State} (hfills : Fills (VarDecl.idsOfAll sig.arguments) s s₁)
    (hargs : ∀ d ∈ sig.arguments, d.TypedArgument P s₁.types)
    (hmoves : Moves SymbolTable.Extends [] s₁ s₂) (hgood : Good P s₂) {sym : Symbol}
    (hsym : s₂.symbols.get? id = some sym) {ps : List Ty}
    (hname : s₂.symbols.names sig.name = some (.function ps)) (hfunction : sym.isFunction = true) :
    Declares P sig s id (s₂.record sig.id t) := by
  have hrecord : Moves SymbolTable.Extends [sig.id] s₂ (s₂.record sig.id t) :=
    Moves.extends_of_fills (.record s₂ sig.id t)
  have hrest := Moves.extends_trans hmoves hrecord
  refine ⟨?_, hgood.fills (.record s₂ sig.id t), ⟨sym, hsym, hfunction⟩, fun d hd => ?_, ps, hname⟩
  · refine (Moves.extends_trans (Moves.extends_of_fills hfills) hrest).mono fun i hi => ?_
    rw [ids, List.mem_cons]
    exact (List.mem_append.mp hi).elim .inr fun h => .inl (by simpa using h)
  · obtain ⟨hn, hi, t', ht', hp⟩ := hargs d hd
    refine ⟨hn, hi, t', ?_, hp⟩
    have hmem : d.id ∈ VarDecl.idsOfAll sig.arguments := by
      rw [VarDecl.idsOfAll_eq_flatMap]
      exact List.mem_flatMap_of_mem hd List.mem_cons_self
    have hag : s₁.types.Agrees (s₂.record sig.id t).types [d.id] := hrest.agrees fun i hi => ?_
    · exact hag _ List.mem_cons_self _ ht'
    rw [List.mem_singleton.mp hi, List.nil_append, List.mem_singleton]
    rintro heq
    exact (ready_cons.mp hr).1 (heq ▸ hmem)

/-- **The check of a signature ends, and the function is declared.** -/
theorem ends_check {sig : Signature} {defining : Bool} (hs : Good P s)
    (hl : s.symbols.locals = []) (hr : Ready sig.ids s)
    (ht : ∀ t ∈ sig.writtenTypes, Written P t) :
    Ends (sig.check defining) s (Declares P sig s) := by
  have hargs := (ready_cons.mp hr).2.2
  rw [writtenTypes, List.forall_mem_cons] at ht
  simp only [check, ends_bind, ends_require, ends_get]
  intro _ hpartial
  refine (ends_checkArguments sig hargs ht.2).mono fun ps s₁ h => ?_
  obtain ⟨hfills, htyped, hps⟩ := h
  have hgood := hs.fills hfills
  have hl₁ : s₁.symbols.locals = [] := by rw [hfills.symbols]; exact hl
  split
  · rename_i id prior hres
    simp only [ends_bind, ends_require, ends_setType, ends_pure]
    intro hfunction hagrees _
    rw [SymbolTable.resolveLocal?_eq hl₁] at hres
    have hname := SymbolTable.view_of_resolve Symbol.meaning hres
    obtain ⟨qs, hqs⟩ := Option.isSome_iff_exists.mp hfunction
    rw [Symbol.meaning, hqs] at hname
    exact declares_record hr hfills htyped (Moves.extends_of_fills (.refl [] s₁)) hgood
      (SymbolTable.get_of_resolve hres) hname hfunction
  · rename_i hres
    simp only [ends_bind, ends_define, ends_setType, ends_pure]
    rw [SymbolTable.resolveLocal?_eq hl₁] at hres
    have hsettled :
        (Symbol.ofFunction sig.name sig.qualifier sig.returnType ps sig.line).Settled P := by
      refine ⟨hps, ?_, rfl⟩
      by_cases hauto : sig.returnType = .auto
      · exact .inl ⟨hauto, by simp [Symbol.ofFunction, hauto]⟩
      · have hknown : sig.returnType.containsAuto = false := by simpa [hauto] using hpartial
        exact .inr (ht.1 hknown)
    have hmoves : Moves SymbolTable.Extends [] s₁ { s₁ with symbols :=
        (s₁.symbols.define (.ofFunction sig.name sig.qualifier sig.returnType ps sig.line)).2 } :=
      ⟨.define hgood.closed hl₁ hres, rfl, fun _ _ => rfl⟩
    have hname :
        (s₁.symbols.define (.ofFunction sig.name sig.qualifier sig.returnType ps sig.line)).2.names
        sig.name = some (.function ps) := by
      rw [SymbolTable.names, SymbolTable.view_define hgood.closed]
      exact View.bind_self _ _ _
    exact declares_record hr hfills htyped hmoves (hgood.define hsettled)
      (SymbolTable.get?_define_self _ _) hname rfl

end Signature

/-! ### Functions -/

namespace VarDecl

variable {P : Ty → Prop} {s : State}

/-- Arguments are variables in the body of their function. -/
theorem ends_declareArgument {d : VarDecl} {t : Ty} (ht : Ty.Storable P t) (hP : Ty.Stable P)
    {names : List String} (hs : Good P s) :
    Ends (d.declareArgument t names) s fun _ s' =>
      Binds [] (names.map fun name => (name, t)) s s' ∧ Good P s' := by
  induction names generalizing s with
  | nil =>
    rw [declareArgument, ends_pure]
    exact ⟨.of_fills (.refl [] s), hs⟩
  | cons name rest ih =>
    simp only [declareArgument, ends_bind, ends_get, ends_require, ends_define]
    intro hfree
    have hsym : Symbol.Settled P
        { Symbol.ofVariable name .private t d.line with defined := true } :=
      ⟨ht, .inr (hP.of_storable ht), rfl⟩
    refine (ih (hs.define hsym)).mono fun _ s' h => ⟨?_, h.2⟩
    exact (binds_define hs.closed rfl hfree).trans h.1

theorem ends_checkAsArguments (hP : Ty.Stable P) {ds : List VarDecl} {s : State} (hs : Good P s)
    (hds : ∀ d ∈ ds, d.TypedArgument P s.types) :
    Ends (checkAsArguments ds) s fun _ s' =>
      Binds [] (bindingOfAll s'.types ds) s s' ∧ Good P s' ∧
        ∀ d ∈ ds, d.TypedArgument P s'.types := by
  induction ds generalizing s with
  | nil =>
    rw [checkAsArguments, ends_pure]
    exact ⟨.of_fills (.refl [] s), hs, hds⟩
  | cons d ds ih =>
    rw [List.forall_mem_cons] at hds
    obtain ⟨hn, _, t, ht, hp, _, hv⟩ := hds.1
    simp only [checkAsArguments, checkAsArgument, ends_bind, ends_typeOf ht]
    refine (ends_declareArgument (hP.storable hp hv) hP hs).mono fun _ s₁ h₁ => ?_
    rw [← binding_argument hn ht] at h₁
    have hag₁ : ∀ ids, s.types.Agrees s₁.types ids := fun ids => h₁.1.moves.agrees (by simp)
    obtain ⟨hd₁, hbinding₁⟩ := hds.1.mono (hag₁ d.ids)
    obtain ⟨hds₁, _⟩ := arguments_mono (hag₁ (idsOfAll ds)) hds.2
    refine (ih h₁.2 hds₁).mono fun _ s₂ h₂ => ?_
    have hag₂ : ∀ ids, s₁.types.Agrees s₂.types ids := fun ids => h₂.1.moves.agrees (by simp)
    obtain ⟨hd₂, hbinding₂⟩ := hd₁.mono (hag₂ d.ids)
    refine ⟨?_, h₂.2.1, List.forall_mem_cons.mpr ⟨hd₂, h₂.2.2⟩⟩
    rw [bindingOfAll, List.flatMap_cons, hbinding₂, hbinding₁]
    exact h₁.1.trans h₂.1

end VarDecl

namespace Function

variable {P : Ty → Prop} {s : State}

/-- The arguments and the body of a function, in a scope of their own. -/
theorem ends_checkBody (hP : Ty.Stable P) {f : Function} (hs : Good P s)
    (hr : Ready f.body.stmt.ids s) (hw : f.WellPlaced)
    (ht : ∀ t ∈ f.body.stmt.writtenTypes, Written P t)
    (hargs : ∀ d ∈ f.signature.arguments, d.TypedArgument P s.types) :
    Ends f.checkBody s fun _ s' =>
      Moves (SymbolTable.Outer Symbol.Refines) f.body.stmt.ids s s' ∧ Good P s' ∧
        f.body.stmt.Typed P s'.types s'.resultType (View.bindAll s.symbols.names
          (VarDecl.bindingOfAll s.types f.signature.arguments)) := by
  simp only [checkBody, ends_inScope, ends_bind]
  refine (VarDecl.ends_checkAsArguments hP hs.enter hargs).mono fun _ s₁ h₁ => ?_
  obtain ⟨hbinds, hgood₁, hargs₁⟩ := h₁
  have hag₁ : ∀ ids, s.types.Agrees s₁.types ids := fun ids => hbinds.moves.agrees (by simp)
  refine (Stmt.ends_check hP hgood₁ (hbinds.moves.ready hr (by simp)) hw.2 ht).mono
    fun _ s₂ h₂ => ?_
  have hinner := hbinds.body h₂.moves
  have hmoves := hinner.exit
  refine ⟨hmoves, hs.exit h₂.good hinner, ?_⟩
  obtain ⟨-, hbinding⟩ :=
    VarDecl.arguments_mono (hag₁ (VarDecl.idsOfAll f.signature.arguments)) hargs
  have htyped := h₂.typed _ (.refl _)
  rw [hbinds.names, names_enter, hbinding] at htyped
  exact htyped

/-- **The check of a function ends, and the function is typed** by what is known behind it. -/
theorem ends_check (hP : Ty.Stable P) {f : Function} (hs : Good P s) (hl : s.symbols.locals = [])
    (hr : Ready f.ids s) (hw : f.WellPlaced)
    (ht : ∀ t ∈ f.signature.writtenTypes ++ f.body.stmt.writtenTypes, Written P t) :
    Ends f.check s fun _ s' => Moves SymbolTable.Extends f.ids s s' ∧ Good P s' ∧
      ∃ R, f.Typed P s'.types s'.symbols.names R := by
  obtain ⟨hsig, hbody, hdis⟩ := ready_append.mp hr
  rw [List.forall_mem_append] at ht
  simp only [check, ends_bind, ends_modifySymbol, ends_inFunction, ends_get]
  refine (Signature.ends_check hs hl hsig ht.1).mono fun id s₁ h₁ => ?_
  obtain ⟨sym, hsym, hfunction⟩ := h₁.symbol
  have hrefines : sym.Refines { sym with defined := true } := .defined sym
  have hsettled := h₁.good.settled id sym hsym
  obtain ⟨hmoves₂, hgood₂⟩ := h₁.good.modifySymbol hsym (f := fun s => { s with defined := true })
    ⟨hrefines.meaning_eq ▸ hsettled.meaning, hsettled.type, hsettled.offset⟩ hrefines
  obtain ⟨sym₂, hsym₂, hr₂⟩ := hmoves₂.symbols.keeps id sym hsym
  generalize s₁.modifySymbol id (fun s => { s with defined := true }) = s₂ at hmoves₂ hgood₂ hsym₂ ⊢
  have hgood₃ := hgood₂.within hsym₂ (hr₂.isFunction_eq.trans hfunction)
  have hmoves₁₂ := Moves.extends_trans h₁.moves (Moves.extends_of_outer h₁.good hmoves₂)
  rw [List.append_nil] at hmoves₁₂
  have hag₂ : s₁.types.Agrees s₂.types (VarDecl.idsOfAll f.signature.arguments) :=
    hmoves₂.agrees (by simp)
  obtain ⟨hargs₂, -⟩ := VarDecl.arguments_mono hag₂ h₁.arguments
  refine (ends_checkBody hP (s := s₂.within id) hgood₃ (hmoves₁₂.ready hbody hdis) hw ht.2
    hargs₂).mono fun _ s₄ h₄ => ?_
  obtain ⟨hmoves₄, hgood₄, htyped⟩ := h₄
  have hmoves₅ : Moves (SymbolTable.Outer Symbol.Refines) f.body.stmt.ids s₂
      (s₄.beyond s₂.function) := ⟨hmoves₄.symbols, rfl, hmoves₄.types⟩
  have hgood₅ : Good P (s₄.beyond s₂.function) := by
    refine ⟨hgood₄.closed, hgood₄.settled, fun i hi => ?_⟩
    obtain ⟨sym', hsym', hf'⟩ := hgood₂.function i hi
    obtain ⟨sym'', hsym'', hr''⟩ := hmoves₄.symbols.keeps i sym' hsym'
    exact ⟨sym'', hsym'', hr''.isFunction_eq.trans hf'⟩
  obtain ⟨sym₄, hsym₄, -⟩ := hmoves₄.symbols.keeps id sym₂ hsym₂
  have hresult : s₄.resultType = sym₄.type := resultType_eq hmoves₄.function hsym₄
  rw [hresult] at htyped
  -- What there is to say of the final state, once the type of the result is decided.
  have hdone : sym₄.type ≠ .auto → f.checkFlow sym₄.type = .ok () →
      Function.Typed P ((s₄.beyond s₂.function).record f.signature.id sym₄.type).types
        s₂.symbols.names f sym₄.type := by
    intro hauto hflow
    have hsigid : f.signature.id ∉ VarDecl.idsOfAll f.signature.arguments := (ready_cons.mp hsig).1
    have hbodyid : f.signature.id ∉ f.body.stmt.ids := hdis _ List.mem_cons_self
    have hag₄ :
        s₂.types.Agrees (s₄.beyond s₂.function).types (VarDecl.idsOfAll f.signature.arguments) :=
      hmoves₅.agrees fun i hi => hdis i (List.mem_cons_of_mem _ hi)
    obtain ⟨hargs₄, hbinding₄⟩ := VarDecl.arguments_mono hag₄ hargs₂
    obtain ⟨hargs₆, hbinding₆⟩ := VarDecl.arguments_mono
      ((s₄.beyond s₂.function).agrees_record hsigid sym₄.type) hargs₄
    obtain ⟨ps, hps⟩ := h₁.name
    have hname := (Moves.extends_of_outer h₁.good hmoves₂).symbols.names _ _ hps
    refine ⟨⟨State.get?_record_self _ _ _, hauto, ?_⟩, hargs₆, ⟨ps, hname⟩, ?_, hflow⟩
    · exact (hgood₄.settled id sym₄ hsym₄).type.resolve_left fun h => hauto h.1
    · rw [hbinding₆, hbinding₄]
      exact htyped.mono (fun _ h => h) (.refl _)
        ((s₄.beyond s₂.function).agrees_record hbodyid sym₄.type)
  have hmoves₆ : Moves SymbolTable.Extends f.ids s
      ((s₄.beyond s₂.function).record f.signature.id sym₄.type) := by
    refine (Moves.extends_trans (Moves.extends_trans hmoves₁₂
      (Moves.extends_of_outer hgood₂ hmoves₅))
      (Moves.extends_of_fills (.record _ f.signature.id sym₄.type))).mono fun i hi => ?_
    rcases List.mem_append.mp hi with hi | hi
    · exact hi
    · exact List.mem_singleton.mp hi ▸ List.mem_append_left _ List.mem_cons_self
  split
  · rename_i hnone
    cases hnone.symm.trans hsym₄
  · rename_i sym' hsym'
    cases hsym'.symm.trans hsym₄
    simp only [ends_bind, ends_require]
    intro hauto
    rw [decide_eq_true_eq] at hauto
    split
    · exact ends_fault
    · simp only [ends_bind, ends_setType]
      split
      · rename_i hflow
        refine ⟨hmoves₆, hgood₅.fills (.record _ _ _), sym₄.type, ?_⟩
        have hnames := names_eq hgood₂ hmoves₅
        exact (hdone hauto hflow).mono (by rw [← hnames]; exact .refl _) fun _ _ _ h => h
      · rename_i e hflow
        exact ends_throw.mpr (blames_of_checkFlow hflow)

end Function

/-! ### Units -/

/-- **A declaration of the unit is typed.** -/
def Decl.Typed (P : Ty → Prop) (T : TypeTable) (Γ : Names) : Decl → Prop
  | .variable d => d.TypedGlobal P T Γ
  | .declare s => ∀ a ∈ s.arguments, a.TypedArgument P T
  | .define f => ∃ R, f.Typed P T Γ R

theorem VarDecl.TypedGlobal.mono {P : Ty → Prop} {T U : TypeTable} {Γ Δ : Names} {d : VarDecl}
    (hΓ : Γ.Le Δ) (hT : T.Agrees U d.ids) (h : d.TypedGlobal P T Γ) : d.TypedGlobal P U Δ := by
  refine ⟨h.1.mono hΓ hT, fun e he => ⟨(h.2 e he).1, ?_⟩⟩
  obtain ⟨t, ⟨ht, _⟩, _⟩ := h.1
  rw [TypeTable.typeOf_eq (hT _ List.mem_cons_self _ ht), ← TypeTable.typeOf_eq ht]
  exact (h.2 e he).2

theorem Decl.Typed.mono {P : Ty → Prop} {T U : TypeTable} {Γ Δ : Names} {d : Decl} (hΓ : Γ.Le Δ)
    (hT : T.Agrees U d.ids) (h : d.Typed P T Γ) : d.Typed P U Δ := by
  cases d with
  | «variable» d => exact VarDecl.TypedGlobal.mono hΓ hT h
  | declare s => exact (VarDecl.arguments_mono (hT.mono (List.subset_cons_self _ _)) h).1
  | define f =>
    obtain ⟨R, hR⟩ := h
    exact ⟨R, hR.mono hΓ hT⟩

/-- **The check of a declaration of the unit ends, and the declaration is typed** by what is known
behind it. -/
theorem Decl.ends_check {P : Ty → Prop} (hP : Ty.Stable P) {d : Decl} {s : State} (hs : Good P s)
    (hl : s.symbols.locals = []) (hr : Ready d.ids s) (hw : d.WellPlaced)
    (ht : ∀ t ∈ d.writtenTypes, Written P t) :
    Ends d.check s fun _ s' => Moves SymbolTable.Extends d.ids s s' ∧ Good P s' ∧
      d.Typed P s'.types s'.symbols.names := by
  cases d with
  | «variable» d =>
    refine (VarDecl.ends_check hP hs hr hw (ht d.type List.mem_cons_self)).mono fun _ s' h => ?_
    obtain ⟨hbinds, hgood, -, hglobal⟩ := h
    obtain ⟨hl', hle⟩ := hbinds.global hl
    exact ⟨hbinds.moves.imp fun hk => ⟨hk, fun _ => hl', hle⟩, hgood,
      (hglobal hl).mono hle fun _ _ _ h => h⟩
  | declare sig =>
    simp only [check, ends_bind, ends_pure]
    exact (Signature.ends_check hs hl hr ht).mono fun id s' h => ⟨h.moves, h.good, h.arguments⟩
  | define f => exact Function.ends_check hP hs hl hr hw ht

namespace Typing

variable {P : Ty → Prop}

/-- **What is known of declarations whose check ends with an answer.** -/
structure Accepted (P : Ty → Prop) (ds : List Decl) (T : TypeTable) (σ : SymbolTable) : Prop where
  /-- Every binding leads to a symbol of that name. -/
  closed : σ.Closed
  /-- No scope is open. -/
  locals : σ.locals = []
  /-- Every symbol is settled. -/
  settled : ∀ id sym, σ.get? id = some sym → sym.Settled P
  /-- The types of names are settled. -/
  names : View.Settled P σ.names
  /-- No name stands for something in a frame. -/
  global : ∀ name sym, σ.view id name = some sym → sym.isGlobal = true
  /-- The declarations are typed. -/
  typed : ∀ d ∈ ds, d.Typed P T σ.names

/-- The check of declarations ends, and they are typed by what is known behind them. -/
theorem ends_checkDecls (hP : Ty.Stable P) {ds : List Decl} {s : State} (hs : Good P s)
    (hl : s.symbols.locals = []) (hr : Ready (Decl.idsOfAll ds) s) (hw : ∀ d ∈ ds, d.WellPlaced)
    (ht : ∀ d ∈ ds, ∀ t ∈ d.writtenTypes, Written P t) :
    Ends (checkDecls ds) s fun _ s' => Moves SymbolTable.Extends (Decl.idsOfAll ds) s s' ∧
      Accepted P ds s'.types s'.symbols := by
  induction ds generalizing s with
  | nil =>
    rw [checkDecls, ends_pure]
    exact ⟨Moves.extends_of_fills (.refl _ s), hs.closed, hl, hs.settled, hs.names, fun _ _ =>
      hs.isGlobal, by simp⟩
  | cons d ds ih =>
    obtain ⟨hd, hds, hdis⟩ := ready_append.mp hr
    rw [List.forall_mem_cons] at hw ht
    simp only [checkDecls, ends_bind]
    refine (Decl.ends_check hP hs hl hd hw.1 ht.1).mono fun _ s₁ h₁ => ?_
    obtain ⟨hmoves₁, hgood₁, htyped₁⟩ := h₁
    refine (ih hgood₁ (hmoves₁.symbols.locals hl) (hmoves₁.ready hds hdis) hw.2 ht.2).mono
      fun _ s₂ h₂ => ?_
    obtain ⟨hmoves₂, h₂⟩ := h₂
    refine ⟨Moves.extends_trans hmoves₁ hmoves₂, h₂.closed, h₂.locals, h₂.settled,
      h₂.names, h₂.global, ?_⟩
    exact List.forall_mem_cons.mpr
      ⟨htyped₁.mono hmoves₂.symbols.names (hmoves₂.agrees hdis), h₂.typed⟩

/-- Before the check of a unit there is nothing that could be wrong. -/
theorem good_start (T : TypeTable) : Good P (.start T) := by
  refine ⟨SymbolTable.closed_empty, fun id sym hsym => ?_, fun id hid => by cases hid⟩
  simp [State.start, SymbolTable.empty, SymbolTable.get?] at hsym

/-- Before the check of a tree all of its nodes wait to be checked. -/
theorem ready_start {nodes : Array Node} {root : NodeId} {t : SyntaxTree}
    (h : SyntaxTree.ofNodes nodes root = .ok t) :
    Ready (Decl.idsOfAll t.declarations) (.start (.ofSize t.size)) := by
  refine ⟨SyntaxTree.nodup_ids h, fun i _ => ?_⟩
  simp only [State.start, TypeTable.get?, TypeTable.ofSize, Array.getElem?_replicate]
  split <;> rfl

/-- What is found out about the check of the declarations is found out about that of the tree. -/
theorem checkTree_of_ends {t : SyntaxTree} {Q : State → Prop}
    (h : Ends (checkDecls t.declarations) (.start (.ofSize t.size)) fun _ => Q) :
    (∀ T σ, checkTree t = .ok (T, σ) → ∃ s, s.types = T ∧ s.symbols = σ ∧ Q s) ∧
      ∀ e, checkTree t = .error e → e.BlamesProgram := by
  unfold Ends at h
  unfold checkTree checkUnit
  split at h
  · rename_i s heq
    rw [heq]
    refine ⟨fun T σ hok => ?_, fun e he => by cases he⟩
    cases hok
    exact ⟨s, rfl, rfl, h⟩
  · rename_i heq
    rw [heq]
    refine ⟨fun T σ hok => (by cases hok), fun e he => ?_⟩
    cases he
    exact h

/-- **The check of a tree ends with an answer, and then the tree is accepted, or it blames the
program.** -/
theorem checkTree_outcome (hP : Ty.Stable P) {nodes : Array Node} {root : NodeId} {t : SyntaxTree}
    (h : SyntaxTree.ofNodes nodes root = .ok t)
    (ht : ∀ d ∈ t.declarations, ∀ u ∈ d.writtenTypes, Written P u) :
    (∀ T σ, checkTree t = .ok (T, σ) → Accepted P t.declarations T σ) ∧
      ∀ e, checkTree t = .error e → e.BlamesProgram := by
  have hends := ends_checkDecls hP (good_start _) rfl (ready_start h) (SyntaxTree.wellPlaced h) ht
  obtain ⟨hok, herror⟩ := checkTree_of_ends hends
  refine ⟨fun T σ hcheck => ?_, herror⟩
  obtain ⟨s, rfl, rfl, -, haccepted⟩ := hok T σ hcheck
  exact haccepted

end Typing

end PostfixCompiler
