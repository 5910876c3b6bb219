import PostfixCompiler.Proofs.Machine.UnitLabels
import PostfixCompiler.Proofs.Scope.CheckedUnit
import PostfixCompiler.Proofs.Typing.Steps

/-!
# What the declarations of a unit register

The linker knows a symbol by its name. Whether this unit places it or another one has to is decided
by three things: whether the symbol is a function, with which qualifier it was declared, and whether
there is a definition. Together they are the **status** of the symbol, and each declaration of a
unit changes the status of its own names only.

So behind a unit the global scope is a register of its declarations: the names in it are those that
are declared, each name is declared as one kind of symbol and with one qualifier, a function counts
as defined exactly if one of the declarations defines it, and no name is defined twice.

## Main definitions

* `PostfixCompiler.Status`, `PostfixCompiler.Symbol.status`: what the linker has to know of a
  symbol.
* `PostfixCompiler.Decl.Registers`: what a declaration makes known.
* `PostfixCompiler.Decl.definitions`: the names that a declaration defines.
* `PostfixCompiler.Registered`: names are known as declarations say.

## Main statements

* `PostfixCompiler.Decl.ends_registers`, `PostfixCompiler.Registered.register`: a declaration is
  registered.
* `PostfixCompiler.SyntaxTree.registered`: behind the check of a tree its declarations are
  registered.
* `PostfixCompiler.SymbolTable.mem_globals`: the symbols of a unit are those that names stand for.
-/

namespace PostfixCompiler

open Typing

/-- **What the linker has to know of a symbol.** -/
structure Status where
  /-- The symbol is a function. -/
  isFunction : Bool
  /-- Who may use it. -/
  qualifier : Qualifier
  /-- There is a definition. -/
  defined : Bool

/-- What the linker has to know of a symbol. -/
def Symbol.status (s : Symbol) : Status := ⟨s.isFunction, s.qualifier, s.defined⟩

/-! ### What declarations make known -/

/-- The status of a variable. -/
def VarDecl.status (d : VarDecl) : Status := ⟨false, d.qualifier, d.initializer.isSome⟩

/-- **A declaration of variables makes its names known**, none of which was known. -/
def VarDecl.Registers (V W : View Status) (d : VarDecl) : Prop :=
  d.names.Nodup ∧ (∀ name ∈ d.names, V name = none) ∧
    ∀ name, W name = if name ∈ d.names then some d.status else V name

/-- **A signature makes a function known**, or it agrees with what was known of the function. -/
def Signature.Announces (V W : View Status) (defining : Bool) (sig : Signature) : Prop :=
  (defining = true → sig.qualifier ≠ .require) ∧
    (∀ st, V sig.name = some st →
      st.isFunction = true ∧ st.qualifier = sig.qualifier ∧
      ¬(defining = true ∧ st.defined = true)) ∧
    W = V.bind sig.name ⟨true, sig.qualifier, (V sig.name).any Status.defined⟩

namespace Decl

/-- **What a declaration of the unit makes known.** -/
def Registers (V W : View Status) : Decl → Prop
  | .variable d => d.Registers V W
  | .declare sig => sig.Announces V W false
  | .define f => ∃ U, f.signature.Announces V U true ∧
      W = U.bind f.signature.name ⟨true, f.signature.qualifier, true⟩

/-- **The names that a declaration defines**: another unit defines a variable that this one
requires. -/
def definitions : Decl → List String
  | .variable d => if d.qualifier = .require then [] else d.names
  | .declare _ => []
  | .define f => [f.signature.name]

/-- A declaration declares functions. -/
def isFunction : Decl → Bool
  | .variable _ => false
  | .declare _ | .define _ => true

/-- The qualifier of what a declaration declares. -/
def qualifier : Decl → Qualifier
  | .variable d => d.qualifier
  | .declare sig => sig.qualifier
  | .define f => f.signature.qualifier

theorem definitions_subset (d : Decl) : d.definitions ⊆ d.names := by
  cases d with
  | «variable» d =>
    rw [definitions, names]
    split <;> simp
  | declare | define => simp [definitions, names]

end Decl

/-- **Names are known as declarations say.** -/
structure Registered (ds : List Decl) (V : View Status) : Prop where
  /-- What is declared is known, as what it is declared. -/
  known : ∀ d ∈ ds, ∀ name ∈ d.names, ∃ st, V name = some st ∧ st.isFunction = d.isFunction ∧
    st.qualifier = d.qualifier
  /-- What is known is declared. -/
  declared : ∀ name st, V name = some st → ∃ d ∈ ds, name ∈ d.names
  /-- A function is known to be defined if it is. -/
  defined : ∀ name st, V name = some st → st.isFunction = true →
    (st.defined = true ↔ ∃ f, Decl.define f ∈ ds ∧ f.signature.name = name)
  /-- No name is defined twice. -/
  nodup : (ds.flatMap Decl.definitions).Nodup
  /-- No function is defined that another unit has to define. -/
  required : ∀ f, Decl.define f ∈ ds → f.signature.qualifier ≠ .require

/-! ### A declaration is registered -/

namespace Registered

variable {ds : List Decl} {V W : View Status}

theorem nil : Registered [] fun _ => none where
  known := by simp
  declared := by simp
  defined := by simp
  nodup := by simp
  required := by simp

/-- A name that is not known is not declared, and so it is not defined. -/
theorem not_mem_names (h : Registered ds V) {name : String} (hname : V name = none) :
    ∀ d ∈ ds, name ∉ d.names := by
  intro d hd hmem
  obtain ⟨st, hst, -⟩ := h.known d hd name hmem
  cases hname.symm.trans hst

/-- Variables are registered. -/
theorem register_variable (h : Registered ds V) {d : VarDecl} (hd : d.Registers V W) :
    Registered (ds ++ [.variable d]) W := by
  obtain ⟨hnodup, hfree, hW⟩ := hd
  -- None of the names was known, so all that was known is kept.
  have hold : ∀ {name st}, V name = some st → W name = some st := by
    intro name st hst
    rw [hW, if_neg]
    · exact hst
    · intro hmem
      cases (hfree name hmem).symm.trans hst
  have hnew : ∀ {name st}, W name = some st → name ∈ d.names ∧ st = d.status ∨
      V name = some st := by
    intro name st hst
    rw [hW] at hst
    split at hst
    · rename_i hmem
      exact .inl ⟨hmem, (Option.some.inj hst).symm⟩
    · exact .inr hst
  refine ⟨?_, fun name st hst => ?_, fun name st hst hf => ?_, ?_, fun f hf => ?_⟩
  · rw [List.forall_mem_append, List.forall_mem_singleton]
    refine ⟨fun e he name hname => ?_, fun name hname => ⟨d.status, ?_, rfl, rfl⟩⟩
    · obtain ⟨st, hst, hkind⟩ := h.known e he name hname
      exact ⟨st, hold hst, hkind⟩
    · exact (hW name).trans (if_pos hname)
  · rcases hnew hst with ⟨hmem, -⟩ | hst
    · exact ⟨_, List.mem_append_right _ List.mem_cons_self, hmem⟩
    · obtain ⟨e, he, hmem⟩ := h.declared name st hst
      exact ⟨e, List.mem_append_left _ he, hmem⟩
  · rcases hnew hst with ⟨-, rfl⟩ | hst
    · cases hf
    · simpa using h.defined name st hst hf
  · rw [List.flatMap_append, List.flatMap_singleton, List.nodup_append]
    refine ⟨h.nodup, ?_, ?_⟩
    · rw [Decl.definitions]
      split
      · exact List.nodup_nil
      · exact hnodup
    · rintro a ha b hb rfl
      obtain ⟨e, he, hae⟩ := List.mem_flatMap.mp ha
      exact h.not_mem_names (hfree a (Decl.definitions_subset _ hb)) e he (e.definitions_subset hae)
  · exact h.required f (by simpa using hf)

/-- A function is known under its name, beside what was known before. -/
theorem known_bind (h : Registered ds V) {sig : Signature} {d : Decl}
    (hnames : d.names = [sig.name]) (hfunction : d.isFunction = true)
    (hqualifier : d.qualifier = sig.qualifier)
    (hprior : ∀ st, V sig.name = some st → st.isFunction = true ∧ st.qualifier = sig.qualifier)
    (defined : Bool) :
    (∀ e ∈ ds ++ [d], ∀ name ∈ e.names, ∃ st,
      V.bind sig.name ⟨true, sig.qualifier, defined⟩ name = some st ∧
      st.isFunction = e.isFunction ∧ st.qualifier = e.qualifier) ∧
    ∀ name st, V.bind sig.name ⟨true, sig.qualifier, defined⟩ name = some st →
    ∃ e ∈ ds ++ [d], name ∈ e.names := by
  constructor
  · rw [List.forall_mem_append, List.forall_mem_singleton, hnames]
    refine ⟨fun e he name hname => ?_, fun name hname => ?_⟩
    · obtain ⟨st, hst, hf, hq⟩ := h.known e he name hname
      -- An earlier declaration of the function agrees with this one.
      by_cases heq : name = sig.name
      · subst heq
        obtain ⟨hf', hq'⟩ := hprior st hst
        exact ⟨_, View.bind_self _ _ _, hf'.symm.trans hf, hq'.symm.trans hq⟩
      · exact ⟨st, (View.bind_ne _ _ heq).trans hst, hf, hq⟩
    · rw [List.mem_singleton] at hname
      subst hname
      exact ⟨_, View.bind_self _ _ _, hfunction.symm, hqualifier.symm⟩
  · intro name st hst
    by_cases heq : name = sig.name
    · exact ⟨d, List.mem_append_right _ List.mem_cons_self,
        by rw [hnames, heq]; exact List.mem_cons_self⟩
    · rw [View.bind_ne _ _ heq] at hst
      obtain ⟨e, he, hmem⟩ := h.declared name st hst
      exact ⟨e, List.mem_append_left _ he, hmem⟩

/-- A function without body is registered. -/
theorem register_declare (h : Registered ds V) {sig : Signature} (hd : sig.Announces V W false) :
    Registered (ds ++ [.declare sig]) W := by
  obtain ⟨-, hprior, rfl⟩ := hd
  obtain ⟨hknown, hdeclared⟩ := h.known_bind (d := .declare sig) rfl rfl rfl
    (fun st hst => ⟨(hprior st hst).1, (hprior st hst).2.1⟩) ((V sig.name).any Status.defined)
  refine ⟨hknown, hdeclared, fun name st hst hf => ?_,
    by simpa [Decl.definitions] using h.nodup, fun f hf => ?_⟩
  · have hdefined : st.defined = true ↔ ∃ f, Decl.define f ∈ ds ∧ f.signature.name = name := by
      by_cases heq : name = sig.name
      · subst heq
        rw [View.bind_self] at hst
        cases hst
        cases hold : V sig.name with
        | some st => exact h.defined _ st hold (hprior st hold).1
        | none =>
          refine ⟨fun hfalse => (by cases hfalse), ?_⟩
          rintro ⟨f, hmem, hname⟩
          exact absurd (hname ▸ List.mem_cons_self) (h.not_mem_names hold _ hmem)
      · rw [View.bind_ne _ _ heq] at hst
        exact h.defined name st hst hf
    simpa using hdefined
  · exact h.required f (by simpa using hf)

/-- A function with a body is registered. -/
theorem register_define (h : Registered ds V) {f : Function} (hd : (Decl.define f).Registers V W) :
    Registered (ds ++ [.define f]) W := by
  obtain ⟨U, ⟨hrequire, hprior, rfl⟩, rfl⟩ := hd
  rw [View.bind_bind]
  obtain ⟨hknown, hdeclared⟩ := h.known_bind (d := .define f) rfl rfl rfl
    (fun st hst => ⟨(hprior st hst).1, (hprior st hst).2.1⟩) true
  -- A variable of that name would be known as one, and a function as defined.
  have hfresh : f.signature.name ∉ ds.flatMap Decl.definitions := by
    intro hmem
    obtain ⟨e, he, hmem⟩ := List.mem_flatMap.mp hmem
    obtain ⟨st, hst, hkind, -⟩ := h.known e he _ (e.definitions_subset hmem)
    obtain ⟨hfunction, -, hundefined⟩ := hprior st hst
    cases e with
    | «variable» d => exact Bool.false_ne_true (hkind.symm.trans hfunction)
    | declare sig => cases hmem
    | define g =>
      rw [Decl.definitions, List.mem_singleton] at hmem
      exact hundefined ⟨rfl, (h.defined _ st hst hfunction).mpr ⟨g, he, hmem.symm⟩⟩
  refine ⟨hknown, hdeclared, fun name st hst hf => ?_, ?_, fun g hg => ?_⟩
  · by_cases heq : name = f.signature.name
    · subst heq
      rw [View.bind_self] at hst
      cases hst
      exact ⟨fun _ => ⟨f, List.mem_append_right _ List.mem_cons_self, rfl⟩, fun _ => rfl⟩
    · rw [View.bind_ne _ _ heq] at hst
      rw [h.defined name st hst hf]
      refine ⟨fun ⟨g, hg, hname⟩ => ⟨g, List.mem_append_left _ hg, hname⟩, fun ⟨g, hg, hname⟩ =>
        ⟨g, ?_, hname⟩⟩
      rcases List.mem_append.mp hg with hg | hg
      · exact hg
      · cases List.mem_singleton.mp hg
        exact absurd hname.symm heq
  · rw [List.flatMap_append, List.flatMap_singleton, Decl.definitions, List.nodup_append]
    refine ⟨h.nodup, List.nodup_singleton _, fun a ha b hb hab => ?_⟩
    rw [List.mem_singleton.mp hb] at hab
    exact hfresh (hab ▸ ha)
  · rcases List.mem_append.mp hg with hg | hg
    · exact h.required g hg
    · cases List.mem_singleton.mp hg
      exact hrequire rfl

/-- **A declaration of the unit is registered.** -/
theorem register (h : Registered ds V) {d : Decl} (hd : d.Registers V W) :
    Registered (ds ++ [d]) W := by
  cases d with
  | «variable» d => exact h.register_variable hd
  | declare sig => exact h.register_declare hd
  | define f => exact h.register_define hd

end Registered

/-! ### The check registers declarations -/

namespace SymbolTable

variable {β : Type} {t : SymbolTable}

/-- A symbol that is changed is another one under its name. -/
theorem view_modify (ht : t.Closed) (g : Symbol → β) {name : String} {id : SymbolId} {s : Symbol}
    (hid : t.lookup? name = some id) (hs : t.get? id = some s) (f : Symbol → Symbol) :
    (t.modify id f).view g = (t.view g).bind name (g (f s)) := by
  funext x
  have hlookup : ∀ x, (t.modify id f).lookup? x = t.lookup? x := fun _ => rfl
  have hname : s.name = name := by
    obtain ⟨s', hs', hname⟩ := ht.exists_symbol hid
    cases hs.symm.trans hs'
    exact hname
  by_cases hx : x = name
  · subst hx
    rw [View.bind_self]
    simp [view, resolve?, hlookup, hid, get?_modify, hs]
  · rw [View.bind_ne _ _ hx, view, view, resolve?, resolve?, hlookup]
    cases hx' : t.lookup? x with
    | none => rfl
    | some i =>
      have hne : i ≠ id := by
        rintro rfl
        obtain ⟨s', hs', hname'⟩ := ht.exists_symbol hx'
        cases hs.symm.trans hs'
        exact hx (hname'.symm.trans hname)
      simp [get?_modify, hne]

/-- A name that is not bound is not known. -/
theorem view_eq_none {f : Symbol → β} {name : String} (h : t.lookup? name = none) :
    t.view f name = none := by
  simp [view, resolve?, h]

end SymbolTable

/-- What the linker has to know of the names in scope. -/
def Typing.State.statuses (s : State) : View Status := s.symbols.view Symbol.status

namespace VarDecl

variable {s : State}

/-- What is known of the names of a declaration once its variables are declared, where `g` sees the
same in all of them. -/
theorem ends_declareEach_view {β : Type} {g : Symbol → β} {b : β} (d : VarDecl)
    (bs : List (String × Ty)) (hg : ∀ name t, g { Symbol.ofVariable name d.qualifier t d.line with
      isAuto := d.type = .auto, defined := d.initializer.isSome } = b)
    (hs : s.symbols.Closed) (hl : s.symbols.locals = []) :
    Ends (d.declareEach bs) s fun _ s' => (bs.map Prod.fst).Nodup ∧
      (∀ name ∈ bs.map Prod.fst, s.symbols.view g name = none) ∧
      ∀ name, s'.symbols.view g name =
        if name ∈ bs.map Prod.fst then some b else s.symbols.view g name := by
  induction bs generalizing s with
  | nil => exact ⟨List.nodup_nil, by simp, fun name => by simp⟩
  | cons entry bs ih =>
    simp only [declareEach, ends_bind, ends_get, ends_require, ends_define]
    intro hfree
    rw [Option.isNone_iff_eq_none, SymbolTable.lookupLocal?_eq hl] at hfree
    have hview : (s.symbols.define { Symbol.ofVariable entry.1 d.qualifier entry.2 d.line with
        isAuto := d.type = .auto, defined :=
          d.initializer.isSome }).2.view g = (s.symbols.view g).bind entry.1 b := by
      rw [SymbolTable.view_define hs, hg]
      rfl
    refine (ih (hs.define _) (by simp [SymbolTable.define, hl])).mono fun _ s' h => ?_
    obtain ⟨hnodup, hnone, hafter⟩ := h
    simp only [hview] at hnone hafter
    have hne : entry.1 ∉ bs.map Prod.fst := by
      intro hmem
      have hbound := hnone _ hmem
      rw [View.bind_self] at hbound
      cases hbound
    rw [List.map_cons]
    refine ⟨List.nodup_cons.mpr ⟨hne, hnodup⟩,
      List.forall_mem_cons.mpr ⟨SymbolTable.view_eq_none hfree, ?_⟩, ?_⟩
    · intro name hname
      have hbound := hnone name hname
      have hne' : name ≠ entry.1 := fun heq => hne (by rwa [← heq])
      rwa [View.bind_ne _ _ hne'] at hbound
    · intro name
      rw [hafter]
      by_cases heq : name = entry.1
      · subst heq
        simp [hne, View.bind_self]
      · rw [View.bind_ne _ _ heq]
        simp only [List.mem_cons, heq, false_or]

/-- **The names of a declaration are new, and they are known behind it**, where `g` sees the same in
all of its variables. -/
theorem ends_view {β : Type} {g : Symbol → β} {b : β} {d : VarDecl}
    (hg : ∀ name t, g { Symbol.ofVariable name d.qualifier t d.line with
      isAuto := d.type = .auto, defined := d.initializer.isSome } = b)
    (hs : Good Ty.Known s) (hr : Ready d.ids s) (hw : d.WellPlaced) (hl : s.symbols.locals = []) :
    Ends d.check s fun _ s' => d.names.Nodup ∧ (∀ name ∈ d.names, s.symbols.view g name = none) ∧
      ∀ name, s'.symbols.view g name =
        if name ∈ d.names then some b else s.symbols.view g name := by
  obtain ⟨-, -, hinit⟩ := ready_cons.mp hr
  simp only [check, ends_bind, ends_get]
  refine ends_checkForm hw fun hknown hnone => ?_
  refine (ends_declaredType Ty.stable_known hs hinit hw hknown hnone).mono fun t s₁ h => ?_
  simp only [ends_require]
  intro _ _
  have hnames : (d.names.zip (d.typesOfNames t)).map Prod.fst = d.names :=
    List.map_fst_zip (Nat.le_of_eq (length_typesOfNames h.divides).symm)
  have hsymbols := h.fills.symbols
  have heach := d.ends_declareEach_view (d.names.zip (d.typesOfNames t)) hg (hsymbols ▸ hs.closed)
    (hsymbols ▸ hl)
  rw [hnames, hsymbols] at heach
  refine heach.mono fun _ s₂ h₂ => ?_
  rw [ends_setType]
  exact h₂

/-- **The check of a declaration of variables registers them.** -/
theorem ends_registers {d : VarDecl} (hs : Good Ty.Known s) (hr : Ready d.ids s) (hw : d.WellPlaced)
    (hl : s.symbols.locals = []) : Ends d.check s fun _ s' => d.Registers s.statuses s'.statuses :=
  ends_view (fun _ _ => rfl) hs hr hw hl

end VarDecl

/-- **The check of a signature makes its function known.** -/
theorem Signature.ends_announces {sig : Signature} {defining : Bool} {s : State}
    (hs : Good Ty.Known s) (hr : Ready sig.ids s) (hl : s.symbols.locals = []) :
    Ends (sig.check defining) s fun id s' => sig.Announces s.statuses s'.statuses defining ∧
      s'.symbols.lookup? sig.name = some id := by
  simp only [check, ends_bind, ends_require, ends_get]
  intro hrequire _
  have hrequire : defining = true → sig.qualifier ≠ .require := fun h => by simpa [h] using hrequire
  refine (ends_checkArguments (P := Ty.Known) sig (ready_cons.mp hr).2.2 fun _ _ h =>
    h).mono fun ps s₁ h => ?_
  have hclosed := (hs.fills h.1).closed
  have hstart : s₁.statuses = s.statuses := by rw [State.statuses, State.statuses, h.1.symbols]
  rw [← h.1.symbols] at hl
  rw [← hstart]
  split
  · rename_i id prior hres
    simp only [ends_bind, ends_require, ends_setType, ends_pure]
    intro hfunction hagrees hfirst
    rw [SymbolTable.resolveLocal?_eq hl] at hres
    have hprior : s₁.statuses sig.name = some prior.status :=
      SymbolTable.view_of_resolve Symbol.status hres
    have hqualifier : prior.qualifier = sig.qualifier := by
      simp only [agrees, Bool.and_eq_true, decide_eq_true_eq] at hagrees
      exact hagrees.2
    refine ⟨⟨hrequire, fun st hst => ?_, ?_⟩, SymbolTable.lookup_of_resolve hres⟩
    · cases hprior.symm.trans hst
      exact ⟨hfunction, hqualifier, fun h =>
        by simp [h.1, show prior.defined = true from h.2] at hfirst⟩
    · have hstatus : (⟨true, sig.qualifier, (s₁.statuses sig.name).any Status.defined⟩ : Status) =
          prior.status := by
        rw [hprior, Symbol.status, hfunction, hqualifier]
        rfl
      rw [hstatus, View.bind_eq_self hprior]
      rfl
  · rename_i hres
    simp only [ends_bind, ends_define, ends_setType, ends_pure]
    have hfree := Option.isNone_iff_eq_none.mp (SymbolTable.lookupLocal?_eq_none hclosed hl hres)
    rw [SymbolTable.lookupLocal?_eq hl] at hfree
    have hnone : s₁.statuses sig.name = none := SymbolTable.view_eq_none hfree
    refine ⟨⟨hrequire, fun st hst => (by cases hnone.symm.trans hst), ?_⟩, ?_⟩
    · rw [hnone]
      exact SymbolTable.view_define hclosed Symbol.status _
    · exact (SymbolTable.lookup?_define ..).trans (if_pos rfl)

namespace Function

variable {s : State}

/-- The body of a function changes no status. -/
theorem statuses_checkBody {f : Function} {s' : State} (hs : s.symbols.Closed)
    (h : f.checkBody s = .ok () s') :
    s'.statuses = s.statuses := by
  have hsteps : Steps (fun g => ∀ sym, (g sym).status = sym.status) (fun _ => True) (do
      checkAsArguments f.signature.arguments
      f.body.stmt.check) :=
    .bind (steps_checkAsArguments _) fun _ => Stmt.steps_check (fun _ _ => rfl) _
  have houter :=
    hsteps.outer (r := fun a b => b.status = a.status) (fun _ => rfl) (fun _ _ _ h h' => h'.trans h)
    (fun _ hg sym => hg sym) h
  exact houter.view_eq hs fun _ _ h => h

/-- The symbol of a function that is announced is marked, and the function counts as defined. -/
theorem statuses_defined {sig : Signature} {V : View Status} {id : SymbolId} {sym : Symbol}
    (hs : s.symbols.Closed) (hid : s.symbols.lookup? sig.name = some id)
    (hsym : s.symbols.get? id = some sym)
    (hfunction : sym.isFunction = true) (h : sig.Announces V s.statuses true) :
    (s.modifySymbol id fun s => { s with defined := true }).statuses =
      s.statuses.bind sig.name ⟨true, sig.qualifier, true⟩ := by
  obtain ⟨-, -, hannounced⟩ := h
  have hlast : s.statuses sig.name = some sym.status :=
    SymbolTable.view_of_resolve Symbol.status (SymbolTable.resolve_of_get hid hsym)
  rw [hannounced, View.bind_self, Option.some.injEq] at hlast
  have hnew : Symbol.status { sym with defined := true } = ⟨true, sig.qualifier, true⟩ := by
    change (⟨sym.isFunction, sym.status.qualifier, true⟩ : Status) = _
    rw [hfunction, ← hlast]
  refine (SymbolTable.view_modify hs Symbol.status hid hsym _).trans ?_
  rw [hnew]
  rfl

/-- **The check of a function registers it.** -/
theorem ends_registers {f : Function} (hs : Good Ty.Known s) (hr : Ready f.ids s)
    (hw : f.WellPlaced) (hl : s.symbols.locals = []) :
    Ends f.check s fun _ s' => (Decl.define f).Registers s.statuses s'.statuses := by
  obtain ⟨hsig, hbody, hdis⟩ := ready_append.mp hr
  simp only [check, ends_bind, ends_modifySymbol, ends_inFunction, ends_get]
  refine ((Signature.ends_check hs hl hsig fun _ _ h =>
    h).and (Signature.ends_announces hs hsig hl)).mono
    fun id s₁ h₁ => ?_
  obtain ⟨hdeclares, hannounces, hid⟩ := h₁
  obtain ⟨sym, hsym, hfunction⟩ := hdeclares.symbol
  have hsettled := hdeclares.good.settled id sym hsym
  obtain ⟨hmoves₂, hgood₂⟩ :=
    hdeclares.good.modifySymbol hsym (f := fun s => { s with defined := true })
    ⟨hsettled.meaning, hsettled.type, hsettled.offset⟩ (.defined sym)
  obtain ⟨sym₂, hsym₂, hr₂⟩ := hmoves₂.symbols.keeps id sym hsym
  have hstatus := statuses_defined hdeclares.good.closed hid hsym hfunction hannounces
  generalize s₁.modifySymbol id (fun s => { s with defined := true }) =
    s₂ at hmoves₂ hgood₂ hsym₂ hstatus ⊢
  have hargs : ∀ d ∈ f.signature.arguments, d.TypedArgument Ty.Known s₂.types :=
    (VarDecl.arguments_mono (hmoves₂.agrees (by simp)) hdeclares.arguments).1
  have hbody₂ : Ready f.body.stmt.ids s₂ :=
    hmoves₂.ready (hdeclares.moves.ready hbody hdis) (by simp)
  have hgood₃ := hgood₂.within hsym₂ (hr₂.isFunction_eq.trans hfunction)
  refine (ends_checkBody Ty.stable_known (s := s₂.within id) hgood₃ hbody₂ hw
    (fun _ _ h => h) hargs).ok.mono
    fun _ s₃ h₃ => ?_
  obtain ⟨⟨hmoves₃, -, -⟩, hok⟩ := h₃
  have hregisters : (Decl.define f).Registers s.statuses s₃.statuses :=
    ⟨_, hannounces, (statuses_checkBody hgood₃.closed hok).trans hstatus⟩
  obtain ⟨sym₃, hsym₃, -⟩ := hmoves₃.symbols.keeps id sym₂ hsym₂
  split
  · rename_i hnone
    cases hnone.symm.trans hsym₃
  · simp only [ends_bind, ends_require]
    intro _
    split
    · exact ends_fault
    · simp only [ends_bind, ends_setType]
      split
      · exact hregisters
      · rename_i e hflow
        exact ends_throw.mpr (blames_of_checkFlow hflow)

end Function

/-- **The check of a declaration registers it.** -/
theorem Decl.ends_registers {d : Decl} {s : State} (hs : Good Ty.Known s)
    (hl : s.symbols.locals = []) (hr : Ready d.ids s) (hw : d.WellPlaced) :
    Ends d.check s fun _ s' => d.Registers s.statuses s'.statuses := by
  cases d with
  | «variable» d => exact VarDecl.ends_registers hs hr hw hl
  | declare sig =>
    simp only [check, ends_bind, ends_pure]
    exact (Signature.ends_announces hs hr hl).mono fun id s' h => h.1
  | define f => exact Function.ends_registers hs hr hw hl

/-- **The check of declarations registers them**, behind those that were registered before. -/
theorem Typing.ends_checkDecls_registered {ds before : List Decl} {s : State} (hs : Good Ty.Known s)
    (hl : s.symbols.locals = []) (hr : Ready (Decl.idsOfAll ds) s) (hw : ∀ d ∈ ds, d.WellPlaced)
    (h : Registered before s.statuses) :
    Ends (checkDecls ds) s fun _ s' => Registered (before ++ ds) s'.statuses := by
  induction ds generalizing s before with
  | nil =>
    rw [checkDecls, ends_pure, List.append_nil]
    exact h
  | cons d ds ih =>
    obtain ⟨hd, hds, hdis⟩ := ready_append.mp hr
    rw [List.forall_mem_cons] at hw
    simp only [checkDecls, ends_bind]
    refine ((Decl.ends_check Ty.stable_known hs hl hd hw.1 fun _ _ h => h).and
      (Decl.ends_registers hs hl hd hw.1)).mono fun _ s₁ h₁ => ?_
    obtain ⟨⟨hmoves, hgood, -⟩, hregisters⟩ := h₁
    have hrest :=
      ih hgood (hmoves.symbols.locals hl) (hmoves.ready hds hdis) hw.2 (h.register hregisters)
    rwa [List.append_assoc] at hrest

/-! ### Units -/

section Units

variable {nodes : Array Node} {root : NodeId} {t : SyntaxTree} {T : TypeTable} {σ : SymbolTable}

/-- **Behind the check of a tree its declarations are registered.** -/
theorem SyntaxTree.registered (h : SyntaxTree.ofNodes nodes root = .ok t)
    (hcheck : checkTree t = .ok (T, σ)) :
    Registered t.declarations (σ.view Symbol.status) := by
  have hends := ends_checkDecls_registered (good_start _) rfl (ready_start h)
    (SyntaxTree.wellPlaced h) .nil
  obtain ⟨s, -, rfl, hregistered⟩ := (checkTree_of_ends hends).1 T σ hcheck
  exact hregistered

/-- No name is bound twice in the global scope of a unit. -/
theorem SyntaxTree.nodup_global (hcheck : checkTree t = .ok (T, σ)) :
    (σ.global.map Prod.fst).Nodup := by
  obtain ⟨s, hok, -, rfl⟩ := checkTree_eq_ok.mp hcheck
  exact (steps_checkDecls (C := fun _ => True) (D := fun _ => True) (fun _ => trivial) trivial
    fun _ _ _ _ => trivial).nodup_global hok List.nodup_nil

end Units

/-! ### The symbols of a unit -/

/-- In a scope that binds no name twice a name is found where it is bound. -/
theorem Scope.find?_eq_some {s : Scope} (hn : (s.map Prod.fst).Nodup) {name : String}
    {id : SymbolId} (h : (name, id) ∈ s) : s.find? name = some id := by
  induction s with
  | nil => cases h
  | cons b s ih =>
    rw [List.map_cons, List.nodup_cons] at hn
    rw [find?, List.lookup_cons]
    rcases List.mem_cons.mp h with rfl | h
    · simp
    · have hne : name ≠ b.1 := fun heq => hn.1 (heq ▸ List.mem_map_of_mem (f := Prod.fst) h)
      rw [beq_false_of_ne hne]
      exact ih hn.2 h

/-- **The symbols of a unit are those that names stand for** outside of all scopes. -/
theorem SymbolTable.mem_globals {σ : SymbolTable} (hc : σ.Closed) (hl : σ.locals = [])
    (hn : (σ.global.map Prod.fst).Nodup) {s : Symbol} :
    s ∈ σ.globals ↔ ∃ name, σ.scope name = some s := by
  have hlookup : ∀ name, σ.lookup? name = σ.global.find? name := fun name => by
    rw [lookup?, scopes, hl, List.nil_append, List.findSome?_singleton]
  simp only [globals, List.mem_filterMap, List.mem_mergeSort]
  constructor
  · rintro ⟨⟨name, id⟩, hb, hs⟩
    have hid : σ.lookup? name = some id := (hlookup name).trans (Scope.find?_eq_some hn hb)
    obtain ⟨s', hs', hview⟩ := view_of_lookup hc (fun s => s) hid
    cases hs.symm.trans hs'
    exact ⟨name, hview⟩
  · rintro ⟨name, hs⟩
    obtain ⟨⟨id, s'⟩, hres, rfl⟩ := Option.map_eq_some_iff.mp hs
    refine ⟨(name, id), Scope.mem_of_find? ?_, get_of_resolve hres⟩
    rw [← hlookup]
    exact lookup_of_resolve hres

end PostfixCompiler
