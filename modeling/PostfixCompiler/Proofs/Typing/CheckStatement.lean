import PostfixCompiler.Proofs.Typing.CheckDeclaration

/-!
# Checked statements are typed

Inside a function the check of a statement may refine the type of the function's result, where that
is left open. A return that was checked before the type was refined for the last time fits the final
type as well, since what fits a type fits every refinement of it. So a checked statement is typed
for every type that the type of the result may still become.

## Main definitions

* `PostfixCompiler.Typing.State.resultType`: the type of the result as far as it is known.
* `PostfixCompiler.Typing.Proceeds`: what a check of statements makes sure of.

## Main statements

* `PostfixCompiler.Stmt.ends_check`: the check of a statement ends, and the statement is typed.
-/

namespace PostfixCompiler

open Typing

namespace Typing

variable {P : Ty → Prop} {s s' s'' : State}

/-! ### The type of the result -/

/-- The type of the result of the current function, as far as it is known. -/
def State.resultType (s : State) : Ty :=
  ((s.function.bind s.symbols.get?).map Symbol.type).getD .auto

theorem resultType_eq {id : SymbolId} {sym : Symbol} (hid : s.function = some id)
    (hsym : s.symbols.get? id = some sym) : s.resultType = sym.type := by
  rw [State.resultType, hid, Option.bind_some, hsym, Option.map_some, Option.getD_some]

/-- The type of the result is refined while symbols are. -/
theorem later_resultType {ids : List NodeId}
    (h : Moves (SymbolTable.Keeps Symbol.Refines) ids s s') : s.resultType.Later s'.resultType := by
  cases hid : s.function with
  | none =>
    left
    rw [State.resultType, hid]
    rfl
  | some id =>
    cases hsym : s.symbols.get? id with
    | none =>
      left
      rw [State.resultType, hid, Option.bind_some, hsym]
      rfl
    | some sym =>
      obtain ⟨sym', hsym', hr⟩ := h.symbols id sym hsym
      rw [resultType_eq hid hsym, resultType_eq (h.function.trans hid) hsym']
      exact hr.later

/-! ### Changed symbols -/

/-- To refine one symbol leaves all scopes as they were, and the symbols settled. -/
theorem Good.modifySymbol (hs : Good P s) {id : SymbolId} {sym : Symbol} {f : Symbol → Symbol}
    (hsym : s.symbols.get? id = some sym) (hf : (f sym).Settled P) (hr : sym.Refines (f sym)) :
    Moves (SymbolTable.Outer Symbol.Refines) [] s (s.modifySymbol id f) ∧
      Good P (s.modifySymbol id f) := by
  have ho : SymbolTable.Outer Symbol.Refines s.symbols (s.symbols.modify id f) :=
    SymbolTable.outer_modify Symbol.Refines.refl hsym hr
  refine ⟨⟨ho, rfl, fun _ _ => rfl⟩, ho.closed Symbol.Refines.name hs.closed, fun i sym' hi => ?_,
    fun i hi => ?_⟩
  · rw [State.modifySymbol, SymbolTable.get?_modify] at hi
    split at hi
    · rename_i heq
      rw [heq, hsym] at hi
      cases hi
      exact hf
    · exact hs.settled i sym' hi
  · obtain ⟨sym', hsym', hfunction⟩ := hs.function i hi
    obtain ⟨sym'', hsym'', hr'⟩ := ho.keeps i sym' hsym'
    exact ⟨sym'', hsym'', hr'.isFunction_eq.trans hfunction⟩

/-! ### Scopes -/

theorem Good.enter (h : Good P s) : Good P s.enter := ⟨h.closed.enter, h.settled, h.function⟩

theorem names_enter (s : State) : s.enter.symbols.names = s.symbols.names :=
  SymbolTable.view_enter s.symbols Symbol.meaning

/-- Work that leaves all scopes as they were leaves the meaning of names as it was. -/
theorem names_eq {ids : List NodeId} (hs : Good P s)
    (h : Moves (SymbolTable.Outer Symbol.Refines) ids s s') : s'.symbols.names = s.symbols.names :=
  h.symbols.view_eq hs.closed Symbol.Refines.meaning_eq

/-- Work in a scope of its own leaves all scopes as they were. -/
theorem Moves.exit {ids : List NodeId}
    (h : Moves (SymbolTable.Inner Symbol.Refines) ids s.enter s') :
    Moves (SymbolTable.Outer Symbol.Refines) ids s s'.exit :=
  ⟨h.symbols.exit, h.function, h.types⟩

theorem Good.exit {ids : List NodeId} (hs : Good P s) (h' : Good P s')
    (h : Moves (SymbolTable.Inner Symbol.Refines) ids s.enter s') : Good P s'.exit :=
  ⟨h.exit.symbols.closed Symbol.Refines.name hs.closed, h'.settled, h'.function⟩

/-- A check of expressions leaves symbols alone. -/
theorem Moves.outer {ids : List NodeId} (h : Fills ids s s') :
    Moves (SymbolTable.Outer Symbol.Refines) ids s s' :=
  h.imp fun h => h ▸ .refl Symbol.Refines.refl _

theorem Moves.keeps {ids : List NodeId} (h : Moves (SymbolTable.Outer Symbol.Refines) ids s s') :
    Moves (SymbolTable.Keeps Symbol.Refines) ids s s' :=
  h.imp SymbolTable.Outer.keeps

theorem Moves.trans {is js : List NodeId} (h : Moves (SymbolTable.Outer Symbol.Refines) is s s')
    (h' : Moves (SymbolTable.Outer Symbol.Refines) js s' s'') :
    Moves (SymbolTable.Outer Symbol.Refines) (is ++ js) s s'' :=
  h.append h' (SymbolTable.Outer.trans Symbol.Refines.trans)

/-- Bindings in a scope of its own, and work behind them. -/
theorem Binds.body {is js : List NodeId} {bs : List (String × Ty)} (h : Binds is bs s.enter s')
    (h' : Moves (SymbolTable.Outer Symbol.Refines) js s' s'') :
    Moves (SymbolTable.Inner Symbol.Refines) (is ++ js) s.enter s'' := by
  have hne : s.enter.symbols.locals ≠ [] := by simp [State.enter, SymbolTable.enter]
  have hi := h.inner hne
  exact h.moves.append h' fun _ ho => hi.trans Symbol.Refines.trans (ho.inner hi.local_ne)

/-! ### Expressions of known type -/

theorem ends_checkKnown (hP : Ty.Stable P) {e : Expr} (hs : Good P s) (hr : Ready e.ids s)
    (hw : e.WellPlaced) :
    Ends e.checkKnown s fun t s' => Fills e.ids s s' ∧ e.TypedAs P s'.types s.symbols.names t := by
  simp only [Expr.checkKnown, ends_bind, ends_known]
  exact (Expr.ends_check hP hs hr hw).mono fun t s' h hk => ⟨h.fills, h.typed, h.type, h.known hk⟩

/-- A check of several expressions, with something true of each. -/
structure FillsAll (P : Ty → Prop) (R : Ty → Prop) (es : List Expr) (s s' : State) : Prop where
  /-- Only slots of the expressions were filled. -/
  fills : Fills (Expr.idsOfAll es) s s'
  /-- The expressions are typed. -/
  typed : ∀ e ∈ es, ∃ t, e.TypedAs P s'.types s.symbols.names t ∧ R t

theorem FillsAll.nil (R : Ty → Prop) (s : State) : FillsAll P R [] s s :=
  ⟨.refl _ s, by simp⟩

theorem FillsAll.cons {R : Ty → Prop} {e : Expr} {es : List Expr} {t : Ty} (hf : Fills e.ids s s')
    (ht : e.TypedAs P s'.types s.symbols.names t) (hR : R t) (h : FillsAll P R es s' s'')
    (hd : ∀ i ∈ e.ids, i ∉ Expr.idsOfAll es) : FillsAll P R (e :: es) s s'' := by
  refine ⟨hf.trans h.fills, List.forall_mem_cons.mpr ⟨⟨t, ?_, hR⟩, fun e' he' => ?_⟩⟩
  · exact ht.mono (.refl _) (h.fills.agrees hd)
  · rw [← hf.symbols]
    exact h.typed e' he'

theorem ends_checkPrinted (hP : Ty.Stable P) {es : List Expr} {s : State} (hs : Good P s)
    (hr : Ready (Expr.idsOfAll es) s) (hw : Expr.AllValues es) :
    Ends (checkPrinted es) s fun _ => FillsAll P (fun t => t.isPrintable = true) es s := by
  induction es generalizing s with
  | nil => exact .nil _ s
  | cons e es ih =>
    obtain ⟨he, hes, hd⟩ := ready_append.mp hr
    simp only [checkPrinted, ends_bind, ends_require]
    refine (ends_checkKnown hP hs he hw.1.2).mono fun t s₁ h₁ hprint => ?_
    refine (ih (hs.fills h₁.1) (h₁.1.ready hes hd) hw.2).mono fun _ s₂ h₂ => ?_
    exact .cons h₁.1 h₁.2 hprint h₂ hd

theorem ends_checkEvaluated (hP : Ty.Stable P) {es : List Expr} {s : State} (hs : Good P s)
    (hr : Ready (Expr.idsOfAll es) s) (hw : Expr.AllValues es) :
    Ends (checkEvaluated es) s fun _ => FillsAll P (fun _ => True) es s := by
  induction es generalizing s with
  | nil => exact .nil _ s
  | cons e es ih =>
    obtain ⟨he, hes, hd⟩ := ready_append.mp hr
    simp only [checkEvaluated, ends_bind]
    refine (ends_checkKnown hP hs he hw.1.2).mono fun t s₁ h₁ => ?_
    refine (ih (hs.fills h₁.1) (h₁.1.ready hes hd) hw.2).mono fun _ s₂ h₂ => ?_
    exact .cons h₁.1 h₁.2 trivial h₂ hd

theorem ends_checkCondition (hP : Ty.Stable P) {e : Expr} (hs : Good P s) (hr : Ready e.ids s)
    (hw : e.WellPlaced) :
    Ends (checkCondition e) s fun _ s' =>
      Fills e.ids s s' ∧ e.TypedAs P s'.types s.symbols.names .int := by
  simp only [checkCondition, ends_bind, ends_require]
  refine (ends_checkKnown hP hs hr hw).mono fun t s' h hint => ?_
  rw [decide_eq_true_eq] at hint
  exact hint ▸ h

theorem ends_checkLoopCondition (hP : Ty.Stable P) {c : Option Expr} (hs : Good P s)
    (hr : Ready (Expr.idsOfOption c) s) (hw : Expr.IsOptionalValue c) :
    Ends (checkLoopCondition c) s fun _ s' => Fills (Expr.idsOfOption c) s s' ∧
      ∀ e ∈ c, ∃ t, e.TypedAs P s'.types s.symbols.names t ∧
        t.components.getLast? = some .int := by
  cases c with
  | none => exact ⟨.refl _ s, by simp⟩
  | some e =>
    simp only [checkLoopCondition, ends_bind, ends_require]
    refine (ends_checkKnown hP hs hr hw.2).mono fun t s' h hlast => ?_
    rw [decide_eq_true_eq] at hlast
    refine ⟨h.1, fun e' he' => ?_⟩
    cases he'
    exact ⟨t, h.2, hlast⟩

/-! ### Declarations in order -/

/-- A written type has a property where it is known. -/
def Written (P : Ty → Prop) (t : Ty) : Prop := t.containsAuto = false → P t

theorem ends_checkDeclarations (hP : Ty.Stable P) {ds : List VarDecl} {s : State} (hs : Good P s)
    (hr : Ready (VarDecl.idsOfAll ds) s) (hw : ∀ d ∈ ds, d.WellPlaced)
    (ht : ∀ t ∈ ds.map VarDecl.type, Written P t) :
    Ends (checkDeclarations ds) s fun _ s' =>
      Binds (VarDecl.idsOfAll ds) (VarDecl.bindingOfAll s'.types ds) s s' ∧ Good P s' ∧
        VarDecl.AllTyped P s'.types s.symbols.names ds := by
  induction ds generalizing s with
  | nil => exact ⟨.of_fills (.refl _ s), hs, trivial⟩
  | cons d ds ih =>
    obtain ⟨hd, hds, hdis⟩ := ready_append.mp hr
    rw [List.map_cons, List.forall_mem_cons] at ht
    rw [List.forall_mem_cons] at hw
    simp only [checkDeclarations, ends_bind]
    refine (VarDecl.ends_check hP hs hd hw.1 ht.1).mono fun _ s₁ h₁ => ?_
    obtain ⟨hbinds₁, hgood₁, htyped₁, -⟩ := h₁
    refine (ih hgood₁ (hbinds₁.moves.ready hds hdis) hw.2 ht.2).mono fun _ s₂ h₂ => ?_
    obtain ⟨hbinds₂, hgood₂, htyped₂⟩ := h₂
    have hag := hbinds₂.moves.agrees hdis
    have hbinding := htyped₁.binding_eq hag
    rw [← hbinding] at hbinds₁
    refine ⟨hbinds₁.trans hbinds₂, hgood₂, htyped₁.mono (.refl _) hag, ?_⟩
    rw [← hbinds₁.names]
    exact htyped₂

theorem ends_checkLoopInits (hP : Ty.Stable P) {is : List LoopInit} {s : State} (hs : Good P s)
    (hr : Ready (LoopInit.idsOfAll is) s) (hw : ∀ i ∈ is, i.WellPlaced)
    (ht : ∀ t ∈ is.flatMap LoopInit.writtenTypes, Written P t) :
    Ends (checkLoopInits is) s fun _ s' =>
      Binds (LoopInit.idsOfAll is) (LoopInit.bindingOfAll s'.types is) s s' ∧ Good P s' ∧
        LoopInit.AllTyped P s'.types s.symbols.names is := by
  induction is generalizing s with
  | nil => exact ⟨.of_fills (.refl _ s), hs, trivial⟩
  | cons i is ih =>
    obtain ⟨hi, his, hdis⟩ := ready_append.mp hr
    rw [List.flatMap_cons, List.forall_mem_append] at ht
    rw [List.forall_mem_cons] at hw
    -- What is left to do is the same behind a declaration and behind an expression.
    have hrest : ∀ s₁, Binds i.ids (i.binding s₁.types) s s₁ → Good P s₁ →
        i.Typed P s₁.types s.symbols.names →
        Ends (checkLoopInits is) s₁ fun _ s' =>
          Binds (LoopInit.idsOfAll (i :: is)) (LoopInit.bindingOfAll s'.types (i :: is)) s s' ∧
            Good P s' ∧ LoopInit.AllTyped P s'.types s.symbols.names (i :: is) := by
      intro s₁ hbinds₁ hgood₁ htyped₁
      refine (ih hgood₁ (hbinds₁.moves.ready his hdis) hw.2 ht.2).mono fun _ s₂ h₂ => ?_
      obtain ⟨hbinds₂, hgood₂, htyped₂⟩ := h₂
      obtain ⟨htyped, hbinding⟩ :=
        LoopInit.Typed.mono (.refl _) (hbinds₂.moves.agrees hdis) htyped₁
      rw [← hbinding] at hbinds₁
      refine ⟨hbinds₁.trans hbinds₂, hgood₂, htyped, ?_⟩
      rw [← hbinds₁.names]
      exact htyped₂
    cases i with
    | declare d =>
      simp only [checkLoopInits, ends_bind]
      refine (VarDecl.ends_check hP hs hi hw.1 (ht.1 d.type List.mem_cons_self)).mono
        fun _ s₁ h₁ => ?_
      exact hrest s₁ h₁.1 h₁.2.1 h₁.2.2.1
    | evaluate e =>
      simp only [checkLoopInits, ends_bind]
      refine (ends_checkKnown hP hs hi hw.1.2).mono fun t s₁ h₁ => ?_
      exact hrest s₁ (.of_fills h₁.1) (hs.fills h₁.1) ⟨t, h₁.2⟩

/-! ### Statements -/

/-- **What a check of a statement makes sure of**: it is typed, whatever the type of the result may
still become. -/
structure Proceeds (P : Ty → Prop) (st : Stmt) (s s' : State) : Prop where
  /-- All scopes are what they were, and of the slots only those of the statement were filled. -/
  moves : Moves (SymbolTable.Outer Symbol.Refines) st.ids s s'
  /-- The symbols are still settled. -/
  good : Good P s'
  /-- The statement is typed. -/
  typed : ∀ R, s'.resultType.Later R → st.Typed P s'.types R s.symbols.names

/-- A checked statement stays typed while others are checked. -/
theorem Proceeds.keep {st : Stmt} {ids : List NodeId} {s s₁ s₂ : State} (h : Proceeds P st s s₁)
    (hm : Moves (SymbolTable.Keeps Symbol.Refines) ids s₁ s₂) (hd : ∀ i ∈ st.ids, i ∉ ids) {R : Ty}
    (hR : s₂.resultType.Later R) : st.Typed P s₂.types R s.symbols.names :=
  (h.typed R ((later_resultType hm).trans hR)).mono (fun _ h => h) (.refl _) (hm.agrees hd)

/-- A return fits the type of the result, and every type that this may still become. -/
theorem fits_of_later {a b t : Ty} (h : a.Later b) (ha : a ≠ .auto) (ht : a.Fits t) : b.Fits t := by
  rcases h with rfl | rfl | h
  · exact absurd rfl ha
  · exact ht
  · exact h.trans ht

theorem ends_checkReturned (hP : Ty.Stable P) (site : Site) {id : SymbolId}
    {sym : Symbol} {v : Expr} (hs : Good P s) (hid : s.function = some id)
    (hsym : s.symbols.get? id = some sym) (hr : Ready v.ids s) (hw : v.WellPlaced) :
    Ends (checkReturned id sym v) s fun _ s' =>
      Moves (SymbolTable.Outer Symbol.Refines) v.ids s s' ∧ Good P s' ∧
        ∀ R, s'.resultType.Later R →
        Stmt.Typed P s'.types R s.symbols.names (.return site (some v)) := by
  have hsettled := hs.settled id sym hsym
  have hfunction : sym.isFunction = true := by
    obtain ⟨sym', hsym', hf⟩ := hs.function id hid
    cases hsym.symm.trans hsym'
    exact hf
  simp only [checkReturned, ends_bind, ends_require]
  refine Ends.destined hP hr (hsettled.type.elim (fun h => .inr h.1) .inl)
    (Expr.ends_check hP hs hr hw) fun t s₁ h => ?_
  intro hvalue
  rw [decide_eq_true_eq, Bool.not_eq_true'] at hvalue
  have hpt : P t := h.settled.resolve_right fun heq => by
    simp [heq, Ty.containsAuto] at hvalue
  have hkt := Ty.leavesKnown_of_containsAuto hvalue.2
  have hsym₁ : s₁.symbols.get? id = some sym := by rw [h.fills.symbols]; exact hsym
  have htyped : ∀ {R : Ty} {s₂ : State}, s₂.types = s₁.types → R.Fits t →
      Stmt.Typed P s₂.types R s.symbols.names (.return site (some v)) := by
    intro R s₂ heq hfits e he
    cases he
    rw [heq]
    exact ⟨t, ⟨h.typed, h.type, hpt⟩, hvalue.1, hfits⟩
  rw [ends_ite]
  refine ⟨fun hauto => ?_, fun hauto => ?_⟩
  · split
    · rename_i u hu
      rw [ends_modifySymbol]
      obtain ⟨hpu, hlater, hfits⟩ : P u ∧ sym.type.Later u ∧ u.Fits t := by
        rcases hsettled.type with ⟨hopen, -⟩ | hp
        · rw [hopen] at hu ⊢
          obtain rfl := Ty.eq_of_auto_compatible hu
          exact ⟨hP.stripped hpt, .inl rfl, (Ty.fits_stripped_left _ _).mp (Ty.fits_refl hkt)⟩
        · have hj := Ty.joins_of_compatible hu (Ty.leavesKnown_of_containsAuto (hP.known hp)) hkt
          exact ⟨(hP.unify hu hp hpt).1, .inr (.inr hj.left), hj.right⟩
      have hr : sym.Refines { sym with type := u } :=
        ⟨rfl, rfl, rfl, rfl, .inr ⟨hfunction, hauto, hlater⟩⟩
      have hmeaning := hr.meaning_eq ▸ hsettled.meaning
      obtain ⟨hmoves, hgood⟩ := (hs.fills h.fills).modifySymbol hsym₁
        (f := fun s => { s with type := u }) ⟨hmeaning, .inr hpu, hsettled.offset⟩ hr
      refine ⟨?_, hgood, fun R hR => htyped rfl ?_⟩
      · exact (h.fills.outer.trans hmoves).mono (by simp)
      · have hsym₂ : (s₁.modifySymbol id fun s => { s with type := u }).symbols.get? id =
            some { sym with type := u } := by
          rw [State.modifySymbol, SymbolTable.get?_modify, if_pos rfl, hsym₁, Option.map_some]
        rw [resultType_eq (hmoves.function.trans (h.fills.function.trans hid)) hsym₂] at hR
        refine fits_of_later hR ?_ hfits
        rintro rfl
        have hk := hP.known hpu
        simp [Ty.containsAuto] at hk
    · exact ends_fault
  · rw [ends_require]
    intro hcompatible
    obtain ⟨u, hu⟩ := Option.isSome_iff_exists.mp hcompatible
    have hp : P sym.type := hsettled.type.resolve_left fun ha => hauto ha.2
    have hfits :=
      (Ty.joins_of_compatible hu (Ty.leavesKnown_of_containsAuto (hP.known hp)) hkt).narrow rfl
    refine ⟨h.fills.outer, hs.fills h.fills, fun R hR => htyped rfl ?_⟩
    rw [resultType_eq (h.fills.function.trans hid) hsym₁] at hR
    refine fits_of_later hR ?_ hfits
    intro ha
    have hk := hP.known hp
    simp [ha, Ty.containsAuto] at hk

theorem ends_checkReturn (hP : Ty.Stable P) {site : Site} {v : Option Expr} (hs : Good P s)
    (hr : Ready (Stmt.return site v).ids s) (hw : Expr.IsOptionalValue v) :
    Ends (checkReturn site v) s fun _ => Proceeds P (.return site v) s := by
  simp only [checkReturn, ends_bind, ends_get]
  split
  · exact ends_fault
  · rename_i id sym hfind
    obtain ⟨i, hid, hsym⟩ := Option.bind_eq_some_iff.mp hfind
    obtain ⟨sym', hsym', heq⟩ := Option.map_eq_some_iff.mp hsym
    cases heq
    cases v with
    | none =>
      rw [ends_require]
      exact fun _ => ⟨Moves.outer (.refl _ s), hs, fun R _ e he => by cases he⟩
    | some v =>
      simp only [ends_bind, ends_require]
      intro _
      refine (ends_checkReturned hP site hs hid hsym' (ready_cons.mp hr).2.2 hw.2).mono
        fun _ s' h => ⟨?_, h.2.1, h.2.2⟩
      exact h.1.mono fun i hi => List.mem_cons_of_mem _ hi

end Typing

namespace Stmt

variable {P : Ty → Prop}

variable {site : Site}

/-- **A statement checks**: its check ends, and the statement is typed. -/
def Checks (P : Ty → Prop) (st : Stmt) : Prop :=
  ∀ ⦃s : State⦄, Good P s → Ready st.ids s → st.WellPlaced →
    (∀ t ∈ st.writtenTypes, Written P t) → Ends st.check s fun _ => Proceeds P st s

/-- As `Checks`, for several statements. -/
def AllCheck (P : Ty → Prop) (ss : List Stmt) : Prop :=
  ∀ ⦃s : State⦄, Good P s → Ready (idsOfAll ss) s → AllWellPlaced ss →
    (∀ t ∈ writtenTypesOfAll ss, Written P t) → Ends (checkAll ss) s fun _ s' =>
      Moves (SymbolTable.Outer Symbol.Refines) (idsOfAll ss) s s' ∧ Good P s' ∧
        ∀ R, s'.resultType.Later R → AllTyped P s'.types R s.symbols.names ss

theorem checks_block (hP : Ty.Stable P) {ds : List VarDecl} {body : List Stmt}
    (hchecks : AllCheck P body) : (block site ds body).Checks P := by
  intro s hs hr hw ht
  obtain ⟨_, _, hr⟩ := ready_cons.mp hr
  obtain ⟨hds, hbody, hdis⟩ := ready_append.mp hr
  replace ht := List.forall_mem_append.mp ht
  refine ends_inScope.mpr (ends_bind.mpr ?_)
  refine (ends_checkDeclarations hP hs.enter hds hw.1 ht.1).mono fun _ s₁ h₁ => ?_
  obtain ⟨hbinds, hgood₁, htyped⟩ := h₁
  refine (hchecks hgood₁ (hbinds.moves.ready hbody hdis) hw.2 ht.2).mono
    fun _ s₂ h₂ => ?_
  have hinner := hbinds.body h₂.1
  refine ⟨hinner.exit.mono fun i hi => List.mem_cons_of_mem _ hi, hs.exit h₂.2.1 hinner,
    fun R hR => ?_⟩
  have hag := h₂.1.agrees hdis
  rw [names_enter] at htyped
  obtain ⟨htyped, hbinding⟩ := htyped.mono (.refl _) hag
  have htypedBody := h₂.2.2 R hR
  rw [hbinds.names, names_enter, ← hbinding] at htypedBody
  exact ⟨htyped, htypedBody⟩

theorem checks_evaluation (hP : Ty.Stable P) (e : Expr) : (evaluation site e).Checks P := by
  intro s hs hr hw _
  simp only [check, ends_bind, ends_pure]
  refine (ends_checkKnown hP hs (ready_cons.mp hr).2.2 hw.2).mono fun t s₁ h => ?_
  exact ⟨(Moves.outer h.1).mono fun i hi => List.mem_cons_of_mem _ hi, hs.fills h.1,
    fun _ _ => ⟨t, h.2⟩⟩

theorem checks_write (hP : Ty.Stable P) (args : List Expr) (newline : Bool) :
    (write site args newline).Checks P := by
  intro s hs hr hw _
  refine (ends_checkPrinted hP hs (ready_cons.mp hr).2.2 hw).mono fun _ s₁ h => ?_
  exact ⟨(Moves.outer h.fills).mono fun i hi => List.mem_cons_of_mem _ hi, hs.fills h.fills,
    fun _ _ => h.typed⟩

theorem checks_ifThen (hP : Ty.Stable P) {c : Expr} {t : Stmt} (hchecks : t.Checks P) :
    (ifThen site c t).Checks P := by
  intro s hs hr hw ht
  obtain ⟨hc, hthen, hdis⟩ := ready_append.mp (ready_cons.mp hr).2.2
  refine ends_bind.mpr ?_
  refine (ends_checkCondition hP hs hc hw.1.2).mono fun _ s₁ h₁ => ?_
  refine (hchecks (hs.fills h₁.1) (h₁.1.ready hthen hdis) hw.2 ht).mono fun _ s₂ h₂ => ?_
  have hmoves := Moves.trans (Moves.outer h₁.1) h₂.moves
  refine ⟨hmoves.mono fun i hi => List.mem_cons_of_mem _ hi, h₂.good, fun R hR => ⟨?_, ?_⟩⟩
  · exact h₁.2.mono (.refl _) (h₂.moves.agrees hdis)
  · rw [← h₁.1.symbols]
    exact h₂.typed R hR

theorem checks_ifElse (hP : Ty.Stable P) {c : Expr} {t e : Stmt} (hfirst : t.Checks P)
    (hsecond : e.Checks P) : (ifElse site c t e).Checks P := by
  intro s hs hr hw ht
  obtain ⟨hc, hte, hdis⟩ := ready_append.mp (ready_cons.mp hr).2.2
  obtain ⟨hthen, helse, hdis'⟩ := ready_append.mp hte
  replace ht := List.forall_mem_append.mp ht
  refine ends_bind.mpr ?_
  refine (ends_checkCondition hP hs hc hw.1.2).mono fun _ s₁ h₁ => ?_
  have hte₁ := h₁.1.ready hte hdis
  obtain ⟨hthen₁, helse₁, -⟩ := ready_append.mp hte₁
  refine ends_bind.mpr ?_
  refine (hfirst (hs.fills h₁.1) hthen₁ hw.2.1 ht.1).mono fun _ s₂ h₂ => ?_
  refine (hsecond h₂.good (h₂.moves.ready helse₁ hdis') hw.2.2 ht.2).mono fun _ s₃ h₃ => ?_
  have hmoves₂ := Moves.trans h₂.moves h₃.moves
  have hmoves := Moves.trans (Moves.outer h₁.1) hmoves₂
  refine ⟨hmoves.mono fun i hi => List.mem_cons_of_mem _ hi, h₃.good, fun R hR => ⟨?_, ?_, ?_⟩⟩
  · exact h₁.2.mono (.refl _) (hmoves₂.agrees hdis)
  · rw [← h₁.1.symbols]
    exact h₂.keep (Moves.keeps h₃.moves) hdis' hR
  · have htyped := h₃.typed R hR
    rw [names_eq (hs.fills h₁.1) h₂.moves, h₁.1.symbols] at htyped
    exact htyped

theorem checks_forLoop (hP : Ty.Stable P) {inits : List LoopInit} {c : Option Expr}
    {incs : List Expr} {body : Stmt} (hchecks : body.Checks P) :
    (forLoop site inits c incs body).Checks P := by
  intro s hs hr hw ht
  obtain ⟨hinits, hrest, hdis⟩ := ready_append.mp (ready_cons.mp hr).2.2
  obtain ⟨hc, hrest', hdis'⟩ := ready_append.mp hrest
  obtain ⟨hincs, hbody, hdis''⟩ := ready_append.mp hrest'
  replace ht := List.forall_mem_append.mp ht
  refine ends_inScope.mpr (ends_bind.mpr ?_)
  refine (ends_checkLoopInits hP hs.enter hinits hw.1 ht.1).mono fun _ s₁ h₁ => ?_
  obtain ⟨hbinds, hgood₁, htyped⟩ := h₁
  have hrest₁ := hbinds.moves.ready hrest hdis
  obtain ⟨hc₁, hrest₁', -⟩ := ready_append.mp hrest₁
  refine ends_bind.mpr ?_
  refine (ends_checkLoopCondition hP hgood₁ hc₁ hw.2.1).mono fun _ s₂ h₂ => ?_
  obtain ⟨hfills₂, hcond⟩ := h₂
  obtain ⟨hincs₂, hbody₂, -⟩ := ready_append.mp (hfills₂.ready hrest₁' hdis')
  have hgood₂ := hgood₁.fills hfills₂
  refine ends_bind.mpr ?_
  refine (ends_checkEvaluated hP hgood₂ hincs₂ hw.2.2.1).mono fun _ s₃ h₃ => ?_
  have hgood₃ := hgood₂.fills h₃.fills
  refine (hchecks hgood₃ (h₃.fills.ready hbody₂ hdis'') hw.2.2.2 ht.2).mono
    fun _ s₄ h₄ => ?_
  have hmoves₃ := Moves.trans (Moves.outer h₃.fills) h₄.moves
  have hmoves₂ := Moves.trans (Moves.outer hfills₂) hmoves₃
  have hinner := hbinds.body hmoves₂
  refine ⟨hinner.exit.mono fun i hi => List.mem_cons_of_mem _ hi, hs.exit h₄.good hinner,
    fun R hR => ?_⟩
  rw [names_enter] at htyped
  obtain ⟨htyped', hbinding⟩ := htyped.mono (.refl _) (hmoves₂.agrees hdis)
  have hnames₁ : s₁.symbols.names =
      View.bindAll s.symbols.names (LoopInit.bindingOfAll s₄.types inits) := by
    rw [hbinding, hbinds.names, names_enter]
  change Stmt.Typed P s₄.types R s.symbols.names (.forLoop site inits c incs body)
  unfold Stmt.Typed
  rw [← hnames₁]
  refine ⟨htyped', fun e he => ?_, fun e he => ?_, ?_⟩
  · obtain ⟨t, hte, hlast⟩ := hcond e he
    refine ⟨t, hte.mono (.refl _) ((hmoves₃.agrees hdis').mono fun i hi => ?_), hlast⟩
    rw [Option.mem_def.mp he]
    exact hi
  · obtain ⟨t, hte, -⟩ := h₃.typed e he
    rw [hfills₂.symbols] at hte
    exact ⟨t, hte.mono (.refl _) (Expr.agrees_of_mem (h₄.moves.agrees hdis'') he)⟩
  · have hbody' := h₄.typed R hR
    rw [h₃.fills.symbols, hfills₂.symbols] at hbody'
    exact hbody'

/-- A statement that checks is checked in front of others. -/
theorem allCheck_cons {st : Stmt} {ss : List Stmt} (hfirst : st.Checks P)
    (hrest : AllCheck P ss) : AllCheck P (st :: ss) := by
  intro s hs hr hw ht
  obtain ⟨hst, hss, hdis⟩ := ready_append.mp hr
  rw [writtenTypesOfAll, List.forall_mem_append] at ht
  simp only [checkAll, ends_bind]
  refine (hfirst hs hst hw.1 ht.1).mono fun _ s₁ h₁ => ?_
  refine (hrest h₁.good (h₁.moves.ready hss hdis) hw.2 ht.2).mono fun _ s₂ h₂ => ?_
  refine ⟨Moves.trans h₁.moves h₂.1, h₂.2.1, fun R hR => ⟨h₁.keep (Moves.keeps h₂.1) hdis hR, ?_⟩⟩
  rw [← names_eq hs h₁.moves]
  exact h₂.2.2 R hR

mutual

theorem checks (hP : Ty.Stable P) : ∀ st : Stmt, st.Checks P
  | .block _ _ body => checks_block hP (allCheck hP body)
  | .evaluation _ e => checks_evaluation hP e
  | .write _ args newline => checks_write hP args newline
  | .ifThen _ _ t => checks_ifThen hP (checks hP t)
  | .ifElse _ _ t e => checks_ifElse hP (checks hP t) (checks hP e)
  | .forLoop _ _ _ _ body => checks_forLoop hP (checks hP body)
  | .break _ | .continue _ => fun s hs _ _ _ => ⟨Moves.outer (.refl _ s), hs, fun _ _ => trivial⟩
  | .return _ _ => fun _ hs hr hw _ => ends_checkReturn hP hs hr hw

theorem allCheck (hP : Ty.Stable P) : ∀ ss : List Stmt, AllCheck P ss
  | [] => fun s hs _ _ _ => ⟨Moves.outer (.refl _ s), hs, fun _ _ => trivial⟩
  | st :: ss => allCheck_cons (checks hP st) (allCheck hP ss)

end

/-- **The check of a statement ends, and the statement is typed.** -/
theorem ends_check (hP : Ty.Stable P) {st : Stmt} {s : State} (hs : Good P s)
    (hr : Ready st.ids s) (hw : st.WellPlaced) (ht : ∀ t ∈ st.writtenTypes, Written P t) :
    Ends st.check s fun _ => Proceeds P st s :=
  checks hP st hs hr hw ht

/-- As `ends_check`, for several statements. -/
theorem ends_checkAll (hP : Ty.Stable P) {ss : List Stmt} {s : State} (hs : Good P s)
    (hr : Ready (idsOfAll ss) s) (hw : AllWellPlaced ss)
    (ht : ∀ t ∈ writtenTypesOfAll ss, Written P t) :
    Ends (checkAll ss) s fun _ s' =>
      Moves (SymbolTable.Outer Symbol.Refines) (idsOfAll ss) s s' ∧ Good P s' ∧
        ∀ R, s'.resultType.Later R → AllTyped P s'.types R s.symbols.names ss :=
  allCheck hP ss hs hr hw ht

end Stmt

end PostfixCompiler
