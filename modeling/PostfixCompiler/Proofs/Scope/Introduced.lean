import PostfixCompiler.Proofs.Scope.CheckedUnit
import PostfixCompiler.Proofs.Ty.Targets

/-!
# Variables of a written type

A variable that is declared with a type has that type for good. The type is recorded for the
declaration, the symbol that the name is bound to right behind it has it, and so has the symbol in
the table that the check of the whole unit leaves. With an initializer the written type is the one
that it unifies to, and this is the written type up to one-component tuples, except for pointers to
`void`: they take their target from the initializer.

The check is followed moment by moment, as for the scenes of expressions, and each declaration that
it comes to is listed with the table right behind it.

## Main definitions

* `PostfixCompiler.Introduction`: a declaration with the table right behind it.
* `PostfixCompiler.SyntaxTree.introduced`: the declarations that a check comes to.
* `PostfixCompiler.VarDecl.Takes`: the type that a declaration gets for its written one.

## Main statements

* `PostfixCompiler.SyntaxTree.variables_take_written_type`: variables get their written type, with
  the targets of the initializer.
* `PostfixCompiler.SyntaxTree.written_pointer_target_replaced`: a pointer to `void` does not stay
  one.
-/

namespace PostfixCompiler

open Typing

/-! ### The declarations that a check comes to -/

/-- **A declaration of variables that a check comes to**, with the symbols right behind it. -/
structure Introduction where
  /-- The declaration. -/
  decl : VarDecl
  /-- The table right behind it. -/
  table : SymbolTable

namespace VarDecl

/-- The declaration of variables, with the symbols right behind it. -/
def introduced (m : Moment State) (d : VarDecl) : Introduction :=
  ⟨d, (m.behind d.id d.check).symbols⟩

/-- Declarations of variables, each with the symbols right behind it. -/
def introducedOfAll (m : Moment State) : List VarDecl → List Introduction
  | [] => []
  | d :: ds => d.introduced m :: introducedOfAll (m.behind d.id d.check) ds

/-- Declarations of arguments in the body of their function, each with the symbols right behind
it. -/
def argumentsIntroduced (m : Moment State) : List VarDecl → List Introduction
  | [] => []
  | d :: ds =>
    let behind := m.behind d.id d.checkAsArgument
    ⟨d, behind.symbols⟩ :: argumentsIntroduced behind ds

end VarDecl

namespace LoopInit

/-- The declaration in a step that a loop takes before its first round. -/
def introduced (m : Moment State) : LoopInit → List Introduction
  | .declare d => [d.introduced m]
  | .evaluate _ => []

/-- The declarations in these steps. -/
def introducedOfAll (m : Moment State) : List LoopInit → List Introduction
  | [] => []
  | i :: is => i.introduced m ++ introducedOfAll (i.afterCheck m) is

end LoopInit

namespace Stmt

mutual

/-- **The declarations that the check of a statement comes to**, each with the symbols right behind
it. -/
def introduced (m : Moment State) : Stmt → List Introduction
  | .block _ ds body =>
    let inside := m.change State.enter
    VarDecl.introducedOfAll inside ds ++ introducedOfAll (VarDecl.afterCheck inside ds) body
  | .ifThen _ c t => t.introduced (m.behind c.id (checkCondition c))
  | .ifElse _ c t e =>
    let decided := m.behind c.id (checkCondition c)
    t.introduced decided ++ e.introduced (decided.behind t.id t.check)
  | .forLoop site inits c incs body =>
    let inside := m.change State.enter
    let round := (inits.foldl LoopInit.afterCheck inside).behind site.id do
      checkLoopCondition c
      checkEvaluated incs
    LoopInit.introducedOfAll inside inits ++ body.introduced round
  | .evaluation .. | .write .. | .break _ | .continue _ | .return .. => []

/-- The declarations that the check of statements comes to. -/
def introducedOfAll (m : Moment State) : List Stmt → List Introduction
  | [] => []
  | s :: ss => s.introduced m ++ introducedOfAll (m.behind s.id s.check) ss

end

end Stmt

/-- The declarations that the check of a function comes to, those of the arguments first. -/
def Function.introduced (m : Moment State) (f : Function) : List Introduction :=
  let inside := m.behind f.signature.id f.checkHead
  VarDecl.argumentsIntroduced inside f.signature.arguments ++
    f.body.stmt.introduced (VarDecl.afterArguments inside f.signature.arguments)

namespace Decl

/-- The declarations of variables that the check of a declaration of the unit comes to. -/
def introduced (m : Moment State) : Decl → List Introduction
  | .variable d => [d.introduced m]
  | .declare _ => []
  | .define f => f.introduced m

/-- The declarations of variables that the check of declarations of the unit comes to. -/
def introducedOfAll (m : Moment State) : List Decl → List Introduction
  | [] => []
  | d :: ds => d.introduced m ++ introducedOfAll (m.behind d.id d.check) ds

/-- The declarations of variables in a declaration of the unit. An argument is a variable in the
body of its function, so a function without body has none. -/
def introduces : Decl → List VarDecl
  | .variable d => [d]
  | .declare _ => []
  | .define f => f.signature.arguments ++ f.body.stmt.locals

end Decl

namespace SyntaxTree

/-- **The declarations of variables that the check of a tree comes to**, each with the symbols right
behind it. -/
def introduced (t : SyntaxTree) : List Introduction := Decl.introducedOfAll t.start t.declarations

/-- **The declarations of variables in a tree**: of variables of the unit, of arguments and of local
variables. -/
def introduces (t : SyntaxTree) : List VarDecl := t.declarations.flatMap Decl.introduces

end SyntaxTree

/-! ### No declaration is left out -/

theorem VarDecl.map_introducedOfAll (m : Moment State) (ds : List VarDecl) :
    (introducedOfAll m ds).map Introduction.decl = ds := by
  induction ds generalizing m with
  | nil => rfl
  | cons d ds ih => exact congrArg (d :: ·) (ih _)

theorem VarDecl.map_argumentsIntroduced (m : Moment State) (ds : List VarDecl) :
    (argumentsIntroduced m ds).map Introduction.decl = ds := by
  induction ds generalizing m with
  | nil => rfl
  | cons d ds ih => exact congrArg (d :: ·) (ih _)

theorem LoopInit.map_introducedOfAll (m : Moment State) (is : List LoopInit) :
    (introducedOfAll m is).map Introduction.decl = is.flatMap locals := by
  induction is generalizing m with
  | nil => rfl
  | cons i is ih =>
    rw [introducedOfAll, List.map_append, ih, List.flatMap_cons]
    cases i <;> rfl

namespace Stmt

mutual

/-- The check of a statement comes to all declarations in it. -/
theorem map_introduced :
    ∀ (s : Stmt) (m : Moment State), (s.introduced m).map Introduction.decl = s.locals
  | .block _ ds body, m => by
    rw [introduced, List.map_append, VarDecl.map_introducedOfAll, map_introducedOfAll body, locals]
  | .ifThen _ _ t, m => map_introduced t _
  | .ifElse _ _ t e, m => by
      rw [introduced, List.map_append, map_introduced t, map_introduced e, locals]
  | .forLoop _ inits _ _ body, m => by
    rw [introduced, List.map_append, LoopInit.map_introducedOfAll, map_introduced body, locals]
  | .evaluation .., _ | .write .., _ | .break _, _ | .continue _, _ | .return .., _ => rfl

/-- As `map_introduced`, for several statements. -/
theorem map_introducedOfAll : ∀ (ss : List Stmt) (m : Moment State),
    (introducedOfAll m ss).map Introduction.decl = localsOfAll ss
  | [], _ => rfl
  | s :: ss, m => by
      rw [introducedOfAll, List.map_append, map_introduced s, map_introducedOfAll ss, localsOfAll]

end

end Stmt

theorem Decl.map_introduced (m : Moment State) (d : Decl) :
    (d.introduced m).map Introduction.decl = d.introduces := by
  cases d with
  | «variable» d => rfl
  | declare s => rfl
  | define f =>
    rw [introduced, Function.introduced, List.map_append, VarDecl.map_argumentsIntroduced,
      Stmt.map_introduced, introduces]

theorem Decl.map_introducedOfAll (m : Moment State) (ds : List Decl) :
    (introducedOfAll m ds).map Introduction.decl = ds.flatMap introduces := by
  induction ds generalizing m with
  | nil => rfl
  | cons d ds ih => rw [introducedOfAll, List.map_append, map_introduced, ih, List.flatMap_cons]

/-! ### The type of a declaration -/

/-- **The type that a declaration gets for its written one**: the written type itself without an
initializer, and else, up to one-component tuples, the written type with the targets of the
initializer. -/
def VarDecl.Takes (T : TypeTable) (d : VarDecl) (t : Ty) : Prop :=
  match d.initializer with
  | none => t = d.type
  | some e => ∃ u, T.get? e.id = some u ∧ t.flatten = d.type.flatten.targeted u.flatten

/-- **The variable of a declaration with a written type has the type that is recorded for the
declaration**, right behind it and in a later table. -/
def Introduction.Settled (T : TypeTable) (σ : SymbolTable) (i : Introduction) : Prop :=
  ∀ x, i.decl.names = [x] → i.decl.type ≠ .auto →
    ∃ t id s s', T.get? i.decl.id = some t ∧ i.decl.Takes T t ∧
    i.table.resolve? x = some (id, s) ∧ s.parameters? = none ∧ s.type = t ∧
    σ.get? id = some s' ∧ s'.parameters? = none ∧ s'.type = t

namespace VarDecl

variable {s : State} {m : Moment State} {d : VarDecl}

/-- A variable that was defined is found under its name, also when more is known about symbols. -/
theorem settled_of_define {T : TypeTable} {table σ : SymbolTable} {sym : Symbol} {t : Ty}
    (ht : T.get? d.id = some t) (htakes : d.type ≠ .auto → d.Takes T t)
    (hsym : sym.parameters? = none) (htype : sym.type = t) (hname : d.names = [sym.name])
    (hkeeps : SymbolTable.Keeps Symbol.Refines (table.define sym).2 σ) :
    (Introduction.mk d (table.define sym).2).Settled T σ := by
  intro x hx hauto
  obtain rfl : sym.name = x := (List.cons.inj (hname.symm.trans hx)).1
  have hget : (table.define sym).2.get? ⟨table.symbols.size⟩ = some sym :=
    SymbolTable.get?_define_self table sym
  obtain ⟨sym', hget', href⟩ := hkeeps _ _ hget
  have hvariable : sym.isFunction = false := by rw [Symbol.isFunction, hsym]; rfl
  refine ⟨t, _, sym, sym', ht, htakes hauto, SymbolTable.resolve_of_get ?_ hget, hsym, htype, hget',
    href.parameters.trans hsym, ?_⟩
  · rw [SymbolTable.lookup?_define, if_pos rfl]
  · have hkept : sym'.type = sym.type := href.type.resolve_right fun h => by simp [hvariable] at h
    exact hkept.trans htype

/-- The declaration of one variable with a written type unifies it with the type of the
initializer. -/
theorem ends_declaredType_takes (hs : Good Ty.Known s)
    (hr : Ready (Expr.idsOfOption d.initializer) s) (hw : d.WellPlaced) {isGlobal : Bool}
    (hknown : d.type = .auto ∨ d.type.containsAuto = false) (hone : d.names.length = 1) :
    Ends (d.declaredType isGlobal) s fun t s' => t.containsAuto = false → d.type ≠ .auto →
    d.Takes s'.types t := by
  unfold declaredType Takes
  have hw' := hw.2
  cases hinit : d.initializer with
  | none => exact fun _ _ => rfl
  | some e =>
    rw [hinit] at hr hw'
    simp only [ends_bind, ends_require]
    intro _
    refine Ends.destined Ty.stable_known hr hknown.symm
      (Expr.ends_check Ty.stable_known hs hr hw'.2) fun u s₁ h => ?_
    unfold unify
    rw [if_pos hone]
    split
    · rename_i t hcompatible
      intro ht hauto
      exact ⟨u, h.type,
        Ty.flatten_of_compatible .initializer (hknown.resolve_left hauto) hcompatible ht⟩
    · exact ends_fault

/-- The check of a declaration records the type that it gets. -/
theorem ends_takes (hs : Good Ty.Known s) (hr : Ready d.ids s) (hw : d.WellPlaced)
    (hone : d.names.length = 1) :
    Ends d.check s fun _ s' => ∃ t, s'.types.get? d.id = some t ∧
    (d.type ≠ .auto → d.Takes s'.types t) := by
  obtain ⟨hid, -, hinit⟩ := ready_cons.mp hr
  simp only [check, ends_bind, ends_get]
  refine ends_checkForm hw fun hknown _ => ?_
  refine (ends_declaredType_takes hs hinit hw hknown hone).mono fun t s₁ h => ?_
  simp only [ends_require]
  intro ht _
  refine (d.ends_declareEach_defines _).mono ?_
  rintro _ s₂ rfl
  rw [ends_setType]
  refine ⟨t, State.get?_record_self _ d.id t, fun hauto => ?_⟩
  have htakes : d.Takes s₁.types t := h (by simpa using ht) hauto
  revert htakes
  unfold Takes
  cases he : d.initializer with
  | none => exact fun h => h
  | some e =>
    rintro ⟨u, hu, htu⟩
    refine ⟨u, ?_, htu⟩
    have hother : d.id ∉ e.ids := by
      rw [he] at hid
      exact hid
    exact State.agrees_record _ hother t e.id e.id_mem_ids u hu

/-- A written type in which no pointer refers to `void` is what the declaration gets, up to
one-component tuples. -/
theorem Takes.flatten_eq {T : TypeTable} {t : Ty} (h : d.Takes T t)
    (hvoid : d.type.flatten.refersToVoid = false) :
    t.flatten = d.type.flatten := by
  unfold Takes at h
  cases he : d.initializer with
  | none =>
    rw [he] at h
    exact congrArg Ty.flatten h
  | some e =>
    rw [he] at h
    obtain ⟨u, -, htu⟩ := h
    exact htu.trans (Ty.targeted_eq_self hvoid)

theorem Takes.mono {T U : TypeTable} {t : Ty} (hT : T.Agrees U d.ids) (h : d.Takes T t) :
    d.Takes U t := by
  unfold Takes at h ⊢
  cases he : d.initializer with
  | none =>
    rw [he] at h
    exact h
  | some e =>
    rw [he] at h
    obtain ⟨u, hu, htu⟩ := h
    refine ⟨u, hT e.id ?_ u hu, htu⟩
    rw [ids, he]
    exact List.mem_cons_of_mem _ e.id_mem_ids

/-- **The variable of a declaration gets the type that is recorded.** -/
theorem ends_introduced (hs : Good Ty.Known m.state) (hr : Ready d.ids m.state)
    (hw : d.WellPlaced) :
    Ends d.check m.state fun _ s' => ∀ T σ, s'.types.Agrees T d.ids →
      SymbolTable.Keeps Symbol.Refines s'.symbols σ → (d.introduced m).Settled T σ := by
  by_cases hone : d.names.length = 1
  · refine ((ends_takes hs hr hw hone).and (ends_defines hs hr hw)).ok.mono fun _ s' h T σ
      hT hkeeps => ?_
    obtain ⟨⟨⟨t, ht, htakes⟩, hdefines⟩, hok⟩ := h
    obtain ⟨x, hx⟩ := List.length_eq_one_iff.mp hone
    have hbinding : d.binding s'.types = [(x, t)] := by
      rw [binding_eq ht, typesOfNames, if_pos hone, hx]
      rfl
    rw [hbinding] at hdefines
    have hsymbols : s'.symbols = (m.symbols.define (d.symbol (x, t))).2 := hdefines
    rw [hsymbols] at hkeeps
    have hbehind : (m.behind d.id d.check).symbols = s'.symbols := by
      rw [Moment.behind_of_ok _ hok]
      rfl
    rw [introduced, hbehind, hsymbols]
    exact settled_of_define (hT _ List.mem_cons_self t ht)
      (fun hauto => (htakes hauto).mono hT) rfl rfl hx hkeeps
  · refine (ends_defines hs hr hw).mono fun _ s' _ T σ _ _ x hx => ?_
    exact absurd (by rw [introduced] at hx; rw [hx]; rfl) hone

/-- **The variables of declarations get the types that are recorded.** -/
theorem ends_introducedOfAll :
    ∀ {ds : List VarDecl} {m : Moment State}, Good Ty.Known m.state → m.Whole →
    Ready (idsOfAll ds) m.state → (∀ d ∈ ds, d.WellPlaced) →
    Ends (checkDeclarations ds) m.state fun _ s' => ∀ T σ, s'.types.Agrees T (idsOfAll ds) →
      SymbolTable.Keeps Symbol.Refines s'.symbols σ → ∀ i ∈ introducedOfAll m ds, i.Settled T σ
  | [], m, _, _, _, _ => fun _ _ _ _ i hi => absurd hi List.not_mem_nil
  | d :: ds, m, hs, hm, hr, hw => by
    obtain ⟨hd, hds, hdis⟩ := ready_append.mp hr
    rw [List.forall_mem_cons] at hw
    simp only [checkDeclarations, ends_bind]
    refine ((ends_advances hs hm hd hw.1).and (ends_introduced hs hd hw.1)).mono fun _ s₁ h₁ => ?_
    obtain ⟨⟨hbehind, hfirst⟩, hd₁⟩ := h₁
    have hds₁ := hfirst.moves.ready hds hdis
    refine ((ends_afterCheck hfirst.good hfirst.whole hds₁ hw.2).and
      (ends_introducedOfAll hfirst.good hfirst.whole hds₁ hw.2)).mono
        fun _ s₂ h₂ T σ hT hkeeps => ?_
    obtain ⟨⟨hstate, hrest, -⟩, hds₂⟩ := h₂
    have hmoves := hrest.moves
    rw [hstate] at hmoves
    have hT₁ : s₁.types.Agrees T d.ids :=
      (hmoves.agrees hdis).trans (hT.mono fun i hi => List.mem_append_left _ hi)
    rw [introducedOfAll, hbehind, List.forall_mem_cons]
    exact ⟨hd₁ T σ hT₁ (hmoves.symbols.trans Symbol.Refines.trans hkeeps),
      hds₂ T σ (hT.mono fun i hi => List.mem_append_right _ hi) hkeeps⟩

end VarDecl

/-- **The variables of the steps that a loop takes before its first round get the types that are
recorded.** -/
theorem LoopInit.ends_introducedOfAll :
    ∀ {is : List LoopInit} {m : Moment State}, Good Ty.Known m.state → m.Whole →
    Ready (idsOfAll is) m.state → (∀ i ∈ is, i.WellPlaced) →
    Ends (checkLoopInits is) m.state fun _ s' => ∀ T σ, s'.types.Agrees T (idsOfAll is) →
      SymbolTable.Keeps Symbol.Refines s'.symbols σ → ∀ i ∈ introducedOfAll m is, i.Settled T σ
  | [], m, _, _, _, _ => fun _ _ _ _ i hi => absurd hi List.not_mem_nil
  | i :: is, m, hs, hm, hr, hw => by
    obtain ⟨hi, his, hdis⟩ := ready_append.mp hr
    rw [List.forall_mem_cons] at hw
    have hrest : ∀ {s₁ : State}, i.afterCheck m = m.reach i.id s₁ →
        Advances i.ids (fun T Γ => i.scene T Γ) m (m.reach i.id s₁) →
        (∀ T σ, s₁.types.Agrees T i.ids → SymbolTable.Keeps Symbol.Refines s₁.symbols σ →
          ∀ j ∈ i.introduced m, j.Settled T σ) →
        Ends (checkLoopInits is) s₁ fun _ s' => ∀ T σ, s'.types.Agrees T (idsOfAll (i :: is)) →
          SymbolTable.Keeps Symbol.Refines s'.symbols σ →
          ∀ j ∈ introducedOfAll m (i :: is), j.Settled T σ := by
      intro s₁ hbehind hfirst hi₁
      have his₁ := hfirst.moves.ready his hdis
      refine ((ends_afterCheck hfirst.good hfirst.whole his₁ hw.2).and
        (ends_introducedOfAll hfirst.good hfirst.whole his₁ hw.2)).mono
          fun _ s₂ h₂ T σ hT hkeeps => ?_
      obtain ⟨⟨hstate, hlast, -⟩, his₂⟩ := h₂
      have hmoves := hlast.moves
      rw [hstate] at hmoves
      have hT₁ : s₁.types.Agrees T i.ids :=
        (hmoves.agrees hdis).trans (hT.mono fun j hj => List.mem_append_left _ hj)
      rw [introducedOfAll, hbehind, List.forall_mem_append]
      exact ⟨hi₁ T σ hT₁ (hmoves.symbols.trans Symbol.Refines.trans hkeeps),
        his₂ T σ (hT.mono fun j hj => List.mem_append_right _ hj) hkeeps⟩
    cases i with
    | declare d =>
      simp only [checkLoopInits, ends_bind]
      refine ((VarDecl.ends_advances hs hm hi hw.1).and (VarDecl.ends_introduced hs hi hw.1)).mono
        fun _ s₁ h₁ => ?_
      exact hrest h₁.1.1 h₁.1.2 fun T σ hT hkeeps =>
        List.forall_mem_singleton.mpr (h₁.2 T σ hT hkeeps)
    | evaluate e =>
      simp only [checkLoopInits, ends_bind]
      refine (ends_checkKnown Ty.stable_known hs hi hw.1.2).ok.mono fun t s₁ h₁ => ?_
      exact hrest (Moment.behind_of_ok _ h₁.2)
        (.of_moves hs hm (hs.fills h₁.1.1) (Moves.outer h₁.1.1) e.id)
        fun _ _ _ _ j hj => absurd hj List.not_mem_nil

/-! ### Statements -/

namespace Stmt

mutual

/-- **The variables in a statement get the types that are recorded.** -/
theorem ends_introduced :
    ∀ {st : Stmt} {m : Moment State}, Good Ty.Known m.state → m.Whole → Ready st.ids m.state →
    st.WellPlaced → Ends st.check m.state fun _ s' => ∀ T σ, s'.types.Agrees T st.ids →
      SymbolTable.Keeps Symbol.Refines s'.symbols σ → ∀ i ∈ st.introduced m, i.Settled T σ
  | .block site ds body, m, hs, hm, hr, hw => by
    obtain ⟨-, -, hr⟩ := ready_cons.mp hr
    obtain ⟨hds, hbody, hdis⟩ := ready_append.mp hr
    simp only [check, ends_bind, ends_inScope]
    refine ((VarDecl.ends_afterCheck (m := m.change State.enter) hs.enter hm hds hw.1).and
      (VarDecl.ends_introducedOfAll (m := m.change State.enter) hs.enter hm hds hw.1)).mono
        fun _ s₁ h₁ => ?_
    obtain ⟨⟨rfl, hdeclared, -⟩, hds₁⟩ := h₁
    have hbody₁ := hdeclared.moves.ready hbody hdis
    refine ((ends_checkAll Ty.stable_known hdeclared.good hbody₁ hw.2 fun _ _ h => h).and
      (ends_introducedOfAll hdeclared.good hdeclared.whole hbody₁ hw.2)).mono fun _ s₂ h₂ T σ
        hT hkeeps => ?_
    obtain ⟨⟨hmoves, -, -⟩, hbody₂⟩ := h₂
    have hT : s₂.types.Agrees T (VarDecl.idsOfAll ds ++ idsOfAll body) :=
      hT.mono fun i hi => List.mem_cons_of_mem _ hi
    have hTds := (hmoves.agrees hdis).trans (hT.mono fun i hi => List.mem_append_left _ hi)
    -- The scope that is left takes no symbol with it.
    have hkeeps : SymbolTable.Keeps Symbol.Refines s₂.symbols σ := hkeeps
    rw [introduced, List.forall_mem_append]
    exact ⟨hds₁ T σ hTds (hmoves.symbols.keeps.trans Symbol.Refines.trans hkeeps),
      hbody₂ T σ (hT.mono fun i hi => List.mem_append_right _ hi) hkeeps⟩
  | .ifThen site c t, m, hs, hm, hr, hw => by
    obtain ⟨hc, hthen, hdis⟩ := ready_append.mp (ready_cons.mp hr).2.2
    simp only [check, ends_bind]
    refine (ends_checkCondition Ty.stable_known hs hc hw.1.2).ok.mono fun _ s₁ h₁ => ?_
    obtain ⟨⟨hfills, -⟩, hok⟩ := h₁
    have hdecided := Advances.of_moves hs hm (hs.fills hfills) (Moves.outer hfills) c.id
    refine (ends_introduced hdecided.good hdecided.whole (hfills.ready hthen hdis) hw.2).mono
      fun _ s₂ h₂ T σ hT hkeeps => ?_
    rw [introduced, Moment.behind_of_ok _ hok]
    exact h₂ T σ (hT.mono fun i hi => List.mem_cons_of_mem _ (List.mem_append_right _ hi)) hkeeps
  | .ifElse site c t e, m, hs, hm, hr, hw => by
    obtain ⟨hc, hte, hdis⟩ := ready_append.mp (ready_cons.mp hr).2.2
    simp only [check, ends_bind]
    refine (ends_checkCondition Ty.stable_known hs hc hw.1.2).ok.mono fun _ s₁ h₁ => ?_
    obtain ⟨⟨hfills, -⟩, hok⟩ := h₁
    have hdecided := Advances.of_moves hs hm (hs.fills hfills) (Moves.outer hfills) c.id
    obtain ⟨hthen, helse, hdis'⟩ := ready_append.mp (hfills.ready hte hdis)
    refine ((ends_advances hdecided.good hdecided.whole hthen hw.2.1).and
      (ends_introduced hdecided.good hdecided.whole hthen hw.2.1)).mono fun _ s₂ h₂ => ?_
    obtain ⟨⟨hbehind, hpassed⟩, hthen₂⟩ := h₂
    have helse₂ := hpassed.moves.ready helse hdis'
    refine ((ends_advances hpassed.good hpassed.whole helse₂ hw.2.2).and
      (ends_introduced hpassed.good hpassed.whole helse₂ hw.2.2)).mono
        fun _ s₃ h₃ T σ hT hkeeps => ?_
    obtain ⟨⟨-, hlast⟩, helse₃⟩ := h₃
    have hTelse := hT.mono fun i (hi : i ∈ e.ids) =>
      List.mem_cons_of_mem _ (List.mem_append_right _ (List.mem_append_right _ hi))
    have hTthen := (hlast.moves.agrees hdis').trans (hT.mono fun i (hi : i ∈ t.ids) =>
      List.mem_cons_of_mem _ (List.mem_append_right _ (List.mem_append_left _ hi)))
    rw [introduced, Moment.behind_of_ok _ hok, hbehind, List.forall_mem_append]
    exact ⟨hthen₂ T σ hTthen (hlast.moves.symbols.trans Symbol.Refines.trans hkeeps),
      helse₃ T σ hTelse hkeeps⟩
  | .forLoop site inits c incs body, m, hs, hm, hr, hw => by
    obtain ⟨hinits, hrest, hdis⟩ := ready_append.mp (ready_cons.mp hr).2.2
    simp only [check, ends_bind, ends_inScope]
    refine ((LoopInit.ends_afterCheck (m := m.change State.enter) hs.enter hm hinits hw.1).and
      (LoopInit.ends_introducedOfAll (m := m.change State.enter) hs.enter hm hinits hw.1)).mono
        fun _ s₁ h₁ => ?_
    obtain ⟨⟨rfl, hstart, -⟩, hinits₁⟩ := h₁
    obtain ⟨hc, hrest₁, hdis₁⟩ := ready_append.mp (hstart.moves.ready hrest hdis)
    refine (ends_checkLoopCondition Ty.stable_known hstart.good hc hw.2.1).ok.mono fun _ s₂ h₂ => ?_
    obtain ⟨⟨hfills₂, -⟩, hok₂⟩ := h₂
    obtain ⟨hincs, hbody, hdis₂⟩ := ready_append.mp (hfills₂.ready hrest₁ hdis₁)
    refine (ends_checkEvaluated Ty.stable_known (hstart.good.fills hfills₂) hincs hw.2.2.1).ok.mono
      fun _ s₃ h₃ => ?_
    obtain ⟨⟨hfills₃, -⟩, hok₃⟩ := h₃
    have hround :=
      Advances.of_moves hstart.good hstart.whole ((hstart.good.fills hfills₂).fills hfills₃)
      (Moves.trans (Moves.outer hfills₂) (Moves.outer hfills₃)) site.id
    have hbody₃ := hfills₃.ready hbody hdis₂
    refine ((ends_advances hround.good hround.whole hbody₃ hw.2.2.2).and
      (ends_introduced hround.good hround.whole hbody₃ hw.2.2.2)).mono
        fun _ s₄ h₄ T σ hT hkeeps => ?_
    obtain ⟨⟨-, hlast⟩, hbody₄⟩ := h₄
    have hT : s₄.types.Agrees T (LoopInit.idsOfAll inits ++
        (Expr.idsOfOption c ++ (Expr.idsOfAll incs ++ body.ids))) :=
        hT.mono fun i hi => List.mem_cons_of_mem _ hi
    have hmoves := hround.moves.append hlast.moves (SymbolTable.Keeps.trans Symbol.Refines.trans)
    rw [List.append_assoc] at hmoves
    have hTinits := (hmoves.agrees hdis).trans (hT.mono fun i hi => List.mem_append_left _ hi)
    have hTbody := hT.mono fun i (hi : i ∈ body.ids) =>
      List.mem_append_right _ (List.mem_append_right _ (List.mem_append_right _ hi))
    have hkeeps : SymbolTable.Keeps Symbol.Refines s₄.symbols σ := hkeeps
    have hbehind :=
      Moment.behind_of_ok site.id ((bind_of_ok (f := fun _ => checkEvaluated incs) hok₂).trans hok₃)
    rw [introduced, hbehind, List.forall_mem_append]
    exact ⟨hinits₁ T σ hTinits (hmoves.symbols.trans Symbol.Refines.trans hkeeps),
      hbody₄ T σ hTbody hkeeps⟩
  | .evaluation site e, m, hs, hm, hr, hw => by
    simp only [check, ends_bind, ends_pure]
    refine (ends_checkKnown Ty.stable_known hs (ready_cons.mp hr).2.2 hw.2).mono fun _ _ _ _
      _ _ _ i hi => ?_
    exact absurd hi List.not_mem_nil
  | .write site args newline, m, hs, hm, hr, hw => by
    rw [check]
    refine (ends_checkPrinted Ty.stable_known hs (ready_cons.mp hr).2.2 hw).mono fun _ _ _ _
      _ _ _ i hi => ?_
    exact absurd hi List.not_mem_nil
  | .break _, m, _, _, _, _
  | .continue _, m, _, _, _, _ => fun _ _ _ _ i hi => absurd hi List.not_mem_nil
  | .return site v, m, hs, hm, hr, hw => by
    rw [check]
    refine (ends_checkReturn Ty.stable_known hs hr hw).mono fun _ _ _ _ _ _ _ i hi => ?_
    exact absurd hi List.not_mem_nil

/-- As `ends_introduced`, for several statements. -/
theorem ends_introducedOfAll :
    ∀ {ss : List Stmt} {m : Moment State}, Good Ty.Known m.state → m.Whole →
    Ready (idsOfAll ss) m.state → AllWellPlaced ss → Ends (checkAll ss) m.state fun _ s' => ∀ T σ,
      s'.types.Agrees T (idsOfAll ss) → SymbolTable.Keeps Symbol.Refines s'.symbols σ →
        ∀ i ∈ introducedOfAll m ss, i.Settled T σ
  | [], m, _, _, _, _ => fun _ _ _ _ i hi => absurd hi List.not_mem_nil
  | st :: ss, m, hs, hm, hr, hw => by
    obtain ⟨hst, hss, hdis⟩ := ready_append.mp hr
    simp only [checkAll, ends_bind]
    refine ((ends_advances hs hm hst hw.1).and (ends_introduced hs hm hst hw.1)).mono
      fun _ s₁ h₁ => ?_
    obtain ⟨⟨hbehind, hpassed⟩, hst₁⟩ := h₁
    have hss₁ := hpassed.moves.ready hss hdis
    refine ((ends_checkAll Ty.stable_known hpassed.good hss₁ hw.2 fun _ _ h => h).and
      (ends_introducedOfAll hpassed.good hpassed.whole hss₁ hw.2)).mono
        fun _ s₂ h₂ T σ hT hkeeps => ?_
    obtain ⟨⟨hmoves, -, -⟩, hss₂⟩ := h₂
    have hT₁ : s₁.types.Agrees T st.ids :=
      (hmoves.agrees hdis).trans (hT.mono fun i hi => List.mem_append_left _ hi)
    rw [introducedOfAll, hbehind, List.forall_mem_append]
    exact ⟨hst₁ T σ hT₁ (hmoves.symbols.keeps.trans Symbol.Refines.trans hkeeps),
      hss₂ T σ (hT.mono fun i hi => List.mem_append_right _ hi) hkeeps⟩

end

end Stmt

/-! ### Functions -/

namespace Signature

variable {s : State} {sig : Signature}

/-- The written types of arguments are recorded. -/
theorem ends_checkArguments_records {ds : List VarDecl} {s : State}
    (hr : Ready (VarDecl.idsOfAll ds) s) :
    Ends (sig.checkArguments ds) s fun _ s' => Fills (VarDecl.idsOfAll ds) s s' ∧
      ∀ d ∈ ds, d.initializer = none ∧ s'.types.get? d.id = some d.type := by
  induction ds generalizing s with
  | nil => exact ⟨.refl _ s, by simp⟩
  | cons d ds ih =>
    obtain ⟨hd, hds, hdis⟩ := ready_append.mp hr
    simp only [checkArguments, VarDecl.argumentType, ends_bind, ends_require,
      ends_pure, ends_setType]
    intro hform _ _
    simp only [decide_eq_true_eq, Option.isNone_iff_eq_none] at hform
    have hrecord : Fills d.ids s (s.record d.id d.type) :=
      (Fills.record s d.id d.type).mono fun i hi => List.mem_singleton.mp hi ▸ List.mem_cons_self
    refine (ih (hrecord.ready hds hdis)).mono fun ps s₂ h => ?_
    refine ⟨hrecord.trans h.1, List.forall_mem_cons.mpr ⟨⟨hform.2, ?_⟩, h.2⟩⟩
    exact h.1.agrees hdis _ List.mem_cons_self _ (s.get?_record_self _ _)

/-- **The check of a signature records the written types of the arguments.** -/
theorem ends_records {defining : Bool} (hr : Ready sig.ids s) :
    Ends (sig.check defining) s fun _ s' =>
      ∀ d ∈ sig.arguments, d.initializer = none ∧ s'.types.get? d.id = some d.type := by
  obtain ⟨hid, -, hargs⟩ := ready_cons.mp hr
  simp only [check, ends_bind, ends_require, ends_get]
  intro _ _
  refine (ends_checkArguments_records hargs).mono fun ps s₁ h => ?_
  -- The type of the function goes to a slot of its own.
  have hrecorded : ∀ (u : Ty), ∀ d ∈ sig.arguments,
      d.initializer = none ∧ (s₁.types.set sig.id u).get? d.id = some d.type := by
    intro u d hd
    refine ⟨(h.2 d hd).1, ?_⟩
    have hmem : d.id ∈ VarDecl.idsOfAll sig.arguments := by
      rw [VarDecl.idsOfAll_eq_flatMap]
      exact List.mem_flatMap_of_mem hd List.mem_cons_self
    exact TypeTable.agrees_set hid u d.id hmem _ (h.2 d hd).2
  split
  · simp only [ends_bind, ends_require, ends_setType, ends_pure]
    intro _ _ _
    exact hrecorded _
  · simp only [ends_bind, ends_define, ends_setType, ends_pure]
    exact hrecorded _

end Signature

/-- **Arguments get the types that are recorded.** -/
theorem VarDecl.ends_argumentsIntroduced :
    ∀ {ds : List VarDecl} {m : Moment State}, Good Ty.Known m.state →
    m.Whole → (idsOfAll ds).Nodup → (∀ d ∈ ds, d.TypedArgument Ty.Known m.state.types) →
    (∀ d ∈ ds, d.initializer = none ∧ m.state.types.get? d.id = some d.type) →
    Ends (checkAsArguments ds) m.state fun _ s' => ∀ T σ, s'.types.Agrees T (idsOfAll ds) →
      SymbolTable.Keeps Symbol.Refines s'.symbols σ → ∀ i ∈ argumentsIntroduced m ds, i.Settled T σ
  | [], m, _, _, _, _, _ => fun _ _ _ _ i hi => absurd hi List.not_mem_nil
  | d :: ds, m, hs, hm, hnodup, hds, hrecorded => by
    obtain ⟨-, hrest, hdis⟩ := List.nodup_append.mp hnodup
    rw [List.forall_mem_cons] at hds hrecorded
    obtain ⟨hone, -⟩ := hds.1
    obtain ⟨x, hx⟩ := List.length_eq_one_iff.mp hone
    simp only [checkAsArguments, ends_bind]
    have hdefines : Ends d.checkAsArgument m.state fun _ s' =>
        s' = { m.state
          with symbols := m.state.symbols.defineAll (d.names.map (d.argumentSymbol d.type)) } := by
      simp only [checkAsArgument, ends_bind, ends_typeOf hrecorded.1.2]
      exact d.ends_declareArgument_defines d.type d.names
    refine ((ends_checkAsArgument_advances hs hm hds.1).and hdefines).mono fun _ s₁ h₁ => ?_
    obtain ⟨⟨hbehind, htypes, hfirst⟩, hs₁⟩ := h₁
    have hds₁ : ∀ d' ∈ ds, d'.TypedArgument Ty.Known s₁.types := htypes ▸ hds.2
    have hrecorded₁ : ∀ d' ∈ ds, d'.initializer = none ∧ s₁.types.get? d'.id = some d'.type :=
      htypes ▸ hrecorded.2
    refine ((ends_afterArguments hfirst.good hfirst.whole hrest hds₁).and
      (ends_argumentsIntroduced hfirst.good hfirst.whole hrest hds₁ hrecorded₁)).mono fun _ s₂ h₂ T
        σ hT hkeeps => ?_
    obtain ⟨⟨hstate, hlast⟩, hds₂⟩ := h₂
    have hmoves := hlast.moves
    rw [hstate] at hmoves
    have hT₁ : s₁.types.Agrees T d.ids := (hmoves.agrees fun i hi hj => hdis i hi i hj rfl).trans
      (hT.mono fun i hi => List.mem_append_left _ hi)
    have hsymbols : s₁.symbols = (m.symbols.define (d.argumentSymbol d.type x)).2 := by
      rw [hs₁, hx]
      rfl
    have hkeeps₁ : SymbolTable.Keeps Symbol.Refines s₁.symbols σ :=
      hmoves.symbols.trans Symbol.Refines.trans hkeeps
    have hbehind₁ : (m.behind d.id d.checkAsArgument).symbols = s₁.symbols := by
      rw [hbehind]
      rfl
    rw [argumentsIntroduced, List.forall_mem_cons]
    refine ⟨?_, ?_⟩
    · rw [hsymbols] at hkeeps₁
      rw [hbehind₁, hsymbols]
      have htakes : d.Takes T d.type := by
        rw [Takes, hrecorded.1.1]
      exact settled_of_define (hT₁ _ List.mem_cons_self _ (htypes ▸ hrecorded.1.2))
        (fun _ => htakes) rfl rfl hx hkeeps₁
    · rw [hbehind]
      exact hds₂ T σ (hT.mono fun i hi => List.mem_append_right _ hi) hkeeps

/-- **The arguments and the variables in the body of a function get the types that are
recorded.** -/
theorem Function.ends_introduced {m : Moment State} {f : Function}
    (hs : Good Ty.Known m.state) (hm : m.Whole) (hl : m.state.symbols.locals = [])
    (hr : Ready f.ids m.state) (hw : f.WellPlaced) :
    Ends f.check m.state fun _ s' => ∀ T σ, s'.types.Agrees T f.ids →
      SymbolTable.Keeps Symbol.Refines s'.symbols σ → ∀ i ∈ f.introduced m, i.Settled T σ := by
  obtain ⟨hsig, hbody, hdis⟩ := ready_append.mp hr
  obtain ⟨hid, -, hargsReady⟩ := ready_cons.mp hsig
  simp only [check, ends_bind, ends_modifySymbol, ends_inFunction, ends_get]
  refine ((Signature.ends_check hs hl hsig fun _ _ h =>
    h).and (Signature.ends_records hsig)).ok.mono fun id s₁ h₁ => ?_
  obtain ⟨⟨hdeclares, hrecords⟩, hok⟩ := h₁
  obtain ⟨sym, hsym, hfunction⟩ := hdeclares.symbol
  have hsettled := hdeclares.good.settled id sym hsym
  obtain ⟨hmoves₂, hgood₂⟩ :=
    hdeclares.good.modifySymbol hsym (f := fun s => { s with defined := true })
    ⟨hsettled.meaning, hsettled.type, hsettled.offset⟩ (.defined sym)
  obtain ⟨sym₂, hsym₂, hr₂⟩ := hmoves₂.symbols.keeps id sym hsym
  have hhead : f.checkHead m.state =
      .ok () ((s₁.modifySymbol id fun s => { s with defined := true }).within id).enter := by
    rw [checkHead, bind_of_ok hok]
    rfl
  have htypes₂ : (s₁.modifySymbol id fun s => { s with defined := true }).types = s₁.types := rfl
  generalize s₁.modifySymbol id (fun s => { s with defined := true }) =
    s₂ at hmoves₂ hgood₂ hsym₂ hhead htypes₂ ⊢
  have hkeeps : SymbolTable.Keeps Symbol.Refines m.state.symbols s₂.symbols :=
    hdeclares.moves.symbols.keeps.trans Symbol.Refines.trans hmoves₂.symbols.keeps
  have hinside : (m.reach f.signature.id (s₂.within id).enter).Whole :=
    Moment.whole_reach _ hm hkeeps
  have hgood₃ := (hgood₂.within hsym₂ (hr₂.isFunction_eq.trans hfunction)).enter
  have hargs : ∀ d ∈ f.signature.arguments, d.TypedArgument Ty.Known s₂.types :=
    (VarDecl.arguments_mono (hmoves₂.agrees (by simp)) hdeclares.arguments).1
  have hrecords₂ : ∀ d ∈ f.signature.arguments, d.initializer = none ∧
      s₂.types.get? d.id = some d.type :=
    htypes₂ ▸ hrecords
  simp only [checkBody, ends_inScope, ends_bind]
  refine ((VarDecl.ends_afterArguments (m := m.reach f.signature.id
    (s₂.within id).enter) hgood₃ hinside
      hargsReady.1 hargs).and (VarDecl.ends_argumentsIntroduced (m := m.reach f.signature.id
        (s₂.within id).enter)
        hgood₃ hinside hargsReady.1 hargs hrecords₂)).mono fun _ s₃ h₃ => ?_
  obtain ⟨⟨rfl, hentry⟩, hargs₃⟩ := h₃
  have hbody₂ : Ready f.body.stmt.ids s₂ :=
    hmoves₂.ready (hdeclares.moves.ready hbody hdis) (by simp)
  have hbody₃ := hentry.moves.ready hbody₂ fun i hi => hdis i (List.mem_cons_of_mem _ hi)
  refine ((Stmt.ends_check Ty.stable_known hentry.good hbody₃ hw.2 fun _ _ h => h).and
    (Stmt.ends_introduced hentry.good hentry.whole hbody₃ hw.2)).mono fun _ s₄ h₄ => ?_
  obtain ⟨hproceeds, hbody₄⟩ := h₄
  have hrest :
      f.signature.id ∉ VarDecl.idsOfAll f.signature.arguments ++ f.body.stmt.ids := fun hi =>
    (List.mem_append.mp hi).elim hid (hdis _ List.mem_cons_self)
  have hmoves₄ := hproceeds.moves
  obtain ⟨sym₄, hsym₄, -⟩ :=
    (hentry.moves.symbols.trans Symbol.Refines.trans hmoves₄.symbols.keeps) id sym₂ hsym₂
  -- What there is to say of a final state with these symbols.
  have hdone : ∀ s₅ : State, s₅.symbols.symbols = s₄.symbols.symbols →
      s₄.types.Agrees s₅.types (VarDecl.idsOfAll f.signature.arguments ++ f.body.stmt.ids) →
      ∀ T σ, s₅.types.Agrees T f.ids → SymbolTable.Keeps Symbol.Refines s₅.symbols σ →
        ∀ i ∈ f.introduced m, i.Settled T σ := by
    intro s₅ hs₅ htypes T σ hT hkeeps₅
    have hkeeps₄ : SymbolTable.Keeps Symbol.Refines s₄.symbols σ := by
      intro i sym' hget
      rw [SymbolTable.get?, ← hs₅] at hget
      exact hkeeps₅ i sym' hget
    have hT₄ := htypes.trans (hT.mono fun i hi => List.mem_cons_of_mem _ hi)
    have hTargs := (hmoves₄.agrees fun i hi => hdis i (List.mem_cons_of_mem _ hi)).trans
      (hT₄.mono fun i hi => List.mem_append_left _ hi)
    rw [introduced, Moment.behind_of_ok _ hhead, List.forall_mem_append]
    exact ⟨hargs₃ T σ hTargs (hmoves₄.symbols.keeps.trans Symbol.Refines.trans hkeeps₄),
      hbody₄ T σ (hT₄.mono fun i hi => List.mem_append_right _ hi) hkeeps₄⟩
  split
  · rename_i hnone
    cases hnone.symm.trans hsym₄
  · simp only [ends_bind, ends_require]
    intro _
    split
    · exact ends_fault
    · simp only [ends_bind, ends_setType]
      split
      · exact hdone _ rfl (State.agrees_record _ hrest _)
      · rename_i e hflow
        exact ends_throw.mpr (blames_of_checkFlow hflow)

/-! ### Units -/

/-- **The variables in a declaration of the unit get the types that are recorded.** -/
theorem Decl.ends_introduced {m : Moment State} {d : Decl}
    (hs : Good Ty.Known m.state) (hm : m.Whole) (hl : m.state.symbols.locals = [])
    (hr : Ready d.ids m.state) (hw : d.WellPlaced) :
    Ends d.check m.state fun _ s' => ∀ T σ, s'.types.Agrees T d.ids →
      SymbolTable.Keeps Symbol.Refines s'.symbols σ → ∀ i ∈ d.introduced m, i.Settled T σ := by
  cases d with
  | «variable» d =>
    refine (VarDecl.ends_introduced hs hr hw).mono fun _ s' h T σ hT hkeeps => ?_
    exact List.forall_mem_singleton.mpr (h T σ hT hkeeps)
  | declare sig =>
    refine (ends_check Ty.stable_known hs hl hr hw fun _ _ h => h).mono
      fun _ s' _ _ _ _ _ i hi => ?_
    exact absurd hi List.not_mem_nil
  | define f => exact Function.ends_introduced hs hm hl hr hw

/-- **The variables in declarations of the unit get the types that are recorded.** -/
theorem Typing.ends_introducedOfAll :
    ∀ {ds : List Decl} {m : Moment State}, Good Ty.Known m.state → m.Whole →
    m.state.symbols.locals = [] → Ready (Decl.idsOfAll ds) m.state → (∀ d ∈ ds, d.WellPlaced) →
    Ends (checkDecls ds) m.state fun _ s' => ∀ T σ, s'.types.Agrees T (Decl.idsOfAll ds) →
      SymbolTable.Keeps Symbol.Refines s'.symbols σ → ∀ i ∈ Decl.introducedOfAll m ds, i.Settled T σ
  | [], m, _, _, _, _, _ => fun _ _ _ _ i hi => absurd hi List.not_mem_nil
  | d :: ds, m, hs, hm, hl, hr, hw => by
    obtain ⟨hd, hds, hdis⟩ := ready_append.mp hr
    rw [List.forall_mem_cons] at hw
    simp only [checkDecls, ends_bind]
    refine ((Decl.ends_grows hs hm hl hd hw.1).and (Decl.ends_introduced hs hm hl hd hw.1)).mono
      fun _ s₁ h₁ => ?_
    obtain ⟨⟨hbehind, hfirst, -, -⟩, hd₁⟩ := h₁
    have hds₁ := hfirst.moves.ready hds hdis
    refine ((ends_checkedOfAll hfirst.good hfirst.whole hfirst.locals hds₁ hw.2).and
      (ends_introducedOfAll hfirst.good hfirst.whole hfirst.locals hds₁ hw.2)).mono fun _ s₂ h₂ T σ
        hT hkeeps => ?_
    obtain ⟨⟨hstate, hrest, -, -⟩, hds₂⟩ := h₂
    have hmoves := hrest.moves
    rw [hstate] at hmoves
    have hT₁ : s₁.types.Agrees T d.ids :=
      (hmoves.agrees hdis).trans (hT.mono fun i hi => List.mem_append_left _ hi)
    rw [Decl.introducedOfAll, hbehind, List.forall_mem_append]
    exact ⟨hd₁ T σ hT₁ (hmoves.symbols.keeps.trans Symbol.Refines.trans hkeeps),
      hds₂ T σ (hT.mono fun i hi => List.mem_append_right _ hi) hkeeps⟩

namespace SyntaxTree

variable {nodes : Array Node} {root : NodeId} {t : SyntaxTree} {T : TypeTable} {σ : SymbolTable}

/-- **A variable with a written type has it for good**: each declaration of variables in an accepted
tree is come to once, and if it declares one variable with a written type, then the type that is
recorded for it is that of its symbol, right behind the declaration and in the table that the check
leaves. It is the written type without an initializer, and else, up to one-component tuples, the
written type in which pointers to `void` have become the pointers that stand at their places in the
type of the initializer. So if no pointer in it refers to `void`, it is what was written. -/
theorem variables_take_written_type (h : ofNodes nodes root = .ok t)
    (hcheck : checkTree t = .ok (T, σ)) :
    t.introduced.map Introduction.decl = t.introduces ∧ (∀ i ∈ t.introduced, i.Settled T σ) ∧
      ∀ i ∈ t.introduced, ∀ x, i.decl.names = [x] → i.decl.type ≠ .auto →
        i.decl.type.flatten.refersToVoid = false →
        ∃ r, T.get? i.decl.id = some r ∧ r.flatten = i.decl.type.flatten := by
  have hends :=
    ends_introducedOfAll (m := t.start) (good_start _) rfl rfl (ready_start h) (wellPlaced h)
  obtain ⟨s, rfl, rfl, hends⟩ := (checkTree_of_ends hends).1 T σ hcheck
  have hsettled : ∀ i ∈ t.introduced, i.Settled s.types s.symbols :=
    hends s.types s.symbols (fun _ _ _ h => h) (.refl Symbol.Refines.refl _)
  refine ⟨Decl.map_introducedOfAll t.start t.declarations, hsettled,
    fun i hi x hx hauto hvoid => ?_⟩
  obtain ⟨r, -, -, -, hr, htakes, -⟩ := hsettled i hi x hx hauto
  exact ⟨r, hr, htakes.flatten_eq hvoid⟩

/-- A unit in which a pointer to `void` starts with the address of an `int`. -/
def targetNodes : Array Node := #[
  ⟨1, .variableDeclaration .private .int ["x"] none⟩,
  ⟨2, .variable "x"⟩, ⟨2, .addressOf (.ofIndex 1)⟩,
  ⟨2, .variableDeclaration .private (.pointer .void) ["p"] (some (.ofIndex 2))⟩,
  ⟨2, .block [.ofIndex 3] []⟩,
  ⟨1, .functionDefinition .public .void "f" [] (.ofIndex 4)⟩,
  ⟨1, .program [.ofIndex 0, .ofIndex 5]⟩]

theorem exists_targetTree :
    ∃ t T σ, ofNodes targetNodes (.ofIndex 6) = .ok t ∧ checkTree t = .ok (T, σ) ∧
    ∃ i ∈ t.introduced, i.decl.names = ["p"] ∧ i.decl.type = .pointer .void ∧
    T.get? i.decl.id = some (.pointer .int) ∧
      (i.table.resolve? "p").map (fun p => p.2.type) = some (.pointer .int) := by
  have hok : (ofNodes targetNodes (.ofIndex 6)).toOption.any (fun t =>
      (checkTree t).toOption.any fun p => t.introduced.any fun i =>
        i.decl.names = ["p"] ∧ i.decl.type = .pointer .void ∧
          p.1.get? i.decl.id = some (.pointer .int) ∧
          (i.table.resolve? "p").map (fun p => p.2.type) = some (.pointer .int)) = true := by
    decide +kernel
  obtain ⟨t, ht, hok⟩ := any_toOption.mp hok
  obtain ⟨⟨T, σ⟩, hcheck, hok⟩ := any_toOption.mp hok
  obtain ⟨i, hi, hok⟩ := List.any_eq_true.mp hok
  exact ⟨t, T, σ, ht, hcheck, i, hi, of_decide_eq_true hok⟩

/-- In this unit all declarations are come to, and `p` is a variable whose type is recorded. -/
theorem variables_take_written_type_target : ∃ t T σ, ofNodes targetNodes (.ofIndex 6) = .ok t ∧
    checkTree t = .ok (T, σ) ∧
    (∃ i ∈ t.introduced, i.decl.names = ["p"] ∧ i.decl.type ≠ .auto ∧ i.Settled T σ) ∧
      t.introduced.map Introduction.decl = t.introduces := by
  obtain ⟨t, T, σ, ht, hcheck, i, hi, hnames, htype, -⟩ := exists_targetTree
  obtain ⟨hall, hsettled, -⟩ := variables_take_written_type ht hcheck
  exact ⟨t, T, σ, ht, hcheck, ⟨i, hi, hnames, by simp [htype], hsettled i hi⟩, hall⟩

/-- **A written type is not always kept**: a pointer to `void` that starts with the address of an
`int` is a pointer to an `int`, by its declaration and by its symbol. -/
theorem written_pointer_target_replaced : ∃ t T σ, ofNodes targetNodes (.ofIndex 6) = .ok t ∧
    checkTree t = .ok (T, σ) ∧ ∃ i ∈ t.introduced, ∃ r, i.decl.names = ["p"] ∧
    i.decl.type = .pointer .void ∧
      T.get? i.decl.id = some r ∧ (i.table.resolve? "p").map (fun p => p.2.type) = some r ∧
        r.flatten ≠ i.decl.type.flatten := by
  obtain ⟨t, T, σ, ht, hcheck, i, hi, hnames, htype, hget, hsymbol⟩ := exists_targetTree
  refine ⟨t, T, σ, ht, hcheck, i, hi, .pointer .int, hnames, htype, hget, hsymbol, ?_⟩
  rw [htype]
  decide

end SyntaxTree

end PostfixCompiler
