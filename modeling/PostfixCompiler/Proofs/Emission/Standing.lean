import PostfixCompiler.Proofs.Emission.UnitCode

/-!
# Statements where they stand

What is to be said of the code of a statement depends on the place where the statement stands, and
is said by recursion on the statement. The premises of such a recursion are always the same: the
statement is typed in the scope of its place, everything in it is where it belongs, control is in
order, and a jump has a loop around it. They are put together here, and taken apart again for the
parts of a statement, so that no recursion has to do it.

## Main definitions

* `PostfixCompiler.Stmt.Stands`, `PostfixCompiler.Stmt.AllStand`: a statement stands at a place.

## Main statements

* `PostfixCompiler.Stmt.Stands.block`, `PostfixCompiler.Stmt.Stands.forLoop` and their relatives:
  where the parts of a statement stand.
* `PostfixCompiler.Function.stands`: where the body of a function stands.
* `PostfixCompiler.exists_function_code`: each function stands in the code of its unit.
-/

namespace PostfixCompiler

open Emission

variable {P : Ty → Prop} {cx : Context} {pt : Point} {inLoop : Bool}

namespace Stmt

/-- **A statement stands at a place**: all that its code depends on is in order. -/
structure Stands (P : Ty → Prop) (cx : Context) (pt : Point) (inLoop : Bool)
    (st : Stmt) : Prop where
  /-- The types of names are settled. -/
  names : View.Settled P pt.scope.meanings
  /-- The statement is typed. -/
  typed : st.Typed P cx.types cx.returnType pt.scope.meanings
  /-- Everything is where it belongs. -/
  placed : st.WellPlaced
  /-- Control is in order. -/
  flow : ∃ x, st.exits inLoop = .ok x
  /-- A jump has a loop around it. -/
  loop : inLoop = true → cx.loop ≠ none

/-- Statements stand one after the other from a place on. -/
structure AllStand (P : Ty → Prop) (cx : Context) (pt : Point) (inLoop : Bool)
    (ss : List Stmt) : Prop where
  /-- The types of names are settled. -/
  names : View.Settled P pt.scope.meanings
  /-- The statements are typed. -/
  typed : AllTyped P cx.types cx.returnType pt.scope.meanings ss
  /-- Everything is where it belongs. -/
  placed : AllWellPlaced ss
  /-- Control is in order. -/
  flow : ∃ before x, exitsOfAll inLoop before ss = .ok x
  /-- A jump has a loop around it. -/
  loop : inLoop = true → cx.loop ≠ none

/-- Only the scope of a place matters to what stands there. -/
theorem Stands.move {st : Stmt} (h : st.Stands P cx pt inLoop) (bytes labels : Nat) :
    st.Stands P cx (pt.move bytes labels) inLoop :=
  ⟨h.names, h.typed, h.placed, h.flow, h.loop⟩

/-- The body of a block stands behind its declarations. -/
theorem Stands.block {site : Site} {ds : List VarDecl} {body : List Stmt} (hP : Ty.Stable P)
    (h : (Stmt.block site ds body).Stands P cx pt inLoop) :
    VarDecl.AllTyped P cx.types pt.scope.meanings ds ∧ (∀ d ∈ ds, d.WellPlaced) ∧
      AllStand P cx (VarDecl.afterAll cx.types pt ds) inLoop body := by
  obtain ⟨x, hx⟩ := h.flow
  rw [exits] at hx
  have hmeanings := VarDecl.meanings_afterAll h.typed.1
  refine ⟨h.typed.1, h.placed.1, ?_, hmeanings ▸ h.typed.2, h.placed.2, ⟨_, x, hx⟩, h.loop⟩
  rw [hmeanings]
  exact VarDecl.AllTyped.settled hP h.typed.1 h.names

theorem Stands.ifThen {site : Site} {c : Expr} {t : Stmt}
    (h : (Stmt.ifThen site c t).Stands P cx pt inLoop) :
    c.TypedAs P cx.types pt.scope.meanings .int ∧ c.IsValue ∧ t.Stands P cx pt inLoop := by
  obtain ⟨x, hx⟩ := h.flow
  rw [exits] at hx
  obtain ⟨y, hy, -⟩ := bind_eq_ok.mp hx
  exact ⟨h.typed.1, h.placed.1, h.names, h.typed.2, h.placed.2, ⟨y, hy⟩, h.loop⟩

theorem Stands.ifElse {site : Site} {c : Expr} {t e : Stmt}
    (h : (Stmt.ifElse site c t e).Stands P cx pt inLoop) :
    c.TypedAs P cx.types pt.scope.meanings .int ∧ c.IsValue ∧ t.Stands P cx pt inLoop ∧
      e.Stands P cx pt inLoop := by
  obtain ⟨x, hx⟩ := h.flow
  rw [exits] at hx
  obtain ⟨y, hy, hx⟩ := bind_eq_ok.mp hx
  obtain ⟨z, hz, -⟩ := bind_eq_ok.mp hx
  exact ⟨h.typed.1, h.placed.1, ⟨h.names, h.typed.2.1, h.placed.2.1, ⟨y, hy⟩, h.loop⟩,
    ⟨h.names, h.typed.2.2, h.placed.2.2, ⟨z, hz⟩, h.loop⟩⟩

/-- What a loop does in a round: its condition, its increments and its body stand behind what it
does before its first round. -/
structure Round (P : Ty → Prop) (cx : Context) (start : Point) (c : Option Expr) (incs : List Expr)
    (body : Stmt) : Prop where
  /-- The types of names are settled. -/
  names : View.Settled P start.scope.meanings
  /-- The last component of the condition is tested. -/
  condition : ∀ e ∈ c, ∃ t, e.TypedAs P cx.types start.scope.meanings t ∧
    t.components.getLast? = some .int
  /-- The condition has a value. -/
  conditionValue : Expr.IsOptionalValue c
  /-- The increments are typed. -/
  increments : ∀ e ∈ incs, ∃ t, e.TypedAs P cx.types start.scope.meanings t
  /-- The increments have values. -/
  incrementValues : Expr.AllValues incs
  /-- The body stands in the loop. -/
  body : body.Stands P (cx.inLoop start) start true

theorem Stands.forLoop {site : Site} {inits : List LoopInit} {c : Option Expr}
    {incs : List Expr} {body : Stmt} (hP : Ty.Stable P)
    (h : (Stmt.forLoop site inits c incs body).Stands P cx pt inLoop) :
    LoopInit.AllTyped P cx.types pt.scope.meanings inits ∧ (∀ i ∈ inits, i.WellPlaced) ∧
      Round P cx (LoopInit.afterAll cx.types pt inits) c incs body := by
  obtain ⟨hinits, hc, hincs, hbody⟩ := h.typed
  obtain ⟨hwinits, hwc, hwincs, hwbody⟩ := h.placed
  obtain ⟨x, hx⟩ := h.flow
  rw [exits] at hx
  obtain ⟨y, hy, -⟩ := bind_eq_ok.mp hx
  have hmeanings := LoopInit.meanings_afterAll hinits
  have hnames : View.Settled P (LoopInit.afterAll cx.types pt inits).scope.meanings :=
    hmeanings ▸ hinits.settled hP h.names
  exact ⟨hinits, hwinits, hnames, hmeanings ▸ hc, hwc, hmeanings ▸ hincs, hwincs, hnames,
    hmeanings ▸ hbody,
    hwbody, ⟨y, hy⟩, fun _ => by simp [Context.inLoop]⟩

/-- A jump stands in a loop. -/
theorem Stands.jump {st : Stmt} {site : Site} (hst : st = .break site ∨ st = .continue site)
    (h : st.Stands P cx pt inLoop) : ∃ l, cx.loop = some l := by
  obtain ⟨x, hx⟩ := h.flow
  refine Option.ne_none_iff_exists'.mp (h.loop ?_)
  by_contra hin
  rcases hst with rfl | rfl
  all_goals
    rw [exits, if_neg hin] at hx
    cases hx

theorem AllStand.cons {st : Stmt} {ss : List Stmt} (h : AllStand P cx pt inLoop (st :: ss)) :
    st.Stands P cx pt inLoop ∧ ∀ bytes labels, AllStand P cx (pt.move bytes labels) inLoop ss := by
  obtain ⟨before, x, hx⟩ := h.flow
  rw [exitsOfAll] at hx
  obtain ⟨_, -, hx⟩ := bind_eq_ok.mp hx
  obtain ⟨after, hst, hss⟩ := bind_eq_ok.mp hx
  exact ⟨⟨h.names, h.typed.1, h.placed.1, ⟨after, hst⟩, h.loop⟩,
    fun _ _ => ⟨h.names, h.typed.2, h.placed.2, ⟨after, x, hss⟩, h.loop⟩⟩

end Stmt

/-! ### Functions -/

/-- **The body of a typed function stands behind its arguments.** -/
theorem Function.stands (hP : Ty.Stable P) {T : TypeTable} {config : Config}
    {scope : View Symbol} {n : Nat} {f : Function} {R : Ty} (hΓ : View.Settled P scope.meanings)
    (h : f.Typed P T scope.meanings R) (hw : f.WellPlaced) :
    f.body.stmt.Stands P (f.context T config) (f.entry T scope n) false := by
  have hmeanings : (f.entry T scope n).scope.meanings =
      View.bindAll scope.meanings (VarDecl.bindingOfAll T f.signature.arguments) :=
    VarDecl.meanings_argumentScope h.arguments _ _
  have hR : (f.context T config).returnType = R := TypeTable.typeOf_eq h.result.1
  obtain ⟨x, hx, -⟩ := exists_exits h.flow
  refine ⟨?_, ?_, hw.2, ⟨x, hx⟩, fun h => by cases h⟩
  · rw [hmeanings]
    exact VarDecl.settled_arguments hP h.arguments hΓ
  · rw [hmeanings, hR]
    exact h.body

/-! ### Units -/

theorem Decl.outlineOfAll_append (T : TypeTable) (config : Config) (scope : View Symbol)
    (ds ds' : List Decl) (n : Nat) : (outlineOfAll T config scope n (ds ++ ds')).code =
      (outlineOfAll T config scope n ds).code ++
        (outlineOfAll T config scope (n + labelCountOfAll ds) ds').code := by
  induction ds generalizing n with
  | nil => rfl
  | cons d ds ih =>
    rw [List.cons_append, outlineOfAll, outlineOfAll, Outline.code_append, Outline.code_append, ih,
      labelCountOfAll, List.append_assoc, Nat.add_assoc]

/-- **Each declaration stands in the code of its unit.** -/
theorem exists_unit_code {P : Ty → Prop} (hP : Ty.Stable P) {nodes : Array Node} {root : NodeId}
    {t : SyntaxTree} (h : SyntaxTree.ofNodes nodes root = .ok t)
    (ht : ∀ d ∈ t.declarations, ∀ u ∈ d.writtenTypes, Typing.Written P u) {T : TypeTable}
    {σ : SymbolTable} (hcheck : Typing.checkTree t = .ok (T, σ)) (config : Config) :
    ∃ c, compile t config = .ok c ∧ ∀ before d after, t.declarations = before ++ d :: after →
      ∃ front back, c.code = front ++
        (d.outline T config σ.scope (Decl.labelCountOfAll before)).code ++ back := by
  obtain ⟨externs, hcompile⟩ := exists_compile hP h ht hcheck config
  refine ⟨_, hcompile, fun before d after hd => ⟨(Decl.outlineOfAll T config σ.scope 0 before).code,
    (Decl.outlineOfAll T config σ.scope (Decl.labelCountOfAll before + d.labelCount) after).code ++
      externs.map .external, ?_⟩⟩
  simp only [hd, Decl.outlineOfAll_append, Decl.outlineOfAll, Outline.code_append, Nat.zero_add,
    List.append_assoc]

/-- **Each function stands in the code of its unit**, and all that its code depends on is in
order. -/
theorem exists_function_code {P : Ty → Prop} (hP : Ty.Stable P) {nodes : Array Node} {root : NodeId}
    {t : SyntaxTree} (h : SyntaxTree.ofNodes nodes root = .ok t)
    (ht : ∀ d ∈ t.declarations, ∀ u ∈ d.writtenTypes, Typing.Written P u) {T : TypeTable}
    {σ : SymbolTable} (hcheck : Typing.checkTree t = .ok (T, σ)) (config : Config)
    {before after : List Decl} {f : Function} (hf : t.declarations = before ++ .define f :: after) :
    View.Settled P σ.scope.meanings ∧ (∃ R, f.Typed P T σ.scope.meanings R) ∧ f.WellPlaced ∧
      ∃ c front back, compile t config = .ok c ∧ c.code = front ++
        (f.outline T config σ.scope (Decl.labelCountOfAll before)).code ++ back := by
  have haccepted := (Typing.checkTree_outcome hP h ht).1 T σ hcheck
  have hmem : Decl.define f ∈ t.declarations := by simp [hf]
  have hnames : σ.names = σ.scope.meanings := σ.names_eq
  obtain ⟨c, hc, hcode⟩ := exists_unit_code hP h ht hcheck config
  obtain ⟨front, back, hcode⟩ := hcode before (.define f) after hf
  exact ⟨hnames ▸ haccepted.names, hnames ▸ haccepted.typed _ hmem, SyntaxTree.wellPlaced h _ hmem,
    c, front, back, hc, hcode⟩

end PostfixCompiler
