import Mathlib.Data.List.Pairwise
import PostfixCompiler.Proofs.Frame.Source
import PostfixCompiler.Proofs.Scope.CheckedUnit
import PostfixCompiler.Proofs.Scope.Coded

/-!
# Names are resolved alike in both passes

The checker sees the names of a unit as they are declared, and it visits the increments of a loop
before its body. The code is written when all names of the unit are known, and the increments come
last. Still both of them find the same declaration behind a name: in the body of a function the
scenes of both passes are those of the tree, and the scene around the body in which it was checked
is part of the one in which it is written. Since a function is only checked if all of its names are
found, none of them is found anywhere else later.

## Main definitions

* `PostfixCompiler.Function.coded`, `PostfixCompiler.SyntaxTree.coded`: the expressions whose code
  is written.
* `PostfixCompiler.Expr.name?`: the name that a node looks up.
* `PostfixCompiler.ResolvedAlike`: both passes find the same declaration behind the name of a node.
* `PostfixCompiler.Piece.Resolved`: a piece of the code makes use of that declaration.

## Main statements

* `PostfixCompiler.SyntaxTree.perm_coded`: code is written for the expressions in the bodies of
  functions.
* `PostfixCompiler.SyntaxTree.exists_declaration`: names outside of functions are bound to
  declarations of the unit.
* `PostfixCompiler.Function.stems_of_checked`: the pieces of a function stem from its phrases.
* `PostfixCompiler.names_resolved_alike`: both passes find the same declaration behind a name.
-/

namespace PostfixCompiler

open Emission

/-! ### The course of the writing -/

/-- The moment behind the arguments of a function, the first of which is at `offset`. -/
def VarDecl.afterCodeArguments (cx : Context) (offset : Int) (m : Moment State) :
    List VarDecl → Moment State
  | [] => m
  | d :: ds =>
    afterCodeArguments cx (offset + (cx.types.typeOf d.id).size)
      (m.behind d.id (d.codeAsArgument cx offset)) ds

namespace Function

variable (T : TypeTable) (config : Config)

/-- **The expressions whose code is written for a function.** The head of its code is written before
the scope of its arguments is entered. -/
def coded (m : Moment State) (f : Function) : List Occurrence :=
  let cx := f.context T config
  let first := if cx.returnType.isTuple then argumentsOffset + Ty.wordSize else argumentsOffset
  let inside := m.change fun s => (restart (s.write (f.head T config s.symbols.scope))).enter
  f.body.stmt.coded cx (VarDecl.afterCodeArguments cx first inside f.signature.arguments)

end Function

namespace Decl

variable (T : TypeTable) (config : Config)

/-- The expressions whose code is written for declarations of the unit. -/
def codedOfAll (m : Moment State) : List Decl → List Occurrence
  | [] => []
  | .variable d :: ds => codedOfAll (m.behind d.id (d.lay T)) ds
  | .declare _ :: ds => codedOfAll m ds
  | .define f :: ds =>
      f.coded T config m ++ codedOfAll (m.behind f.signature.id (f.code T config)) ds

/-- The expressions in the body of a function that is declared. -/
def occurrences (Γ : Scene) : Decl → List Occurrence
  | .variable _ | .declare _ => []
  | .define f => f.occurrences T Γ

end Decl

/-- **The expressions whose code is written for a tree**, each in the scene of that moment. The
writing starts with the symbols that the check left behind. -/
def SyntaxTree.coded (t : SyntaxTree) (T : TypeTable) (σ : SymbolTable) (config : Config) :
    List Occurrence :=
  Decl.codedOfAll T config ⟨.start σ, t.origins⟩ t.declarations

/-! ### Functions and units -/

variable {P : Ty → Prop} {T : TypeTable} {config : Config} {Γ : Scene} {m : Moment State}

/-- Behind the arguments of a function they are in the scene. -/
theorem VarDecl.arrives_afterCodeArguments (cx : Context) :
    ∀ {ds : List VarDecl} {pt : Point} {Γ : Scene}
    {m : Moment State} (offset : Int), Arrives pt Γ m → (∀ d ∈ ds, d.TypedArgument P cx.types) →
    Arrives ⟨argumentScope cx.types pt.scope offset ds, pt.cursor, pt.labels⟩
      (sceneOfAll cx.types Γ ds) (afterCodeArguments cx offset m ds)
  | [], _, _, _, _, hm, _ => hm
  | d :: ds, pt, Γ, m, offset, hm, hds => by
    rw [List.forall_mem_cons] at hds
    obtain ⟨hn, -, t, ht, -⟩ := hds.1
    have hdefines : Puts (d.codeAsArgument cx offset) m.state fun _ s' =>
        s'.At ⟨pt.scope.place d.line (d.names.map fun name => (name, t, offset)),
          pt.cursor, pt.labels⟩ ∧
          s'.symbols = m.state.symbols.defineAll
            ((d.names.map fun name => (name, t, offset)).map (Symbol.placed d.line)) := by
      simp only [codeAsArgument, puts_bind, puts_typeOf ht]
      refine ((puts_placeEach (Q := fun _ s' => s'.At _) hm.here fun s' h => h.here).and
        (puts_placeEach_defines ..)).mono fun _ s' h => ?_
      exact puts_pure.mpr ⟨h.1, congrArg State.symbols h.2⟩
    have hfirst := hm.define d.id hdefines
    rw [List.map_map] at hfirst
    have hrest := arrives_afterCodeArguments cx (offset + t.size) hfirst hds.2
    rw [afterCodeArguments, argumentScope, sceneOfAll, List.foldl_cons, ← sceneOfAll, scene,
      binding_argument hn ht, TypeTable.typeOf_eq ht]
    exact hrest

/-- **The expressions whose code is written for a function are those in its body**, each in the
scene of its place in the tree. -/
theorem Function.perm_coded (hP : Ty.Stable P) {f : Function} {R : Ty} (hm : m.Whole)
    (hc : m.state.symbols.Closed) (hΓ : m.scene = Γ) (hsettled : View.Settled P Γ.names)
    (h : f.Typed P T Γ.names R) (hw : f.WellPlaced) :
    (f.coded T config m).Perm (f.occurrences T Γ) := by
  subst hΓ
  have hnames : m.scene.names = m.state.symbols.scope.meanings :=
    (Moment.names_scene hm).trans (SymbolTable.names_eq _)
  rw [hnames] at hsettled h
  have hinside : Arrives ⟨m.state.symbols.scope, 0, m.state.labels⟩ m.scene
      (m.change fun s => (restart (s.write (f.head T config s.symbols.scope))).enter) :=
    ⟨⟨hc.enter, List.cons_ne_nil _ _, SymbolTable.view_enter .., rfl, rfl⟩, hm,
      SymbolTable.scene_enter m.state.symbols m.origins⟩
  have hstands : f.body.stmt.Stands P (f.context T config)
      (f.entry T m.state.symbols.scope m.state.labels) false :=
    f.stands hP hsettled h hw
  have hprovides :
      (f.context T config).frame.Provides (f.body.stmt.usage (f.context T config).types).nodes :=
    FrameLayout.provides_ofCharges _ _ _ _ _
  have hargs := VarDecl.arrives_afterCodeArguments (f.context T config)
    (if (T.typeOf f.signature.id).isTuple then argumentsOffset +
      Ty.wordSize else argumentsOffset) hinside h.arguments
  exact Stmt.perm_coded hP hargs hstands hprovides

/-- **The expressions whose code is written for declarations are those in the bodies of
functions.** -/
theorem Decl.perm_codedOfAll (hP : Ty.Stable P) : ∀ {ds : List Decl} {m : Moment State}, m.Whole →
    m.state.symbols.Closed → m.scene = Γ → View.Settled P Γ.names →
    (∀ d ∈ ds, d.Typed P T Γ.names) →
    (∀ d ∈ ds, d.WellPlaced) → (codedOfAll T config m ds).Perm (ds.flatMap (Decl.occurrences T Γ))
  | [], m, _, _, _, _, _, _ => .nil
  | d :: ds, m, hm, hc, hΓ, hsettled, h, hw => by
    rw [List.forall_mem_cons] at h hw
    have hnames : Γ.names = m.state.symbols.names := hΓ ▸ Moment.names_scene hm
    -- Whatever adds code for a declaration leaves the scene as it was.
    have hbehind : ∀ {α : Type} {work : EmitM α} (node : NodeId),
        (Puts work m.state fun _ s' => ∃ is k called, Adds is k called m.state s') →
        (codedOfAll T config (m.behind node work) ds).Perm (ds.flatMap (Decl.occurrences T Γ)) := by
      intro α work node hwork
      obtain ⟨a, s', hok, is, k, called, hadds⟩ := hwork.exists_ok
      obtain ⟨hwhole, hscene⟩ := Moment.reach_outer node hm hc hadds.symbols fun _ _ h => h ▸ rfl
      rw [Moment.behind_of_ok _ hok]
      exact perm_codedOfAll hP hwhole (hadds.symbols.closed hc) (hscene.trans hΓ) hsettled h.2 hw.2
    cases d with
    | «variable» d =>
      exact hbehind d.id
        (VarDecl.puts_lay (h.1 : d.TypedGlobal P T Γ.names) fun s₁ h₁ => ⟨_, _, _, h₁.adds⟩)
    | declare sig =>
      have hrest : (codedOfAll T config m ds).Perm (ds.flatMap (Decl.occurrences T Γ)) :=
        perm_codedOfAll hP hm hc hΓ hsettled h.2 hw.2
      exact hrest
    | define f =>
      obtain ⟨R, hf⟩ := h.1
      refine (f.perm_coded hP hm hc hΓ hsettled hf hw.1).append (hbehind f.signature.id ?_)
      exact (Function.puts_code hP hc (hnames ▸ hsettled) (hnames ▸ hf) hw.1).mono fun _ _ h =>
        ⟨_, _, _, h.2.2⟩

variable {nodes : Array Node} {root : NodeId} {t : SyntaxTree} {σ : SymbolTable}

/-- **Code is written for the expressions in the bodies of functions**, each in the scene of its
place in the tree. -/
theorem SyntaxTree.perm_coded (h : SyntaxTree.ofNodes nodes root = .ok t)
    (hcheck : Typing.checkTree t = .ok (T, σ)) (config : Config) :
    (t.coded T σ config).Perm
      (t.declarations.flatMap (Decl.occurrences T (σ.scene t.origins))) := by
  have haccepted := (Typing.checkTree_outcome Ty.stable_known h fun _ _ _ _ h => h).1 T σ hcheck
  obtain ⟨hlength, -, -⟩ := checked_functions h hcheck
  have hnames := SymbolTable.names_scene hlength
  exact Decl.perm_codedOfAll (P := Ty.Known) Ty.stable_known hlength haccepted.closed rfl
    (hnames ▸ haccepted.names) (hnames ▸ haccepted.typed) (SyntaxTree.wellPlaced h)

/-! ### Names -/

/-- The name that a node looks up, if it does. -/
def Expr.name? : Expr → Option String
  | .variable _ name | .call _ name _ => some name
  | _ => none

/-- What a node finds behind its name: a variable of the type that is recorded for the node, or a
function. -/
def Expr.Finds (T : TypeTable) (m : Meaning) : Expr → Prop
  | .variable site _ => ∃ ty, m = .variable ty ∧ T.get? site.id = some ty
  | .call _ _ args => ∃ ps, m = .function ps ∧ args.length = ps.length
  | _ => False

/-- In a typed expression every name is found. -/
theorem Expr.Typed.finds {Γ : Names} {x : Expr} (h : x.Typed P T Γ) {name : String}
    (hname : x.name? = some name) :
    ∃ m, Γ name = some m ∧ x.Finds T m := by
  cases x with
  | «variable» site y =>
    cases hname
    obtain ⟨ty, hy, htype⟩ := h
    exact ⟨_, hy, ty, rfl, htype⟩
  | call site y args =>
    cases hname
    obtain ⟨-, ps, -, hy, hargs, -⟩ := h
    exact ⟨_, hy, ps, rfl, hargs.length_eq⟩
  | _ => cases hname

/-- No node occurs twice, so its expression is the only one with that node. -/
theorem Occurrence.eq_of_mem_ids {os : List Occurrence} (hn : (Occurrence.idsOfAll os).Nodup)
    {c d : Occurrence} (hc : c ∈ os) (hd : d ∈ os) {i : NodeId} (hic : i ∈ c.expr.ids)
    (hid : i ∈ d.expr.ids) : c = d := by
  by_contra hne
  have hsymm : Std.Symm (Function.onFun List.Disjoint fun o : Occurrence => o.expr.ids) :=
    ⟨fun _ _ h _ hi hj => h hj hi⟩
  exact (List.nodup_flatMap.mp hn).2.forall hc hd hne hic hid

/-- **Both passes find the same declaration behind the name of a node**, whose code is written as
part of an expression. It is a variable of the type that is recorded for its use, or a function. -/
structure ResolvedAlike (t : SyntaxTree) (T : TypeTable) (w : Occurrence) (x : Expr) (name : String)
    (b : Bound) : Prop where
  /-- The checker comes once to the node, and there the name is bound to the declaration. -/
  checked : ∃ c ∈ t.checked, x.Part c.expr ∧ (∀ d ∈ t.checked, x.id ∈ d.expr.ids → d = c) ∧
    c.scene name = some b
  /-- The name is bound to it when the code is written. -/
  coded : w.scene name = some b
  /-- It is what the checker recorded for the node. -/
  finds : x.Finds T b.meaning

/-- Where code is written, a name is bound as it was when it was checked. -/
theorem exists_resolvedAlike (h : SyntaxTree.ofNodes nodes root = .ok t)
    (hcheck : Typing.checkTree t = .ok (T, σ)) (config : Config) {w : Occurrence}
    (hw : w ∈ t.coded T σ config) {x : Expr} (hx : x.Part w.expr) {name : String}
    (hname : x.name? = some name) :
    ∃ b, ResolvedAlike t T w x name b := by
  obtain ⟨-, hnodup, hfunctions⟩ := SyntaxTree.checked_functions h hcheck
  -- The code is that of an expression in the body of a function, which was checked in a smaller
  -- scene.
  obtain ⟨d, hd, hw⟩ := List.mem_flatMap.mp ((SyntaxTree.perm_coded h hcheck config).subset hw)
  cases d with
  | «variable» | declare => cases hw
  | define f =>
    obtain ⟨Γ, R, hΓ, hsettled, hf, hchecked⟩ := hfunctions f hd
    obtain ⟨c, hc, hexpr, hscene⟩ := exists_of_mem_right (f.occurrences_le hΓ) hw
    rw [← hexpr] at hx
    have htyped := (f.typed_of_mem Ty.stable_known hsettled hf hc).part hx
    obtain ⟨meaning, hmeaning, hfinds⟩ := htyped.finds hname
    obtain ⟨b, hb, rfl⟩ := Option.map_eq_some_iff.mp hmeaning
    have hmem := hx.sublist_ids.subset x.id_mem_ids
    have honce : ∀ d ∈ t.checked, x.id ∈ d.expr.ids → d = c := fun d hd hid =>
      Occurrence.eq_of_mem_ids hnodup hd (hchecked hc) hid hmem
    exact ⟨b, ⟨c, hchecked hc, hx, honce, hb⟩, hscene name b hb, hfinds⟩

/-! ### Declarations of the unit -/

theorem Decl.origins_afterCheck {ds : List Decl} {m : Moment Typing.State} :
    ∀ i ∈ (afterCheck m ds).origins, i ∈ m.origins ∨ ∃ d ∈ ds, d.id = i := by
  induction ds generalizing m with
  | nil => exact fun i hi => .inl hi
  | cons d ds ih =>
    intro i hi
    rcases ih i hi with hi | ⟨d', hd', hid⟩
    · rcases List.mem_append.mp hi with hi | hi
      · exact .inl hi
      · exact .inr ⟨d, List.mem_cons_self, (List.eq_of_mem_replicate hi).symm⟩
    · exact .inr ⟨d', List.mem_cons_of_mem _ hd', hid⟩

/-- **Names outside of all functions are bound to declarations of the unit**, and mean what their
symbols do. -/
theorem SyntaxTree.exists_declaration {t : SyntaxTree} {σ : SymbolTable} {name : String} {b : Bound}
    (h : σ.scene t.origins name = some b) :
    (∃ d ∈ t.declarations, d.id = b.node) ∧ ∃ s, σ.scope name = some s ∧ b.meaning = s.meaning := by
  obtain ⟨⟨id, s⟩, hres, h⟩ := Option.bind_eq_some_iff.mp h
  obtain ⟨node, hnode, h⟩ := Option.bind_eq_some_iff.mp h
  cases h
  refine ⟨?_, s, ?_, rfl⟩
  · exact (Decl.origins_afterCheck node (List.mem_of_getElem? hnode)).resolve_left List.not_mem_nil
  · rw [SymbolTable.scope, SymbolTable.view, hres]
    rfl

/-! ### Names in the code -/

/-- **A symbol is that of a declaration** which a name is bound to: it belongs to the unit, or it is
what the writer declares for an argument or a local variable, with the place that is reserved for
it. -/
inductive Function.Declares (ds : List Decl) (T : TypeTable) (scope : View Symbol) (f : Function)
    (name : String) (b : Bound) : Symbol → Prop where
  /-- A variable or a function of the unit. -/
  | unit {d : Decl} {s : Symbol} (hd : d ∈ ds) (hnode : d.id = b.node) (hs : scope name = some s)
    (hmeaning : b.meaning = s.meaning) : Declares ds T scope f name b s
  /-- An argument or a local variable. -/
  | frame {q : VarDecl × Int} {v : String × Ty × Int} (hq : q ∈ f.arguments T ++ f.locals T)
    (hnode : q.1.id = b.node) (hv : v ∈ q.1.places (T.typeOf q.1.id) q.2) (hname : v.1 = name)
    (hmeaning : b.meaning = .variable v.2.1) :
      Declares ds T scope f name b (Symbol.placed q.1.line v)

/-- Where names have the places of their declarations, a name stands for the symbol of its
declaration. -/
theorem Function.declares_of_places {f : Function} {Γ : Scene} {view : View Symbol}
    (h : (f.source T config σ.scope (σ.scene t.origins)).Places Γ view) {name : String} {b : Bound}
    (hb : Γ name = some b) :
    ∃ s, view name = some s ∧ f.Declares t.declarations T σ.scope name b s := by
  rcases h name b hb with ⟨hscene, hview⟩ | ⟨s, hs, q, hq, hnode, v, hv, hname, hmeaning, rfl⟩
  · obtain ⟨⟨d, hd, hnode⟩, s, hs, hmeaning⟩ := SyntaxTree.exists_declaration hscene
    exact ⟨s, hview.trans hs, .unit hd hnode hs hmeaning⟩
  · exact ⟨_, hs, .frame hq hnode hv hname hmeaning⟩

/-- **The code of a node makes use of a symbol**: it pushes the address of the variable, or it calls
the function. -/
def Expr.Emits (config : Config) (s : Symbol) (is : List Instr) : Expr → Prop
  | .variable .. =>
      is = [if s.isGlobal then .address (config.labelOf s) else .frameAddress s.offset]
  | .call .. => .call (config.labelOf s) ∈ is
  | _ => False

/-- A call is made at the end of its code. -/
theorem Emission.call_mem_callInstrs (area : Int) (label : String) (t : Ty) (bytes : Nat)
    (mode : Mode) :
    .call label ∈ callInstrs area label t bytes mode := by
  cases t <;> simp [callInstrs]

/-- A node that looks up a name makes use of the symbol that the name stands for. -/
theorem Expr.emits_own {cx : Context} {view : View Symbol} {mode : Mode} {n : Nat} {x : Expr}
    {name : String} (hname : x.name? = some name) {s : Symbol} (hview : view name = some s)
    {p : Piece} {inner : Outline} (h : x.outline cx view mode n = .piece p inner) :
    x.Emits cx.config s inner.own := by
  cases x with
  | «variable» site y =>
    cases hname
    rw [outline] at h
    cases h
    rw [Outline.own_ofCode, variableInstr, hview]
    rfl
  | call site y args =>
    cases hname
    rw [outline] at h
    cases h
    rw [Outline.own_append, Outline.own_ofCode, calleeLabel, hview]
    exact List.mem_append_right _ (call_mem_callInstrs ..)
  | _ => cases hname

/-- **The pieces of a function of an accepted unit stem from its phrases**, and each expression
among these is typed where it stands. -/
theorem Function.stems_of_checked {nodes : Array Node} {root : NodeId} {t : SyntaxTree}
    (h : SyntaxTree.ofNodes nodes root = .ok t) {T : TypeTable} {σ : SymbolTable}
    (hcheck : Typing.checkTree t = .ok (T, σ)) (config : Config) {f : Function}
    (hf : .define f ∈ t.declarations) (n : Nat) :
    (f.outline T config σ.scope n).All (Piece.Stems Ty.Known
      (f.source T config σ.scope (σ.scene t.origins))) ∧
      ∀ o ∈ f.occurrences T (σ.scene t.origins), o.expr.Typed Ty.Known T o.scene.names := by
  have hwritten : ∀ d ∈ t.declarations, ∀ u ∈ d.writtenTypes, Typing.Written Ty.Known u :=
    fun _ _ _ _ h => h
  have haccepted := (Typing.checkTree_outcome Ty.stable_known h hwritten).1 T σ hcheck
  obtain ⟨hlength, -, -⟩ := SyntaxTree.checked_functions h hcheck
  have hscene : (σ.scene t.origins).names = σ.names := SymbolTable.names_scene hlength
  have hΓ : View.Settled Ty.Known σ.names := haccepted.names
  obtain ⟨R, hR⟩ := haccepted.typed _ hf
  refine ⟨f.all_stem Ty.stable_known config n (hscene.trans σ.names_eq) (σ.names_eq ▸ hΓ)
    (σ.names_eq ▸ hR)
    (SyntaxTree.wellPlaced h _ hf), fun o ho => ?_⟩
  exact f.typed_of_mem Ty.stable_known (hscene ▸ hΓ) (hscene ▸ hR) ho

/-- **A piece is resolved as it was checked.** Where it is a node that looks up a name, both passes
find the same declaration behind the name, the writer looks the name up and finds the symbol of that
declaration, and this is the symbol which the code makes use of. -/
def Piece.Resolved (t : SyntaxTree) (T : TypeTable) (σ : SymbolTable) (config : Config)
    (f : Function) (p : Piece) (inner : Outline) : Prop :=
  ∀ mode view x name, p = .expression mode view x → x.name? = some name →
    ∃ w ∈ t.coded T σ config, x.Part w.expr ∧ ∃ b, ResolvedAlike t T w x name b ∧
    ∃ s, view name = some s ∧
      f.Declares t.declarations T σ.scope name b s ∧ x.Emits config s inner.own

/-- The pieces of a function of an accepted unit are resolved as they were checked. -/
theorem Function.all_resolved (h : SyntaxTree.ofNodes nodes root = .ok t)
    (hcheck : Typing.checkTree t = .ok (T, σ)) (config : Config) {f : Function}
    (hf : .define f ∈ t.declarations) (n : Nat) :
    (f.outline T config σ.scope n).All (Piece.Resolved t T σ config f) := by
  refine (f.stems_of_checked h hcheck config hf n).1.imp ?_
  rintro _ inner hp mode view x name rfl hname
  obtain ⟨o, ho, hpart, hplaces, cx, k, hcx, heq⟩ := hp
  have hcoded : o ∈ t.coded T σ config :=
    (SyntaxTree.perm_coded h hcheck config).symm.subset (List.mem_flatMap.mpr ⟨_, hf, ho⟩)
  obtain ⟨b, hb⟩ := exists_resolvedAlike h hcheck config hcoded hpart hname
  obtain ⟨s, hview, hs⟩ := Function.declares_of_places hplaces hb.coded
  have hconfig : cx.config = config := Source.config_eq hcx
  have hemits := Expr.emits_own hname hview heq
  rw [hconfig] at hemits
  exact ⟨o, hcoded, hpart, b, hb, s, hview, hs, hemits⟩

/-- **Both passes find the same declaration behind a name.** The checker comes once to each node
that looks up a name and whose code is written. There the name is bound to the same node as when the
code is written, with the same meaning: it is a variable of the type that is recorded for its use,
or a function with the same parameters. And wherever the code of a function looks a name up, this is
what it finds and makes use of. -/
theorem names_resolved_alike (h : SyntaxTree.ofNodes nodes root = .ok t)
    (hcheck : Typing.checkTree t = .ok (T, σ)) (config : Config) :
    (∀ w ∈ t.coded T σ config, ∀ (x : Expr) (name : String), x.Part w.expr → x.name? = some name →
      ∃ b, ResolvedAlike t T w x name b) ∧
    ∀ before f after, t.declarations = before ++ .define f :: after →
    ∃ (c : Compilation) (front back : List Instr),
      compile t config = .ok c ∧
        c.code = front ++ (f.outline T config σ.scope (Decl.labelCountOfAll before)).code ++ back ∧
        (f.outline T config σ.scope (Decl.labelCountOfAll before)).All
          (Piece.Resolved t T σ config f) := by
  refine ⟨fun w hw x name hx => exists_resolvedAlike h hcheck config hw hx,
    fun before f after hf => ?_⟩
  have hwritten : ∀ d ∈ t.declarations, ∀ u ∈ d.writtenTypes, Typing.Written Ty.Known u :=
    fun _ _ _ _ h => h
  obtain ⟨-, -, -, c, front, back, hc, hcode⟩ :=
    exists_function_code Ty.stable_known h hwritten hcheck config hf
  exact ⟨c, front, back, hc, hcode, f.all_resolved h hcheck config (by simp [hf]) _⟩

/-! ### A sample -/

/-- The nodes of a unit in which names are hidden: a variable by one whose initial value mentions
it, an argument by a variable in the body of a loop, and a variable of the loop has the name of one
that the unit declares later. -/
def hidingNodes : Array Node := #[
  ⟨1, .variableDeclaration .private .int ["x"] none⟩,
  ⟨2, .variableDeclaration .private .int ["n"] none⟩,
  ⟨3, .variable "x"⟩, ⟨3, .rvalue (.ofIndex 2)⟩, ⟨3, .variable "n"⟩, ⟨3, .rvalue (.ofIndex 4)⟩,
  ⟨3, .binary .add (.ofIndex 3) (.ofIndex 5)⟩,
  ⟨3, .variableDeclaration .private .int ["x"] (some (.ofIndex 6))⟩,
  ⟨4, .integer 0⟩, ⟨4, .variableDeclaration .private .int ["i"] (some (.ofIndex 8))⟩,
  ⟨4, .variable "i"⟩, ⟨4, .rvalue (.ofIndex 10)⟩, ⟨4, .variable "n"⟩, ⟨4, .rvalue (.ofIndex 12)⟩,
  ⟨4, .binary .lt (.ofIndex 11) (.ofIndex 13)⟩,
  ⟨4, .variable "i"⟩, ⟨4, .variable "i"⟩, ⟨4, .rvalue (.ofIndex 16)⟩, ⟨4, .integer 1⟩,
  ⟨4, .binary .add (.ofIndex 17) (.ofIndex 18)⟩, ⟨4, .assignment (.ofIndex 15) (.ofIndex 19)⟩,
  ⟨5, .variable "i"⟩, ⟨5, .rvalue (.ofIndex 21)⟩, ⟨5, .functionCall "f" [.ofIndex 22]⟩,
  ⟨5, .variableDeclaration .private .int ["n"] (some (.ofIndex 23))⟩,
  ⟨6, .variable "x"⟩, ⟨6, .variable "n"⟩, ⟨6, .rvalue (.ofIndex 26)⟩,
  ⟨6, .assignment (.ofIndex 25) (.ofIndex 27)⟩,
  ⟨6, .evaluation (.ofIndex 28)⟩, ⟨4, .block [.ofIndex 24] [.ofIndex 29]⟩,
  ⟨4, .forLoop [.ofIndex 9] (some (.ofIndex 14)) [.ofIndex 20] (.ofIndex 30)⟩,
  ⟨7, .variable "x"⟩, ⟨7, .rvalue (.ofIndex 32)⟩, ⟨7, .return (some (.ofIndex 33))⟩,
  ⟨2, .block [.ofIndex 7] [.ofIndex 31, .ofIndex 34]⟩,
  ⟨2, .functionDefinition .private .int "f" [.ofIndex 1] (.ofIndex 35)⟩,
  ⟨8, .variableDeclaration .private .int ["i"] none⟩,
  ⟨9, .program [.ofIndex 0, .ofIndex 36, .ofIndex 37]⟩]

/-- The declaration is of a function with its body. -/
def Decl.hasBody : Decl → Bool
  | .define _ => true
  | .variable _ | .declare _ => false

/-- In the value of the assignment in the body of the loop, `n` is the variable that is declared
there. -/
theorem names_resolved_alike_hiding :
    ∃ t T σ, SyntaxTree.ofNodes hidingNodes (.ofIndex 38) = .ok t ∧
    Typing.checkTree t = .ok (T, σ) ∧ (∃ w ∈ t.coded T σ .default, ∃ site place inner v,
      w.expr = .assignment site place (.rvalue inner (.variable v "n")) ∧ ∃ c ∈ t.checked, ∃ b,
        c.scene "n" = some b ∧ w.scene "n" = some b ∧ b.node = .ofIndex 24) ∧
    ∃ before f after, t.declarations = before ++ .define f :: after ∧
      (f.outline T .default σ.scope (Decl.labelCountOfAll before)).All
        (Piece.Resolved t T σ .default f) := by
  have hok : (SyntaxTree.ofNodes hidingNodes (.ofIndex 38)).toOption.any (fun t =>
      (Typing.checkTree t).toOption.any fun r => t.declarations.any Decl.hasBody &&
        (t.coded r.1 r.2 .default).any fun w =>
          match w.expr with
          | .assignment _ _ (.rvalue _ (.variable _ name)) =>
            decide (name = "n" ∧ (w.scene "n").map Bound.node = some (.ofIndex 24))
          | _ => false) = true := by
    decide +kernel
  obtain ⟨t, ht, hok⟩ := any_toOption.mp hok
  obtain ⟨⟨T, σ⟩, hcheck, hok⟩ := any_toOption.mp hok
  obtain ⟨hfunction, hok⟩ := Bool.and_eq_true_iff.mp hok
  obtain ⟨hcoded, hcode⟩ := names_resolved_alike ht hcheck .default
  refine ⟨t, T, σ, ht, hcheck, ?_, ?_⟩
  · obtain ⟨w, hw, hok⟩ := List.any_eq_true.mp hok
    split at hok
    · rename_i site place inner v name hexpr
      obtain ⟨rfl, hnode⟩ := of_decide_eq_true hok
      have hpart : (Expr.variable v "n").Part w.expr := by
        rw [hexpr]
        exact .inside (List.mem_cons_of_mem _ List.mem_cons_self) (.inside List.mem_cons_self .self)
      obtain ⟨b, ⟨c, hc, -, -, hcb⟩, hwb, -⟩ := hcoded w hw _ _ hpart rfl
      rw [hwb] at hnode
      exact ⟨w, hw, site, place, inner, v, hexpr, c, hc, b, hcb, hwb, Option.some.inj hnode⟩
    · cases hok
  · obtain ⟨d, hd, hd'⟩ := List.any_eq_true.mp hfunction
    cases d with
    | define f =>
      obtain ⟨before, after, hds⟩ := List.append_of_mem hd
      obtain ⟨-, -, -, -, -, hall⟩ := hcode before f after hds
      exact ⟨before, f, after, hds, hall⟩
    | «variable» | declare => cases hd'

end PostfixCompiler
