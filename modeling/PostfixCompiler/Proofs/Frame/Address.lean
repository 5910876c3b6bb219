import PostfixCompiler.Proofs.Frame.Access
import PostfixCompiler.Proofs.Scope.Resolve

/-!
# Addresses of variables

The writer does not keep a mark that says whether a variable belongs to the unit or to the frame of
a function: a variable whose offset is zero is taken to belong to the unit. Arguments lie above the
frame pointer and behind what the caller has put there, and a local variable ends at the frame
pointer or below, so only a local variable without any bytes can have the offset zero. Every other
variable of a function is addressed by way of the frame pointer, with the offset that is reserved
for its declaration, and the address that a label stands for is only taken of variables that the
unit declares.

## Main definitions

* `PostfixCompiler.Function.Addresses`: the code that pushes the address of a variable.

## Main statements

* `PostfixCompiler.Function.offset_of_local`, `PostfixCompiler.Function.offset_of_argument`: where
  variables are.
* `PostfixCompiler.variables_addressed`: a variable with at least one byte is addressed by the
  offset of its declaration.
-/

namespace PostfixCompiler

open Emission

/-! ### Offsets -/

namespace Function

variable {T : TypeTable} {f : Function} {q : VarDecl × Int} {v : String × Ty × Int}

/-- **A local variable ends at the frame pointer or below.** -/
theorem offset_of_local (hq : q ∈ f.locals T) (hv : v ∈ q.1.places (T.typeOf q.1.id) q.2) :
    v.2.2 + v.2.1.size ≤ 0 := by
  have hwithin := stacked_locals.within _ (List.mem_map_of_mem (f := VarDecl.area T) hq)
  have hplace := q.1.places_within _ _ v hv
  simp only [VarDecl.area, Area.stop] at hwithin
  omega

/-- **An argument starts above the frame pointer**, behind the return address and the frame pointer
of the caller. -/
theorem offset_of_argument (hq : q ∈ f.arguments T) (hv : v ∈ q.1.places (T.typeOf q.1.id) q.2) :
    8 ≤ v.2.2 := by
  have harea : VarDecl.area T q ∈ (f.argumentAreas T).reverse :=
    List.mem_reverse.mpr (List.mem_map_of_mem hq)
  have hwithin := stacked_arguments.1.within _ harea
  have hplace := q.1.places_within _ _ v hv
  have hstart : 8 ≤ f.argumentsStart T := by
    unfold argumentsStart
    split <;> omega
  simp only [VarDecl.area] at hwithin
  omega

/-! ### Addresses -/

/-- **The code that pushes the address of a variable** whose name is bound to a declaration: of one
that belongs to the unit the address of its label, and of any other the address in the frame that is
reserved for it. Only for a variable without any bytes that lies right at the frame pointer a label
is used instead, which nothing declares. -/
inductive Addresses (ds : List Decl) (T : TypeTable) (config : Config)
    (scope : View Symbol) (f : Function) (name : String) (b : Bound) : List Instr → Prop where
  /-- A variable of the unit. -/
  | unit {d : Decl} {s : Symbol} (hd : d ∈ ds) (hnode : d.id = b.node) (hs : scope name = some s)
    (hmeaning : b.meaning = s.meaning) :
      Addresses ds T config scope f name b [.address (config.labelOf s)]
  /-- An argument or a local variable. -/
  | frame {q : VarDecl × Int} {v : String × Ty × Int} (hq : q ∈ f.arguments T ++ f.locals T)
    (hnode : q.1.id = b.node) (hv : v ∈ q.1.places (T.typeOf q.1.id) q.2) (hname : v.1 = name)
    (hmeaning : b.meaning = .variable v.2.1) (hoffset : v.2.2 ≠ 0) :
    Addresses ds T config scope f name b [.frameAddress v.2.2]
  /-- A local variable without any bytes at the frame pointer. -/
  | empty {q : VarDecl × Int} {v : String × Ty × Int} (hq : q ∈ f.locals T)
      (hnode : q.1.id = b.node)
    (hv : v ∈ q.1.places (T.typeOf q.1.id) q.2) (hname : v.1 = name)
      (hmeaning : b.meaning = .variable v.2.1)
    (hoffset : v.2.2 = 0) (hsize : v.2.1.size = 0) :
    Addresses ds T config scope f name b [.address (config.labelOf (Symbol.placed q.1.line v))]

/-- The instruction that pushes the address of a name is what the declaration of its symbol asks
for. -/
theorem Declares.addresses {ds : List Decl} {config : Config} {scope view : View Symbol}
    (hglobal : ∀ name s, scope name = some s → s.isGlobal = true) {name : String}
    {b : Bound} {s : Symbol} (hview : view name = some s) (h : f.Declares ds T scope name b s) :
    f.Addresses ds T config scope name b [variableInstr config view name] := by
  rw [variableInstr, hview]
  cases h with
  | unit hd hnode hs hmeaning =>
    simp only [hglobal name s hs, if_true]
    exact .unit hd hnode hs hmeaning
  | @frame q v hq hnode hv hname hmeaning =>
    -- The writer asks for the offset only, and an argument never has the offset zero.
    have hisGlobal : (Symbol.placed q.1.line v).isGlobal = decide (v.2.2 = 0) := rfl
    simp only [hisGlobal, decide_eq_true_eq]
    by_cases hoffset : v.2.2 = 0
    · rw [if_pos hoffset]
      rcases List.mem_append.mp hq with hq | hq
      · have habove := offset_of_argument hq hv
        rw [hoffset] at habove
        exact absurd habove (by decide)
      · have hbelow := offset_of_local hq hv
        exact .empty hq hnode hv hname hmeaning hoffset (by omega)
    · rw [if_neg hoffset]
      exact .frame hq hnode hv hname hmeaning hoffset

/-- The instruction that pushes the address of a name is what the place of its declaration asks
for. -/
theorem addresses_of_places {t : SyntaxTree} {σ : SymbolTable} {config : Config}
    (hglobal : ∀ name s, σ.scope name = some s → s.isGlobal = true) {Γ : Scene} {view : View Symbol}
    (h : (f.source T config σ.scope (σ.scene t.origins)).Places Γ view) {name : String} {b : Bound}
    (hb : Γ name = some b) :
    f.Addresses t.declarations T config σ.scope name b [variableInstr config view name] := by
  obtain ⟨s, hview, hs⟩ := declares_of_places h hb
  exact hs.addresses hglobal hview

end Function

/-- What a piece of an expression is made of. -/
theorem Expr.code_inner {cx : Context} {view : View Symbol} {mode : Mode} {n : Nat}
    {e : Expr} {p : Piece} {inner : Outline} (h : e.outline cx view mode n = .piece p inner) :
    inner.code = (e.outline cx view mode n).code := by
  rw [h, Outline.code_piece]

/-- A piece that is a variable is one instruction. -/
theorem Expr.code_variable {cx : Context} {view : View Symbol} {mode : Mode} {n : Nat} {site : Site}
    {name : String} {p : Piece} {inner : Outline}
    (h : (Expr.variable site name).outline cx view mode n = .piece p inner) :
    inner.code = [variableInstr cx.config view name] := by
  rw [Expr.code_inner h, outline, Outline.code_piece, Outline.code_ofCode]

/-! ### Units -/

/-- **A variable is addressed by way of its declaration**: where a piece is a variable, it is part
of an expression in the body of its function, and its code is that of the declaration which its name
is bound to there. -/
def Piece.Addressed (t : SyntaxTree) (T : TypeTable) (σ : SymbolTable) (config : Config)
    (f : Function) (p : Piece) (inner : Outline) : Prop :=
  ∀ mode view site name, p = .expression mode view (.variable site name) →
    ∃ o ∈ f.occurrences T (σ.scene t.origins), (Expr.variable site name).Part o.expr ∧
      ∃ b, o.scene name = some b ∧ f.Addresses t.declarations T config σ.scope name b inner.code

/-- **Wherever the code of a function pushes the address of a variable, it is that of the
declaration which its name is bound to there**: the offset that is reserved for an argument or a
local variable, and the label of a variable of the unit. The one exception is a local variable
without any bytes that lies at the frame pointer. -/
theorem variables_addressed {nodes : Array Node} {root : NodeId} {t : SyntaxTree}
    (h : SyntaxTree.ofNodes nodes root = .ok t) {T : TypeTable} {σ : SymbolTable}
    (hcheck : Typing.checkTree t = .ok (T, σ)) (config : Config)
    {before after : List Decl} {f : Function} (hf : t.declarations = before ++ .define f :: after) :
    ∃ (c : Compilation) (front back : List Instr), compile t config = .ok c ∧
      c.code = front ++ (f.outline T config σ.scope (Decl.labelCountOfAll before)).code ++ back ∧
      (f.outline T config σ.scope (Decl.labelCountOfAll before)).All
        (Piece.Addressed t T σ config f) := by
  have hwritten : ∀ d ∈ t.declarations, ∀ u ∈ d.writtenTypes, Typing.Written Ty.Known u :=
    fun _ _ _ _ h => h
  have haccepted := (Typing.checkTree_outcome Ty.stable_known h hwritten).1 T σ hcheck
  obtain ⟨-, -, -, c, front, back, hc, hcode⟩ :=
    exists_function_code Ty.stable_known h hwritten hcheck config hf
  have hmem : Decl.define f ∈ t.declarations := by simp [hf]
  obtain ⟨hstem, htyped⟩ := f.stems_of_checked h hcheck config hmem (Decl.labelCountOfAll before)
  refine ⟨c, front, back, hc, hcode, hstem.imp ?_⟩
  rintro _ inner hp mode view site name rfl
  obtain ⟨o, ho, hpart, hplaces, cx, n, hcx, heq⟩ := hp
  -- The occurrence is typed in its scene, so the name of its part is bound there.
  obtain ⟨meaning, hmeaning, -⟩ := ((htyped o ho).part hpart).finds rfl
  obtain ⟨b, hb, rfl⟩ := Option.map_eq_some_iff.mp hmeaning
  have hconfig : cx.config = config := Source.config_eq hcx
  refine ⟨o, ho, hpart, b, hb, ?_⟩
  rw [Expr.code_variable heq, hconfig]
  exact Function.addresses_of_places (fun name s hs => haccepted.global name s hs) hplaces hb

theorem variables_addressed_sample :
    ∃ t T σ f c, SyntaxTree.ofNodes sampleNodes (.ofIndex 21) = .ok t ∧
    Typing.checkTree t = .ok (T, σ) ∧ t.declarations = [.define f] ∧ compile t .default = .ok c ∧
    (f.outline T .default σ.scope 0).All (Piece.Addressed t T σ .default f) := by
  obtain ⟨t, T, σ, f, ht, hcheck, hf, -⟩ := exists_sample_function
  have hf' : t.declarations = [] ++ .define f :: [] := hf
  obtain ⟨c, front, back, hc, -, haddressed⟩ := variables_addressed ht hcheck .default hf'
  exact ⟨t, T, σ, f, c, ht, hcheck, hf, hc, haddressed⟩

/-- The nodes of a unit with one function, and in it a variable without any bytes whose address is
taken. -/
def emptyNodes : Array Node := #[
  ⟨1, .variableDeclaration .private (.tuple []) ["x"] none⟩,
  ⟨1, .variable "x"⟩, ⟨1, .addressOf (.ofIndex 1)⟩, ⟨1, .evaluation (.ofIndex 2)⟩,
  ⟨1, .integer 0⟩, ⟨1, .return (some (.ofIndex 4))⟩,
  ⟨1, .block [.ofIndex 0] [.ofIndex 3, .ofIndex 5]⟩,
  ⟨1, .functionDefinition .private .int "f" [] (.ofIndex 6)⟩, ⟨1, .program [.ofIndex 7]⟩]

/-- **A local variable may be taken for one of the unit**: `x` is the only variable, it is local,
and its address is pushed as that of a label. -/
theorem local_taken_for_global : ∃ t T σ f c, SyntaxTree.ofNodes emptyNodes (.ofIndex 8) = .ok t ∧
    Typing.checkTree t = .ok (T, σ) ∧ t.declarations = [.define f] ∧
    (f.locals T).map (fun q => (q.1.names, q.2)) = [(["x"], 0)] ∧ compile t .default = .ok c ∧
    Instr.address "x" ∈ c.code ∧ ∀ offset, Instr.frameAddress offset ∉ c.code := by
  have hok : (SyntaxTree.ofNodes emptyNodes (.ofIndex 8)).toOption.any (fun t =>
      (Typing.checkTree t).toOption.any fun r => t.onlyFunction?.any fun f =>
        (compile t .default).toOption.any fun c =>
        decide ((f.locals r.1).map (fun q => (q.1.names, q.2)) = [(["x"], 0)] ∧
          c.code = [.text, .align, .label "f",
          .enter 0, .address "x", .trash 4, .int 0, .storeResultInt, .leave, .return])) = true := by
    decide +kernel
  obtain ⟨t, ht, hok⟩ := any_toOption.mp hok
  obtain ⟨⟨T, σ⟩, hcheck, hok⟩ := any_toOption.mp hok
  obtain ⟨f, hf, hok⟩ := (Option.any_eq_true _ _).mp hok
  obtain ⟨c, hc, hok⟩ := any_toOption.mp hok
  obtain ⟨hlocals, hcode⟩ := of_decide_eq_true hok
  refine ⟨t, T, σ, f, c, ht, hcheck, SyntaxTree.onlyFunction?_eq_some.mp hf, hlocals, hc, ?_, ?_⟩
  · simp [hcode]
  · simp [hcode]

end PostfixCompiler
