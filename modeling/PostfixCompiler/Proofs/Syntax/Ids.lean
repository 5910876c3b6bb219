import PostfixCompiler.Syntax.Phrase

/-!
# The nodes of a phrase, and their positions

A phrase is made of nodes. Two things about its nodes are what the passes rely on: no id occurs
twice, and every operand is what its consumer can use – a place where storage is wanted and a value
everywhere else.

## Main definitions

* `PostfixCompiler.Expr.ids` and its relatives: the ids of all nodes of a phrase, its own first.
* `PostfixCompiler.Decl.names`: the names that a declaration introduces.
* `PostfixCompiler.Decl.writtenTypes` and its relatives: the types of all declarations in a phrase.
* `PostfixCompiler.Expr.WellPlaced` and its relatives: every node below is what the node above it
  needs there.
-/

namespace PostfixCompiler

/-! ### Ids -/

/-- Two ids with one index are the same. -/
theorem NodeId.index_injective {a b : NodeId} (h : a.index = b.index) : a = b := by
  cases a
  cases b
  exact congrArg NodeId.mk (UInt32.toNat_inj.mp h)

namespace Expr

mutual

/-- The ids of the nodes of an expression, its own first. -/
def ids : Expr → List NodeId
  | .integer s _ | .double s _ | .string s _ | .nullptr s | .input s | .variable s _ => [s.id]
  | .pointerIndex s b i => s.id :: (b.ids ++ i.ids)
  | .tupleIndex s b _ => s.id :: b.ids
  | .rvalue s p => s.id :: p.ids
  | .assignment s p v => s.id :: (p.ids ++ v.ids)
  | .unary s _ a => s.id :: a.ids
  | .binary s _ l r => s.id :: (l.ids ++ r.ids)
  | .addressOf s p => s.id :: p.ids
  | .stackAlloc s n => s.id :: n.ids
  | .sizeof s e => s.id :: e.ids
  | .tuple s es => s.id :: idsOfAll es
  | .call s _ args => s.id :: idsOfAll args

/-- The ids of the nodes of expressions, one expression after the other. -/
def idsOfAll : List Expr → List NodeId
  | [] => []
  | e :: es => e.ids ++ idsOfAll es

end

/-- The ids of the nodes of an expression, if there is one. -/
def idsOfOption : Option Expr → List NodeId
  | none => []
  | some e => e.ids

/-- The id of an expression is one of its ids. -/
theorem id_mem_ids (e : Expr) : e.id ∈ e.ids := by
  cases e <;> simp [ids, id, site]

theorem idsOfOption_eq_flatMap (e : Option Expr) : idsOfOption e = e.toList.flatMap ids := by
  cases e <;> simp [idsOfOption]

theorem idsOfAll_eq_flatMap (es : List Expr) : idsOfAll es = es.flatMap ids := by
  induction es with
  | nil => rfl
  | cons e es ih => rw [idsOfAll, ih, List.flatMap_cons]

end Expr

/-- The ids of the nodes of a declaration of variables. -/
def VarDecl.ids (d : VarDecl) : List NodeId := d.id :: Expr.idsOfOption d.initializer

/-- The ids of the nodes of declarations of variables. -/
def VarDecl.idsOfAll : List VarDecl → List NodeId
  | [] => []
  | d :: ds => d.ids ++ idsOfAll ds

theorem VarDecl.idsOfAll_eq_flatMap (ds : List VarDecl) : idsOfAll ds = ds.flatMap ids := by
  induction ds with
  | nil => rfl
  | cons d ds ih => rw [idsOfAll, ih, List.flatMap_cons]

/-- The ids of the nodes of what a loop does before its first round. -/
def LoopInit.ids : LoopInit → List NodeId
  | .declare d => d.ids
  | .evaluate e => e.ids

/-- The ids of the nodes of all that a loop does before its first round. -/
def LoopInit.idsOfAll : List LoopInit → List NodeId
  | [] => []
  | i :: is => i.ids ++ idsOfAll is

theorem LoopInit.idsOfAll_eq_flatMap (is : List LoopInit) : idsOfAll is = is.flatMap ids := by
  induction is with
  | nil => rfl
  | cons i is ih => rw [idsOfAll, ih, List.flatMap_cons]

namespace Stmt

mutual

/-- The ids of the nodes of a statement, its own first. -/
def ids : Stmt → List NodeId
  | .block s ds body => s.id :: (VarDecl.idsOfAll ds ++ idsOfAll body)
  | .evaluation s e => s.id :: e.ids
  | .write s args _ => s.id :: Expr.idsOfAll args
  | .ifThen s c t => s.id :: (c.ids ++ t.ids)
  | .ifElse s c t e => s.id :: (c.ids ++ (t.ids ++ e.ids))
  | .forLoop s inits c incs body =>
    s.id :: (LoopInit.idsOfAll inits ++ (Expr.idsOfOption c ++ (Expr.idsOfAll incs ++ body.ids)))
  | .break s | .continue s => [s.id]
  | .return s v => s.id :: Expr.idsOfOption v

/-- The ids of the nodes of statements, one statement after the other. -/
def idsOfAll : List Stmt → List NodeId
  | [] => []
  | s :: ss => s.ids ++ idsOfAll ss

end

theorem idsOfAll_eq_flatMap (ss : List Stmt) : idsOfAll ss = ss.flatMap ids := by
  induction ss with
  | nil => rfl
  | cons s ss ih => rw [idsOfAll, ih, List.flatMap_cons]

end Stmt

/-- The ids of the nodes of a function without its body. -/
def Signature.ids (s : Signature) : List NodeId := s.id :: VarDecl.idsOfAll s.arguments

/-- The ids of the nodes of a function. -/
def Function.ids (f : Function) : List NodeId := f.signature.ids ++ f.body.stmt.ids

/-- The ids of the nodes of a declaration of the unit. -/
def Decl.ids : Decl → List NodeId
  | .variable d => d.ids
  | .declare s => s.ids
  | .define f => f.ids

/-- The ids of the nodes of declarations of the unit. -/
def Decl.idsOfAll : List Decl → List NodeId
  | [] => []
  | d :: ds => d.ids ++ idsOfAll ds

theorem Decl.idsOfAll_eq_flatMap (ds : List Decl) : idsOfAll ds = ds.flatMap ids := by
  induction ds with
  | nil => rfl
  | cons d ds ih => rw [idsOfAll, ih, List.flatMap_cons]

/-- The ids of the nodes of a phrase, its own first. -/
def Phrase.ids : Phrase → List NodeId
  | .program s ds => s.id :: Decl.idsOfAll ds
  | .declaration d => d.ids
  | .statement s => s.ids
  | .expression e => e.ids

/-! ### Names -/

/-- The names that a declaration of the unit introduces. -/
def Decl.names : Decl → List String
  | .variable d => d.names
  | .declare s => [s.name]
  | .define f => [f.signature.name]

/-! ### Written types -/

/-- The types that are written in what a loop does before its first round. -/
def LoopInit.writtenTypes : LoopInit → List Ty
  | .declare d => [d.type]
  | .evaluate _ => []

namespace Stmt

mutual

/-- The types that are written in the declarations of a statement. -/
def writtenTypes : Stmt → List Ty
  | .block _ ds body => ds.map VarDecl.type ++ writtenTypesOfAll body
  | .ifThen _ _ t => t.writtenTypes
  | .ifElse _ _ t e => t.writtenTypes ++ e.writtenTypes
  | .forLoop _ inits _ _ body => inits.flatMap LoopInit.writtenTypes ++ body.writtenTypes
  | .evaluation .. | .write .. | .break _ | .continue _ | .return .. => []

/-- The types that are written in the declarations of statements. -/
def writtenTypesOfAll : List Stmt → List Ty
  | [] => []
  | s :: ss => s.writtenTypes ++ writtenTypesOfAll ss

end

end Stmt

/-- The types that are written in a function without its body. -/
def Signature.writtenTypes (s : Signature) : List Ty := s.returnType :: s.arguments.map VarDecl.type

/-- The types that are written in a declaration of the unit: of variables, arguments and results,
the local variables of functions included. -/
def Decl.writtenTypes : Decl → List Ty
  | .variable d => [d.type]
  | .declare s => s.writtenTypes
  | .define f => f.signature.writtenTypes ++ f.body.stmt.writtenTypes

/-! ### Positions -/

namespace Expr

mutual

/-- Below every node of the expression stands what the node needs there. -/
def WellPlaced : Expr → Prop
  | .integer .. | .double .. | .string .. | .nullptr _ | .input _ | .variable .. => True
  | .pointerIndex _ b i => (b.isPlace = false ∧ b.WellPlaced) ∧ (i.isPlace = false ∧ i.WellPlaced)
  | .tupleIndex _ b _ => b.WellPlaced
  | .rvalue _ p => p.isPlace = true ∧ p.WellPlaced
  | .assignment _ p v => (p.isPlace = true ∧ p.WellPlaced) ∧ (v.isPlace = false ∧ v.WellPlaced)
  | .unary _ _ a => a.isPlace = false ∧ a.WellPlaced
  | .binary _ _ l r => (l.isPlace = false ∧ l.WellPlaced) ∧ (r.isPlace = false ∧ r.WellPlaced)
  | .addressOf _ p => p.isPlace = true ∧ p.WellPlaced
  | .stackAlloc _ n => n.isPlace = false ∧ n.WellPlaced
  | .sizeof _ e => e.WellPlaced
  | .tuple _ es => AllValues es
  | .call _ _ args => AllValues args

/-- All of the expressions have a value, and in each everything is where it belongs. -/
def AllValues : List Expr → Prop
  | [] => True
  | e :: es => (e.isPlace = false ∧ e.WellPlaced) ∧ AllValues es

end

/-- The expression has a value, and in it everything is where it belongs. -/
def IsValue (e : Expr) : Prop := e.isPlace = false ∧ e.WellPlaced

theorem allValues_iff (es : List Expr) : AllValues es ↔ ∀ e ∈ es, e.IsValue := by
  induction es with
  | nil => simp [AllValues]
  | cons e es ih => rw [AllValues, ih, List.forall_mem_cons, IsValue]

/-- The expression has a value, if there is one. -/
def IsOptionalValue : Option Expr → Prop
  | none => True
  | some e => e.IsValue

theorem isOptionalValue_iff (e : Option Expr) : IsOptionalValue e ↔ ∀ a ∈ e, a.IsValue := by
  cases e <;> simp [IsOptionalValue]

end Expr

/-- The declaration names a variable, and its initializer has a value. -/
def VarDecl.WellPlaced (d : VarDecl) : Prop := d.names ≠ [] ∧ Expr.IsOptionalValue d.initializer

/-- What the loop does before its first round is a declaration or has a value. -/
def LoopInit.WellPlaced : LoopInit → Prop
  | .declare d => d.WellPlaced
  | .evaluate e => e.IsValue

namespace Stmt

mutual

/-- Below every node of the statement stands what the node needs there. -/
def WellPlaced : Stmt → Prop
  | .block _ ds body => (∀ d ∈ ds, d.WellPlaced) ∧ AllWellPlaced body
  | .evaluation _ e => e.IsValue
  | .write _ args _ => Expr.AllValues args
  | .ifThen _ c t => c.IsValue ∧ t.WellPlaced
  | .ifElse _ c t e => c.IsValue ∧ t.WellPlaced ∧ e.WellPlaced
  | .forLoop _ inits c incs body =>
    (∀ i ∈ inits, i.WellPlaced) ∧ Expr.IsOptionalValue c ∧ Expr.AllValues incs ∧ body.WellPlaced
  | .break _ | .continue _ => True
  | .return _ v => Expr.IsOptionalValue v

/-- In each of the statements everything is where it belongs. -/
def AllWellPlaced : List Stmt → Prop
  | [] => True
  | s :: ss => s.WellPlaced ∧ AllWellPlaced ss

end

theorem allWellPlaced_iff (ss : List Stmt) : AllWellPlaced ss ↔ ∀ s ∈ ss, s.WellPlaced := by
  induction ss with
  | nil => simp [AllWellPlaced]
  | cons s ss ih => rw [AllWellPlaced, ih, List.forall_mem_cons]

end Stmt

/-- In the arguments everything is where it belongs. -/
def Signature.WellPlaced (s : Signature) : Prop := ∀ d ∈ s.arguments, d.WellPlaced

/-- In the arguments and the body everything is where it belongs. -/
def Function.WellPlaced (f : Function) : Prop := f.signature.WellPlaced ∧ f.body.stmt.WellPlaced

/-- In the declaration everything is where it belongs. -/
def Decl.WellPlaced : Decl → Prop
  | .variable d => d.WellPlaced
  | .declare s => s.WellPlaced
  | .define f => f.WellPlaced

/-- In the phrase everything is where it belongs. -/
def Phrase.WellPlaced : Phrase → Prop
  | .program _ ds => ∀ d ∈ ds, d.WellPlaced
  | .declaration d => d.WellPlaced
  | .statement s => s.WellPlaced
  | .expression e => e.WellPlaced

end PostfixCompiler
