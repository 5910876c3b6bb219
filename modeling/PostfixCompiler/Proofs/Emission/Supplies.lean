import PostfixCompiler.Emission.Unit
import PostfixCompiler.Proofs.Frame.Usage

/-!
# What code draws on

Beside the stack the code of a phrase draws on two things that stand elsewhere: on slots of the
frame of its function, and on functions of the runtime. Both are read off the phrase and the types
of its nodes. A number that is read from the input, each leaf of a value that is printed and the end
of a printed line are called for, and an expression whose size alone is wanted is not evaluated, so
it calls for nothing.

## Main definitions

* `PostfixCompiler.Expr.helpers`, `PostfixCompiler.Stmt.helpers`, `PostfixCompiler.Decl.helpers`:
  the functions of the runtime that the code of a phrase calls.
* `PostfixCompiler.Emission.Supplies`: slots and functions of the runtime.
* `PostfixCompiler.Expr.supplies`, `PostfixCompiler.Stmt.supplies`: what the code of a phrase draws
  on.
-/

namespace PostfixCompiler

open Emission

/-! ### Functions of the runtime -/

/-- The function of the runtime that reads a number of a type. -/
def Emission.inputHelper (t : Ty) : String := if t = .double then "readd" else "readi"

namespace Expr

mutual

/-- **The functions of the runtime that the code of an expression calls**: those that read a
number. -/
def helpers (T : TypeTable) : Expr → List String
  | .input s => [inputHelper (T.typeOf s.id)]
  | .integer .. | .double .. | .string .. | .nullptr _ | .variable .. | .sizeof .. => []
  | .pointerIndex _ b i => b.helpers T ++ i.helpers T
  | .tupleIndex _ b _ => b.helpers T
  | .rvalue _ p => p.helpers T
  | .assignment _ p v => v.helpers T ++ p.helpers T
  | .unary _ _ a => a.helpers T
  | .binary _ _ l r => l.helpers T ++ r.helpers T
  | .addressOf _ p => p.helpers T
  | .stackAlloc _ n => n.helpers T
  | .tuple _ es => helpersOfAll T es
  | .call _ _ args => helpersOfAll T args

/-- The functions of the runtime that the code of expressions calls. -/
def helpersOfAll (T : TypeTable) : List Expr → List String
  | [] => []
  | e :: es => e.helpers T ++ helpersOfAll T es

end

/-- The functions of the runtime that the code of an expression calls, if there is one. -/
def helpersOfOption (T : TypeTable) : Option Expr → List String
  | none => []
  | some e => e.helpers T

/-- The functions of the runtime that print the leaves of values. -/
def printHelpers (T : TypeTable) (es : List Expr) : List String :=
  es.flatMap fun e => (e.type T).leaves.map printHelper

end Expr

namespace VarDecl

/-- The functions of the runtime that the code of local declarations calls. -/
def helpersOfAll (T : TypeTable) (ds : List VarDecl) : List String :=
  ds.flatMap fun d => Expr.helpersOfOption T d.initializer

end VarDecl

namespace LoopInit

/-- The functions of the runtime that the code of a step before the first round of a loop calls. -/
def helpers (T : TypeTable) : LoopInit → List String
  | .declare d => Expr.helpersOfOption T d.initializer
  | .evaluate e => e.helpers T

/-- The functions of the runtime that the code before the first round of a loop calls. -/
def helpersOfAll (T : TypeTable) (is : List LoopInit) : List String := is.flatMap (helpers T)

end LoopInit

namespace Stmt

mutual

/-- **The functions of the runtime that the code of a statement calls**: those that read a number or
print one. -/
def helpers (T : TypeTable) : Stmt → List String
  | .block _ ds body => VarDecl.helpersOfAll T ds ++ helpersOfAll T body
  | .evaluation _ e => e.helpers T
  | .write _ args newline =>
    Expr.helpersOfAll T args ++ Expr.printHelpers T args ++ if newline then ["println"] else []
  | .ifThen _ c t => c.helpers T ++ t.helpers T
  | .ifElse _ c t e => c.helpers T ++ t.helpers T ++ e.helpers T
  | .forLoop _ inits c incs body =>
    LoopInit.helpersOfAll T inits ++ Expr.helpersOfOption T c ++
      Expr.helpersOfAll T incs ++ body.helpers T
  | .break _ | .continue _ => []
  | .return _ v => Expr.helpersOfOption T v

/-- The functions of the runtime that the code of statements calls. -/
def helpersOfAll (T : TypeTable) : List Stmt → List String
  | [] => []
  | s :: ss => s.helpers T ++ helpersOfAll T ss

end

end Stmt

namespace Decl

/-- **The functions of the runtime that the code of a declaration of the unit calls.** -/
def helpers (T : TypeTable) : Decl → List String
  | .variable _ | .declare _ => []
  | .define f => f.body.stmt.helpers T

/-- The functions of the runtime that the code of declarations of the unit calls. -/
def helpersOfAll (T : TypeTable) (ds : List Decl) : List String := ds.flatMap (helpers T)

end Decl

/-! ### Slots and functions of the runtime -/

namespace Emission

/-- **What code draws on**: slots of the frame, and functions of the runtime. -/
structure Supplies where
  /-- The slots. -/
  slots : List NodeId
  /-- The functions of the runtime. -/
  helpers : List String

namespace Supplies

/-- Nothing. -/
def none : Supplies := ⟨[], []⟩

/-- Slots alone. -/
def ofSlots (ids : List NodeId) : Supplies := ⟨ids, []⟩

/-- A function of the runtime. -/
def ofHelper (name : String) : Supplies := ⟨[], [name]⟩

instance : Append Supplies := ⟨fun a b => ⟨a.slots ++ b.slots, a.helpers ++ b.helpers⟩⟩

/-- The same slots and functions are drawn on, in whatever order. -/
def Same (a b : Supplies) : Prop :=
  (∀ id, id ∈ a.slots ↔ id ∈ b.slots) ∧ ∀ name, name ∈ a.helpers ↔ name ∈ b.helpers

theorem Same.refl (a : Supplies) : a.Same a := ⟨fun _ => Iff.rfl, fun _ => Iff.rfl⟩

@[simp] theorem slots_none : none.slots = [] := rfl

@[simp] theorem helpers_none : none.helpers = [] := rfl

@[simp] theorem slots_ofSlots (ids : List NodeId) : (ofSlots ids).slots = ids := rfl

@[simp] theorem helpers_ofSlots (ids : List NodeId) : (ofSlots ids).helpers = [] := rfl

@[simp] theorem slots_ofHelper (name : String) : (ofHelper name).slots = [] := rfl

@[simp] theorem helpers_ofHelper (name : String) : (ofHelper name).helpers = [name] := rfl

@[simp] theorem slots_append (a b : Supplies) : (a ++ b).slots = a.slots ++ b.slots := rfl

@[simp] theorem helpers_append (a b : Supplies) : (a ++ b).helpers = a.helpers ++ b.helpers := rfl

end Supplies

end Emission

namespace Expr

/-- What the code of an expression draws on. -/
def supplies (T : TypeTable) (mode : Mode) (e : Expr) : Supplies :=
  ⟨(e.usage T mode).nodes, e.helpers T⟩

/-- What the code of expressions whose values are wanted draws on. -/
def suppliesOfAll (T : TypeTable) (es : List Expr) : Supplies :=
  ⟨(usageOfAll T es).nodes, helpersOfAll T es⟩

/-- A value in parentheses draws on what the value draws on. -/
theorem supplies_singleton (T : TypeTable) (mode : Mode) (site : Site) (e : Expr) :
    (tuple site [e]).supplies T mode = e.supplies T mode := by
  rw [supplies, supplies, usage, helpers, helpersOfAll, helpersOfAll, List.append_nil]

end Expr

/-- What the code of a local declaration draws on. -/
def VarDecl.supplies (T : TypeTable) (d : VarDecl) : Supplies :=
  ⟨(d.usage T).nodes, Expr.helpersOfOption T d.initializer⟩

/-- What the code of local declarations draws on. -/
def VarDecl.suppliesOfAll (T : TypeTable) (ds : List VarDecl) : Supplies :=
  ⟨(usageOfAll T ds).nodes, helpersOfAll T ds⟩

/-- What the code of a step before the first round of a loop draws on. -/
def LoopInit.supplies (T : TypeTable) (i : LoopInit) : Supplies := ⟨(i.usage T).nodes, i.helpers T⟩

/-- What the code before the first round of a loop draws on. -/
def LoopInit.suppliesOfAll (T : TypeTable) (is : List LoopInit) : Supplies :=
  ⟨(usageOfAll T is).nodes, helpersOfAll T is⟩

/-- What the code of a statement draws on. -/
def Stmt.supplies (T : TypeTable) (s : Stmt) : Supplies := ⟨(s.usage T).nodes, s.helpers T⟩

/-- A jump draws on nothing. -/
theorem Stmt.supplies_jump (T : TypeTable) (site : Site) :
    (Stmt.break site).supplies T = .none ∧ (Stmt.continue site).supplies T = .none := by
  rw [supplies, supplies, usage, usage, helpers, helpers]
  exact ⟨rfl, rfl⟩

/-- What the code of statements draws on. -/
def Stmt.suppliesOfAll (T : TypeTable) (ss : List Stmt) : Supplies :=
  ⟨(usageOfAll T ss).nodes, helpersOfAll T ss⟩

end PostfixCompiler
