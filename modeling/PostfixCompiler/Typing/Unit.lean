import PostfixCompiler.Flow
import PostfixCompiler.Typing.Statement

/-!
# Types of a unit

The declarations of a unit are checked in order, so a function can only be called behind its first
declaration. When the body of a function is checked, the type of its result is final, and the flow
of its body is checked against it.

## Main definitions

* `PostfixCompiler.Function.check`: declares a function and checks its body.
* `PostfixCompiler.Typing.checkUnit`: checks declarations from a given table, and keeps the state
  that a fault leaves behind.
* `PostfixCompiler.Typing.checkTree`: checks a tree from an empty table.
-/

namespace PostfixCompiler

open Typing

/-- Declarations of arguments in the body of their function. -/
def Typing.checkAsArguments : List VarDecl → CheckM Unit
  | [] => pure ()
  | d :: ds => do
    d.checkAsArgument
    checkAsArguments ds

namespace Function

/-- The arguments and the body of a function, in a scope of their own. -/
def checkBody (f : Function) : CheckM Unit := inScope do
  checkAsArguments f.signature.arguments
  f.body.stmt.check

/-- Declares a function and checks its body. -/
def check (f : Function) : CheckM Unit := do
  let s := f.signature
  let id ← s.check true
  modifySymbol id fun symbol => { symbol with defined := true }
  let calls ← inFunction id f.checkBody
  match (← get).symbols.get? id with
  | none => throw (.internal (.neverDeclared s.name))
  | some symbol =>
    let returnType := symbol.type
    require s.line (returnType ≠ .auto) (.returnTypeUnknown s.name)
    match calls.find? fun c => c.seen ≠ returnType with
    | some c => fault c.line (.returnTypeChanged s.name)
    | none => pure ()
    setType s.id returnType
    match f.checkFlow returnType with
    | .ok () => pure ()
    | .error e => throw e

end Function

/-- Checks a declaration of the unit. -/
def Decl.check : Decl → CheckM Unit
  | .variable d => d.check
  | .declare s => do
    let _ ← s.check false
  | .define f => f.check

namespace Typing

/-- Checks declarations of the unit one after the other. -/
def checkDecls : List Decl → CheckM Unit
  | [] => pure ()
  | d :: ds => do
    d.check
    checkDecls ds

/-- What a check leaves behind: whether it found a fault, and the types and symbols found in either
case. -/
structure Checked where
  /-- The fault, if there is one. -/
  error? : Option Error
  /-- The types. -/
  types : TypeTable
  /-- The symbols. -/
  symbols : SymbolTable

/-- Checks declarations, starting with the types in a table. -/
def checkUnit (ds : List Decl) (types : TypeTable) : Checked :=
  match checkDecls ds (.start types) with
  | .ok () s => ⟨none, s.types, s.symbols⟩
  | .error e s => ⟨some e, s.types, s.symbols⟩

/-- The types and symbols of a tree, or the first fault in it. -/
def checkTree (t : SyntaxTree) : Except Error (TypeTable × SymbolTable) :=
  let o := checkUnit t.declarations (.ofSize t.size)
  match o.error? with
  | none => .ok (o.types, o.symbols)
  | some e => .error e

end Typing

end PostfixCompiler
