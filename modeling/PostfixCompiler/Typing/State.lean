import PostfixCompiler.Error.Report
import PostfixCompiler.Symbol.Table
import PostfixCompiler.Syntax.Phrase
import PostfixCompiler.Typing.Table

/-!
# The state of the type checker

The checker writes types into a table, keeps the symbols of the open scopes, and knows the function
whose body it is in. An error ends the check and leaves the state as it was found, but for the
scopes: those that the check opened are closed on the way out.

## Main definitions

* `PostfixCompiler.Typing.State`, and `PostfixCompiler.Typing.CheckM`, a computation on it.
* `PostfixCompiler.Typing.inScope`, `PostfixCompiler.Typing.inFunction`: what is undone on every
  way out.
* `PostfixCompiler.Typing.once`: a node that has a final type is not checked again.
-/

namespace PostfixCompiler.Typing

/-- A call in the body of a function of open type to that function itself. -/
structure SelfCall where
  /-- The line of the call. -/
  line : UInt32
  /-- The type of the result as far as it was known there. -/
  seen : Ty

/-- The state of the checker. -/
structure State where
  /-- The types found so far. -/
  types : TypeTable
  /-- The symbols declared so far, and the open scopes. -/
  symbols : SymbolTable
  /-- The function whose body is being checked. -/
  function : Option SymbolId
  /-- The calls of that function in its own body. -/
  selfCalls : List SelfCall

/-- No symbols, outside of functions. -/
def State.start (types : TypeTable) : State := ⟨types, .empty, none, []⟩

/-- A part of the check. The state is there also when it fails. -/
abbrev CheckM := EStateM Error State

/-- The program is ill-typed. -/
def fault {α : Type} (line : UInt32) (f : TypeFault) : CheckM α := throw (.type line f)

/-- The fault, unless the condition holds. -/
def require (line : UInt32) (condition : Bool) (f : TypeFault) : CheckM Unit :=
  if condition then pure () else fault line f

/-! ### Types of nodes -/

/-- Records the type of a node. -/
def setType (id : NodeId) (ty : Ty) : CheckM Unit :=
  modify fun s => { s with types := s.types.set id ty }

/-- The type of a node that must have one by now. -/
def typeOf (id : NodeId) : CheckM Ty := do
  match (← get).types.expect id with
  | .ok ty => pure ty
  | .error f => throw (.internal f)

/-- The type of a node: the final type that its slot holds, or what `check` finds, which is then
recorded. -/
def once (id : NodeId) (check : CheckM Ty) : CheckM Ty := do
  if (← get).types.isTyped id then typeOf id
  else
    let ty ← check
    setType id ty
    pure ty

/-! ### Symbols and scopes -/

/-- Adds a symbol to the innermost scope. -/
def define (s : Symbol) : CheckM SymbolId := do
  let st ← get
  let (id, symbols) := st.symbols.define s
  set { st with symbols }
  pure id

/-- Changes a symbol. -/
def modifySymbol (id : SymbolId) (f : Symbol → Symbol) : CheckM Unit :=
  modify fun s => { s with symbols := s.symbols.modify id f }

/-- Work in a scope of its own, which is left on every way out. -/
def inScope {α : Type} (work : CheckM α) : CheckM α := fun s =>
  match work { s with symbols := s.symbols.enter } with
  | .ok a s => .ok a { s with symbols := s.symbols.exit }
  | .error e s => .error e { s with symbols := s.symbols.exit }

/-- Work in the body of a function. On every way out the function around it, if any, is the current
one again, and the calls of the function in its own body are forgotten. The calls are returned. -/
def inFunction (function : SymbolId) (work : CheckM Unit) : CheckM (List SelfCall) := fun s =>
  match work { s with function := some function } with
  | .ok _ t => .ok t.selfCalls { t with function := s.function, selfCalls := [] }
  | .error e t => .error e { t with function := s.function, selfCalls := [] }

end PostfixCompiler.Typing
