import PostfixCompiler.Symbol.Basic

/-!
# Symbol tables

A symbol table keeps every symbol that was ever defined, and a stack of **scopes** that bind names
to symbols. Leaving a scope drops its bindings; the symbols stay, because types and code still refer
to them. The global scope is never left.

## Main definitions

* `PostfixCompiler.Scope`: a finite map from names to symbols.
* `PostfixCompiler.SymbolTable`, with `enter`, `exit`, `define`, `modify`.
* `PostfixCompiler.SymbolTable.lookup?`: the innermost binding of a name.
* `PostfixCompiler.SymbolTable.globals`: the symbols of the global scope, by name.
* `PostfixCompiler.SymbolTable.inScope`: work inside a scope of its own, which is left whatever the
  outcome of the work is.
-/

namespace PostfixCompiler

/-- The index of a symbol in the order of definition. -/
structure SymbolId where
  /-- The index. -/
  index : Nat
deriving DecidableEq

/-- The names bound in a scope, each once. -/
abbrev Scope := List (String × SymbolId)

namespace Scope

/-- The symbol that a name is bound to. -/
def find? (s : Scope) (name : String) : Option SymbolId := s.lookup name

/-- Binds a name, in place of an earlier binding of the same name. -/
def bind (s : Scope) (name : String) (id : SymbolId) : Scope :=
  (name, id) :: s.filter (·.1 ≠ name)

end Scope

/-- The symbols of a unit and the scopes that bind them. -/
structure SymbolTable where
  /-- All symbols, in the order of definition. -/
  symbols : Array Symbol
  /-- The scopes inside the global one, the innermost first. -/
  locals : List Scope
  /-- The global scope. -/
  global : Scope

namespace SymbolTable

/-- No symbols, in the global scope. -/
def empty : SymbolTable := ⟨#[], [], []⟩

/-! ### Scopes -/

/-- The scopes that a name is looked up in, in this order. -/
def scopes (t : SymbolTable) : List Scope := t.locals ++ [t.global]

/-- Only the global scope is open. -/
def isGlobalScope (t : SymbolTable) : Bool := t.locals.isEmpty

/-- Opens a scope inside the others. -/
def enter (t : SymbolTable) : SymbolTable := { t with locals := [] :: t.locals }

/-- Closes the innermost scope, unless only the global one is open. -/
def exit (t : SymbolTable) : SymbolTable := { t with locals := t.locals.tail }

/-- Work inside a scope of its own: the scope is left behind it, also if the work fails. -/
def inScope {α : Type} (work : SymbolTable → α × SymbolTable) (t : SymbolTable) :
    α × SymbolTable :=
  let (a, t) := work t.enter
  (a, t.exit)

/-! ### Symbols -/

/-- Adds a symbol and binds its name in the innermost scope. Returns the index of the symbol. -/
def define (t : SymbolTable) (s : Symbol) : SymbolId × SymbolTable :=
  let id : SymbolId := ⟨t.symbols.size⟩
  let t := { t with symbols := t.symbols.push s }
  match t.locals with
  | [] => (id, { t with global := t.global.bind s.name id })
  | scope :: rest => (id, { t with locals := scope.bind s.name id :: rest })

/-- The symbol with the given index. -/
def get? (t : SymbolTable) (id : SymbolId) : Option Symbol := t.symbols[id.index]?

/-- Changes a symbol. -/
def modify (t : SymbolTable) (id : SymbolId) (f : Symbol → Symbol) : SymbolTable :=
  { t with symbols := t.symbols.modify id.index f }

/-! ### Names -/

/-- The innermost binding of a name. -/
def lookup? (t : SymbolTable) (name : String) : Option SymbolId :=
  t.scopes.findSome? (·.find? name)

/-- The binding of a name in the innermost scope. -/
def lookupLocal? (t : SymbolTable) (name : String) : Option SymbolId :=
  (t.locals.headD t.global).find? name

/-- The symbol that a name stands for, with its index. -/
def resolve? (t : SymbolTable) (name : String) : Option (SymbolId × Symbol) := do
  let id ← t.lookup? name
  let s ← t.get? id
  pure (id, s)

/-- The symbol that a name stands for in the innermost scope, with its index. -/
def resolveLocal? (t : SymbolTable) (name : String) : Option (SymbolId × Symbol) := do
  let id ← t.lookupLocal? name
  let s ← t.get? id
  pure (id, s)

/-- The symbols of the global scope, in the order of their names. -/
def globals (t : SymbolTable) : List Symbol :=
  let bindings := t.global.mergeSort fun a b => a.1 ≤ b.1
  bindings.filterMap fun b => t.get? b.2

end SymbolTable

end PostfixCompiler
