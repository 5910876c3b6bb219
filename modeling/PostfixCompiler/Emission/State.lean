import PostfixCompiler.Config
import PostfixCompiler.Error.Report
import PostfixCompiler.Frame.Layout
import PostfixCompiler.Frame.Mode
import PostfixCompiler.Postfix.Instr
import PostfixCompiler.Symbol.Table

/-!
# The state of code being written

Code is written from the front to the back. What is written stays written, also when a fault ends
the writing. Beside the code itself the state holds the symbols with their places, so that names can
be looked up again in the scopes in which they were checked.

## Main definitions

* `PostfixCompiler.Emission.State`, and `PostfixCompiler.Emission.EmitM`, a computation on it.
* `PostfixCompiler.Emission.Context`: what is fixed in a function, or in a loop of it.
* `PostfixCompiler.Emission.emit`, `PostfixCompiler.Emission.newLabel`.
* `PostfixCompiler.Config.labelOf`: the label of a symbol.
-/

namespace PostfixCompiler

/-- The label of a symbol of the unit. The function in which the program starts has the label that
the linker looks for, and a function that happens to be named like that label has to give way. -/
def Config.labelOf (c : Config) (s : Symbol) : String :=
  if !s.isFunction then s.name
  else if s.name = c.entryPoint then c.entrySymbol
  else if s.name = c.entrySymbol then "." ++ s.name
  else s.name

namespace Emission

/-- Where the jumps of a loop go. -/
structure LoopLabels where
  /-- The increments, where `continue` goes. -/
  increment : String
  /-- Behind the loop, where `break` goes. -/
  done : String

/-- What is fixed while the code of a function, or of a loop in it, is written. -/
structure Context where
  /-- The types of the nodes. -/
  types : TypeTable
  /-- The settings. -/
  config : Config
  /-- The frame of the function. -/
  frame : FrameLayout
  /-- The type of its result. -/
  returnType : Ty
  /-- The labels of the innermost loop. -/
  loop : Option LoopLabels

/-- The state of code being written. -/
structure State where
  /-- The code so far. -/
  code : Array Instr
  /-- How many labels were made up so far. -/
  labels : Nat
  /-- The symbols, with the places of those that are in a frame. -/
  symbols : SymbolTable
  /-- Where the local variables declared so far end, from the frame pointer. -/
  cursor : Int
  /-- The slots that the code of the current function uses. -/
  slots : List NodeId
  /-- The runtime functions that are called, each once. -/
  helpers : List String

/-- No code yet, and the symbols that the check left behind. -/
def State.start (symbols : SymbolTable) : State := ⟨#[], 0, symbols, 0, [], []⟩

/-- A part of the writing. The state is there also when it fails. -/
abbrev EmitM := EStateM Error State

/-- The passes before should have refused the program. -/
def fault {α : Type} (f : InternalFault) : EmitM α := throw (.internal f)

/-- An answer, or the fault instead of one. -/
def orFault {α : Type} : Except InternalFault α → EmitM α
  | .ok a => pure a
  | .error f => fault f

/-- The type of a node. -/
def Context.typeOf (cx : Context) (id : NodeId) : EmitM Ty := orFault (cx.types.expect id)

/-! ### Code -/

/-- Writes an instruction. -/
def emit (i : Instr) : EmitM Unit := modify fun s => { s with code := s.code.push i }

/-- Writes instructions. -/
def emitAll : List Instr → EmitM Unit
  | [] => pure ()
  | i :: is => do
    emit i
    emitAll is

/-- The `n`-th label that is made up. -/
def labelName (n : Nat) : String := "_L" ++ toString n

/-- A label that was not made up before. -/
def newLabel : EmitM String := do
  let n := (← get).labels + 1
  modify fun s => { s with labels := n }
  pure (labelName n)

/-- Writes a call of a runtime function. -/
def callHelper (name : String) : EmitM Unit := do
  modify fun s =>
    { s with helpers := if s.helpers.contains name then s.helpers else name :: s.helpers }
  emit (.call name)

/-- Drops bytes from the stack. -/
def trash (n : Nat) : EmitM Unit := if n = 0 then pure () else emit (.trash n)

/-- Adds an offset to the address on the stack. -/
def addOffset (n : Nat) : EmitM Unit := if n = 0 then pure () else emitAll [.int n, .add]

/-! ### Places -/

/-- Where the slot of a node is. The slot counts as used. -/
def Context.slotOf (cx : Context) (id : NodeId) : EmitM Int :=
  match cx.frame.slotOffset? id with
  | none => fault (.slotMissing id)
  | some offset => do
    modify fun s => { s with slots := id :: s.slots }
    pure offset

/-- Where the slot of an expression is, if it needs one in the given mode. -/
def Context.ownSlot (cx : Context) (e : Expr) (mode : Mode) : EmitM (Option Int) := do
  match ← orFault (e.charge cx.types mode) with
  | none => pure none
  | some _ => do
    let offset ← cx.slotOf e.id
    pure (some offset)

/-- Gives a variable of a function its place. -/
def place (name : String) (t : Ty) (line : UInt32) (offset : Int) : EmitM Unit :=
  modify fun s =>
    let symbol := { Symbol.ofVariable name .private t line with offset, defined := true }
    { s with symbols := (s.symbols.define symbol).2 }

/-- Work in a scope of its own, which is left on every way out. -/
def inScope {α : Type} (work : EmitM α) : EmitM α := fun s =>
  match work { s with symbols := s.symbols.enter } with
  | .ok a s => .ok a { s with symbols := s.symbols.exit }
  | .error e s => .error e { s with symbols := s.symbols.exit }

/-! ### What operands leave on the stack -/

/-- An operand whose value is wanted must have left one. -/
def wantValue (e : Expr) (left : Mode) : EmitM Unit :=
  match left with
  | .value => pure ()
  | .address => fault (.addressForValue e.id)

/-- An operand whose address is wanted must have left one. -/
def wantAddress (e : Expr) (left : Mode) : EmitM Unit :=
  match left with
  | .address => pure ()
  | .value => fault (.valueForAddress e.id)

end Emission

end PostfixCompiler
