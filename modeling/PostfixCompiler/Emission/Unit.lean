import PostfixCompiler.Emission.Statement
import PostfixCompiler.Emission.Static
import PostfixCompiler.Frame.Usage

/-!
# Code for a unit

The declarations of a unit are written in order. Behind them come the labels that other units have
to place: the runtime functions that are called, the functions that are declared and not defined,
and the variables that the unit requires.

## Main definitions

* `PostfixCompiler.Function.code`: writes a function and returns its frame.
* `PostfixCompiler.Emission.codeUnit`: writes declarations, and keeps the code that a fault leaves
  behind.

When a function is written, the slots that its code used must be those that its frame has.
-/

namespace PostfixCompiler

open Emission

namespace Emission

/-- Ids in ascending order, each once. -/
def sortedIds (ids : List NodeId) : List NodeId :=
  (ids.mergeSort fun a b => a.index ≤ b.index).eraseDups

/-- Names in ascending order, each once. -/
def sortedNames (names : List String) : List String :=
  (names.mergeSort fun a b => a ≤ b).eraseDups

/-- The label is placed in another unit. -/
def isForeign (s : Symbol) : Bool := (s.isFunction && !s.defined) || s.qualifier = .require

/-- The labels that other units have to place. -/
def foreignLabels (config : Config) (s : State) : List String :=
  sortedNames (s.helpers ++ (s.symbols.globals.filter isForeign).map config.labelOf)

end Emission

namespace Function

/-- Writes the arguments and the body of a function, in a scope of their own. -/
def codeBody (cx : Context) (f : Function) : EmitM Unit := inScope do
  let first := if cx.returnType.isTuple then argumentsOffset + Ty.wordSize else argumentsOffset
  VarDecl.codeAsArguments cx first f.signature.arguments
  f.body.stmt.code cx
  if cx.returnType = .void then emitAll [.leave, .return]

/-- Writes a function and returns its frame. -/
def code (types : TypeTable) (config : Config) (f : Function) : EmitM FrameLayout := do
  let name := f.signature.name
  let returnType ← orFault (types.expect f.signature.id)
  let frame ← orFault (f.layout types)
  match (← get).symbols.resolve? name with
  | none => fault (.neverDeclared name)
  | some (_, s) => do
    let label := config.labelOf s
    emitAll [.text, .align]
    if f.signature.qualifier = .public then emit (.global label .function)
    emitAll [.label label, .enter frame.frameSize]
    modify fun s => { s with cursor := 0, slots := [] }
    f.codeBody { types, config, frame, returnType, loop := none }
    let reserved := sortedIds (frame.slots.map Slot.node)
    let used := sortedIds (← get).slots
    if reserved ≠ used then fault (.slotsDiffer name reserved used)
    pure frame

end Function

namespace Emission

/-- Writes declarations one after the other, and returns the frames of the functions among them. -/
def codeDecls (types : TypeTable) (config : Config) : List Decl → EmitM (List FrameLayout)
  | [] => pure []
  | .variable d :: rest => do
    d.lay types
    codeDecls types config rest
  | .declare _ :: rest => codeDecls types config rest
  | .define f :: rest => do
    let frame ← f.code types config
    let frames ← codeDecls types config rest
    pure (frame :: frames)

/-- Writes declarations, and behind them the labels that other units have to place. -/
def codeProgram (types : TypeTable) (config : Config) (ds : List Decl) :
    EmitM (List FrameLayout) := do
  let frames ← codeDecls types config ds
  emitAll ((foreignLabels config (← get)).map .external)
  pure frames

/-- What writing leaves behind: the frames or a fault, and the code so far in either case. -/
structure Written where
  /-- The frames of the functions, or the fault. -/
  frames : Except Error (List FrameLayout)
  /-- The code. -/
  code : List Instr

/-- Writes declarations whose nodes and names have the given types and symbols. -/
def codeUnit (types : TypeTable) (symbols : SymbolTable) (config : Config) (ds : List Decl) :
    Written :=
  match codeProgram types config ds (.start symbols) with
  | .ok frames s => ⟨.ok frames, s.code.toList⟩
  | .error e s => ⟨.error e, s.code.toList⟩

end Emission

end PostfixCompiler
