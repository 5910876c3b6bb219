import PostfixCompiler.Emission.Expr

/-!
# Code for statements

The code of a statement leaves the stack as it found it. Local variables get their places in the
order of their declarations, from the frame pointer down; a variable is bound behind the code of
its initializer, as it was when names were checked.

## Main definitions

* `PostfixCompiler.VarDecl.code`: declares local variables and writes their initial values.
* `PostfixCompiler.Stmt.code`: the code of a statement.

A loop is written as its condition, its body and its increments, with a jump back to the condition.
If the condition is a tuple, its last component is tested: it is put aside into a slot, the tuple
is dropped, and the component is fetched back.
-/

namespace PostfixCompiler

open Emission

/-! ### Local variables -/

namespace VarDecl

/-- Where the variables of a declaration are, if the first byte is at `offset`. -/
def places (d : VarDecl) (t : Ty) (offset : Int) : List (String × Ty × Int) :=
  match d.names, t with
  | [name], t => [(name, t, offset)]
  | names, .tuple ts => go names ts offset
  | names, t => go names [t] offset
where
  /-- Consecutive places for variables of the given types. -/
  go : List String → List Ty → Int → List (String × Ty × Int)
    | name :: names, t :: ts, offset => (name, t, offset) :: go names ts (offset + t.size)
    | _, _, _ => []

/-- Binds variables to their places. -/
def placeEach (line : UInt32) : List (String × Ty × Int) → EmitM Unit
  | [] => pure ()
  | (name, t, offset) :: rest => do
    place name t line offset
    placeEach line rest

/-- Declares local variables and writes their initial values. -/
def code (cx : Context) (d : VarDecl) : EmitM Unit := do
  let t ← cx.typeOf d.id
  let offset := (← get).cursor - t.size
  modify fun s => { s with cursor := offset }
  match d.initializer with
  | none => pure ()
  | some init => do
    init.pushValue cx
    let source ← cx.typeOf init.id
    store (Base.frame offset).push t source 0
  placeEach d.line (d.places t offset)

/-- Declares local variables one after the other. -/
def codeAll (cx : Context) : List VarDecl → EmitM Unit
  | [] => pure ()
  | d :: ds => do
    d.code cx
    codeAll cx ds

/-- Declares an argument whose first byte is at `offset`, and returns where the next one is. -/
def codeAsArgument (cx : Context) (d : VarDecl) (offset : Int) : EmitM Int := do
  let t ← cx.typeOf d.id
  placeEach d.line (d.names.map fun name => (name, t, offset))
  pure (offset + t.size)

/-- Declares arguments that lie one after the other. -/
def codeAsArguments (cx : Context) (offset : Int) : List VarDecl → EmitM Unit
  | [] => pure ()
  | d :: ds => do
    let next ← d.codeAsArgument cx offset
    codeAsArguments cx next ds

end VarDecl

/-! ### Parts of statements -/

namespace Emission

/-- Where the first argument is, from the frame pointer: behind the return address and the frame
pointer of the caller. -/
def argumentsOffset : Int := 8

/-- The runtime function that prints a value of a scalar type. -/
def printHelper : Ty → String
  | .double => "printd"
  | .string => "prints"
  | _ => "printi"

/-- Prints the leaves of a value and drops them. -/
def printLeaves : List Ty → EmitM Unit
  | [] => pure ()
  | t :: ts => do
    callHelper (printHelper t)
    trash t.size
    printLeaves ts

/-- Prints values. -/
def printAll (cx : Context) : List Expr → EmitM Unit
  | [] => pure ()
  | e :: es => do
    e.pushValue cx
    let t ← cx.typeOf e.id
    printLeaves t.leaves
    printAll cx es

/-- Evaluates expressions for their effects. -/
def dropAll (cx : Context) : List Expr → EmitM Unit
  | [] => pure ()
  | e :: es => do
    e.dropValue cx
    dropAll cx es

/-- What a loop does before its first round. -/
def initLoop (cx : Context) : List LoopInit → EmitM Unit
  | [] => pure ()
  | .declare d :: rest => do
    d.code cx
    initLoop cx rest
  | .evaluate e :: rest => do
    e.dropValue cx
    initLoop cx rest

/-- Leaves the last word of a tuple of `size` bytes in place of the tuple, by way of a slot. -/
def keepLast (size : Nat) (slot : Int) : List Instr :=
  [.stackPointer, .int ((size : Int) - Ty.wordSize), .add, .loadInt, .frameAddress slot, .storeInt,
    .trash size, .frameAddress slot, .loadInt]

/-- Leaves the loop `id` at the label `done` if its condition is zero. -/
def testLoop (cx : Context) (id : NodeId) (done : String) : Option Expr → EmitM Unit
  | none => pure ()
  | some c => do
    c.pushValue cx
    match ← orFault (cx.types.loopCharge (some c.id)) with
    | none => pure ()
    | some _ => do
      let t ← cx.typeOf c.id
      let slot ← cx.slotOf id
      emitAll (keepLast t.size slot)
    emit (.jumpIfZero done)

/-- Hands over the result of a function. A tuple goes to the address that the caller passed, which
is kept in the frame while the value is computed. -/
def returnValue (cx : Context) (value : Expr) : EmitM Unit := do
  let source ← cx.typeOf value.id
  match cx.returnType with
  | .tuple _ => do
    let slot := cx.frame.returnTempOffset
    emitAll [.frameAddress argumentsOffset, .loadInt, .frameAddress slot, .storeInt]
    value.pushValue cx
    store (Base.pinned slot).push cx.returnType source 0
  | .double => do
    value.pushValue cx
    if source = .int then emit .intToDouble
    emit .storeResultDouble
  | _ => do
    value.pushValue cx
    emit .storeResultInt

end Emission

/-! ### Statements -/

namespace Stmt

mutual

/-- Writes the code of a statement. -/
def code (cx : Context) : Stmt → EmitM Unit
  | .block _ ds body => inScope do
    VarDecl.codeAll cx ds
    codeAll cx body
  | .evaluation _ e => e.dropValue cx
  | .write _ args newline => do
    printAll cx args
    if newline then callHelper "println"
  | .ifThen _ c t => do
    let done ← newLabel
    c.pushValue cx
    emit (.jumpIfZero done)
    t.code cx
    emit (.label done)
  | .ifElse _ c t e => do
    let otherwise ← newLabel
    let done ← newLabel
    c.pushValue cx
    emit (.jumpIfZero otherwise)
    t.code cx
    emitAll [.jump done, .label otherwise]
    e.code cx
    emit (.label done)
  | .forLoop site inits c incs body => inScope do
    initLoop cx inits
    let top ← newLabel
    let increment ← newLabel
    let done ← newLabel
    emit (.label top)
    testLoop cx site.id done c
    body.code { cx with loop := some ⟨increment, done⟩ }
    emit (.label increment)
    dropAll cx incs
    emitAll [.jump top, .label done]
  | .break _ =>
    match cx.loop with
    | some l => emit (.jump l.done)
    | none => fault .breakOutsideLoop
  | .continue _ =>
    match cx.loop with
    | some l => emit (.jump l.increment)
    | none => fault .continueOutsideLoop
  | .return _ value => do
    match value with
    | some v => returnValue cx v
    | none => pure ()
    emitAll [.leave, .return]

/-- Writes the code of statements one after the other. -/
def codeAll (cx : Context) : List Stmt → EmitM Unit
  | [] => pure ()
  | s :: rest => do
    s.code cx
    codeAll cx rest

end

end Stmt

end PostfixCompiler
