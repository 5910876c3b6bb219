import PostfixCompiler.Emission.State

/-!
# Variables of the unit

A variable of the unit has a label of its own. Without initializer it is a number of bytes; with one
it is the image of a literal, leaf by leaf from the lowest address. The texts of a literal are laid
down before it, each under a label that is made up, and the image holds their addresses. The labels
are made up in the order of the texts, so the image can count along.

## Main definitions

* `PostfixCompiler.Expr.layTexts`: lays down the texts of a literal.
* `PostfixCompiler.Expr.layImage`: lays down a literal as a value of a given type.
* `PostfixCompiler.VarDecl.lay`: lays down the variables of a declaration.
-/

namespace PostfixCompiler

open Emission

namespace Expr

mutual

/-- Lays down the texts of a literal. -/
def layTexts : Expr → EmitM Unit
  | .string _ s => do
    let label ← newLabel
    emitAll [.rodata, .align, .label label, .staticString s]
  | .tuple _ es => layTextsOfAll es
  | _ => pure ()

/-- Lays down the texts of literals, one after the other. -/
def layTextsOfAll : List Expr → EmitM Unit
  | [] => pure ()
  | e :: es => do
    e.layTexts
    layTextsOfAll es

end

mutual

/-- Lays down a literal as a value of type `target`. The texts in it have the labels from number
`next` on; returns the number behind the last of them. -/
def layImage (next : Nat) (target : Ty) (e : Expr) : EmitM Nat :=
  match e with
  | .integer _ n => do
    emit (if target = .double then .staticDouble (.ofInt n.toInt) else .staticInt n.toInt)
    pure next
  | .double _ d => do
    emit (.staticDouble d)
    pure next
  | .nullptr _ => do
    emit (.staticInt 0)
    pure next
  | .string _ _ => do
    emit (.staticAddress (labelName next))
    pure (next + 1)
  | .tuple _ [element] => element.layImage next target
  | .tuple site elements =>
    if target.components.length = elements.length then
      layImageOfAll next target.components elements
    else fault (.shapeMismatch site.id target)
  | e => fault (.notStatic e.kind)

/-- Lays down literals as values of the given types, one after the other. -/
def layImageOfAll (next : Nat) (targets : List Ty) (es : List Expr) : EmitM Nat :=
  match targets, es with
  | t :: ts, e :: es => do
    let next ← e.layImage next t
    layImageOfAll next ts es
  | _, _ => pure next

end

/-- The elements of a tuple, inside the one-element tuples around it. -/
def literalElements : Expr → EmitM (List Expr)
  | .tuple _ [element] => element.literalElements
  | .tuple _ elements => pure elements
  | e => fault (.notALiteralTuple e.kind)

end Expr

namespace VarDecl

/-- What each variable of a declaration starts with. -/
def initialValues (d : VarDecl) : EmitM (List (Option Expr)) :=
  match d.initializer with
  | none => pure (d.names.map fun _ => none)
  | some init =>
    if d.names.length = 1 then pure [some init]
    else do
      let es ← init.literalElements
      pure (es.map some)

/-- The start of a variable: its segment, and its label. -/
def layHead (d : VarDecl) (segment : Instr) (name : String) : EmitM Unit := do
  emitAll [segment, .align]
  if d.qualifier = .public then emit (.global name .object)
  emit (.label name)

/-- Lays down a variable. -/
def layVariable (d : VarDecl) (name : String) (t : Ty) (value : Option Expr) : EmitM Unit :=
  match value with
  | none => do
    d.layHead .bss name
    emit (.staticBytes t.size)
  | some e => do
    let next := (← get).labels + 1
    e.layTexts
    d.layHead .data name
    let _ ← e.layImage next t

/-- Lays down variables. -/
def layEach (d : VarDecl) : List String → List Ty → List (Option Expr) → EmitM Unit
  | name :: names, t :: ts, value :: values => do
    d.layVariable name t value
    layEach d names ts values
  | _, _, _ => pure ()

/-- Lays down the variables of a declaration, unless another unit does. -/
def lay (d : VarDecl) (types : TypeTable) : EmitM Unit := do
  if d.qualifier = .require then pure ()
  else
    let t ← orFault (types.expect d.id)
    let values ← d.initialValues
    if values.length = d.names.length then
      d.layEach d.names (if d.names.length = 1 then [t] else t.components) values
    else fault (.notDestructurable d.id)

end VarDecl

end PostfixCompiler
