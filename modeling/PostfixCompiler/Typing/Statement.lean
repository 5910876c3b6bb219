import PostfixCompiler.Typing.Declaration

/-!
# Types of statements

The parts of a statement are checked in the order in which they are carried out, each block and each
loop in a scope of its own. The returns of a function with an open type decide its type together:
each one refines what the ones before it left.

## Main definitions

* `PostfixCompiler.Typing.checkReturn`: a return, in the function that is current.
* `PostfixCompiler.Stmt.check`: a statement.
-/

namespace PostfixCompiler

open Typing

namespace Typing

/-- A value that decides whether something is done: an integer. -/
def checkCondition (e : Expr) : CheckM Unit := do
  let t ← e.checkKnown
  require e.line (t = .int) (.conditionNotInteger t)

/-- The condition of a loop: its last component is the tested one. -/
def checkLoopCondition : Option Expr → CheckM Unit
  | none => pure ()
  | some e => do
    let t ← e.checkKnown
    require e.line (t.components.getLast? = some .int) (.loopConditionNotInteger t)

/-- Values that are printed. -/
def checkPrinted : List Expr → CheckM Unit
  | [] => pure ()
  | e :: es => do
    let t ← e.checkKnown
    require e.line t.isPrintable (.notPrintable t)
    checkPrinted es

/-- Expressions that are evaluated for their effects. -/
def checkEvaluated : List Expr → CheckM Unit
  | [] => pure ()
  | e :: es => do
    let _ ← e.checkKnown
    checkEvaluated es

/-- What a loop does before its first round. -/
def checkLoopInits : List LoopInit → CheckM Unit
  | [] => pure ()
  | .declare d :: rest => do
    d.check
    checkLoopInits rest
  | .evaluate e :: rest => do
    let _ ← e.checkKnown
    checkLoopInits rest

/-- Declarations of local variables. -/
def checkDeclarations : List VarDecl → CheckM Unit
  | [] => pure ()
  | d :: ds => do
    d.check
    checkDeclarations ds

/-- The value of a return from the function `s`: it must fit the type of the result, or, where that
is left open, unify with the returns before it. -/
def checkReturned (id : SymbolId) (s : Symbol) (value : Expr) : CheckM Unit := do
  let _ ← value.check
  value.adapt s.type
  let t ← typeOf value.id
  require value.line (t ≠ .void ∧ !t.containsAuto) (.returnTypeRefused t)
  if s.isAuto then
    match s.type.compatible? .inference t with
    | some unified => modifySymbol id fun s => { s with type := unified }
    | none => fault value.line (.returnsConflict t s.type s.name)
  else
    require value.line (s.type.compatible? .assignment t).isSome
      (.returnMismatch t s.name s.type)

/-- A return, in the function that is current. -/
def checkReturn (site : Site) (value : Option Expr) : CheckM Unit := do
  let st ← get
  match st.function.bind fun id => (st.symbols.get? id).map fun s => (id, s) with
  | none => fault site.line .returnOutsideFunction
  | some (id, s) =>
    match value with
    | none => require site.line (s.type = .void) (.returnNeedsValue s.name)
    | some v => do
      require site.line (s.type ≠ .void) (.returnOfValue s.name)
      checkReturned id s v

end Typing

namespace Stmt

mutual

/-- Checks a statement. -/
def check : Stmt → CheckM Unit
  | .block _ ds body => inScope do
    checkDeclarations ds
    checkAll body
  | .evaluation _ e => do
    let _ ← e.checkKnown
  | .write _ args _ => checkPrinted args
  | .ifThen _ c t => do
    checkCondition c
    t.check
  | .ifElse _ c t e => do
    checkCondition c
    t.check
    e.check
  | .forLoop _ inits c incs body => inScope do
    checkLoopInits inits
    checkLoopCondition c
    checkEvaluated incs
    body.check
  | .break _ | .continue _ => pure ()
  | .return site value => checkReturn site value

/-- Checks statements one after the other. -/
def checkAll : List Stmt → CheckM Unit
  | [] => pure ()
  | s :: rest => do
    s.check
    checkAll rest

end

end Stmt

end PostfixCompiler
