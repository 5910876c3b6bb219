import PostfixCompiler.Error.Report
import PostfixCompiler.Syntax.Phrase
import PostfixCompiler.Syntax.Tree

/-!
# Control flow

A statement may make sure that control does not reach the statement behind it: a return leaves the
function, a `break` and a `continue` leave the block. Nothing may follow such a statement in its
block, jumps stand in loops only, and a function with a result must not run off its end.

## Main definitions

* `PostfixCompiler.Exits`: how control leaves a statement, on all of its paths.
* `PostfixCompiler.Stmt.exits`: the exits of a statement, or the fault in it.
* `PostfixCompiler.Function.checkFlow`: a function in which control is in order.

A loop makes sure of nothing, since its body may never run or may leave it; and neither does a
statement under a condition.
-/

namespace PostfixCompiler

/-- How control leaves a statement, on all of its paths. -/
structure Exits where
  /-- Every path returns. -/
  returns : Bool
  /-- Every path leaves the block. -/
  jumps : Bool
deriving DecidableEq

namespace Exits

/-- Control reaches what follows. -/
def through : Exits := ⟨false, false⟩

/-- Control leaves the function. -/
def byReturn : Exits := ⟨true, true⟩

/-- Control leaves the block, not the function. -/
def byJump : Exits := ⟨false, true⟩

/-- Control takes one of two ways. -/
def either (a b : Exits) : Exits := ⟨a.returns && b.returns, a.jumps && b.jumps⟩

end Exits

namespace Stmt

/-- Nothing may follow a statement that control does not get past. -/
def reachable (before : Exits) (s : Stmt) : Except Error Unit :=
  if before.returns then .error (.flow s.line .afterReturn)
  else if before.jumps then .error (.flow s.line .afterJump)
  else .ok ()

mutual

/-- The exits of a statement, which stands in a loop or not. -/
def exits (inLoop : Bool) : Stmt → Except Error Exits
  | .block _ _ body => exitsOfAll inLoop .through body
  | .return _ _ => .ok .byReturn
  | .break site => if inLoop then .ok .byJump else .error (.flow site.line .breakOutsideLoop)
  | .continue site => if inLoop then .ok .byJump else .error (.flow site.line .continueOutsideLoop)
  | .ifThen _ _ t => do
    let _ ← t.exits inLoop
    pure .through
  | .ifElse _ _ t e => do
    let a ← t.exits inLoop
    let b ← e.exits inLoop
    pure (a.either b)
  | .forLoop _ _ _ _ body => do
    let _ ← body.exits true
    pure .through
  | .evaluation .. | .write .. => .ok .through

/-- The exits of the last of several statements, which stand behind something with the exits
`before`. -/
def exitsOfAll (inLoop : Bool) (before : Exits) : List Stmt → Except Error Exits
  | [] => .ok before
  | s :: rest => do
    reachable before s
    let after ← s.exits inLoop
    exitsOfAll inLoop after rest

end

end Stmt

/-- The flow of a function whose result has type `returnType`. -/
def Function.checkFlow (f : Function) (returnType : Ty) : Except Error Unit := do
  let exits ← f.body.stmt.exits false
  if returnType ≠ .void ∧ !exits.returns then
    throw (.flow f.signature.line (.missingReturn f.signature.name))

/-- The flow of a phrase, which must be a function with its body. -/
def Phrase.checkFlow (p : Phrase) (returnType : Ty) : Except Error Unit :=
  match p.function? with
  | some f => f.checkFlow returnType
  | none => .error (.internal (.flowOf p.kind))

end PostfixCompiler
