import PostfixCompiler.Flow

/-!
# Control followed statement by statement

The exits of a statement (`PostfixCompiler.Stmt.exits`) are put together from the exits of its
parts. They can also be found on a walk through the statements in their order, which keeps
**marks**: how control left the last statement, and how many loops are open. A loop counts as closed
again on every way out of its body, and the walk through a function begins with fresh marks; so one
set of marks serves for function after function, whatever became of those before.

## Main definitions

* `PostfixCompiler.Flow.Marks`, and `PostfixCompiler.Flow.TrackM`, a part of a walk.
* `PostfixCompiler.Stmt.track`: the walk through a statement.
* `PostfixCompiler.Function.track`: the walk through a function, which checks its flow.
-/

namespace PostfixCompiler

namespace Flow

/-- What is kept on a walk through statements. -/
structure Marks where
  /-- How control left the last statement. -/
  exits : Exits
  /-- The number of loops around the next statement. -/
  loops : Nat
deriving DecidableEq

/-- The marks at the start of a function. -/
def Marks.fresh : Marks := ⟨.through, 0⟩

/-- A part of a walk. The marks are there also when it meets a fault. -/
abbrev TrackM := EStateM Error Marks

/-- Sets down how control leaves a statement. -/
def leave (exits : Exits) : TrackM Unit := modify fun m => { m with exits }

/-- The body of a loop, which is one more open loop until it is left, by a fault or not. -/
def inLoop (body : TrackM Unit) : TrackM Unit := fun m =>
  match body ⟨.through, m.loops + 1⟩ with
  | .ok () m => .ok () { m with loops := m.loops - 1 }
  | .error e m => .error e { m with loops := m.loops - 1 }

/-- The next statement, which must be reached. -/
def reach (s : Stmt) : TrackM Unit := do
  match s.reachable (← get).exits with
  | .ok () => pure ()
  | .error e => throw e

/-- A jump, which must stand in a loop. -/
def jump (line : UInt32) (f : FlowFault) : TrackM Unit := do
  let m ← get
  if m.loops = 0 then throw (.flow line f)
  leave { m.exits with jumps := true }

end Flow

open PostfixCompiler.Flow

namespace Stmt

mutual

/-- The walk through a statement. -/
def track : Stmt → TrackM Unit
  | .block _ _ body => do
    leave .through
    trackAll body
  | .return _ _ => leave .byReturn
  | .break site => jump site.line .breakOutsideLoop
  | .continue site => jump site.line .continueOutsideLoop
  | .ifThen _ _ t => do
    t.track
    leave .through
  | .ifElse _ _ t e => do
    t.track
    let a := (← get).exits
    leave .through
    e.track
    let b := (← get).exits
    leave (a.either b)
  | .forLoop _ _ _ _ body => do
    inLoop body.track
    leave .through
  | .evaluation .. | .write .. => pure ()

/-- The walk through statements, each of which must be reached. -/
def trackAll : List Stmt → TrackM Unit
  | [] => pure ()
  | s :: rest => do
    reach s
    s.track
    trackAll rest

end

end Stmt

/-- The walk through a function whose result has type `returnType`. -/
def Function.track (f : Function) (returnType : Ty) : TrackM Unit := do
  set Marks.fresh
  f.body.stmt.track
  if returnType ≠ .void ∧ !(← get).exits.returns then
    throw (.flow f.signature.line (.missingReturn f.signature.name))

/-- The walk through a phrase, which must be a function with its body. -/
def Phrase.track (p : Phrase) (returnType : Ty) : TrackM Unit :=
  match p.function? with
  | some f => f.track returnType
  | none => throw (.internal (.flowOf p.kind))

end PostfixCompiler
