import PostfixCompiler.Error.Report
import PostfixCompiler.Frame.Layout
import PostfixCompiler.Frame.Mode

/-!
# The use of a frame

What a function needs of its frame is found before any code is written, by walking over its typed
body. Every phrase uses some bytes for local variables, some for the result of a call and some
slots; the use of a phrase is the use of its parts put together. Of the results of calls only the
largest counts, since they share one area.

## Main definitions

* `PostfixCompiler.FrameUsage`: what a phrase uses.
* `PostfixCompiler.Expr.frameUsage`, `PostfixCompiler.VarDecl.frameUsage`,
  `PostfixCompiler.Stmt.frameUsage`.
* `PostfixCompiler.Function.layout`: the frame of a function.
-/

namespace PostfixCompiler

/-- What a phrase uses of the frame. -/
structure FrameUsage where
  /-- The bytes of the variables that it declares. -/
  locals : Nat
  /-- The bytes of the largest tuple that one of its calls returns. -/
  callTemp : Nat
  /-- The nodes that need slots, with the bytes of each. -/
  charges : List (NodeId × Nat)

namespace FrameUsage

/-- Nothing. -/
def none : FrameUsage := ⟨0, 0, []⟩

/-- So many bytes of variables. -/
def ofLocals (n : Nat) : FrameUsage := ⟨n, 0, []⟩

/-- So many bytes for the result of a call. -/
def ofCall (n : Nat) : FrameUsage := ⟨0, n, []⟩

/-- A slot for a node, if it needs one. -/
def ofCharge (id : NodeId) : Option Nat → FrameUsage
  | some n => ⟨0, 0, [(id, n)]⟩
  | Option.none => none

/-- The use of two phrases, one after the other. -/
def append (a b : FrameUsage) : FrameUsage :=
  ⟨a.locals + b.locals, max a.callTemp b.callTemp, a.charges ++ b.charges⟩

instance : Append FrameUsage := ⟨append⟩

end FrameUsage

namespace Expr

/-- The use of the result of a call. -/
def callUsage (types : TypeTable) (id : NodeId) : Except InternalFault FrameUsage := do
  let t ← types.expect id
  pure (if t.isTuple then .ofCall t.size else .none)

mutual

/-- The use of an expression that is evaluated in `mode`. -/
def frameUsage (types : TypeTable) (mode : Mode) (e : Expr) : Except InternalFault FrameUsage := do
  let own := FrameUsage.ofCharge e.id (← e.charge types mode)
  match e with
  | .integer .. | .double .. | .string .. | .nullptr _ | .input _ | .variable .. => pure own
  | .sizeof .. => pure own
  | .pointerIndex _ base index => do
    let b ← base.frameUsage types .value
    let i ← index.frameUsage types .value
    pure (own ++ b ++ i)
  | .tupleIndex _ base _ => do
    let b ← base.frameUsage types .address
    pure (own ++ b)
  | .rvalue _ place => do
    let p ← place.frameUsage types .address
    pure (own ++ p)
  | .addressOf _ place => do
    let p ← place.frameUsage types .address
    pure (own ++ p)
  | .assignment _ place value => do
    let p ← place.frameUsage types .address
    let v ← value.frameUsage types .value
    pure (own ++ p ++ v)
  | .unary _ _ argument => do
    let a ← argument.frameUsage types .value
    pure (own ++ a)
  | .binary _ _ left right => do
    let l ← left.frameUsage types .value
    let r ← right.frameUsage types .value
    pure (own ++ l ++ r)
  | .stackAlloc _ count => do
    let n ← count.frameUsage types .value
    pure (own ++ n)
  | .tuple _ [element] => do
    let t ← element.frameUsage types mode
    pure (own ++ t)
  | .tuple _ elements => do
    let ts ← frameUsageOfAll types elements
    pure (own ++ ts)
  | .call site _ arguments => do
    let result ← callUsage types site.id
    let args ← frameUsageOfAll types arguments
    pure (own ++ result ++ args)

/-- The use of expressions whose values are wanted, one after the other. -/
def frameUsageOfAll (types : TypeTable) : List Expr → Except InternalFault FrameUsage
  | [] => pure .none
  | e :: es => do
    let a ← e.frameUsage types .value
    let b ← frameUsageOfAll types es
    pure (a ++ b)

end

/-- The use of an expression whose value is wanted, if there is one. -/
def frameUsageOfOption (types : TypeTable) : Option Expr → Except InternalFault FrameUsage
  | none => pure .none
  | some e => e.frameUsage types .value

end Expr

/-- The use of a declaration of local variables. -/
def VarDecl.frameUsage (types : TypeTable) (d : VarDecl) : Except InternalFault FrameUsage := do
  let t ← types.expect d.id
  let init ← Expr.frameUsageOfOption types d.initializer
  pure (.ofLocals t.size ++ init)

/-- The use of declarations of local variables. -/
def VarDecl.frameUsageOfAll (types : TypeTable) : List VarDecl → Except InternalFault FrameUsage
  | [] => pure .none
  | d :: ds => do
    let a ← d.frameUsage types
    let b ← frameUsageOfAll types ds
    pure (a ++ b)

/-- The use of what a loop does before its first round. -/
def LoopInit.frameUsageOfAll (types : TypeTable) : List LoopInit → Except InternalFault FrameUsage
  | [] => pure .none
  | .declare d :: rest => do
    let a ← d.frameUsage types
    let b ← frameUsageOfAll types rest
    pure (a ++ b)
  | .evaluate e :: rest => do
    let a ← e.frameUsage types .value
    let b ← frameUsageOfAll types rest
    pure (a ++ b)

namespace Stmt

mutual

/-- The use of a statement. -/
def frameUsage (types : TypeTable) : Stmt → Except InternalFault FrameUsage
  | .block _ ds body => do
    let a ← VarDecl.frameUsageOfAll types ds
    let b ← frameUsageOfAll types body
    pure (a ++ b)
  | .evaluation _ e => e.frameUsage types .value
  | .write _ args _ => Expr.frameUsageOfAll types args
  | .ifThen _ c t => do
    let a ← c.frameUsage types .value
    let b ← t.frameUsage types
    pure (a ++ b)
  | .ifElse _ c t e => do
    let a ← c.frameUsage types .value
    let b ← t.frameUsage types
    let d ← e.frameUsage types
    pure (a ++ b ++ d)
  | .forLoop site inits c incs body => do
    let a ← LoopInit.frameUsageOfAll types inits
    let b ← Expr.frameUsageOfOption types c
    let own := FrameUsage.ofCharge site.id (← types.loopCharge (c.map Expr.id))
    let d ← Expr.frameUsageOfAll types incs
    let e ← body.frameUsage types
    pure (a ++ b ++ own ++ d ++ e)
  | .return _ value => Expr.frameUsageOfOption types value
  | .break _ | .continue _ => pure .none

/-- The use of statements, one after the other. -/
def frameUsageOfAll (types : TypeTable) : List Stmt → Except InternalFault FrameUsage
  | [] => pure .none
  | s :: rest => do
    let a ← s.frameUsage types
    let b ← frameUsageOfAll types rest
    pure (a ++ b)

end

end Stmt

/-- The frame of a function. -/
def Function.layout (types : TypeTable) (f : Function) : Except InternalFault FrameLayout := do
  let returnType ← types.expect f.signature.id
  let usage ← f.body.stmt.frameUsage types
  let returnTemp := if returnType.isTuple then Ty.wordSize else 0
  pure (.ofCharges f.signature.name usage.locals usage.callTemp returnTemp usage.charges)

/-- The frame of a phrase, which must be a function with its body. -/
def Phrase.layout (types : TypeTable) (p : Phrase) : Except InternalFault FrameLayout :=
  match p.function? with
  | some f => f.layout types
  | none => .error (.frameOf p.kind)

end PostfixCompiler
