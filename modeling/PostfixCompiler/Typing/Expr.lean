import PostfixCompiler.Ty.Compatible
import PostfixCompiler.Typing.State

/-!
# Types of expressions

The type of an expression follows from the types of its parts, with two exceptions that wait for
the place where the value goes: a number read from the input is an `int` unless a `double` is
wanted, and fresh memory holds whatever the pointer that takes it refers to. Where nothing is
wanted in particular, an expression whose type is still open is refused.

## Main definitions

* `PostfixCompiler.BinaryOp.resultType?`: the type of an operator applied to operands of two types.
* `PostfixCompiler.Expr.adapt`: fits an expression that waits for its destination to it.
* `PostfixCompiler.Expr.check`: finds and records the type of an expression.
-/

namespace PostfixCompiler

open Typing

/-! ### Operators -/

/-- The common type of two numbers. -/
def Ty.numeric? (l r : Ty) : Option Ty :=
  if l.isNumeric ∧ r.isNumeric then l.compatible? .operator r else none

/-- The type of the result of an operator on operands of two types, where it is defined. -/
def BinaryOp.resultType? (op : BinaryOp) (l r : Ty) : Option Ty :=
  match op with
  | .add =>
    match l, r with
    | .pointer _, .int => some l
    | _, _ => l.numeric? r
  | .sub =>
    match l, r with
    | .pointer _, .int => some l
    | .pointer _, .pointer _ => (l.compatible? .assignment r).map fun _ => .int
    | _, _ => l.numeric? r
  | .mul | .div => l.numeric? r
  | .mod | .and | .or => if l = .int ∧ r = .int then some .int else none
  | .lt | .le | .ge | .gt => (l.numeric? r).map fun _ => .int
  | .eq | .ne =>
    if l.isPointer ∧ r.isPointer then (l.compatible? .assignment r).map fun _ => .int
    else (l.numeric? r).map fun _ => .int

/-- The operator is defined on operands of the type. -/
def UnaryOp.accepts (op : UnaryOp) (t : Ty) : Bool :=
  match op with
  | .neg | .identity => t.isNumeric
  | .not => t = .int

/-! ### Expressions that wait for their destination -/

/-- Fits the type of an expression to the type of the place where its value goes: a number read from
the input becomes a `double` where one is wanted, and fresh memory holds what a pointer refers
to. -/
def Expr.adapt (e : Expr) (target : Ty) : CheckM Unit :=
  match e with
  | .input site => if target = .double then setType site.id .double else pure ()
  | .stackAlloc site _ => do
    let isOpen : Bool := match (← get).types.get? site.id with
      | some t => t.containsAuto
      | none => true
    if target.isPointer ∧ isOpen then setType site.id target else pure ()
  | _ => pure ()

/-- The type, which must not be left open. -/
def Typing.known (line : UInt32) (t : Ty) : CheckM Ty :=
  if t.containsAuto then fault line .elementTypeUnknown else pure t

/-! ### Expressions -/

namespace Expr

mutual

/-- Finds and records the type of an expression. -/
def check : Expr → CheckM Ty
  | .integer site _ => once site.id (pure .int)
  | .double site _ => once site.id (pure .double)
  | .string site _ => once site.id (pure .string)
  | .nullptr site => once site.id (pure .genericPointer)
  | .input site => once site.id (pure .int)
  | .variable site name => once site.id do
    match (← get).symbols.resolve? name with
    | none => fault site.line (.undeclaredVariable name)
    | some (_, s) =>
      if s.isFunction then fault site.line (.functionAsVariable name) else pure s.type
  | .pointerIndex site base index => once site.id do
    let b ← known base.line (← base.check)
    match b.referent? with
    | some element =>
      if element = .void then fault base.line (.notIndexable b)
      let i ← known index.line (← index.check)
      require index.line (i = .int) (.indexNotInteger i)
      pure element
    | none => fault base.line (.notIndexable b)
  | .tupleIndex site base index => once site.id do
    let b ← known base.line (← base.check)
    match b with
    | .tuple ts =>
      let i := index.toInt
      match if 1 ≤ i then ts[i.toNat - 1]? else none with
      | some t => pure t
      | none => fault site.line (.componentOutOfRange index b)
    | _ => fault base.line (.notATuple index b)
  | .rvalue site place => once site.id place.check
  | .assignment site place value => once site.id do
    let target ← known place.line (← place.check)
    let _ ← value.check
    value.adapt target
    let source ← typeOf value.id
    if target.isTuple ∨ source.isTuple then fault site.line .tupleAssignment
    match target.compatible? .assignment source with
    | some _ => pure target
    | none => fault site.line (.assignmentMismatch source target)
  | .unary site op argument => once site.id do
    let t ← known argument.line (← argument.check)
    require site.line (op.accepts t) (.unaryMismatch t)
    pure t
  | .binary site op left right => once site.id do
    let l ← known left.line (← left.check)
    let r ← known right.line (← right.check)
    match op.resultType? l r with
    | some t => pure t
    | none => fault site.line (.binaryMismatch l r op)
  | .addressOf site place => once site.id do
    let t ← known place.line (← place.check)
    pure (.pointer t)
  | .stackAlloc site count => once site.id do
    let t ← known count.line (← count.check)
    require count.line (t = .int) (.countNotInteger t)
    pure (.pointer .auto)
  | .sizeof site e => once site.id do
    let _ ← e.check
    pure .int
  | .tuple site elements => once site.id do
    match ← checkComponents elements with
    | [] => fault site.line .emptyTuple
    | [t] => pure t
    | ts => pure (.tuple ts)
  | .call site name arguments => once site.id do
    match (← get).symbols.resolve? name with
    | none => fault site.line (.undeclaredFunction name)
    | some (function, s) =>
      require site.line s.isFunction (.notAFunction name)
      require site.line (s.parameters.length = arguments.length)
        (.argumentCount name s.parameters.length arguments.length)
      let actuals := Ty.tuple (← checkArguments arguments s.parameters)
      require site.line (s.parameterTuple.compatible? .assignment actuals).isSome
        (.argumentsMismatch actuals s.parameterTuple name)
      require site.line (s.type ≠ .auto) (.calledTooEarly name)
      if s.isAuto ∧ (← get).function = some function then
        modify fun st => { st with selfCalls := st.selfCalls ++ [⟨site.line, s.type⟩] }
      pure s.type

/-- The types of the elements of a tuple, each of which must have a value. -/
def checkComponents : List Expr → CheckM (List Ty)
  | [] => pure []
  | e :: es => do
    let t ← known e.line (← e.check)
    require e.line (t ≠ .void) .voidComponent
    let ts ← checkComponents es
    pure (t :: ts)

/-- The types of the arguments of a call, each fitted to its parameter. -/
def checkArguments : List Expr → List Ty → CheckM (List Ty)
  | e :: es, p :: ps => do
    let _ ← e.check
    e.adapt p
    let t ← typeOf e.id
    let ts ← checkArguments es ps
    pure (t :: ts)
  | _, _ => pure []

end

/-- The type of an expression that waits for no destination. -/
def checkKnown (e : Expr) : CheckM Ty := do
  let t ← e.check
  known e.line t

end Expr

end PostfixCompiler
