import PostfixCompiler.Emission.Transfer

/-!
# Code for expressions

The code of an expression leaves its value or its address on top of the stack and nothing else; it
says which of the two. A place always leaves an address, most other expressions a value whatever is
wanted of them.

## Main definitions

* `PostfixCompiler.Expr.code`: the code of an expression.
* `PostfixCompiler.Expr.pushValue`: the code of an expression whose value is wanted.
* `PostfixCompiler.Expr.dropValue`: the code of an expression whose effects are wanted.

The arguments of a call are evaluated from the last to the first, so that they lie in order. The
second operand of `and` and `or` is jumped over when the first decides.
-/

namespace PostfixCompiler

open Emission

namespace Emission

/-- Widens the number on top of the stack where a `double` is wanted of an operand of type `int`. -/
def widen (cx : Context) (wanted : Ty) (e : Expr) : EmitM Unit := do
  if wanted = .double then
    if (← cx.typeOf e.id) = .int then emit .intToDouble

/-- The instruction for an arithmetic operator on words. -/
def wordInstr : BinaryOp → Instr
  | .add => .add
  | .sub => .sub
  | .mul => .mul
  | .div => .div
  | .mod => .mod
  | .lt => .lt
  | .le => .le
  | .ge => .ge
  | .gt => .gt
  | .eq => .eq
  | .ne => .ne
  | .and => .and
  | .or => .or

/-- The instruction for an arithmetic operator whose result has type `t`. -/
def arithmeticInstr (op : BinaryOp) (t : Ty) : Instr :=
  if t = .double then
    match op with
    | .add => .addDouble
    | .sub => .subDouble
    | .mul => .mulDouble
    | .div => .divDouble
    | op => wordInstr op
  else wordInstr op

/-- How the code of a binary operator is shaped. -/
inductive BinaryForm where
  /-- The second operand is evaluated only if the first does not decide. -/
  | shortCircuit
  /-- An operand is a pointer. -/
  | pointer
  /-- Both operands are numbers, and so is the result. -/
  | arithmetic
  /-- The operands are compared. -/
  | comparison

/-- The shape of an operator on operands of two types. -/
def binaryForm (op : BinaryOp) (l r : Ty) : BinaryForm :=
  match op with
  | .and | .or => .shortCircuit
  | .add | .sub => if l.isPointer ∨ r.isPointer then .pointer else .arithmetic
  | .mul | .div | .mod => .arithmetic
  | .lt | .le | .ge | .gt | .eq | .ne => .comparison

/-- The jump over the second operand: `and` is decided by zero, `or` by anything else. -/
def decidedJump (op : BinaryOp) (label : String) : Instr :=
  if op = .and then .jumpIfZero label else .jumpIfNotZero label

/-- The code of a pointer operation behind its operands: two pointers are subtracted as they are,
an integer is scaled first. -/
def pointerTail (op : BinaryOp) (l r : Ty) : List Instr :=
  if r.isPointer then [.sub] else [.int l.pointerStep, .mul, wordInstr op]

/-- A text among the constants, and its address on the stack. -/
def pushText (s : String) : EmitM Unit := do
  let label ← newLabel
  emitAll [.rodata, .align, .label label, .staticString s, .text, .address label]

/-- The address of a variable. -/
def pushVariable (cx : Context) (name : String) : EmitM Unit := do
  match (← get).symbols.resolve? name with
  | none => fault (.noStorage name)
  | some (_, s) =>
    emit (if s.isGlobal then .address (cx.config.labelOf s) else .frameAddress s.offset)

/-- A number from the input. -/
def pushInput (t : Ty) : EmitM Unit := do
  if t = .double then
    callHelper "readd"
    emit .loadResultDouble
  else
    callHelper "readi"
    emit .loadResultInt

/-- The code behind the address of a place that is read: the value, or the address itself where the
place holds a tuple and its address is wanted. -/
def readPlace (id : NodeId) (t : Ty) (mode : Mode) (slot : Option Int) : EmitM Mode := do
  match t, mode with
  | .tuple _, .address => pure .address
  | .tuple _, .value =>
    match slot with
    | none => fault (.pinMissing id)
    | some slot => do
      emitAll [.frameAddress slot, .storeInt]
      load t (.pinned slot)
      pure .value
  | .double, _ => do
    emit .loadDouble
    pure .value
  | _, _ => do
    emit .loadInt
    pure .value

/-- The code of an operator behind its operand. -/
def unaryTail (op : UnaryOp) (t : Ty) : List Instr :=
  match op with
  | .neg => if t = .double then [.negDouble] else [.neg]
  | .identity => []
  | .not => [.int 0, .eq]

/-- The code of a call behind its arguments, which take `bytes` bytes: the address for a tuple, the
call, and the result. -/
def finishCall (cx : Context) (label : String) (t : Ty) (bytes : Nat) (mode : Mode) :
    EmitM Mode := do
  let area := cx.frame.callTempOffset
  match t with
  | .tuple _ => do
    emit (.frameAddress area)
    emit (.call label)
    trash (bytes + Ty.wordSize)
    match mode with
    | .address => do
      emit (.frameAddress area)
      pure .address
    | .value => do
      load t (.frame area)
      pure .value
  | .void => do
    emit (.call label)
    trash bytes
    pure .value
  | .double => do
    emit (.call label)
    trash bytes
    emit .loadResultDouble
    pure .value
  | _ => do
    emit (.call label)
    trash bytes
    emit .loadResultInt
    pure .value

end Emission

namespace Expr

mutual

/-- Writes the code of an expression of which a value or an address is wanted, and says which of the
two it leaves. -/
def code (cx : Context) (mode : Mode) (e : Expr) : EmitM Mode := do
  let slot ← cx.ownSlot e mode
  let t ← cx.typeOf e.id
  match e with
  | .integer _ n => do
    emit (.int n.toInt)
    pure .value
  | .double _ d => do
    emit (.double d)
    pure .value
  | .string _ s => do
    pushText s
    pure .value
  | .nullptr _ => do
    emit (.int 0)
    pure .value
  | .input _ => do
    pushInput t
    pure .value
  | .variable _ name => do
    pushVariable cx name
    pure .address
  | .pointerIndex _ base index => do
    let b ← cx.typeOf base.id
    wantValue base (← base.code cx .value)
    wantValue index (← index.code cx .value)
    emitAll [.int b.pointerStep, .mul, .add]
    pure .address
  | .tupleIndex _ base index => do
    let b ← cx.typeOf base.id
    match b.componentOffset? index.toInt with
    | none => fault (.badComponent index base.id)
    | some offset => do
      wantAddress base (← base.code cx .address)
      addOffset offset
      pure .address
  | .rvalue site place => do
    wantAddress place (← place.code cx .address)
    readPlace site.id t mode slot
  | .assignment _ place value => do
    wantValue value (← value.code cx .value)
    widen cx t value
    emit (if t = .double then .dupDouble else .dupInt)
    store (fun offset => do
      if offset ≠ 0 then fault .componentOfPlace
      wantAddress place (← place.code cx .address)) t t 0
    pure .value
  | .unary _ op argument => do
    wantValue argument (← argument.code cx .value)
    emitAll (unaryTail op t)
    pure .value
  | .binary _ op left right => do
    let l ← cx.typeOf left.id
    let r ← cx.typeOf right.id
    match binaryForm op l r with
    | .shortCircuit => do
      let label ← newLabel
      wantValue left (← left.code cx .value)
      emitAll [.dupInt, decidedJump op label]
      wantValue right (← right.code cx .value)
      emitAll [wordInstr op, .label label]
    | .pointer => do
      if !l.isPointer then fault (.pointerArithmetic l r)
      wantValue left (← left.code cx .value)
      wantValue right (← right.code cx .value)
      emitAll (pointerTail op l r)
    | .arithmetic => do
      wantValue left (← left.code cx .value)
      widen cx t left
      wantValue right (← right.code cx .value)
      widen cx t right
      emit (arithmeticInstr op t)
    | .comparison => do
      let wide : Ty := if l = .double ∨ r = .double then .double else .int
      wantValue left (← left.code cx .value)
      widen cx wide left
      wantValue right (← right.code cx .value)
      widen cx wide right
      if wide = .double then emitAll [.compareDouble, .int 0]
      emit (wordInstr op)
    pure .value
  | .addressOf _ place => do
    wantAddress place (← place.code cx .address)
    pure .value
  | .stackAlloc _ count => do
    wantValue count (← count.code cx .value)
    emitAll [.int t.pointerStep, .mul, .alloc, .stackPointer]
    pure .value
  | .sizeof _ e => do
    let u ← cx.typeOf e.id
    emit (.int u.size)
    pure .value
  | .tuple _ [element] => element.code cx mode
  | .tuple _ elements =>
    match slot with
    | some slot => do
      codeInSlot cx slot elements t.components 0
      emit (.frameAddress slot)
      pure .address
    | none => do
      codeFromLast cx elements
      pure .value
  | .call _ name arguments => do
    match (← get).symbols.resolve? name with
    | none => fault (.unknownFunction name)
    | some (_, s) => do
      let bytes ← codeArguments cx arguments s.parameters
      finishCall cx (cx.config.labelOf s) t bytes mode

/-- Writes the code that builds a tuple in a slot of the frame, component by component from byte
`byte` on. -/
def codeInSlot (cx : Context) (slot : Int) (elements : List Expr) (targets : List Ty) (byte : Nat) :
    EmitM Unit :=
  match elements, targets with
  | e :: es, target :: ts => do
    wantValue e (← e.code cx .value)
    let source ← cx.typeOf e.id
    store (Base.frame slot).push target source byte
    codeInSlot cx slot es ts (byte + target.size)
  | _, _ => pure ()

/-- Writes the code that pushes the elements of a tuple, the last one first. -/
def codeFromLast (cx : Context) : List Expr → EmitM Unit
  | [] => pure ()
  | e :: es => do
    codeFromLast cx es
    wantValue e (← e.code cx .value)

/-- Writes the code that pushes the arguments of a call, the last one first and each as its
parameter wants it, and returns the bytes that they take. -/
def codeArguments (cx : Context) (arguments : List Expr) (parameters : List Ty) : EmitM Nat :=
  match arguments, parameters with
  | e :: es, p :: ps => do
    let rest ← codeArguments cx es ps
    wantValue e (← e.code cx .value)
    widen cx p e
    pure (p.size + rest)
  | _, _ => pure 0

end

/-- Writes the code of an expression whose value is wanted. -/
def pushValue (cx : Context) (e : Expr) : EmitM Unit := do
  wantValue e (← e.code cx .value)

/-- Writes the code of an expression whose effects are wanted: its value is dropped. -/
def dropValue (cx : Context) (e : Expr) : EmitM Unit := do
  e.pushValue cx
  let t ← cx.typeOf e.id
  trash t.size

end Expr

end PostfixCompiler
