import PostfixCompiler.Syntax.Tree
import PostfixCompiler.Typing.Table

/-!
# Evaluation modes

Whoever needs an operand wants either its **value** on the stack, a tuple flattened, or the
**address** of the place where the value is. Whether a node needs a slot of the frame for itself
depends on its kind, its type and the mode alone; the layout of a frame and the code that uses it
both ask here.

## Main definitions

* `PostfixCompiler.Mode`: what is wanted of an operand, and what it leaves on the stack.
* `PostfixCompiler.Kind.childMode`: the mode in which a node evaluates a node below it.
* `PostfixCompiler.Expr.charge`: the slot that an expression needs.
* `PostfixCompiler.TypeTable.loopCharge`: the slot that a loop needs.

Two expressions need a slot. A tuple whose address is wanted is built in one. And the value of a
tuple is read from a place leaf by leaf, so meanwhile the address of the place is kept in a word of
the frame; that the address is computed only once matters when computing it has effects.
-/

namespace PostfixCompiler

/-- What is wanted of an operand, or what it left on the stack. -/
inductive Mode where
  /-- The value, a tuple flattened. -/
  | value
  /-- The address of a place that holds the value. -/
  | address
deriving DecidableEq

/-- The mode in which a node, itself evaluated in `mode`, evaluates `child`. -/
def Kind.childMode (k : Kind) (child : NodeId) (mode : Mode) : Mode :=
  match k with
  | .tupleIndex .. | .rvalue _ | .addressOf _ => .address
  | .assignment place _ => if place = child then .address else .value
  | .tuple [_] => mode
  | _ => .value

/-- The bytes of its own slot that an expression needs when it is evaluated in `mode`. -/
def Expr.charge (types : TypeTable) (e : Expr) (mode : Mode) :
    Except InternalFault (Option Nat) :=
  match e, mode with
  | .tuple site (_ :: _ :: _), .address => do
    let t ← types.expect site.id
    pure (if t.isTuple then some t.size else none)
  | .rvalue site _, .value => do
    let t ← types.expect site.id
    pure (if t.isTuple then some Ty.wordSize else none)
  | _, _ => pure none

/-- The bytes of its own slot that a node needs; only an expression needs one in this sense. -/
def Phrase.charge (types : TypeTable) (p : Phrase) (mode : Mode) :
    Except InternalFault (Option Nat) :=
  match p with
  | .expression e => e.charge types mode
  | _ => pure none

/-- The bytes of its own slot that a loop needs: a word for the tested component of a condition that
is a tuple, while the rest of the tuple is dropped. -/
def TypeTable.loopCharge (types : TypeTable) (condition : Option NodeId) :
    Except InternalFault (Option Nat) :=
  match condition with
  | none => pure none
  | some id => do
    let t ← types.expect id
    pure (if t.isTuple then some Ty.wordSize else none)

end PostfixCompiler
