import PostfixCompiler.Double.Basic
import PostfixCompiler.Ty.Basic

/-!
# Nodes

A program is handed over as an array of nodes that refer to each other by index. A node is a line of
the source and a **kind**: what the node is, with the indices of the nodes below it. Later passes
work on the phrases of `PostfixCompiler.Syntax.Phrase`, which hold the nodes below them; what a
single node is, they still name by its kind.

## Main definitions

* `PostfixCompiler.NodeId`: the index of a node.
* `PostfixCompiler.Qualifier`, `PostfixCompiler.UnaryOp`, `PostfixCompiler.BinaryOp`.
* `PostfixCompiler.Kind`, `PostfixCompiler.Node`.
* `PostfixCompiler.Kind.children`: the nodes directly below, in the order of their evaluation.
* `PostfixCompiler.Kind.isDeclaration` and its relatives: the classes of kinds.
-/

namespace PostfixCompiler

/-- The index of a node. -/
structure NodeId where
  /-- The index as a word. -/
  val : UInt32
deriving DecidableEq

namespace NodeId

/-- The index as a natural number. -/
def index (id : NodeId) : Nat := id.val.toNat

/-- The id of the node at an index. -/
def ofIndex (i : Nat) : NodeId := ⟨UInt32.ofNat i⟩

/-- The id as diagnostics show it. -/
def text (id : NodeId) : String := "#" ++ toString id.index

end NodeId

/-! ### Words of the language -/

/-- Who may use a declared name, and who defines it. -/
inductive Qualifier where
  /-- Other units may use it. -/
  | «public»
  /-- Only this unit may use it. -/
  | «private»
  /-- Another unit defines it. -/
  | require
deriving DecidableEq

/-- The operators with one operand. -/
inductive UnaryOp where
  /-- The number with the other sign. -/
  | neg
  /-- Whether an integer is zero. -/
  | not
  /-- The number itself. -/
  | identity
deriving DecidableEq

/-- The operators with two operands. -/
inductive BinaryOp where
  /-- Sum, or a pointer moved forwards. -/
  | add
  /-- Difference, or a pointer moved backwards. -/
  | sub
  /-- Product. -/
  | mul
  /-- Quotient. -/
  | div
  /-- Remainder. -/
  | mod
  /-- Less. -/
  | lt
  /-- Less or equal. -/
  | le
  /-- Greater or equal. -/
  | ge
  /-- Greater. -/
  | gt
  /-- Equal. -/
  | eq
  /-- Not equal. -/
  | ne
  /-- Both; the second operand is only evaluated if the first does not decide. -/
  | and
  /-- At least one; the second operand is only evaluated if the first does not decide. -/
  | or
deriving DecidableEq

/-- The operator as a program writes it. -/
def BinaryOp.symbol : BinaryOp → String
  | .add => "+"
  | .sub => "-"
  | .mul => "*"
  | .div => "/"
  | .mod => "%"
  | .lt => "<"
  | .le => "<="
  | .ge => ">="
  | .gt => ">"
  | .eq => "=="
  | .ne => "!="
  | .and => "&&"
  | .or => "||"

/-! ### Kinds -/

/-- What a node is, with the ids of the nodes below it. -/
inductive Kind where
  /-- The unit as a whole. -/
  | program (declarations : List NodeId)
  /-- Variables of one type, or variables that take the components of one tuple. -/
  | variableDeclaration (qualifier : Qualifier) (type : Ty) (names : List String)
      (initializer : Option NodeId)
  /-- A function without its body. -/
  | functionDeclaration (qualifier : Qualifier) (returnType : Ty) (name : String)
      (arguments : List NodeId)
  /-- A function with its body. -/
  | functionDefinition (qualifier : Qualifier) (returnType : Ty) (name : String)
      (arguments : List NodeId) (body : NodeId)
  /-- Local variables and the statements that use them. -/
  | block (declarations instructions : List NodeId)
  /-- An expression evaluated for its effects. -/
  | evaluation (expression : NodeId)
  /-- Values to be printed, and whether the line ends behind them. -/
  | write (arguments : List NodeId) (newline : Bool)
  /-- A statement under a condition. -/
  | ifThen (condition thenBlock : NodeId)
  /-- Two statements of which a condition chooses one. -/
  | ifElse (condition thenBlock elseBlock : NodeId)
  /-- A loop. -/
  | forLoop (initializers : List NodeId) (condition : Option NodeId) (increments : List NodeId)
      (body : NodeId)
  /-- The end of the innermost loop. -/
  | «break»
  /-- The next round of the innermost loop. -/
  | «continue»
  /-- The end of the function, with its result. -/
  | «return» (value : Option NodeId)
  /-- An integer literal. -/
  | integer (value : Int32)
  /-- A floating point literal. -/
  | double (value : Double)
  /-- A text literal. -/
  | string (value : String)
  /-- The null pointer. -/
  | nullptr
  /-- The place of a variable. -/
  | variable (name : String)
  /-- The place at an index from a pointer. -/
  | pointerIndex (base index : NodeId)
  /-- The place of a component of a tuple, counted from 1. -/
  | tupleIndex (base : NodeId) (index : Int32)
  /-- The value that a place holds. -/
  | rvalue (lvalue : NodeId)
  /-- A value put into a place; the result is that value. -/
  | assignment (lvalue rvalue : NodeId)
  /-- An operator with one operand. -/
  | unary (op : UnaryOp) (argument : NodeId)
  /-- An operator with two operands. -/
  | binary (op : BinaryOp) (left right : NodeId)
  /-- The address of a place. -/
  | addressOf (lvalue : NodeId)
  /-- Fresh memory for so many values on the stack. -/
  | stackAlloc (count : NodeId)
  /-- A number read from the input. -/
  | input
  /-- The size of an expression, which is not evaluated. -/
  | sizeof (expression : NodeId)
  /-- A tuple. -/
  | tuple (elements : List NodeId)
  /-- A call. -/
  | functionCall (name : String) (arguments : List NodeId)
deriving DecidableEq

/-- A node: its line in the source, 0 when that is unknown, and its kind. -/
structure Node where
  /-- The line. -/
  line : UInt32
  /-- The kind. -/
  kind : Kind
deriving DecidableEq

namespace Kind

/-- The nodes directly below, in the order of their evaluation. -/
def children : Kind → List NodeId
  | .program ds => ds
  | .variableDeclaration _ _ _ init => init.toList
  | .functionDeclaration _ _ _ args => args
  | .functionDefinition _ _ _ args body => args ++ [body]
  | .block ds is => ds ++ is
  | .evaluation e => [e]
  | .write args _ => args
  | .ifThen c t => [c, t]
  | .ifElse c t e => [c, t, e]
  | .forLoop inits c incs body => inits ++ c.toList ++ incs ++ [body]
  | .return v => v.toList
  | .pointerIndex b i => [b, i]
  | .tupleIndex b _ => [b]
  | .rvalue l => [l]
  | .addressOf l => [l]
  | .assignment l r => [l, r]
  | .unary _ a => [a]
  | .binary _ l r => [l, r]
  | .stackAlloc n => [n]
  | .sizeof e => [e]
  | .tuple es => es
  | .functionCall _ args => args
  | .break | .continue | .integer _ | .double _ | .string _ | .nullptr | .variable _ | .input => []

/-! ### Classes of kinds -/

/-- The node denotes a place in memory. -/
def isLvalue : Kind → Bool
  | .variable _ | .pointerIndex .. | .tupleIndex .. => true
  | _ => false

/-- The node declares a name. -/
def isDeclaration : Kind → Bool
  | .variableDeclaration .. | .functionDeclaration .. | .functionDefinition .. => true
  | _ => false

/-- The node is an instruction to be carried out. -/
def isStatement : Kind → Bool
  | .block .. | .evaluation _ | .write .. | .ifThen .. | .ifElse .. | .forLoop .. | .break
  | .continue | .return _ => true
  | _ => false

/-- The node has a value or denotes a place. -/
def isExpression : Kind → Bool
  | .integer _ | .double _ | .string _ | .nullptr | .variable _ | .pointerIndex .. | .tupleIndex ..
  | .rvalue _ | .assignment .. | .unary .. | .binary .. | .addressOf _ | .stackAlloc _ | .input
  | .sizeof _ | .tuple _ | .functionCall .. => true
  | _ => false

end Kind

end PostfixCompiler
