import PostfixCompiler.Double.Format
import PostfixCompiler.Syntax.Node
import PostfixCompiler.Text.Quoted

/-!
# Describing nodes

A diagnostic about a node of an unexpected kind shows the node in full: the name of its kind and all
of its fields with their names. A kind without fields is its name alone.

## Main definitions

* `PostfixCompiler.listingFormat`: how doubles are written in descriptions and in listings.
* `PostfixCompiler.Kind.describe`: the node in full.
* `PostfixCompiler.NodeId.describeSet`: a set of ids.
-/

namespace PostfixCompiler

/-- Doubles from `1e-4` up to `1e16` are written positionally, a positive exponent has no sign, and
of two equally near decimals the larger one is taken. -/
def listingFormat : Double.Format where
  plainFrom := -4
  plainBelow := 16
  plusSign := false
  tie := .up

/-- Texts one after the other, with a comma between any two. -/
def commaSeparated (parts : List String) : String := ", ".intercalate parts

/-- Texts between square brackets. -/
def describeList (parts : List String) : String := "[" ++ commaSeparated parts ++ "]"

namespace NodeId

/-- The id in a description. -/
def describe (id : NodeId) : String := "NodeId(" ++ toString id.index ++ ")"

/-- An optional id in a description. -/
def describeOption : Option NodeId → String
  | some id => "Some(" ++ id.describe ++ ")"
  | none => "None"

/-- Ids in a description. -/
def describeAll (ids : List NodeId) : String := describeList (ids.map describe)

/-- A set of ids in a description. -/
def describeSet (ids : List NodeId) : String :=
  "\x7b" ++ commaSeparated (ids.map describe) ++ "\x7d"

end NodeId

namespace Ty

mutual

/-- The type in a description. -/
def describe : Ty → String
  | .void => "Void"
  | .int => "Int"
  | .double => "Double"
  | .string => "String"
  | .auto => "Unspec"
  | .pointer t => "Pointer(" ++ t.describe ++ ")"
  | .tuple ts => "Struct(" ++ describeList (describeEach ts) ++ ")"

/-- Each of the types in a description. -/
def describeEach : List Ty → List String
  | [] => []
  | t :: ts => t.describe :: describeEach ts

end

end Ty

/-- The qualifier in a description. -/
def Qualifier.describe : Qualifier → String
  | .public => "Public"
  | .private => "Private"
  | .require => "External"

/-- The operator in a description. -/
def UnaryOp.describe : UnaryOp → String
  | .neg => "Neg"
  | .not => "Not"
  | .identity => "Identity"

/-- The operator in a description. -/
def BinaryOp.describe : BinaryOp → String
  | .add => "Add"
  | .sub => "Sub"
  | .mul => "Mul"
  | .div => "Div"
  | .mod => "Mod"
  | .lt => "Lt"
  | .le => "Le"
  | .ge => "Ge"
  | .gt => "Gt"
  | .eq => "Eq"
  | .ne => "Ne"
  | .and => "And"
  | .or => "Or"

namespace Kind

/-- The name of a kind with its fields. -/
def describeFields (name : String) (fields : List (String × String)) : String :=
  name ++ " \x7b " ++ commaSeparated (fields.map fun f => f.1 ++ ": " ++ f.2) ++ " \x7d"

/-- The node in full. -/
def describe : Kind → String
  | .program ds => describeFields "Program" [("declarations", NodeId.describeAll ds)]
  | .variableDeclaration q t names init =>
    describeFields "VariableDeclaration"
      [("qualifier", q.describe), ("var_type", t.describe),
        ("identifiers", describeList (names.map Text.quote)),
        ("initializer", NodeId.describeOption init)]
  | .functionDeclaration q t name args =>
    describeFields "FunctionDeclaration"
      [("qualifier", q.describe), ("return_type", t.describe), ("name", Text.quote name),
        ("arguments", NodeId.describeAll args)]
  | .functionDefinition q t name args body =>
    describeFields "FunctionDefinition"
      [("qualifier", q.describe), ("return_type", t.describe), ("name", Text.quote name),
        ("arguments", NodeId.describeAll args), ("body", body.describe)]
  | .block ds is =>
    describeFields "Block"
      [("declarations", NodeId.describeAll ds), ("instructions", NodeId.describeAll is)]
  | .evaluation e => describeFields "Evaluation" [("expression", e.describe)]
  | .write args newline =>
    describeFields "Write"
      [("arguments", NodeId.describeAll args), ("newline", if newline then "true" else "false")]
  | .ifThen c t => describeFields "If" [("condition", c.describe), ("then_block", t.describe)]
  | .ifElse c t e =>
    describeFields "IfElse"
      [("condition", c.describe), ("then_block", t.describe), ("else_block", e.describe)]
  | .forLoop inits c incs body =>
    describeFields "For"
      [("initializers", NodeId.describeAll inits), ("condition", NodeId.describeOption c),
        ("increments", NodeId.describeAll incs), ("body", body.describe)]
  | .break => "Break"
  | .continue => "Continue"
  | .return v => describeFields "Return" [("value", NodeId.describeOption v)]
  | .integer n => describeFields "Integer" [("value", toString n.toInt)]
  | .double d => describeFields "Double" [("value", d.write listingFormat)]
  | .string s => describeFields "Str" [("value", Text.quote s)]
  | .nullptr => "Nullptr"
  | .variable name => describeFields "Variable" [("name", Text.quote name)]
  | .pointerIndex b i => describeFields "PointerIndex" [("base", b.describe), ("index", i.describe)]
  | .tupleIndex b i =>
    describeFields "TupleIndex" [("base", b.describe), ("index", toString i.toInt)]
  | .rvalue l => describeFields "Rvalue" [("lvalue", l.describe)]
  | .assignment l r => describeFields "Assignment" [("lvalue", l.describe), ("rvalue", r.describe)]
  | .unary op a => describeFields "Unary" [("op", op.describe), ("argument", a.describe)]
  | .binary op l r =>
    describeFields "Binary" [("op", op.describe), ("left", l.describe), ("right", r.describe)]
  | .addressOf l => describeFields "AddressOf" [("lvalue", l.describe)]
  | .stackAlloc n => describeFields "StackAlloc" [("count", n.describe)]
  | .input => "Input"
  | .sizeof e => describeFields "Sizeof" [("expression", e.describe)]
  | .tuple es => describeFields "Tuple" [("elements", NodeId.describeAll es)]
  | .functionCall name args =>
    describeFields "FunctionCall"
      [("name", Text.quote name), ("arguments", NodeId.describeAll args)]

end Kind

end PostfixCompiler
