import PostfixCompiler.Json.Value
import PostfixCompiler.Syntax.Tree

/-!
# Trees as JSON

A tree is written with every part of every node, also those that a reader could fill in, and with
the parts in a fixed order.

## Main definitions

* `PostfixCompiler.Ty.toJson`: a scalar as its name, a pointer and a tuple as an object whose only
  member names the form.
* `PostfixCompiler.Kind.tag`: the name of a kind.
* `PostfixCompiler.Kind.toJson`, `PostfixCompiler.Node.toJson`, `PostfixCompiler.SyntaxTree.toJson`.
-/

namespace PostfixCompiler

namespace Ty

mutual

/-- The type as JSON. -/
def toJson : Ty → Json
  | .void => .text "void"
  | .int => .text "int"
  | .double => .text "double"
  | .string => .text "string"
  | .auto => .text "auto"
  | .pointer t => .object [("pointer", t.toJson)]
  | .tuple ts => .object [("struct", .array (eachToJson ts))]

/-- Each of the types as JSON. -/
def eachToJson : List Ty → List Json
  | [] => []
  | t :: ts => t.toJson :: eachToJson ts

end

end Ty

/-- The id as JSON. -/
def NodeId.toJson (id : NodeId) : Json := .int id.index

/-- Ids as JSON. -/
def NodeId.allToJson (ids : List NodeId) : Json := .array (ids.map toJson)

/-- An optional id as JSON. -/
def NodeId.optionToJson : Option NodeId → Json
  | some id => id.toJson
  | none => .null

/-- The qualifier as JSON writes it. -/
def Qualifier.name : Qualifier → String
  | .public => "public"
  | .private => "private"
  | .require => "require"

/-- The operator as JSON writes it. -/
def UnaryOp.name : UnaryOp → String
  | .neg => "neg"
  | .not => "not"
  | .identity => "identity"

/-- The operator as JSON writes it. -/
def BinaryOp.name : BinaryOp → String
  | .add => "add"
  | .sub => "sub"
  | .mul => "mul"
  | .div => "div"
  | .mod => "mod"
  | .lt => "lt"
  | .le => "le"
  | .ge => "ge"
  | .gt => "gt"
  | .eq => "eq"
  | .ne => "ne"
  | .and => "and"
  | .or => "or"

namespace Kind

/-- The name of the kind as JSON writes it. -/
def tag : Kind → String
  | .program .. => "program"
  | .variableDeclaration .. => "variable_declaration"
  | .functionDeclaration .. => "function_declaration"
  | .functionDefinition .. => "function_definition"
  | .block .. => "block"
  | .evaluation .. => "evaluation"
  | .write .. => "write"
  | .ifThen .. => "if"
  | .ifElse .. => "if_else"
  | .forLoop .. => "for"
  | .break => "break"
  | .continue => "continue"
  | .return .. => "return"
  | .integer .. => "integer"
  | .double .. => "double"
  | .string .. => "string"
  | .nullptr => "nullptr"
  | .variable .. => "variable"
  | .pointerIndex .. => "pointer_index"
  | .tupleIndex .. => "tuple_index"
  | .rvalue .. => "rvalue"
  | .assignment .. => "assignment"
  | .unary .. => "unary"
  | .binary .. => "binary"
  | .addressOf .. => "address_of"
  | .stackAlloc .. => "stack_alloc"
  | .input => "input"
  | .sizeof .. => "sizeof"
  | .tuple .. => "tuple"
  | .functionCall .. => "function_call"

/-- The parts of the node, in order. -/
def parts : Kind → List (String × Json)
  | .program ds => [("declarations", NodeId.allToJson ds)]
  | .variableDeclaration q t names init =>
    [("qualifier", .text q.name), ("var_type", t.toJson),
      ("identifiers", .array (names.map .text)), ("initializer", NodeId.optionToJson init)]
  | .functionDeclaration q t name args =>
    [("qualifier", .text q.name), ("return_type", t.toJson), ("name", .text name),
      ("arguments", NodeId.allToJson args)]
  | .functionDefinition q t name args body =>
    [("qualifier", .text q.name), ("return_type", t.toJson), ("name", .text name),
      ("arguments", NodeId.allToJson args), ("body", body.toJson)]
  | .block ds body =>
    [("declarations", NodeId.allToJson ds), ("instructions", NodeId.allToJson body)]
  | .evaluation e => [("expression", e.toJson)]
  | .write args newline => [("arguments", NodeId.allToJson args), ("newline", .bool newline)]
  | .ifThen c t => [("condition", c.toJson), ("then_block", t.toJson)]
  | .ifElse c t e =>
    [("condition", c.toJson), ("then_block", t.toJson), ("else_block", e.toJson)]
  | .forLoop inits c incs body =>
    [("initializers", NodeId.allToJson inits), ("condition", NodeId.optionToJson c),
      ("increments", NodeId.allToJson incs), ("body", body.toJson)]
  | .return v => [("value", NodeId.optionToJson v)]
  | .integer n => [("value", .int n.toInt)]
  | .double d => [("value", .double d)]
  | .string s => [("value", .text s)]
  | .variable name => [("name", .text name)]
  | .pointerIndex b i => [("base", b.toJson), ("index", i.toJson)]
  | .tupleIndex b i => [("base", b.toJson), ("index", .int i.toInt)]
  | .rvalue p => [("lvalue", p.toJson)]
  | .assignment p v => [("lvalue", p.toJson), ("rvalue", v.toJson)]
  | .unary op a => [("op", .text op.name), ("argument", a.toJson)]
  | .binary op l r => [("op", .text op.name), ("left", l.toJson), ("right", r.toJson)]
  | .addressOf p => [("lvalue", p.toJson)]
  | .stackAlloc n => [("count", n.toJson)]
  | .sizeof e => [("expression", e.toJson)]
  | .tuple es => [("elements", NodeId.allToJson es)]
  | .functionCall name args => [("name", .text name), ("arguments", NodeId.allToJson args)]
  | .break | .continue | .nullptr | .input => []

/-- The kind as JSON: its name, then its parts. -/
def toJson (k : Kind) : Json := .object (("node", .text k.tag) :: k.parts)

end Kind

/-- The node as JSON. -/
def Node.toJson (n : Node) : Json :=
  .object [("line", .int n.line.toNat), ("kind", n.kind.toJson)]

/-- The tree as JSON. -/
def SyntaxTree.toJson (t : SyntaxTree) : Json :=
  .object [("nodes", .array (t.nodes.toList.map Node.toJson)), ("root", t.root.toJson)]

end PostfixCompiler
