import PostfixCompiler.Json.Reader
import PostfixCompiler.Syntax.Encode

/-!
# Reading trees from JSON

A part of a node that has a default may be left out; a part that is not asked for is ignored. The
root and the nodes are read first, and only then is it looked at whether they form a tree.

An ignored part of a tree or a node may hold anything. A kind is taken in as a whole before its
parts are read, so all of it must be readable, and its containers count among those that are nested
in the tree. Inside a kind the name of an enumeration may be written with an empty object for
`null`.

## Main definitions

* `PostfixCompiler.Ty.ofJson?`, `PostfixCompiler.Kind.ofJson?`,
  `PostfixCompiler.Node.ofJsonWithin?`.
* `PostfixCompiler.SyntaxTree.ofJson`: the tree that a JSON value describes.
* `PostfixCompiler.SyntaxTree.ofText`: the tree that a text describes.
* `PostfixCompiler.SyntaxTree.ofTextWithin`: the same, with any limit on how deep containers may be
  nested.
-/

namespace PostfixCompiler

open Json

/-- The type without parts that has the given name. -/
def Ty.ofName? : String → Option Ty
  | "void" => some .void
  | "int" => some .int
  | "double" => some .double
  | "string" => some .string
  | "auto" => some .auto
  | _ => none

namespace Ty

mutual

/-- The type that a JSON value describes. A type without parts is one of the names of an enumeration
(`PostfixCompiler.Json.name?`). -/
def ofJson? (isBlank : Json → Bool) : Json → Option Ty
  | .text name => ofName? name
  | .object [("pointer", v)] => (ofJson? isBlank v).map .pointer
  | .object [("struct", .array vs)] => (eachOfJson? isBlank vs).map .tuple
  | .object [(name, v)] => if isBlank v then ofName? name else none
  | _ => none

/-- The types that JSON values describe. -/
def eachOfJson? (isBlank : Json → Bool) : List Json → Option (List Ty)
  | [] => some []
  | v :: vs => do
    let t ← ofJson? isBlank v
    let ts ← eachOfJson? isBlank vs
    pure (t :: ts)

end

end Ty

/-- The id that a JSON value describes. -/
def NodeId.ofJson? (v : Json) : Option NodeId := v.uint32?.map .mk

/-- The ids that a JSON value describes. -/
def NodeId.allOfJson? (v : Json) : Option (List NodeId) := v.list? ofJson?

/-- The id that a JSON value describes, unless it is `null`. -/
def NodeId.optionOfJson? (v : Json) : Option (Option NodeId) := v.optional? ofJson?

/-- All qualifiers. -/
def Qualifier.all : List Qualifier := [.public, .private, .require]

/-- The qualifier that a JSON value describes. -/
def Qualifier.ofJson? (isBlank : Json → Bool) (v : Json) : Option Qualifier :=
  (v.name? isBlank).bind fun s => all.find? (·.name = s)

/-- All operators with one operand. -/
def UnaryOp.all : List UnaryOp := [.neg, .not, .identity]

/-- The operator that a JSON value describes. -/
def UnaryOp.ofJson? (isBlank : Json → Bool) (v : Json) : Option UnaryOp :=
  (v.name? isBlank).bind fun s => all.find? (·.name = s)

/-- All operators with two operands. -/
def BinaryOp.all : List BinaryOp :=
  [.add, .sub, .mul, .div, .mod, .lt, .le, .ge, .gt, .eq, .ne, .and, .or]

/-- The operator that a JSON value describes. -/
def BinaryOp.ofJson? (isBlank : Json → Bool) (v : Json) : Option BinaryOp :=
  (v.name? isBlank).bind fun s => all.find? (·.name = s)

namespace Kind

/-- The names of the parts of the kind with the given name, in order. -/
def partNames : String → List String
  | "program" => ["declarations"]
  | "variable_declaration" => ["qualifier", "var_type", "identifiers", "initializer"]
  | "function_declaration" => ["qualifier", "return_type", "name", "arguments"]
  | "function_definition" => ["qualifier", "return_type", "name", "arguments", "body"]
  | "block" => ["declarations", "instructions"]
  | "evaluation" | "sizeof" => ["expression"]
  | "write" => ["arguments", "newline"]
  | "if" => ["condition", "then_block"]
  | "if_else" => ["condition", "then_block", "else_block"]
  | "for" => ["initializers", "condition", "increments", "body"]
  | "return" | "integer" | "double" | "string" => ["value"]
  | "variable" => ["name"]
  | "pointer_index" | "tuple_index" => ["base", "index"]
  | "rvalue" | "address_of" => ["lvalue"]
  | "assignment" => ["lvalue", "rvalue"]
  | "unary" => ["op", "argument"]
  | "binary" => ["op", "left", "right"]
  | "stack_alloc" => ["count"]
  | "tuple" => ["elements"]
  | "function_call" => ["name", "arguments"]
  | _ => []

/-- The kind with the given name and parts. -/
def ofParts? (tag : String) (ms : Members) : Option Kind :=
  match tag with
  | "program" => do
    pure (.program (← ms.required? "declarations" NodeId.allOfJson?))
  | "variable_declaration" => do
    pure (.variableDeclaration (← ms.defaulted? "qualifier" (Qualifier.ofJson? isVoid) .private)
      (← ms.required? "var_type" (Ty.ofJson? isVoid))
      (← ms.required? "identifiers" (list? text?))
      (← ms.defaulted? "initializer" NodeId.optionOfJson? none))
  | "function_declaration" => do
    pure (.functionDeclaration (← ms.defaulted? "qualifier" (Qualifier.ofJson? isVoid) .private)
      (← ms.required? "return_type" (Ty.ofJson? isVoid)) (← ms.required? "name" text?)
      (← ms.defaulted? "arguments" NodeId.allOfJson? []))
  | "function_definition" => do
    pure (.functionDefinition (← ms.defaulted? "qualifier" (Qualifier.ofJson? isVoid) .private)
      (← ms.required? "return_type" (Ty.ofJson? isVoid)) (← ms.required? "name" text?)
      (← ms.defaulted? "arguments" NodeId.allOfJson? []) (← ms.required? "body" NodeId.ofJson?))
  | "block" => do
    pure (.block (← ms.defaulted? "declarations" NodeId.allOfJson? [])
      (← ms.defaulted? "instructions" NodeId.allOfJson? []))
  | "evaluation" => do pure (.evaluation (← ms.required? "expression" NodeId.ofJson?))
  | "write" => do
    pure (.write (← ms.required? "arguments" NodeId.allOfJson?)
      (← ms.defaulted? "newline" bool? false))
  | "if" => do
    pure (.ifThen (← ms.required? "condition" NodeId.ofJson?)
      (← ms.required? "then_block" NodeId.ofJson?))
  | "if_else" => do
    pure (.ifElse (← ms.required? "condition" NodeId.ofJson?)
      (← ms.required? "then_block" NodeId.ofJson?) (← ms.required? "else_block" NodeId.ofJson?))
  | "for" => do
    pure (.forLoop (← ms.defaulted? "initializers" NodeId.allOfJson? [])
      (← ms.defaulted? "condition" NodeId.optionOfJson? none)
      (← ms.defaulted? "increments" NodeId.allOfJson? []) (← ms.required? "body" NodeId.ofJson?))
  | "break" => some .break
  | "continue" => some .continue
  | "return" => do pure (.return (← ms.defaulted? "value" NodeId.optionOfJson? none))
  | "integer" => do pure (.integer (← ms.required? "value" int32?))
  | "double" => do pure (.double (← ms.required? "value" double?))
  | "string" => do pure (.string (← ms.required? "value" text?))
  | "nullptr" => some .nullptr
  | "variable" => do pure (.variable (← ms.required? "name" text?))
  | "pointer_index" => do
    pure (.pointerIndex (← ms.required? "base" NodeId.ofJson?)
      (← ms.required? "index" NodeId.ofJson?))
  | "tuple_index" => do
    pure (.tupleIndex (← ms.required? "base" NodeId.ofJson?) (← ms.required? "index" int32?))
  | "rvalue" => do pure (.rvalue (← ms.required? "lvalue" NodeId.ofJson?))
  | "assignment" => do
    pure (.assignment (← ms.required? "lvalue" NodeId.ofJson?)
      (← ms.required? "rvalue" NodeId.ofJson?))
  | "unary" => do
    pure (.unary (← ms.required? "op" (UnaryOp.ofJson? isVoid))
      (← ms.required? "argument" NodeId.ofJson?))
  | "binary" => do
    pure (.binary (← ms.required? "op" (BinaryOp.ofJson? isVoid))
      (← ms.required? "left" NodeId.ofJson?) (← ms.required? "right" NodeId.ofJson?))
  | "address_of" => do pure (.addressOf (← ms.required? "lvalue" NodeId.ofJson?))
  | "stack_alloc" => do pure (.stackAlloc (← ms.required? "count" NodeId.ofJson?))
  | "input" => some .input
  | "sizeof" => do pure (.sizeof (← ms.required? "expression" NodeId.ofJson?))
  | "tuple" => do pure (.tuple (← ms.required? "elements" NodeId.allOfJson?))
  | "function_call" => do
    pure (.functionCall (← ms.required? "name" text?)
      (← ms.defaulted? "arguments" NodeId.allOfJson? []))
  | _ => none

/-- The name of the kind that a JSON value describes, and its parts: the name is the member `node`
of an object, or the first item of an array. -/
def tagged? : Json → Option (String × Json)
  | .object ms =>
    match ms.filter (·.1 = "node") with
    | [(_, .text tag)] => some (tag, .object (ms.filter (·.1 ≠ "node")))
    | _ => none
  | .array (.text tag :: vs) => some (tag, .array vs)
  | _ => none

/-- How many containers a kind stands in: the node, the list of nodes and the tree. -/
def outerContainers : Nat := 3

/-- The kind that a JSON value describes, if containers may be nested `limit` deep. -/
def ofJsonWithin? (limit : Nat) (v : Json) : Option Kind := do
  if !v.readableWithin (limit - outerContainers) then none
  let (tag, parts) ← tagged? v
  ofParts? tag (← parts.members? (partNames tag))

/-- The kind that a JSON value describes. -/
def ofJson? (v : Json) : Option Kind := ofJsonWithin? nestingLimit v

end Kind

/-- The node that a JSON value describes, if containers may be nested `limit` deep. -/
def Node.ofJsonWithin? (limit : Nat) (v : Json) : Option Node := do
  let ms ← v.members? ["line", "kind"]
  pure ⟨← ms.defaulted? "line" uint32? 0, ← ms.required? "kind" (Kind.ofJsonWithin? limit)⟩

namespace SyntaxTree

/-- The nodes and the root that a JSON value describes, if containers may be nested `limit` deep. -/
def partsOfJsonWithin? (limit : Nat) (v : Json) : Option (List Node × NodeId) := do
  let ms ← v.members? ["nodes", "root"]
  pure (← ms.required? "nodes"
    (list? (Node.ofJsonWithin? limit)), ← ms.required? "root" NodeId.ofJson?)

/-- The tree that a JSON value describes, if containers may be nested `limit` deep. -/
def ofJsonWithin (limit : Nat) (v : Json) : Except TreeFault SyntaxTree :=
  match partsOfJsonWithin? limit v with
  | some (nodes, root) => ofNodes nodes.toArray root
  | none => .error .unreadable

/-- The tree that a text describes, if containers may be nested `limit` deep. -/
def ofTextWithin (limit : Nat) (s : String) : Except TreeFault SyntaxTree :=
  match parse? s with
  | some v => ofJsonWithin limit v
  | none => .error .unreadable

/-- The tree that a JSON value describes. -/
def ofJson (v : Json) : Except TreeFault SyntaxTree := ofJsonWithin nestingLimit v

/-- The tree that a text describes. -/
def ofText (s : String) : Except TreeFault SyntaxTree := ofTextWithin nestingLimit s

end SyntaxTree

end PostfixCompiler
