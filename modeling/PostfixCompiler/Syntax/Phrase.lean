import PostfixCompiler.Syntax.Node

/-!
# Phrases

A phrase is a node together with everything below it: an expression, the declaration of variables, a
statement or a declaration of the unit. Every phrase keeps its **site** – the id under which side
tables know the node, and its line – so that what is found out about it can be recorded and
reported.

All passes after validation recurse on phrases. `PostfixCompiler.Syntax.SyntaxTree` makes them from
nodes.

## Main definitions

* `PostfixCompiler.Site`: id and line of a node.
* `PostfixCompiler.Expr`, `PostfixCompiler.VarDecl`, `PostfixCompiler.Stmt`,
  `PostfixCompiler.Block`, `PostfixCompiler.Signature`, `PostfixCompiler.Function`,
  `PostfixCompiler.Decl`.
* `PostfixCompiler.Phrase`: any of these.
* `PostfixCompiler.Expr.kind` and its relatives: the kind of the node on top.
-/

namespace PostfixCompiler

/-- Where a phrase stands: the id of its node and its line. -/
structure Site where
  /-- The id of the node. -/
  id : NodeId
  /-- The line in the source. -/
  line : UInt32
deriving DecidableEq

/-- An expression. -/
inductive Expr where
  /-- An integer literal. -/
  | integer (site : Site) (value : Int32)
  /-- A floating point literal. -/
  | double (site : Site) (value : Double)
  /-- A text literal. -/
  | string (site : Site) (value : String)
  /-- The null pointer. -/
  | nullptr (site : Site)
  /-- A number read from the input. -/
  | input (site : Site)
  /-- The place of a variable. -/
  | variable (site : Site) (name : String)
  /-- The place at an index from a pointer. -/
  | pointerIndex (site : Site) (base index : Expr)
  /-- The place of a component of a tuple, counted from 1. -/
  | tupleIndex (site : Site) (base : Expr) (index : Int32)
  /-- The value that a place holds. -/
  | rvalue (site : Site) (place : Expr)
  /-- A value put into a place. -/
  | assignment (site : Site) (place value : Expr)
  /-- An operator with one operand. -/
  | unary (site : Site) (op : UnaryOp) (argument : Expr)
  /-- An operator with two operands. -/
  | binary (site : Site) (op : BinaryOp) (left right : Expr)
  /-- The address of a place. -/
  | addressOf (site : Site) (place : Expr)
  /-- Fresh memory on the stack. -/
  | stackAlloc (site : Site) (count : Expr)
  /-- The size of an expression. -/
  | sizeof (site : Site) (expression : Expr)
  /-- A tuple. -/
  | tuple (site : Site) (elements : List Expr)
  /-- A call. -/
  | call (site : Site) (name : String) (arguments : List Expr)

namespace Expr

/-- Where the expression stands. -/
def site : Expr → Site
  | .integer s _ | .double s _ | .string s _ | .nullptr s | .input s | .variable s _
  | .pointerIndex s _ _ | .tupleIndex s _ _ | .rvalue s _ | .assignment s _ _ | .unary s _ _
  | .binary s _ _ _ | .addressOf s _ | .stackAlloc s _ | .sizeof s _ | .tuple s _ | .call s _ _ => s

/-- The id of the expression. -/
def id (e : Expr) : NodeId := e.site.id

/-- The line of the expression. -/
def line (e : Expr) : UInt32 := e.site.line

/-- The kind of the node on top. -/
def kind : Expr → Kind
  | .integer _ n => .integer n
  | .double _ d => .double d
  | .string _ s => .string s
  | .nullptr _ => .nullptr
  | .input _ => .input
  | .variable _ name => .variable name
  | .pointerIndex _ b i => .pointerIndex b.id i.id
  | .tupleIndex _ b i => .tupleIndex b.id i
  | .rvalue _ p => .rvalue p.id
  | .assignment _ p v => .assignment p.id v.id
  | .unary _ op a => .unary op a.id
  | .binary _ op l r => .binary op l.id r.id
  | .addressOf _ p => .addressOf p.id
  | .stackAlloc _ n => .stackAlloc n.id
  | .sizeof _ e => .sizeof e.id
  | .tuple _ es => .tuple (es.map id)
  | .call _ name args => .functionCall name (args.map id)

/-- The expression denotes a place in memory; every other expression has a value. -/
def isPlace : Expr → Bool
  | .variable .. | .pointerIndex .. | .tupleIndex .. => true
  | _ => false

mutual

/-- The value is written out in the program: a literal, or a tuple of such values. Nothing else may
initialize a variable of the unit. -/
def isLiteral : Expr → Bool
  | .integer .. | .double .. | .string .. | .nullptr _ => true
  | .tuple _ es => allLiteral es
  | _ => false

/-- All of the values are written out in the program. -/
def allLiteral : List Expr → Bool
  | [] => true
  | e :: es => e.isLiteral && allLiteral es

end

end Expr

/-- The declaration of one variable, or of several that take the components of a tuple; an argument
of a function is declared in the same way. -/
structure VarDecl where
  /-- Where the declaration stands. -/
  site : Site
  /-- Who may use the variables. -/
  qualifier : Qualifier
  /-- The type that is written. -/
  type : Ty
  /-- The variables. -/
  names : List String
  /-- The value that they start with. -/
  initializer : Option Expr

namespace VarDecl

/-- The id of the declaration. -/
def id (d : VarDecl) : NodeId := d.site.id

/-- The line of the declaration. -/
def line (d : VarDecl) : UInt32 := d.site.line

/-- The kind of the node on top. -/
def kind (d : VarDecl) : Kind :=
  .variableDeclaration d.qualifier d.type d.names (d.initializer.map Expr.id)

end VarDecl

/-- What a loop does before its first round. -/
inductive LoopInit where
  /-- A variable that lives as long as the loop. -/
  | declare (declaration : VarDecl)
  /-- An expression evaluated for its effects. -/
  | evaluate (expression : Expr)

/-- The id of the node on top. -/
def LoopInit.id : LoopInit → NodeId
  | .declare d => d.id
  | .evaluate e => e.id

/-- A statement. -/
inductive Stmt where
  /-- Local variables and the statements that use them. -/
  | block (site : Site) (declarations : List VarDecl) (body : List Stmt)
  /-- An expression evaluated for its effects. -/
  | evaluation (site : Site) (expression : Expr)
  /-- Values to be printed. -/
  | write (site : Site) (arguments : List Expr) (newline : Bool)
  /-- A statement under a condition. -/
  | ifThen (site : Site) (condition : Expr) (thenBlock : Stmt)
  /-- Two statements of which a condition chooses one. -/
  | ifElse (site : Site) (condition : Expr) (thenBlock elseBlock : Stmt)
  /-- A loop. -/
  | forLoop (site : Site) (initializers : List LoopInit) (condition : Option Expr)
      (increments : List Expr) (body : Stmt)
  /-- The end of the innermost loop. -/
  | «break» (site : Site)
  /-- The next round of the innermost loop. -/
  | «continue» (site : Site)
  /-- The end of the function. -/
  | «return» (site : Site) (value : Option Expr)

namespace Stmt

/-- Where the statement stands. -/
def site : Stmt → Site
  | .block s _ _ | .evaluation s _ | .write s _ _ | .ifThen s _ _ | .ifElse s _ _ _
  | .forLoop s _ _ _ _ | .break s | .continue s | .return s _ => s

/-- The id of the statement. -/
def id (s : Stmt) : NodeId := s.site.id

/-- The line of the statement. -/
def line (s : Stmt) : UInt32 := s.site.line

/-- The kind of the node on top. -/
def kind : Stmt → Kind
  | .block _ ds body => .block (ds.map VarDecl.id) (body.map id)
  | .evaluation _ e => .evaluation e.id
  | .write _ args newline => .write (args.map Expr.id) newline
  | .ifThen _ c t => .ifThen c.id t.id
  | .ifElse _ c t e => .ifElse c.id t.id e.id
  | .forLoop _ inits c incs body =>
    .forLoop (inits.map LoopInit.id) (c.map Expr.id) (incs.map Expr.id) body.id
  | .break _ => .break
  | .continue _ => .continue
  | .return _ v => .return (v.map Expr.id)

end Stmt

/-- The body of a function. -/
structure Block where
  /-- Where the body stands. -/
  site : Site
  /-- The local variables. -/
  declarations : List VarDecl
  /-- The statements that use them. -/
  body : List Stmt

/-- The body as a statement. -/
def Block.stmt (b : Block) : Stmt := .block b.site b.declarations b.body

/-- What a function promises to its callers. -/
structure Signature where
  /-- Where the declaration or definition stands. -/
  site : Site
  /-- Who may call the function. -/
  qualifier : Qualifier
  /-- The type that is written for its result. -/
  returnType : Ty
  /-- The function. -/
  name : String
  /-- The declarations of its arguments. -/
  arguments : List VarDecl

/-- The id of the declaration or definition. -/
def Signature.id (s : Signature) : NodeId := s.site.id

/-- The line of the declaration or definition. -/
def Signature.line (s : Signature) : UInt32 := s.site.line

/-- A function with its body. -/
structure Function where
  /-- What it promises to its callers. -/
  signature : Signature
  /-- How it keeps that. -/
  body : Block

/-- A declaration of the unit. -/
inductive Decl where
  /-- Variables of the unit. -/
  | variable (declaration : VarDecl)
  /-- A function without its body. -/
  | declare (signature : Signature)
  /-- A function with its body. -/
  | define (function : Function)

namespace Decl

/-- Where the declaration stands. -/
def site : Decl → Site
  | .variable d => d.site
  | .declare s => s.site
  | .define f => f.signature.site

/-- The id of the declaration. -/
def id (d : Decl) : NodeId := d.site.id

/-- The kind of the node on top. -/
def kind : Decl → Kind
  | .variable d => d.kind
  | .declare s => .functionDeclaration s.qualifier s.returnType s.name (s.arguments.map VarDecl.id)
  | .define f =>
    .functionDefinition f.signature.qualifier f.signature.returnType f.signature.name
      (f.signature.arguments.map VarDecl.id) f.body.site.id

end Decl

/-- A node with everything below it. -/
inductive Phrase where
  /-- The unit. -/
  | program (site : Site) (declarations : List Decl)
  /-- A declaration. -/
  | declaration (declaration : Decl)
  /-- A statement. -/
  | statement (statement : Stmt)
  /-- An expression. -/
  | expression (expression : Expr)

namespace Phrase

/-- The kind of the node on top. -/
def kind : Phrase → Kind
  | .program _ ds => .program (ds.map Decl.id)
  | .declaration d => d.kind
  | .statement s => s.kind
  | .expression e => e.kind

/-- The phrase as a declaration. -/
def decl? : Phrase → Option Decl
  | .declaration d => some d
  | _ => none

/-- The phrase as a declaration of variables. -/
def varDecl? : Phrase → Option VarDecl
  | .declaration (.variable d) => some d
  | _ => none

/-- The phrase as a function with its body. -/
def function? : Phrase → Option Function
  | .declaration (.define f) => some f
  | _ => none

/-- The phrase as a statement. -/
def stmt? : Phrase → Option Stmt
  | .statement s => some s
  | _ => none

/-- The phrase as a block. -/
def block? : Phrase → Option Block
  | .statement (.block site ds body) => some ⟨site, ds, body⟩
  | _ => none

/-- The phrase as an expression, a place or a value. -/
def expr? : Phrase → Option Expr
  | .expression e => some e
  | _ => none

/-- The phrase as an expression that denotes a place. -/
def place? : Phrase → Option Expr
  | .expression e => if e.isPlace then some e else none
  | _ => none

/-- The phrase as an expression that has a value. A place has none: reading it takes an `rvalue`. -/
def value? : Phrase → Option Expr
  | .expression e => if e.isPlace then none else some e
  | _ => none

/-- The phrase as something that a loop may do before its first round. -/
def loopInit? (p : Phrase) : Option LoopInit :=
  match p.varDecl? with
  | some d => some (.declare d)
  | none => p.value?.map .evaluate

end Phrase

end PostfixCompiler
