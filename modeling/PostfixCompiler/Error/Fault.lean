import PostfixCompiler.Syntax.Describe

/-!
# Faults

A fault is the cause of an error, as a value: what is wrong and the names, types and nodes that it
is wrong about. Its wording is a function of the fault and stands here too, once for each.

## Main definitions

* `PostfixCompiler.TreeFault`: the nodes do not form a tree of the language.
* `PostfixCompiler.TypeFault`: the program is ill-typed, or a name is used against its declaration.
* `PostfixCompiler.FlowFault`: control leaves a function or a block where it must not.
* `PostfixCompiler.InternalFault`: a pass finds the tree or its types in a state that the passes
  before it should have refused.
-/

namespace PostfixCompiler

/-- A word between single quotes. -/
def ticked (s : String) : String := "'" ++ s ++ "'"

/-! ### Trees -/

/-- What a node below another one should be. -/
inductive Position where
  /-- A declaration of the unit. -/
  | declaration
  /-- An argument of a function. -/
  | argument
  /-- The body of a function. -/
  | block
  /-- A local variable. -/
  | variableDeclaration
  /-- A statement. -/
  | statement
  /-- An expression that has a value. -/
  | value
  /-- What a loop may do before its first round. -/
  | initializer
  /-- An expression that denotes a place. -/
  | lvalue
  /-- Any expression. -/
  | expression
deriving DecidableEq

/-- What is expected, in words. -/
def Position.text : Position → String
  | .declaration => "a declaration"
  | .argument => "an argument"
  | .block => "a block"
  | .variableDeclaration => "a variable declaration"
  | .statement => "a statement"
  | .value => "a value"
  | .initializer => "an initializer"
  | .lvalue => "an lvalue"
  | .expression => "an expression"

/-- The nodes do not form a tree of the language. -/
inductive TreeFault where
  /-- The root is the index of no node. -/
  | rootMissing (root : NodeId)
  /-- The root is not a unit. -/
  | rootNotProgram (root : NodeId)
  /-- A node stands after the one that refers to it, or nowhere. -/
  | notBefore (index : Nat) (child : NodeId)
  /-- Two references lead to the same node. -/
  | shared (child : NodeId)
  /-- A node is not what the one above needs there. -/
  | misplaced (id : NodeId) (position : Position) (child : NodeId)
  /-- A declaration of variables names none. -/
  | noNames (id : NodeId)
  /-- The text does not hold a tree at all. -/
  | unreadable
deriving DecidableEq

/-- The wording of a fault. -/
def TreeFault.message : TreeFault → String
  | .rootMissing root => "root " ++ root.text ++ " is not a node"
  | .rootNotProgram root => "root " ++ root.text ++ " is not a program"
  | .notBefore i child =>
    "node #" ++ toString i ++ " refers to " ++ child.text ++ " which is not allocated before it"
  | .shared child => "node " ++ child.text ++ " has more than one parent"
  | .misplaced id position child => id.text ++ " expects " ++ position.text ++ " at " ++ child.text
  | .noNames id => id.text ++ " declares no identifiers"
  | .unreadable => "not the JSON form of a tree"

/-! ### Types and names -/

/-- The program is ill-typed, or a name is used against its declaration. -/
inductive TypeFault where
  /-- A function of another unit has a body. -/
  | requiredDefined (function : String)
  /-- A return type is written with an `auto` inside. -/
  | partialReturnType (function : String)
  /-- A variable is declared again as a function. -/
  | redeclaredAsFunction (name : String)
  /-- Two declarations of a function disagree. -/
  | conflictingDeclarations (function : String)
  /-- A function has two bodies. -/
  | functionRedefined (function : String)
  /-- An argument is declared with several names or with an initializer. -/
  | malformedArgument (names : List String) (function : String)
  /-- The type of an argument is left open. -/
  | argumentTypeUnknown (names : List String) (function : String)
  /-- An argument is a tuple or has no value. -/
  | argumentTypeRefused (names : List String) (function : String) (type : Ty)
  /-- Nothing decides the return type. -/
  | returnTypeUnknown (function : String)
  /-- A return changed the type that an earlier call of the function in its own body relied on. -/
  | returnTypeChanged (function : String)
  /-- Two arguments have one name. -/
  | argumentRedeclared (name : String)
  /-- A variable of another unit has an initializer. -/
  | requiredInitialized (names : List String)
  /-- The type of a variable of another unit is left open. -/
  | requiredTypeUnknown (names : List String)
  /-- A local variable is offered to other units or taken from one. -/
  | localQualified (names : List String)
  /-- A variable is declared without a value. -/
  | voidVariable (names : List String)
  /-- A type is written with an `auto` inside. -/
  | partialVariableType (names : List String)
  /-- Several variables are declared with a type. -/
  | jointDeclarationTyped (names : List String)
  /-- Nothing decides the type of a variable. -/
  | initializerMissing (names : List String)
  /-- A variable of the unit starts with a computed value. -/
  | initializerNotLiteral (names : List String)
  /-- The initializer does not fit the type. -/
  | initializerMismatch (names : List String) (type value : Ty)
  /-- The initializer does not have one component for each variable. -/
  | notDestructurable (value : Ty) (count : Nat)
  /-- The initializer does not decide the type. -/
  | variableTypeUnknown (names : List String)
  /-- The initializer has no value. -/
  | voidInitializer (names : List String)
  /-- A name is declared twice in one scope. -/
  | redeclared (name : String)
  /-- A value cannot be printed. -/
  | notPrintable (type : Ty)
  /-- The tested value of a loop is no integer. -/
  | loopConditionNotInteger (type : Ty)
  /-- The tested value is no integer. -/
  | conditionNotInteger (type : Ty)
  /-- A return stands in no function. -/
  | returnOutsideFunction
  /-- A return without value, where one is due. -/
  | returnNeedsValue (function : String)
  /-- A return with a value, where none is due. -/
  | returnOfValue (function : String)
  /-- The returned expression has no value, or its type is not known. -/
  | returnTypeRefused (type : Ty)
  /-- Two returns do not unify. -/
  | returnsConflict (type earlier : Ty) (function : String)
  /-- A return does not fit the return type. -/
  | returnMismatch (type : Ty) (function : String) (returnType : Ty)
  /-- Nothing decides what fresh memory holds. -/
  | elementTypeUnknown
  /-- No variable of that name is in scope. -/
  | undeclaredVariable (name : String)
  /-- A function stands for a variable. -/
  | functionAsVariable (name : String)
  /-- An index is applied to no pointer, or to one that refers to no value. -/
  | notIndexable (type : Ty)
  /-- An index is no integer. -/
  | indexNotInteger (type : Ty)
  /-- A component is taken of no tuple. -/
  | notATuple (index : Int32) (type : Ty)
  /-- The tuple has no such component. -/
  | componentOutOfRange (index : Int32) (type : Ty)
  /-- A tuple is assigned. -/
  | tupleAssignment
  /-- The value does not fit the place. -/
  | assignmentMismatch (value target : Ty)
  /-- The operator is not defined on the operand. -/
  | unaryMismatch (type : Ty)
  /-- A number of elements is no integer. -/
  | countNotInteger (type : Ty)
  /-- A component has no value. -/
  | voidComponent
  /-- A tuple has no components. -/
  | emptyTuple
  /-- The operator is not defined on the operands. -/
  | binaryMismatch (left right : Ty) (op : BinaryOp)
  /-- No function of that name is in scope. -/
  | undeclaredFunction (name : String)
  /-- A variable is called. -/
  | notAFunction (name : String)
  /-- A call has too many or too few arguments. -/
  | argumentCount (function : String) (expected got : Nat)
  /-- The arguments of a call do not fit the parameters. -/
  | argumentsMismatch (arguments parameters : Ty) (function : String)
  /-- A call relies on a return type that is not decided yet. -/
  | calledTooEarly (function : String)
deriving DecidableEq

/-- The wording of a fault. -/
def TypeFault.message : TypeFault → String
  | .requiredDefined f => "function " ++ ticked f ++ " is declared 'require' and cannot be defined"
  | .partialReturnType f => "function " ++ ticked f ++ " has a partially inferred return type"
  | .redeclaredAsFunction n => ticked n ++ " redeclared as a function"
  | .conflictingDeclarations f => "conflicting declarations for " ++ ticked f
  | .functionRedefined f => "function " ++ ticked f ++ " redefined"
  | .malformedArgument ns f =>
    "malformed argument " ++ ticked (commaSeparated ns) ++ " of " ++ ticked f
  | .argumentTypeUnknown ns f =>
    "argument " ++ ticked (commaSeparated ns) ++ " of " ++ ticked f ++ " must have a known type"
  | .argumentTypeRefused ns f t =>
    "argument " ++ ticked (commaSeparated ns) ++ " of " ++ ticked f ++
      " cannot have type " ++ t.text
  | .returnTypeUnknown f => "cannot infer the return type of " ++ ticked f
  | .returnTypeChanged f => "return type of " ++ ticked f ++ " changed after it was used"
  | .argumentRedeclared n => "argument " ++ ticked n ++ " redeclared"
  | .requiredInitialized ns =>
    ticked (commaSeparated ns) ++ " is declared 'require' and cannot be initialized"
  | .requiredTypeUnknown ns =>
    ticked (commaSeparated ns) ++ " is declared 'require' and needs a known type"
  | .localQualified ns =>
    "local variable " ++ ticked (commaSeparated ns) ++ " cannot be public or required"
  | .voidVariable ns => "variable " ++ ticked (commaSeparated ns) ++ " cannot be void"
  | .partialVariableType ns =>
    "variable " ++ ticked (commaSeparated ns) ++ " has a partially inferred type"
  | .jointDeclarationTyped ns =>
    "declaring " ++ ticked (commaSeparated ns) ++ " together requires 'auto'"
  | .initializerMissing ns =>
    "'auto' variable " ++ ticked (commaSeparated ns) ++ " needs an initializer"
  | .initializerNotLiteral ns =>
    "global " ++ ticked (commaSeparated ns) ++ " must be initialized with a literal"
  | .initializerMismatch ns t v =>
    "cannot initialize " ++ ticked (commaSeparated ns) ++ " of type " ++ t.text
      ++ " with a value of type " ++ v.text
  | .notDestructurable v n =>
    "cannot destructure a value of type " ++ v.text ++ " into " ++ toString n ++ " variables"
  | .variableTypeUnknown ns => "cannot infer the type of " ++ ticked (commaSeparated ns)
  | .voidInitializer ns => "variable " ++ ticked (commaSeparated ns) ++ " cannot hold a void value"
  | .redeclared n => ticked n ++ " redeclared"
  | .notPrintable t => "cannot write a value of type " ++ t.text
  | .loopConditionNotInteger t => "loop condition of type " ++ t.text ++ " is not an integer"
  | .conditionNotInteger t => "condition of type " ++ t.text ++ " is not an integer"
  | .returnOutsideFunction => "return outside of a function"
  | .returnNeedsValue f => "function " ++ ticked f ++ " must return a value"
  | .returnOfValue f => "void function " ++ ticked f ++ " cannot return a value"
  | .returnTypeRefused t => "cannot return a value of type " ++ t.text
  | .returnsConflict t earlier f =>
    "return of type " ++ t.text ++ " conflicts with earlier returns of type " ++ earlier.text
      ++ " in " ++ ticked f
  | .returnMismatch t f r =>
    "cannot return " ++ t.text ++ " from " ++ ticked f ++ " returning " ++ r.text
  | .elementTypeUnknown => "cannot infer the element type of this allocation"
  | .undeclaredVariable n => "undeclared variable " ++ ticked n
  | .functionAsVariable n => "function " ++ ticked n ++ " used as a variable"
  | .notIndexable t => "cannot index a value of type " ++ t.text
  | .indexNotInteger t => "pointer index of type " ++ t.text ++ " is not an integer"
  | .notATuple i t =>
    "cannot take component " ++ toString i.toInt ++ " of a value of type " ++ t.text
  | .componentOutOfRange i t =>
    "tuple index " ++ toString i.toInt ++ " out of range for type " ++ t.text
  | .tupleAssignment => "tuple assignment is not supported"
  | .assignmentMismatch v t =>
    "cannot assign a value of type " ++ v.text ++ " to a " ++ t.text ++ " location"
  | .unaryMismatch t => "wrong type " ++ t.text ++ " for unary operator"
  | .countNotInteger t => "allocation size of type " ++ t.text ++ " is not an integer"
  | .voidComponent => "void value in a tuple"
  | .emptyTuple => "empty tuple"
  | .binaryMismatch l r op =>
    "wrong types " ++ l.text ++ " and " ++ r.text ++ " for operator " ++ ticked op.symbol
  | .undeclaredFunction n => "undeclared function " ++ ticked n
  | .notAFunction n => ticked n ++ " is not a function"
  | .argumentCount f expected got =>
    "wrong number of arguments in call to " ++ ticked f ++ ": expected " ++ toString expected
      ++ ", got " ++ toString got
  | .argumentsMismatch args params f =>
    "arguments " ++ args.text ++ " do not match the parameters " ++ params.text ++
      " of " ++ ticked f
  | .calledTooEarly f => "function " ++ ticked f ++ " does not have a known return type"

/-! ### Control flow -/

/-- Control leaves a function or a block where it must not. -/
inductive FlowFault where
  /-- A function with a result can run off its end. -/
  | missingReturn (function : String)
  /-- A statement follows one that always returns. -/
  | afterReturn
  /-- A statement follows one that always leaves the block. -/
  | afterJump
  /-- A `break` stands in no loop. -/
  | breakOutsideLoop
  /-- A `continue` stands in no loop. -/
  | continueOutsideLoop
deriving DecidableEq

/-- The wording of a fault. -/
def FlowFault.message : FlowFault → String
  | .missingReturn f => "function " ++ ticked f ++ " does not always return a value"
  | .afterReturn => "return must be the last instruction in a block"
  | .afterJump => "break/continue must be the last instruction in a block"
  | .breakOutsideLoop => "'break' outside of a loop"
  | .continueOutsideLoop => "'continue' outside of a loop"

/-! ### States that should not arise -/

/-- A pass finds the tree or its types in a state that the passes before it should have refused. -/
inductive InternalFault where
  /-- A node has no type. -/
  | untyped (id : NodeId)
  /-- The flow of something that is no function is asked for. -/
  | flowOf (kind : Kind)
  /-- The frame of something that is no function is asked for. -/
  | frameOf (kind : Kind)
  /-- A function with a body has no symbol. -/
  | neverDeclared (function : String)
  /-- The slots of a frame are not those that the code uses. -/
  | slotsDiffer (function : String) (reserved used : List NodeId)
  /-- Code needs a slot that the frame does not have. -/
  | slotMissing (id : NodeId)
  /-- Code needs a slot for the address of a tuple that is read. -/
  | pinMissing (id : NodeId)
  /-- A component is stored into a place that can hold a scalar only. -/
  | componentOfPlace
  /-- A value is stored as a type of another shape. -/
  | notStorable (source target : Ty)
  /-- A tuple of the unit does not have one component for each variable. -/
  | notDestructurable (id : NodeId)
  /-- A tuple of the unit does not have the shape of its type. -/
  | shapeMismatch (id : NodeId) (type : Ty)
  /-- A variable of the unit starts with a computed value. -/
  | notStatic (kind : Kind)
  /-- Variables of the unit are declared together with something that is no tuple. -/
  | notALiteralTuple (kind : Kind)
  /-- An address is on the stack where a value is due. -/
  | addressForValue (id : NodeId)
  /-- A value is on the stack where an address is due. -/
  | valueForAddress (id : NodeId)
  /-- A variable is not in scope. -/
  | noStorage (name : String)
  /-- A tuple does not have the component that is taken. -/
  | badComponent (index : Int32) (base : NodeId)
  /-- A pointer is the right operand of a sum or difference, and the left one is none. -/
  | pointerArithmetic (left right : Ty)
  /-- A function is not in scope. -/
  | unknownFunction (name : String)
  /-- A `break` stands in no loop. -/
  | breakOutsideLoop
  /-- A `continue` stands in no loop. -/
  | continueOutsideLoop
deriving DecidableEq

/-- The wording of a fault. -/
def InternalFault.message : InternalFault → String
  | .untyped id => "node " ++ id.text ++ " reached code generation untyped"
  | .flowOf k => "flow check of " ++ k.describe
  | .frameOf k => "frame of " ++ k.describe
  | .neverDeclared f => "function " ++ ticked f ++ " was never declared"
  | .slotsDiffer f reserved used =>
    "frame of " ++ ticked f ++ " reserves temporaries for " ++ NodeId.describeSet reserved
      ++ " but code uses " ++ NodeId.describeSet used
  | .slotMissing id => "no temporary reserved for node " ++ id.text
  | .pinMissing id => "rvalue " ++ id.text ++ " has no pin slot"
  | .componentOfPlace => "component store through an lvalue"
  | .notStorable source target => "cannot store " ++ source.text ++ " as " ++ target.text
  | .notDestructurable id => "cannot destructure the initializer of " ++ id.text
  | .shapeMismatch id t => "tuple " ++ id.text ++ " does not match " ++ t.text
  | .notStatic k => k.describe ++ " in a static initializer"
  | .notALiteralTuple k => k.describe ++ " is not a literal tuple"
  | .addressForValue id => "node " ++ id.text ++ " produced an address for a value"
  | .valueForAddress id => "node " ++ id.text ++ " produced a value for an address"
  | .noStorage n => ticked n ++ " has no storage"
  | .badComponent i base => "bad component " ++ toString i.toInt ++ " of node " ++ base.text
  | .pointerArithmetic l r => "pointer arithmetic on " ++ l.text ++ " and " ++ r.text
  | .unknownFunction n => "call to unknown function " ++ ticked n
  | .breakOutsideLoop => "'break' outside of a loop"
  | .continueOutsideLoop => "'continue' outside of a loop"

end PostfixCompiler
