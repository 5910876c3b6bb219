import PostfixCompiler.Typing.Expr

/-!
# Types of declarations

A declaration of variables gives them the type that the written type and the initializer unify to. A
function may be declared any number of times and defined once, as long as all of its declarations
agree.

## Main definitions

* `PostfixCompiler.VarDecl.check`: declares the variables of a declaration.
* `PostfixCompiler.Signature.check`: declares a function, or declares it again.
* `PostfixCompiler.VarDecl.checkAsArgument`: declares an argument in the body of its function.
-/

namespace PostfixCompiler

open Typing

namespace VarDecl

/-! ### Variables -/

/-- What a declaration of variables must satisfy whatever its initializer is. -/
def checkForm (d : VarDecl) (isGlobal : Bool) : CheckM Unit := do
  let required : Bool := d.qualifier = .require
  let isAuto : Bool := d.type = .auto
  require d.line (!(required ∧ d.initializer.isSome)) (.requiredInitialized d.names)
  require d.line (!(required ∧ d.type.containsAuto)) (.requiredTypeUnknown d.names)
  require d.line (isGlobal ∨ d.qualifier = .private) (.localQualified d.names)
  require d.line (d.type ≠ .void) (.voidVariable d.names)
  require d.line (isAuto ∨ !d.type.containsAuto) (.partialVariableType d.names)
  require d.line (d.names.length ≤ 1 ∨ isAuto) (.jointDeclarationTyped d.names)
  require d.line (!isAuto ∨ d.initializer.isSome) (.initializerMissing d.names)

/-- The type that the written type and an initializer of type `value` unify to. Several variables
take the components of a tuple, so for these the initializer must be one, of the same length. -/
def unify (d : VarDecl) (value : Ty) : CheckM Ty :=
  if d.names.length = 1 then
    match d.type.compatible? .initializer value with
    | some t => pure t
    | none => fault d.line (.initializerMismatch d.names d.type value)
  else
    match value with
    | .tuple ts =>
      if ts.length = d.names.length then pure value
      else fault d.line (.notDestructurable value d.names.length)
    | _ => fault d.line (.notDestructurable value d.names.length)

/-- The type of the declaration as a whole. -/
def declaredType (d : VarDecl) (isGlobal : Bool) : CheckM Ty :=
  match d.initializer with
  | none => pure d.type
  | some init => do
    require init.line (!isGlobal ∨ init.isLiteral) (.initializerNotLiteral d.names)
    let _ ← init.check
    init.adapt d.type
    d.unify (← typeOf init.id)

/-- Adds variables to the innermost scope, none of which it may bind already. -/
def declareEach (d : VarDecl) : List (String × Ty) → CheckM Unit
  | [] => pure ()
  | (name, t) :: rest => do
    require d.line ((← get).symbols.lookupLocal? name).isNone (.redeclared name)
    let _ ← define
      { Symbol.ofVariable name d.qualifier t d.line with
        isAuto := d.type = .auto, defined := d.initializer.isSome }
    declareEach d rest

/-- The types of the variables, given the type of the declaration. -/
def typesOfNames (d : VarDecl) (declared : Ty) : List Ty :=
  if d.names.length = 1 then [declared] else declared.components

/-- Declares the variables of a declaration in the innermost scope. -/
def check (d : VarDecl) : CheckM Unit := do
  let isGlobal := (← get).symbols.isGlobalScope
  d.checkForm isGlobal
  let declared ← d.declaredType isGlobal
  require d.line (!declared.containsAuto) (.variableTypeUnknown d.names)
  require d.line (declared ≠ .void) (.voidInitializer d.names)
  d.declareEach (d.names.zip (d.typesOfNames declared))
  setType d.id declared

/-! ### Arguments -/

/-- The type of an argument of `function`: one name, no initializer, and a scalar type. -/
def argumentType (d : VarDecl) (function : String) : CheckM Ty := do
  require d.line (d.names.length = 1 ∧ d.initializer.isNone) (.malformedArgument d.names function)
  require d.line (!d.type.containsAuto) (.argumentTypeUnknown d.names function)
  require d.line (!d.type.isTuple ∧ d.type ≠ .void) (.argumentTypeRefused d.names function d.type)
  pure d.type

/-- Adds the names of an argument to the innermost scope. -/
def declareArgument (d : VarDecl) (t : Ty) : List String → CheckM Unit
  | [] => pure ()
  | name :: rest => do
    require d.line ((← get).symbols.lookupLocal? name).isNone (.argumentRedeclared name)
    let _ ← define { Symbol.ofVariable name .private t d.line with defined := true }
    declareArgument d t rest

/-- Declares an argument in the body of its function. -/
def checkAsArgument (d : VarDecl) : CheckM Unit := do
  let t ← typeOf d.id
  d.declareArgument t d.names

end VarDecl

/-! ### Functions -/

namespace Signature

/-- Records the types of the arguments, and returns them. -/
def checkArguments (s : Signature) : List VarDecl → CheckM (List Ty)
  | [] => pure []
  | d :: ds => do
    let t ← d.argumentType s.name
    setType d.id t
    let ts ← checkArguments s ds
    pure (t :: ts)

/-- A declaration of a function agrees with the symbol that it already has: the same parameters and
qualifier, and the same written return type. -/
def agrees (s : Signature) (parameters : List Ty) (prior : Symbol) : Bool :=
  let sameType : Bool := if prior.isAuto then s.returnType = .auto else prior.type = s.returnType
  sameType && prior.parameters = parameters && prior.qualifier = s.qualifier

/-- Declares a function, or declares it again, and records the type of its result as far as it is
known. -/
def check (s : Signature) (defining : Bool) : CheckM SymbolId := do
  require s.line (!(defining ∧ s.qualifier = .require)) (.requiredDefined s.name)
  require s.line (s.returnType = .auto ∨ !s.returnType.containsAuto) (.partialReturnType s.name)
  let parameters ← s.checkArguments s.arguments
  match (← get).symbols.resolveLocal? s.name with
  | some (id, prior) =>
    require s.line prior.isFunction (.redeclaredAsFunction s.name)
    require s.line (s.agrees parameters prior) (.conflictingDeclarations s.name)
    require s.line (!(defining ∧ prior.defined)) (.functionRedefined s.name)
    setType s.id prior.type
    pure id
  | none =>
    let id ← define (.ofFunction s.name s.qualifier s.returnType parameters s.line)
    setType s.id s.returnType
    pure id

end Signature

end PostfixCompiler
