import PostfixCompiler.Syntax.Node

/-!
# Symbols

A symbol is what is known of a declared name: of a variable its type, of a function its parameters
and the type of its result. The same symbol serves to check the uses of the name and to find its
storage.

## Main definitions

* `PostfixCompiler.Symbol`: a variable or a function.
* `PostfixCompiler.Symbol.ofVariable`, `PostfixCompiler.Symbol.ofFunction`: a symbol as it is
  first declared.
-/

namespace PostfixCompiler

/-- What is known of a declared name. -/
structure Symbol where
  /-- The name. -/
  name : String
  /-- Who may use it. -/
  qualifier : Qualifier
  /-- The type of a variable, or of the result of a function. -/
  type : Ty
  /-- The types of the parameters; only a function has them. -/
  parameters? : Option (List Ty)
  /-- Where the variable is, from the frame pointer; 0 says that it is a variable of the unit. -/
  offset : Int
  /-- The function has a body, or the variable an initial value. -/
  defined : Bool
  /-- The type was left open when the name was declared. -/
  isAuto : Bool
  /-- The line of the declaration. -/
  line : UInt32
deriving DecidableEq

namespace Symbol

/-- A variable of the unit, without initial value. -/
def ofVariable (name : String) (qualifier : Qualifier) (type : Ty) (line : UInt32) : Symbol :=
  { name, qualifier, type, parameters? := none, offset := 0, defined := false
    isAuto := type = .auto, line }

/-- A function without body. -/
def ofFunction (name : String) (qualifier : Qualifier) (returnType : Ty) (parameters : List Ty)
    (line : UInt32) : Symbol :=
  { name, qualifier, type := returnType, parameters? := some parameters, offset := 0
    defined := false, isAuto := returnType = .auto, line }

/-- The symbol is a function. -/
def isFunction (s : Symbol) : Bool := s.parameters?.isSome

/-- The symbol has no place in a frame. -/
def isGlobal (s : Symbol) : Bool := s.offset = 0

/-- The types of the parameters; a variable has none. -/
def parameters (s : Symbol) : List Ty := s.parameters?.getD []

/-- The types of the parameters as one tuple, against which the arguments of a call are checked. -/
def parameterTuple (s : Symbol) : Ty := .tuple s.parameters

end Symbol

end PostfixCompiler
