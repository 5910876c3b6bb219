import PostfixCompiler.Ty.Basic

/-!
# Compatible types

Where two types meet – a declared type and its initializer, the operands of an operator, the returns
of a function – they have to be unified. Unification is structural, with five independent
**options** that each accept more pairs; four sets of options are used in the language.

## Main definitions

* `PostfixCompiler.CompatOptions`: the options, and the sets `operator`, `assignment`,
  `initializer` and `inference`.
* `PostfixCompiler.Ty.compatible?`: the type that two types unify to, if they do.

Tuples with one component are looked through on both sides, the left one first. Below a pointer no
number is widened, because a pointer to an `int` cannot be read as a pointer to a `double`.
-/

namespace PostfixCompiler

/-- What unification accepts besides equal types. -/
structure CompatOptions where
  /-- An `int` on the left unifies with a `double` on the right. -/
  intToDouble : Bool
  /-- A `double` on the left unifies with an `int` on the right. -/
  doubleFromInt : Bool
  /-- An `auto` unifies with whatever stands on the other side. -/
  fillAuto : Bool
  /-- A pointer to `void` unifies with any pointer. -/
  voidPointer : Bool
  /-- Pointers that disagree unify to a pointer to `void`. -/
  generalize : Bool
deriving DecidableEq

namespace CompatOptions

/-- Operands of an operator: an `int` beside a `double` is widened on either side. -/
def operator : CompatOptions := ⟨true, true, false, false, false⟩

/-- A value that goes to a location of known type: it may be widened, never narrowed. -/
def assignment : CompatOptions := ⟨false, true, false, true, false⟩

/-- A declared type and its initializer: as an assignment, and `auto` is filled. -/
def initializer : CompatOptions := ⟨false, true, true, true, false⟩

/-- The returns of a function whose type is inferred: all options are on. -/
def inference : CompatOptions := ⟨true, true, true, true, true⟩

/-- The options below a pointer, where no number is widened. -/
def throughPointer (o : CompatOptions) : CompatOptions :=
  { o with intToDouble := false, doubleFromInt := false }

end CompatOptions

namespace Ty

/-- The type inside the one-component tuples around it. -/
def stripped : Ty → Ty
  | .tuple [t] => t.stripped
  | t => t

mutual

/-- The type that `left`, the destination, and `right`, the value, unify to. -/
def compatible? (o : CompatOptions) (left right : Ty) : Option Ty :=
  match left with
  | .tuple [a] => a.compatible? o right
  | left =>
    match left, right.stripped with
    | .auto, b => if o.fillAuto then some b else none
    | a, .auto => if o.fillAuto then some a else none
    | .void, .void => some .void
    | .int, .int => some .int
    | .double, .double => some .double
    | .string, .string => some .string
    | .int, .double => if o.intToDouble then some .double else none
    | .double, .int => if o.doubleFromInt then some .double else none
    | .pointer a, .pointer b =>
      if o.voidPointer ∧ a = .void then some (.pointer b)
      else if o.voidPointer ∧ b = .void then some (.pointer a)
      else
        match a.compatible? o.throughPointer b with
        | some t => some (.pointer t)
        | none => if o.generalize then some genericPointer else none
    | .tuple as, .tuple bs => (compatibleAll? o as bs).map .tuple
    | _, _ => none

/-- The types that the components of two tuples unify to, position by position. -/
def compatibleAll? (o : CompatOptions) (lefts rights : List Ty) : Option (List Ty) :=
  match lefts, rights with
  | [], [] => some []
  | a :: as, b :: bs => do
    let t ← a.compatible? o b
    let ts ← compatibleAll? o as bs
    pure (t :: ts)
  | _, _ => none

end

end Ty

end PostfixCompiler
