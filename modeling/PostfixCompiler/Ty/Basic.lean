/-!
# Types

The types of the language are structural: a type is a scalar, a pointer, a tuple of types, or the
placeholder `auto` that stands for a type still to be inferred. A tuple with one component is kept
as it is written, and the unification of `PostfixCompiler.Ty.compatible?` looks through it.

## Main definitions

* `PostfixCompiler.Ty`: the types, with `DecidableEq`.
* `PostfixCompiler.Ty.size`: the bytes that a value takes, in memory and on the stack alike.
* `PostfixCompiler.Ty.leaves`, `PostfixCompiler.Ty.leafOffsets`: the scalars of a type from left to
  right, alone and with the byte at which each starts.
* `PostfixCompiler.Ty.componentOffset?`: where a component of a tuple starts.
* `PostfixCompiler.Ty.text`: the type as diagnostics show it.

A value is laid out with its first component at the lowest address. On the stack the last component
is pushed first, so the first one ends up on top and the stack image equals the memory image.
-/

namespace PostfixCompiler

/-- A type of the language. -/
inductive Ty where
  /-- No value; below a pointer, a value of any type. -/
  | void
  /-- A 32-bit integer. -/
  | int
  /-- A 64-bit floating point number. -/
  | double
  /-- The address of a text. -/
  | string
  /-- The address of a value of type `referent`. -/
  | pointer (referent : Ty)
  /-- A tuple, with its component types in order. -/
  | tuple (components : List Ty)
  /-- A type that an initializer or a return has still to decide. -/
  | auto

namespace Ty

/-! ### Decidable equality -/

mutual

/-- Two types are equal or they are not. -/
def decEq : (a b : Ty) → Decidable (a = b)
  | .void, .void => isTrue rfl
  | .int, .int => isTrue rfl
  | .double, .double => isTrue rfl
  | .string, .string => isTrue rfl
  | .auto, .auto => isTrue rfl
  | .pointer a, .pointer b =>
    match decEq a b with
    | isTrue h => isTrue (by rw [h])
    | isFalse h => isFalse (by simpa using h)
  | .tuple as, .tuple bs =>
    match decEqList as bs with
    | isTrue h => isTrue (by rw [h])
    | isFalse h => isFalse (by simpa using h)
  | .void, .int | .void, .double | .void, .string | .void, .pointer _ | .void, .tuple _
  | .void, .auto | .int, .void | .int, .double | .int, .string | .int, .pointer _ | .int, .tuple _
  | .int, .auto | .double, .void | .double, .int | .double, .string | .double, .pointer _
  | .double, .tuple _ | .double, .auto | .string, .void | .string, .int | .string, .double
  | .string, .pointer _ | .string, .tuple _ | .string, .auto | .pointer _, .void | .pointer _, .int
  | .pointer _, .double | .pointer _, .string | .pointer _, .tuple _ | .pointer _, .auto
  | .tuple _, .void | .tuple _, .int | .tuple _, .double | .tuple _, .string | .tuple _, .pointer _
  | .tuple _, .auto | .auto, .void | .auto, .int | .auto, .double | .auto, .string
  | .auto, .pointer _ | .auto, .tuple _ => isFalse (by simp)

/-- Two lists of types are equal or they are not. -/
def decEqList : (as bs : List Ty) → Decidable (as = bs)
  | [], [] => isTrue rfl
  | [], _ :: _ => isFalse (by simp)
  | _ :: _, [] => isFalse (by simp)
  | a :: as, b :: bs =>
    match decEq a b, decEqList as bs with
    | isTrue h, isTrue hs => isTrue (by rw [h, hs])
    | isFalse h, _ => isFalse (by simp [h])
    | _, isFalse hs => isFalse (by simp [hs])

end

instance : DecidableEq Ty := decEq

/-! ### Kinds of types -/

/-- The type of the null pointer: it refers to a value of any type. -/
def genericPointer : Ty := .pointer .void

/-- Arithmetic is defined on the type. -/
def isNumeric : Ty → Bool
  | .int | .double => true
  | _ => false

/-- The type is a tuple, of any number of components. -/
def isTuple : Ty → Bool
  | .tuple _ => true
  | _ => false

/-- The type is a pointer. -/
def isPointer : Ty → Bool
  | .pointer _ => true
  | _ => false

/-- What a pointer refers to. -/
def referent? : Ty → Option Ty
  | .pointer t => some t
  | _ => none

/-- The components of a tuple; any other type is its own only component. -/
def components : Ty → List Ty
  | .tuple ts => ts
  | t => [t]

mutual

/-- An `auto` is left somewhere in the type, below pointers and inside tuples too. -/
def containsAuto : Ty → Bool
  | .auto => true
  | .pointer t => t.containsAuto
  | .tuple ts => anyContainsAuto ts
  | _ => false

/-- An `auto` is left in one of the types. -/
def anyContainsAuto : List Ty → Bool
  | [] => false
  | t :: ts => t.containsAuto || anyContainsAuto ts

end

mutual

/-- `write` knows how to print a value of the type: all of its leaves are numbers or strings. -/
def isPrintable : Ty → Bool
  | .int | .double | .string => true
  | .tuple ts => allPrintable ts
  | _ => false

/-- `write` knows how to print a value of each of the types. -/
def allPrintable : List Ty → Bool
  | [] => true
  | t :: ts => t.isPrintable && allPrintable ts

end

/-! ### Sizes and offsets -/

/-- The bytes of an integer, of a string and of a pointer. -/
def wordSize : Nat := 4

/-- The bytes of a double. -/
def doubleSize : Nat := 8

mutual

/-- The bytes that a value of the type takes. Neither `void` nor `auto` has a value. -/
def size : Ty → Nat
  | .void | .auto => 0
  | .int | .string | .pointer _ => wordSize
  | .double => doubleSize
  | .tuple ts => sizeOfAll ts

/-- The bytes that values of the types take, one after the other. -/
def sizeOfAll : List Ty → Nat
  | [] => 0
  | t :: ts => t.size + sizeOfAll ts

end

mutual

/-- The types at the tips, from left to right: nested tuples are flattened. -/
def leaves : Ty → List Ty
  | .tuple ts => leavesOfAll ts
  | t => [t]

/-- The leaves of the types, one type after the other. -/
def leavesOfAll : List Ty → List Ty
  | [] => []
  | t :: ts => t.leaves ++ leavesOfAll ts

end

mutual

/-- The leaves of a type whose value starts at byte `base`, each with the byte where it starts. -/
def leavesFrom (base : Nat) : Ty → List (Ty × Nat)
  | .tuple ts => leavesOfAllFrom base ts
  | t => [(t, base)]

/-- The leaves of types whose values stand one after the other from byte `base` on. -/
def leavesOfAllFrom (base : Nat) : List Ty → List (Ty × Nat)
  | [] => []
  | t :: ts => t.leavesFrom base ++ leavesOfAllFrom (base + t.size) ts

end

/-- The leaves with their byte offsets, lowest address first. -/
def leafOffsets (t : Ty) : List (Ty × Nat) := t.leavesFrom 0

/-- The byte where component `index` of a tuple starts, components being counted from 1: the size of
everything before it. Only a tuple has components in this sense. -/
def componentOffset? (t : Ty) (index : Int) : Option Nat :=
  match t with
  | .tuple ts =>
    if 1 ≤ index ∧ index ≤ ts.length then some (sizeOfAll (ts.take (index.toNat - 1))) else none
  | _ => none

/-- The bytes by which a pointer moves when 1 is added to it: the size of what it refers to, and one
byte where that has no size. -/
def pointerStep : Ty → Nat
  | .pointer t => max t.size 1
  | _ => 1

/-! ### The text of a type -/

mutual

/-- The type as diagnostics show it. -/
def text : Ty → String
  | .void => "void"
  | .int => "int"
  | .double => "double"
  | .string => "string"
  | .auto => "auto"
  | .pointer t => "ptr<" ++ t.text ++ ">"
  | .tuple [] => "()"
  | .tuple (t :: ts) => "(" ++ t.text ++ textOfRest ts ++ ")"

/-- The components after the first, each behind its comma. -/
def textOfRest : List Ty → String
  | [] => ""
  | t :: ts => ", " ++ t.text ++ textOfRest ts

end

end Ty

end PostfixCompiler
