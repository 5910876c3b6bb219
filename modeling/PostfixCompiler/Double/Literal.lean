import PostfixCompiler.Double.Basic

/-!
# Reading decimal literals

A decimal literal is read in two steps. Its leading digits, as many as fit 64 bits, become a double;
the digits after them only count for their place. Then that double is scaled by a power of ten,
with one multiplication or one division where the power is within reach of a double. A literal that
would become infinite denotes nothing.

## Main definitions

* `PostfixCompiler.Double.Literal`: sign, digits before and after the point, exponent.
* `PostfixCompiler.Double.Literal.value?`: the double that a literal denotes.
-/

namespace PostfixCompiler.Double

/-- A decimal literal. -/
structure Literal where
  /-- A minus sign stands in front. -/
  negative : Bool
  /-- The digits before the point, from left to right. -/
  whole : List Nat
  /-- The digits after the point. -/
  fraction : List Nat
  /-- The power of ten behind the digits. -/
  exponent : Int

/-- Extends the integer `n` by the digits that keep it below `2 ^ 64`, and returns the digits that
are left from the first that does not fit. -/
def absorb (n : Nat) : List Nat → Nat × List Nat
  | [] => (n, [])
  | d :: ds => if 10 * n + d < UInt64.size then absorb (10 * n + d) ds else (n, d :: ds)

/-- The double nearest to `10 ^ k`, for `k` up to 308. -/
def powerOfTen (k : Nat) : Float := Float.ofScientific 1 false k

/-- `x * 10 ^ k`, unless that is infinite. -/
def scaleUp? (x : Float) (k : Nat) : Option Float :=
  if k ≤ 308 then
    let y := x * powerOfTen k
    if y.isInf then none else some y
  else if x == 0 then some x
  else none

/-- `x / 10 ^ k`, in steps of 308 places. -/
def scaleDown (x : Float) (k : Nat) : Float :=
  if k ≤ 308 then x / powerOfTen k
  else if x == 0 then x
  else scaleDown (x / powerOfTen 308) (k - 308)
termination_by k

/-- The integer that the leading digits form, and the power of ten that it counts. -/
def Literal.significand (l : Literal) : Nat × Int :=
  let (n, skipped) := absorb 0 l.whole
  let (m, left) := absorb n l.fraction
  (m, l.exponent + skipped.length - (l.fraction.length - left.length))

/-- The double that the literal denotes. -/
def Literal.value? (l : Literal) : Option Double :=
  let (n, e) := l.significand
  let x := n.toUInt64.toFloat
  let y? := if 0 ≤ e then scaleUp? x e.toNat else some (scaleDown x (-e).toNat)
  y?.map fun y => ofFloat (if l.negative then -y else y)

end PostfixCompiler.Double
