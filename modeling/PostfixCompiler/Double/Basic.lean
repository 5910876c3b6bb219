/-!
# Doubles

A double is kept as the 64 bits of its binary form, so that two doubles are equal exactly when they
are the same number in the same form: zero and minus zero are told apart.

## Main definitions

* `PostfixCompiler.Double`: the bits, with `DecidableEq`.
* `PostfixCompiler.Double.ofInt`: the double nearest to an integer.
* `PostfixCompiler.Double.magnitude`: the absolute value of a finite double as `m * 2 ^ q`.
-/

namespace PostfixCompiler

/-- A floating point number of 64 bits, by its bits. -/
structure Double where
  /-- Sign, eleven bits of exponent, fifty-two bits of fraction. -/
  bits : UInt64
deriving DecidableEq

namespace Double

/-- The double with the value of `x`. -/
def ofFloat (x : Float) : Double := ⟨x.toBits⟩

/-- The double nearest to the integer, of two the one with the even mantissa. -/
def ofInt (i : Int) : Double := ofFloat (Float.ofInt i)

/-- The sign bit is set. -/
def isNegative (d : Double) : Bool := d.bits >>> 63 == 1

/-- The eleven bits of the exponent. -/
def exponentBits (d : Double) : Nat := ((d.bits >>> 52) &&& 0x7ff).toNat

/-- The fifty-two bits of the fraction. -/
def fractionBits (d : Double) : Nat := (d.bits &&& 0xfffffffffffff).toNat

/-- The double is a number: neither infinite nor undefined. -/
def isFinite (d : Double) : Bool := d.exponentBits != 0x7ff

/-- The double stands for no number at all. -/
def isNaN (d : Double) : Bool := d.exponentBits == 0x7ff && d.fractionBits != 0

/-- The absolute value of a finite double, `mantissa * 2 ^ exponent`. -/
structure Magnitude where
  /-- An integer below `2 ^ 53`. -/
  mantissa : Nat
  /-- The power of two that it counts. -/
  exponent : Int
  /-- The gap to the double below is half the gap to the double above: the mantissa is the least of
  its exponent. -/
  narrowBelow : Bool

/-- The absolute value of a finite double. -/
def magnitude (d : Double) : Magnitude :=
  let e := d.exponentBits
  let f := d.fractionBits
  if e = 0 then ⟨f, -1074, false⟩ else ⟨0x10000000000000 + f, (e : Int) - 1075, f = 0 ∧ 1 < e⟩

end Double

end PostfixCompiler
