import PostfixCompiler.Double.Shortest

/-!
# The format of a double

The shortest decimal of a double is written either positionally, with at least one digit on each
side of the point, or with one digit before the point and an exponent. A format says which
exponents are written positionally, how a positive exponent looks, and how ties between decimals
are broken.

## Main definitions

* `PostfixCompiler.Double.Format`: these decisions.
* `PostfixCompiler.Double.write`: the text of a double.
-/

namespace PostfixCompiler.Double

/-- How doubles are written. -/
structure Format where
  /-- The least exponent of the first digit that is written positionally. -/
  plainFrom : Int
  /-- The least exponent above that is not. -/
  plainBelow : Int
  /-- A positive exponent has a sign. -/
  plusSign : Bool
  /-- The choice between equally near decimals. -/
  tie : Tie

/-- The digits `ds * 10 ^ g` in positional notation. -/
def positional (ds : List Char) (g : Int) : List Char :=
  if 0 ≤ g then ds ++ List.replicate g.toNat '0' ++ ['.', '0']
  else
    let places := (-g).toNat
    if places < ds.length then ds.take (ds.length - places) ++ '.' :: ds.drop (ds.length - places)
    else '0' :: '.' :: List.replicate (places - ds.length) '0' ++ ds

/-- The digits with the point behind the first one, and the exponent `e` of that digit. -/
def scientific (plusSign : Bool) (ds : List Char) (e : Int) : List Char :=
  let point := if ds.length ≤ 1 then ds else ds.take 1 ++ '.' :: ds.drop 1
  let sign := if e < 0 then ['-'] else if plusSign then ['+'] else []
  point ++ 'e' :: sign ++ Nat.toDigits 10 e.natAbs

/-- A decimal in the given format. -/
def Format.writeDecimal (f : Format) (x : Decimal) : List Char :=
  let ds := Nat.toDigits 10 x.digits
  let e := x.exponent + ds.length - 1
  if f.plainFrom ≤ e ∧ e < f.plainBelow then positional ds x.exponent
  else scientific f.plusSign ds e

/-- The absolute value of a double in the given format. -/
def writeMagnitude (f : Format) (d : Double) : List Char :=
  let x := d.magnitude
  if x.mantissa = 0 then ['0', '.', '0'] else f.writeDecimal (x.shortest f.tie)

/-- The double in the given format. -/
def write (f : Format) (d : Double) : String :=
  let sign := if d.isNegative then ['-'] else []
  if d.isFinite then String.ofList (sign ++ d.writeMagnitude f)
  else if d.isNaN then "NaN"
  else String.ofList (sign ++ ['i', 'n', 'f'])

end PostfixCompiler.Double
