import PostfixCompiler.Double.Basic

/-!
# The shortest decimal of a double

Every finite double stands for an interval of reals: those that are nearer to it than to any other
double. Of the decimals in that interval one with the fewest digits is chosen, and of these the
nearest to the double itself.

## Main definitions

* `PostfixCompiler.Double.Tie`: what to do with two decimals that are equally near.
* `PostfixCompiler.Double.Grid`: the interval of a double in units of a power of ten.
* `PostfixCompiler.Double.shortest`: the chosen decimal.

The multiples of a power of ten form a grid. The powers are tried from the coarsest down, and the
first whose grid meets the interval wins. If any point of a grid lies in the interval, one of the
double's two neighbours on the grid does, so these two are all that is looked at. The search ends
at a grid that holds the double itself. All arithmetic is on integers.
-/

namespace PostfixCompiler.Double

/-- Which of two equally near decimals is chosen. -/
inductive Tie where
  /-- The one with the larger absolute value. -/
  | up
  /-- The one whose last digit is even. -/
  | even
deriving DecidableEq

/-- The value `digits * 10 ^ exponent`. -/
structure Decimal where
  /-- The digits, read as an integer. -/
  digits : Nat
  /-- The power of ten that they count. -/
  exponent : Int
deriving DecidableEq

/-- A double and the ends of its interval in units of `10 ^ g`, each multiplied by `unit`. -/
structure Grid where
  /-- How many times larger than a multiple of `10 ^ g` the other fields are. -/
  unit : Nat
  /-- The lower end of the interval. -/
  low : Nat
  /-- The double itself. -/
  value : Nat
  /-- The upper end of the interval. -/
  high : Nat
  /-- The two ends belong to the interval. -/
  closed : Bool

/-- The interval of `x` in units of `10 ^ g`. A quarter of the last place of `x` is the measure: the
ends are two quarters away, and one below where the gap is narrow. They belong to the interval when
the mantissa is even, because halfway cases go to the even neighbour. -/
def Magnitude.onGrid (x : Magnitude) (g : Int) : Grid :=
  let q := x.exponent - 2
  let scale := Nat.pow 2 q.toNat * Nat.pow 10 (-g).toNat
  { unit := Nat.pow 2 (-q).toNat * Nat.pow 10 g.toNat
    low := (4 * x.mantissa - if x.narrowBelow then 1 else 2) * scale
    value := 4 * x.mantissa * scale
    high := (4 * x.mantissa + 2) * scale
    closed := x.mantissa % 2 = 0 }

/-- The `n`-th point of the grid lies in the interval. -/
def Grid.holds (s : Grid) (n : Nat) : Bool :=
  let p := n * s.unit
  if s.closed then s.low ≤ p ∧ p ≤ s.high else s.low < p ∧ p < s.high

/-- The point of the grid below the double, or at it. -/
def Grid.floor (s : Grid) : Nat := s.value / s.unit

/-- The point of the grid that is nearest to the double and lies in the interval. -/
def Grid.nearest? (s : Grid) (tie : Tie) : Option Nat :=
  let n := s.floor
  match s.holds n, s.holds (n + 1) with
  | false, false => none
  | true, false => some n
  | false, true => some (n + 1)
  | true, true =>
    match compare (2 * s.value) ((2 * n + 1) * s.unit), tie with
    | .lt, _ => some n
    | .gt, _ => some (n + 1)
    | .eq, .up => some (n + 1)
    | .eq, .even => some (if n % 2 = 0 then n else n + 1)

/-- The first hit on the grids `10 ^ g`, `10 ^ (g - 1)`, …, of which at most `steps` are
searched. -/
def Magnitude.search (x : Magnitude) (tie : Tie) : (steps : Nat) → (g : Int) → Decimal
  | 0, g => ⟨(x.onGrid g).floor, g⟩
  | steps + 1, g =>
    match (x.onGrid g).nearest? tie with
    | some n => ⟨n, g⟩
    | none => x.search tie steps (g - 1)

/-- A power of ten above the magnitude, found from the position of its highest bit. -/
def Magnitude.topGrid (x : Magnitude) : Int :=
  (x.mantissa.log2 + x.exponent) * 1233 / 4096 + 2

/-- The shortest decimal in the interval of the magnitude, nearest to it. The last grid of the
search is the first that holds the magnitude itself. -/
def Magnitude.shortest (x : Magnitude) (tie : Tie) : Decimal :=
  x.search tie (x.topGrid - min x.exponent 0).toNat x.topGrid

end PostfixCompiler.Double
