import PostfixCompiler.Proofs.Double.Interval

/-!
# The shortest decimal names its double

The search for the shortest decimal computes with integers only: the interval of a double and the
points of a grid are multiplied by powers of two and ten, so that no exponent is negative. Here it
is shown that this comes to the same as to compare the numbers, and that the search ends with a
point in the interval. It cannot come to its end without a hit, because the last grid has the double
itself as one of its points.

## Main definitions

* `PostfixCompiler.Double.Decimal.value`: the number that a decimal stands for.

## Main statements

* `PostfixCompiler.Double.Magnitude.holds_onGrid`: a point of a grid is found in the interval
  exactly if it lies in it.
* `PostfixCompiler.Double.Magnitude.takes_shortest`: the shortest decimal lies in the interval.
-/

namespace PostfixCompiler.Double

/-- The number that a decimal stands for. -/
def Decimal.value (x : Decimal) : ℚ := x.digits * 10 ^ x.exponent

/-! ### Comparison on a common scale -/

/-- A power as a quotient of powers that are no fractions. -/
theorem zpow_eq_div (b : ℚ) (n : ℤ) : b ^ n = b ^ n.toNat / b ^ (-n).toNat := by
  rcases Int.le_total 0 n with h | h
  · obtain ⟨k, rfl⟩ := Int.eq_ofNat_of_zero_le h
    simp
  · obtain ⟨k, hk⟩ := Int.eq_ofNat_of_zero_le (Int.neg_nonneg.mpr h)
    obtain rfl : n = -k := by omega
    simp

/-- Two numbers are compared by integers. -/
theorem scaled_le_iff {x y : ℕ} (hx : 0 < x) (hy : 0 < y) (a b : ℕ) (q g : ℤ) :
    a * (x ^ q.toNat * y ^ (-g).toNat) ≤ b * (x ^ (-q).toNat * y ^ g.toNat) ↔
    (a : ℚ) * x ^ q ≤ b * y ^ g := by
  rw [zpow_eq_div x q, zpow_eq_div y g, ← mul_div_assoc, ← mul_div_assoc,
    div_le_div_iff₀ (by positivity) (by positivity), ← Nat.cast_le (α := ℚ)]
  push_cast
  rw [mul_assoc, mul_assoc, mul_comm ((y : ℚ) ^ g.toNat)]

namespace Magnitude

variable {x : Magnitude} {tie : Tie} {n : ℕ} {g : ℤ}

/-- **A point of a grid is found in the interval exactly if it lies in it.** -/
theorem holds_onGrid (hx : x.mantissa ≠ 0) :
    (x.onGrid g).holds n = true ↔ x.Takes (n * 10 ^ g) := by
  have hlow : ((4 * x.mantissa - if x.narrowBelow then 1 else 2 : ℕ) : ℚ) =
      4 * x.mantissa - if x.narrowBelow then 1 else 2 := by
    rw [Nat.cast_sub (by split <;> omega)]
    push_cast
    rfl
  have hhigh : ((4 * x.mantissa + 2 : ℕ) : ℚ) = 4 * x.mantissa + 2 := by push_cast; rfl
  unfold Takes lower upper
  rw [← hlow, ← hhigh]
  have hbelow (a : ℕ) :=
    scaled_le_iff (x := 2) (y := 10) (by decide) (by decide) a n (x.exponent - 2) g
  have habove (a : ℕ) :=
    scaled_le_iff (x := 10) (y := 2) (by decide) (by decide) n a g (x.exponent - 2)
  push_cast at hbelow habove
  rw [← hbelow, ← habove, ← not_le, ← not_le (b := _ * _), ← hbelow, ← habove, not_le, not_le]
  simp only [onGrid, Grid.holds, Nat.pow_eq, decide_eq_true_eq, mul_comm (2 ^ _) (10 ^ _)]
  split <;> simp

/-! ### The search -/

/-- The nearest point is in the interval. -/
theorem holds_of_nearest {s : Grid} (h : s.nearest? tie = some n) : s.holds n = true := by
  unfold Grid.nearest? at h
  dsimp only at h
  split at h
  · cases h
  · rename_i hfloor _
    cases h
    exact hfloor
  · rename_i hnext
    cases h
    exact hnext
  · -- Both neighbours are in the interval, so it does not matter which one is taken.
    rename_i hfloor hnext
    have hboth : n = s.floor ∨ n = s.floor + 1 := by
      split at h
      · exact .inl (Option.some.inj h).symm
      · exact .inr (Option.some.inj h).symm
      · exact .inr (Option.some.inj h).symm
      · split at h
        · exact .inl (Option.some.inj h).symm
        · exact .inr (Option.some.inj h).symm
    rcases hboth with rfl | rfl
    · exact hfloor
    · exact hnext

/-- The last grid has the double itself as one of its points. -/
theorem holds_floor (hx : x.mantissa ≠ 0) (hg : g ≤ min x.exponent 0) :
    (x.onGrid g).holds (x.onGrid g).floor = true := by
  have hexponent : (-(x.exponent - 2)).toNat ≤ 2 + (-g).toNat := by omega
  have hunit : 2 ^ (-(x.exponent - 2)).toNat ∣ 4 * 10 ^ (-g).toNat := by
    refine (pow_dvd_pow 2 hexponent).trans ?_
    rw [pow_add]
    exact Nat.mul_dvd_mul_left 4 (pow_dvd_pow_of_dvd (by decide) _)
  have hdvd : (x.onGrid g).unit ∣ (x.onGrid g).value := by
    have hten : g.toNat = 0 := by omega
    simp only [onGrid, Nat.pow_eq, hten, pow_zero, mul_one]
    obtain ⟨c, hc⟩ := hunit
    refine ⟨x.mantissa * 2 ^ (x.exponent - 2).toNat * c, ?_⟩
    linear_combination x.mantissa * 2 ^ (x.exponent - 2).toNat * hc
  have hvalue : (x.onGrid g).floor * (x.onGrid g).unit = (x.onGrid g).value :=
    Nat.div_mul_cancel hdvd
  have hscale : 0 < 2 ^ (x.exponent - 2).toNat * 10 ^ (-g).toNat := by positivity
  have hlow : (x.onGrid g).low < (x.onGrid g).value := by
    simp only [onGrid, Nat.pow_eq]
    refine Nat.mul_lt_mul_of_pos_right ?_ hscale
    split <;> omega
  have hhigh : (x.onGrid g).value < (x.onGrid g).high := by
    simp only [onGrid, Nat.pow_eq]
    exact Nat.mul_lt_mul_of_pos_right (by omega) hscale
  unfold Grid.holds
  dsimp only
  rw [hvalue]
  split
  · exact decide_eq_true ⟨hlow.le, hhigh.le⟩
  · exact decide_eq_true ⟨hlow, hhigh⟩

/-- **The search ends with a point in the interval**, if its last grid has the double itself as one
of its points. -/
theorem holds_search (hx : x.mantissa ≠ 0) {steps : ℕ} (hg : g - steps ≤ min x.exponent 0) :
    (x.onGrid (x.search tie steps g).exponent).holds (x.search tie steps g).digits = true := by
  induction steps generalizing g with
  | zero =>
    rw [search]
    have hlast : g ≤ min x.exponent 0 := by omega
    exact holds_floor hx hlast
  | succ steps ih =>
    rw [search]
    cases hnearest : (x.onGrid g).nearest? tie with
    | some n => exact holds_of_nearest hnearest
    | none => exact ih (by omega)

/-- **The shortest decimal lies in the interval.** -/
theorem takes_shortest (hx : x.mantissa ≠ 0) (tie : Tie) : x.Takes (x.shortest tie).value :=
  (holds_onGrid hx).mp (holds_search hx (by omega))

end Magnitude

end PostfixCompiler.Double
