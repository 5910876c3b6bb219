import Mathlib
import PostfixCompiler.Double.Shortest

/-!
# The intervals of doubles

A decimal names a double if it lies in the interval of numbers that are nearer to this double than
to any other one. For this the intervals must not have a number in common, and the ends are where
they could: neighbouring intervals have one end in common, and each of them may count it as its own.
It belongs to the one whose mantissa is even.

The doubles that are not negative are put in a row by their bits, because the bits of the exponent
stand in front of those of the fraction. Along this row each interval ends where the next one
begins, also where the exponent changes, and the mantissas are even and odd in turns.

## Main definitions

* `PostfixCompiler.Double.Magnitude.lower`, `PostfixCompiler.Double.Magnitude.upper`: the ends of
  the interval.
* `PostfixCompiler.Double.Magnitude.Takes`: a number lies in the interval.
* `PostfixCompiler.Double.rank`, `PostfixCompiler.Double.Magnitude.nth`: doubles in a row.

## Main statements

* `PostfixCompiler.Double.Magnitude.upper_nth`: each interval ends where the next one begins.
* `PostfixCompiler.Double.Magnitude.nth_unique`: no number lies in two intervals.
* `PostfixCompiler.Double.ext_of_rank`: a double is known by its sign and its place in the row.
-/

namespace PostfixCompiler.Double

/-! ### Intervals -/

namespace Magnitude

/-- The lower end of the interval: one or two quarters of the last place below. -/
def lower (x : Magnitude) : ℚ :=
  (4 * x.mantissa - if x.narrowBelow then 1 else 2) * 2 ^ (x.exponent - 2)

/-- The upper end of the interval: two quarters of the last place above. -/
def upper (x : Magnitude) : ℚ := (4 * x.mantissa + 2) * 2 ^ (x.exponent - 2)

/-- **The number lies in the interval**, to which the ends belong if the mantissa is even. -/
def Takes (x : Magnitude) (v : ℚ) : Prop :=
  if x.mantissa % 2 = 0 then x.lower ≤ v ∧ v ≤ x.upper else x.lower < v ∧ v < x.upper

variable {x y : Magnitude} {v : ℚ} {j k : ℕ}

theorem Takes.lower_le (h : x.Takes v) : x.lower ≤ v := by
  unfold Takes at h
  split at h
  · exact h.1
  · exact h.1.le

theorem Takes.le_upper (h : x.Takes v) : v ≤ x.upper := by
  unfold Takes at h
  split at h
  · exact h.2
  · exact h.2.le

/-- Only an interval with an even mantissa has its ends. -/
theorem Takes.even_of_lower (h : x.Takes v) (hv : v = x.lower) : x.mantissa % 2 = 0 := by
  unfold Takes at h
  split at h
  · assumption
  · exact absurd hv h.1.ne'

theorem Takes.even_of_upper (h : x.Takes v) (hv : v = x.upper) : x.mantissa % 2 = 0 := by
  unfold Takes at h
  split at h
  · assumption
  · exact absurd hv h.2.ne

theorem lower_lt_upper (x : Magnitude) : x.lower < x.upper := by
  unfold lower upper
  refine mul_lt_mul_of_pos_right ?_ (by positivity)
  split <;> linarith

/-- The interval of a number that is not zero has no zero. -/
theorem lower_pos (h : x.mantissa ≠ 0) : 0 < x.lower := by
  have hone : (1 : ℚ) ≤ x.mantissa := by exact_mod_cast Nat.one_le_iff_ne_zero.mpr h
  unfold lower
  refine mul_pos ?_ (by positivity)
  split <;> linarith

/-! ### Doubles in a row -/

/-- The magnitudes in a row, the smallest one first: the exponent counts as many of them as there
are fractions. -/
def nth (k : ℕ) : Magnitude :=
  if k / 2 ^ 52 = 0 then ⟨k % 2 ^ 52, -1074, false⟩
  else ⟨2 ^ 52 + k % 2 ^ 52, (k / 2 ^ 52 : ℕ) - 1075, k % 2 ^ 52 = 0 ∧ 1 < k / 2 ^ 52⟩

/-- The mantissas are even and odd in turns. -/
theorem mantissa_nth_mod_two (k : ℕ) : (nth k).mantissa % 2 = k % 2 := by
  unfold nth
  split <;> dsimp only <;> omega

/-- Only the first magnitude is zero. -/
theorem mantissa_nth_eq_zero : (nth k).mantissa = 0 ↔ k = 0 := by
  unfold nth
  split <;> dsimp only <;> omega

/-- **Each interval ends where the next one begins.** -/
theorem upper_nth (k : ℕ) : (nth k).upper = (nth (k + 1)).lower := by
  by_cases hlast : k % 2 ^ 52 + 1 < 2 ^ 52
  · -- The exponent stays, and the gap below the next one is not narrow.
    have hdiv : (k + 1) / 2 ^ 52 = k / 2 ^ 52 := by omega
    have hmod : (k + 1) % 2 ^ 52 = k % 2 ^ 52 + 1 := by omega
    unfold nth
    rw [hdiv, hmod]
    split
    · simp only [upper, lower, Bool.false_eq_true, if_false]
      congr 1
      push_cast
      ring
    · simp only [upper, lower, Nat.add_eq_zero_iff, one_ne_zero, and_false, false_and, decide_false,
        Bool.false_eq_true, if_false]
      congr 1
      push_cast
      ring
  · have hdiv : (k + 1) / 2 ^ 52 = k / 2 ^ 52 + 1 := by omega
    have hmod : (k + 1) % 2 ^ 52 = 0 := by omega
    have hfraction : k % 2 ^ 52 = 2 ^ 52 - 1 := by omega
    unfold nth
    rw [hdiv, hmod, hfraction, if_neg (Nat.succ_ne_zero _)]
    by_cases hzero : k / 2 ^ 52 = 0
    · -- The least exponent is that of two bit patterns.
      have hexponent : ((0 + 1 : ℕ) : ℤ) - 1075 = -1074 := by norm_num
      rw [if_pos hzero, hzero, upper, lower]
      simp only [hexponent]
      congr 1
      norm_num
    · -- The exponent grows, so the last place of the next one counts twice as much.
      have hone : 1 < k / 2 ^ 52 + 1 := by omega
      have hexponent :
          ((k / 2 ^ 52 + 1 : ℕ) : ℤ) - 1075 - 2 = ((k / 2 ^ 52 : ℕ) : ℤ) - 1075 - 2 + 1 := by
        push_cast
        ring
      rw [if_neg hzero]
      simp only [upper, lower, hone, and_self, decide_true, if_true, hexponent]
      rw [zpow_add_one₀ (by norm_num)]
      norm_num
      ring

theorem strictMono_lower_nth : StrictMono fun k => (nth k).lower :=
  strictMono_nat_of_lt_succ fun k => upper_nth k ▸ lower_lt_upper _

/-- **No number lies in two intervals.** -/
theorem nth_unique (hj : (nth j).Takes v) (hk : (nth k).Takes v) : j = k := by
  wlog hlt : j < k generalizing j k
  · rcases Nat.lt_or_eq_of_le (Nat.le_of_not_lt hlt) with h | h
    · exact (this hk hj h).symm
    · exact h.symm
  · exfalso
    -- The number is the end that the interval has in common with the next one, which is the other
    -- interval.
    have hnext : (nth j).upper ≤ (nth k).lower :=
      upper_nth j ▸ strictMono_lower_nth.monotone (Nat.succ_le_of_lt hlt)
    have hupper : v = (nth j).upper := le_antisymm hj.le_upper (hnext.trans hk.lower_le)
    have hlower : v = (nth k).lower := le_antisymm (hj.le_upper.trans hnext) hk.lower_le
    have hsucc : j + 1 = k :=
      strictMono_lower_nth.injective (upper_nth j ▸ hupper.symm.trans hlower)
    -- One of the two has an odd mantissa.
    have heven := hj.even_of_upper hupper
    have heven' := hk.even_of_lower hlower
    rw [mantissa_nth_mod_two] at heven heven'
    omega

end Magnitude

variable {d e : Double}

/-- The place of a double in the row of its sign. -/
def rank (d : Double) : ℕ := d.bits.toNat % 2 ^ 63

theorem exponentBits_eq (d : Double) : d.exponentBits = d.rank / 2 ^ 52 := by
  have hmask : (0x7ff : UInt64).toNat = 2 ^ 11 - 1 := rfl
  have hshift : (52 : UInt64).toNat % 64 = 52 := rfl
  rw [exponentBits, UInt64.toNat_and, UInt64.toNat_shiftRight, hmask, hshift,
    Nat.and_two_pow_sub_one_eq_mod, Nat.shiftRight_eq_div_pow, rank]
  omega

theorem fractionBits_eq (d : Double) : d.fractionBits = d.rank % 2 ^ 52 := by
  have hmask : (0xfffffffffffff : UInt64).toNat = 2 ^ 52 - 1 := rfl
  rw [fractionBits, UInt64.toNat_and, hmask, Nat.and_two_pow_sub_one_eq_mod, rank]
  omega

theorem isNegative_iff (d : Double) : d.isNegative = true ↔ 2 ^ 63 ≤ d.bits.toNat := by
  have hshift : (63 : UInt64).toNat % 64 = 63 := rfl
  have hlt := d.bits.toNat_lt
  rw [isNegative, beq_iff_eq, ← UInt64.toNat_inj, UInt64.toNat_shiftRight, hshift,
    Nat.shiftRight_eq_div_pow]
  change d.bits.toNat / 2 ^ 63 = 1 ↔ _
  omega

/-- **A double is known by its sign and its place in the row.** -/
theorem ext_of_rank (hsign : d.isNegative = e.isNegative) (hrank : d.rank = e.rank) : d = e := by
  have hiff : 2 ^ 63 ≤ d.bits.toNat ↔ 2 ^ 63 ≤ e.bits.toNat := by
    rw [← isNegative_iff, ← isNegative_iff, hsign]
  have hd := d.bits.toNat_lt
  have he := e.bits.toNat_lt
  have hbits : d.bits.toNat = e.bits.toNat := by
    unfold rank at hrank
    omega
  cases d
  cases e
  exact congrArg _ (UInt64.toNat_inj.mp hbits)

/-- The absolute value of a double is the magnitude at its place. -/
theorem magnitude_eq (d : Double) : d.magnitude = .nth d.rank := by
  have hpower : 0x10000000000000 = 2 ^ 52 := rfl
  rw [magnitude, Magnitude.nth, exponentBits_eq, fractionBits_eq, hpower]

end PostfixCompiler.Double
