import PostfixCompiler.Double.Format
import PostfixCompiler.Proofs.Double.Nearest

/-!
# Reading doubles back

The text of a double stands for a number, which can be read off whether the text is positional or
scientific: the digits without the point, the place of the point among them, and the exponent behind
the letter. What is read off the text of a decimal is the decimal. So what is read off the text of a
double lies in its interval, and the text of a number has only one double.

## Main definitions

* `PostfixCompiler.Double.reading`: the number that a text stands for.

## Main statements

* `PostfixCompiler.Double.reading_writeDecimal`: a decimal is read back from its text.
* `PostfixCompiler.Double.rank_eq_of_writeMagnitude`: the text of an absolute value is that of no
  other one.
* `PostfixCompiler.Double.write_injective`: the text of a number is that of no other double.
-/

namespace PostfixCompiler.Double

/-! ### The number that a text stands for -/

/-- The number that digits stand for. -/
def digitsValue (ds : List Char) : ℕ := Nat.ofDigitChars 10 ds 0

/-- The number that digits stand for among which there is a point, or none. -/
def pointed (cs : List Char) : ℚ :=
  digitsValue (cs.filter (· ≠ '.')) * 10 ^ (-((cs.dropWhile (· ≠ '.')).drop 1).length : ℤ)

/-- The integer that digits behind a sign stand for, or digits alone. -/
def signed : List Char → ℤ
  | '-' :: ds => -digitsValue ds
  | '+' :: ds => digitsValue ds
  | ds => digitsValue ds

/-- **The number that a text stands for**, which may have a power of ten behind a letter. -/
def reading (cs : List Char) : ℚ :=
  pointed (cs.takeWhile (· ≠ 'e')) * 10 ^ signed ((cs.dropWhile (· ≠ 'e')).drop 1)

/-- All of the characters are digits. -/
def AllDigits (cs : List Char) : Prop := ∀ c ∈ cs, c.isDigit = true

variable {as bs ds : List Char} {f : Format} {d e : Double}

theorem allDigits_append : AllDigits (as ++ bs) ↔ AllDigits as ∧ AllDigits bs :=
  List.forall_mem_append

theorem allDigits_toDigits (n : ℕ) : AllDigits (Nat.toDigits 10 n) :=
  fun _ hc => Nat.isDigit_of_mem_toDigits (by decide) (by decide) hc

theorem allDigits_replicate (n : ℕ) : AllDigits (List.replicate n '0') := fun c hc => by
  rw [List.eq_of_mem_replicate hc]
  rfl

theorem AllDigits.take (h : AllDigits ds) (n : ℕ) : AllDigits (ds.take n) :=
  fun c hc => h c (List.mem_of_mem_take hc)

theorem AllDigits.drop (h : AllDigits ds) (n : ℕ) : AllDigits (ds.drop n) :=
  fun c hc => h c (List.mem_of_mem_drop hc)

/-- A point, a letter and a sign are no digits. -/
theorem AllDigits.notMem (h : AllDigits ds) {c : Char} (hc : c.isDigit = false) :
    c ∉ ds := fun hmem =>
  Bool.false_ne_true (hc.symm.trans (h c hmem))

theorem AllDigits.all_ne (h : AllDigits ds) {c : Char} (hc : c.isDigit = false) :
    ∀ x ∈ ds, decide (x ≠ c) = true := by
  intro x hx
  refine decide_eq_true fun heq => ?_
  exact h.notMem hc (heq ▸ hx)

/-! ### Digits -/

@[simp] theorem digitsValue_toDigits (n : ℕ) : digitsValue (Nat.toDigits 10 n) = n :=
  Nat.ofDigitChars_toDigits (by decide) (by decide)

/-- Zeros behind digits count as powers of ten. -/
theorem digitsValue_append_zeros (ds : List Char) (n : ℕ) :
    digitsValue (ds ++ List.replicate n '0') = digitsValue ds * 10 ^ n := by
  induction n with
  | zero => simp
  | succ n ih =>
    rw [List.replicate_succ', ← List.append_assoc, digitsValue, Nat.ofDigitChars_append]
    change Nat.ofDigitChars 10 ['0'] (digitsValue (ds ++ List.replicate n '0')) = _
    rw [ih, Nat.ofDigitChars_cons, Nat.ofDigitChars_nil, Nat.pow_succ']
    simp only [Nat.sub_self, Nat.add_zero]
    ring

/-- Zeros in front of digits do not count. -/
theorem digitsValue_zeros_append (n : ℕ) (ds : List Char) :
    digitsValue (List.replicate n '0' ++ ds) = digitsValue ds := by
  have hzeros := digitsValue_append_zeros [] n
  rw [List.nil_append] at hzeros
  rw [digitsValue, Nat.ofDigitChars_append, ← digitsValue, hzeros]
  change Nat.ofDigitChars 10 ds (0 * 10 ^ n) = _
  rw [Nat.zero_mul, digitsValue]

/-- Digits stand for their number. -/
theorem pointed_digits (h : AllDigits ds) : pointed ds = digitsValue ds := by
  have hne := h.all_ne (c := '.') rfl
  rw [pointed, List.filter_eq_self.mpr hne, List.dropWhile_eq_nil_iff.mpr hne]
  simp

/-- The digits behind a point count as many powers of ten less. -/
theorem pointed_append (ha : AllDigits as) (hb : AllDigits bs) :
    pointed (as ++ '.' :: bs) = digitsValue (as ++ bs) * 10 ^ (-bs.length : ℤ) := by
  have hne := ha.all_ne (c := '.') rfl
  have hne' := hb.all_ne (c := '.') rfl
  have hdrop : (as ++ '.' :: bs).dropWhile (· ≠ '.') = '.' :: bs := by
    rw [List.dropWhile_append_of_pos hne]
    rfl
  rw [pointed, hdrop, List.filter_append, List.filter_cons_of_neg (by decide),
    List.filter_eq_self.mpr hne, List.filter_eq_self.mpr hne']
  rfl

/-- Digits behind their sign stand for the integer. -/
theorem signed_digits (h : AllDigits ds) : signed ds = digitsValue ds := by
  unfold signed
  split
  · exact absurd List.mem_cons_self (h.notMem rfl)
  · exact absurd List.mem_cons_self (h.notMem rfl)
  · rfl

/-- A text without a letter has no power of ten. -/
theorem reading_of_notMem {cs : List Char} (h : 'e' ∉ cs) : reading cs = pointed cs := by
  have hall : ∀ c ∈ cs, decide (c ≠ 'e') = true :=
    fun c hc => decide_eq_true fun heq => h (heq ▸ hc)
  rw [reading, List.takeWhile_eq_self_iff.mpr hall, List.dropWhile_eq_nil_iff.mpr hall]
  exact mul_one _

/-- Behind the first letter is the power of ten. -/
theorem reading_append {cs : List Char} (h : 'e' ∉ cs) (es : List Char) :
    reading (cs ++ 'e' :: es) = pointed cs * 10 ^ signed es := by
  have hall : ∀ c ∈ cs, decide (c ≠ 'e') = true :=
    fun c hc => decide_eq_true fun heq => h (heq ▸ hc)
  rw [reading, List.takeWhile_append_of_pos hall, List.dropWhile_append_of_pos hall]
  simp

/-! ### Decimals -/

/-- Digits on both sides of a point are read back. -/
theorem reading_point (ha : AllDigits as) (hb : AllDigits bs) :
    reading (as ++ '.' :: bs) = digitsValue (as ++ bs) * 10 ^ (-bs.length : ℤ) := by
  have hletter : 'e' ∉ as ++ '.' :: bs := by
    rw [List.mem_append, List.mem_cons, not_or, not_or]
    exact ⟨ha.notMem rfl, by decide, hb.notMem rfl⟩
  rw [reading_of_notMem hletter, pointed_append ha hb]

/-- **Positional notation is read back.** -/
theorem reading_positional (h : AllDigits ds) (g : ℤ) :
    reading (positional ds g) = digitsValue ds * 10 ^ g := by
  unfold positional
  split
  · -- The power is that of the zeros behind the digits.
    rename_i hg
    obtain ⟨n, rfl⟩ := Int.eq_ofNat_of_zero_le hg
    have hzeros :
        ds ++ List.replicate n '0' ++ List.replicate 1 '0' = ds ++ List.replicate (n + 1) '0' := by
      rw [List.append_assoc, List.replicate_append_replicate]
    have hread :=
      reading_point (allDigits_append.mpr ⟨h, allDigits_replicate n⟩) (allDigits_replicate 1)
    rw [hzeros, digitsValue_append_zeros] at hread
    rw [Int.toNat_natCast]
    refine hread.trans ?_
    push_cast
    rw [pow_succ, zpow_natCast]
    simp [mul_assoc]
  · rename_i hg
    obtain ⟨n, hn⟩ := Int.eq_ofNat_of_zero_le (Int.neg_nonneg.mpr (Int.le_of_not_le hg))
    obtain rfl : g = -n := by omega
    dsimp only
    rw [Int.neg_neg, Int.toNat_natCast]
    split
    · rename_i hlt
      rw [reading_point (h.take _) (h.drop _), List.take_append_drop, List.length_drop]
      congr 3
      omega
    · rename_i hle
      have hplaces : (List.replicate (n - ds.length) '0' ++ ds).length = n := by
        rw [List.length_append, List.length_replicate]
        omega
      have hfront : AllDigits ['0'] := allDigits_replicate 1
      have hzeros : ['0'] ++ (List.replicate (n - ds.length) '0' ++ ds) =
          List.replicate (n - ds.length + 1) '0' ++ ds := by
        rw [List.replicate_succ]
        rfl
      have hread :=
        reading_point hfront (allDigits_append.mpr ⟨allDigits_replicate (n - ds.length), h⟩)
      rw [hplaces, hzeros, digitsValue_zeros_append] at hread
      exact hread

/-- The exponent is read back, with a sign or without. -/
theorem signed_exponent (plusSign : Bool) (e : ℤ) :
    signed ((if e < 0 then ['-'] else if plusSign then ['+'] else []) ++ Nat.toDigits 10 e.natAbs) =
      e := by
  split
  · change -(digitsValue (Nat.toDigits 10 e.natAbs) : ℤ) = e
    rw [digitsValue_toDigits]
    omega
  · have hvalue : (digitsValue (Nat.toDigits 10 e.natAbs) : ℤ) = e := by
      rw [digitsValue_toDigits]
      omega
    split
    · exact hvalue
    · rw [List.nil_append, signed_digits (allDigits_toDigits _), hvalue]

/-- **Scientific notation is read back.** -/
theorem reading_scientific (h : AllDigits ds) (hne : ds ≠ []) (plusSign : Bool) (g : ℤ) :
    reading (scientific plusSign ds (g + ds.length - 1)) = digitsValue ds * 10 ^ g := by
  have hlength := List.length_pos_iff.mpr hne
  unfold scientific
  dsimp only
  rw [List.append_assoc, List.cons_append]
  split
  · -- There is one digit and no point.
    rename_i hone
    have hexponent : g + (ds.length : ℤ) - 1 = g := by omega
    rw [reading_append (h.notMem rfl), pointed_digits h, signed_exponent, hexponent]
  · have hletter : 'e' ∉ ds.take 1 ++ '.' :: ds.drop 1 := by
      rw [List.mem_append, List.mem_cons, not_or, not_or]
      exact ⟨(h.take 1).notMem rfl, by decide, (h.drop 1).notMem rfl⟩
    rw [reading_append hletter, signed_exponent, pointed_append (h.take 1) (h.drop 1),
      List.take_append_drop, mul_assoc, ← zpow_add₀ (by norm_num), List.length_drop]
    congr 2
    omega

/-- **A decimal is read back from its text.** -/
theorem reading_writeDecimal (f : Format) (x : Decimal) : reading (f.writeDecimal x) = x.value := by
  have hdigits := allDigits_toDigits x.digits
  have hne : Nat.toDigits 10 x.digits ≠ [] := List.length_pos_iff.mp Nat.length_toDigits_pos
  unfold Format.writeDecimal Decimal.value
  dsimp only
  split
  · rw [reading_positional hdigits, digitsValue_toDigits]
  · rw [reading_scientific hdigits hne, digitsValue_toDigits]

/-! ### Doubles -/

/-- **What is read off the text of an absolute value lies in its interval.** -/
theorem takes_reading (hd : d.magnitude.mantissa ≠ 0) (f : Format) :
    d.magnitude.Takes (reading (d.writeMagnitude f)) := by
  rw [writeMagnitude, if_neg hd, reading_writeDecimal]
  exact Magnitude.takes_shortest hd f.tie

theorem reading_of_zero (hd : d.magnitude.mantissa = 0) (f : Format) :
    reading (d.writeMagnitude f) = 0 := by
  have hread := reading_point (allDigits_replicate 1) (allDigits_replicate 1)
  rw [List.replicate_append_replicate, ← List.nil_append (List.replicate (1 + 1) '0'),
    digitsValue_append_zeros] at hread
  rw [writeMagnitude, if_pos hd]
  refine hread.trans ?_
  simp [digitsValue]

/-- A number that is not zero is not read as zero. -/
theorem reading_pos (hd : d.magnitude.mantissa ≠ 0) (f : Format) :
    0 < reading (d.writeMagnitude f) :=
  (Magnitude.lower_pos hd).trans_le (takes_reading hd f).lower_le

/-- **The text of an absolute value is that of no other one.** -/
theorem rank_eq_of_writeMagnitude (h : d.writeMagnitude f = e.writeMagnitude f) :
    d.rank = e.rank := by
  by_cases hd : d.magnitude.mantissa = 0
  · have he : e.magnitude.mantissa = 0 := by
      by_contra he
      have hpos := reading_pos he f
      rw [← h, reading_of_zero hd] at hpos
      exact lt_irrefl _ hpos
    rw [magnitude_eq, Magnitude.mantissa_nth_eq_zero] at hd he
    rw [hd, he]
  · have he : e.magnitude.mantissa ≠ 0 := by
      intro he
      have hpos := reading_pos hd f
      rw [h, reading_of_zero he] at hpos
      exact lt_irrefl _ hpos
    have htakes := takes_reading hd f
    have htakes' := takes_reading he f
    rw [magnitude_eq, h] at htakes
    rw [magnitude_eq] at htakes'
    exact Magnitude.nth_unique htakes htakes'

/-- The text of an absolute value begins with a digit. -/
theorem isDigit_head_writeMagnitude {c : Char} (h : (d.writeMagnitude f).head? = some c) :
    c.isDigit = true := by
  unfold writeMagnitude at h
  dsimp only at h
  split at h
  · cases h
    rfl
  · generalize d.magnitude.shortest f.tie = x at h
    unfold Format.writeDecimal at h
    have hdigits := allDigits_toDigits x.digits
    have hpos : 0 < (Nat.toDigits 10 x.digits).length := Nat.length_toDigits_pos
    obtain ⟨b, bs, hbs⟩ := List.exists_cons_of_length_pos hpos
    rw [hbs] at h hdigits
    have hb := hdigits b List.mem_cons_self
    dsimp only at h
    split at h
    · -- A point among the digits is not in front of all of them.
      unfold positional at h
      dsimp only at h
      split at h
      · cases h
        exact hb
      · split at h
        · rename_i hlt
          obtain ⟨n, hn⟩ := Nat.exists_eq_add_of_lt hlt
          rw [hn, Nat.add_assoc, Nat.add_sub_cancel_left] at h
          cases h
          exact hb
        · cases h
          rfl
    · unfold scientific at h
      dsimp only at h
      split at h
      · cases h
        exact hb
      · cases h
        exact hb

/-- The text of a double without its sign. -/
def unsigned (f : Format) (d : Double) : List Char :=
  if d.isFinite then d.writeMagnitude f else ['i', 'n', 'f']

theorem head_unsigned_ne (d : Double) (f : Format) : (d.unsigned f).head? ≠ some '-' := by
  intro h
  unfold unsigned at h
  split at h
  · exact absurd (isDigit_head_writeMagnitude h) (by decide)
  · exact absurd (Option.some.inj h) (by decide)

/-- A number or an infinite double is written with its sign in front. -/
theorem toList_write (hd : d.isNaN = false) (f : Format) :
    (d.write f).toList = (if d.isNegative then ['-'] else []) ++ d.unsigned f := by
  unfold write unsigned
  dsimp only
  split
  · rw [String.toList_ofList]
  · rw [if_neg (by simp [hd]), String.toList_ofList]

/-- All infinite doubles have the same place in their row. -/
theorem rank_of_infinite (hd : d.isNaN = false) (hinf : d.isFinite = false) :
    d.rank = 0x7ff * 2 ^ 52 := by
  unfold isFinite at hinf
  unfold isNaN at hd
  rw [bne_eq_false_iff_eq] at hinf
  rw [hinf, beq_self_eq_true, Bool.true_and, bne_eq_false_iff_eq, fractionBits_eq] at hd
  rw [exponentBits_eq] at hinf
  omega

/-- The text without the sign is that of no other place in the row. -/
theorem rank_eq_of_unsigned (hd : d.isNaN = false) (he : e.isNaN = false)
    (h : d.unsigned f = e.unsigned f) :
    d.rank = e.rank := by
  -- The text of an infinite double does not begin with a digit.
  have hmixed : ∀ {d : Double}, d.writeMagnitude f ≠ ['i', 'n', 'f'] := fun heq =>
    absurd (isDigit_head_writeMagnitude (congrArg List.head? heq)) (by decide)
  unfold unsigned at h
  split at h <;> split at h
  · exact rank_eq_of_writeMagnitude h
  · exact absurd h hmixed
  · exact absurd h.symm hmixed
  · rename_i hinf hinf'
    rw [Bool.not_eq_true] at hinf hinf'
    rw [rank_of_infinite hd hinf, rank_of_infinite he hinf']

/-- **The text of a double that is not undefined is that of no other one.** -/
theorem write_injective (hd : d.isNaN = false) (he : e.isNaN = false)
    (h : d.write f = e.write f) : d = e := by
  have hlist := congrArg String.toList h
  rw [toList_write hd, toList_write he] at hlist
  have hne := d.head_unsigned_ne f
  have hne' := e.head_unsigned_ne f
  cases hsign : d.isNegative <;> cases hsign' : e.isNegative <;> rw [hsign, hsign'] at hlist
  · exact ext_of_rank (hsign.trans hsign'.symm) (rank_eq_of_unsigned hd he hlist)
  · exact absurd (congrArg List.head? hlist) hne
  · exact absurd (congrArg List.head? hlist).symm hne'
  · exact ext_of_rank (hsign.trans hsign'.symm) (rank_eq_of_unsigned hd he (List.cons.inj hlist).2)

end PostfixCompiler.Double
