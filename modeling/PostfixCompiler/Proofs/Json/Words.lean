import Mathlib.Data.List.TakeWhile
import PostfixCompiler.Json.Lexer
import PostfixCompiler.Json.Printer

/-!
# Words that are read back

Whatever is no container and no text is written as a **word**: one of three names, or a number. A
number begins with a sign or a digit, so it is none of the names, and an integer is written without
superfluous zeros, so all of its digits are read back. A double is written with digits, signs, a
point and the letter of an exponent.

## Main statements

* `PostfixCompiler.Json.word?_int`: an integer of at most 64 bits is read back.
* `PostfixCompiler.Json.allWordChars_write`: a double is written as one word.
-/

namespace PostfixCompiler.Json

/-! ### Digits -/

/-- The digits of a number that has several are those of its tenth and one more. -/
theorem toDigits_of_le {n : Nat} (hn : 10 ≤ n) :
    Nat.toDigits 10 n = Nat.toDigits 10 (n / 10) ++ [(n % 10).digitChar] := by
  rw [Nat.toDigits_eq_if (by decide), if_neg (Nat.not_lt_of_le hn)]

theorem exists_toDigits_eq_cons (n : Nat) : ∃ c cs, Nat.toDigits 10 n = c :: cs := by
  by_cases hn : n < 10
  · exact ⟨_, [], Nat.toDigits_of_lt_base hn⟩
  · rw [toDigits_of_le (Nat.le_of_not_lt hn)]
    exact List.exists_cons_of_ne_nil (List.append_ne_nil_of_right_ne_nil _ (List.cons_ne_nil _ _))

/-- No number is written with a zero in front of other digits. -/
theorem toDigits_ne_zero_cons (n : Nat) {c : Char} {cs : List Char} :
    Nat.toDigits 10 n ≠ '0' :: c :: cs := by
  have hhead : n ≠ 0 → ∀ cs, Nat.toDigits 10 n ≠ '0' :: cs := by
    induction n using Nat.strongRecOn with
    | ind n ih =>
      intro hn cs h
      by_cases hlt : n < 10
      · rw [Nat.toDigits_of_lt_base hlt] at h
        have hdigit : ∀ d : Fin 10, d.val ≠ 0 → d.val.digitChar ≠ '0' := by decide
        exact hdigit ⟨n, hlt⟩ hn (List.cons.inj h).1
      · have hten := Nat.le_of_not_lt hlt
        obtain ⟨d, ds, hds⟩ := exists_toDigits_eq_cons (n / 10)
        rw [toDigits_of_le hten, hds] at h
        exact ih (n / 10) (by omega) (by omega) ds
          (hds.trans (congrArg (· :: ds) (List.cons.inj h).1))
  intro h
  by_cases hn : n = 0
  · subst hn
    cases h
  · exact hhead hn _ h

/-- The digits of a number stand for it. -/
theorem ofDigits_toDigits (n : Nat) : ofDigits ((Nat.toDigits 10 n).map digitValue) = n := by
  unfold ofDigits
  rw [List.foldl_map]
  exact Nat.ofDigitChars_toDigits (by decide) (by decide)

theorem isDigit_of_mem_toDigits {n : Nat} : ∀ c ∈ Nat.toDigits 10 n, c.isDigit = true :=
  fun _ hc => Nat.isDigit_of_mem_toDigits (by decide) (by decide) hc

/-- The digits of a number are all before the point. -/
theorem wholePart?_toDigits (n : Nat) :
    wholePart? (Nat.toDigits 10 n) = some (Nat.toDigits 10 n, []) := by
  unfold wholePart?
  rw [List.takeWhile_eq_self_iff.mpr isDigit_of_mem_toDigits,
    List.dropWhile_eq_nil_iff.mpr isDigit_of_mem_toDigits]
  split
  · next h =>
    obtain ⟨c, cs, hcs⟩ := exists_toDigits_eq_cons n
    cases hcs.symm.trans h
  · next h => exact absurd h (toDigits_ne_zero_cons n)
  · rfl

/-! ### Numbers -/

/-- Digits make up an integer. -/
theorem numeral?_toDigits (n : Nat) :
    numeral? (Nat.toDigits 10 n) =
      some (integerValue false ((Nat.toDigits 10 n).map digitValue)) := by
  unfold numeral?
  split
  next negative cs hsign =>
  split at hsign
  · next h => exact absurd (isDigit_of_mem_toDigits '-' (h ▸ List.mem_cons_self)) (by decide)
  · cases hsign
    simp only [wholePart?_toDigits, Option.bind_eq_bind, Option.bind_some]
    rfl

/-- Digits behind a minus sign make up an integer. -/
theorem numeral?_neg_toDigits (n : Nat) :
    numeral? ('-' :: Nat.toDigits 10 n) =
      some (integerValue true ((Nat.toDigits 10 n).map digitValue)) := by
  unfold numeral?
  simp only [wholePart?_toDigits, Option.bind_eq_bind, Option.bind_some]
  rfl

/-- An integer of at most 64 bits, with a sign or without. -/
def IsInt64 (n : Int) : Prop := Int64.minValue.toInt ≤ n ∧ n < UInt64.size

theorem isInt64_of_le {n : Int} (hlow : -0x8000000000000000 ≤ n)
    (hhigh : n < 0x10000000000000000) : IsInt64 n :=
  ⟨hlow, hhigh⟩

/-- The digits of an integer, behind a minus sign if it is negative. -/
theorem toList_toString_int (n : Int) :
    (toString n).toList = if 0 ≤
      n then Nat.toDigits 10 n.toNat else '-' :: Nat.toDigits 10 (-n).toNat := by
  rw [show toString n = n.repr from rfl, Int.repr_eq_if]
  split
  · rw [Nat.repr_eq_ofList_toDigits, String.toList_ofList]
  · rw [Nat.repr_eq_ofList_toDigits, String.toList_append, String.toList_ofList,
      String.toList_ofList, List.singleton_append]

/-- A word with a digit or a sign in front is a number. -/
theorem word?_eq_numeral? {c : Char} {cs : List Char} (hc : c.isDigit = true ∨ c = '-') :
    word? (c :: cs) = numeral? (c :: cs) := by
  unfold word?
  split
  · next h =>
    cases h
    exact absurd hc (by decide)
  · next h =>
    cases h
    exact absurd hc (by decide)
  · next h =>
    cases h
    exact absurd hc (by decide)
  · rfl

/-- **An integer is read back.** -/
theorem word?_int {n : Int} (hn : IsInt64 n) : word? (toString n).toList = some (.int n) := by
  obtain ⟨hlow, hhigh⟩ := hn
  rw [toList_toString_int]
  split
  · next hnonneg =>
    have hdigit := isDigit_of_mem_toDigits (n := n.toNat)
    have hnumeral := numeral?_toDigits n.toNat
    obtain ⟨c, cs, hcs⟩ := exists_toDigits_eq_cons n.toNat
    rw [hcs] at hdigit ⊢
    rw [word?_eq_numeral? (.inl (hdigit c List.mem_cons_self)), ← hcs, hnumeral, integerValue,
      ofDigits_toDigits]
    have hlt : n.toNat < UInt64.size := by omega
    simp only [Bool.not_false, hlt, and_self, if_true, Int.toNat_of_nonneg hnonneg]
  · next hneg =>
    have hpos : 0 < (-n).toNat := by omega
    have hle : Int64.minValue.toInt ≤ -((-n).toNat : Int) := by omega
    rw [word?_eq_numeral? (.inr rfl), numeral?_neg_toDigits, integerValue, ofDigits_toDigits]
    simp only [Bool.not_true, Bool.false_eq_true, false_and, if_false, hpos, hle, and_self, if_true]
    congr 2
    omega

/-! ### Characters of words -/

/-- All of the characters may stand in a word. -/
def AllWordChars (cs : List Char) : Prop := ∀ c ∈ cs, isWordChar c = true

/-- Whether all of the characters may stand in a word can be computed. -/
theorem allWordChars_of_all {cs : List Char} (h : cs.all isWordChar = true) : AllWordChars cs :=
  List.all_eq_true.mp h

theorem allWordChars_append {cs ds : List Char} :
    AllWordChars (cs ++ ds) ↔ AllWordChars cs ∧ AllWordChars ds :=
  List.forall_mem_append

theorem allWordChars_cons {c : Char} {cs : List Char} :
    AllWordChars (c :: cs) ↔ isWordChar c = true ∧ AllWordChars cs :=
  List.forall_mem_cons

theorem allWordChars_toDigits (n : Nat) : AllWordChars (Nat.toDigits 10 n) := by
  intro c hc
  unfold isWordChar Char.isAlphanum
  simp [isDigit_of_mem_toDigits c hc]

theorem allWordChars_replicate (n : Nat) : AllWordChars (List.replicate n '0') := by
  intro c hc
  rw [List.eq_of_mem_replicate hc]
  rfl

/-- An integer is written as one word. -/
theorem allWordChars_int (n : Int) : AllWordChars (toString n).toList := by
  rw [toList_toString_int]
  split
  · exact allWordChars_toDigits _
  · exact allWordChars_cons.mpr ⟨rfl, allWordChars_toDigits _⟩

section Double

variable {ds : List Char} (hds : AllWordChars ds)
include hds

theorem allWordChars_take (n : Nat) : AllWordChars (ds.take n) :=
  fun c hc => hds c (List.mem_of_mem_take hc)

theorem allWordChars_drop (n : Nat) : AllWordChars (ds.drop n) :=
  fun c hc => hds c (List.mem_of_mem_drop hc)

theorem allWordChars_positional (g : Int) : AllWordChars (Double.positional ds g) := by
  have hzero : isWordChar '0' = true := rfl
  have hpoint : isWordChar '.' = true := rfl
  have hnil : AllWordChars [] := allWordChars_of_all rfl
  unfold Double.positional
  split
  · simp only [allWordChars_append, allWordChars_cons]
    exact ⟨⟨hds, allWordChars_replicate _⟩, hpoint, hzero, hnil⟩
  · dsimp only
    split
    · simp only [allWordChars_append, allWordChars_cons]
      exact ⟨allWordChars_take hds _, hpoint, allWordChars_drop hds _⟩
    · simp only [allWordChars_append, allWordChars_cons]
      exact ⟨⟨hzero, hpoint, allWordChars_replicate _⟩, hds⟩

theorem allWordChars_scientific (plusSign : Bool) (e : Int) :
    AllWordChars (Double.scientific plusSign ds e) := by
  have hnil : AllWordChars [] := allWordChars_of_all rfl
  unfold Double.scientific
  simp only [allWordChars_append, allWordChars_cons]
  refine ⟨⟨?_, rfl, ?_⟩, allWordChars_toDigits _⟩
  · split
    · exact hds
    · exact allWordChars_append.mpr ⟨allWordChars_take hds 1,
        allWordChars_cons.mpr ⟨(rfl : isWordChar '.' = true),
        allWordChars_drop hds 1⟩⟩
  · split
    · exact allWordChars_cons.mpr ⟨rfl, hnil⟩
    · split
      · exact allWordChars_cons.mpr ⟨rfl, hnil⟩
      · exact hnil

end Double

/-- **A double is written as one word**, in whichever format. -/
theorem allWordChars_write (f : Double.Format) (d : Double) : AllWordChars (d.write f).toList := by
  have hsign : AllWordChars (if d.isNegative then ['-'] else []) := by
    split
    · exact allWordChars_of_all rfl
    · exact allWordChars_of_all rfl
  have hmagnitude : AllWordChars (d.writeMagnitude f) := by
    unfold Double.writeMagnitude
    dsimp only
    split
    · exact allWordChars_of_all rfl
    · unfold Double.Format.writeDecimal
      dsimp only
      split
      · exact allWordChars_positional (allWordChars_toDigits _) _
      · exact allWordChars_scientific (allWordChars_toDigits _) _ _
  unfold Double.write
  dsimp only
  split
  · rw [String.toList_ofList]
    exact allWordChars_append.mpr ⟨hsign, hmagnitude⟩
  · split
    · rw [show "NaN".toList = ['N', 'a', 'N'] from rfl]
      exact allWordChars_of_all rfl
    · rw [String.toList_ofList]
      exact allWordChars_append.mpr ⟨hsign, allWordChars_of_all rfl⟩

end PostfixCompiler.Json
