import PostfixCompiler.Emission.Expr
import PostfixCompiler.Typing.Expr

/-!
# Operators and their operands

An operator is defined on few pairs of types, and which code it has depends on the same pairs. Both
are listed here together, so that a fact about the code of an operator can be proved pair by pair.

## Main definitions

* `PostfixCompiler.Ty.IsNumber`: the type is that of a number.
* `PostfixCompiler.BinaryOp.Operands`: the pairs of types on which operators are defined, with the
  type of the result and the shape of the code.

## Main statements

* `PostfixCompiler.BinaryOp.operands_of_resultType`: these are all.
* `PostfixCompiler.BinaryOp.ne_void_of_resultType`: the result of an operator has a value.
-/

namespace PostfixCompiler

open Emission

/-- The type is that of a number. -/
def Ty.IsNumber (t : Ty) : Prop := t = .int ∨ t = .double

/-- The common type of two numbers: a `double` if one of them is. -/
def Ty.common (t u : Ty) : Ty := if t = .double ∨ u = .double then .double else .int

theorem Ty.isNumber_of_isNumeric {t : Ty} (h : t.isNumeric = true) : t.IsNumber := by
  cases t with
  | int => exact .inl rfl
  | double => exact .inr rfl
  | _ => cases h

theorem Ty.IsNumber.common {t u : Ty} (ht : t.IsNumber) (hu : u.IsNumber) :
    (t.common u).IsNumber := by
  rcases ht with rfl | rfl <;> rcases hu with rfl | rfl <;> simp [Ty.common, Ty.IsNumber]

/-- Two numbers of which none is a `double` are integers. -/
theorem Ty.IsNumber.eq_int {t u : Ty} (ht : t.IsNumber) (hu : u.IsNumber)
    (h : ¬(t = .double ∨ u = .double)) : t = .int ∧ u = .int :=
  ⟨ht.resolve_right fun hd => h (.inl hd), hu.resolve_right fun hd => h (.inr hd)⟩

theorem Ty.numeric?_eq_some {t u v : Ty} (h : t.numeric? u = some v) :
    t.IsNumber ∧ u.IsNumber ∧ v = t.common u := by
  obtain ⟨⟨ht, hu⟩, h⟩ := Option.ite_none_right_eq_some.mp h
  have ht := Ty.isNumber_of_isNumeric ht
  have hu := Ty.isNumber_of_isNumeric hu
  refine ⟨ht, hu, ?_⟩
  rcases ht with rfl | rfl <;> rcases hu with rfl | rfl <;> cases h <;> rfl

namespace BinaryOp

/-- The operator computes a number from two numbers of any type. -/
def IsArithmetic (op : BinaryOp) : Prop := op = .add ∨ op = .sub ∨ op = .mul ∨ op = .div

/-- The operator compares. -/
def IsComparison (op : BinaryOp) : Prop :=
  op = .lt ∨ op = .le ∨ op = .ge ∨ op = .gt ∨ op = .eq ∨ op = .ne

/-- **The operands of operators**: two types, the type of the result, and the shape of the code. -/
inductive Operands : BinaryOp → Ty → Ty → Ty → BinaryForm → Prop where
  /-- A connective of two integers. -/
  | connective {op : BinaryOp} (h : op = .and ∨ op = .or) : Operands op .int .int .int .shortCircuit
  /-- A pointer is moved. -/
  | move {op : BinaryOp} {t : Ty} (h : op = .add ∨ op = .sub) :
    Operands op (.pointer t) .int (.pointer t) .pointer
  /-- Two pointers are subtracted. -/
  | distance {t u : Ty} : Operands .sub (.pointer t) (.pointer u) .int .pointer
  /-- A number is computed from two numbers. -/
  | compute {op : BinaryOp} {t u : Ty} (h : op.IsArithmetic) (ht : t.IsNumber) (hu : u.IsNumber) :
    Operands op t u (t.common u) .arithmetic
  /-- The remainder of two integers. -/
  | remainder : Operands .mod .int .int .int .arithmetic
  /-- Two numbers are compared. -/
  | compare {op : BinaryOp} {t u : Ty} (h : op.IsComparison) (ht : t.IsNumber) (hu : u.IsNumber) :
    Operands op t u .int .comparison
  /-- Two pointers are compared. -/
  | same {op : BinaryOp} {t u : Ty} (h : op = .eq ∨ op = .ne) :
    Operands op (.pointer t) (.pointer u) .int .comparison

theorem isPointer_of_isNumber {t : Ty} (h : t.IsNumber) : t.isPointer = false := by
  rcases h with rfl | rfl <;> rfl

/-- Numbers, computed with. -/
theorem operands_of_numeric {op : BinaryOp} {t u v : Ty} (hop : op.IsArithmetic)
    (h : t.numeric? u = some v) : Operands op t u v (binaryForm op t u) := by
  obtain ⟨ht, hu, rfl⟩ := Ty.numeric?_eq_some h
  have hform : binaryForm op t u = .arithmetic := by
    rcases hop with rfl | rfl | rfl | rfl <;>
      simp [binaryForm, isPointer_of_isNumber ht, isPointer_of_isNumber hu]
  rw [hform]
  exact .compute hop ht hu

/-- Numbers, compared. -/
theorem operands_of_comparison {op : BinaryOp} {t u v : Ty} (hop : op.IsComparison)
    (h : (t.numeric? u).map (fun _ => Ty.int) = some v) :
    Operands op t u v (binaryForm op t u) := by
  obtain ⟨w, hw, rfl⟩ := Option.map_eq_some_iff.mp h
  obtain ⟨ht, hu, -⟩ := Ty.numeric?_eq_some hw
  have hform : binaryForm op t u = .comparison := by
    rcases hop with rfl | rfl | rfl | rfl | rfl | rfl <;> rfl
  rw [hform]
  exact .compare hop ht hu

/-- **An operator that has a result is applied to operands of the list.** -/
theorem operands_of_resultType {op : BinaryOp} {t u v : Ty} (h : op.resultType? t u = some v) :
    Operands op t u v (binaryForm op t u) := by
  cases op with
  | add =>
    simp only [resultType?] at h
    split at h
    · cases h
      exact .move (.inl rfl)
    · exact operands_of_numeric (.inl rfl) h
  | sub =>
    simp only [resultType?] at h
    split at h
    · cases h
      exact .move (.inr rfl)
    · obtain ⟨_, _, rfl⟩ := Option.map_eq_some_iff.mp h
      exact .distance
    · exact operands_of_numeric (.inr (.inl rfl)) h
  | mul => exact operands_of_numeric (.inr (.inr (.inl rfl))) h
  | div => exact operands_of_numeric (.inr (.inr (.inr rfl))) h
  | mod =>
    obtain ⟨⟨rfl, rfl⟩, h⟩ := Option.ite_none_right_eq_some.mp h
    cases h
    exact .remainder
  | and =>
    obtain ⟨⟨rfl, rfl⟩, h⟩ := Option.ite_none_right_eq_some.mp h
    cases h
    exact .connective (.inl rfl)
  | or =>
    obtain ⟨⟨rfl, rfl⟩, h⟩ := Option.ite_none_right_eq_some.mp h
    cases h
    exact .connective (.inr rfl)
  | lt => exact operands_of_comparison (.inl rfl) h
  | le => exact operands_of_comparison (.inr (.inl rfl)) h
  | ge => exact operands_of_comparison (.inr (.inr (.inl rfl))) h
  | gt => exact operands_of_comparison (.inr (.inr (.inr (.inl rfl)))) h
  | eq =>
    simp only [resultType?] at h
    split at h
    · rename_i hp
      obtain ⟨_, _, rfl⟩ := Option.map_eq_some_iff.mp h
      cases t <;> cases hp.1
      cases u <;> cases hp.2
      exact .same (.inl rfl)
    · exact operands_of_comparison (.inr (.inr (.inr (.inr (.inl rfl))))) h
  | ne =>
    simp only [resultType?] at h
    split at h
    · rename_i hp
      obtain ⟨_, _, rfl⟩ := Option.map_eq_some_iff.mp h
      cases t <;> cases hp.1
      cases u <;> cases hp.2
      exact .same (.inr rfl)
    · exact operands_of_comparison (.inr (.inr (.inr (.inr (.inr rfl))))) h

/-- The connectives are the operators whose second operand may be jumped over. -/
theorem Operands.connective_iff {op : BinaryOp} {t u v : Ty} {form : BinaryForm}
    (h : Operands op t u v form) : op = .and ∨ op = .or ↔ form = .shortCircuit := by
  cases h with
  | connective h => exact iff_of_true h rfl
  | move h => rcases h with rfl | rfl <;> simp
  | compute h => rcases h with rfl | rfl | rfl | rfl <;> simp
  | compare h => rcases h with rfl | rfl | rfl | rfl | rfl | rfl <;> simp
  | same h => rcases h with rfl | rfl <;> simp
  | distance | remainder => simp

/-- The result of an operator is no tuple. -/
theorem Operands.isTuple_eq {op : BinaryOp} {t u v : Ty} {form : BinaryForm}
    (h : Operands op t u v form) : v.isTuple = false := by
  cases h with
  | compute _ ht hu => rcases ht.common hu with h | h <;> rw [h] <;> rfl
  | _ => rfl

/-- The result of an operator is a number or a pointer, so it has a value. -/
theorem ne_void_of_resultType {op : BinaryOp} {t u v : Ty} (h : op.resultType? t u = some v) :
    v ≠ .void := by
  have hcommon : ∀ {t u : Ty}, t.IsNumber → u.IsNumber → t.common u ≠ .void := fun ht hu heq => by
    rcases ht.common hu with h | h <;> cases heq.symm.trans h
  have hoperands := operands_of_resultType h
  generalize binaryForm op t u = form at hoperands
  cases hoperands with
  | compute _ ht hu => exact hcommon ht hu
  | _ => simp

end BinaryOp

end PostfixCompiler
