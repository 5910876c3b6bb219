import PostfixCompiler.Proofs.Emission.ExprOutline
import PostfixCompiler.Proofs.Machine.Memory

/-!
# Values of expressions

What an expression stands for can be said without any code: the value of a tree is found from the
values of its parts. Where the value of a tuple is kept, and in which order it is built, does not
matter to it.

This is done for expressions that neither call a function nor store anything, so that they leave no
trace. They are called **formulas** here: literals, local variables and arguments, tuples and their
components, sizes and operators.

## Main definitions

* `PostfixCompiler.Expr.IsFormula`: the expression is a formula.
* `PostfixCompiler.Expr.evaluate`: the value of a formula.
-/

namespace PostfixCompiler

open Emission

/-! ### Values -/

namespace Machine

variable {M : Machine}

namespace Value

/-- The word that a value is. -/
def word? : M.Value → Option M.Word
  | .word w => some w
  | .real _ | .tuple _ => none

/-- The double that a number is: a word is widened, once. -/
def real? : M.Value → Option M.Real
  | .real d => some d
  | .word w => some (M.widen w)
  | .tuple _ => none

/-- A component of a tuple, components being counted from 1. -/
def component? (i : Int) : M.Value → Option M.Value
  | .tuple vs => if 1 ≤ i then vs[i.toNat - 1]? else none
  | .word _ | .real _ => none

/-- The value of a tuple with some components: one value in parentheses is itself. -/
def ofComponents : List M.Value → M.Value
  | [v] => v
  | vs => .tuple vs

end Value

/-- What an operator makes of a value. -/
def unary? (op : UnaryOp) : M.Value → Option M.Value
  | .word w =>
    match op with
    | .neg => some (.word (M.negWord w))
    | .identity => some (.word w)
    | .not => some (.word (M.words .eq w (M.ofInt 0)))
  | .real d =>
    match op with
    | .neg => some (.real (M.negReal d))
    | .identity => some (.real d)
    | .not => none
  | .tuple _ => none

/-- What an operator makes of two doubles that it compares: the comparison is compared to zero. -/
def compared (op : BinaryOp) (a b : M.Real) : M.Word := M.words op (M.compare a b) (M.ofInt 0)

/-- What an operator makes of two doubles: a word if it compares them, and a double if not. -/
def ofReals (op : BinaryOp) (a b : M.Real) : M.Value :=
  match op with
  | .lt | .le | .ge | .gt | .eq | .ne => .word (M.compared op a b)
  | .add | .sub | .mul | .div | .mod | .and | .or => .real (M.reals op a b)

/-- The address so many bytes further. -/
def shifted (w : M.Word) (bytes : Nat) : M.Word :=
  if bytes = 0 then w else M.words .add w (M.ofInt bytes)

/-- Where a pointer leads by so many steps of a size. -/
def moved (op : BinaryOp) (a steps : M.Word) (size : Nat) : M.Word :=
  M.words op a (M.words .mul steps (M.ofInt size))

/-- **What an operator makes of two values**, by the types of its operands. A pointer is moved by
steps as large as what it refers to, or of one byte where that has no size. Two words are combined
as they are, pointers too; with a `double` among the operands both of them are doubles. -/
def binary? (op : BinaryOp) (t u : Ty) (a b : M.Value) : Option M.Value :=
  match t, u with
  | .pointer t, .int => do pure (.word (M.moved op (← a.word?) (← b.word?) (max t.size 1)))
  | .int, .int | .pointer _, .pointer _ => do pure (.word (M.words op (← a.word?) (← b.word?)))
  | .int, .double | .double, .int | .double, .double => do
    pure (M.ofReals op (← a.real?) (← b.real?))
  | _, _ => none

/-- **The first operand decides**, so that the second has no part in the value: `and` is decided by
zero, and `or` by anything else. -/
def decides (op : BinaryOp) : M.Value → Bool
  | .word w => (op = .and ∧ M.isZero w = true) ∨ (op = .or ∧ M.isZero w = false)
  | .real _ | .tuple _ => false

theorem decides_word {op : BinaryOp} (h : op = .and ∨ op = .or) (w : M.Word) :
    M.decides op (.word w) = true ↔ M.isZero w = decide (op = .and) := by
  rcases h with rfl | rfl <;> simp [decides]

theorem decides_eq_false {op : BinaryOp} (h : ¬(op = .and ∨ op = .or)) (a : M.Value) :
    M.decides op a = false := by
  obtain ⟨hand, hor⟩ := not_or.mp h
  cases a <;> simp [decides, hand, hor]

theorem ofReals_of_comparison {op : BinaryOp} (h : op.IsComparison) (a b : M.Real) :
    M.ofReals op a b = .word (M.compared op a b) := by
  rcases h with rfl | rfl | rfl | rfl | rfl | rfl <;> rfl

theorem ofReals_of_arithmetic {op : BinaryOp} (h : op.IsArithmetic) (a b : M.Real) :
    M.ofReals op a b = .real (M.reals op a b) := by
  rcases h with rfl | rfl | rfl | rfl <;> rfl

/-- Two numbers of which one is a `double`. -/
theorem binary?_of_double {op : BinaryOp} {t u : Ty} (ht : t.IsNumber) (hu : u.IsNumber)
    (h : t = .double ∨ u = .double) (a b : M.Value) :
    M.binary? op t u a b = (do pure (M.ofReals op (← a.real?) (← b.real?))) := by
  rcases ht with rfl | rfl <;> rcases hu with rfl | rfl
  · simp at h
  · rfl
  · rfl
  · rfl

end Machine

namespace Expr

mutual

/-- **The expression is a formula**: it neither calls a function nor stores anything, and its
variables are local variables and arguments. -/
def IsFormula (scope : View Symbol) : Expr → Prop
  | .integer .. | .double .. | .string .. | .nullptr _ | .sizeof .. => True
  | .variable _ name => ∃ s, scope name = some s ∧ s.isGlobal = false
  | .tupleIndex _ b _ => b.IsFormula scope
  | .rvalue _ p => p.IsFormula scope
  | .unary _ _ a => a.IsFormula scope
  | .binary _ _ l r => l.IsFormula scope ∧ r.IsFormula scope
  | .tuple _ es => AllFormulas scope es
  | .input _ | .pointerIndex .. | .assignment .. | .addressOf .. | .stackAlloc ..
  | .call .. => False

/-- The expressions are formulas. -/
def AllFormulas (scope : View Symbol) : List Expr → Prop
  | [] => True
  | e :: es => e.IsFormula scope ∧ AllFormulas scope es

end

section Evaluate

variable (M : Machine) (T : TypeTable) (ρ : String → Option M.Value) (texts : NodeId → M.Word)

mutual

/-- **The value of a formula**, found from the values of its parts: `ρ` has the values of the
variables, and `texts` the addresses of the texts. The second operand of an operator has no part in
it if the first decides. -/
def evaluate : Expr → Option M.Value
  | .integer _ k => some (.word (M.ofInt k.toInt))
  | .double _ d => some (.real (M.ofDouble d))
  | .string s _ => some (.word (texts s.id))
  | .nullptr _ => some (.word (M.ofInt 0))
  | .sizeof _ e => some (.word (M.ofInt (e.type T).size))
  | .variable _ name => ρ name
  | .tupleIndex _ b i => do (← b.evaluate).component? i.toInt
  | .rvalue _ p => p.evaluate
  | .unary _ op a => do Machine.unary? op (← a.evaluate)
  | .binary _ op l r => do
    let a ← l.evaluate
    if M.decides op a then pure a
    else M.binary? op (l.type T) (r.type T) a (← r.evaluate)
  | .tuple _ es => do pure (.ofComponents (← evaluateAll es))
  | .input _ | .pointerIndex .. | .assignment .. | .addressOf .. | .stackAlloc .. | .call .. => none

/-- The values of formulas, in order. -/
def evaluateAll : List Expr → Option (List M.Value)
  | [] => some []
  | e :: es => do pure ((← e.evaluate) :: (← evaluateAll es))

end

variable {M T ρ texts}

theorem length_evaluateAll :
    ∀ {es : List Expr} {vs : List M.Value}, evaluateAll M T ρ texts es = some vs →
    vs.length = es.length
  | [], vs, h => by
    cases h
    rfl
  | e :: es, vs, h => by
    rw [evaluateAll] at h
    obtain ⟨v, -, h⟩ := Option.bind_eq_some_iff.mp h
    obtain ⟨ws, hws, h⟩ := Option.bind_eq_some_iff.mp h
    cases h
    rw [List.length_cons, List.length_cons, length_evaluateAll hws]

section Binary

variable {site : Site} {op : BinaryOp} {l r : Expr} {t u : Ty}

/-- The value of an operator whose operands are both evaluated. -/
theorem evaluate_binary {a b v : M.Value} (hop : ¬(op = .and ∨ op = .or)) (ht : l.type T = t)
    (hu : r.type T = u) (ha : l.evaluate M T ρ texts = some a)
    (hb : r.evaluate M T ρ texts = some b) (hv : M.binary? op t u a b = some v) :
    (binary site op l r).evaluate M T ρ texts = some v := by
  subst ht hu
  simp [evaluate, ha, hb, hv, Machine.decides_eq_false hop]

/-- **The value of a connective**: that of the first operand if it decides. -/
theorem evaluate_connective {a w : M.Word} (hop : op = .and ∨ op = .or) (ht : l.type T = .int)
    (hu : r.type T = .int) (ha : l.evaluate M T ρ texts = some (.word a))
    (hw : if M.isZero a = decide (op = .and) then w = a
      else ∃ b, r.evaluate M T ρ texts = some (.word b) ∧ w = M.words op a b) :
    (binary site op l r).evaluate M T ρ texts = some (.word w) := by
  rw [evaluate, ha, Option.bind_eq_bind, Option.bind_some, ht, hu]
  split at hw
  · next hdecided => rw [if_pos ((Machine.decides_word hop a).mpr hdecided), hw, Option.pure_def]
  · next hdecided =>
    obtain ⟨b, hb, rfl⟩ := hw
    rw [if_neg (mt (Machine.decides_word hop a).mp hdecided), hb]
    rfl

end Binary

/-- Several values make a tuple. -/
theorem evaluate_tuple {site : Site} {a b : Expr} {es : List Expr} {vs : List M.Value}
    (h : evaluateAll M T ρ texts (a :: b :: es) = some vs) :
    (tuple site (a :: b :: es)).evaluate M T ρ texts = some (.tuple vs) := by
  have hlength := length_evaluateAll h
  match vs, hlength with
  | _ :: _ :: _, _ =>
    rw [evaluate, h]
    rfl

end Evaluate

end Expr

end PostfixCompiler
