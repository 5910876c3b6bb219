import PostfixCompiler.Proofs.Emission.StmtOutline
import PostfixCompiler.Proofs.Machine.Evaluate
import PostfixCompiler.Proofs.Machine.Prints
import PostfixCompiler.Proofs.Machine.Storing

/-!
# What expressions do

An expression may read and write variables, follow pointers, read the input and call functions, so
what it stands for depends on the memory, and on what else there is: it is a **course** from one
state to the next. This is said here by recursion on the expression, without any code: there is no
stack, and nothing is kept in a frame but the variables.

A course fails where the language promises nothing: where an address is followed to bytes that do
not belong to the program, and where a function is called that does not return. What the functions
do is left open, as they may belong to other units.

What expressions do depends on the order in which their parts are taken. The elements of a tuple are
taken from the last to the first where its value is wanted, and from the first to the last where one
of its components is; arguments are taken from the last to the first; what is assigned is taken
before the place that it is assigned to.

## Main definitions

* `PostfixCompiler.Machine.Course`: from a state to a result and the next state.
* `PostfixCompiler.Machine.Stage`: what the expressions of a function depend on.
* `PostfixCompiler.Expr.value`, `PostfixCompiler.Expr.locate`: what an expression does whose value
  is wanted, and one that is asked where something is.
* `PostfixCompiler.Expr.print`, `PostfixCompiler.Expr.write`: what is done to print the values of
  expressions.
-/

namespace PostfixCompiler

open Emission

namespace Machine

/-! ### Courses -/

/-- **A course**: from a state to a result and the next state, if there is one. A state is what
there is outside of the memory, and the memory. -/
abbrev Course (M : Machine) (W α : Type) : Type := StateT (W × M.Memory) Option α

namespace Course

variable {M : Machine} {W α β : Type} {σ σ' : W × M.Memory}

/-- The course that leaves everything as it is. -/
def lift (x : Option α) : M.Course W α := fun σ => x.map fun v => (v, σ)

/-- **One course behind another.** -/
theorem bind_eq_some {c : M.Course W α} {f : α → M.Course W β} {y : β × W × M.Memory} :
    (c >>= f) σ = some y ↔ ∃ x σ₁, c σ = some (x, σ₁) ∧ f x σ₁ = some y := by
  change ((c σ).bind fun p => f p.1 p.2) = some y ↔ _
  rw [Option.bind_eq_some_iff]
  exact ⟨fun ⟨⟨x, σ₁⟩, h, h'⟩ => ⟨x, σ₁, h, h'⟩, fun ⟨x, σ₁, h, h'⟩ => ⟨(x, σ₁), h, h'⟩⟩

theorem pure_eq_some {x y : α} : (pure x : M.Course W α) σ = some (y, σ') ↔ x = y ∧ σ = σ' := by
  change some (x, σ) = some (y, σ') ↔ _
  rw [Option.some.injEq, Prod.mk.injEq]

theorem lift_eq_some {x : Option α} {y : α} :
    (lift x : M.Course W α) σ = some (y, σ') ↔ x = some y ∧ σ = σ' := by
  rw [lift, Option.map_eq_some_iff]
  constructor
  · rintro ⟨v, rfl, h⟩
    cases h
    exact ⟨rfl, rfl⟩
  · rintro ⟨rfl, rfl⟩
    exact ⟨y, rfl, rfl⟩

/-- A course whose result is a word. -/
def word (c : M.Course W M.Value) : M.Course W M.Word := do .lift (← c).word?

/-- A course whose result is a number, as a double. -/
def real (c : M.Course W M.Value) : M.Course W M.Real := do .lift (← c).real?

/-- **What an operator does with two courses**, by the types of their results: the second one is
left out if the result of the first decides. -/
def operate (op : BinaryOp) (t u : Ty) (c d : M.Course W M.Value) : M.Course W M.Value := do
  let a ← c
  if M.decides op a then pure a
  else do
    let b ← d
    .lift (M.binary? op t u a b)

section Operate

variable {γ δ : Type} {op : BinaryOp} {t u : Ty} {c d : M.Course W M.Value}

@[simp] theorem lift_some (x : α) : (lift (some x) : M.Course W α) = pure x := rfl

/-- A course that cannot go on has no result, whatever was done before. -/
theorem bind_lift_none (c : M.Course W α) :
    (c >>= fun _ => (lift none : M.Course W β)) = lift none := by
  funext σ
  change ((c σ).bind fun p => (lift none : M.Course W β) p.2) = _
  cases c σ <;> rfl

/-- It does not matter whether results are looked at one by one or together. -/
theorem bind_bind_lift {g : α → Option γ} {h : β → Option δ} {ε : Type} (f : γ → δ → ε)
    (c : M.Course W α) (d : M.Course W β) :
    (c >>= fun a => d >>= fun b => lift (do pure (f (← g a) (← h b)))) =
      (c >>= fun a => lift (g a)) >>= fun x => (d >>= fun b => lift (h b)) >>= fun y =>
        pure (f x y) := by
  simp only [bind_assoc]
  refine bind_congr fun a => ?_
  cases g a with
  | none => exact bind_lift_none d
  | some x =>
    rw [lift_some, pure_bind]
    refine bind_congr fun b => ?_
    cases h b <;> rfl

/-- An operator of which both operands are wanted. -/
theorem operate_eq (hop : ¬(op = .and ∨ op = .or)) : operate op t u c d =
    c >>= fun a => d >>= fun b => lift (M.binary? op t u a b) := by
  simp only [operate, decides_eq_false hop, Bool.false_eq_true, if_false]

/-- An operator that combines two words. -/
theorem operate_words (hop : ¬(op = .and ∨ op = .or)) {f : M.Word → M.Word → M.Value}
    (hf : ∀ a b, M.binary? op t u a b = (do pure (f (← a.word?) (← b.word?)))) :
    operate op t u c d = c.word >>= fun x => d.word >>= fun y => pure (f x y) := by
  rw [operate_eq hop]
  simp only [hf]
  exact bind_bind_lift f c d

/-- An operator that combines two doubles. -/
theorem operate_reals (hop : ¬(op = .and ∨ op = .or)) (ht : t.IsNumber) (hu : u.IsNumber)
    (h : t = .double ∨ u = .double) :
    operate op t u c d = c.real >>= fun x => d.real >>= fun y => pure (M.ofReals op x y) := by
  rw [operate_eq hop]
  simp only [binary?_of_double ht hu h]
  exact bind_bind_lift (M.ofReals op) c d

/-- A connective. -/
theorem operate_connective (hop : op = .and ∨ op = .or) : operate op .int .int c d =
    c.word >>= fun x => if M.isZero x = decide (op = .and) then pure (.word x)
      else d.word >>= fun y => pure (.word (M.words op x y)) := by
  simp only [operate, word, bind_assoc]
  refine bind_congr fun a => ?_
  cases a with
  | word x =>
    simp only [decides_word hop, Value.word?, lift_some, pure_bind]
    split
    · rfl
    · refine bind_congr fun b => ?_
      cases b <;> rfl
  | real | tuple => exact bind_lift_none d

end Operate

end Course

/-! ### Memory -/

/-- The memory with a scalar at an address. -/
def write {M : Machine} (m : M.Memory) (a : Int) : M.Value → M.Memory
  | .word w => M.word.put m a w
  | .real d => M.real.put m a d
  | .tuple _ => m

/-- **Where something is**: at an address, or nowhere that could be known, as it is not kept in a
variable. -/
inductive Located (M : Machine) where
  /-- It is at an address. -/
  | place (w : M.Word)
  /-- It is a value that was made up on the way. -/
  | held (v : M.Value)

/-- The address of what is in a variable. -/
def Located.address? {M : Machine} : Located M → Option M.Word
  | .place w => some w
  | .held _ => none

/-- The component of what is somewhere, components being counted from 1. -/
def Located.component? {M : Machine} (t : Ty) (i : Int) : Located M → Option (Located M)
  | .place w => (t.componentOffset? i).map fun bytes => .place (shifted w bytes)
  | .held v => (v.component? i).map .held

/-! ### Stages -/

/-- **A function that is called**, as it is known to those who call it. -/
structure Callee where
  /-- Its label. -/
  label : String
  /-- The types of its parameters. -/
  parameters : List Ty
  /-- The type of its result. -/
  result : Ty

/-- The function that reads a number from the input. -/
def inputCallee (t : Ty) : Callee := ⟨if t = .double then "readd" else "readi", [], t⟩

/-- A function that prints a leaf of a value. -/
def printCallee (label : String) (t : Ty) : Callee := ⟨label, [t], .void⟩

/-- The function that ends a line. -/
def lineCallee : Callee := ⟨"println", [], .void⟩

/-- **The stage of a function**: what its expressions depend on. -/
structure Stage (M : Machine) (W : Type) where
  /-- The types of the nodes. -/
  types : TypeTable
  /-- How labels are made from names. -/
  config : Config
  /-- Where the variables of the function are. -/
  fp : Int
  /-- The addresses of the texts. -/
  texts : NodeId → M.Word
  /-- The bytes that belong to the program. -/
  own : Int → Bool
  /-- What functions do when they are called. -/
  functions : Callee → List M.Value → M.Course W M.Value

namespace Stage

variable {M : Machine} {W : Type} (S : Stage M W)

/-- Bytes from an address on belong to the program. -/
def owns (a : Int) (size : Nat) : Bool := (List.range size).all fun k => S.own (a + k)

theorem owns_iff {a : Int} {size : Nat} :
    S.owns a size = true ↔ ∀ b, a ≤ b → b < a + size → S.own b = true := by
  rw [owns, List.all_eq_true]
  constructor
  · intro h b hb hb'
    have hk := h (b - a).toNat (List.mem_range.mpr (by omega))
    rwa [Int.toNat_of_nonneg (by omega), show a + (b - a) = b by omega] at hk
  · intro h k hk
    have hk := List.mem_range.mp hk
    exact h _ (by omega) (by omega)

/-- The value of a type that is somewhere. -/
def fetch (t : Ty) : Located M → M.Course W M.Value
  | .place w => fun σ =>
      if S.owns (M.toInt w) t.size then some (M.read σ.2 (M.toInt w) t, σ) else none
  | .held v => pure v

/-- A scalar goes somewhere. Where that is no variable, it is lost. -/
def assign (t : Ty) (v : M.Value) : Located M → M.Course W Unit
  | .place w => fun σ =>
      if S.owns (M.toInt w) t.size then some ((), σ.1, write σ.2 (M.toInt w) v) else none
  | .held _ => pure ()

/-- A function is called for its value. -/
def call (c : Callee) (vs : List M.Value) : M.Course W M.Value :=
  if c.result = .void then .lift none else S.functions c vs

/-- Leaves are printed, one after the other, each by the function for its type. -/
def printLeaves : List Ty → List M.Value → M.Course W Unit
  | t :: ts, v :: vs => do
    let label ← .lift t.printer?
    let _ ← S.functions (printCallee label t) [v]
    printLeaves ts vs
  | _, _ => pure ()

/-- A line is ended, if it has to be. -/
def endLine (newline : Bool) : M.Course W Unit :=
  if newline then do
    let _ ← S.functions lineCallee []
    pure ()
  else pure ()

end Stage

end Machine

/-! ### Expressions -/

namespace Expr

open Machine

section Perform

variable {M : Machine} {W : Type} (S : Stage M W) (scope : View Symbol)

/-- Where the variable of a name is. -/
def variablePlace (name : String) : Option M.Word :=
  (scope name).map fun x =>
    if x.isGlobal then M.label (S.config.labelOf x) else M.ofInt (S.fp + x.offset)

/-- The function that is called by a name. -/
def callee (site : Site) (name : String) : Callee :=
  ⟨calleeLabel S.config scope name, calleeParameters scope name, S.types.typeOf site.id⟩

mutual

/-- **What an expression does whose value is wanted.** Memory from the stack is not asked for
here. -/
def value : Expr → M.Course W M.Value
  | .integer _ k => pure (.word (M.ofInt k.toInt))
  | .double _ d => pure (.real (M.ofDouble d))
  | .string s _ => pure (.word (S.texts s.id))
  | .nullptr _ => pure (.word (M.ofInt 0))
  | .sizeof _ e => pure (.word (M.ofInt (e.type S.types).size))
  | .input s => S.call (inputCallee (S.types.typeOf s.id)) []
  | .rvalue s p => do S.fetch (S.types.typeOf s.id) (← p.locate)
  | .assignment s p v => do
    let x ← v.value
    S.assign (S.types.typeOf s.id) (x.widened (S.types.typeOf s.id)) (← p.locate)
    pure (x.widened (S.types.typeOf s.id))
  | .unary _ op a => do .lift (unary? op (← a.value))
  | .binary _ op l r => .operate op (l.type S.types) (r.type S.types) l.value r.value
  | .addressOf _ p => do
    let w ← .lift (← p.locate).address?
    pure (.word w)
  | .tuple _ [e] => e.value
  | .tuple _ es => do pure (.tuple (← fromLast es))
  | .call s name args => do
    S.call (callee S scope s name) (← arguments args (calleeParameters scope name))
  | .variable .. | .pointerIndex .. | .tupleIndex .. | .stackAlloc .. => .lift none

/-- **What an expression does that is asked where something is.** -/
def locate : Expr → M.Course W (Located M)
  | .variable _ name => do
    let w ← .lift (variablePlace S scope name)
    pure (.place w)
  | .pointerIndex _ b i => do
    let w ← .word (.operate .add (b.type S.types) (i.type S.types) b.value i.value)
    pure (.place w)
  | .tupleIndex _ b i => do .lift ((← b.locate).component? (b.type S.types) i.toInt)
  | .rvalue _ p => p.locate
  | .tuple _ [e] => e.locate
  | .tuple _ es => do pure (.held (.tuple (← fromFirst es)))
  | .call s name args => do
    let vs ← arguments args (calleeParameters scope name)
    pure (.held (← S.call (callee S scope s name) vs))
  | .integer .. | .double .. | .string .. | .nullptr _ | .sizeof .. | .input _ | .assignment ..
  | .unary .. | .binary .. | .addressOf .. | .stackAlloc .. => .lift none

/-- The elements of a tuple are taken from the last to the first. -/
def fromLast : List Expr → M.Course W (List M.Value)
  | [] => pure []
  | e :: es => do
    let vs ← fromLast es
    pure ((← e.value) :: vs)

/-- The elements of a tuple are taken from the first to the last. -/
def fromFirst : List Expr → M.Course W (List M.Value)
  | [] => pure []
  | e :: es => do
    let v ← e.value
    pure (v :: (← fromFirst es))

/-- Arguments are taken from the last to the first, and become what the parameters are. -/
def arguments : List Expr → List Ty → M.Course W (List M.Value)
  | e :: es, p :: ps => do
    let vs ← arguments es ps
    pure ((← e.value).widened p :: vs)
  | _, _ => pure []

end

/-- A value in parentheses is evaluated as the value is. -/
theorem value_singleton (site : Site) (e : Expr) :
    value S scope (tuple site [e]) = value S scope e := by
  rw [value]

/-- A value in parentheses is where the value is. -/
theorem locate_singleton (site : Site) (e : Expr) :
    locate S scope (tuple site [e]) = locate S scope e := by
  rw [locate]

/-- **What expressions do to be printed**, one after the other: each is evaluated, and then its
leaves are printed. -/
def print : List Expr → M.Course W (List M.Value)
  | [] => pure []
  | e :: es => do
    let v ← e.value S scope
    S.printLeaves (e.type S.types).leaves v.leaves
    pure (v :: (← print es))

/-- **What a statement does that writes the values of expressions.** -/
def write (args : List Expr) (newline : Bool) : M.Course W (List M.Value) := do
  let vs ← print S scope args
  S.endLine newline
  pure vs

end Perform

end Expr

end PostfixCompiler
