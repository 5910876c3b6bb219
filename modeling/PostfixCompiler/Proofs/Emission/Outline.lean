import PostfixCompiler.Emission.Unit
import PostfixCompiler.Proofs.Symbol.View

/-!
# Outlines of code

The code of a unit is a flat list of instructions. What is to be said of it is said of its parts –
of the code of an expression, of a statement, of something that is done once – so beside the code
itself stands its **outline**: the same instructions in the same order, with the stretches marked
that belong to a part. The code is what is left of an outline when the marks are dropped.

## Main definitions

* `PostfixCompiler.Piece`: what a stretch of code stands for.
* `PostfixCompiler.Outline`: code with its pieces marked.
* `PostfixCompiler.Outline.code`: the instructions of an outline.
* `PostfixCompiler.Outline.Spans`: where the stretch of a piece starts and ends.
* `PostfixCompiler.Emission.Holds`: a list stands in another one.
-/

namespace PostfixCompiler

/-- Something that a function does in one go: control enters at its start and leaves behind it. -/
inductive Action where
  /-- A local variable gets its initial value. -/
  | initial (declaration : NodeId)
  /-- An expression is evaluated for its effects. -/
  | evaluate (expression : NodeId)
  /-- A value is printed. -/
  | print (expression : NodeId)
  /-- The line that a statement prints is ended. -/
  | endLine (statement : NodeId)
  /-- A condition is evaluated. -/
  | test (condition : NodeId)
  /-- The result of the function is handed over, and the function left. -/
  | return (statement : NodeId)
deriving DecidableEq

/-- What a stretch of code stands for. -/
inductive Piece where
  /-- An expression of which a value or an address is wanted, in the scope of some symbols. -/
  | expression (mode : Mode) (scope : View Symbol) (e : Expr)
  /-- A function. -/
  | function (f : Function)
  /-- A statement. -/
  | statement (s : Stmt)
  /-- Something that is done in one go. -/
  | action (a : Action)
  /-- The jump that a condition decides. -/
  | branch
  /-- A text among the constants, with its label. -/
  | text (id : NodeId) (label : String)

/-- **Code with its pieces marked.** -/
inductive Outline where
  /-- Nothing follows. -/
  | done
  /-- An instruction, and what follows. -/
  | step (i : Instr) (rest : Outline)
  /-- A piece, and what follows. -/
  | part (p : Piece) (inner rest : Outline)

namespace Outline

/-- One outline behind another. -/
def append : Outline → Outline → Outline
  | .done, o => o
  | .step i rest, o => .step i (rest.append o)
  | .part p inner rest, o => .part p inner (rest.append o)

instance : Append Outline := ⟨append⟩

/-- Instructions without marks. -/
def ofCode : List Instr → Outline
  | [] => .done
  | i :: is => .step i (ofCode is)

/-- A piece alone. -/
def piece (p : Piece) (inner : Outline) : Outline := .part p inner .done

/-- **The instructions of an outline**, in order. -/
def code : Outline → List Instr
  | .done => []
  | .step i rest => i :: rest.code
  | .part _ inner rest => inner.code ++ rest.code

@[simp] theorem code_done : Outline.done.code = [] := rfl

@[simp] theorem code_append (a b : Outline) : (a ++ b).code = a.code ++ b.code := by
  change (a.append b).code = _
  induction a with
  | done => rfl
  | step i rest ih => rw [append, code, ih, code, List.cons_append]
  | part p inner rest _ ih => rw [append, code, ih, code, List.append_assoc]

theorem append_assoc (a b c : Outline) : a ++ b ++ c = a ++ (b ++ c) := by
  change (a.append b).append c = a.append (b.append c)
  induction a with
  | done => rfl
  | step i rest ih => rw [append, append, append, ih]
  | part p inner rest _ ih => rw [append, append, append, ih]

@[simp] theorem code_ofCode (is : List Instr) : (ofCode is).code = is := by
  induction is with
  | nil => rfl
  | cons i is ih => rw [ofCode, code, ih]

@[simp] theorem code_piece (p : Piece) (inner : Outline) : (piece p inner).code = inner.code := by
  rw [piece, code, code, List.append_nil]

/-- **The stretch of a piece** goes from one position to another. -/
inductive Spans : Outline → Piece → Nat → Nat → Prop where
  /-- The piece comes first. -/
  | here (p : Piece) (inner rest : Outline) : Spans (.part p inner rest) p 0 inner.code.length
  /-- The piece is inside the one that comes first. -/
  | inside {p q : Piece} {inner : Outline} (rest : Outline) {i j : Nat} (h : Spans inner p i j) :
    Spans (.part q inner rest) p i j
  /-- The piece stands behind an instruction. -/
  | behindStep {p : Piece} (x : Instr) {rest : Outline} {i j : Nat} (h : Spans rest p i j) :
    Spans (.step x rest) p (i + 1) (j + 1)
  /-- The piece stands behind another one. -/
  | behindPart {p : Piece} (q : Piece) (inner : Outline) {rest : Outline} {i j : Nat}
    (h : Spans rest p i j) :
    Spans (.part q inner rest) p (inner.code.length + i) (inner.code.length + j)

theorem Spans.le {o : Outline} {p : Piece} {i j : Nat} (h : o.Spans p i j) : i ≤ j := by
  induction h with
  | here => exact Nat.zero_le _
  | inside _ _ ih => exact ih
  | behindStep _ _ ih => exact Nat.succ_le_succ ih
  | behindPart _ _ _ ih => exact Nat.add_le_add_left ih _

end Outline

/-! ### Where code stands -/

namespace Emission

/-- **A list stands in another one** from a position on. -/
def Holds {α : Type} (whole : List α) (p : Nat) (part : List α) : Prop := part <+: whole.drop p

namespace Holds

variable {α : Type} {whole : List α} {p : Nat} {x : α} {a b : List α}

theorem left (h : Holds whole p (a ++ b)) : Holds whole p a := (List.prefix_append a b).trans h

theorem right (h : Holds whole p (a ++ b)) : Holds whole (p + a.length) b := by
  obtain ⟨rest, hrest⟩ := h
  rw [Holds, ← List.drop_drop, ← hrest, List.append_assoc, List.drop_left]
  exact List.prefix_append b rest

theorem head (h : Holds whole p (x :: a)) : whole[p]? = some x := by
  obtain ⟨rest, hrest⟩ := h
  have hfirst : (whole.drop p)[0]? = some x := by
      rw [← hrest, List.cons_append, List.getElem?_cons_zero]
  rwa [List.getElem?_drop, Nat.add_zero] at hfirst

theorem tail (h : Holds whole p (x :: a)) : Holds whole (p + 1) a := by
  have h : Holds whole p ([x] ++ a) := h
  exact h.right

end Holds

end Emission

end PostfixCompiler
