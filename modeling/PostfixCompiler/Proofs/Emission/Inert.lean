import PostfixCompiler.Proofs.Emission.StmtOutline

/-!
# Instructions that only move data

Most of the code of an expression moves values between the stack and the frame and computes with
them. Such instructions are called **inert** here: control goes through them one by one, they name
no label, and they switch no segment. What is left are jumps and calls, the labels that they name,
and the directives.

Of the inert instructions three are rarer than the others: one takes as much memory from the stack
as a value says, and two hand over the result of a function. Code without these three is called
**moving**, and this is what every operator consists of, so whatever is to be shown of such code is
shown of moving instructions alone.

## Main definitions

* `PostfixCompiler.Emission.isInert`, `PostfixCompiler.Emission.Inert`.
* `PostfixCompiler.Emission.isMove`, `PostfixCompiler.Emission.Moving`.

## Main statements

* `PostfixCompiler.Emission.moving_store`, `PostfixCompiler.Emission.moving_load`,
  `PostfixCompiler.Emission.moving_read`: to store, to load or to read a value is to move it.
* `PostfixCompiler.Emission.exists_callInstrs`: what surrounds a call is moving.
-/

namespace PostfixCompiler.Emission

/-- The instruction moves data or computes, and does nothing else. -/
def isInert : Instr → Bool
  | .text | .data | .rodata | .bss | .align | .label _ | .global .. | .external _
  | .staticInt _ | .staticDouble _ | .staticString _ | .staticAddress _ | .staticBytes _
  | .address _ | .jump _ | .jumpIfZero _ | .jumpIfNotZero _ | .call _ | .return
  | .enter _ | .leave => false
  | _ => true

/-- **The instructions move data or compute**, and do nothing else. -/
def Inert (is : List Instr) : Prop := ∀ i ∈ is, isInert i = true

theorem inert_nil : Inert [] := by simp [Inert]

/-- Whether instructions that are written out are inert is found by going through them. -/
theorem Inert.of_all {is : List Instr} (h : is.all isInert = true) : Inert is :=
  List.all_eq_true.mp h

/-- The instruction is inert, takes no memory from the stack, and hands over no result. -/
def isMove : Instr → Bool
  | .alloc | .storeResultInt | .storeResultDouble => false
  | i => isInert i

/-- **The instructions move data between the stack and the frame**, or compute with what is on the
stack. -/
def Moving (is : List Instr) : Prop := ∀ i ∈ is, isMove i = true

@[simp] theorem moving_nil : Moving [] := by simp [Moving]

@[simp] theorem moving_cons {i : Instr} {is : List Instr} :
    Moving (i :: is) ↔ isMove i = true ∧ Moving is :=
  List.forall_mem_cons

@[simp] theorem moving_append {is js : List Instr} : Moving (is ++ js) ↔ Moving is ∧ Moving js :=
  List.forall_mem_append

theorem isInert_of_isMove {i : Instr} (h : isMove i = true) : isInert i = true := by
  cases i <;> first | rfl | cases h

namespace Moving

variable {is js : List Instr}

/-- Whether instructions that are written out are moving is found by going through them. -/
theorem of_all (h : is.all isMove = true) : Moving is := List.all_eq_true.mp h

theorem inert (h : Moving is) : Inert is := fun i hi => isInert_of_isMove (h i hi)

theorem append (hi : Moving is) (hj : Moving js) : Moving (is ++ js) := moving_append.mpr ⟨hi, hj⟩

theorem flatMap {α : Type} {l : List α} {f : α → List Instr} (h : ∀ a ∈ l, Moving (f a)) :
    Moving (l.flatMap f) := by
  intro i hi
  obtain ⟨a, ha, hi⟩ := List.mem_flatMap.mp hi
  exact h a ha i hi

theorem ite {p : Prop} [Decidable p] (hi : Moving is) (hj : Moving js) :
    Moving (if p then is else js) := by
  split
  · exact hi
  · exact hj

end Moving

/-! ### Moving values -/

@[simp] theorem moving_base (b : Base) (byte : Nat) : Moving (b.instrs byte) := by
  cases b with
  | frame => exact .of_all rfl
  | pinned => exact .append (.of_all rfl) (.ite (.of_all rfl) (.of_all rfl))

@[simp] theorem moving_store {push : Nat → List Instr} (hpush : ∀ n, Moving (push n))
    (target source : Ty) (offset : Nat) :
    Moving (storeInstrs push target source offset) :=
  forall_store hpush rfl rfl rfl target source offset

@[simp] theorem moving_load (b : Base) (leaves : List (Ty × Nat)) :
    Moving (loadInstrs b leaves) := by
  refine Moving.flatMap fun l _ => ?_
  unfold loadInstr
  split <;> exact (moving_base b l.2).append (.of_all rfl)

@[simp] theorem moving_trash (n : Nat) : Moving (trashInstrs n) := by
  unfold trashInstrs
  split <;> exact .of_all rfl

@[simp] theorem moving_offset (n : Nat) : Moving (offsetInstrs n) :=
  .ite (.of_all rfl) (.of_all rfl)

@[simp] theorem moving_widen (wanted t : Ty) : Moving (widenInstrs wanted t) :=
  .ite (.of_all rfl) (.of_all rfl)

@[simp] theorem moving_read (slot : Int) (t : Ty) (mode : Mode) :
    Moving (readInstrs slot t mode) := by
  unfold readInstrs
  split
  case h_2 => exact .append (.of_all rfl) (moving_load _ _)
  all_goals exact .of_all rfl

@[simp] theorem moving_keep (slot : Int) (t : Ty) : Moving (keepInstrs slot t) :=
  .ite (.of_all rfl) (.of_all rfl)

/-! ### Computing -/

@[simp] theorem isMove_word (op : BinaryOp) : isMove (wordInstr op) = true := by
  cases op <;> rfl

@[simp] theorem isMove_arithmetic (op : BinaryOp) (t : Ty) :
    isMove (arithmeticInstr op t) = true := by
  unfold arithmeticInstr
  split <;> cases op <;> rfl

@[simp] theorem moving_unary (op : UnaryOp) (t : Ty) : Moving (unaryTail op t) := by
  cases op with
  | neg => exact .ite (.of_all rfl) (.of_all rfl)
  | not | identity => exact .of_all rfl

@[simp] theorem moving_pointer (op : BinaryOp) (l r : Ty) : Moving (pointerTail op l r) := by
  unfold pointerTail
  split
  · exact .of_all rfl
  · simp only [moving_cons, isMove_word, moving_nil, and_true]
    exact ⟨rfl, rfl⟩

/-- What is done with the operands of a comparison. -/
@[simp] theorem moving_compare (wide : Ty) (op : BinaryOp) :
    Moving ((if wide = .double then [.compareDouble, .int 0] else []) ++ [wordInstr op]) :=
  (Moving.ite (.of_all rfl) (.of_all rfl)).append (by simp)

/-- **A call** moves data before the instruction that calls, and behind it. -/
theorem exists_callInstrs (area : Int) (label : String) (t : Ty) (bytes : Nat) (mode : Mode) :
    ∃ is js, Moving is ∧ Moving js ∧
    callInstrs area label t bytes mode = is ++ .call label :: js := by
  cases t with
  | tuple ts =>
    have htrash := moving_trash (bytes + Ty.wordSize)
    cases mode with
    | address => exact ⟨[.frameAddress area], _, .of_all rfl, htrash.append (.of_all rfl), rfl⟩
    | value => exact ⟨[.frameAddress area], _, .of_all rfl, htrash.append (moving_load _ _), rfl⟩
  | void => exact ⟨[], _, moving_nil, moving_trash bytes, rfl⟩
  | int | double | string | pointer | auto =>
    exact ⟨[], _, moving_nil, (moving_trash bytes).append (.of_all rfl), rfl⟩

end PostfixCompiler.Emission
