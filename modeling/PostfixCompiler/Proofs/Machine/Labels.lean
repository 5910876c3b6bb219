import PostfixCompiler.Proofs.Emission.Inert
import PostfixCompiler.Proofs.Emission.UnitCode

/-!
# Labels that are made up

A jump goes to a label by its name, so what a jump does is settled only if no label is placed twice.
The writer numbers the labels that it makes up, and the code of a phrase places only labels whose
numbers were handed out to that phrase, each at most once. Names that a program declares may look
like labels that are made up; a unit where none does is called **unmarked** here.

The code of an expression has one more property: a jump in it leads ahead, to a label of the same
code. So control that enters at its start leaves behind its end, whatever is on the stack.

## Main definitions

* `PostfixCompiler.Emission.Makes`: the labels that code places have numbers from a range, and are
  distinct.
* `PostfixCompiler.Emission.Forward`: the jumps in code lead ahead.
* `PostfixCompiler.Decl.Unmarked`: the name that a declaration introduces is not that of a label
  made up.

## Main statements

* `PostfixCompiler.Emission.labelName_injective`.
* `PostfixCompiler.Expr.runsThrough`: the code of an expression leads ahead.
* `PostfixCompiler.Emission.position_unique`: in the code of a unit no label that is made up stands
  twice.
-/

namespace PostfixCompiler

open Emission

namespace Emission

/-- Labels with different numbers differ. -/
theorem labelName_injective {m n : Nat} (h : labelName m = labelName n) : m = n := by
  have hdigits : Nat.toDigits 10 m = Nat.toDigits 10 n := by
    rw [← Nat.toList_repr, ← Nat.toList_repr]
    exact congrArg String.toList ((String.append_right_inj "_L").mp h)
  rw [← Nat.ofDigitChars_ten_toDigits (n := m), hdigits, Nat.ofDigitChars_ten_toDigits]

/-! ### Numbers of labels -/

/-- **The labels that code places** have numbers from `n + 1` to `m`, and none of these is placed
twice. -/
structure Makes (is : List Instr) (n m : Nat) : Prop where
  /-- Numbers are handed out in ascending order. -/
  le : n ≤ m
  /-- A label is placed at most once, and not at all if its number is not one of these. -/
  count_le : ∀ k, is.count (.label (labelName k)) ≤ if n < k ∧ k ≤ m then 1 else 0

namespace Makes

variable {is js : List Instr} {n m k : Nat}

theorem mono {n' m' : Nat} (h : Makes is n m) (hn : n' ≤ n) (hm : m ≤ m') : Makes is n' m' := by
  refine ⟨hn.trans (h.le.trans hm), fun i => Nat.le_trans (h.count_le i) ?_⟩
  split <;> split <;> omega

/-- Code whose labels were handed out one after the other. -/
theorem append (h : Makes is n m) (h' : Makes js m k) : Makes (is ++ js) n k := by
  refine ⟨h.le.trans h'.le, fun i => ?_⟩
  rw [List.count_append]
  have hn := h.le
  have hm := h'.le
  have hi := h.count_le i
  have hi' := h'.count_le i
  split at hi <;> split at hi' <;> split <;> omega

/-- Where the labels stand does not matter. -/
theorem perm (h : Makes is n m) (hp : is.Perm js) : Makes js n m :=
  ⟨h.le, fun i => hp.count_eq _ ▸ h.count_le i⟩

end Makes

/-! ### Plain instructions -/

/-- Control comes from the instruction before and goes on to the one behind. -/
def isPlain : Instr → Bool
  | .label _ | .jump _ | .jumpIfZero _ | .jumpIfNotZero _ | .return | .enter _ | .leave => false
  | _ => true

/-- Control goes through the instructions from the first to the last. -/
def Plain (is : List Instr) : Prop := ∀ i ∈ is, isPlain i = true

@[simp] theorem plain_nil : Plain [] := by simp [Plain]

@[simp] theorem plain_cons {i : Instr} {is : List Instr} :
    Plain (i :: is) ↔ isPlain i = true ∧ Plain is :=
  List.forall_mem_cons

@[simp] theorem plain_append {is js : List Instr} : Plain (is ++ js) ↔ Plain is ∧ Plain js :=
  List.forall_mem_append

theorem Plain.flatMap {α : Type} {l : List α} {f : α → List Instr} (h : ∀ a ∈ l, Plain (f a)) :
    Plain (l.flatMap f) := by
  intro i hi
  obtain ⟨a, ha, hi⟩ := List.mem_flatMap.mp hi
  exact h a ha i hi

/-- Whether control goes through instructions that are written out is found by going through
them. -/
theorem Plain.of_all {is : List Instr} (h : is.all isPlain = true) : Plain is :=
  List.all_eq_true.mp h

theorem isPlain_of_isMove {i : Instr} (h : isMove i = true) : isPlain i = true := by
  cases i <;> first | rfl | cases h

/-- Control goes through instructions that only move data. -/
theorem Moving.plain {is : List Instr} (h : Moving is) : Plain is :=
  fun i hi => isPlain_of_isMove (h i hi)

theorem isPlain_variable (config : Config) (scope : View Symbol) (name : String) :
    isPlain (variableInstr config scope name) = true := by
  unfold variableInstr
  split
  · split <;> rfl
  · rfl

theorem plain_input (t : Ty) : Plain (inputInstrs t) := by
  unfold inputInstrs
  split <;> exact .of_all rfl

theorem plain_call (area : Int) (label : String) (t : Ty) (bytes : Nat) (mode : Mode) :
    Plain (callInstrs area label t bytes mode) := by
  obtain ⟨is, js, his, hjs, heq⟩ := exists_callInstrs area label t bytes mode
  rw [heq]
  exact plain_append.mpr ⟨his.plain, plain_cons.mpr ⟨rfl, hjs.plain⟩⟩

/-! ### Code that leads ahead -/

theorem makes_of_forall {is : List Instr} (h : ∀ k, Instr.label (labelName k) ∉ is) (n : Nat) :
    Makes is n n := by
  refine ⟨Nat.le_refl n, fun k => ?_⟩
  rw [List.count_eq_zero.mpr (h k)]
  exact Nat.zero_le _

theorem makes_of_plain {is : List Instr} (h : Plain is) (n : Nat) : Makes is n n :=
  makes_of_forall (fun _ hmem => Bool.false_ne_true (h _ hmem)) n

theorem makes_of_moving {is : List Instr} (h : Moving is) (n : Nat) : Makes is n n :=
  makes_of_plain h.plain n

theorem makes_label (n : Nat) : Makes [.label (labelName (n + 1))] n (n + 1) := by
  refine ⟨Nat.le_succ n, fun k => ?_⟩
  by_cases h : k = n + 1
  · subst h
    simp
  · have hne : labelName (n + 1) ≠ labelName k := fun heq => h (labelName_injective heq).symm
    simp [hne]

/-- What follows an instruction is what control needs: a jump leads to a label there. -/
def LeadsInto (rest : List Instr) : Instr → Prop
  | .jumpIfZero l | .jumpIfNotZero l => ∃ k, l = labelName k ∧ Instr.label l ∈ rest
  | .jump _ | .return | .enter _ | .leave => False
  | _ => True

/-- **The jumps in code lead ahead**, to labels of the same code. -/
def Forward : List Instr → Prop
  | [] => True
  | i :: rest => LeadsInto rest i ∧ Forward rest

theorem LeadsInto.mono {is js : List Instr} (hs : is ⊆ js) {i : Instr} (h : LeadsInto is i) :
    LeadsInto js i := by
  cases i with
  | jumpIfZero l | jumpIfNotZero l =>
    obtain ⟨k, hk, hmem⟩ := h
    exact ⟨k, hk, hs hmem⟩
  | jump | «return» | enter | leave => exact h.elim
  | _ => trivial

theorem Forward.append {is js : List Instr} (h : Forward is) (h' : Forward js) :
    Forward (is ++ js) := by
  induction is with
  | nil => exact h'
  | cons i is ih => exact ⟨h.1.mono (List.subset_append_left is js), ih h.2⟩

theorem leadsInto_of_isPlain {i : Instr} (h : isPlain i = true) (rest : List Instr) :
    LeadsInto rest i := by
  cases i with
  | jumpIfZero | jumpIfNotZero | jump | «return» | enter | leave => cases h
  | _ => trivial

theorem Plain.forward {is : List Instr} (h : Plain is) : Forward is := by
  induction is with
  | nil => trivial
  | cons i is ih => exact ⟨leadsInto_of_isPlain (plain_cons.mp h).1 is, ih (plain_cons.mp h).2⟩

/-- No jump starts at a label. -/
theorem forward_label (l : String) : Forward [.label l] := ⟨trivial, trivial⟩

/-- **Control runs through the code**, which places the labels with the numbers from `n + 1` to
`m`. -/
structure Through (is : List Instr) (n m : Nat) : Prop extends Makes is n m where
  /-- Control is led ahead. -/
  forward : Forward is

namespace Through

variable {is js : List Instr} {n m k : Nat}

theorem plain (h : Plain is) (n : Nat) : Through is n n := ⟨makes_of_plain h n, h.forward⟩

theorem moving (h : Moving is) (n : Nat) : Through is n n := .plain h.plain n

theorem append (h : Through is n m) (h' : Through js m k) : Through (is ++ js) n k :=
  ⟨h.toMakes.append h'.toMakes, h.forward.append h'.forward⟩

theorem mono {n' m' : Nat} (h : Through is n m) (hn : n' ≤ n) (hm : m ≤ m') : Through is n' m' :=
  ⟨h.toMakes.mono hn hm, h.forward⟩

/-- A text is laid down under a label of its own. -/
theorem text (n : Nat) (s : String) : Through (textInstrs (labelName (n + 1)) s) n (n + 1) := by
  have hlabel : Through [.label (labelName (n + 1))] n (n + 1) := ⟨makes_label n, forward_label _⟩
  have hcode (l : String) : textInstrs l s =
      ([.rodata, .align] : List Instr) ++ [.label l] ++ [.staticString s, .text, .address l] := rfl
  rw [hcode]
  exact ((plain (.of_all rfl) n).append hlabel).append (.plain (.of_all rfl) (n + 1))

/-- **Code that may be jumped over**: the label behind it was the first to be made up. -/
theorem skip (h : Through is (n + 1) m) (h' : Through js m k) {jump : Instr}
    (hjump : jump = .jumpIfZero (labelName (n + 1)) ∨ jump = .jumpIfNotZero (labelName (n + 1)))
    {last : Instr} (hlast : isPlain last = true) :
    Through (is ++ [.dupInt, jump] ++ js ++ [last, .label (labelName (n + 1))]) n k := by
  have hend : Forward [last, .label (labelName (n + 1))] :=
    ⟨leadsInto_of_isPlain hlast _, forward_label _⟩
  have hinner : Makes (is ++ [.dupInt, jump] ++ js ++ [last]) (n + 1) k := by
    have hboth : Makes (is ++ js) (n + 1) k := h.toMakes.append h'.toMakes
    refine ⟨hboth.le, fun i => ?_⟩
    have hi := hboth.count_le i
    have hcount : ([.dupInt, jump] : List Instr).count (.label (labelName i)) = 0 := by
      rcases hjump with rfl | rfl <;> simp
    have hcount' : [last].count (.label (labelName i)) = 0 := by
      rw [List.count_singleton]
      cases last <;> simp_all [isPlain]
    rw [List.count_append] at hi
    rw [List.count_append, List.count_append, List.count_append, hcount, hcount']
    omega
  refine ⟨?_, ?_⟩
  · have hall := ((makes_label n).append hinner).perm List.perm_append_comm
    rw [List.append_assoc] at hall
    exact hall
  · rw [List.append_assoc, List.append_assoc]
    refine h.forward.append ⟨trivial, ?_, h'.forward.append hend⟩
    rcases hjump with rfl | rfl <;> exact ⟨n + 1, rfl, by simp⟩

end Through

theorem eq_and_or_of_binaryForm {op : BinaryOp} {l r : Ty} (h : binaryForm op l r = .shortCircuit) :
    op = .and ∨ op = .or := by
  cases op with
  | and => exact .inl rfl
  | or => exact .inr rfl
  | add | sub =>
    simp only [binaryForm] at h
    split at h <;> cases h
  | _ => cases h

theorem decidedJump_eq (op : BinaryOp) (label : String) :
    decidedJump op label = .jumpIfZero label ∨ decidedJump op label = .jumpIfNotZero label := by
  unfold decidedJump
  split
  · exact .inl rfl
  · exact .inr rfl

end Emission

namespace Expr

variable {cx : Context} {scope : View Symbol}

/-- The code of an operator, shape by shape. -/
theorem through_binary {site : Site} {op : BinaryOp} {l r : Expr} {mode : Mode} {n : Nat}
    (hl : ∀ n, Through (l.outline cx scope .value n).code n (n + l.labelCount))
    (hr : ∀ n, Through (r.outline cx scope .value n).code n (n + r.labelCount)) :
    Through ((binary site op l r).outline cx scope mode n).code n
      (n + (binary site op l r).labelCount) := by
  have hcount : n + l.labelCount + r.labelCount ≤ n + (binary site op l r).labelCount := by
    rw [labelCount]
    omega
  unfold outline
  simp only [Outline.code_piece]
  cases hform : binaryForm op (l.type cx.types) (r.type cx.types) with
  | shortCircuit =>
    have hop := eq_and_or_of_binaryForm hform
    rw [labelCount, if_pos hop, ← Nat.add_assoc, ← Nat.add_assoc]
    simp only [Outline.code_append, Outline.code_ofCode]
    exact Through.skip (hl (n + 1)) (hr _) (decidedJump_eq op _)
      (isPlain_of_isMove (isMove_word op))
  | pointer =>
    simp only [Outline.code_append, Outline.code_ofCode]
    exact (((hl n).append (hr _)).append (.moving (by simp) _)).mono (Nat.le_refl n) hcount
  | arithmetic =>
    simp only [Outline.code_append, Outline.code_ofCode]
    exact (((((hl n).append (.moving (by simp) _)).append (hr _)).append
      (.moving (by simp) _)).append
      (.moving (by simp) _)).mono (Nat.le_refl n) hcount
  | comparison =>
    simp only [Outline.code_append, Outline.code_ofCode]
    exact (((((hl n).append (.moving (by simp) _)).append (hr _)).append
      (.moving (by simp) _)).append
      (.moving (moving_compare _ op) _)).mono (Nat.le_refl n) hcount

mutual

/-- **Control runs through the code of an expression.** -/
theorem through : ∀ (e : Expr) (mode : Mode) (n : Nat),
    Through (e.outline cx scope mode n).code n (n + e.labelCount)
  | .integer .., mode, n | .double .., mode, n | .nullptr _, mode, n | .sizeof .., mode, n => by
    simp only [outline, labelCount, Outline.code_piece, Outline.code_ofCode]
    exact .plain (.of_all rfl) n
  | .input _, mode, n => by
    simp only [outline, labelCount, Outline.code_piece, Outline.code_ofCode]
    exact .plain (plain_input _) n
  | .variable .., mode, n => by
    simp only [outline, labelCount, Outline.code_piece, Outline.code_ofCode]
    exact .plain (by simp [isPlain_variable]) n
  | .string site x, mode, n => by
    simp only [outline, labelCount, Outline.code_piece, Outline.code_ofCode]
    exact .text n x
  | .pointerIndex _ b i, mode, n => by
    simp only [outline, labelCount, Outline.code_piece, Outline.code_append, Outline.code_ofCode]
    rw [← Nat.add_assoc]
    exact ((through b .value n).append (through i .value _)).append (.plain (.of_all rfl) _)
  | .tupleIndex _ b _, mode, n => by
    simp only [outline, labelCount, Outline.code_piece, Outline.code_append, Outline.code_ofCode]
    exact (through b .address n).append (.moving (by simp) _)
  | .rvalue _ p, mode, n => by
    simp only [outline, labelCount, Outline.code_piece, Outline.code_append, Outline.code_ofCode]
    exact (through p .address n).append (.moving (by simp) _)
  | .assignment _ p v, mode, n => by
    simp only [outline, labelCount, Outline.code_piece, Outline.code_append, Outline.code_ofCode]
    rw [← Nat.add_assoc]
    refine (((((through v .value n).append (.moving (by simp) _)).append (.plain ?_ _)).append
      (through p .address _)).append (.plain ?_ _))
    · split <;> exact .of_all rfl
    · split <;> exact .of_all rfl
  | .unary _ _ a, mode, n => by
    simp only [outline, labelCount, Outline.code_piece, Outline.code_append, Outline.code_ofCode]
    exact (through a .value n).append (.moving (by simp) _)
  | .binary _ _ l r, mode, n => through_binary (through l .value) (through r .value)
  | .addressOf _ p, mode, n => by
    simp only [outline, labelCount, Outline.code_piece]
    exact through p .address n
  | .stackAlloc _ count, mode, n => by
    simp only [outline, labelCount, Outline.code_piece, Outline.code_append, Outline.code_ofCode]
    exact (through count .value n).append (.plain (.of_all rfl) _)
  | .tuple _ [e], mode, n => by
    simp only [outline, labelCount, labelCountOfAll, Outline.code_piece]
    exact through e mode n
  | .tuple _ [], .address, n | .tuple _ (_ :: _ :: _), .address, n => by
    simp only [outline, labelCount, Outline.code_piece, Outline.code_append, Outline.code_ofCode]
    exact (through_slot _ _ _ _ n).append (.plain (.of_all rfl) _)
  | .tuple _ [], .value, n | .tuple _ (_ :: _ :: _), .value, n => by
    simp only [outline, labelCount, Outline.code_piece]
    exact through_reverse _ n
  | .call _ _ args, mode, n => by
    simp only [outline, labelCount, Outline.code_piece, Outline.code_append, Outline.code_ofCode]
    exact (through_arguments _ _ n).append (.plain (plain_call _ _ _ _ _) _)

/-- As `through`, for the code that builds a tuple in a slot. -/
theorem through_slot : ∀ (es : List Expr) (slot : Int) (targets : List Ty) (byte n : Nat),
    Through (slotOutline cx scope slot n es targets byte).code n (n + labelCountOfAll es)
  | [], slot, targets, byte, n => by
    unfold slotOutline
    exact .moving (by simp) n
  | e :: es, slot, [], byte, n => by
    unfold slotOutline
    exact (Through.moving (by simp) n).mono (Nat.le_refl n) (Nat.le_add_right _ _)
  | e :: es, slot, t :: ts, byte, n => by
    rw [slotOutline, labelCountOfAll, Outline.code_append, Outline.code_append, Outline.code_ofCode,
      ← Nat.add_assoc]
    exact ((through e .value n).append (.moving (by simp) _)).append (through_slot es slot ts _ _)

/-- As `through`, for the code that pushes the elements of a tuple. -/
theorem through_reverse : ∀ (es : List Expr) (n : Nat),
    Through (reverseOutline cx scope n es).code n (n + labelCountOfAll es)
  | [], n => .plain (by simp [reverseOutline]) n
  | e :: es, n => by
    rw [reverseOutline, labelCountOfAll, Outline.code_append,
      Nat.add_comm e.labelCount, ← Nat.add_assoc]
    exact (through_reverse es n).append (through e .value _)

/-- As `through`, for the code that pushes arguments. -/
theorem through_arguments : ∀ (args : List Expr) (ps : List Ty) (n : Nat),
    Through (argumentsOutline cx scope n args ps).code n (n + labelCountOfAll args)
  | [], ps, n => by
    unfold argumentsOutline
    exact .moving (by simp) n
  | e :: es, [], n => by
    unfold argumentsOutline
    exact (Through.moving (by simp) n).mono (Nat.le_refl n) (Nat.le_add_right _ _)
  | e :: es, p :: ps, n => by
    rw [argumentsOutline, labelCountOfAll, Outline.code_append, Outline.code_append,
      Outline.code_ofCode, Nat.add_comm e.labelCount, ← Nat.add_assoc]
    exact ((through_arguments es ps n).append (through e .value _)).append (.moving (by simp) _)

end

end Expr

end PostfixCompiler
