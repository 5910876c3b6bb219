import PostfixCompiler.Proofs.Emission.Inert
import PostfixCompiler.Proofs.Emission.Standing
import PostfixCompiler.Proofs.Frame.Address
import PostfixCompiler.Proofs.Machine.Labels

/-!
# What the code of a function refers to

Instructions name labels: of the functions that they call, of the variables and texts whose
addresses they push, and of the places where they jump to. A unit can be linked if each label that
is named is placed somewhere. Code **refers** to labels of three kinds here: to those that are known
to be placed elsewhere, to functions of the runtime, and to those that the code places itself.

While the parts of a phrase are gone through, the labels that the phrase places are taken to be
known. Once all of the phrase is there, they need not be known any more.

## Main definitions

* `PostfixCompiler.Instr.reference?`: the label that an instruction names.
* `PostfixCompiler.Emission.Refers`: what code refers to.
* `PostfixCompiler.Expr.Linked`: the labels that a node names are known.

## Main statements

* `PostfixCompiler.Emission.Refers.place`: a label that is placed need not be known.
* `PostfixCompiler.Expr.refers`, `PostfixCompiler.Stmt.refers`: what the code of a phrase refers to.
-/

namespace PostfixCompiler

open Emission

/-- The label that an instruction names. -/
def Instr.reference? : Instr → Option String
  | .jump l | .jumpIfZero l | .jumpIfNotZero l | .call l | .address l | .staticAddress l => some l
  | _ => none

/-- **An instruction names no label but a known one**, it places none but one that is made up or has
one of these names, and it asks other units for none. -/
def Instr.Within (named known : String → Prop) (i : Instr) : Prop :=
  (∀ l, i.reference? = some l → known l) ∧ (∀ l, i = .label l → named l ∨ ∃ k, l = labelName k) ∧
    ∀ l, i ≠ .external l

theorem Instr.Within.imp {named known known' : String → Prop} {i : Instr} (h : i.Within named known)
    (hknown : ∀ l, known l → known' l) : i.Within named known' :=
  ⟨fun l hl => hknown l (h.1 l hl), h.2⟩

namespace Emission

variable {named known known' : String → Prop}

/-- An instruction that moves data names no label. -/
theorem within_of_isInert {i : Instr} (h : isInert i = true) : i.Within named known := by
  cases i with
  | jump | jumpIfZero | jumpIfNotZero | call | address | staticAddress | label | external => cases h
  | _ => simp [Instr.Within, Instr.reference?]

/-- The functions of the runtime that read and print. -/
def runtimeNames : List String := ["readi", "readd", "printi", "printd", "prints", "println"]

theorem printHelper_mem (t : Ty) : printHelper t ∈ runtimeNames := by
  unfold printHelper
  split <;> decide

/-- **What code refers to**: each label that it names is known, is that of a function of the
runtime, or is placed in the code; and each of these functions of the runtime is called. -/
structure Refers (named known : String → Prop) (helpers : List String)
    (is : List Instr) : Prop where
  /-- No other label is named. -/
  found : ∀ i ∈ is, i.Within named fun l => known l ∨ l ∈ helpers ∨ .label l ∈ is
  /-- Each function of the runtime is called. -/
  called : ∀ l ∈ helpers, .call l ∈ is
  /-- There are no other functions of the runtime. -/
  runtime : ∀ l ∈ helpers, l ∈ runtimeNames

namespace Refers

variable {hs ks : List String} {is js : List Instr}

/-- Code that names known labels only. -/
theorem of_known (h : ∀ i ∈ is, i.Within named known) : Refers named known [] is :=
  ⟨fun i hi => (h i hi).imp fun _ => .inl, by simp, by simp⟩

theorem inert (h : Inert is) : Refers named known [] is :=
  of_known fun i hi => within_of_isInert (h i hi)

theorem moving (h : Moving is) : Refers named known [] is := inert h.inert

theorem append (h : Refers named known hs is) (h' : Refers named known ks js) :
    Refers named known (hs ++ ks) (is ++ js) := by
  refine ⟨List.forall_mem_append.mpr ⟨fun i hi => (h.found i hi).imp fun l hl => ?_,
    fun i hi => (h'.found i hi).imp fun l hl => ?_⟩, List.forall_mem_append.mpr ⟨fun l hl =>
      ?_, fun l hl => ?_⟩,
    List.forall_mem_append.mpr ⟨h.runtime, h'.runtime⟩⟩
  · exact hl.imp_right fun hl => hl.imp (List.mem_append_left _) (List.mem_append_left _)
  · exact hl.imp_right fun hl => hl.imp (List.mem_append_right _) (List.mem_append_right _)
  · exact List.mem_append_left _ (h.called l hl)
  · exact List.mem_append_right _ (h'.called l hl)

/-- Which functions of the runtime are called matters, and not in which order. -/
theorem congr (h : Refers named known hs is) (heq : ∀ l, l ∈ ks ↔ l ∈ hs) :
    Refers named known ks is :=
  ⟨fun i hi => (h.found i hi).imp fun l hl => hl.imp_right (Or.imp_left (heq l).mpr),
    fun l hl => h.called l ((heq l).mp hl), fun l hl => h.runtime l ((heq l).mp hl)⟩

/-- Code that names known labels only, behind other code. -/
theorem behind (h : Refers named known hs is) (h' : Refers named known [] js) :
    Refers named known hs (is ++ js) :=
  (h.append h').congr (by simp)

theorem mono (h : Refers named known hs is) (hknown : ∀ l, known l → known' l) :
    Refers named known' hs is :=
  ⟨fun i hi => (h.found i hi).imp fun l hl => hl.imp_left (hknown l), h.called, h.runtime⟩

/-- **A label that is placed need not be known.** -/
theorem place (h : Refers named known' hs is) (hknown : ∀ l, known' l → known l ∨ .label l ∈ is) :
    Refers named known hs is := by
  refine ⟨fun i hi => (h.found i hi).imp fun l hl => ?_, h.called, h.runtime⟩
  rcases hl with hl | hl
  · exact (hknown l hl).imp_right .inr
  · exact .inr hl

/-- A function of the runtime is called. -/
theorem helper {name : String} (h : name ∈ runtimeNames) : Refers named known [name] [.call name] :=
  ⟨by simp [Instr.Within, Instr.reference?], by simp, by simpa using h⟩

/-- A label that was made up is placed. -/
theorem label (k : Nat) : Refers named known [] [.label (labelName k)] :=
  of_known (by simp [Instr.Within, Instr.reference?])

/-- A jump to a label that is known. -/
theorem jump {name : String} (h : known name) : Refers named known [] [.jump name] :=
  of_known (by simpa [Instr.Within, Instr.reference?] using h)

/-- The way out of a function. -/
theorem leave : Refers named known [] [.leave, .return] :=
  of_known (by simp [Instr.Within, Instr.reference?])

end Refers

/-- A text is laid down under a label that was made up, and referred to by it. -/
theorem refers_text (k : Nat) (s : String) :
    Refers named known [] (textInstrs (labelName k) s) := by
  have hknown :
      Refers named (fun l => l = labelName k) [] (textInstrs (labelName k) s) := .of_known ?_
  · refine hknown.place ?_
    rintro l rfl
    exact .inr (by simp [textInstrs])
  · simp [textInstrs, Instr.Within, Instr.reference?]

/-- A number that is read is called for. -/
theorem refers_input (t : Ty) : Refers named known [inputHelper t] (inputInstrs t) := by
  unfold inputInstrs inputHelper
  split
  · exact (Refers.helper (by decide)).behind (.inert (.of_all rfl))
  · exact (Refers.helper (by decide)).behind (.inert (.of_all rfl))

/-- To push the address of a variable is to name its label at most. -/
theorem within_variable {config : Config} {scope : View Symbol} {name : String}
    (h : ∀ l, (variableInstr config scope name).reference? = some l → known l) :
    (variableInstr config scope name).Within named known := by
  refine ⟨h, ?_⟩
  unfold variableInstr
  split
  · split <;> simp
  · simp

/-- A call names the label of the function. -/
theorem refers_call {label : String} (h : known label) (area : Int) (t : Ty) (bytes : Nat)
    (mode : Mode) :
    Refers named known [] (callInstrs area label t bytes mode) := by
  obtain ⟨is, js, his, hjs, heq⟩ := exists_callInstrs area label t bytes mode
  have hlabel : Refers named known [] [.call label] :=
    .of_known (by simpa [Instr.Within, Instr.reference?] using h)
  rw [heq]
  exact (Refers.moving his).append (hlabel.append (.moving hjs))

/-- The jump that skips the second operand of an operator names the label behind it. -/
theorem refers_decided {label : String} (h : known label) (op : BinaryOp) :
    Refers named known [] [.dupInt, decidedJump op label] := by
  refine .of_known ?_
  rcases decidedJump_eq op label with heq | heq
  all_goals
    rw [heq]
    simpa [Instr.Within, Instr.reference?] using h

/-- Each leaf of a value is printed by a function of the runtime. -/
theorem refers_print (ts : List Ty) :
    Refers named known (ts.map printHelper) (Expr.printInstrs ts) := by
  induction ts with
  | nil => exact .inert inert_nil
  | cons t ts ih =>
      exact ((Refers.helper (printHelper_mem t)).behind (.moving (moving_trash _))).append ih

end Emission

/-! ### Expressions -/

namespace Expr

/-- **The labels that a node names are known**: that of a variable, and that of a function, which
gets as many arguments as it has parameters. -/
def Linked (known : String → Prop) (config : Config) (scope : View Symbol) : Expr → Prop
  | .variable _ name => ∀ l, (variableInstr config scope name).reference? = some l → known l
  | .call _ name args => known (calleeLabel config scope name) ∧
      args.length = (calleeParameters scope name).length
  | _ => True

/-- The labels that the nodes of an expression name are known. -/
def AllLinked (known : String → Prop) (config : Config) (scope : View Symbol) (e : Expr) : Prop :=
  ∀ x : Expr, x.Part e → x.Linked known config scope

variable {P : Ty → Prop} {Γ : Names} {named known : String → Prop} {cx : Context}
  {scope : View Symbol}

theorem AllLinked.operand {e a : Expr} (h : e.AllLinked known cx.config scope)
    (ha : a ∈ e.operands) :
    a.AllLinked known cx.config scope :=
  fun x hx => h x (.inside ha hx)

/-- The code of an operator, shape by shape. -/
theorem refers_binary {site : Site} {op : BinaryOp} {l r : Expr} {mode : Mode} {n : Nat}
    (hl : ∀ n, Refers named known (l.helpers cx.types) (l.outline cx scope .value n).code)
    (hr : ∀ n, Refers named known (r.helpers cx.types) (r.outline cx scope .value n).code) :
    Refers named known ((binary site op l r).helpers cx.types)
      ((binary site op l r).outline cx scope mode n).code := by
  unfold outline helpers
  simp only [Outline.code_piece]
  cases binaryForm op (l.type cx.types) (r.type cx.types) with
  | shortCircuit =>
    simp only [Outline.code_append, Outline.code_ofCode]
    -- The label behind the second operand is known to the jump, since the operator places it.
    have hleft : Refers named (fun x => known x ∨ x = labelName (n + 1)) _ _ :=
      (hl (n + 1)).mono fun _ => .inl
    have hinner := hleft.behind (refers_decided (.inr rfl) op)
    have hend : Refers named (fun x => known x ∨ x = labelName (n + 1)) []
        ([wordInstr op] ++ [.label (labelName (n + 1))]) :=
      (Refers.moving (by simp)).behind (.label (n + 1))
    refine ((hinner.append ((hr _).mono fun _ => .inl)).behind hend).place fun x hx =>
      hx.imp_right ?_
    rintro rfl
    simp
  | pointer =>
    simp only [Outline.code_append, Outline.code_ofCode]
    exact ((hl n).append (hr _)).behind (.moving (by simp))
  | arithmetic =>
    simp only [Outline.code_append, Outline.code_ofCode]
    exact ((((hl n).behind (.moving (by simp))).append (hr _)).behind (.moving (by simp))).behind
      (.moving (by simp))
  | comparison =>
    simp only [Outline.code_append, Outline.code_ofCode]
    exact ((((hl n).behind (.moving (by simp))).append (hr _)).behind (.moving (by simp))).behind
      (.moving (moving_compare _ op))

/-- A tuple that is not a single value in parentheses has as many components as elements. -/
theorem Typed.length_components {s : Site} {es : List Expr} {T : TypeTable}
    (h : (tuple s es).Typed P T Γ) (hne : es.length ≠ 1) :
    es.length = (T.typeOf s.id).components.length := by
  obtain ⟨-, ts, -, hts, hs⟩ := h
  have hlength := hts.length_eq
  rw [TypeTable.typeOf_eq hs, hlength]
  rw [hlength] at hne
  -- Only the type of a single element is not made a tuple.
  match ts, hne with
  | [], _ | _ :: _ :: _, _ => rfl

mutual

/-- **What the code of an expression refers to**: to what is known, to functions of the runtime, and
to itself. -/
theorem refers :
    ∀ {e : Expr} {mode : Mode} {n : Nat}, e.Typed P cx.types Γ → e.AllLinked known cx.config scope →
    Refers named known (e.helpers cx.types) (e.outline cx scope mode n).code
  | .integer .., mode, n, h, hlinked | .double .., mode, n, h, hlinked
  | .nullptr _, mode, n, h, hlinked | .sizeof .., mode, n, h, hlinked => by
    simp only [outline, helpers, Outline.code_piece, Outline.code_ofCode]
    exact .inert (.of_all rfl)
  | .string s x, mode, n, h, hlinked => by
    simp only [outline, helpers, Outline.code_piece, Outline.code_ofCode]
    exact refers_text _ x
  | .input s, mode, n, h, hlinked => by
    simp only [outline, helpers, Outline.code_piece, Outline.code_ofCode]
    exact refers_input _
  | .variable s name, mode, n, h, hlinked => by
    simp only [outline, helpers, Outline.code_piece, Outline.code_ofCode]
    exact .of_known (List.forall_mem_singleton.mpr (within_variable (hlinked _ .self)))
  | .pointerIndex s b i, mode, n, h, hlinked => by
    simp only [outline, helpers, Outline.code_piece, Outline.code_append, Outline.code_ofCode]
    refine Refers.behind (Refers.append ?_ ?_) (.inert (.of_all rfl))
    · exact refers h.1.1 (hlinked.operand (by simp [operands]))
    · exact refers h.1.2 (hlinked.operand (by simp [operands]))
  | .tupleIndex s b i, mode, n, h, hlinked => by
    simp only [outline, helpers, Outline.code_piece, Outline.code_append, Outline.code_ofCode]
    exact (refers h.1 (hlinked.operand (by simp [operands]))).behind (.moving (by simp))
  | .rvalue s p, mode, n, h, hlinked => by
    simp only [outline, helpers, Outline.code_piece, Outline.code_append, Outline.code_ofCode]
    exact (refers h.1 (hlinked.operand (by simp [operands]))).behind (.moving (by simp))
  | .assignment s p v, mode, n, h, hlinked => by
    simp only [outline, helpers, Outline.code_piece, Outline.code_append, Outline.code_ofCode]
    refine Refers.behind (Refers.append (Refers.behind (Refers.behind ?_ (.moving (by simp)))
      (.inert ?_)) ?_) (.inert ?_)
    · exact refers h.1.2 (hlinked.operand (by simp [operands]))
    · split <;> exact .of_all rfl
    · exact refers h.1.1 (hlinked.operand (by simp [operands]))
    · split <;> exact .of_all rfl
  | .unary s op a, mode, n, h, hlinked => by
    simp only [outline, helpers, Outline.code_piece, Outline.code_append, Outline.code_ofCode]
    exact (refers h.1 (hlinked.operand (by simp [operands]))).behind (.moving (by simp))
  | .binary s op l r, mode, n, h, hlinked =>
    refers_binary (fun _ => refers h.1.1 (hlinked.operand (by simp [operands])))
      fun _ => refers h.1.2 (hlinked.operand (by simp [operands]))
  | .addressOf s p, mode, n, h, hlinked => by
    simp only [outline, helpers, Outline.code_piece]
    exact refers h.1 (hlinked.operand (by simp [operands]))
  | .stackAlloc s count, mode, n, h, hlinked => by
    simp only [outline, helpers, Outline.code_piece, Outline.code_append, Outline.code_ofCode]
    exact (refers h.1 (hlinked.operand (by simp [operands]))).behind (.inert (.of_all rfl))
  | .tuple s [e], mode, n, h, hlinked => by
    simp only [outline, helpers, helpersOfAll, List.append_nil, Outline.code_piece]
    exact refers h.1.1 (hlinked.operand (by simp [operands]))
  | .tuple s [], .value, n, h, hlinked => by
    simp only [outline, helpers, Outline.code_piece]
    exact refers_reverse [] n trivial (by simp)
  | .tuple s (a :: b :: es), .value, n, h, hlinked => by
    simp only [outline, helpers, Outline.code_piece]
    exact refers_reverse (a :: b :: es) n h.1 fun e he => hlinked.operand he
  | .tuple s [], .address, n, h, hlinked => by
    simp only [outline, helpers, Outline.code_piece, Outline.code_append, Outline.code_ofCode]
    exact (refers_slot [] _ _ 0 n trivial (by simp) (h.length_components (by simp))).behind
      (.inert (.of_all rfl))
  | .tuple s (a :: b :: es), .address, n, h, hlinked => by
    simp only [outline, helpers, Outline.code_piece, Outline.code_append, Outline.code_ofCode]
    have hlength := h.length_components (by simp)
    exact (refers_slot (a :: b :: es) _ _ 0 n h.1 (fun e he => hlinked.operand he) hlength).behind
      (.inert (.of_all rfl))
  | .call s name args, mode, n, h, hlinked => by
    simp only [outline, helpers, Outline.code_piece, Outline.code_append, Outline.code_ofCode]
    have hcall := hlinked _ .self
    exact (refers_arguments args _ n h.1 (fun e he => hlinked.operand he) hcall.2).behind
      (refers_call hcall.1 _ _ _ _)

/-- As `refers`, for the code that builds a tuple in a slot. -/
theorem refers_slot :
    ∀ (es : List Expr) (targets : List Ty) (slot : Int) (byte n : Nat), AllTyped P cx.types Γ es →
    (∀ e ∈ es, e.AllLinked known cx.config scope) → es.length = targets.length →
    Refers named known (helpersOfAll cx.types es) (slotOutline cx scope slot n es targets byte).code
  | [], targets, slot, byte, n, _, _, _ => by
    unfold slotOutline helpersOfAll
    exact .inert inert_nil
  | e :: es, t :: ts, slot, byte, n, h, hlinked, hlength => by
    rw [List.forall_mem_cons] at hlinked
    rw [slotOutline, helpersOfAll, Outline.code_append, Outline.code_append, Outline.code_ofCode]
    exact ((refers h.1 hlinked.1).behind (.moving (by simp))).append
      (refers_slot es ts slot _ _ h.2 hlinked.2 (Nat.succ.inj hlength))

/-- As `refers`, for the code that pushes the elements of a tuple. -/
theorem refers_reverse : ∀ (es : List Expr) (n : Nat), AllTyped P cx.types Γ es →
    (∀ e ∈ es, e.AllLinked known cx.config scope) →
    Refers named known (helpersOfAll cx.types es) (reverseOutline cx scope n es).code
  | [], n, _, _ => .inert inert_nil
  | e :: es, n, h, hlinked => by
    rw [List.forall_mem_cons] at hlinked
    rw [reverseOutline, helpersOfAll, Outline.code_append]
    exact ((refers_reverse es n h.2 hlinked.2).append (refers h.1 hlinked.1)).congr
      (by simp [or_comm])

/-- As `refers`, for the code that pushes arguments. -/
theorem refers_arguments :
    ∀ (args : List Expr) (ps : List Ty) (n : Nat), AllTyped P cx.types Γ args →
    (∀ e ∈ args, e.AllLinked known cx.config scope) → args.length = ps.length →
    Refers named known (helpersOfAll cx.types args) (argumentsOutline cx scope n args ps).code
  | [], ps, n, _, _, _ => by
    unfold argumentsOutline helpersOfAll
    exact .inert inert_nil
  | e :: es, p :: ps, n, h, hlinked, hlength => by
    rw [List.forall_mem_cons] at hlinked
    rw [argumentsOutline, helpersOfAll, Outline.code_append, Outline.code_append,
      Outline.code_ofCode]
    exact (((refers_arguments es ps n h.2 hlinked.2 (Nat.succ.inj hlength)).append
      (refers h.1 hlinked.1)).behind
      (.moving (by simp))).congr (by simp [or_comm])

end

end Expr

/-! ### Local variables and effects -/

/-- **A piece of the code of a function refers to what is known**, if it is an expression. -/
def Piece.Refers (named known : String → Prop) (T : TypeTable) (p : Piece)
    (inner : Outline) : Prop :=
  match p with
  | .expression _ _ e => Emission.Refers named known (e.helpers T) inner.code
  | .function _ | .statement _ | .action _ | .branch | .text .. => True

theorem Piece.Refers.mono {named known known' : String → Prop} (hknown : ∀ l, known l → known' l)
    {T : TypeTable} {p : Piece} {inner : Outline} (h : p.Refers named known T inner) :
    p.Refers named known' T inner := by
  cases p with
  | expression mode scope e => exact Emission.Refers.mono h hknown
  | _ => trivial

section Local

variable {named known : String → Prop} {cx : Context} {pt : Point}

theorem Expr.refers_of_all {e : Expr} {scope : View Symbol} {mode : Mode} {n : Nat}
    (h : (e.outline cx scope mode n).All (Piece.Refers named known cx.types)) :
    Refers named known (e.helpers cx.types) (e.outline cx scope mode n).code := by
  unfold outline at h ⊢
  rw [Outline.code_piece]
  exact h.1

theorem VarDecl.refers {d : VarDecl}
    (h : (d.outline cx pt).All (Piece.Refers named known cx.types)) :
    Refers named known (Expr.helpersOfOption cx.types d.initializer) (d.outline cx pt).code := by
  unfold outline at h ⊢
  cases hd : d.initializer with
  | none => exact .inert inert_nil
  | some e =>
    rw [hd] at h
    simp only [Outline.all_piece, Outline.all_append] at h
    simp only [Outline.code_piece, Outline.code_append, Outline.code_ofCode]
    exact (Expr.refers_of_all h.2.1).behind (.moving (by simp))

theorem VarDecl.refers_outlineAll {ds : List VarDecl}
    (h : (outlineAll cx pt ds).All (Piece.Refers named known cx.types)) :
    Refers named known (helpersOfAll cx.types ds) (outlineAll cx pt ds).code := by
  induction ds generalizing pt with
  | nil => exact .inert inert_nil
  | cons d ds ih =>
    rw [outlineAll, Outline.all_append] at h
    rw [outlineAll, Outline.code_append]
    exact (refers h.1).append (ih h.2)

theorem Expr.refers_effect {e : Expr}
    (h : (e.effectOutline cx pt).All (Piece.Refers named known cx.types)) :
    Refers named known (e.helpers cx.types) (e.effectOutline cx pt).code := by
  simp only [effectOutline, Outline.all_piece, Outline.all_append] at h
  simp only [effectOutline, Outline.code_piece, Outline.code_append, Outline.code_ofCode]
  exact (refers_of_all h.2.1).behind (.moving (by simp))

theorem Expr.refers_effects {es : List Expr}
    (h : (effectOutlineOfAll cx pt es).All (Piece.Refers named known cx.types)) :
    Refers named known (helpersOfAll cx.types es) (effectOutlineOfAll cx pt es).code := by
  induction es generalizing pt with
  | nil => exact .inert inert_nil
  | cons e es ih =>
    rw [effectOutlineOfAll, Outline.all_append] at h
    rw [effectOutlineOfAll, helpersOfAll, Outline.code_append]
    exact (refers_effect h.1).append (ih h.2)

theorem Expr.refers_prints {es : List Expr}
    (h : (printOutline cx pt es).All (Piece.Refers named known cx.types)) :
    Refers named known (helpersOfAll cx.types es ++ printHelpers cx.types es)
      (printOutline cx pt es).code := by
  induction es generalizing pt with
  | nil => exact .inert inert_nil
  | cons e es ih =>
    simp only [printOutline, Outline.all_append, Outline.all_piece] at h
    simp only [printOutline, Outline.code_append, Outline.code_piece, Outline.code_ofCode]
    refine (((refers_of_all h.1.2.1).append (refers_print _)).append (ih h.2)).congr fun l => ?_
    simp only [helpersOfAll, printHelpers, List.flatMap_cons, List.mem_append]
    tauto

theorem LoopInit.refers_outlineAll {is : List LoopInit}
    (h : (outlineAll cx pt is).All (Piece.Refers named known cx.types)) :
    Refers named known (helpersOfAll cx.types is) (outlineAll cx pt is).code := by
  induction is generalizing pt with
  | nil => exact .inert inert_nil
  | cons i is ih =>
    rw [outlineAll, Outline.all_append] at h
    rw [outlineAll, Outline.code_append]
    refine Refers.append ?_ (ih h.2)
    cases i with
    | declare d => exact VarDecl.refers h.1
    | evaluate e => exact Expr.refers_effect h.1

theorem Expr.refers_test {keep : List Instr} (hkeep : Moving keep) {otherwise : String}
    (ho : known otherwise) {c : Expr}
    (h : (c.testOutline cx pt keep otherwise).All (Piece.Refers named known cx.types)) :
    Refers named known (c.helpers cx.types) (c.testOutline cx pt keep otherwise).code := by
  simp only [testOutline, Outline.all_append, Outline.all_piece] at h
  simp only [testOutline, Outline.code_append, Outline.code_piece, Outline.code_ofCode]
  exact ((refers_of_all h.1.2.1).behind (.moving hkeep)).behind
    (.of_known (by simpa [Instr.Within, Instr.reference?] using ho))

theorem Emission.refers_loopTest {id : NodeId} {done : String} (hdone : known done)
    {c : Option Expr}
    (h : (loopTestOutline cx pt id done c).All (Piece.Refers named known cx.types)) :
    Refers named known (Expr.helpersOfOption cx.types c)
      (loopTestOutline cx pt id done c).code := by
  cases c with
  | none => exact .inert inert_nil
  | some c => exact Expr.refers_test (moving_keep _ _) hdone h

theorem Emission.refers_return {v : Expr}
    (h : (returnOutline cx pt v).All (Piece.Refers named known cx.types)) :
    Refers named known (v.helpers cx.types) (returnOutline cx pt v).code := by
  unfold returnOutline at h ⊢
  cases hR : cx.returnType with
  | tuple ts =>
    simp only [hR, Outline.all_append] at h
    simp only [Outline.code_append, Outline.code_ofCode]
    exact (Refers.append (.inert (.of_all rfl)) (Expr.refers_of_all h.1.2)).behind
      (.moving (by simp))
  | double =>
    simp only [hR, Outline.all_append] at h
    simp only [Outline.code_append, Outline.code_ofCode]
    refine (Expr.refers_of_all h.1).behind (.inert ?_)
    split <;> exact .of_all rfl
  | void | int | string | pointer | auto =>
    simp only [hR, Outline.all_append] at h
    simp only [Outline.code_append, Outline.code_ofCode]
    exact (Expr.refers_of_all h.1).behind (.inert (.of_all rfl))

end Local

/-! ### Statements -/

/-- The labels of the loop around a statement are known. -/
def Emission.LoopKnown (known : String → Prop) (cx : Context) : Prop :=
  ∀ l, cx.loop = some l → known l.increment ∧ known l.done

namespace Stmt

variable {P : Ty → Prop} {named known : String → Prop} {cx : Context} {pt : Point}

/-- A jump out of a loop, or to its next round. -/
theorem refers_jump {st : Stmt} {site : Site} (hst : st = .break site ∨ st = .continue site)
    {inLoop : Bool} (h : st.Stands P cx pt inLoop) (hloop : LoopKnown known cx) :
    Refers named known (st.helpers cx.types) (st.outline cx pt).code := by
  obtain ⟨l, hl⟩ := h.jump hst
  obtain ⟨hincrement, hdone⟩ := hloop l hl
  rcases hst with rfl | rfl
  · rw [(code_outline_jump hl _ _).1, helpers]
    exact .jump hdone
  · rw [(code_outline_jump hl _ _).2, helpers]
    exact .jump hincrement

/-- The code of a loop, in which its three labels are known. -/
theorem refers_forLoop {site : Site} {inits : List LoopInit} {c : Option Expr}
    {incs : List Expr} {body : Stmt}
    (h : ((forLoop site inits c incs body).outline cx pt).All (Piece.Refers named known cx.types))
    (hbody : ∀ {known : String → Prop} {cx : Context} {pt : Point},
      (body.outline cx pt).All (Piece.Refers named known cx.types) → body.Stands P cx pt true →
      LoopKnown known cx →
      Refers named known (body.helpers cx.types) (body.outline cx pt).code)
    (hstands : body.Stands P (cx.inLoop (LoopInit.afterAll cx.types pt inits))
      (LoopInit.afterAll cx.types pt inits)
      true) :
    Refers named known ((forLoop site inits c incs body).helpers cx.types)
      ((forLoop site inits c incs body).outline cx pt).code := by
  simp only [outline, Outline.all_piece, Outline.all_append] at h
  simp only [outline, Outline.code_piece, Outline.code_append, Outline.code_ofCode]
  generalize LoopInit.afterAll cx.types pt inits = start at h hstands ⊢
  obtain ⟨-, ⟨⟨⟨⟨⟨hinits, -⟩, htest⟩, hinside⟩, -⟩, hincs⟩, -⟩ := h
  -- Inside of the loop its labels are known.
  let inside : String → Prop := fun l => known l ∨ l = labelName (start.labels + 1) ∨
    l = labelName (start.labels + 2) ∨ l = labelName (start.labels + 3)
  have hmono : ∀ p inner, Piece.Refers named known cx.types p inner →
      Piece.Refers named inside cx.types p inner :=
    fun _ _ => Piece.Refers.mono fun _ => .inl
  have hdone : inside (labelName (start.labels + 3)) := .inr (.inr (.inr rfl))
  have htest := refers_loopTest hdone (htest.imp hmono)
  have hround := hbody (hinside.imp hmono) (hstands.move _ _) fun l hl => by
    cases hl
    exact ⟨.inr (.inr (.inl rfl)), .inr (.inr (.inr rfl))⟩
  have hjump : Refers named inside []
      ([.jump (labelName (start.labels + 1))] ++ [.label (labelName (start.labels + 3))]) :=
    (Refers.jump (.inr (.inl rfl))).behind (.label _)
  have hfirst :=
    ((LoopInit.refers_outlineAll (hinits.imp hmono)).behind (.label (start.labels + 1))).append
    htest
  have hlast := ((hfirst.append hround).behind (.label (start.labels + 2))).append
    (Expr.refers_effects (hincs.imp hmono))
  refine ((hlast.behind hjump).congr fun l => ?_).place fun l hl => hl.imp_right ?_
  · simp only [helpers, types_inLoop, List.mem_append]
    tauto
  · rintro (rfl | rfl | rfl) <;> simp

mutual

/-- **What the code of a statement refers to**: to what is known, to functions of the runtime, and
to itself. -/
theorem refers (hP : Ty.Stable P) :
    ∀ {st : Stmt} {known : String → Prop} {cx : Context} {pt : Point} {inLoop : Bool},
    (st.outline cx pt).All (Piece.Refers named known cx.types) → st.Stands P cx pt inLoop →
    LoopKnown known cx →
    Refers named known (st.helpers cx.types) (st.outline cx pt).code
  | .block _ ds body, known, cx, pt, inLoop, hall, h, hloop => by
    obtain ⟨-, -, hbody⟩ := h.block hP
    rw [outline, Outline.all_piece, Outline.all_append] at hall
    rw [outline, helpers, Outline.code_piece, Outline.code_append]
    exact (VarDecl.refers_outlineAll hall.2.1).append (refers_outlineAll hP hall.2.2 hbody hloop)
  | .evaluation _ e, known, cx, pt, inLoop, hall, h, hloop => by
    rw [outline, Outline.all_piece] at hall
    rw [outline, helpers, Outline.code_piece]
    exact Expr.refers_effect hall.2
  | .write site args newline, known, cx, pt, inLoop, hall, h, hloop => by
    rw [outline, Outline.all_piece, Outline.all_append] at hall
    rw [outline, helpers, Outline.code_piece, Outline.code_append]
    refine (Expr.refers_prints hall.2.1).append ?_
    split
    · rw [Outline.code_piece, Outline.code_ofCode]
      exact .helper (by decide)
    · exact .inert inert_nil
  | .ifThen _ c t, known, cx, pt, inLoop, hall, h, hloop => by
    obtain ⟨-, -, ht⟩ := h.ifThen
    simp only [outline, Outline.all_piece, Outline.all_append] at hall
    simp only [outline, helpers, Outline.code_piece, Outline.code_append, Outline.code_ofCode]
    obtain ⟨-, ⟨hc, hthen⟩, -⟩ := hall
    let inside : String → Prop := fun l => known l ∨ l = labelName (pt.labels + 1)
    have hotherwise : inside (labelName (pt.labels + 1)) := .inr rfl
    have hc :=
      Expr.refers_test moving_nil hotherwise (hc.imp fun _ _ => Piece.Refers.mono fun _ => .inl)
    have hthen : Refers named inside _ _ := (refers hP hthen (ht.move _ _) hloop).mono fun _ => .inl
    refine ((hc.append hthen).behind (.label (pt.labels + 1))).place fun l hl => hl.imp_right ?_
    rintro rfl
    simp
  | .ifElse _ c t e, known, cx, pt, inLoop, hall, h, hloop => by
    obtain ⟨-, -, ht, he⟩ := h.ifElse
    simp only [outline, Outline.all_piece, Outline.all_append] at hall
    simp only [outline, helpers, Outline.code_piece, Outline.code_append, Outline.code_ofCode]
    obtain ⟨-, ⟨⟨⟨hc, hthen⟩, -⟩, helse⟩, -⟩ := hall
    let inside : String → Prop :=
      fun l => known l ∨ l = labelName (pt.labels + 1) ∨ l = labelName (pt.labels + 2)
    have hotherwise : inside (labelName (pt.labels + 1)) := .inr (.inl rfl)
    have hc :=
      Expr.refers_test moving_nil hotherwise (hc.imp fun _ _ => Piece.Refers.mono fun _ => .inl)
    have hthen : Refers named inside _ _ := (refers hP hthen (ht.move _ _) hloop).mono fun _ => .inl
    have helse : Refers named inside _ _ := (refers hP helse (he.move _ _) hloop).mono fun _ => .inl
    have hjump : Refers named inside []
        ([.jump (labelName (pt.labels + 2))] ++ [.label (labelName (pt.labels + 1))]) :=
      (Refers.jump (.inr (.inr rfl))).behind (.label _)
    refine ((((hc.append hthen).behind hjump).append helse).behind (.label (pt.labels + 2))).place
      fun l hl => hl.imp_right ?_
    rintro (rfl | rfl) <;> simp
  | .forLoop site inits c incs body, known, cx, pt, inLoop, hall, h, hloop => by
    obtain ⟨-, -, hround⟩ := h.forLoop hP
    exact refers_forLoop hall (refers hP) hround.body
  | .break _, known, cx, pt, inLoop, hall, h, hloop => refers_jump (.inl rfl) h hloop
  | .continue _, known, cx, pt, inLoop, hall, h, hloop => refers_jump (.inr rfl) h hloop
  | .return site v, known, cx, pt, inLoop, hall, h, hloop => by
    simp only [outline, leaveOutline, Outline.all_piece, Outline.all_append] at hall
    simp only [outline, helpers, leaveOutline, Outline.code_piece, Outline.code_append,
      Outline.code_ofCode]
    refine Refers.behind ?_ .leave
    cases v with
    | none => exact .inert inert_nil
    | some v => exact refers_return hall.2.2.1

/-- As `refers`, for several statements. -/
theorem refers_outlineAll (hP : Ty.Stable P) :
    ∀ {ss : List Stmt} {known : String → Prop} {cx : Context} {pt : Point}
    {inLoop : Bool}, (outlineAll cx pt ss).All (Piece.Refers named known cx.types) →
    AllStand P cx pt inLoop ss →
    LoopKnown known cx → Refers named known (helpersOfAll cx.types ss) (outlineAll cx pt ss).code
  | [], known, cx, pt, inLoop, _, _, _ => by
    rw [outlineAll, helpersOfAll]
    exact .inert inert_nil
  | st :: ss, known, cx, pt, inLoop, hall, h, hloop => by
    obtain ⟨hst, hss⟩ := h.cons
    rw [outlineAll, Outline.all_append] at hall
    rw [outlineAll, helpersOfAll, Outline.code_append]
    exact (refers hP hall.1 hst hloop).append (refers_outlineAll hP hall.2 (hss _ _) hloop)

end

end Stmt

end PostfixCompiler
