import PostfixCompiler.Proofs.Control.Course
import PostfixCompiler.Proofs.Control.Run

/-!
# The leaves of a statement in a run

What is done in one go has code of its own, which is not empty and whose jumps lead ahead. So a run
that comes to it begins the action and gets behind it, and what is done one after the other is begun
in this order.

## Main definitions

* `PostfixCompiler.Outline.Does`: a run that comes to some code must begin some actions and get
  behind it.

## Main statements

* `PostfixCompiler.Expr.bare`: there is no action inside an expression.
* `PostfixCompiler.Expr.code_ne_nil`: the code of an expression is not empty.
* `PostfixCompiler.Expr.does`: what an expression leaves is made use of in one go.
* `PostfixCompiler.Expr.must_test`, `PostfixCompiler.Emission.must_leave`: where a run goes from a
  condition, and from a return.
-/

namespace PostfixCompiler

open Emission

/-! ### Expressions -/

namespace Outline

theorem Bare.expression {mode : Mode} {scope : View Symbol} {e : Expr} {o : Outline} (h : o.Bare) :
    (piece (.expression mode scope e) o).Bare := by
  rw [Bare, code_piece, piece, cells, cells, List.append_nil]
  exact h

theorem Bare.text {id : NodeId} {label : String} {o : Outline} (h : o.Bare) :
    (piece (.text id label) o).Bare := by
  rw [Bare, code_piece, piece, cells, cells, List.append_nil]
  exact h

end Outline

namespace Expr

variable {cx : Context} {scope : View Symbol}

mutual

/-- **There is no action inside an expression.** -/
theorem bare : ∀ (e : Expr) (mode : Mode) (n : Nat), (e.outline cx scope mode n).Bare
  | .integer .., mode, n | .double .., mode, n | .nullptr _, mode, n | .sizeof .., mode, n
  | .input _, mode, n | .variable .., mode, n => by
    unfold outline
    exact .expression (.ofCode _)
  | .string .., mode, n => by
    unfold outline
    exact .expression (.text (Outline.Bare.ofCode _))
  | .pointerIndex _ b i, mode, n => by
    unfold outline
    exact .expression (((bare b _ _).append (bare i _ _)).append (Outline.Bare.ofCode _))
  | .tupleIndex _ b _, mode, n => by
    unfold outline
    exact .expression ((bare b _ _).append (Outline.Bare.ofCode _))
  | .rvalue _ p, mode, n => by
    unfold outline
    exact .expression ((bare p _ _).append (Outline.Bare.ofCode _))
  | .assignment _ p v, mode, n => by
    unfold outline
    exact .expression
      (((((bare v _ _).append (Outline.Bare.ofCode _)).append (Outline.Bare.ofCode _)).append
      (bare p _ _)).append (Outline.Bare.ofCode _))
  | .unary _ _ a, mode, n => by
    unfold outline
    exact .expression ((bare a _ _).append (Outline.Bare.ofCode _))
  | .binary _ op l r, mode, n => by
    unfold outline
    refine .expression ?_
    dsimp only
    split
    · exact (((bare l _ _).append (Outline.Bare.ofCode _)).append (bare r _ _)).append
        (Outline.Bare.ofCode _)
    · exact ((bare l _ _).append (bare r _ _)).append (Outline.Bare.ofCode _)
    · exact ((((bare l _ _).append (Outline.Bare.ofCode _)).append (bare r _ _)).append
        (Outline.Bare.ofCode _)).append (Outline.Bare.ofCode _)
    · exact ((((bare l _ _).append (Outline.Bare.ofCode _)).append (bare r _ _)).append
        (Outline.Bare.ofCode _)).append (Outline.Bare.ofCode _)
  | .addressOf _ p, mode, n => by
    unfold outline
    exact .expression (bare p _ _)
  | .stackAlloc _ c, mode, n => by
    unfold outline
    exact .expression ((bare c _ _).append (Outline.Bare.ofCode _))
  | .tuple _ [e], mode, n => by
    unfold outline
    exact .expression (bare e _ _)
  | .tuple _ [], mode, n | .tuple _ (_ :: _ :: _), mode, n => by
    unfold outline
    refine .expression ?_
    cases mode with
    | address => exact (bare_slot _ _ _ _ _).append (Outline.Bare.ofCode _)
    | value => exact bare_reverse _ _
  | .call _ _ args, mode, n => by
    unfold outline
    exact .expression ((bare_arguments args _ _).append (Outline.Bare.ofCode _))

theorem bare_slot : ∀ (es : List Expr) (slot : Int) (n : Nat) (targets : List Ty) (byte : Nat),
    (slotOutline cx scope slot n es targets byte).Bare
  | [], _, _, _, _ | _ :: _, _, _, [], _ => by
    rw [slotOutline] <;> simp [Outline.Bare, Outline.cells]
  | e :: es, slot, n, _ :: ts, byte => by
    rw [slotOutline]
    exact ((bare e _ _).append (Outline.Bare.ofCode _)).append (bare_slot es slot _ ts _)

theorem bare_reverse : ∀ (es : List Expr) (n : Nat), (reverseOutline cx scope n es).Bare
  | [], _ => by
    rw [reverseOutline]
    rfl
  | e :: es, n => by
    rw [reverseOutline]
    exact (bare_reverse es n).append (bare e _ _)

theorem bare_arguments :
    ∀ (es : List Expr) (n : Nat) (ps : List Ty), (argumentsOutline cx scope n es ps).Bare
  | [], _, _ | _ :: _, _, [] => by
    rw [argumentsOutline] <;> simp [Outline.Bare, Outline.cells]
  | e :: es, n, _ :: ps => by
    rw [argumentsOutline]
    exact ((bare_arguments es n ps).append (bare e _ _)).append (Outline.Bare.ofCode _)

end

/-- **The code of an expression is not empty.** -/
theorem code_ne_nil {P : Ty → Prop} {T : TypeTable} {Γ : Names} : ∀ {e : Expr}, e.Typed P T Γ →
    ∀ (mode : Mode) (n : Nat), (e.outline cx scope mode n).code ≠ []
  | .integer .., _, _, _ | .double .., _, _, _ | .nullptr _, _, _, _ | .sizeof .., _, _, _
  | .variable .., _, _, _ => by
    simp [outline]
  | .input _, _, _, _ => by
    simp only [outline, Outline.code_piece, Outline.code_ofCode, inputInstrs]
    split <;> simp
  | .string .., _, _, _ => by
    simp [outline, textInstrs]
  | .pointerIndex .., _, _, _ | .assignment .., _, _, _ | .stackAlloc .., _, _, _ => by
    simp [outline]
  | .tupleIndex _ b _, h, mode, n => by
    simp [outline, code_ne_nil h.1 .address n]
  | .rvalue _ p, h, mode, n => by
    simp [outline, code_ne_nil h.1 .address n]
  | .unary _ _ a, h, mode, n => by
    simp [outline, code_ne_nil h.1 .value n]
  | .binary _ op l r, h, mode, n => by
    unfold outline
    rw [Outline.code_piece]
    dsimp only
    split <;> simp [code_ne_nil h.1.1 .value n]
  | .addressOf _ p, h, mode, n => by
    simp [outline, code_ne_nil h.1 .address n]
  | .tuple _ [], h, mode, n => by
    obtain ⟨-, ts, hne, hall, -⟩ := h
    cases hall
    exact absurd rfl hne
  | .tuple _ [e], h, mode, n => by
    simp [outline, code_ne_nil h.1.1 mode n]
  | .tuple _ (e :: e' :: es), h, mode, n => by
    unfold outline
    cases mode with
    | address => simp
    | value => simp [reverseOutline, code_ne_nil h.1.1 .value]
  | .call _ _ args, _, _, _ => by
    simp only [outline, Outline.code_piece, Outline.code_append, Outline.code_ofCode, callInstrs]
    split <;> simp

end Expr

/-! ### Actions -/

/-- **A run that comes to some code must begin some actions and get behind it.** -/
def Outline.Does (cells : List Cell) (oracle : Nat → Bool) (o : Outline)
    (as : List Action) : Prop :=
  ∀ s : Control, Holds cells s.pos o.cells →
    Must (Moves cells oracle) (s.Gets (s.pos + o.code.length) s.tests as) s

section Does

variable {cells : List Cell} {oracle : Nat → Bool} {n m : Nat} {P : Ty → Prop}
  {Γ : Names} {cx : Context}
  {pt : Point}

theorem Outline.Does.done : Outline.done.Does cells oracle [] := fun s _ => .here (.refl s)

theorem Outline.Does.append {a b : Outline} {as bs : List Action} (ha : a.Does cells oracle as)
    (hb : b.Does cells oracle bs) : (a ++ b).Does cells oracle (as ++ bs) := by
  intro s hs
  rw [cells_append] at hs
  refine (ha s hs.left).trans fun t ht => ?_
  have hright := hs.right
  rw [length_cells, ← ht.pos_eq] at hright
  refine (hb t hright).mono fun u hu => ?_
  have hall := ht.trans hu
  refine ⟨hall.pos_eq.trans ?_, hall.tests_eq.trans ht.tests_eq, hall.clock_le, hall.actions_eq⟩
  rw [ht.pos_eq, code_append, List.length_append, Nat.add_assoc]

/-- What an expression leaves on the stack is made use of in one go. -/
theorem Expr.does (hm : Makes (cells.map Cell.instr) n m) {e : Expr}
    (h : e.Typed P cx.types Γ) {a : Action} {is : List Instr} (his : Plain is) :
    (Outline.piece (.action a) (e.outline cx pt.scope .value pt.labels ++ .ofCode is)).Does cells
      oracle [a] := by
  intro s hs
  have hbare : (e.outline cx pt.scope .value pt.labels ++ Outline.ofCode is).Bare :=
    (e.bare .value pt.labels).append (.ofCode is)
  have hforward : Forward (e.outline cx pt.scope .value pt.labels ++ Outline.ofCode is).code := by
    rw [Outline.code_append, Outline.code_ofCode]
    exact (e.through .value pt.labels).forward.append his.forward
  have hne : (e.outline cx pt.scope .value pt.labels ++ Outline.ofCode is).code ≠ [] := by
    simp [Expr.code_ne_nil h]
  rw [Outline.code_piece]
  exact must_act hm hbare hforward hne hs

/-- A declared variable gets its initial value in one go. -/
theorem VarDecl.does (hm : Makes (cells.map Cell.instr) n m) {d : VarDecl}
    (h : d.Typed P cx.types Γ) :
    (d.outline cx pt).Does cells oracle d.actions := by
  obtain ⟨t, -, -, -, hinit⟩ := h
  unfold outline actions
  cases hd : d.initializer with
  | none => exact .done
  | some e => exact Expr.does hm (hinit e hd).1 (moving_store (moving_base _) _ _ _).plain

theorem VarDecl.does_outlineAll (hm : Makes (cells.map Cell.instr) n m) {ds : List VarDecl}
    (h : AllTyped P cx.types Γ ds) :
    (outlineAll cx pt ds).Does cells oracle (ds.flatMap actions) := by
  induction ds generalizing pt Γ with
  | nil => exact .done
  | cons d ds ih => exact (VarDecl.does hm h.1).append (ih h.2)

theorem Expr.does_effect (hm : Makes (cells.map Cell.instr) n m) {e : Expr}
    (h : e.Typed P cx.types Γ) :
    (e.effectOutline cx pt).Does cells oracle [.evaluate e.id] :=
  Expr.does hm h (moving_trash _).plain

theorem Expr.does_effects (hm : Makes (cells.map Cell.instr) n m) {es : List Expr}
    (h : ∀ e ∈ es, ∃ t, e.TypedAs P cx.types Γ t) :
    (effectOutlineOfAll cx pt es).Does cells oracle (es.map fun e => .evaluate e.id) := by
  induction es generalizing pt with
  | nil => exact .done
  | cons e es ih =>
    rw [List.forall_mem_cons] at h
    obtain ⟨⟨t, ht⟩, h⟩ := h
    exact (Expr.does_effect hm ht.1).append (ih h)

theorem Expr.does_print (hm : Makes (cells.map Cell.instr) n m) {es : List Expr}
    (h : ∀ e ∈ es, ∃ t, e.TypedAs P cx.types Γ t ∧ t.isPrintable = true) :
    (printOutline cx pt es).Does cells oracle (es.map fun e => .print e.id) := by
  induction es generalizing pt with
  | nil => exact .done
  | cons e es ih =>
    rw [List.forall_mem_cons] at h
    obtain ⟨⟨t, ht, -⟩, h⟩ := h
    exact (Expr.does hm ht.1 (plain_print _)).append (ih h)

/-- The line of a statement is ended by a call. -/
theorem Emission.does_endLine (hm : Makes (cells.map Cell.instr) n m) (id : NodeId) :
    (Outline.piece (.action (.endLine id)) (.ofCode [.call "println"])).Does cells oracle
      [.endLine id] := by
  intro s hs
  rw [Outline.code_piece]
  exact must_act hm (.ofCode _) ⟨trivial, trivial⟩ (by simp) hs

theorem LoopInit.does_outlineAll (hm : Makes (cells.map Cell.instr) n m) {is : List LoopInit}
    (h : AllTyped P cx.types Γ is) :
    (outlineAll cx pt is).Does cells oracle (is.flatMap actions) := by
  induction is generalizing pt Γ with
  | nil => exact .done
  | cons i is ih =>
    refine Outline.Does.append ?_ (ih h.2)
    cases i with
    | declare d => exact VarDecl.does hm h.1
    | evaluate e =>
      obtain ⟨t, ht⟩ := h.1
      exact Expr.does_effect hm ht.1

/-- **A run that comes to a condition** evaluates it, and goes on behind it if the value is not
zero, or at the label for zero. -/
theorem Expr.must_test (hm : Makes (cells.map Cell.instr) n m) {c : Expr} (h : c.Typed P cx.types Γ)
    {keep : List Instr} (hkeep : Plain keep) {k j : Nat} {s : Control}
    (hs : Holds cells s.pos (c.testOutline cx pt keep (labelName k)).cells)
    (hl : (cells.map Cell.instr)[j]? = some (.label (labelName k))) :
    Must (Moves cells oracle) (s.Gets
      (if oracle s.tests then s.pos + (c.testOutline cx pt keep (labelName k)).code.length else j)
      (s.tests + 1) [.test c.id]) s := by
  unfold testOutline at hs ⊢
  rw [Outline.cells_append] at hs
  have hvalue : (Outline.piece (.action (.test c.id)) (c.outline cx pt.scope .value pt.labels ++
      .ofCode keep)).Does cells oracle [.test c.id] := Expr.does hm h hkeep
  refine (hvalue s hs.left).trans fun t ht => ?_
  have hbranch := hs.right
  rw [Outline.length_cells, ← ht.pos_eq] at hbranch
  refine must_decide hm hbranch.head rfl hl (.here ?_)
  have hall := ht.trans (.go t ⟨.jumpIfZero (labelName k), none, true⟩
    (if oracle t.tests then t.pos + 1 else j) (t.tests + 1))
  refine ⟨hall.pos_eq.trans ?_, hall.tests_eq.trans ?_, hall.clock_le, hall.actions_eq⟩
  · rw [ht.pos_eq, ht.tests_eq]
    simp [Nat.add_assoc]
  · rw [ht.tests_eq]

/-- The value that a function returns is handed over by code without actions, whose jumps lead
ahead. -/
theorem Emission.bare_return (v : Expr) :
    (returnOutline cx pt v).Bare ∧ Forward (returnOutline cx pt v).code := by
  have hv : (v.outline cx pt.scope .value pt.labels).Bare := v.bare .value pt.labels
  have hf : Forward (v.outline cx pt.scope .value pt.labels).code :=
    (v.through .value pt.labels).forward
  unfold returnOutline
  split
  · simp only [Outline.code_append, Outline.code_ofCode]
    refine ⟨((Outline.Bare.ofCode _).append hv).append (.ofCode _),
      (Forward.append ?_ hf).append ?_⟩
    · exact Plain.forward (.of_all rfl)
    · exact (moving_store (moving_base _) _ _ _).plain.forward
  · simp only [Outline.code_append, Outline.code_ofCode]
    refine ⟨hv.append (.ofCode _), hf.append (Plain.forward ?_)⟩
    split <;> exact .of_all rfl
  · simp only [Outline.code_append, Outline.code_ofCode]
    exact ⟨hv.append (.ofCode _), hf.append (Plain.forward (.of_all rfl))⟩

/-- **A run that comes to a return** hands over the result, and stands at the end of the
function. -/
theorem Emission.must_leave (hm : Makes (cells.map Cell.instr) n m) {id : NodeId} {value : Outline}
    (hb : value.Bare) (hf : Forward value.code) {s : Control}
    (hs : Holds cells s.pos (leaveOutline id value).cells) :
    Must (Moves cells oracle) (fun t => t.Returning cells ∧ s.clock ≤ t.clock ∧
      t.actions = s.actions ++ [.return id]) s := by
  have hcells : (leaveOutline id value).cells = Cell.begin (some (.return id))
      (value.code.map Cell.plain ++ [.plain .leave, .plain .return]) := by
    rw [leaveOutline, Outline.piece, Outline.cells, Outline.cells, List.append_nil, Piece.mark,
      Outline.cells_append, Outline.cells_ofCode, hb]
    rfl
  rw [hcells] at hs
  cases hcode : value.code with
  | nil =>
    rw [hcode, List.map_nil, List.nil_append, Cell.begin] at hs
    refine must_next hs.head rfl rfl rfl (.here ⟨?_, Nat.le_succ _, rfl⟩)
    exact hs.tail.instr
  | cons x is =>
    have hsplit : Cell.begin (some (.return id))
        (value.code.map Cell.plain ++ [.plain .leave, .plain .return]) =
        Cell.begin (some (.return id)) (value.code.map Cell.plain) ++
          [.plain .leave, .plain .return] := by
      rw [hcode]
      rfl
    rw [hsplit] at hs
    have hne : value.code ≠ [] := by simp [hcode]
    have hvalue : Must (Moves cells oracle) (s.Gets (s.pos + value.code.length) s.tests
        (if value.code = [] then [] else (some (.return id)).toList)) s :=
        must_through hm hf _ hs.left
    rw [if_neg hne] at hvalue
    refine hvalue.trans fun t ht => ?_
    have hleave := hs.right
    rw [Cell.length_begin, List.length_map, ← ht.pos_eq] at hleave
    refine must_next hleave.head rfl rfl rfl (.here ⟨?_, ht.clock_le.trans (Nat.le_succ _), ?_⟩)
    · exact hleave.tail.instr
    · exact (ht.trans (.go t (.plain .leave) (t.pos + 1) t.tests)).actions_eq

end Does

end PostfixCompiler
