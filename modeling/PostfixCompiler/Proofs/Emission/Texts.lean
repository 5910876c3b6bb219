import PostfixCompiler.Proofs.Emission.FunctionCode

/-!
# Texts and their labels

Each text of a function is laid down among the constants, behind a label that is made up for it. No
two of these labels belong to the same node, as no node of a function has its code written twice: so
the label of a text can be found by the node of the text.

## Main definitions

* `PostfixCompiler.Outline.texts`: the texts in an outline, with their labels.

## Main statements

* `PostfixCompiler.Stmt.count_texts`: a node has one text at most.
* `PostfixCompiler.Function.exists_labelOfText`: the label of a text is found by its node.
-/

namespace PostfixCompiler

open Emission

/-! ### Outlines -/

namespace Outline

/-- **The texts in an outline**: their nodes, with their labels. -/
def texts : Outline → List (NodeId × String)
  | .done => []
  | .step _ rest => rest.texts
  | .part (.text id label) inner rest => (id, label) :: (inner.texts ++ rest.texts)
  | .part _ inner rest => inner.texts ++ rest.texts

@[simp] theorem texts_done : Outline.done.texts = [] := rfl

@[simp] theorem texts_append (a b : Outline) : (a ++ b).texts = a.texts ++ b.texts := by
  change (a.append b).texts = _
  induction a with
  | done => rfl
  | step i rest ih => exact ih
  | part p inner rest _ ih => cases p <;> simp [append, texts, ih]

@[simp] theorem texts_ofCode (is : List Instr) : (ofCode is).texts = [] := by
  induction is with
  | nil => rfl
  | cons i is ih => exact ih

/-- How many texts of a node are in an outline. -/
def textCount (o : Outline) (id : NodeId) : Nat := (o.texts.map Prod.fst).count id

variable (id : NodeId)

@[simp] theorem textCount_done : Outline.done.textCount id = 0 := rfl

@[simp] theorem textCount_append (a b : Outline) :
    (a ++ b).textCount id = a.textCount id + b.textCount id := by
  simp [textCount]

@[simp] theorem textCount_ofCode (is : List Instr) :
    (ofCode is).textCount id = 0 := by simp [textCount]

/-- A part that is no text adds none. -/
theorem textCount_congr {o o' : Outline} (h : o.texts = o'.texts ++ []) :
    o.textCount id = o'.textCount id := by
  rw [textCount, textCount, h, List.append_nil]

@[simp] theorem textCount_expression (mode : Mode) (scope : View Symbol) (e : Expr) (o : Outline) :
    (piece (.expression mode scope e) o).textCount id = o.textCount id :=
  textCount_congr id rfl

@[simp] theorem textCount_statement (s : Stmt) (o : Outline) :
    (piece (.statement s) o).textCount id = o.textCount id :=
  textCount_congr id rfl

@[simp] theorem textCount_function (f : Function) (o : Outline) :
    (piece (.function f) o).textCount id = o.textCount id :=
  textCount_congr id rfl

@[simp] theorem textCount_action (a : Action) (o : Outline) :
    (piece (.action a) o).textCount id = o.textCount id :=
  textCount_congr id rfl

@[simp] theorem textCount_branch (o : Outline) : (piece .branch o).textCount id = o.textCount id :=
  textCount_congr id rfl

end Outline

/-! ### Expressions -/

namespace Expr

variable (id : NodeId) (cx : Context) (scope : View Symbol)

mutual

/-- **A node has one text at most** in the code of an expression. -/
theorem count_texts :
    ∀ (e : Expr) (mode : Mode) (n : Nat), (e.outline cx scope mode n).textCount id ≤ e.ids.count id
  | .integer .., mode, n | .double .., mode, n | .nullptr _, mode, n | .sizeof .., mode, n
  | .input _, mode, n | .variable .., mode, n => by simp [outline]
  | .string s x, mode, n => by simp [outline, ids, Outline.textCount, Outline.piece, Outline.texts]
  | .pointerIndex s b i, mode, n => by
    have hb := count_texts b .value n
    have hi := count_texts i .value (n + b.labelCount)
    simp only [outline, ids, Outline.textCount_expression, Outline.textCount_append,
      Outline.textCount_ofCode, List.count_cons, List.count_append]
    omega
  | .tupleIndex _ a _, mode, n | .rvalue _ a, mode, n | .addressOf _ a, mode, n => by
    have ha := count_texts a .address n
    simp only [outline, ids, Outline.textCount_expression, Outline.textCount_append,
      Outline.textCount_ofCode, List.count_cons]
    omega
  | .unary _ _ a, mode, n | .stackAlloc _ a, mode, n => by
    have ha := count_texts a .value n
    simp only [outline, ids, Outline.textCount_expression, Outline.textCount_append,
      Outline.textCount_ofCode, List.count_cons]
    omega
  | .assignment s p v, mode, n => by
    have hv := count_texts v .value n
    have hp := count_texts p .address (n + v.labelCount)
    simp only [outline, ids, Outline.textCount_expression, Outline.textCount_append,
      Outline.textCount_ofCode, List.count_cons, List.count_append]
    omega
  | .binary s op l r, mode, n => by
    have hl := fun n => count_texts l .value n
    have hr := fun n => count_texts r .value n
    have hl₀ := hl n
    have hl₁ := hl (n + 1)
    have hr₀ := hr (n + l.labelCount)
    have hr₁ := hr (n + 1 + l.labelCount)
    simp only [outline, ids, Outline.textCount_expression, List.count_cons, List.count_append]
    split <;>
    · simp only [Outline.textCount_append, Outline.textCount_ofCode]
      omega
  | .tuple s [e], mode, n => by
    have he := count_texts e mode n
    simp only [outline, ids, idsOfAll, Outline.textCount_expression, List.count_cons,
      List.count_append]
    omega
  | .tuple s [], mode, n => by
    cases mode <;> simp [outline, slotOutline, reverseOutline]
  | .tuple s (a :: b :: es), .value, n => by
    have hes := count_reverse (a :: b :: es) n
    rw [outline, ids, Outline.textCount_expression, List.count_cons]
    · omega
    · simp
  | .tuple s (a :: b :: es), .address, n => by
    have hes :=
      count_slot (a :: b :: es) (cx.frame.slotAt s.id) (cx.types.typeOf s.id).components 0 n
    rw [outline, ids, Outline.textCount_expression, List.count_cons]
    · simp only [Outline.textCount_append, Outline.textCount_ofCode]
      omega
    · simp
  | .call s name args, mode, n => by
    have hargs := count_arguments args (calleeParameters scope name) n
    simp only [outline, ids, Outline.textCount_expression, Outline.textCount_append,
      Outline.textCount_ofCode, List.count_cons]
    omega

/-- As `count_texts`, for the code that builds a tuple in a slot. -/
theorem count_slot : ∀ (es : List Expr) (slot : Int) (targets : List Ty) (byte n : Nat),
    (slotOutline cx scope slot n es targets byte).textCount id ≤ (idsOfAll es).count id
  | [], slot, targets, byte, n => by simp [slotOutline]
  | e :: es, slot, [], byte, n => by simp [slotOutline]
  | e :: es, slot, t :: ts, byte, n => by
    have he := count_texts e .value n
    have hes := count_slot es slot ts (byte + t.size) (n + e.labelCount)
    simp only [slotOutline, idsOfAll, Outline.textCount_append, Outline.textCount_ofCode,
      List.count_append]
    omega

/-- As `count_texts`, for the code that pushes the elements of a tuple. -/
theorem count_reverse : ∀ (es : List Expr) (n : Nat),
    (reverseOutline cx scope n es).textCount id ≤ (idsOfAll es).count id
  | [], n => by simp [reverseOutline]
  | e :: es, n => by
    have he := count_texts e .value (n + labelCountOfAll es)
    have hes := count_reverse es n
    simp only [reverseOutline, idsOfAll, Outline.textCount_append, List.count_append]
    omega

/-- As `count_texts`, for the code that pushes arguments. -/
theorem count_arguments : ∀ (args : List Expr) (ps : List Ty) (n : Nat),
    (argumentsOutline cx scope n args ps).textCount id ≤ (idsOfAll args).count id
  | [], ps, n => by simp [argumentsOutline]
  | e :: es, [], n => by simp [argumentsOutline]
  | e :: es, p :: ps, n => by
    have he := count_texts e .value (n + labelCountOfAll es)
    have hes := count_arguments es ps n
    simp only [argumentsOutline, idsOfAll, Outline.textCount_append, Outline.textCount_ofCode,
      List.count_append]
    omega

end

end Expr

/-! ### Statements -/

section Statements

variable (id : NodeId) (cx : Context)

theorem VarDecl.count_texts (pt : Point) (d : VarDecl) :
    (d.outline cx pt).textCount id ≤ d.ids.count id := by
  unfold outline ids
  cases d.initializer with
  | none => simp
  | some e =>
    have he := Expr.count_texts id cx pt.scope e .value pt.labels
    simp only [Expr.idsOfOption, Outline.textCount_action, Outline.textCount_append,
      Outline.textCount_ofCode, List.count_cons]
    omega

theorem VarDecl.count_textsOfAll (pt : Point) (ds : List VarDecl) :
    (outlineAll cx pt ds).textCount id ≤ (idsOfAll ds).count id := by
  induction ds generalizing pt with
  | nil => simp [outlineAll]
  | cons d ds ih =>
    have hd := d.count_texts id cx pt
    have hds := ih (d.after cx.types pt)
    simp only [outlineAll, idsOfAll, Outline.textCount_append, List.count_append]
    omega

theorem Expr.count_effect (pt : Point) (e : Expr) :
    (e.effectOutline cx pt).textCount id ≤ e.ids.count id := by
  have he := count_texts id cx pt.scope e .value pt.labels
  simpa [effectOutline] using he

theorem Expr.count_effects (pt : Point) (es : List Expr) :
    (effectOutlineOfAll cx pt es).textCount id ≤ (idsOfAll es).count id := by
  induction es generalizing pt with
  | nil => simp [effectOutlineOfAll]
  | cons e es ih =>
    have he := e.count_effect id cx pt
    have hes := ih (pt.move 0 e.labelCount)
    simp only [effectOutlineOfAll, idsOfAll, Outline.textCount_append, List.count_append]
    omega

theorem Expr.count_print (pt : Point) (es : List Expr) :
    (printOutline cx pt es).textCount id ≤ (idsOfAll es).count id := by
  induction es generalizing pt with
  | nil => simp [printOutline]
  | cons e es ih =>
    have he := count_texts id cx pt.scope e .value pt.labels
    have hes := ih (pt.move 0 e.labelCount)
    simp only [printOutline, idsOfAll, Outline.textCount_append, Outline.textCount_action,
      Outline.textCount_ofCode, List.count_append]
    omega

theorem Expr.count_test (pt : Point) (keep : List Instr) (otherwise : String) (c : Expr) :
    (c.testOutline cx pt keep otherwise).textCount id ≤ c.ids.count id := by
  have hc := count_texts id cx pt.scope c .value pt.labels
  simpa [testOutline] using hc

theorem LoopInit.count_texts (pt : Point) (is : List LoopInit) :
    (outlineAll cx pt is).textCount id ≤ (idsOfAll is).count id := by
  induction is generalizing pt with
  | nil => simp [outlineAll]
  | cons i is ih =>
    have his := ih (i.after cx.types pt)
    have hi : (i.outline cx pt).textCount id ≤ i.ids.count id := by
      cases i with
      | declare d => exact d.count_texts id cx pt
      | evaluate e => exact e.count_effect id cx pt
    simp only [outlineAll, idsOfAll, Outline.textCount_append, List.count_append]
    omega

theorem Emission.count_return (pt : Point) (v : Expr) :
    (returnOutline cx pt v).textCount id ≤ v.ids.count id := by
  have hv := v.count_texts id cx pt.scope .value pt.labels
  unfold returnOutline
  split <;> simpa using hv

namespace Stmt

mutual

/-- **A node has one text at most** in the code of a statement. -/
theorem count_texts :
    ∀ (s : Stmt) (cx : Context) (pt : Point), (s.outline cx pt).textCount id ≤ s.ids.count id
  | .block _ ds body, cx, pt => by
    have hds := VarDecl.count_textsOfAll id cx pt ds
    have hbody := count_textsOfAll body cx (VarDecl.afterAll cx.types pt ds)
    simp only [outline, ids, Outline.textCount_statement, Outline.textCount_append, List.count_cons,
      List.count_append]
    omega
  | .evaluation _ e, cx, pt => by
    have he := e.count_effect id cx pt
    simp only [outline, ids, Outline.textCount_statement, List.count_cons]
    omega
  | .write site args newline, cx, pt => by
    have hargs := Expr.count_print id cx pt args
    rw [ids, List.count_cons]
    cases newline <;>
    · simp [outline]
      omega
  | .ifThen _ c t, cx, pt => by
    have hc := c.count_test id cx (pt.move 0 1) [] (labelName (pt.labels + 1))
    have ht := count_texts t cx (pt.move 0 (1 + c.labelCount))
    simp only [outline, ids, Outline.textCount_statement, Outline.textCount_append,
      Outline.textCount_ofCode, List.count_cons, List.count_append]
    omega
  | .ifElse _ c t e, cx, pt => by
    have hc := c.count_test id cx (pt.move 0 2) [] (labelName (pt.labels + 1))
    have ht := count_texts t cx (pt.move 0 (2 + c.labelCount))
    have he :=
      count_texts e cx (pt.move (t.usage cx.types).locals (2 + c.labelCount + t.labelCount))
    simp only [outline, ids, Outline.textCount_statement, Outline.textCount_append,
      Outline.textCount_ofCode, List.count_cons, List.count_append]
    omega
  | .forLoop site inits c incs body, cx, pt => by
    have hinits := LoopInit.count_texts id cx pt inits
    have hincs := fun pt => Expr.count_effects id cx pt incs
    have hbody := count_texts body (cx.inLoop (LoopInit.afterAll cx.types pt inits))
      ((LoopInit.afterAll cx.types pt inits).move 0 (3 + Expr.labelCountOfOption c))
    have hc : ∀ pt label,
        (loopTestOutline cx pt site.id label c).textCount id ≤ (Expr.idsOfOption c).count id := by
      intro pt label
      cases c with
      | none => simp [loopTestOutline]
      | some c => exact c.count_test id cx pt _ label
    simp only [outline, ids, Outline.textCount_statement, Outline.textCount_append,
      Outline.textCount_ofCode, List.count_cons, List.count_append]
    have hc := hc ((LoopInit.afterAll cx.types pt inits).move 0 3)
      (labelName ((LoopInit.afterAll cx.types pt inits).labels + 3))
    have hincs :=
      hincs (((LoopInit.afterAll cx.types pt inits).move 0 (3 + Expr.labelCountOfOption c)).move
      (body.usage cx.types).locals body.labelCount)
    omega
  | .break _, cx, pt | .continue _, cx, pt => by simp [outline]
  | .return _ none, cx, pt => by simp [outline, leaveOutline]
  | .return site (some v), cx, pt => by
    have hv := Emission.count_return id cx pt v
    simp only [outline, leaveOutline, ids, Expr.idsOfOption, Outline.textCount_statement,
      Outline.textCount_action, Outline.textCount_append, Outline.textCount_ofCode, List.count_cons]
    omega

/-- As `count_texts`, for several statements. -/
theorem count_textsOfAll : ∀ (ss : List Stmt) (cx : Context) (pt : Point),
    (outlineAll cx pt ss).textCount id ≤ (idsOfAll ss).count id
  | [], cx, pt => by simp [outlineAll]
  | s :: ss, cx, pt => by
    have hs := count_texts s cx pt
    have hss := count_textsOfAll ss cx (pt.move (s.usage cx.types).locals s.labelCount)
    simp only [outlineAll, idsOfAll, Outline.textCount_append, List.count_append]
    omega

end

end Stmt

end Statements

/-! ### Functions -/

/-- In a list of pairs whose first parts are different, each second part is found by the first
one. -/
theorem lookup_of_mem {α β : Type} [DecidableEq α] {l : List (α × β)}
    (hl : (l.map Prod.fst).Nodup) {p : α × β} (hp : p ∈ l) : l.lookup p.1 = some p.2 := by
  induction l with
  | nil => cases hp
  | cons q l ih =>
    rw [List.map_cons, List.nodup_cons] at hl
    rw [List.lookup_cons]
    rcases List.mem_cons.mp hp with rfl | hp
    · rw [beq_self_eq_true]
    · have hne : p.1 ≠ q.1 := fun heq => hl.1 (heq ▸ List.mem_map_of_mem hp)
      rw [beq_false_of_ne hne]
      exact ih hl.2 hp

/-- **The label of a text is found by the node of the text.** -/
theorem Function.exists_labelOfText {f : Function} (hf : f.ids.Nodup) (T : TypeTable)
    (config : Config) (scope : View Symbol) (n : Nat) :
    ∃ label : NodeId → String, ∀ q ∈ (f.outline T config scope n).texts, label q.1 = q.2 := by
  have hnodup : ((f.outline T config scope n).texts.map Prod.fst).Nodup := by
    refine List.nodup_iff_count_le_one.mpr fun id => ?_
    have hbody := f.body.stmt.count_texts id (f.context T config) (f.entry T scope n)
    have hids := List.nodup_iff_count_le_one.mp hf id
    have htail : (f.tail T).textCount id = 0 := by
      unfold tail
      split <;> simp [leaveOutline]
    have hcount : (f.outline T config scope n).textCount id =
        (f.body.stmt.outline (f.context T config) (f.entry T scope n)).textCount id := by
      simp [outline, htail]
    rw [Function.ids, List.count_append] at hids
    exact le_trans (le_of_eq hcount) (by omega)
  refine ⟨fun id => ((f.outline T config scope n).texts.lookup id).getD "", fun q hq => ?_⟩
  dsimp only
  rw [lookup_of_mem hnodup hq, Option.getD_some]

end PostfixCompiler
