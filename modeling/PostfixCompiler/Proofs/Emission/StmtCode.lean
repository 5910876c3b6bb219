import PostfixCompiler.Flow
import PostfixCompiler.Proofs.Emission.LocalCode
import PostfixCompiler.Proofs.Outcome

/-!
# The code of a statement is that of its outline

A typed statement in which control is in order is written without a fault, and what is written is
the code of its outline. The writer is left at the place behind the statement: a scope that was
opened on the way is closed again, and only the local variables and the labels have become more.

## Main definitions

* `PostfixCompiler.Stmt.Lies`: what the writer does with a statement.

## Main statements

* `PostfixCompiler.Emission.Lays.exit`: what was bound in a scope is gone behind it.
* `PostfixCompiler.Stmt.puts_code`: the code of a statement is that of its outline.
-/

namespace PostfixCompiler

open Emission

variable {P : Ty → Prop} {cx : Context} {pt : Point} {s : State} {Q : Unit → State → Prop}

/-! ### Scopes -/

namespace Emission

/-- The state inside a scope of its own. -/
def State.enter (s : State) : State := { s with symbols := s.symbols.enter }

/-- The state behind the scope. -/
def State.exit (s : State) : State := { s with symbols := s.symbols.exit }

theorem puts_inScope {α : Type} {work : EmitM α} {Q : α → State → Prop} :
    Puts (inScope work) s Q ↔ Puts work s.enter fun a s' => Q a s'.exit := by
  unfold Puts Emission.inScope State.enter
  cases work { s with symbols := s.symbols.enter } <;> exact Iff.rfl

theorem State.At.enter (h : s.At pt) : s.enter.At pt where
  closed := h.closed.enter
  nested := List.cons_ne_nil _ _
  scope := (SymbolTable.view_enter ..).trans h.scope
  cursor := h.cursor
  labels := h.labels

/-- **What was bound in a scope is gone behind it.** -/
theorem Lays.exit {pt' : Point} {v : View Symbol} {is : List Instr} {used : Supplies} {s' : State}
    (hs : s.At pt) (h : Lays (Opens v) pt' is used s.enter s') :
    Lays Closes ⟨pt.scope, pt'.cursor, pt'.labels⟩ is used s s'.exit := by
  have hout : Closes s.symbols s'.symbols.exit := h.symbols.1.exit
  refine ⟨⟨hout.closed hs.closed, ?_, ?_, h.here.cursor, h.here.labels⟩, hout, h.code,
    h.slots, h.helpers⟩
  · rw [State.exit, hout.locals]
    exact hs.nested
  · rw [← hs.scope]
    exact hout.view_eq hs.closed fun a b h => h ▸ rfl

/-! ### Conditions and returns -/

/-- **The condition of a loop is tested**, if there is one; of a tuple the last component is
kept. -/
theorem puts_testLoop (hP : Ty.Stable P) (hs : s.At pt)
    (hΓ : View.Settled P pt.scope.meanings) {id : NodeId} {done : String} {c : Option Expr}
    (h : ∀ e ∈ c, ∃ t, e.TypedAs P cx.types pt.scope.meanings t) (hc : Expr.IsOptionalValue c)
    (hf : cx.frame.Provides
      (Expr.usageOfOption cx.types c ++ .ofCharge id (Stmt.loopCharge cx.types c)).nodes)
    (hQ : ∀ s',
      Lays Closes (pt.move 0 (Expr.labelCountOfOption c)) (loopTestOutline cx pt id done c).code
      ⟨(Expr.usageOfOption cx.types c ++ .ofCharge id (Stmt.loopCharge cx.types c)).nodes,
        Expr.helpersOfOption cx.types c⟩ s s' → Q () s') :
    Puts (testLoop cx id done c) s Q := by
  cases c with
  | none =>
    rw [testLoop, puts_pure]
    exact hQ s ((Lays.refl hs).congr pt.move_zero.symm rfl (.refl _))
  | some c =>
    obtain ⟨t, h⟩ := h c rfl
    have htype : c.type cx.types = t := TypeTable.typeOf_eq h.2.1
    have hcharge : cx.types.loopCharge (some c.id) =
        .ok (if t.isTuple then some Ty.wordSize else none) := by
      rw [TypeTable.loopCharge, TypeTable.expect_eq h.2.1]
      rfl
    unfold testLoop
    rw [puts_bind]
    simp only [Stmt.loopCharge, Expr.usageOfOption, Expr.labelCountOfOption, Expr.helpersOfOption,
      loopTestOutline, Expr.testOutline, htype, keepInstrs] at hQ hf
    refine c.puts_pushValue hP hs hΓ h.1 hc (hf.mono fun i hi => by simp [hi]) fun s₁ h₁ => ?_
    rw [puts_bind, hcharge, puts_orFault]
    cases htuple : t.isTuple with
    | true =>
      simp only [htuple, if_true] at hQ hf ⊢
      have hslot : (cx.frame.slotOffset? id).isSome = true :=
        hf id (by simp [FrameUsage.nodes_ofCharge])
      simp only [puts_bind, puts_typeOf h.2.1, puts_slotOf hslot, puts_emitAll, puts_emit]
      refine hQ _ ((((h₁.use id).write _).write _).congr rfl ?_ ?_)
      · simp
      · simp [Supplies.Same, Expr.supplies, FrameUsage.nodes_ofCharge]
    | false =>
      simp only [htuple, Bool.false_eq_true, if_false] at hQ hf ⊢
      rw [puts_emit]
      refine hQ _ ((h₁.write _).congr rfl ?_ ?_)
      · simp
      · simp [Supplies.Same, Expr.supplies, FrameUsage.nodes_ofCharge]

/-- **The result of a function is handed over.** -/
theorem puts_returnValue (hP : Ty.Stable P) (hs : s.At pt) (hΓ : View.Settled P pt.scope.meanings)
    {v : Expr} {t : Ty} (h : v.TypedAs P cx.types pt.scope.meanings t) (hv : v.IsValue)
    (hfits : cx.returnType.Fits t) (hf : cx.frame.Provides (v.usage cx.types .value).nodes)
    (hQ : ∀ s', Lays Closes (pt.move 0 v.labelCount) (returnOutline cx pt v).code
      (v.supplies cx.types .value) s s' → Q () s') : Puts (returnValue cx v) s Q := by
  have htype : v.type cx.types = t := TypeTable.typeOf_eq h.2.1
  unfold returnValue
  unfold returnOutline at hQ
  rw [puts_bind, puts_typeOf h.2.1]
  rw [htype] at hQ
  split
  · rename_i ts heq
    simp only [heq] at hQ hfits ⊢
    rw [puts_bind, puts_emitAll, puts_bind]
    have h₀ := (Lays.refl hs).write [.frameAddress argumentsOffset, .loadInt,
      .frameAddress cx.frame.returnTempOffset, .storeInt]
    refine v.puts_pushValue hP h₀.here hΓ h.1 hv hf fun s₁ h₁ => ?_
    rw [puts_store (puts_base (.pinned cx.frame.returnTempOffset)) hfits]
    refine hQ _ (((h₀.trans h₁ Closes.trans).write _).congr rfl ?_ (by simp [Supplies.Same]))
    simp
  · rename_i heq
    simp only [heq] at hQ ⊢
    rw [puts_bind]
    refine v.puts_pushValue hP hs hΓ h.1 hv hf fun s₁ h₁ => ?_
    rw [puts_ite]
    refine ⟨fun hint => ?_, fun hint => ?_⟩
    · rw [puts_bind, puts_emit, puts_emit]
      refine hQ _ (((h₁.write _).write _).congr rfl ?_ (.refl _))
      simp [hint]
    · rw [puts_emit]
      refine hQ _ ((h₁.write _).congr rfl ?_ (.refl _))
      simp [hint]
  · rename_i htuple hdouble
    rw [puts_bind]
    refine v.puts_pushValue hP hs hΓ h.1 hv hf fun s₁ h₁ => ?_
    rw [puts_emit]
    refine hQ _ ((h₁.write _).congr rfl ?_ (.refl _))
    split
    · rename_i heq
      exact absurd heq (htuple _)
    · rename_i heq
      exact absurd heq hdouble
    · simp

end Emission

/-! ### Statements -/

namespace Stmt

/-- **What the writer does with a statement**: it moves on to the place behind it, and leaves the
code of its outline. -/
def Lies (cx : Context) (pt : Point) (st : Stmt) : Prop :=
  ∀ s : State, s.At pt → Puts (st.code cx) s fun _ s' =>
    Lays Closes (pt.move (st.usage cx.types).locals st.labelCount) (st.outline cx pt).code
      (st.supplies cx.types) s s'

/-- What the writer does with statements, one after the other. -/
def LieAll (cx : Context) (pt : Point) (ss : List Stmt) : Prop :=
  ∀ s : State, s.At pt → Puts (codeAll cx ss) s fun _ s' =>
    Lays Closes (pt.move (usageOfAll cx.types ss).locals (labelCountOfAll ss))
      (outlineAll cx pt ss).code
      (suppliesOfAll cx.types ss) s s'

/-! ### One kind of statement after the other -/

theorem lies_block (hP : Ty.Stable P) (hΓ : View.Settled P pt.scope.meanings) {site : Site}
    {ds : List VarDecl} {body : List Stmt}
    (h : (block site ds body).Typed P cx.types cx.returnType pt.scope.meanings)
    (hw : (block site ds body).WellPlaced)
    (hf : cx.frame.Provides ((block site ds body).usage cx.types).nodes)
    (hbody : LieAll cx (VarDecl.afterAll cx.types pt ds) body) :
    (block site ds body).Lies cx pt := by
  intro s hs
  rw [usage] at hf
  rw [code, puts_inScope, puts_bind]
  refine VarDecl.puts_codeAll hP hs.enter hΓ h.1 hw.1 (hf.mono fun i hi => by simp [hi])
    fun s₁ h₁ => ?_
  refine (hbody s₁ h₁.here).mono fun _ s₂ h₂ => ?_
  refine (Lays.exit hs (h₁.trans (h₂.opens h₁.here) Opens.trans)).congr ?_ ?_
    (by simp [Supplies.Same, supplies, suppliesOfAll, VarDecl.suppliesOfAll, usage, helpers])
  · rw [VarDecl.afterAll_eq]
    simp only [Point.move, usage, labelCount, FrameUsage.locals_append, Nat.add_assoc]
    congr 1
    omega
  · simp only [outline, Outline.code_piece, Outline.code_append]

theorem lies_evaluation (hP : Ty.Stable P) (hΓ : View.Settled P pt.scope.meanings)
    {site : Site} {e : Expr}
    (h : (evaluation site e).Typed P cx.types cx.returnType pt.scope.meanings)
    (hw : (evaluation site e).WellPlaced)
    (hf : cx.frame.Provides ((evaluation site e).usage cx.types).nodes) :
    (evaluation site e).Lies cx pt := by
  intro s hs
  obtain ⟨t, ht⟩ := h
  rw [usage] at hf
  rw [code]
  refine e.puts_dropValue hP hs hΓ ht hw hf fun s' h' => ?_
  refine h'.congr ?_ ?_ (by simp [Supplies.Same, supplies, Expr.supplies, usage, helpers])
  · rw [usage, Expr.locals_usage, labelCount]
  · simp only [outline, Outline.code_piece]

theorem lies_write (hP : Ty.Stable P) (hΓ : View.Settled P pt.scope.meanings) {site : Site}
    {args : List Expr} {newline : Bool}
    (h : (write site args newline).Typed P cx.types cx.returnType pt.scope.meanings)
    (hw : (write site args newline).WellPlaced)
    (hf : cx.frame.Provides ((write site args newline).usage cx.types).nodes) :
    (write site args newline).Lies cx pt := by
  intro s hs
  rw [usage] at hf
  rw [code, puts_bind]
  refine puts_printAll hP hs hΓ h hw hf fun s₁ h₁ => ?_
  have hpoint : pt.move 0 (Expr.labelCountOfAll args) =
      pt.move ((write site args newline).usage cx.types).locals
        (write site args newline).labelCount := by
    rw [usage, Expr.locals_usageOfAll, labelCount]
  cases newline with
  | true =>
    rw [if_pos rfl, puts_callHelper]
    refine ((h₁.need _).write _).congr hpoint ?_
      (by simp [Supplies.Same, supplies, Expr.suppliesOfAll, usage, helpers])
    simp only [outline, if_true, Outline.code_piece, Outline.code_append, Outline.code_ofCode]
  | false =>
    rw [if_neg (by simp), puts_pure]
    refine h₁.congr hpoint ?_
      (by simp [Supplies.Same, supplies, Expr.suppliesOfAll, usage, helpers])
    simp only [outline, Bool.false_eq_true, if_false, Outline.code_piece, Outline.code_append,
      Outline.code_done, List.append_nil]

theorem lies_ifThen (hP : Ty.Stable P) (hΓ : View.Settled P pt.scope.meanings)
    {site : Site} {c : Expr} {t : Stmt}
    (h : (ifThen site c t).Typed P cx.types cx.returnType pt.scope.meanings)
    (hw : (ifThen site c t).WellPlaced)
    (hf : cx.frame.Provides ((ifThen site c t).usage cx.types).nodes)
    (ht : t.Lies cx (pt.move 0 (1 + c.labelCount))) : (ifThen site c t).Lies cx pt := by
  intro s hs
  rw [usage] at hf
  rw [code, puts_bind, puts_newLabel, hs.labels, puts_bind]
  refine c.puts_pushValue hP hs.makeLabel.here hΓ h.1.1 hw.1 (hf.mono fun i hi => by simp [hi])
    fun s₁ h₁ => ?_
  rw [Point.move_move] at h₁
  rw [puts_bind, puts_emit, puts_bind]
  have h₁ := (hs.makeLabel.trans h₁ Closes.trans).write [.jumpIfZero (labelName (pt.labels + 1))]
  refine (ht _ h₁.here).mono fun _ s₂ h₂ => ?_
  rw [puts_emit]
  refine ((h₁.trans h₂ Closes.trans).write _).congr ?_ ?_
    (by simp [Supplies.Same, supplies, Expr.supplies, usage, helpers])
  · rw [Point.move_move, usage, labelCount]
    simp
  · simp [outline, Expr.testOutline]

theorem lies_ifElse (hP : Ty.Stable P) (hΓ : View.Settled P pt.scope.meanings)
    {site : Site} {c : Expr} {t e : Stmt}
    (h : (ifElse site c t e).Typed P cx.types cx.returnType pt.scope.meanings)
    (hw : (ifElse site c t e).WellPlaced)
    (hf : cx.frame.Provides ((ifElse site c t e).usage cx.types).nodes)
    (ht : t.Lies cx (pt.move 0 (2 + c.labelCount)))
    (he : e.Lies cx (pt.move (t.usage cx.types).locals (2 + c.labelCount + t.labelCount))) :
    (ifElse site c t e).Lies cx pt := by
  intro s hs
  rw [usage] at hf
  rw [code, puts_bind, puts_newLabel, puts_bind, puts_newLabel, labels_makeLabel,
    hs.labels, puts_bind]
  have h₀ := hs.makeLabel.trans hs.makeLabel.here.makeLabel Closes.trans
  rw [Point.move_move] at h₀
  refine c.puts_pushValue hP h₀.here hΓ h.1.1 hw.1 (hf.mono fun i hi => by simp [hi])
    fun s₁ h₁ => ?_
  rw [Point.move_move] at h₁
  rw [puts_bind, puts_emit, puts_bind]
  have h₁ := (h₀.trans h₁ Closes.trans).write [.jumpIfZero (labelName (pt.labels + 1))]
  refine (ht _ h₁.here).mono fun _ s₂ h₂ => ?_
  rw [Point.move_move] at h₂
  rw [puts_bind, puts_emitAll, puts_bind]
  have h₂ := (h₁.trans h₂ Closes.trans).write
    [.jump (labelName (pt.labels + 2)), .label (labelName (pt.labels + 1))]
  simp only [Nat.zero_add] at h₂
  refine (he _ h₂.here).mono fun _ s₃ h₃ => ?_
  rw [puts_emit]
  refine ((h₂.trans h₃ Closes.trans).write _).congr ?_ ?_
    (by simp [Supplies.Same, supplies, Expr.supplies, usage, helpers])
  · rw [Point.move_move, usage, labelCount]
    simp
  · simp [outline, Expr.testOutline]

theorem lies_jump {l : LoopLabels} (hl : cx.loop = some l) {site : Site} :
    (Stmt.break site).Lies cx pt ∧ (Stmt.continue site).Lies cx pt := by
  refine ⟨fun s hs => ?_, fun s hs => ?_⟩
  · rw [(move_jump _ _ _).1, (code_outline_jump hl _ _).1, (supplies_jump _ _).1]
    exact (puts_jump hl).1.mpr ((Lays.refl hs).write _)
  · rw [(move_jump _ _ _).2, (code_outline_jump hl _ _).2, (supplies_jump _ _).2]
    exact (puts_jump hl).2.mpr ((Lays.refl hs).write _)

/-- A loop is written, if its body is written as the body of a loop with the labels that are made
up. -/
theorem lies_forLoop (hP : Ty.Stable P) (hΓ : View.Settled P pt.scope.meanings) {site : Site}
    {inits : List LoopInit} {c : Option Expr} {incs : List Expr} {body : Stmt}
    (h : (forLoop site inits c incs body).Typed P cx.types cx.returnType pt.scope.meanings)
    (hw : (forLoop site inits c incs body).WellPlaced)
    (hf : cx.frame.Provides ((forLoop site inits c incs body).usage cx.types).nodes)
    (hbody : body.Lies (cx.inLoop (LoopInit.afterAll cx.types pt inits))
      ((LoopInit.afterAll cx.types pt inits).move 0 (3 + Expr.labelCountOfOption c))) :
    (forLoop site inits c incs body).Lies cx pt := by
  intro s hs
  obtain ⟨hinits, hc, hincs, -⟩ := h
  obtain ⟨hwinits, hwc, hwincs, -⟩ := hw
  rw [usage] at hf
  have hΓ' := hinits.settled hP hΓ
  rw [← LoopInit.meanings_afterAll hinits] at hc hincs hΓ'
  rw [code, puts_inScope, puts_bind]
  refine LoopInit.puts_initLoop hP hs.enter hΓ hinits hwinits (hf.mono fun i hi => by simp [hi])
    fun s₁ h₁ => ?_
  have hafter := LoopInit.afterAll_eq cx.types pt inits
  generalize hstart : LoopInit.afterAll cx.types pt inits = start at h₁ hbody hafter hc hincs hΓ'
  simp only [puts_bind, puts_newLabel, labels_makeLabel, h₁.here.labels, puts_emit, Nat.add_assoc,
    Nat.reduceAdd]
  have h₀ : Lays Closes (start.move 0 3) [] .none s₁ s₁.makeLabel.makeLabel.makeLabel := by
    have htwo := h₁.here.makeLabel.trans h₁.here.makeLabel.here.makeLabel Closes.trans
    exact (htwo.trans htwo.here.makeLabel Closes.trans).congr (by simp) rfl (.refl _)
  have h₁ := (h₁.trans (h₀.opens h₁.here) Opens.trans).write [.label (labelName (start.labels + 1))]
  refine puts_testLoop hP h₁.here hΓ' (fun e he => (hc e he).imp fun _ h => h.1) hwc
    (hf.mono fun i hi => ?_) fun s₂ h₂ => ?_
  · simp only [FrameUsage.nodes_append, List.mem_append] at hi ⊢
    tauto
  rw [Point.move_move] at h₂
  have h₂ := h₁.trans (h₂.opens h₁.here) Opens.trans
  refine (hbody s₂ h₂.here).mono fun _ s₃ h₃ => ?_
  have h₃ := (h₂.trans (h₃.opens h₂.here) Opens.trans).write [.label (labelName (start.labels + 2))]
  refine puts_dropAll hP h₃.here hΓ' hincs hwincs (hf.mono fun i hi => by simp [hi]) fun s₄ h₄ => ?_
  rw [puts_emitAll]
  have h₄ := (h₃.trans (h₄.opens h₃.here) Opens.trans).write
    [.jump (labelName (start.labels + 1)), .label (labelName (start.labels + 3))]
  refine (h₄.exit hs).congr ?_ ?_ ?_
  · rw [hafter]
    simp only [Point.move, usage, labelCount, FrameUsage.locals_append, Expr.locals_usageOfOption,
      Expr.locals_usageOfAll, FrameUsage.locals_ofCharge, types_inLoop]
    congr 1 <;> omega
  · simp only [outline, hstart, Outline.code_piece, Outline.code_append, Outline.code_ofCode,
      List.append_nil, Point.move_move, Nat.zero_add, types_inLoop, Nat.add_assoc]
  · simp only [Supplies.Same, supplies, Expr.suppliesOfAll, LoopInit.suppliesOfAll, usage,
      helpers, types_inLoop, FrameUsage.nodes_append, Supplies.slots_append,
      Supplies.helpers_append, Supplies.slots_none, Supplies.helpers_none, List.append_nil,
      List.mem_append]
    exact ⟨fun _ => by tauto, fun _ => by tauto⟩

theorem lies_return (hP : Ty.Stable P) (hΓ : View.Settled P pt.scope.meanings) {site : Site}
    {v : Option Expr} (h : (Stmt.return site v).Typed P cx.types cx.returnType pt.scope.meanings)
    (hw : (Stmt.return site v).WellPlaced)
    (hf : cx.frame.Provides ((Stmt.return site v).usage cx.types).nodes) :
    (Stmt.return site v).Lies cx pt := by
  intro s hs
  rw [usage] at hf
  cases v with
  | none =>
    rw [code]
    simp only [puts_emitAll]
    refine ((Lays.refl hs).write _).congr ?_ ?_ (.refl _)
    · simp [usage, labelCount, Expr.labelCountOfOption]
    · simp [outline, leaveOutline]
  | some v =>
    obtain ⟨t, ht, -, hfits⟩ := h v rfl
    rw [code]
    simp only [puts_bind]
    refine puts_returnValue hP hs hΓ ht hw hfits hf fun s₁ h₁ => ?_
    rw [puts_emitAll]
    refine (h₁.write _).congr ?_ ?_ (.refl _)
    · simp [usage, labelCount, Expr.labelCountOfOption]
    · simp [outline, leaveOutline]

/-! ### All statements -/

mutual

/-- **A typed statement in which control is in order is written without a fault, and its code is
that of its outline.** -/
theorem lies (hP : Ty.Stable P) :
    ∀ {st : Stmt} {cx : Context} {pt : Point} {inLoop : Bool} {x : Exits},
    View.Settled P pt.scope.meanings → st.Typed P cx.types cx.returnType pt.scope.meanings →
    st.WellPlaced → st.exits inLoop = .ok x → (inLoop = true → cx.loop ≠ none) →
    cx.frame.Provides (st.usage cx.types).nodes → st.Lies cx pt
  | .block site ds body, cx, pt, inLoop, x, hΓ, h, hw, hx, hl, hf =>
    lies_block hP hΓ h hw hf <| by
      rw [exits] at hx
      have hmeanings := VarDecl.meanings_afterAll h.1
      refine lieAll hP ?_ (hmeanings ▸ h.2) hw.2 hx hl (hf.mono fun i hi => by simp [usage, hi])
      rw [hmeanings]
      exact VarDecl.AllTyped.settled hP h.1 hΓ
  | .evaluation .., cx, pt, inLoop, x, hΓ, h, hw, hx, hl, hf => lies_evaluation hP hΓ h hw hf
  | .write .., cx, pt, inLoop, x, hΓ, h, hw, hx, hl, hf => lies_write hP hΓ h hw hf
  | .ifThen _ c t, cx, pt, inLoop, x, hΓ, h, hw, hx, hl, hf =>
    lies_ifThen hP hΓ h hw hf <| by
      rw [exits] at hx
      obtain ⟨y, hy, -⟩ := bind_eq_ok.mp hx
      exact lies hP hΓ h.2 hw.2 hy hl (hf.mono fun i hi => by simp [usage, hi])
  | .ifElse _ c t e, cx, pt, inLoop, x, hΓ, h, hw, hx, hl, hf => by
    rw [exits] at hx
    obtain ⟨y, hy, hx⟩ := bind_eq_ok.mp hx
    obtain ⟨z, hz, -⟩ := bind_eq_ok.mp hx
    exact lies_ifElse hP hΓ h hw hf
      (lies hP hΓ h.2.1 hw.2.1 hy hl (hf.mono fun i hi => by simp [usage, hi]))
      (lies hP hΓ h.2.2 hw.2.2 hz hl (hf.mono fun i hi => by simp [usage, hi]))
  | .forLoop site inits c incs body, cx, pt, inLoop, x, hΓ, h, hw, hx, hl, hf => by
    rw [exits] at hx
    obtain ⟨y, hy, -⟩ := bind_eq_ok.mp hx
    have hmeanings := LoopInit.meanings_afterAll h.1
    refine lies_forLoop hP hΓ h hw hf
      (lies hP ?_ ?_ hw.2.2.2 hy (fun _ => by simp [Context.inLoop]) ?_)
    · rw [Point.scope_move, hmeanings]
      exact h.1.settled hP hΓ
    · rw [Point.scope_move, hmeanings]
      exact h.2.2.2
    · refine hf.mono fun i hi => ?_
      rw [types_inLoop] at hi
      simp [usage, hi]
  | .break site, cx, pt, inLoop, x, hΓ, h, hw, hx, hl, hf => by
    rw [exits] at hx
    obtain ⟨l, hloop⟩ := Option.ne_none_iff_exists'.mp (hl (by
      by_contra hin
      rw [if_neg hin] at hx
      cases hx))
    exact (lies_jump hloop).1
  | .continue site, cx, pt, inLoop, x, hΓ, h, hw, hx, hl, hf => by
    rw [exits] at hx
    obtain ⟨l, hloop⟩ := Option.ne_none_iff_exists'.mp (hl (by
      by_contra hin
      rw [if_neg hin] at hx
      cases hx))
    exact (lies_jump hloop).2
  | .return .., cx, pt, inLoop, x, hΓ, h, hw, hx, hl, hf => lies_return hP hΓ h hw hf

/-- As `lies`, for several statements. -/
theorem lieAll (hP : Ty.Stable P) : ∀ {ss : List Stmt} {cx : Context} {pt : Point} {inLoop : Bool}
    {before x : Exits}, View.Settled P pt.scope.meanings →
    AllTyped P cx.types cx.returnType pt.scope.meanings ss → AllWellPlaced ss →
    exitsOfAll inLoop before ss = .ok x → (inLoop = true → cx.loop ≠ none) →
    cx.frame.Provides (usageOfAll cx.types ss).nodes → LieAll cx pt ss
  | [], cx, pt, inLoop, before, x, hΓ, h, hw, hx, hl, hf => by
    intro s hs
    rw [codeAll, puts_pure]
    refine (Lays.refl hs).congr ?_ rfl (.refl _)
    simp [usageOfAll, labelCountOfAll]
  | st :: ss, cx, pt, inLoop, before, x, hΓ, h, hw, hx, hl, hf => by
    intro s hs
    rw [exitsOfAll] at hx
    obtain ⟨_, -, hx⟩ := bind_eq_ok.mp hx
    obtain ⟨after, hst, hss⟩ := bind_eq_ok.mp hx
    rw [codeAll, puts_bind]
    refine (lies hP hΓ h.1 hw.1 hst hl (hf.mono fun i hi => by simp [usageOfAll, hi]) s hs).mono
      fun _ s₁ h₁ => ?_
    have hall : LieAll cx (pt.move (st.usage cx.types).locals st.labelCount) ss :=
      lieAll hP hΓ h.2 hw.2 hss hl (hf.mono fun i hi => by simp [usageOfAll, hi])
    refine (hall s₁ h₁.here).mono fun _ s₂ h₂ => ?_
    refine (h₁.trans h₂ Closes.trans).congr ?_ ?_
      (by simp [Supplies.Same, supplies, suppliesOfAll, usageOfAll, helpersOfAll])
    · rw [Point.move_move, usageOfAll, labelCountOfAll, FrameUsage.locals_append]
    · rw [outlineAll, Outline.code_append]

end

end Stmt

end PostfixCompiler
