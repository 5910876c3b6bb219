import PostfixCompiler.Frame.Usage
import PostfixCompiler.Proofs.Typing.Typed

/-!
# What typed phrases use of a frame

The layout of a frame walks over a body before any code is written, and looks up the type of every
node whose slot depends on it. On a typed body no such look-up fails. Its use of the frame is then a
function of the types, which is written down here; the code of the body is compared with this
function, node by node.

## Main definitions

* `PostfixCompiler.Expr.usage`, `PostfixCompiler.Stmt.usage`: what a phrase uses of the frame.
* `PostfixCompiler.FrameLayout.Provides`: the frame has slots for some nodes.

## Main statements

* `PostfixCompiler.Expr.charge_eq`: the slot that an expression needs.
* `PostfixCompiler.Expr.frameUsage_eq`, `PostfixCompiler.Stmt.frameUsage_eq`: the layout finds what
  the phrase uses.
-/

namespace PostfixCompiler

/-! ### Adding up -/

namespace FrameUsage

@[simp] theorem none_append (u : FrameUsage) : none ++ u = u := by
  change append none u = u
  simp [append, none]

/-- The nodes that need slots. -/
def nodes (u : FrameUsage) : List NodeId := u.charges.map Prod.fst

@[simp] theorem nodes_none : FrameUsage.none.nodes = [] := rfl

@[simp] theorem nodes_append (u v : FrameUsage) : (u ++ v).nodes = u.nodes ++ v.nodes :=
  List.map_append

@[simp] theorem nodes_ofCall (n : Nat) : (FrameUsage.ofCall n).nodes = [] := rfl

@[simp] theorem nodes_ofLocals (n : Nat) : (FrameUsage.ofLocals n).nodes = [] := rfl

theorem nodes_ofCharge (id : NodeId) (n : Option Nat) :
    (FrameUsage.ofCharge id n).nodes = if n.isSome then [id] else [] := by
  cases n <;> rfl

@[simp] theorem locals_append (u v : FrameUsage) : (u ++ v).locals = u.locals + v.locals := rfl

@[simp] theorem locals_none : FrameUsage.none.locals = 0 := rfl

@[simp] theorem locals_ofLocals (n : Nat) : (FrameUsage.ofLocals n).locals = n := rfl

@[simp] theorem locals_ofCall (n : Nat) : (FrameUsage.ofCall n).locals = 0 := rfl

@[simp] theorem locals_ofCharge (id : NodeId) (n : Option Nat) :
    (FrameUsage.ofCharge id n).locals = 0 := by
  cases n <;> rfl

end FrameUsage

/-- The frame has a slot for each of the nodes. -/
def FrameLayout.Provides (f : FrameLayout) (ids : List NodeId) : Prop :=
  ∀ i ∈ ids, (f.slotOffset? i).isSome = true

theorem FrameLayout.Provides.mono {f : FrameLayout} {is js : List NodeId} (h : f.Provides js)
    (hs : ∀ i ∈ is, i ∈ js) : f.Provides is :=
  fun i hi => h i (hs i hi)

/-! ### Expressions -/

namespace Expr

variable {P : Ty → Prop} {T : TypeTable} {Γ : Names}

/-- The bytes of the slot that an expression needs for itself. -/
def ownCharge (T : TypeTable) (mode : Mode) : Expr → Option Nat
  | .tuple s (_ :: _ :: _) =>
    if mode = .address ∧ (T.typeOf s.id).isTuple = true then some (T.typeOf s.id).size else none
  | .rvalue s _ =>
    if mode = .value ∧ (T.typeOf s.id).isTuple = true then some Ty.wordSize else none
  | _ => none

mutual

/-- What an expression uses of the frame. -/
def usage (T : TypeTable) (mode : Mode) : Expr → FrameUsage
  | .integer .. | .double .. | .string .. | .nullptr _ | .input _ | .variable .. | .sizeof .. =>
    .none
  | .pointerIndex _ b i => b.usage T .value ++ i.usage T .value
  | .tupleIndex _ b _ => b.usage T .address
  | .rvalue s p =>
    .ofCharge s.id ((Expr.rvalue s p).ownCharge T mode) ++ p.usage T .address
  | .addressOf _ p => p.usage T .address
  | .assignment _ p v => p.usage T .address ++ v.usage T .value
  | .unary _ _ a => a.usage T .value
  | .binary _ _ l r => l.usage T .value ++ r.usage T .value
  | .stackAlloc _ n => n.usage T .value
  | .tuple _ [e] => e.usage T mode
  | .tuple s es => .ofCharge s.id ((Expr.tuple s es).ownCharge T mode) ++ usageOfAll T es
  | .call s _ args =>
    (if (T.typeOf s.id).isTuple then .ofCall (T.typeOf s.id).size else .none) ++ usageOfAll T args

/-- What expressions whose values are wanted use of the frame. -/
def usageOfAll (T : TypeTable) : List Expr → FrameUsage
  | [] => .none
  | e :: es => e.usage T .value ++ usageOfAll T es

end

/-- The slot that an expression needs, as the layout and the code find it. -/
theorem charge_eq {e : Expr} (h : e.Typed P T Γ) (mode : Mode) :
    e.charge T mode = .ok (e.ownCharge T mode) := by
  match e, mode with
  | .tuple s (a :: b :: es), .address =>
    obtain ⟨-, ts, -, -, hs⟩ := h
    rw [charge, TypeTable.expect_eq hs, ownCharge, TypeTable.typeOf_eq hs]
    simp only [bind, Except.bind, pure, Except.pure, true_and]
  | .rvalue s p, .value =>
    obtain ⟨-, t, -, hs⟩ := h
    rw [charge, TypeTable.expect_eq hs, ownCharge, TypeTable.typeOf_eq hs]
    simp only [bind, Except.bind, pure, Except.pure, true_and]
  | .tuple s (a :: b :: es), .value | .rvalue s p, .address =>
    simp [charge, ownCharge, pure, Except.pure]
  | .tuple _ [], _ | .tuple _ [_], _ | .integer .., _ | .double .., _
  | .string .., _ | .nullptr _, _ | .input _, _ | .variable .., _ | .pointerIndex .., _
  | .tupleIndex .., _ | .assignment .., _ | .unary .., _ | .binary .., _ | .addressOf .., _
  | .stackAlloc .., _ | .sizeof .., _ | .call .., _ => rfl

/-- The area that a call needs for its result. -/
theorem callUsage_eq {id : NodeId} {t : Ty} (h : T.get? id = some t) :
    callUsage T id = .ok (if t.isTuple then .ofCall t.size else .none) := by
  rw [callUsage, TypeTable.expect_eq h]
  rfl

mutual

/-- **The layout finds what a typed expression uses.** -/
theorem frameUsage_eq : ∀ {e : Expr} (mode : Mode), e.Typed P T Γ →
    e.frameUsage T mode = .ok (e.usage T mode)
  | .integer .., mode, _ | .double .., mode, _ | .string .., mode, _ | .nullptr _, mode, _
  | .input _, mode, _ | .variable .., mode, _ | .sizeof .., mode, _ => by
    rw [frameUsage, usage]
    rfl
  | .pointerIndex _ b i, mode, h | .assignment _ b i, mode, h | .binary _ _ b i, mode, h => by
    rw [frameUsage, charge_eq h]
    simp [frameUsage_eq _ h.1.1, frameUsage_eq _ h.1.2, usage, ownCharge, FrameUsage.ofCharge, bind,
      Except.bind, pure, Except.pure]
  | .tupleIndex _ a _, mode, h | .addressOf _ a, mode, h | .unary _ _ a, mode, h
  | .stackAlloc _ a, mode, h | .rvalue _ a, mode, h => by
    rw [frameUsage, charge_eq h]
    simp [frameUsage_eq _ h.1, usage, ownCharge, FrameUsage.ofCharge, bind, Except.bind, pure,
      Except.pure, Expr.id, Expr.site]
  | .tuple _ [e], mode, h => by
    rw [frameUsage, charge_eq h]
    simp [frameUsage_eq mode h.1.1, usage, ownCharge, FrameUsage.ofCharge, bind, Except.bind, pure,
      Except.pure]
  | .tuple _ [], mode, h => by
    rw [frameUsage, charge_eq h]
    rfl
  | .tuple _ (_ :: _ :: _), mode, h => by
    rw [frameUsage, charge_eq h]
    simp [frameUsageOfAll_eq h.1, usage, bind, Except.bind, pure, Except.pure, Expr.id, Expr.site]
  | .call _ _ _, mode, h => by
    have htyped := h
    obtain ⟨hargs, _, t, _, _, _, ht⟩ := h
    rw [frameUsage, charge_eq htyped]
    simp [frameUsageOfAll_eq hargs, callUsage_eq ht, TypeTable.typeOf_eq ht, usage, ownCharge,
      FrameUsage.ofCharge, bind, Except.bind, pure, Except.pure]

/-- As `frameUsage_eq`, for expressions whose values are wanted. -/
theorem frameUsageOfAll_eq : ∀ {es : List Expr}, AllTyped P T Γ es →
    frameUsageOfAll T es = .ok (usageOfAll T es)
  | [], _ => rfl
  | e :: es, h => by
    rw [frameUsageOfAll, frameUsage_eq .value h.1, frameUsageOfAll_eq h.2]
    rfl

end

mutual

/-- An expression declares no variables. -/
@[simp] theorem locals_usage (T : TypeTable) :
    ∀ (mode : Mode) (e : Expr), (e.usage T mode).locals = 0
  | _, .integer .. | _, .double .. | _, .string .. | _, .nullptr _ | _, .input _ | _, .variable ..
  | _, .sizeof .. => by simp [usage]
  | _, .pointerIndex _ b i | _, .assignment _ b i | _, .binary _ _ b i => by
    simp [usage, locals_usage T _ b, locals_usage T _ i]
  | _, .tupleIndex _ a _ | _, .addressOf _ a | _, .unary _ _ a | _, .stackAlloc _ a | _, .rvalue _ a
  | _, .tuple _ [a] => by simp [usage, locals_usage T _ a]
  | _, .tuple _ [] => by simp [usage, usageOfAll]
  | _, .tuple _ (e :: e' :: es) => by simp [usage, locals_usageOfAll T (e :: e' :: es)]
  | _, .call s _ args => by
    rw [usage, FrameUsage.locals_append, locals_usageOfAll T args]
    split <;> simp

/-- Expressions declare no variables. -/
@[simp] theorem locals_usageOfAll (T : TypeTable) : ∀ es : List Expr, (usageOfAll T es).locals = 0
  | [] => rfl
  | e :: es => by simp [usageOfAll, locals_usage T .value e, locals_usageOfAll T es]

end

/-- What an expression whose value is wanted uses, if there is one. -/
def usageOfOption (T : TypeTable) : Option Expr → FrameUsage
  | none => .none
  | some e => e.usage T .value

@[simp] theorem locals_usageOfOption (T : TypeTable) (o : Option Expr) :
    (usageOfOption T o).locals = 0 := by
  cases o with
  | none => rfl
  | some e => exact locals_usage T .value e

theorem frameUsageOfOption_eq {o : Option Expr} (h : ∀ e ∈ o, e.Typed P T Γ) :
    frameUsageOfOption T o = .ok (usageOfOption T o) := by
  cases o with
  | none => rfl
  | some e => exact frameUsage_eq .value (h e rfl)

end Expr

/-! ### Declarations and loops -/

section Statements

variable {P : Ty → Prop} {T : TypeTable} {Γ : Names} {R : Ty}

/-- What a declaration of local variables uses of the frame. -/
def VarDecl.usage (T : TypeTable) (d : VarDecl) : FrameUsage :=
  .ofLocals (T.typeOf d.id).size ++ Expr.usageOfOption T d.initializer

/-- What declarations of local variables use of the frame. -/
def VarDecl.usageOfAll (T : TypeTable) : List VarDecl → FrameUsage
  | [] => .none
  | d :: ds => d.usage T ++ usageOfAll T ds

theorem VarDecl.frameUsage_eq {d : VarDecl} (h : d.Typed P T Γ) :
    d.frameUsage T = .ok (d.usage T) := by
  obtain ⟨t, ⟨ht, -⟩, -, -, hinit⟩ := h
  rw [frameUsage, TypeTable.expect_eq ht, Expr.frameUsageOfOption_eq fun e he =>
    (hinit e he).1, usage,
    TypeTable.typeOf_eq ht]
  rfl

theorem VarDecl.frameUsageOfAll_eq {ds : List VarDecl} (h : AllTyped P T Γ ds) :
    frameUsageOfAll T ds = .ok (usageOfAll T ds) := by
  induction ds generalizing Γ with
  | nil => rfl
  | cons d ds ih =>
    rw [frameUsageOfAll, VarDecl.frameUsage_eq h.1, ih h.2]
    rfl

/-- What a step that a loop takes before its first round uses of the frame. -/
def LoopInit.usage (T : TypeTable) : LoopInit → FrameUsage
  | .declare d => d.usage T
  | .evaluate e => e.usage T .value

/-- What a loop does before its first round uses of the frame. -/
def LoopInit.usageOfAll (T : TypeTable) : List LoopInit → FrameUsage
  | [] => .none
  | i :: is => i.usage T ++ usageOfAll T is

theorem LoopInit.frameUsageOfAll_eq {is : List LoopInit} (h : AllTyped P T Γ is) :
    frameUsageOfAll T is = .ok (usageOfAll T is) := by
  induction is generalizing Γ with
  | nil => rfl
  | cons i is ih =>
    cases i with
    | declare d =>
      rw [frameUsageOfAll, VarDecl.frameUsage_eq h.1, ih h.2]
      rfl
    | evaluate e =>
      obtain ⟨⟨t, ht⟩, his⟩ := h
      rw [frameUsageOfAll, Expr.frameUsage_eq .value ht.1, ih his]
      rfl

/-- The bytes of the slot that a loop needs to test its condition. -/
def Stmt.loopCharge (T : TypeTable) : Option Expr → Option Nat
  | none => none
  | some c => if (c.type T).isTuple then some Ty.wordSize else none

theorem Stmt.loopCharge_eq {c : Option Expr} (h : ∀ e ∈ c, ∃ t, T.get? e.id = some t) :
    T.loopCharge (c.map Expr.id) = .ok (loopCharge T c) := by
  cases c with
  | none => rfl
  | some e =>
    obtain ⟨t, ht⟩ := h e rfl
    rw [Option.map_some, TypeTable.loopCharge, TypeTable.expect_eq ht, loopCharge, Expr.type,
      TypeTable.typeOf_eq ht]
    rfl

/-! ### Statements -/

namespace Stmt

mutual

/-- What a statement uses of the frame. -/
def usage (T : TypeTable) : Stmt → FrameUsage
  | .block _ ds body => VarDecl.usageOfAll T ds ++ usageOfAll T body
  | .evaluation _ e => e.usage T .value
  | .write _ args _ => Expr.usageOfAll T args
  | .ifThen _ c t => c.usage T .value ++ t.usage T
  | .ifElse _ c t e => c.usage T .value ++ t.usage T ++ e.usage T
  | .forLoop s inits c incs body =>
    LoopInit.usageOfAll T inits ++ Expr.usageOfOption T c ++ .ofCharge s.id (loopCharge T c) ++
      Expr.usageOfAll T incs ++ body.usage T
  | .return _ v => Expr.usageOfOption T v
  | .break _ | .continue _ => .none

/-- What statements use of the frame. -/
def usageOfAll (T : TypeTable) : List Stmt → FrameUsage
  | [] => .none
  | s :: ss => s.usage T ++ usageOfAll T ss

end

/-- Expressions of which each has a type are typed. -/
theorem allTyped_of_typedAs {Q : Expr → Ty → Prop} {es : List Expr}
    (h : ∀ e ∈ es, ∃ t, e.TypedAs P T Γ t ∧ Q e t) : Expr.AllTyped P T Γ es :=
  Expr.allTyped_iff.mpr fun e he => by
    obtain ⟨t, ht, -⟩ := h e he
    exact ht.1

mutual

/-- **The layout finds what a typed statement uses.** -/
theorem frameUsage_eq : ∀ {s : Stmt} {Γ : Names}, s.Typed P T R Γ → s.frameUsage T = .ok (s.usage T)
  | .block _ ds body, Γ, h => by
    rw [frameUsage, VarDecl.frameUsageOfAll_eq h.1, frameUsageOfAll_eq h.2, usage]
    rfl
  | .evaluation _ e, Γ, h => by
    obtain ⟨t, ht⟩ := h
    rw [frameUsage, Expr.frameUsage_eq .value ht.1, usage]
  | .write _ args _, Γ, h => by
    rw [frameUsage, Expr.frameUsageOfAll_eq (allTyped_of_typedAs h), usage]
  | .ifThen _ c t, Γ, h => by
    rw [frameUsage, Expr.frameUsage_eq .value h.1.1, frameUsage_eq h.2, usage]
    rfl
  | .ifElse _ c t e, Γ, h => by
    rw [frameUsage, Expr.frameUsage_eq .value h.1.1, frameUsage_eq h.2.1,
      frameUsage_eq h.2.2, usage]
    rfl
  | .forLoop s inits c incs body, Γ, h => by
    obtain ⟨hinits, hc, hincs, hbody⟩ := h
    have hctyped : ∀ e ∈ c, e.Typed P T (View.bindAll Γ (LoopInit.bindingOfAll T inits)) := by
      intro e he
      obtain ⟨t, ht, -⟩ := hc e he
      exact ht.1
    have hcharge : T.loopCharge (c.map Expr.id) = .ok (loopCharge T c) := by
      refine loopCharge_eq fun e he => ?_
      obtain ⟨t, ht, -⟩ := hc e he
      exact ⟨t, ht.2.1⟩
    have hincs : Expr.AllTyped P T (View.bindAll Γ (LoopInit.bindingOfAll T inits)) incs :=
      Expr.allTyped_iff.mpr fun e he => by
        obtain ⟨t, ht⟩ := hincs e he
        exact ht.1
    rw [frameUsage, LoopInit.frameUsageOfAll_eq hinits, Expr.frameUsageOfOption_eq hctyped, hcharge,
      Expr.frameUsageOfAll_eq hincs, frameUsage_eq hbody, usage]
    rfl
  | .break _, Γ, _ | .continue _, Γ, _ => rfl
  | .return _ v, Γ, h => by
    rw [frameUsage, usage]
    have hv : ∀ e ∈ v, e.Typed P T Γ := by
      intro e he
      obtain ⟨t, ht, -⟩ := h e he
      exact ht.1
    exact Expr.frameUsageOfOption_eq hv

/-- As `frameUsage_eq`, for several statements. -/
theorem frameUsageOfAll_eq : ∀ {ss : List Stmt} {Γ : Names}, AllTyped P T R Γ ss →
    frameUsageOfAll T ss = .ok (usageOfAll T ss)
  | [], _, _ => rfl
  | s :: ss, Γ, h => by
    rw [frameUsageOfAll, frameUsage_eq h.1, frameUsageOfAll_eq h.2]
    rfl

end

end Stmt

end Statements

end PostfixCompiler
