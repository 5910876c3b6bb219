import PostfixCompiler.Proofs.Outcome
import PostfixCompiler.Proofs.Symbol.View
import PostfixCompiler.Proofs.Syntax.Ids
import PostfixCompiler.Proofs.Ty.Fits
import PostfixCompiler.Proofs.Ty.Stable
import PostfixCompiler.Typing.Unit

/-!
# Typed phrases

What the checker makes sure of, said without the checker: a phrase is **typed** by a table if the
types that the table holds for its nodes obey the rules of the language. The rules mention the names
in scope only, so a typed phrase stays typed when more names become known and when the slots of
other nodes are filled.

A property `P` of types is carried along. It holds of the type of every operand whose type must be
known; of a value that waits for its destination nothing more is said than that it is a pointer.

## Main definitions

* `PostfixCompiler.Meaning`, `PostfixCompiler.Names`: what a use of a name needs to know.
* `PostfixCompiler.Expr.Typed`, `PostfixCompiler.VarDecl.Typed`, `PostfixCompiler.Stmt.Typed`,
  `PostfixCompiler.Function.Typed`.

## Main statements

* `PostfixCompiler.Expr.Typed.exists_settled`: a typed expression has a settled type.
* `PostfixCompiler.Expr.Typed.mono`, `PostfixCompiler.Stmt.Typed.mono`.
-/

namespace PostfixCompiler

/-! ### Names -/

/-- What a use of a name needs to know. -/
inductive Meaning where
  /-- The name is a variable. -/
  | «variable» (type : Ty)
  /-- The name is a function. -/
  | function (parameters : List Ty)

/-- What a use of a symbol needs to know. -/
def Symbol.meaning (s : Symbol) : Meaning :=
  match s.parameters? with
  | none => .variable s.type
  | some ps => .function ps

/-- What the uses of names need to know. -/
abbrev Names := View Meaning

/-- What the names in scope mean. -/
def SymbolTable.names (t : SymbolTable) : Names := t.view Symbol.meaning

/-- Names become variables, one after the other. -/
def View.bindAll (Γ : Names) : List (String × Ty) → Names
  | [] => Γ
  | (name, t) :: rest => View.bindAll (Γ.bind name (.variable t)) rest

theorem View.bindAll_append (Γ : Names) (bs cs : List (String × Ty)) :
    View.bindAll Γ (bs ++ cs) = View.bindAll (View.bindAll Γ bs) cs := by
  induction bs generalizing Γ with
  | nil => rfl
  | cons b bs ih => exact ih _

theorem View.Le.bindAll {Γ Δ : Names} (h : Γ.Le Δ) (bs : List (String × Ty)) :
    (View.bindAll Γ bs).Le (View.bindAll Δ bs) := by
  induction bs generalizing Γ Δ with
  | nil => exact h
  | cons b bs ih => exact ih (h.bind b.1 _)

/-- The types of a meaning have a property, and are types of values. Parameters are scalars. -/
def Meaning.Settled (P : Ty → Prop) : Meaning → Prop
  | .variable t => Ty.Storable P t
  | .function ps => ∀ p ∈ ps, P p ∧ p.isTuple = false ∧ p ≠ .void

/-- The types of all names in scope have a property. -/
def View.Settled (P : Ty → Prop) (Γ : Names) : Prop := ∀ x m, Γ x = some m → m.Settled P

theorem View.Settled.bind {P : Ty → Prop} {Γ : Names} (h : View.Settled P Γ) (name : String)
    {m : Meaning} (hm : m.Settled P) : View.Settled P (Γ.bind name m) := by
  intro x m' hx
  by_cases hn : x = name
  · rw [View.bind, if_pos hn] at hx
    cases hx
    exact hm
  · rw [View.bind_ne _ _ hn] at hx
    exact h x m' hx

theorem View.Settled.bindAll {P : Ty → Prop} {Γ : Names} (h : View.Settled P Γ)
    {bs : List (String × Ty)} (hbs : ∀ b ∈ bs, Ty.Storable P b.2) :
    View.Settled P (View.bindAll Γ bs) := by
  induction bs generalizing Γ with
  | nil => exact h
  | cons b bs ih =>
    rw [List.forall_mem_cons] at hbs
    exact ih (h.bind b.1 hbs.1) hbs.2

/-! ### Type tables -/

namespace TypeTable

/-- The type of a node, which should have one. -/
def typeOf (T : TypeTable) (id : NodeId) : Ty := (T.get? id).getD .void

theorem typeOf_eq {T : TypeTable} {id : NodeId} {t : Ty} (h : T.get? id = some t) :
    T.typeOf id = t := by
  rw [typeOf, h, Option.getD_some]

theorem expect_eq {T : TypeTable} {id : NodeId} {t : Ty} (h : T.get? id = some t) :
    T.expect id = .ok t := by
  rw [expect, h]

/-- The types that one table holds for some nodes stand in another table too. -/
def Agrees (T U : TypeTable) (ids : List NodeId) : Prop :=
  ∀ i ∈ ids, ∀ t, T.get? i = some t → U.get? i = some t

theorem Agrees.mono {T U : TypeTable} {is js : List NodeId} (h : T.Agrees U js) (hs : is ⊆ js) :
    T.Agrees U is :=
  fun i hi => h i (hs hi)

end TypeTable

/-! ### Expressions -/

/-- The type of a tuple whose components have the given types: one value in parentheses is
itself. -/
def Ty.ofComponents : List Ty → Ty
  | [t] => t
  | ts => .tuple ts

namespace Expr

/-- The type of an expression, which should have one. -/
def type (T : TypeTable) (e : Expr) : Ty := T.typeOf e.id

mutual

/-- **The types of an expression and its parts obey the rules of the language.** -/
def Typed (P : Ty → Prop) (T : TypeTable) (Γ : Names) : Expr → Prop
  | .integer s _ => T.get? s.id = some .int
  | .double s _ => T.get? s.id = some .double
  | .string s _ => T.get? s.id = some .string
  | .nullptr s => T.get? s.id = some .genericPointer
  | .input s => T.get? s.id = some .int ∨ T.get? s.id = some .double
  | .variable s name => ∃ t, Γ name = some (.variable t) ∧ T.get? s.id = some t
  | .pointerIndex s b i =>
    (b.Typed P T Γ ∧ i.Typed P T Γ) ∧ T.get? i.id = some .int ∧
      ∃ t, (T.get? b.id = some (.pointer t) ∧ P (.pointer t)) ∧ t ≠ .void ∧ T.get? s.id = some t
  | .tupleIndex s b i =>
    b.Typed P T Γ ∧ ∃ ts t, (T.get? b.id = some (.tuple ts) ∧ P (.tuple ts)) ∧
      (1 ≤ i.toInt ∧ ts[i.toInt.toNat - 1]? = some t) ∧ T.get? s.id = some t
  | .rvalue s p => p.Typed P T Γ ∧ ∃ t, (T.get? p.id = some t ∧ P t) ∧ T.get? s.id = some t
  | .assignment s p v =>
    (p.Typed P T Γ ∧ v.Typed P T Γ) ∧ ∃ t u, (T.get? p.id = some t ∧ P t) ∧ T.get? v.id = some u ∧
      (t.isTuple = false ∧ u.isTuple = false) ∧ t.Fits u ∧ T.get? s.id = some t
  | .unary s op a =>
    a.Typed P T Γ ∧ ∃ t, (T.get? a.id = some t ∧ P t) ∧ op.accepts t = true ∧ T.get? s.id = some t
  | .binary s op l r =>
    (l.Typed P T Γ ∧ r.Typed P T Γ) ∧ ∃ t u v, (T.get? l.id = some t ∧ P t) ∧
      (T.get? r.id = some u ∧ P u) ∧ op.resultType? t u = some v ∧ T.get? s.id = some v
  | .addressOf s p =>
    p.Typed P T Γ ∧ ∃ t, (T.get? p.id = some t ∧ P t) ∧ T.get? s.id = some (.pointer t)
  | .stackAlloc s n =>
    n.Typed P T Γ ∧ T.get? n.id = some .int ∧ ∃ t, T.get? s.id = some (.pointer t)
  | .sizeof s e => e.Typed P T Γ ∧ T.get? s.id = some .int
  | .tuple s es =>
    AllTyped P T Γ es ∧ ∃ ts, ts ≠ [] ∧
      List.Forall₂ (fun e t => ∃ u, T.get? e.id = some u ∧ u = t ∧ P t ∧ t ≠ .void) es ts ∧
      T.get? s.id = some (.ofComponents ts)
  | .call s name args =>
    AllTyped P T Γ args ∧ ∃ ps t, Γ name = some (.function ps) ∧
      List.Forall₂ (fun a p => ∃ u, T.get? a.id = some u ∧ p.Fits u) args ps ∧
      (t ≠ .auto ∧ P t) ∧ T.get? s.id = some t

/-- The types of all of the expressions obey the rules of the language. -/
def AllTyped (P : Ty → Prop) (T : TypeTable) (Γ : Names) : List Expr → Prop
  | [] => True
  | e :: es => e.Typed P T Γ ∧ AllTyped P T Γ es

end

theorem allTyped_iff {P : Ty → Prop} {T : TypeTable} {Γ : Names} {es : List Expr} :
    AllTyped P T Γ es ↔ ∀ e ∈ es, e.Typed P T Γ := by
  induction es with
  | nil => simp [AllTyped]
  | cons e es ih => rw [AllTyped, ih, List.forall_mem_cons]

/-- What is said of the types of expressions one by one stays true when other slots are filled. -/
theorem forall₂_agrees {β : Type} {R : Ty → β → Prop} {T U : TypeTable} {es : List Expr}
    {bs : List β} (hT : T.Agrees U (idsOfAll es))
    (h : List.Forall₂ (fun e b => ∃ t, T.get? (id e) = some t ∧ R t b) es bs) :
    List.Forall₂ (fun e b => ∃ t, U.get? (id e) = some t ∧ R t b) es bs := by
  induction h with
  | nil => exact .nil
  | @cons e b es bs he _ ih =>
    obtain ⟨t, ht, hr⟩ := he
    refine .cons ⟨t, hT _ (List.mem_append_left _ e.id_mem_ids) t ht, hr⟩ ?_
    exact ih fun i hi => hT i (List.mem_append_right _ hi)

/-- The expression is typed, and its type is known. -/
def TypedAs (P : Ty → Prop) (T : TypeTable) (Γ : Names) (e : Expr) (t : Ty) : Prop :=
  e.Typed P T Γ ∧ T.get? e.id = some t ∧ P t

variable {P : Ty → Prop} {T U : TypeTable} {Γ Δ : Names}

mutual

/-- **A typed expression stays typed** when more names are known and when other slots are filled. -/
theorem Typed.mono (hΓ : Γ.Le Δ) : ∀ {e : Expr}, T.Agrees U e.ids → e.Typed P T Γ → e.Typed P U Δ
  | .integer s _, hT, h | .double s _, hT, h | .string s _, hT, h | .nullptr s, hT, h =>
    hT s.id (by simp [ids]) _ h
  | .input s, hT, h => h.imp (hT s.id (by simp [ids]) _) (hT s.id (by simp [ids]) _)
  | .variable s name, hT, h => by
    obtain ⟨t, hname, hs⟩ := h
    exact ⟨t, hΓ _ _ hname, hT s.id (by simp [ids]) _ hs⟩
  | .pointerIndex s b i, hT, h => by
    have hb : T.Agrees U b.ids := hT.mono (by simp [ids])
    have hi : T.Agrees U i.ids := hT.mono (by simp [ids])
    obtain ⟨⟨h₁, h₂⟩, hi', t, ⟨hb', hp⟩, ht, hs⟩ := h
    exact ⟨⟨h₁.mono hΓ hb, h₂.mono hΓ hi⟩, hi _ i.id_mem_ids _ hi', t,
      ⟨hb _ b.id_mem_ids _ hb', hp⟩, ht, hT s.id (by simp [ids]) _ hs⟩
  | .tupleIndex s b i, hT, h => by
    have hb : T.Agrees U b.ids := hT.mono (by simp [ids])
    obtain ⟨h₁, ts, t, ⟨hb', hp⟩, ht, hs⟩ := h
    exact ⟨h₁.mono hΓ hb, ts, t, ⟨hb _ b.id_mem_ids _ hb', hp⟩, ht, hT s.id (by simp [ids]) _ hs⟩
  | .rvalue s p, hT, h | .addressOf s p, hT, h => by
    have hp : T.Agrees U p.ids := hT.mono (by simp [ids])
    obtain ⟨h₁, t, ⟨hp', ht⟩, hs⟩ := h
    exact ⟨h₁.mono hΓ hp, t, ⟨hp _ p.id_mem_ids _ hp', ht⟩, hT s.id (by simp [ids]) _ hs⟩
  | .assignment s p v, hT, h => by
    have hp : T.Agrees U p.ids := hT.mono (by simp [ids])
    have hv : T.Agrees U v.ids := hT.mono (by simp [ids])
    obtain ⟨⟨h₁, h₂⟩, t, u, ⟨hp', ht⟩, hv', htu, hfits, hs⟩ := h
    exact ⟨⟨h₁.mono hΓ hp, h₂.mono hΓ hv⟩, t, u, ⟨hp _ p.id_mem_ids _ hp', ht⟩,
      hv _ v.id_mem_ids _ hv', htu, hfits, hT s.id (by simp [ids]) _ hs⟩
  | .unary s op a, hT, h => by
    have ha : T.Agrees U a.ids := hT.mono (by simp [ids])
    obtain ⟨h₁, t, ⟨ha', ht⟩, hop, hs⟩ := h
    exact ⟨h₁.mono hΓ ha, t, ⟨ha _ a.id_mem_ids _ ha', ht⟩, hop, hT s.id (by simp [ids]) _ hs⟩
  | .binary s op l r, hT, h => by
    have hl : T.Agrees U l.ids := hT.mono (by simp [ids])
    have hr : T.Agrees U r.ids := hT.mono (by simp [ids])
    obtain ⟨⟨h₁, h₂⟩, t, u, v, ⟨hl', ht⟩, ⟨hr', hu⟩, hop, hs⟩ := h
    exact ⟨⟨h₁.mono hΓ hl, h₂.mono hΓ hr⟩, t, u, v, ⟨hl _ l.id_mem_ids _ hl', ht⟩,
      ⟨hr _ r.id_mem_ids _ hr', hu⟩, hop, hT s.id (by simp [ids]) _ hs⟩
  | .stackAlloc s n, hT, h => by
    have hn : T.Agrees U n.ids := hT.mono (by simp [ids])
    obtain ⟨h₁, hn', t, hs⟩ := h
    exact ⟨h₁.mono hΓ hn, hn _ n.id_mem_ids _ hn', t, hT s.id (by simp [ids]) _ hs⟩
  | .sizeof s e, hT, h =>
    ⟨h.1.mono hΓ (hT.mono (by simp [ids])), hT s.id (by simp [ids]) _ h.2⟩
  | .tuple s es, hT, h => by
    have hes : T.Agrees U (idsOfAll es) := hT.mono (by simp [ids])
    obtain ⟨h₁, ts, hne, hts, hs⟩ := h
    exact ⟨h₁.mono hΓ hes, ts, hne, forall₂_agrees hes hts, hT s.id (by simp [ids]) _ hs⟩
  | .call s name args, hT, h => by
    have hargs : T.Agrees U (idsOfAll args) := hT.mono (by simp [ids])
    obtain ⟨h₁, ps, t, hname, hps, ht, hs⟩ := h
    exact ⟨h₁.mono hΓ hargs, ps, t, hΓ _ _ hname, forall₂_agrees hargs hps, ht,
      hT s.id (by simp [ids]) _ hs⟩

/-- As `Typed.mono`, for several expressions. -/
theorem AllTyped.mono (hΓ : Γ.Le Δ) : ∀ {es : List Expr}, T.Agrees U (idsOfAll es) →
    AllTyped P T Γ es → AllTyped P U Δ es
  | [], _, _ => trivial
  | e :: es, hT, h =>
    ⟨h.1.mono hΓ (hT.mono (by simp [idsOfAll])), h.2.mono hΓ (hT.mono (by simp [idsOfAll]))⟩

end

/-! ### Literals -/

mutual

/-- The type of a literal is dense. -/
theorem Typed.dense_of_isLiteral : ∀ {e : Expr} {t : Ty}, e.Typed P T Γ → e.isLiteral = true →
    T.get? e.id = some t → t.Dense
  | .integer s _, t, h, _, ht | .double s _, t, h, _, ht | .string s _, t, h, _, ht
  | .nullptr s, t, h, _, ht => by
    cases ht.symm.trans h
    trivial
  | .tuple s es, t, h, hl, ht => by
    obtain ⟨hes, ts, hne, hts, hs⟩ := h
    cases ht.symm.trans hs
    have hall := AllTyped.dense_of_allLiteral hes hl hts
    match ts, hne with
    | [t], _ => exact hall t (List.mem_singleton_self t)
    | _ :: _ :: _, _ => exact ⟨by simp, Ty.allDense_iff.mpr hall⟩
  | .input _, _, _, hl, _ | .variable .., _, _, hl, _ | .pointerIndex .., _, _, hl, _
  | .tupleIndex .., _, _, hl, _ | .rvalue .., _, _, hl, _ | .assignment .., _, _, hl, _
  | .unary .., _, _, hl, _ | .binary .., _, _, hl, _ | .addressOf .., _, _, hl, _
  | .stackAlloc .., _, _, hl, _ | .sizeof .., _, _, hl, _ | .call .., _, _, hl, _ => by cases hl

/-- As `Typed.dense_of_isLiteral`, for the elements of a tuple. -/
theorem AllTyped.dense_of_allLiteral {R : Ty → Prop} : ∀ {es : List Expr} {ts : List Ty},
    AllTyped P T Γ es → allLiteral es = true →
    List.Forall₂ (fun e t => ∃ u, T.get? (id e) = some u ∧ u = t ∧ R t) es ts → ∀ t ∈ ts, t.Dense
  | [], _, _, _, .nil => by simp
  | e :: es, t :: ts, h, hl, .cons ⟨u, hu, heq, _⟩ hts => by
    rw [allLiteral, Bool.and_eq_true] at hl
    rw [List.forall_mem_cons]
    exact ⟨h.1.dense_of_isLiteral hl.1 (heq ▸ hu), h.2.dense_of_allLiteral hl.2 hts⟩

end

/-! ### The type of a typed expression -/

/-- The type that several components make has a stable property. -/
theorem stable_ofComponents (hP : Ty.Stable P) {ts : List Ty} (hne : ts ≠ [])
    (h : ∀ t ∈ ts, P t ∧ t ≠ .void) : P (.ofComponents ts) ∧ Ty.ofComponents ts ≠ .void := by
  match ts, hne with
  | [t], _ => exact h t (List.mem_singleton_self t)
  | t :: u :: ts, _ => exact ⟨hP.tuple (by simp) h, by simp [Ty.ofComponents]⟩

/-- The result of an operator has a stable property if the operands have it. -/
theorem stable_resultType (hP : Ty.Stable P) {op : BinaryOp} {t u v : Ty} (ht : P t) (hu : P u)
    (h : op.resultType? t u = some v) : P v := by
  have hnumeric : ∀ {v}, t.numeric? u = some v → P v := fun hv =>
    (hP.unify (Option.ite_none_right_eq_some.mp hv).2 ht hu).1
  have hint : ∀ {o : Option Ty} {v}, o.map (fun _ => Ty.int) = some v → P v := by
    intro o v hv
    obtain ⟨_, _, rfl⟩ := Option.map_eq_some_iff.mp hv
    exact hP.int
  unfold BinaryOp.resultType? at h
  split at h
  · split at h
    · cases h
      exact ht
    · exact hnumeric h
  · split at h
    · cases h
      exact ht
    · exact hint h
    · exact hnumeric h
  iterate 2 exact hnumeric h
  iterate 3
    · obtain ⟨_, ⟨⟩⟩ := Option.ite_none_right_eq_some.mp h
      exact hP.int
  iterate 4 exact hint h
  all_goals
    split at h
    · exact hint h
    · exact hint h

/-- The expression is fresh memory, whose type waits for a destination. -/
def isFresh : Expr → Bool
  | .stackAlloc .. => true
  | _ => false

/-- **A typed expression has a settled type**, unless it waits for a destination. -/
theorem Typed.exists_settled (hP : Ty.Stable P) (hΓ : View.Settled P Γ) {e : Expr}
    (h : e.Typed P T Γ) (hfresh : e.isFresh = false) : ∃ t, T.get? e.id = some t ∧ P t := by
  cases e with
  | integer => exact ⟨_, h, hP.int⟩
  | double => exact ⟨_, h, hP.double⟩
  | string => exact ⟨_, h, hP.string⟩
  | nullptr => exact ⟨_, h, hP.genericPointer⟩
  | input => exact h.elim (fun h => ⟨_, h, hP.int⟩) fun h => ⟨_, h, hP.double⟩
  | «variable» =>
    obtain ⟨t, hname, hs⟩ := h
    exact ⟨t, hs, hP.of_storable (hΓ _ _ hname)⟩
  | pointerIndex =>
    obtain ⟨_, _, t, ⟨_, ht⟩, _, hs⟩ := h
    exact ⟨t, hs, hP.referent ht⟩
  | tupleIndex =>
    obtain ⟨_, ts, t, ⟨_, hts⟩, ⟨_, hget⟩, hs⟩ := h
    exact ⟨t, hs, hP.component hts (List.mem_of_getElem? hget)⟩
  | rvalue =>
    obtain ⟨_, t, ⟨_, ht⟩, hs⟩ := h
    exact ⟨t, hs, ht⟩
  | assignment =>
    obtain ⟨_, t, _, ⟨_, ht⟩, _, _, _, hs⟩ := h
    exact ⟨t, hs, ht⟩
  | unary =>
    obtain ⟨_, t, ⟨_, ht⟩, _, hs⟩ := h
    exact ⟨t, hs, ht⟩
  | binary =>
    obtain ⟨_, t, u, v, ⟨_, ht⟩, ⟨_, hu⟩, hv, hs⟩ := h
    exact ⟨v, hs, stable_resultType hP ht hu hv⟩
  | addressOf =>
    obtain ⟨_, t, ⟨_, ht⟩, hs⟩ := h
    exact ⟨_, hs, hP.pointer ht⟩
  | stackAlloc => cases hfresh
  | sizeof => exact ⟨_, h.2, hP.int⟩
  | tuple s es =>
    obtain ⟨_, ts, hne, hts, hs⟩ := h
    refine ⟨_, hs, (stable_ofComponents hP hne fun t ht => ?_).1⟩
    obtain ⟨e, _, u, _, rfl, hu⟩ := exists_of_mem_right hts ht
    exact hu
  | call =>
    obtain ⟨_, _, t, _, _, ht, hs⟩ := h
    exact ⟨t, hs, ht.2⟩

/-- **What is read from a place has a value**, if the components of tuples have. -/
theorem Typed.ne_void_of_isPlace (hvalued : ∀ {ts t}, P (.tuple ts) → t ∈ ts → t ≠ .void)
    (hΓ : View.Settled P Γ) {e : Expr} {t : Ty} (h : e.Typed P T Γ) (ht : T.get? e.id = some t)
    (he : e.isPlace = true) : t ≠ .void := by
  cases e with
  | «variable» site name =>
    obtain ⟨u, hname, hu⟩ := h
    cases ht.symm.trans hu
    exact hvalued (hΓ _ _ hname) List.mem_cons_self
  | pointerIndex site b i =>
    obtain ⟨-, -, u, -, hv, hu⟩ := h
    cases ht.symm.trans hu
    exact hv
  | tupleIndex site b i =>
    obtain ⟨-, ts, u, ⟨-, hts⟩, ⟨-, hget⟩, hu⟩ := h
    cases ht.symm.trans hu
    exact hvalued hts (List.mem_of_getElem? hget)
  | _ => cases he

/-- A typed expression has a type, and fresh memory that of a pointer. -/
theorem Typed.exists_type (hP : Ty.Stable P) (hΓ : View.Settled P Γ) {e : Expr}
    (h : e.Typed P T Γ) : ∃ t, T.get? e.id = some t ∧ (P t ∨ ∃ u, t = .pointer u) := by
  by_cases hfresh : e.isFresh = false
  · obtain ⟨t, ht, hp⟩ := h.exists_settled hP hΓ hfresh
    exact ⟨t, ht, .inl hp⟩
  · cases e with
    | stackAlloc =>
      obtain ⟨_, _, t, hs⟩ := h
      exact ⟨_, hs, .inr ⟨t, rfl⟩⟩
    | _ => exact absurd rfl hfresh

end Expr

/-! ### Declarations of variables -/

namespace VarDecl

/-- The variables of a declaration, with their types. -/
def binding (T : TypeTable) (d : VarDecl) : List (String × Ty) :=
  d.names.zip (d.typesOfNames (T.typeOf d.id))

/-- The variables of several declarations, with their types. -/
def bindingOfAll (T : TypeTable) (ds : List VarDecl) : List (String × Ty) := ds.flatMap (binding T)

/-- A declaration of type `t` gives each of its variables a type: there is one variable, or one for
each component. -/
def Divides (d : VarDecl) (t : Ty) : Prop :=
  d.names.length = 1 ∨ ∃ ts, t = .tuple ts ∧ ts.length = d.names.length

/-- **The type of a declaration is decided, and its initializer fits it.** -/
def Typed (P : Ty → Prop) (T : TypeTable) (Γ : Names) (d : VarDecl) : Prop :=
  ∃ t, (T.get? d.id = some t ∧ P t) ∧ t ≠ .void ∧ d.Divides t ∧
    ∀ e ∈ d.initializer, e.Typed P T Γ ∧ ∃ u, T.get? e.id = some u ∧ t.Fits u

/-- **The declaration is that of variables of the unit**: they start with a literal, and their type
has the shape of its type. -/
def TypedGlobal (P : Ty → Prop) (T : TypeTable) (Γ : Names) (d : VarDecl) : Prop :=
  d.Typed P T Γ ∧ ∀ e ∈ d.initializer, e.isLiteral = true ∧ (T.typeOf d.id).Dense

/-- The declarations are typed, each in the scope of those before it. -/
def AllTyped (P : Ty → Prop) (T : TypeTable) (Γ : Names) : List VarDecl → Prop
  | [] => True
  | d :: ds => d.Typed P T Γ ∧ AllTyped P T (View.bindAll Γ (d.binding T)) ds

/-- **The declaration is that of an argument**: one scalar, which starts with what the caller
passes. -/
def TypedArgument (P : Ty → Prop) (T : TypeTable) (d : VarDecl) : Prop :=
  d.names.length = 1 ∧ d.initializer = none ∧
    ∃ t, T.get? d.id = some t ∧ P t ∧ t.isTuple = false ∧ t ≠ .void

end VarDecl

/-- The variables that a loop declares before its first round. -/
def LoopInit.binding (T : TypeTable) : LoopInit → List (String × Ty)
  | .declare d => d.binding T
  | .evaluate _ => []

/-- The variables that a loop declares before its first round, all of them. -/
def LoopInit.bindingOfAll (T : TypeTable) (is : List LoopInit) : List (String × Ty) :=
  is.flatMap (binding T)

/-- What a loop does before its first round is typed. -/
def LoopInit.Typed (P : Ty → Prop) (T : TypeTable) (Γ : Names) : LoopInit → Prop
  | .declare d => d.Typed P T Γ
  | .evaluate e => ∃ t, e.TypedAs P T Γ t

/-- All that a loop does before its first round is typed, each in the scope of what comes before
it. -/
def LoopInit.AllTyped (P : Ty → Prop) (T : TypeTable) (Γ : Names) : List LoopInit → Prop
  | [] => True
  | i :: is => i.Typed P T Γ ∧ AllTyped P T (View.bindAll Γ (i.binding T)) is

/-! ### Statements -/

namespace Stmt

mutual

/-- **The statement is typed**, in a function whose result has type `R`. -/
def Typed (P : Ty → Prop) (T : TypeTable) (R : Ty) (Γ : Names) : Stmt → Prop
  | .block _ ds body =>
    VarDecl.AllTyped P T Γ ds ∧ AllTyped P T R (View.bindAll Γ (VarDecl.bindingOfAll T ds)) body
  | .evaluation _ e => ∃ t, e.TypedAs P T Γ t
  | .write _ args _ => ∀ e ∈ args, ∃ t, e.TypedAs P T Γ t ∧ t.isPrintable = true
  | .ifThen _ c t => c.TypedAs P T Γ .int ∧ t.Typed P T R Γ
  | .ifElse _ c t e => c.TypedAs P T Γ .int ∧ t.Typed P T R Γ ∧ e.Typed P T R Γ
  | .forLoop _ inits c incs body =>
    let Δ := View.bindAll Γ (LoopInit.bindingOfAll T inits)
    LoopInit.AllTyped P T Γ inits ∧
      (∀ e ∈ c, ∃ t, e.TypedAs P T Δ t ∧ t.components.getLast? = some .int) ∧
      (∀ e ∈ incs, ∃ t, e.TypedAs P T Δ t) ∧ body.Typed P T R Δ
  | .break _ | .continue _ => True
  | .return _ v => ∀ e ∈ v, ∃ t, e.TypedAs P T Γ t ∧ t ≠ .void ∧ R.Fits t

/-- All of the statements are typed, in a function whose result has type `R`. -/
def AllTyped (P : Ty → Prop) (T : TypeTable) (R : Ty) (Γ : Names) : List Stmt → Prop
  | [] => True
  | s :: ss => s.Typed P T R Γ ∧ AllTyped P T R Γ ss

end

end Stmt

/-! ### Functions -/

/-- **A function is typed**: its body is, control is in order in it, and the names in scope include
its own. -/
structure Function.Typed (P : Ty → Prop) (T : TypeTable) (Γ : Names) (f : Function)
    (R : Ty) : Prop where
  /-- The type of the result is decided. -/
  result : T.get? f.signature.id = some R ∧ R ≠ .auto ∧ P R
  /-- The arguments are scalars. -/
  arguments : ∀ d ∈ f.signature.arguments, d.TypedArgument P T
  /-- The function can be called by its name. -/
  name : ∃ ps, Γ f.signature.name = some (.function ps)
  /-- The body is typed, in the scope of the arguments. -/
  body : f.body.stmt.Typed P T R
    (View.bindAll Γ (VarDecl.bindingOfAll T f.signature.arguments))
  /-- Control is in order. -/
  flow : f.checkFlow R = .ok ()

/-! ### Monotonicity -/

section Mono

variable {P : Ty → Prop} {T U : TypeTable} {Γ Δ : Names}

theorem Expr.TypedAs.mono {e : Expr} {t : Ty} (hΓ : Γ.Le Δ) (hT : T.Agrees U e.ids)
    (h : e.TypedAs P T Γ t) : e.TypedAs P U Δ t :=
  ⟨h.1.mono hΓ hT, hT _ e.id_mem_ids _ h.2.1, h.2.2⟩

/-- Several expressions keep what is said of each when other slots are filled. -/
theorem Expr.agrees_of_mem {es : List Expr} (hT : T.Agrees U (idsOfAll es)) {e : Expr}
    (he : e ∈ es) :
    T.Agrees U e.ids := by
  refine hT.mono fun i hi => ?_
  rw [idsOfAll_eq_flatMap]
  exact List.mem_flatMap_of_mem he hi

theorem VarDecl.binding_eq {d : VarDecl} {t : Ty} (h : T.get? d.id = some t) :
    d.binding T = d.names.zip (d.typesOfNames t) := by
  rw [binding, TypeTable.typeOf_eq h]

/-- The one variable of an argument. -/
theorem VarDecl.binding_argument {d : VarDecl} {t : Ty} (hn : d.names.length = 1)
    (ht : T.get? d.id = some t) : d.binding T = d.names.map fun name => (name, t) := by
  rw [binding_eq ht, typesOfNames, if_pos hn]
  obtain ⟨name, hname⟩ := List.length_eq_one_iff.mp hn
  rw [hname]
  rfl

theorem VarDecl.Typed.binding_eq {d : VarDecl} (hT : T.Agrees U d.ids) (h : d.Typed P T Γ) :
    d.binding U = d.binding T := by
  obtain ⟨t, ⟨ht, _⟩, _⟩ := h
  rw [VarDecl.binding_eq ht, VarDecl.binding_eq (hT _ (by simp [VarDecl.ids]) _ ht)]

theorem VarDecl.Typed.mono {d : VarDecl} (hΓ : Γ.Le Δ) (hT : T.Agrees U d.ids)
    (h : d.Typed P T Γ) : d.Typed P U Δ := by
  obtain ⟨t, ⟨ht, hp⟩, hv, hd, hinit⟩ := h
  refine ⟨t, ⟨hT _ (by simp [VarDecl.ids]) _ ht, hp⟩, hv, hd, fun e he => ?_⟩
  obtain ⟨hte, u, hu, hfits⟩ := hinit e he
  have hTe : T.Agrees U e.ids :=
    hT.mono (by simp [VarDecl.ids, Option.mem_def.mp he, Expr.idsOfOption])
  exact ⟨hte.mono hΓ hTe, u, hTe _ e.id_mem_ids _ hu, hfits⟩

theorem VarDecl.AllTyped.mono {ds : List VarDecl} (hΓ : Γ.Le Δ) (hT : T.Agrees U (idsOfAll ds))
    (h : AllTyped P T Γ ds) : AllTyped P U Δ ds ∧ bindingOfAll U ds = bindingOfAll T ds := by
  induction ds generalizing Γ Δ with
  | nil => exact ⟨trivial, rfl⟩
  | cons d ds ih =>
    have hd : T.Agrees U d.ids := hT.mono (by simp [idsOfAll])
    have heq := h.1.binding_eq hd
    have hrest := ih (hΓ.bindAll (d.binding T)) (hT.mono (by simp [idsOfAll])) h.2
    refine ⟨⟨h.1.mono hΓ hd, heq ▸ hrest.1⟩, ?_⟩
    rw [bindingOfAll, List.flatMap_cons, heq]
    exact congrArg _ hrest.2

theorem LoopInit.Typed.mono {i : LoopInit} (hΓ : Γ.Le Δ) (hT : T.Agrees U i.ids)
    (h : i.Typed P T Γ) : i.Typed P U Δ ∧ i.binding U = i.binding T := by
  cases i with
  | declare d => exact ⟨VarDecl.Typed.mono hΓ hT h, VarDecl.Typed.binding_eq hT h⟩
  | evaluate e =>
    obtain ⟨t, ht⟩ := h
    exact ⟨⟨t, ht.mono hΓ hT⟩, rfl⟩

theorem LoopInit.AllTyped.mono {is : List LoopInit} (hΓ : Γ.Le Δ) (hT : T.Agrees U (idsOfAll is))
    (h : AllTyped P T Γ is) : AllTyped P U Δ is ∧ bindingOfAll U is = bindingOfAll T is := by
  induction is generalizing Γ Δ with
  | nil => exact ⟨trivial, rfl⟩
  | cons i is ih =>
    have hrest := ih (hΓ.bindAll (i.binding T)) (hT.mono (by simp [idsOfAll])) h.2
    obtain ⟨htyped, hbinding⟩ := LoopInit.Typed.mono hΓ (hT.mono (by simp [idsOfAll])) h.1
    refine ⟨⟨htyped, hbinding ▸ hrest.1⟩, ?_⟩
    rw [bindingOfAll, List.flatMap_cons, hbinding]
    exact congrArg _ hrest.2

variable {R R' : Ty}

mutual

/-- **A typed statement stays typed** when more names are known, when other slots are filled, and
when the type of the result is refined. -/
theorem Stmt.Typed.mono (hR : ∀ t, R.Fits t → R'.Fits t) :
    ∀ {s : Stmt} {Γ Δ : Names}, Γ.Le Δ → T.Agrees U s.ids →
    s.Typed P T R Γ → s.Typed P U R' Δ
  | .block s ds body, Γ, Δ, hΓ, hT, h => by
    obtain ⟨hds, hbinding⟩ := h.1.mono hΓ (hT.mono fun i hi => by simp [Stmt.ids, hi])
    refine ⟨hds, ?_⟩
    rw [hbinding]
    exact Stmt.AllTyped.mono hR (hΓ.bindAll _) (hT.mono fun i hi => by simp [Stmt.ids, hi]) h.2
  | .evaluation s e, Γ, Δ, hΓ, hT, h => by
    obtain ⟨t, ht⟩ := h
    exact ⟨t, ht.mono hΓ (hT.mono fun i hi => by simp [Stmt.ids, hi])⟩
  | .write s args n, Γ, Δ, hΓ, hT, h => by
    have hargs : T.Agrees U (Expr.idsOfAll args) := hT.mono fun i hi => by simp [Stmt.ids, hi]
    intro e he
    obtain ⟨t, ht, hp⟩ := h e he
    exact ⟨t, ht.mono hΓ (Expr.agrees_of_mem hargs he), hp⟩
  | .ifThen s c t, Γ, Δ, hΓ, hT, h =>
    ⟨h.1.mono hΓ (hT.mono fun i hi => by simp [Stmt.ids, hi]),
      Stmt.Typed.mono hR hΓ (hT.mono fun i hi => by simp [Stmt.ids, hi]) h.2⟩
  | .ifElse s c t e, Γ, Δ, hΓ, hT, h =>
    ⟨h.1.mono hΓ (hT.mono fun i hi => by simp [Stmt.ids, hi]),
      Stmt.Typed.mono hR hΓ (hT.mono fun i hi => by simp [Stmt.ids, hi]) h.2.1,
      Stmt.Typed.mono hR hΓ (hT.mono fun i hi => by simp [Stmt.ids, hi]) h.2.2⟩
  | .forLoop s inits c incs body, Γ, Δ, hΓ, hT, h => by
    obtain ⟨hinits, hc, hincs, hbody⟩ := h
    obtain ⟨hinits', hbinding⟩ := hinits.mono hΓ (hT.mono fun i hi => by simp [Stmt.ids, hi])
    have hΓ' := hΓ.bindAll (LoopInit.bindingOfAll T inits)
    have hTincs : T.Agrees U (Expr.idsOfAll incs) := hT.mono fun i hi => by simp [Stmt.ids, hi]
    unfold Stmt.Typed
    rw [hbinding]
    refine ⟨hinits', fun e he => ?_, fun e he => ?_, ?_⟩
    · obtain ⟨t, ht, hlast⟩ := hc e he
      refine ⟨t, ht.mono hΓ' (hT.mono fun i hi => ?_), hlast⟩
      simp [Stmt.ids, Option.mem_def.mp he, Expr.idsOfOption, hi]
    · obtain ⟨t, ht⟩ := hincs e he
      exact ⟨t, ht.mono hΓ' (Expr.agrees_of_mem hTincs he)⟩
    · exact Stmt.Typed.mono hR hΓ' (hT.mono fun i hi => by simp [Stmt.ids, hi]) hbody
  | .break _, _, _, _, _, _ | .continue _, _, _, _, _, _ => trivial
  | .return s v, Γ, Δ, hΓ, hT, h => by
    intro e he
    obtain ⟨t, ht, hv, hfits⟩ := h e he
    refine ⟨t, ht.mono hΓ (hT.mono fun i hi => ?_), hv, hR t hfits⟩
    simp [Stmt.ids, Option.mem_def.mp he, Expr.idsOfOption, hi]

/-- As `Stmt.Typed.mono`, for several statements. -/
theorem Stmt.AllTyped.mono (hR : ∀ t, R.Fits t → R'.Fits t) :
    ∀ {ss : List Stmt} {Γ Δ : Names}, Γ.Le Δ →
    T.Agrees U (Stmt.idsOfAll ss) → Stmt.AllTyped P T R Γ ss → Stmt.AllTyped P U R' Δ ss
  | [], _, _, _, _, _ => trivial
  | s :: ss, Γ, Δ, hΓ, hT, h =>
    ⟨Stmt.Typed.mono hR hΓ (hT.mono fun i hi => by simp [Stmt.idsOfAll, hi]) h.1,
      Stmt.AllTyped.mono hR hΓ (hT.mono fun i hi => by simp [Stmt.idsOfAll, hi]) h.2⟩

end

theorem VarDecl.TypedArgument.mono {d : VarDecl} (hT : T.Agrees U d.ids) (h : d.TypedArgument P T) :
    d.TypedArgument P U ∧ d.binding U = d.binding T := by
  obtain ⟨hn, hi, t, ht, hp⟩ := h
  have ht' := hT _ List.mem_cons_self _ ht
  exact ⟨⟨hn, hi, t, ht', hp⟩, by rw [VarDecl.binding_eq ht, VarDecl.binding_eq ht']⟩

/-- Arguments stay what they are when other slots are filled. -/
theorem VarDecl.arguments_mono {ds : List VarDecl} (hT : T.Agrees U (idsOfAll ds))
    (h : ∀ d ∈ ds, d.TypedArgument P T) :
    (∀ d ∈ ds, d.TypedArgument P U) ∧ bindingOfAll U ds = bindingOfAll T ds := by
  have hd : ∀ d ∈ ds, d.TypedArgument P U ∧ d.binding U = d.binding T := by
    refine fun d hd => (h d hd).mono (hT.mono fun i hi => ?_)
    rw [idsOfAll_eq_flatMap]
    exact List.mem_flatMap_of_mem hd hi
  exact ⟨fun d hm => (hd d hm).1, List.flatMap_congr fun d hm => (hd d hm).2⟩

/-- **A typed function stays typed** when more names are known and when other slots are filled. -/
theorem Function.Typed.mono {f : Function} {R : Ty} (hΓ : Γ.Le Δ) (hT : T.Agrees U f.ids)
    (h : f.Typed P T Γ R) : f.Typed P U Δ R := by
  obtain ⟨⟨hr, hauto, hp⟩, hargs, ⟨ps, hname⟩, hbody, hflow⟩ := h
  obtain ⟨hargs', hbinding⟩ :=
    VarDecl.arguments_mono (hT.mono (by simp [Function.ids, Signature.ids])) hargs
  refine ⟨⟨hT _ (by simp [Function.ids, Signature.ids]) _ hr, hauto, hp⟩, hargs',
    ⟨ps, hΓ _ _ hname⟩, ?_, hflow⟩
  rw [hbinding]
  exact hbody.mono (fun _ h => h) (hΓ.bindAll _) (hT.mono (by simp [Function.ids]))

end Mono

/-! ### The names behind declarations -/

section Settled

variable {P : Ty → Prop} {T : TypeTable} {Γ : Names}

namespace VarDecl

/-- The variables of a declaration of a settled type can be components. -/
theorem storable_typesOfNames (hP : Ty.Stable P) {d : VarDecl} {t : Ty} (ht : P t)
    (hv : t ≠ .void) :
    ∀ u ∈ d.typesOfNames t, Ty.Storable P u := by
  unfold typesOfNames
  split
  · simpa using hP.storable ht hv
  · cases t with
    | tuple ts => exact fun u hu => hP.again ht hu
    | _ => simpa [Ty.components] using hP.storable ht hv

/-- Behind a declaration the types of names are still settled. -/
theorem Typed.settled (hP : Ty.Stable P) {d : VarDecl} (h : d.Typed P T Γ) (hΓ : View.Settled P Γ) :
    View.Settled P (View.bindAll Γ (d.binding T)) := by
  obtain ⟨t, ⟨ht, hp⟩, hv, -⟩ := h
  rw [VarDecl.binding_eq ht]
  refine hΓ.bindAll fun b hb => ?_
  exact storable_typesOfNames hP hp hv b.2 (List.of_mem_zip (a := b.1) (b := b.2) hb).2

theorem AllTyped.settled (hP : Ty.Stable P) {ds : List VarDecl} (h : AllTyped P T Γ ds)
    (hΓ : View.Settled P Γ) : View.Settled P (View.bindAll Γ (bindingOfAll T ds)) := by
  induction ds generalizing Γ with
  | nil => exact hΓ
  | cons d ds ih =>
    rw [bindingOfAll, List.flatMap_cons, View.bindAll_append]
    exact ih h.2 (h.1.settled hP hΓ)

theorem settled_arguments (hP : Ty.Stable P) {ds : List VarDecl} (h : ∀ d ∈ ds, d.TypedArgument P T)
    (hΓ : View.Settled P Γ) : View.Settled P (View.bindAll Γ (bindingOfAll T ds)) := by
  refine hΓ.bindAll fun b hb => ?_
  obtain ⟨d, hd, hb⟩ := List.mem_flatMap.mp hb
  obtain ⟨hn, -, t, ht, hp, -, hv⟩ := h d hd
  rw [binding_argument hn ht] at hb
  obtain ⟨name, -, rfl⟩ := List.mem_map.mp hb
  exact hP.storable hp hv

end VarDecl

namespace LoopInit

theorem Typed.settled (hP : Ty.Stable P) {i : LoopInit} (h : i.Typed P T Γ)
    (hΓ : View.Settled P Γ) :
    View.Settled P (View.bindAll Γ (i.binding T)) := by
  cases i with
  | declare d => exact VarDecl.Typed.settled hP h hΓ
  | evaluate e => exact hΓ

theorem AllTyped.settled (hP : Ty.Stable P) {is : List LoopInit} (h : AllTyped P T Γ is)
    (hΓ : View.Settled P Γ) : View.Settled P (View.bindAll Γ (bindingOfAll T is)) := by
  induction is generalizing Γ with
  | nil => exact hΓ
  | cons i is ih =>
    rw [bindingOfAll, List.flatMap_cons, View.bindAll_append]
    exact ih h.2 (h.1.settled hP hΓ)

end LoopInit

end Settled

end PostfixCompiler
