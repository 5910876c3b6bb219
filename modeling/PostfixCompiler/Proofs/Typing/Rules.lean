import PostfixCompiler.Proofs.Typing.Typed

/-!
# The rules of typing, node by node

`PostfixCompiler.Expr.Typed` follows an expression down to its leaves, and says no more than what
the passes behind the checker need. Here the rule of a single node is written out as the checker
applies it: a function from the types of the operands to the type of the node. A node is **derived**
if the rule, applied to the types that the table holds for the operands, gives the type that the
table holds for the node. So a table in which every node is derived holds no type that was computed
from an older type of an operand.

A typed node is derived, except for what `PostfixCompiler.Expr.Typed` does not keep: that the sides
of an assignment and the arguments of a call *unify* with what takes them, and that their types are
known. The rest is `PostfixCompiler.Expr.Settles`, and speaks of assignments and calls only.

## Main definitions

* `PostfixCompiler.Expr.operands`, `PostfixCompiler.Expr.Part`: what an expression is made of.
* `PostfixCompiler.Expr.rule?`: the type of a node, given those of its operands.
* `PostfixCompiler.Expr.Derived`: the table holds for a node what the rule gives.
* `PostfixCompiler.Expr.Settles`: what assignments and calls add to a typing.

## Main statements

* `PostfixCompiler.Expr.Typed.derived`: a typed node is derived.
* `PostfixCompiler.Expr.mem_ids`: the nodes of an expression are those of its parts.
* `PostfixCompiler.Expr.Typed.decided_operand`: the types of its operands are known.
-/

namespace PostfixCompiler

/-- Nothing is left open in the type. -/
abbrev Ty.Known (t : Ty) : Prop := t.containsAuto = false

namespace Expr

/-! ### Operands and parts -/

/-- The expressions that an expression is directly made of, from left to right. -/
def operands : Expr → List Expr
  | .integer .. | .double .. | .string .. | .nullptr _ | .input _ | .variable .. => []
  | .pointerIndex _ b i => [b, i]
  | .tupleIndex _ b _ => [b]
  | .rvalue _ p | .addressOf _ p => [p]
  | .assignment _ p v => [p, v]
  | .unary _ _ a => [a]
  | .binary _ _ l r => [l, r]
  | .stackAlloc _ n => [n]
  | .sizeof _ e => [e]
  | .tuple _ es | .call _ _ es => es

/-- **The parts of an expression**: the expression itself and the parts of its operands. -/
inductive Part (x : Expr) : Expr → Prop where
  /-- An expression is a part of itself. -/
  | self : Part x x
  /-- What is part of an operand is part of the whole. -/
  | inside {a e : Expr} (ha : a ∈ e.operands) (h : Part x a) : Part x e

/-- A part of an expression is the expression itself or an operand of a part. -/
theorem Part.eq_or_operand {x e : Expr} (h : x.Part e) :
    x = e ∨ ∃ y : Expr, y.Part e ∧ x ∈ y.operands := by
  induction h with
  | self => exact .inl rfl
  | @inside a e ha _ ih =>
    rcases ih with rfl | ⟨y, hy, hx⟩
    · exact .inr ⟨e, .self, ha⟩
    · exact .inr ⟨y, .inside ha hy, hx⟩

theorem ids_eq (e : Expr) : e.ids = e.id :: idsOfAll e.operands := by
  cases e <;> simp [ids, id, site, operands, idsOfAll]

theorem sublist_idsOfAll {e : Expr} {es : List Expr} (h : e ∈ es) :
    e.ids.Sublist (idsOfAll es) := by
  rw [idsOfAll_eq_flatMap, List.flatMap_def]
  exact List.sublist_flatten_of_mem (List.mem_map_of_mem h)

/-- The nodes of a part are among those of the whole, in the same order. -/
theorem Part.sublist_ids {x e : Expr} (h : x.Part e) : x.ids.Sublist e.ids := by
  induction h with
  | self => exact .refl _
  | @inside a e ha _ ih =>
    rw [ids_eq e]
    exact (ih.trans (sublist_idsOfAll ha)).cons _

/-- The nodes of an expression are those of its parts. -/
theorem mem_ids {i : NodeId} {e : Expr} : i ∈ e.ids ↔ ∃ x : Expr, x.Part e ∧ x.id = i := by
  constructor
  · intro hi
    induction hn : e.ids.length using Nat.strongRecOn generalizing e with
    | ind n ih =>
      rw [ids_eq, List.mem_cons, idsOfAll_eq_flatMap] at hi
      rcases hi with rfl | hi
      · exact ⟨e, .self, rfl⟩
      · obtain ⟨a, ha, hi⟩ := List.mem_flatMap.mp hi
        have hlength : a.ids.length < n := by
          rw [← hn, ids_eq e, List.length_cons]
          exact Nat.lt_succ_of_le (sublist_idsOfAll ha).length_le
        obtain ⟨x, hx, rfl⟩ := ih _ hlength hi rfl
        exact ⟨x, .inside ha hx, rfl⟩
  · rintro ⟨x, hx, rfl⟩
    exact hx.sublist_ids.subset x.id_mem_ids

variable {P : Ty → Prop} {T : TypeTable} {Γ : Names}

theorem Typed.operand {e a : Expr} (h : e.Typed P T Γ) (ha : a ∈ e.operands) : a.Typed P T Γ := by
  cases e with
  | integer | double | string | nullptr | input | «variable» => cases ha
  | tupleIndex | rvalue | unary | addressOf | stackAlloc | sizeof =>
    rw [List.mem_singleton.mp ha]
    exact h.1
  | pointerIndex | assignment | binary =>
    rcases List.mem_pair.mp ha with rfl | rfl
    · exact h.1.1
    · exact h.1.2
  | tuple | call => exact allTyped_iff.mp h.1 a ha

/-- The parts of a typed expression are typed. -/
theorem Typed.part {e x : Expr} (hx : x.Part e) (h : e.Typed P T Γ) : x.Typed P T Γ := by
  induction hx with
  | self => exact h
  | inside ha _ ih => exact ih (h.operand ha)

/-- In the operands of an expression everything is where it belongs if that is so in the
expression. -/
theorem WellPlaced.operand {e a : Expr} (h : e.WellPlaced) (ha : a ∈ e.operands) :
    a.WellPlaced := by
  cases e with
  | integer | double | string | nullptr | input | «variable» => cases ha
  | tupleIndex | sizeof =>
    rw [List.mem_singleton.mp ha]
    exact h
  | rvalue | unary | addressOf | stackAlloc =>
    rw [List.mem_singleton.mp ha]
    exact h.2
  | pointerIndex | assignment | binary =>
    rcases List.mem_pair.mp ha with rfl | rfl
    · exact h.1.2
    · exact h.2.2
  | tuple | call => exact ((allValues_iff _).mp h a ha).2

theorem WellPlaced.part {e x : Expr} (hx : x.Part e) (h : e.WellPlaced) : x.WellPlaced := by
  induction hx with
  | self => exact h
  | inside ha _ ih => exact ih (h.operand ha)

/-! ### The rule of a node -/

/-- **The rule of a node**: its type, given the types of its operands. A number from the input and
fresh memory take the type that is recorded for them, if they can have it, and a call does as
well. -/
def rule? (Γ : Names) (recorded : Ty) : Expr → List Ty → Option Ty
  | .integer .., [] => some .int
  | .double .., [] => some .double
  | .string .., [] => some .string
  | .nullptr _, [] => some .genericPointer
  | .input _, [] => if recorded = .int ∨ recorded = .double then some recorded else none
  | .variable _ name, [] =>
    match Γ name with
    | some (.variable t) => some t
    | _ => none
  | .pointerIndex .., [.pointer t, i] =>
    if (Ty.pointer t).Known ∧ t ≠ .void ∧ i = .int then some t else none
  | .tupleIndex _ _ index, [.tuple ts] =>
    if (Ty.tuple ts).Known ∧ 1 ≤ index.toInt then ts[index.toInt.toNat - 1]? else none
  | .rvalue .., [t] => some t
  | .assignment .., [t, u] =>
    if t.Known ∧ t.isTuple = false ∧
      u.isTuple = false then (t.compatible? .assignment u).map fun _ => t
    else none
  | .unary _ op _, [t] => if t.Known ∧ op.accepts t = true then some t else none
  | .binary _ op _ _, [t, u] => if t.Known ∧ u.Known then op.resultType? t u else none
  | .addressOf .., [t] => if t.Known then some (.pointer t) else none
  | .stackAlloc .., [n] => if n = .int ∧ recorded.isPointer = true then some recorded else none
  | .sizeof .., [_] => some .int
  | .tuple .., ts => if ts ≠ [] ∧ ∀ t ∈ ts, t.Known ∧
      t ≠ .void then some (.ofComponents ts) else none
  | .call _ name args, ts =>
    match Γ name with
    | some (.function ps) =>
      if ps.length = args.length ∧ recorded ≠ .auto then
        ((Ty.tuple ps).compatible? .assignment (.tuple ts)).map fun _ => recorded
      else none
    | _ => none
  | _, _ => none

/-- **The table holds for a node what its rule gives**, applied to what the table holds for the
operands. -/
def Derived (T : TypeTable) (Γ : Names) (e : Expr) : Prop :=
  ∃ ts t, List.Forall₂ (fun a t => T.get? (id a) = some t) e.operands ts ∧ T.get? e.id = some t ∧
    e.rule? Γ t ts = some t

/-- The table holds a type for the node, and nothing is left open in it. -/
def Decided (T : TypeTable) (e : Expr) : Prop := ∃ t, T.get? e.id = some t ∧ t.Known

/-! ### Assignments and calls -/

/-- **What assignments and calls add to a typing.** The sides of an assignment unify, and so do the
arguments of a call with parameters, for a function of which `A` says that it has that name, these
parameters and this type. All types are known. -/
def Settles (A : String → List Ty → Ty → Prop) (T : TypeTable) : Expr → Prop
  | .assignment _ p v => ∃ t u, T.get? p.id = some t ∧ (T.get? v.id = some u ∧ u.Known) ∧
      (t.compatible? .assignment u).isSome = true
  | .call s name args => ∃ ps ts t, A name ps t ∧ T.get? s.id = some t ∧
      List.Forall₂ (fun a u => T.get? (id a) = some u ∧ u.Known) args ts ∧
      ((Ty.tuple ps).compatible? .assignment (.tuple ts)).isSome = true
  | _ => True

theorem Settles.imp {A B : String → List Ty → Ty → Prop}
    (hA : ∀ {name ps t}, A name ps t → B name ps t) {e : Expr} (h : e.Settles A T) :
    e.Settles B T := by
  cases e with
  | call =>
    obtain ⟨ps, ts, t, ha, hrest⟩ := h
    exact ⟨ps, ts, t, hA ha, hrest⟩
  | _ => exact h

variable {A : String → List Ty → Ty → Prop}

/-- **A typed node is derived.** -/
theorem Typed.derived {e : Expr} (hΓ : View.Settled Ty.Known Γ) (h : e.Typed Ty.Known T Γ)
    (hs : e.Settles A T)
    (hA : ∀ {name ps qs t}, A name ps t → Γ name = some (.function qs) → qs = ps) :
    e.Derived T Γ := by
  cases e with
  | integer | double | string | nullptr => exact ⟨[], _, .nil, h, rfl⟩
  | input => exact h.elim (fun h => ⟨[], _, .nil, h, rfl⟩) fun h => ⟨[], _, .nil, h, rfl⟩
  | «variable» s name =>
    obtain ⟨t, hname, ht⟩ := h
    exact ⟨[], t, .nil, ht, by simp [rule?, hname]⟩
  | pointerIndex =>
    obtain ⟨-, hi, t, ⟨hb, hk⟩, hv, ht⟩ := h
    exact ⟨[_, _], t, .cons hb (.cons hi .nil), ht, if_pos ⟨hk, hv, rfl⟩⟩
  | tupleIndex =>
    obtain ⟨-, ts, t, ⟨hb, hk⟩, ⟨hpos, hget⟩, ht⟩ := h
    exact ⟨[_], t, .cons hb .nil, ht, (if_pos ⟨hk, hpos⟩).trans hget⟩
  | rvalue =>
    obtain ⟨-, t, ⟨hp, -⟩, ht⟩ := h
    exact ⟨[t], t, .cons hp .nil, ht, rfl⟩
  | assignment =>
    obtain ⟨-, t, u, ⟨hp, hk⟩, hv, ⟨htt, htu⟩, -, ht⟩ := h
    obtain ⟨t', u', hp', ⟨hv', -⟩, hcompatible⟩ := hs
    obtain rfl := Option.some.inj (hp.symm.trans hp')
    obtain rfl := Option.some.inj (hv.symm.trans hv')
    obtain ⟨w, hw⟩ := Option.isSome_iff_exists.mp hcompatible
    exact ⟨[t, u], t, .cons hp (.cons hv .nil), ht, by simp [rule?, hk, htt, htu, hw]⟩
  | unary =>
    obtain ⟨-, t, ⟨ha, hk⟩, hop, ht⟩ := h
    exact ⟨[t], t, .cons ha .nil, ht, if_pos ⟨hk, hop⟩⟩
  | binary =>
    obtain ⟨-, t, u, v, ⟨hl, hkt⟩, ⟨hr, hku⟩, hop, ht⟩ := h
    exact ⟨[t, u], v, .cons hl (.cons hr .nil), ht, (if_pos ⟨hkt, hku⟩).trans hop⟩
  | addressOf =>
    obtain ⟨-, t, ⟨hp, hk⟩, ht⟩ := h
    exact ⟨[t], _, .cons hp .nil, ht, if_pos hk⟩
  | stackAlloc =>
    obtain ⟨-, hn, t, ht⟩ := h
    exact ⟨[_], _, .cons hn .nil, ht, rfl⟩
  | sizeof s e =>
    obtain ⟨u, hu, -⟩ := h.1.exists_type Ty.stable_known hΓ
    exact ⟨[u], _, .cons hu .nil, h.2, rfl⟩
  | tuple s es =>
    obtain ⟨-, ts, hne, hts, ht⟩ := h
    refine ⟨ts, _, hts.imp fun a t ha => ?_, ht, if_pos ⟨hne, fun t ht => ?_⟩⟩
    · obtain ⟨u, hu, rfl, -⟩ := ha
      exact hu
    · obtain ⟨-, -, u, -, rfl, hu⟩ := exists_of_mem_right hts ht
      exact hu
  | call s name args =>
    obtain ⟨-, qs, t, hname, hqs, ⟨hauto, -⟩, ht⟩ := h
    obtain ⟨ps, ts, t', ha, ht', hargs, hcompatible⟩ := hs
    obtain rfl := Option.some.inj (ht.symm.trans ht')
    obtain rfl := hA ha hname
    obtain ⟨w, hw⟩ := Option.isSome_iff_exists.mp hcompatible
    refine ⟨ts, t, hargs.imp fun _ _ => And.left, ht, ?_⟩
    simp [rule?, hname, hqs.length_eq, hauto, hw]

/-- **The types of the operands of a typed node are known**, except that fresh memory of which only
the size is asked for is given no type. -/
theorem Typed.decided_operand {e a : Expr} (hΓ : View.Settled Ty.Known Γ) (h : e.Typed Ty.Known T Γ)
    (hs : e.Settles A T) (ha : a ∈ e.operands) :
    a.Decided T ∨ (a.isFresh = true ∧ ∃ site, e = .sizeof site a) := by
  by_cases hfresh : a.isFresh = false
  · exact .inl ((h.operand ha).exists_settled Ty.stable_known hΓ hfresh)
  cases e with
  | integer | double | string | nullptr | input | «variable» => cases ha
  | pointerIndex =>
    obtain ⟨-, hi, t, hb, -⟩ := h
    rcases List.mem_pair.mp ha with rfl | rfl
    · exact .inl ⟨_, hb⟩
    · exact .inl ⟨_, hi, rfl⟩
  | tupleIndex =>
    obtain ⟨-, ts, t, hb, -⟩ := h
    exact .inl (List.mem_singleton.mp ha ▸ ⟨_, hb⟩)
  | rvalue | unary | addressOf =>
    obtain ⟨-, t, hp, -⟩ := h
    exact .inl (List.mem_singleton.mp ha ▸ ⟨t, hp⟩)
  | assignment =>
    obtain ⟨-, t, u, hp, -⟩ := h
    obtain ⟨-, u', -, hv, -⟩ := hs
    rcases List.mem_pair.mp ha with rfl | rfl
    · exact .inl ⟨t, hp⟩
    · exact .inl ⟨u', hv⟩
  | binary =>
    obtain ⟨-, t, u, v, hl, hr, -⟩ := h
    rcases List.mem_pair.mp ha with rfl | rfl
    · exact .inl ⟨t, hl⟩
    · exact .inl ⟨u, hr⟩
  | stackAlloc =>
    obtain ⟨-, hn, -⟩ := h
    exact .inl (List.mem_singleton.mp ha ▸ ⟨_, hn, rfl⟩)
  | sizeof site =>
    obtain rfl := List.mem_singleton.mp ha
    exact .inr ⟨by simpa using hfresh, site, rfl⟩
  | tuple =>
    obtain ⟨-, ts, -, hts, -⟩ := h
    obtain ⟨t, -, u, hu, rfl, hk, -⟩ := exists_of_mem_left hts ha
    exact .inl ⟨u, hu, hk⟩
  | call =>
    obtain ⟨-, ts, -, -, -, hargs, -⟩ := hs
    obtain ⟨u, -, hu⟩ := exists_of_mem_left hargs ha
    exact .inl ⟨u, hu⟩

end Expr

end PostfixCompiler
