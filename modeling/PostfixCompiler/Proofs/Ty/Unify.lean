import PostfixCompiler.Ty.Compatible

/-!
# Unification, read backwards

Unification looks through one-component tuples on both sides, and then asks what the two types are.
When it succeeds there are only seven ways in which it can have done so, and every fact about the
unified type goes through them.

## Main definitions

* `PostfixCompiler.Ty.IsPlural`: the type is no one-component tuple.
* `PostfixCompiler.Ty.Unifies`: how two such types unify.

## Main statements

* `PostfixCompiler.Ty.unifies_of_compatible`: the ways in which unification succeeds are all there.
-/

namespace PostfixCompiler.Ty

/-! ### One-component tuples -/

theorem stripped_singleton (t : Ty) : (Ty.tuple [t]).stripped = t.stripped := by
  rw [stripped]

/-- The type is no one-component tuple. -/
def IsPlural : Ty → Prop
  | .tuple [_] => False
  | _ => True

theorem stripped_of_isPlural {t : Ty} (h : t.IsPlural) : t.stripped = t := by
  rw [stripped]
  rintro u rfl
  exact h

/-- Inside the one-component tuples there is none. -/
theorem isPlural_stripped (t : Ty) : t.stripped.IsPlural := by
  fun_induction stripped t with
  | case1 t ih => exact ih
  | case2 t h =>
    unfold IsPlural
    split
    · exact h _ rfl
    · trivial

/-- A fact about a type that does not see one-component tuples is one about the type inside them. -/
theorem iff_stripped {motive : Ty → Prop} (h : ∀ t, motive (.tuple [t]) ↔ motive t) (t : Ty) :
    motive t ↔ motive t.stripped := by
  fun_induction stripped t with
  | case1 t ih => exact (h t).trans ih
  | case2 t => exact Iff.rfl

/-! ### The ways to unify -/

/-- What the types below two pointers give below the unified one. -/
inductive UnifiesBelow (o : CompatOptions) (a b : Ty) : Ty → Prop where
  /-- A pointer to `void` becomes the pointer on the right. -/
  | fromLeft (h : a = .void) : UnifiesBelow o a b b
  /-- A pointer to `void` becomes the pointer on the left. -/
  | fromRight (h : b = .void) : UnifiesBelow o a b a
  /-- What they refer to unifies. -/
  | both {c : Ty} (h : a.compatible? o.throughPointer b = some c) : UnifiesBelow o a b c
  /-- They disagree, and nothing is known of what the unified one refers to. -/
  | generic : UnifiesBelow o a b .void

/-- How two types unify that are no one-component tuples. -/
inductive Unifies (o : CompatOptions) : Ty → Ty → Ty → Prop where
  /-- The left type is still open. -/
  | fillLeft {b : Ty} (h : o.fillAuto = true) : Unifies o .auto b b
  /-- The right type is still open. -/
  | fillRight {a : Ty} (h : o.fillAuto = true) : Unifies o a .auto a
  /-- The types are the same scalar. -/
  | scalar {a : Ty} (h : a = .void ∨ a = .int ∨ a = .double ∨ a = .string) : Unifies o a a a
  /-- An `int` on the left is widened. -/
  | widenLeft (h : o.intToDouble = true) : Unifies o .int .double .double
  /-- An `int` on the right is widened. -/
  | widenRight (h : o.doubleFromInt = true) : Unifies o .double .int .double
  /-- The types are pointers. -/
  | pointer {a b c : Ty} (h : UnifiesBelow o a b c) :
    Unifies o (.pointer a) (.pointer b) (.pointer c)
  /-- The types are tuples that unify component by component. -/
  | tuple {as bs ts : List Ty} (h : compatibleAll? o as bs = some ts) :
    Unifies o (.tuple as) (.tuple bs) (.tuple ts)

theorem compatible?_stripped (o : CompatOptions) (a b : Ty) :
    a.compatible? o b = a.stripped.compatible? o b.stripped := by
  fun_induction stripped a with
  | case1 a ih =>
    rw [compatible?]
    exact ih
  | case2 a h =>
    unfold compatible?
    rw [stripped_of_isPlural (isPlural_stripped b)]
    match a, h with
    | .tuple [t], h => exact (h t rfl).elim
    | .tuple [], _ | .tuple (_ :: _ :: _), _ | .void, _ | .int, _ | .double, _ | .string, _
    | .pointer _, _ | .auto, _ => rfl

theorem unifies_pointer {o : CompatOptions} {a b t : Ty}
    (h : (if o.voidPointer ∧ a = .void then some (.pointer b)
      else if o.voidPointer ∧ b = .void then some (.pointer a)
      else
        match a.compatible? o.throughPointer b with
        | some t => some (.pointer t)
        | none => if o.generalize then some genericPointer else none) = some t) :
    Unifies o (.pointer a) (.pointer b) t := by
  split at h
  · rename_i hv
    cases h
    exact .pointer (.fromLeft hv.2)
  · split at h
    · rename_i hv
      cases h
      exact .pointer (.fromRight hv.2)
    · cases hc : a.compatible? o.throughPointer b with
      | some c =>
        rw [hc] at h
        cases h
        exact .pointer (.both hc)
      | none =>
        rw [hc] at h
        have ht := (Option.ite_none_right_eq_some.mp h).2
        cases ht
        exact .pointer .generic

/-- **Unification, read backwards.** -/
theorem unifies_of_compatible {o : CompatOptions} {a b t : Ty} (h : a.compatible? o b = some t) :
    Unifies o a.stripped b.stripped t := by
  rw [compatible?_stripped] at h
  have ha := isPlural_stripped a
  have hb := isPlural_stripped b
  generalize a.stripped = a at *
  generalize b.stripped = b at *
  unfold compatible? at h
  split at h
  · exact ha.elim
  · rw [stripped_of_isPlural hb] at h
    split at h
    · obtain ⟨ho, h⟩ := Option.ite_none_right_eq_some.mp h
      cases h
      exact .fillLeft ho
    · obtain ⟨ho, h⟩ := Option.ite_none_right_eq_some.mp h
      cases h
      exact .fillRight ho
    · cases h
      exact .scalar (.inl rfl)
    · cases h
      exact .scalar (.inr (.inl rfl))
    · cases h
      exact .scalar (.inr (.inr (.inl rfl)))
    · cases h
      exact .scalar (.inr (.inr (.inr rfl)))
    · obtain ⟨ho, h⟩ := Option.ite_none_right_eq_some.mp h
      cases h
      exact .widenLeft ho
    · obtain ⟨ho, h⟩ := Option.ite_none_right_eq_some.mp h
      cases h
      exact .widenRight ho
    · exact unifies_pointer h
    · obtain ⟨ts, hts, rfl⟩ := Option.map_eq_some_iff.mp h
      exact .tuple hts
    · cases h

end PostfixCompiler.Ty
