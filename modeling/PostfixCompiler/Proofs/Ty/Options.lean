import PostfixCompiler.Proofs.Ty.Level

/-!
# Sides and options

Unification has a destination on its left and a value on its right, but only two of its options tell
them apart: those that say on which side an `int` may be widened. If these two are exchanged with
the sides, nothing changes. And each option only ever accepts more: it may lead unification along
another way, but never to a refusal.

## Main definitions

* `PostfixCompiler.CompatOptions.exchanged`: the options for the two sides exchanged.
* The order of sets of options: what is on in the smaller one is on in the larger one.

## Main statements

* `PostfixCompiler.Ty.sides_exchanged`: the sides can be exchanged, together with the options that
  tell them apart.
* `PostfixCompiler.Ty.options_accept_more`: what unifies with some options unifies with more of
  them.
-/

namespace PostfixCompiler

namespace CompatOptions

/-- The options for the two sides exchanged. -/
def exchanged (o : CompatOptions) : CompatOptions :=
  { o with intToDouble := o.doubleFromInt, doubleFromInt := o.intToDouble }

/-- **A set of options is smaller than another one** if each option that is on in it is on in the
other one. -/
instance : LE CompatOptions where
  le o o' := (o.intToDouble = true → o'.intToDouble = true) ∧
    (o.doubleFromInt = true → o'.doubleFromInt = true) ∧
    (o.fillAuto = true → o'.fillAuto = true) ∧ (o.voidPointer = true → o'.voidPointer = true) ∧
    (o.generalize = true → o'.generalize = true)

instance (o o' : CompatOptions) : Decidable (o ≤ o') := inferInstanceAs (Decidable (_ ∧ _))

/-- Below a pointer, too, the smaller set is the smaller one. -/
theorem throughPointer_mono {o o' : CompatOptions} (h : o ≤ o') :
    o.throughPointer ≤ o'.throughPointer :=
  ⟨nofun, nofun, h.2.2⟩

end CompatOptions

namespace Ty

variable {o o' : CompatOptions} {as bs : List Ty}

/-! ### The sides exchanged -/

theorem apart?_exchanged (o : CompatOptions) (a b : Ty) :
    apart? o a b = apart? o.exchanged b a := by
  cases a <;> cases b <;> rfl

/-- Of two pointers to `void` it does not matter which one is looked at first. -/
theorem pointerTo?_comm (o : CompatOptions) (a b : Ty) (below : Option Ty) :
    pointerTo? o a b below = pointerTo? o b a below := by
  unfold pointerTo?
  by_cases ha : a = .void <;> by_cases hb : b = .void
  · rw [ha, hb]
  all_goals simp only [ha, hb, and_true, and_false, if_false]

theorem compatibleAll?_exchanged : ∀ {as bs : List Ty},
    (∀ a ∈ as, ∀ b ∈ bs, a.compatible? o b = b.compatible? o.exchanged a) →
      compatibleAll? o as bs = compatibleAll? o.exchanged bs as
  | [], [], _ | [], _ :: _, _ | _ :: _, [], _ => rfl
  | a :: as, b :: bs, h => by
    have hrest : compatibleAll? o as bs = compatibleAll? o.exchanged bs as :=
      compatibleAll?_exchanged fun a ha b hb =>
        h a (List.mem_cons_of_mem _ ha) b (List.mem_cons_of_mem _ hb)
    rw [compatibleAll?, compatibleAll?, h a List.mem_cons_self b List.mem_cons_self, hrest]

/-- **The sides can be exchanged** on each level. -/
theorem levelwise_exchanged :
    Levelwise fun o a b => a.compatible? o b = b.compatible? o.exchanged a where
  left h := by rw [compatible?_singleton_left, compatible?_singleton_right, h]
  right h := by rw [compatible?_singleton_left, compatible?_singleton_right, h]
  apart ha hb h := by
    rw [compatible?_of_apart ha hb h, compatible?_of_apart hb ha h.symm, apart?_exchanged]
  pointer h := by
    -- No number is widened below a pointer, so there the options of the two sides are the same.
    rw [compatible?_pointer, compatible?_pointer, h, pointerTo?_comm]
    rfl
  tuple ha hb h := by
    rw [compatible?_tuple ha hb, compatible?_tuple hb ha, compatibleAll?_exchanged h]

/-- **The two sides of unification can be exchanged**, if the options that tell them apart are
exchanged with them. Where these are both on, as for the operands of an operator and for the returns
of a function, the sides are alike. -/
theorem sides_exchanged (a b : Ty) : (∀ o, a.compatible? o b = b.compatible? o.exchanged a) ∧
    a.compatible? .operator b = b.compatible? .operator a ∧
    a.compatible? .inference b = b.compatible? .inference a :=
  ⟨fun o => levelwise_exchanged.holds a o b, levelwise_exchanged.holds a .operator b,
    levelwise_exchanged.holds a .inference b⟩

/-! ### More options -/

theorem apart?_isSome_mono (h : o ≤ o') {a b : Ty} (hab : (apart? o a b).isSome) :
    (apart? o' a b).isSome := by
  obtain ⟨hint, hdouble, hauto, -⟩ := h
  cases a <;> cases b <;> simp_all [apart?]

/-- Two pointers unify if one of them is to `void` and that is enough, if what is below them
unifies, or if it need not unify. -/
theorem pointerTo?_isSome {a b : Ty} {below : Option Ty} : (pointerTo? o a b below).isSome ↔
    (o.voidPointer = true ∧ (a = .void ∨ b = .void)) ∨ below.isSome ∨ o.generalize = true := by
  unfold pointerTo?
  split
  · simp_all
  · split
    · simp_all
    · cases below <;> simp_all

/-- Tuples unify if their first components do and the others. -/
theorem compatibleAll?_cons_isSome {a b : Ty} : (compatibleAll? o (a :: as) (b :: bs)).isSome ↔
    (a.compatible? o b).isSome ∧ (compatibleAll? o as bs).isSome := by
  rw [compatibleAll?]
  cases a.compatible? o b <;> cases compatibleAll? o as bs <;> simp

theorem compatibleAll?_isSome_mono : ∀ {as bs : List Ty},
    (∀ a ∈ as, ∀ b ∈ bs, (a.compatible? o b).isSome → (a.compatible? o' b).isSome) →
      (compatibleAll? o as bs).isSome → (compatibleAll? o' as bs).isSome
  | [], [], _, _ => rfl
  | [], _ :: _, _, hall | _ :: _, [], _, hall => by cases hall
  | a :: as, b :: bs, h, hall => by
    rw [compatibleAll?_cons_isSome] at hall ⊢
    exact ⟨h a List.mem_cons_self b List.mem_cons_self hall.1, compatibleAll?_isSome_mono
      (fun a ha b hb => h a (List.mem_cons_of_mem _ ha) b (List.mem_cons_of_mem _ hb)) hall.2⟩

/-- **More options accept more** on each level. -/
theorem levelwise_accepts : Levelwise fun o a b => ∀ o', o ≤ o' →
    (a.compatible? o b).isSome → (a.compatible? o' b).isSome where
  left h o' ho := by
    rw [compatible?_singleton_left, compatible?_singleton_left]
    exact h o' ho
  right h o' ho := by
    rw [compatible?_singleton_right, compatible?_singleton_right]
    exact h o' ho
  apart ha hb h o' ho := by
    rw [compatible?_of_apart ha hb h, compatible?_of_apart ha hb h]
    exact apart?_isSome_mono ho
  pointer {o a b} h o' ho := by
    rw [compatible?_pointer, compatible?_pointer, pointerTo?_isSome, pointerTo?_isSome]
    have hbelow := h _ (CompatOptions.throughPointer_mono ho)
    obtain ⟨-, -, -, hvoid, hgeneralize⟩ := ho
    exact Or.imp (And.imp_left hvoid) (Or.imp hbelow hgeneralize)
  tuple ha hb h o' ho := by
    rw [compatible?_tuple ha hb, compatible?_tuple ha hb, Option.isSome_map, Option.isSome_map]
    exact compatibleAll?_isSome_mono fun a ha b hb => h a ha b hb o' ho

/-- **What unifies with some options unifies with more of them.** So what can be assigned can be an
initial value, and what can be either of them, or the operands of an operator, can be the returns of
one function. -/
theorem options_accept_more (a b : Ty) :
    (∀ o o', o ≤ o' → (a.compatible? o b).isSome → (a.compatible? o' b).isSome) ∧
    ((a.compatible? .assignment b).isSome → (a.compatible? .initializer b).isSome) ∧
    ((a.compatible? .assignment b).isSome ∨ (a.compatible? .initializer b).isSome ∨
      (a.compatible? .operator b).isSome →
      (a.compatible? .inference b).isSome) := by
  have hmore : ∀ o o', o ≤ o' → (a.compatible? o b).isSome → (a.compatible? o' b).isSome :=
    fun o o' ho => levelwise_accepts.holds a o b o' ho
  refine ⟨hmore, hmore _ _ (by decide), ?_⟩
  rintro (h | h | h)
  · exact hmore .assignment _ (by decide) h
  · exact hmore .initializer _ (by decide) h
  · exact hmore .operator _ (by decide) h

/-- A pair with an `int` for a `double` and a pointer for one to `void` can be assigned, so such
pairs can be returned. -/
theorem options_accept_more_pair :
    CompatOptions.assignment ≤ .inference ∧
    ((Ty.tuple [.double, genericPointer]).compatible? .assignment
      (.tuple [.int, .pointer .int])).isSome ∧
    ((Ty.tuple [.double, genericPointer]).compatible? .inference
      (.tuple [.int, .pointer .int])).isSome :=
  ⟨by decide, by decide, (options_accept_more _ _).1 .assignment .inference (by decide) (by decide)⟩

end Ty

end PostfixCompiler
