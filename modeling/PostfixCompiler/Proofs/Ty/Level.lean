import PostfixCompiler.Proofs.Ty.Unify

/-!
# Unification, level by level

Unification looks through one-component tuples on both sides, and what it does then is one of three
things. Two pointers are unified from what the types below them unify to, two tuples from what their
components unify to, and any other two types are **apart**: there is nothing below them that would
be unified. Each of the three has an equation here, so that laws of unification are laws of these
three.

What is to be shown of all pairs of types is shown along the same lines. The induction is done here
once and for all: a law has only to say why it holds on one level.

## Main definitions

* `PostfixCompiler.Ty.Apart`, `PostfixCompiler.Ty.apart?`: types with nothing below that is unified,
  and what they unify to.
* `PostfixCompiler.Ty.pointerTo?`: the pointer that two pointers unify to.
* `PostfixCompiler.Ty.Levelwise`: a relation between types that can be followed level by level.

## Main statements

* `PostfixCompiler.Ty.compatible?_of_apart`, `PostfixCompiler.Ty.compatible?_pointer`,
  `PostfixCompiler.Ty.compatible?_tuple`: the three ways to unify.
* `PostfixCompiler.Ty.Levelwise.holds`: a relation that can be followed level by level is between
  all types.
-/

namespace PostfixCompiler.Ty

variable {o : CompatOptions} {a b : Ty} {as bs : List Ty}

/-! ### Three ways to unify -/

/-- **Two types are apart**: they are neither two pointers nor two tuples. -/
def Apart : Ty → Ty → Prop
  | .pointer _, .pointer _ | .tuple _, .tuple _ => False
  | _, _ => True

theorem Apart.symm (h : Apart a b) : Apart b a := by
  cases a <;> cases b <;> trivial

/-- What two types unify to that are apart. -/
def apart? (o : CompatOptions) : Ty → Ty → Option Ty
  | .auto, b => if o.fillAuto then some b else none
  | a, .auto => if o.fillAuto then some a else none
  | .void, .void => some .void
  | .int, .int => some .int
  | .double, .double => some .double
  | .string, .string => some .string
  | .int, .double => if o.intToDouble then some .double else none
  | .double, .int => if o.doubleFromInt then some .double else none
  | _, _ => none

/-- The pointer that two pointers unify to, if the types below them unify as given. -/
def pointerTo? (o : CompatOptions) (a b : Ty) (below : Option Ty) : Option Ty :=
  if o.voidPointer ∧ a = .void then some (.pointer b)
  else if o.voidPointer ∧ b = .void then some (.pointer a)
  else (below.map .pointer).or (if o.generalize then some genericPointer else none)

theorem compatible?_singleton_left (a b : Ty) :
    (Ty.tuple [a]).compatible? o b = a.compatible? o b := by
  rw [compatible?]

theorem compatible?_singleton_right (a b : Ty) :
    a.compatible? o (.tuple [b]) = a.compatible? o b := by
  rw [compatible?_stripped, stripped_singleton, ← compatible?_stripped]

/-- **Types that are apart are compared at once.** -/
theorem compatible?_of_apart (ha : a.IsPlural) (hb : b.IsPlural) (h : Apart a b) :
    a.compatible? o b = apart? o a b := by
  unfold compatible?
  rw [stripped_of_isPlural hb]
  match a, ha with
  | .tuple [], _ | .tuple (_ :: _ :: _), _ | .void, _ | .int, _ | .double, _
  | .string, _ | .pointer _, _ | .auto, _ => cases b <;> first | rfl | exact h.elim

/-- **Two pointers unify from what is below them.** -/
theorem compatible?_pointer (a b : Ty) :
    (Ty.pointer a).compatible? o (.pointer b) =
      pointerTo? o a b (a.compatible? o.throughPointer b) := by
  conv => lhs; unfold compatible?
  rw [stripped_of_isPlural (t := .pointer b) trivial, pointerTo?]
  dsimp only
  cases a.compatible? o.throughPointer b <;> rfl

/-- **Two tuples unify component by component.** -/
theorem compatible?_tuple (ha : (Ty.tuple as).IsPlural) (hb : (Ty.tuple bs).IsPlural) :
    (Ty.tuple as).compatible? o (.tuple bs) = (compatibleAll? o as bs).map .tuple := by
  unfold compatible?
  rw [stripped_of_isPlural hb]
  match as, ha with
  | [], _ | _ :: _ :: _, _ => rfl

/-- A tuple is no one-component tuple if it has not just one component. -/
theorem isPlural_tuple : (Ty.tuple as).IsPlural ↔ as.length ≠ 1 := by
  match as with
  | [] | [_] | _ :: _ :: _ => simp [IsPlural]

/-- Tuples unify to a tuple with as many components. -/
theorem length_of_compatibleAll? :
    ∀ {as bs ts : List Ty}, compatibleAll? o as bs = some ts → ts.length = as.length
  | [], [], _, h => by
    cases h
    rfl
  | [], _ :: _, _, h | _ :: _, [], _, h => by cases h
  | a :: as, b :: bs, ts, h => by
    rw [compatibleAll?] at h
    obtain ⟨t, -, h⟩ := Option.bind_eq_some_iff.mp h
    obtain ⟨us, hus, h⟩ := Option.bind_eq_some_iff.mp h
    cases h
    rw [List.length_cons, List.length_cons, length_of_compatibleAll? hus]

/-! ### Level by level -/

/-- **A relation between types that can be followed level by level**: it does not see one-component
tuples, and between two pointers and between two tuples it follows from the levels below. -/
structure Levelwise (R : CompatOptions → Ty → Ty → Prop) : Prop where
  /-- A one-component tuple on the left is looked through. -/
  left : ∀ {o a b}, R o a b → R o (.tuple [a]) b
  /-- A one-component tuple on the right is looked through. -/
  right : ∀ {o a b}, R o a b → R o a (.tuple [b])
  /-- Of types that are apart nothing below is looked at. -/
  apart : ∀ {o a b}, a.IsPlural → b.IsPlural → Apart a b → R o a b
  /-- Of pointers it is what they refer to, with the options that are meant for it. -/
  pointer : ∀ {o a b}, R o.throughPointer a b → R o (.pointer a) (.pointer b)
  /-- Of tuples it is the components. -/
  tuple : ∀ {o as bs}, (Ty.tuple as).IsPlural → (Ty.tuple bs).IsPlural →
    (∀ a ∈ as, ∀ b ∈ bs, R o a b) →
    R o (.tuple as) (.tuple bs)

namespace Levelwise

variable {R : CompatOptions → Ty → Ty → Prop}

/-- It is enough to look at the type inside the one-component tuples on the right. -/
theorem of_isPlural (h : Levelwise R) (hb : ∀ b, b.IsPlural → R o a b) (b : Ty) : R o a b := by
  have hstripped := hb _ (isPlural_stripped b)
  fun_induction stripped b with
  | case1 b ih => exact h.right (ih hstripped)
  | case2 b => exact hstripped

mutual

/-- **Such a relation is between all types.** -/
theorem holds (h : Levelwise R) : ∀ (a : Ty) (o : CompatOptions) (b : Ty), R o a b
  | .tuple as, o, b => by
    by_cases ha : (Ty.tuple as).IsPlural
    · refine h.of_isPlural (fun b hb => ?_) b
      cases b with
      | tuple bs => exact h.tuple ha hb fun a ha b _ => h.holdsOfAll as a ha o b
      | _ => exact h.apart ha hb trivial
    · match as with
      | [] | _ :: _ :: _ => exact absurd trivial ha
      | [a] => exact h.left (h.holds a o b)
  | .pointer a, o, b => by
    refine h.of_isPlural (fun b hb => ?_) b
    cases b with
    | pointer b => exact h.pointer (h.holds a _ b)
    | _ => exact h.apart trivial hb trivial
  | .void, o, b | .int, o, b | .double, o, b | .string, o, b | .auto, o, b =>
    h.of_isPlural (fun _ hb => h.apart (by trivial) hb (by trivial)) b

/-- As `holds`, for the components of a tuple. -/
theorem holdsOfAll (h : Levelwise R) :
    ∀ (as : List Ty), ∀ a ∈ as, ∀ (o : CompatOptions) (b : Ty), R o a b
  | [], _, ha => absurd ha List.not_mem_nil
  | u :: as, a, ha => by
    rcases List.mem_cons.mp ha with heq | ha
    · exact heq ▸ h.holds u
    · exact h.holdsOfAll as a ha

end

end Levelwise

end PostfixCompiler.Ty
