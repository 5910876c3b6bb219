import PostfixCompiler.Proofs.Ty.Flatten
import PostfixCompiler.Proofs.Ty.Stable

/-!
# Pointers that find their target

A location of a written type does not change its type for the sake of the value that it starts with:
an `int` in the place of a `double` is converted, and one-component tuples are looked through. A
pointer to `void` is the exception. It is the type of a pointer of which nothing is known, and a
value that is a pointer to something tells what it refers to. So what a written type and the type of
a value unify to is the written type in which each pointer to `void` has become the pointer that
stands at the same place in the type of the value.

## Main definitions

* `PostfixCompiler.Ty.targeted`: a type whose pointers to `void` become those at the same places of
  another type.
* `PostfixCompiler.Ty.refersToVoid`: there is a pointer to `void` in the type.

## Main statements

* `PostfixCompiler.Ty.flatten_of_compatible`: this is what a written type and the type of a value
  unify to.
* `PostfixCompiler.Ty.targeted_eq_self`: a type in which no pointer refers to `void` stays what it
  is.
-/

namespace PostfixCompiler.Ty

variable {o : CompatOptions} {a b t : Ty} {as bs ts : List Ty}

mutual

/-- **The type with targets taken from another type**: a pointer to `void` becomes the pointer that
stands at its place there, unless it is not known either what that one refers to. -/
def targeted : Ty → Ty → Ty
  | .pointer .void, .pointer b => if b = .auto then genericPointer else .pointer b
  | .pointer a, .pointer b => .pointer (a.targeted b)
  | .tuple as, .tuple bs => .tuple (targetedAll as bs)
  | a, _ => a

/-- The types with targets taken from other types, position by position. -/
def targetedAll : List Ty → List Ty → List Ty
  | a :: as, b :: bs => a.targeted b :: targetedAll as bs
  | as, _ => as

end

mutual

/-- There is a pointer to `void` in the type, below pointers and inside tuples too. -/
def refersToVoid : Ty → Bool
  | .pointer .void => true
  | .pointer t => t.refersToVoid
  | .tuple ts => anyRefersToVoid ts
  | _ => false

/-- There is a pointer to `void` in one of the types. -/
def anyRefersToVoid : List Ty → Bool
  | [] => false
  | t :: ts => t.refersToVoid || anyRefersToVoid ts

end

/-! ### Types that are apart, pointers and tuples -/

/-- A type finds no target in one that it is apart from. -/
theorem targeted_of_apart (h : Apart a b) : a.targeted b = a := by
  cases a <;> cases b <;> simp_all [targeted, Apart]

theorem targeted_pointer (h : a ≠ .void) :
    (Ty.pointer a).targeted (.pointer b) = .pointer (a.targeted b) := by
  cases a <;> simp_all [targeted]

theorem targeted_genericPointer (h : b ≠ .auto) :
    genericPointer.targeted (.pointer b) = .pointer b := by
  rw [genericPointer, targeted, if_neg h]

/-- From `void` there is no target to take. -/
theorem targeted_void (a : Ty) : a.targeted .void = a := targeted_of_apart (by cases a <;> trivial)

mutual

/-- **A type in which no pointer refers to `void` stays what it is.** -/
theorem targeted_eq_self : ∀ {a b : Ty}, a.refersToVoid = false → a.targeted b = a
  | .pointer a, b, h => by
    by_cases ha : a = .void
    · subst ha
      cases h
    · have hbelow : a.refersToVoid = false := by
        rw [← h, refersToVoid]
        exact ha
      cases b with
      | pointer b => rw [targeted_pointer ha, targeted_eq_self hbelow]
      | _ => exact targeted_of_apart trivial
  | .tuple as, b, h => by
    cases b with
    | tuple bs => rw [targeted, targetedAll_eq_self h]
    | _ => exact targeted_of_apart trivial
  | .void, _, _ | .int, _, _ | .double, _, _ | .string, _, _
  | .auto, _, _ => targeted_of_apart trivial

/-- As `targeted_eq_self`, for several types. -/
theorem targetedAll_eq_self :
    ∀ {as bs : List Ty}, anyRefersToVoid as = false → targetedAll as bs = as
  | [], _, _ | _ :: _, [], _ => rfl
  | a :: as, b :: bs, h => by
    rw [anyRefersToVoid, Bool.or_eq_false_iff] at h
    rw [targetedAll, targeted_eq_self h.1, targetedAll_eq_self h.2]

end

/-! ### What a written type unifies to -/

/-- The options with which a written type meets the type of a value: it keeps its shape whatever the
value is. -/
structure KeepsLeft (o : CompatOptions) : Prop where
  /-- No `int` is widened in the written type. -/
  keepsInt : o.intToDouble = false
  /-- No pointer is given up for a pointer to `void`. -/
  keepsPointer : o.generalize = false

theorem KeepsLeft.initializer : KeepsLeft .initializer := ⟨rfl, rfl⟩

theorem KeepsLeft.throughPointer (h : KeepsLeft o) : KeepsLeft o.throughPointer :=
  ⟨rfl, h.keepsPointer⟩

/-- Of types that are apart the written one stays. -/
theorem KeepsLeft.apart (ho : KeepsLeft o) (ha : a.containsAuto = false)
    (h : apart? o a b = some t) : t = a := by
  cases a <;> cases b <;>
    simp_all [apart?, containsAuto, ho.keepsInt]

/-- Nothing but `void` unifies with `void`, or a type that is not known. -/
theorem flatten_of_void_compatible (ha : a.flatten = .void) (h : a.compatible? o b = some t) :
    b.flatten = .void ∨ b.flatten = .auto := by
  rw [compatible?_stripped, flatten_eq_void.mp ha] at h
  rw [← flatten_stripped b]
  have hb := isPlural_stripped b
  cases hs : b.stripped with
  | void => exact .inl rfl
  | auto => exact .inr rfl
  | _ =>
    rw [hs] at h hb
    rw [compatible?_of_apart (a := .void) trivial hb trivial] at h
    cases h

/-- A type without one-component tuples that is not known was not known with them. -/
theorem containsAuto_of_flatten (h : b.flatten = .auto) : b.containsAuto = true := by
  rw [← Bool.not_eq_false]
  intro hknown
  have hs := stable_known.stripped hknown
  rw [← flatten_stripped] at h
  have hb := isPlural_stripped b
  cases hb' : b.stripped with
  | auto =>
    rw [hb'] at hs
    cases hs
  | tuple ts =>
    rw [hb'] at h hb
    rw [flatten_tuple hb] at h
    cases h
  | _ =>
    rw [hb'] at h
    cases h

/-- **Pointers unify to the written one with its target**, if what is below them does. -/
theorem flatten_of_pointerTo (ho : KeepsLeft o) (hknown : t.containsAuto = false)
    (ht : pointerTo? o a b (a.compatible? o.throughPointer b) = some t)
    (hbelow : ∀ u, a.compatible? o.throughPointer b = some u → u.containsAuto = false →
      u.flatten = a.flatten.targeted b.flatten) :
    t.flatten = (Ty.pointer a.flatten).targeted (.pointer b.flatten) := by
  rw [pointerTo?, ho.keepsPointer] at ht
  split at ht
  · -- The written pointer is one to `void`, so it takes its target from the value.
    rename_i hvoid
    obtain rfl := Option.some.inj ht
    have hb : b.flatten ≠ .auto := fun hauto => by
      have hb : b.containsAuto = false := hknown
      rw [containsAuto_of_flatten hauto] at hb
      cases hb
    rw [hvoid.2]
    exact (targeted_genericPointer hb).symm
  · split at ht
    · rename_i hvoid
      obtain rfl := Option.some.inj ht
      rw [hvoid.2, flatten, flatten]
      by_cases ha : a.flatten = .void
      · rw [ha]
        rfl
      · rw [targeted_pointer ha, targeted_void]
    · cases hu : a.compatible? o.throughPointer b with
      | none =>
        rw [hu] at ht
        cases ht
      | some u =>
        rw [hu] at ht
        obtain rfl := Option.some.inj ht
        have hu' : u.flatten = a.flatten.targeted b.flatten := hbelow u hu hknown
        rw [flatten]
        by_cases ha : a.flatten = .void
        · -- The written pointer is one to `void` in one-component tuples, and so is the other one.
          rw [ha] at hu' ⊢
          rw [hu', targeted_of_apart (by cases b.flatten <;> trivial)]
          rcases flatten_of_void_compatible ha hu with hb | hb <;> rw [hb] <;> rfl
        · rw [targeted_pointer ha, hu']

/-- What tuples unify to has the components of the written one with their targets, if each component
has. -/
theorem map_flatten_of_compatibleAll : ∀ {as bs ts : List Ty},
    (∀ a ∈ as, ∀ b ∈ bs, ∀ t, a.compatible? o b = some t → t.containsAuto = false →
      t.flatten = a.flatten.targeted b.flatten) →
      compatibleAll? o as bs = some ts → (∀ t ∈ ts, t.containsAuto = false) →
        ts.map flatten = targetedAll (as.map flatten) (bs.map flatten)
  | [], [], _, _, hts, _ => by
    cases hts
    rfl
  | [], _ :: _, _, _, hts, _ | _ :: _, [], _, _, hts, _ => by cases hts
  | a :: as, b :: bs, ts, h, hts, hknown => by
    rw [compatibleAll?] at hts
    obtain ⟨t, ht, hts⟩ := Option.bind_eq_some_iff.mp hts
    obtain ⟨us, hus, hts⟩ := Option.bind_eq_some_iff.mp hts
    cases hts
    rw [List.forall_mem_cons] at hknown
    have hrest : us.map flatten = targetedAll (as.map flatten) (bs.map flatten) :=
      map_flatten_of_compatibleAll (fun a ha b hb =>
        h a (List.mem_cons_of_mem _ ha) b (List.mem_cons_of_mem _ hb))
        hus hknown.2
    rw [List.map_cons, List.map_cons, List.map_cons, targetedAll, hrest,
      h a List.mem_cons_self b List.mem_cons_self t ht hknown.1]

/-- **On each level the written type takes its targets from the type of the value.** -/
theorem levelwise_targeted : Levelwise fun o a b => KeepsLeft o → a.containsAuto = false →
    ∀ t, a.compatible? o b = some t → t.containsAuto = false →
    t.flatten = a.flatten.targeted b.flatten where
  left {o a b} h ho ha t ht := by
    rw [compatible?_singleton_left] at ht
    rw [flatten_singleton]
    exact h ho (containsAuto_tuple.mp ha a List.mem_cons_self) t ht
  right {o a b} h ho ha t ht := by
    rw [compatible?_singleton_right] at ht
    rw [flatten_singleton]
    exact h ho ha t ht
  apart {o a b} hpa hpb h ho ha t ht _ := by
    rw [compatible?_of_apart hpa hpb h] at ht
    rw [ho.apart ha ht, targeted_of_apart (h.flatten hpa hpb)]
  pointer {o a b} h ho ha t ht hknown := by
    rw [compatible?_pointer] at ht
    exact flatten_of_pointerTo ho hknown ht (h ho.throughPointer ha)
  tuple {o as bs} hpa hpb h ho ha t ht hknown := by
    rw [compatible?_tuple hpa hpb] at ht
    obtain ⟨ts, hts, rfl⟩ := Option.map_eq_some_iff.mp ht
    have hp : (Ty.tuple ts).IsPlural :=
      isPlural_tuple.mpr (length_of_compatibleAll? hts ▸ isPlural_tuple.mp hpa)
    have hall : ∀ a ∈ as, ∀ b ∈ bs, ∀ t, a.compatible? o b = some t → t.containsAuto = false →
        t.flatten = a.flatten.targeted b.flatten :=
      fun a hm b hm' => h a hm b hm' ho (containsAuto_tuple.mp ha a hm)
    rw [flatten_tuple hp, flatten_tuple hpa, flatten_tuple hpb, targeted]
    exact congrArg Ty.tuple (map_flatten_of_compatibleAll hall hts (containsAuto_tuple.mp hknown))

/-- **A written type and the type of a value unify to the written type with the targets of the other
one**, up to one-component tuples, if what they unify to is known. -/
theorem flatten_of_compatible (ho : KeepsLeft o) (ha : a.containsAuto = false)
    (h : a.compatible? o b = some t) (ht : t.containsAuto = false) :
    t.flatten = a.flatten.targeted b.flatten :=
  levelwise_targeted.holds a o b ho ha t h ht

end PostfixCompiler.Ty
