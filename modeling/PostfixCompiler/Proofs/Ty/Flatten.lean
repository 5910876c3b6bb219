import PostfixCompiler.Proofs.Ty.Level

/-!
# Types without one-component tuples

A tuple with one component is its component, so a type means the same without them. Whether two
types unify, and what they unify to, is the same without them too, with one exception: a pointer to
`void` unifies with any pointer, but below a pointer `void` is recognized only if it is written as
such, and not if it is in one-component tuples. Where no pointer refers to `void` in this way, or
pointers to `void` are given no special treatment, there is no exception.

## Main definitions

* `PostfixCompiler.Ty.flatten`: a type without its one-component tuples.
* `PostfixCompiler.Ty.VoidBare`: no pointer refers to `void` in one-component tuples.

## Main statements

* `PostfixCompiler.Ty.unify_flattened`: types unify as they do without their one-component tuples,
  with that exception.
* `PostfixCompiler.Ty.wrapped_void_refused`: there is an exception.
-/

namespace PostfixCompiler.Ty

variable {o : CompatOptions} {a b t : Ty} {as bs ts : List Ty}

/-! ### Flat types -/

mutual

/-- **The type without its one-component tuples**, at any depth: inside tuples, and below pointers
too. -/
def flatten : Ty → Ty
  | .tuple [t] => t.flatten
  | .tuple ts => .tuple (flattenAll ts)
  | .pointer t => .pointer t.flatten
  | .void => .void
  | .int => .int
  | .double => .double
  | .string => .string
  | .auto => .auto

/-- The types without their one-component tuples. -/
def flattenAll : List Ty → List Ty
  | [] => []
  | t :: ts => t.flatten :: flattenAll ts

end

theorem flattenAll_eq_map (ts : List Ty) : flattenAll ts = ts.map flatten := by
  induction ts with
  | nil => rfl
  | cons t ts ih => exact congrArg (t.flatten :: ·) ih

theorem flatten_singleton (t : Ty) : (Ty.tuple [t]).flatten = t.flatten := rfl

theorem flatten_stripped (t : Ty) : t.stripped.flatten = t.flatten := by
  fun_induction stripped t with
  | case1 t ih => rw [ih, flatten_singleton]
  | case2 t => rfl

/-- Of a tuple that is no one-component tuple the components are flattened. -/
theorem flatten_tuple (h : (Ty.tuple ts).IsPlural) :
    (Ty.tuple ts).flatten = .tuple (ts.map flatten) := by
  rw [← flattenAll_eq_map]
  match ts, h with
  | [], _ | _ :: _ :: _, _ => rfl

/-- A tuple keeps the number of its components. -/
theorem isPlural_map_flatten (h : (Ty.tuple ts).IsPlural) :
    (Ty.tuple (ts.map flatten)).IsPlural := by
  rw [isPlural_tuple] at h ⊢
  rwa [List.length_map]

/-- **Only `void` in one-component tuples becomes `void`.** -/
theorem flatten_eq_void : t.flatten = .void ↔ t.stripped = .void := by
  rw [← flatten_stripped]
  have hp := isPlural_stripped t
  cases ht : t.stripped with
  | tuple ts =>
    rw [ht] at hp
    simp [flatten_tuple hp]
  | _ => simp [flatten]

/-! ### Pointers to `void` -/

mutual

/-- **No pointer in the type refers to `void` in one-component tuples.** -/
def VoidBare : Ty → Prop
  | .tuple ts => AllVoidBare ts
  | .pointer t => (t.stripped = .void → t = .void) ∧ t.VoidBare
  | .void | .int | .double | .string | .auto => True

/-- None does in any of the types. -/
def AllVoidBare : List Ty → Prop
  | [] => True
  | t :: ts => t.VoidBare ∧ AllVoidBare ts

end

mutual

/-- It is decidable whether a pointer refers to `void` in one-component tuples. -/
instance VoidBare.decide : ∀ t : Ty, Decidable t.VoidBare
  | .tuple ts => AllVoidBare.decide ts
  | .pointer t => @instDecidableAnd _ _ _ (VoidBare.decide t)
  | .void | .int | .double | .string | .auto => inferInstanceAs (Decidable True)

/-- As `VoidBare.decide`, for several types. -/
instance AllVoidBare.decide : ∀ ts : List Ty, Decidable (AllVoidBare ts)
  | [] => inferInstanceAs (Decidable True)
  | t :: ts => @instDecidableAnd _ _ (VoidBare.decide t) (AllVoidBare.decide ts)

end

theorem allVoidBare_iff : AllVoidBare ts ↔ ∀ t ∈ ts, t.VoidBare := by
  induction ts with
  | nil => simp [AllVoidBare]
  | cons t ts ih => rw [AllVoidBare, ih, List.forall_mem_cons]

theorem voidBare_tuple : (Ty.tuple ts).VoidBare ↔ ∀ t ∈ ts, t.VoidBare := allVoidBare_iff

/-- What a pointer refers to is `void` without one-component tuples just if it is `void` as it is
written. -/
theorem VoidBare.flatten_eq_void (h : (Ty.pointer t).VoidBare) : t.flatten = .void ↔ t = .void := by
  rw [Ty.flatten_eq_void]
  exact ⟨h.1, fun ht => by rw [ht]; rfl⟩

theorem VoidBare.below (h : (Ty.pointer t).VoidBare) : t.VoidBare := h.2

/-! ### Unification of flat types -/

theorem isPlural_flatten (t : Ty) : t.flatten.IsPlural := by
  rw [← flatten_stripped]
  have hp := isPlural_stripped t
  cases ht : t.stripped with
  | tuple ts =>
    rw [ht] at hp
    rw [flatten_tuple hp]
    exact isPlural_map_flatten hp
  | _ => trivial

/-- Types that are apart are so without their one-component tuples. -/
theorem Apart.flatten (ha : a.IsPlural) (hb : b.IsPlural) (h : Apart a b) :
    Apart a.flatten b.flatten := by
  cases a <;> cases b <;> simp_all [flatten_tuple, Ty.flatten, Apart]

theorem map_flatten_apart? (ha : a.IsPlural) (hb : b.IsPlural) :
    (apart? o a b).map flatten = apart? o a.flatten b.flatten := by
  cases a <;> cases b <;> simp [flatten_tuple, ha, hb, flatten, apart?]

/-- Where pointers to `void` get special treatment, what is below has to be `void` just if it is so
without one-component tuples. -/
theorem map_flatten_pointerTo? (below : Option Ty)
    (h : o.voidPointer = true → (a.flatten = .void ↔ a = .void) ∧ (b.flatten = .void ↔ b = .void)) :
    (pointerTo? o a b below).map flatten =
      pointerTo? o a.flatten b.flatten (below.map flatten) := by
  have ha : (o.voidPointer = true ∧ a.flatten = .void) ↔ (o.voidPointer = true ∧ a = .void) :=
    and_congr_right fun ho => (h ho).1
  have hb : (o.voidPointer = true ∧ b.flatten = .void) ↔ (o.voidPointer = true ∧ b = .void) :=
    and_congr_right fun ho => (h ho).2
  simp only [pointerTo?, ha, hb]
  split
  · rfl
  · split
    · rfl
    · cases below
      · cases o.generalize <;> rfl
      · rfl

theorem map_flatten_compatibleAll? : ∀ {as bs : List Ty},
    (∀ a ∈ as, ∀ b ∈ bs, (a.compatible? o b).map flatten = a.flatten.compatible? o b.flatten) →
      (compatibleAll? o as bs).map (List.map flatten) =
        compatibleAll? o (as.map flatten) (bs.map flatten)
  | [], [], _ | [], _ :: _, _ | _ :: _, [], _ => rfl
  | a :: as, b :: bs, h => by
    have hrest : (compatibleAll? o as bs).map (List.map flatten) =
        compatibleAll? o (as.map flatten) (bs.map flatten) :=
      map_flatten_compatibleAll? fun a ha b hb =>
        h a (List.mem_cons_of_mem _ ha) b (List.mem_cons_of_mem _ hb)
    rw [List.map_cons, List.map_cons, compatibleAll?, compatibleAll?,
      ← h a List.mem_cons_self b List.mem_cons_self, ← hrest]
    cases a.compatible? o b <;> cases compatibleAll? o as bs <;> rfl

/-- **One-component tuples do not matter** on each level, if no pointer refers to `void` in one. -/
theorem levelwise_flatten :
    Levelwise fun o a b => (o.voidPointer = true → a.VoidBare ∧ b.VoidBare) →
    (a.compatible? o b).map flatten = a.flatten.compatible? o b.flatten where
  left {o a b} h hbare := by
    rw [compatible?_singleton_left, flatten_singleton]
    exact h fun ho => (hbare ho).imp_left fun ha => voidBare_tuple.mp ha a List.mem_cons_self
  right {o a b} h hbare := by
    rw [compatible?_singleton_right, flatten_singleton]
    exact h fun ho => (hbare ho).imp_right fun hb => voidBare_tuple.mp hb b List.mem_cons_self
  apart ha hb h _ := by
    rw [compatible?_of_apart ha hb h, map_flatten_apart? ha hb,
      compatible?_of_apart (isPlural_flatten _) (isPlural_flatten _) (h.flatten ha hb)]
  pointer h hbare := by
    rw [compatible?_pointer, map_flatten_pointerTo? _ fun ho =>
      (hbare ho).imp (·.flatten_eq_void) (·.flatten_eq_void),
      h fun ho => (hbare ho).imp (·.below) (·.below), flatten, flatten, compatible?_pointer]
  tuple {o as bs} ha hb h hbare := by
    have hall : (compatibleAll? o as bs).map (List.map flatten) =
        compatibleAll? o (as.map flatten) (bs.map flatten) :=
      map_flatten_compatibleAll? fun a hm b hm' => h a hm b hm' fun ho =>
        (hbare ho).imp (voidBare_tuple.mp · a hm) (voidBare_tuple.mp · b hm')
    rw [flatten_tuple ha, flatten_tuple hb, compatible?_tuple ha hb,
      compatible?_tuple (isPlural_map_flatten ha) (isPlural_map_flatten hb), ← hall]
    cases hts : compatibleAll? o as bs with
    | none => rfl
    | some ts =>
      have hp : (Ty.tuple ts).IsPlural :=
        isPlural_tuple.mpr (length_of_compatibleAll? hts ▸ isPlural_tuple.mp ha)
      exact congrArg some (flatten_tuple hp)

/-- **Types unify as they do without their one-component tuples**, and to what they unify to without
them: if pointers to `void` unify with any pointer, then as far as no pointer refers to `void` in
one-component tuples. -/
theorem unify_flattened (a b : Ty) (o : CompatOptions)
    (h : o.voidPointer = true → a.VoidBare ∧ b.VoidBare) :
    (a.compatible? o b).map flatten = a.flatten.compatible? o b.flatten :=
  levelwise_flatten.holds a o b h

/-- A pair in which an `int` is widened and a pointer to `void` becomes one to an `int`, with
one-component tuples around some parts. -/
theorem unify_flattened_pair :
    ((Ty.tuple [.tuple [.double], .pointer (.tuple [.int])]).compatible? .assignment
      (.tuple [.int, .tuple [genericPointer]])).map flatten =
        (Ty.tuple [.double, .pointer .int]).compatible? .assignment
          (.tuple [.int, genericPointer]) ∧
    (Ty.tuple [.double, .pointer .int]).compatible? .assignment (.tuple [.int, genericPointer]) =
      some (.tuple [.double, .pointer .int]) :=
  ⟨unify_flattened _ _ .assignment (by decide), by decide⟩

/-- **A pointer to `void` in a one-component tuple is not taken for a pointer to `void`**: it does
not unify with a pointer to an `int`. -/
theorem wrapped_void_refused :
    ((Ty.pointer (.tuple [.void])).compatible? .assignment (.pointer .int)).map flatten = none ∧
    (Ty.pointer (.tuple [.void])).flatten.compatible? .assignment (Ty.pointer .int).flatten =
      some (.pointer .int) := by
  decide

end PostfixCompiler.Ty
