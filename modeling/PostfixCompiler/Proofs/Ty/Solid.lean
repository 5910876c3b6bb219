import PostfixCompiler.Proofs.Ty.Fits
import PostfixCompiler.Proofs.Ty.Stable

/-!
# Values made of words and doubles

A value is moved leaf by leaf, and a leaf is moved by an instruction for words or by one for
doubles. So it matters of a type whether its leaves are such: neither `void` nor `auto` has values
that could be moved. The leaves of a type lie in a row, one behind the other, and together they take
the bytes that the type takes.

## Main definitions

* `PostfixCompiler.Ty.Scalar`: a value of the type is a word or a double.
* `PostfixCompiler.Ty.Solid`: a value of the type is made of words and doubles.

## Main statements

* `PostfixCompiler.Ty.Full.solid`: the values of a known type are solid, if the components of its
  tuples have values.
* `PostfixCompiler.Ty.sizeOfAll_leaves`: a value takes as many bytes as its leaves.
* `PostfixCompiler.Ty.leavesFrom_within`: the leaves of a value are within its bytes.
-/

namespace PostfixCompiler.Ty

/-! ### Scalars -/

/-- A value of the type is a word or a double. -/
def Scalar (t : Ty) : Prop := t.isTuple = false ∧ t ≠ .void ∧ t ≠ .auto

instance Scalar.decide (t : Ty) : Decidable t.Scalar :=
  inferInstanceAs (Decidable (t.isTuple = false ∧ t ≠ .void ∧ t ≠ .auto))

theorem Scalar.size_eq {t : Ty} (h : t.Scalar) : t.size = if t = .double then 8 else 4 := by
  obtain ⟨ht, hv, ha⟩ := h
  cases t with
  | tuple => cases ht
  | void => exact absurd rfl hv
  | auto => exact absurd rfl ha
  | _ => simp [size, wordSize, doubleSize]

/-- A scalar takes eight bytes at most. -/
theorem Scalar.size_le {t : Ty} (h : t.Scalar) : t.size ≤ 8 := by
  rw [h.size_eq]
  split <;> omega

/-- There is one thing for doubles and another one for words. -/
theorem Scalar.choice {α : Type} {t : Ty} {motive : Nat → α → Prop} (h : t.Scalar) {double word : α}
    (hdouble : motive doubleSize double) (hword : motive wordSize word) :
    motive t.size (if t = .double then double else word) := by
  rw [h.size_eq]
  split
  · exact hdouble
  · exact hword

theorem isPlural_of_isTuple {t : Ty} (h : t.isTuple = false) : t.IsPlural := by
  cases t with
  | tuple => cases h
  | _ => trivial

theorem exists_tuple {t : Ty} (h : t.isTuple = true) : ∃ ts, t = .tuple ts := by
  cases t with
  | tuple ts => exact ⟨ts, rfl⟩
  | _ => cases h

theorem size_stripped (t : Ty) : t.stripped.size = t.size := by
  fun_induction stripped t with
  | case1 t ih => rw [ih, size, sizeOfAll, sizeOfAll, Nat.add_zero]
  | case2 t => rfl

/-- What fits a type that is no tuple is none itself, inside of its one-component tuples. -/
theorem isTuple_stripped_of_fits {t u : Ty} (ht : t.isTuple = false) (h : t.Fits u) :
    u.stripped.isTuple = false := by
  cases t with
  | tuple => cases ht
  | auto => exact h.elim
  | pointer =>
    obtain ⟨v, hu⟩ := fits_pointer.mp h
    rw [hu]
    rfl
  | double => rcases h with hu | hu <;> rw [hu] <;> rfl
  | void | int | string =>
    have hu : u.stripped = _ := h
    rw [hu]
    rfl

/-- **What fits a scalar takes as many bytes**, or is an `int` that is widened. -/
theorem Scalar.size_of_fits {t u : Ty} (ht : t.Scalar) (h : t.Fits u) :
    u.size = t.size ∨ t = .double ∧ u.stripped = .int := by
  rw [← size_stripped u]
  cases t with
  | tuple => cases ht.1
  | void => exact absurd rfl ht.2.1
  | auto => exact h.elim
  | pointer =>
    obtain ⟨v, hu⟩ := fits_pointer.mp h
    rw [hu]
    exact .inl rfl
  | double =>
    rcases h with hu | hu <;> rw [hu]
    · exact .inl rfl
    · exact .inr ⟨rfl, rfl⟩
  | int | string =>
    have hu : u.stripped = _ := h
    rw [hu]
    exact .inl rfl

/-! ### Solid types -/

/-- **A value of the type is made of words and doubles.** -/
def Solid (t : Ty) : Prop := ∀ l ∈ t.leaves, l.Scalar

instance Solid.decide (t : Ty) : Decidable t.Solid :=
  inferInstanceAs (Decidable (∀ l ∈ t.leaves, l.Scalar))

theorem solid_of_scalar {t : Ty} (h : t.Scalar) : t.Solid := by
  intro l hl
  have ht := h.1
  cases t with
  | tuple => cases ht
  | _ =>
    cases List.mem_singleton.mp hl
    exact h

theorem leavesOfAll_eq (ts : List Ty) : leavesOfAll ts = ts.flatMap leaves := by
  induction ts with
  | nil => rfl
  | cons t ts ih => rw [leavesOfAll, List.flatMap_cons, ih]

theorem solid_tuple {ts : List Ty} : (Ty.tuple ts).Solid ↔ ∀ t ∈ ts, t.Solid := by
  simp only [Solid, leaves, leavesOfAll_eq, List.mem_flatMap]
  refine ⟨fun h t ht l hl => h l ⟨t, ht, hl⟩, ?_⟩
  rintro h l ⟨t, ht, hl⟩
  exact h t ht l hl

mutual

/-- The values of a known type are solid, if it has any and the components of its tuples do. -/
theorem Full.solid : ∀ {t : Ty}, t.Full → t ≠ .void → t.Solid
  | .tuple ts, h, _ =>
      solid_tuple.mpr (allSolid fun t ht => ⟨stable_full.component h ht, h.ne_void ht⟩)
  | .int, _, _ | .double, _, _ | .string, _, _
  | .pointer _, _, _ => solid_of_scalar ⟨rfl, by simp, by simp⟩
  | .void, _, hv => absurd rfl hv
  | .auto, h, _ => by cases h.1

/-- As `Full.solid`, for the components of a tuple. -/
theorem allSolid : ∀ {ts : List Ty}, (∀ t ∈ ts, t.Full ∧ t ≠ .void) → ∀ t ∈ ts, t.Solid
  | [], _ => by simp
  | t :: ts, h => by
    rw [List.forall_mem_cons] at h ⊢
    exact ⟨h.1.1.solid h.1.2, allSolid h.2⟩

end

theorem Sound.solid {t : Ty} (h : t.Sound) (hv : t ≠ .void) : t.Solid := h.full.solid hv

/-- A value of a sound type has at least one byte. -/
theorem Sound.size_pos : ∀ {t : Ty}, t.Sound → t ≠ .void → 0 < t.size
  | .void, _, hv => absurd rfl hv
  | .int, _, _ | .double, _, _ | .string, _, _ | .pointer _, _, _ => by
    rw [size]
    decide
  | .auto, h, _ => by cases h.1
  | .tuple [], h, _ => absurd (proper_tuple.mp h.2).1 (by simp)
  | .tuple (t :: ts), h, _ => by
    have ht := size_pos (stable_sound.component h List.mem_cons_self)
      ((proper_tuple.mp h.2).2 t List.mem_cons_self).2
    rw [size, sizeOfAll]
    omega

/-! ### Leaves and their offsets -/

mutual

/-- The leaves of a type, in the order of their offsets. -/
theorem map_leavesFrom : ∀ (t : Ty) (base : Nat), (t.leavesFrom base).map Prod.fst = t.leaves
  | .tuple ts, base => map_leavesOfAllFrom ts base
  | .void, _ | .int, _ | .double, _ | .string, _ | .pointer _, _ | .auto, _ => rfl

/-- As `map_leavesFrom`, for several types. -/
theorem map_leavesOfAllFrom : ∀ (ts : List Ty) (base : Nat),
    (leavesOfAllFrom base ts).map Prod.fst = leavesOfAll ts
  | [], _ => rfl
  | t :: ts, base => by
    rw [leavesOfAllFrom, leavesOfAll, List.map_append, map_leavesFrom t, map_leavesOfAllFrom ts]

end

/-- A leaf of a solid type is a scalar. -/
theorem Solid.scalar {t : Ty} (h : t.Solid) {l : Ty × Nat} (hl : l ∈ t.leafOffsets) :
    l.1.Scalar := by
  refine h l.1 ?_
  rw [← map_leavesFrom t 0]
  exact List.mem_map_of_mem hl

theorem sizeOfAll_append (ts us : List Ty) :
    sizeOfAll (ts ++ us) = sizeOfAll ts + sizeOfAll us := by
  induction ts with
  | nil => rw [List.nil_append, sizeOfAll, Nat.zero_add]
  | cons t ts ih => rw [List.cons_append, sizeOfAll, sizeOfAll, ih, Nat.add_assoc]

theorem sizeOfAll_reverse (ts : List Ty) : sizeOfAll ts.reverse = sizeOfAll ts := by
  induction ts with
  | nil => rfl
  | cons t ts ih =>
    rw [List.reverse_cons, sizeOfAll_append, ih, sizeOfAll, sizeOfAll, sizeOfAll,
      Nat.add_zero, Nat.add_comm]

mutual

/-- A value takes as many bytes as its leaves. -/
theorem sizeOfAll_leaves : ∀ t : Ty, sizeOfAll t.leaves = t.size
  | .tuple ts => sizeOfAll_leavesOfAll ts
  | .void | .int | .double | .string | .pointer _ | .auto => by simp [leaves, sizeOfAll]

/-- As `sizeOfAll_leaves`, for several types. -/
theorem sizeOfAll_leavesOfAll : ∀ ts : List Ty, sizeOfAll (leavesOfAll ts) = sizeOfAll ts
  | [] => rfl
  | t :: ts => by
      rw [leavesOfAll, sizeOfAll, sizeOfAll_append, sizeOfAll_leaves t, sizeOfAll_leavesOfAll ts]

end

mutual

/-- The leaves of a value are within its bytes. -/
theorem leavesFrom_within : ∀ (t : Ty) (base : Nat), ∀ l ∈ t.leavesFrom base,
    base ≤ l.2 ∧ l.2 + l.1.size ≤ base + t.size
  | .tuple ts, base, l, hl => leavesOfAllFrom_within ts base l hl
  | .void, base, l, hl | .int, base, l, hl | .double, base, l, hl | .string, base, l, hl
  | .pointer _, base, l, hl | .auto, base, l, hl => by
    cases List.mem_singleton.mp hl
    exact ⟨Nat.le_refl _, Nat.le_refl _⟩

/-- As `leavesFrom_within`, for values that stand one after the other. -/
theorem leavesOfAllFrom_within : ∀ (ts : List Ty) (base : Nat), ∀ l ∈ leavesOfAllFrom base ts,
    base ≤ l.2 ∧ l.2 + l.1.size ≤ base + sizeOfAll ts
  | [], _, l, hl => by cases hl
  | t :: ts, base, l, hl => by
    rw [sizeOfAll]
    rcases List.mem_append.mp hl with hl | hl
    · have := leavesFrom_within t base l hl
      omega
    · have := leavesOfAllFrom_within ts (base + t.size) l hl
      omega

end

end PostfixCompiler.Ty
