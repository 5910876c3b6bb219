import PostfixCompiler.Proofs.Ty.Unify

/-!
# Values that fit a type

A value is moved leaf by leaf, so what matters where a value meets a type is its **shape**: the
tuples in it, up to one-component tuples, and the sizes of its leaves. A type fits another one if a
value of the latter can be stored as the former, where an `int` leaf may be widened to a `double`
one.

Unification is the source of all fits, since types that unify have the same shape; and fitting is
transitive, which is what carries it from one return of a function to the next.

## Main definitions

* `PostfixCompiler.Ty.LeavesKnown`: no leaf of the type is `auto`.
* `PostfixCompiler.Ty.Fits`: a value of the second type can be stored as the first.
* `PostfixCompiler.Ty.Dense`: there is no one-component tuple in the type.

## Main statements

* `PostfixCompiler.Ty.Fits.trans`.
* `PostfixCompiler.Ty.joins_of_compatible`: what two types unify to fits both, and if no `int` on
  the left is widened, the left type itself fits the right one.
-/

namespace PostfixCompiler.Ty

/-! ### Known leaves -/

/-- No leaf of the type is `auto`; below a pointer there may be one. -/
def LeavesKnown (t : Ty) : Prop := .auto ∉ t.leaves

theorem leavesKnown_tuple_nil : (Ty.tuple []).LeavesKnown := List.not_mem_nil

theorem leavesKnown_tuple_cons {t : Ty} {ts : List Ty} :
    (Ty.tuple (t :: ts)).LeavesKnown ↔ t.LeavesKnown ∧ (Ty.tuple ts).LeavesKnown :=
  (not_congr List.mem_append).trans not_or

theorem leavesKnown_singleton {t : Ty} : (Ty.tuple [t]).LeavesKnown ↔ t.LeavesKnown := by
  rw [leavesKnown_tuple_cons]
  exact and_iff_left leavesKnown_tuple_nil

theorem leavesKnown_tuple {ts : List Ty} :
    (Ty.tuple ts).LeavesKnown ↔ ∀ t ∈ ts, t.LeavesKnown := by
  induction ts with
  | nil => simp [leavesKnown_tuple_nil]
  | cons t ts ih => rw [leavesKnown_tuple_cons, ih, List.forall_mem_cons]

theorem not_leavesKnown_auto : ¬Ty.auto.LeavesKnown := fun h => h (List.mem_singleton_self _)

theorem leavesKnown_pointer (t : Ty) : (Ty.pointer t).LeavesKnown :=
  fun h => nomatch List.mem_singleton.mp h

mutual

/-- A type without any `auto` has none among its leaves. -/
theorem leavesKnown_of_containsAuto : ∀ {t : Ty}, t.containsAuto = false → t.LeavesKnown
  | .void, _ | .int, _ | .double, _ | .string, _ => fun h => nomatch List.mem_singleton.mp h
  | .pointer t, _ => leavesKnown_pointer t
  | .auto, h => by simp [containsAuto] at h
  | .tuple ts, h => leavesKnown_of_anyContainsAuto (by simpa [containsAuto] using h)

/-- As `leavesKnown_of_containsAuto`, for the components of a tuple. -/
theorem leavesKnown_of_anyContainsAuto :
    ∀ {ts : List Ty}, anyContainsAuto ts = false → (Ty.tuple ts).LeavesKnown
  | [], _ => leavesKnown_tuple_nil
  | t :: ts, h => by
    rw [anyContainsAuto, Bool.or_eq_false_iff] at h
    exact leavesKnown_tuple_cons.mpr
      ⟨leavesKnown_of_containsAuto h.1, leavesKnown_of_anyContainsAuto h.2⟩

end

/-! ### Fitting -/

theorem leavesKnown_stripped (t : Ty) : t.stripped.LeavesKnown ↔ t.LeavesKnown :=
  (iff_stripped (motive := LeavesKnown) (fun _ => leavesKnown_singleton) t).symm

mutual

/-- **A value of type `source` can be stored as a `target`**: the tuples agree up to one-component
ones, and every leaf takes what the source has there. -/
def Fits (target source : Ty) : Prop :=
  match target with
  | .tuple [t] => t.Fits source
  | .tuple ts => ∃ ss, source.stripped = .tuple ss ∧ FitsAll ts ss
  | .void => source.stripped = .void
  | .int => source.stripped = .int
  | .double => source.stripped = .double ∨ source.stripped = .int
  | .string => source.stripped = .string
  | .pointer _ => ∃ s, source.stripped = .pointer s
  | .auto => False

/-- As many values, each of which can be stored as its target. -/
def FitsAll (targets sources : List Ty) : Prop :=
  match targets, sources with
  | [], [] => True
  | t :: ts, s :: ss => t.Fits s ∧ FitsAll ts ss
  | _, _ => False

end

theorem fits_singleton_left {t s : Ty} : (Ty.tuple [t]).Fits s ↔ t.Fits s := Iff.rfl

theorem fits_stripped_left (t s : Ty) : t.Fits s ↔ t.stripped.Fits s :=
  iff_stripped (motive := (Fits · s)) (fun _ => fits_singleton_left) t

/-- How a tuple that is no one-component tuple fits. -/
theorem fits_tuple {ts : List Ty} (h : (Ty.tuple ts).IsPlural) {s : Ty} :
    (Ty.tuple ts).Fits s ↔ ∃ ss, s.stripped = .tuple ss ∧ FitsAll ts ss := by
  match ts, h with
  | [], _ | _ :: _ :: _, _ => exact Iff.rfl

/-- A pointer takes every pointer. -/
theorem fits_pointer {t s : Ty} : (Ty.pointer t).Fits s ↔ ∃ u, s.stripped = .pointer u := Iff.rfl

theorem fits_congr_right {s s' : Ty} (h : s.stripped = s'.stripped) (t : Ty) :
    t.Fits s ↔ t.Fits s' := by
  rw [fits_stripped_left t s, fits_stripped_left t s']
  have hp := isPlural_stripped t
  cases ht : t.stripped with
  | tuple ts =>
    rw [ht] at hp
    rw [fits_tuple hp, fits_tuple hp, h]
  | _ => simp only [Fits, h]

theorem fits_stripped_right (t s : Ty) : t.Fits s ↔ t.Fits s.stripped :=
  fits_congr_right (stripped_of_isPlural (isPlural_stripped s)).symm t

theorem fits_singleton_right {t s : Ty} : t.Fits (.tuple [s]) ↔ t.Fits s :=
  fits_congr_right (stripped_singleton s) t

theorem FitsAll.length_eq : ∀ {ts ss : List Ty}, FitsAll ts ss → ts.length = ss.length
  | [], [], _ => rfl
  | [], _ :: _, h | _ :: _, [], h => h.elim
  | t :: ts, s :: ss, h => by rw [List.length_cons, List.length_cons, h.2.length_eq]

/-- Tuples fit component by component, the one-component ones included. -/
theorem fits_tuple_tuple {ts ss : List Ty} (h : FitsAll ts ss) :
    (Ty.tuple ts).Fits (.tuple ss) := by
  match ts, ss, h with
  | [], [], h => exact (fits_tuple (show (Ty.tuple []).IsPlural from trivial)).mpr ⟨[], rfl, h⟩
  | [t], [s], h => exact fits_singleton_left.mpr (fits_singleton_right.mpr h.1)
  | t :: u :: ts, s :: r :: ss, h =>
    rw [fits_tuple (by trivial), stripped_of_isPlural (by trivial)]
    exact ⟨s :: r :: ss, rfl, h⟩
  | [], _ :: _, h | _ :: _, [], h => exact h.elim
  | [_], _ :: _ :: _, h | _ :: _ :: _, [_], h => exact h.2.elim

/-- Tuples of one length that fit do so component by component. -/
theorem fitsAll_of_fits {ts ss : List Ty} (h : (Ty.tuple ts).Fits (.tuple ss))
    (hlen : ts.length = ss.length) : FitsAll ts ss := by
  match ts, ss, hlen with
  | [], [], _ => trivial
  | [t], [s], _ => exact ⟨fits_singleton_left.mp (fits_singleton_right.mp h), trivial⟩
  | t :: u :: ts, s :: r :: ss, _ =>
    obtain ⟨_, heq, hall⟩ := (fits_tuple (by trivial)).mp h
    rw [stripped_of_isPlural (by trivial)] at heq
    cases heq
    exact hall

mutual

/-- **A type fits itself** if all of its leaves are known. -/
theorem fits_refl : ∀ {t : Ty}, t.LeavesKnown → t.Fits t
  | .void, _ | .int, _ | .string, _ => rfl
  | .double, _ => .inl rfl
  | .pointer _, _ => ⟨_, rfl⟩
  | .auto, h => absurd h not_leavesKnown_auto
  | .tuple _, h => fits_tuple_tuple (fitsAll_refl h)

/-- As `fits_refl`, for the components of a tuple. -/
theorem fitsAll_refl : ∀ {ts : List Ty}, (Ty.tuple ts).LeavesKnown → FitsAll ts ts
  | [], _ => trivial
  | t :: ts, h => by
    rw [leavesKnown_tuple_cons] at h
    exact ⟨fits_refl h.1, fitsAll_refl h.2⟩

end

/-- What fits a type whose tuples are looked through. -/
theorem fits_of_stripped_eq {u s : Ty} (h : u.Fits s) {v : Ty} (hu : u.stripped = v) : v.Fits s :=
  hu ▸ (fits_stripped_left u s).mp h

mutual

/-- **Fitting is transitive**: a leaf that is widened on the way to the middle type is no `int`
there any more. -/
theorem Fits.trans : ∀ {t u s : Ty}, t.Fits u → u.Fits s → t.Fits s
  | .void, u, s, h, h' | .int, u, s, h, h' | .string, u, s, h, h' => by
    rw [Fits] at h
    exact fits_of_stripped_eq h' h
  | .double, u, s, h, h' => by
    rw [Fits] at h
    rcases h with h | h
    · exact fits_of_stripped_eq h' h
    · have hint := fits_of_stripped_eq h' h
      rw [Fits] at hint
      rw [Fits]
      exact Or.inr hint
  | .pointer t, u, s, h, h' => by
    obtain ⟨v, hv⟩ := fits_pointer.mp h
    exact fits_pointer.mpr (fits_pointer.mp (fits_of_stripped_eq h' hv))
  | .auto, u, s, h, h' => by
    rw [Fits] at h
    exact h.elim
  | .tuple ts, u, s, h, h' => by
    have hp := isPlural_stripped u
    by_cases hts : (Ty.tuple ts).IsPlural
    · obtain ⟨us, hus, hall⟩ := (fits_tuple hts).mp h
      rw [hus] at hp
      obtain ⟨ss, hss, hall'⟩ := (fits_tuple hp).mp (fits_of_stripped_eq h' hus)
      exact (fits_tuple hts).mpr ⟨ss, hss, hall.trans hall'⟩
    · match ts with
      | [] | _ :: _ :: _ => exact absurd trivial hts
      | [t] =>
        rw [fits_singleton_left] at h ⊢
        exact h.trans h'

/-- As `Fits.trans`, for the components of tuples. -/
theorem FitsAll.trans : ∀ {ts us ss : List Ty}, FitsAll ts us → FitsAll us ss → FitsAll ts ss
  | [], [], [], _, _ => by simp [FitsAll]
  | [], _ :: _, _, h, _ | _ :: _, [], _, h, _ => by simp [FitsAll] at h
  | _, [], _ :: _, _, h | _, _ :: _, [], _, h => by simp [FitsAll] at h
  | t :: ts, u :: us, s :: ss, h, h' => by
    rw [FitsAll] at h h' ⊢
    exact ⟨h.1.trans h'.1, h.2.trans h'.2⟩

end

/-! ### Fits from unification -/

/-- What unification makes sure of. -/
structure Joins (o : CompatOptions) (a b t : Ty) : Prop where
  /-- Nothing is left open in the result. -/
  known : t.LeavesKnown
  /-- The left type can be stored as the result. -/
  left : t.Fits a
  /-- The right type can be stored as the result. -/
  right : t.Fits b
  /-- If no number on the left is widened, the right type can be stored as the left one. -/
  narrow : o.intToDouble = false → a.Fits b

/-- As `Joins`, for the components of tuples. -/
structure JoinsAll (o : CompatOptions) (as bs ts : List Ty) : Prop where
  /-- Nothing is left open in the results. -/
  known : (Ty.tuple ts).LeavesKnown
  /-- The left types can be stored as the results. -/
  left : FitsAll ts as
  /-- The right types can be stored as the results. -/
  right : FitsAll ts bs
  /-- If no number on the left is widened, the right types can be stored as the left ones. -/
  narrow : o.intToDouble = false → FitsAll as bs

/-- A type joins itself with whatever looks the same behind one-component tuples. -/
theorem joins_of_stripped_eq {o : CompatOptions} {a b : Ty} (ha : a.LeavesKnown)
    (h : b.stripped = a) : Joins o a b a := by
  have hfits : a.Fits b := by
    rw [fits_stripped_right, h]
    exact fits_refl ha
  exact ⟨ha, fits_refl ha, hfits, fun _ => hfits⟩

/-- Types that are no tuples join as they unify: a scalar with itself or a wider one, a pointer with
any pointer. -/
theorem joins_of_unifies {o : CompatOptions} {a b t : Ty} (ht : a.isTuple = false)
    (h : Unifies o a b.stripped t) (ha : a.LeavesKnown) (hb : b.stripped.LeavesKnown) :
    Joins o a b t := by
  generalize hs : b.stripped = s at h hb
  cases h with
  | fillLeft => exact absurd ha not_leavesKnown_auto
  | fillRight => exact absurd hb not_leavesKnown_auto
  | scalar => exact joins_of_stripped_eq ha hs
  | widenLeft ho =>
    refine ⟨by simp [LeavesKnown, leaves], by simp [Fits, stripped], by simp [Fits, hs], ?_⟩
    intro hn
    rw [ho] at hn
    cases hn
  | widenRight =>
    exact ⟨ha, by simp [Fits, stripped], by simp [Fits, hs], fun _ => by simp [Fits, hs]⟩
  | pointer =>
    exact ⟨leavesKnown_pointer _, fits_pointer.mpr ⟨_, rfl⟩, fits_pointer.mpr ⟨_, hs⟩,
      fun _ => fits_pointer.mpr ⟨_, hs⟩⟩
  | tuple => cases ht

mutual

/-- **What two types unify to fits both of them**. -/
theorem joins_of_compatible {o : CompatOptions} : ∀ {a b t : Ty}, a.compatible? o b = some t →
    a.LeavesKnown → b.LeavesKnown → Joins o a b t
  | .tuple as, b, t, h, ha, hb => by
    by_cases hp : (Ty.tuple as).IsPlural
    · have hu := unifies_of_compatible h
      rw [stripped_of_isPlural hp] at hu
      generalize hs : b.stripped = s at hu
      have hk := (leavesKnown_stripped b).mpr hb
      rw [hs] at hk
      cases hu with
      | fillRight => exact absurd hk not_leavesKnown_auto
      | scalar hv => simp at hv
      | @tuple _ bs ts hall =>
        have hj := joinsAll_of_compatibleAll hall ha hk
        refine ⟨hj.known, fits_tuple_tuple hj.left, ?_, fun hn => ?_⟩
        · rw [fits_stripped_right, hs]
          exact fits_tuple_tuple hj.right
        · rw [fits_stripped_right, hs]
          exact fits_tuple_tuple (hj.narrow hn)
    · match as with
      | [] | _ :: _ :: _ => exact absurd trivial hp
      | [a] =>
        rw [compatible?] at h
        have hj := joins_of_compatible h (leavesKnown_singleton.mp ha) hb
        exact ⟨hj.known, fits_singleton_right.mpr hj.left, hj.right,
          fun hn => fits_singleton_left.mpr (hj.narrow hn)⟩
  | .void, b, _, h, ha, hb | .int, b, _, h, ha, hb | .double, b, _, h, ha, hb
  | .string, b, _, h, ha, hb | .pointer _, b, _, h, ha, hb =>
    joins_of_unifies rfl (unifies_of_compatible h) ha ((leavesKnown_stripped b).mpr hb)
  | .auto, _, _, _, ha, _ => absurd ha not_leavesKnown_auto

/-- As `joins_of_compatible`, for the components of tuples. -/
theorem joinsAll_of_compatibleAll {o : CompatOptions} : ∀ {as bs ts : List Ty},
    compatibleAll? o as bs = some ts → (Ty.tuple as).LeavesKnown → (Ty.tuple bs).LeavesKnown →
    JoinsAll o as bs ts
  | [], [], _, h, _, _ => by
    cases h
    exact ⟨leavesKnown_tuple_nil, trivial, trivial, fun _ => trivial⟩
  | [], _ :: _, _, h, _, _ | _ :: _, [], _, h, _, _ => by cases h
  | a :: as, b :: bs, ts, h, ha, hb => by
    rw [compatibleAll?, Option.bind_eq_bind, Option.bind_eq_some_iff] at h
    obtain ⟨t, ht, h⟩ := h
    obtain ⟨us, hus, h⟩ := Option.bind_eq_some_iff.mp h
    cases h
    rw [leavesKnown_tuple_cons] at ha hb
    have hj := joins_of_compatible ht ha.1 hb.1
    have hjs := joinsAll_of_compatibleAll hus ha.2 hb.2
    exact ⟨leavesKnown_tuple_cons.mpr ⟨hj.known, hjs.known⟩, ⟨hj.left, hjs.left⟩,
      ⟨hj.right, hjs.right⟩, fun hn => ⟨hj.narrow hn, hjs.narrow hn⟩⟩

end

/-! ### Dense types -/

mutual

/-- **There is no one-component tuple in the type**, but for what pointers refer to. -/
def Dense : Ty → Prop
  | .tuple ts => ts.length ≠ 1 ∧ AllDense ts
  | _ => True

/-- There is none in any of the types. -/
def AllDense : List Ty → Prop
  | [] => True
  | t :: ts => t.Dense ∧ AllDense ts

end

theorem allDense_iff {ts : List Ty} : AllDense ts ↔ ∀ t ∈ ts, t.Dense := by
  induction ts with
  | nil => simp [AllDense]
  | cons t ts ih => rw [AllDense, ih, List.forall_mem_cons]

theorem Dense.isPlural {t : Ty} (h : t.Dense) : t.IsPlural := by
  match t, h with
  | .tuple [t], h => exact absurd rfl h.1
  | .tuple [], _ | .tuple (_ :: _ :: _), _ | .void, _ | .int, _ | .double, _ | .string, _
  | .pointer _, _ | .auto, _ => trivial

/-- Dense tuples that fit have the same number of components, and these fit. -/
theorem fitsAll_of_dense {t : Ty} {ss : List Ty} (ht : t.Dense) (hs : (Ty.tuple ss).Dense)
    (h : t.Fits (.tuple ss)) : ∃ ts, t = .tuple ts ∧ FitsAll ts ss := by
  have hss := stripped_of_isPlural hs.isPlural
  cases t with
  | tuple ts =>
    obtain ⟨_, heq, hall⟩ := (fits_tuple ht.isPlural).mp h
    rw [hss] at heq
    cases heq
    exact ⟨ts, rfl, hall⟩
  | _ => simp [Fits, hss] at h

mutual

/-- **What unifies with a dense type is dense**: unification looks through one-component tuples on
the left and keeps none of them. -/
theorem dense_of_compatible {o : CompatOptions} : ∀ {a b t : Ty}, a.compatible? o b = some t →
    b.LeavesKnown → b.Dense → t.Dense
  | .tuple as, b, t, h, hk, hb => by
    by_cases hp : (Ty.tuple as).IsPlural
    · have hu := unifies_of_compatible h
      rw [stripped_of_isPlural hp, stripped_of_isPlural hb.isPlural] at hu
      cases hu with
      | fillRight => exact absurd hk not_leavesKnown_auto
      | scalar hv => simp at hv
      | @tuple _ bs ts hall =>
        obtain ⟨hlen, hts⟩ := allDense_of_compatibleAll hall hk hb.2
        refine ⟨?_, hts⟩
        rw [← hlen]
        exact hb.1
    · match as with
      | [] | _ :: _ :: _ => exact absurd trivial hp
      | [a] =>
        rw [compatible?] at h
        exact dense_of_compatible h hk hb
  | .void, b, t, h, hk, hb | .int, b, t, h, hk, hb | .double, b, t, h, hk, hb
  | .string, b, t, h, hk, hb | .pointer _, b, t, h, hk, hb | .auto, b, t, h, hk, hb => by
    have hu := unifies_of_compatible h
    rw [stripped_of_isPlural hb.isPlural] at hu
    rw [stripped_of_isPlural (by trivial)] at hu
    cases hu <;> trivial

/-- As `dense_of_compatible`, for the components of tuples. -/
theorem allDense_of_compatibleAll {o : CompatOptions} : ∀ {as bs ts : List Ty},
    compatibleAll? o as bs = some ts → (Ty.tuple bs).LeavesKnown → AllDense bs →
    bs.length = ts.length ∧ AllDense ts
  | [], [], _, h, _, _ => by
    cases h
    exact ⟨rfl, trivial⟩
  | [], _ :: _, _, h, _, _ | _ :: _, [], _, h, _, _ => by cases h
  | a :: as, b :: bs, ts, h, hk, hb => by
    rw [compatibleAll?, Option.bind_eq_bind, Option.bind_eq_some_iff] at h
    obtain ⟨t, ht, h⟩ := h
    obtain ⟨us, hus, h⟩ := Option.bind_eq_some_iff.mp h
    cases h
    rw [leavesKnown_tuple_cons] at hk
    obtain ⟨hlen, hdense⟩ := allDense_of_compatibleAll hus hk.2 hb.2
    exact ⟨congrArg Nat.succ hlen, dense_of_compatible ht hk.1 hb.1, hdense⟩

end

/-- **An open type takes whatever it meets.** -/
theorem eq_of_auto_compatible {o : CompatOptions} {b t : Ty}
    (h : Ty.auto.compatible? o b = some t) : t = b.stripped := by
  have hu := unifies_of_compatible h
  rw [stripped_of_isPlural (t := .auto) trivial] at hu
  generalize hs : b.stripped = s at hu
  cases hu with
  | fillLeft => rfl
  | fillRight => rfl
  | scalar hv => simp at hv

end PostfixCompiler.Ty
