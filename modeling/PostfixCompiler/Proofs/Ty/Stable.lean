import Mathlib.Data.List.Forall2
import PostfixCompiler.Proofs.Ty.Unify

/-!
# Properties of types that typing keeps

The types of a program come from the types that are written in it, by taking them apart, putting
them together and unifying them. A property that survives these steps holds of the type of every
expression once it holds of the types that are written. Three properties are followed through the
checker in this way: that nothing is left open in a type, that the components of its tuples have
values, and that its tuples are tuples proper.

## Main definitions

* `PostfixCompiler.Ty.Stable`: a property that survives what the checker does to types.
* `PostfixCompiler.Ty.Valued`: each component of every tuple has a value.
* `PostfixCompiler.Ty.Proper`: every tuple has two components or more, and each of them has a value.
* `PostfixCompiler.Ty.Full`, `PostfixCompiler.Ty.Sound`: a known type with such tuples.

## Main statements

* `PostfixCompiler.Ty.Stable.unify`: a stable property survives unification.
* `PostfixCompiler.Ty.stable_known`, `PostfixCompiler.Ty.stable_full`,
  `PostfixCompiler.Ty.stable_sound`: the properties that matter.
-/

namespace PostfixCompiler.Ty

/-- **A property of types that survives what the checker does to them.** -/
structure Stable (P : Ty → Prop) : Prop where
  /-- Nothing is left open. -/
  known {t : Ty} (h : P t) : t.containsAuto = false
  /-- Integers have it. -/
  int : P .int
  /-- Doubles have it. -/
  double : P .double
  /-- Texts have it. -/
  string : P .string
  /-- The null pointer has it. -/
  genericPointer : P .genericPointer
  /-- The address of a value has it. -/
  pointer {t : Ty} (h : P t) : P (.pointer t)
  /-- What an address refers to has it. -/
  referent {t : Ty} (h : P (.pointer t)) : P t
  /-- A component has it. -/
  component {t : Ty} {ts : List Ty} (h : P (.tuple ts)) (ht : t ∈ ts) : P t
  /-- A component can be one twice. -/
  again {t : Ty} {ts : List Ty} (h : P (.tuple ts)) (ht : t ∈ ts) : P (.tuple [t, t])
  /-- Two values or more make a tuple that has it. -/
  tuple {ts : List Ty} (h : 2 ≤ ts.length) (hts : ∀ t ∈ ts, P t ∧ t ≠ .void) : P (.tuple ts)
  /-- The components of a tuple can be exchanged for others, as long as values stay values. -/
  exchange {as ts : List Ty} (h : P (.tuple as))
    (hts : List.Forall₂ (fun a t => P t ∧ (t = .void → a.stripped = .void)) as ts) : P (.tuple ts)

/-- A value of the type can be a component of a tuple, as far as `P` is concerned. -/
def Storable (P : Ty → Prop) (t : Ty) : Prop := P (.tuple [t, t])

namespace Stable

variable {P : Ty → Prop}

theorem storable (hP : Stable P) {t : Ty} (h : P t) (hv : t ≠ .void) : Storable P t :=
  hP.tuple (Nat.le_refl 2) (by simp [h, hv])

theorem of_storable (hP : Stable P) {t : Ty} (h : Storable P t) : P t :=
  hP.component h List.mem_cons_self

theorem stripped (hP : Stable P) {t : Ty} (h : P t) : P t.stripped := by
  fun_induction Ty.stripped t with
  | case1 t ih => exact ih (hP.component h (List.mem_singleton_self t))
  | case2 t => exact h

theorem not_auto (hP : Stable P) : ¬P .auto := fun h => nomatch hP.known h

/-- A pointer that two others unify to has the property. -/
theorem below (hP : Stable P) {o : CompatOptions} {a b c : Ty} (h : UnifiesBelow o a b c)
    (ha : P (.pointer a)) (hb : P (.pointer b))
    (ih : ∀ {c : Ty}, a.compatible? o.throughPointer b = some c → P c) : P (.pointer c) := by
  cases h with
  | fromLeft => exact hb
  | fromRight => exact ha
  | both h => exact hP.pointer (ih h)
  | generic => exact hP.genericPointer

/-- What a type that is no tuple unifies to. -/
theorem unify_scalar (hP : Stable P) {o : CompatOptions} {a b t : Ty} (h : Unifies o a b t)
    (ht : a.isTuple = false) (ha : P a) (hb : P b)
    (ih : ∀ {r s c : Ty}, a = .pointer r → r.compatible? o.throughPointer s = some c → P s → P c) :
    P t ∧ (t = .void → a = .void) := by
  cases h with
  | fillLeft => exact absurd ha hP.not_auto
  | fillRight => exact absurd hb hP.not_auto
  | scalar => exact ⟨ha, id⟩
  | widenLeft => exact ⟨hb, by simp⟩
  | widenRight => exact ⟨ha, by simp⟩
  | pointer h => exact ⟨hP.below h ha hb fun hc => ih rfl hc (hP.referent hb), by simp⟩
  | tuple => cases ht

mutual

/-- **A stable property survives unification**, and so does having a value. -/
theorem unify (hP : Stable P) : ∀ {o : CompatOptions} {a b t : Ty}, a.compatible? o b = some t →
    P a → P b → P t ∧ (t = .void → a.stripped = .void)
  | o, .tuple as, b, t, h, ha, hb => by
    by_cases hp : (Ty.tuple as).IsPlural
    · have hu := unifies_of_compatible h
      have hb' := hP.stripped hb
      rw [stripped_of_isPlural hp] at hu
      generalize b.stripped = s at hu hb'
      cases hu with
      | fillRight => exact absurd hb' hP.not_auto
      | scalar hv => simp at hv
      | @tuple _ bs ts hall =>
        have hts := unifyAll hP hall (fun a => hP.component ha) (fun b => hP.component hb')
        exact ⟨hP.exchange ha hts, by simp⟩
    · match as with
      | [] | _ :: _ :: _ => exact absurd trivial hp
      | [a] =>
        rw [compatible?] at h
        rw [stripped_singleton]
        exact unify hP h (hP.component ha (List.mem_singleton_self a)) hb
  | o, .pointer r, b, t, h, ha, hb => by
    rw [stripped_of_isPlural (t := .pointer r) trivial]
    refine hP.unify_scalar (unifies_of_compatible h) rfl ha (hP.stripped hb) ?_
    rintro r' s c heq hc hs
    cases heq
    exact (unify hP hc (hP.referent ha) hs).1
  | o, .void, b, t, h, ha, hb | o, .int, b, t, h, ha, hb | o, .double, b, t, h, ha, hb
  | o, .string, b, t, h, ha, hb | o, .auto, b, t, h, ha, hb =>
    hP.unify_scalar (unifies_of_compatible h) rfl ha (hP.stripped hb) (by rintro _ _ _ ⟨⟩)

/-- As `unify`, for the components of tuples. -/
theorem unifyAll (hP : Stable P) : ∀ {o : CompatOptions} {as bs ts : List Ty},
    compatibleAll? o as bs = some ts → (∀ a ∈ as, P a) → (∀ b ∈ bs, P b) →
    List.Forall₂ (fun a t => P t ∧ (t = .void → a.stripped = .void)) as ts
  | _, [], [], _, h, _, _ => by
    cases h
    exact .nil
  | _, [], _ :: _, _, h, _, _ | _, _ :: _, [], _, h, _, _ => by cases h
  | o, a :: as, b :: bs, ts, h, ha, hb => by
    rw [compatibleAll?, Option.bind_eq_bind, Option.bind_eq_some_iff] at h
    obtain ⟨t, ht, h⟩ := h
    obtain ⟨us, hus, h⟩ := Option.bind_eq_some_iff.mp h
    cases h
    rw [List.forall_mem_cons] at ha hb
    exact .cons (unify hP ht ha.1 hb.1) (unifyAll hP hus ha.2 hb.2)

end

/-- Fresh memory that is not adapted unifies with a settled type only to what is settled. -/
theorem unify_open (hP : Stable P) {o : CompatOptions} {a t : Ty}
    (h : a.compatible? o (.pointer .auto) = some t) (ha : P a) (ht : t.containsAuto = false) :
    P t := by
  have hu := unifies_of_compatible h
  have ha' := hP.stripped ha
  rw [stripped_of_isPlural (t := .pointer .auto) trivial] at hu
  generalize a.stripped = s at hu ha'
  cases hu with
  | fillLeft => exact absurd ha' hP.not_auto
  | scalar hv => simp at hv
  | @pointer r _ c hbelow =>
    cases hbelow with
    | fromLeft => cases ht
    | fromRight hv => cases hv
    | both hc =>
      have hu' := unifies_of_compatible hc
      have hr := hP.stripped (hP.referent ha')
      rw [stripped_of_isPlural (t := .auto) trivial] at hu'
      generalize r.stripped = s at hu' hr
      cases hu' with
      | fillLeft => exact absurd hr hP.not_auto
      | fillRight => exact hP.pointer hr
      | scalar hv => simp at hv
    | generic => exact hP.genericPointer

end Stable

/-! ### Known types -/

theorem anyContainsAuto_eq_false {ts : List Ty} :
    anyContainsAuto ts = false ↔ ∀ t ∈ ts, t.containsAuto = false := by
  induction ts with
  | nil => simp [anyContainsAuto]
  | cons t ts ih => rw [anyContainsAuto, Bool.or_eq_false_iff, ih, List.forall_mem_cons]

theorem containsAuto_tuple {ts : List Ty} :
    (Ty.tuple ts).containsAuto = false ↔ ∀ t ∈ ts, t.containsAuto = false :=
  anyContainsAuto_eq_false

theorem containsAuto_pointer (t : Ty) : (Ty.pointer t).containsAuto = t.containsAuto := rfl

/-- **Nothing is left open** in a type that is made of types in which nothing is. -/
theorem stable_known : Stable (fun t => t.containsAuto = false) where
  known h := h
  int := rfl
  double := rfl
  string := rfl
  genericPointer := rfl
  pointer h := by rwa [containsAuto_pointer]
  referent h := by rwa [containsAuto_pointer] at h
  component h ht := containsAuto_tuple.mp h _ ht
  again h ht := by
    have := containsAuto_tuple.mp h _ ht
    exact containsAuto_tuple.mpr (by simp [this])
  tuple _ hts := containsAuto_tuple.mpr fun t ht => (hts t ht).1
  exchange h hts := by
    refine containsAuto_tuple.mpr ?_
    clear h
    induction hts with
    | nil => simp
    | cons h _ ih => exact List.forall_mem_cons.mpr ⟨h.1, ih⟩

/-! ### Components with values -/

mutual

/-- **Each component of every tuple in the type has a value**; below pointers too. -/
def Valued : Ty → Prop
  | .tuple ts => AllValued ts
  | .pointer t => t.Valued
  | _ => True

/-- Each of the types has values, and so have the components of its tuples. -/
def AllValued : List Ty → Prop
  | [] => True
  | t :: ts => (t.Valued ∧ t ≠ .void) ∧ AllValued ts

end

mutual

/-- It is decidable whether the components of the tuples in a type have values. -/
instance Valued.decide : ∀ t : Ty, Decidable t.Valued
  | .tuple ts => AllValued.decide ts
  | .pointer t => Valued.decide t
  | .void | .int | .double | .string | .auto => inferInstanceAs (Decidable True)

/-- As `Valued.decide`, for the components of a tuple. -/
instance AllValued.decide : ∀ ts : List Ty, Decidable (AllValued ts)
  | [] => inferInstanceAs (Decidable True)
  | t :: ts =>
      @instDecidableAnd _ _ (@instDecidableAnd _ _ (Valued.decide t) _) (AllValued.decide ts)

end

theorem allValued_iff {ts : List Ty} : AllValued ts ↔ ∀ t ∈ ts, t.Valued ∧ t ≠ .void := by
  induction ts with
  | nil => simp [AllValued]
  | cons t ts ih => rw [AllValued, ih, List.forall_mem_cons]

theorem valued_tuple {ts : List Ty} :
    (Ty.tuple ts).Valued ↔ ∀ t ∈ ts, t.Valued ∧ t ≠ .void := allValued_iff

/-- A component that is no tuple of one component itself has a value. -/
theorem Valued.stripped_ne_void {t : Ty} (h : t.Valued) (hv : t ≠ .void) : t.stripped ≠ .void := by
  fun_induction Ty.stripped t with
  | case1 t ih =>
    obtain ⟨ht, hv'⟩ := valued_tuple.mp h t (List.mem_singleton_self t)
    exact ih ht hv'
  | case2 t => exact hv

/-- A known type the components of whose tuples have values. -/
def Full (t : Ty) : Prop := t.containsAuto = false ∧ t.Valued

/-- **Components keep their values**, in types in which nothing is left open. -/
theorem stable_full : Stable Full where
  known h := h.1
  int := ⟨stable_known.int, trivial⟩
  double := ⟨stable_known.double, trivial⟩
  string := ⟨stable_known.string, trivial⟩
  genericPointer := ⟨stable_known.genericPointer, trivial⟩
  pointer h := ⟨stable_known.pointer h.1, h.2⟩
  referent h := ⟨stable_known.referent h.1, h.2⟩
  component h ht := ⟨stable_known.component h.1 ht, (valued_tuple.mp h.2 _ ht).1⟩
  again h ht := by
    refine ⟨stable_known.again h.1 ht, valued_tuple.mpr ?_⟩
    simpa using valued_tuple.mp h.2 _ ht
  tuple h hts := by
    refine ⟨stable_known.tuple h fun t ht => ⟨(hts t ht).1.1, (hts t ht).2⟩, ?_⟩
    exact valued_tuple.mpr fun t ht => ⟨(hts t ht).1.2, (hts t ht).2⟩
  exchange {as ts} h hts := by
    have hknown : List.Forall₂ (fun a t : Ty => t.containsAuto = false ∧
        (t = .void → a.stripped = .void)) as ts := hts.imp fun _ _ h => ⟨h.1.1, h.2⟩
    have has := valued_tuple.mp h.2
    refine ⟨stable_known.exchange h.1 hknown, valued_tuple.mpr ?_⟩
    clear h hknown
    induction hts with
    | nil => simp
    | @cons a t as ts h _ ih =>
      rw [List.forall_mem_cons] at has ⊢
      exact ⟨⟨h.1.2, fun hv => has.1.1.stripped_ne_void has.1.2 (h.2 hv)⟩, ih has.2⟩

/-- A component of a tuple in such a type has a value. -/
theorem Full.ne_void {t : Ty} {ts : List Ty} (h : Full (.tuple ts)) (ht : t ∈ ts) : t ≠ .void :=
  (valued_tuple.mp h.2 t ht).2

/-! ### Tuples proper -/

mutual

/-- **Every tuple in the type has two components or more, and each of them has a value**; below
pointers too. -/
def Proper : Ty → Prop
  | .tuple ts => 2 ≤ ts.length ∧ AllProper ts
  | .pointer t => t.Proper
  | _ => True

/-- The types are proper, and each of them has values. -/
def AllProper : List Ty → Prop
  | [] => True
  | t :: ts => (t.Proper ∧ t ≠ .void) ∧ AllProper ts

end

mutual

/-- It is decidable whether a type is proper. -/
instance Proper.decide : ∀ t : Ty, Decidable t.Proper
  | .tuple ts => @instDecidableAnd _ _ _ (AllProper.decide ts)
  | .pointer t => Proper.decide t
  | .void | .int | .double | .string | .auto => inferInstanceAs (Decidable True)

/-- As `Proper.decide`, for the components of a tuple. -/
instance AllProper.decide : ∀ ts : List Ty, Decidable (AllProper ts)
  | [] => inferInstanceAs (Decidable True)
  | t :: ts =>
      @instDecidableAnd _ _ (@instDecidableAnd _ _ (Proper.decide t) _) (AllProper.decide ts)

end

theorem allProper_iff {ts : List Ty} : AllProper ts ↔ ∀ t ∈ ts, t.Proper ∧ t ≠ .void := by
  induction ts with
  | nil => simp [AllProper]
  | cons t ts ih => rw [AllProper, ih, List.forall_mem_cons]

theorem proper_tuple {ts : List Ty} :
    (Ty.tuple ts).Proper ↔ 2 ≤ ts.length ∧ ∀ t ∈ ts, t.Proper ∧ t ≠ .void :=
  and_congr_right' allProper_iff

/-- A proper type is no one-component tuple. -/
theorem Proper.isPlural {t : Ty} (h : t.Proper) : t.IsPlural := by
  match t, h with
  | .tuple [t], h => exact absurd (proper_tuple.mp h).1 (by simp)
  | .tuple [], _ | .tuple (_ :: _ :: _), _ | .void, _ | .int, _ | .double, _ | .string, _
  | .pointer _, _ | .auto, _ => trivial

theorem Proper.stripped_eq {t : Ty} (h : t.Proper) : t.stripped = t :=
  stripped_of_isPlural h.isPlural

mutual

/-- The components of tuples proper have values. -/
theorem Proper.valued : ∀ {t : Ty}, t.Proper → t.Valued
  | .tuple _, h => h.2.allValued
  | .pointer t, h => Proper.valued (t := t) h
  | .void, _ | .int, _ | .double, _ | .string, _ | .auto, _ => trivial

/-- As `Proper.valued`, for several types. -/
theorem AllProper.allValued : ∀ {ts : List Ty}, AllProper ts → AllValued ts
  | [], _ => trivial
  | _ :: _, h => ⟨⟨h.1.1.valued, h.1.2⟩, h.2.allValued⟩

end

/-- A known type with tuples proper. -/
def Sound (t : Ty) : Prop := t.containsAuto = false ∧ t.Proper

theorem Sound.full {t : Ty} (h : t.Sound) : t.Full := ⟨h.1, h.2.valued⟩

/-- **Tuples stay proper**, in types in which nothing is left open. -/
theorem stable_sound : Stable Sound where
  known h := h.1
  int := ⟨stable_known.int, trivial⟩
  double := ⟨stable_known.double, trivial⟩
  string := ⟨stable_known.string, trivial⟩
  genericPointer := ⟨stable_known.genericPointer, trivial⟩
  pointer h := ⟨stable_known.pointer h.1, h.2⟩
  referent h := ⟨stable_known.referent h.1, h.2⟩
  component h ht := ⟨stable_known.component h.1 ht, ((proper_tuple.mp h.2).2 _ ht).1⟩
  again h ht := by
    refine ⟨stable_known.again h.1 ht, proper_tuple.mpr ⟨Nat.le_refl 2, ?_⟩⟩
    simpa using (proper_tuple.mp h.2).2 _ ht
  tuple h hts := by
    refine ⟨stable_known.tuple h fun t ht => ⟨(hts t ht).1.1, (hts t ht).2⟩, ?_⟩
    exact proper_tuple.mpr ⟨h, fun t ht => ⟨(hts t ht).1.2, (hts t ht).2⟩⟩
  exchange {as ts} h hts := by
    have hknown : List.Forall₂ (fun a t : Ty => t.containsAuto = false ∧
        (t = .void → a.stripped = .void)) as ts := hts.imp fun _ _ h => ⟨h.1.1, h.2⟩
    refine ⟨stable_known.exchange h.1 hknown, ?_⟩
    obtain ⟨hlen, has⟩ := proper_tuple.mp h.2
    refine proper_tuple.mpr ⟨hts.length_eq ▸ hlen, ?_⟩
    clear hlen h hknown
    induction hts with
    | nil => simp
    | @cons a t as ts h _ ih =>
      rw [List.forall_mem_cons] at has ⊢
      refine ⟨⟨h.1.2, fun hv => has.1.2 ?_⟩, ih has.2⟩
      rw [← has.1.1.stripped_eq]
      exact h.2 hv

/-- The values of a sound type that can be a component are values indeed. -/
theorem storable_sound {t : Ty} : Storable Sound t ↔ Sound t ∧ t ≠ .void := by
  refine ⟨fun h => ⟨stable_sound.of_storable h, ?_⟩, fun h => stable_sound.storable h.1 h.2⟩
  exact ((proper_tuple.mp h.2).2 t List.mem_cons_self).2

end PostfixCompiler.Ty
