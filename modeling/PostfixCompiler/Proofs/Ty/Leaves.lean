import PostfixCompiler.Proofs.Ty.Level
import PostfixCompiler.Proofs.Ty.Solid

/-!
# The leaves of unified types

Types that unify have the same leaves but for two things: an `int` may be widened, and what a
pointer refers to may change. The leaves correspond one by one, whatever one-component tuples the
types have in them, and so do those of two types of which one fits the other. That is what makes it
possible to move a value leaf by leaf without looking at the tuples in its type.

## Main definitions

* `PostfixCompiler.Ty.LeafUnifies`: a leaf of the unified type and the leaves that it stems from.
* `PostfixCompiler.Ty.LeavesUnify`: all leaves of the unified type stem from those of the two types,
  in order.

## Main statements

* `PostfixCompiler.Ty.leavesUnify_of_compatible`: so it is of types that unify.
* `PostfixCompiler.Ty.Fits.leaves`: the leaves of a type that fits another one fit its leaves.
* `PostfixCompiler.Ty.leavesFrom_eq`: a value lies as its leaves do, one behind the other.
-/

namespace PostfixCompiler.Ty

variable {o : CompatOptions} {a b t u : Ty} {as as' bs bs' ts ts' us : List Ty}

/-! ### Leaf by leaf -/

/-- **How a leaf of a unified type comes about**: from two that are the same, from two pointers, or
from an `int` and a `double`. -/
inductive LeafUnifies (o : CompatOptions) : Ty → Ty → Ty → Prop where
  /-- The leaves are the same. -/
  | same {t : Ty} (h : t = .int ∨ t = .double ∨ t = .string) : LeafUnifies o t t t
  /-- All are pointers. -/
  | pointer (a b t : Ty) : LeafUnifies o (.pointer a) (.pointer b) (.pointer t)
  /-- An `int` on the left is widened. -/
  | widenLeft (h : o.intToDouble = true) : LeafUnifies o .int .double .double
  /-- An `int` on the right is widened. -/
  | widenRight (h : o.doubleFromInt = true) : LeafUnifies o .double .int .double

theorem LeafUnifies.scalar (h : LeafUnifies o a b t) : t.Scalar := by
  cases h with
  | same h => rcases h with rfl | rfl | rfl <;> exact ⟨rfl, by simp, by simp⟩
  | pointer | widenLeft | widenRight => exact ⟨rfl, by simp, by simp⟩

/-- **The leaves of a unified type come about one by one**, in order. -/
structure LeavesUnify (o : CompatOptions) (as bs ts : List Ty) : Prop where
  /-- There are as many on the left. -/
  left : as.length = ts.length
  /-- There are as many on the right. -/
  right : bs.length = ts.length
  /-- Each comes about from those at its position. -/
  leaf : ∀ (k : Nat) (a b t : Ty), as[k]? = some a → bs[k]? = some b → ts[k]? = some t →
    LeafUnifies o a b t

namespace LeavesUnify

theorem nil : LeavesUnify o [] [] [] := ⟨rfl, rfl, by simp⟩

theorem one (h : LeafUnifies o a b t) : LeavesUnify o [a] [b] [t] := by
  refine ⟨rfl, rfl, fun k _ _ _ ha hb ht => ?_⟩
  cases k with
  | zero =>
    cases ha
    cases hb
    cases ht
    exact h
  | succ k => cases ha

theorem append (h : LeavesUnify o as bs ts) (h' : LeavesUnify o as' bs' ts') :
    LeavesUnify o (as ++ as') (bs ++ bs') (ts ++ ts') := by
  have hleft := h.left
  have hright := h.right
  refine ⟨by simp [hleft, h'.left], by simp [hright, h'.right], fun k a b t ha hb ht => ?_⟩
  by_cases hk : k < ts.length
  · rw [List.getElem?_append_left (by omega)] at ha hb ht
    exact h.leaf k a b t ha hb ht
  · rw [List.getElem?_append_right (by omega)] at ha hb ht
    rw [hleft] at ha
    rw [hright] at hb
    exact h'.leaf _ a b t ha hb ht

/-- The leaves of a unified type are scalars. -/
theorem scalar (h : LeavesUnify o as bs ts) : ∀ t ∈ ts, t.Scalar := by
  intro t ht
  obtain ⟨k, hk, rfl⟩ := List.mem_iff_getElem.mp ht
  have hleft := h.left
  have hright := h.right
  exact (h.leaf k _ _ _ (List.getElem?_eq_getElem (by omega)) (List.getElem?_eq_getElem (by omega))
    (List.getElem?_eq_getElem hk)).scalar

end LeavesUnify

theorem leaves_singleton (t : Ty) : (Ty.tuple [t]).leaves = t.leaves := by
  rw [leaves, leavesOfAll, leavesOfAll, List.append_nil]

theorem solid_singleton : (Ty.tuple [t]).Solid ↔ t.Solid := by
  rw [Solid, leaves_singleton, Solid]

/-! ### Unified types -/

theorem Solid.ne_void (h : t.Solid) : t ≠ .void := by
  rintro rfl
  exact (h .void (List.mem_singleton_self _)).2.1 rfl

theorem Solid.ne_auto (h : t.Solid) : t ≠ .auto := by
  rintro rfl
  exact (h .auto (List.mem_singleton_self _)).2.2 rfl

theorem Solid.leavesKnown (h : t.Solid) : t.LeavesKnown := fun hauto => (h .auto hauto).2.2 rfl

/-- Types that are not both tuples have one leaf each, and so has what they unify to. -/
theorem leavesUnify_of_unifies (h : Unifies o a b t) (ha : a.Solid) (hb : b.Solid)
    (htuple : a.isTuple = true → b.isTuple = false) : LeavesUnify o a.leaves b.leaves t.leaves := by
  cases h with
  | fillLeft => exact absurd rfl ha.ne_auto
  | fillRight => exact absurd rfl hb.ne_auto
  | scalar h =>
    rcases h with rfl | h
    · exact absurd rfl ha.ne_void
    · rcases h with rfl | rfl | rfl <;> exact .one (.same (by simp))
  | widenLeft h => exact .one (.widenLeft h)
  | widenRight h => exact .one (.widenRight h)
  | pointer => exact .one (.pointer _ _ _)
  | tuple => cases htuple rfl

theorem leavesUnify_of_compatibleAll? : ∀ {as bs ts : List Ty}, compatibleAll? o as bs = some ts →
    (∀ a ∈ as, ∀ b ∈ bs, ∀ t, a.compatible? o b = some t →
      LeavesUnify o a.leaves b.leaves t.leaves) →
      LeavesUnify o (leavesOfAll as) (leavesOfAll bs) (leavesOfAll ts)
  | [], [], _, h, _ => by
    cases h
    exact .nil
  | [], _ :: _, _, h, _ | _ :: _, [], _, h, _ => by cases h
  | a :: as, b :: bs, _, h, hall => by
    rw [compatibleAll?] at h
    obtain ⟨t, ht, h⟩ := Option.bind_eq_some_iff.mp h
    obtain ⟨ts, hts, h⟩ := Option.bind_eq_some_iff.mp h
    cases h
    rw [leavesOfAll, leavesOfAll, leavesOfAll]
    exact (hall a List.mem_cons_self b List.mem_cons_self t ht).append
      (leavesUnify_of_compatibleAll? hts
      fun a ha b hb => hall a (List.mem_cons_of_mem _ ha) b (List.mem_cons_of_mem _ hb))

/-- **Leaves come about one by one** on each level. -/
theorem levelwise_leaves : Levelwise fun o a b => a.Solid → b.Solid →
    ∀ t, a.compatible? o b = some t → LeavesUnify o a.leaves b.leaves t.leaves where
  left h := by
    rw [compatible?_singleton_left, leaves_singleton, solid_singleton]
    exact h
  right h := by
    rw [compatible?_singleton_right, leaves_singleton, solid_singleton]
    exact h
  apart {o a b} hpa hpb hab ha hb t h := by
    have hu := unifies_of_compatible h
    rw [stripped_of_isPlural hpa, stripped_of_isPlural hpb] at hu
    refine leavesUnify_of_unifies hu ha hb fun htuple => ?_
    obtain ⟨as, rfl⟩ := exists_tuple htuple
    cases b with
    | tuple => exact hab.elim
    | _ => rfl
  pointer _ ha hb t h := leavesUnify_of_unifies (unifies_of_compatible h) ha hb nofun
  tuple {o as bs} hpa hpb h ha hb t ht := by
    rw [compatible?_tuple hpa hpb] at ht
    obtain ⟨ts, hts, rfl⟩ := Option.map_eq_some_iff.mp ht
    exact leavesUnify_of_compatibleAll? hts fun a hm b hm' =>
      h a hm b hm' (solid_tuple.mp ha a hm) (solid_tuple.mp hb b hm')

/-- **The leaves of types that unify are as many and of the same kinds**, but that an `int` may be
widened. -/
theorem leavesUnify_of_compatible (h : a.compatible? o b = some t) (ha : a.Solid) (hb : b.Solid) :
    LeavesUnify o a.leaves b.leaves t.leaves :=
  levelwise_leaves.holds a o b ha hb t h

theorem solid_of_compatible (h : a.compatible? o b = some t) (ha : a.Solid)
    (hb : b.Solid) : t.Solid :=
  (leavesUnify_of_compatible h ha hb).scalar

/-! ### Types that fit -/

theorem leaves_stripped (t : Ty) : t.stripped.leaves = t.leaves := by
  fun_induction stripped t with
  | case1 t ih => rw [ih, leaves_singleton]
  | case2 t => rfl

theorem leaves_of_isTuple (h : t.isTuple = false) : t.leaves = [t] := by
  cases t with
  | tuple => cases h
  | _ => rfl

theorem forall₂_leaves_of_isTuple (ht : t.isTuple = false) (h : t.Fits u) :
    List.Forall₂ Fits t.leaves u.leaves := by
  rw [← leaves_stripped u, leaves_of_isTuple ht, leaves_of_isTuple (isTuple_stripped_of_fits ht h)]
  exact .cons ((fits_stripped_right t u).mp h) .nil

mutual

/-- **The leaves of a type that fits another one fit its leaves**, one by one. -/
theorem Fits.leaves : ∀ {t u : Ty}, t.Fits u → List.Forall₂ Fits t.leaves u.leaves
  | .tuple ts, u, h => by
    by_cases hp : (Ty.tuple ts).IsPlural
    · obtain ⟨us, hus, hall⟩ := (fits_tuple hp).mp h
      rw [← leaves_stripped u, hus]
      exact hall.leaves
    · match ts with
      | [] | _ :: _ :: _ => exact absurd trivial hp
      | [t] =>
        rw [leaves_singleton]
        exact (fits_singleton_left.mp h).leaves
  | .void, _, h | .int, _, h | .double, _, h | .string, _, h | .pointer _, _, h | .auto, _, h =>
    forall₂_leaves_of_isTuple rfl h

/-- As `Fits.leaves`, for the components of tuples. -/
theorem FitsAll.leaves :
    ∀ {ts us : List Ty}, FitsAll ts us → List.Forall₂ Fits (leavesOfAll ts) (leavesOfAll us)
  | [], [], _ => .nil
  | [], _ :: _, h | _ :: _, [], h => h.elim
  | t :: ts, u :: us, h => by
    rw [leavesOfAll, leavesOfAll]
    exact List.rel_append h.1.leaves h.2.leaves

end

/-! ### Leaves in a row -/

theorem leavesOfAllFrom_append (ts us : List Ty) (k : Nat) :
    leavesOfAllFrom k (ts ++ us) =
      leavesOfAllFrom k ts ++ leavesOfAllFrom (k + sizeOfAll ts) us := by
  induction ts generalizing k with
  | nil => rfl
  | cons t ts ih =>
    rw [List.cons_append, leavesOfAllFrom, leavesOfAllFrom, ih, sizeOfAll,
      List.append_assoc, Nat.add_assoc]

theorem leavesFrom_of_isTuple (h : t.isTuple = false) (k : Nat) : t.leavesFrom k = [(t, k)] := by
  cases t with
  | tuple => cases h
  | _ => rfl

mutual

/-- **A value lies as its leaves do**, one behind the other. -/
theorem leavesFrom_eq : ∀ (t : Ty) (k : Nat), t.leavesFrom k = leavesOfAllFrom k t.leaves
  | .tuple ts, k => leavesOfAllFrom_eq ts k
  | .void, _ | .int, _ | .double, _ | .string, _ | .pointer _, _ | .auto, _ => rfl

/-- As `leavesFrom_eq`, for values that stand one after the other. -/
theorem leavesOfAllFrom_eq :
    ∀ (ts : List Ty) (k : Nat), leavesOfAllFrom k ts = leavesOfAllFrom k (leavesOfAll ts)
  | [], _ => rfl
  | t :: ts, k => by
    rw [leavesOfAllFrom, leavesOfAll, leavesOfAllFrom_append, sizeOfAll_leaves, leavesFrom_eq t,
      leavesOfAllFrom_eq ts]

end

end PostfixCompiler.Ty
