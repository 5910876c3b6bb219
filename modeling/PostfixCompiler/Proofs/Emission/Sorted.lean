import Mathlib.Data.List.Sort
import PostfixCompiler.Emission.Unit
import PostfixCompiler.Proofs.Syntax.Ids

/-!
# Lists that are sorted and hold nothing twice

The writer sorts the ids of slots before it compares them, and the names of labels before it writes
them down. Both times the list is sorted first and then what occurs again is dropped, and both times
only the members of the list that is sorted matter.

## Main statements

* `PostfixCompiler.Emission.pairwise_sorted`: what is sorted and kept once is in strictly ascending
  order.
* `PostfixCompiler.Emission.sorted_congr`: lists with the same members are the same when they are
  sorted.
* `PostfixCompiler.Emission.pairwise_sortedNames`: sorted names are in strictly ascending order.
-/

namespace PostfixCompiler.Emission

section Order

variable {α : Type} [BEq α] [LawfulBEq α]

/-- Of a list in ascending order each member is kept once. -/
theorem pairwise_eraseDups {R : α → α → Prop} : ∀ {as : List α}, as.Pairwise R →
    as.eraseDups.Pairwise fun a b => R a b ∧ a ≠ b
  | [], _ => .nil
  | a :: as, h => by
    obtain ⟨ha, has⟩ := List.pairwise_cons.mp h
    rw [List.eraseDups_cons]
    refine List.pairwise_cons.mpr ⟨fun b hb => ?_,
      pairwise_eraseDups (has.sublist List.filter_sublist)⟩
    obtain ⟨hb, hne⟩ := List.mem_filter.mp (List.mem_eraseDups.mp hb)
    refine ⟨ha b hb, ?_⟩
    rintro rfl
    simp at hne
termination_by as => as.length
decreasing_by
  rw [List.length_cons]
  exact Nat.lt_succ_of_le (List.length_filter_le _ _)

variable {R : α → α → Prop} [DecidableRel R]

theorem mem_sorted {as : List α} {a : α} :
    a ∈ (as.mergeSort fun a b => decide (R a b)).eraseDups ↔ a ∈ as := by
  rw [List.mem_eraseDups, List.mem_mergeSort]

/-- **What is sorted and kept once is in strictly ascending order.** -/
theorem pairwise_sorted (htrans : ∀ {a b c}, R a b → R b c → R a c) (htotal : ∀ a b, R a b ∨ R b a)
    (as : List α) :
    (as.mergeSort fun a b => decide (R a b)).eraseDups.Pairwise fun a b => R a b ∧ a ≠ b := by
  have hsorted : (as.mergeSort fun a b => decide (R a b)).Pairwise fun a b =>
      decide (R a b) = true := by
    refine List.pairwise_mergeSort (fun a b c hab hbc => ?_) (fun a b => ?_) as
    · exact decide_eq_true (htrans (of_decide_eq_true hab) (of_decide_eq_true hbc))
    · rw [Bool.or_eq_true, decide_eq_true_eq, decide_eq_true_eq]
      exact htotal a b
  exact pairwise_eraseDups (hsorted.imp of_decide_eq_true)

/-- **Lists with the same members are the same when they are sorted** and each member is kept
once. -/
theorem sorted_congr (htrans : ∀ {a b c}, R a b → R b c → R a c) (htotal : ∀ a b, R a b ∨ R b a)
    (hantisymm : ∀ {a b}, R a b → R b a → a = b) {as bs : List α} (h : ∀ a, a ∈ as ↔ a ∈ bs) :
    (as.mergeSort fun a b => decide (R a b)).eraseDups =
      (bs.mergeSort fun a b => decide (R a b)).eraseDups := by
  have : Std.Irrefl fun a b : α => R a b ∧ a ≠ b := ⟨fun a h => h.2 rfl⟩
  have : Std.Antisymm fun a b : α => R a b ∧ a ≠ b := ⟨fun a b hab hba => hantisymm hab.1 hba.1⟩
  refine List.Subset.antisymm_of_pairwise (pairwise_sorted (R := R) htrans htotal as)
    (pairwise_sorted (R := R) htrans htotal bs) (fun a ha => ?_) fun a ha => ?_
  · exact mem_sorted.mpr ((h a).mp (mem_sorted.mp ha))
  · exact mem_sorted.mpr ((h a).mpr (mem_sorted.mp ha))

end Order

/-! ### Ids and names -/

/-- Sorted lists of ids with the same members are the same. -/
theorem sortedIds_congr {is js : List NodeId} (h : ∀ id, id ∈ is ↔ id ∈ js) :
    sortedIds is = sortedIds js :=
  sorted_congr (R := fun a b : NodeId => a.index ≤ b.index) Nat.le_trans
    (fun _ _ => Nat.le_total _ _)
    (fun hab hba => NodeId.index_injective (Nat.le_antisymm hab hba)) h

theorem mem_sortedNames {names : List String} {name : String} :
    name ∈ sortedNames names ↔ name ∈ names :=
  mem_sorted

/-- Sorted lists of names with the same members are the same. -/
theorem sortedNames_congr {as bs : List String} (h : ∀ name, name ∈ as ↔ name ∈ bs) :
    sortedNames as = sortedNames bs :=
  sorted_congr (R := fun a b : String => a ≤ b) String.le_trans String.le_total String.le_antisymm h

/-- **Sorted names are in strictly ascending order.** -/
theorem pairwise_sortedNames (names : List String) : (sortedNames names).Pairwise (· < ·) := by
  refine (pairwise_sorted (R := fun a b : String => a ≤ b) String.le_trans
    String.le_total names).imp
    fun {a b} h => ?_
  by_contra hlt
  exact h.2 (String.le_antisymm h.1 (String.not_lt.mp hlt))

end PostfixCompiler.Emission
