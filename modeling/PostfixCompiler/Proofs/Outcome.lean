import Mathlib.Data.List.Forall2

/-!
# Outcomes that are answers

A pass that may fail is a chain of steps each of which may fail. The statements here open such a
chain from its end: if there is an answer, every step gave one.

## Main statements

* `PostfixCompiler.bind_eq_ok`, `PostfixCompiler.bind_eq_error`: the outcome of two steps.
* `PostfixCompiler.mapM_eq_ok`: the answers of one step for each member of a list.
* `PostfixCompiler.exists_of_mem_left`, `PostfixCompiler.exists_of_mem_right`: what belongs to a
  member of a list.
* `PostfixCompiler.foldlM_eq_ok`: an invariant of a loop, from what one round keeps.
-/

namespace PostfixCompiler

variable {ε α β : Type}

/-- Two steps give an answer exactly if both do. -/
theorem bind_eq_ok {x : Except ε α} {f : α → Except ε β} {b : β} :
    x >>= f = .ok b ↔ ∃ a, x = .ok a ∧ f a = .ok b := by
  cases x with
  | error e => simp [bind, Except.bind]
  | ok a => simp [bind, Except.bind]

/-- Two steps fail exactly if the first one does, or the second one behind the answer of the
first. -/
theorem bind_eq_error {x : Except ε α} {f : α → Except ε β} {e : ε} :
    x >>= f = .error e ↔ x = .error e ∨ ∃ a, x = .ok a ∧ f a = .error e := by
  cases x with
  | error e => simp [bind, Except.bind]
  | ok a => simp [bind, Except.bind]

/-- An answer is changed by a function exactly if there is one. -/
theorem map_eq_ok {x : Except ε α} {f : α → β} {b : β} :
    x.map f = .ok b ↔ ∃ a, x = .ok a ∧ f a = b := by
  cases x with
  | error e => simp [Except.map]
  | ok a => simp [Except.map]

/-- A test of the answer is passed exactly if there is an answer that passes it. -/
theorem any_toOption {x : Except ε α} {p : α → Bool} :
    x.toOption.any p = true ↔ ∃ a, x = .ok a ∧ p a = true := by
  cases x with
  | error e => simp [Except.toOption]
  | ok a => simp [Except.toOption]

/-- **A step for each member of a list** gives answers exactly if each gives its own. -/
theorem mapM_eq_ok {f : α → Except ε β} {l : List α} {bs : List β} :
    l.mapM f = .ok bs ↔ List.Forall₂ (fun a b => f a = .ok b) l bs := by
  induction l generalizing bs with
  | nil =>
    rw [List.mapM_nil, List.forall₂_nil_left_iff]
    exact ⟨fun h => by cases h; rfl, fun h => by rw [h]; rfl⟩
  | cons a l ih =>
    rw [List.mapM_cons, List.forall₂_cons_left_iff]
    simp only [bind_eq_ok]
    constructor
    · rintro ⟨b, hb, cs, hcs, h⟩
      cases h
      exact ⟨b, cs, hb, ih.mp hcs, rfl⟩
    · rintro ⟨b, cs, hb, hcs, rfl⟩
      exact ⟨b, hb, cs, ih.mpr hcs, rfl⟩

/-- In two lists that are related one by one, whatever stands on the right is related to something
on the left. -/
theorem exists_of_mem_right {R : α → β → Prop} {as : List α} {bs : List β}
    (h : List.Forall₂ R as bs) {b : β} (hb : b ∈ bs) : ∃ a ∈ as, R a b := by
  induction h with
  | nil => cases hb
  | @cons a b' as bs hr _ ih =>
    rcases List.mem_cons.mp hb with rfl | hb
    · exact ⟨a, List.mem_cons_self, hr⟩
    · obtain ⟨a', ha', hr'⟩ := ih hb
      exact ⟨a', List.mem_cons_of_mem a ha', hr'⟩

theorem exists_of_mem_left {R : α → β → Prop} {as : List α} {bs : List β}
    (h : List.Forall₂ R as bs) {a : α} (ha : a ∈ as) : ∃ b ∈ bs, R a b :=
  exists_of_mem_right (R := flip R) (.flip h) ha

/-- **The invariant of a loop** that came to its end: it holds at the start, and every round that
gives an answer keeps it. -/
theorem foldlM_eq_ok {f : β → α → Except ε β} {motive : β → Prop}
    (hstep : ∀ b a c, motive b → f b a = .ok c → motive c) {l : List α} {b c : β} (hb : motive b)
    (h : l.foldlM f b = .ok c) : motive c := by
  induction l generalizing b with
  | nil =>
    cases h
    exact hb
  | cons a l ih =>
    rw [List.foldlM_cons] at h
    obtain ⟨d, hd, hrest⟩ := bind_eq_ok.mp h
    exact ih (hstep b a d hb hd) hrest

end PostfixCompiler
