import PostfixCompiler.Proofs.Typing.CheckUnit

/-!
# The values that a function returns

The type of a function that is declared `auto` is found by unifying the types of the values that it
returns, in the order in which they stand. Numbers are widened, and pointers that disagree become a
pointer to `void`. But a pointer to `void` unifies with any pointer, so a later return gives it a
target again, and what earlier returns made generic is lost. So a returned value has the type of the
function up to the targets of pointers: it could be assigned to that type if all pointers in it were
generic.

## Main definitions

* `PostfixCompiler.Ty.generic`: a type with all of its pointers made generic.
* `PostfixCompiler.Stmt.returned`: the values that a statement may return.

## Main statements

* `PostfixCompiler.returned_assignable`: a returned value can be assigned to the type of the
  function, if its pointers are made generic.
* `PostfixCompiler.returned_not_assignable`: with the targets of its pointers it need not be.
-/

namespace PostfixCompiler

/-! ### Generic types -/

namespace Ty

mutual

/-- **The type with all of its pointers made generic.** -/
def generic : Ty → Ty
  | .pointer _ => genericPointer
  | .tuple ts => .tuple (genericAll ts)
  | t => t

/-- The types with all of their pointers made generic. -/
def genericAll : List Ty → List Ty
  | [] => []
  | t :: ts => t.generic :: genericAll ts

end

mutual

/-- A type without pointers is left as it is. -/
theorem generic_eq : ∀ {t : Ty}, (∀ u ∈ t.leaves, u.isPointer = false) → t.generic = t
  | .pointer _, h => by simp [leaves, isPointer] at h
  | .tuple ts, h => by rw [generic, genericAll_eq (by simpa [leaves] using h)]
  | .void, _ | .int, _ | .double, _ | .string, _ | .auto, _ => rfl

/-- As `generic_eq`, for the components of a tuple. -/
theorem genericAll_eq :
    ∀ {ts : List Ty}, (∀ u ∈ leavesOfAll ts, u.isPointer = false) → genericAll ts = ts
  | [], _ => rfl
  | t :: ts, h => by
    rw [leavesOfAll, List.forall_mem_append] at h
    rw [genericAll, generic_eq h.1, genericAll_eq h.2]

end

mutual

/-- **What fits a type can be assigned to it** if its pointers are made generic. -/
theorem assignable_of_fits :
    ∀ {t s : Ty}, t.Fits s → ∃ u, t.generic.compatible? .assignment s = some u
  | .void, s, h | .int, s, h | .string, s, h => by
    rw [Fits] at h
    simp [generic, compatible?, h]
  | .double, s, h => by
    rw [Fits] at h
    rcases h with h | h <;> simp [generic, compatible?, h, CompatOptions.assignment]
  | .pointer t, s, h => by
    obtain ⟨u, hu⟩ := fits_pointer.mp h
    simp [generic, genericPointer, compatible?, hu, CompatOptions.assignment]
  | .auto, s, h => by
    rw [Fits] at h
    exact h.elim
  | .tuple [t], s, h => by
    rw [fits_singleton_left] at h
    rw [generic, genericAll, genericAll, compatible?]
    exact assignable_of_fits h
  | .tuple [], s, h | .tuple (_ :: _ :: _), s, h => by
    obtain ⟨ss, hs, hall⟩ := (fits_tuple (by trivial)).mp h
    obtain ⟨us, hus⟩ := assignableAll_of_fits hall
    simp only [generic, genericAll] at hus ⊢
    unfold compatible?
    simp [hs, hus]

/-- As `assignable_of_fits`, for the components of a tuple. -/
theorem assignableAll_of_fits : ∀ {ts ss : List Ty}, FitsAll ts ss →
    ∃ us, compatibleAll? .assignment (genericAll ts) ss = some us
  | [], [], _ => ⟨[], rfl⟩
  | [], _ :: _, h | _ :: _, [], h => by simp [FitsAll] at h
  | t :: ts, s :: ss, h => by
    rw [FitsAll] at h
    obtain ⟨u, hu⟩ := assignable_of_fits h.1
    obtain ⟨us, hus⟩ := assignableAll_of_fits h.2
    exact ⟨u :: us, by simp [genericAll, compatibleAll?, hu, hus]⟩

end

end Ty

/-! ### Returned values -/

namespace Stmt

mutual

/-- **The values that a statement may return.** -/
def returned : Stmt → List Expr
  | .block _ _ body => returnedOfAll body
  | .ifThen _ _ t => t.returned
  | .ifElse _ _ t e => t.returned ++ e.returned
  | .forLoop _ _ _ _ body => body.returned
  | .return _ v => v.toList
  | .evaluation .. | .write .. | .break _ | .continue _ => []

/-- The values that statements may return. -/
def returnedOfAll : List Stmt → List Expr
  | [] => []
  | s :: ss => s.returned ++ returnedOfAll ss

end

variable {P : Ty → Prop} {T : TypeTable} {R : Ty}

mutual

/-- **A value that a typed statement returns** fits the type of the result. -/
theorem fits_of_returned : ∀ {st : Stmt} {Γ : Names}, st.Typed P T R Γ → ∀ v ∈ st.returned,
    ∃ u, T.get? v.id = some u ∧ R.Fits u
  | .block _ _ body, _, h, v, hv => fits_of_returnedOfAll h.2 v hv
  | .ifThen _ _ t, _, h, v, hv => fits_of_returned h.2 v hv
  | .ifElse _ _ t e, _, h, v, hv => by
    rcases List.mem_append.mp hv with hv | hv
    · exact fits_of_returned h.2.1 v hv
    · exact fits_of_returned h.2.2 v hv
  | .forLoop _ _ _ _ body, _, h, v, hv => fits_of_returned h.2.2.2 v hv
  | .return _ v, _, h, w, hw => by
    obtain ⟨u, hu, -, hfits⟩ := h w (Option.mem_toList.mp hw)
    exact ⟨u, hu.2.1, hfits⟩
  | .evaluation .., _, _, _, hv | .write .., _, _, _, hv | .break _, _, _, _, hv
  | .continue _, _, _, _, hv => by
    cases hv

/-- As `fits_of_returned`, for several statements. -/
theorem fits_of_returnedOfAll :
    ∀ {ss : List Stmt} {Γ : Names}, AllTyped P T R Γ ss → ∀ v ∈ returnedOfAll ss,
    ∃ u, T.get? v.id = some u ∧ R.Fits u
  | [], _, _, _, hv => by cases hv
  | s :: ss, _, h, v, hv => by
    rcases List.mem_append.mp hv with hv | hv
    · exact fits_of_returned h.1 v hv
    · exact fits_of_returnedOfAll h.2 v hv

end

end Stmt

/-- **A value that a function returns can be assigned to the type of the function**, for any number
of returns in any order, if the pointers in that type are made generic. -/
theorem returned_assignable {nodes : Array Node} {root : NodeId} {t : SyntaxTree}
    (h : SyntaxTree.ofNodes nodes root = .ok t) {T : TypeTable} {σ : SymbolTable}
    (hcheck : Typing.checkTree t = .ok (T, σ)) {f : Function}
    (hf : Decl.define f ∈ t.declarations) :
    ∃ R, T.get? f.signature.id = some R ∧ ∀ v ∈ f.body.stmt.returned,
      ∃ u w, T.get? v.id = some u ∧ R.generic.compatible? .assignment u = some w := by
  have hwritten : ∀ d ∈ t.declarations, ∀ u ∈ d.writtenTypes,
      Typing.Written (fun t => t.containsAuto = false) u := fun _ _ _ _ hu => hu
  have haccepted := (Typing.checkTree_outcome Ty.stable_known h hwritten).1 T σ hcheck
  obtain ⟨R, hR⟩ := haccepted.typed _ hf
  refine ⟨R, hR.result.1, fun v hv => ?_⟩
  obtain ⟨u, hu, hfits⟩ := Stmt.fits_of_returned hR.body v hv
  obtain ⟨w, hw⟩ := Ty.assignable_of_fits hfits
  exact ⟨u, w, hu, hw⟩

/-! ### Pointers that disagree -/

/-- The nodes of a unit with a function that returns a pointer to an `int`, one to a `double`, and
the first one again. -/
def disagreeingNodes : Array Node := #[
  ⟨1, .variableDeclaration .private .int ["c"] none⟩,
  ⟨1, .variableDeclaration .private (.pointer .int) ["p"] none⟩,
  ⟨1, .variableDeclaration .private (.pointer .double) ["q"] none⟩,
  ⟨2, .variable "c"⟩, ⟨2, .rvalue (.ofIndex 3)⟩, ⟨2, .variable "p"⟩, ⟨2, .rvalue (.ofIndex 5)⟩,
  ⟨2, .return (some (.ofIndex 6))⟩, ⟨2, .ifThen (.ofIndex 4) (.ofIndex 7)⟩,
  ⟨3, .variable "c"⟩, ⟨3, .rvalue (.ofIndex 9)⟩, ⟨3, .variable "q"⟩, ⟨3, .rvalue (.ofIndex 11)⟩,
  ⟨3, .return (some (.ofIndex 12))⟩, ⟨3, .ifThen (.ofIndex 10) (.ofIndex 13)⟩,
  ⟨4, .variable "p"⟩, ⟨4, .rvalue (.ofIndex 15)⟩, ⟨4, .return (some (.ofIndex 16))⟩,
  ⟨1, .block [] [.ofIndex 8, .ofIndex 14, .ofIndex 17]⟩,
  ⟨1, .functionDefinition .private .auto "f" [.ofIndex 0, .ofIndex 1, .ofIndex 2] (.ofIndex 18)⟩,
  ⟨1, .program [.ofIndex 19]⟩]

/-- The unit is accepted: the second of three returns makes the pointer generic, and the third gives
it its target back. -/
theorem exists_disagreeing :
    ∃ t T σ f v, SyntaxTree.ofNodes disagreeingNodes (.ofIndex 20) = .ok t ∧
    Typing.checkTree t = .ok (T, σ) ∧ Decl.define f ∈ t.declarations ∧
    f.signature.returnType = .auto ∧
    v ∈ f.body.stmt.returned ∧ T.get? f.signature.id = some (.pointer .int) ∧
    T.get? v.id = some (.pointer .double) := by
  have hok : (SyntaxTree.ofNodes disagreeingNodes (.ofIndex 20)).toOption.any (fun t =>
      (Typing.checkTree t).toOption.any fun r => t.onlyFunction?.any fun f =>
        f.body.stmt.returned.any fun v => decide (f.signature.returnType = .auto ∧
          r.1.get? f.signature.id = some (.pointer .int) ∧
          r.1.get? v.id = some (.pointer .double))) = true := by
    decide +kernel
  obtain ⟨t, ht, hok⟩ := any_toOption.mp hok
  obtain ⟨⟨T, σ⟩, hcheck, hok⟩ := any_toOption.mp hok
  obtain ⟨f, hf, hok⟩ := (Option.any_eq_true _ _).mp hok
  obtain ⟨v, hv, hok⟩ := List.any_eq_true.mp hok
  obtain ⟨hauto, hfun, hvalue⟩ := of_decide_eq_true hok
  have hmem : Decl.define f ∈ t.declarations := by simp [SyntaxTree.onlyFunction?_eq_some.mp hf]
  exact ⟨t, T, σ, f, v, ht, hcheck, hmem, hauto, hv, hfun, hvalue⟩

theorem returned_assignable_disagreeing :
    ∃ t T σ f R, SyntaxTree.ofNodes disagreeingNodes (.ofIndex 20) = .ok t ∧
    Typing.checkTree t = .ok (T, σ) ∧ Decl.define f ∈ t.declarations ∧
    T.get? f.signature.id = some R ∧
    ∀ v ∈ f.body.stmt.returned, ∃ u w, T.get? v.id = some u ∧
    R.generic.compatible? .assignment u = some w := by
  obtain ⟨t, T, σ, f, -, ht, hcheck, hf, -⟩ := exists_disagreeing
  obtain ⟨R, hR, hreturned⟩ := returned_assignable ht hcheck hf
  exact ⟨t, T, σ, f, R, ht, hcheck, hf, hR, hreturned⟩

/-- **A value that a function returns need not be assignable to its type** with the targets of its
pointers. -/
theorem returned_not_assignable :
    ∃ t T σ f v R u, SyntaxTree.ofNodes disagreeingNodes (.ofIndex 20) = .ok t ∧
    Typing.checkTree t = .ok (T, σ) ∧ Decl.define f ∈ t.declarations ∧
    f.signature.returnType = .auto ∧
    v ∈ f.body.stmt.returned ∧ T.get? f.signature.id = some R ∧ T.get? v.id = some u ∧
    R.compatible? .assignment u = none := by
  obtain ⟨t, T, σ, f, v, ht, hcheck, hf, hauto, hv, hR, hu⟩ := exists_disagreeing
  exact ⟨t, T, σ, f, v, _, _, ht, hcheck, hf, hauto, hv, hR, hu, by decide⟩

end PostfixCompiler
