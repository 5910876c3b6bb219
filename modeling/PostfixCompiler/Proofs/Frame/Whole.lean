import PostfixCompiler.Proofs.Frame.Access
import PostfixCompiler.Proofs.Typing.Uses

/-!
# Values are moved whole

A value is moved between the stack and a place leaf by leaf, each leaf by one instruction that moves
a word or a double. A type without a value among the leaves would make such an instruction move a
word where nothing is: it would read what is not there, and write over what lies behind.

The checker keeps away from there what it infers. A component of a tuple has a value, a pointer that
is followed leads to one, and so does a place that is read; only a call can be without a value. Of a
type that is written it looks at the type as a whole and not at its components, so nothing is found
wrong with a tuple in which a component is written without a value. If no such tuple is written, all
values are moved whole.

## Main definitions

* `PostfixCompiler.Ty.Whole`: each leaf of a value is moved by an instruction that moves just its
  bytes.

## Main statements

* `PostfixCompiler.Expr.Typed.solid_or_call`: a typed expression has a value, or it is a call.
* `PostfixCompiler.values_moved_whole`: the values of variables, functions and expressions are moved
  whole.
-/

namespace PostfixCompiler

open Emission

/-! ### Leaves and instructions -/

namespace Ty

/-- **A value of the type is moved whole**: it is made of words and doubles, and the instructions
that fetch and store a leaf move as many bytes as the leaf takes. -/
structure Whole (t : Ty) : Prop where
  /-- The value is made of words and doubles. -/
  solid : t.Solid
  /-- A leaf is fetched whole. -/
  load : ∀ l ∈ t.leaves, width? (loadInstr l) = some l.size
  /-- A leaf is stored whole, whatever it is stored from. -/
  store : ∀ l ∈ t.leaves, ∀ push source byte,
    (storeInstrs push l source byte).getLast?.bind width? = some l.size

theorem Scalar.width_storeInstrs {t : Ty} (h : t.Scalar) (push : Nat → List Instr)
    (source : Ty) (byte : Nat) :
    (storeInstrs push t source byte).getLast?.bind width? = some t.size := by
  rw [storeInstrs_scalar h, List.getLast?_append, List.getLast?_singleton, Option.some_or,
    Option.bind_some]
  exact width_storeInstr h

theorem Solid.whole {t : Ty} (h : t.Solid) : t.Whole :=
  ⟨h, fun l hl => width_loadInstr (h l hl), fun l hl push source byte =>
    (h l hl).width_storeInstrs push source byte⟩

end Ty

/-! ### Expressions -/

/-- **A typed expression has a value, or it is a call**, if the components of tuples have values. -/
theorem Expr.Typed.solid_or_call {T : TypeTable} {Γ : Names}
    (hΓ : View.Settled Ty.Full Γ) {x : Expr} (h : x.Typed Ty.Full T Γ) (hw : x.WellPlaced) :
    ∃ t, T.get? x.id = some t ∧
    (t.Solid ∨ t = .void ∧ ∃ site name args, x = .call site name args) := by
  have hplace : ∀ {p : Expr} {t : Ty}, p.Typed Ty.Full T Γ → T.get? p.id = some t →
      p.isPlace = true → t ≠ .void :=
    fun hp ht hplace => hp.ne_void_of_isPlace (fun h => h.ne_void) hΓ ht hplace
  obtain ⟨t, ht, hfull | ⟨u, rfl⟩⟩ := h.exists_type Ty.stable_full hΓ
  swap
  · exact ⟨_, ht, .inl (Ty.solid_of_scalar ⟨rfl, by simp, by simp⟩)⟩
  refine ⟨t, ht, ?_⟩
  by_cases hv : t = .void
  swap
  · exact .inl (hfull.solid hv)
  -- The type is that of no value, which the rule of every node but a call excludes.
  subst hv
  cases x with
  | call site name args => exact .inr ⟨rfl, site, name, args, rfl⟩
  | integer | double | string | nullptr => cases ht.symm.trans h
  | input => rcases h with h | h <;> cases ht.symm.trans h
  | «variable» | pointerIndex | tupleIndex => exact absurd rfl (hplace h ht rfl)
  | rvalue =>
    obtain ⟨hp, t, ⟨hpt, -⟩, hs⟩ := h
    cases ht.symm.trans hs
    exact absurd rfl (hplace hp hpt hw.1)
  | assignment =>
    obtain ⟨⟨hp, -⟩, t, u, ⟨hpt, -⟩, -, -, -, hs⟩ := h
    cases ht.symm.trans hs
    exact absurd rfl (hplace hp hpt hw.1.1)
  | unary site op a =>
    obtain ⟨-, t, -, haccepts, hs⟩ := h
    cases ht.symm.trans hs
    cases op <;> cases haccepts
  | binary =>
    obtain ⟨-, t, u, v, -, -, hresult, hs⟩ := h
    cases ht.symm.trans hs
    exact absurd rfl (BinaryOp.ne_void_of_resultType hresult)
  | addressOf =>
    obtain ⟨-, t, -, hs⟩ := h
    cases ht.symm.trans hs
  | stackAlloc =>
    obtain ⟨-, -, t, hs⟩ := h
    cases ht.symm.trans hs
  | sizeof => cases ht.symm.trans h.2
  | tuple =>
    obtain ⟨-, ts, hne, hts, hs⟩ := h
    have hvalues := (stable_ofComponents Ty.stable_full hne fun t ht => by
      obtain ⟨e, -, u, -, rfl, hu⟩ := exists_of_mem_right hts ht
      exact hu).2
    exact absurd (Option.some.inj (hs.symm.trans ht)) hvalues

/-! ### Units -/

variable {nodes : Array Node} {root : NodeId} {t : SyntaxTree} {T : TypeTable} {σ : SymbolTable}

/-- **All values are moved whole**, if the components of the tuples that are written have values:
those of variables and arguments, those that functions return, and those of expressions. Only a
function, and a call of one, can be without a value. -/
theorem values_moved_whole (h : SyntaxTree.ofNodes nodes root = .ok t)
    (ht : ∀ d ∈ t.declarations, ∀ u ∈ d.writtenTypes, u.Valued)
    (hcheck : Typing.checkTree t = .ok (T, σ)) :
    (∀ d ∈ t.varDecls, d.Has Ty.Whole T) ∧
    (∀ f, Decl.define f ∈ t.declarations →
      ∃ R, T.get? f.signature.id = some R ∧ (R = .void ∨ R.Whole)) ∧
    (∀ id sym, σ.get? id = some sym → sym.type = .void ∨ sym.type.Whole ∨
      sym.type = .auto ∧ sym.isAuto = true) ∧
    ∀ u ∈ t.uses T σ.names, ∀ x : Expr, x.Part u.expr →
      ∃ ty, T.get? x.id = some ty ∧
      (ty.Whole ∨ ty = .void ∧ ∃ site name args, x = .call site name args) := by
  have hwritten : ∀ d ∈ t.declarations, ∀ u ∈ d.writtenTypes, Typing.Written Ty.Full u :=
    fun d hd u hu hknown => ⟨hknown, ht d hd u hu⟩
  have haccepted := (Typing.checkTree_outcome Ty.stable_full h hwritten).1 T σ hcheck
  have hresult : ∀ {R : Ty}, R.Full → R = .void ∨ R.Whole := fun {R} hR => by
    by_cases hv : R = .void
    · exact .inl hv
    · exact .inr (hR.solid hv).whole
  refine ⟨fun v hv => ?_, fun f hf => ?_, fun id sym hsym => ?_, fun u hu x hx => ?_⟩
  · obtain ⟨d, hd, hv⟩ := List.mem_flatMap.mp hv
    exact ((haccepted.typed d hd).varDecls v hv).imp fun _ h => (h.1.solid h.2).whole
  · obtain ⟨R, hR⟩ := haccepted.typed _ hf
    exact ⟨R, hR.result.1, hresult hR.result.2.2⟩
  · rcases (haccepted.settled id sym hsym).type with hauto | hfull
    · exact .inr (.inr hauto)
    · exact (hresult hfull).imp_right .inl
  · obtain ⟨d, hd, hu⟩ := List.mem_flatMap.mp hu
    have hstands := (haccepted.typed d hd).uses Ty.stable_full haccepted.names u hu
    have hplaced := Decl.wellPlaced_uses (SyntaxTree.wellPlaced h d hd) u hu
    obtain ⟨ty, hty, hvalue⟩ :=
      (hstands.typed.part hx).solid_or_call hstands.settled (hplaced.part hx)
    exact ⟨ty, hty, hvalue.imp_left Ty.Solid.whole⟩

theorem values_moved_whole_sample : ∃ t T σ, SyntaxTree.ofNodes sampleNodes (.ofIndex 21) = .ok t ∧
    (∀ d ∈ t.declarations, ∀ u ∈ d.writtenTypes, u.Valued) ∧ Typing.checkTree t = .ok (T, σ) ∧
    ∀ d ∈ t.varDecls, d.Has Ty.Whole T := by
  obtain ⟨t, T, σ, f, ht, hcheck, -, hproper, -⟩ := exists_sample_function
  have hvalued : ∀ d ∈ t.declarations, ∀ u ∈ d.writtenTypes, u.Valued :=
    fun d hd u hu => (hproper d hd u hu).valued
  exact ⟨t, T, σ, ht, hvalued, hcheck, (values_moved_whole ht hvalued hcheck).1⟩

/-- The nodes of a unit with a variable that is written with a component without a value. -/
def voidNodes : Array Node := #[
  ⟨1, .variableDeclaration .private (.tuple [.int, .void]) ["x"] none⟩,
  ⟨1, .integer 0⟩, ⟨1, .return (some (.ofIndex 1))⟩, ⟨1, .block [.ofIndex 0] [.ofIndex 2]⟩,
  ⟨1, .functionDefinition .private .int "f" [] (.ofIndex 3)⟩, ⟨1, .program [.ofIndex 4]⟩]

/-- **A variable may have a component without a value**: the unit is accepted, and of the two
components of its variable the second takes no bytes and is fetched as a word. -/
theorem component_without_value : ∃ t T σ, SyntaxTree.ofNodes voidNodes (.ofIndex 5) = .ok t ∧
    Typing.checkTree t = .ok (T, σ) ∧ ∃ d ∈ t.varDecls, T.get? d.id = some (.tuple [.int, .void]) ∧
      Ty.void ∈ (Ty.tuple [.int, .void]).leaves ∧ Ty.void.size = 0 ∧
      width? (loadInstr .void) = some 4 := by
  have hok : (SyntaxTree.ofNodes voidNodes (.ofIndex 5)).toOption.any (fun t =>
      (Typing.checkTree t).toOption.any fun r =>
        t.varDecls.any fun d => decide (r.1.get? d.id = some (.tuple [.int, .void]))) = true := by
    decide +kernel
  obtain ⟨t, ht, hok⟩ := any_toOption.mp hok
  obtain ⟨⟨T, σ⟩, hcheck, hok⟩ := any_toOption.mp hok
  obtain ⟨d, hd, htype⟩ := List.any_eq_true.mp hok
  exact ⟨t, T, σ, ht, hcheck, d, hd, of_decide_eq_true htype, by decide, rfl, rfl⟩

end PostfixCompiler
