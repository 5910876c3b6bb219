import PostfixCompiler.Proofs.Emission.Standing

/-!
# What the code of a declaration depends on

The code of a declaration is written with the types and the symbols of the whole unit at hand, but
it looks at little of them: at the types of the nodes of the declaration, and of the symbols that
its names stand for at the name, at the parameters and at the place. Here two tables and two scopes
are compared, the second of which may know more names than the first. A name that a typed phrase
uses is known in the first scope already, so **the code and the frame are the same**.

A name that is only known in the second scope may well be that of a local variable. So it is not
enough to compare the scopes at the names of a phrase; they are compared at the names that the first
one knows, and this goes on while local variables are bound.

## Main definitions

* `PostfixCompiler.TypeTable.Same`: two tables hold the same types for some nodes.
* `PostfixCompiler.View.KeptIn`: what is found in one scope is found in another one.

## Main statements

* `PostfixCompiler.Expr.usage_congr`, `PostfixCompiler.Stmt.usage_congr`: what a phrase uses of the
  frame.
* `PostfixCompiler.Expr.code_congr`, `PostfixCompiler.Stmt.code_congr`: the code of a phrase.
* `PostfixCompiler.Decl.frames_congr`, `PostfixCompiler.Decl.code_congr`: the frames and the code of
  declarations.
-/

namespace PostfixCompiler

open Emission

/-! ### Tables and scopes -/

/-- **Two tables hold the same types** for some nodes. -/
def TypeTable.Same (T U : TypeTable) (ids : List NodeId) : Prop :=
  ∀ i ∈ ids, U.typeOf i = T.typeOf i

theorem TypeTable.Same.mono {T U : TypeTable} {is js : List NodeId} (h : T.Same U js)
    (hs : is ⊆ js) : T.Same U is :=
  fun i hi => h i (hs hi)

/-- **Two symbols that code cannot tell apart.** -/
structure Symbol.Matches (s u : Symbol) : Prop where
  /-- They have the same name. -/
  name : u.name = s.name
  /-- They are variables, or functions with the same parameters. -/
  parameters : u.parameters? = s.parameters?
  /-- They are in the same place. -/
  offset : u.offset = s.offset

namespace Symbol.Matches

variable {s u : Symbol}

theorem refl (s : Symbol) : s.Matches s := ⟨rfl, rfl, rfl⟩

theorem labelOf_eq (h : s.Matches u) (config : Config) : config.labelOf u = config.labelOf s := by
  rw [Config.labelOf, Config.labelOf, Symbol.isFunction, Symbol.isFunction, h.name, h.parameters]

theorem isGlobal_eq (h : s.Matches u) : u.isGlobal = s.isGlobal := by
  rw [Symbol.isGlobal, Symbol.isGlobal, h.offset]

end Symbol.Matches

/-- **What is found in one scope is found in another one**, by code that cannot tell the symbols
apart. -/
def View.KeptIn (v w : View Symbol) : Prop :=
  ∀ name s, v name = some s → ∃ u, w name = some u ∧ s.Matches u

/-- The same names are bound in both scopes, and both places are as far. -/
structure Point.KeptIn (pt qt : Point) : Prop where
  /-- What is found in the one scope is found in the other one. -/
  scope : pt.scope.KeptIn qt.scope
  /-- The local variables end in the same place. -/
  cursor : qt.cursor = pt.cursor
  /-- The same number of labels was made up. -/
  labels : qt.labels = pt.labels

namespace View.KeptIn

variable {v w : View Symbol} {config : Config} {name : String} {m : Meaning}

theorem bind (h : v.KeptIn w) (name : String) (s : Symbol) :
    (v.bind name s).KeptIn (w.bind name s) := by
  intro x u hu
  by_cases hx : x = name
  · subst hx
    rw [bind_self] at hu ⊢
    exact ⟨u, hu, .refl u⟩
  · rw [bind_ne _ _ hx] at hu ⊢
    exact h x u hu

theorem place (h : v.KeptIn w) (line : UInt32) (ps : List (String × Ty × Int)) :
    (v.place line ps).KeptIn (w.place line ps) := by
  induction ps generalizing v w with
  | nil => exact h
  | cons p ps ih => exact ih (h.bind _ _)

/-- A name that means something in the one scope stands for symbols in both. -/
theorem exists_symbols (h : v.KeptIn w) (hm : v.meanings name = some m) :
    ∃ s u, v name = some s ∧ w name = some u ∧ s.Matches u := by
  obtain ⟨s, hs, -⟩ := Option.map_eq_some_iff.mp hm
  obtain ⟨u, hu, hsu⟩ := h name s hs
  exact ⟨s, u, hs, hu, hsu⟩

theorem variableInstr_eq (h : v.KeptIn w) (hm : v.meanings name = some m) :
    variableInstr config w name = variableInstr config v name := by
  obtain ⟨s, u, hs, hu, hsu⟩ := h.exists_symbols hm
  simp only [variableInstr, hs, hu, hsu.isGlobal_eq, hsu.labelOf_eq, hsu.offset]

theorem calleeLabel_eq (h : v.KeptIn w) (hm : v.meanings name = some m) :
    calleeLabel config w name = calleeLabel config v name := by
  obtain ⟨s, u, hs, hu, hsu⟩ := h.exists_symbols hm
  simp only [calleeLabel, hs, hu, hsu.labelOf_eq]

theorem calleeParameters_eq (h : v.KeptIn w) (hm : v.meanings name = some m) :
    calleeParameters w name = calleeParameters v name := by
  obtain ⟨s, u, hs, hu, hsu⟩ := h.exists_symbols hm
  simp only [calleeParameters, hs, hu, Symbol.parameters, hsu.parameters]

end View.KeptIn

theorem Point.KeptIn.move {pt qt : Point} (h : pt.KeptIn qt) (bytes labels : Nat) :
    (pt.move bytes labels).KeptIn (qt.move bytes labels) :=
  ⟨h.scope, congrArg (· - (bytes : Int)) h.cursor, congrArg (· + labels) h.labels⟩

/-! ### The use of the frame -/

section Usage

variable {T U : TypeTable}

namespace Expr

theorem type_congr {e : Expr} (hT : T.Same U e.ids) : e.type U = e.type T := hT _ e.id_mem_ids

mutual

/-- **What an expression uses of the frame depends on the types of its nodes only.** -/
theorem usage_congr : ∀ {e : Expr} (mode : Mode), T.Same U e.ids → e.usage U mode = e.usage T mode
  | .integer .., _, _ | .double .., _, _ | .string .., _, _ | .nullptr _, _, _ | .input _, _, _
  | .variable .., _, _ | .sizeof .., _, _ => by rw [usage, usage]
  | .pointerIndex _ a b, _, hT | .assignment _ a b, _, hT | .binary _ _ a b, _, hT => by
    have ha : T.Same U a.ids := hT.mono (by simp [ids])
    have hb : T.Same U b.ids := hT.mono (by simp [ids])
    rw [usage, usage, usage_congr _ ha, usage_congr _ hb]
  | .tupleIndex _ a _, _, hT | .addressOf _ a, _, hT | .unary _ _ a, _, hT
  | .stackAlloc _ a, _, hT => by
    have ha : T.Same U a.ids := hT.mono (by simp [ids])
    rw [usage, usage, usage_congr _ ha]
  | .rvalue s a, _, hT => by
    have ha : T.Same U a.ids := hT.mono (by simp [ids])
    rw [usage, usage, usage_congr _ ha, ownCharge, ownCharge, hT s.id (by simp [ids])]
  | .tuple _ [a], _, hT => by
    have ha : T.Same U a.ids := hT.mono (by simp [ids, idsOfAll])
    rw [usage, usage, usage_congr _ ha]
  | .tuple _ [], _, _ => by simp only [usage, ownCharge, usageOfAll]
  | .tuple s (a :: b :: es), _, hT => by
    have hes : T.Same U (idsOfAll (a :: b :: es)) := hT.mono (by simp [ids])
    simp only [usage, usageOfAll_congr hes, ownCharge, hT s.id (by simp [ids])]
  | .call s _ args, _, hT => by
    have hargs : T.Same U (idsOfAll args) := hT.mono (by simp [ids])
    rw [usage, usage, usageOfAll_congr hargs, hT s.id (by simp [ids])]

/-- As `usage_congr`, for several expressions. -/
theorem usageOfAll_congr :
    ∀ {es : List Expr}, T.Same U (idsOfAll es) → usageOfAll U es = usageOfAll T es
  | [], _ => rfl
  | e :: es, hT => by
    have he : T.Same U e.ids := hT.mono (by simp [idsOfAll])
    have hes : T.Same U (idsOfAll es) := hT.mono (by simp [idsOfAll])
    rw [usageOfAll, usageOfAll, usage_congr _ he, usageOfAll_congr hes]

end

theorem usageOfOption_congr {e : Option Expr} (hT : T.Same U (idsOfOption e)) :
    usageOfOption U e = usageOfOption T e := by
  cases e with
  | none => rfl
  | some e => exact usage_congr .value hT

end Expr

theorem VarDecl.usage_congr {d : VarDecl} (hT : T.Same U d.ids) : d.usage U = d.usage T := by
  have hinit : T.Same U (Expr.idsOfOption d.initializer) := hT.mono (List.subset_cons_self _ _)
  rw [usage, usage, hT d.id List.mem_cons_self, Expr.usageOfOption_congr hinit]

theorem VarDecl.usageOfAll_congr {ds : List VarDecl} (hT : T.Same U (idsOfAll ds)) :
    usageOfAll U ds = usageOfAll T ds := by
  induction ds with
  | nil => rfl
  | cons d ds ih =>
    rw [usageOfAll, usageOfAll, usage_congr (hT.mono (List.subset_append_left _ _)),
      ih (hT.mono (List.subset_append_right _ _))]

theorem LoopInit.usageOfAll_congr {is : List LoopInit} (hT : T.Same U (idsOfAll is)) :
    usageOfAll U is = usageOfAll T is := by
  induction is with
  | nil => rfl
  | cons i is ih =>
    have hi : T.Same U i.ids := hT.mono (List.subset_append_left _ _)
    have husage : i.usage U = i.usage T := by
      cases i with
      | declare d => exact VarDecl.usage_congr hi
      | evaluate e => exact Expr.usage_congr .value hi
    rw [usageOfAll, usageOfAll, husage, ih (hT.mono (List.subset_append_right _ _))]

namespace Stmt

theorem loopCharge_congr {c : Option Expr} (hT : T.Same U (Expr.idsOfOption c)) :
    loopCharge U c = loopCharge T c := by
  cases c with
  | none => rfl
  | some c => rw [loopCharge, loopCharge, Expr.type_congr hT]

mutual

/-- **What a statement uses of the frame depends on the types of its nodes only.** -/
theorem usage_congr : ∀ {st : Stmt}, T.Same U st.ids → st.usage U = st.usage T
  | .block _ ds body, hT => by
    have hds : T.Same U (VarDecl.idsOfAll ds) := hT.mono fun i hi => by simp [ids, hi]
    have hbody : T.Same U (idsOfAll body) := hT.mono fun i hi => by simp [ids, hi]
    rw [usage, usage, VarDecl.usageOfAll_congr hds, usageOfAll_congr hbody]
  | .evaluation _ e, hT => by
    rw [usage, usage, Expr.usage_congr _ (hT.mono (List.subset_cons_self _ _))]
  | .write _ args _, hT => by
    rw [usage, usage, Expr.usageOfAll_congr (hT.mono (List.subset_cons_self _ _))]
  | .ifThen _ c t, hT => by
    have hc : T.Same U c.ids := hT.mono fun i hi => by simp [ids, hi]
    have ht : T.Same U t.ids := hT.mono fun i hi => by simp [ids, hi]
    rw [usage, usage, Expr.usage_congr _ hc, usage_congr ht]
  | .ifElse _ c t e, hT => by
    have hc : T.Same U c.ids := hT.mono fun i hi => by simp [ids, hi]
    have ht : T.Same U t.ids := hT.mono fun i hi => by simp [ids, hi]
    have he : T.Same U e.ids := hT.mono fun i hi => by simp [ids, hi]
    rw [usage, usage, Expr.usage_congr _ hc, usage_congr ht, usage_congr he]
  | .forLoop _ inits c incs body, hT => by
    have hinits : T.Same U (LoopInit.idsOfAll inits) := hT.mono fun i hi => by simp [ids, hi]
    have hc : T.Same U (Expr.idsOfOption c) := hT.mono fun i hi => by simp [ids, hi]
    have hincs : T.Same U (Expr.idsOfAll incs) := hT.mono fun i hi => by simp [ids, hi]
    have hbody : T.Same U body.ids := hT.mono fun i hi => by simp [ids, hi]
    rw [usage, usage, LoopInit.usageOfAll_congr hinits, Expr.usageOfOption_congr hc,
      loopCharge_congr hc, Expr.usageOfAll_congr hincs, usage_congr hbody]
  | .break _, _ | .continue _, _ => by rw [usage, usage]
  | .return _ v, hT => by
    rw [usage, usage, Expr.usageOfOption_congr (hT.mono (List.subset_cons_self _ _))]

/-- As `usage_congr`, for several statements. -/
theorem usageOfAll_congr :
    ∀ {ss : List Stmt}, T.Same U (idsOfAll ss) → usageOfAll U ss = usageOfAll T ss
  | [], _ => by rw [usageOfAll, usageOfAll]
  | st :: ss, hT => by
    have hst : T.Same U st.ids := hT.mono fun i hi => by simp [idsOfAll, hi]
    have hss : T.Same U (idsOfAll ss) := hT.mono fun i hi => by simp [idsOfAll, hi]
    rw [usageOfAll, usageOfAll, usage_congr hst, usageOfAll_congr hss]

end

end Stmt

end Usage

/-! ### Expressions -/

section Code

variable {P : Ty → Prop} {cx : Context} {U : TypeTable}

namespace Expr

variable {v w : View Symbol}

/-- The code of an operator, shape by shape. -/
theorem code_binary_congr {site : Site} {op : BinaryOp} {l r : Expr} {mode : Mode} {n : Nat}
    (hT : cx.types.Same U (binary site op l r).ids)
    (hl : ∀ n, (l.outline { cx with types := U } w .value n).code = (l.outline cx v .value n).code)
    (hr : ∀ n,
      (r.outline { cx with types := U } w .value n).code = (r.outline cx v .value n).code) :
    ((binary site op l r).outline { cx with types := U } w mode n).code =
      ((binary site op l r).outline cx v mode n).code := by
  have htl : l.type U = l.type cx.types := type_congr (hT.mono (by simp [ids]))
  have htr : r.type U = r.type cx.types := type_congr (hT.mono (by simp [ids]))
  have ht : U.typeOf site.id = cx.types.typeOf site.id := hT _ (by simp [ids])
  simp only [outline, Outline.code_piece, htl, htr, ht]
  cases binaryForm op (l.type cx.types) (r.type cx.types) <;>
    simp only [Outline.code_append, Outline.code_ofCode, hl, hr]

mutual

/-- **The code of a typed expression depends on the types of its nodes and on what its names stand
for.** -/
theorem code_congr (hvw : v.KeptIn w) :
    ∀ {e : Expr} {mode : Mode} {n : Nat}, e.Typed P cx.types v.meanings →
    cx.types.Same U e.ids →
    (e.outline { cx with types := U } w mode n).code = (e.outline cx v mode n).code
  | .integer .., mode, n, _, _ | .double .., mode, n, _, _ | .string .., mode, n, _, _
  | .nullptr _, mode, n, _, _ => by
    simp only [outline, Outline.code_piece]
  | .input s, mode, n, _, hT => by
    simp only [outline, Outline.code_piece, hT s.id (by simp [ids])]
  | .variable s name, mode, n, h, hT => by
    -- The name has a type, so the first scope knows it already.
    obtain ⟨t, hname, -⟩ := h
    simp only [outline, Outline.code_piece, hvw.variableInstr_eq hname]
  | .pointerIndex s b i, mode, n, h, hT => by
    have hb : cx.types.Same U b.ids := hT.mono (by simp [ids])
    have hi : cx.types.Same U i.ids := hT.mono (by simp [ids])
    simp only [outline, Outline.code_piece, Outline.code_append, code_congr hvw h.1.1 hb,
      code_congr hvw h.1.2 hi, type_congr hb]
  | .tupleIndex s b i, mode, n, h, hT => by
    have hb : cx.types.Same U b.ids := hT.mono (by simp [ids])
    simp only [outline, Outline.code_piece, Outline.code_append,
      code_congr hvw h.1 hb, type_congr hb]
  | .rvalue s p, mode, n, h, hT => by
    have hp : cx.types.Same U p.ids := hT.mono (by simp [ids])
    simp only [outline, Outline.code_piece, Outline.code_append, code_congr hvw h.1 hp,
      hT s.id (by simp [ids])]
  | .assignment s p x, mode, n, h, hT => by
    have hp : cx.types.Same U p.ids := hT.mono (by simp [ids])
    have hx : cx.types.Same U x.ids := hT.mono (by simp [ids])
    simp only [outline, Outline.code_piece, Outline.code_append, code_congr hvw h.1.1 hp,
      code_congr hvw h.1.2 hx, type_congr hx, hT s.id (by simp [ids])]
  | .unary s op a, mode, n, h, hT => by
    have ha : cx.types.Same U a.ids := hT.mono (by simp [ids])
    simp only [outline, Outline.code_piece, Outline.code_append, code_congr hvw h.1 ha,
      hT s.id (by simp [ids])]
  | .binary s op l r, mode, n, h, hT =>
    code_binary_congr hT (fun _ => code_congr hvw h.1.1 (hT.mono (by simp [ids])))
      fun _ => code_congr hvw h.1.2 (hT.mono (by simp [ids]))
  | .addressOf s p, mode, n, h, hT => by
    have hp : cx.types.Same U p.ids := hT.mono (by simp [ids])
    simp only [outline, Outline.code_piece, code_congr hvw h.1 hp]
  | .stackAlloc s count, mode, n, h, hT => by
    have hc : cx.types.Same U count.ids := hT.mono (by simp [ids])
    simp only [outline, Outline.code_piece, Outline.code_append, code_congr hvw h.1 hc,
      hT s.id (by simp [ids])]
  | .sizeof s e, mode, n, h, hT => by
    have he : cx.types.Same U e.ids := hT.mono (by simp [ids])
    simp only [outline, Outline.code_piece, type_congr he]
  | .tuple s [e], mode, n, h, hT => by
    have he : cx.types.Same U e.ids := hT.mono (by simp [ids, idsOfAll])
    simp only [outline, Outline.code_piece, code_congr hvw h.1.1 he]
  | .tuple s [], mode, n, h, hT => by
    cases mode <;>
      simp only [outline, Outline.code_piece, Outline.code_append, slotOutline, reverseOutline]
  | .tuple s (a :: b :: es), .value, n, h, hT => by
    have hes : cx.types.Same U (idsOfAll (a :: b :: es)) := hT.mono (by simp [ids])
    simp only [outline, Outline.code_piece, code_reverse_congr hvw h.1 hes]
  | .tuple s (a :: b :: es), .address, n, h, hT => by
    have hes : cx.types.Same U (idsOfAll (a :: b :: es)) := hT.mono (by simp [ids])
    simp only [outline, Outline.code_piece, Outline.code_append, code_slot_congr hvw h.1 hes,
      hT s.id (by simp [ids])]
  | .call s name args, mode, n, h, hT => by
    have hargs : cx.types.Same U (idsOfAll args) := hT.mono (by simp [ids])
    obtain ⟨hall, ps, t, hname, -⟩ := h
    simp only [outline, Outline.code_piece, Outline.code_append, hvw.calleeParameters_eq hname,
      hvw.calleeLabel_eq hname, code_arguments_congr hvw hall hargs, hT s.id (by simp [ids])]

/-- As `code_congr`, for the code that builds a tuple in a slot. -/
theorem code_slot_congr (hvw : v.KeptIn w) :
    ∀ {es : List Expr} {slot : Int} {n : Nat} {targets : List Ty} {byte : Nat},
    AllTyped P cx.types v.meanings es → cx.types.Same U (idsOfAll es) →
    (slotOutline { cx with types := U } w slot n es targets byte).code =
      (slotOutline cx v slot n es targets byte).code
  | [], slot, n, targets, byte, _, _ | _ :: _, slot, n, [], byte, _, _ => by simp only [slotOutline]
  | e :: es, slot, n, t :: ts, byte, h, hT => by
    have he : cx.types.Same U e.ids := hT.mono (by simp [idsOfAll])
    have hes : cx.types.Same U (idsOfAll es) := hT.mono (by simp [idsOfAll])
    simp only [slotOutline, Outline.code_append, code_congr hvw h.1 he, type_congr he,
      code_slot_congr hvw h.2 hes]

/-- As `code_congr`, for the code that pushes the elements of a tuple. -/
theorem code_reverse_congr (hvw : v.KeptIn w) :
    ∀ {es : List Expr} {n : Nat}, AllTyped P cx.types v.meanings es →
    cx.types.Same U (idsOfAll es) →
    (reverseOutline { cx with types := U } w n es).code = (reverseOutline cx v n es).code
  | [], n, _, _ => by simp only [reverseOutline]
  | e :: es, n, h, hT => by
    have he : cx.types.Same U e.ids := hT.mono (by simp [idsOfAll])
    have hes : cx.types.Same U (idsOfAll es) := hT.mono (by simp [idsOfAll])
    simp only [reverseOutline, Outline.code_append, code_congr hvw h.1 he,
      code_reverse_congr hvw h.2 hes]

/-- As `code_congr`, for the code that pushes arguments. -/
theorem code_arguments_congr (hvw : v.KeptIn w) : ∀ {es : List Expr} {n : Nat} {ps : List Ty},
    AllTyped P cx.types v.meanings es → cx.types.Same U (idsOfAll es) →
    (argumentsOutline { cx with types := U } w n es ps).code = (argumentsOutline cx v n es ps).code
  | [], n, ps, _, _ | _ :: _, n, [], _, _ => by simp only [argumentsOutline]
  | e :: es, n, p :: ps, h, hT => by
    have he : cx.types.Same U e.ids := hT.mono (by simp [idsOfAll])
    have hes : cx.types.Same U (idsOfAll es) := hT.mono (by simp [idsOfAll])
    simp only [argumentsOutline, Outline.code_append, code_congr hvw h.1 he, type_congr he,
      code_arguments_congr hvw h.2 hes]

end

end Expr

/-! ### Local variables and effects -/

variable {pt qt : Point}

namespace VarDecl

theorem code_congr {d : VarDecl} (hpt : pt.KeptIn qt) (h : d.Typed P cx.types pt.scope.meanings)
    (hT : cx.types.Same U d.ids) :
    (d.outline { cx with types := U } qt).code = (d.outline cx pt).code := by
  have ht : U.typeOf d.id = cx.types.typeOf d.id := hT _ List.mem_cons_self
  obtain ⟨t, -, -, -, hinit⟩ := h
  unfold outline
  cases hd : d.initializer with
  | none => rfl
  | some e =>
    have he : cx.types.Same U e.ids := hT.mono (by simp [ids, hd, Expr.idsOfOption])
    simp only [Outline.code_piece, Outline.code_append, hpt.labels, hpt.cursor, ht,
      Expr.type_congr he, Expr.code_congr hpt.scope (hinit e hd).1 he]

/-- Behind a declaration the same names are bound in both scopes. -/
theorem keptIn_after {T : TypeTable} {d : VarDecl} (hpt : pt.KeptIn qt) (hT : T.Same U d.ids) :
    (d.after T pt).KeptIn (d.after U qt) := by
  have ht : U.typeOf d.id = T.typeOf d.id := hT _ List.mem_cons_self
  unfold after
  rw [ht, hpt.cursor, hpt.labels]
  exact ⟨hpt.scope.place _ _, rfl, rfl⟩

theorem code_all_congr {ds : List VarDecl} (hpt : pt.KeptIn qt)
    (h : AllTyped P cx.types pt.scope.meanings ds) (hT : cx.types.Same U (idsOfAll ds)) :
    (outlineAll { cx with types := U } qt ds).code = (outlineAll cx pt ds).code := by
  induction ds generalizing pt qt with
  | nil => rfl
  | cons d ds ih =>
    have hd : cx.types.Same U d.ids := hT.mono (List.subset_append_left _ _)
    have hrest := h.2
    rw [← meanings_after h.1 pt] at hrest
    rw [outlineAll, outlineAll, Outline.code_append, Outline.code_append, code_congr hpt h.1 hd,
      ih (keptIn_after hpt hd) hrest (hT.mono (List.subset_append_right _ _))]

theorem keptIn_afterAll {T : TypeTable} {ds : List VarDecl} (hpt : pt.KeptIn qt)
    (hT : T.Same U (idsOfAll ds)) :
    (afterAll T pt ds).KeptIn (afterAll U qt ds) := by
  induction ds generalizing pt qt with
  | nil => exact hpt
  | cons d ds ih =>
    exact ih (keptIn_after hpt (hT.mono (List.subset_append_left _ _)))
      (hT.mono (List.subset_append_right _ _))

/-- Arguments are bound to the same places in both scopes. -/
theorem keptIn_argumentScope {T : TypeTable} {v w : View Symbol} {ds : List VarDecl}
    (hvw : v.KeptIn w) (hT : T.Same U (idsOfAll ds)) (offset : Int) :
    (argumentScope T v offset ds).KeptIn (argumentScope U w offset ds) := by
  induction ds generalizing v w offset with
  | nil => exact hvw
  | cons d ds ih =>
    have ht : U.typeOf d.id = T.typeOf d.id := hT _ (List.mem_append_left _ List.mem_cons_self)
    simp only [argumentScope, ht]
    exact ih (hvw.place _ _) (hT.mono (List.subset_append_right _ _)) _

end VarDecl

namespace Expr

theorem code_effect_congr {e : Expr} {t : Ty} (hpt : pt.KeptIn qt)
    (h : e.TypedAs P cx.types pt.scope.meanings t) (hT : cx.types.Same U e.ids) :
    (e.effectOutline { cx with types := U } qt).code = (e.effectOutline cx pt).code := by
  simp only [effectOutline, Outline.code_piece, Outline.code_append, hpt.labels, type_congr hT,
    code_congr hpt.scope h.1 hT]

theorem code_effects_congr {es : List Expr} (hpt : pt.KeptIn qt)
    (h : ∀ e ∈ es, ∃ t, e.TypedAs P cx.types pt.scope.meanings t)
    (hT : cx.types.Same U (idsOfAll es)) :
    (effectOutlineOfAll { cx with types := U } qt es).code =
      (effectOutlineOfAll cx pt es).code := by
  induction es generalizing pt qt with
  | nil => rfl
  | cons e es ih =>
    rw [List.forall_mem_cons] at h
    obtain ⟨⟨t, ht⟩, hes⟩ := h
    rw [effectOutlineOfAll, effectOutlineOfAll, Outline.code_append, Outline.code_append,
      code_effect_congr hpt ht (hT.mono (by simp [idsOfAll])),
      ih (hpt.move _ _) hes (hT.mono (by simp [idsOfAll]))]

theorem code_print_congr {es : List Expr} (hpt : pt.KeptIn qt)
    (h : ∀ e ∈ es, ∃ t, e.TypedAs P cx.types pt.scope.meanings t ∧ t.isPrintable = true)
    (hT : cx.types.Same U (idsOfAll es)) :
    (printOutline { cx with types := U } qt es).code = (printOutline cx pt es).code := by
  induction es generalizing pt qt with
  | nil => rfl
  | cons e es ih =>
    rw [List.forall_mem_cons] at h
    obtain ⟨⟨t, ht, -⟩, hes⟩ := h
    have he : cx.types.Same U e.ids := hT.mono (by simp [idsOfAll])
    simp only [printOutline, Outline.code_append, Outline.code_piece, hpt.labels, type_congr he,
      code_congr hpt.scope ht.1 he, ih (hpt.move _ _) hes (hT.mono (by simp [idsOfAll]))]

theorem code_test_congr {c : Expr} {t : Ty} (hpt : pt.KeptIn qt)
    (h : c.TypedAs P cx.types pt.scope.meanings t) (hT : cx.types.Same U c.ids) (keep : List Instr)
    (otherwise : String) :
    (c.testOutline { cx with types := U } qt keep otherwise).code =
      (c.testOutline cx pt keep otherwise).code := by
  simp only [testOutline, Outline.code_append, Outline.code_piece, hpt.labels,
    code_congr hpt.scope h.1 hT]

end Expr

namespace LoopInit

theorem code_congr {i : LoopInit} (hpt : pt.KeptIn qt) (h : i.Typed P cx.types pt.scope.meanings)
    (hT : cx.types.Same U i.ids) :
    (i.outline { cx with types := U } qt).code = (i.outline cx pt).code := by
  cases i with
  | declare d => exact VarDecl.code_congr hpt h hT
  | evaluate e =>
    obtain ⟨t, ht⟩ := h
    exact Expr.code_effect_congr hpt ht hT

theorem keptIn_after {T : TypeTable} {i : LoopInit} (hpt : pt.KeptIn qt) (hT : T.Same U i.ids) :
    (i.after T pt).KeptIn (i.after U qt) := by
  cases i with
  | declare d => exact VarDecl.keptIn_after hpt hT
  | evaluate e => exact hpt.move _ _

theorem code_all_congr {is : List LoopInit} (hpt : pt.KeptIn qt)
    (h : AllTyped P cx.types pt.scope.meanings is) (hT : cx.types.Same U (idsOfAll is)) :
    (outlineAll { cx with types := U } qt is).code = (outlineAll cx pt is).code := by
  induction is generalizing pt qt with
  | nil => rfl
  | cons i is ih =>
    have hi : cx.types.Same U i.ids := hT.mono (List.subset_append_left _ _)
    have hrest := h.2
    rw [← meanings_after h.1 pt] at hrest
    rw [outlineAll, outlineAll, Outline.code_append, Outline.code_append, code_congr hpt h.1 hi,
      ih (keptIn_after hpt hi) hrest (hT.mono (List.subset_append_right _ _))]

theorem keptIn_afterAll {T : TypeTable} {is : List LoopInit} (hpt : pt.KeptIn qt)
    (hT : T.Same U (idsOfAll is)) :
    (afterAll T pt is).KeptIn (afterAll U qt is) := by
  induction is generalizing pt qt with
  | nil => exact hpt
  | cons i is ih =>
    exact ih (keptIn_after hpt (hT.mono (List.subset_append_left _ _)))
      (hT.mono (List.subset_append_right _ _))

end LoopInit

namespace Emission

theorem code_loopTest_congr {id : NodeId} {done : String} {c : Option Expr} (hpt : pt.KeptIn qt)
    (h : ∀ e ∈ c, ∃ t, e.TypedAs P cx.types pt.scope.meanings t ∧ t.components.getLast? = some .int)
    (hT : cx.types.Same U (Expr.idsOfOption c)) :
    (loopTestOutline { cx with types := U } qt id done c).code =
      (loopTestOutline cx pt id done c).code := by
  cases c with
  | none => rfl
  | some c =>
    obtain ⟨t, ht, -⟩ := h c rfl
    simp only [loopTestOutline, Expr.type_congr hT, Expr.code_test_congr hpt ht hT]

theorem code_return_congr {e : Expr} (hpt : pt.KeptIn qt) (h : e.Typed P cx.types pt.scope.meanings)
    (hT : cx.types.Same U e.ids) :
    (returnOutline { cx with types := U } qt e).code = (returnOutline cx pt e).code := by
  have hcode : ∀ n, (e.outline { cx with types := U } qt.scope .value n).code =
      (e.outline cx pt.scope .value n).code :=
    fun _ => Expr.code_congr hpt.scope h hT
  unfold returnOutline
  dsimp only
  split <;> simp only [Outline.code_append, hpt.labels, Expr.type_congr hT, hcode]

/-- The labels of a loop are those that the place of its first round makes up. -/
theorem inLoop_congr (hpt : pt.KeptIn qt) :
    ({ cx with types := U } : Context).inLoop qt = { cx.inLoop pt with types := U } := by
  rw [Context.inLoop, Context.inLoop, hpt.labels]

end Emission

/-! ### Statements -/

namespace Stmt

mutual

/-- **The code of a statement depends on the types of its nodes and on what its names stand
for.** -/
theorem code_congr (hP : Ty.Stable P) :
    ∀ {st : Stmt} {cx : Context} {pt qt : Point} {inLoop : Bool}, pt.KeptIn qt →
    st.Stands P cx pt inLoop → cx.types.Same U st.ids →
    (st.outline { cx with types := U } qt).code = (st.outline cx pt).code
  | .block _ ds body, cx, pt, qt, inLoop, hpt, h, hT => by
    have hds : cx.types.Same U (VarDecl.idsOfAll ds) := hT.mono fun i hi => by simp [ids, hi]
    have hbody : cx.types.Same U (idsOfAll body) := hT.mono fun i hi => by simp [ids, hi]
    obtain ⟨htyped, -, hstand⟩ := h.block hP
    simp only [outline, Outline.code_piece, Outline.code_append,
      VarDecl.code_all_congr hpt htyped hds,
      code_all_congr hP (VarDecl.keptIn_afterAll hpt hds) hstand hbody]
  | .evaluation _ e, cx, pt, qt, inLoop, hpt, h, hT => by
    obtain ⟨t, ht⟩ := h.typed
    simp only [outline, Outline.code_piece,
      Expr.code_effect_congr hpt ht (hT.mono (List.subset_cons_self _ _))]
  | .write _ args newline, cx, pt, qt, inLoop, hpt, h, hT => by
    simp only [outline, Outline.code_piece, Outline.code_append,
      Expr.code_print_congr hpt h.typed (hT.mono (List.subset_cons_self _ _))]
  | .ifThen _ c t, cx, pt, qt, inLoop, hpt, h, hT => by
    have hc : cx.types.Same U c.ids := hT.mono fun i hi => by simp [ids, hi]
    have ht : cx.types.Same U t.ids := hT.mono fun i hi => by simp [ids, hi]
    obtain ⟨hcond, -, hthen⟩ := h.ifThen
    simp only [outline, Outline.code_piece, Outline.code_append, hpt.labels,
      Expr.code_test_congr (hpt.move _ _) hcond hc,
      code_congr hP (hpt.move _ _) (hthen.move _ _) ht]
  | .ifElse _ c t e, cx, pt, qt, inLoop, hpt, h, hT => by
    have hc : cx.types.Same U c.ids := hT.mono fun i hi => by simp [ids, hi]
    have ht : cx.types.Same U t.ids := hT.mono fun i hi => by simp [ids, hi]
    have he : cx.types.Same U e.ids := hT.mono fun i hi => by simp [ids, hi]
    obtain ⟨hcond, -, hthen, helse⟩ := h.ifElse
    simp only [outline, Outline.code_piece, Outline.code_append, hpt.labels, usage_congr ht,
      Expr.code_test_congr (hpt.move _ _) hcond hc,
      code_congr hP (hpt.move _ _) (hthen.move _ _) ht,
      code_congr hP (hpt.move _ _) (helse.move _ _) he]
  | .forLoop _ inits c incs body, cx, pt, qt, inLoop, hpt, h, hT => by
    have hinits : cx.types.Same U (LoopInit.idsOfAll inits) := hT.mono fun i hi => by simp [ids, hi]
    have hc : cx.types.Same U (Expr.idsOfOption c) := hT.mono fun i hi => by simp [ids, hi]
    have hincs : cx.types.Same U (Expr.idsOfAll incs) := hT.mono fun i hi => by simp [ids, hi]
    have hbody : cx.types.Same U body.ids := hT.mono fun i hi => by simp [ids, hi]
    obtain ⟨htyped, -, hround⟩ := h.forLoop hP
    have hstart := LoopInit.keptIn_afterAll hpt hinits
    simp only [outline, Outline.code_piece, Outline.code_append,
      LoopInit.code_all_congr hpt htyped hinits, hstart.labels, usage_congr hbody,
      inLoop_congr hstart, code_loopTest_congr (hstart.move _ _) hround.condition hc,
      code_congr hP (hstart.move _ _) (hround.body.move _ _) hbody,
      Expr.code_effects_congr ((hstart.move _ _).move _ _) hround.increments hincs]
  | .break _, cx, pt, qt, inLoop, _, _, _ => by
    simp only [outline, Outline.code_piece, doneLabel]
  | .continue _, cx, pt, qt, inLoop, _, _, _ => by
    simp only [outline, Outline.code_piece, incrementLabel]
  | .return _ none, cx, pt, qt, inLoop, _, _, _ => by
    simp only [outline, Outline.code_piece]
  | .return _ (some e), cx, pt, qt, inLoop, hpt, h, hT => by
    obtain ⟨t, ht, -⟩ := h.typed e rfl
    simp only [outline, leaveOutline, Outline.code_piece, Outline.code_append,
      code_return_congr hpt ht.1 (hT.mono (List.subset_cons_self _ _))]

/-- As `code_congr`, for several statements. -/
theorem code_all_congr (hP : Ty.Stable P) :
    ∀ {ss : List Stmt} {cx : Context} {pt qt : Point} {inLoop : Bool},
    pt.KeptIn qt → AllStand P cx pt inLoop ss → cx.types.Same U (idsOfAll ss) →
    (outlineAll { cx with types := U } qt ss).code = (outlineAll cx pt ss).code
  | [], cx, pt, qt, inLoop, _, _, _ => by simp only [outlineAll]
  | st :: ss, cx, pt, qt, inLoop, hpt, h, hT => by
    have hst : cx.types.Same U st.ids := hT.mono fun i hi => by simp [idsOfAll, hi]
    have hss : cx.types.Same U (idsOfAll ss) := hT.mono fun i hi => by simp [idsOfAll, hi]
    obtain ⟨hfirst, hrest⟩ := h.cons
    simp only [outlineAll, Outline.code_append, usage_congr hst, code_congr hP hpt hfirst hst,
      code_all_congr hP (hpt.move _ _) (hrest _ _) hss]

end

end Stmt

end Code

/-! ### Functions and declarations -/

section Declarations

variable {P : Ty → Prop} {T U : TypeTable} {v w : View Symbol} {config : Config}

namespace Function

variable {f : Function}

/-- **The frame of a function depends on the types of its nodes only.** -/
theorem frame_congr (hT : T.Same U f.ids) : f.frame U = f.frame T := by
  have hresult : U.typeOf f.signature.id = T.typeOf f.signature.id :=
    hT _ (by simp [ids, Signature.ids])
  have hbody : T.Same U f.body.stmt.ids := hT.mono (List.subset_append_right _ _)
  simp only [frame, hresult, Stmt.usage_congr hbody]

/-- **The code of a typed function depends on the types of its nodes and on what its names stand
for.** -/
theorem code_congr (hP : Ty.Stable P) {R : Ty} (hvw : v.KeptIn w) (hΓ : View.Settled P v.meanings)
    (h : f.Typed P T v.meanings R) (hw : f.WellPlaced) (hT : T.Same U f.ids) (n : Nat) :
    (f.outline U config w n).code = (f.outline T config v n).code := by
  have hresult : U.typeOf f.signature.id = T.typeOf f.signature.id :=
    hT _ (by simp [ids, Signature.ids])
  have harguments : T.Same U (VarDecl.idsOfAll f.signature.arguments) :=
    hT.mono fun i hi => by simp [ids, Signature.ids, hi]
  have hbody : T.Same U f.body.stmt.ids := hT.mono (List.subset_append_right _ _)
  obtain ⟨ps, hname⟩ := h.name
  -- Around the body the code depends on the frame, the type of the result and the places of the
  -- arguments.
  have hhead : f.head U config w = f.head T config v := by
    simp only [head, hvw.calleeLabel_eq hname, frame_congr hT]
  have hcontext : f.context U config = { f.context T config with types := U } := by
    rw [context, context, frame_congr hT, hresult]
  have hentry : (f.entry T v n).KeptIn (f.entry U w n) := by
    unfold entry
    rw [hresult]
    exact ⟨VarDecl.keptIn_argumentScope hvw harguments _, rfl, rfl⟩
  have hstands : f.body.stmt.Stands P (f.context T config) (f.entry T v n) false :=
    f.stands hP hΓ h hw
  have hcode := Stmt.code_congr hP hentry hstands hbody
  have htail : f.tail U = f.tail T := by
    rw [tail, tail, hresult]
  simp only [outline, Outline.code_piece, Outline.code_append, hhead, hcontext, hcode, htail]

end Function

namespace Decl

/-- **The frames of declarations depend on the types of their nodes only.** -/
theorem frames_congr {ds : List Decl} (hT : T.Same U (idsOfAll ds)) :
    frames U ds = frames T ds := by
  induction ds with
  | nil => rfl
  | cons d ds ih =>
    have hrest := ih (hT.mono (List.subset_append_right _ _))
    cases d with
    | «variable» | declare => exact hrest
    | define f =>
        rw [frames, frames, hrest, Function.frame_congr (hT.mono (List.subset_append_left _ _))]

/-- **The code of typed declarations depends on the types of their nodes and on what their names
stand for.** -/
theorem code_congr (hP : Ty.Stable P) {ds : List Decl} (hvw : v.KeptIn w)
    (hΓ : View.Settled P v.meanings) (h : ∀ d ∈ ds, d.Typed P T v.meanings)
    (hw : ∀ d ∈ ds, d.WellPlaced) (hT : T.Same U (idsOfAll ds)) (n : Nat) :
    (outlineOfAll U config w n ds).code = (outlineOfAll T config v n ds).code := by
  induction ds generalizing n with
  | nil => rfl
  | cons d ds ih =>
    rw [List.forall_mem_cons] at h hw
    have hd : T.Same U d.ids := hT.mono (List.subset_append_left _ _)
    have hfirst : (d.outline U config w n).code = (d.outline T config v n).code := by
      cases d with
      | «variable» d =>
          rw [outline, outline, VarDecl.layCode, VarDecl.layCode, hd d.id List.mem_cons_self]
      | declare => rfl
      | define f =>
        obtain ⟨R, hf⟩ := h.1
        exact Function.code_congr hP hvw hΓ hf hw.1 hd n
    rw [outlineOfAll, outlineOfAll, Outline.code_append, Outline.code_append, hfirst,
      ih h.2 hw.2 (hT.mono (List.subset_append_right _ _))]

end Decl

end Declarations

end PostfixCompiler
