import Mathlib.Data.List.DropRight
import PostfixCompiler.Postfix.Listing
import PostfixCompiler.Proofs.Emission.Locality
import PostfixCompiler.Proofs.Linkage.Labels
import PostfixCompiler.Proofs.Syntax.Below
import PostfixCompiler.Proofs.Typing.Steps

/-!
# Declarations behind a unit

A unit is checked from its first declaration to its last, so what is accepted at the start of a
longer unit is accepted alone. The code of the unit is only written when all of it is checked, and
with all of its symbols at hand: a function may be called that is defined behind the call. But from
the names that the first declarations use, the further ones change at most what their code does not
look at – whether a function is defined by now, and the type of its result, which is recorded at
each call. So **the further declarations change neither the types nor the code nor the frames** of
the first ones. The labels that other units have to place are those of the whole unit, and they
stand behind all code.

## Main definitions

* `PostfixCompiler.Compilation.own`: the code of a unit without the labels that other units have to
  place.

## Main statements

* `PostfixCompiler.Typing.exists_checkTree`: what is accepted at the start of a longer unit is
  accepted alone.
* `PostfixCompiler.Typing.Accepted.keptIn`: the names of a unit are found in the longer one.
* `PostfixCompiler.later_declarations_keep_code`: further declarations do not change the code of
  those before.
-/

namespace PostfixCompiler

open Emission

/-! ### The check of a longer unit -/

namespace Typing

/-- A unit is checked from its first declaration to its last. -/
theorem checkDecls_append (ds more : List Decl) :
    checkDecls (ds ++ more) = checkDecls ds >>= fun _ => checkDecls more := by
  induction ds with
  | nil =>
    rw [List.nil_append, checkDecls, pure_bind]
  | cons d ds ih =>
    simp only [List.cons_append, checkDecls, ih, bind_assoc]

/-- Before the check of a unit no state knows how large its table is. -/
theorem like_start (m n : Nat) : (State.start (.ofSize m)).Like (.start (.ofSize n)) := by
  have hnone : ∀ n id, (TypeTable.ofSize n).get? id = none := fun n id => by
    rw [TypeTable.get?, TypeTable.ofSize, Array.getElem?_replicate]
    split <;> rfl
  exact ⟨fun id => (hnone m id).trans (hnone n id).symm, rfl, rfl, rfl⟩

/-- The check of declarations does not see how large the table is. -/
theorem exists_checkDecls_ofSize {ds : List Decl} {n : Nat} {s : State}
    (h : checkDecls ds (.start (.ofSize n)) = .ok () s) (m : Nat) :
    ∃ u, checkDecls ds (.start (.ofSize m)) = .ok () u ∧ s.Like u := by
  have hsteps : Steps (fun _ => True) (fun _ => True) (checkDecls ds) :=
    steps_checkDecls (fun _ => trivial) trivial fun _ _ _ _ => trivial
  have halike := hsteps.alike (like_start n m)
  rw [h] at halike
  cases hown : checkDecls ds (.start (.ofSize m)) with
  | error e u =>
    rw [hown] at halike
    cases halike
  | ok a u =>
    rw [hown] at halike
    cases halike with
    | ok _ hlike => exact ⟨u, rfl, hlike⟩

variable {nodes : Array Node} {root : NodeId} {t t' : SyntaxTree} {T' : TypeTable}
  {σ' : SymbolTable}

/-- Further declarations leave the types of those before alone, and no symbol or name is lost behind
them. -/
theorem exists_checkDecls_initial (h : SyntaxTree.ofNodes nodes root = .ok t') {ds more : List Decl}
    (hds : t'.declarations = ds ++ more) {s' : State}
    (hcheck : checkDecls t'.declarations (.start (.ofSize t'.size)) = .ok () s') :
    ∃ s, checkDecls ds (.start (.ofSize t'.size)) = .ok () s ∧
      (∀ i ∈ Decl.idsOfAll ds, s'.types.get? i = s.types.get? i) ∧
      s.symbols.Extends s'.symbols := by
  rw [hds, checkDecls_append] at hcheck
  obtain ⟨_, s, hfirst, hmore⟩ := exists_of_bind hcheck
  have hplaced := SyntaxTree.wellPlaced h
  have hready := ready_start h
  rw [hds, Decl.idsOfAll_eq_flatMap,
    List.flatMap_append, ← Decl.idsOfAll_eq_flatMap, ← Decl.idsOfAll_eq_flatMap]
    at hready
  rw [hds, List.forall_mem_append] at hplaced
  obtain ⟨hready, hwaits, hdisjoint⟩ := ready_append.mp hready
  -- The check of the first declarations leaves the slots of the further ones open.
  have hends :=
    ends_checkDecls Ty.stable_known (good_start _) rfl hready hplaced.1 fun _ _ _ _ h => h
  rw [Ends, hfirst] at hends
  obtain ⟨hmoves, haccepted⟩ := hends
  have hgood : Good Ty.Known s := ⟨haccepted.closed, haccepted.settled, fun i hi => by
    cases hmoves.function.symm.trans hi⟩
  have hends :=
    ends_checkDecls Ty.stable_known hgood haccepted.locals (hmoves.ready hwaits hdisjoint) hplaced.2
    fun _ _ _ _ h => h
  rw [Ends, hmore] at hends
  obtain ⟨hmoves, -⟩ := hends
  exact ⟨s, hfirst, fun i hi => hmoves.types i (hdisjoint i hi), hmoves.symbols⟩

/-- **What is accepted at the start of a longer unit is accepted alone**, with the same types, and
no symbol or name is lost behind it. -/
theorem exists_checkTree (h : SyntaxTree.ofNodes nodes root = .ok t') {more : List Decl}
    (hds : t'.declarations = t.declarations ++ more) (hcheck : checkTree t' = .ok (T', σ')) :
    ∃ T σ, checkTree t = .ok (T, σ) ∧ (∀ i ∈ Decl.idsOfAll t.declarations, T.get? i = T'.get? i) ∧
    σ.Extends σ' := by
  obtain ⟨s', hs', rfl, rfl⟩ := checkTree_eq_ok.mp hcheck
  obtain ⟨s, hfirst, htypes, hsymbols⟩ := exists_checkDecls_initial h hds hs'
  obtain ⟨u, hown, hlike⟩ := exists_checkDecls_ofSize hfirst t.size
  refine ⟨u.types, u.symbols, checkTree_eq_ok.mpr ⟨u, hown, rfl, rfl⟩, fun i hi => ?_,
    hlike.symbols ▸ hsymbols⟩
  rw [← hlike.types, htypes i hi]

/-- **The names of a unit are found in the longer one**, and code cannot tell what they stand for
apart. -/
theorem Accepted.keptIn {P : Ty → Prop} {ds ds' : List Decl} {T : TypeTable} {σ : SymbolTable}
    (h : Accepted P ds T σ) (h' : Accepted P ds' T' σ') (hσ : σ.Extends σ') :
    σ.scope.KeptIn σ'.scope := by
  intro name s hs
  have hmeaning : σ.names name = some s.meaning := by
      rw [SymbolTable.names_eq, View.meanings, hs, Option.map_some]
  have hmeaning' := hσ.names name _ hmeaning
  rw [SymbolTable.names_eq] at hmeaning'
  obtain ⟨u, hu, hsame⟩ := Option.map_eq_some_iff.mp hmeaning'
  refine ⟨u, hu, (h'.closed.name_eq hu).trans (h.closed.name_eq hs).symm, ?_, ?_⟩
  -- Names with the same meaning are those of variables, or of functions with the same parameters.
  · unfold Symbol.meaning at hsame
    cases hsp : s.parameters? <;> cases hup : u.parameters? <;> simp_all
  · have hglobal := h.global name s hs
    have hglobal' := h'.global name u hu
    rw [Symbol.isGlobal, decide_eq_true_eq] at hglobal hglobal'
    rw [hglobal, hglobal']

end Typing

/-! ### The code of a longer unit -/

/-- The instruction asks another unit for a label. -/
def Instr.isExternal : Instr → Bool
  | .external _ => true
  | _ => false

/-- **The code of a unit without the labels behind it** that other units have to place. -/
def Compilation.own (c : Compilation) : List Instr := c.code.rdropWhile Instr.isExternal

/-- The labels behind the code are those that other units have to place. -/
theorem Compilation.own_eq {c : Compilation} {body : List Instr} {externs : List String}
    (hcode : c.code = body ++ externs.map .external) (hbody : ∀ l, .external l ∉ body) :
    c.own = body := by
  have hall : ∀ i ∈ (externs.map Instr.external).reverse, i.isExternal = true := by
    simp [Instr.isExternal]
  rw [own, hcode, List.rdropWhile, List.reverse_append,
    List.dropWhile_append_of_pos hall, ← List.rdropWhile, List.rdropWhile_eq_self_iff]
  intro hne hlast
  cases hi : body.getLast hne with
  | external l => exact hbody l (hi ▸ List.getLast_mem hne)
  | _ =>
    rw [hi] at hlast
    cases hlast

/-- The listing of some code starts with that of the first instructions. -/
theorem Listing.render_append (is js : List Instr) :
    render (is ++ js) = render is ++ render js := by
  rw [render, render, render, List.map_append, String.join_append]

theorem Decl.frames_append (T : TypeTable) (ds more : List Decl) :
    frames T (ds ++ more) = frames T ds ++ frames T more := by
  induction ds with
  | nil => rfl
  | cons d ds ih =>
    cases d with
    | «variable» | declare => exact ih
    | define f => rw [List.cons_append, frames, frames, ih, List.cons_append]

section Units

variable {nodes nodes' : Array Node} {root root' : NodeId} {t t' : SyntaxTree}

/-- **Further declarations do not change the code of those before.** If a unit begins another one,
and the other one is accepted, then the unit itself is accepted, with the same types for all nodes
of its declarations; and whatever the labels of functions are, the code of the other unit starts
with the code of the unit, up to the labels that other units have to place, and so does its listing;
and its frames start with the frames of the unit. -/
theorem later_declarations_keep_code (h : SyntaxTree.ofNodes nodes root = .ok t)
    (h' : SyntaxTree.ofNodes nodes' root' = .ok t') (hinitial : t.InitialIn t') {T' : TypeTable}
    {σ' : SymbolTable} (hcheck : Typing.checkTree t' = .ok (T', σ')) :
    ∃ T σ, Typing.checkTree t = .ok (T, σ) ∧
    (∀ i ∈ Decl.idsOfAll t.declarations, T.get? i = T'.get? i) ∧
      ∀ config, ∃ c c', compile t config = .ok c ∧ compile t' config = .ok c' ∧ c.own <+: c'.code ∧
        (∃ rest, Listing.render c'.code = Listing.render c.own ++ rest) ∧
        c.frames <+: c'.frames := by
  obtain ⟨more, hds⟩ := hinitial.exists_append h h'
  obtain ⟨T, σ, hfirst, hsame, hσ⟩ := Typing.exists_checkTree h' hds hcheck
  refine ⟨T, σ, hfirst, hsame, fun config => ?_⟩
  have haccepted := SyntaxTree.accepted h hfirst
  have haccepted' := SyntaxTree.accepted h' hcheck
  have htypes : T.Same T' (Decl.idsOfAll t.declarations) := fun i hi => by
    rw [TypeTable.typeOf, TypeTable.typeOf, hsame i hi]
  have hcode : (Decl.outlineOfAll T' config σ'.scope 0 t.declarations).code =
      (Decl.outlineOfAll T config σ.scope 0 t.declarations).code :=
    Decl.code_congr Ty.stable_known (haccepted.keptIn haccepted' hσ) (σ.names_eq ▸ haccepted.names)
      (σ.names_eq ▸ haccepted.typed) (SyntaxTree.wellPlaced h) htypes 0
  -- In front of the labels for other units there are none in the code.
  have hown : Compilation.own ⟨(Decl.outlineOfAll T config σ.scope 0 t.declarations).code ++
      (Decl.externs T config σ t.declarations).map .external, Decl.frames T t.declarations⟩ =
        (Decl.outlineOfAll T config σ.scope 0 t.declarations).code :=
    Compilation.own_eq rfl fun l hl =>
      ((SyntaxTree.refers_anything config h hfirst).found _ hl).2.2 l rfl
  refine ⟨_, _, SyntaxTree.compile_eq h hfirst config,
    SyntaxTree.compile_eq h' hcheck config, ?_, ?_, ?_⟩
  · rw [hown, hds, Decl.outlineOfAll_append, hcode, List.append_assoc]
    exact List.prefix_append _ _
  · rw [hown, hds, Decl.outlineOfAll_append, hcode, List.append_assoc]
    exact ⟨_, Listing.render_append _ _⟩
  · rw [hds, Decl.frames_append, Decl.frames_congr htypes]
    exact List.prefix_append _ _

/-- The nodes of a unit in which a function is called that is not defined. -/
def callingNodes : Array Node := #[
  ⟨1, .variableDeclaration .private .int ["v"] none⟩,
  ⟨2, .functionDeclaration .private .int "g" []⟩,
  ⟨3, .functionCall "g" []⟩, ⟨3, .return (some (.ofIndex 2))⟩, ⟨3, .block [] [.ofIndex 3]⟩,
  ⟨3, .functionDefinition .public .int "f" [] (.ofIndex 4)⟩,
  ⟨1, .program [.ofIndex 0, .ofIndex 1, .ofIndex 5]⟩]

/-- The nodes of the unit in which the function is defined behind the call. -/
def definingNodes : Array Node := callingNodes.pop ++ #[
  ⟨4, .integer 7⟩, ⟨4, .return (some (.ofIndex 6))⟩, ⟨4, .block [] [.ofIndex 7]⟩,
  ⟨4, .functionDefinition .private .int "g" [] (.ofIndex 8)⟩,
  ⟨1, .program [.ofIndex 0, .ofIndex 1, .ofIndex 5, .ofIndex 9]⟩]

theorem later_declarations_keep_code_defined :
    ∃ t t' c c', SyntaxTree.ofNodes callingNodes (.ofIndex 6) = .ok t ∧
    SyntaxTree.ofNodes definingNodes (.ofIndex 10) = .ok t' ∧ t.InitialIn t' ∧
    t'.declarations.length = 4 ∧
    compile t .default = .ok c ∧ compile t' .default = .ok c' ∧ c.own <+: c'.code ∧
    c.frames <+: c'.frames := by
  have hok : (SyntaxTree.ofNodes callingNodes (.ofIndex 6)).toOption.any (fun (t : SyntaxTree) =>
      (SyntaxTree.ofNodes definingNodes (.ofIndex 10)).toOption.any fun (t' : SyntaxTree) =>
        decide (t.kind? t.root = some (.program [.ofIndex 0, .ofIndex 1, .ofIndex 5])) &&
        decide (t'.kind? t'.root =
          some (.program ([.ofIndex 0, .ofIndex 1, .ofIndex 5] ++ [.ofIndex 9]))) &&
        decide (∀ i ∈ Decl.idsOfAll t.declarations, t'.nodes[i.index]? = t.nodes[i.index]?) &&
        decide (t'.declarations.length = 4) && (Typing.checkTree t').toOption.any fun _ =>
          true) = true := by
    decide +kernel
  obtain ⟨t, h, hok⟩ := any_toOption.mp hok
  obtain ⟨t', h', hok⟩ := any_toOption.mp hok
  simp only [Bool.and_eq_true, decide_eq_true_eq] at hok
  obtain ⟨⟨⟨⟨hroot, hroot'⟩, hnodes⟩, hlength⟩, hok⟩ := hok
  obtain ⟨⟨T', σ'⟩, hcheck, -⟩ := any_toOption.mp hok
  have hinitial : t.InitialIn t' := ⟨⟨_, _, hroot, hroot'⟩, hnodes⟩
  obtain ⟨T, σ, -, -, hcompile⟩ := later_declarations_keep_code h h' hinitial hcheck
  obtain ⟨c, c', hc, hc', hcode, -, hframes⟩ := hcompile .default
  exact ⟨t, t', c, c', h, h', hinitial, hlength, hc, hc', hcode, hframes⟩

end Units

end PostfixCompiler
