import PostfixCompiler.Proofs.Typing.SettleUnit

/-!
# Finished type tables

When the check of a tree has ended, its table says of each expression what the rules of the language
say. The types that were decided late – that of a number from the input, that of fresh memory, and
that of the result of a function – are those that everything around them was checked against: no
node keeps a type that was computed from an earlier one. So the table does not change if the tree is
checked once more, and a call and the function that it names agree on the type of the result.

A type that is left open is found in two places only. Fresh memory of which just the size is asked
for is given no type. And fresh memory that initializes a variable is given the written type of the
variable if that is a pointer; if it is a tuple with a pointer as its only component, the variable
becomes a pointer all the same, and the memory is left without a type.

## Main definitions

* `PostfixCompiler.SymbolTable.Returns`: a function of that name returns that type.
* `PostfixCompiler.Typing.Finished`: what is known of a unit when its check has ended.

## Main statements

* `PostfixCompiler.Typing.checkTree_finished`: a checked tree is finished.
* `PostfixCompiler.calls_agree`: a call has the type of the function that it names.
* `PostfixCompiler.nodes_derived`: every node has the type that its rule gives.
* `PostfixCompiler.checked_again`: a second check changes nothing.
* `PostfixCompiler.types_known`: no type is left open, but for the two exceptions.
-/

namespace PostfixCompiler

open Typing

/-! ### Finished units -/

/-- **A function of that name, with these parameters, returns that type.** -/
def SymbolTable.Returns (σ : SymbolTable) (name : String) (ps : List Ty) (t : Ty) : Prop :=
  ∃ id sym, σ.resolve? name = some (id, sym) ∧ sym.parameters? = some ps ∧ sym.type = t

namespace Typing

/-- Outside of all functions and scopes, a call has the type of the function that its name stands
for. -/
theorem State.Answers.returns {s : State} {name : String} {ps : List Ty} {t : Ty}
    (h : s.Answers name ps t) (ho : s.Orderly) (hnone : s.function = none)
    (hl : s.symbols.locals = []) : s.symbols.Returns name ps t := by
  obtain ⟨f, sym, hsym, hname, hps, -, hseen⟩ := h
  obtain ⟨-, htype⟩ := hseen.resolve_left fun h => by simp [hnone] at h
  have hfind := ho.bound f sym hsym (by rw [Symbol.isFunction, hps]; rfl)
  rw [hname] at hfind
  refine ⟨f, sym, ?_, hps, htype⟩
  simp [SymbolTable.resolve?, SymbolTable.lookup?, SymbolTable.scopes, hl, hfind, hsym]

/-- **What is known of declarations when their check has ended**, and nothing will change any
more. -/
structure Finished (ds : List Decl) (T : TypeTable) (σ : SymbolTable) : Prop where
  /-- The declarations are typed. -/
  accepted : Accepted Ty.Known ds T σ
  /-- A second check that starts with the types of the first one ends with the same types and
  symbols. -/
  again : checkUnit ds T = ⟨none, T, σ⟩
  /-- All uses are settled. -/
  settled : ∀ Γ, ∀ u ∈ ds.flatMap (Decl.uses T Γ), u.Settled σ.Returns T
  /-- A defined function returns what its slot holds. -/
  definitions : ∀ f, .define f ∈ ds →
    ∃ ps R, T.get? f.signature.id = some R ∧ σ.Returns f.signature.name ps R

/-- **A checked tree is finished.** -/
theorem checkTree_finished {nodes : Array Node} {root : NodeId} {t : SyntaxTree} {T : TypeTable}
    {σ : SymbolTable} (h : SyntaxTree.ofNodes nodes root = .ok t)
    (hcheck : checkTree t = .ok (T, σ)) :
    Finished t.declarations T σ := by
  have ho : (State.start (.ofSize t.size)).Orderly := by
    refine ⟨fun f sym hsym => ?_, fun f sym hsym => ?_, fun f hf => by cases hf⟩ <;>
      simp [State.start, SymbolTable.empty, SymbolTable.get?] at hsym
  have hgood := good_start (P := Ty.Known) (.ofSize t.size)
  have hends := (ends_checkDecls Ty.stable_known hgood rfl (ready_start h) (SyntaxTree.wellPlaced h)
    fun _ _ _ _ h =>
      h).and (lasts_checkDecls hgood ho rfl rfl (ready_start h) (SyntaxTree.wellPlaced h))
  obtain ⟨s, rfl, rfl, ⟨hmoves, haccepted⟩, hlasts, hcloses⟩ :=
    (checkTree_of_ends hends).1 T σ hcheck
  have hreturns : ∀ {name ps t}, s.Answers name ps t → s.symbols.Returns name ps t := fun ha =>
    ha.returns hlasts.orderly hmoves.function haccepted.locals
  refine ⟨haccepted, ?_, fun Γ u hu => ?_, fun f hf => ?_⟩
  · have hagain : checkDecls t.declarations (.start s.types) = .ok () (s.on s.types) :=
      hlasts.again s.types fun _ _ _ h => h
    rw [checkUnit, hagain]
    rfl
  · exact (hlasts.settled s.types (fun _ _ _ h => h) Γ u hu).imp hreturns
  · obtain ⟨ps, R, hR, ha⟩ := hcloses _ hf
    exact ⟨ps, R, hR, hreturns ha⟩

end Typing

variable {nodes : Array Node} {root : NodeId} {t : SyntaxTree} {T : TypeTable}
  {σ : SymbolTable} {u : Use}

/-- A function that is known by its name has the parameters that the name has. -/
theorem SymbolTable.Returns.parameters_eq {name : String} {ps qs : List Ty} {R : Ty}
    (h : σ.Returns name ps R) (hname : σ.names name = some (.function qs)) : qs = ps := by
  obtain ⟨id, sym, hres, hps, -⟩ := h
  have hmeaning := SymbolTable.view_of_resolve Symbol.meaning hres
  rw [Symbol.meaning, hps] at hmeaning
  cases hname.symm.trans hmeaning
  rfl

/-- Every use in a finished unit is typed in its scope. -/
theorem Typing.Finished.stands {ds : List Decl} (h : Finished ds T σ)
    (hu : u ∈ ds.flatMap (Decl.uses T σ.names)) :
    u.Stands Ty.Known T σ.names := by
  obtain ⟨d, hd, hu⟩ := List.mem_flatMap.mp hu
  exact (h.accepted.typed d hd).uses Ty.stable_known h.accepted.names u hu

/-! ### A sample -/

/-- The nodes of a unit with a function of open type that calls itself, and in it fresh memory for a
variable and a number from the input for another one. -/
def recursiveNodes : Array Node := #[
  ⟨1, .variableDeclaration .private .int ["n"] none⟩,
  ⟨2, .variableDeclaration .private .double ["x"] none⟩,
  ⟨3, .integer 4⟩, ⟨3, .stackAlloc (.ofIndex 2)⟩,
  ⟨3, .variableDeclaration .private (.pointer .int) ["p"] (some (.ofIndex 3))⟩,
  ⟨4, .variable "x"⟩, ⟨4, .input⟩, ⟨4, .assignment (.ofIndex 5) (.ofIndex 6)⟩,
  ⟨4, .evaluation (.ofIndex 7)⟩,
  ⟨5, .variable "n"⟩, ⟨5, .rvalue (.ofIndex 9)⟩, ⟨5, .integer 1⟩,
  ⟨5, .binary .lt (.ofIndex 10) (.ofIndex 11)⟩,
  ⟨5, .integer 1⟩, ⟨5, .return (some (.ofIndex 13))⟩, ⟨5, .ifThen (.ofIndex 12) (.ofIndex 14)⟩,
  ⟨6, .variable "n"⟩, ⟨6, .rvalue (.ofIndex 16)⟩, ⟨6, .variable "n"⟩, ⟨6, .rvalue (.ofIndex 18)⟩,
  ⟨6, .integer 1⟩, ⟨6, .binary .sub (.ofIndex 19) (.ofIndex 20)⟩,
  ⟨6, .functionCall "f" [.ofIndex 21]⟩,
  ⟨6, .binary .mul (.ofIndex 17) (.ofIndex 22)⟩, ⟨6, .return (some (.ofIndex 23))⟩,
  ⟨1, .block [.ofIndex 1, .ofIndex 4] [.ofIndex 8, .ofIndex 15, .ofIndex 24]⟩,
  ⟨1, .functionDefinition .private .auto "f" [.ofIndex 0] (.ofIndex 25)⟩,
  ⟨1, .program [.ofIndex 26]⟩]

/-- The check of the sample ends with an answer. It returns a product with a call, and it assigns a
number from the input. -/
theorem exists_recursive : ∃ t T σ, SyntaxTree.ofNodes recursiveNodes (.ofIndex 27) = .ok t ∧
    checkTree t = .ok (T, σ) ∧
    (∃ u ∈ t.uses T σ.names, ∃ s a site args, u.expr = .binary s .mul a (.call site "f" args)) ∧
    ∃ u ∈ t.uses T σ.names, ∃ s p i, u.expr = .assignment s p (.input i) := by
  have hok : (SyntaxTree.ofNodes recursiveNodes (.ofIndex 27)).toOption.any (fun t =>
      (checkTree t).toOption.any fun r =>
        ((t.uses r.1 r.2.names).any fun u =>
          match u.expr with
          | .binary _ op _ (.call _ name _) => decide (op = .mul ∧ name = "f")
          | _ => false) &&
        (t.uses r.1 r.2.names).any fun u =>
          match u.expr with
          | .assignment _ _ (.input _) => true
          | _ => false) = true := by
    decide +kernel
  obtain ⟨t, ht, hok⟩ := any_toOption.mp hok
  obtain ⟨⟨T, σ⟩, hcheck, hok⟩ := any_toOption.mp hok
  simp only [Bool.and_eq_true, List.any_eq_true] at hok
  obtain ⟨⟨u, hu, hcall⟩, v, hv, hinput⟩ := hok
  refine ⟨t, T, σ, ht, hcheck, ⟨u, hu, ?_⟩, v, hv, ?_⟩
  · split at hcall
    · rename_i s op a site name args hexpr
      obtain ⟨rfl, rfl⟩ := of_decide_eq_true hcall
      exact ⟨s, a, site, args, hexpr⟩
    · cases hcall
  · split at hinput
    · rename_i s p i hexpr
      exact ⟨s, p, i, hexpr⟩
    · cases hinput

/-! ### Calls -/

/-- **A call and the function that it names agree on the type of the result**: the call has the type
that the symbol of the function has in the end, and so has the definition of the function. -/
theorem calls_agree (h : SyntaxTree.ofNodes nodes root = .ok t) (hcheck : checkTree t = .ok (T, σ))
    (hu : u ∈ t.uses T σ.names) {site : Site} {name : String} {args : List Expr}
    (hcall : (Expr.call site name args).Part u.expr) :
    ∃ id sym, σ.resolve? name = some (id, sym) ∧ u.scope name = some (.function sym.parameters) ∧
      T.get? site.id = some sym.type ∧
      ∀ f, Decl.define f ∈ t.declarations → f.signature.name = name →
        T.get? f.signature.id = some sym.type := by
  have hfinished := checkTree_finished h hcheck
  have hstands := hfinished.stands hu
  obtain ⟨-, qs, -, hname, -⟩ := hstands.typed.part hcall
  obtain ⟨ps, -, R, hreturns, hR, -⟩ := (hfinished.settled _ u hu).parts _ hcall
  obtain rfl := hreturns.parameters_eq (hstands.functions name qs hname)
  obtain ⟨id, sym, hres, hps, rfl⟩ := hreturns
  refine ⟨id, sym, hres, ?_, hR, fun f hf hfname => ?_⟩
  · rw [Symbol.parameters, hps, Option.getD_some, hname]
  · obtain ⟨-, R, hR, id', sym', hres', -, rfl⟩ := hfinished.definitions f hf
    rw [hfname, hres] at hres'
    cases hres'
    exact hR

theorem calls_agree_recursive : ∃ t T σ, SyntaxTree.ofNodes recursiveNodes (.ofIndex 27) = .ok t ∧
    checkTree t = .ok (T, σ) ∧ ∃ u ∈ t.uses T σ.names, ∃ site args,
    (Expr.call site "f" args).Part u.expr ∧
      ∃ id sym, σ.resolve? "f" = some (id, sym) ∧ T.get? site.id = some sym.type := by
  obtain ⟨t, T, σ, ht, hcheck, ⟨u, hu, s, a, site, args, hexpr⟩, -⟩ := exists_recursive
  have hcall : (Expr.call site "f" args).Part u.expr := by
    rw [hexpr]
    exact .inside (List.mem_cons_of_mem _ List.mem_cons_self) .self
  obtain ⟨id, sym, hres, -, htype, -⟩ := calls_agree ht hcheck hu hcall
  exact ⟨t, T, σ, ht, hcheck, u, hu, site, args, hcall, id, sym, hres, htype⟩

/-! ### Nodes and their operands -/

/-- **Every node has the type that its rule gives**, applied to the types that the table holds for
its operands, in the scope where it stands. -/
theorem nodes_derived (h : SyntaxTree.ofNodes nodes root = .ok t)
    (hcheck : checkTree t = .ok (T, σ)) (hu : u ∈ t.uses T σ.names) {x : Expr}
    (hx : x.Part u.expr) : x.Derived T u.scope := by
  have hfinished := checkTree_finished h hcheck
  have hstands := hfinished.stands hu
  refine (hstands.typed.part hx).derived hstands.settled ((hfinished.settled _ u hu).parts x hx) ?_
  exact fun hreturns hname => hreturns.parameters_eq (hstands.functions _ _ hname)

theorem nodes_derived_recursive : ∃ t T σ, SyntaxTree.ofNodes recursiveNodes (.ofIndex 27) = .ok t ∧
    checkTree t = .ok (T, σ) ∧ ∃ u ∈ t.uses T σ.names, ∃ s p i,
    u.expr = .assignment s p (.input i) ∧
      (Expr.assignment s p (.input i)).Derived T u.scope := by
  obtain ⟨t, T, σ, ht, hcheck, -, u, hu, s, p, i, hexpr⟩ := exists_recursive
  have hpart : (Expr.assignment s p (.input i)).Part u.expr := hexpr ▸ .self
  exact ⟨t, T, σ, ht, hcheck, u, hu, s, p, i, hexpr, nodes_derived ht hcheck hu hpart⟩

/-! ### A second check -/

/-- **A second check changes nothing**: if it starts with the types that the first one ended with,
it finds no fault, and it ends with the same types and symbols. -/
theorem checked_again (h : SyntaxTree.ofNodes nodes root = .ok t)
    (hcheck : checkTree t = .ok (T, σ)) :
    checkUnit t.declarations T = ⟨none, T, σ⟩ :=
  (checkTree_finished h hcheck).again

theorem checked_again_recursive : ∃ t T σ, SyntaxTree.ofNodes recursiveNodes (.ofIndex 27) = .ok t ∧
    checkTree t = .ok (T, σ) ∧ checkUnit t.declarations T = ⟨none, T, σ⟩ := by
  obtain ⟨t, T, σ, ht, hcheck, -⟩ := exists_recursive
  exact ⟨t, T, σ, ht, hcheck, checked_again ht hcheck⟩

/-! ### Types that are left open -/

/-- **No type is left open**: that of every variable, argument and function is known, and that of
every expression is as well, unless it is fresh memory whose size is asked for, or fresh memory for
a variable that is written with a tuple of one component. -/
theorem types_known (h : SyntaxTree.ofNodes nodes root = .ok t)
    (hcheck : checkTree t = .ok (T, σ)) :
    (∀ u ∈ t.uses T σ.names, ∀ x : Expr, x.Part u.expr → x.Decided T ∨ x.isFresh = true ∧
      ((∃ site, (Expr.sizeof site x).Part u.expr) ∨
        x = u.expr ∧ ∃ w, u.written = some (.tuple [w]))) ∧
    (∀ d ∈ t.varDecls, d.Has Ty.Known T) ∧
    ∀ f, Decl.define f ∈ t.declarations → ∃ R, T.get? f.signature.id = some R ∧ R.Known := by
  have hfinished := checkTree_finished h hcheck
  refine ⟨fun u hu x hx => ?_, fun v hv => ?_, fun f hf => ?_⟩
  · have hstands := hfinished.stands hu
    have hsettled := hfinished.settled _ u hu
    rcases hx.eq_or_operand with rfl | ⟨y, hy, hxy⟩
    · refine hsettled.decided.imp_right ?_
      rintro ⟨hfresh, hw⟩
      exact ⟨hfresh, .inr ⟨rfl, hw⟩⟩
    · refine ((hstands.typed.part hy).decided_operand hstands.settled
        (hsettled.parts y hy) hxy).imp_right ?_
      rintro ⟨hfresh, site, rfl⟩
      exact ⟨hfresh, .inl ⟨site, hy⟩⟩
  · obtain ⟨d, hd, hv⟩ := List.mem_flatMap.mp hv
    exact ((hfinished.accepted.typed d hd).varDecls v hv).imp fun _ h => h.1
  · obtain ⟨R, hR⟩ := hfinished.accepted.typed _ hf
    exact ⟨R, hR.result.1, hR.result.2.2⟩

theorem types_known_recursive : ∃ t T σ, SyntaxTree.ofNodes recursiveNodes (.ofIndex 27) = .ok t ∧
    checkTree t = .ok (T, σ) ∧ (∀ d ∈ t.varDecls, d.Has Ty.Known T) ∧
    ∃ u ∈ t.uses T σ.names, ∃ s p i, u.expr = .assignment s p (.input i) ∧
    (Expr.input i).Decided T := by
  obtain ⟨t, T, σ, ht, hcheck, -, u, hu, s, p, i, hexpr⟩ := exists_recursive
  obtain ⟨huses, hvars, -⟩ := types_known ht hcheck
  have hpart : (Expr.input i).Part u.expr := by
    rw [hexpr]
    exact .inside (List.mem_cons_of_mem _ List.mem_cons_self) .self
  refine ⟨t, T, σ, ht, hcheck, hvars, u, hu, s, p, i, hexpr, ?_⟩
  refine (huses u hu _ hpart).resolve_right ?_
  rintro ⟨hfresh, -⟩
  cases hfresh

/-! ### Fresh memory for a tuple of one component -/

/-- The nodes of a unit with a variable that is written with a tuple of one component, a pointer,
and that is initialized with fresh memory. -/
def singletonNodes : Array Node := #[
  ⟨1, .integer 4⟩, ⟨1, .stackAlloc (.ofIndex 0)⟩,
  ⟨1, .variableDeclaration .private (.tuple [.pointer .int]) ["x"] (some (.ofIndex 1))⟩,
  ⟨1, .integer 0⟩, ⟨1, .return (some (.ofIndex 3))⟩, ⟨1, .block [.ofIndex 2] [.ofIndex 4]⟩,
  ⟨1, .functionDefinition .private .int "f" [] (.ofIndex 5)⟩, ⟨1, .program [.ofIndex 6]⟩]

/-- **The type of an expression may be left open**: the unit is accepted, its variable is a pointer
to `int`, and the memory that it points to is that of a pointer to no type. -/
theorem fresh_memory_open : ∃ t T σ, SyntaxTree.ofNodes singletonNodes (.ofIndex 7) = .ok t ∧
    checkTree t = .ok (T, σ) ∧ (∃ d ∈ t.varDecls, T.get? d.id = some (.pointer .int)) ∧
    ∃ u ∈ t.uses T σ.names, T.get? u.expr.id = some (.pointer .auto) ∧ ¬u.expr.Decided T ∧
      ¬∃ site, (Expr.sizeof site u.expr).Part u.expr := by
  have hok : (SyntaxTree.ofNodes singletonNodes (.ofIndex 7)).toOption.any (fun t =>
      (checkTree t).toOption.any fun r =>
        (t.varDecls.any fun d => decide (r.1.get? d.id = some (.pointer .int))) &&
        (t.uses r.1 r.2.names).any fun u =>
          decide (r.1.get? u.expr.id = some (.pointer .auto))) = true := by
    decide +kernel
  obtain ⟨t, ht, hok⟩ := any_toOption.mp hok
  obtain ⟨⟨T, σ⟩, hcheck, hok⟩ := any_toOption.mp hok
  simp only [Bool.and_eq_true, List.any_eq_true] at hok
  obtain ⟨⟨d, hd, hpointer⟩, u, hu, hopen⟩ := hok
  have htype : T.get? u.expr.id = some (.pointer .auto) := of_decide_eq_true hopen
  refine ⟨t, T, σ, ht, hcheck, ⟨d, hd, of_decide_eq_true hpointer⟩, u, hu, htype, ?_, ?_⟩
  · rintro ⟨v, hv, hknown⟩
    obtain rfl := Option.some.inj (htype.symm.trans hv)
    cases hknown
  · -- The `sizeof` of an expression has a node more than the expression has, so it is no part of
    -- it.
    rintro ⟨site, hsize⟩
    have hlength := hsize.sublist_ids.length_le
    rw [Expr.ids, List.length_cons] at hlength
    omega

end PostfixCompiler
