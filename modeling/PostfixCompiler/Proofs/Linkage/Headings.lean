import PostfixCompiler.Proofs.Linkage.Registered

/-!
# Declarations of one name

A function may be declared any number of times. The checker compares each declaration with one
symbol, and this symbol changes: its type is found out while the body of the function is checked,
and it counts as defined from the moment on at which its body is begun. So it is not the symbol that
all the declarations have in common. It is the **heading**: the types of the parameters, the
qualifier, and the type of the result as it is written. The heading of a symbol is what its first
declaration wrote, and it stays so, whatever is found out later, because only a type that was left
open is refined.

## Main definitions

* `PostfixCompiler.Heading`: what all declarations of a function have in common.
* `PostfixCompiler.Symbol.heading?`, `PostfixCompiler.Decl.heading?`: the headings of symbols and of
  declarations.
* `PostfixCompiler.Decl.Heads`: what a declaration does to the headings that are known.
* `PostfixCompiler.Headed`: the headings that are known are those of declarations, which agree.

## Main statements

* `PostfixCompiler.Symbol.Refines.heading_eq`: what a check may find out changes no heading.
* `PostfixCompiler.Decl.ends_heads`, `PostfixCompiler.Headed.head`: a declaration agrees with those
  before it.
* `PostfixCompiler.declarations_agree`: the declarations of one name agree.
-/

namespace PostfixCompiler

open Typing

/-! ### Headings -/

/-- **What all declarations of a function have in common.** -/
structure Heading where
  /-- The types of the parameters. -/
  parameters : List Ty
  /-- Who may use the function. -/
  qualifier : Qualifier
  /-- The type of the result, as it is written. -/
  returnType : Ty

/-- The heading of a signature. -/
def Signature.heading (s : Signature) : Heading :=
  ⟨s.arguments.map VarDecl.type, s.qualifier, s.returnType⟩

/-- The heading of a function; a variable has none. -/
def Symbol.heading? (s : Symbol) : Option Heading :=
  s.parameters?.map fun ps => ⟨ps, s.qualifier, if s.isAuto then .auto else s.type⟩

/-- **What a check may find out about a symbol changes no heading.** -/
theorem Symbol.Refines.heading_eq (a b : Symbol) (h : a.Refines b) : b.heading? = a.heading? := by
  have htype : (if b.isAuto then Ty.auto else b.type) = if a.isAuto then .auto else a.type := by
    rw [h.isAuto]
    by_cases hauto : a.isAuto = true
    · rw [if_pos hauto, if_pos hauto]
    · rw [if_neg hauto, if_neg hauto]
      exact h.type.resolve_right fun hr => hauto hr.2.1
  rw [heading?, heading?, h.parameters, h.qualifier, htype]

namespace Decl

/-- The signature of a function. -/
def signature? : Decl → Option Signature
  | .variable _ => none
  | .declare s => some s
  | .define f => some f.signature

/-- The heading of what is declared, if it is a function. -/
def heading? (d : Decl) : Option Heading := d.signature?.map Signature.heading

/-- The declaration is the definition of a function. -/
def isDefinition : Decl → Bool
  | .define _ => true
  | .variable _ | .declare _ => false

/-- **Two declarations agree** if a name that both introduce is that of a function, with the same
parameter types, the same qualifier and the same written type in both, which at most one of them
defines. -/
def Agree (d e : Decl) : Prop :=
  ∀ name ∈ d.names, name ∈ e.names → ∃ s s', d.signature? = some s ∧ e.signature? = some s' ∧
    s.arguments.map VarDecl.type = s'.arguments.map VarDecl.type ∧ s.qualifier = s'.qualifier ∧
    s.returnType = s'.returnType ∧ (d.isDefinition && e.isDefinition) = false

/-- **What a declaration does to the headings that are known**: its names are known by its heading
behind it, and if one was known before, then it is a function, with the same heading. -/
structure Heads (V W : View (Option Heading)) (d : Decl) : Prop where
  /-- What was known agrees with it. -/
  prior : ∀ name ∈ d.names, ∀ h, V name = some h → h = d.heading? ∧ d.isFunction = true
  /-- Its names are known by its heading. -/
  known : ∀ name, W name = if name ∈ d.names then some d.heading? else V name

theorem exists_signature {d : Decl} (h : d.isFunction = true) : ∃ s, d.signature? = some s := by
  cases d with
  | «variable» d => cases h
  | declare s => exact ⟨s, rfl⟩
  | define f => exact ⟨f.signature, rfl⟩

/-- **A name is declared again** as a function, with the same heading. -/
def Repeats (d e : Decl) : Prop :=
  ∀ name ∈ d.names, name ∈ e.names → d.heading? = e.heading? ∧ e.isFunction = true

/-- A declaration that repeats another one agrees with it, if not both of them define their name. -/
theorem Repeats.agree {d e : Decl} (h : d.Repeats e)
    (hdisjoint : d.definitions.Disjoint e.definitions) : d.Agree e := by
  intro name hd he
  obtain ⟨hheading, hfunction⟩ := h name hd he
  obtain ⟨s', hs'⟩ := exists_signature hfunction
  rw [heading?, heading?, hs', Option.map_some, Option.map_eq_some_iff] at hheading
  obtain ⟨s, hs, hheading⟩ := hheading
  obtain ⟨hparameters, hqualifier, hreturn⟩ := Heading.mk.inj hheading
  refine ⟨s, s', hs, hs', hparameters, hqualifier, hreturn, ?_⟩
  -- Two definitions would define the name twice.
  cases d with
  | define f =>
    cases e with
    | define g => exact absurd he (hdisjoint hd)
    | «variable» | declare => rfl
  | «variable» | declare => rfl

end Decl

/-- **The headings that are known are those of declarations**, and declarations that introduce one
name have the same. -/
structure Headed (ds : List Decl) (V : View (Option Heading)) : Prop where
  /-- A name that is declared is known by the heading of its declaration. -/
  known : ∀ d ∈ ds, ∀ name ∈ d.names, V name = some d.heading?
  /-- Where a name is declared again it is a function, with the same heading. -/
  again : ds.Pairwise Decl.Repeats

namespace Headed

variable {ds : List Decl} {V W : View (Option Heading)}

theorem nil : Headed [] V := ⟨by simp, .nil⟩

/-- **A declaration agrees with those before it.** -/
theorem head (h : Headed ds V) {d : Decl} (hd : d.Heads V W) : Headed (ds ++ [d]) W := by
  constructor
  · rw [List.forall_mem_append, List.forall_mem_singleton]
    refine ⟨fun e he name hname => ?_, fun name hname => (hd.known name).trans (if_pos hname)⟩
    rw [hd.known]
    split
    · rename_i hmem
      rw [(hd.prior name hmem _ (h.known e he name hname)).1]
    · exact h.known e he name hname
  · rw [List.pairwise_append]
    refine ⟨h.again, List.pairwise_singleton _ _, fun e he d' hd' name hname hname' => ?_⟩
    obtain rfl := List.mem_singleton.mp hd'
    exact hd.prior name hname' _ (h.known e he name hname)

end Headed

/-! ### The check and the headings -/

/-- The headings of the names in scope. -/
def Typing.State.headings (s : State) : View (Option Heading) := s.symbols.view Symbol.heading?

namespace Signature

variable {s s' : State}

/-- The parameters of a function are those that are written. -/
theorem parameters_of_checkArguments {sig : Signature} {ds : List VarDecl} {ps : List Ty}
    (h : sig.checkArguments ds s = .ok ps s') : ps = ds.map VarDecl.type := by
  induction ds generalizing s ps with
  | nil =>
    cases h
    rfl
  | cons d ds ih =>
    obtain ⟨t, s₁, htype, h⟩ := exists_of_bind h
    obtain ⟨-, s₂, -, h⟩ := exists_of_bind h
    obtain ⟨ts, s₃, hrest, h⟩ := exists_of_bind h
    cases h
    obtain ⟨-, s₄, -, htype⟩ := exists_of_bind htype
    obtain ⟨-, s₅, -, htype⟩ := exists_of_bind htype
    obtain ⟨-, s₆, -, htype⟩ := exists_of_bind htype
    cases htype
    rw [ih hrest, List.map_cons]

/-- A symbol with which a signature agrees has its heading. -/
theorem heading_of_agrees {sig : Signature} {prior : Symbol} (hfunction : prior.isFunction = true)
    (h : sig.agrees (sig.arguments.map VarDecl.type) prior = true) :
    prior.heading? = some sig.heading := by
  obtain ⟨ps, hps⟩ := Option.isSome_iff_exists.mp hfunction
  simp only [agrees, Bool.and_eq_true, decide_eq_true_eq, Symbol.parameters, hps,
    Option.getD_some] at h
  obtain ⟨⟨htype, hparameters⟩, hqualifier⟩ := h
  have hreturn : (if prior.isAuto then Ty.auto else prior.type) = sig.returnType := by
    split at htype
    · rename_i hauto
      rw [if_pos hauto, of_decide_eq_true htype]
    · rename_i hauto
      rw [if_neg hauto, of_decide_eq_true htype]
  rw [Symbol.heading?, hps, Option.map_some, heading, hparameters, hqualifier, hreturn]

/-- **The check of a signature makes its heading known**, or it finds that heading. -/
theorem ends_heads {sig : Signature} {defining : Bool} (hs : Good Ty.Known s) (hr : Ready sig.ids s)
    (hl : s.symbols.locals = []) :
    Ends (sig.check defining) s fun _ s' => (Decl.declare sig).Heads s.headings s'.headings := by
  simp only [check, ends_bind, ends_require, ends_get]
  intro _ _
  refine (ends_checkArguments (P := Ty.Known) sig (ready_cons.mp hr).2.2 fun _ _ h =>
    h).ok.mono fun ps s₁ h => ?_
  obtain ⟨⟨hfills, -⟩, hok⟩ := h
  obtain rfl := parameters_of_checkArguments hok
  have hclosed := (hs.fills hfills).closed
  have hstart : s.headings = s₁.headings := by rw [State.headings, State.headings, hfills.symbols]
  have hnames : (Decl.declare sig).names = [sig.name] := rfl
  have hheading : (Decl.declare sig).heading? = some sig.heading := rfl
  rw [← hfills.symbols] at hl
  rw [hstart]
  split
  · rename_i id prior hres
    simp only [ends_bind, ends_require, ends_setType, ends_pure]
    intro hfunction hagrees _
    rw [SymbolTable.resolveLocal?_eq hl] at hres
    have hprior : s₁.headings sig.name = some (some sig.heading) :=
      heading_of_agrees hfunction hagrees ▸ SymbolTable.view_of_resolve Symbol.heading? hres
    refine ⟨?_, fun name => ?_⟩
    · rw [hnames, List.forall_mem_singleton, hheading]
      intro h hh
      exact ⟨Option.some.inj (hh.symm.trans hprior), rfl⟩
    · rw [hnames, hheading]
      split
      · rename_i hmem
        rw [List.mem_singleton.mp hmem]
        exact hprior
      · rfl
  · rename_i hres
    simp only [ends_bind, ends_define, ends_setType, ends_pure]
    have hfree := Option.isNone_iff_eq_none.mp (SymbolTable.lookupLocal?_eq_none hclosed hl hres)
    rw [SymbolTable.lookupLocal?_eq hl] at hfree
    have hnone : s₁.headings sig.name = none := SymbolTable.view_eq_none hfree
    refine ⟨?_, fun name => ?_⟩
    · rw [hnames, List.forall_mem_singleton]
      intro h hh
      cases hnone.symm.trans hh
    · have hnew :
          (Symbol.ofFunction sig.name sig.qualifier sig.returnType (sig.arguments.map VarDecl.type)
          sig.line).heading? = some sig.heading := by
        simp [Symbol.heading?, Symbol.ofFunction, heading, eq_comm]
      have hview := SymbolTable.view_define hclosed Symbol.heading?
        (Symbol.ofFunction sig.name sig.qualifier sig.returnType
          (sig.arguments.map VarDecl.type) sig.line)
      rw [hnew] at hview
      rw [hnames, hheading]
      refine (congrFun hview name).trans ?_
      simp only [View.bind, List.mem_singleton]
      rfl

end Signature

/-- **Behind the signature of a function, its check changes no heading**: symbols are refined, and
all scopes are as they were. -/
theorem Function.ends_outer {f : Function} {s : State} (hs : Good Ty.Known s) (hr : Ready f.ids s)
    (hw : f.WellPlaced) (hl : s.symbols.locals = []) {Q : State → Prop}
    (hQ : Ends (f.signature.check true) s fun _ => Q) :
    Ends f.check s fun _ s' => ∃ s₁, Q s₁ ∧ s₁.symbols.Closed ∧
      SymbolTable.Outer Symbol.Refines s₁.symbols s'.symbols := by
  obtain ⟨hsig, hbody, hdis⟩ := ready_append.mp hr
  simp only [check, ends_bind, ends_modifySymbol, ends_inFunction, ends_get]
  refine ((Signature.ends_check hs hl hsig fun _ _ h => h).and hQ).mono fun id s₁ h₁ => ?_
  obtain ⟨hdeclares, hq⟩ := h₁
  obtain ⟨sym, hsym, hfunction⟩ := hdeclares.symbol
  have hsettled := hdeclares.good.settled id sym hsym
  obtain ⟨hmoves₂, hgood₂⟩ :=
    hdeclares.good.modifySymbol hsym (f := fun s => { s with defined := true })
    ⟨hsettled.meaning, hsettled.type, hsettled.offset⟩ (.defined sym)
  obtain ⟨sym₂, hsym₂, hr₂⟩ := hmoves₂.symbols.keeps id sym hsym
  generalize s₁.modifySymbol id (fun s => { s with defined := true }) = s₂ at hmoves₂ hgood₂ hsym₂ ⊢
  have hargs : ∀ d ∈ f.signature.arguments, d.TypedArgument Ty.Known s₂.types :=
    (VarDecl.arguments_mono (hmoves₂.agrees (by simp)) hdeclares.arguments).1
  have hbody₂ : Ready f.body.stmt.ids s₂ :=
    hmoves₂.ready (hdeclares.moves.ready hbody hdis) (by simp)
  have hgood₃ := hgood₂.within hsym₂ (hr₂.isFunction_eq.trans hfunction)
  refine (ends_checkBody Ty.stable_known (s := s₂.within id) hgood₃ hbody₂ hw
    (fun _ _ h => h) hargs).mono
    fun _ s₃ h₃ => ?_
  have houter : SymbolTable.Outer Symbol.Refines s₁.symbols s₃.symbols :=
    hmoves₂.symbols.trans Symbol.Refines.trans h₃.1.symbols
  obtain ⟨sym₃, hsym₃, -⟩ := h₃.1.symbols.keeps id sym₂ hsym₂
  split
  · rename_i hnone
    cases hnone.symm.trans hsym₃
  · simp only [ends_bind, ends_require]
    intro _
    split
    · exact ends_fault
    · simp only [ends_bind, ends_setType]
      split
      · exact ⟨s₁, hq, hdeclares.good.closed, houter⟩
      · rename_i e hflow
        exact ends_throw.mpr (blames_of_checkFlow hflow)

/-- **The check of a declaration makes its heading known**, or it finds that heading. -/
theorem Decl.ends_heads {d : Decl} {s : State} (hs : Good Ty.Known s) (hl : s.symbols.locals = [])
    (hr : Ready d.ids s) (hw : d.WellPlaced) :
    Ends d.check s fun _ s' => d.Heads s.headings s'.headings := by
  cases d with
  | «variable» d =>
    refine (VarDecl.ends_view (g := Symbol.heading?) (fun _ _ => rfl) hs hr hw hl).mono
      fun _ s' h => ?_
    obtain ⟨-, hnew, hknown⟩ := h
    refine ⟨fun name hname h hh => ?_, hknown⟩
    cases (hnew name hname).symm.trans hh
  | declare sig =>
    simp only [check, ends_bind, ends_pure]
    exact sig.ends_heads hs hr hl
  | define f =>
    obtain ⟨hsig, -, -⟩ := ready_append.mp hr
    refine (f.ends_outer hs hr hw hl (f.signature.ends_heads hs hsig hl)).mono fun _ s' h => ?_
    obtain ⟨s₁, hheads, hclosed, houter⟩ := h
    have hview : s'.headings = s₁.headings := houter.view_eq hclosed Symbol.Refines.heading_eq
    exact ⟨hheads.prior, fun name => hview ▸ hheads.known name⟩

/-- **The check of declarations** makes their headings known, and finds that each declaration agrees
with those before it. The names of a declaration of variables are different from each other. -/
theorem Typing.ends_checkDecls_headed {ds before : List Decl} {s : State} (hs : Good Ty.Known s)
    (hl : s.symbols.locals = []) (hr : Ready (Decl.idsOfAll ds) s) (hw : ∀ d ∈ ds, d.WellPlaced)
    (h : Headed before s.headings) :
    Ends (checkDecls ds) s fun _ s' => Headed (before ++ ds) s'.headings ∧
      ∀ d, Decl.variable d ∈ ds → d.names.Nodup := by
  induction ds generalizing s before with
  | nil =>
    rw [checkDecls, ends_pure, List.append_nil]
    exact ⟨h, by simp⟩
  | cons d ds ih =>
    obtain ⟨hd, hds, hdis⟩ := ready_append.mp hr
    rw [List.forall_mem_cons] at hw
    simp only [checkDecls, ends_bind]
    refine ((Decl.ends_check Ty.stable_known hs hl hd hw.1 fun _ _ h => h).and
      ((Decl.ends_heads hs hl hd hw.1).and (Decl.ends_registers hs hl hd hw.1))).mono
        fun _ s₁ h₁ => ?_
    obtain ⟨⟨hmoves, hgood, -⟩, hheads, hregisters⟩ := h₁
    refine (ih hgood (hmoves.symbols.locals hl) (hmoves.ready hds hdis) hw.2 (h.head hheads)).mono
      fun _ s₂ h₂ => ?_
    rw [List.append_assoc] at h₂
    refine ⟨h₂.1, fun v hv => ?_⟩
    rcases List.mem_cons.mp hv with rfl | hv
    · exact hregisters.1
    · exact h₂.2 v hv

/-! ### Units -/

/-- **The declarations of one name agree.** Behind the check of a tree, any two declarations of a
name are declarations or definitions of a function, with the same parameter types, the same
qualifier and the same written type of the result, and at most one of them is a definition. No
definition is of a function that another unit has to define. A declaration of variables introduces
no name twice. -/
theorem declarations_agree {nodes : Array Node} {root : NodeId} {t : SyntaxTree} {T : TypeTable}
    {σ : SymbolTable} (h : SyntaxTree.ofNodes nodes root = .ok t)
    (hcheck : checkTree t = .ok (T, σ)) :
    t.declarations.Pairwise Decl.Agree ∧
    (∀ f, Decl.define f ∈ t.declarations → f.signature.qualifier ≠ .require) ∧
    ∀ d, Decl.variable d ∈ t.declarations → d.names.Nodup := by
  have hends := ends_checkDecls_headed (good_start (.ofSize t.size)) rfl (ready_start h)
    (SyntaxTree.wellPlaced h) .nil
  obtain ⟨s, -, -, hheaded, hnodup⟩ := (checkTree_of_ends hends).1 T σ hcheck
  have hregistered := SyntaxTree.registered h hcheck
  have hdisjoint := (List.nodup_flatMap.mp hregistered.nodup).2
  exact ⟨(hheaded.again.and hdisjoint).imp fun h => h.1.agree h.2, hregistered.required, hnodup⟩

/-- The nodes of a unit in which a function of open type is declared, defined, declared again, and
called. -/
def redeclaredNodes : Array Node := #[
  ⟨1, .variableDeclaration .private .int ["x"] none⟩,
  ⟨1, .functionDeclaration .private .auto "f" [.ofIndex 0]⟩,
  ⟨2, .variableDeclaration .private .int ["x"] none⟩, ⟨2, .integer 1⟩,
  ⟨2, .return (some (.ofIndex 3))⟩,
  ⟨2, .block [] [.ofIndex 4]⟩,
  ⟨2, .functionDefinition .private .auto "f" [.ofIndex 2] (.ofIndex 5)⟩,
  ⟨3, .variableDeclaration .private .int ["y"] none⟩,
  ⟨3, .functionDeclaration .private .auto "f" [.ofIndex 7]⟩,
  ⟨4, .integer 2⟩, ⟨4, .functionCall "f" [.ofIndex 9]⟩, ⟨4, .return (some (.ofIndex 10))⟩,
  ⟨4, .block [] [.ofIndex 11]⟩,
  ⟨4, .functionDefinition .public .int "g" [] (.ofIndex 12)⟩,
  ⟨1, .program [.ofIndex 1, .ofIndex 6, .ofIndex 8, .ofIndex 13]⟩]

/-- The type of the function is known to be `int` where it is declared for the third time, and all
three agree. -/
theorem declarations_agree_redeclared :
    ∃ t T σ, SyntaxTree.ofNodes redeclaredNodes (.ofIndex 14) = .ok t ∧
    checkTree t = .ok (T, σ) ∧ t.declarations.map Decl.names = [["f"], ["f"], ["f"], ["g"]] ∧
    t.declarations.Pairwise Decl.Agree := by
  have hok : (SyntaxTree.ofNodes redeclaredNodes (.ofIndex 14)).toOption.any (fun t =>
      (checkTree t).toOption.any fun _ =>
        t.declarations.map Decl.names = [["f"], ["f"], ["f"], ["g"]]) = true := by
    decide +kernel
  obtain ⟨t, ht, hok⟩ := any_toOption.mp hok
  obtain ⟨⟨T, σ⟩, hcheck, hnames⟩ := any_toOption.mp hok
  exact ⟨t, T, σ, ht, hcheck, of_decide_eq_true hnames, (declarations_agree ht hcheck).1⟩

end PostfixCompiler
