import PostfixCompiler.Proofs.Frame.Address

/-!
# Conversions

An `int` may be given where a `double` is wanted, and is widened on the way. There are four ways
into a scalar from an expression of a function: it starts with an initial value, it is assigned to,
it is an argument of a call, or it is the result. At each of them the writer decides again whether
to widen, and what is there afterwards has to be as large as what is wanted.

The checker looks through tuples of one component, on both sides. An initial value is widened by a
rule that does so too, and neither side of an assignment can be a tuple. But of an argument and of a
result only the type itself is looked at: an `int` in a tuple of one component is not widened there,
and four bytes are left where eight are taken. That is the only exception. A variable of the unit
gets a constant, which is laid down as what is wanted in the first place.

## Main definitions

* `PostfixCompiler.Emission.Fitted`: instructions make a value what is wanted.
* `PostfixCompiler.Emission.Overlooked`: an `int` that is not widened.
* `PostfixCompiler.Decl.Converts`: all values of a declaration reach the scalars for which they are
  meant.

## Main statements

* `PostfixCompiler.Emission.fitted_stripped`, `PostfixCompiler.Emission.fitted_or_overlooked`: what
  the writer does to a value.
* `PostfixCompiler.values_converted`: the values in an accepted unit are converted, with the one
  exception.
-/

namespace PostfixCompiler

open Emission

/-! ### Values and what is wanted -/

namespace Emission

/-- **Instructions make a value of type `source` a `target`**: they widen it if that is a `double`
and the value is an `int`, which may be in tuples of one component, and else they do nothing. The
code in front of them has left as many bytes on the stack as a `source` takes; behind them there are
as many as a `target` takes. -/
structure Fitted (target source : Ty) (is : List Instr) : Prop where
  /-- The value is widened just where it has to be. -/
  exactly : is = if target = .double ∧ source.stripped = .int then [.intToDouble] else []
  /-- It takes as many bytes as what is wanted, then. -/
  bytes : (source.size : Int) + rise is = target.size

/-- **An `int` is overlooked** because it is in tuples of one component: a `double` is wanted, and
nothing is done. -/
structure Overlooked (target source : Ty) (is : List Instr) : Prop where
  /-- A `double` is wanted. -/
  wanted : target = .double
  /-- The value is an `int` when it is looked at closely, -/
  inside : source.stripped = .int
  /-- but its type is another one. -/
  wrapped : source ≠ .int
  /-- Nothing is done. -/
  none : is = []

/-- An instruction stores a value of a scalar type: it moves as many bytes as the value has, and
takes them and the address from the stack. -/
structure Stores (t : Ty) (x : Instr) : Prop where
  /-- The bytes of the value are moved. -/
  width : width? x = some t.size
  /-- They are taken from the stack, and so is the address. -/
  effect : effect x = -(t.size + Ty.wordSize)

variable {t u : Ty}

theorem stores_of_scalar (ht : t.Scalar) :
    Stores t (if t = .double then .storeDouble else .storeInt) where
  width := width_storeInstr ht
  effect := ht.choice (motive := fun n x => effect x = -(n + Ty.wordSize)) rfl rfl

/-- **A value that fits a scalar is made one by widening it if it is an `int` inside.** -/
theorem fitted_stripped (ht : t.Scalar) (hf : t.Fits u) :
    Fitted t u (widenInstrs t u.stripped) := by
  have hlead : Leads (fun _ _ => True) (0 + u.size) (widenInstrs t u.stripped) (0 + t.size) :=
    leads_widen_stripped ht hf (Int.le_refl 0)
  refine ⟨rfl, ?_⟩
  rw [Int.zero_add, Int.zero_add] at hlead
  exact hlead.2.symm

/-- A rule that looks at the type itself does the same, if the value is in no tuple. -/
theorem fitted_widen (ht : t.Scalar) (hf : t.Fits u) (hu : u.IsPlural) :
    Fitted t u (widenInstrs t u) := by
  have hfitted : Fitted t u (widenInstrs t u.stripped) := fitted_stripped ht hf
  rwa [Ty.stripped_of_isPlural hu] at hfitted

/-- **And it does the same to a value in a tuple**, unless this is an `int` and a `double` is
wanted. -/
theorem fitted_or_overlooked (ht : t.Scalar) (hf : t.Fits u) :
    Fitted t u (widenInstrs t u) ∨ Overlooked t u (widenInstrs t u) := by
  by_cases hlost : t = .double ∧ u.stripped = .int ∧ u ≠ .int
  · obtain ⟨hd, hint, hne⟩ := hlost
    exact .inr ⟨hd, hint, hne, if_neg fun h => hne h.2⟩
  · -- The two rules differ in which type they look at, and only an `int` makes a difference.
    have hsame : widenInstrs t u = widenInstrs t u.stripped := by
      refine if_congr (and_congr_right fun hd =>
        ⟨fun hu => by rw [hu]; rfl, fun hint => ?_⟩) rfl rfl
      by_contra hne
      exact hlost ⟨hd, hint, hne⟩
    rw [hsame]
    exact .inl (fitted_stripped ht hf)

end Emission

/-! ### Functions -/

namespace Function

variable {f : Function} {T : TypeTable} {config : Config}

/-- **Some code is that of the value of an expression** in a function, and `S` is the type that is
recorded for it. -/
structure Evaluates (f : Function) (T : TypeTable) (config : Config) (e : Expr) (S : Ty)
    (is : List Instr) : Prop where
  /-- The type is recorded. -/
  type : T.get? e.id = some S
  /-- The code is that of the expression. -/
  code : ∃ cx view n, cx.outside = f.context T config ∧ is = (e.outline cx view .value n).code

/-- **A variable gets its initial value**: this is converted, and stored where the variable is. -/
def Initializes (f : Function) (T : TypeTable) (config : Config) (id : NodeId)
    (is : List Instr) : Prop :=
  ∃ q ∈ f.arguments T ++ f.locals T, q.1.id = id ∧ ∃ t e S value, T.get? id = some t ∧
    q.1.initializer = some e ∧
    f.Evaluates T config e S value ∧ (t.Scalar → ∃ widen store,
      is = value ++ widen ++ [.frameAddress q.2, store] ∧ Fitted t S widen ∧ Stores t store)

/-- **A place is assigned to**: the value is converted, and a copy of it is stored. -/
def Assigns (f : Function) (T : TypeTable) (config : Config) (site : Site) (e : Expr)
    (is : List Instr) : Prop :=
  ∃ t S value place, T.get? site.id = some t ∧ f.Evaluates T config e S value ∧
    (t.Scalar → ∃ widen copy store,
    is = value ++ widen ++ [copy] ++ place ++ [store] ∧ Fitted t S widen ∧ effect copy = t.size ∧
    Stores t store)

/-- **Arguments are passed**, the last one first: each of them is converted to what its parameter
wants, unless it is overlooked. -/
inductive Passes (f : Function) (T : TypeTable) (config : Config) :
    List Expr → List Ty → List Instr → Prop where
  /-- There are no arguments. -/
  | nil : f.Passes T config [] [] []
  /-- An argument is passed behind those after it. -/
  | cons {e : Expr} {es : List Expr} {t S : Ty} {ts : List Ty} {rest value widen : List Instr}
    (hrest : f.Passes T config es ts rest) (hvalue : f.Evaluates T config e S value)
    (hwiden : t.Scalar → Fitted t S widen ∨ Overlooked t S widen) :
    f.Passes T config (e :: es) (t :: ts) (rest ++ value ++ widen)

/-- **A result is handed over**: it is converted, unless it is overlooked, and taken from the
stack. -/
def HandsOver (f : Function) (T : TypeTable) (config : Config) (e : Expr)
    (is : List Instr) : Prop :=
  ∃ t S value, T.get? f.signature.id = some t ∧ f.Evaluates T config e S value ∧
    (t.Scalar → ∃ widen take,
    is = value ++ widen ++ [take, .leave, .return] ∧ (Fitted t S widen ∨ Overlooked t S widen) ∧
      effect take = -t.size)

end Function

/-- **All values in a piece reach the scalars for which they are meant** as what is wanted there. -/
def Piece.Converts (T : TypeTable) (config : Config) (f : Function) (p : Piece)
    (inner : Outline) : Prop :=
  match p with
  | .action (.initial id) => f.Initializes T config id inner.code
  | .statement (.return _ (some e)) => f.HandsOver T config e inner.code
  | .expression _ _ (.assignment site _ e) => f.Assigns T config site e inner.code
  | .expression _ view (.call _ name args) => ∃ ts pushed call,
      view.meanings name = some (.function ts) ∧
      inner.code = pushed ++ call ∧ f.Passes T config args ts pushed
  | _ => True

section Pieces

variable {t : SyntaxTree} {T : TypeTable} {σ : SymbolTable} {config : Config} {f : Function}

/-- Where names have the places of their declarations, they mean what they mean in the scene. -/
theorem Function.meanings_of_places {Γ : Scene} {view : View Symbol}
    (h : (f.source T config σ.scope (σ.scene t.origins)).Places Γ view)
    {name : String} {m : Meaning} (hm : Γ.names name = some m) : view.meanings name = some m := by
  obtain ⟨b, hb, rfl⟩ := Option.map_eq_some_iff.mp hm
  rcases h name b hb with ⟨hscene, hview⟩ | ⟨s, hs, q, -, -, v, -, -, hmeaning, rfl⟩
  · obtain ⟨-, s, hs, hmeaning⟩ := SyntaxTree.exists_declaration hscene
    have hunit : view name = some s := hview.trans hs
    rw [View.meanings, hunit, hmeaning]
    rfl
  · rw [View.meanings, hs, hmeaning]
    rfl

/-- Arguments that fit their parameters are passed. -/
theorem Function.passes_arguments {cx : Context} (hcx : cx.outside = f.context T config)
    {view : View Symbol} {n : Nat} {args : List Expr} {ts : List Ty}
    (h : List.Forall₂ (fun a p => ∃ u, T.get? (Expr.id a) = some u ∧ Ty.Fits p u) args ts) :
    f.Passes T config args ts (Expr.argumentsOutline cx view n args ts).code := by
  have htypes : cx.types = T := congrArg Context.types hcx
  induction h with
  | nil =>
    rw [Expr.argumentsOutline]
    · exact .nil
    · simp
  | @cons e p es ps he _ ih =>
    obtain ⟨S, hS, hf⟩ := he
    have htype : e.type cx.types = S := htypes ▸ TypeTable.typeOf_eq hS
    rw [Expr.argumentsOutline, htype, Outline.code_append, Outline.code_append, Outline.code_ofCode]
    exact .cons ih ⟨hS, cx, view, _, hcx, rfl⟩ fun hp => fitted_or_overlooked hp hf

/-- An initial value that fits is converted and stored. -/
theorem Function.initializes {q : VarDecl × Int} (hq : q ∈ f.arguments T ++ f.locals T)
    {o : Occurrence} (hinit : q.1.initializer = some o.expr)
    (h : q.1.Typed Ty.Known T o.scene.names) {cx : Context} (hcx : cx.outside = f.context T config)
    (view : View Symbol) (n : Nat) :
    f.Initializes T config q.1.id (o.expr.outline cx view .value n ++ .ofCode
      (storeInstrs (Base.frame q.2).instrs (T.typeOf q.1.id) (o.expr.type T) 0)).code := by
  obtain ⟨t, ⟨ht, -⟩, -, -, hfits⟩ := h
  obtain ⟨-, S, hS, hf⟩ := hfits o.expr hinit
  refine ⟨q, hq, rfl, t, o.expr, S, _, ht, hinit, ⟨hS, cx, view, n, hcx, rfl⟩, fun hscalar => ?_⟩
  refine ⟨_, _, ?_, fitted_stripped hscalar hf, stores_of_scalar hscalar⟩
  have haddress : (Base.frame q.2).instrs 0 = [.frameAddress q.2] := by simp [Base.instrs]
  rw [Outline.code_append, Outline.code_ofCode, TypeTable.typeOf_eq ht, Expr.type,
    TypeTable.typeOf_eq hS, storeInstrs_scalar hscalar, haddress]
  simp only [List.append_assoc, List.singleton_append]

/-- A result that fits is converted and handed over. -/
theorem Function.handsOver {R : Ty} (hR : T.get? f.signature.id = some R) {e : Expr} {S : Ty}
    (hS : T.get? e.id = some S) (hf : R.Fits S) {cx : Context}
    (hcx : cx.outside = f.context T config) (id : NodeId) (pt : Point) :
    f.HandsOver T config e (leaveOutline id (returnOutline cx pt e)).code := by
  have htypes : cx.types = T := congrArg Context.types hcx
  have hreturn : cx.returnType = R :=
    (congrArg Context.returnType hcx).trans (TypeTable.typeOf_eq hR)
  have htype : e.type cx.types = S := htypes ▸ TypeTable.typeOf_eq hS
  refine ⟨R, S, _, hR, ⟨hS, cx, pt.scope, pt.labels, hcx, rfl⟩, fun hscalar => ?_⟩
  refine ⟨_, if R = .double then .storeResultDouble else .storeResultInt, ?_,
    fitted_or_overlooked hscalar hf,
    hscalar.choice (motive := fun n x => effect x = -n) rfl rfl⟩
  rw [leaveOutline, Outline.code_piece, Outline.code_append, Outline.code_ofCode, returnOutline,
    hreturn, htype]
  -- The code of a result is written case by case; in each of them it is that of an argument.
  obtain ⟨htuple, -, -⟩ := hscalar
  cases R with
  | tuple => cases htuple
  | _ => simp [widenInstrs]

/-- The value of an assignment is converted and stored. -/
theorem Function.assigns {Γ : Names} {site : Site} {p e : Expr}
    (h : (Expr.assignment site p e).Typed Ty.Known T Γ) {cx : Context}
    (hcx : cx.outside = f.context T config) (view : View Symbol) (mode : Mode) (n : Nat) :
    f.Assigns T config site e ((Expr.assignment site p e).outline cx view mode n).code := by
  obtain ⟨-, t, S, -, hS, ⟨-, hplain⟩, hf, hs⟩ := h
  have htypes : cx.types = T := congrArg Context.types hcx
  have htype : e.type cx.types = S := htypes ▸ TypeTable.typeOf_eq hS
  have hsite : cx.types.typeOf site.id = t := htypes ▸ TypeTable.typeOf_eq hs
  refine ⟨t, S, _, (p.outline cx view .address (n + e.labelCount)).code, hs,
    ⟨hS, cx, view, n, hcx, rfl⟩,
    fun hscalar => ?_⟩
  refine ⟨_, if t = .double then .dupDouble else .dupInt, _, ?_,
    fitted_widen hscalar hf (Ty.isPlural_of_isTuple hplain),
    hscalar.choice (motive := fun n x => effect x = n) rfl rfl, stores_of_scalar hscalar⟩
  rw [Expr.outline, Outline.code_piece, hsite, htype]
  simp only [Outline.code_append, Outline.code_ofCode]

/-- **All values in a piece are converted**, if it stems from the phrases of the function. -/
theorem Piece.Stems.converts {p : Piece} {inner : Outline}
    (h : p.Stems Ty.Known (f.source T config σ.scope (σ.scene t.origins)) inner)
    (htyped : ∀ o ∈ f.occurrences T (σ.scene t.origins), o.expr.Typed Ty.Known T o.scene.names)
    {R : Ty} (hR : T.get? f.signature.id = some R) : p.Converts T config f inner := by
  cases p with
  | expression mode view x =>
    obtain ⟨o, ho, hpart, hplaces, cx, n, hcx, heq⟩ := h
    have hx : x.Typed Ty.Known T o.scene.names := (htyped o ho).part hpart
    have hcode : inner.code = (x.outline cx view mode n).code := Expr.code_inner heq
    cases x with
    | assignment site p e =>
      have hassigns := f.assigns hx hcx view mode n
      rw [← hcode] at hassigns
      exact hassigns
    | call site name args =>
      -- The arguments fit what the checker has found, so the writer has to find the same
      -- parameters.
      obtain ⟨-, ts, -, hname, hts, -⟩ := hx
      have hmeaning : view.meanings name = some (.function ts) :=
        Function.meanings_of_places hplaces hname
      rw [Expr.outline, Outline.code_piece, Outline.code_append, Outline.code_ofCode,
        Expr.calleeParameters_eq hmeaning] at hcode
      exact ⟨ts, _, _, hmeaning, hcode, Function.passes_arguments hcx hts⟩
    | _ => trivial
  | action a =>
    cases a with
    | «initial» id =>
      obtain ⟨q, hq, rfl, o, -, hinit, hd, cx, view, n, hcx, rfl⟩ := h
      exact f.initializes hq hinit hd hcx view n
    | evaluate | print | endLine | test | «return» => trivial
  | statement st =>
    cases st with
    | «return» site v =>
      cases v with
      | none => trivial
      | some e =>
        obtain ⟨o, -, -, ⟨S, hS, hf⟩, cx, pt, hcx, rfl⟩ := h
        have hf' : R.Fits S := TypeTable.typeOf_eq hR ▸ hf
        exact f.handsOver hR hS hf' hcx site.id pt
    | _ => trivial
  | function | branch | text => trivial

end Pieces

/-! ### Variables of the unit -/

namespace Emission

/-- The bytes of a constant that is laid down. -/
def laidBytes? : Instr → Option Nat
  | .staticInt _ | .staticAddress _ => some Ty.wordSize
  | .staticDouble _ => some Ty.doubleSize
  | .staticBytes n => some n
  | _ => none

/-- **A constant is laid down as a value of a type**: it has as many bytes, and is a `double` if
that is the type. -/
structure LaidAs (t : Ty) (x : Instr) : Prop where
  /-- As many bytes are laid down. -/
  bytes : laidBytes? x = some t.size
  /-- They are those of a `double` if that is the type. -/
  double : (∃ d, x = .staticDouble d) ↔ t = .double

/-- A word is laid down as any scalar but a `double`. -/
theorem laidAs_word {t : Ty} (ht : t.Scalar) (hd : t ≠ .double) {x : Instr}
    (hbytes : laidBytes? x = some Ty.wordSize) (hx : ∀ d, x ≠ .staticDouble d) : LaidAs t x := by
  refine ⟨?_, iff_of_false (fun ⟨d, h⟩ => hx d h) hd⟩
  rw [hbytes, ht.size_eq, if_neg hd]
  rfl

/-- What fits a `double` is a number. -/
theorem isNumber_of_fits_double {u : Ty} (hu : u.IsPlural) (hf : Ty.double.Fits u) :
    u.IsNumber := by
  rw [Ty.Fits, Ty.stripped_of_isPlural hu] at hf
  exact hf.symm

end Emission

namespace Expr

variable {P : Ty → Prop} {T : TypeTable} {Γ : Names}

/-- **A literal that fits a scalar is laid down as one.** -/
theorem laidAs_image : ∀ {e : Expr} {t u : Ty} (next : Nat), e.Typed P T Γ → e.isLiteral = true →
    T.get? e.id = some u → t.Scalar → t.Fits u → ∃ x, e.imageCode next t = [x] ∧ LaidAs t x
  | .integer s k, t, u, next, h, _, hu, ht, _ => by
    refine ⟨_, rfl, ht.choice (motive := fun n x => laidBytes? x = some n) rfl rfl, ?_⟩
    by_cases hd : t = .double <;> simp [hd]
  | .double s d, t, u, next, h, _, hu, ht, hf => by
    cases hu.symm.trans h
    -- Nothing narrower than a `double` is fit by one: it would have to be of the same size.
    have hd : t = .double := by
      by_contra hd
      rcases ht.size_of_fits hf with hsize | ⟨hd', -⟩
      · rw [ht.size_eq, if_neg hd] at hsize
        exact absurd hsize (by decide)
      · exact hd hd'
    subst hd
    exact ⟨_, rfl, rfl, iff_of_true ⟨d, rfl⟩ rfl⟩
  | .nullptr s, t, u, next, h, _, hu, ht, hf | .string s x, t, u, next, h, _, hu, ht, hf => by
    cases hu.symm.trans h
    have hd : t ≠ .double := by
      rintro rfl
      rcases isNumber_of_fits_double (by trivial) hf with h | h <;> cases h
    exact ⟨_, rfl, laidAs_word ht hd rfl fun d => by simp⟩
  | .tuple site [e], t, u, next, h, hl, hu, ht, hf => by
    obtain ⟨⟨he, -⟩, ts, -, hts, hs⟩ := h
    rw [isLiteral, allLiteral, allLiteral, Bool.and_true] at hl
    cases hts with
    | cons hv hrest =>
      cases hrest
      obtain ⟨_, hv, rfl, -⟩ := hv
      cases hu.symm.trans hs
      rw [imageCode]
      exact laidAs_image next he hl hv ht hf
  | .tuple _ [], t, u, next, h, _, _, _, _ => by
    obtain ⟨-, ts, hne, hts, -⟩ := h
    cases hts
    exact absurd rfl hne
  | .tuple site (a :: b :: es), t, u, next, h, _, hu, ht, hf => by
    obtain ⟨-, ts, -, hts, hs⟩ := h
    cases hts with
    | cons _ hrest =>
      cases hrest
      cases hu.symm.trans hs
      cases Ty.isTuple_stripped_of_fits ht.1 hf
  | .input _, _, _, _, _, hl, _, _, _ | .variable .., _, _, _, _, hl, _, _, _
  | .pointerIndex .., _, _, _, _, hl, _, _, _ | .tupleIndex .., _, _, _, _, hl, _, _, _
  | .rvalue .., _, _, _, _, hl, _, _, _ | .assignment .., _, _, _, _, hl, _, _, _
  | .unary .., _, _, _, _, hl, _, _, _ | .binary .., _, _, _, _, hl, _, _, _
  | .addressOf .., _, _, _, _, hl, _, _, _ | .stackAlloc .., _, _, _, _, hl, _, _, _
  | .sizeof .., _, _, _, _, hl, _, _, _ | .call .., _, _, _, _, hl, _, _, _ => by cases hl

end Expr

/-- **A variable of the unit starts with a constant of its type**, if its value is given here. -/
def VarDecl.Converts (T : TypeTable) (n : Nat) (d : VarDecl) : Prop :=
  ∀ t e, T.get? d.id = some t → t.Scalar → d.initializer = some e → d.qualifier ≠ .require →
    ∃ name x, d.names = [name] ∧
    d.layCode T n = e.textCode n ++ d.headCode .data name ++ [x] ∧ LaidAs t x

theorem VarDecl.TypedGlobal.converts {P : Ty → Prop} {T : TypeTable} {Γ : Names} {d : VarDecl}
    (h : d.TypedGlobal P T Γ) (n : Nat) : d.Converts T n := by
  intro t e ht hscalar he hq
  obtain ⟨⟨t', ⟨ht', -⟩, -, hdivides, hfits⟩, hliteral⟩ := h
  cases ht.symm.trans ht'
  obtain ⟨htyped, u, hu, hf⟩ := hfits e he
  -- Only a tuple is divided among several names.
  have hone : d.names.length = 1 := by
    refine hdivides.resolve_right fun ⟨ts, htuple, _⟩ => ?_
    rw [htuple] at hscalar
    cases hscalar.1
  obtain ⟨name, hname⟩ := List.length_eq_one_iff.mp hone
  obtain ⟨x, hx, hlaid⟩ := Expr.laidAs_image (n + 1) htyped (hliteral e he).1 hu hscalar hf
  refine ⟨name, x, hname, ?_, hlaid⟩
  rw [layCode, if_neg hq, TypeTable.typeOf_eq ht, values, he, typesOfNames]
  simp only [hname, List.length_singleton, if_true, eachCode, variableCode, hx, List.append_nil]

/-! ### Units -/

/-- **All values of a declaration reach the scalars for which they are meant** as what is wanted
there. -/
def Decl.Converts (T : TypeTable) (config : Config) (scope : View Symbol) (n : Nat) : Decl → Prop
  | .variable d => d.Converts T n
  | .declare _ => True
  | .define f => (f.outline T config scope n).All (Piece.Converts T config f)

/-- **Wherever the checker has let a value into a scalar, the code makes it what is wanted there**:
an `int` is widened if a `double` is wanted, also one in tuples of one component, and as many bytes
are left or stored as the scalar takes. The one exception is an `int` in tuples of one component
that is an argument or a result. -/
theorem values_converted {nodes : Array Node} {root : NodeId} {t : SyntaxTree}
    (h : SyntaxTree.ofNodes nodes root = .ok t) {T : TypeTable} {σ : SymbolTable}
    (hcheck : Typing.checkTree t = .ok (T, σ)) (config : Config) :
    ∃ c, compile t config = .ok c ∧ ∀ before d after, t.declarations = before ++ d :: after →
      (∃ front back,
        c.code = front ++ (d.outline T config σ.scope (Decl.labelCountOfAll before)).code ++ back) ∧
      d.Converts T config σ.scope (Decl.labelCountOfAll before) := by
  have hwritten : ∀ d ∈ t.declarations, ∀ u ∈ d.writtenTypes, Typing.Written Ty.Known u :=
    fun _ _ _ _ h => h
  have haccepted := (Typing.checkTree_outcome Ty.stable_known h hwritten).1 T σ hcheck
  obtain ⟨c, hc, hcode⟩ := exists_unit_code Ty.stable_known h hwritten hcheck config
  refine ⟨c, hc, fun before d after hd => ⟨hcode before d after hd, ?_⟩⟩
  have hmem : d ∈ t.declarations := by simp [hd]
  cases d with
  | «variable» d => exact VarDecl.TypedGlobal.converts (haccepted.typed _ hmem) _
  | declare s => trivial
  | define f =>
    obtain ⟨R, hR⟩ := haccepted.typed _ hmem
    obtain ⟨hstem, htyped⟩ := f.stems_of_checked h hcheck config hmem (Decl.labelCountOfAll before)
    exact hstem.imp fun p inner hp => hp.converts htyped hR.result.1

theorem values_converted_sample :
    ∃ t T σ f c, SyntaxTree.ofNodes sampleNodes (.ofIndex 21) = .ok t ∧
    Typing.checkTree t = .ok (T, σ) ∧ t.declarations = [.define f] ∧ compile t .default = .ok c ∧
    (f.outline T .default σ.scope 0).All (Piece.Converts T .default f) := by
  obtain ⟨t, T, σ, f, ht, hcheck, hf, -⟩ := exists_sample_function
  obtain ⟨c, hc, hconverts⟩ := values_converted ht hcheck .default
  exact ⟨t, T, σ, f, c, ht, hcheck, hf, hc, (hconverts [] (.define f) [] hf).2⟩

/-- The nodes of a unit with a function that returns a `double`, and in it a tuple of one component,
an `int`, that is returned. -/
def wrappedNodes : Array Node := #[
  ⟨1, .variableDeclaration .private (.tuple [.int]) ["x"] none⟩,
  ⟨1, .variable "x"⟩, ⟨1, .rvalue (.ofIndex 1)⟩, ⟨1, .return (some (.ofIndex 2))⟩,
  ⟨1, .block [.ofIndex 0] [.ofIndex 3]⟩,
  ⟨1, .functionDefinition .private .double "f" [] (.ofIndex 4)⟩, ⟨1, .program [.ofIndex 5]⟩]

/-- **An `int` may be returned where a `double` is wanted without being widened**: the value takes
four bytes, and eight are taken. -/
theorem int_returned_as_double : ∃ t T σ f c, SyntaxTree.ofNodes wrappedNodes (.ofIndex 6) = .ok t ∧
    Typing.checkTree t = .ok (T, σ) ∧ t.declarations = [.define f] ∧
    T.get? f.signature.id = some .double ∧
    T.get? (.ofIndex 2) = some (.tuple [.int]) ∧ compile t .default = .ok c ∧
    Instr.storeResultDouble ∈ c.code ∧ Instr.intToDouble ∉ c.code := by
  have hok : (SyntaxTree.ofNodes wrappedNodes (.ofIndex 6)).toOption.any (fun t =>
      (Typing.checkTree t).toOption.any fun r => t.onlyFunction?.any fun f =>
        (compile t .default).toOption.any fun c =>
        decide (r.1.get? f.signature.id = some .double ∧
          r.1.get? (.ofIndex 2) = some (.tuple [.int]) ∧
          Instr.storeResultDouble ∈ c.code ∧ Instr.intToDouble ∉ c.code)) = true := by
    decide +kernel
  obtain ⟨t, ht, hok⟩ := any_toOption.mp hok
  obtain ⟨⟨T, σ⟩, hcheck, hok⟩ := any_toOption.mp hok
  obtain ⟨f, hf, hok⟩ := (Option.any_eq_true _ _).mp hok
  obtain ⟨c, hc, hok⟩ := any_toOption.mp hok
  obtain ⟨hresult, hvalue, htaken, hwidened⟩ := of_decide_eq_true hok
  exact ⟨t, T, σ, f, c, ht, hcheck, SyntaxTree.onlyFunction?_eq_some.mp hf, hresult, hvalue, hc,
    htaken, hwidened⟩

end PostfixCompiler
