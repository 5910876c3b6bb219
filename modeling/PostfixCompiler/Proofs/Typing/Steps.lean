import PostfixCompiler.Proofs.Typing.Ends

/-!
# The steps of a check

A check is made of a few kinds of steps: it looks at the slots of nodes, at the symbols and at the
current function, it records a type, it defines a symbol or changes one, it notices a call, and it
does work in a scope or in a function. What is true of all of these steps is true of the check, so
each part of the checker is taken apart into its steps once, here, and what is to be known of all
parts follows by induction on the steps.

Two things are. A check **does not see how its table is laid out**: in two tables with the same
types in their slots it takes the same course. And work in a scope of its own **leaves all scopes as
they were**: it changes symbols at most in the ways in which a step may.

## Main definitions

* `PostfixCompiler.Typing.Steps`: a part of the check is made of steps.
* `PostfixCompiler.Typing.State.Like`: two states that a check cannot tell apart.

## Main statements

* `PostfixCompiler.Stmt.steps_check`, `PostfixCompiler.Typing.steps_checkDecls`: a check is made of
  steps.
* `PostfixCompiler.Typing.Steps.alike`: a check does not see how its table is laid out.
* `PostfixCompiler.Typing.Steps.outer`: work in a scope leaves the other scopes as they were.
-/

namespace PostfixCompiler

namespace Typing

/-- **Two states that a check cannot tell apart**: their tables may differ in how many slots are
empty. -/
structure State.Like (s u : State) : Prop where
  /-- The slots hold the same types. -/
  types : ∀ id, s.types.get? id = u.types.get? id
  /-- The symbols are the same. -/
  symbols : s.symbols = u.symbols
  /-- The current function is the same. -/
  function : s.function = u.function
  /-- The same calls were noticed. -/
  selfCalls : s.selfCalls = u.selfCalls

/-- **A part of the check is made of steps.** Symbols are only changed in ways that `C` allows, and
outside of scopes of its own a part of the check only defines symbols of which `D` is true. -/
inductive Steps (C : (Symbol → Symbol) → Prop) :
    (Symbol → Prop) → {α : Type} → CheckM α → Prop where
  /-- There is an answer. -/
  | pure {D : Symbol → Prop} {α : Type} (a : α) : Steps C D (pure a)
  /-- There is a fault. -/
  | throw {D : Symbol → Prop} {α : Type} (e : Error) : Steps C D (throw e : CheckM α)
  /-- One part comes after the other. -/
  | bind {D : Symbol → Prop} {α β : Type} {m : CheckM α} {f : α → CheckM β} (hm : Steps C D m)
    (hf : ∀ a, Steps C D (f a)) : Steps C D (m >>= f)
  /-- The state is looked at, but not how the table is laid out. -/
  | look {D : Symbol → Prop} {α : Type} {f : State → CheckM α} (hf : ∀ s, Steps C D (f s))
    (hlike : ∀ s u, s.Like u → f s = f u) : Steps C D (get >>= f)
  /-- A type is recorded. -/
  | setType {D : Symbol → Prop} (id : NodeId) (t : Ty) : Steps C D (setType id t)
  /-- A symbol is defined. -/
  | define {D : Symbol → Prop} (s : Symbol) (hs : D s) : Steps C D (define s)
  /-- A symbol is changed. -/
  | modifySymbol {D : Symbol → Prop} (id : SymbolId) {f : Symbol → Symbol} (hf : C f) :
      Steps C D (modifySymbol id f)
  /-- A call is noticed. -/
  | notice {D : Symbol → Prop} (call : SelfCall) :
    Steps C D (modify fun s => { s with selfCalls := s.selfCalls ++ [call] } : CheckM PUnit)
  /-- Work is done in a scope of its own, in which anything may be defined. -/
  | inScope {D D' : Symbol → Prop} {α : Type} {m : CheckM α} (hm : Steps C D' m) :
      Steps C D (inScope m)
  /-- Work is done in a function. -/
  | inFunction {D : Symbol → Prop} (id : SymbolId) {m : CheckM Unit} (hm : Steps C D m) :
      Steps C D (inFunction id m)

/-! ### What is true of all steps -/

/-- Two runs end alike: with the same fault, or with the same answer in states that a check cannot
tell apart. -/
inductive Alike {α : Type} :
    EStateM.Result Error State α → EStateM.Result Error State α → Prop where
  /-- Both end with the same answer. -/
  | ok (a : α) {s u : State} (h : s.Like u) : Alike (.ok a s) (.ok a u)
  /-- Both end with the same fault. -/
  | error (e : Error) (s u : State) : Alike (.error e s) (.error e u)

theorem State.Like.record {s u : State} (h : s.Like u) (id : NodeId) (t : Ty) :
    (s.record id t).Like (u.record id t) := by
  refine ⟨fun i => ?_, h.symbols, h.function, h.selfCalls⟩
  by_cases hi : i = id
  · subst hi
    rw [State.get?_record_self, State.get?_record_self]
  · rw [State.record, State.record, TypeTable.get?_set_ne _ _ hi, TypeTable.get?_set_ne _ _ hi]
    exact h.types i

/-- The state in which a check ends, with an answer or with a fault. -/
def endState {α : Type} : EStateM.Result Error State α → State
  | .ok _ s | .error _ s => s

/-- Two parts of a check that end with an answer each ended with one. -/
theorem exists_of_bind {α β : Type} {m : CheckM α} {f : α → CheckM β} {s : State}
    {b : β} {s'' : State} (h : (m >>= f) s = .ok b s'') :
    ∃ a s', m s = .ok a s' ∧ f a s' = .ok b s'' := by
  change EStateM.bind m f s = _ at h
  unfold EStateM.bind at h
  split at h
  · exact ⟨_, _, by assumption, h⟩
  · cases h

namespace Steps

variable {C : (Symbol → Symbol) → Prop} {D : Symbol → Prop} {α : Type} {m : CheckM α}

/-- **A check does not see how its table is laid out.** -/
theorem alike (h : Steps C D m) : ∀ {s u : State}, s.Like u → Alike (m s) (m u) := by
  induction h with
  | pure a => exact fun hl => .ok a hl
  | throw e => exact fun hl => .error e _ _
  | @bind D α β m f _ _ ihm ihf =>
    intro s u hl
    change Alike (EStateM.bind m f s) (EStateM.bind m f u)
    unfold EStateM.bind
    -- Where the first parts end unlike each other there is nothing to show.
    cases hs : m s <;> cases hu : m u <;> have hm := ihm hl <;> rw [hs, hu] at hm
    · cases hm with
      | ok _ h => exact ihf _ h
    · cases hm
    · cases hm
    · cases hm with
      | error => exact .error _ _ _
  | @look D α f _ hlike ih =>
    intro s u hl
    have hsame : (get >>= f) u = f s u := by
      rw [hlike s u hl]
      rfl
    rw [hsame]
    exact ih s hl
  | setType id t => exact fun hl => .ok () (hl.record id t)
  | define sym _ =>
    intro s u hl
    have hdefine : ∀ s : State, Typing.define sym s =
        .ok (s.symbols.define sym).1 { s with symbols := (s.symbols.define sym).2 } := fun _ => rfl
    rw [hdefine, hdefine, hl.symbols]
    exact .ok _ ⟨hl.types, rfl, hl.function, hl.selfCalls⟩
  | modifySymbol id =>
    exact fun hl =>
      .ok () ⟨hl.types, congrArg (SymbolTable.modify · id _) hl.symbols, hl.function, hl.selfCalls⟩
  | notice call =>
    exact fun hl =>
      .ok () ⟨hl.types, hl.symbols, hl.function, congrArg (· ++ [call]) hl.selfCalls⟩
  | @inScope D D' α m _ ih =>
    intro s u hl
    have henter := ih (s := s.enter) (u := u.enter)
      ⟨hl.types, congrArg SymbolTable.enter hl.symbols, hl.function, hl.selfCalls⟩
    unfold Typing.inScope
    change Alike (m s.enter) (m u.enter) at henter
    unfold State.enter at henter
    cases hs : m { s with symbols := s.symbols.enter } <;>
      cases hu : m { u with symbols := u.symbols.enter } <;>
      rw [hs, hu] at henter
    · cases henter with
      | ok _ h =>
          exact .ok _ ⟨h.types, congrArg SymbolTable.exit h.symbols, h.function, h.selfCalls⟩
    · cases henter
    · cases henter
    · cases henter with
      | error => exact .error _ _ _
  | @inFunction D id m _ ih =>
    intro s u hl
    have hwithin :=
      ih (s := s.within id) (u := u.within id) ⟨hl.types, hl.symbols, rfl, hl.selfCalls⟩
    unfold Typing.inFunction
    unfold State.within at hwithin
    cases hs : m { s with function := some id } <;> cases hu : m { u with function := some id } <;>
      rw [hs, hu] at hwithin
    · cases hwithin with
      | ok _ h =>
        -- The calls that were noticed are the answer, and the function before is the current one
        -- again.
        dsimp only
        rw [h.selfCalls]
        exact .ok _ ⟨h.types, h.symbols, hl.function, rfl⟩
    · cases hwithin
    · cases hwithin
    · cases hwithin with
      | error => exact .error _ _ _

/-- **What holds of each step holds of the whole way**, whether there is an answer at its end or a
fault. -/
theorem endState {R : (Symbol → Prop) → State → State → Prop} (hrefl : ∀ D s, R D s s)
    (htrans : ∀ {D s t u}, R D s t → R D t u → R D s u) (hset : ∀ D s id t, R D s (s.record id t))
    (hdefine : ∀ {D} s {sym : Symbol}, D sym → R D s { s with symbols := (s.symbols.define sym).2 })
    (hmodify : ∀ D s id f, C f → R D s (s.modifySymbol id f))
    (hnotice : ∀ D s call, R D s { s with selfCalls := s.selfCalls ++ [call] })
    (hscope : ∀ {D D' s u}, R D' s.enter u → R D s u.exit)
    (hfunction : ∀ {D s u} id, R D (s.within id) u → R D s (u.beyond s.function))
    (h : Steps C D m) (s : State) :
    R D s (Typing.endState (m s)) := by
  induction h generalizing s with
  | pure | throw => exact hrefl _ s
  | @bind D α β m f _ _ ihm ihf =>
    have hm := ihm s
    change R D s (Typing.endState (EStateM.bind m f s))
    unfold EStateM.bind
    cases hs : m s with
    | ok a t =>
      rw [hs] at hm
      exact htrans hm (ihf a t)
    | error e t =>
      rw [hs] at hm
      exact hm
  | look _ _ ih => exact ih s s
  | setType id t => exact hset _ s id t
  | define sym hD => exact hdefine s hD
  | modifySymbol id hf => exact hmodify _ s id _ hf
  | notice call => exact hnotice _ s call
  | @inScope D D' α m _ ih =>
    have hm := ih s.enter
    unfold State.enter at hm
    unfold Typing.inScope
    cases hs : m { s with symbols := s.symbols.enter } <;> rw [hs] at hm <;> exact hscope hm
  | @inFunction D id m _ ih =>
    have hm := ih (s.within id)
    unfold State.within at hm
    unfold Typing.inFunction
    cases hs : m { s with function := some id } <;> rw [hs] at hm <;> exact hfunction id hm

/-- **What holds of each change of the symbols holds of all changes of a check.** -/
theorem symbols {R : SymbolTable → SymbolTable → Prop} (hrefl : ∀ t, R t t)
    (htrans : ∀ {t u v}, R t u → R u v → R t v) (hdefine : ∀ t s, R t (t.define s).2)
    (hmodify : ∀ t id f, C f → R t (t.modify id f)) (hscope : ∀ {t u}, R t.enter u → R t u.exit)
    (h : Steps C D m) {s : State} {a : α} {s' : State} (hm : m s = .ok a s') :
    R s.symbols s'.symbols := by
  have hend := h.endState (R := fun _ s u => R s.symbols u.symbols) (fun _ _ => hrefl _) htrans
    (fun _ _ _ _ => hrefl _) (fun _ _ _ => hdefine _ _) (fun _ _ _ _ hf => hmodify _ _ _ hf)
      (fun _ _ _ => hrefl _)
    hscope (fun _ h => h) s
  rwa [hm] at hend

/-- Inside a scope a check binds names in the innermost one only, and symbols change as its steps
may change them. -/
theorem inner {r : Symbol → Symbol → Prop} (hrefl : ∀ s, r s s)
    (htrans : ∀ a b c, r a b → r b c → r a c) (hC : ∀ f, C f → ∀ s, r s (f s)) (h : Steps C D m)
    {s : State} {a : α} {s' : State} (hm : m s = .ok a s') (hl : s.symbols.locals ≠ []) :
    SymbolTable.Inner r s.symbols s'.symbols := by
  -- A scope that is entered and left on the way leaves all others as they were.
  refine h.symbols (R := fun t u => t.locals ≠ [] → SymbolTable.Inner r t u) (fun _ => .refl hrefl)
    (fun h h' hl => (h hl).trans htrans (h' (h hl).local_ne)) (fun t s hl =>
      SymbolTable.inner_define hrefl hl s)
    (fun t id f hf hl => ((SymbolTable.outer_modify_of_forall hrefl (hC f hf) t id).inner hl))
    (fun h hl => (h (by simp [SymbolTable.enter])).exit.inner hl) hm hl

/-- **Work in a scope of its own leaves all scopes as they were**, and symbols change as its steps
may change them. -/
theorem outer {r : Symbol → Symbol → Prop} (hrefl : ∀ s, r s s)
    (htrans : ∀ a b c, r a b → r b c → r a c) (hC : ∀ f, C f → ∀ s, r s (f s)) (h : Steps C D m)
    {s : State} {a : α} {s' : State} (hm : Typing.inScope m s = .ok a s') :
    SymbolTable.Outer r s.symbols s'.symbols := by
  unfold Typing.inScope at hm
  split at hm
  · rename_i hwork
    cases hm
    have hinner :=
      h.inner hrefl htrans hC (s := s.enter) hwork (by simp [State.enter, SymbolTable.enter])
    exact hinner.exit
  · cases hm

/-- A check binds no name of the global scope twice. -/
theorem nodup_global (h : Steps C D m) {s : State} {a : α} {s' : State} (hm : m s = .ok a s')
    (hs : (s.symbols.global.map Prod.fst).Nodup) : (s'.symbols.global.map Prod.fst).Nodup := by
  refine h.symbols (R := fun t u => (t.global.map Prod.fst).Nodup →
    (u.global.map Prod.fst).Nodup) (fun _ h => h)
    (fun h h' ht => h' (h ht)) (fun t sym ht => ?_) (fun _ _ _ _ h => h) (fun h => h) hm hs
  rcases t with ⟨symbols, _ | _, global⟩
  · refine List.nodup_cons.mpr ⟨?_, ht.sublist (List.filter_sublist.map _)⟩
    simp
  · exact ht

end Steps

/-! ### The parts of the check -/

variable {C : (Symbol → Symbol) → Prop} {D : Symbol → Prop}

theorem steps_fault {α : Type} (line : UInt32) (f : TypeFault) :
    Steps C D (fault line f : CheckM α) := .throw _

theorem steps_require (line : UInt32) (c : Bool) (f : TypeFault) :
    Steps C D (require line c f) := by
  unfold require
  split
  · exact .pure ()
  · exact steps_fault line f

theorem steps_known (line : UInt32) (t : Ty) : Steps C D (known line t) := by
  unfold known
  split
  · exact steps_fault line _
  · exact .pure t

theorem steps_typeOf (id : NodeId) : Steps C D (typeOf id) := by
  refine .look (fun s => ?_) fun s u h => by simp only [TypeTable.expect, h.types id]
  cases s.types.expect id with
  | ok t => exact .pure t
  | error f => exact .throw _

theorem steps_once (id : NodeId) {check : CheckM Ty} (h : Steps C D check) :
    Steps C D (once id check) := by
  have htyped : ∀ s u : State, s.Like u → s.types.isTyped id = u.types.isTyped id :=
    fun s u hl => by
    unfold TypeTable.isTyped
    rw [hl.types id]
  refine .look (fun s => ?_) fun s u hl => by rw [htyped s u hl]
  split
  · exact steps_typeOf id
  · exact .bind h fun t => .bind (.setType id t) fun _ => .pure t

end Typing

open Typing

variable {C : (Symbol → Symbol) → Prop} {D : Symbol → Prop}

/-! ### Expressions -/

theorem Expr.steps_adapt (e : Expr) (target : Ty) : Steps C D (e.adapt target) := by
  cases e with
  | input site =>
    change Steps C D (if target = .double then setType site.id .double else pure ())
    split
    · exact .setType _ _
    · exact .pure ()
  | stackAlloc site count =>
    refine .look (fun s => ?_) fun s u h => by simp only [h.types site.id]
    extract_lets isOpen
    split
    · exact .setType _ _
    · exact .pure ()
  | _ => exact .pure ()

namespace Expr

/-- The type of an expression that must be known. -/
private theorem steps_bind_known {α : Type} {m : CheckM Ty} {f : Ty → CheckM α} (line : UInt32)
    (hm : Steps C D m) (hf : ∀ t, Steps C D (f t)) :
    Steps C D (m >>= fun t => known line t >>= f) :=
  .bind hm fun t => .bind (steps_known line t) hf

mutual

/-- **The check of an expression is made of steps**, none of which changes a symbol. -/
theorem steps_check : ∀ e : Expr, Steps C D e.check
  | .integer _ _ | .double _ _ | .string _ _ | .nullptr _ | .input _ => by
    unfold check
    exact steps_once _ (.pure _)
  | .variable site name => by
    unfold check
    refine steps_once _ (.look (fun s => ?_) fun s u h => by rw [h.symbols])
    rcases s.symbols.resolve? name with _ | ⟨_, sym⟩
    · exact steps_fault _ _
    · dsimp only
      split
      · exact steps_fault _ _
      · exact .pure _
  | .pointerIndex site base index => by
    unfold check
    refine steps_once _ (steps_bind_known _ base.steps_check fun b => ?_)
    cases b.referent? with
    | none => exact steps_fault _ _
    | some element =>
      have hindex : Steps C D (index.check >>= fun t => known index.line t >>= fun i =>
          require index.line (i = .int) (.indexNotInteger i) >>= fun _ => pure element) :=
        steps_bind_known _ index.steps_check fun i => .bind (steps_require _ _ _) fun _ => .pure _
      dsimp only
      split
      · exact .bind (steps_fault _ _) fun _ => hindex
      · exact hindex
  | .tupleIndex site base index => by
    unfold check
    refine steps_once _ (steps_bind_known _ base.steps_check fun b => ?_)
    cases b with
    | tuple ts =>
      dsimp only
      split
      · exact .pure _
      · exact steps_fault _ _
    | _ => exact steps_fault _ _
  | .rvalue site place => by
    unfold check
    exact steps_once _ place.steps_check
  | .assignment site place value => by
    unfold check
    refine steps_once _
      (steps_bind_known _ place.steps_check fun target => .bind value.steps_check fun _ =>
      .bind (value.steps_adapt target) fun _ => .bind (steps_typeOf _) fun source => ?_)
    have hanswer : Steps C D (match target.compatible? .assignment source with
        | some _ => pure target
        | none => fault site.line (.assignmentMismatch source target) : CheckM Ty) := by
      cases target.compatible? .assignment source with
      | some _ => exact .pure _
      | none => exact steps_fault _ _
    dsimp only
    split
    · exact .bind (steps_fault _ _) fun _ => hanswer
    · exact hanswer
  | .unary site op argument => by
    unfold check
    exact steps_once _ (steps_bind_known _ argument.steps_check fun t =>
      .bind (steps_require _ _ _) fun _ => .pure _)
  | .binary site op left right => by
    unfold check
    refine steps_once _ (steps_bind_known _ left.steps_check fun l =>
      steps_bind_known _ right.steps_check fun r => ?_)
    cases op.resultType? l r with
    | some t => exact .pure _
    | none => exact steps_fault _ _
  | .addressOf site place => by
    unfold check
    exact steps_once _ (steps_bind_known _ place.steps_check fun t => .pure _)
  | .stackAlloc site count => by
    unfold check
    exact steps_once _
      (steps_bind_known _ count.steps_check fun t => .bind (steps_require _ _ _) fun _ => .pure _)
  | .sizeof site e => by
    unfold check
    exact steps_once _ (.bind e.steps_check fun _ => .pure _)
  | .tuple site elements => by
    unfold check
    refine steps_once _ (.bind (steps_checkComponents elements) fun ts => ?_)
    match ts with
    | [] => exact steps_fault _ _
    | [t] => exact .pure _
    | t :: u :: ts => exact .pure _
  | .call site name arguments => by
    unfold check
    refine steps_once _ (.look (fun s => ?_) fun s u h => by rw [h.symbols])
    rcases s.symbols.resolve? name with _ | ⟨function, sym⟩
    · exact steps_fault _ _
    · refine .bind (steps_require _ _ _) fun _ => .bind (steps_require _ _ _) fun _ =>
        .bind (steps_checkArguments arguments _) fun ts => .bind (steps_require _ _ _) fun _ =>
        .bind (steps_require _ _ _) fun _ => .look (fun u => ?_) fun u v h => by rw [h.function]
      split
      · exact .bind (.notice _) fun _ => .pure _
      · exact .pure _

/-- The check of the elements of a tuple is made of steps. -/
theorem steps_checkComponents : ∀ es : List Expr, Steps C D (checkComponents es)
  | [] => .pure []
  | e :: es => by
    unfold checkComponents
    exact steps_bind_known _ e.steps_check fun t => .bind (steps_require _ _ _) fun _ =>
      .bind (steps_checkComponents es) fun ts => .pure _

/-- The check of the arguments of a call is made of steps. -/
theorem steps_checkArguments : ∀ (es : List Expr) (ps : List Ty), Steps C D (checkArguments es ps)
  | [], _ | _ :: _, [] => by
    unfold checkArguments
    exact .pure []
  | e :: es, p :: ps => by
    unfold checkArguments
    exact .bind e.steps_check fun _ => .bind (e.steps_adapt p) fun _ =>
      .bind (steps_typeOf _) fun t =>
      .bind (steps_checkArguments es ps) fun ts => .pure _

end

theorem steps_checkKnown (e : Expr) : Steps C D e.checkKnown :=
  .bind e.steps_check fun t => steps_known e.line t

end Expr

/-! ### Declarations -/

namespace VarDecl

theorem steps_checkForm (d : VarDecl) (isGlobal : Bool) : Steps C D (d.checkForm isGlobal) :=
  .bind (steps_require _ _ _) fun _ => .bind (steps_require _ _ _) fun _ =>
    .bind (steps_require _ _ _) fun _ =>
    .bind (steps_require _ _ _) fun _ => .bind (steps_require _ _ _) fun _ =>
      .bind (steps_require _ _ _) fun _ =>
    steps_require _ _ _

theorem steps_unify (d : VarDecl) (value : Ty) : Steps C D (d.unify value) := by
  unfold unify
  split
  · cases d.type.compatible? .initializer value with
    | some t => exact .pure t
    | none => exact steps_fault _ _
  · cases value with
    | tuple ts =>
      dsimp only
      split
      · exact .pure _
      · exact steps_fault _ _
    | _ => exact steps_fault _ _

theorem steps_declaredType (d : VarDecl) (isGlobal : Bool) :
    Steps C D (d.declaredType isGlobal) := by
  unfold declaredType
  cases d.initializer with
  | none => exact .pure _
  | some init =>
    exact .bind (steps_require _ _ _) fun _ => .bind init.steps_check fun _ =>
      .bind (init.steps_adapt _) fun _ =>
      .bind (steps_typeOf _) fun t => d.steps_unify t

theorem steps_declareEach (d : VarDecl) {entries : List (String × Ty)}
    (hD : ∀ entry ∈ entries, ∀ sym : Symbol, sym.name = entry.1 → D sym) :
    Steps C D (d.declareEach entries) := by
  induction entries with
  | nil => exact .pure ()
  | cons entry rest ih =>
    rw [List.forall_mem_cons] at hD
    exact .look (fun s => .bind (steps_require _ _ _) fun _ =>
      .bind (.define _ (hD.1 _ rfl)) fun _ => ih hD.2)
      fun s u h => by rw [h.symbols]

/-- The check of a declaration is made of steps, none of which changes a symbol. It defines the
names that are declared. -/
theorem steps_check (d : VarDecl) (hD : ∀ sym : Symbol, sym.name ∈ d.names → D sym) :
    Steps C D d.check := by
  refine .look (fun s => .bind (d.steps_checkForm _) fun _ =>
    .bind (d.steps_declaredType _) fun t =>
    .bind (steps_require _ _ _) fun _ => .bind (steps_require _ _ _) fun _ =>
    .bind (d.steps_declareEach fun entry he sym hname => hD sym ?_) fun _ =>
      .setType _ _) fun s u h => by
      rw [h.symbols]
  exact hname ▸ (List.of_mem_zip he).1

theorem steps_argumentType (d : VarDecl) (function : String) :
    Steps C D (d.argumentType function) :=
  .bind (steps_require _ _ _) fun _ => .bind (steps_require _ _ _) fun _ =>
    .bind (steps_require _ _ _) fun _ =>
    .pure _

theorem steps_checkAsArgument (d : VarDecl) : Steps C (fun _ => True) d.checkAsArgument := by
  have heach : ∀ (t : Ty) (names : List String),
      Steps C (fun _ => True) (d.declareArgument t names) := by
    intro t names
    induction names with
    | nil => exact .pure ()
    | cons name rest ih =>
      exact .look (fun s => .bind (steps_require _ _ _) fun _ =>
        .bind (.define _ trivial) fun _ => ih)
        fun s u h => by rw [h.symbols]
  exact .bind (steps_typeOf _) fun t => heach t d.names

end VarDecl

theorem Typing.steps_checkAsArguments (ds : List VarDecl) :
    Steps C (fun _ => True) (checkAsArguments ds) := by
  induction ds with
  | nil => exact .pure ()
  | cons d ds ih => exact .bind d.steps_checkAsArgument fun _ => ih

namespace Signature

theorem steps_checkArguments (s : Signature) (ds : List VarDecl) :
    Steps C D (s.checkArguments ds) := by
  induction ds with
  | nil => exact .pure []
  | cons d ds ih =>
    exact .bind (d.steps_argumentType _) fun t => .bind (.setType _ _) fun _ =>
      .bind ih fun ts => .pure _

/-- The check of a signature is made of steps, none of which changes a symbol. It defines the
function at most. -/
theorem steps_check (s : Signature) (defining : Bool)
    (hD : ∀ sym : Symbol, sym.name = s.name → D sym) :
    Steps C D (s.check defining) := by
  refine .bind (steps_require _ _ _) fun _ => .bind (steps_require _ _ _) fun _ =>
    .bind (s.steps_checkArguments _) fun ts => .look (fun st => ?_) fun st u h => by rw [h.symbols]
  rcases st.symbols.resolveLocal? s.name with _ | ⟨id, prior⟩
  · exact .bind (.define _ (hD _ rfl)) fun id => .bind (.setType _ _) fun _ => .pure id
  · exact .bind (steps_require _ _ _) fun _ => .bind (steps_require _ _ _) fun _ =>
      .bind (steps_require _ _ _) fun _ =>
      .bind (.setType _ _) fun _ => .pure id

end Signature

/-! ### Statements -/

namespace Typing

theorem steps_checkCondition (e : Expr) : Steps C D (checkCondition e) :=
  .bind e.steps_checkKnown fun _ => steps_require _ _ _

theorem steps_checkLoopCondition (c : Option Expr) : Steps C D (checkLoopCondition c) := by
  cases c with
  | none => exact .pure ()
  | some e => exact .bind e.steps_checkKnown fun _ => steps_require _ _ _

theorem steps_checkPrinted (es : List Expr) : Steps C D (checkPrinted es) := by
  induction es with
  | nil => exact .pure ()
  | cons e es ih => exact .bind e.steps_checkKnown fun _ => .bind (steps_require _ _ _) fun _ => ih

theorem steps_checkEvaluated (es : List Expr) : Steps C D (checkEvaluated es) := by
  induction es with
  | nil => exact .pure ()
  | cons e es ih => exact .bind e.steps_checkKnown fun _ => ih

theorem steps_checkLoopInits (inits : List LoopInit) :
    Steps C (fun _ => True) (checkLoopInits inits) := by
  induction inits with
  | nil => exact .pure ()
  | cons i inits ih =>
    cases i with
    | declare d => exact .bind (d.steps_check fun _ _ => trivial) fun _ => ih
    | evaluate e => exact .bind e.steps_checkKnown fun _ => ih

theorem steps_checkDeclarations (ds : List VarDecl) :
    Steps C (fun _ => True) (checkDeclarations ds) := by
  induction ds with
  | nil => exact .pure ()
  | cons d ds ih => exact .bind (d.steps_check fun _ _ => trivial) fun _ => ih

variable (htype : ∀ t : Ty, C fun s => { s with type := t })
include htype

theorem steps_checkReturned (id : SymbolId) (s : Symbol) (value : Expr) :
    Steps C D (checkReturned id s value) := by
  refine .bind value.steps_check fun _ => .bind (value.steps_adapt _) fun _ =>
    .bind (steps_typeOf _) fun t =>
    .bind (steps_require _ _ _) fun _ => ?_
  split
  · cases s.type.compatible? .inference t with
    | some unified => exact .modifySymbol id (htype unified)
    | none => exact steps_fault _ _
  · exact steps_require _ _ _

theorem steps_checkReturn (site : Site) (value : Option Expr) :
    Steps C D (checkReturn site value) := by
  refine .look (fun st => ?_) fun s u h => by rw [h.symbols, h.function]
  rcases (st.function.bind fun id => (st.symbols.get? id).map fun s => (id, s)) with _ | ⟨id, s⟩
  · exact steps_fault _ _
  · cases value with
    | none => exact steps_require _ _ _
    | some v => exact .bind (steps_require _ _ _) fun _ => steps_checkReturned htype id s v

end Typing

namespace Stmt

mutual

/-- **The check of a statement is made of steps.** The only change of a symbol is that the type of a
function is found out, and symbols are only defined in scopes of the statement. -/
theorem steps_check {D : Symbol → Prop} (htype : ∀ t : Ty, C fun s => { s with type := t }) :
    ∀ s : Stmt, Steps C D s.check
  | .block _ ds body => by
    unfold check
    exact .inScope (.bind (steps_checkDeclarations ds) fun _ => steps_checkAll htype body)
  | .evaluation _ e => by
    unfold check
    exact .bind e.steps_checkKnown fun _ => .pure ()
  | .write _ args _ => by
    unfold check
    exact steps_checkPrinted args
  | .ifThen _ c t => by
    unfold check
    exact .bind (steps_checkCondition c) fun _ => t.steps_check htype
  | .ifElse _ c t e => by
    unfold check
    exact .bind (steps_checkCondition c) fun _ => .bind (t.steps_check htype) fun _ =>
      e.steps_check htype
  | .forLoop _ inits c incs body => by
    unfold check
    exact .inScope (.bind (steps_checkLoopInits inits) fun _ =>
      .bind (steps_checkLoopCondition c) fun _ =>
      .bind (steps_checkEvaluated incs) fun _ => body.steps_check htype)
  | .break _ | .continue _ => by
    unfold check
    exact .pure ()
  | .return site value => by
    unfold check
    exact steps_checkReturn htype site value

/-- The check of statements is made of steps. -/
theorem steps_checkAll {D : Symbol → Prop} (htype : ∀ t : Ty, C fun s => { s with type := t }) :
    ∀ ss : List Stmt, Steps C D (checkAll ss)
  | [] => by
    unfold checkAll
    exact .pure ()
  | s :: ss => by
    unfold checkAll
    exact .bind (s.steps_check htype) fun _ => steps_checkAll htype ss

end

end Stmt

/-! ### The unit -/

section Unit

variable (htype : ∀ t : Ty, C fun s => { s with type := t })
include htype

theorem Function.steps_checkBody (f : Function) : Steps C D f.checkBody :=
  .inScope (.bind (steps_checkAsArguments _) fun _ => Stmt.steps_check htype _)

variable (hdefined : C fun s => { s with defined := true })
include hdefined

/-- The check of a function is that of its signature and what is done behind it, which is made of
steps: the symbol gets a type, and is then a defined one. -/
theorem Function.exists_check_eq (f : Function) : ∃ rest : SymbolId → CheckM Unit,
    f.check = f.signature.check true >>= rest ∧ ∀ id, Steps C D (rest id) := by
  refine ⟨_, rfl, fun id => .bind (.modifySymbol id hdefined) fun _ =>
    .bind (.inFunction id (f.steps_checkBody htype)) fun calls => .look (fun st => ?_) fun s u h =>
      by rw [h.symbols]⟩
  cases st.symbols.get? id with
  | none => exact .throw _
  | some symbol =>
    refine .bind (steps_require _ _ _) fun _ => ?_
    -- Whether a call saw another type or not, the type is recorded and the flow is looked at.
    cases calls.find? fun c => c.seen ≠ symbol.type with
    | some c =>
      refine .bind (steps_fault _ _) fun _ => .bind (.setType _ _) fun _ => ?_
      cases f.checkFlow symbol.type with
      | ok => exact .pure ()
      | error e => exact .throw e
    | none =>
      refine .bind (.setType _ _) fun _ => ?_
      cases f.checkFlow symbol.type with
      | ok => exact .pure ()
      | error e => exact .throw e

/-- The check of a function is made of steps. It defines the function at most. -/
theorem Function.steps_check (f : Function)
    (hD : ∀ sym : Symbol, sym.name = f.signature.name → D sym) :
    Steps C D f.check := by
  obtain ⟨rest, heq, hrest⟩ := f.exists_check_eq htype hdefined
  rw [heq]
  exact .bind (f.signature.steps_check true hD) hrest

/-- The check of a declaration of the unit is made of steps. It defines the names that are
declared. -/
theorem Decl.steps_check (d : Decl) (hD : ∀ sym : Symbol, sym.name ∈ d.names → D sym) :
    Steps C D d.check := by
  cases d with
  | «variable» d => exact d.steps_check hD
  | declare s =>
    refine .bind (s.steps_check false fun sym h => ?_) fun _ => .pure ()
    exact hD sym (h ▸ List.mem_singleton_self _)
  | define f =>
    refine f.steps_check htype hdefined fun sym h => ?_
    exact hD sym (h ▸ List.mem_singleton_self _)

/-- **The check of declarations is made of steps.** -/
theorem Typing.steps_checkDecls {ds : List Decl}
    (hD : ∀ d ∈ ds, ∀ sym : Symbol, sym.name ∈ d.names → D sym) :
    Steps C D (checkDecls ds) := by
  induction ds with
  | nil => exact .pure ()
  | cons d ds ih =>
    rw [List.forall_mem_cons] at hD
    exact .bind (d.steps_check htype hdefined hD.1) fun _ => ih hD.2

end Unit

/-- **The check of a tree ends with an answer** exactly if that of its declarations does. -/
theorem Typing.checkTree_eq_ok {t : SyntaxTree} {T : TypeTable} {σ : SymbolTable} :
    checkTree t = .ok (T, σ) ↔
    ∃ s, checkDecls t.declarations (.start (.ofSize t.size)) = .ok () s ∧ s.types = T ∧
    s.symbols = σ := by
  unfold checkTree checkUnit
  cases checkDecls t.declarations (.start (.ofSize t.size)) with
  | ok a s => simp
  | error e s => simp

end PostfixCompiler
