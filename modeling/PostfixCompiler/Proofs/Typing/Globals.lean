import PostfixCompiler.Proofs.Typing.Steps

/-!
# What a check leaves behind

The check of a unit ends with an answer or with its first fault, and that may lie at any depth: in
an argument, in a block, in a loop, in an expression of any of these. On the way out every scope is
closed that was opened on the way in, and the function around is the current one again. So behind a
fault, as behind an answer, the global scope is the only one that is open, and what is bound there
are names that the declarations of the unit introduce: all names of the declarations that were done,
and names of the one with the fault at most.

Both are told of the steps that a check is made of. A step keeps what is around the innermost scope,
and a name gets into the global scope only if it is defined outside of all others.

## Main definitions

* `PostfixCompiler.SymbolTable.BindsGlobally`: a name is bound in the global scope.
* `PostfixCompiler.Typing.State.Kept`: what a part of the check leaves as it was.
* `PostfixCompiler.Typing.LeavesBehind`: what the check of a unit leaves behind.

## Main statements

* `PostfixCompiler.Typing.Steps.kept`: every part of the check closes the scopes that it opens.
* `PostfixCompiler.Decl.binds_of_check`: a declaration that is done is bound.
* `PostfixCompiler.Typing.nothing_leaks`: what the check of a unit leaves behind.
-/

namespace PostfixCompiler

open Typing

/-! ### Names of the global scope -/

namespace SymbolTable

/-- The name is bound in the global scope. -/
def BindsGlobally (t : SymbolTable) (name : String) : Prop := (t.global.find? name).isSome = true

variable {t : SymbolTable}

/-- Where only the global scope is open, its names are those that are found. -/
theorem bindsGlobally_iff_lookup? (h : t.isGlobalScope = true) (name : String) :
    t.BindsGlobally name ↔ (t.lookup? name).isSome = true := by
  rw [isGlobalScope, List.isEmpty_iff] at h
  rw [BindsGlobally, lookup?, scopes, h, List.nil_append, List.findSome?_singleton]

/-- What a name stands for in the global scope, where no other is open, is bound there. -/
theorem bindsGlobally_of_resolveLocal? (h : t.isGlobalScope = true) {name : String}
    {entry : SymbolId × Symbol} (hentry : t.resolveLocal? name = some entry) :
    t.BindsGlobally name := by
  rw [isGlobalScope, List.isEmpty_iff] at h
  obtain ⟨id, hid, -⟩ := Option.bind_eq_some_iff.mp hentry
  rw [lookupLocal?, h, List.headD_nil] at hid
  rw [BindsGlobally, hid, Option.isSome_some]

/-- **A definition binds its name in the global scope** exactly if no other scope is open. -/
theorem bindsGlobally_define (t : SymbolTable) (sym : Symbol) (name : String) :
    (t.define sym).2.BindsGlobally name ↔
      t.BindsGlobally name ∨ t.isGlobalScope = true ∧ sym.name = name := by
  obtain ⟨symbols, _ | ⟨scope, locals⟩, global⟩ := t
  · unfold BindsGlobally
    simp only [define, Scope.find?_bind, isGlobalScope, List.isEmpty_nil, true_and]
    by_cases h : name = sym.name
    · simp [h]
    · simp [h, Ne.symm h]
  · exact ⟨.inl, fun h => h.elim id fun h => by cases h.1⟩

theorem isGlobalScope_define (t : SymbolTable) (sym : Symbol) :
    (t.define sym).2.isGlobalScope = t.isGlobalScope := by
  obtain ⟨symbols, _ | _, global⟩ := t <;> rfl

theorem tail_locals_define (t : SymbolTable) (sym : Symbol) :
    (t.define sym).2.locals.tail = t.locals.tail := by
  obtain ⟨symbols, _ | _, global⟩ := t <;> rfl

end SymbolTable

/-! ### What the steps of a check keep -/

namespace Typing

/-- **What a part of the check leaves as it was**: the function, the scopes around the innermost
one, and the names that are bound in the global scope. Where no other scope is open, names of
symbols of which `D` is true are added. -/
structure State.Kept (D : Symbol → Prop) (s u : State) : Prop where
  /-- The current function is the same. -/
  function : u.function = s.function
  /-- Scopes inside the global one are open where they were. -/
  isGlobalScope : u.symbols.isGlobalScope = s.symbols.isGlobalScope
  /-- The scopes around the innermost one are the same. -/
  tail : u.symbols.locals.tail = s.symbols.locals.tail
  /-- No name is lost. -/
  bound : ∀ name, s.symbols.BindsGlobally name → u.symbols.BindsGlobally name
  /-- Names are added where they may be. -/
  added : ∀ name, u.symbols.BindsGlobally name →
    s.symbols.BindsGlobally name ∨ s.symbols.isGlobalScope = true ∧ ∃ sym, D sym ∧ sym.name = name

namespace State.Kept

variable {D D' : Symbol → Prop} {s t u : State}

theorem refl (D : Symbol → Prop) (s : State) : s.Kept D s :=
  ⟨rfl, rfl, rfl, fun _ h => h, fun _ h => .inl h⟩

theorem trans (h : s.Kept D t) (h' : t.Kept D u) : s.Kept D u where
  function := h'.function.trans h.function
  isGlobalScope := h'.isGlobalScope.trans h.isGlobalScope
  tail := h'.tail.trans h.tail
  bound name hname := h'.bound name (h.bound name hname)
  added name hname := by
    rcases h'.added name hname with hname | ⟨hglobal, hD⟩
    · exact h.added name hname
    · exact .inr ⟨h.isGlobalScope ▸ hglobal, hD⟩

theorem define (s : State) {sym : Symbol} (hD : D sym) :
    s.Kept D { s with symbols := (s.symbols.define sym).2 } where
  function := rfl
  isGlobalScope := s.symbols.isGlobalScope_define sym
  tail := s.symbols.tail_locals_define sym
  bound name hname := (s.symbols.bindsGlobally_define sym name).mpr (.inl hname)
  added name hname :=
    ((s.symbols.bindsGlobally_define sym name).mp hname).imp_right fun h => ⟨h.1, sym, hD, h.2⟩

/-- What is done in a scope of its own is gone behind it. -/
theorem exit (h : s.enter.Kept D' u) : s.Kept D u.exit where
  function := h.function
  isGlobalScope := congrArg List.isEmpty h.tail
  tail := congrArg List.tail h.tail
  bound := h.bound
  added name hname := (h.added name hname).imp_right fun hadded => by cases hadded.1

end State.Kept

/-- **Every part of the check closes the scopes that it opens**, and sets the function back,
whichever way it ends. -/
theorem Steps.kept {C : (Symbol → Symbol) → Prop} {D : Symbol → Prop} {α : Type} {m : CheckM α}
    (h : Steps C D m) (s : State) : s.Kept D (Typing.endState (m s)) := by
  -- Types, changed symbols and noticed calls touch neither the scopes nor the function.
  refine h.endState (R := State.Kept) .refl .trans (fun D s _ _ => ?_) (fun s _ hD => .define s hD)
    (fun D s _ _ _ => ?_) (fun D s _ => ?_) .exit (fun _ h => ?_) s
  · exact ⟨rfl, rfl, rfl, fun _ h => h, fun _ h => .inl h⟩
  · exact ⟨rfl, rfl, rfl, fun _ h => h, fun _ h => .inl h⟩
  · exact ⟨rfl, rfl, rfl, fun _ h => h, fun _ h => .inl h⟩
  · exact ⟨rfl, h.isGlobalScope, h.tail, h.bound, h.added⟩

/-- Any symbol may be defined, and symbols may be changed in any way. -/
abbrev AnySteps {α : Type} (m : CheckM α) : Prop := Steps (fun _ => True) (fun _ => True) m

/-- Behind steps that were done, what was bound is still bound. -/
theorem Steps.bound {α : Type} {m : CheckM α} (h : AnySteps m) {s : State} {a : α} {s' : State}
    (hm : m s = .ok a s') {name : String} (hname : s.symbols.BindsGlobally name) :
    s'.symbols.BindsGlobally name := by
  have hkept := h.kept s
  rw [hm] at hkept
  exact hkept.bound name hname

/-- Behind steps that were done, the global scope is the only open one if it was so before. -/
theorem Steps.isGlobalScope {α : Type} {m : CheckM α} (h : AnySteps m) {s : State}
    {a : α} {s' : State} (hm : m s = .ok a s') :
    s'.symbols.isGlobalScope = s.symbols.isGlobalScope := by
  have hkept := h.kept s
  rw [hm] at hkept
  exact hkept.isGlobalScope

/-! ### What is required -/

variable {line : UInt32} {c : Bool} {f : TypeFault} {s s' : State}

/-- A requirement that is met changes nothing. -/
theorem require_eq_ok_iff : require line c f s = .ok () s' ↔ c = true ∧ s = s' := by
  cases c with
  | true => exact ⟨fun h => (by cases h; exact ⟨rfl, rfl⟩), fun h => h.2 ▸ rfl⟩
  | false => exact ⟨fun h => (by cases h), fun h => (by cases h.1)⟩

/-- A check goes on behind a requirement that is met. -/
theorem require_bind_eq_ok_iff {α : Type} {k : Unit → CheckM α} {a : α} :
    (require line c f >>= k) s = .ok a s' ↔ c = true ∧ k () s = .ok a s' := by
  cases c with
  | true => exact ⟨fun h => ⟨rfl, h⟩, fun h => h.2⟩
  | false => exact ⟨fun h => (by cases h), fun h => (by cases h.1)⟩

theorem define_eq_ok (sym : Symbol) :
    define sym s = .ok (s.symbols.define sym).1 { s with symbols := (s.symbols.define sym).2 } :=
  rfl

end Typing

/-! ### Declarations that are done -/

namespace VarDecl

variable {d : VarDecl} {s s' : State}

/-- Where several variables are declared there is an initializer. -/
theorem initialized_of_checkForm {isGlobal : Bool} (h : d.checkForm isGlobal s = .ok () s') :
    d.names.length ≤ 1 ∨ d.initializer.isSome = true := by
  unfold checkForm at h
  simp only [require_bind_eq_ok_iff, require_eq_ok_iff, decide_eq_true_eq] at h
  obtain ⟨-, -, -, -, -, hjoint, hinit, -⟩ := h
  refine hjoint.imp_right fun hauto => hinit.resolve_left ?_
  rw [decide_eq_true hauto]
  exact Bool.false_ne_true

/-- An initializer has a type for each of the variables. -/
theorem length_of_unify {value t : Ty} (h : d.unify value s = .ok t s') :
    d.names.length ≤ (d.typesOfNames t).length := by
  unfold unify at h
  unfold typesOfNames
  split at h
  · next hone =>
    rw [if_pos hone]
    exact Nat.le_of_eq hone
  · next hone =>
    rw [if_neg hone]
    split at h
    · next ts =>
      split at h
      · next hlength =>
        cases h
        exact Nat.le_of_eq hlength.symm
      · cases h
    · cases h

/-- The type of a declaration that is done has a part for each of the variables. -/
theorem length_of_declaredType {isGlobal : Bool} {t : Ty} (h : d.declaredType isGlobal s = .ok t s')
    (hinit : d.names.length ≤ 1 ∨ d.initializer.isSome = true) :
    d.names.length ≤ (d.typesOfNames t).length := by
  unfold declaredType at h
  cases hd : d.initializer with
  | none =>
    rw [hd] at h hinit
    cases h
    have hlength := hinit.resolve_right Bool.false_ne_true
    unfold typesOfNames
    split
    · exact hlength
    · next hne => exact Nat.lt_one_iff.mp (Nat.lt_of_le_of_ne hlength hne) ▸ Nat.zero_le _
  | some init =>
    rw [hd] at h
    obtain ⟨-, h⟩ := require_bind_eq_ok_iff.mp h
    obtain ⟨_, _, -, h⟩ := exists_of_bind h
    obtain ⟨_, _, -, h⟩ := exists_of_bind h
    obtain ⟨_, _, -, h⟩ := exists_of_bind h
    exact length_of_unify h

/-- Every variable that was added to the global scope is bound there. -/
theorem binds_of_declareEach {entries : List (String × Ty)}
    (h : d.declareEach entries s = .ok () s') (hglobal : s.symbols.isGlobalScope = true) :
    ∀ entry ∈ entries, s'.symbols.BindsGlobally entry.1 := by
  induction entries generalizing s with
  | nil => exact fun _ he => by cases he
  | cons entry rest ih =>
    obtain ⟨_, _, hget, h⟩ := exists_of_bind h
    cases hget
    obtain ⟨-, h⟩ := require_bind_eq_ok_iff.mp h
    obtain ⟨_, t, hdefine, h⟩ := exists_of_bind h
    rw [define_eq_ok] at hdefine
    cases hdefine
    refine List.forall_mem_cons.mpr ⟨?_, ih h (by rwa [SymbolTable.isGlobalScope_define])⟩
    exact (d.steps_declareEach fun _ _ _ _ => trivial : AnySteps (d.declareEach rest)).bound h
      ((SymbolTable.bindsGlobally_define _ _ _).mpr (.inr ⟨hglobal, rfl⟩))

/-- **The variables of a global declaration are bound** once it is done. -/
theorem binds_of_check (h : d.check s = .ok () s') (hglobal : s.symbols.isGlobalScope = true) :
    ∀ name ∈ d.names, s'.symbols.BindsGlobally name := by
  obtain ⟨_, _, hget, h⟩ := exists_of_bind h
  cases hget
  obtain ⟨_, s₁, hform, h⟩ := exists_of_bind h
  obtain ⟨t, s₂, htype, h⟩ := exists_of_bind h
  obtain ⟨-, h⟩ := require_bind_eq_ok_iff.mp h
  obtain ⟨-, h⟩ := require_bind_eq_ok_iff.mp h
  obtain ⟨_, s₃, heach, h⟩ := exists_of_bind h
  have hglobal₂ : s₂.symbols.isGlobalScope = true := by
    rw [(d.steps_declaredType _ : AnySteps _).isGlobalScope htype,
      (d.steps_checkForm _ : AnySteps _).isGlobalScope hform, hglobal]
  have hlength := length_of_declaredType htype (initialized_of_checkForm hform)
  intro name hname
  rw [← List.map_fst_zip hlength] at hname
  obtain ⟨entry, hentry, rfl⟩ := List.mem_map.mp hname
  exact (Steps.setType _ _ : AnySteps _).bound h (binds_of_declareEach heach hglobal₂ entry hentry)

end VarDecl

/-- **A function is bound** once a declaration of it in the global scope is done. -/
theorem Signature.binds_of_check {sig : Signature} {defining : Bool} {s s' : State} {id : SymbolId}
    (h : sig.check defining s = .ok id s') (hglobal : s.symbols.isGlobalScope = true) :
    s'.symbols.BindsGlobally sig.name := by
  obtain ⟨-, h⟩ := require_bind_eq_ok_iff.mp h
  obtain ⟨-, h⟩ := require_bind_eq_ok_iff.mp h
  obtain ⟨ts, s₁, harguments, h⟩ := exists_of_bind h
  obtain ⟨_, _, hget, h⟩ := exists_of_bind h
  cases hget
  have hglobal₁ :=
    ((sig.steps_checkArguments _ : AnySteps _).isGlobalScope harguments).trans hglobal
  cases hresolve : s₁.symbols.resolveLocal? sig.name with
  | some entry =>
    rw [hresolve] at h
    obtain ⟨-, h⟩ := require_bind_eq_ok_iff.mp h
    obtain ⟨-, h⟩ := require_bind_eq_ok_iff.mp h
    obtain ⟨-, h⟩ := require_bind_eq_ok_iff.mp h
    cases h
    exact SymbolTable.bindsGlobally_of_resolveLocal? hglobal₁ hresolve
  | none =>
    rw [hresolve] at h
    obtain ⟨_, t, hdefine, h⟩ := exists_of_bind h
    rw [define_eq_ok] at hdefine
    cases hdefine
    cases h
    exact (SymbolTable.bindsGlobally_define _ _ _).mpr (.inr ⟨hglobal₁, rfl⟩)

namespace Decl

variable {d : Decl} {s s' : State}

/-- The check of a declaration is made of steps, which define the names that are declared. -/
theorem steps (d : Decl) : Steps (fun _ => True) (fun sym => sym.name ∈ d.names) d.check :=
  d.steps_check (fun _ => trivial) trivial fun _ h => h

/-- **A declaration that is done is bound** in the global scope. -/
theorem binds_of_check (h : d.check s = .ok () s') (hglobal : s.symbols.isGlobalScope = true) :
    ∀ name ∈ d.names, s'.symbols.BindsGlobally name := by
  cases d with
  | «variable» d => exact d.binds_of_check h hglobal
  | declare sig =>
    obtain ⟨_, _, hsig, h⟩ := exists_of_bind h
    cases h
    exact List.forall_mem_singleton.mpr (sig.binds_of_check hsig hglobal)
  | define f =>
    obtain ⟨rest, heq, hrest⟩ :=
      f.exists_check_eq (C := fun _ => True) (D := fun _ => True) (fun _ => trivial) trivial
    change f.check s = _ at h
    rw [heq] at h
    obtain ⟨id, t, hsig, h⟩ := exists_of_bind h
    exact List.forall_mem_singleton.mpr (Steps.bound (hrest id) h
      (f.signature.binds_of_check hsig hglobal))

end Decl

/-! ### The unit -/

namespace Typing

/-- Behind a declaration that is done the check goes on with the others. -/
theorem checkDecls_cons_ok {d : Decl} {s t : State} (h : d.check s = .ok () t) (ds : List Decl) :
    checkDecls (d :: ds) s = checkDecls ds t := by
  change EStateM.bind d.check (fun _ => checkDecls ds) s = _
  rw [EStateM.bind, h]

/-- A fault in a declaration ends the check. -/
theorem checkDecls_cons_error {d : Decl} {s t : State} {e : Error} (h : d.check s = .error e t)
    (ds : List Decl) :
    checkDecls (d :: ds) s = .error e t := by
  change EStateM.bind d.check (fun _ => checkDecls ds) s = _
  rw [EStateM.bind, h]

/-- **What the check of a unit leaves behind**, where the declarations `begun` were looked at and
`done` are those of them that were done. -/
structure LeavesBehind (begun done : List Decl) (s : State) : Prop where
  /-- Only the global scope is open. -/
  isGlobalScope : s.symbols.isGlobalScope = true
  /-- There is no current function. -/
  function : s.function = none
  /-- A name that is bound is declared. -/
  declared : ∀ name, (s.symbols.lookup? name).isSome = true → ∃ d ∈ begun, name ∈ d.names
  /-- A name whose declaration is done is bound. -/
  bound : ∀ d ∈ done, ∀ name ∈ d.names, (s.symbols.lookup? name).isSome = true

namespace LeavesBehind

variable {begun done : List Decl} {s : State}

/-- Nothing is left behind where nothing was looked at. -/
theorem start (types : TypeTable) : LeavesBehind [] [] (.start types) := by
  refine ⟨rfl, rfl, fun name h => ?_, fun _ hd => by cases hd⟩
  cases h

/-- One more declaration is looked at: whichever way that ends, it binds no names but its own. -/
theorem begin (h : LeavesBehind begun done s) (d : Decl) :
    LeavesBehind (begun ++ [d]) done (endState (d.check s)) := by
  have hkept := d.steps.kept s
  have hglobal := hkept.isGlobalScope.trans h.isGlobalScope
  refine ⟨hglobal, hkept.function.trans h.function, fun name hname => ?_, fun e he name hname => ?_⟩
  · rw [← SymbolTable.bindsGlobally_iff_lookup? hglobal] at hname
    rcases hkept.added name hname with hbound | ⟨-, sym, hsym, rfl⟩
    · obtain ⟨e, he, hname⟩ :=
        h.declared name ((SymbolTable.bindsGlobally_iff_lookup? h.isGlobalScope name).mp hbound)
      exact ⟨e, List.mem_append_left _ he, hname⟩
    · exact ⟨d, List.mem_append_right _ (List.mem_singleton_self d), hsym⟩
  · have hbound := h.bound e he name hname
    rw [← SymbolTable.bindsGlobally_iff_lookup? h.isGlobalScope] at hbound
    exact (SymbolTable.bindsGlobally_iff_lookup? hglobal name).mp (hkept.bound name hbound)

/-- One more declaration is done: it binds all of its names. -/
theorem finish (h : LeavesBehind begun done s) {d : Decl} {s' : State}
    (hd : d.check s = .ok () s') :
    LeavesBehind (begun ++ [d]) (done ++ [d]) s' := by
  have hbegin := h.begin d
  rw [hd] at hbegin
  refine { hbegin with bound := fun e he name hname => ?_ }
  rcases List.mem_append.mp he with he | he
  · exact hbegin.bound e he name hname
  · rw [List.mem_singleton] at he
    subst he
    exact (SymbolTable.bindsGlobally_iff_lookup? hbegin.isGlobalScope name).mp
      (Decl.binds_of_check hd h.isGlobalScope name hname)

/-- The check goes on with more declarations. -/
theorem checkDecls (h : LeavesBehind done done s) (ds : List Decl) :
    match Typing.checkDecls ds s with
    | .ok () s' => LeavesBehind (done ++ ds) (done ++ ds) s'
    | .error e s' => ∃ before d after s₀, ds = before ++ d :: after ∧
        Typing.checkDecls before s = .ok () s₀ ∧
        d.check s₀ = .error e s' ∧ LeavesBehind (done ++ before ++ [d]) (done ++ before) s' := by
  induction ds generalizing done s with
  | nil => exact (List.append_nil done).symm ▸ h
  | cons d ds ih =>
    have hbegin := h.begin d
    cases hd : d.check s with
    | ok _ t =>
      have hrest := ih (h.finish hd)
      rw [checkDecls_cons_ok hd]
      split at hrest
      · rwa [List.append_cons]
      · obtain ⟨before, d', after, s₀, rfl, hbefore, hd', hleaves⟩ := hrest
        exact ⟨d :: before, d', after, s₀, rfl,
          (checkDecls_cons_ok hd before).trans hbefore, hd', by
          rwa [List.append_cons done d before]⟩
    | error e t =>
      rw [hd] at hbegin
      rw [checkDecls_cons_error hd]
      exact ⟨[], d, ds, s, rfl, rfl, hd, by rwa [List.append_nil]⟩

end LeavesBehind

/-- **No name leaks out of a body.** The check of a unit ends with all declarations done, or with a
fault in one of them when those before it were done. -/
theorem nothing_leaks (ds : List Decl) (types : TypeTable) :
    match checkDecls ds (.start types) with
    | .ok () s => LeavesBehind ds ds s
    | .error e s => ∃ before d after s₀, ds = before ++ d :: after ∧
        checkDecls before (.start types) = .ok () s₀ ∧
        d.check s₀ = .error e s ∧ LeavesBehind (before ++ [d]) before s :=
  (LeavesBehind.start types).checkDecls ds

end Typing

end PostfixCompiler
