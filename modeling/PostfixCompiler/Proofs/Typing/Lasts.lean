import PostfixCompiler.Proofs.Typing.Uses

/-!
# What lasts behind a check

A check leaves three things behind that are still true when the whole unit has been checked.

* **Its answer.** With the table that the check of the unit ends with, the same check ends again,
  with the same answer and the same symbols, and it writes nothing into the table that is not there
  (`PostfixCompiler.Typing.Again`). Expressions are not looked at a second time, so a call that
  would have to agree with a type not yet decided is not noticed again.
* **The types of assignments and calls.** They still unify, and the type of a call is that of the
  function (`PostfixCompiler.Use.Settled`).
* **What functions answer with.** A call is checked when the type of the function is decided, or in
  the body of that function itself, and then the type that it saw is kept in a list to be compared
  with the final one (`PostfixCompiler.Typing.State.Answers`).

None of them speaks of the slots of other nodes, so they pass from one part of a phrase to the whole
in one way, which is `PostfixCompiler.Typing.Lasts.bind`.

## Main definitions

* `PostfixCompiler.Typing.Again`: a check ends again with the same answer.
* `PostfixCompiler.Typing.State.Orderly`: functions are known by their names.
* `PostfixCompiler.Typing.State.Answers`: a call of a name has a type.
* `PostfixCompiler.Typing.Lasts`: what a check leaves for good.

## Main statements

* `PostfixCompiler.Typing.Again.bind`, `PostfixCompiler.Typing.Lasts.bind`: two checks one after the
  other.
-/

namespace PostfixCompiler

/-! ### Slots that are written again -/

namespace TypeTable

theorem index_lt_of_get? {T : TypeTable} {id : NodeId} {t : Ty} (h : T.get? id = some t) :
    id.index < T.slots.size := by
  by_contra hle
  rw [get?, Array.getElem?_eq_none (Nat.le_of_not_lt hle)] at h
  cases h

/-- To write the type that a slot holds changes nothing. -/
theorem set_eq_self {T : TypeTable} {id : NodeId} {t : Ty} (h : T.get? id = some t) :
    T.set id t = T := by
  have hlt := index_lt_of_get? h
  have hget : T.slots[id.index] = some t := by
    rwa [get?, Array.getElem?_eq_getElem hlt, Option.join_some] at h
  have hzero : id.index + 1 - T.slots.size = 0 := by omega
  have hsame : T.slots.setIfInBounds id.index (some t) = T.slots := by
    rw [← hget, Array.setIfInBounds, dif_pos hlt, Array.set_getElem_self]
  rw [set, hzero, Array.replicate_zero, Array.append_empty, hsame]

/-- Of two types written into one slot the later one stays. -/
theorem set_set (T : TypeTable) (id : NodeId) (t u : Ty) : (T.set id t).set id u = T.set id u := by
  have hzero : id.index + 1 - (T.set id t).slots.size = 0 := by
    have hlt := index_lt_of_get? (T.get?_set_self id t)
    omega
  rw [set, hzero, Array.replicate_zero, Array.append_empty, set, set,
    Array.setIfInBounds_setIfInBounds]

end TypeTable

namespace Typing

variable {α β : Type} {s s' s'' : State} {T : TypeTable} {a : α} {b : β}

/-! ### The second check -/

/-- A check goes on where the one before it ended. -/
theorem bind_of_ok {m : CheckM α} {f : α → CheckM β} (h : m s = .ok a s') :
    (m >>= f) s = f a s' := by
  change EStateM.bind m f s = _
  rw [EStateM.bind, h]

/-- A check starts with a look at the state. -/
theorem get_bind {f : State → CheckM β} : (get >>= f) s = f s s := rfl

/-- **The state in a second check**, with the table of the first one: no call is noticed. -/
def State.on (s : State) (T : TypeTable) : State := { s with types := T, selfCalls := [] }

/-- To record the type that a slot holds changes nothing. -/
theorem setType_eq_self {id : NodeId} {t : Ty} (h : s.types.get? id = some t) :
    setType id t s = .ok () s := by
  change EStateM.Result.ok () (s.record id t) = _
  rw [State.record, TypeTable.set_eq_self h]

theorem modifySymbol_eq_ok (id : SymbolId) (f : Symbol → Symbol) (s : State) :
    modifySymbol id f s = .ok () (s.modifySymbol id f) := rfl

theorem typeOf_eq_ok {id : NodeId} {t : Ty} (h : s.types.get? id = some t) :
    typeOf id s = .ok t s := by
  rw [typeOf, get_bind, TypeTable.expect_eq h]
  rfl

theorem inScope_eq_ok {m : CheckM α} (h : m s.enter = .ok a s') : inScope m s = .ok a s'.exit := by
  unfold inScope
  unfold State.enter at h
  rw [h]
  rfl

theorem inFunction_eq_ok {id : SymbolId} {m : CheckM Unit} (h : m (s.within id) = .ok () s') :
    inFunction id m s = .ok s'.selfCalls (s'.beyond s.function) := by
  unfold inFunction
  unfold State.within at h
  rw [h]
  rfl

/-- A node whose type is final is not checked again. -/
theorem once_eq_ok {id : NodeId} {t : Ty} {check : CheckM Ty} (h : s.types.get? id = some t)
    (ht : t ≠ .auto) : once id check s = .ok t s := by
  have hfinal : s.types.isTyped id = true := by
    rw [TypeTable.isTyped, h]
    exact decide_eq_true ht
  change (if s.types.isTyped id = true then typeOf id else _) s = _
  rw [if_pos hfinal]
  exact typeOf_eq_ok h

/-- **The check ends again with the same answer**, in a table that agrees on the given nodes with
the one that it left, and it leaves the table as it is. -/
def Again (ids : List NodeId) (m : CheckM α) (s : State) (a : α) (s' : State) : Prop :=
  ∀ T, s'.types.Agrees T ids → m (s.on T) = .ok a (s'.on T)

namespace Again

variable {m : CheckM α} {ids js : List NodeId}

theorem mono (h : Again ids m s a s') (hs : ids ⊆ js) : Again js m s a s' :=
  fun T hT => h T (hT.mono hs)

/-- **Two checks end again one after the other**, as the second one fills no slot of the first. -/
theorem bind {f : α → CheckM β} (h : Again ids m s a s') (h' : Again js (f a) s' b s'')
    (hag : s'.types.Agrees s''.types ids) : Again (ids ++ js) (m >>= f) s b s'' := by
  intro T hT
  have hm := h T fun i hi t ht => hT i (List.mem_append_left _ hi) t (hag i hi t ht)
  rw [bind_of_ok hm]
  exact h' T fun i hi => hT i (List.mem_append_right _ hi)

/-- A check that only looks at symbols does not see that the table is another one. -/
theorem get {f : State → CheckM β} (h : Again ids (f s) s b s') (hf : ∀ T, f (s.on T) = f s) :
    Again ids (get >>= f) s b s' := by
  intro T hT
  change f (s.on T) (s.on T) = _
  rw [hf T]
  exact h T hT

theorem setType {id : NodeId} {t : Ty} :
    Again [id] (setType id t) s () (s.record id t) := fun T hT =>
  setType_eq_self (s := s.on T) (hT id (List.mem_singleton_self id) t (s.get?_record_self id t))

theorem typeOf {id : NodeId} {t : Ty} (h : s.types.get? id = some t) :
    Again [id] (typeOf id) s t s :=
  fun T hT => typeOf_eq_ok (s := s.on T) (hT id (List.mem_singleton_self id) t h)

theorem inScope (h : Again ids m s.enter a s') : Again ids (inScope m) s a s'.exit := fun T hT =>
  inScope_eq_ok (s := s.on T) (h T hT)

/-- No call of the function is noticed in its body. -/
theorem inFunction {id : SymbolId} {m : CheckM Unit} (h : Again ids m (s.within id) () s') :
    Again ids (inFunction id m) s [] (s'.beyond s.function) := by
  intro T hT
  exact inFunction_eq_ok (s := s.on T) (h T hT)

theorem define (sym : Symbol) : Again [] (define sym) s ⟨s.symbols.symbols.size⟩
    { s with symbols := (s.symbols.define sym).2 } := by
  intro T _
  have h : (s.symbols.define sym).1 = ⟨s.symbols.symbols.size⟩ := by
    rcases s with ⟨_, ⟨_, _ | _, _⟩, _, _⟩ <;> rfl
  rw [← h]
  rfl

theorem modifySymbol (id : SymbolId) (f : Symbol → Symbol) :
    Again [] (modifySymbol id f) s () (s.modifySymbol id f) :=
  fun T _ => modifySymbol_eq_ok id f (s.on T)

end Again

/-- A check that always ends with one answer and changes nothing can be left out. -/
theorem skip_bind {m : CheckM α} {f : α → CheckM β} (h : ∀ s, m s = .ok a s) : (m >>= f) = f a :=
  funext fun s => bind_of_ok (h s)

/-- A requirement that is met changes nothing. -/
theorem require_eq_ok {line : UInt32} {c : Bool} {f : TypeFault} (h : c = true) (s : State) :
    require line c f s = .ok () s := by
  subst h
  rfl

theorem require_bind {line : UInt32} {c : Bool} {f : TypeFault} {m : CheckM β} (h : c = true) :
    (require line c f >>= fun _ => m) = m :=
  skip_bind (require_eq_ok h)

/-! ### Functions and their names -/

/-- **Functions are known by their names**, and only the body of a function decides its type. -/
structure State.Orderly (s : State) : Prop where
  /-- A function is what its name stands for in the unit. -/
  bound : ∀ f sym, s.symbols.get? f = some sym → sym.isFunction = true →
    s.symbols.global.find? sym.name = some f
  /-- The type of a function that has no body yet is open if none was written. -/
  waiting : ∀ f sym, s.symbols.get? f = some sym → sym.isFunction = true → sym.isAuto = true →
    sym.defined = false → sym.type = .auto
  /-- The current function has a body. -/
  current : ∀ f, s.function = some f → ∃ sym, s.symbols.get? f = some sym ∧ sym.defined = true

/-- **A call of a name has a type**: there is a function of that name, with these parameters, and it
is of that type; or the function is the current one and its type is open, and then the type is in
the list. -/
def State.Answers (s : State) (name : String) (ps : List Ty) (t : Ty) : Prop :=
  ∃ f sym, s.symbols.get? f = some sym ∧ sym.name = name ∧ sym.parameters? = some ps ∧ t ≠ .auto ∧
    (s.function = some f ∧ sym.isAuto = true ∧ (∃ c ∈ s.selfCalls, c.seen = t) ∨
      ¬(s.function = some f ∧ sym.isAuto = true) ∧ sym.type = t)

section Functions

variable {ids : List NodeId} {name : String} {ps : List Ty} {t : Ty}

theorem State.Orderly.fills (h : s.Orderly) (hf : Fills ids s s') : s'.Orderly := by
  constructor
  · rw [hf.symbols]
    exact h.bound
  · rw [hf.symbols]
    exact h.waiting
  · rw [hf.symbols, hf.function]
    exact h.current

theorem State.Answers.fills (h : s.Answers name ps t) (hf : Fills ids s s')
    (hcalls : s.selfCalls ⊆ s'.selfCalls) : s'.Answers name ps t := by
  obtain ⟨f, sym, hsym, hname, hps, ht, hopen⟩ := h
  refine ⟨f, sym, hf.symbols ▸ hsym, hname, hps, ht, ?_⟩
  rw [hf.function]
  refine hopen.imp_left ?_
  rintro ⟨hcur, hauto, c, hc, hseen⟩
  exact ⟨hcur, hauto, c, hcalls hc, hseen⟩

/-- A symbol is defined under a name that is free in the innermost scope. Functions are symbols of
the unit. -/
theorem State.Orderly.define (h : s.Orderly) {sym : Symbol}
    (hfree : (s.symbols.lookupLocal? sym.name).isNone = true)
    (hfun : sym.isFunction = true → s.symbols.locals = [] ∧
      (sym.isAuto = true → sym.defined = false → sym.type = .auto)) :
    State.Orderly { s with symbols := (s.symbols.define sym).2 } := by
  -- A symbol is an old one, or the new one, which comes last.
  have hcases : ∀ f sym', (s.symbols.define sym).2.get? f = some sym' →
      s.symbols.get? f = some sym' ∨ f = ⟨s.symbols.symbols.size⟩ ∧ sym' = sym := by
    intro f sym' hget
    by_cases hlt : f.index < s.symbols.symbols.size
    · exact .inl ((SymbolTable.get?_define_lt _ _ hlt).symm.trans hget)
    · have hlt' := SymbolTable.index_lt hget
      rw [SymbolTable.symbols_define, Array.size_push] at hlt'
      obtain rfl : f = ⟨s.symbols.symbols.size⟩ := congrArg SymbolId.mk (by omega)
      rw [SymbolTable.get?_define_self] at hget
      exact .inr ⟨rfl, (Option.some.inj hget).symm⟩
  have hglobal : ∀ n, n ≠ sym.name →
      (s.symbols.define sym).2.global.find? n = s.symbols.global.find? n := by
    intro n hn
    rcases s with ⟨_, ⟨_, _ | _, _⟩, _, _⟩
    · simp [SymbolTable.define, Scope.find?_bind, hn]
    · rfl
  refine ⟨fun f sym' hget hf => ?_, fun f sym' hget hf => ?_, fun f hcur => ?_⟩
  · rcases hcases f sym' hget with hold | ⟨rfl, rfl⟩
    · have hb := h.bound f sym' hold hf
      by_cases hn : sym'.name = sym.name
      · -- The name is taken in the unit, so the new symbol goes to a scope inside.
        rcases s with ⟨_, ⟨_, _ | _, _⟩, _, _⟩
        · simp only [SymbolTable.lookupLocal?, List.headD_nil, ← hn] at hfree
          rw [hb] at hfree
          cases hfree
        · exact hb
      · exact (hglobal _ hn).trans hb
    · obtain ⟨hl, -⟩ := hfun hf
      rcases s with ⟨_, ⟨_, _ | _, _⟩, _, _⟩
      · simp [SymbolTable.define, Scope.find?_bind]
      · cases hl
  · rcases hcases f sym' hget with hold | ⟨rfl, rfl⟩
    · exact h.waiting f sym' hold hf
    · exact (hfun hf).2
  · obtain ⟨sym', hsym', hdef⟩ := h.current f hcur
    exact ⟨sym', (SymbolTable.get?_define_lt _ _ (SymbolTable.index_lt hsym')).trans hsym', hdef⟩

theorem State.Answers.define (h : s.Answers name ps t) (sym : Symbol) :
    State.Answers { s with symbols := (s.symbols.define sym).2 } name ps t := by
  obtain ⟨f, sym', hsym, hrest⟩ := h
  exact ⟨f, sym', (SymbolTable.get?_define_lt _ _ (SymbolTable.index_lt hsym)).trans hsym, hrest⟩

/-- A function is changed: its type, while its body is checked, or that it has a body. -/
theorem State.Orderly.modify (h : s.Orderly) {id : SymbolId} {sym : Symbol} {f : Symbol → Symbol}
    (hsym : s.symbols.get? id = some sym) (hname : (f sym).name = sym.name)
    (hps : (f sym).parameters? = sym.parameters?) (hdef : (f sym).defined = true) :
    (s.modifySymbol id f).Orderly := by
  have hcases : ∀ i sym', (s.symbols.modify id f).get? i = some sym' →
      i = id ∧ sym' = f sym ∨ s.symbols.get? i = some sym' := by
    intro i sym' hget
    rw [SymbolTable.get?_modify] at hget
    split at hget
    · rename_i heq
      rw [heq, hsym] at hget
      exact .inl ⟨heq, (Option.some.inj hget).symm⟩
    · exact .inr hget
  refine ⟨fun i sym' hget hf => ?_, fun i sym' hget hf hauto hopen => ?_, fun i hcur => ?_⟩
  · rcases hcases i sym' hget with ⟨rfl, rfl⟩ | hold
    · rw [hname]
      rw [Symbol.isFunction, hps] at hf
      exact h.bound i sym hsym hf
    · exact h.bound i sym' hold hf
  · rcases hcases i sym' hget with ⟨rfl, rfl⟩ | hold
    · rw [hdef] at hopen
      cases hopen
    · exact h.waiting i sym' hold hf hauto hopen
  · obtain ⟨sym', hsym', hdef'⟩ := h.current i hcur
    by_cases heq : i = id
    · exact ⟨f sym, by simp [State.modifySymbol, SymbolTable.get?_modify, heq, hsym], hdef⟩
    · exact ⟨sym', by simpa [State.modifySymbol, SymbolTable.get?_modify, heq] using hsym', hdef'⟩

theorem State.Answers.modify (h : s.Answers name ps t) {id : SymbolId} {sym : Symbol}
    {f : Symbol → Symbol} (hsym : s.symbols.get? id = some sym) (hname : (f sym).name = sym.name)
    (hps : (f sym).parameters? = sym.parameters?) (hauto : (f sym).isAuto = sym.isAuto)
    (htype : (f sym).type = sym.type ∨ s.function = some id ∧ sym.isAuto = true) :
    (s.modifySymbol id f).Answers name ps t := by
  obtain ⟨i, sym', hsym', hname', hps', ht, hopen⟩ := h
  by_cases heq : i = id
  · subst heq
    obtain rfl := Option.some.inj (hsym.symm.trans hsym')
    refine ⟨i, f sym,
      by simp [State.modifySymbol, SymbolTable.get?_modify, hsym], hname.trans hname',
      hps.trans hps', ht, ?_⟩
    rw [hauto]
    refine hopen.imp_right ?_
    rintro ⟨hcur, hseen⟩
    exact ⟨hcur, (htype.resolve_right hcur).trans hseen⟩
  · exact ⟨i, sym', by simpa [State.modifySymbol, SymbolTable.get?_modify, heq] using hsym', hname',
      hps', ht, hopen⟩

/-- The body of a function is checked once it is said that there is one. -/
theorem State.Orderly.within (h : s.Orderly) {id : SymbolId} {sym : Symbol}
    (hsym : s.symbols.get? id = some sym) (hdef : sym.defined = true) : (s.within id).Orderly := by
  refine ⟨h.bound, h.waiting, fun i hi => ?_⟩
  cases hi
  exact ⟨sym, hsym, hdef⟩

/-- A call was only possible before the body of the function if the type of the function was
written. -/
theorem State.Answers.within (h : s.Answers name ps t) (hnone : s.function = none) {id : SymbolId}
    {sym : Symbol} (hsym : s.symbols.get? id = some sym)
    (hopen : sym.isAuto = true → sym.type = .auto) :
    (s.within id).Answers name ps t := by
  obtain ⟨i, sym', hsym', hname, hps, ht, hseen⟩ := h
  obtain ⟨-, rfl⟩ := hseen.resolve_left fun h => by simp [hnone] at h
  refine ⟨i, sym', hsym', hname, hps, ht, .inr ⟨?_, rfl⟩⟩
  rintro ⟨hcur, hauto⟩
  cases hcur
  obtain rfl := Option.some.inj (hsym.symm.trans hsym')
  exact ht (hopen hauto)

theorem State.Orderly.beyond (h : s.Orderly) : (s.beyond none).Orderly :=
  ⟨h.bound, h.waiting, fun _ hi => by cases hi⟩

/-- **Behind the body of a function all calls have its final type**, if those in the list have. -/
theorem State.Answers.beyond (h : s.Answers name ps t) {id : SymbolId} {sym : Symbol}
    (hcur : s.function = some id) (hsym : s.symbols.get? id = some sym)
    (hcalls : ∀ c ∈ s.selfCalls, c.seen = sym.type) : (s.beyond none).Answers name ps t := by
  obtain ⟨i, sym', hsym', hname, hps, ht, hseen⟩ := h
  refine ⟨i, sym', hsym', hname, hps, ht, .inr ⟨fun hi => (by cases hi.1), ?_⟩⟩
  rcases hseen with ⟨hi, -, c, hc, rfl⟩ | ⟨-, hseen⟩
  · obtain rfl := Option.some.inj (hi.symm.trans hcur)
    obtain rfl := Option.some.inj (hsym.symm.trans hsym')
    exact (hcalls c hc).symm
  · exact hseen

theorem State.Orderly.enter (h : s.Orderly) : s.enter.Orderly := ⟨h.bound, h.waiting, h.current⟩

theorem State.Orderly.exit (h : s.Orderly) : s.exit.Orderly := ⟨h.bound, h.waiting, h.current⟩

end Functions

/-! ### What lasts -/

end Typing

/-- **What is settled about a use**: about all assignments and calls in it; and the type of the
expression is known, except that of fresh memory for variables that are written with a tuple of one
component. -/
structure Use.Settled (A : String → List Ty → Ty → Prop) (T : TypeTable) (u : Use) : Prop where
  /-- Assignments and calls are settled. -/
  parts : ∀ x : Expr, x.Part u.expr → x.Settles A T
  /-- The type of the expression is known. -/
  decided : u.expr.Decided T ∨ u.expr.isFresh = true ∧ ∃ t, u.written = some (.tuple [t])

theorem Use.Settled.imp {A B : String → List Ty → Ty → Prop} {T : TypeTable} {u : Use}
    (hA : ∀ {name ps t}, A name ps t → B name ps t) (h : u.Settled A T) : u.Settled B T :=
  ⟨fun x hx => (h.parts x hx).imp hA, h.decided⟩

namespace Typing

/-- **What a check leaves for good**, if the table never changes in the given slots, about the given
uses. -/
structure Lasts {α : Type} (m : CheckM α) (ids : List NodeId) (uses : TypeTable → Names → List Use)
    (s : State) (a : α) (s' : State) : Prop where
  /-- Functions are known by their names. -/
  orderly : s'.Orderly
  /-- What a call of a name saw is what it would see now. -/
  answers : ∀ {name ps t}, s.Answers name ps t → s'.Answers name ps t
  /-- The check ends again with the same answer. -/
  again : Again ids m s a s'
  /-- The uses are settled. -/
  settled : ∀ T, s'.types.Agrees T ids → ∀ Γ, ∀ u ∈ uses T Γ, u.Settled s'.Answers T

namespace Lasts

variable {α β : Type} {s s' s'' : State} {a : α} {b : β} {m : CheckM α} {ids js : List NodeId}
  {us vs : TypeTable → Names → List Use}

theorem mono (h : Lasts m ids us s a s') (hs : ids ⊆ js) (hu : ∀ T Γ, vs T Γ = us T Γ) :
    Lasts m js vs s a s' where
  orderly := h.orderly
  answers := h.answers
  again := h.again.mono hs
  settled T hT Γ := hu T Γ ▸ h.settled T (hT.mono hs) Γ

theorem of_eq {m' : CheckM α} (h : Lasts m ids us s a s') (hm : m' = m) : Lasts m' ids us s a s' :=
  hm ▸ h

/-- A check that uses no expression. -/
theorem of_again (horderly : s'.Orderly)
    (hanswers : ∀ {name ps t}, s.Answers name ps t → s'.Answers name ps t)
    (h : Again ids m s a s') :
    Lasts m ids (fun _ _ => []) s a s' :=
  ⟨horderly, hanswers, h, by simp⟩

/-- A check that changes nothing. -/
theorem skip (ho : s.Orderly) (h : ∀ st, m st = .ok a st) : Lasts m [] (fun _ _ => []) s a s :=
  of_again ho id fun T _ => h (s.on T)

theorem setType (ho : s.Orderly) {id : NodeId} {t : Ty} :
    Lasts (setType id t) [id] (fun _ _ => []) s () (s.record id t) :=
  of_again (ho.fills (.record s id t))
    (fun ha => ha.fills (.record s id t) (List.Subset.refl _)) .setType

/-- **Two checks one after the other**, the second one in the scope `g` of names. -/
theorem bind (g : TypeTable → Names → Names) {f : α → CheckM β} (h : Lasts m ids us s a s')
    (h' : Lasts (f a) js vs s' b s'') (hag : s'.types.Agrees s''.types ids) :
    Lasts (m >>= f) (ids ++ js) (fun T Γ => us T Γ ++ vs T (g T Γ)) s b s'' where
  orderly := h'.orderly
  answers ha := h'.answers (h.answers ha)
  again := h.again.bind h'.again hag
  settled T hT Γ u hu := by
    rcases List.mem_append.mp hu with hu | hu
    · refine (h.settled T (fun i hi t ht => ?_) Γ u hu).imp h'.answers
      exact hT i (List.mem_append_left _ hi) t (hag i hi t ht)
    · exact h'.settled T (fun i hi => hT i (List.mem_append_right _ hi)) _ u hu

/-- Two checks one after the other in the same scope. -/
theorem seq {f : α → CheckM β} (h : Lasts m ids us s a s') (h' : Lasts (f a) js vs s' b s'')
    (hag : s'.types.Agrees s''.types ids) :
    Lasts (m >>= f) (ids ++ js) (fun T Γ => us T Γ ++ vs T Γ) s b s'' :=
  h.bind (fun _ Γ => Γ) h' hag

/-- Behind a check comes one that changes nothing. -/
theorem bind_skip {f : α → CheckM β} (h : Lasts m ids us s a s') (hf : ∀ st, f a st = .ok b st) :
    Lasts (m >>= f) ids us s b s' :=
  (h.seq (.skip h.orderly hf) fun _ _ _ h => h).mono (by simp) (by simp)

/-- A check that only looks at symbols does not see that the table is another one. -/
theorem get {f : State → CheckM β} (h : Lasts (f s) ids us s b s') (hf : ∀ T, f (s.on T) = f s) :
    Lasts (get >>= f) ids us s b s' :=
  ⟨h.orderly, h.answers, h.again.get hf, h.settled⟩

/-- A name is declared, and then comes a check that uses no expression. -/
theorem declare {sym : Symbol} {line : UInt32} {f : TypeFault} {rest : CheckM Unit}
    (hfree : (s.symbols.lookupLocal? sym.name).isNone = true)
    (h : Lasts rest js (fun _ _ => []) { s with symbols := (s.symbols.define sym).2 } () s') :
    Lasts (do
      require line ((← MonadState.get).symbols.lookupLocal? sym.name).isNone f
      let _ ← Typing.define sym
      rest) js (fun _ _ => []) s () s' := by
  refine .of_again h.orderly (fun ha => h.answers (ha.define sym)) ?_
  refine Again.get ?_ fun _ => rfl
  rw [require_bind hfree]
  exact (Again.define sym).bind h.again (by simp [TypeTable.Agrees])

theorem inScope (h : Lasts m ids us s.enter a s') : Lasts (inScope m) ids us s a s'.exit :=
  ⟨h.orderly.exit, h.answers, h.again.inScope, h.settled⟩

end Lasts

end Typing

end PostfixCompiler
