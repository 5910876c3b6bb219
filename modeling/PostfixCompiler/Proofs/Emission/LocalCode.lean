import PostfixCompiler.Proofs.Emission.ExprCode
import PostfixCompiler.Proofs.Emission.StmtOutline
import PostfixCompiler.Proofs.Typing.CheckDeclaration

/-!
# The code of declarations is that of their outline

Declarations of local variables, and the expressions that stand among them, are written without a
fault, and what is written is the code of their outline. The state of the writer is described by the
place that it has reached: what is written moves it to the place behind, where the variables of a
declaration are bound.

## Main definitions

* `PostfixCompiler.Emission.State.At`: the writer has reached a place.
* `PostfixCompiler.Emission.Lays`: what the writer leaves behind when it has moved on.

## Main statements

* `PostfixCompiler.Expr.puts_pushValue`: the code of a value is that of its outline.
* `PostfixCompiler.VarDecl.puts_code`: the code of a declaration is that of its outline.
* `PostfixCompiler.LoopInit.puts_initLoop`: so is what a loop does before its first round.
-/

namespace PostfixCompiler

open Emission

/-! ### Names and symbols -/

/-- What the uses of names need to know, by way of the symbols. -/
def View.meanings (v : View Symbol) : Names := fun x => (v x).map Symbol.meaning

theorem SymbolTable.names_eq (t : SymbolTable) : t.names = t.scope.meanings := by
  funext x
  rw [names, scope, View.meanings, view, view, Option.map_map]
  rfl

theorem View.meanings_place (v : View Symbol) (line : UInt32) (ps : List (String × Ty × Int)) :
    (v.place line ps).meanings = View.bindAll v.meanings (ps.map fun p => (p.1, p.2.1)) := by
  induction ps generalizing v with
  | nil => rfl
  | cons p ps ih =>
    rw [place, ih, List.map_cons, View.bindAll]
    congr 1
    funext x
    by_cases h : x = p.1
    · rw [meanings, View.bind, if_pos h, View.bind, if_pos h]
      rfl
    · rw [meanings, View.bind_ne _ _ h, View.bind_ne _ _ h]
      rfl

namespace VarDecl

theorem map_go (names : List String) (ts : List Ty) (offset : Int) :
    (places.go names ts offset).map (fun p => (p.1, p.2.1)) = names.zip ts := by
  induction names generalizing ts offset with
  | nil => simp [places.go]
  | cons name names ih =>
    cases ts with
    | nil => simp [places.go]
    | cons t ts => rw [places.go, List.map_cons, ih, List.zip_cons_cons]

/-- The variables of a declaration are those that are given places. -/
theorem map_places {d : VarDecl} {t : Ty} (h : d.Divides t) (offset : Int) :
    (d.places t offset).map (fun p => (p.1, p.2.1)) = d.names.zip (d.typesOfNames t) := by
  unfold places typesOfNames
  split
  · rename_i name hn
    rw [hn]
    rfl
  · rename_i names ts hn
    have hlen : d.names.length ≠ 1 := by
      intro hlen
      obtain ⟨name, hname⟩ := List.length_eq_one_iff.mp hlen
      exact hn name hname
    rw [map_go, if_neg hlen, Ty.components]
  · rename_i names t ht hn
    rcases h with h | ⟨ts, rfl, -⟩
    · obtain ⟨name, hname⟩ := List.length_eq_one_iff.mp h
      exact absurd hname (hn name)
    · exact absurd rfl (ht ts)

/-- Behind a declaration its variables are bound. -/
theorem meanings_after {P : Ty → Prop} {T : TypeTable} {Γ : Names} {d : VarDecl} (h : d.Typed P T Γ)
    (pt : Point) :
    (d.after T pt).scope.meanings = View.bindAll pt.scope.meanings (d.binding T) := by
  obtain ⟨t, ⟨ht, -⟩, -, hd, -⟩ := h
  rw [after, TypeTable.typeOf_eq ht, View.meanings_place, map_places hd, binding_eq ht]

end VarDecl

/-! ### The state of the writer -/

namespace Emission

/-- Work that binds names in the innermost scope, so that they stand for the given symbols. -/
def Opens (scope : View Symbol) (t u : SymbolTable) : Prop :=
  SymbolTable.Inner Eq t u ∧ u.scope = scope

/-- Work that leaves all scopes as they were, and all symbols too. -/
abbrev Closes (t u : SymbolTable) : Prop := SymbolTable.Outer Eq t u

/-- **The writer has reached a place**, inside a scope of its own. -/
structure State.At (pt : Point) (s : State) : Prop where
  /-- Every binding leads to a symbol of that name. -/
  closed : s.symbols.Closed
  /-- There is a scope inside the global one. -/
  nested : s.symbols.locals ≠ []
  /-- What names are bound to. -/
  scope : s.symbols.scope = pt.scope
  /-- Where the local variables end. -/
  cursor : s.cursor = pt.cursor
  /-- How many labels were made up. -/
  labels : s.labels = pt.labels

theorem State.At.names {pt : Point} {s : State} (h : s.At pt) :
    s.symbols.names = pt.scope.meanings := by
  rw [SymbolTable.names_eq, h.scope]

/-- **What the writer leaves behind when it has moved on to a place**: code, and what the code draws
on, with the symbols changed as `R` says. -/
structure Lays (R : SymbolTable → SymbolTable → Prop) (pt : Point) (is : List Instr)
    (used : Supplies) (s s' : State) : Prop where
  /-- The place. -/
  here : s'.At pt
  /-- The symbols changed in a certain way. -/
  symbols : R s.symbols s'.symbols
  /-- The instructions stand behind the code that there was. -/
  code : s'.code.toList = s.code.toList ++ is
  /-- The slots were used. -/
  slots : ∀ id, id ∈ s'.slots ↔ id ∈ s.slots ∨ id ∈ used.slots
  /-- The functions of the runtime were called. -/
  helpers : ∀ name, name ∈ s'.helpers ↔ name ∈ s.helpers ∨ name ∈ used.helpers

theorem closes_refl (t : SymbolTable) : Closes t t := .refl (fun _ => rfl) t

theorem Closes.trans {t u v : SymbolTable} (h : Closes t u) (h' : Closes u v) : Closes t v :=
  SymbolTable.Outer.trans (fun _ _ _ h h' => h.trans h') h h'

theorem Closes.closed {t u : SymbolTable} (h : Closes t u) (ht : t.Closed) : u.Closed :=
  SymbolTable.Outer.closed (fun heq => congrArg Symbol.name heq.symm) h ht

theorem Opens.trans {v w : View Symbol} {t u x : SymbolTable} (h : Opens v t u) (h' : Opens w u x) :
    Opens w t x :=
  ⟨SymbolTable.Inner.trans (fun _ _ _ h h' => h.trans h') h.1 h'.1, h'.2⟩

namespace Lays

variable {R R' R'' : SymbolTable → SymbolTable → Prop} {pt pt' : Point} {is js : List Instr}
  {used more : Supplies} {s s' s'' : State}

theorem refl (h : s.At pt) : Lays Closes pt [] .none s s :=
  ⟨h, closes_refl _, (List.append_nil _).symm, by simp, by simp⟩

theorem trans (h : Lays R pt is used s s') (h' : Lays R' pt' js more s' s'')
    (hR : R s.symbols s'.symbols → R' s'.symbols s''.symbols → R'' s.symbols s''.symbols) :
    Lays R'' pt' (is ++ js) (used ++ more) s s'' where
  here := h'.here
  symbols := hR h.symbols h'.symbols
  code := by rw [h'.code, h.code, List.append_assoc]
  slots id := by rw [h'.slots, h.slots, Supplies.slots_append, List.mem_append, or_assoc]
  helpers name := by rw [h'.helpers, h.helpers, Supplies.helpers_append, List.mem_append, or_assoc]

/-- More code behind what was written. -/
theorem write (h : Lays R pt is used s s') (js : List Instr) :
    Lays R pt (is ++ js) used s (s'.write js) where
  here := ⟨h.here.closed, h.here.nested, h.here.scope, h.here.cursor, h.here.labels⟩
  symbols := h.symbols
  code := by rw [State.write, h.code, List.append_assoc]
  slots := h.slots
  helpers := h.helpers

/-- A runtime function is called. -/
theorem need (h : Lays R pt is used s s') (name : String) :
    Lays R pt is (used ++ .ofHelper name) s (s'.need name) where
  here := ⟨h.here.closed, h.here.nested, h.here.scope, h.here.cursor, h.here.labels⟩
  symbols := h.symbols
  code := h.code
  slots i := by
    rw [Supplies.slots_append, Supplies.slots_ofHelper, List.append_nil]
    exact h.slots i
  helpers other := by
    rw [State.mem_need, h.helpers, Supplies.helpers_append, Supplies.helpers_ofHelper,
      List.mem_append, List.mem_singleton, or_assoc]

/-- A slot is used. -/
theorem use (h : Lays R pt is used s s') (id : NodeId) :
    Lays R pt is (used ++ .ofSlots [id]) s (s'.use id) where
  here := ⟨h.here.closed, h.here.nested, h.here.scope, h.here.cursor, h.here.labels⟩
  symbols := h.symbols
  code := h.code
  slots i := by
    rw [State.mem_use, h.slots, Supplies.slots_append, Supplies.slots_ofSlots, List.mem_append,
      List.mem_singleton, or_assoc]
  helpers name := by
    rw [Supplies.helpers_append, Supplies.helpers_ofSlots, List.append_nil]
    exact h.helpers name

theorem congr (h : Lays R pt is used s s') (hp : pt = pt') (hi : is = js)
    (hu : used.Same more) : Lays R pt' js more s s' := by
  subst hp hi
  exact ⟨h.here, h.symbols, h.code, fun id =>
    by rw [h.slots, hu.1], fun name => by rw [h.helpers, hu.2]⟩

/-- Whatever leaves the scopes as they were binds nothing new. -/
theorem opens (h : Lays Closes pt is used s s') (hs : s.At pt') :
    Lays (Opens pt.scope) pt is used s s' :=
  ⟨h.here, ⟨h.symbols.inner hs.nested, h.here.scope⟩, h.code, h.slots, h.helpers⟩

end Lays

/-- An expression moves the writer on. -/
theorem Pushed.lays {pt : Point} {is : List Instr} {k : Nat} {used : Supplies} {s s' : State}
    (hs : s.At pt) (h : Pushed is k used s s') : Lays Closes (pt.move 0 k) is used s s' where
  here := by
    refine ⟨h.symbols ▸ hs.closed, h.symbols ▸ hs.nested, h.symbols ▸ hs.scope, ?_, ?_⟩
    · rw [h.cursor, hs.cursor]
      rfl
    · rw [h.labels, hs.labels]
      rfl
  symbols := h.symbols ▸ closes_refl _
  code := h.code
  slots := h.slots
  helpers := h.helpers

/-- The state in which the local variables end somewhere else. -/
def State.reach (s : State) (cursor : Int) : State := { s with cursor }

theorem State.At.reach {pt : Point} {s : State} (h : s.At pt) (cursor : Int) :
    Lays Closes ⟨pt.scope, cursor, pt.labels⟩ [] .none s (s.reach cursor) where
  here := ⟨h.closed, h.nested, h.scope, rfl, h.labels⟩
  symbols := closes_refl _
  code := (List.append_nil _).symm
  slots := by simp [State.reach]
  helpers := by simp [State.reach]

/-- A label that is made up moves the writer on. -/
theorem State.At.makeLabel {pt : Point} {s : State} (h : s.At pt) :
    Lays Closes (pt.move 0 1) [] .none s s.makeLabel :=
  Pushed.lays h (Pushed.refl s).makeLabel

end Emission

/-! ### Expressions and declarations in their place -/

section Parts

variable {P : Ty → Prop} {cx : Context} {pt : Point} {s : State} {Q : Unit → State → Prop}

/-- **A value is pushed**, and the writer moves on. -/
theorem Expr.puts_pushValue (hP : Ty.Stable P) (hs : s.At pt)
    (hΓ : View.Settled P pt.scope.meanings) {e : Expr} (h : e.Typed P cx.types pt.scope.meanings)
    (he : e.IsValue) (hf : cx.frame.Provides (e.usage cx.types .value).nodes)
    (hQ : ∀ s', Lays Closes (pt.move 0 e.labelCount) (e.outline cx pt.scope .value pt.labels).code
      (e.supplies cx.types .value) s s' → Q () s') : Puts (e.pushValue cx) s Q := by
  rw [← hs.names] at hΓ h
  unfold Expr.pushValue
  rw [puts_bind]
  refine (Expr.writes hP hΓ h he.2 hf).value he rfl fun s' h' => hQ s' ?_
  rw [hs.labels, hs.scope] at h'
  exact h'.lays hs

/-- An expression is evaluated for its effects. -/
theorem Expr.puts_dropValue (hP : Ty.Stable P) (hs : s.At pt)
    (hΓ : View.Settled P pt.scope.meanings) {e : Expr} {t : Ty}
    (h : e.TypedAs P cx.types pt.scope.meanings t) (he : e.IsValue)
    (hf : cx.frame.Provides (e.usage cx.types .value).nodes)
    (hQ : ∀ s', Lays Closes (pt.move 0 e.labelCount) (e.effectOutline cx pt).code
      (e.supplies cx.types .value) s s' → Q () s') : Puts (e.dropValue cx) s Q := by
  unfold Expr.dropValue
  rw [puts_bind]
  refine e.puts_pushValue hP hs hΓ h.1 he hf fun s₁ h₁ => ?_
  rw [puts_bind, puts_typeOf h.2.1, puts_trash]
  refine hQ _ ((h₁.write _).congr rfl ?_ (.refl _))
  simp only [effectOutline, Expr.type, TypeTable.typeOf_eq h.2.1, Outline.code_piece,
    Outline.code_append, Outline.code_ofCode]

/-- Expressions are evaluated for their effects, one after the other. -/
theorem Emission.puts_dropAll (hP : Ty.Stable P) (hs : s.At pt)
    (hΓ : View.Settled P pt.scope.meanings) {es : List Expr}
    (h : ∀ e ∈ es, ∃ t, e.TypedAs P cx.types pt.scope.meanings t) (hes : Expr.AllValues es)
    (hf : cx.frame.Provides (Expr.usageOfAll cx.types es).nodes)
    (hQ : ∀ s', Lays Closes (pt.move 0 (Expr.labelCountOfAll es))
      (Expr.effectOutlineOfAll cx pt es).code (Expr.suppliesOfAll cx.types es) s s' → Q () s') :
    Puts (dropAll cx es) s Q := by
  induction es generalizing pt s with
  | nil =>
    rw [dropAll, puts_pure]
    refine hQ s ((Lays.refl hs).congr ?_ rfl (.refl _))
    rw [Expr.labelCountOfAll, Point.move_zero]
  | cons e es ih =>
    rw [List.forall_mem_cons] at h
    obtain ⟨t, ht⟩ := h.1
    rw [dropAll, puts_bind]
    refine e.puts_dropValue hP hs hΓ ht hes.1 (hf.mono fun i hi => by simp [Expr.usageOfAll, hi])
      fun s₁ h₁ => ?_
    refine ih h₁.here hΓ h.2 hes.2 (hf.mono fun i hi => by simp [Expr.usageOfAll, hi])
      fun s₂ h₂ => hQ s₂ ?_
    refine (h₁.trans h₂ Closes.trans).congr ?_ ?_ (by
      simp [Supplies.Same, Expr.supplies, Expr.suppliesOfAll, Expr.usageOfAll, Expr.helpersOfAll])
    · rw [Point.move_move, Expr.labelCountOfAll]
    · rw [Expr.effectOutlineOfAll, Outline.code_append]

/-- The leaves of a value are printed. -/
theorem Emission.puts_printLeaves {R : SymbolTable → SymbolTable → Prop} {is : List Instr}
    {used : Supplies} {s₀ : State} {ts : List Ty} (hs : Lays R pt is used s₀ s)
    (hQ : ∀ s',
      Lays R pt (is ++ Expr.printInstrs ts) (used ++ ⟨[], ts.map printHelper⟩) s₀ s' → Q () s') :
    Puts (printLeaves ts) s Q := by
  induction ts generalizing is used s with
  | nil =>
    rw [printLeaves, puts_pure]
    exact hQ s (hs.congr rfl (List.append_nil _).symm (by simp [Supplies.Same]))
  | cons t ts ih =>
    rw [printLeaves, puts_bind, puts_callHelper, puts_bind, puts_trash]
    refine ih (((hs.need _).write _).write _) fun s' h => hQ s' ?_
    refine h.congr rfl ?_ (by simp [Supplies.Same])
    simp [Expr.printInstrs]

/-- Expressions are printed, one after the other. -/
theorem Emission.puts_printAll (hP : Ty.Stable P) (hs : s.At pt)
    (hΓ : View.Settled P pt.scope.meanings) {es : List Expr}
    (h : ∀ e ∈ es, ∃ t, e.TypedAs P cx.types pt.scope.meanings t ∧ t.isPrintable = true)
    (hes : Expr.AllValues es) (hf : cx.frame.Provides (Expr.usageOfAll cx.types es).nodes)
    (hQ : ∀ s', Lays Closes (pt.move 0 (Expr.labelCountOfAll es)) (Expr.printOutline cx pt es).code
      (Expr.suppliesOfAll cx.types es ++ ⟨[], Expr.printHelpers cx.types es⟩) s s' → Q () s') :
    Puts (printAll cx es) s Q := by
  induction es generalizing pt s with
  | nil =>
    rw [printAll, puts_pure]
    refine hQ s ((Lays.refl hs).congr ?_ rfl (.refl _))
    rw [Expr.labelCountOfAll, Point.move_zero]
  | cons e es ih =>
    rw [List.forall_mem_cons] at h
    obtain ⟨t, ht, -⟩ := h.1
    rw [printAll, puts_bind]
    refine e.puts_pushValue hP hs hΓ ht.1 hes.1 (hf.mono fun i hi => by simp [Expr.usageOfAll, hi])
      fun s₁ h₁ => ?_
    rw [puts_bind, puts_typeOf ht.2.1, puts_bind]
    refine puts_printLeaves h₁ fun s₂ h₂ => ?_
    refine ih h₂.here hΓ h.2 hes.2 (hf.mono fun i hi => by simp [Expr.usageOfAll, hi])
      fun s₃ h₃ => hQ s₃ ?_
    refine (h₂.trans h₃ Closes.trans).congr ?_ ?_ ?_
    · rw [Point.move_move, Expr.labelCountOfAll]
    · simp only [Expr.printOutline, Expr.type, TypeTable.typeOf_eq ht.2.1, Outline.code_append,
        Outline.code_piece, Outline.code_ofCode]
    · rw [← TypeTable.typeOf_eq ht.2.1]
      simp only [Supplies.Same, Expr.supplies, Expr.suppliesOfAll, Expr.usageOfAll,
        Expr.helpersOfAll, Expr.printHelpers, Expr.type, List.flatMap_cons, FrameUsage.nodes_append,
        Supplies.slots_append, Supplies.helpers_append, List.append_nil, List.mem_append]
      exact ⟨fun _ => trivial, fun _ => by tauto⟩

namespace VarDecl

/-- Variables are bound to their places. -/
theorem puts_placeEach {line : UInt32} {ps : List (String × Ty × Int)} (hs : s.At pt)
    (hQ : ∀ s',
      Lays (Opens (pt.scope.place line ps)) ⟨pt.scope.place line ps, pt.cursor, pt.labels⟩ [] .none
      s s' → Q () s') : Puts (placeEach line ps) s Q := by
  induction ps generalizing pt s with
  | nil =>
    rw [placeEach, puts_pure]
    exact hQ s ((Lays.refl hs).opens hs)
  | cons p ps ih =>
    have hscope : (s.symbols.define (Symbol.placed line p)).2.scope =
        pt.scope.bind p.1 (Symbol.placed line p) := by
      rw [SymbolTable.scope, SymbolTable.view_define hs.closed, ← hs.scope]
      rfl
    have hinner : SymbolTable.Inner Eq s.symbols (s.symbols.define (Symbol.placed line p)).2 :=
      SymbolTable.inner_define (fun _ => rfl) hs.nested _
    rw [placeEach, puts_bind, place, puts_modify]
    have hs₁ : State.At ⟨pt.scope.bind p.1 (Symbol.placed line p), pt.cursor, pt.labels⟩
        { s with symbols := (s.symbols.define (Symbol.placed line p)).2 } :=
      ⟨hs.closed.define _, hinner.local_ne, hscope, hs.cursor, hs.labels⟩
    refine ih hs₁ fun s' h => hQ s' ?_
    exact ⟨h.here, (show Opens _ s.symbols _ from ⟨hinner, hscope⟩).trans h.symbols,
      h.code, h.slots, h.helpers⟩

/-- **The code of a declaration is that of its outline**, and its variables are bound behind it. -/
theorem puts_code (hP : Ty.Stable P) (hs : s.At pt) (hΓ : View.Settled P pt.scope.meanings)
    {d : VarDecl} (h : d.Typed P cx.types pt.scope.meanings) (hw : d.WellPlaced)
    (hf : cx.frame.Provides (d.usage cx.types).nodes)
    (hQ : ∀ s',
      Lays (Opens (d.after cx.types pt).scope) (d.after cx.types pt) (d.outline cx pt).code
      (d.supplies cx.types) s s' → Q () s') : Puts (d.code cx) s Q := by
  obtain ⟨t, ⟨ht, -⟩, -, -, hinit⟩ := h
  have hplaced := hw.2
  unfold code
  rw [puts_bind, puts_typeOf ht, puts_bind, puts_get, puts_bind, puts_modify, hs.cursor]
  simp only [after, outline, supplies, usage, TypeTable.typeOf_eq ht] at hQ hf
  have h₀ := hs.reach (pt.cursor - t.size)
  cases hi : d.initializer with
  | none =>
    simp only [hi, Expr.usageOfOption, Expr.labelCountOfOption, Expr.helpersOfOption] at hQ
    refine puts_placeEach h₀.here fun s₁ h₁ => hQ s₁ ?_
    exact ((h₀.opens hs).trans h₁ Opens.trans).congr rfl rfl (by simp [Supplies.Same])
  | some e =>
    rw [hi] at hf hplaced
    simp only [hi, Expr.usageOfOption, Expr.labelCountOfOption, Expr.helpersOfOption] at hQ hf
    obtain ⟨he, u, hu, hfits⟩ := hinit e hi
    simp only [puts_bind]
    refine e.puts_pushValue hP h₀.here hΓ he hplaced (hf.mono fun i hi => by simp [hi])
      fun s₁ h₁ => ?_
    rw [puts_typeOf hu, puts_store (puts_base (.frame (pt.cursor - t.size))) hfits]
    have h₁ := (h₀.trans h₁ Closes.trans).write
      (storeInstrs (Base.frame (pt.cursor - t.size)).instrs t u 0)
    refine puts_placeEach h₁.here fun s₂ h₂ => hQ s₂ ?_
    refine ((h₁.opens hs).trans h₂ Opens.trans).congr ?_ ?_ (by simp [Supplies.Same, Expr.supplies])
    · simp [Point.move]
    · simp [Expr.type, TypeTable.typeOf_eq hu]

/-- Declarations are written one after the other. -/
theorem puts_codeAll (hP : Ty.Stable P) (hs : s.At pt) (hΓ : View.Settled P pt.scope.meanings)
    {ds : List VarDecl} (h : AllTyped P cx.types pt.scope.meanings ds) (hw : ∀ d ∈ ds, d.WellPlaced)
    (hf : cx.frame.Provides (usageOfAll cx.types ds).nodes)
    (hQ : ∀ s', Lays (Opens (afterAll cx.types pt ds).scope) (afterAll cx.types pt ds)
      (outlineAll cx pt ds).code (suppliesOfAll cx.types ds) s s' → Q () s') :
    Puts (codeAll cx ds) s Q := by
  induction ds generalizing pt s with
  | nil =>
    rw [codeAll, puts_pure]
    exact hQ s ((Lays.refl hs).opens hs)
  | cons d ds ih =>
    rw [List.forall_mem_cons] at hw
    rw [codeAll, puts_bind]
    refine d.puts_code hP hs hΓ h.1 hw.1 (hf.mono fun i hi => by simp [usageOfAll, hi])
      fun s₁ h₁ => ?_
    have hmeanings := meanings_after h.1 pt
    refine ih h₁.here (hmeanings ▸ h.1.settled hP hΓ) (hmeanings ▸ h.2) hw.2
      (hf.mono fun i hi => by simp [usageOfAll, hi]) fun s₂ h₂ => hQ s₂ ?_
    refine (h₁.trans h₂ Opens.trans).congr rfl ?_
      (by simp [Supplies.Same, supplies, suppliesOfAll, usageOfAll, helpersOfAll])
    rw [outlineAll, Outline.code_append]

/-- Behind declarations their variables are bound. -/
theorem meanings_afterAll {ds : List VarDecl} (h : AllTyped P cx.types pt.scope.meanings ds) :
    (afterAll cx.types pt ds).scope.meanings =
      View.bindAll pt.scope.meanings (bindingOfAll cx.types ds) := by
  induction ds generalizing pt with
  | nil => rfl
  | cons d ds ih =>
    have hmeanings := meanings_after h.1 pt
    rw [afterAll, ih (hmeanings ▸ h.2), hmeanings, ← View.bindAll_append]
    rfl

end VarDecl

/-! ### Where a declaration leads -/

/-- The place behind a declaration, without its scope. -/
theorem VarDecl.after_eq (T : TypeTable) (pt : Point) (d : VarDecl) : d.after T pt =
    ⟨(d.after T pt).scope, pt.cursor - (d.usage T).locals,
      pt.labels + Expr.labelCountOfOption d.initializer⟩ := by
  simp [after, usage]

theorem VarDecl.afterAll_eq (T : TypeTable) (pt : Point) (ds : List VarDecl) : afterAll T pt ds =
    ⟨(afterAll T pt ds).scope, pt.cursor - (usageOfAll T ds).locals,
      pt.labels + labelCountOfAll ds⟩ := by
  induction ds generalizing pt with
  | nil => simp [afterAll, usageOfAll, labelCountOfAll]
  | cons d ds ih =>
    rw [afterAll, ih, after_eq]
    simp only [usageOfAll, labelCountOfAll, FrameUsage.locals_append, Nat.add_assoc]
    congr 1
    omega

theorem LoopInit.after_eq (T : TypeTable) (pt : Point) (i : LoopInit) : i.after T pt =
    ⟨(i.after T pt).scope, pt.cursor - (i.usage T).locals, pt.labels + i.labelCount⟩ := by
  cases i with
  | declare d => exact d.after_eq T pt
  | evaluate e => simp [after, usage, labelCount, Point.move]

theorem LoopInit.afterAll_eq (T : TypeTable) (pt : Point) (is : List LoopInit) : afterAll T pt is =
    ⟨(afterAll T pt is).scope, pt.cursor - (usageOfAll T is).locals,
      pt.labels + labelCountOfAll is⟩ := by
  induction is generalizing pt with
  | nil => simp [afterAll, usageOfAll, labelCountOfAll]
  | cons i is ih =>
    rw [afterAll, ih, after_eq]
    simp only [usageOfAll, labelCountOfAll, FrameUsage.locals_append, Nat.add_assoc]
    congr 1
    omega

/-! ### What a loop does before its first round -/

namespace LoopInit

theorem meanings_after {T : TypeTable} {Γ : Names} {i : LoopInit} (h : i.Typed P T Γ) (pt : Point) :
    (i.after T pt).scope.meanings = View.bindAll pt.scope.meanings (i.binding T) := by
  cases i with
  | declare d => exact VarDecl.meanings_after h pt
  | evaluate e => rfl

/-- Behind what a loop does before its first round its variables are bound. -/
theorem meanings_afterAll {T : TypeTable} {is : List LoopInit}
    (h : AllTyped P T pt.scope.meanings is) :
    (afterAll T pt is).scope.meanings = View.bindAll pt.scope.meanings (bindingOfAll T is) := by
  induction is generalizing pt with
  | nil => rfl
  | cons i is ih =>
    have hmeanings := meanings_after h.1 pt
    rw [afterAll, ih (hmeanings ▸ h.2), hmeanings, ← View.bindAll_append]
    rfl

/-- What a loop does before its first round is written step by step. -/
theorem puts_initLoop (hP : Ty.Stable P) (hs : s.At pt) (hΓ : View.Settled P pt.scope.meanings)
    {is : List LoopInit} (h : AllTyped P cx.types pt.scope.meanings is)
    (hw : ∀ i ∈ is, i.WellPlaced) (hf : cx.frame.Provides (usageOfAll cx.types is).nodes)
    (hQ : ∀ s', Lays (Opens (afterAll cx.types pt is).scope) (afterAll cx.types pt is)
      (outlineAll cx pt is).code (suppliesOfAll cx.types is) s s' → Q () s') :
    Puts (initLoop cx is) s Q := by
  induction is generalizing pt s with
  | nil =>
    rw [initLoop, puts_pure]
    exact hQ s ((Lays.refl hs).opens hs)
  | cons i is ih =>
    rw [List.forall_mem_cons] at hw
    have hmeanings := meanings_after h.1 pt
    have hi : cx.frame.Provides (i.usage cx.types).nodes :=
      hf.mono fun j hj => by simp [usageOfAll, hj]
    have hrest : ∀ s₁,
        Lays (Opens (i.after cx.types pt).scope) (i.after cx.types pt) (i.outline cx pt).code
        (i.supplies cx.types) s s₁ → Puts (initLoop cx is) s₁ Q := by
      intro s₁ h₁
      refine ih h₁.here (hmeanings ▸ h.1.settled hP hΓ) (hmeanings ▸ h.2) hw.2
        (hf.mono fun j hj => by simp [usageOfAll, hj]) fun s₂ h₂ => hQ s₂ ?_
      refine (h₁.trans h₂ Opens.trans).congr rfl ?_
        (by simp [Supplies.Same, supplies, suppliesOfAll, usageOfAll, helpersOfAll])
      rw [outlineAll, Outline.code_append]
    cases i with
    | declare d =>
      rw [initLoop, puts_bind]
      exact d.puts_code hP hs hΓ h.1 hw.1 hi hrest
    | evaluate e =>
      obtain ⟨t, ht⟩ := h.1
      rw [initLoop, puts_bind]
      exact e.puts_dropValue hP hs hΓ ht hw.1 hi fun s₁ h₁ => hrest s₁ (h₁.opens hs)

end LoopInit

end Parts

end PostfixCompiler
