import PostfixCompiler.Emission.Unit
import PostfixCompiler.Proofs.Emission.Sorted
import PostfixCompiler.Proofs.Emission.StmtCode

/-!
# The code of a function is that of its outline

The frame of a function has a slot for each node that needs one. When the body is written each of
these slots is used, and no other; the writer compares the two lists, both sorted and without
repetition, so the comparison succeeds because the lists have the same members.

## Main definitions

* `PostfixCompiler.Function.frame`: the frame of a function.
* `PostfixCompiler.Function.outline`: the outline of a function.
* `PostfixCompiler.Emission.Adds`: what the writer leaves behind when it has written a declaration.

## Main statements

* `PostfixCompiler.Function.layout_eq`: the layout of a function is its frame.
* `PostfixCompiler.Function.puts_code`: the code of a function is that of its outline.
-/

namespace PostfixCompiler

open Emission

/-! ### Slots -/

namespace FrameLayout

theorem map_slotsBelow (top : Int) (charges : List (NodeId × Nat)) :
    (slotsBelow top charges).map Slot.node = charges.map Prod.fst := by
  induction charges generalizing top with
  | nil => rfl
  | cons c charges ih => rw [slotsBelow, List.map_cons, ih, List.map_cons]

/-- A frame has slots for the nodes that need them. -/
theorem provides_ofCharges (function : String) (l c r : Nat) (u : FrameUsage) :
    (ofCharges function l c r u.charges).Provides u.nodes := by
  intro id hid
  rw [FrameUsage.nodes,
    ← map_slotsBelow (ofCharges function l c r u.charges).returnTempOffset] at hid
  obtain ⟨slot, hslot, rfl⟩ := List.mem_map.mp hid
  rw [slotOffset?, Option.isSome_map, List.find?_isSome]
  exact ⟨slot, hslot, by simp⟩

end FrameLayout

/-! ### Arguments -/

namespace VarDecl

variable {P : Ty → Prop} {T : TypeTable} {pt : Point} {s : State} {Q : Unit → State → Prop}

/-- Behind arguments they are bound. -/
theorem meanings_argumentScope {ds : List VarDecl} (h : ∀ d ∈ ds, d.TypedArgument P T)
    (v : View Symbol) (offset : Int) :
    (argumentScope T v offset ds).meanings = View.bindAll v.meanings (bindingOfAll T ds) := by
  induction ds generalizing v offset with
  | nil => rfl
  | cons d ds ih =>
    rw [List.forall_mem_cons] at h
    obtain ⟨hn, -, t, ht, -⟩ := h.1
    rw [argumentScope, ih h.2, View.meanings_place, List.map_map, ← View.bindAll_append,
      TypeTable.typeOf_eq ht]
    exact congrArg (View.bindAll v.meanings <| · ++ _) (binding_argument hn ht).symm

/-- Arguments are bound to their places. -/
theorem puts_codeAsArguments {cx : Context} {offset : Int} {ds : List VarDecl}
    (h : ∀ d ∈ ds, d.TypedArgument P cx.types) (hs : s.At pt)
    (hQ : ∀ s', Lays (Opens (argumentScope cx.types pt.scope offset ds))
      ⟨argumentScope cx.types pt.scope offset ds, pt.cursor, pt.labels⟩ [] .none s s' → Q () s') :
    Puts (codeAsArguments cx offset ds) s Q := by
  induction ds generalizing pt s offset with
  | nil =>
    rw [codeAsArguments, puts_pure]
    exact hQ s ((Lays.refl hs).opens hs)
  | cons d ds ih =>
    rw [List.forall_mem_cons] at h
    obtain ⟨-, -, t, ht, -⟩ := h.1
    simp only [codeAsArguments, codeAsArgument, puts_bind, puts_typeOf ht]
    refine puts_placeEach hs fun s₁ h₁ => ?_
    rw [puts_pure]
    refine ih h.2 h₁.here fun s₂ h₂ => hQ s₂ ?_
    rw [argumentScope, TypeTable.typeOf_eq ht]
    exact h₁.trans h₂ Opens.trans

end VarDecl

/-! ### Functions -/

namespace Emission

/-- **What the writer leaves behind when it has written a declaration of the unit**: code, more
labels and calls of the runtime; the scopes and symbols are what they were. -/
structure Adds (is : List Instr) (labels : Nat) (called : List String) (s s' : State) : Prop where
  /-- The symbols are those that there were. -/
  symbols : Closes s.symbols s'.symbols
  /-- The instructions stand behind the code that there was. -/
  code : s'.code.toList = s.code.toList ++ is
  /-- So many labels were made up. -/
  labels : s'.labels = s.labels + labels
  /-- The functions of the runtime were called. -/
  helpers : ∀ name, name ∈ s'.helpers ↔ name ∈ s.helpers ∨ name ∈ called

end Emission

namespace Function

/-- The frame of a function. -/
def frame (T : TypeTable) (f : Function) : FrameLayout :=
  let usage := f.body.stmt.usage T
  .ofCharges f.signature.name usage.locals usage.callTemp
    (if (T.typeOf f.signature.id).isTuple then Ty.wordSize else 0) usage.charges

/-- What is fixed while the code of a function is written. -/
def context (T : TypeTable) (config : Config) (f : Function) : Context :=
  ⟨T, config, f.frame T, T.typeOf f.signature.id, none⟩

/-- The place where the body of a function stands, if `n` labels were made up before. -/
def entry (T : TypeTable) (scope : View Symbol) (n : Nat) (f : Function) : Point :=
  let first :=
    if (T.typeOf f.signature.id).isTuple then argumentsOffset + Ty.wordSize else argumentsOffset
  ⟨VarDecl.argumentScope T scope first f.signature.arguments, 0, n⟩

/-- The start of the code of a function. -/
def head (T : TypeTable) (config : Config) (scope : View Symbol) (f : Function) : List Instr :=
  let label := calleeLabel config scope f.signature.name
  [.text, .align] ++ (if f.signature.qualifier = .public then [.global label .function] else []) ++
    [.label label, .enter (f.frame T).frameSize]

/-- The outline of the end of a function, where control arrives if there is no result. -/
def tail (T : TypeTable) (f : Function) : Outline :=
  if T.typeOf f.signature.id = .void then leaveOutline f.signature.id .done else .done

/-- **The outline of a function** in the scope of a unit, if `n` labels were made up before. -/
def outline (T : TypeTable) (config : Config) (scope : View Symbol) (n : Nat)
    (f : Function) : Outline :=
  .piece (.function f) <|
    .ofCode (f.head T config scope) ++
      f.body.stmt.outline (f.context T config) (f.entry T scope n) ++
      f.tail T

variable {P : Ty → Prop} {T : TypeTable} {R : Ty}

/-- **The layout of a function is its frame.** -/
theorem layout_eq {Γ : Names} {f : Function} (h : f.Typed P T Γ R) :
    f.layout T = .ok (f.frame T) := by
  rw [layout, TypeTable.expect_eq h.result.1, Stmt.frameUsage_eq h.body, frame,
    TypeTable.typeOf_eq h.result.1]
  rfl

theorem exists_exits {f : Function} (h : f.checkFlow R = .ok ()) :
    ∃ x, f.body.stmt.exits false = .ok x ∧ (R ≠ .void → x.returns = true) := by
  obtain ⟨x, hx, h⟩ := bind_eq_ok.mp h
  refine ⟨x, hx, fun hR => ?_⟩
  by_contra hreturns
  rw [if_pos ⟨hR, by simpa using hreturns⟩] at h
  cases h

/-- The body of a function is written in a scope of its own. -/
theorem puts_codeBody (hP : Ty.Stable P) {config : Config} {f : Function}
    {scope : View Symbol} {s : State} {n : Nat} (hs : s.enter.At ⟨scope, 0, n⟩)
    (hΓ : View.Settled P scope.meanings) (h : f.Typed P T scope.meanings R) (hw : f.WellPlaced)
    {Q : Unit → State → Prop} (hQ : ∀ s', Closes s.symbols s'.symbols →
      s'.code.toList = s.code.toList ++
        (f.body.stmt.outline (f.context T config) (f.entry T scope n) ++ f.tail T).code →
      s'.labels = s.labels + f.body.stmt.labelCount →
      (∀ id, id ∈ s'.slots ↔ id ∈ s.slots ∨ id ∈ (f.body.stmt.usage T).nodes) →
      (∀ name, name ∈ s'.helpers ↔ name ∈ s.helpers ∨ name ∈ f.body.stmt.helpers T) → Q () s') :
    Puts (f.codeBody (f.context T config)) s Q := by
  obtain ⟨x, hx, -⟩ := exists_exits h.flow
  have hR : (f.context T config).returnType = R := TypeTable.typeOf_eq h.result.1
  rw [codeBody, puts_inScope, puts_bind]
  refine VarDecl.puts_codeAsArguments h.arguments hs fun s₁ h₁ => ?_
  have hmeanings : (f.entry T scope n).scope.meanings =
      View.bindAll scope.meanings (VarDecl.bindingOfAll T f.signature.arguments) :=
    VarDecl.meanings_argumentScope h.arguments _ _
  have hlies : f.body.stmt.Lies (f.context T config) (f.entry T scope n) := by
    refine Stmt.lies hP ?_ ?_ hw.2 hx (fun h => by cases h)
      (FrameLayout.provides_ofCharges _ _ _ _ _)
    · rw [hmeanings]
      exact VarDecl.settled_arguments hP h.arguments hΓ
    · rw [hmeanings, hR]
      exact h.body
  rw [puts_bind]
  refine (hlies s₁ h₁.here).mono fun _ s₂ h₂ => ?_
  have h₂ := h₁.trans (h₂.opens h₁.here) Opens.trans
  have htail : ∀ is, (f.tail T).code = is → Q () (s₂.write is).exit := by
    rintro is rfl
    have h₃ := h₂.write (f.tail T).code
    refine hQ _ h₃.symbols.1.exit ?_ ?_ h₃.slots h₃.helpers
    · refine h₃.code.trans ?_
      rw [List.nil_append, ← Outline.code_append]
      rfl
    · refine h₃.here.labels.trans ?_
      rw [show s.labels = n from hs.labels]
      rfl
  rw [hR]
  unfold tail at htail
  rw [TypeTable.typeOf_eq h.result.1] at htail
  split
  · rename_i hvoid
    rw [puts_emitAll]
    refine htail _ ?_
    rw [if_pos hvoid, leaveOutline]
    simp
  · rename_i hvoid
    rw [puts_pure, ← write_nil s₂]
    refine htail _ ?_
    rw [if_neg hvoid, Outline.code_done]

/-- The function that a name stands for is in the scope. -/
theorem exists_symbol {σ : SymbolTable} {f : Function} (h : f.Typed P T σ.names R) :
    ∃ id sym, σ.resolve? f.signature.name = some (id, sym) ∧
    σ.scope f.signature.name = some sym := by
  obtain ⟨ps, hname⟩ := h.name
  obtain ⟨id, sym, hres, hscope, -⟩ := Expr.exists_resolve hname
  exact ⟨id, sym, hres, hscope⟩

/-- The state in which the body of a function is begun: no variable has a place, and no slot is
used. -/
def restart (s : State) : State := { s with cursor := 0, slots := [] }

/-- The slots of the frame of a function are those of the nodes that need them. -/
theorem map_slots_frame (T : TypeTable) (f : Function) :
    (f.frame T).slots.map Slot.node = (f.body.stmt.usage T).nodes := by
  rw [frame, FrameLayout.ofCharges, FrameLayout.map_slotsBelow]
  rfl

/-- **A typed function is written without a fault, and its code is that of its outline.** -/
theorem puts_code (hP : Ty.Stable P) {config : Config} {f : Function} {s : State}
    (hs : s.symbols.Closed) (hΓ : View.Settled P s.symbols.names)
    (h : f.Typed P T s.symbols.names R) (hw : f.WellPlaced) :
    Puts (f.code T config) s fun frame s' => frame = f.frame T ∧
      (∀ id, id ∈ s'.slots ↔ id ∈ (f.frame T).slots.map Slot.node) ∧
      Adds (f.outline T config s.symbols.scope s.labels).code f.body.stmt.labelCount
        (f.body.stmt.helpers T)
        s s' := by
  obtain ⟨id, sym, hres, hscope⟩ := exists_symbol h
  have hlabel : calleeLabel config s.symbols.scope f.signature.name = config.labelOf sym := by
    rw [calleeLabel, hscope]
  rw [SymbolTable.names_eq] at hΓ h
  unfold code
  rw [TypeTable.expect_eq h.result.1, layout_eq h]
  have hbody : ∀ is, is = f.head T config s.symbols.scope →
      Puts (f.codeBody (f.context T config)) (restart (s.write is)) fun _ s' =>
        (∀ id, id ∈ s'.slots ↔ id ∈ (f.frame T).slots.map Slot.node) ∧
          Adds (f.outline T config s.symbols.scope s.labels).code f.body.stmt.labelCount
            (f.body.stmt.helpers T) s s' := by
    rintro is rfl
    have hat : (restart (s.write (f.head T config s.symbols.scope))).enter.At
        ⟨s.symbols.scope, 0, s.labels⟩ :=
      ⟨hs.enter, List.cons_ne_nil _ _, SymbolTable.view_enter .., rfl, rfl⟩
    refine puts_codeBody hP hat hΓ h hw fun s' hsymbols hcode hlabels hslots hhelpers =>
      ⟨?_, hsymbols, ?_, hlabels, hhelpers⟩
    · intro id
      simp [hslots, restart, map_slots_frame]
    · rw [hcode]
      simp [restart, State.write, outline]
  have hcontext : f.context T config = ⟨T, config, f.frame T, R, none⟩ := by
    rw [context, TypeTable.typeOf_eq h.result.1]
  rw [hcontext] at hbody
  by_cases hpublic : f.signature.qualifier = .public
  · simp only [puts_bind, puts_orFault, puts_get, hres, puts_emitAll, hpublic, if_true, puts_emit,
      puts_modify, write_write]
    refine (hbody _ ?_).mono fun _ s' h => ?_
    · simp [head, hlabel, hpublic]
    · rw [if_neg (fun hne => hne (sortedIds_congr h.1).symm), puts_pure]
      exact ⟨rfl, h⟩
  · simp only [puts_bind, puts_orFault, puts_get, hres, puts_emitAll, hpublic,
      if_false, puts_modify, write_write]
    refine (hbody _ ?_).mono fun _ s' h => ?_
    · simp [head, hlabel, hpublic]
    · rw [if_neg (fun hne => hne (sortedIds_congr h.1).symm), puts_pure]
      exact ⟨rfl, h⟩

end Function

end PostfixCompiler
