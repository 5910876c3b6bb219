import PostfixCompiler.Proofs.Typing.Typed

/-!
# How a check ends

A part of the check ends with an answer, or it blames the program. It never ends in an internal
fault, and that is proved together with what is true of the answer, since the one rests on the
other: a node is found typed because its part of the check came to an end before.

A part of the check fills the slots of its own nodes only. Ids occur once in a tree, so what was
found out about one phrase stays true while the next one is checked.

## Main definitions

* `PostfixCompiler.Typing.Ends`: the check ends with an answer of which something is true, or blames
  the program.
* `PostfixCompiler.Typing.Ready`: the nodes of a phrase still wait to be checked.
* `PostfixCompiler.Typing.Moves`: of the slots only those of some nodes were filled.
* `PostfixCompiler.Typing.Fills`: nothing but that was changed.

## Main statements

* `PostfixCompiler.Typing.ends_bind`: two parts end well one after the other.
* `PostfixCompiler.Typing.ends_once`: a node that waits to be checked is checked.
-/

namespace PostfixCompiler

/-- The program is to blame. -/
def Error.BlamesProgram : Error → Prop
  | .type .. | .flow .. => True
  | .tree _ | .internal _ => False

/-! ### Slots -/

namespace TypeTable

theorem get?_set_self (T : TypeTable) (id : NodeId) (t : Ty) : (T.set id t).get? id = some t := by
  have hlt : id.index <
      (T.slots ++ Array.replicate (id.index + 1 - T.slots.size) none).size := by
    rw [Array.size_append, Array.size_replicate]
    omega
  simp only [get?, set, Array.getElem?_setIfInBounds_self_of_lt hlt, Option.join_some]

theorem get?_set_ne (T : TypeTable) {id i : NodeId} (t : Ty) (h : i ≠ id) :
    (T.set id t).get? i = T.get? i := by
  have hne : id.index ≠ i.index := fun hi => h (NodeId.index_injective hi.symm)
  simp only [get?, set, Array.getElem?_setIfInBounds_ne hne, Array.getElem?_append,
    Array.getElem?_replicate]
  split
  · rfl
  · rename_i hle
    rw [Array.getElem?_eq_none (Nat.le_of_not_lt hle)]
    split <;> rfl

theorem agrees_set {T : TypeTable} {id : NodeId} {ids : List NodeId} (h : id ∉ ids) (t : Ty) :
    T.Agrees (T.set id t) ids := by
  intro i hi u hu
  rw [get?_set_ne]
  · exact hu
  · rintro rfl
    exact h hi

end TypeTable

namespace Typing

/-- The state in which the type of a node is recorded. -/
def State.record (s : State) (id : NodeId) (t : Ty) : State := { s with types := s.types.set id t }

/-- The type that is recorded for a node is found there. -/
theorem State.get?_record_self (s : State) (id : NodeId) (t : Ty) :
    (s.record id t).types.get? id = some t :=
  TypeTable.get?_set_self s.types id t

/-- The types of other nodes are what they were. -/
theorem State.agrees_record (s : State) {id : NodeId} {ids : List NodeId} (h : id ∉ ids) (t : Ty) :
    s.types.Agrees (s.record id t).types ids :=
  TypeTable.agrees_set h t

/-- The state in which a scope is opened. -/
def State.enter (s : State) : State := { s with symbols := s.symbols.enter }

/-- The state in which the innermost scope is closed. -/
def State.exit (s : State) : State := { s with symbols := s.symbols.exit }

/-- The state in which the body of a function is checked. -/
def State.within (s : State) (function : SymbolId) : State := { s with function := some function }

/-- The state behind the body of a function. -/
def State.beyond (s : State) (outer : Option SymbolId) : State :=
  { s with function := outer, selfCalls := [] }

/-- The state in which a symbol is changed. -/
def State.modifySymbol (s : State) (id : SymbolId) (f : Symbol → Symbol) : State :=
  { s with symbols := s.symbols.modify id f }

/-! ### The end of a check -/

variable {α β : Type} {s : State}

/-- **The check ends with an answer of which `Q` is true, or blames the program.** -/
def Ends (m : CheckM α) (s : State) (Q : α → State → Prop) : Prop :=
  match m s with
  | .ok a s' => Q a s'
  | .error e _ => e.BlamesProgram

theorem Ends.mono {m : CheckM α} {Q Q' : α → State → Prop} (h : Ends m s Q)
    (hq : ∀ a s', Q a s' → Q' a s') : Ends m s Q' := by
  unfold Ends at h ⊢
  split at h
  · exact hq _ _ h
  · exact h

/-- What is found out about a check in two ways is true together. -/
theorem Ends.and {m : CheckM α} {Q Q' : α → State → Prop} (h : Ends m s Q) (h' : Ends m s Q') :
    Ends m s fun a s' => Q a s' ∧ Q' a s' := by
  unfold Ends at h h' ⊢
  split at h
  · rename_i heq
    rw [heq] at h'
    exact ⟨h, h'⟩
  · exact h

@[simp] theorem ends_pure {a : α} {Q : α → State → Prop} : Ends (pure a) s Q ↔ Q a s := Iff.rfl

/-- **Two parts of a check end well one after the other.** -/
@[simp] theorem ends_bind {m : CheckM α} {f : α → CheckM β} {Q : β → State → Prop} :
    Ends (m >>= f) s Q ↔ Ends m s fun a s' => Ends (f a) s' Q := by
  change (match EStateM.bind m f s with | .ok a s' => Q a s' | .error e _ => e.BlamesProgram) ↔ _
  unfold Ends EStateM.bind
  cases m s <;> exact Iff.rfl

@[simp] theorem ends_get {Q : State → State → Prop} : Ends get s Q ↔ Q s s := Iff.rfl

@[simp] theorem ends_set {t : State} {Q : PUnit → State → Prop} :
    Ends (set t) s Q ↔ Q () t := Iff.rfl

@[simp] theorem ends_modify {f : State → State} {Q : PUnit → State → Prop} :
    Ends (modify f) s Q ↔ Q () (f s) := Iff.rfl

@[simp] theorem ends_fault {line : UInt32} {f : TypeFault} {Q : α → State → Prop} :
    Ends (fault line f) s Q := trivial

@[simp] theorem ends_require {line : UInt32} {c : Bool} {f : TypeFault} {Q : Unit → State → Prop} :
    Ends (require line c f) s Q ↔ (c = true → Q () s) := by
  cases c
  · exact iff_of_true trivial (fun h => by cases h)
  · exact ⟨fun h _ => h, fun h => h rfl⟩

@[simp] theorem ends_setType {id : NodeId} {t : Ty} {Q : Unit → State → Prop} :
    Ends (setType id t) s Q ↔ Q () (s.record id t) := Iff.rfl

/-- The type of a node that has one is found. -/
theorem ends_typeOf {id : NodeId} {t : Ty} (h : s.types.get? id = some t) {Q : Ty → State → Prop} :
    Ends (typeOf id) s Q ↔ Q t s := by
  simp only [typeOf, ends_bind, ends_get, TypeTable.expect_eq h, ends_pure]

/-- **A node without a type is checked, and its type recorded.** -/
theorem ends_once {id : NodeId} {check : CheckM Ty} (h : s.types.get? id = none)
    {Q : Ty → State → Prop} :
    Ends (once id check) s Q ↔ Ends check s fun t s' => Q t (s'.record id t) := by
  have hn : s.types.isTyped id = false := by rw [TypeTable.isTyped, h]
  simp only [once, ends_bind, ends_get, hn, Bool.false_eq_true, if_false, ends_setType, ends_pure]

@[simp] theorem ends_known {line : UInt32} {t : Ty} {Q : Ty → State → Prop} :
    Ends (known line t) s Q ↔ (t.containsAuto = false → Q t s) := by
  unfold known
  cases t.containsAuto
  · exact ⟨fun h _ => h, fun h => h rfl⟩
  · exact iff_of_true trivial (fun h => by cases h)

theorem ends_ite {c : Prop} [Decidable c] {m m' : CheckM α} {Q : α → State → Prop} :
    Ends (if c then m else m') s Q ↔ (c → Ends m s Q) ∧ (¬c → Ends m' s Q) := by
  by_cases h : c <;> simp [h]

@[simp] theorem ends_inScope {m : CheckM α} {Q : α → State → Prop} :
    Ends (inScope m) s Q ↔ Ends m s.enter fun a s' => Q a s'.exit := by
  unfold Ends inScope State.enter
  cases m { s with symbols := s.symbols.enter } <;> exact Iff.rfl

@[simp] theorem ends_inFunction {id : SymbolId} {m : CheckM Unit}
    {Q : List SelfCall → State → Prop} :
    Ends (inFunction id m) s Q ↔ Ends m (s.within id) fun _ s' =>
      Q s'.selfCalls (s'.beyond s.function) := by
  unfold Ends inFunction State.within
  cases m { s with function := some id } <;> exact Iff.rfl

@[simp] theorem ends_define {sym : Symbol} {Q : SymbolId → State → Prop} :
    Ends (define sym) s Q ↔
      Q ⟨s.symbols.symbols.size⟩ { s with symbols := (s.symbols.define sym).2 } := by
  have h : (s.symbols.define sym).1 = ⟨s.symbols.symbols.size⟩ := by
    rcases s with ⟨_, ⟨_, _ | _, _⟩, _, _⟩ <;> rfl
  simp only [define, ends_bind, ends_get, ends_set, ends_pure, h]

@[simp] theorem ends_modifySymbol {id : SymbolId} {f : Symbol → Symbol} {Q : Unit → State → Prop} :
    Ends (modifySymbol id f) s Q ↔ Q () (s.modifySymbol id f) := Iff.rfl

/-! ### Nodes that wait, and nodes that are done -/

/-- **The nodes wait to be checked**: none occurs twice, and none has a type. -/
def Ready (ids : List NodeId) (s : State) : Prop :=
  ids.Nodup ∧ ∀ i ∈ ids, s.types.get? i = none

/-- **Of the slots only those of the given nodes were filled**, the function is what it was, and the
symbols changed as `R` says. -/
structure Moves (R : SymbolTable → SymbolTable → Prop) (ids : List NodeId)
    (s s' : State) : Prop where
  /-- The symbols changed in a certain way. -/
  symbols : R s.symbols s'.symbols
  /-- The function is what it was. -/
  function : s'.function = s.function
  /-- Other slots are what they were. -/
  types : ∀ i, i ∉ ids → s'.types.get? i = s.types.get? i

/-- Only the slots of the given nodes were filled; symbols and function are what they were. -/
abbrev Fills (ids : List NodeId) (s s' : State) : Prop := Moves (fun t u => u = t) ids s s'

theorem ready_cons {i : NodeId} {ids : List NodeId} :
    Ready (i :: ids) s ↔ i ∉ ids ∧ s.types.get? i = none ∧ Ready ids s := by
  simp only [Ready, List.nodup_cons, List.forall_mem_cons]
  exact ⟨fun h => ⟨h.1.1, h.2.1, h.1.2, h.2.2⟩, fun h => ⟨⟨h.1, h.2.2.1⟩, h.2.1, h.2.2.2⟩⟩

theorem ready_append {is js : List NodeId} :
    Ready (is ++ js) s ↔ Ready is s ∧ Ready js s ∧ ∀ i ∈ is, i ∉ js := by
  simp only [Ready, List.nodup_append, List.forall_mem_append]
  constructor
  · rintro ⟨⟨hi, hj, hne⟩, hsi, hsj⟩
    exact ⟨⟨hi, hsi⟩, ⟨hj, hsj⟩, fun i hmi hmj => hne i hmi i hmj rfl⟩
  · rintro ⟨⟨hi, hsi⟩, ⟨hj, hsj⟩, hne⟩
    refine ⟨⟨hi, hj, fun a ha b hb => ?_⟩, hsi, hsj⟩
    rintro rfl
    exact hne a ha hb

namespace Moves

variable {R : SymbolTable → SymbolTable → Prop} {is js : List NodeId} {s' s'' : State}

theorem mono (h : Moves R is s s') (hs : ∀ i ∈ is, i ∈ js) : Moves R js s s' :=
  ⟨h.symbols, h.function, fun i hi => h.types i fun hm => hi (hs i hm)⟩

theorem imp {R' : SymbolTable → SymbolTable → Prop} (h : Moves R is s s')
    (hR : R s.symbols s'.symbols → R' s.symbols s'.symbols) : Moves R' is s s' :=
  ⟨hR h.symbols, h.function, h.types⟩

/-- Two parts of a check move the state one after the other. -/
theorem append {R' R'' : SymbolTable → SymbolTable → Prop} (h : Moves R is s s')
    (h' : Moves R' js s' s'')
    (hR : R s.symbols s'.symbols → R' s'.symbols s''.symbols → R'' s.symbols s''.symbols) :
    Moves R'' (is ++ js) s s'' := by
  refine ⟨hR h.symbols h'.symbols, h'.function.trans h.function, fun i hi => ?_⟩
  rw [List.mem_append, not_or] at hi
  rw [h'.types i hi.2, h.types i hi.1]

/-- A phrase that waits goes on waiting while another one is checked. -/
theorem ready (h : Moves R is s s') (hr : Ready js s) (hd : ∀ i ∈ is, i ∉ js) : Ready js s' := by
  refine ⟨hr.1, fun j hj => ?_⟩
  rw [h.types j fun hi => hd j hi hj]
  exact hr.2 j hj

/-- What was found out about a phrase stays true while another one is checked. -/
theorem agrees (h : Moves R js s s') (hd : ∀ i ∈ is, i ∉ js) : s.types.Agrees s'.types is := by
  intro i hi t ht
  rw [h.types i (hd i hi)]
  exact ht

end Moves

namespace Fills

variable {is js : List NodeId} {s' s'' : State}

theorem refl (ids : List NodeId) (s : State) : Fills ids s s := ⟨rfl, rfl, fun _ _ => rfl⟩

theorem trans (h : Fills is s s') (h' : Fills js s' s'') : Fills (is ++ js) s s'' :=
  h.append h' fun h h' => h'.trans h

/-- Recording the type of a node fills its slot. -/
theorem record (s : State) (id : NodeId) (t : Ty) : Fills [id] s (s.record id t) :=
  ⟨rfl, rfl, fun _ hi => TypeTable.get?_set_ne _ t fun h => hi (h ▸ List.mem_singleton_self _)⟩

end Fills

end Typing

end PostfixCompiler
