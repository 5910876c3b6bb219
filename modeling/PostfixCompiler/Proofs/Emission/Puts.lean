import PostfixCompiler.Proofs.Emission.ExprOutline
import PostfixCompiler.Proofs.Emission.Supplies

/-!
# What the writer leaves behind

No step of the writer fails on a typed program, so what is to be proved of one is the state that it
leaves behind: which code it wrote, how many labels it made up, how many bytes of local variables it
placed, which slots it used and which functions of the runtime it called. These add up when steps
are taken one after the other.

## Main definitions

* `PostfixCompiler.Emission.Puts`: a step is taken, and something is true of what it leaves behind.
* `PostfixCompiler.Emission.Wrote`: the code, labels, bytes and supplies between two states.

## Main statements

* `PostfixCompiler.Emission.puts_bind`: two steps are taken one after the other.
* `PostfixCompiler.Emission.Wrote.trans`.
* `PostfixCompiler.Expr.puts_constant`: a number is written by one instruction.
* `PostfixCompiler.Stmt.puts_jump`: so is a jump in the body of a loop.
-/

namespace PostfixCompiler.Emission

variable {α β : Type} {s s' s'' : State}

/-! ### Steps -/

/-- **The step is taken**, and `Q` is true of its answer and of the state behind it. -/
def Puts (m : EmitM α) (s : State) (Q : α → State → Prop) : Prop :=
  match m s with
  | .ok a s' => Q a s'
  | .error _ _ => False

theorem Puts.mono {m : EmitM α} {Q Q' : α → State → Prop} (h : Puts m s Q)
    (hq : ∀ a s', Q a s' → Q' a s') : Puts m s Q' := by
  unfold Puts at h ⊢
  split at h
  · exact hq _ _ h
  · exact h

/-- A step that is taken has an answer. -/
theorem Puts.exists_ok {m : EmitM α} {Q : α → State → Prop} (h : Puts m s Q) :
    ∃ a s', m s = .ok a s' ∧ Q a s' := by
  unfold Puts at h
  split at h
  · rename_i a s' heq
    exact ⟨a, s', heq, h⟩
  · exact h.elim

/-- The state with more code. -/
def State.write (s : State) (is : List Instr) : State := { s with code := ⟨s.code.toList ++ is⟩ }

/-- The state with one more label. -/
def State.makeLabel (s : State) : State := { s with labels := s.labels + 1 }

/-- The state in which a slot is used. -/
def State.use (s : State) (id : NodeId) : State := { s with slots := id :: s.slots }

/-- The state in which a runtime function is called. -/
def State.need (s : State) (name : String) : State :=
  { s with helpers := if s.helpers.contains name then s.helpers else name :: s.helpers }

theorem State.mem_use {s : State} {id i : NodeId} :
    i ∈ (s.use id).slots ↔ i ∈ s.slots ∨ i = id := by
  rw [State.use, List.mem_cons, or_comm]

theorem State.mem_need {s : State} {name other : String} :
    other ∈ (s.need name).helpers ↔ other ∈ s.helpers ∨ other = name := by
  unfold State.need
  dsimp only
  split
  · rename_i hmem
    rw [List.contains_iff_mem] at hmem
    exact ⟨.inl, fun h => h.elim id fun h => h ▸ hmem⟩
  · rw [List.mem_cons, or_comm]

@[simp] theorem labels_write (s : State) (is : List Instr) : (s.write is).labels = s.labels := rfl

@[simp] theorem labels_makeLabel (s : State) : s.makeLabel.labels = s.labels + 1 := rfl

@[simp] theorem puts_pure {a : α} {Q : α → State → Prop} : Puts (pure a) s Q ↔ Q a s := Iff.rfl

/-- **Two steps are taken one after the other.** -/
@[simp] theorem puts_bind {m : EmitM α} {f : α → EmitM β} {Q : β → State → Prop} :
    Puts (m >>= f) s Q ↔ Puts m s fun a s' => Puts (f a) s' Q := by
  change (match EStateM.bind m f s with | .ok a s' => Q a s' | .error _ _ => False) ↔ _
  unfold Puts EStateM.bind
  cases m s <;> exact Iff.rfl

@[simp] theorem puts_map {m : EmitM α} {f : α → β} {Q : β → State → Prop} :
    Puts (f <$> m) s Q ↔ Puts m s fun a s' => Q (f a) s' := by
  change (match EStateM.map f m s with | .ok a s' => Q a s' | .error _ _ => False) ↔ _
  unfold Puts EStateM.map
  cases m s <;> exact Iff.rfl

@[simp] theorem puts_get {Q : State → State → Prop} : Puts get s Q ↔ Q s s := Iff.rfl

@[simp] theorem puts_modify {f : State → State} {Q : PUnit → State → Prop} :
    Puts (modify f) s Q ↔ Q () (f s) := Iff.rfl

@[simp] theorem puts_emit {i : Instr} {Q : Unit → State → Prop} :
    Puts (emit i) s Q ↔ Q () (s.write [i]) := by
  have h : s.code.push i = ⟨s.code.toList ++ [i]⟩ := Array.toList_inj.mp (Array.toList_push ..)
  change Q () { s with code := s.code.push i } ↔ _
  rw [h, State.write]

@[simp] theorem write_nil (s : State) : s.write [] = s := by
  rw [State.write, List.append_nil]

@[simp] theorem write_write (s : State) (is js : List Instr) :
    (s.write is).write js = s.write (is ++ js) := by
  rw [State.write, State.write, State.write, List.append_assoc]

@[simp] theorem puts_emitAll {is : List Instr} {Q : Unit → State → Prop} :
    Puts (emitAll is) s Q ↔ Q () (s.write is) := by
  induction is generalizing s with
  | nil => rw [emitAll, puts_pure, write_nil]
  | cons i is ih => rw [emitAll, puts_bind, puts_emit, ih, write_write, List.singleton_append]

@[simp] theorem puts_newLabel {Q : String → State → Prop} :
    Puts newLabel s Q ↔ Q (labelName (s.labels + 1)) s.makeLabel := Iff.rfl

@[simp] theorem puts_callHelper {name : String} {Q : Unit → State → Prop} :
    Puts (callHelper name) s Q ↔ Q () ((s.need name).write [.call name]) := by
  rw [callHelper, puts_bind, puts_modify, puts_emit]
  exact Iff.rfl

@[simp] theorem puts_trash {n : Nat} {Q : Unit → State → Prop} :
    Puts (trash n) s Q ↔ Q () (s.write (trashInstrs n)) := by
  unfold trash trashInstrs
  split
  · rw [puts_pure, write_nil]
  · rw [puts_emit]

@[simp] theorem puts_addOffset {n : Nat} {Q : Unit → State → Prop} :
    Puts (addOffset n) s Q ↔ Q () (s.write (offsetInstrs n)) := by
  unfold addOffset offsetInstrs
  split
  · rw [puts_pure, write_nil]
  · rw [puts_emitAll]

@[simp] theorem puts_orFault {a : α} {Q : α → State → Prop} :
    Puts (orFault (.ok a)) s Q ↔ Q a s := Iff.rfl

theorem puts_typeOf {cx : Context} {id : NodeId} {t : Ty} (h : cx.types.get? id = some t)
    {Q : Ty → State → Prop} : Puts (cx.typeOf id) s Q ↔ Q t s := by
  rw [Context.typeOf, TypeTable.expect_eq h, puts_orFault]

/-- A slot that the frame has is used. -/
theorem puts_slotOf {cx : Context} {id : NodeId} (h : (cx.frame.slotOffset? id).isSome = true)
    {Q : Int → State → Prop} : Puts (cx.slotOf id) s Q ↔ Q (cx.frame.slotAt id) (s.use id) := by
  obtain ⟨offset, ho⟩ := Option.isSome_iff_exists.mp h
  unfold Context.slotOf FrameLayout.slotAt
  rw [ho]
  exact Iff.rfl

@[simp] theorem puts_wantValue {e : Expr} {Q : Unit → State → Prop} :
    Puts (wantValue e .value) s Q ↔ Q () s := Iff.rfl

@[simp] theorem puts_wantAddress {e : Expr} {Q : Unit → State → Prop} :
    Puts (wantAddress e .address) s Q ↔ Q () s := Iff.rfl

theorem puts_ite {c : Prop} [Decidable c] {m m' : EmitM α} {Q : α → State → Prop} :
    Puts (if c then m else m') s Q ↔ (c → Puts m s Q) ∧ (¬c → Puts m' s Q) := by
  by_cases h : c <;> simp [h]

/-! ### What lies between two states -/

/-- **What was written between two states**: code, labels, bytes of local variables and what the
code draws on, with the symbols changed as `R` says. -/
structure Wrote (R : SymbolTable → SymbolTable → Prop) (is : List Instr) (labels bytes : Nat)
    (used : Supplies) (s s' : State) : Prop where
  /-- The symbols changed in a certain way. -/
  symbols : R s.symbols s'.symbols
  /-- The instructions stand behind the code that there was. -/
  code : s'.code.toList = s.code.toList ++ is
  /-- So many labels were made up. -/
  labels : s'.labels = s.labels + labels
  /-- The local variables take so many bytes more. -/
  cursor : s'.cursor = s.cursor - bytes
  /-- The slots were used. -/
  slots : ∀ id, id ∈ s'.slots ↔ id ∈ s.slots ∨ id ∈ used.slots
  /-- The functions of the runtime were called. -/
  helpers : ∀ name, name ∈ s'.helpers ↔ name ∈ s.helpers ∨ name ∈ used.helpers

/-- What was written for an expression: no variable was placed. -/
abbrev Pushed (is : List Instr) (labels : Nat) (used : Supplies) (s s' : State) : Prop :=
  Wrote (fun t u => u = t) is labels 0 used s s'

namespace Wrote

variable {R R' R'' : SymbolTable → SymbolTable → Prop} {is js : List Instr} {k l b c : Nat}
  {used more : Supplies}

theorem trans (h : Wrote R is k b used s s') (h' : Wrote R' js l c more s' s'')
    (hR : R s.symbols s'.symbols → R' s'.symbols s''.symbols → R'' s.symbols s''.symbols) :
    Wrote R'' (is ++ js) (k + l) (b + c) (used ++ more) s s'' where
  symbols := hR h.symbols h'.symbols
  code := by rw [h'.code, h.code, List.append_assoc]
  labels := by rw [h'.labels, h.labels, Nat.add_assoc]
  cursor := by
    rw [h'.cursor, h.cursor]
    omega
  slots id := by rw [h'.slots, h.slots, Supplies.slots_append, List.mem_append, or_assoc]
  helpers name := by rw [h'.helpers, h.helpers, Supplies.helpers_append, List.mem_append, or_assoc]

/-- Only what the code draws on matters, not in which order. -/
theorem congr (h : Wrote R is k b used s s') (hi : is = js) (hk : k = l) (hb : b = c)
    (hu : used.Same more) : Wrote R js l c more s s' := by
  subst hi hk hb
  exact ⟨h.symbols, h.code, h.labels, h.cursor, fun id => by rw [h.slots, hu.1],
    fun name => by rw [h.helpers, hu.2]⟩

/-- More code behind what was written. -/
theorem write (h : Wrote R is k b used s s') (js : List Instr) :
    Wrote R (is ++ js) k b used s (s'.write js) :=
  ⟨h.symbols,
    by rw [State.write, h.code, List.append_assoc], h.labels, h.cursor, h.slots, h.helpers⟩

theorem need (h : Wrote R is k b used s s') (name : String) :
    Wrote R is k b (used ++ .ofHelper name) s (s'.need name) := by
  refine ⟨h.symbols, h.code, h.labels, h.cursor, fun i => ?_, fun other => ?_⟩
  · rw [Supplies.slots_append, Supplies.slots_ofHelper, List.append_nil]
    exact h.slots i
  · rw [State.mem_need, h.helpers, Supplies.helpers_append, Supplies.helpers_ofHelper,
      List.mem_append, List.mem_singleton, or_assoc]

theorem makeLabel (h : Wrote R is k b used s s') : Wrote R is (k + 1) b used s s'.makeLabel :=
  ⟨h.symbols, h.code,
    by rw [State.makeLabel, h.labels, Nat.add_assoc], h.cursor, h.slots, h.helpers⟩

theorem use (h : Wrote R is k b used s s') (id : NodeId) :
    Wrote R is k b (used ++ .ofSlots [id]) s (s'.use id) := by
  refine ⟨h.symbols, h.code, h.labels, h.cursor, fun i => ?_, fun name => ?_⟩
  · rw [State.mem_use, h.slots, Supplies.slots_append, Supplies.slots_ofSlots, List.mem_append,
      List.mem_singleton, or_assoc]
  · rw [Supplies.helpers_append, Supplies.helpers_ofSlots, List.append_nil]
    exact h.helpers name

end Wrote

namespace Pushed

variable {is js : List Instr} {k l : Nat} {used more : Supplies}

theorem refl (s : State) : Pushed [] 0 .none s s :=
  ⟨rfl, (List.append_nil _).symm, rfl, by omega, by simp, by simp⟩

theorem trans (h : Pushed is k used s s') (h' : Pushed js l more s' s'') :
    Pushed (is ++ js) (k + l) (used ++ more) s s'' :=
  Wrote.trans h h' fun h h' => h'.trans h

end Pushed

end PostfixCompiler.Emission

/-! ### Constants -/

namespace PostfixCompiler.Expr

open Emission

variable {cx : Context} {mode : Mode} {s : State} {t : Ty}

/-- What comes first in the code of an expression without slot: nothing is written. -/
theorem puts_head {e : Expr} (h : e.charge cx.types mode = .ok none)
    (ht : cx.types.get? e.id = some t) {f : Option Int → Ty → EmitM Mode} {Q : Mode → State → Prop}
    (hQ : Puts (f none t) s Q) :
    Puts (do let slot ← cx.ownSlot e mode; let t ← cx.typeOf e.id; f slot t) s Q := by
  rw [puts_bind, Context.ownSlot, h, puts_bind, puts_orFault, puts_pure, puts_bind, puts_typeOf ht]
  exact hQ

/-- The one instruction of a number or of the null pointer. -/
def constantInstr? : Expr → Option Instr
  | .integer _ n => some (.int n.toInt)
  | .double _ d => some (.double d)
  | .nullptr _ => some (.int 0)
  | _ => none

/-- A number and the null pointer are written by one instruction. -/
theorem puts_constant {e : Expr} {i : Instr} (he : e.constantInstr? = some i)
    (ht : cx.types.get? e.id = some t) {Q : Mode → State → Prop} (hQ : Q .value (s.write [i])) :
    Puts (e.code cx mode) s Q := by
  cases e <;> cases he <;>
  · rw [code]
    refine puts_head rfl ht ?_
    rw [puts_bind, puts_emit, puts_pure]
    exact hQ

end PostfixCompiler.Expr

/-! ### Jumps -/

namespace PostfixCompiler.Stmt

open Emission

/-- A jump in the body of a loop is one instruction. -/
theorem puts_jump {cx : Context} {l : LoopLabels} (hl : cx.loop = some l) {site : Site} {s : State}
    {Q : Unit → State → Prop} :
    (Puts ((Stmt.break site).code cx) s Q ↔ Q () (s.write [.jump l.done])) ∧
      (Puts ((Stmt.continue site).code cx) s Q ↔ Q () (s.write [.jump l.increment])) := by
  constructor
  · rw [code, hl]
    exact puts_emit
  · rw [code, hl]
    exact puts_emit

end PostfixCompiler.Stmt
