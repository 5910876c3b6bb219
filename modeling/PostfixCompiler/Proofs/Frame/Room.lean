import PostfixCompiler.Proofs.Emission.Standing
import PostfixCompiler.Proofs.Frame.Area

/-!
# What a function has room for

Each piece of the code of a function uses the part of the frame that was laid out for it. What that
means for a piece depends on what the piece is, and is said here once for all of them: a piece
**sits** in the room of its function. Of an expression it says all that the code of the expression
depends on; of anything else it says which instructions with frame addresses the piece has of its
own, those of the pieces inside it left out.

## Main definitions

* `PostfixCompiler.Outline.own`: the instructions of an outline that belong to no piece of it.
* `PostfixCompiler.Outline.All`: something is true of every piece of an outline.
* `PostfixCompiler.Room`: the frame of a function, with the declarations that have a place in it.
* `PostfixCompiler.Expr.Sits`, `PostfixCompiler.Piece.Sits`: an expression, or any piece, sits in a
  room.

## Main statements

* `PostfixCompiler.Expr.all_sit`: all pieces of an expression sit where it sits.
* `PostfixCompiler.Function.all_sit`: all pieces of a function sit in its room.
-/

namespace PostfixCompiler

open Emission

/-! ### Pieces -/

namespace Outline

/-- The instructions of an outline that belong to no piece of it. -/
def own : Outline → List Instr
  | .done => []
  | .step i rest => i :: rest.own
  | .part _ _ rest => rest.own

@[simp] theorem own_done : Outline.done.own = [] := rfl

@[simp] theorem own_append (a b : Outline) : (a ++ b).own = a.own ++ b.own := by
  change (a.append b).own = _
  induction a with
  | done => rfl
  | step i rest ih => rw [append, own, ih, own, List.cons_append]
  | part p inner rest _ ih => exact ih

@[simp] theorem own_ofCode (is : List Instr) : (ofCode is).own = is := by
  induction is with
  | nil => rfl
  | cons i is ih => rw [ofCode, own, ih]

@[simp] theorem own_piece (p : Piece) (inner : Outline) : (piece p inner).own = [] := rfl

/-- **Something is true of every piece of an outline**, with the outline of what is inside. -/
def All (Q : Piece → Outline → Prop) : Outline → Prop
  | .done => True
  | .step _ rest => rest.All Q
  | .part p inner rest => Q p inner ∧ inner.All Q ∧ rest.All Q

variable {Q : Piece → Outline → Prop}

theorem All.append {a b : Outline} (ha : a.All Q) (hb : b.All Q) : (a ++ b).All Q := by
  change (a.append b).All Q
  induction a with
  | done => exact hb
  | step i rest ih => exact ih ha
  | part p inner rest _ ih => exact ⟨ha.1, ha.2.1, ih ha.2.2⟩

theorem All.ofCode (is : List Instr) : (ofCode is).All Q := by
  induction is with
  | nil => trivial
  | cons i is ih => exact ih

theorem All.piece {p : Piece} {inner : Outline} (h : Q p inner) (hi : inner.All Q) :
    (piece p inner).All Q :=
  ⟨h, hi, trivial⟩

theorem all_append {a b : Outline} : (a ++ b).All Q ↔ a.All Q ∧ b.All Q := by
  refine ⟨fun h => ?_, fun h => h.1.append h.2⟩
  change (a.append b).All Q at h
  induction a with
  | done => exact ⟨trivial, h⟩
  | step i rest ih => exact ih h
  | part p inner rest _ ih =>
    obtain ⟨hp, hinner, hrest⟩ := h
    obtain ⟨ha, hb⟩ := ih hrest
    exact ⟨⟨hp, hinner, ha⟩, hb⟩

theorem all_piece {p : Piece} {inner : Outline} : (piece p inner).All Q ↔ Q p inner ∧ inner.All Q :=
  ⟨fun h => ⟨h.1, h.2.1⟩, fun h => .piece h.1 h.2⟩

theorem All.imp {Q' : Piece → Outline → Prop} (h : ∀ p inner, Q p inner → Q' p inner) {o : Outline}
    (ho : o.All Q) : o.All Q' := by
  induction o with
  | done => trivial
  | step i rest ih => exact ih ho
  | part p inner rest ih ih' => exact ⟨h p inner ho.1, ih ho.2.1, ih' ho.2.2⟩

/-- An outline has no frame address of its own. -/
def Quiet (o : Outline) : Prop := ∀ offset, Instr.frameAddress offset ∉ o.own

end Outline

/-! ### What belongs to no piece -/

section Own

variable (cx : Context) (pt : Point)

@[simp] theorem Expr.own_outline (scope : View Symbol) (mode : Mode) (n : Nat) (e : Expr) :
    (e.outline cx scope mode n).own = [] := by
  unfold outline
  exact Outline.own_piece _ _

@[simp] theorem VarDecl.own_outline (d : VarDecl) : (d.outline cx pt).own = [] := by
  unfold outline
  split <;> rfl

@[simp] theorem VarDecl.own_outlineAll (ds : List VarDecl) : (outlineAll cx pt ds).own = [] := by
  induction ds generalizing pt with
  | nil => rfl
  | cons d ds ih => rw [outlineAll, Outline.own_append, own_outline, ih, List.append_nil]

@[simp] theorem Expr.own_effectOutline (e : Expr) : (e.effectOutline cx pt).own = [] := rfl

@[simp] theorem Expr.own_effectOutlineOfAll (es : List Expr) :
    (effectOutlineOfAll cx pt es).own = [] := by
  induction es generalizing pt with
  | nil => rfl
  | cons e es ih =>
      rw [effectOutlineOfAll, Outline.own_append, own_effectOutline, ih, List.append_nil]

@[simp] theorem Expr.own_printOutline (es : List Expr) : (printOutline cx pt es).own = [] := by
  induction es generalizing pt with
  | nil => rfl
  | cons e es ih => rw [printOutline, Outline.own_append, Outline.own_piece, ih, List.append_nil]

@[simp] theorem Expr.own_testOutline (keep : List Instr) (otherwise : String) (c : Expr) :
    (c.testOutline cx pt keep otherwise).own = [] := rfl

@[simp] theorem LoopInit.own_outlineAll (is : List LoopInit) : (outlineAll cx pt is).own = [] := by
  induction is generalizing pt with
  | nil => rfl
  | cons i is ih =>
    rw [outlineAll, Outline.own_append, ih, List.append_nil]
    cases i <;> simp [outline]

@[simp] theorem Emission.own_loopTestOutline (id : NodeId) (done : String) (c : Option Expr) :
    (loopTestOutline cx pt id done c).own = [] := by
  cases c <;> rfl

@[simp] theorem Emission.own_leaveOutline (id : NodeId) (value : Outline) :
    (leaveOutline id value).own = [] := rfl

@[simp] theorem Stmt.own_outline (st : Stmt) : (st.outline cx pt).own = [] := by
  unfold outline
  exact Outline.own_piece _ _

@[simp] theorem Stmt.own_outlineAll (ss : List Stmt) : (outlineAll cx pt ss).own = [] := by
  induction ss generalizing pt with
  | nil =>
    rw [outlineAll]
    rfl
  | cons st ss ih => rw [outlineAll, Outline.own_append, own_outline, ih, List.append_nil]

end Own

/-! ### Slots -/

/-- **A frame serves a use of it**: it has a slot for each node that needs one, and the results of
calls fit. -/
structure FrameLayout.Serves (f : FrameLayout) (u : FrameUsage) : Prop where
  /-- Each node has a slot of the size that it needs. -/
  slots : ∀ c ∈ u.charges, ∃ s ∈ f.slots, s.node = c.1 ∧ s.size = c.2
  /-- The results of calls fit. -/
  calls : u.callTemp ≤ f.callTempSize
  /-- No node needs two slots. -/
  nodup : u.nodes.Nodup

namespace FrameLayout.Serves

variable {f : FrameLayout} {u v : FrameUsage}

theorem left (h : f.Serves (u ++ v)) : f.Serves u :=
  ⟨fun c hc => h.slots c (List.mem_append_left _ hc), (Nat.le_max_left _ _).trans h.calls,
    (List.nodup_append.mp (FrameUsage.nodes_append u v ▸ h.nodup)).1⟩

theorem right (h : f.Serves (u ++ v)) : f.Serves v :=
  ⟨fun c hc => h.slots c (List.mem_append_right _ hc), (Nat.le_max_right _ _).trans h.calls,
    (List.nodup_append.mp (FrameUsage.nodes_append u v ▸ h.nodup)).2.1⟩

/-- Two phrases that are served need different slots. -/
theorem disjoint (h : f.Serves (u ++ v)) {i : NodeId} (hi : i ∈ u.nodes) : i ∉ v.nodes :=
  fun hi' => (List.nodup_append.mp (FrameUsage.nodes_append u v ▸ h.nodup)).2.2 i hi i hi' rfl

/-- The slot of a node that is charged. -/
theorem slot {id : NodeId} {n : Nat} (h : f.Serves (.ofCharge id (some n))) :
    ∃ s ∈ f.slots, s.node = id ∧ s.size = n :=
  h.slots (id, n) (List.mem_singleton_self _)

end FrameLayout.Serves

/-! ### Loops -/

namespace Stmt

mutual

/-- **The loops in a statement that have a condition**: the node of the condition, and that of the
loop. -/
def loops : Stmt → List (NodeId × NodeId)
  | .block _ _ body => loopsOfAll body
  | .ifThen _ _ t => t.loops
  | .ifElse _ _ t e => t.loops ++ e.loops
  | .forLoop site _ c _ body => (c.map fun c => (c.id, site.id)).toList ++ body.loops
  | .evaluation .. | .write .. | .break _ | .continue _ | .return .. => []

/-- The loops in statements that have a condition. -/
def loopsOfAll : List Stmt → List (NodeId × NodeId)
  | [] => []
  | s :: ss => s.loops ++ loopsOfAll ss

end

end Stmt

/-! ### Rooms -/

/-- **The frame of a function, with the declarations that have a place in it.** -/
structure Room where
  /-- The types of the nodes. -/
  types : TypeTable
  /-- The layout of the frame. -/
  frame : FrameLayout
  /-- What names stand for outside of the function. -/
  unit : View Symbol
  /-- The arguments and the local variables, with their offsets. -/
  declared : List (VarDecl × Int)
  /-- The loops that have a condition: the node of the condition, and that of the loop. -/
  loops : List (NodeId × NodeId)

/-- A name stands for what it stands for outside of the function, or for a variable with a place in
it. -/
def Room.Binds (r : Room) (scope : View Symbol) : Prop :=
  ∀ name s, scope name = some s → r.unit name = some s ∨ ∃ p ∈ r.declared,
    ∃ v ∈ p.1.places (r.types.typeOf p.1.id) p.2, v.1 = name ∧ s = Symbol.placed p.1.line v

/-- Code is written for a room. -/
structure Room.Suits (P : Ty → Prop) (r : Room) (cx : Context) : Prop where
  /-- The types are the same. -/
  types : cx.types = r.types
  /-- The frame is the same. -/
  frame : cx.frame = r.frame
  /-- A word is kept for the address where the result goes, if that is a tuple. -/
  result : cx.returnType.isTuple = true → r.frame.returnTempSize = Ty.wordSize
  /-- The type of the result is settled. -/
  settled : P cx.returnType
  /-- No node has two slots. -/
  nodup : (r.frame.slots.map Slot.node).Nodup

theorem Room.Suits.inLoop {P : Ty → Prop} {r : Room} {cx : Context}
    (h : r.Suits P cx) (pt : Point) :
    r.Suits P (cx.inLoop pt) :=
  ⟨h.types, h.frame, h.result, h.settled, h.nodup⟩

namespace Room.Binds

variable {r : Room} {scope : View Symbol}

/-- Names become variables that have a place. -/
theorem place (h : r.Binds scope) {d : VarDecl} {offset : Int} (hd : (d, offset) ∈ r.declared) :
    r.Binds (scope.place d.line (d.places (r.types.typeOf d.id) offset)) := by
  have hplaces : ∀ qs : List (String × Ty × Int),
      (∀ q ∈ qs, q ∈ d.places (r.types.typeOf d.id) offset) →
      ∀ scope, r.Binds scope → r.Binds (scope.place d.line qs) := by
    intro qs
    induction qs with
    | nil => exact fun _ _ h => h
    | cons q qs ih =>
      intro hqs scope hscope
      rw [List.forall_mem_cons] at hqs
      refine ih hqs.2 _ fun name s hs => ?_
      by_cases hname : name = q.1
      · rw [View.bind, if_pos hname] at hs
        cases hs
        exact .inr ⟨(d, offset), hd, q, hqs.1, hname.symm, rfl⟩
      · rw [View.bind_ne _ _ hname] at hs
        exact hscope name s hs
  exact hplaces _ (fun _ hq => hq) scope h

end Room.Binds

/-! ### Expressions -/

/-- **An expression sits in a room**: all that its code depends on is in order. -/
structure Expr.Sits (P : Ty → Prop) (r : Room) (scope : View Symbol) (mode : Mode)
    (e : Expr) : Prop where
  /-- The types of names are settled. -/
  names : View.Settled P scope.meanings
  /-- Names stand for what has a place. -/
  binds : r.Binds scope
  /-- The expression is typed. -/
  typed : e.Typed P r.types scope.meanings
  /-- Everything is where it belongs. -/
  placed : e.WellPlaced
  /-- What is left is what is wanted. -/
  leaves : e.leaves r.types mode = mode
  /-- The frame has what the expression needs. -/
  serves : r.frame.Serves (e.usage r.types mode)

/-- **A piece of the code of a function sits in the room of the function.** -/
def Piece.Sits (P : Ty → Prop) (r : Room) (p : Piece) (inner : Outline) : Prop :=
  match p with
  | .expression mode scope e => e.Sits P r scope mode ∧ ∃ cx n, r.Suits P cx ∧
      e.outline cx scope mode n = .piece (.expression mode scope e) inner
  | .action (.initial id) => (P (r.types.typeOf id) ∧ r.types.typeOf id ≠ .void) ∧
      ∃ q ∈ r.declared, q.1.id = id ∧
      ∃ u, inner.own = storeInstrs (Base.frame q.2).instrs (r.types.typeOf id) u 0
  | .action (.test id) => inner.Quiet ∨ ∃ s ∈ r.frame.slots, (id, s.node) ∈ r.loops ∧
      s.size = Ty.wordSize ∧
      ∃ n, inner.own = keepLast n s.offset
  | .action (.return _) => inner.Quiet ∨ r.frame.returnTempSize = Ty.wordSize ∧
      ∃ t u, (P t ∧ t ≠ .void) ∧ inner.own =
      [.frameAddress argumentsOffset, .loadInt, .frameAddress r.frame.returnTempOffset,
        .storeInt] ++
        storeInstrs (Base.pinned r.frame.returnTempOffset).instrs t u 0 ++ [.leave, .return]
  | .action (.evaluate _) | .action (.print _) | .action (.endLine _) | .function _
  | .statement _ | .branch | .text .. => inner.Quiet

namespace Expr

variable {P : Ty → Prop} {r : Room} {scope : View Symbol} {mode : Mode}

namespace Sits

/-- A part of an expression sits where the expression does. -/
theorem part {e c : Expr} {m : Mode} (h : e.Sits P r scope mode)
    (ht : c.Typed P r.types scope.meanings) (hw : c.WellPlaced) (hl : c.leaves r.types m = m)
    (hs : r.frame.Serves (c.usage r.types m)) :
    c.Sits P r scope m :=
  ⟨h.names, h.binds, ht, hw, hl, hs⟩

theorem pointerIndex {s : Site} {b i : Expr} (h : (pointerIndex s b i).Sits P r scope mode) :
    b.Sits P r scope .value ∧ i.Sits P r scope .value := by
  have hs := h.serves
  rw [usage] at hs
  exact ⟨h.part h.typed.1.1 h.placed.1.2 (leaves_value h.placed.1) hs.left,
    h.part h.typed.1.2 h.placed.2.2 (leaves_value h.placed.2) hs.right⟩

theorem tupleIndex {s : Site} {b : Expr} {i : Int32} (h : (tupleIndex s b i).Sits P r scope mode) :
    b.Sits P r scope .address := by
  have hs := h.serves
  rw [usage] at hs
  obtain ⟨hb, ts, t, ⟨ht, -⟩, -⟩ := h.typed
  exact h.part hb h.placed (leaves_address hb ht) hs

theorem rvalue {s : Site} {p : Expr} (h : (rvalue s p).Sits P r scope mode) :
    p.Sits P r scope .address := by
  have hs := h.serves
  rw [usage] at hs
  exact h.part h.typed.1 h.placed.2 (leaves_of_isPlace h.placed.1 _) hs.right

theorem assignment {s : Site} {p v : Expr} (h : (assignment s p v).Sits P r scope mode) :
    p.Sits P r scope .address ∧ v.Sits P r scope .value := by
  have hs := h.serves
  rw [usage] at hs
  exact ⟨h.part h.typed.1.1 h.placed.1.2 (leaves_of_isPlace h.placed.1.1 _) hs.left,
    h.part h.typed.1.2 h.placed.2.2 (leaves_value h.placed.2) hs.right⟩

theorem unary {s : Site} {op : UnaryOp} {a : Expr} (h : (unary s op a).Sits P r scope mode) :
    a.Sits P r scope .value := by
  have hs := h.serves
  rw [usage] at hs
  exact h.part h.typed.1 h.placed.2 (leaves_value h.placed) hs

theorem binary {s : Site} {op : BinaryOp} {a b : Expr} (h : (binary s op a b).Sits P r scope mode) :
    a.Sits P r scope .value ∧ b.Sits P r scope .value := by
  have hs := h.serves
  rw [usage] at hs
  exact ⟨h.part h.typed.1.1 h.placed.1.2 (leaves_value h.placed.1) hs.left,
    h.part h.typed.1.2 h.placed.2.2 (leaves_value h.placed.2) hs.right⟩

theorem addressOf {s : Site} {p : Expr} (h : (addressOf s p).Sits P r scope mode) :
    p.Sits P r scope .address := by
  have hs := h.serves
  rw [usage] at hs
  exact h.part h.typed.1 h.placed.2 (leaves_of_isPlace h.placed.1 _) hs

theorem stackAlloc {s : Site} {n : Expr} (h : (stackAlloc s n).Sits P r scope mode) :
    n.Sits P r scope .value := by
  have hs := h.serves
  rw [usage] at hs
  exact h.part h.typed.1 h.placed.2 (leaves_value h.placed) hs

theorem tuple_singleton {s : Site} {e : Expr} (h : (tuple s [e]).Sits P r scope mode) :
    e.Sits P r scope mode := by
  have hs := h.serves
  have hl := h.leaves
  rw [usage] at hs
  rw [Expr.leaves] at hl
  exact h.part h.typed.1.1 h.placed.1.2 hl hs

/-- The elements of a tuple, and the arguments of a call, sit one after the other. -/
theorem elements {e : Expr} (h : e.Sits P r scope mode) : ∀ {es : List Expr},
    AllTyped P r.types scope.meanings es → AllValues es → r.frame.Serves (usageOfAll r.types es) →
    ∀ c ∈ es, c.Sits P r scope .value
  | [], _, _, _ => by simp
  | c :: es, ht, hw, hs => by
    rw [usageOfAll] at hs
    exact List.forall_mem_cons.mpr
      ⟨h.part ht.1 hw.1.2 (leaves_value hw.1) hs.left, elements h ht.2 hw.2 hs.right⟩

theorem tuple_plural {s : Site} {a b : Expr} {es : List Expr}
    (h : (tuple s (a :: b :: es)).Sits P r scope mode) :
    ∀ c ∈ a :: b :: es, c.Sits P r scope .value := by
  have hs := h.serves
  rw [usage] at hs
  · exact h.elements h.typed.1 h.placed hs.right
  · simp

theorem call {s : Site} {name : String} {args : List Expr}
    (h : (call s name args).Sits P r scope mode) :
    ∀ c ∈ args, c.Sits P r scope .value := by
  have hs := h.serves
  rw [usage] at hs
  exact h.elements h.typed.1 h.placed hs.right

/-- The slot in which the value of a tuple is looked for. -/
theorem slot_rvalue {s : Site} {p : Expr} {ts : List Ty}
    (h : (Expr.rvalue s p).Sits P r scope .value) (ht : r.types.get? s.id = some (.tuple ts)) :
    ∃ slot ∈ r.frame.slots, slot.node = s.id ∧ slot.size = Ty.wordSize := by
  have hs := h.serves
  rw [usage, ownCharge, TypeTable.typeOf_eq ht] at hs
  exact hs.left.slot

/-- The slot in which a tuple is built. -/
theorem slot_tuple {s : Site} {a b : Expr} {es : List Expr} {ts : List Ty}
    (h : (tuple s (a :: b :: es)).Sits P r scope .address)
    (ht : r.types.get? s.id = some (.tuple ts)) :
    ∃ slot ∈ r.frame.slots, slot.node = s.id ∧ slot.size = (Ty.tuple ts).size := by
  have hs := h.serves
  rw [usage, ownCharge, TypeTable.typeOf_eq ht] at hs
  · exact hs.left.slot
  · simp

end Sits

variable {cx : Context}

/-- An expression that sits is a piece that does. -/
theorem all_piece (hcx : r.Suits P cx) {e : Expr} (h : e.Sits P r scope mode) {n : Nat}
    {inner : Outline} (heq : e.outline cx scope mode n = .piece (.expression mode scope e) inner)
    (hinner : inner.All (Piece.Sits P r)) : (e.outline cx scope mode n).All (Piece.Sits P r) := by
  rw [heq]
  exact .piece ⟨h, cx, n, hcx, heq⟩ hinner

mutual

/-- **All pieces of an expression sit where it sits.** -/
theorem all_sit (hcx : r.Suits P cx) : ∀ {e : Expr} {mode : Mode} (n : Nat), e.Sits P r scope mode →
    (e.outline cx scope mode n).All (Piece.Sits P r)
  | .integer .., mode, n, h | .double .., mode, n, h | .nullptr _, mode, n, h
  | .sizeof .., mode, n, h | .input _, mode, n, h
  | .variable .., mode, n, h => all_piece hcx h (by rw [outline]) (.ofCode _)
  | .string s x, mode, n, h => by
    refine all_piece hcx h (by rw [outline]) (.piece ?_ (.ofCode _))
    simp [Piece.Sits, Outline.Quiet, textInstrs]
  | .pointerIndex s b i, mode, n, h => by
    refine all_piece hcx h (by rw [outline]) ?_
    exact ((all_sit hcx _ h.pointerIndex.1).append (all_sit hcx _ h.pointerIndex.2)).append
      (.ofCode _)
  | .tupleIndex s b i, mode, n, h => by
    refine all_piece hcx h (by rw [outline]) ?_
    exact (all_sit hcx _ h.tupleIndex).append (.ofCode _)
  | .rvalue s p, mode, n, h => by
    refine all_piece hcx h (by rw [outline]) ?_
    exact (all_sit hcx _ h.rvalue).append (.ofCode _)
  | .assignment s p v, mode, n, h => by
    refine all_piece hcx h (by rw [outline]) ?_
    exact ((((all_sit hcx _ h.assignment.2).append (.ofCode _)).append (.ofCode _)).append
      (all_sit hcx _ h.assignment.1)).append (.ofCode _)
  | .unary s op a, mode, n, h => by
    refine all_piece hcx h (by rw [outline]) ?_
    exact (all_sit hcx _ h.unary).append (.ofCode _)
  | .binary s op a b, mode, n, h => by
    refine all_piece hcx h (by rw [outline]) ?_
    dsimp only
    have ha := fun k => all_sit hcx k h.binary.1
    have hb := fun k => all_sit hcx k h.binary.2
    split
    · exact (((ha _).append (.ofCode _)).append (hb _)).append (.ofCode _)
    · exact ((ha _).append (hb _)).append (.ofCode _)
    · exact ((((ha _).append (.ofCode _)).append (hb _)).append (.ofCode _)).append (.ofCode _)
    · exact ((((ha _).append (.ofCode _)).append (hb _)).append (.ofCode _)).append (.ofCode _)
  | .addressOf s p, mode, n, h => all_piece hcx h (by rw [outline]) (all_sit hcx _ h.addressOf)
  | .stackAlloc s c, mode, n, h => by
    refine all_piece hcx h (by rw [outline]) ?_
    exact (all_sit hcx _ h.stackAlloc).append (.ofCode _)
  | .tuple s [e], mode, n, h => all_piece hcx h (by rw [outline]) (all_sit hcx _ h.tuple_singleton)
  | .tuple s [], mode, n, h => by
    obtain ⟨-, ts, hne, hall, -⟩ := h.typed
    cases hall
    exact absurd rfl hne
  | .tuple s (a :: b :: es), .value, n, h => by
    refine all_piece hcx h (by rw [outline]; simp) ?_
    exact all_sit_reverse hcx (a :: b :: es) _ h.tuple_plural
  | .tuple s (a :: b :: es), .address, n, h => by
    refine all_piece hcx h (by rw [outline]; simp) ?_
    exact (all_sit_slot hcx (a :: b :: es) _ _ _ _ h.tuple_plural).append (.ofCode _)
  | .call s name args, mode, n, h => by
    refine all_piece hcx h (by rw [outline]) ?_
    exact (all_sit_arguments hcx args _ _ h.call).append (.ofCode _)

theorem all_sit_slot (hcx : r.Suits P cx) :
    ∀ (es : List Expr) (slot : Int) (n : Nat) (targets : List Ty) (byte : Nat),
    (∀ e ∈ es, e.Sits P r scope .value) →
    (slotOutline cx scope slot n es targets byte).All (Piece.Sits P r)
  | [], _, _, _, _, _ | _ :: _, _, _, [], _, _ => by
    rw [slotOutline] <;> simp [Outline.All]
  | e :: es, slot, n, _ :: ts, byte, h => by
    rw [List.forall_mem_cons] at h
    rw [slotOutline]
    exact ((all_sit hcx _ h.1).append (.ofCode _)).append (all_sit_slot hcx es slot _ ts _ h.2)

theorem all_sit_reverse (hcx : r.Suits P cx) :
    ∀ (es : List Expr) (n : Nat), (∀ e ∈ es, e.Sits P r scope .value) →
    (reverseOutline cx scope n es).All (Piece.Sits P r)
  | [], _, _ => by
    rw [reverseOutline]
    trivial
  | e :: es, n, h => by
    rw [List.forall_mem_cons] at h
    rw [reverseOutline]
    exact (all_sit_reverse hcx es n h.2).append (all_sit hcx _ h.1)

theorem all_sit_arguments (hcx : r.Suits P cx) : ∀ (es : List Expr) (n : Nat) (ps : List Ty),
    (∀ e ∈ es, e.Sits P r scope .value) → (argumentsOutline cx scope n es ps).All (Piece.Sits P r)
  | [], _, _, _ | _ :: _, _, [], _ => by
    rw [argumentsOutline] <;> simp [Outline.All]
  | e :: es, n, _ :: ps, h => by
    rw [List.forall_mem_cons] at h
    rw [argumentsOutline]
    exact ((all_sit_arguments hcx es n ps h.2).append (all_sit hcx _ h.1)).append (.ofCode _)

end

end Expr

/-! ### Statements -/

section Statements

variable {P : Ty → Prop} {r : Room} {cx : Context} {pt : Point} {inLoop : Bool} {n : Nat}

/-- **A place is in a room**: the types of names are settled, and names stand for what has a
place. -/
structure Point.Sits (P : Ty → Prop) (r : Room) (pt : Point) : Prop where
  /-- The types of names are settled. -/
  names : View.Settled P pt.scope.meanings
  /-- Names stand for what has a place. -/
  binds : r.Binds pt.scope

/-- An expression whose value is wanted sits at a place. -/
theorem Point.Sits.value (h : pt.Sits P r) {e : Expr} (ht : e.Typed P r.types pt.scope.meanings)
    (hw : e.IsValue) (hs : r.frame.Serves (e.usage r.types .value)) : e.Sits P r pt.scope .value :=
  ⟨h.names, h.binds, ht, hw.2, Expr.leaves_value hw, hs⟩

/-- What is done with the value of an expression sits in a room. -/
theorem Expr.all_sit_action (hcx : r.Suits P cx) {a : Action} {e : Expr} {scope : View Symbol}
    {is : List Instr} (he : e.Sits P r scope .value)
    (ha : ∀ inner : Outline, inner.own = is → Piece.Sits P r (.action a) inner) :
    (Outline.piece (.action a) (e.outline cx scope .value n ++ .ofCode is)).All
      (Piece.Sits P r) := by
  refine .piece (ha _ ?_) ((all_sit hcx n he).append (.ofCode is))
  rw [Outline.own_append, own_outline, Outline.own_ofCode, List.nil_append]

theorem Outline.quiet_of_own {o : Outline} {is : List Instr} (h : o.own = is)
    (his : ∀ offset, Instr.frameAddress offset ∉ is) : o.Quiet :=
  fun offset => h ▸ his offset

theorem Emission.frameAddress_not_mem_trash (k : Nat) (offset : Int) :
    Instr.frameAddress offset ∉ trashInstrs k := by
  unfold trashInstrs
  split <;> simp

namespace VarDecl

/-- Behind a declaration its variables have a place. -/
theorem sits_after (hP : Ty.Stable P) (hpt : pt.Sits P r) {d : VarDecl}
    (ht : d.Typed P r.types pt.scope.meanings)
    (hd : (d, pt.cursor - (r.types.typeOf d.id).size) ∈ r.declared) :
    (d.after r.types pt).Sits P r :=
  ⟨meanings_after ht pt ▸ ht.settled hP hpt.names, hpt.binds.place hd⟩

theorem all_sit (hcx : r.Suits P cx) (hpt : pt.Sits P r) {d : VarDecl}
    (ht : d.Typed P r.types pt.scope.meanings) (hw : d.WellPlaced)
    (hd : (d, pt.cursor - (r.types.typeOf d.id).size) ∈ r.declared)
    (hs : r.frame.Serves (d.usage r.types)) : (d.outline cx pt).All (Piece.Sits P r) := by
  obtain ⟨t, ⟨ht, hp⟩, hv, -, hinit⟩ := ht
  have hplaced := hw.2
  have htype : r.types.typeOf d.id = t := TypeTable.typeOf_eq ht
  unfold outline
  rw [usage] at hs
  split
  · trivial
  · rename_i e he
    rw [he] at hplaced hs
    rw [hcx.types]
    exact Expr.all_sit_action hcx (hpt.value (hinit e he).1 hplaced hs.right)
      fun inner hinner => ⟨by rw [htype]; exact ⟨hp, hv⟩, _, hd, rfl, _, hinner⟩

theorem all_sit_outlineAll (hP : Ty.Stable P) (hcx : r.Suits P cx) {ds : List VarDecl}
    (hpt : pt.Sits P r) (ht : AllTyped P r.types pt.scope.meanings ds) (hw : ∀ d ∈ ds, d.WellPlaced)
    (hd : ∀ q ∈ declared r.types pt.cursor ds, q ∈ r.declared)
    (hs : r.frame.Serves (usageOfAll r.types ds)) :
    (outlineAll cx pt ds).All (Piece.Sits P r) ∧ (afterAll r.types pt ds).Sits P r := by
  induction ds generalizing pt with
  | nil => exact ⟨trivial, hpt⟩
  | cons d ds ih =>
    rw [declared, List.forall_mem_cons] at hd
    rw [List.forall_mem_cons] at hw
    rw [usageOfAll] at hs
    obtain ⟨hrest, hafter⟩ :=
      ih (sits_after hP hpt ht.1 hd.1) (meanings_after ht.1 pt ▸ ht.2) hw.2 hd.2 hs.right
    rw [outlineAll, hcx.types]
    exact ⟨(all_sit hcx hpt ht.1 hw.1 hd.1 hs.left).append hrest, hafter⟩

end VarDecl

namespace Expr

theorem all_sit_effect (hcx : r.Suits P cx) {e : Expr} (he : e.Sits P r pt.scope .value) :
    (e.effectOutline cx pt).All (Piece.Sits P r) :=
  all_sit_action hcx he fun _ hinner => Outline.quiet_of_own hinner (frameAddress_not_mem_trash _)

theorem all_sit_effects (hcx : r.Suits P cx) (pt : Point) {es : List Expr}
    (h : ∀ e ∈ es, e.Sits P r pt.scope .value) :
    (effectOutlineOfAll cx pt es).All (Piece.Sits P r) := by
  induction es generalizing pt with
  | nil => trivial
  | cons e es ih =>
    rw [List.forall_mem_cons] at h
    exact (all_sit_effect hcx h.1).append (ih (pt.move 0 e.labelCount) h.2)

theorem all_sit_print (hcx : r.Suits P cx) {es : List Expr}
    (h : ∀ e ∈ es, e.Sits P r pt.scope .value) :
    (printOutline cx pt es).All (Piece.Sits P r) := by
  induction es generalizing pt with
  | nil => trivial
  | cons e es ih =>
    rw [List.forall_mem_cons] at h
    refine (all_sit_action (a := .print e.id) hcx h.1 fun _ hinner =>
      Outline.quiet_of_own hinner fun offset hmem => ?_).append (ih h.2)
    obtain ⟨t, -, ht⟩ := List.mem_flatMap.mp hmem
    rcases List.mem_cons.mp ht with ht | ht
    · cases ht
    · exact frameAddress_not_mem_trash _ _ ht

theorem all_sit_test (hcx : r.Suits P cx) (pt : Point) {c : Expr} {keep : List Instr}
    {otherwise : String} (hc : c.Sits P r pt.scope .value)
    (hkeep : keep = [] ∨
      ∃ s ∈ r.frame.slots, (c.id, s.node) ∈ r.loops ∧ s.size = Ty.wordSize ∧
      ∃ k, keep = keepLast k s.offset) :
    (c.testOutline cx pt keep otherwise).All (Piece.Sits P r) := by
  refine (all_sit_action hcx hc fun inner hinner => ?_).append (.piece ?_ (.ofCode _))
  · subst hinner
    refine hkeep.imp_left fun hnil => Outline.quiet_of_own hnil fun offset => ?_
    exact List.not_mem_nil
  · exact Outline.quiet_of_own (Outline.own_ofCode _) (by simp)

/-- Several expressions whose values are wanted sit at a place. -/
theorem sit_values (hpt : pt.Sits P r) :
    ∀ {es : List Expr}, (∀ e ∈ es, e.Typed P r.types pt.scope.meanings) →
    AllValues es → r.frame.Serves (usageOfAll r.types es) → ∀ e ∈ es, e.Sits P r pt.scope .value
  | [], _, _, _ => by simp
  | e :: es, ht, hw, hs => by
    rw [List.forall_mem_cons] at ht
    rw [usageOfAll] at hs
    exact List.forall_mem_cons.mpr ⟨hpt.value ht.1 hw.1 hs.left, sit_values hpt ht.2 hw.2 hs.right⟩

end Expr

namespace LoopInit

theorem all_sit_outlineAll (hP : Ty.Stable P) (hcx : r.Suits P cx) {is : List LoopInit}
    (hpt : pt.Sits P r) (ht : AllTyped P r.types pt.scope.meanings is) (hw : ∀ i ∈ is, i.WellPlaced)
    (hd : ∀ q ∈ declared r.types pt.cursor is, q ∈ r.declared)
    (hs : r.frame.Serves (usageOfAll r.types is)) :
    (outlineAll cx pt is).All (Piece.Sits P r) ∧ (afterAll r.types pt is).Sits P r := by
  induction is generalizing pt with
  | nil => exact ⟨trivial, hpt⟩
  | cons i is ih =>
    rw [List.forall_mem_cons] at hw
    rw [usageOfAll] at hs
    rw [outlineAll, hcx.types]
    cases i with
    | declare d =>
      rw [declared, List.forall_mem_cons] at hd
      obtain ⟨hrest, hafter⟩ := ih (VarDecl.sits_after hP hpt ht.1 hd.1)
        (VarDecl.meanings_after ht.1 pt ▸ ht.2) hw.2 hd.2 hs.right
      exact ⟨(VarDecl.all_sit hcx hpt ht.1 hw.1 hd.1 hs.left).append hrest, hafter⟩
    | evaluate e =>
      obtain ⟨⟨t, hte⟩, hrest⟩ := ht
      have hcursor : pt.cursor - (0 : Nat) = pt.cursor := Int.sub_zero _
      have hmove : (pt.move 0 e.labelCount).Sits P r := ⟨hpt.names, hpt.binds⟩
      obtain ⟨hrest, hafter⟩ := ih hmove hrest hw.2 (by rw [Point.move, hcursor]; exact hd) hs.right
      exact ⟨(Expr.all_sit_effect hcx (hpt.value hte.1 hw.1 hs.left)).append hrest, hafter⟩

end LoopInit

namespace Stmt

/-- **A statement sits in a room**: it stands at a place in it, and the frame has what it needs. -/
structure Sits (P : Ty → Prop) (r : Room) (cx : Context) (pt : Point) (inLoop : Bool)
    (st : Stmt) : Prop where
  /-- The statement stands at the place. -/
  stands : st.Stands P cx pt inLoop
  /-- Names stand for what has a place. -/
  binds : r.Binds pt.scope
  /-- What the statement declares has a place. -/
  declared : ∀ q ∈ st.declared r.types pt.cursor, q ∈ r.declared
  /-- The loops in the statement are known. -/
  loops : ∀ q ∈ st.loops, q ∈ r.loops
  /-- The frame has what the statement needs. -/
  serves : r.frame.Serves (st.usage r.types)

/-- Statements sit in a room one after the other. -/
structure AllSit (P : Ty → Prop) (r : Room) (cx : Context) (pt : Point) (inLoop : Bool)
    (ss : List Stmt) : Prop where
  /-- The statements stand at the place. -/
  stand : AllStand P cx pt inLoop ss
  /-- Names stand for what has a place. -/
  binds : r.Binds pt.scope
  /-- What the statements declare has a place. -/
  declared : ∀ q ∈ declaredInAll r.types pt.cursor ss, q ∈ r.declared
  /-- The loops in the statements are known. -/
  loops : ∀ q ∈ loopsOfAll ss, q ∈ r.loops
  /-- The frame has what the statements need. -/
  serves : r.frame.Serves (usageOfAll r.types ss)

theorem Sits.point {st : Stmt} (h : st.Sits P r cx pt inLoop) : pt.Sits P r :=
  ⟨h.stands.names, h.binds⟩

/-- What a function does to return a value sits in its room. -/
theorem all_sit_return (hcx : r.Suits P cx) {v : Expr} (hv : v.Sits P r pt.scope .value)
    (id : NodeId) :
    (leaveOutline id (returnOutline cx pt v)).All (Piece.Sits P r) := by
  have hall := Expr.all_sit hcx pt.labels hv
  unfold returnOutline
  split
  · rename_i ts hreturn
    refine .piece (.inr ⟨hcx.result (by rw [hreturn]; rfl), .tuple ts, v.type cx.types,
      ⟨hreturn ▸ hcx.settled, by simp⟩, ?_⟩)
      ((((Outline.All.ofCode _).append hall).append (.ofCode _)).append (.ofCode _))
    simp [hcx.frame]
  · refine .piece (.inl (Outline.quiet_of_own rfl fun offset => ?_))
      ((hall.append (.ofCode _)).append (.ofCode _))
    by_cases hint : v.type cx.types = .int <;> simp [hint]
  · exact .piece (.inl (by simp [Outline.Quiet])) ((hall.append (.ofCode _)).append (.ofCode _))

/-- The body of a block sits behind its declarations. -/
theorem Sits.block (hP : Ty.Stable P) (hcx : r.Suits P cx) {site : Site} {ds : List VarDecl}
    {body : List Stmt} (h : (Stmt.block site ds body).Sits P r cx pt inLoop) :
    (VarDecl.outlineAll cx pt ds).All (Piece.Sits P r) ∧
      AllSit P r cx (VarDecl.afterAll cx.types pt ds) inLoop body := by
  obtain ⟨hds, hwds, hbody⟩ := h.stands.block hP
  have hdeclared := h.declared
  have hserves := h.serves
  rw [Stmt.declared, List.forall_mem_append] at hdeclared
  rw [usage] at hserves
  rw [hcx.types] at hds hbody ⊢
  obtain ⟨hall, hafter⟩ :=
    VarDecl.all_sit_outlineAll hP hcx h.point hds hwds hdeclared.1 hserves.left
  refine ⟨hall, hbody, hafter.binds, ?_, h.loops, hserves.right⟩
  rw [VarDecl.afterAll_eq]
  exact hdeclared.2

theorem Sits.ifThen (hcx : r.Suits P cx) {site : Site} {c : Expr} {t : Stmt}
    (h : (Stmt.ifThen site c t).Sits P r cx pt inLoop) :
    c.Sits P r pt.scope .value ∧ t.Sits P r cx (pt.move 0 (1 + c.labelCount)) inLoop := by
  obtain ⟨hc, hwc, ht⟩ := h.stands.ifThen
  have hserves := h.serves
  rw [usage] at hserves
  rw [hcx.types] at hc
  refine ⟨h.point.value hc.1 hwc hserves.left, ht.move _ _, h.binds, ?_, h.loops, hserves.right⟩
  rw [Point.move, Int.natCast_zero, Int.sub_zero]
  exact h.declared

theorem Sits.ifElse (hcx : r.Suits P cx) {site : Site} {c : Expr} {t e : Stmt}
    (h : (Stmt.ifElse site c t e).Sits P r cx pt inLoop) :
    c.Sits P r pt.scope .value ∧ t.Sits P r cx (pt.move 0 (2 + c.labelCount)) inLoop ∧
      e.Sits P r cx
        (pt.move (t.usage cx.types).locals (2 + c.labelCount + t.labelCount)) inLoop := by
  obtain ⟨hc, hwc, ht, he⟩ := h.stands.ifElse
  have hserves := h.serves
  have hdeclared := h.declared
  have hloops := h.loops
  rw [usage] at hserves
  rw [Stmt.declared, List.forall_mem_append] at hdeclared
  rw [Stmt.loops, List.forall_mem_append] at hloops
  rw [hcx.types] at hc ⊢
  refine ⟨h.point.value hc.1 hwc hserves.left.left,
    ⟨ht.move _ _, h.binds, ?_, hloops.1, hserves.left.right⟩,
    he.move _ _, h.binds, hdeclared.2, hloops.2, hserves.right⟩
  rw [Point.move, Int.natCast_zero, Int.sub_zero]
  exact hdeclared.1

/-- The body of a loop, and what is done in a round, sits behind what the loop does before its first
round. -/
theorem Sits.forLoop (hP : Ty.Stable P) (hcx : r.Suits P cx) {site : Site} {inits : List LoopInit}
    {c : Option Expr} {incs : List Expr} {body : Stmt}
    (h : (Stmt.forLoop site inits c incs body).Sits P r cx pt inLoop) :
    (LoopInit.outlineAll cx pt inits).All (Piece.Sits P r) ∧
    (LoopInit.afterAll cx.types pt inits).Sits P r ∧
      Round P cx (LoopInit.afterAll cx.types pt inits) c incs body ∧
      body.Sits P r (cx.inLoop (LoopInit.afterAll cx.types pt inits))
        ((LoopInit.afterAll cx.types pt inits).move 0 (3 + Expr.labelCountOfOption c)) true := by
  obtain ⟨hinits, hwinits, hround⟩ := h.stands.forLoop hP
  have hserves := h.serves
  have hdeclared := h.declared
  have hloops := h.loops
  rw [usage] at hserves
  rw [Stmt.declared, List.forall_mem_append] at hdeclared
  rw [Stmt.loops, List.forall_mem_append] at hloops
  rw [hcx.types] at hinits hround ⊢
  obtain ⟨hall, hafter⟩ :=
    LoopInit.all_sit_outlineAll hP hcx h.point hinits hwinits hdeclared.1
      hserves.left.left.left.left
  refine ⟨hall, hafter, hround, hround.body.move _ _, hafter.binds, ?_, hloops.2, hserves.right⟩
  rw [Point.move, Int.natCast_zero, Int.sub_zero, LoopInit.afterAll_eq]
  exact hdeclared.2

/-- The values that are written sit where the statement does. -/
theorem Sits.write (hcx : r.Suits P cx) {site : Site} {args : List Expr} {newline : Bool}
    (h : (Stmt.write site args newline).Sits P r cx pt inLoop) :
    ∀ e ∈ args, e.Sits P r pt.scope .value := by
  have htyped := h.stands.typed
  rw [hcx.types] at htyped
  exact Expr.sit_values h.point (fun e he => (htyped e he).choose_spec.1.1) h.stands.placed h.serves

/-- The first of several statements sits where they do, and the others behind it. -/
theorem AllSit.cons (hcx : r.Suits P cx) {st : Stmt} {ss : List Stmt}
    (h : AllSit P r cx pt inLoop (st :: ss)) :
    st.Sits P r cx pt inLoop ∧
    AllSit P r cx (pt.move (st.usage cx.types).locals st.labelCount) inLoop ss := by
  obtain ⟨hst, hss⟩ := h.stand.cons
  have hserves := h.serves
  have hdeclared := h.declared
  have hloops := h.loops
  rw [usageOfAll] at hserves
  rw [declaredInAll, List.forall_mem_append] at hdeclared
  rw [loopsOfAll, List.forall_mem_append] at hloops
  rw [hcx.types]
  exact ⟨⟨hst, h.binds, hdeclared.1, hloops.1, hserves.left⟩,
    hss _ _, h.binds, hdeclared.2, hloops.2, hserves.right⟩

mutual

/-- **All pieces of a statement sit where it sits.** -/
theorem all_sit (hP : Ty.Stable P) :
    ∀ {st : Stmt} {cx : Context} {pt : Point} {inLoop : Bool}, r.Suits P cx →
    st.Sits P r cx pt inLoop → (st.outline cx pt).All (Piece.Sits P r)
  | .block _ ds body, cx, pt, inLoop, hcx, h => by
    obtain ⟨hall, hbody⟩ := h.block hP hcx
    rw [outline]
    exact .piece (by simp [Piece.Sits, Outline.Quiet])
      (hall.append (all_sit_outlineAll hP hcx hbody))
  | .evaluation _ e, cx, pt, inLoop, hcx, h => by
    have htyped := h.stands.typed
    have hserves := h.serves
    rw [hcx.types] at htyped
    obtain ⟨t, ht⟩ := htyped
    rw [outline]
    exact .piece (by simp [Piece.Sits, Outline.Quiet])
      (Expr.all_sit_effect hcx (h.point.value ht.1 h.stands.placed hserves))
  | .write site args newline, cx, pt, inLoop, hcx, h => by
    rw [outline]
    refine .piece ?_ ((Expr.all_sit_print hcx (h.write hcx)).append ?_)
    · cases newline <;> simp [Piece.Sits, Outline.Quiet]
    · split
      · exact .piece (by simp [Piece.Sits, Outline.Quiet]) (.ofCode _)
      · trivial
  | .ifThen _ c t, cx, pt, inLoop, hcx, h => by
    obtain ⟨hc, ht⟩ := h.ifThen hcx
    rw [outline]
    exact .piece (by simp [Piece.Sits, Outline.Quiet])
      (((Expr.all_sit_test hcx (pt.move 0 1) hc (.inl rfl)).append (all_sit hP hcx ht)).append
        (.ofCode _))
  | .ifElse _ c t e, cx, pt, inLoop, hcx, h => by
    obtain ⟨hc, ht, he⟩ := h.ifElse hcx
    rw [outline]
    exact .piece (by simp [Piece.Sits, Outline.Quiet])
      (((((Expr.all_sit_test hcx (pt.move 0 2) hc (.inl rfl)).append (all_sit hP hcx ht)).append
        (.ofCode _)).append (all_sit hP hcx he)).append (.ofCode _))
  | .forLoop site inits c incs body, cx, pt, inLoop, hcx, h => by
    obtain ⟨hall, hafter, hround, hbody⟩ := h.forLoop hP hcx
    have hserves := h.serves
    have hloops := h.loops
    rw [usage] at hserves
    rw [loops, List.forall_mem_append] at hloops
    have hincs := Expr.sit_values hafter (fun e he => by
      obtain ⟨t, ht⟩ := hround.increments e he
      rw [← hcx.types]
      exact ht.1) hround.incrementValues hserves.left.right
    have hloop := hcx.inLoop (LoopInit.afterAll cx.types pt inits)
    rw [outline]
    refine .piece (by simp [Piece.Sits, Outline.Quiet])
      ((((((hall.append (.ofCode _)).append ?_).append
      (all_sit hP hloop hbody)).append (.ofCode _)).append (Expr.all_sit_effects hcx
        ((Point.move _ _ _).move _ _) hincs)).append (.ofCode _))
    cases c with
    | none => trivial
    | some c =>
      obtain ⟨t, ht, -⟩ := hround.condition c rfl
      have htyped : c.Typed P r.types (LoopInit.afterAll cx.types pt inits).scope.meanings := by
        rw [← hcx.types]
        exact ht.1
      have hcserves := hserves.left.left.left.right
      refine Expr.all_sit_test hcx (Point.move _ 0 3)
        (hafter.value htyped hround.conditionValue hcserves) ?_
      unfold keepInstrs
      rw [hcx.types]
      by_cases htuple : (c.type r.types).isTuple = true
      · have hslot := hserves.left.left.right
        rw [loopCharge, if_pos htuple] at hslot
        obtain ⟨s, hs, hnode, hsize⟩ := hslot.slot
        have hloop : (c.id, s.node) ∈ r.loops :=
          hloops.1 _ (by rw [hnode]; exact List.mem_singleton_self _)
        refine .inr ⟨s, hs, hloop, hsize, (c.type r.types).size, ?_⟩
        rw [if_pos htuple, ← hnode, hcx.frame, FrameLayout.slotAt_eq hcx.nodup hs]
      · exact .inl (if_neg htuple)
  | .break _, cx, pt, inLoop, hcx, h | .continue _, cx, pt, inLoop, hcx, h => by
    rw [outline]
    exact .piece (by simp [Piece.Sits, Outline.Quiet]) (.ofCode _)
  | .return site none, cx, pt, inLoop, hcx, h => by
    rw [outline]
    exact .piece (by simp [Piece.Sits, Outline.Quiet])
      (.piece (.inl (by simp [Outline.Quiet])) (.append trivial (.ofCode _)))
  | .return site (some v), cx, pt, inLoop, hcx, h => by
    have htyped := h.stands.typed
    rw [hcx.types] at htyped
    obtain ⟨t, ht, -⟩ := htyped v rfl
    rw [outline]
    exact .piece (by simp [Piece.Sits, Outline.Quiet])
      (all_sit_return hcx (h.point.value ht.1 h.stands.placed h.serves) site.id)

/-- As `all_sit`, for several statements. -/
theorem all_sit_outlineAll (hP : Ty.Stable P) :
    ∀ {ss : List Stmt} {cx : Context} {pt : Point} {inLoop : Bool},
    r.Suits P cx → AllSit P r cx pt inLoop ss → (outlineAll cx pt ss).All (Piece.Sits P r)
  | [], _, _, _, _, _ => by
    rw [outlineAll]
    trivial
  | st :: ss, cx, pt, inLoop, hcx, h => by
    obtain ⟨hst, hss⟩ := h.cons hcx
    rw [outlineAll]
    exact (all_sit hP hcx hst).append (all_sit_outlineAll hP hcx hss)

end

end Stmt

end Statements

/-! ### Functions -/

section Functions

variable {P : Ty → Prop} {T : TypeTable} {scope : View Symbol} {f : Function} {R : Ty}

/-- Arguments have the places that they are counted to have. -/
theorem VarDecl.binds_argumentScope {r : Room} {v : View Symbol} (hv : r.Binds v) {offset : Int}
    {ds : List VarDecl} (hds : ∀ d ∈ ds, d.TypedArgument P r.types)
    (hd : ∀ q ∈ arguments r.types offset ds, q ∈ r.declared) :
    r.Binds (argumentScope r.types v offset ds) := by
  induction ds generalizing v offset with
  | nil => exact hv
  | cons d ds ih =>
    rw [arguments, List.forall_mem_cons] at hd
    rw [List.forall_mem_cons] at hds
    refine ih ?_ hds.2 hd.2
    obtain ⟨name, hname⟩ := List.length_eq_one_iff.mp hds.1.1
    have hplace := hv.place hd.1
    unfold places at hplace
    rw [hname] at hplace ⊢
    exact hplace

/-- The room of a function. -/
def Function.room (T : TypeTable) (scope : View Symbol) (f : Function) : Room :=
  ⟨T, f.frame T, scope, f.arguments T ++ f.locals T, f.body.stmt.loops⟩

/-- The code of a function is written for its room. -/
theorem Function.suits (config : Config) (h : f.Typed P T scope.meanings R) (hf : f.ids.Nodup) :
    (f.room T scope).Suits P (f.context T config) := by
  refine ⟨rfl, rfl, fun htuple => if_pos htuple, ?_, nodup_slots hf⟩
  rw [context, TypeTable.typeOf_eq h.result.1]
  exact h.result.2.2

/-- The frame of a function serves its body. -/
theorem Function.serves (hf : f.ids.Nodup) : (f.frame T).Serves (f.body.stmt.usage T) := by
  refine ⟨fun c hc => FrameLayout.exists_slot hc, Nat.le_refl _, ?_⟩
  rw [← map_slots_frame]
  exact nodup_slots hf

/-- The body of a typed function sits in its room. -/
theorem Function.sits (hP : Ty.Stable P) {config : Config} {n : Nat}
    (hΓ : View.Settled P scope.meanings) (h : f.Typed P T scope.meanings R) (hw : f.WellPlaced)
    (hf : f.ids.Nodup) :
    f.body.stmt.Sits P (f.room T scope) (f.context T config) (f.entry T scope n) false := by
  refine ⟨stands hP hΓ h hw, ?_, fun q hq => List.mem_append_right _ hq, fun _ hq => hq, serves hf⟩
  refine VarDecl.binds_argumentScope (r := f.room T scope)
    (fun name s hs => .inl hs) h.arguments fun q hq => ?_
  exact List.mem_append_left _ hq

/-- **All pieces of a typed function sit in its room.** -/
theorem Function.all_sit (hP : Ty.Stable P) (config : Config) (n : Nat)
    (hΓ : View.Settled P scope.meanings) (h : f.Typed P T scope.meanings R) (hw : f.WellPlaced)
    (hf : f.ids.Nodup) :
    (f.outline T config scope n).All (Piece.Sits P (f.room T scope)) := by
  have hbody := Stmt.all_sit hP (suits config h hf) (sits hP (n := n) hΓ h hw hf)
  refine .piece (Outline.quiet_of_own rfl fun offset => ?_)
    (((Outline.All.ofCode _).append hbody).append ?_)
  · unfold tail head
    split <;> split <;> simp
  · unfold tail
    split
    · exact .piece (.inl (by simp [Outline.Quiet])) (.append trivial (.ofCode _))
    · trivial

end Functions

end PostfixCompiler
