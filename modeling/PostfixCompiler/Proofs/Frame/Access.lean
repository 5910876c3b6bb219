import PostfixCompiler.Proofs.Frame.Room
import PostfixCompiler.Proofs.Machine.UnitHeight

/-!
# Accesses to a frame

An access to a frame is a frame address that is pushed right in front of the instruction that uses
it. Each piece of the code of a function makes its accesses inside the area that is for it: a tuple
that is built stays in its slot, an initial value in the bytes of its declaration, and the result of
a call in the area for results. With the areas of a frame apart from each other, nothing that a
function keeps is overwritten by something else that it keeps.

## Main definitions

* `PostfixCompiler.Emission.accesses`: the accesses in some code.
* `PostfixCompiler.Piece.Owns`: what the areas are for that a piece may access.
* `PostfixCompiler.Function.KeepsFrame`: the areas of a function fill its frame, and each access is
  inside the area that is for it.

## Main statements

* `PostfixCompiler.Emission.keeps_store`, `PostfixCompiler.Emission.keeps_load`: a value is moved
  within its bytes.
* `PostfixCompiler.Piece.Sits.covers`: a piece that sits in a room stays in its area.
* `PostfixCompiler.frame_kept`: every function of an accepted unit keeps its frame.
-/

namespace PostfixCompiler

open Emission

namespace Emission

/-! ### Accesses -/

/-- The bytes that an instruction moves from or to an address. -/
def width? : Instr → Option Nat
  | .loadInt | .storeInt => some Ty.wordSize
  | .loadDouble | .storeDouble => some Ty.doubleSize
  | _ => none

/-- **The accesses in some code at frame addresses**: the offset, and the bytes that are moved. -/
def accesses : List Instr → List (Int × Nat)
  | .frameAddress offset :: x :: rest => ((width? x).map (offset, ·)).toList ++ accesses (x :: rest)
  | _ :: rest => accesses rest
  | [] => []

/-- Every access in some code is as `Q` says, and none is begun at its end. -/
def Keeps (Q : Int → Nat → Prop) (is : List Instr) : Prop :=
  (∀ q ∈ accesses is, Q q.1 q.2) ∧ ∀ offset, is.getLast? ≠ some (.frameAddress offset)

theorem accesses_cons {i : Instr} (h : ∀ offset, i ≠ .frameAddress offset) (is : List Instr) :
    accesses (i :: is) = accesses is := by
  cases i with
  | frameAddress offset => exact absurd rfl (h offset)
  | _ => rfl

/-- No access is begun where one list ends and another starts. -/
theorem accesses_append {is : List Instr} (h : ∀ offset, is.getLast? ≠ some (.frameAddress offset))
    (js : List Instr) :
    accesses (is ++ js) = accesses is ++ accesses js := by
  induction is with
  | nil => rfl
  | cons i is ih =>
    cases is with
    | nil =>
      have hi : ∀ offset, i ≠ .frameAddress offset := fun offset heq => h offset (by rw [heq]; rfl)
      rw [List.singleton_append, accesses_cons hi, accesses_cons hi]
      rfl
    | cons x is =>
      have hrest := ih fun offset => by
        have := h offset
        rwa [List.getLast?_cons_cons] at this
      by_cases hi : ∃ offset, i = .frameAddress offset
      · obtain ⟨offset, rfl⟩ := hi
        rw [List.cons_append] at hrest
        rw [List.cons_append, List.cons_append, accesses, accesses, hrest, List.append_assoc]
      · have hi : ∀ offset, i ≠ .frameAddress offset := fun offset heq => hi ⟨offset, heq⟩
        rw [List.cons_append, accesses_cons hi, accesses_cons hi, hrest]

/-- Code without frame addresses makes no accesses. -/
theorem accesses_quiet {is : List Instr} (h : ∀ offset, Instr.frameAddress offset ∉ is) :
    accesses is = [] := by
  induction is with
  | nil => rfl
  | cons i is ih =>
    have hi : ∀ offset, i ≠ .frameAddress offset :=
      fun offset heq => h offset (heq ▸ List.mem_cons_self)
    rw [accesses_cons hi]
    exact ih fun offset hmem => h offset (List.mem_cons_of_mem _ hmem)

namespace Keeps

variable {Q Q' : Int → Nat → Prop} {is js : List Instr}

theorem append (h : Keeps Q is) (h' : Keeps Q js) : Keeps Q (is ++ js) := by
  refine ⟨fun q hq => ?_, fun offset heq => ?_⟩
  · rw [accesses_append h.2] at hq
    exact (List.mem_append.mp hq).elim (h.1 q) (h'.1 q)
  · rw [List.getLast?_append] at heq
    rcases Option.or_eq_some_iff.mp heq with heq | ⟨-, heq⟩
    · exact h'.2 offset heq
    · exact h.2 offset heq

theorem mono (h : Keeps Q is)
    (hq : ∀ offset width, Q offset width → Q' offset width) : Keeps Q' is :=
  ⟨fun q hmem => hq _ _ (h.1 q hmem), h.2⟩

theorem nil : Keeps Q [] := ⟨by simp [accesses], by simp⟩

theorem quiet (h : ∀ offset, Instr.frameAddress offset ∉ is) : Keeps Q is :=
  ⟨by simp [accesses_quiet h], fun offset heq => h offset (List.mem_of_getLast? heq)⟩

/-- One access. -/
theorem access {offset : Int} {x : Instr} {width : Nat} (hx : width? x = some width)
    (hq : Q offset width) :
    Keeps Q [.frameAddress offset, x] := by
  have hxa : ∀ o, x ≠ .frameAddress o := by
    rintro o rfl
    cases hx
  refine ⟨?_, fun o heq => hxa o (Option.some.inj heq)⟩
  rw [accesses, accesses_cons hxa, hx]
  simpa [accesses] using hq

end Keeps

/-! ### Moving values -/

/-- The address of a byte that is kept in the frame is fetched. -/
theorem keeps_pinned {Q : Int → Nat → Prop} {slot : Int} (hq : Q slot Ty.wordSize)
    (byte : Nat) {x : Instr} (hx : ∀ offset, x ≠ .frameAddress offset) :
    Keeps Q ((Base.pinned slot).instrs byte ++ [x]) := by
  rw [Base.instrs, List.append_assoc]
  refine (Keeps.access rfl hq).append (.quiet fun offset => ?_)
  have := hx offset
  split <;> simp [this.symm]

theorem width_loadInstr {t : Ty} (ht : t.Scalar) : width? (loadInstr t) = some t.size :=
  ht.choice (motive := fun n x => width? x = some n) rfl rfl

theorem width_storeInstr {t : Ty} (ht : t.Scalar) :
    width? (if t = .double then .storeDouble else .storeInt) = some t.size :=
  ht.choice (motive := fun n x => width? x = some n) rfl rfl

/-- A scalar is stored within its bytes. -/
theorem keeps_store_scalar {Q : Int → Nat → Prop} {push : Nat → List Instr} {byte : Nat} {t : Ty}
    (ht : t.Scalar) (hpush : ∀ x, width? x = some t.size → Keeps Q (push byte ++ [x]))
    (source : Ty) :
    Keeps Q (storeInstrs push t source byte) := by
  rw [storeInstrs_scalar ht, List.append_assoc]
  refine Keeps.append (.quiet fun offset => ?_) (hpush _ (width_storeInstr ht))
  unfold widenInstrs
  split <;> simp

mutual

/-- **A value is stored within its bytes**, leaf by leaf. -/
theorem keeps_store {Q : Int → Nat → Prop} {push : Nat → List Instr} (bottom top : Nat)
    (hpush : ∀ byte x width, width? x = some width → bottom ≤ byte → byte + width ≤ top →
      Keeps Q (push byte ++ [x])) :
    ∀ {target source : Ty} {byte : Nat}, target.Solid → bottom ≤ byte → byte + target.size ≤ top →
      Keeps Q (storeInstrs push target source byte)
  | .tuple [t], source, byte, ht, hb, hs => by
    rw [storeInstrs]
    refine keeps_store bottom top hpush (Ty.solid_tuple.mp ht t List.mem_cons_self) hb ?_
    simpa [Ty.size, Ty.sizeOfAll] using hs
  | .tuple [], source, byte, ht, hb, hs | .tuple (_ :: _ :: _), source, byte, ht, hb, hs => by
    unfold storeInstrs
    split
    · exact keeps_storeEach bottom top hpush (Ty.solid_tuple.mp ht) hb hs
    · exact .nil
  | .void, source, byte, ht, hb, hs | .int, source, byte, ht, hb, hs
  | .double, source, byte, ht, hb, hs | .string, source, byte, ht, hb, hs
  | .pointer _, source, byte, ht, hb, hs | .auto, source, byte, ht, hb, hs =>
    keeps_store_scalar (ht _ (List.mem_singleton_self _))
      (fun x hx => hpush byte x _ hx hb hs) source

/-- As `keeps_store`, for the components of a tuple. -/
theorem keeps_storeEach {Q : Int → Nat → Prop} {push : Nat → List Instr} (bottom top : Nat)
    (hpush : ∀ byte x width, width? x = some width → bottom ≤ byte → byte + width ≤ top →
      Keeps Q (push byte ++ [x])) :
    ∀ {targets sources : List Ty} {byte : Nat}, (∀ t ∈ targets, t.Solid) → bottom ≤ byte →
      byte + Ty.sizeOfAll targets ≤ top → Keeps Q (storeEachInstrs push targets sources byte)
  | [], _, _, _, _, _ | _ :: _, [], _, _, _, _ => by
    rw [storeEachInstrs] <;> simp [Keeps.nil]
  | t :: ts, u :: us, byte, ht, hb, hs => by
    rw [List.forall_mem_cons] at ht
    rw [Ty.sizeOfAll] at hs
    rw [storeEachInstrs]
    exact (keeps_store bottom top hpush ht.1 hb (by omega)).append
      (keeps_storeEach bottom top hpush ht.2 (by omega) (by omega))

end

/-- **A value is fetched within its bytes**, leaf by leaf. -/
theorem keeps_load {Q : Int → Nat → Prop} {b : Base} {t : Ty} (ht : t.Solid)
    (hb : ∀ byte x width, width? x = some width → byte + width ≤ t.size →
      Keeps Q (b.instrs byte ++ [x])) :
    Keeps Q (loadInstrs b t.leafOffsets.reverse) := by
  have hall : ∀ ls : List (Ty × Nat), (∀ l ∈ ls, l ∈ t.leafOffsets) →
      Keeps Q (loadInstrs b ls) := by
    intro ls hls
    induction ls with
    | nil => exact .nil
    | cons l ls ih =>
      rw [List.forall_mem_cons] at hls
      have hwithin := Ty.leavesFrom_within t 0 l hls.1
      rw [Nat.zero_add] at hwithin
      exact (hb l.2 _ _ (width_loadInstr (ht.scalar hls.1)) hwithin.2).append (ih hls.2)
  exact hall _ fun l hl => List.mem_reverse.mp hl

/-- Accesses to a value at an offset from the frame pointer are in an area that covers the value. -/
theorem keeps_frame {a : Area} {offset : Int} {size : Nat} (ha : a.Covers offset size)
    (byte : Nat) (x : Instr) (width : Nat) (hx : width? x = some width) (hb : byte + width ≤ size) :
    Keeps a.Covers ((Base.frame offset).instrs byte ++ [x]) := by
  refine Keeps.access hx ?_
  obtain ⟨hstart, hstop⟩ := ha
  exact ⟨by omega, by omega⟩

end Emission

/-! ### Expressions -/

/-- **What the areas are for that a piece accesses.** A condition whose tested component is kept
uses the slot of its loop. -/
def Piece.Owns (loops : List (NodeId × NodeId)) : Piece → Owner → Prop
  | .expression _ _ (.tuple s _), o | .expression _ _ (.rvalue s _), o => o = .node s.id
  | .expression _ _ (.call ..), o => o = .calls
  | .action (.initial id), o => o = .declaration id
  | .action (.test id), o => ∃ loop, (id, loop) ∈ loops ∧ o = .node loop
  | .action (.return _), o => o = .result ∨ o = .passed
  | _, _ => False

namespace Room

variable {r : Room}

/-- The area of the address that the caller passes, if there is a word to keep it in. -/
def passedAreas (r : Room) : List Area :=
  if r.frame.returnTempSize = Ty.wordSize then [⟨.passed, 8, Ty.wordSize⟩] else []

/-- The areas of a room: those of the declarations, that of the address that the caller passes, and
those of the layout. -/
def areas (r : Room) : List Area :=
  r.declared.map (VarDecl.area r.types) ++ (r.passedAreas ++ r.frame.areas)

theorem layout_mem {a : Area} (ha : a ∈ r.frame.areas) : a ∈ r.areas :=
  List.mem_append_right _ (List.mem_append_right _ ha)

/-- A slot is one of the areas. -/
theorem slotArea_mem {s : Slot} (hs : s ∈ r.frame.slots) : FrameLayout.slotArea s ∈ r.areas :=
  layout_mem (List.mem_cons_of_mem _ (List.mem_cons_of_mem _ (List.mem_map_of_mem hs)))

end Room

namespace Emission

/-- **Every access in some code is in an area that is for something of which `O` holds.** -/
abbrev KeepsTo (r : Room) (O : Owner → Prop) (is : List Instr) : Prop :=
  Keeps (fun offset width => ∃ a ∈ r.areas, O a.owner ∧ a.Covers offset width) is

variable {r : Room} {O : Owner → Prop} {is : List Instr}

theorem Keeps.keepsTo {a : Area} (h : Keeps a.Covers is) (ha : a ∈ r.areas) (ho : O a.owner) :
    KeepsTo r O is :=
  h.mono fun _ _ hc => ⟨a, ha, ho, hc⟩

/-- A last frame address that is left on the stack is no access. -/
theorem accesses_concat {Q : Int → Nat → Prop} (h : Keeps Q is) (offset : Int) :
    ∀ q ∈ accesses (is ++ [.frameAddress offset]), Q q.1 q.2 := by
  rw [accesses_append h.2]
  simpa [accesses] using h.1

theorem covers_slot (s : Slot) : (FrameLayout.slotArea s).Covers s.offset s.size :=
  ⟨le_of_eq rfl, le_of_eq rfl⟩

/-- A place is read by way of the slot in which its address is kept. -/
theorem keeps_read {s : Slot} (hs : s ∈ r.frame.slots) (hsize : s.size = Ty.wordSize)
    (ho : O (.node s.node)) {t : Ty} (ht : t.Sound) :
    KeepsTo r O (readInstrs s.offset t .value) := by
  have hcovers : (FrameLayout.slotArea s).Covers s.offset Ty.wordSize := hsize ▸ covers_slot s
  cases t with
  | tuple ts =>
    refine Keeps.append ?_ ?_
    · exact (Keeps.access rfl hcovers).keepsTo (Room.slotArea_mem hs) ho
    · refine (keeps_load (ht.solid (by simp)) fun byte x width hx _ =>
        ?_).keepsTo (Room.slotArea_mem hs) ho
      exact keeps_pinned hcovers byte fun offset heq => by rw [heq] at hx; cases hx
  | _ => exact .quiet fun offset => by simp [readInstrs]

/-- Only the value of a tuple is read by way of a slot. -/
theorem quiet_read {t : Ty} {mode : Mode} (h : t.isTuple = false ∨ mode = .address)
    (slot offset : Int) :
    Instr.frameAddress offset ∉ readInstrs slot t mode := by
  cases t with
  | tuple ts =>
    rcases h with h | rfl
    · cases h
    · simp [readInstrs]
  | _ => simp [readInstrs]

end Emission

namespace Expr

variable {r : Room} {cx : Context} {scope : View Symbol} {mode : Mode} {n : Nat} {O : Owner → Prop}

/-- A tuple is built in its slot. -/
theorem keeps_slotOutline {s : Slot} (hs : s ∈ r.frame.slots) (ho : O (.node s.node))
    {es : List Expr} {ts : List Ty} {byte : Nat} (hts : ∀ t ∈ ts, t.Solid)
    (hsize : byte + Ty.sizeOfAll ts ≤ s.size) :
    KeepsTo r O (slotOutline cx scope s.offset n es ts byte).own := by
  induction es generalizing ts byte n with
  | nil =>
    rw [slotOutline] <;> simp [Keeps.nil]
  | cons e es ih =>
    cases ts with
    | nil =>
      rw [slotOutline] <;> simp [Keeps.nil]
    | cons t ts =>
      rw [List.forall_mem_cons] at hts
      rw [Ty.sizeOfAll] at hsize
      rw [slotOutline, Outline.own_append, Outline.own_append, own_outline, Outline.own_ofCode,
        List.nil_append]
      refine Keeps.append ?_ (ih hts.2 (by omega))
      refine (keeps_store 0 s.size (fun byte x width hx _ hb => ?_) hts.1 (Nat.zero_le _)
        (by omega)).keepsTo (Room.slotArea_mem hs) ho
      exact keeps_frame (covers_slot s) byte x width hx hb

@[simp] theorem own_reverseOutline (es : List Expr) : (reverseOutline cx scope n es).own = [] := by
  induction es with
  | nil =>
    rw [reverseOutline]
    rfl
  | cons e es ih => rw [reverseOutline, Outline.own_append, ih, own_outline, List.append_nil]

theorem quiet_widen (wanted t : Ty) (offset : Int) :
    Instr.frameAddress offset ∉ widenInstrs wanted t := by
  unfold widenInstrs
  split <;> simp

theorem quiet_arguments (es : List Expr) (ps : List Ty) :
    (argumentsOutline cx scope n es ps).Quiet := by
  intro offset
  induction es generalizing ps with
  | nil =>
    rw [argumentsOutline] <;> simp
  | cons e es ih =>
    cases ps with
    | nil =>
      rw [argumentsOutline] <;> simp
    | cons p ps =>
      rw [argumentsOutline]
      simp [ih ps, quiet_widen]

/-- What is behind the arguments of a call. -/
theorem keeps_call {t : Ty} (ht : t.Sound)
    (hsize : t.isTuple = true → t.size ≤ r.frame.callTempSize) (ho : O .calls) (label : String)
    (bytes : Nat) (mode : Mode) :
    ∀ q ∈ accesses (callInstrs r.frame.callTempOffset label t bytes mode),
      ∃ a ∈ r.areas, O a.owner ∧ a.Covers q.1 q.2 := by
  have harea : (⟨.calls, r.frame.callTempOffset, r.frame.callTempSize⟩ : Area) ∈ r.areas :=
    Room.layout_mem List.mem_cons_self
  have hstart : ∀ k, Keeps (fun offset width => ∃ a ∈ r.areas, O a.owner ∧ a.Covers offset width)
      ([.frameAddress r.frame.callTempOffset, .call label] ++ trashInstrs k) := by
    intro k
    refine Keeps.append ⟨by simp [accesses, width?], by simp⟩ (.quiet fun offset => ?_)
    exact frameAddress_not_mem_trash k offset
  cases t with
  | tuple ts =>
    cases mode with
    | address => exact accesses_concat (hstart _) _
    | value =>
      refine ((hstart _).append ?_).1
      refine (keeps_load (ht.solid (by simp)) fun byte x width hx hb => ?_).keepsTo harea ho
      exact keeps_frame ⟨le_of_eq rfl, by simp only [Area.stop]; have := hsize rfl; omega⟩
        byte x width hx hb
  | _ =>
    rw [accesses_quiet fun offset => by simp [callInstrs, frameAddress_not_mem_trash]]
    simp

theorem frameAddress_ne_word (op : BinaryOp) (offset : Int) :
    Instr.frameAddress offset ≠ wordInstr op := by
  cases op <;> simp [wordInstr]

theorem frameAddress_ne_arithmetic (op : BinaryOp) (t : Ty) (offset : Int) :
    Instr.frameAddress offset ≠ arithmeticInstr op t := by
  unfold arithmeticInstr
  split
  · split <;> simp [frameAddress_ne_word]
  · exact frameAddress_ne_word op offset

theorem frameAddress_ne_jump (op : BinaryOp) (label : String) (offset : Int) :
    Instr.frameAddress offset ≠ decidedJump op label := by
  unfold decidedJump
  split <;> simp

/-- **What an expression accesses itself is covered**: it is in areas that are for the
expression. -/
def Covered (r : Room) (cx : Context) (scope : View Symbol) (mode : Mode) (n : Nat) (e : Expr) :
    Prop :=
  ∀ inner, e.outline cx scope mode n = .piece (.expression mode scope e) inner →
    ∀ q ∈ accesses inner.own, ∃ a ∈ r.areas,
      (Piece.expression mode scope e).Owns r.loops a.owner ∧ a.Covers q.1 q.2

/-- The accesses of an expression are those in its own code. -/
theorem covered_of_own {e : Expr} {o : Outline}
    (ho : e.outline cx scope mode n = .piece (.expression mode scope e) o)
    (h : ∀ q ∈ accesses o.own, ∃ a ∈ r.areas,
      (Piece.expression mode scope e).Owns r.loops a.owner ∧ a.Covers q.1 q.2) :
    e.Covered r cx scope mode n := by
  intro inner heq
  rw [ho] at heq
  cases heq
  exact h

/-- Without frame addresses there are no accesses. -/
theorem covered_of_quiet {e : Expr} {o : Outline}
    (ho : e.outline cx scope mode n = .piece (.expression mode scope e) o)
    (h : ∀ offset, Instr.frameAddress offset ∉ o.own) : e.Covered r cx scope mode n :=
  covered_of_own ho (by simp [accesses_quiet h])

section Covered

variable {site : Site}

theorem covered_input : (input site).Covered r cx scope mode n := by
  refine covered_of_quiet (by rw [outline]) fun offset => ?_
  unfold inputInstrs
  split <;> simp

theorem covered_tupleIndex (b : Expr) (i : Int32) :
    (tupleIndex site b i).Covered r cx scope mode n := by
  refine covered_of_quiet (by rw [outline]) fun offset => ?_
  unfold offsetInstrs
  split <;> simp

theorem covered_rvalue {p : Expr} (h : (rvalue site p).Sits Ty.Sound r scope mode)
    (hcx : r.Suits Ty.Sound cx) : (rvalue site p).Covered r cx scope mode n := by
  refine covered_of_own (by rw [outline]) ?_
  obtain ⟨-, t, ⟨-, ht⟩, hs⟩ := h.typed
  rw [Outline.own_append, own_outline, Outline.own_ofCode, List.nil_append, hcx.types,
    TypeTable.typeOf_eq hs]
  by_cases htuple : t.isTuple = true
  · cases mode with
    | address => simp [accesses_quiet (quiet_read (.inr rfl) (cx.frame.slotAt site.id))]
    | value =>
      obtain ⟨ts, rfl⟩ := Ty.exists_tuple htuple
      obtain ⟨slot, hslot, hnode, hsize⟩ := h.slot_rvalue hs
      have howns : (Piece.expression .value scope (.rvalue site p)).Owns r.loops
          (.node slot.node) :=
        congrArg Owner.node hnode
      rw [hcx.frame, ← hnode, FrameLayout.slotAt_eq hcx.nodup hslot]
      exact (keeps_read hslot hsize howns ht).1
  · have hscalar : t.isTuple = false := by simpa using htuple
    simp [accesses_quiet (quiet_read (.inl hscalar) (cx.frame.slotAt site.id))]

theorem covered_assignment (p v : Expr) :
    (assignment site p v).Covered r cx scope mode n := by
  refine covered_of_quiet (by rw [outline]) fun offset => ?_
  simp only [Outline.own_append, own_outline, Outline.own_ofCode]
  split <;> simp [quiet_widen]

theorem covered_unary (op : UnaryOp) (a : Expr) :
    (unary site op a).Covered r cx scope mode n := by
  refine covered_of_quiet (by rw [outline]) fun offset => ?_
  simp only [Outline.own_append, own_outline, Outline.own_ofCode]
  unfold unaryTail
  split
  · split <;> simp
  · simp
  · simp

theorem covered_binary (op : BinaryOp) (a b : Expr) :
    (binary site op a b).Covered r cx scope mode n := by
  refine covered_of_quiet (by rw [outline]) fun offset => ?_
  dsimp only
  split
  · simp [frameAddress_ne_word, frameAddress_ne_jump]
  · simp only [Outline.own_append, own_outline, Outline.own_ofCode, List.nil_append]
    unfold pointerTail
    split <;> simp [frameAddress_ne_word]
  · simp [frameAddress_ne_arithmetic, quiet_widen]
  · simp only [Outline.own_append, own_outline, Outline.own_ofCode, List.nil_append]
    split <;> simp [frameAddress_ne_word, quiet_widen]

/-- A tuple whose address is wanted is built in the slot of its node. -/
theorem covered_tuple {a b : Expr} {es : List Expr}
    (h : (tuple site (a :: b :: es)).Sits Ty.Sound r scope mode) (hcx : r.Suits Ty.Sound cx) :
    (tuple site (a :: b :: es)).Covered r cx scope mode n := by
  obtain ⟨-, ts, -, hts, hs⟩ := h.typed
  have hs : r.types.get? site.id = some (.tuple ts) := by
    rcases hts with _ | ⟨-, _ | ⟨-, -⟩⟩
    exact hs
  cases mode with
  | value => exact covered_of_quiet (by rw [outline]; simp) (by simp)
  | address =>
    refine covered_of_own (by rw [outline]; simp) ?_
    obtain ⟨slot, hslot, hnode, hsize⟩ := h.slot_tuple hs
    have howns : (Piece.expression .address scope (.tuple site (a :: b :: es))).Owns r.loops
        (.node slot.node) :=
      congrArg Owner.node hnode
    have hsolid : ∀ t ∈ ts, t.Solid := by
      intro t ht
      obtain ⟨c, -, u, -, rfl, hsound, hv⟩ := exists_of_mem_right hts ht
      exact hsound.solid hv
    rw [hcx.types, hcx.frame, TypeTable.typeOf_eq hs, ← hnode,
      FrameLayout.slotAt_eq hcx.nodup hslot]
    have hkeeps :
        KeepsTo r ((Piece.expression .address scope (.tuple site (a :: b :: es))).Owns r.loops)
          (slotOutline cx scope slot.offset n (a :: b :: es) ts 0).own :=
      keeps_slotOutline hslot howns hsolid (by rw [hsize, Nat.zero_add]; exact Nat.le_refl _)
    dsimp only
    rw [Outline.own_append, Outline.own_ofCode]
    exact accesses_concat hkeeps _

theorem covered_call {name : String} {args : List Expr}
    (h : (call site name args).Sits Ty.Sound r scope mode) (hcx : r.Suits Ty.Sound cx) :
    (call site name args).Covered r cx scope mode n := by
  refine covered_of_own (by rw [outline]) ?_
  have hserves := h.serves
  rw [usage] at hserves
  obtain ⟨-, ps, t, -, -, ⟨-, ht⟩, hs⟩ := h.typed
  have hargs : Keeps (fun _ _ => True)
      (argumentsOutline cx scope n args (calleeParameters scope name)).own :=
    .quiet (quiet_arguments _ _)
  rw [Outline.own_append, Outline.own_ofCode, accesses_append hargs.2,
    accesses_quiet (quiet_arguments _ _), List.nil_append, hcx.types, hcx.frame,
    TypeTable.typeOf_eq hs]
  refine keeps_call (O := (Piece.expression mode scope (.call site name args)).Owns r.loops) ht
    (fun htuple => ?_) rfl _ _ _
  have hcalls := hserves.left.calls
  rw [TypeTable.typeOf_eq hs, if_pos htuple] at hcalls
  exact hcalls

end Covered

/-- **What an expression accesses itself is in the areas that are for it**, by one lemma for each
kind of expression with frame addresses of its own, or with an operator. -/
theorem Sits.covered {e : Expr} (h : e.Sits Ty.Sound r scope mode) (hcx : r.Suits Ty.Sound cx) :
    e.Covered r cx scope mode n := by
  cases e with
  | integer | double | string | nullptr | sizeof | pointerIndex | addressOf | stackAlloc =>
    exact covered_of_quiet (by rw [outline]) (by simp)
  | «variable» s name => exact covered_of_own (by rw [outline]) (by simp [accesses])
  | input s => exact covered_input
  | tupleIndex s b i => exact covered_tupleIndex b i
  | rvalue s p => exact covered_rvalue h hcx
  | assignment s p v => exact covered_assignment p v
  | unary s op a => exact covered_unary op a
  | binary s op a b => exact covered_binary op a b
  | tuple s es =>
    rcases es with _ | ⟨a, _ | ⟨b, es⟩⟩
    · obtain ⟨-, ts, hne, hall, -⟩ := h.typed
      cases hall
      exact absurd rfl hne
    · exact covered_of_quiet (by rw [outline]) (by simp)
    · exact covered_tuple h hcx
  | call s name args => exact covered_call h hcx

end Expr

/-! ### Pieces -/

namespace Emission

variable {r : Room} {O : Owner → Prop}

/-- The tested component of a condition is kept in the slot of its loop. -/
theorem keeps_keepLast {s : Slot} (hs : s ∈ r.frame.slots) (hsize : s.size = Ty.wordSize)
    (ho : O (.node s.node)) (n : Nat) : KeepsTo r O (keepLast n s.offset) := by
  have hcovers : (FrameLayout.slotArea s).Covers s.offset Ty.wordSize := hsize ▸ covers_slot s
  have hquiet : Keeps (FrameLayout.slotArea s).Covers
      [.stackPointer, .int ((n : Int) - Ty.wordSize), .add, .loadInt] :=
      .quiet fun offset => by simp
  have htrash : Keeps (FrameLayout.slotArea s).Covers [.trash n] := .quiet fun offset => by simp
  have hkeeps : Keeps (FrameLayout.slotArea s).Covers (keepLast n s.offset) :=
    (((hquiet.append (.access rfl hcovers)).append htrash).append (.access rfl hcovers))
  exact hkeeps.keepsTo (Room.slotArea_mem hs) ho

/-- A tuple is returned by way of the address that the caller passes, which is kept in a word of the
frame. -/
theorem keeps_returned (hword : r.frame.returnTempSize = Ty.wordSize) (hpassed : O .passed)
    (hresult : O .result) {t u : Ty} (ht : t.Solid) : KeepsTo r O
      ([.frameAddress argumentsOffset, .loadInt, .frameAddress r.frame.returnTempOffset,
        .storeInt] ++
        storeInstrs (Base.pinned r.frame.returnTempOffset).instrs t u 0 ++ [.leave, .return]) := by
  have hpassedArea : (⟨.passed, 8, Ty.wordSize⟩ : Area) ∈ r.areas := by
    refine List.mem_append_right _ (List.mem_append_left _ ?_)
    rw [Room.passedAreas, if_pos hword]
    exact List.mem_singleton_self _
  have hresultArea :
      (⟨.result, r.frame.returnTempOffset, r.frame.returnTempSize⟩ : Area) ∈ r.areas :=
    Room.layout_mem (List.mem_cons_of_mem _ List.mem_cons_self)
  have hcovers : Area.Covers ⟨.result, r.frame.returnTempOffset, r.frame.returnTempSize⟩
      r.frame.returnTempOffset
      Ty.wordSize := ⟨le_of_eq rfl, le_of_eq (by rw [Area.stop, hword])⟩
  have hfetch : KeepsTo r O [.frameAddress argumentsOffset, .loadInt] :=
    (Keeps.access rfl ⟨le_of_eq rfl, le_of_eq rfl⟩).keepsTo hpassedArea hpassed
  have hkeep : KeepsTo r O [.frameAddress r.frame.returnTempOffset, .storeInt] :=
    (Keeps.access rfl hcovers).keepsTo hresultArea hresult
  have hstore : KeepsTo r O (storeInstrs (Base.pinned r.frame.returnTempOffset).instrs t u 0) := by
    refine (keeps_store 0 t.size (fun byte x width hx _ _ => ?_) ht (Nat.le_refl 0)
      (Nat.zero_add _).le).keepsTo hresultArea hresult
    exact keeps_pinned hcovers byte fun offset heq => by rw [heq] at hx; cases hx
  exact ((hfetch.append hkeep).append hstore).append (.quiet fun offset => by simp)

end Emission

/-- **A piece that sits in a room makes its accesses in the areas that are for it.** -/
theorem Piece.Sits.covers {r : Room} {p : Piece} {inner : Outline} (h : p.Sits Ty.Sound r inner) :
    ∀ q ∈ accesses inner.own, ∃ a ∈ r.areas, p.Owns r.loops a.owner ∧ a.Covers q.1 q.2 := by
  have hquiet : inner.Quiet → KeepsTo r (p.Owns r.loops) inner.own := fun h => .quiet h
  cases p with
  | expression mode scope e =>
    obtain ⟨hsits, cx, n, hcx, heq⟩ := h
    exact hsits.covered hcx _ heq
  | action a =>
    cases a with
    | «initial» id =>
      obtain ⟨⟨hsound, hv⟩, q, hq, hid, u, hown⟩ := h
      have harea : VarDecl.area r.types q ∈ r.areas :=
        List.mem_append_left _ (List.mem_map_of_mem hq)
      have howns : (Piece.action (.initial id)).Owns r.loops (VarDecl.area r.types q).owner :=
        congrArg Owner.declaration hid
      have hcovers : (VarDecl.area r.types q).Covers q.2 (r.types.typeOf id).size :=
        ⟨le_of_eq rfl, le_of_eq (by rw [← hid]; rfl)⟩
      have hkeeps : KeepsTo r ((Piece.action (.initial id)).Owns r.loops) inner.own := by
        rw [hown]
        refine (keeps_store 0 (r.types.typeOf id).size (fun byte x width hx _ hb => ?_)
          (hsound.solid hv)
          (Nat.le_refl 0) (Nat.zero_add _).le).keepsTo harea howns
        exact keeps_frame hcovers byte x width hx hb
      exact hkeeps.1
    | test id =>
      rcases h with h | ⟨s, hs, hloop, hsize, n, hown⟩
      · exact (hquiet h).1
      · rw [hown]
        exact (keeps_keepLast hs hsize ⟨s.node, hloop, rfl⟩ n).1
    | «return» id =>
      rcases h with h | ⟨hword, t, u, ⟨hsound, hv⟩, hown⟩
      · exact (hquiet h).1
      · rw [hown]
        exact (keeps_returned hword (.inr rfl) (.inl rfl) (hsound.solid hv)).1
    | evaluate id | print id | endLine id => exact (hquiet h).1
  | function f | statement st | branch | text s n => exact (hquiet h).1

/-! ### Names -/

namespace VarDecl

theorem places_go_within (names : List String) (ts : List Ty) (offset : Int) :
    ∀ v ∈ places.go names ts offset, v.1 ∈ names ∧ offset ≤ v.2.2 ∧
    v.2.2 + v.2.1.size ≤ offset + Ty.sizeOfAll ts := by
  induction names generalizing ts offset with
  | nil => simp [places.go]
  | cons name names ih =>
    cases ts with
    | nil => simp [places.go]
    | cons t ts =>
      rw [places.go, Ty.sizeOfAll, List.forall_mem_cons]
      refine ⟨⟨List.mem_cons_self, le_of_eq rfl, by dsimp only; omega⟩, fun v hv => ?_⟩
      obtain ⟨hname, hstart, hstop⟩ := ih ts (offset + t.size) v hv
      exact ⟨List.mem_cons_of_mem _ hname, by omega, by omega⟩

/-- **The variables of a declaration are in its bytes.** -/
theorem places_within (d : VarDecl) (t : Ty) (offset : Int) :
    ∀ v ∈ d.places t offset, v.1 ∈ d.names ∧ offset ≤ v.2.2 ∧
    v.2.2 + v.2.1.size ≤ offset + t.size := by
  unfold places
  split
  · rename_i name hnames
    simp [hnames]
  · exact places_go_within _ _ _
  · have hwithin := fun u => places_go_within d.names [u] offset
    simp only [Ty.sizeOfAll, Nat.add_zero] at hwithin
    exact hwithin _

end VarDecl

/-- A name stands for what it stands for outside of the function, or for bytes of a declaration that
names it. -/
theorem Room.Binds.covers {r : Room} {scope : View Symbol} (h : r.Binds scope)
    {name : String} {s : Symbol} (hs : scope name = some s) : r.unit name = some s ∨
      ∃ q ∈ r.declared, name ∈ q.1.names ∧
      (VarDecl.area r.types q).Covers s.offset s.type.size := by
  refine (h name s hs).imp_right fun ⟨q, hq, v, hv, hname, hplaced⟩ => ⟨q, hq, ?_⟩
  have hwithin := q.1.places_within _ _ v hv
  subst hname hplaced
  exact hwithin

/-! ### Functions -/

namespace Function

variable {T : TypeTable} {config : Config} {scope : View Symbol} {n : Nat} {f : Function}

/-- **A function keeps its frame**: the areas that are laid out and the areas that the code uses are
the same ones, and no two of them have a byte in common. -/
structure KeepsFrame (T : TypeTable) (config : Config) (scope : View Symbol) (n : Nat)
    (f : Function) : Prop where
  /-- As many bytes are set up as the frame has. -/
  entered : (f.outline T config scope n).code[f.start T config scope]? =
    some (.enter (f.frame T).frameSize)
  /-- The areas below the frame pointer fill the frame. -/
  filled : Area.Stacked 0 (f.areas T) (-(f.frame T).frameSize)
  /-- They do not overlap. -/
  apart : (f.areas T).Pairwise Area.Apart
  /-- They are in the frame. -/
  within : ∀ a ∈ f.areas T, -((f.frame T).frameSize : Int) ≤ a.start ∧ a.stop ≤ 0
  /-- The local variables fill the bytes that the layout counts for them. -/
  locals : Area.Stacked 0 (f.localAreas T) (-(f.frame T).localSize)
  /-- The arguments lie one behind the other, from behind the address that the caller passes on. -/
  arguments : Area.Stacked (f.argumentsStart T +
    Ty.sizeOfAll (f.signature.arguments.map fun d => T.typeOf d.id))
    (f.argumentAreas T).reverse (f.argumentsStart T)
  /-- The address that the caller passes lies behind the return address and the frame pointer of the
  caller. -/
  passed : Area.Stacked (f.argumentsStart T) (f.passedAreas T) 8
  /-- No node has two slots. -/
  slots : ((f.frame T).slots.map Slot.node).Nodup
  /-- A name stands for a symbol of the unit, or for bytes of a declaration that names it. -/
  names : (f.outline T config scope n).All fun p _ => ∀ mode view e, p = .expression mode view e →
    ∀ name s, view name = some s → scope name = some s ∧ s.isGlobal = true ∨
      ∃ q ∈ f.arguments T ++ f.locals T, name ∈ q.1.names ∧
      (VarDecl.area T q).Covers s.offset s.type.size
  /-- Every access is in an area that is for the piece that makes it. -/
  accesses : (f.outline T config scope n).All fun p inner => ∀ q ∈ accesses inner.own,
    ∃ a ∈ f.argumentAreas T ++ f.passedAreas T ++ f.areas T, p.Owns f.body.stmt.loops a.owner ∧
    a.Covers q.1 q.2
  /-- The tuples that calls return fit. -/
  calls : (f.outline T config scope n).All fun p _ => ∀ mode view s name args,
    p = .expression mode view (.call s name args) → (T.typeOf s.id).isTuple = true →
      (T.typeOf s.id).size ≤ (f.frame T).callTempSize

/-- The areas of the room of a function are those of the function. -/
theorem mem_areas_room {a : Area} (ha : a ∈ (f.room T scope).areas) :
    a ∈ f.argumentAreas T ++ f.passedAreas T ++ f.areas T := by
  have hpassed : (f.room T scope).passedAreas = f.passedAreas T := by
    have hword : (f.room T scope).frame.returnTempSize =
        if (T.typeOf f.signature.id).isTuple then Ty.wordSize else 0 := rfl
    rw [Room.passedAreas, hword, passedAreas]
    split <;> simp [Ty.wordSize]
  rw [Room.areas, hpassed] at ha
  simp only [room, List.map_append, List.mem_append] at ha
  simp only [argumentAreas, areas, localAreas, List.mem_append]
  tauto

/-- **Every typed function keeps its frame.** -/
theorem keepsFrame (hΓ : View.Settled Ty.Sound scope.meanings) {R : Ty}
    (h : f.Typed Ty.Sound T scope.meanings R) (hw : f.WellPlaced) (hf : f.ids.Nodup)
    (hglobal : ∀ name s, scope name = some s → s.isGlobal = true) (config : Config) (n : Nat) :
    f.KeepsFrame T config scope n := by
  have hsits := f.all_sit Ty.stable_sound config n hΓ h hw hf
  refine ⟨f.getElem?_start T config scope n, stacked_areas, stacked_areas.pairwise,
    stacked_areas.within, stacked_locals, stacked_arguments.1, stacked_arguments.2, nodup_slots hf,
    hsits.imp ?_, hsits.imp ?_,
    hsits.imp ?_⟩
  · rintro _ inner hp mode view e rfl name s hs
    exact (hp.1.binds.covers hs).imp_left fun hunit => ⟨hunit, hglobal name s hunit⟩
  · intro p inner hp q hq
    obtain ⟨a, ha, hcovers⟩ := hp.covers q hq
    exact ⟨a, mem_areas_room ha, hcovers⟩
  · rintro _ inner hp mode view s name args rfl htuple
    have hserves := hp.1.serves
    rw [Expr.usage] at hserves
    have hcalls := hserves.left.calls
    rw [show (f.room T scope).types = T from rfl, if_pos htuple] at hcalls
    exact hcalls

end Function

/-! ### Units -/

/-- The frame of each function that is defined is reported. -/
theorem Decl.mem_frames (T : TypeTable) {ds : List Decl} {f : Function} (hf : Decl.define f ∈ ds) :
    f.frame T ∈ frames T ds := by
  induction ds with
  | nil => cases hf
  | cons d ds ih =>
    rcases List.mem_cons.mp hf with rfl | hrest
    · exact List.mem_cons_self
    · cases d with
      | define g => exact List.mem_cons_of_mem _ (ih hrest)
      | «variable» d | declare s => exact ih hrest

/-- **Every function of an accepted unit keeps its frame**, if the types that are written are
proper. Sizes and offsets are integers without bound, so this holds of frames of any size. -/
theorem frame_kept {nodes : Array Node} {root : NodeId} {t : SyntaxTree}
    (h : SyntaxTree.ofNodes nodes root = .ok t)
    (ht : ∀ d ∈ t.declarations, ∀ u ∈ d.writtenTypes, u.Proper) {T : TypeTable}
    {σ : SymbolTable} (hcheck : Typing.checkTree t = .ok (T, σ)) (config : Config)
    {before after : List Decl} {f : Function} (hf : t.declarations = before ++ .define f :: after) :
    ∃ (c : Compilation) (front back : List Instr), compile t config = .ok c ∧ f.frame T ∈ c.frames ∧
      c.code = front ++ (f.outline T config σ.scope (Decl.labelCountOfAll before)).code ++ back ∧
      f.KeepsFrame T config σ.scope (Decl.labelCountOfAll before) := by
  have hwritten : ∀ d ∈ t.declarations, ∀ u ∈ d.writtenTypes, Typing.Written Ty.Sound u :=
    fun d hd u hu hauto => ⟨hauto, ht d hd u hu⟩
  have hmem : Decl.define f ∈ t.declarations := by simp [hf]
  have haccepted := (Typing.checkTree_outcome Ty.stable_sound h hwritten).1 T σ hcheck
  obtain ⟨hΓ, ⟨R, hR⟩, hw, c, front, back, hc, hcode⟩ :=
    exists_function_code Ty.stable_sound h hwritten hcheck config hf
  obtain ⟨externs, hcompile⟩ := exists_compile Ty.stable_sound h hwritten hcheck config
  have hframe : f.frame T ∈ c.frames := by
    cases hcompile.symm.trans hc
    exact Decl.mem_frames T hmem
  have hids : f.ids.Nodup := SyntaxTree.nodup_ids_of_mem h hmem
  exact ⟨c, front, back, hc, hframe, hcode,
    f.keepsFrame hΓ hR hw hids (fun name s hs => haccepted.global name s hs) config _⟩

theorem frame_kept_sample : ∃ t T σ f c, SyntaxTree.ofNodes sampleNodes (.ofIndex 21) = .ok t ∧
    Typing.checkTree t = .ok (T, σ) ∧ t.declarations = [.define f] ∧ compile t .default = .ok c ∧
    f.frame T ∈ c.frames ∧ f.KeepsFrame T .default σ.scope 0 := by
  obtain ⟨t, T, σ, f, ht, hcheck, hf, hproper, -⟩ := exists_sample_function
  have hf' : t.declarations = [] ++ .define f :: [] := hf
  obtain ⟨c, front, back, hc, hframe, -, hkeeps⟩ := frame_kept ht hproper hcheck .default hf'
  exact ⟨t, T, σ, f, c, ht, hcheck, hf, hc, hframe, hkeeps⟩

end PostfixCompiler
