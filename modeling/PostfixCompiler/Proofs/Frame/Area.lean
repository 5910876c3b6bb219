import Mathlib.Data.List.Perm.Subperm
import PostfixCompiler.Proofs.Emission.FunctionCode

/-!
# The areas of a frame

The bytes around a frame pointer are shared out twice. The layout of the frame adds up sizes, in one
walk over the body; the writer hands out offsets in another, with a cursor of its own that goes down
as declarations are met. Here the offsets are collected as **areas**, each with the thing that it is
for. Below the frame pointer the areas lie one right under the other, first those of the
declarations, then those of the layout, and together they fill the frame.

## Main definitions

* `PostfixCompiler.Area`: consecutive bytes that are for something.
* `PostfixCompiler.Area.Stacked`: areas that lie one right under the other.
* `PostfixCompiler.Stmt.declared`: the local variables of a statement, with their offsets.
* `PostfixCompiler.Function.areas`, `PostfixCompiler.Function.argumentAreas`: the areas of a
  function.

## Main statements

* `PostfixCompiler.Area.Stacked.pairwise`: areas that are stacked do not overlap.
* `PostfixCompiler.Function.stacked_locals`, `PostfixCompiler.Function.stacked_areas`: the frame is
  filled.
* `PostfixCompiler.Function.nodup_slots`: no node has two slots.
-/

namespace PostfixCompiler

open Emission

/-- What some bytes are for. -/
inductive Owner where
  /-- The variables of a declaration. -/
  | declaration (id : NodeId)
  /-- The results of calls that return a tuple. -/
  | calls
  /-- The address where the result of the function goes. -/
  | result
  /-- A node that needs a slot. -/
  | node (id : NodeId)
  /-- The address that the caller passes for the result of the function. -/
  | passed
deriving DecidableEq

/-- **Consecutive bytes that are for something.** -/
structure Area where
  /-- What the bytes are for. -/
  owner : Owner
  /-- Where they start, from the frame pointer. -/
  start : Int
  /-- How many bytes there are. -/
  size : Nat

namespace Area

/-- Where the area ends. -/
def stop (a : Area) : Int := a.start + a.size

/-- No byte is in both areas. -/
def Apart (a b : Area) : Prop := a.stop ≤ b.start ∨ b.stop ≤ a.start

/-- Some bytes from an offset on are all in the area. -/
def Covers (a : Area) (offset : Int) (width : Nat) : Prop :=
  a.start ≤ offset ∧ offset + width ≤ a.stop

/-- **Areas lie one right under the other**, from one offset down to another. -/
def Stacked (top : Int) : List Area → Int → Prop
  | [], bottom => top = bottom
  | a :: as, bottom => a.stop = top ∧ Stacked a.start as bottom

namespace Stacked

variable {top mid bottom : Int} {as bs : List Area}

theorem append (ha : Stacked top as mid) (hb : Stacked mid bs bottom) :
    Stacked top (as ++ bs) bottom := by
  induction as generalizing top with
  | nil =>
    cases ha
    exact hb
  | cons a as ih => exact ⟨ha.1, ih ha.2⟩

theorem one (o : Owner) (start : Int) (size : Nat) :
    Stacked (start + size) [⟨o, start, size⟩] start :=
  ⟨rfl, rfl⟩

theorem le (h : Stacked top as bottom) : bottom ≤ top := by
  induction as generalizing top with
  | nil => exact le_of_eq (Eq.symm h)
  | cons a as ih =>
    have hstop := h.1
    have hle := ih h.2
    unfold stop at hstop
    omega

/-- Areas that are stacked are within their bounds. -/
theorem within (h : Stacked top as bottom) : ∀ a ∈ as, bottom ≤ a.start ∧ a.stop ≤ top := by
  induction as generalizing top with
  | nil => simp
  | cons a as ih =>
    have hle := le h.2
    have hstop := h.1
    refine List.forall_mem_cons.mpr ⟨⟨hle, le_of_eq hstop⟩, fun b hb => ?_⟩
    have hwithin := ih h.2 b hb
    unfold stop at hstop hwithin ⊢
    omega

/-- **Areas that are stacked do not overlap.** -/
theorem pairwise (h : Stacked top as bottom) : as.Pairwise Apart := by
  induction as generalizing top with
  | nil => exact .nil
  | cons a as ih => exact .cons (fun b hb => .inr (h.2.within b hb).2) (ih h.2)

end Stacked

end Area

/-! ### Local variables -/

section Declared

variable (T : TypeTable)

namespace VarDecl

/-- The bytes that are for a declaration at an offset. -/
def area (p : VarDecl × Int) : Area := ⟨.declaration p.1.id, p.2, (T.typeOf p.1.id).size⟩

/-- Declarations with their offsets, if the first one is right under `top`. -/
def declared (top : Int) : List VarDecl → List (VarDecl × Int)
  | [] => []
  | d :: ds =>
    let offset := top - (T.typeOf d.id).size
    (d, offset) :: declared offset ds

/-- Arguments with their offsets, if the first one is at `offset`. -/
def arguments (offset : Int) : List VarDecl → List (VarDecl × Int)
  | [] => []
  | d :: ds => (d, offset) :: arguments (offset + (T.typeOf d.id).size) ds

end VarDecl

/-- The declarations before the first round of a loop, with their offsets. -/
def LoopInit.declared (top : Int) : List LoopInit → List (VarDecl × Int)
  | [] => []
  | .declare d :: is =>
    let offset := top - (T.typeOf d.id).size
    (d, offset) :: declared offset is
  | .evaluate _ :: is => declared top is

namespace Stmt

mutual

/-- **The declarations in a statement, with their offsets**, if those before it end at `top`. -/
def declared (top : Int) : Stmt → List (VarDecl × Int)
  | .block _ ds body =>
    VarDecl.declared T top ds ++ declaredInAll (top - (VarDecl.usageOfAll T ds).locals) body
  | .ifThen _ _ t => t.declared top
  | .ifElse _ _ t e => t.declared top ++ e.declared (top - (t.usage T).locals)
  | .forLoop _ inits _ _ body =>
    LoopInit.declared T top inits ++ body.declared (top - (LoopInit.usageOfAll T inits).locals)
  | .evaluation .. | .write .. | .break _ | .continue _ | .return .. => []

/-- The declarations in statements, with their offsets. -/
def declaredInAll (top : Int) : List Stmt → List (VarDecl × Int)
  | [] => []
  | s :: ss => s.declared top ++ declaredInAll (top - (s.usage T).locals) ss

end

end Stmt

end Declared

section Stacked

variable {T : TypeTable}

theorem VarDecl.stacked_declared (top : Int) (ds : List VarDecl) :
    Area.Stacked top ((declared T top ds).map (area T)) (top - (usageOfAll T ds).locals) := by
  induction ds generalizing top with
  | nil => simp [declared, usageOfAll, Area.Stacked]
  | cons d ds ih =>
    have hrest := ih (top - (T.typeOf d.id).size)
    refine ⟨by simp [area, Area.stop], ?_⟩
    simp only [usageOfAll, usage, FrameUsage.locals_append, FrameUsage.locals_ofLocals,
      Expr.locals_usageOfOption, Nat.add_zero, Int.natCast_add, ← Int.sub_sub]
    exact hrest

/-- Arguments lie one behind the other. -/
theorem VarDecl.stacked_arguments (offset : Int) (ds : List VarDecl) :
    Area.Stacked (offset + Ty.sizeOfAll (ds.map fun d => T.typeOf d.id))
      ((arguments T offset ds).map (area T)).reverse offset := by
  induction ds generalizing offset with
  | nil => simp [arguments, Ty.sizeOfAll, Area.Stacked]
  | cons d ds ih =>
    have hrest := (ih (offset + (T.typeOf d.id).size)).append (.one (.declaration d.id) offset
      (T.typeOf d.id).size)
    rw [arguments, List.map_cons, List.map_cons, List.reverse_cons, Ty.sizeOfAll,
      Int.natCast_add, ← Int.add_assoc]
    exact hrest

theorem LoopInit.stacked_declared (top : Int) (is : List LoopInit) :
    Area.Stacked top ((declared T top is).map (VarDecl.area T))
      (top - (usageOfAll T is).locals) := by
  induction is generalizing top with
  | nil => simp [declared, usageOfAll, Area.Stacked]
  | cons i is ih =>
    cases i with
    | declare d =>
      have hrest := ih (top - (T.typeOf d.id).size)
      refine ⟨by simp [VarDecl.area, Area.stop], ?_⟩
      simp only [usageOfAll, usage, VarDecl.usage, FrameUsage.locals_append,
        FrameUsage.locals_ofLocals, Expr.locals_usageOfOption, Nat.add_zero,
        Int.natCast_add, ← Int.sub_sub]
      exact hrest
    | evaluate e =>
      simp only [usageOfAll, usage, FrameUsage.locals_append, Expr.locals_usage, Nat.zero_add]
      exact ih top

namespace Stmt

mutual

/-- **The declarations in a statement take as many bytes as the layout counts**, and lie one right
under the other. -/
theorem stacked_declared : ∀ (top : Int) (st : Stmt),
    Area.Stacked top ((st.declared T top).map (VarDecl.area T)) (top - (st.usage T).locals)
  | top, .block _ ds body => by
    rw [declared, usage, List.map_append, FrameUsage.locals_append, Int.natCast_add, ← Int.sub_sub]
    exact (VarDecl.stacked_declared top ds).append (stacked_declaredInAll _ body)
  | top, .ifThen _ c t => by
    rw [declared, usage, FrameUsage.locals_append, Expr.locals_usage, Nat.zero_add]
    exact stacked_declared top t
  | top, .ifElse _ c t e => by
    rw [declared, usage, List.map_append, FrameUsage.locals_append, FrameUsage.locals_append,
      Expr.locals_usage, Nat.zero_add, Int.natCast_add, ← Int.sub_sub]
    exact (stacked_declared top t).append (stacked_declared _ e)
  | top, .forLoop s inits c incs body => by
    rw [declared, usage, List.map_append]
    simp only [FrameUsage.locals_append, Expr.locals_usageOfOption, FrameUsage.locals_ofCharge,
      Expr.locals_usageOfAll, Nat.add_zero, Int.natCast_add, ← Int.sub_sub]
    exact (LoopInit.stacked_declared top inits).append (stacked_declared _ body)
  | top, .evaluation _ e | top, .write _ es _ | top, .return _ v | top, .break _
  | top, .continue _ => by
    simp [declared, usage, Area.Stacked]

/-- As `stacked_declared`, for several statements. -/
theorem stacked_declaredInAll : ∀ (top : Int) (ss : List Stmt),
    Area.Stacked top ((declaredInAll T top ss).map (VarDecl.area T))
      (top - (usageOfAll T ss).locals)
  | top, [] => by simp [declaredInAll, usageOfAll, Area.Stacked]
  | top, st :: ss => by
    rw [declaredInAll, usageOfAll, List.map_append, FrameUsage.locals_append,
      Int.natCast_add, ← Int.sub_sub]
    exact (stacked_declared top st).append (stacked_declaredInAll _ ss)

end

end Stmt

end Stacked

/-! ### The layout -/

namespace FrameLayout

/-- The area of a slot. -/
def slotArea (s : Slot) : Area := ⟨.node s.node, s.offset, s.size⟩

/-- The areas of the layout, from the top down. -/
def areas (f : FrameLayout) : List Area :=
  ⟨.calls, f.callTempOffset, f.callTempSize⟩ :: ⟨.result, f.returnTempOffset, f.returnTempSize⟩ ::
    f.slots.map slotArea

theorem stacked_slotsBelow (top : Int) (charges : List (NodeId × Nat)) :
    Area.Stacked top ((slotsBelow top charges).map slotArea)
      (top - slotsSize (slotsBelow top charges)) := by
  induction charges generalizing top with
  | nil => simp [slotsBelow, slotsSize, Area.Stacked]
  | cons c charges ih =>
    refine ⟨by simp [slotArea, Area.stop], ?_⟩
    rw [slotsBelow, slotsSize, Int.natCast_add, ← Int.sub_sub]
    exact ih (top - c.2)

/-- The areas of a layout lie right under the local variables, and end where the frame ends. -/
theorem stacked_areas (function : String) (l c r : Nat) (charges : List (NodeId × Nat)) :
    Area.Stacked (-l) (ofCharges function l c r charges).areas
      (-(ofCharges function l c r charges).frameSize) := by
  have hslots := stacked_slotsBelow (-(l + c + r : Nat)) charges
  have hbottom : (-(l + c + r : Nat) : Int) - slotsSize (slotsBelow (-(l + c + r : Nat)) charges) =
      -(ofCharges function l c r charges).frameSize := by
    simp only [frameSize, tempSize, ofCharges, returnTempOffset]
    omega
  rw [hbottom] at hslots
  refine ⟨?_, ?_, hslots⟩
  · simp only [Area.stop, callTempOffset, ofCharges]
    omega
  · simp only [Area.stop, returnTempOffset, callTempOffset, ofCharges]
    omega

/-- Each charge has a slot of its size. -/
theorem exists_slot {top : Int} {charges : List (NodeId × Nat)} {c : NodeId × Nat}
    (hc : c ∈ charges) :
    ∃ s ∈ slotsBelow top charges, s.node = c.1 ∧ s.size = c.2 := by
  induction charges generalizing top with
  | nil => cases hc
  | cons c' charges ih =>
    rw [slotsBelow]
    rcases List.mem_cons.mp hc with rfl | hc
    · exact ⟨_, List.mem_cons_self, rfl, rfl⟩
    · obtain ⟨s, hs, h⟩ : ∃ s ∈ slotsBelow (top - c'.2) charges, s.node = c.1 ∧
        s.size = c.2 := ih hc
      exact ⟨s, List.mem_cons_of_mem _ hs, h⟩

/-- If no node has two slots, each is found by its node. -/
theorem slotAt_eq {f : FrameLayout} (hf : (f.slots.map Slot.node).Nodup) {s : Slot}
    (hs : s ∈ f.slots) :
    f.slotAt s.node = s.offset := by
  have hfind : f.slots.find? (·.node = s.node) = some s := by
    generalize f.slots = ss at hf hs
    induction ss with
    | nil => cases hs
    | cons s' ss ih =>
      rw [List.map_cons, List.nodup_cons] at hf
      rcases List.mem_cons.mp hs with rfl | hs
      · exact List.find?_cons_of_pos (by simp)
      · have hne : s'.node ≠ s.node := fun heq => hf.1 (heq ▸ List.mem_map_of_mem hs)
        rw [List.find?_cons_of_neg (by simpa using hne)]
        exact ih hf.2 hs
  rw [slotAt, slotOffset?, hfind]
  rfl

end FrameLayout

/-! ### The nodes that need slots -/

theorem FrameUsage.sublist_ofCharge (id : NodeId) (n : Option Nat) :
    (ofCharge id n).nodes.Sublist [id] := by
  cases n with
  | none => exact List.nil_sublist _
  | some n => exact .refl _

namespace Expr

variable {T : TypeTable}

mutual

/-- An expression charges nodes of its own, each at most once. -/
theorem sublist_usage : ∀ (e : Expr) (mode : Mode), (e.usage T mode).nodes.Sublist e.ids
  | .integer .., _ | .double .., _ | .string .., _ | .nullptr _, _ | .input _, _ | .variable .., _
  | .sizeof .., _ => by simp [usage]
  | .pointerIndex s b i, _ | .assignment s b i, _ | .binary s _ b i, _ => by
    rw [usage, FrameUsage.nodes_append, ids]
    exact ((sublist_usage b _).append (sublist_usage i _)).cons s.id
  | .tupleIndex s a _, _ | .addressOf s a, _ | .unary s _ a, _ | .stackAlloc s a, _ => by
    rw [usage, ids]
    exact (sublist_usage a _).cons s.id
  | .rvalue s a, mode => by
    rw [usage, FrameUsage.nodes_append, ids]
    exact (FrameUsage.sublist_ofCharge _ _).append (sublist_usage a _)
  | .tuple s [e], mode => by
    rw [usage, ids, idsOfAll, idsOfAll, List.append_nil]
    exact (sublist_usage e mode).cons s.id
  | .tuple s [], mode => by
    simp [usage, usageOfAll, ids, idsOfAll, ownCharge, FrameUsage.nodes_ofCharge]
  | .tuple s (e :: e' :: es), mode => by
    rw [usage, FrameUsage.nodes_append, ids]
    · exact (FrameUsage.sublist_ofCharge _ _).append (sublist_usageOfAll (e :: e' :: es))
    · simp
  | .call s _ args, _ => by
    rw [usage, FrameUsage.nodes_append, ids]
    have hown : ∀ b : Bool,
        (if b then FrameUsage.ofCall (T.typeOf s.id).size else .none).nodes = [] := by
      rintro (_ | _) <;> rfl
    rw [hown, List.nil_append]
    exact (sublist_usageOfAll args).cons s.id

/-- As `sublist_usage`, for several expressions. -/
theorem sublist_usageOfAll : ∀ es : List Expr, (usageOfAll T es).nodes.Sublist (idsOfAll es)
  | [] => .slnil
  | e :: es => by
    rw [usageOfAll, FrameUsage.nodes_append, idsOfAll]
    exact (sublist_usage e .value).append (sublist_usageOfAll es)

end

theorem sublist_usageOfOption (e : Option Expr) :
    (usageOfOption T e).nodes.Sublist (idsOfOption e) := by
  cases e with
  | none => exact .refl _
  | some e => exact sublist_usage e .value

end Expr

section Statements

variable {T : TypeTable}

theorem VarDecl.sublist_usage (d : VarDecl) : (d.usage T).nodes.Sublist d.ids :=
  (Expr.sublist_usageOfOption d.initializer).cons d.id

theorem VarDecl.sublist_usageOfAll (ds : List VarDecl) :
    (usageOfAll T ds).nodes.Sublist (idsOfAll ds) := by
  induction ds with
  | nil => exact .refl _
  | cons d ds ih =>
    rw [usageOfAll, FrameUsage.nodes_append, idsOfAll]
    exact d.sublist_usage.append ih

theorem LoopInit.sublist_usageOfAll (is : List LoopInit) :
    (usageOfAll T is).nodes.Sublist (idsOfAll is) := by
  induction is with
  | nil => exact .refl _
  | cons i is ih =>
    rw [usageOfAll, FrameUsage.nodes_append, idsOfAll]
    refine List.Sublist.append ?_ ih
    cases i with
    | declare d => exact d.sublist_usage
    | evaluate e => exact e.sublist_usage .value

namespace Stmt

mutual

/-- A statement charges nodes of its own, each at most once. A loop is charged behind its condition,
so the order is not that of the nodes. -/
theorem subperm_usage : ∀ st : Stmt, (st.usage T).nodes.Subperm st.ids
  | .block s ds body => by
    rw [usage, FrameUsage.nodes_append, ids]
    exact ((VarDecl.sublist_usageOfAll ds).subperm.append (subperm_usageOfAll body)).cons_right s.id
  | .evaluation s e => by
    rw [usage, ids]
    exact ((e.sublist_usage .value).cons s.id).subperm
  | .write s args _ => by
    rw [usage, ids]
    exact ((Expr.sublist_usageOfAll args).cons s.id).subperm
  | .ifThen s c t => by
    rw [usage, FrameUsage.nodes_append, ids]
    exact ((c.sublist_usage .value).subperm.append (subperm_usage t)).cons_right s.id
  | .ifElse s c t e => by
    rw [usage, FrameUsage.nodes_append, FrameUsage.nodes_append, List.append_assoc, ids]
    exact ((c.sublist_usage .value).subperm.append
      ((subperm_usage t).append (subperm_usage e))).cons_right s.id
  | .forLoop s inits c incs body => by
    have hparts := (LoopInit.sublist_usageOfAll (T := T) inits).subperm.append
      ((Expr.sublist_usageOfOption (T := T) c).subperm.append
        ((Expr.sublist_usageOfAll (T := T) incs).subperm.append (subperm_usage body)))
    have hall := (FrameUsage.sublist_ofCharge s.id (loopCharge T c)).subperm.append hparts
    refine (List.Perm.subperm ?_).trans hall
    simp only [usage, FrameUsage.nodes_append, List.append_assoc]
    exact (List.Perm.append_left _ (List.perm_append_comm_assoc _ _ _)).trans
      (List.perm_append_comm_assoc _ _ _)
  | .break s | .continue s => by
    rw [usage]
    exact (List.nil_sublist _).subperm
  | .return s v => by
    rw [usage, ids]
    exact ((Expr.sublist_usageOfOption v).cons s.id).subperm

/-- As `subperm_usage`, for several statements. -/
theorem subperm_usageOfAll : ∀ ss : List Stmt, (usageOfAll T ss).nodes.Subperm (idsOfAll ss)
  | [] => List.Subperm.refl _
  | st :: ss => by
    rw [usageOfAll, FrameUsage.nodes_append, idsOfAll]
    exact (subperm_usage st).append (subperm_usageOfAll ss)

end

end Stmt

end Statements

/-! ### Functions -/

namespace Function

variable (T : TypeTable) (f : Function)

/-- Where the first argument of a function is: behind the return address and the frame pointer of
the caller, of a word each, and behind the address where the result goes, if that is a tuple. -/
def argumentsStart : Int := if (T.typeOf f.signature.id).isTuple then 12 else 8

/-- The arguments of a function, with their offsets. -/
def arguments : List (VarDecl × Int) :=
  VarDecl.arguments T (f.argumentsStart T) f.signature.arguments

/-- The local variables of a function, with their offsets. -/
def locals : List (VarDecl × Int) := f.body.stmt.declared T 0

/-- The areas of the arguments, in their order. -/
def argumentAreas : List Area := (f.arguments T).map (VarDecl.area T)

/-- The area of the address that the caller passes for the result, if that is a tuple. -/
def passedAreas : List Area :=
  if (T.typeOf f.signature.id).isTuple then [⟨.passed, 8, Ty.wordSize⟩] else []

/-- The areas of the local variables, from the top down. -/
def localAreas : List Area := (f.locals T).map (VarDecl.area T)

/-- **The areas of a function below its frame pointer**, from the top down. -/
def areas : List Area := f.localAreas T ++ (f.frame T).areas

variable {T f}

/-- **The local variables fill the bytes that the layout counts for them.** -/
theorem stacked_locals : Area.Stacked 0 (f.localAreas T) (-(f.frame T).localSize) := by
  have hstacked := Stmt.stacked_declared (T := T) 0 f.body.stmt
  rw [Int.zero_sub] at hstacked
  exact hstacked

/-- **The areas fill the frame.** -/
theorem stacked_areas : Area.Stacked 0 (f.areas T) (-(f.frame T).frameSize) :=
  stacked_locals.append (FrameLayout.stacked_areas _ _ _ _ _)

/-- **The arguments lie one behind the other**, behind the address that the caller passes. -/
theorem stacked_arguments :
    Area.Stacked (f.argumentsStart T +
      Ty.sizeOfAll (f.signature.arguments.map fun d => T.typeOf d.id))
      (f.argumentAreas T).reverse (f.argumentsStart T) ∧
    Area.Stacked (f.argumentsStart T) (f.passedAreas T) 8 := by
  refine ⟨VarDecl.stacked_arguments _ _, ?_⟩
  unfold argumentsStart passedAreas
  split
  · exact .one _ _ _
  · rfl

/-- **No node has two slots.** -/
theorem nodup_slots (hf : f.ids.Nodup) : ((f.frame T).slots.map Slot.node).Nodup := by
  rw [map_slots_frame]
  obtain ⟨ids, hperm, hsub⟩ := Stmt.subperm_usage (T := T) f.body.stmt
  exact hperm.nodup_iff.mp (hsub.nodup (List.nodup_append.mp hf).2.1)

end Function

end PostfixCompiler
