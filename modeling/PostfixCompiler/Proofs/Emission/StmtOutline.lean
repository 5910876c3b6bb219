import PostfixCompiler.Proofs.Emission.ExprOutline
import PostfixCompiler.Proofs.Frame.Usage

/-!
# The outline of a statement

The code of a statement depends on the place where it stands: on what names are bound to there, on
where the local variables end, and on how many labels were made up before. A statement leaves the
names as they are and moves the other two by amounts that are found without writing any code, so its
outline is again a plain function.

Every leaf of a statement – an initial value, an expression statement, a printed value, a condition,
a return – is marked as an action of its own, and the jump behind a condition as a branch.

## Main definitions

* `PostfixCompiler.Point`: the place where a phrase stands.
* `PostfixCompiler.VarDecl.outline`, `PostfixCompiler.LoopInit.outline`,
  `PostfixCompiler.Stmt.outline`.
* `PostfixCompiler.VarDecl.after`, `PostfixCompiler.LoopInit.after`: the place behind a declaration.
* `PostfixCompiler.Stmt.labelCount`: how many labels the code of a statement makes up.
-/

namespace PostfixCompiler

open Emission

/-- **The place where a phrase stands.** -/
structure Point where
  /-- What names are bound to. -/
  scope : View Symbol
  /-- Where the local variables end, from the frame pointer. -/
  cursor : Int
  /-- How many labels were made up. -/
  labels : Nat

/-- The place behind a phrase that binds no names. -/
def Point.move (pt : Point) (bytes labels : Nat) : Point :=
  ⟨pt.scope, pt.cursor - bytes, pt.labels + labels⟩

@[simp] theorem Point.move_move (pt : Point) (a b c d : Nat) :
    (pt.move a b).move c d = pt.move (a + c) (b + d) := by
  simp only [move, Nat.add_assoc]
  congr 1
  omega

@[simp] theorem Point.scope_move (pt : Point) (a b : Nat) : (pt.move a b).scope = pt.scope := rfl

@[simp] theorem Point.move_zero (pt : Point) : pt.move 0 0 = pt := by
  simp [move]

/-! ### Local variables -/

/-- The symbol of a variable that has a place in a frame. -/
def Symbol.placed (line : UInt32) (v : String × Ty × Int) : Symbol :=
  { Symbol.ofVariable v.1 .private v.2.1 line with offset := v.2.2, defined := true }

/-- Names become the variables with the given places, one after the other. -/
def View.place (line : UInt32) (v : View Symbol) : List (String × Ty × Int) → View Symbol
  | [] => v
  | p :: ps => View.place line (v.bind p.1 (Symbol.placed line p)) ps

namespace VarDecl

/-- The outline of a declaration: its variables get their initial value in one go. -/
def outline (cx : Context) (pt : Point) (d : VarDecl) : Outline :=
  match d.initializer with
  | none => .done
  | some e =>
    .piece (.action (.initial d.id)) <|
      e.outline cx pt.scope .value pt.labels ++
        .ofCode (storeInstrs (Base.frame (pt.cursor - (cx.types.typeOf d.id).size)).instrs
          (cx.types.typeOf d.id) (e.type cx.types) 0)

/-- The place behind a declaration: its variables are bound, and lie below those before it. -/
def after (T : TypeTable) (pt : Point) (d : VarDecl) : Point :=
  let cursor := pt.cursor - (T.typeOf d.id).size
  ⟨pt.scope.place d.line (d.places (T.typeOf d.id) cursor), cursor,
    pt.labels + Expr.labelCountOfOption d.initializer⟩

/-- The outline of declarations, one after the other. -/
def outlineAll (cx : Context) (pt : Point) : List VarDecl → Outline
  | [] => .done
  | d :: ds => d.outline cx pt ++ outlineAll cx (d.after cx.types pt) ds

/-- The place behind declarations. -/
def afterAll (T : TypeTable) (pt : Point) : List VarDecl → Point
  | [] => pt
  | d :: ds => afterAll T (d.after T pt) ds

/-- How many labels the code of declarations makes up. -/
def labelCountOfAll : List VarDecl → Nat
  | [] => 0
  | d :: ds => Expr.labelCountOfOption d.initializer + labelCountOfAll ds

/-- The scope behind arguments, the first of which is at `offset`. -/
def argumentScope (T : TypeTable) (v : View Symbol) (offset : Int) : List VarDecl → View Symbol
  | [] => v
  | d :: ds =>
    let t := T.typeOf d.id
    argumentScope T (v.place d.line (d.names.map fun name => (name, t, offset)))
      (offset + t.size) ds

end VarDecl

/-! ### Parts of statements -/

namespace Expr

/-- The outline of an expression that is evaluated for its effects. -/
def effectOutline (cx : Context) (pt : Point) (e : Expr) : Outline :=
  .piece (.action (.evaluate e.id)) <|
    e.outline cx pt.scope .value pt.labels ++ .ofCode (trashInstrs (e.type cx.types).size)

/-- The outline of expressions that are evaluated for their effects, one after the other. -/
def effectOutlineOfAll (cx : Context) (pt : Point) : List Expr → Outline
  | [] => .done
  | e :: es => e.effectOutline cx pt ++ effectOutlineOfAll cx (pt.move 0 e.labelCount) es

/-- The instructions that print the leaves of a value. -/
def printInstrs (ts : List Ty) : List Instr :=
  ts.flatMap fun t => .call (printHelper t) :: trashInstrs t.size

/-- The outline of expressions that are printed, one after the other. -/
def printOutline (cx : Context) (pt : Point) : List Expr → Outline
  | [] => .done
  | e :: es =>
    .piece (.action (.print e.id))
        (e.outline cx pt.scope .value pt.labels ++
          .ofCode (printInstrs (e.type cx.types).leaves)) ++
      printOutline cx (pt.move 0 e.labelCount) es

/-- The outline of a condition, whose value is left on the stack, and of the jump that it
decides. -/
def testOutline (cx : Context) (pt : Point) (keep : List Instr) (otherwise : String)
    (c : Expr) : Outline :=
  .piece (.action (.test c.id)) (c.outline cx pt.scope .value pt.labels ++ .ofCode keep) ++
    .piece .branch (.ofCode [.jumpIfZero otherwise])

end Expr

namespace LoopInit

/-- The outline of a step that a loop takes before its first round. -/
def outline (cx : Context) (pt : Point) : LoopInit → Outline
  | .declare d => d.outline cx pt
  | .evaluate e => e.effectOutline cx pt

/-- The place behind such a step. -/
def after (T : TypeTable) (pt : Point) : LoopInit → Point
  | .declare d => d.after T pt
  | .evaluate e => pt.move 0 e.labelCount

/-- The outline of what a loop does before its first round. -/
def outlineAll (cx : Context) (pt : Point) : List LoopInit → Outline
  | [] => .done
  | i :: is => i.outline cx pt ++ outlineAll cx (i.after cx.types pt) is

/-- The place behind what a loop does before its first round. -/
def afterAll (T : TypeTable) (pt : Point) : List LoopInit → Point
  | [] => pt
  | i :: is => afterAll T (i.after T pt) is

/-- How many labels the code of a step makes up. -/
def labelCount : LoopInit → Nat
  | .declare d => Expr.labelCountOfOption d.initializer
  | .evaluate e => e.labelCount

/-- How many labels the code of the steps makes up. -/
def labelCountOfAll : List LoopInit → Nat
  | [] => 0
  | i :: is => i.labelCount + labelCountOfAll is

end LoopInit

namespace Emission

/-- What is fixed in the body of a loop that makes up its labels at a place: the first is that of
its condition, the second that of its increments, and the third that of its end. -/
def Context.inLoop (cx : Context) (start : Point) : Context :=
  { cx with loop := some ⟨labelName (start.labels + 2), labelName (start.labels + 3)⟩ }

/-- The instructions that keep the tested component of a condition, if it is a tuple. -/
def keepInstrs (slot : Int) (t : Ty) : List Instr := if t.isTuple then keepLast t.size slot else []

@[simp] theorem types_inLoop (cx : Context) (pt : Point) : (cx.inLoop pt).types = cx.types := rfl

@[simp] theorem frame_inLoop (cx : Context) (pt : Point) : (cx.inLoop pt).frame = cx.frame := rfl

@[simp] theorem config_inLoop (cx : Context) (pt : Point) : (cx.inLoop pt).config = cx.config := rfl

@[simp] theorem returnType_inLoop (cx : Context) (pt : Point) :
    (cx.inLoop pt).returnType = cx.returnType := rfl

/-- The outline of the condition of a loop, if it has one. -/
def loopTestOutline (cx : Context) (pt : Point) (id : NodeId) (done : String) :
    Option Expr → Outline
  | none => .done
  | some c => c.testOutline cx pt (keepInstrs (cx.frame.slotAt id) (c.type cx.types)) done

/-- The outline of the value that a function returns. -/
def returnOutline (cx : Context) (pt : Point) (v : Expr) : Outline :=
  match cx.returnType with
  | .tuple ts =>
    .ofCode [.frameAddress argumentsOffset, .loadInt,
      .frameAddress cx.frame.returnTempOffset, .storeInt] ++
      v.outline cx pt.scope .value pt.labels ++
      .ofCode (storeInstrs (Base.pinned cx.frame.returnTempOffset).instrs (.tuple ts)
        (v.type cx.types) 0)
  | .double =>
    v.outline cx pt.scope .value pt.labels ++
      .ofCode ((if v.type cx.types = .int then [.intToDouble] else []) ++ [.storeResultDouble])
  | _ => v.outline cx pt.scope .value pt.labels ++ .ofCode [.storeResultInt]

/-- The outline of the way out of a function, behind the value that it returns. -/
def leaveOutline (id : NodeId) (value : Outline) : Outline :=
  .piece (.action (.return id)) (value ++ .ofCode [.leave, .return])

end Emission

/-! ### Statements -/

namespace Stmt

mutual

/-- How many labels the code of a statement makes up: one for each text and each short cut in its
expressions, one for each end of a branch and three for a loop. -/
def labelCount : Stmt → Nat
  | .block _ ds body => VarDecl.labelCountOfAll ds + labelCountOfAll body
  | .evaluation _ e => e.labelCount
  | .write _ args _ => Expr.labelCountOfAll args
  | .ifThen _ c t => 1 + c.labelCount + t.labelCount
  | .ifElse _ c t e => 2 + c.labelCount + t.labelCount + e.labelCount
  | .forLoop _ inits c incs body =>
    LoopInit.labelCountOfAll inits + 3 + Expr.labelCountOfOption c + body.labelCount +
      Expr.labelCountOfAll incs
  | .break _ | .continue _ => 0
  | .return _ v => Expr.labelCountOfOption v

/-- How many labels the code of statements makes up. -/
def labelCountOfAll : List Stmt → Nat
  | [] => 0
  | s :: ss => s.labelCount + labelCountOfAll ss

end

/-- The label behind a loop, where `break` goes. -/
def doneLabel (cx : Context) : String := (cx.loop.map LoopLabels.done).getD ""

/-- The label at the increments of a loop, where `continue` goes. -/
def incrementLabel (cx : Context) : String := (cx.loop.map LoopLabels.increment).getD ""

mutual

/-- **The outline of the code of a statement.** -/
def outline (cx : Context) (pt : Point) (s : Stmt) : Outline :=
  .piece (.statement s) <|
    match s with
    | .block _ ds body =>
      VarDecl.outlineAll cx pt ds ++ outlineAll cx (VarDecl.afterAll cx.types pt ds) body
    | .evaluation _ e => e.effectOutline cx pt
    | .write site args newline =>
      Expr.printOutline cx pt args ++
        if newline then .piece (.action (.endLine site.id)) (.ofCode [.call "println"]) else .done
    | .ifThen _ c t =>
      let done := labelName (pt.labels + 1)
      c.testOutline cx (pt.move 0 1) [] done ++
        t.outline cx (pt.move 0 (1 + c.labelCount)) ++
        .ofCode [.label done]
    | .ifElse _ c t e =>
      let otherwise := labelName (pt.labels + 1)
      let done := labelName (pt.labels + 2)
      c.testOutline cx (pt.move 0 2) [] otherwise ++
        t.outline cx (pt.move 0 (2 + c.labelCount)) ++
        .ofCode [.jump done, .label otherwise] ++
        e.outline cx (pt.move (t.usage cx.types).locals (2 + c.labelCount + t.labelCount)) ++
        .ofCode [.label done]
    | .forLoop site inits c incs body =>
      let start := LoopInit.afterAll cx.types pt inits
      let top := labelName (start.labels + 1)
      let increment := labelName (start.labels + 2)
      let done := labelName (start.labels + 3)
      let inside := start.move 0 (3 + Expr.labelCountOfOption c)
      LoopInit.outlineAll cx pt inits ++ .ofCode [.label top] ++
        loopTestOutline cx (start.move 0 3) site.id done c ++
        body.outline (cx.inLoop start) inside ++
        .ofCode [.label increment] ++
        Expr.effectOutlineOfAll cx
          (inside.move (body.usage cx.types).locals body.labelCount) incs ++
        .ofCode [.jump top, .label done]
    | .break _ => .ofCode [.jump (doneLabel cx)]
    | .continue _ => .ofCode [.jump (incrementLabel cx)]
    | .return site v =>
      leaveOutline site.id <|
        match v with
        | none => .done
        | some v => returnOutline cx pt v

/-- The outline of statements, one after the other. -/
def outlineAll (cx : Context) (pt : Point) : List Stmt → Outline
  | [] => .done
  | s :: ss =>
    s.outline cx pt ++ outlineAll cx (pt.move (s.usage cx.types).locals s.labelCount) ss

end

theorem doneLabel_eq {cx : Context} {l : LoopLabels} (h : cx.loop = some l) :
    doneLabel cx = l.done := by
  rw [doneLabel, h]
  rfl

theorem incrementLabel_eq {cx : Context} {l : LoopLabels} (h : cx.loop = some l) :
    incrementLabel cx = l.increment := by
  rw [incrementLabel, h]
  rfl

/-- Behind a jump is the place where it starts. -/
theorem move_jump (T : TypeTable) (site : Site) (pt : Point) :
    pt.move ((Stmt.break site).usage T).locals (Stmt.break site).labelCount = pt ∧
      pt.move ((Stmt.continue site).usage T).locals (Stmt.continue site).labelCount = pt := by
  rw [usage, usage, labelCount, labelCount]
  exact ⟨pt.move_zero, pt.move_zero⟩

/-- A jump in the body of a loop is one instruction. -/
theorem code_outline_jump {cx : Context} {l : LoopLabels} (h : cx.loop = some l)
    (site : Site) (pt : Point) :
    ((Stmt.break site).outline cx pt).code = [.jump l.done] ∧
      ((Stmt.continue site).outline cx pt).code = [.jump l.increment] := by
  rw [outline, outline, doneLabel_eq h, incrementLabel_eq h]
  simp only [Outline.code_piece, Outline.code_ofCode, and_self]

end Stmt

end PostfixCompiler
