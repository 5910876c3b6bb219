import PostfixCompiler.Proofs.Emission.Outline
import PostfixCompiler.Proofs.Typing.Typed

/-!
# The outline of an expression

The code of a typed expression is a function of what its scope binds, of the mode and of the number
of labels that were made up before. Here that function is written down without the state in which
the writer works: no step can fail, and the labels of an operand follow from the number of labels
that the operands before it need.

## Main definitions

* `PostfixCompiler.Expr.labelCount`: how many labels the code of an expression makes up.
* `PostfixCompiler.Expr.leaves`: whether the code leaves a value or an address.
* `PostfixCompiler.Expr.outline`: the outline of the code of an expression.
-/

namespace PostfixCompiler

open Emission

/-! ### Moving values -/

namespace Emission

/-- The instructions that push the address of a byte of a value. -/
def Base.instrs (b : Base) (byte : Nat) : List Instr :=
  match b with
  | .frame offset => [.frameAddress (offset + byte)]
  | .pinned slot => [.frameAddress slot, .loadInt] ++ if byte = 0 then [] else [.int byte, .add]

mutual

/-- The instructions that move a value of type `source` from the stack to a place. -/
def storeInstrs (push : Nat → List Instr) (target source : Ty) (offset : Nat) : List Instr :=
  match target with
  | .tuple [t] => storeInstrs push t source offset
  | .tuple ts =>
    match source.stripped with
    | .tuple ss => storeEachInstrs push ts ss offset
    | _ => []
  | .double =>
    (if source.stripped = .int then [.intToDouble] else []) ++ push offset ++ [.storeDouble]
  | _ => push offset ++ [.storeInt]

/-- The instructions that move the components of a tuple, one after the other. -/
def storeEachInstrs (push : Nat → List Instr) (targets sources : List Ty) (offset : Nat) :
    List Instr :=
  match targets, sources with
  | t :: ts, s :: ss => storeInstrs push t s offset ++ storeEachInstrs push ts ss (offset + t.size)
  | _, _ => []

end

mutual

/-- **What is true of the instructions that move a leaf is true of those that move a value.** -/
theorem forall_store {R : Instr → Prop} {push : Nat → List Instr} (hpush : ∀ n, ∀ i ∈ push n, R i)
    (hwiden : R .intToDouble) (hint : R .storeInt) (hdouble : R .storeDouble) :
    ∀ (target source : Ty) (offset : Nat), ∀ i ∈ storeInstrs push target source offset, R i
  | .void, source, offset | .int, source, offset | .string, source, offset
  | .pointer _, source, offset | .auto, source, offset => by
    unfold storeInstrs
    exact List.forall_mem_append.mpr ⟨hpush offset, by simpa using hint⟩
  | .double, source, offset => by
    unfold storeInstrs
    refine List.forall_mem_append.mpr ⟨List.forall_mem_append.mpr ⟨?_, hpush offset⟩,
      by simpa using hdouble⟩
    split
    · simpa using hwiden
    · simp
  | .tuple [t], source, offset => by
    rw [storeInstrs]
    exact forall_store hpush hwiden hint hdouble t source offset
  | .tuple [], source, offset | .tuple (_ :: _ :: _), source, offset => by
    unfold storeInstrs
    split
    · exact forall_storeEach hpush hwiden hint hdouble _ _ offset
    · simp

/-- As `forall_store`, for the components of a tuple. -/
theorem forall_storeEach {R : Instr → Prop} {push : Nat → List Instr}
    (hpush : ∀ n, ∀ i ∈ push n, R i) (hwiden : R .intToDouble) (hint : R .storeInt)
    (hdouble : R .storeDouble) :
    ∀ (targets sources : List Ty) (offset : Nat),
    ∀ i ∈ storeEachInstrs push targets sources offset, R i
  | [], _, _ | _ :: _, [], _ => by
    rw [storeEachInstrs] <;> simp
  | t :: ts, u :: us, offset => by
    rw [storeEachInstrs]
    exact List.forall_mem_append.mpr ⟨forall_store hpush hwiden hint hdouble t u offset,
      forall_storeEach hpush hwiden hint hdouble ts us _⟩

end

/-- The instruction that replaces the address of a leaf by the leaf. -/
def loadInstr (t : Ty) : Instr := if t = .double then .loadDouble else .loadInt

/-- The instructions that push leaves of a value. -/
def loadInstrs (b : Base) (leaves : List (Ty × Nat)) : List Instr :=
  leaves.flatMap fun l => b.instrs l.2 ++ [loadInstr l.1]

/-- The instruction that drops bytes from the stack, if there are any. -/
def trashInstrs (n : Nat) : List Instr := if n = 0 then [] else [.trash n]

/-- The instructions that add an offset to an address. -/
def offsetInstrs (n : Nat) : List Instr := if n = 0 then [] else [.int n, .add]

/-- The instruction that widens an operand of type `t` where a `double` is wanted. -/
def widenInstrs (wanted t : Ty) : List Instr :=
  if wanted = .double ∧ t = .int then [.intToDouble] else []

/-- The instructions that lay down a text and push its address. -/
def textInstrs (label s : String) : List Instr :=
  [.rodata, .align, .label label, .staticString s, .text, .address label]

/-- The instruction that pushes the address of a variable. -/
def variableInstr (config : Config) (scope : View Symbol) (name : String) : Instr :=
  match scope name with
  | some s => if s.isGlobal then .address (config.labelOf s) else .frameAddress s.offset
  | none => .frameAddress 0

/-- The instructions that read a number from the input. -/
def inputInstrs (t : Ty) : List Instr :=
  if t = .double then [.call "readd", .loadResultDouble] else [.call "readi", .loadResultInt]

/-- The instructions that read a place whose address is on the stack. -/
def readInstrs (slot : Int) (t : Ty) (mode : Mode) : List Instr :=
  match t, mode with
  | .tuple _, .address => []
  | .tuple _, .value =>
    [.frameAddress slot, .storeInt] ++ loadInstrs (.pinned slot) t.leafOffsets.reverse
  | .double, _ => [.loadDouble]
  | _, _ => [.loadInt]

/-- The instructions of a call behind its arguments. -/
def callInstrs (area : Int) (label : String) (t : Ty) (bytes : Nat) (mode : Mode) : List Instr :=
  match t with
  | .tuple _ =>
    [.frameAddress area, .call label] ++ trashInstrs (bytes + Ty.wordSize) ++
      match mode with
      | .address => [.frameAddress area]
      | .value => loadInstrs (.frame area) t.leafOffsets.reverse
  | .void => .call label :: trashInstrs bytes
  | .double => .call label :: trashInstrs bytes ++ [.loadResultDouble]
  | _ => .call label :: trashInstrs bytes ++ [.loadResultInt]

/-- The label of a function that is called. -/
def calleeLabel (config : Config) (scope : View Symbol) (name : String) : String :=
  match scope name with
  | some s => config.labelOf s
  | none => name

/-- The types of the parameters of a function that is called. -/
def calleeParameters (scope : View Symbol) (name : String) : List Ty :=
  match scope name with
  | some s => s.parameters
  | none => []

end Emission

/-- Where the slot of a node is. -/
def FrameLayout.slotAt (f : FrameLayout) (node : NodeId) : Int := (f.slotOffset? node).getD 0

namespace Expr

/-! ### Labels and modes -/

mutual

/-- How many labels the code of an expression makes up: one for each text, and one for each operator
whose second operand may be jumped over. -/
def labelCount : Expr → Nat
  | .string .. => 1
  | .integer .. | .double .. | .nullptr _ | .input _ | .variable .. | .sizeof .. => 0
  | .pointerIndex _ b i => b.labelCount + i.labelCount
  | .tupleIndex _ b _ => b.labelCount
  | .rvalue _ p => p.labelCount
  | .assignment _ p v => v.labelCount + p.labelCount
  | .unary _ _ a => a.labelCount
  | .binary _ op l r =>
    (if op = .and ∨ op = .or then 1 else 0) + l.labelCount + r.labelCount
  | .addressOf _ p => p.labelCount
  | .stackAlloc _ n => n.labelCount
  | .tuple _ es => labelCountOfAll es
  | .call _ _ args => labelCountOfAll args

/-- How many labels the code of expressions makes up. -/
def labelCountOfAll : List Expr → Nat
  | [] => 0
  | e :: es => e.labelCount + labelCountOfAll es

end

/-- How many labels the code of an expression makes up, if there is one. -/
def labelCountOfOption : Option Expr → Nat
  | none => 0
  | some e => e.labelCount

/-- What the code of an expression leaves on the stack if something of the given mode is wanted. -/
def leaves (T : TypeTable) (mode : Mode) : Expr → Mode
  | .variable .. | .pointerIndex .. | .tupleIndex .. => .address
  | .rvalue s _ | .call s _ _ =>
    if mode = .address ∧ (T.typeOf s.id).isTuple = true then .address else .value
  | .tuple _ [e] => e.leaves T mode
  | .tuple .. => mode
  | .integer .. | .double .. | .string .. | .nullptr _ | .input _ | .assignment .. | .unary ..
  | .binary .. | .addressOf _ _ | .stackAlloc .. | .sizeof .. => .value

/-! ### Outlines -/

mutual

/-- **The outline of the code of an expression** in a scope, if `n` labels were made up before. -/
def outline (cx : Context) (scope : View Symbol) (mode : Mode) (n : Nat) (e : Expr) : Outline :=
  .piece (.expression mode scope e) <|
    match e with
    | .integer _ k => .ofCode [.int k.toInt]
    | .double _ d => .ofCode [.double d]
    | .string s x =>
        .piece (.text s.id (labelName (n + 1))) (.ofCode (textInstrs (labelName (n + 1)) x))
    | .nullptr _ => .ofCode [.int 0]
    | .input s => .ofCode (inputInstrs (cx.types.typeOf s.id))
    | .variable _ name => .ofCode [variableInstr cx.config scope name]
    | .pointerIndex _ b i =>
      b.outline cx scope .value n ++ i.outline cx scope .value (n + b.labelCount) ++
        .ofCode [.int (b.type cx.types).pointerStep, .mul, .add]
    | .tupleIndex _ b i =>
      b.outline cx scope .address n ++
        .ofCode (offsetInstrs (((b.type cx.types).componentOffset? i.toInt).getD 0))
    | .rvalue s p =>
      p.outline cx scope .address n ++
        .ofCode (readInstrs (cx.frame.slotAt s.id) (cx.types.typeOf s.id) mode)
    | .assignment s p v =>
      let t := cx.types.typeOf s.id
      v.outline cx scope .value n ++ .ofCode (widenInstrs t (v.type cx.types)) ++
        .ofCode [if t = .double then .dupDouble else .dupInt] ++
        p.outline cx scope .address (n + v.labelCount) ++
        .ofCode [if t = .double then .storeDouble else .storeInt]
    | .unary s op a =>
      a.outline cx scope .value n ++ .ofCode (unaryTail op (cx.types.typeOf s.id))
    | .binary s op l r =>
      let tl := l.type cx.types
      let tr := r.type cx.types
      let t := cx.types.typeOf s.id
      match binaryForm op tl tr with
      | .shortCircuit =>
        l.outline cx scope .value (n + 1) ++
          .ofCode [.dupInt, decidedJump op (labelName (n + 1))] ++
          r.outline cx scope .value (n + 1 + l.labelCount) ++
          .ofCode [wordInstr op, .label (labelName (n + 1))]
      | .pointer =>
        l.outline cx scope .value n ++ r.outline cx scope .value (n + l.labelCount) ++
          .ofCode (pointerTail op tl tr)
      | .arithmetic =>
        l.outline cx scope .value n ++ .ofCode (widenInstrs t tl) ++
          r.outline cx scope .value (n + l.labelCount) ++ .ofCode (widenInstrs t tr) ++
          .ofCode [arithmeticInstr op t]
      | .comparison =>
        let wide : Ty := if tl = .double ∨ tr = .double then .double else .int
        l.outline cx scope .value n ++ .ofCode (widenInstrs wide tl) ++
          r.outline cx scope .value (n + l.labelCount) ++ .ofCode (widenInstrs wide tr) ++
          .ofCode ((if wide = .double then [.compareDouble, .int 0] else []) ++ [wordInstr op])
    | .addressOf _ p => p.outline cx scope .address n
    | .stackAlloc s count =>
      count.outline cx scope .value n ++
        .ofCode [.int (cx.types.typeOf s.id).pointerStep, .mul, .alloc, .stackPointer]
    | .sizeof _ e => .ofCode [.int (e.type cx.types).size]
    | .tuple _ [e] => e.outline cx scope mode n
    | .tuple s es =>
      match mode with
      | .address =>
        let slot := cx.frame.slotAt s.id
        slotOutline cx scope slot n es (cx.types.typeOf s.id).components 0 ++
          .ofCode [.frameAddress slot]
      | .value => reverseOutline cx scope n es
    | .call s name args =>
      argumentsOutline cx scope n args (calleeParameters scope name) ++
        .ofCode (callInstrs cx.frame.callTempOffset (calleeLabel cx.config scope name)
          (cx.types.typeOf s.id) (Ty.sizeOfAll (calleeParameters scope name)) mode)

/-- The outline of the code that builds a tuple in a slot of the frame, from byte `byte` on. -/
def slotOutline (cx : Context) (scope : View Symbol) (slot : Int) (n : Nat) (es : List Expr)
    (targets : List Ty) (byte : Nat) : Outline :=
  match es, targets with
  | e :: es, target :: ts =>
    e.outline cx scope .value n ++
      .ofCode (storeInstrs (Base.frame slot).instrs target (e.type cx.types) byte) ++
      slotOutline cx scope slot (n + e.labelCount) es ts (byte + target.size)
  | _, _ => .done

/-- The outline of the code that pushes the elements of a tuple, the last one first. -/
def reverseOutline (cx : Context) (scope : View Symbol) (n : Nat) : List Expr → Outline
  | [] => .done
  | e :: es =>
    reverseOutline cx scope n es ++ e.outline cx scope .value (n + labelCountOfAll es)

/-- The outline of the code that pushes the arguments of a call, the last one first. -/
def argumentsOutline (cx : Context) (scope : View Symbol) (n : Nat) (args : List Expr)
    (parameters : List Ty) : Outline :=
  match args, parameters with
  | e :: es, p :: ps =>
    argumentsOutline cx scope n es ps ++ e.outline cx scope .value (n + labelCountOfAll es) ++
      .ofCode (widenInstrs p (e.type cx.types))
  | _, _ => .done

end

/-- The outline of a value in parentheses holds that of the value. -/
theorem outline_singleton (cx : Context) (scope : View Symbol) (mode : Mode) (n : Nat)
    (site : Site) (e : Expr) :
    (tuple site [e]).outline cx scope mode n =
      .piece (.expression mode scope (tuple site [e])) (e.outline cx scope mode n) := by
  rw [outline]

end Expr

end PostfixCompiler
