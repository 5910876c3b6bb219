import PostfixCompiler.Emission.State
import PostfixCompiler.Ty.Compatible

/-!
# Moving values between stack and memory

A value is moved leaf by leaf. On the stack its first leaf is on top, so a value is loaded from its
last leaf to its first and stored from its first to its last. On its way into memory an `int` leaf
may become a `double` one.

## Main definitions

* `PostfixCompiler.Emission.Base`: where the bytes of a value start.
* `PostfixCompiler.Emission.store`: moves the value on top of the stack to a place.
* `PostfixCompiler.Emission.load`: pushes the value at a place.
-/

namespace PostfixCompiler.Emission

/-- Where the bytes of a value start. -/
inductive Base where
  /-- At an offset from the frame pointer. -/
  | frame (offset : Int)
  /-- At the address that is kept at an offset from the frame pointer. -/
  | pinned (slot : Int)

/-- Pushes the address of a byte of a value. -/
def Base.push (b : Base) (byte : Nat) : EmitM Unit :=
  match b with
  | .frame offset => emit (.frameAddress (offset + byte))
  | .pinned slot => do
    emitAll [.frameAddress slot, .loadInt]
    addOffset byte

mutual

/-- Moves the value of type `source` on top of the stack to a place that holds a `target`. The
address of each byte of the place is pushed by `push`, and the value starts at byte `offset`. -/
def store (push : Nat → EmitM Unit) (target source : Ty) (offset : Nat) : EmitM Unit :=
  match target with
  | .tuple [t] => store push t source offset
  | target =>
    match target, source.stripped with
    | .tuple ts, .tuple ss =>
      if ts.length = ss.length then storeEach push ts ss offset
      else fault (.notStorable (.tuple ss) (.tuple ts))
    | .tuple ts, s => fault (.notStorable s (.tuple ts))
    | t, .tuple ss => fault (.notStorable (.tuple ss) t)
    | .double, s => do
      if s = .int then emit .intToDouble
      push offset
      emit .storeDouble
    | _, _ => do
      push offset
      emit .storeInt

/-- Moves the components of a tuple one after the other. -/
def storeEach (push : Nat → EmitM Unit) (targets sources : List Ty) (offset : Nat) : EmitM Unit :=
  match targets, sources with
  | t :: ts, s :: ss => do
    store push t s offset
    storeEach push ts ss (offset + t.size)
  | _, _ => pure ()

end

/-- Pushes leaves of a value, each with the byte where it starts. -/
def loadLeaves (b : Base) : List (Ty × Nat) → EmitM Unit
  | [] => pure ()
  | (t, byte) :: rest => do
    b.push byte
    emit (if t = .double then .loadDouble else .loadInt)
    loadLeaves b rest

/-- Pushes the value of type `t` at a place. -/
def load (t : Ty) (b : Base) : EmitM Unit := loadLeaves b t.leafOffsets.reverse

end PostfixCompiler.Emission
