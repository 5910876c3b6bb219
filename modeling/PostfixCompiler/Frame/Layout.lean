import PostfixCompiler.Json.Value
import PostfixCompiler.Syntax.Node
import PostfixCompiler.Syntax.Encode

/-!
# Frames

The frame of a function is what it needs below its frame pointer, from the top down:

* the local variables,
* one area for the results of calls that return a tuple, shared by all calls,
* one word for the address where the function's own result goes, if that is a tuple,
* one slot for each node that needs one.

## Main definitions

* `PostfixCompiler.FrameLayout`: the sizes of these areas, and the slots.
* `PostfixCompiler.FrameLayout.ofCharges`: hands out the slots.
* `PostfixCompiler.FrameLayout.slotOffset?`: where the slot of a node is.
* `PostfixCompiler.FrameLayout.toJson`, `PostfixCompiler.FrameLayout.summary`: a layout as it is
  reported.

Sizes and offsets are integers without bound. A report shows them as words of 32 bits.
-/

namespace PostfixCompiler

/-- A part of the frame that belongs to one node. -/
structure Slot where
  /-- The node. -/
  node : NodeId
  /-- The bytes of the slot. -/
  size : Nat
  /-- Where the slot starts, from the frame pointer. -/
  offset : Int
deriving DecidableEq

/-- The frame of a function. -/
structure FrameLayout where
  /-- The function. -/
  function : String
  /-- The bytes of the local variables. -/
  localSize : Nat
  /-- The bytes of the largest tuple that a call returns. -/
  callTempSize : Nat
  /-- The bytes of the address where the result goes. -/
  returnTempSize : Nat
  /-- The slots, from the top down. -/
  slots : List Slot
deriving DecidableEq

namespace FrameLayout

/-- The bytes of the slots together. -/
def slotsSize : List Slot → Nat
  | [] => 0
  | s :: ss => s.size + slotsSize ss

/-- The bytes of everything but the local variables. -/
def tempSize (f : FrameLayout) : Nat :=
  f.callTempSize + f.returnTempSize + slotsSize f.slots

/-- The bytes of the frame. -/
def frameSize (f : FrameLayout) : Nat := f.localSize + f.tempSize

/-- Where the area for the results of calls starts. -/
def callTempOffset (f : FrameLayout) : Int := -(f.localSize + f.callTempSize : Nat)

/-- Where the address of the function's own result is kept. -/
def returnTempOffset (f : FrameLayout) : Int :=
  -(f.localSize + f.callTempSize + f.returnTempSize : Nat)

/-- Where the slot of a node starts. -/
def slotOffset? (f : FrameLayout) (node : NodeId) : Option Int :=
  (f.slots.find? (·.node = node)).map Slot.offset

/-- Slots below `top`, one under the other. -/
def slotsBelow (top : Int) : List (NodeId × Nat) → List Slot
  | [] => []
  | (node, size) :: rest => ⟨node, size, top - size⟩ :: slotsBelow (top - size) rest

/-- The frame whose nodes need slots of the given sizes. -/
def ofCharges (function : String) (localSize callTempSize returnTempSize : Nat)
    (charges : List (NodeId × Nat)) : FrameLayout :=
  let f : FrameLayout := ⟨function, localSize, callTempSize, returnTempSize, []⟩
  { f with slots := slotsBelow f.returnTempOffset charges }

/-! ### Reports -/

/-- A size as a word without sign. -/
def sizeToJson (n : Nat) : Json := .int (n % UInt32.size : Nat)

/-- An offset as a word with sign. -/
def offsetToJson (i : Int) : Json := .int (i.bmod UInt32.size)

end FrameLayout

/-- The slot as JSON. -/
def Slot.toJson (s : Slot) : Json :=
  .object
    [("node", s.node.toJson), ("size", FrameLayout.sizeToJson s.size),
      ("offset", FrameLayout.offsetToJson s.offset)]

namespace FrameLayout

/-- The sizes that make up the layout, and the slots. -/
def summaryMembers (f : FrameLayout) : List (String × Json) :=
  [("function", .text f.function), ("local_size", sizeToJson f.localSize),
    ("call_temp_size", sizeToJson f.callTempSize),
    ("return_temp_size", sizeToJson f.returnTempSize),
    ("unshared", .array (f.slots.map Slot.toJson))]

/-- The layout as JSON. -/
def summary (f : FrameLayout) : Json := .object f.summaryMembers

/-- The sizes and offsets that follow from the layout. -/
def derivedMembers (f : FrameLayout) : List (String × Json) :=
  [("temp_size", sizeToJson f.tempSize), ("frame_size", sizeToJson f.frameSize),
    ("call_temp_offset", offsetToJson f.callTempOffset),
    ("return_temp_offset", offsetToJson f.returnTempOffset)]

/-- The layout as JSON, with what follows from it. -/
def toJson (f : FrameLayout) : Json := .object (f.summaryMembers ++ f.derivedMembers)

end FrameLayout

end PostfixCompiler
