import PostfixCompiler.Error.Fault

/-!
# Type tables

The types found for the nodes of a tree, in one slot for each node. A slot that holds a type is
final, unless the type is `auto`: a node whose slot is final is not looked at again.

## Main definitions

* `PostfixCompiler.TypeTable`: the slots.
* `PostfixCompiler.TypeTable.get?`, `PostfixCompiler.TypeTable.set`.
* `PostfixCompiler.TypeTable.isTyped`: the slot is final.
* `PostfixCompiler.TypeTable.expect`: the type of a node that must have one.
-/

namespace PostfixCompiler

/-- One slot for each node of a tree. -/
structure TypeTable where
  /-- The slots, in the order of the nodes. -/
  slots : Array (Option Ty)
deriving DecidableEq

namespace TypeTable

/-- So many empty slots. -/
def ofSize (n : Nat) : TypeTable := ⟨Array.replicate n none⟩

/-- What the slot of a node holds; a node without slot has no type. -/
def get? (t : TypeTable) (id : NodeId) : Option Ty := t.slots[id.index]?.join

/-- The slot holds a type that is final. -/
def isTyped (t : TypeTable) (id : NodeId) : Bool :=
  match t.get? id with
  | some ty => ty ≠ .auto
  | none => false

/-- Puts a type into the slot of a node. The table grows where it has no such slot. -/
def set (t : TypeTable) (id : NodeId) (ty : Ty) : TypeTable :=
  let grown := t.slots ++ Array.replicate (id.index + 1 - t.slots.size) none
  ⟨grown.setIfInBounds id.index (some ty)⟩

/-- Puts types into the slots of nodes, one after the other. -/
def setAll (t : TypeTable) (entries : List (NodeId × Ty)) : TypeTable :=
  entries.foldl (fun t e => t.set e.1 e.2) t

/-- The type of a node that must have one by now. -/
def expect (t : TypeTable) (id : NodeId) : Except InternalFault Ty :=
  match t.get? id with
  | some ty => .ok ty
  | none => .error (.untyped id)

end TypeTable

end PostfixCompiler
