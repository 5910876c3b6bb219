import PostfixCompiler.Double.Literal

/-!
# JSON values

Trees, frames and configurations are exchanged as JSON. An object keeps its members in the order in
which they are written, repeated names included, so that a reader can refuse a repetition. A number
is an integer if it is written as one and fits 64 bits, with a sign or without; any other number is
a double.

## Main definitions

* `PostfixCompiler.Json`: the values.
* `PostfixCompiler.Json.readableWithin`: all of a value denotes something, and its containers are
  not nested too deep.
* `PostfixCompiler.Json.members?`: the named parts of a record.
* `PostfixCompiler.Json.nat?` and its relatives: what a value says when one of a given kind is
  asked for.
-/

namespace PostfixCompiler

/-- A JSON value. -/
inductive Json where
  /-- `null`. -/
  | null
  /-- `true` or `false`. -/
  | bool (value : Bool)
  /-- A number that is written as an integer of at most 64 bits. -/
  | int (value : Int)
  /-- Any other number. -/
  | double (value : Double)
  /-- A text. -/
  | text (value : String)
  /-- What is well formed and denotes nothing: a number out of range, a text that escapes half of a
  surrogate pair, or an object with such a text for a name. It may stand where nobody looks. -/
  | unreadable
  /-- An array. -/
  | array (items : List Json)
  /-- An object. -/
  | object (members : List (String × Json))

namespace Json

/-- How deep containers may be nested where the program looks. -/
def nestingLimit : Nat := 127

mutual

/-- Everything inside the value denotes something, and its containers are nested at most `limit`
deep. -/
def readableWithin (limit : Nat) : Json → Bool
  | .unreadable => false
  | .array vs => limit ≠ 0 && allReadableWithin (limit - 1) vs
  | .object ms => limit ≠ 0 && membersReadableWithin (limit - 1) ms
  | _ => true

/-- Each of the values is readable within `limit`. -/
def allReadableWithin (limit : Nat) : List Json → Bool
  | [] => true
  | v :: vs => v.readableWithin limit && allReadableWithin limit vs

/-- The value of each of the members is readable within `limit`. -/
def membersReadableWithin (limit : Nat) : List (String × Json) → Bool
  | [] => true
  | (_, v) :: ms => v.readableWithin limit && membersReadableWithin limit ms

end

/-! ### What a value says -/

/-- The value as a text. -/
def text? : Json → Option String
  | .text s => some s
  | _ => none

/-- The value as a truth value. -/
def bool? : Json → Option Bool
  | .bool b => some b
  | _ => none

/-- The value as an integer from `low` to `high`. -/
def intWithin? (low high : Int) : Json → Option Int
  | .int n => if low ≤ n ∧ n ≤ high then some n else none
  | _ => none

/-- The value as a natural number of 64 bits. -/
def nat? (v : Json) : Option Nat :=
  (v.intWithin? 0 (UInt64.size - 1 : Nat)).map Int.toNat

/-- The value as a word without sign. -/
def uint32? (v : Json) : Option UInt32 :=
  (v.intWithin? 0 (UInt32.size - 1 : Nat)).map fun n => UInt32.ofNat n.toNat

/-- The value as a word with sign. -/
def int32? (v : Json) : Option Int32 :=
  (v.intWithin? Int32.minValue.toInt Int32.maxValue.toInt).map Int32.ofInt

/-- The value as a double; an integer is taken for the double nearest to it. -/
def double? : Json → Option Double
  | .double d => some d
  | .int n => some (.ofInt n)
  | _ => none

/-- The value as a list, each item read by `item?`. -/
def list? {α : Type} (item? : Json → Option α) : Json → Option (List α)
  | .array vs => vs.mapM item?
  | _ => none

/-- The value as something that may be missing: `null` says that it is. -/
def optional? {α : Type} (item? : Json → Option α) : Json → Option (Option α)
  | .null => some none
  | v => (item? v).map some

/-- The value is `null`. -/
def isNull : Json → Bool
  | .null => true
  | _ => false

/-- The value has no content: it is `null` or an object without members. -/
def isVoid : Json → Bool
  | .null => true
  | .object [] => true
  | _ => false

/-- The value as one of the names of an enumeration: the name as a text, or an object whose only
member has that name and a value for which `isBlank` holds. -/
def name? (isBlank : Json → Bool) : Json → Option String
  | .text s => some s
  | .object [(s, v)] => if isBlank v then some s else none
  | _ => none

/-! ### Records -/

/-- The named parts of a record, in any order. -/
abbrev Members := List (String × Json)

/-- No name occurs twice. -/
def Members.isUnique : Members → Bool
  | [] => true
  | (name, _) :: ms => ms.all (·.1 != name) && Members.isUnique ms

/-- The parts of a record with the given names. A record is written as an object, whose other
members are ignored, or as an array of its parts in the order of the names. -/
def members? (names : List String) : Json → Option Members
  | .object ms =>
    let known := ms.filter fun m => names.contains m.1
    if Members.isUnique known then some known else none
  | .array vs => if vs.length ≤ names.length then some (names.zip vs) else none
  | _ => none

/-- A part that must be there. -/
def Members.required? {α : Type} (ms : Members) (name : String) (part? : Json → Option α) :
    Option α :=
  (ms.lookup name).bind part?

/-- A part that has the value `default` where it is left out. -/
def Members.defaulted? {α : Type} (ms : Members) (name : String) (part? : Json → Option α)
    (default : α) : Option α :=
  match ms.lookup name with
  | some v => part? v
  | none => some default

end Json

end PostfixCompiler
