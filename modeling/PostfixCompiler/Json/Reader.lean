import PostfixCompiler.Json.Lexer

/-!
# Reading JSON

The tokens of a text are put together by a machine that holds the containers part way through, the
innermost first, and knows what may come next. A text is read if it holds one value and nothing
else. How deep its containers are nested, and whether all its parts denote something, is not asked
here: some parts are ignored by those who read the value.

## Main definitions

* `PostfixCompiler.Json.Container`, `PostfixCompiler.Json.Expected`: the state of the machine.
* `PostfixCompiler.Json.step?`: the machine takes one token.
* `PostfixCompiler.Json.parse?`: the value that a text holds.
-/

namespace PostfixCompiler.Json

/-- The text that a string stands for, as a value. -/
def ofText : Option String → Json
  | some s => .text s
  | none => .unreadable

/-- The object with the given members, whose names are texts that strings stand for. -/
def ofMembers (ms : List (Option String × Json)) : Json :=
  match ms.mapM fun m => m.1.map (·, m.2) with
  | some ms => .object ms
  | none => .unreadable

/-- A container part way through. What it holds so far is in reverse. -/
inductive Container where
  /-- An array. -/
  | array (items : List Json)
  /-- An object between two members. -/
  | object (members : List (Option String × Json))
  /-- An object inside the member with the given name. -/
  | member (members : List (Option String × Json)) (name : Option String)

/-- What may come next. -/
inductive Expected where
  /-- A value. -/
  | value
  /-- A value, or the end of the array just opened. -/
  | firstItem
  /-- A name, or the end of the object just opened. -/
  | firstName
  /-- A name. -/
  | name
  /-- The colon behind a name. -/
  | colon
  /-- A comma, or the end of the innermost container. -/
  | more
  /-- Nothing: the value is complete. -/
  | nothing (result : Json)

/-- The state of the machine. -/
structure Reading where
  /-- What may come next. -/
  expected : Expected
  /-- The containers part way through, the innermost first. -/
  containers : List Container

/-- A complete value goes into the innermost container. -/
def give (v : Json) : List Container → Option Reading
  | [] => some ⟨.nothing v, []⟩
  | .array items :: cs => some ⟨.more, .array (v :: items) :: cs⟩
  | .member ms name :: cs => some ⟨.more, .object ((name, v) :: ms) :: cs⟩
  | .object _ :: _ => none

/-- A token where a value may come. -/
def beginValue? (cs : List Container) : Token → Option Reading
  | .string s => give (ofText s) cs
  | .literal v => give v cs
  | .openArray => some ⟨.firstItem, .array [] :: cs⟩
  | .openObject => some ⟨.firstName, .object [] :: cs⟩
  | _ => none

/-- The machine takes one token. -/
def step? (s : Reading) (t : Token) : Option Reading :=
  match s.expected, t, s.containers with
  | .value, t, cs => beginValue? cs t
  | .firstItem, .closeArray, .array items :: cs => give (.array items.reverse) cs
  | .firstItem, t, cs => beginValue? cs t
  | .firstName, .closeObject, .object ms :: cs => give (ofMembers ms.reverse) cs
  | .firstName, .string name, .object ms :: cs => some ⟨.colon, .member ms name :: cs⟩
  | .name, .string name, .object ms :: cs => some ⟨.colon, .member ms name :: cs⟩
  | .colon, .colon, cs => some ⟨.value, cs⟩
  | .more, .comma, .array items :: cs => some ⟨.value, .array items :: cs⟩
  | .more, .comma, .object ms :: cs => some ⟨.name, .object ms :: cs⟩
  | .more, .closeArray, .array items :: cs => give (.array items.reverse) cs
  | .more, .closeObject, .object ms :: cs => give (ofMembers ms.reverse) cs
  | _, _, _ => none

/-- The value that the tokens make up. -/
def ofTokens? (ts : List Token) : Option Json := do
  match ← ts.foldlM step? ⟨.value, []⟩ with
  | ⟨.nothing v, _⟩ => pure v
  | _ => none

/-- The value that a text holds, if it holds one and nothing else. -/
def parse? (s : String) : Option Json := (tokens? s.toList).bind ofTokens?

end PostfixCompiler.Json
