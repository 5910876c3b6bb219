import PostfixCompiler.Double.Format
import PostfixCompiler.Json.Value

/-!
# Writing JSON

A value is written on one line without blanks, or over several lines with two blanks of indentation
for each container around it.

## Main definitions

* `PostfixCompiler.Json.doubleFormat`: how doubles are written.
* `PostfixCompiler.Json.compact`: the value on one line.
* `PostfixCompiler.Json.pretty`: the value over several lines.
-/

namespace PostfixCompiler.Json

/-- Doubles from `1e-5` up to `1e16` are written positionally, a positive exponent has a sign, and
of two equally near decimals the even one is taken. -/
def doubleFormat : Double.Format where
  plainFrom := -5
  plainBelow := 16
  plusSign := true
  tie := .even

/-! ### Literals -/

/-- The digit of base sixteen with the value `n`. -/
def hexDigit (n : Nat) : Char := Nat.digitChar n

/-- The written form of a character in a string: only quotes, backslashes and controls are
escaped. -/
def escape (c : Char) : List Char :=
  if c = '"' then ['\\', '"']
  else if c = '\\' then ['\\', '\\']
  else if c = '\x08' then ['\\', 'b']
  else if c = '\x0c' then ['\\', 'f']
  else if c = '\n' then ['\\', 'n']
  else if c = '\r' then ['\\', 'r']
  else if c = '\t' then ['\\', 't']
  else if c.toNat < 0x20 then
    ['\\', 'u', '0', '0', hexDigit (c.toNat / 16), hexDigit (c.toNat % 16)]
  else [c]

/-- The text between quotes. -/
def quoted (s : String) : List Char := '"' :: s.toList.flatMap escape ++ ['"']

/-- The written form of a value that is no container; the empty containers are among these. -/
def literal : Json → List Char
  | .null | .unreadable => ['n', 'u', 'l', 'l']
  | .bool true => ['t', 'r', 'u', 'e']
  | .bool false => ['f', 'a', 'l', 's', 'e']
  | .int n => (toString n).toList
  | .double d => (d.write doubleFormat).toList
  | .text s => quoted s
  | .array _ => ['[', ']']
  | .object _ => ['\x7b', '\x7d']

/-! ### On one line -/

mutual

/-- The value on one line. -/
def compactChars : Json → List Char
  | .array (v :: vs) => '[' :: compactChars v ++ compactItems vs ++ [']']
  | .object ((name, v) :: ms) =>
    '\x7b' :: quoted name ++ ':' :: compactChars v ++ compactMembers ms ++ ['\x7d']
  | v => literal v

/-- The items after the first, each behind its comma. -/
def compactItems : List Json → List Char
  | [] => []
  | v :: vs => ',' :: compactChars v ++ compactItems vs

/-- The members after the first, each behind its comma. -/
def compactMembers : List (String × Json) → List Char
  | [] => []
  | (name, v) :: ms => ',' :: quoted name ++ ':' :: compactChars v ++ compactMembers ms

end

/-- The value on one line. -/
def compact (v : Json) : String := String.ofList v.compactChars

/-! ### Over several lines -/

/-- The start of a line inside `depth` containers. -/
def newline (depth : Nat) : List Char := '\n' :: List.replicate (2 * depth) ' '

mutual

/-- The value over several lines, inside `depth` containers. -/
def prettyChars (depth : Nat) : Json → List Char
  | .array (v :: vs) =>
    '[' :: newline (depth + 1) ++ prettyChars (depth + 1) v ++ prettyItems (depth + 1) vs
      ++ newline depth ++ [']']
  | .object ((name, v) :: ms) =>
    '\x7b' :: newline (depth + 1) ++ quoted name ++ [':', ' '] ++ prettyChars (depth + 1) v
      ++ prettyMembers (depth + 1) ms ++ newline depth ++ ['\x7d']
  | v => literal v

/-- The items after the first, each on a line of its own. -/
def prettyItems (depth : Nat) : List Json → List Char
  | [] => []
  | v :: vs => ',' :: newline depth ++ prettyChars depth v ++ prettyItems depth vs

/-- The members after the first, each on a line of its own. -/
def prettyMembers (depth : Nat) : List (String × Json) → List Char
  | [] => []
  | (name, v) :: ms =>
    ',' :: newline depth ++ quoted name ++ [':', ' '] ++ prettyChars depth v
      ++ prettyMembers depth ms

end

/-- The value over several lines. -/
def pretty (v : Json) : String := String.ofList (v.prettyChars 0)

end PostfixCompiler.Json
