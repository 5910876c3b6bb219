import PostfixCompiler.Json.Value

/-!
# The tokens of a JSON text

A text is cut into tokens one character at a time. Outside of strings a maximal run of letters,
digits, signs and points is one word, which must be a literal; so two literals that touch are
refused here or, if a string is one of them, where tokens are put together.

## Main definitions

* `PostfixCompiler.Json.Token`: brackets, marks, strings and other literals.
* `PostfixCompiler.Json.numeral?`: the value of a number.
* `PostfixCompiler.Json.stringText?`: the text that the contents of a string stand for.
* `PostfixCompiler.Json.tokens?`: the tokens of a text.
-/

namespace PostfixCompiler.Json

/-- A token. -/
inductive Token where
  /-- An opening square bracket. -/
  | openArray
  /-- A closing square bracket. -/
  | closeArray
  /-- An opening brace. -/
  | openObject
  /-- A closing brace. -/
  | closeObject
  /-- A colon. -/
  | colon
  /-- A comma. -/
  | comma
  /-- A string, with the text that it stands for: none if it escapes half of a surrogate pair. -/
  | string (text : Option String)
  /-- A literal that is no string. -/
  | literal (value : Json)

/-! ### Numbers -/

/-- The value of a decimal digit. -/
def digitValue (c : Char) : Nat := c.toNat - '0'.toNat

/-- The integer with the given decimal digits. -/
def ofDigits (ds : List Nat) : Nat := ds.foldl (fun n d => 10 * n + d) 0

/-- The digits before the point: one digit, or several of which the first is not zero. -/
def wholePart? (cs : List Char) : Option (List Char × List Char) :=
  match cs.takeWhile Char.isDigit, cs.dropWhile Char.isDigit with
  | [], _ => none
  | '0' :: _ :: _, _ => none
  | ds, rest => some (ds, rest)

/-- The digits after the point, where there is a point. -/
def fractionPart? : List Char → Option (List Char × List Char)
  | '.' :: cs =>
    match cs.takeWhile Char.isDigit, cs.dropWhile Char.isDigit with
    | [], _ => none
    | ds, rest => some (ds, rest)
  | cs => some ([], cs)

/-- The digits of an exponent, which end the number. -/
def exponentDigits? (cs : List Char) : Option Nat :=
  if cs.isEmpty ∨ !cs.all Char.isDigit then none
  else some (ofDigits (cs.map digitValue))

/-- The exponent behind the digits, if the number has one; nothing may follow it. -/
def exponentPart? : List Char → Option (Option Int)
  | [] => some none
  | e :: cs =>
    if e = 'e' ∨ e = 'E' then
      match cs with
      | '-' :: ds => (exponentDigits? ds).map fun n => some (-(n : Int))
      | '+' :: ds => (exponentDigits? ds).map fun n => some (n : Int)
      | ds => (exponentDigits? ds).map fun n => some (n : Int)
    else none

/-- The value of a number without point and exponent. Minus zero and integers of more than 64 bits
are doubles. -/
def integerValue (negative : Bool) (digits : List Nat) : Json :=
  let n := ofDigits digits
  if !negative ∧ n < UInt64.size then .int n
  else if negative ∧ 0 < n ∧ Int64.minValue.toInt ≤ -n then .int (-n)
  else
    match Double.Literal.value? ⟨negative, digits, [], 0⟩ with
    | some d => .double d
    | none => .unreadable

/-- The value of a number, if the whole of `cs` is one. -/
def numeral? (cs : List Char) : Option Json := do
  let (negative, cs) := match cs with
    | '-' :: rest => (true, rest)
    | _ => (false, cs)
  let (whole, cs) ← wholePart? cs
  let (fraction, cs) ← fractionPart? cs
  let exponent ← exponentPart? cs
  let whole := whole.map digitValue
  if fraction.isEmpty ∧ exponent.isNone then pure (integerValue negative whole)
  else
    match Double.Literal.value? ⟨negative, whole, fraction.map digitValue, exponent.getD 0⟩ with
    | some d => pure (.double d)
    | none => pure .unreadable

/-- The value of a word. -/
def word? (cs : List Char) : Option Json :=
  match cs with
  | ['n', 'u', 'l', 'l'] => some .null
  | ['t', 'r', 'u', 'e'] => some (.bool true)
  | ['f', 'a', 'l', 's', 'e'] => some (.bool false)
  | cs => numeral? cs

/-! ### Strings -/

/-- A part of a string: a character, or a unit of sixteen bits that is written by its number. -/
inductive Piece where
  /-- A character that stands for itself or has an escape of its own. -/
  | char (c : Char)
  /-- A code unit. -/
  | unit (n : Nat)

/-- The character of a one-letter escape. -/
def unescape? : Char → Option Char
  | '"' => some '"'
  | '\\' => some '\\'
  | '/' => some '/'
  | 'b' => some '\x08'
  | 'f' => some '\x0c'
  | 'n' => some '\n'
  | 'r' => some '\r'
  | 't' => some '\t'
  | _ => none

/-- The value of a digit in base sixteen. -/
def hexValue? (c : Char) : Option Nat :=
  if c.isDigit then some (digitValue c)
  else if 'a' ≤ c ∧ c ≤ 'f' then some (c.toNat - 'a'.toNat + 10)
  else if 'A' ≤ c ∧ c ≤ 'F' then some (c.toNat - 'A'.toNat + 10)
  else none

/-- The unit is the first half of a surrogate pair. -/
def isHighSurrogate (n : Nat) : Bool := 0xd800 ≤ n ∧ n < 0xdc00

/-- The unit is the second half of a surrogate pair. -/
def isLowSurrogate (n : Nat) : Bool := 0xdc00 ≤ n ∧ n < 0xe000

/-- The characters that the pieces stand for: two halves of a surrogate pair make one character, and
a half on its own makes none. -/
def decodePieces? : List Piece → Option (List Char)
  | [] => some []
  | .char c :: ps => (decodePieces? ps).map (c :: ·)
  | .unit n :: .unit m :: ps =>
    if isHighSurrogate n then
      if isLowSurrogate m then
        (decodePieces? ps).map (Char.ofNat (0x10000 + (n - 0xd800) * 0x400 + (m - 0xdc00)) :: ·)
      else none
    else if isLowSurrogate n then none
    else (decodePieces? (.unit m :: ps)).map (Char.ofNat n :: ·)
  | .unit n :: ps =>
    if isHighSurrogate n ∨ isLowSurrogate n then none
    else (decodePieces? ps).map (Char.ofNat n :: ·)

/-- The text that the contents of a string stand for. -/
def stringText? (pieces : List Piece) : Option String := (decodePieces? pieces).map String.ofList

/-! ### The scanner -/

/-- Where the scanner stands. Collected parts are in reverse. -/
inductive Scan where
  /-- Between tokens. -/
  | between
  /-- In a word. -/
  | word (collected : List Char)
  /-- In a string. -/
  | string (collected : List Piece)
  /-- Behind a backslash in a string. -/
  | escape (collected : List Piece)
  /-- In the number of a code unit, with the digits still to come and the value so far. -/
  | unit (collected : List Piece) (missing : Nat) (value : Nat)

/-- The character may stand between tokens. -/
def isBlank (c : Char) : Bool := c = ' ' ∨ c = '\t' ∨ c = '\n' ∨ c = '\r'

/-- The character may stand in a word. -/
def isWordChar (c : Char) : Bool := c.isAlphanum ∨ c = '-' ∨ c = '+' ∨ c = '.'

/-- A character between tokens: the token that it is, if it is one, and what it begins. -/
def begin? (done : List Token) (c : Char) : Option (Scan × List Token) :=
  if isBlank c then some (.between, done)
  else if isWordChar c then some (.word [c], done)
  else if c = '"' then some (.string [], done)
  else if c = '[' then some (.between, .openArray :: done)
  else if c = ']' then some (.between, .closeArray :: done)
  else if c = '\x7b' then some (.between, .openObject :: done)
  else if c = '\x7d' then some (.between, .closeObject :: done)
  else if c = ':' then some (.between, .colon :: done)
  else if c = ',' then some (.between, .comma :: done)
  else none

/-- One character further. The tokens that are complete are in reverse. -/
def scan? : Scan × List Token → Char → Option (Scan × List Token)
  | (.between, done), c => begin? done c
  | (.word cs, done), c =>
    if isWordChar c then some (.word (c :: cs), done)
    else (word? cs.reverse).bind fun v => begin? (.literal v :: done) c
  | (.string ps, done), c =>
    if c = '"' then some (.between, .string (stringText? ps.reverse) :: done)
    else if c = '\\' then some (.escape ps, done)
    else if c.toNat < 0x20 then none
    else some (.string (.char c :: ps), done)
  | (.escape ps, done), c =>
    if c = 'u' then some (.unit ps 4 0, done)
    else (unescape? c).map fun e => (.string (.char e :: ps), done)
  | (.unit ps missing value, done), c =>
    (hexValue? c).map fun d =>
      if missing ≤ 1 then (.string (.unit (16 * value + d) :: ps), done)
      else (.unit ps (missing - 1) (16 * value + d), done)

/-- The tokens of a text, if it can be cut into tokens. -/
def tokens? (cs : List Char) : Option (List Token) := do
  match ← cs.foldlM scan? (.between, []) with
  | (.between, done) => pure done.reverse
  | (.word cs, done) => do
    let v ← word? cs.reverse
    pure (.literal v :: done).reverse
  | _ => none

end PostfixCompiler.Json
