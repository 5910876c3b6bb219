import PostfixCompiler.Text.Visible

/-!
# Quoted text

A text is written between double quotes, on one line, and so that every character of it can be seen.
Six characters have an escape of two characters, the characters that `PostfixCompiler.Text.isPlain`
refuses are written by their code point, and all others stand for themselves.

## Main definitions

* `PostfixCompiler.Text.escape`: the written form of one character.
* `PostfixCompiler.Text.quote`: the written form of a text.
-/

namespace PostfixCompiler.Text

/-- The digits of `n` in base sixteen, in lower case. -/
def hex (n : Nat) : List Char := Nat.toDigits 16 n

/-- The written form of one character between double quotes. -/
def escape (c : Char) : List Char :=
  if c = '\x00' then ['\\', '0']
  else if c = '\t' then ['\\', 't']
  else if c = '\r' then ['\\', 'r']
  else if c = '\n' then ['\\', 'n']
  else if c = '\\' then ['\\', '\\']
  else if c = '"' then ['\\', '"']
  else if isPlain c then [c]
  else ['\\', 'u', '\x7b'] ++ hex c.toNat ++ ['\x7d']

/-- The text between double quotes, every character in its written form. -/
def quote (s : String) : String :=
  String.ofList ('"' :: s.toList.flatMap escape ++ ['"'])

end PostfixCompiler.Text
