import Mathlib.Tactic.SplitIfs
import PostfixCompiler.Text.Quoted

/-!
# Quoted text is read back

Between the quotes each character has a written form of its own, and none of these forms is the
beginning of another one: a backslash begins the forms that are longer, what follows it says which
one it is, and the digits of a code point end with a brace. So the characters can be had back one by
one, and a text is known by its quoted form.

## Main definitions

* `PostfixCompiler.Text.unescape?`: the character in front whose written form it is, and what is
  behind it.

## Main statements

* `PostfixCompiler.Text.unescape?_escape`: a character is read back, whatever is behind it.
* `PostfixCompiler.Text.quote_injective`: a text is known by its quoted form.
* `PostfixCompiler.Text.newline_notMem_quote`: a quoted text is on one line.
-/

namespace PostfixCompiler.Text

/-! ### Code points -/

/-- The value of a digit in base sixteen. -/
def nibble (c : Char) : Nat := if c.isDigit then c.toNat - '0'.toNat else 10 + (c.toNat - 'a'.toNat)

/-- The number that digits in base sixteen stand for. -/
def hexNumber (ds : List Char) : Nat := ds.foldl (fun n c => 16 * n + nibble c) 0

theorem nibble_digitChar {n : Nat} (hn : n < 16) : nibble n.digitChar = n := by
  have hall : ∀ i : Fin 16, nibble i.val.digitChar = i.val := by decide
  exact hall ⟨n, hn⟩

/-- The digits of a number that has several are those of its sixteenth and one more. -/
theorem hex_of_le {n : Nat} (hn : 16 ≤ n) : hex n = hex (n / 16) ++ [(n % 16).digitChar] := by
  rw [hex, hex, Nat.toDigits_eq_if (by decide), if_neg (Nat.not_lt_of_le hn)]

/-- A code point is read back. -/
theorem hexNumber_hex (n : Nat) : hexNumber (hex n) = n := by
  induction n using Nat.strongRecOn with
  | ind n ih =>
    by_cases hn : n < 16
    · rw [hex, Nat.toDigits_of_lt_base hn, hexNumber, List.foldl_cons, List.foldl_nil,
        nibble_digitChar hn]
      omega
    · have hle := Nat.le_of_not_lt hn
      rw [hex_of_le hle, hexNumber, List.foldl_append, ← hexNumber, ih (n / 16) (by omega),
        List.foldl_cons, List.foldl_nil, nibble_digitChar (Nat.mod_lt n (by decide))]
      omega

/-- A code point is written with sixteen digits. -/
theorem exists_of_mem_hex {n : Nat} {c : Char} (hc : c ∈ hex n) :
    ∃ i : Fin 16, c = i.val.digitChar := by
  induction n using Nat.strongRecOn with
  | ind n ih =>
    by_cases hn : n < 16
    · rw [hex, Nat.toDigits_of_lt_base hn, List.mem_singleton] at hc
      exact ⟨⟨n, hn⟩, hc⟩
    · rw [hex_of_le (Nat.le_of_not_lt hn), List.mem_append, List.mem_singleton] at hc
      rcases hc with hc | hc
      · exact ih (n / 16) (by omega) hc
      · exact ⟨⟨n % 16, Nat.mod_lt n (by decide)⟩, hc⟩

theorem notMem_hex {c : Char} (hc : ∀ i : Fin 16, c ≠ i.val.digitChar) (n : Nat) :
    c ∉ hex n := fun hmem =>
  let ⟨i, hi⟩ := exists_of_mem_hex hmem
  hc i hi

/-! ### Characters -/

/-- The character that a letter behind a backslash stands for. -/
def shorthand? : Char → Option Char
  | '0' => some '\x00'
  | 't' => some '\t'
  | 'r' => some '\r'
  | 'n' => some '\n'
  | '\\' => some '\\'
  | '"' => some '"'
  | _ => none

/-- **The character in front** whose written form it is, and what is behind it. -/
def unescape? : List Char → Option (Char × List Char)
  | [] => none
  | '\\' :: 'u' :: cs =>
    some (.ofNat (hexNumber ((cs.drop 1).takeWhile (· ≠ '\x7d'))),
      ((cs.drop 1).dropWhile (· ≠ '\x7d')).drop 1)
  | '\\' :: cs => do
    let c ← cs.head?
    let d ← shorthand? c
    pure (d, cs.tail)
  | c :: cs => some (c, cs)

/-- A character that stands for itself. -/
theorem unescape?_cons {c : Char} (hc : c ≠ '\\') (cs : List Char) :
    unescape? (c :: cs) = some (c, cs) := by
  unfold unescape?
  split
  · rename_i heq
    cases heq
  · rename_i heq
    exact absurd (List.cons.inj heq).1 hc
  · rename_i heq
    exact absurd (List.cons.inj heq).1 hc
  · rename_i heq
    obtain ⟨rfl, rfl⟩ := List.cons.inj heq
    rfl

/-- **A character is read back**, whatever is behind it. -/
theorem unescape?_escape (c : Char) (cs : List Char) :
    unescape? (escape c ++ cs) = some (c, cs) := by
  unfold escape
  split_ifs with hnull htab hreturn hline hslash hquote hplain
  · rw [hnull]
    rfl
  · rw [htab]
    rfl
  · rw [hreturn]
    rfl
  · rw [hline]
    rfl
  · rw [hslash]
    rfl
  · rw [hquote]
    rfl
  · exact unescape?_cons hslash cs
  · -- The brace behind the digits is the first one.
    have hdigits : ∀ d ∈ hex c.toNat, decide (d ≠ '\x7d') = true := fun d hd =>
      decide_eq_true fun heq => notMem_hex (by decide) _ (heq ▸ hd)
    rw [List.append_assoc, List.append_assoc]
    change some (Char.ofNat (hexNumber ((hex c.toNat ++ ('\x7d' :: cs)).takeWhile _)),
      ((hex c.toNat ++ ('\x7d' :: cs)).dropWhile _).drop 1) = _
    rw [List.takeWhile_append_of_pos hdigits, List.dropWhile_append_of_pos hdigits]
    simp [hexNumber_hex]

/-- No character is written with the end of a line. -/
theorem newline_notMem_escape (c : Char) : '\n' ∉ escape c := by
  unfold escape
  split_ifs with _ _ _ hline
  · decide
  · decide
  · decide
  · decide
  · decide
  · decide
  · exact fun h => hline (List.mem_singleton.mp h).symm
  · rw [List.mem_append, List.mem_append, not_or, not_or]
    exact ⟨⟨by decide, notMem_hex (by decide) _⟩, by decide⟩

/-! ### Texts -/

/-- Characters are known by their written forms, one behind the other. -/
theorem flatMap_escape_injective :
    ∀ {cs ds : List Char}, cs.flatMap escape = ds.flatMap escape → cs = ds
  | [], [], _ => rfl
  | c :: cs, [], h => by
    have hread := unescape?_escape c (cs.flatMap escape)
    rw [← List.flatMap_cons, h] at hread
    cases hread
  | [], d :: ds, h => by
    have hread := unescape?_escape d (ds.flatMap escape)
    rw [← List.flatMap_cons, ← h] at hread
    cases hread
  | c :: cs, d :: ds, h => by
    have hread := unescape?_escape c (cs.flatMap escape)
    rw [← List.flatMap_cons, h, List.flatMap_cons, unescape?_escape, Option.some.injEq,
      Prod.mk.injEq] at hread
    rw [hread.1, flatMap_escape_injective hread.2.symm]

/-- **A text is known by its quoted form.** -/
theorem quote_injective : Function.Injective quote := by
  intro s t h
  have hlist := congrArg String.toList h
  rw [quote, quote, String.toList_ofList, String.toList_ofList] at hlist
  exact String.toList_inj.mp
    (flatMap_escape_injective (List.append_cancel_right (List.cons.inj hlist).2))

/-- **A quoted text is on one line.** -/
theorem newline_notMem_quote (s : String) : '\n' ∉ (quote s).toList := by
  rw [quote, String.toList_ofList, List.cons_append, List.mem_cons, List.mem_append,
    List.mem_flatMap, not_or, not_or]
  exact ⟨by decide, fun ⟨c, _, hc⟩ => newline_notMem_escape c hc, by decide⟩

end PostfixCompiler.Text
