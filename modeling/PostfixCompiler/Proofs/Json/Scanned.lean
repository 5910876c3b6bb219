import PostfixCompiler.Proofs.Json.Words

/-!
# Cutting a written text into tokens

What is written is cut into the tokens that were meant: a string with its escapes is one token that
stands for the text, a word is one token because what follows it cannot stand in a word, and
brackets and marks are tokens by themselves.

That a text is made of such parts is one relation, `PostfixCompiler.Json.Cuts`, with a case for each
kind of part. The scanner is looked at once, for these cases.

## Main definitions

* `PostfixCompiler.Json.piece`: how a character of a text comes back from its written form.
* `PostfixCompiler.Json.Cuts`: a text is made of the given tokens.

## Main statements

* `PostfixCompiler.Json.scan_quoted`: a text in quotes is scanned as one string, which stands for
  the text.
* `PostfixCompiler.Json.Cuts.tokens?_eq`: a text that is made of tokens is cut into them.
-/

namespace PostfixCompiler.Json

/-! ### Strings -/

/-- How a character comes back from its written form: as itself, or as the number of a code unit. -/
def piece (c : Char) : Piece :=
  if c = '\x08' ∨ c = '\x0c' ∨ c = '\n' ∨ c = '\r' ∨ c = '\t' then .char c
  else if c.toNat < 0x20 then .unit c.toNat
  else .char c

/-- A code unit that is no half of a surrogate pair stands for a character by itself. -/
theorem decodePieces?_unit {n : Nat} (hn : n < 0x20) (ps : List Piece) :
    decodePieces? (.unit n :: ps) = (decodePieces? ps).map (Char.ofNat n :: ·) := by
  have hhigh : isHighSurrogate n = false := decide_eq_false fun h => by omega
  have hlow : isLowSurrogate n = false := decide_eq_false fun h => by omega
  cases ps with
  | nil => simp [decodePieces?, hhigh, hlow]
  | cons p ps => cases p <;> simp [decodePieces?, hhigh, hlow]

theorem decodePieces?_piece (c : Char) (ps : List Piece) :
    decodePieces? (piece c :: ps) = (decodePieces? ps).map (c :: ·) := by
  unfold piece
  split
  · rw [decodePieces?]
  · split
    · next hlt => rw [decodePieces?_unit hlt, Char.ofNat_toNat]
    · rw [decodePieces?]

/-- **The pieces stand for the text.** -/
theorem stringText?_map_piece (s : String) : stringText? (s.toList.map piece) = some s := by
  have hchars : ∀ cs : List Char, decodePieces? (cs.map piece) = some cs := fun cs => by
    induction cs with
    | nil => rfl
    | cons c cs ih => rw [List.map_cons, decodePieces?_piece, ih, Option.map_some]
  rw [stringText?, hchars, Option.map_some, String.ofList_toList]

theorem hexValue?_hexDigit {n : Nat} (hn : n < 16) : hexValue? (hexDigit n) = some n := by
  have hall : ∀ i : Fin 16, hexValue? (hexDigit i.val) = some i.val := by decide
  exact hall ⟨n, hn⟩

/-- The written form of a character is scanned as one piece. -/
theorem scan_escape (c : Char) (ps : List Piece) (done : List Token) :
    (escape c).foldlM scan? (.string ps, done) = some (.string (piece c :: ps), done) := by
  -- Seven characters have a short form. Of the others, a control character is written with its two
  -- hexadecimal digits.
  by_cases hspecial : c = '"' ∨ c = '\\' ∨ c = '\x08' ∨ c = '\x0c' ∨ c = '\n' ∨ c = '\r' ∨ c = '\t'
  · rcases hspecial with rfl | rfl | rfl | rfl | rfl | rfl | rfl <;> rfl
  · simp only [not_or] at hspecial
    obtain ⟨hquote, hslash, hb, hf, hn, hr, ht⟩ := hspecial
    unfold escape piece
    simp only [hquote, hslash, hb, hf, hn, hr, ht, if_false, or_self]
    split
    · next hlt =>
      have hhigh : hexValue? (hexDigit (c.toNat / 16)) = some (c.toNat / 16) :=
        hexValue?_hexDigit (by omega)
      have hlow : hexValue? (hexDigit (c.toNat % 16)) = some (c.toNat % 16) :=
        hexValue?_hexDigit (by omega)
      change ((scan? (.unit ps 2 0, done) (hexDigit (c.toNat / 16))).bind fun st =>
        (scan? st (hexDigit (c.toNat % 16))).bind some) = _
      rw [scan?, hhigh]
      change ((scan? (.unit ps 1 (16 * 0 + c.toNat / 16), done)
        (hexDigit (c.toNat % 16))).bind some) = _
      rw [scan?, hlow]
      change some
        (Scan.string (.unit (16 * (16 * 0 + c.toNat / 16) + c.toNat % 16) :: ps), done) = _
      rw [Nat.mul_zero, Nat.zero_add, Nat.div_add_mod]
    · next hge =>
      change (scan? (.string ps, done) c).bind some = _
      rw [scan?, if_neg hquote, if_neg hslash, if_neg hge]
      rfl

/-- **A text in quotes is scanned as one string**, which stands for the text. -/
theorem scan_quoted (s : String) (done : List Token) :
    (quoted s).foldlM scan? (.between, done) = some (.between, .string (some s) :: done) := by
  have hchars : ∀ (cs : List Char) (ps : List Piece),
      (cs.flatMap escape).foldlM scan? (.string ps, done) =
      some (.string ((cs.map piece).reverse ++ ps), done) := fun cs => by
    induction cs with
    | nil => exact fun ps => rfl
    | cons c cs ih =>
      intro ps
      rw [List.flatMap_cons, List.foldlM_append, scan_escape, List.map_cons, List.reverse_cons,
        List.append_assoc]
      exact ih (piece c :: ps)
  unfold quoted
  rw [List.cons_append, List.foldlM_cons,
    show scan? (.between, done) '"' = some (.string [], done) from rfl]
  change (s.toList.flatMap escape ++ ['"']).foldlM scan? (.string [], done) = _
  rw [List.foldlM_append, hchars]
  change some (Scan.between,
    Token.string (stringText? ((s.toList.map piece).reverse ++ []).reverse) :: done) = _
  rw [List.append_nil, List.reverse_reverse, stringText?_map_piece]

/-! ### Texts made of tokens -/

/-- A mark, and the token that it is. -/
inductive Mark : Char → Token → Prop where
  /-- An opening square bracket. -/
  | openArray : Mark '[' .openArray
  /-- A closing square bracket. -/
  | closeArray : Mark ']' .closeArray
  /-- An opening brace. -/
  | openObject : Mark '\x7b' .openObject
  /-- A closing brace. -/
  | closeObject : Mark '\x7d' .closeObject
  /-- A colon. -/
  | colon : Mark ':' .colon
  /-- A comma. -/
  | comma : Mark ',' .comma

/-- No word goes on here. -/
def EndsWord (cs : List Char) : Prop := ∀ c ∈ cs.head?, isWordChar c = false

/-- **A text is made of the given tokens.** -/
inductive Cuts : List Char → List Token → Prop where
  /-- Nothing is left. -/
  | nil : Cuts [] []
  /-- A blank. -/
  | blank {c : Char} {cs : List Char} {ts : List Token} (hc : isBlank c = true) (h : Cuts cs ts) :
      Cuts (c :: cs) ts
  /-- A mark. -/
  | mark {c : Char} {t : Token} {cs : List Char} {ts : List Token} (hc : Mark c t)
      (h : Cuts cs ts) :
    Cuts (c :: cs) (t :: ts)
  /-- A text in quotes. -/
  | string (s : String) {cs : List Char} {ts : List Token} (h : Cuts cs ts) :
    Cuts (quoted s ++ cs) (.string (some s) :: ts)
  /-- A word, and a character behind it that does not belong to it, if there is one. -/
  | word {w : List Char} {v : Json} {cs : List Char} {ts : List Token} (hw : AllWordChars w)
    (hv : word? w = some v) (hcs : EndsWord cs) (h : Cuts cs ts) : Cuts (w ++ cs) (.literal v :: ts)

/-- Where the scanner stands at the end, if that is no place inside of a string. -/
def finish? : Scan × List Token → Option (List Token)
  | (.between, done) => some done.reverse
  | (.word cs, done) => (word? cs.reverse).map fun v => (.literal v :: done).reverse
  | _ => none

theorem tokens?_eq_bind (cs : List Char) :
    tokens? cs = (cs.foldlM scan? (.between, [])).bind finish? := by
  unfold tokens?
  cases cs.foldlM scan? (.between, []) with
  | none => rfl
  | some st =>
    obtain ⟨_ | w | _ | _ | _, done⟩ := st
    · rfl
    · cases hw : word? w.reverse <;> simp [finish?, hw]
    all_goals rfl

/-- A character between tokens that may stand in a word begins one. -/
theorem begin?_word {c : Char} (hc : isWordChar c = true) (done : List Token) :
    begin? done c = some (.word [c], done) := by
  have hblank : isBlank c = false := decide_eq_false fun h => by
    rcases h with rfl | rfl | rfl | rfl <;> exact absurd hc (by decide)
  rw [begin?, if_neg (by simp [hblank]), if_pos hc]

/-- A word is collected. -/
theorem scan_word {w : List Char} (hw : AllWordChars w) (hne : w ≠ []) (done : List Token) :
    w.foldlM scan? (.between, done) = some (.word w.reverse, done) := by
  have hmore : ∀ cs collected : List Char, AllWordChars cs →
      cs.foldlM scan? (.word collected, done) =
        some (.word (cs.reverse ++ collected), done) := fun cs => by
    induction cs with
    | nil => exact fun _ _ => rfl
    | cons c cs ih =>
      intro collected hcs
      rw [allWordChars_cons] at hcs
      rw [List.foldlM_cons, scan?, if_pos hcs.1, List.reverse_cons, List.append_assoc]
      exact ih (c :: collected) hcs.2
  obtain ⟨c, cs, rfl⟩ := List.exists_cons_of_ne_nil hne
  rw [allWordChars_cons] at hw
  rw [List.foldlM_cons, scan?, begin?_word hw.1, List.reverse_cons]
  exact hmore cs [c] hw.2

/-- What follows a word is scanned as if the token were complete. -/
theorem scan_behind_word {w : List Char} {v : Json} (hv : word? w.reverse = some v) {c : Char}
    (hc : isWordChar c = false) (done : List Token) :
    scan? (.word w, done) c = scan? (.between, .literal v :: done) c := by
  simp only [scan?, hc, Bool.false_eq_true, if_false, hv, Option.bind_some]

/-- A mark is a token. -/
theorem Mark.scan {c : Char} {t : Token} (h : Mark c t) (done : List Token) :
    scan? (.between, done) c = some (.between, t :: done) := by
  cases h <;> rfl

/-- **A text that is made of tokens is cut into them.** -/
theorem Cuts.tokens?_eq {cs : List Char} {ts : List Token} (h : Cuts cs ts) :
    tokens? cs = some ts := by
  have hfrom : ∀ done,
      (cs.foldlM scan? (.between, done)).bind finish? = some (done.reverse ++ ts) := by
    induction h with
    | nil => exact fun done => congrArg some (List.append_nil _).symm
    | blank hc h ih =>
      intro done
      rw [List.foldlM_cons, scan?, begin?, if_pos hc]
      exact ih done
    | @mark c t cs ts hc h ih =>
      intro done
      rw [List.foldlM_cons, hc.scan, List.append_cons, ← List.reverse_cons]
      exact ih (t :: done)
    | @string s cs ts h ih =>
      intro done
      rw [List.foldlM_append, scan_quoted, List.append_cons, ← List.reverse_cons]
      exact ih (.string (some s) :: done)
    | @word w v cs ts hw hv hcs h ih =>
      intro done
      have hne : w ≠ [] := fun hnil => by
        rw [hnil] at hv
        cases hv
      have hrest := ih (.literal v :: done)
      rw [List.foldlM_append, scan_word hw hne, List.append_cons, ← List.reverse_cons, ← hrest]
      -- The word is complete at the end of the text, or where a character does not belong to it.
      cases cs with
      | nil =>
        change (word? w.reverse.reverse).map _ = _
        rw [List.reverse_reverse, hv]
        rfl
      | cons c cs =>
        change ((c :: cs).foldlM scan? (.word w.reverse, done)).bind finish? = _
        rw [List.foldlM_cons, List.foldlM_cons,
          scan_behind_word (by rwa [List.reverse_reverse]) (hcs c rfl)]
  rw [tokens?_eq_bind, hfrom]
  rfl

end PostfixCompiler.Json
