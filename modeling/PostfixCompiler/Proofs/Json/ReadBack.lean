import PostfixCompiler.Json.Reader
import PostfixCompiler.Proofs.Json.Scanned

/-!
# What is written is read back

A value that is written over several lines is read back as it was, if that is so for the numbers in
it and nothing in it is unreadable. The text is made of the tokens of the value, whatever the blanks
between them are, and the machine that puts tokens together is told where a value ends by its tokens
alone.

Texts are read back whatever they are, and so are integers of at most 64 bits. How a double is read
back is asked of the double by itself. Nothing more is relied on where a tree is read back, so that
is what a **library** has to keep to, and the writer and the reader of this project are one.

## Main definitions

* `PostfixCompiler.Json.Faithful`: the numbers in a value are read back, and all of it denotes
  something.
* `PostfixCompiler.Json.tokensOf`: the tokens of a value.
* `PostfixCompiler.Json.Library`: what is relied on when values are written and read.

## Main statements

* `PostfixCompiler.Json.cuts_pretty`: a written value is made of the tokens of the value.
* `PostfixCompiler.Json.read_tokens`: the tokens of a value are put together to the value.
* `PostfixCompiler.Json.parse?_pretty`: a value that is written over several lines is read back.
* `PostfixCompiler.Json.Library.own`: the library of this project.
-/

namespace PostfixCompiler.Json

/-! ### Faithful values -/

section Faithful

variable (reads : Double → Prop)

mutual

/-- **The numbers in the value are read back**, if doubles are for which `reads` holds, and all of
it denotes something. -/
def Faithful : Json → Prop
  | .unreadable => False
  | .int n => IsInt64 n
  | .double d => reads d
  | .array vs => AllFaithful vs
  | .object ms => MembersFaithful ms
  | .null | .bool _ | .text _ => True

/-- This is so for each of the values. -/
def AllFaithful : List Json → Prop
  | [] => True
  | v :: vs => v.Faithful ∧ AllFaithful vs

/-- This is so for the value of each of the members. -/
def MembersFaithful : List (String × Json) → Prop
  | [] => True
  | (_, v) :: ms => v.Faithful ∧ MembersFaithful ms

end

end Faithful

section Faithful

variable {reads : Double → Prop}

theorem allFaithful_iff {vs : List Json} : AllFaithful reads vs ↔ ∀ v ∈ vs, v.Faithful reads := by
  induction vs with
  | nil => simp [AllFaithful]
  | cons v vs ih => rw [AllFaithful, ih, List.forall_mem_cons]

theorem membersFaithful_iff {ms : List (String × Json)} :
    MembersFaithful reads ms ↔ ∀ m ∈ ms, m.2.Faithful reads := by
  induction ms with
  | nil => simp [MembersFaithful]
  | cons m ms ih => rw [MembersFaithful, ih, List.forall_mem_cons]

end Faithful

/-- The double is read back by itself. -/
def ReadsBack (d : Double) : Prop := parse? (d.write doubleFormat) = some (.double d)

/-! ### Tokens -/

mutual

/-- **The tokens of a value.** -/
def tokensOf : Json → List Token
  | .array [] => [.openArray, .closeArray]
  | .array (v :: vs) => .openArray :: (tokensOf v ++ (itemTokens vs ++ [.closeArray]))
  | .object [] => [.openObject, .closeObject]
  | .object ((name, v) :: ms) =>
    .openObject :: .string (some name) :: .colon ::
      (tokensOf v ++ (memberTokens ms ++ [.closeObject]))
  | .text s => [.string (some s)]
  | .null => [.literal .null]
  | .bool b => [.literal (.bool b)]
  | .int n => [.literal (.int n)]
  | .double d => [.literal (.double d)]
  | .unreadable => [.literal .unreadable]

/-- The tokens of the items after the first. -/
def itemTokens : List Json → List Token
  | [] => []
  | v :: vs => .comma :: (tokensOf v ++ itemTokens vs)

/-- The tokens of the members after the first. -/
def memberTokens : List (String × Json) → List Token
  | [] => []
  | (name, v) :: ms => .comma :: .string (some name) :: .colon :: (tokensOf v ++ memberTokens ms)

end

/-! ### From the text to the tokens -/

/-- What is read as a double and is one word, is a double as a word. -/
theorem word?_of_parse? {s : String} {v : Json} (hs : AllWordChars s.toList)
    (h : parse? s = some v) :
    word? s.toList = some v := by
  have hne : s.toList ≠ [] := fun hnil => by
    rw [parse?, hnil] at h
    cases h
  rw [parse?, tokens?_eq_bind, scan_word hs hne, Option.bind_some, finish?,
    List.reverse_reverse] at h
  cases hw : word? s.toList with
  | none =>
    rw [hw] at h
    cases h
  | some w =>
    rw [hw] at h
    cases w <;> exact h

section Cuts

variable {cs : List Char} {ts : List Token}

theorem Cuts.newline (depth : Nat) (h : Cuts cs ts) : Cuts (newline depth ++ cs) ts := by
  refine .blank rfl ?_
  induction 2 * depth with
  | zero => exact h
  | succ n ih => exact .blank rfl ih

/-- A line begins behind a word, and so does a mark. -/
theorem endsWord_cons {c : Char} (hc : isWordChar c = false) : EndsWord (c :: cs) := fun d hd => by
  cases hd
  exact hc

theorem endsWord_newline (depth : Nat) : EndsWord (newline depth ++ cs) := endsWord_cons rfl

theorem endsWord_items (depth : Nat) (vs : List Json) (hcs : EndsWord cs) :
    EndsWord (prettyItems depth vs ++ cs) := by
  cases vs with
  | nil => exact hcs
  | cons v vs => exact endsWord_cons rfl

theorem endsWord_members (depth : Nat) (ms : List (String × Json)) (hcs : EndsWord cs) :
    EndsWord (prettyMembers depth ms ++ cs) := by
  cases ms with
  | nil => exact hcs
  | cons m ms => exact endsWord_cons rfl

end Cuts

mutual

/-- **A written value is made of the tokens of the value**, whatever stands behind it. -/
theorem cuts_pretty (depth : Nat) {cs : List Char} {ts : List Token} (hcs : EndsWord cs)
    (hts : Cuts cs ts) :
    ∀ v : Json, v.Faithful ReadsBack → Cuts (prettyChars depth v ++ cs) (tokensOf v ++ ts)
  | .null, _ => .word (w := ['n', 'u', 'l', 'l']) (allWordChars_of_all rfl) rfl hcs hts
  | .bool true, _ => .word (w := ['t', 'r', 'u', 'e']) (allWordChars_of_all rfl) rfl hcs hts
  | .bool false, _ => .word (w := ['f', 'a', 'l', 's', 'e']) (allWordChars_of_all rfl) rfl hcs hts
  | .int n, h => .word (allWordChars_int n) (word?_int h) hcs hts
  | .double d, h =>
      .word (allWordChars_write _ d) (word?_of_parse? (allWordChars_write _ d) h) hcs hts
  | .text s, _ => .string s hts
  | .array [], _ => .mark .openArray (.mark .closeArray hts)
  | .object [], _ => .mark .openObject (.mark .closeObject hts)
  | .array (v :: vs), h => by
    simp only [prettyChars, tokensOf, List.cons_append, List.append_assoc, List.nil_append]
    refine .mark .openArray (.newline _ (cuts_pretty (depth + 1) ?_ ?_ v h.1))
    · exact endsWord_items _ vs (endsWord_newline depth)
    · exact cuts_items (depth + 1) (endsWord_newline depth)
        (.newline depth (.mark .closeArray hts)) vs h.2
  | .object ((name, v) :: ms), h => by
    simp only [prettyChars, tokensOf, List.cons_append, List.append_assoc, List.nil_append]
    refine .mark .openObject (.newline _ (.string name (.mark .colon (.blank rfl ?_))))
    refine cuts_pretty (depth + 1) (endsWord_members _ ms (endsWord_newline depth)) ?_ v h.1
    exact cuts_members (depth + 1) (endsWord_newline depth)
      (.newline depth (.mark .closeObject hts)) ms h.2

theorem cuts_items (depth : Nat) {cs : List Char} {ts : List Token} (hcs : EndsWord cs)
    (hts : Cuts cs ts) :
    ∀ vs : List Json, AllFaithful ReadsBack vs →
    Cuts (prettyItems depth vs ++ cs) (itemTokens vs ++ ts)
  | [], _ => hts
  | v :: vs, h => by
    simp only [prettyItems, itemTokens, List.cons_append, List.append_assoc]
    have hvs : Cuts (prettyItems depth vs ++ cs) (itemTokens vs ++ ts) :=
      cuts_items depth hcs hts vs h.2
    exact .mark .comma (.newline _ (cuts_pretty depth (endsWord_items depth vs hcs) hvs v h.1))

theorem cuts_members (depth : Nat) {cs : List Char} {ts : List Token} (hcs : EndsWord cs)
    (hts : Cuts cs ts) :
    ∀ ms : List (String × Json), MembersFaithful ReadsBack ms →
      Cuts (prettyMembers depth ms ++ cs) (memberTokens ms ++ ts)
  | [], _ => hts
  | (name, v) :: ms, h => by
    simp only [prettyMembers, memberTokens, List.cons_append, List.append_assoc, List.nil_append]
    refine .mark .comma (.newline _ (.string name (.mark .colon (.blank rfl ?_))))
    exact cuts_pretty depth (endsWord_members depth ms hcs)
      (cuts_members depth hcs hts ms h.2) v h.1

end

/-! ### From the tokens to the value -/

/-- In an array that was just opened, a value is read like anywhere else. -/
theorem read_first (v : Json) (cs : List Container) (ts : List Token) :
    (tokensOf v ++ ts).foldlM step? ⟨.firstItem, .array [] :: cs⟩ =
      (tokensOf v ++ ts).foldlM step? ⟨.value, .array [] :: cs⟩ := by
  rcases v with _ | _ | _ | _ | _ | _ | (_ | _) | (_ | _) <;> rfl

/-- Members with their names read are members. -/
theorem ofMembers_map (ms : List (String × Json)) :
    ofMembers (ms.map fun m => (some m.1, m.2)) = .object ms := by
  have hnames : (ms.map fun m => (some m.1, m.2)).mapM (fun m => m.1.map (·, m.2)) = some ms := by
    induction ms with
    | nil => rfl
    | cons m ms ih =>
      rw [List.map_cons, List.mapM_cons, ih]
      rfl
  rw [ofMembers, hnames]

mutual

/-- **The tokens of a value are put together to the value**, which goes into the innermost
container. -/
theorem read_tokens (cs : List Container) (ts : List Token) :
    ∀ v : Json, (tokensOf v ++ ts).foldlM step? ⟨.value, cs⟩ = (give v cs).bind (ts.foldlM step?)
  | .null | .bool _ | .int _ | .double _ | .unreadable | .text _ => rfl
  | .array [] => rfl
  | .object [] => rfl
  | .array (v :: vs) => by
    simp only [tokensOf, List.cons_append, List.append_assoc]
    change (tokensOf v ++ _).foldlM step? ⟨.firstItem, .array [] :: cs⟩ = _
    -- The items are kept backwards until the array is closed.
    rw [read_first, read_tokens _ _ v]
    change (itemTokens vs ++ _).foldlM step? ⟨.more, .array [v] :: cs⟩ = _
    rw [read_items _ _ vs]
    change (give (.array (vs.reverse ++ [v]).reverse) cs).bind _ = _
    rw [List.reverse_append, List.reverse_reverse]
    rfl
  | .object ((name, v) :: ms) => by
    simp only [tokensOf, List.cons_append, List.append_assoc]
    change (tokensOf v ++ _).foldlM step? ⟨.value, .member [] (some name) :: cs⟩ = _
    rw [read_tokens _ _ v]
    change (memberTokens ms ++ _).foldlM step? ⟨.more, .object [(some name, v)] :: cs⟩ = _
    rw [read_members _ _ ms]
    change (give (ofMembers ((ms.map fun m => (some m.1, m.2)).reverse ++ [(some name, v)]).reverse)
      cs).bind _ = _
    rw [List.reverse_append, List.reverse_reverse]
    change (give (ofMembers (((name, v) :: ms).map fun m => (some m.1, m.2))) cs).bind _ = _
    rw [ofMembers_map]
    rfl

/-- The tokens of the items after the first are put together to these items. -/
theorem read_items (cs : List Container) (ts : List Token) :
    ∀ (vs items : List Json), (itemTokens vs ++ ts).foldlM step? ⟨.more, .array items :: cs⟩ =
      ts.foldlM step? ⟨.more, .array (vs.reverse ++ items) :: cs⟩
  | [], _ => rfl
  | v :: vs, items => by
    simp only [itemTokens, List.cons_append, List.append_assoc]
    change (tokensOf v ++ _).foldlM step? ⟨.value, .array items :: cs⟩ = _
    rw [read_tokens _ _ v]
    change (itemTokens vs ++ ts).foldlM step? ⟨.more, .array (v :: items) :: cs⟩ = _
    rw [read_items _ _ vs, List.reverse_cons, List.append_assoc]
    rfl

/-- The tokens of the members after the first are put together to these members. -/
theorem read_members (cs : List Container) (ts : List Token) :
    ∀ (ms : List (String × Json)) (members : List (Option String × Json)),
      (memberTokens ms ++ ts).foldlM step? ⟨.more, .object members :: cs⟩ =
        ts.foldlM step?
          ⟨.more, .object ((ms.map fun m => (some m.1, m.2)).reverse ++ members) :: cs⟩
  | [], _ => rfl
  | (name, v) :: ms, members => by
    simp only [memberTokens, List.cons_append, List.append_assoc]
    change (tokensOf v ++ _).foldlM step? ⟨.value, .member members (some name) :: cs⟩ = _
    rw [read_tokens _ _ v]
    change (memberTokens ms ++ ts).foldlM step?
      ⟨.more, .object ((some name, v) :: members) :: cs⟩ = _
    rw [read_members _ _ ms, List.map_cons, List.reverse_cons, List.append_assoc]
    rfl

end

/-- **A faithful value is read back** from its text over several lines. -/
theorem parse?_pretty {v : Json} (h : v.Faithful ReadsBack) : parse? v.pretty = some v := by
  have hcuts : Cuts (prettyChars 0 v ++ []) (tokensOf v ++ []) :=
    cuts_pretty 0 (fun _ hc => by cases hc) .nil v h
  rw [List.append_nil, List.append_nil] at hcuts
  have hread := read_tokens [] [] v
  rw [List.append_nil] at hread
  rw [parse?, pretty, String.toList_ofList, hcuts.tokens?_eq, Option.bind_some, ofTokens?, hread]
  rfl

/-! ### Libraries -/

/-- A double is written as it is by itself, so it is read back as it is by itself. -/
theorem readsBack_iff {d : Double} :
    ReadsBack d ↔ parse? (Json.double d).pretty = some (.double d) := by
  have hpretty : (Json.double d).pretty = d.write doubleFormat := String.ofList_toList
  rw [hpretty, ReadsBack]

/-- **A library that writes values and reads them**, as far as one is relied on. -/
structure Library where
  /-- The text of a value. -/
  write : Json → String
  /-- The value that a text holds, if it holds one. -/
  read? : String → Option Json
  /-- A value is read back if each of its doubles is by itself: texts are, whatever they are,
  integers are that have at most 64 bits, and so is what is made of these, however deep it is
  nested. -/
  read?_write (v : Json) (h : v.Faithful fun d => read? (write (.double d)) = some (.double d)) :
    read? (write v) = some v

namespace Library

/-- The library reads a double back by itself. -/
def ReadsBack (L : Library) (d : Double) : Prop := L.read? (L.write (.double d)) = some (.double d)

/-- **The library of this project**, which writes over several lines. -/
def own : Library where
  write := pretty
  read? := parse?
  read?_write v h := by
    have hreads : (fun d => parse? (Json.double d).pretty = some (.double d)) = Json.ReadsBack :=
      funext fun _ => propext readsBack_iff.symm
    rw [hreads] at h
    exact parse?_pretty h

/-- A double that is read back by itself is read back by the library of this project. -/
theorem readsBack_own {d : Double} : own.ReadsBack d ↔ Json.ReadsBack d := by
  simp only [ReadsBack, own, readsBack_iff]

end Library

end PostfixCompiler.Json
