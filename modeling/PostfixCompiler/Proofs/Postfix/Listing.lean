import PostfixCompiler.Postfix.Listing
import PostfixCompiler.Proofs.Double.Reading
import PostfixCompiler.Proofs.Json.Words
import PostfixCompiler.Proofs.Text.Quoted

/-!
# Listings are read back

A listing is all that is left of some code, so it has to tell what the code was. Names are shown as
they are, without quotes, and may hold blanks, commas and tabs; still no other code has the same
listing. A line ends where its first newline is, because no part of an instruction has one. In front
of it may be a tab, which no mnemonic begins with. The mnemonic ends where the first blank is, and
all that follows is the operand. Which kind of operand it is, and which instruction is made of it,
is said by the mnemonic. Only a public label has more behind its name, and that is told by the end
of the line.

## Main definitions

* `PostfixCompiler.Form`: what an instruction is made of.
* `PostfixCompiler.Form.ofMnemonic?`: the form of the instructions with a mnemonic.
* `PostfixCompiler.Instr.Legible`: a name has no newline, and a double is not undefined.

## Main statements

* `PostfixCompiler.Instr.shows_form`: an instruction is shown as its form says.
* `PostfixCompiler.Form.Makes.unique`: an operand makes one instruction.
* `PostfixCompiler.Instr.render_injective`: an instruction is known by how it is shown.
* `PostfixCompiler.Listing.render_eq_iff`: code is known by its listing.
-/

namespace PostfixCompiler

/-! ### Instructions that can be read -/

namespace Instr

/-- The name of a label in an instruction. -/
def name? : Instr → Option String
  | .label l | .global l _ | .external l | .staticAddress l | .address l | .jump l
  | .jumpIfZero l | .jumpIfNotZero l | .call l => some l
  | _ => none

/-- The double in an instruction. -/
def double? : Instr → Option Double
  | .staticDouble d | .double d => some d
  | _ => none

/-- **The instruction can be read**: its name, if it has one, is on one line, and its double is a
number or infinite. -/
def Legible (i : Instr) : Prop :=
  (∀ l ∈ i.name?, '\n' ∉ l.toList) ∧ ∀ d ∈ i.double?, d.isNaN = false

instance (i : Instr) : Decidable i.Legible := inferInstanceAs (Decidable (_ ∧ _))

end Instr

/-! ### Forms of instructions -/

/-- **What an instruction is made of**: of nothing, or of an operand of some kind. -/
inductive Form where
  /-- Of nothing. -/
  | bare (i : Instr)
  /-- Of an integer. -/
  | int (make : Int → Instr)
  /-- Of a number of bytes. -/
  | size (make : Nat → Instr)
  /-- Of a double. -/
  | double (make : Double → Instr)
  /-- Of a text. -/
  | text (make : String → Instr)
  /-- Of a name. -/
  | name (make : String → Instr)
  /-- Of a name and of what it stands for. -/
  | exported (make : String → SymbolClass → Instr)

namespace SymbolClass

/-- What a listing shows behind the name of a public label. -/
def suffix : SymbolClass → String
  | .function => ", FUNC"
  | .object => ", OBJ"

/-- No suffix is the end of a text that ends with the other one. -/
theorem append_suffix_injective {l l' : String} {k k' : SymbolClass}
    (h : l ++ k.suffix = l' ++ k'.suffix) :
    l = l' ∧ k = k' := by
  have hlist := congrArg String.toList h
  rw [String.toList_append, String.toList_append] at hlist
  have hlast := congrArg List.getLast? hlist
  rw [List.getLast?_append, List.getLast?_append] at hlast
  have hkind : k = k' := by
    cases k <;> cases k'
    · rfl
    · exact nomatch (show some 'C' = some 'J' from hlast)
    · exact nomatch (show some 'J' = some 'C' from hlast)
    · rfl
  subst hkind
  exact ⟨String.toList_inj.mp (List.append_cancel_right hlist), rfl⟩

end SymbolClass

namespace Form

/-- **The form of the instructions with a mnemonic.** -/
def ofMnemonic? : String → Option Form
  | "TEXT" => some (.bare .text)
  | "DATA" => some (.bare .data)
  | "RODATA" => some (.bare .rodata)
  | "BSS" => some (.bare .bss)
  | "ALIGN" => some (.bare .align)
  | "LABEL" => some (.name .label)
  | "GLOBAL" => some (.exported .global)
  | "EXTERN" => some (.name .external)
  | "SINT" => some (.int .staticInt)
  | "SDOUBLE" => some (.double .staticDouble)
  | "SSTRING" => some (.text .staticString)
  | "SADDR" => some (.name .staticAddress)
  | "SALLOC" => some (.size .staticBytes)
  | "INT" => some (.int .int)
  | "DOUBLE" => some (.double .double)
  | "ADDR" => some (.name .address)
  | "LOCAL" => some (.int .frameAddress)
  | "SP" => some (.bare .stackPointer)
  | "LDINT" => some (.bare .loadInt)
  | "LDDOUBLE" => some (.bare .loadDouble)
  | "STINT" => some (.bare .storeInt)
  | "STDOUBLE" => some (.bare .storeDouble)
  | "ALLOC" => some (.bare .alloc)
  | "DUP32" => some (.bare .dupInt)
  | "DUP64" => some (.bare .dupDouble)
  | "TRASH" => some (.size .trash)
  | "ADD" => some (.bare .add)
  | "SUB" => some (.bare .sub)
  | "MUL" => some (.bare .mul)
  | "DIV" => some (.bare .div)
  | "MOD" => some (.bare .mod)
  | "NEG" => some (.bare .neg)
  | "DADD" => some (.bare .addDouble)
  | "DSUB" => some (.bare .subDouble)
  | "DMUL" => some (.bare .mulDouble)
  | "DDIV" => some (.bare .divDouble)
  | "DNEG" => some (.bare .negDouble)
  | "I2D" => some (.bare .intToDouble)
  | "LT" => some (.bare .lt)
  | "LE" => some (.bare .le)
  | "GE" => some (.bare .ge)
  | "GT" => some (.bare .gt)
  | "EQ" => some (.bare .eq)
  | "NE" => some (.bare .ne)
  | "DCMP" => some (.bare .compareDouble)
  | "AND" => some (.bare .and)
  | "OR" => some (.bare .or)
  | "JMP" => some (.name .jump)
  | "JZ" => some (.name .jumpIfZero)
  | "JNZ" => some (.name .jumpIfNotZero)
  | "CALL" => some (.name .call)
  | "RET" => some (.bare .return)
  | "ENTER" => some (.size .enter)
  | "LEAVE" => some (.bare .leave)
  | "LDFVAL32" => some (.bare .loadResultInt)
  | "LDFVAL64" => some (.bare .loadResultDouble)
  | "STFVAL32" => some (.bare .storeResultInt)
  | "STFVAL64" => some (.bare .storeResultDouble)
  | _ => none

/-- **An instruction is made of an operand**, which is shown as some text, or of nothing. -/
def Makes : Form → Option String → Instr → Prop
  | .bare i, o, j => o = none ∧ j = i
  | .int make, o, j => ∃ n, o = some (toString n) ∧ j = make n
  | .size make, o, j => ∃ n, o = some (toString n) ∧ j = make n
  | .double make, o, j => ∃ d, d.isNaN = false ∧ o = some (d.write listingFormat) ∧ j = make d
  | .text make, o, j => ∃ s, o = some (Text.quote s) ∧ j = make s
  | .name make, o, j => ∃ l, '\n' ∉ l.toList ∧ o = some l ∧ j = make l
  | .exported make, o, j => ∃ l k, '\n' ∉ l.toList ∧ o = some (l ++ k.suffix) ∧ j = make l k

variable {f : Form} {m m' : String} {o o' : Option String} {i j : Instr}

/-- **An operand makes one instruction.** -/
theorem Makes.unique (hi : f.Makes o i) (hj : f.Makes o j) : i = j := by
  cases f with
  | bare i' => exact hi.2.trans hj.2.symm
  | int make =>
    obtain ⟨n, rfl, rfl⟩ := hi
    obtain ⟨n', htext, rfl⟩ := hj
    rw [Int.repr_inj.mp (Option.some.inj htext)]
  | size make =>
    obtain ⟨n, rfl, rfl⟩ := hi
    obtain ⟨n', htext, rfl⟩ := hj
    rw [Nat.repr_inj.mp (Option.some.inj htext)]
  | double make =>
    obtain ⟨d, hd, rfl, rfl⟩ := hi
    obtain ⟨d', hd', htext, rfl⟩ := hj
    rw [Double.write_injective hd hd' (Option.some.inj htext)]
  | text make =>
    obtain ⟨s, rfl, rfl⟩ := hi
    obtain ⟨s', htext, rfl⟩ := hj
    rw [Text.quote_injective (Option.some.inj htext)]
  | name make =>
    obtain ⟨l, -, rfl, rfl⟩ := hi
    obtain ⟨l', -, htext, rfl⟩ := hj
    rw [Option.some.inj htext]
  | exported make =>
    obtain ⟨l, k, -, rfl, rfl⟩ := hi
    obtain ⟨l', k', -, htext, rfl⟩ := hj
    obtain ⟨rfl, rfl⟩ := SymbolClass.append_suffix_injective (Option.some.inj htext)
    rfl

/-- A word has no newline. -/
theorem newline_notMem_of_allWordChars {cs : List Char} (h : Json.AllWordChars cs) :
    '\n' ∉ cs := fun hmem =>
  Bool.false_ne_true (h '\n' hmem)

/-- An operand is shown on one line. -/
theorem Makes.newline_notMem {t : String} (h : f.Makes (some t) i) : '\n' ∉ t.toList := by
  cases f with
  | bare i' => cases h.1
  | int make =>
    obtain ⟨n, htext, -⟩ := h
    rw [Option.some.inj htext]
    exact newline_notMem_of_allWordChars (Json.allWordChars_int n)
  | size make =>
    obtain ⟨n, htext, -⟩ := h
    rw [Option.some.inj htext]
    exact newline_notMem_of_allWordChars (Json.allWordChars_int n)
  | double make =>
    obtain ⟨d, -, htext, -⟩ := h
    rw [Option.some.inj htext]
    exact newline_notMem_of_allWordChars (Json.allWordChars_write _ d)
  | text make =>
    obtain ⟨s, htext, -⟩ := h
    rw [Option.some.inj htext]
    exact Text.newline_notMem_quote s
  | name make =>
    obtain ⟨l, hl, htext, -⟩ := h
    rwa [Option.some.inj htext]
  | exported make =>
    obtain ⟨l, k, hl, htext, -⟩ := h
    rw [Option.some.inj htext, String.toList_append, List.mem_append, not_or]
    exact ⟨hl, by cases k <;> decide⟩

/-- Mnemonics are made of letters and digits. -/
theorem isAlphanum_of_ofMnemonic (h : ofMnemonic? m = some f) :
    m.toList.all Char.isAlphanum = true ∧ m.toList ≠ [] := by
  unfold ofMnemonic? at h
  split at h
  all_goals first
    | decide
    | cases h

end Form

/-! ### Lines -/

namespace Instr

/-- A mnemonic with its operand, if there is one. -/
def withOption (mnemonic : String) : Option String → String
  | none => mnemonic
  | some operand => withOperand mnemonic operand

/-- The instruction is shown as a mnemonic with an operand, of which it is made. -/
structure Shows (i : Instr) (mnemonic : String) (operand : Option String) (f : Form) : Prop where
  /-- It is shown as the mnemonic with the operand. -/
  render : i.render = withOption mnemonic operand
  /-- The mnemonic says what it is made of. -/
  form : Form.ofMnemonic? mnemonic = some f
  /-- It is made of the operand. -/
  makes : f.Makes operand i

/-- **An instruction is shown as its form says.** -/
theorem shows_form {i : Instr} (hi : i.Legible) : ∃ m o f, i.Shows m o f := by
  obtain ⟨hname, hdouble⟩ := hi
  cases i with
  | label l | external l | staticAddress l | address l | jump l | jumpIfZero l
  | jumpIfNotZero l | call l =>
    exact ⟨_, some l, _, rfl, rfl, l, hname l rfl, rfl, rfl⟩
  | global l k =>
    refine ⟨"GLOBAL", some (l ++ k.suffix), _, ?_, rfl, l, k, hname l rfl, rfl, rfl⟩
    cases k <;> simp [render, withOption, withOperand, SymbolClass.suffix, String.append_assoc]
  | staticInt n | int n | frameAddress n => exact ⟨_, some (toString n), _, rfl, rfl, n, rfl, rfl⟩
  | staticBytes n | trash n | enter n => exact ⟨_, some (toString n), _, rfl, rfl, n, rfl, rfl⟩
  | staticDouble d
  | double d => exact ⟨_, some (d.write listingFormat), _, rfl, rfl, d, hdouble d rfl, rfl, rfl⟩
  | staticString s => exact ⟨_, some (Text.quote s), _, rfl, rfl, s, rfl, rfl⟩
  | _ => exact ⟨_, none, _, rfl, rfl, rfl, rfl⟩

end Instr

/-- What is in front of the first separator, and what is behind it. -/
theorem append_cons_injective {α : Type} {c : α} {xs ys xs' ys' : List α}
    (hx : c ∉ xs) (hy : c ∉ ys) (h : xs ++ c :: xs' = ys ++ c :: ys') : xs = ys ∧ xs' = ys' := by
  induction xs generalizing ys with
  | nil =>
    cases ys with
    | nil => exact ⟨rfl, (List.cons.inj h).2⟩
    | cons y ys => exact absurd ((List.cons.inj h).1 ▸ List.mem_cons_self) hy
  | cons x xs ih =>
    cases ys with
    | nil => exact absurd ((List.cons.inj h).1 ▸ List.mem_cons_self) hx
    | cons y ys =>
      rw [List.mem_cons, not_or] at hx hy
      obtain ⟨hhead, htail⟩ := List.cons.inj h
      obtain ⟨rfl, htails⟩ := ih hx.2 hy.2 htail
      exact ⟨by rw [hhead], htails⟩

namespace Instr

variable {i j : Instr} {m m' : String} {o o' : Option String}

/-- With one more blank at the end of what is shown, this is behind the first one. -/
def behindBlank : Option String → List Char
  | none => []
  | some operand => operand.toList ++ [' ']

/-- What is shown has the mnemonic in front of a blank, once there is one at the end. -/
theorem withOption_append_blank (m : String) (o : Option String) :
    (withOption m o).toList ++ [' '] = m.toList ++ ' ' :: behindBlank o := by
  cases o <;> simp [withOption, withOperand, behindBlank]

/-- Of what is shown, the mnemonic is in front of the first blank. -/
theorem withOption_injective (hm : ' ' ∉ m.toList) (hm' : ' ' ∉ m'.toList)
    (h : withOption m o = withOption m' o') :
    m = m' ∧ o = o' := by
  have hlist := congrArg (fun s : String => s.toList ++ [' ']) h
  simp only [withOption_append_blank] at hlist
  obtain ⟨hfront, hrest⟩ := append_cons_injective hm hm' hlist
  refine ⟨String.toList_inj.mp hfront, ?_⟩
  cases o with
  | none =>
    cases o' with
    | none => rfl
    | some t' =>
        exact absurd hrest.symm (List.append_ne_nil_of_right_ne_nil _ (List.cons_ne_nil _ _))
  | some t =>
    cases o' with
    | none => exact absurd hrest (List.append_ne_nil_of_right_ne_nil _ (List.cons_ne_nil _ _))
    | some t' => rw [String.toList_inj.mp (List.append_cancel_right hrest)]

/-- A blank, a tab and a newline are no part of a mnemonic. -/
theorem notMem_mnemonic {f : Form} (h : Form.ofMnemonic? m = some f) {c : Char}
    (hc : c.isAlphanum = false) :
    c ∉ m.toList := fun hmem =>
  Bool.false_ne_true
    (hc.symm.trans (List.all_eq_true.mp (Form.isAlphanum_of_ofMnemonic h).1 c hmem))

/-- **An instruction is known by how it is shown.** -/
theorem render_injective (hi : i.Legible) (hj : j.Legible) (h : i.render = j.render) : i = j := by
  obtain ⟨m, o, f, hrender, hform, hmakes⟩ := shows_form hi
  obtain ⟨m', o', f', hrender', hform', hmakes'⟩ := shows_form hj
  rw [hrender, hrender'] at h
  obtain ⟨rfl, rfl⟩ :=
    withOption_injective (notMem_mnemonic hform rfl) (notMem_mnemonic hform' rfl) h
  obtain rfl := Option.some.inj (hform.symm.trans hform')
  exact hmakes.unique hmakes'

/-- An instruction is shown on one line. -/
theorem newline_notMem_render (hi : i.Legible) : '\n' ∉ i.render.toList := by
  obtain ⟨m, o, f, hrender, hform, hmakes⟩ := shows_form hi
  have hmnemonic : '\n' ∉ m.toList := notMem_mnemonic hform rfl
  rw [hrender]
  cases o with
  | none => exact hmnemonic
  | some t =>
    rw [withOption, withOperand, String.toList_append, String.toList_append, List.mem_append,
      List.mem_append, not_or, not_or]
    exact ⟨⟨hmnemonic, by decide⟩, hmakes.newline_notMem⟩

/-- The line of an instruction has no newline. -/
theorem newline_notMem_line (hi : i.Legible) : '\n' ∉ i.line.toList := by
  have hrender := newline_notMem_render hi
  unfold line
  split
  · exact hrender
  · rw [String.toList_append, List.mem_append, not_or]
    exact ⟨by decide, hrender⟩

/-- An instruction is what is behind the tab in front of it, if there is one. -/
theorem dropWhile_line (hi : i.Legible) : i.line.toList.dropWhile (· = '\t') = i.render.toList := by
  obtain ⟨m, o, f, hrender, hform, -⟩ := shows_form hi
  -- What is shown begins with the mnemonic, which does not begin with a tab.
  obtain ⟨c, cs, hcs⟩ := List.exists_cons_of_ne_nil (Form.isAlphanum_of_ofMnemonic hform).2
  have htab : c ≠ '\t' := fun heq =>
    notMem_mnemonic hform (c := '\t') rfl (by rw [hcs, heq]; exact List.mem_cons_self)
  obtain ⟨cs', hcs'⟩ : ∃ cs', i.render.toList = c :: cs' := by
    rw [hrender]
    cases o with
    | none => exact ⟨cs, hcs⟩
    | some t => exact ⟨cs ++ ' ' :: t.toList, by simp [withOption, withOperand, hcs]⟩
  have hkept : i.render.toList.dropWhile (· = '\t') = i.render.toList := by
    rw [hcs', List.dropWhile_cons_of_neg (by simpa using htab)]
  unfold line
  split
  · exact hkept
  · rw [String.toList_append]
    exact hkept

/-- **An instruction is known by its line.** -/
theorem line_injective (hi : i.Legible) (hj : j.Legible) (h : i.line = j.line) : i = j := by
  refine render_injective hi hj (String.toList_inj.mp ?_)
  rw [← dropWhile_line hi, ← dropWhile_line hj, h]

end Instr

/-! ### Listings -/

namespace Listing

/-- A listing is its first line and the listing of the other instructions. -/
theorem toList_render_cons (i : Instr) (code : List Instr) :
    (render (i :: code)).toList = i.line.toList ++ '\n' :: (render code).toList := by
  rw [render, List.map_cons, String.join_cons, ← render, String.toList_append, String.toList_append,
    List.append_assoc]
  rfl

/-- **Code is known by its listing**: no other code that can be read has the same. -/
theorem render_eq_iff {code other : List Instr} (h : ∀ i ∈ code, i.Legible)
    (h' : ∀ i ∈ other, i.Legible) :
    render code = render other ↔ code = other := by
  refine ⟨fun heq => ?_, fun heq => heq ▸ rfl⟩
  induction code generalizing other with
  | nil =>
    cases other with
    | nil => rfl
    | cons j other =>
      have hlist := congrArg String.toList heq
      rw [toList_render_cons] at hlist
      exact absurd hlist.symm (List.append_ne_nil_of_right_ne_nil _ (List.cons_ne_nil _ _))
  | cons i code ih =>
    cases other with
    | nil =>
      have hlist := congrArg String.toList heq
      rw [toList_render_cons] at hlist
      exact absurd hlist (List.append_ne_nil_of_right_ne_nil _ (List.cons_ne_nil _ _))
    | cons j other =>
      rw [List.forall_mem_cons] at h h'
      have hlist := congrArg String.toList heq
      rw [toList_render_cons, toList_render_cons] at hlist
      -- The first newline of each listing is the end of its first line.
      obtain ⟨hline, hrest⟩ :=
        append_cons_injective (Instr.newline_notMem_line h.1) (Instr.newline_notMem_line h'.1) hlist
      rw [Instr.line_injective h.1 h'.1 (String.toList_inj.mp hline),
        ih h.2 h'.2 (String.toList_inj.mp hrest)]

/-- A variable has a name with a tab, and one that looks like the line of a function; and there are
two zeros. -/
theorem render_eq_iff_lookalike : render [.global "a\tb, FUNC" .object, .double ⟨0⟩] ≠
    render [.global "a\tb" .function, .double ⟨0x8000000000000000⟩] := fun h =>
  absurd ((render_eq_iff (by decide) (by decide)).mp h) (by decide)

end Listing

end PostfixCompiler
