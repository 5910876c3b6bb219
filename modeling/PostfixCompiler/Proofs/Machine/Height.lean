import PostfixCompiler.Proofs.Machine.UnitLabels

/-!
# Stack heights

Each instruction moves the top of the stack by a number of bytes that is known beforehand. Add up
these numbers along the code of a unit: the sum in front of an instruction is its **height**. A run
goes along the code only as long as there is no jump, so that it always finds the stack at the
height of the next instruction has to be proved, and it is enough to look at one jump at a time: the
label that it goes to must have the height behind the jump. A jump that is always taken stands at
height 0, and so does what follows it, where no run arrives from before.

## Main definitions

* `PostfixCompiler.Emission.effect`: how far an instruction moves the top of the stack.
* `PostfixCompiler.Emission.Reaches`: the instructions that a run reaches, with the heights at which
  it does.
* `PostfixCompiler.Emission.Balanced`: every jump of some code leads to a label of the right height.
* `PostfixCompiler.Outline.Climbs`: the code of an outline is balanced, and every piece of it moves
  the top of the stack as far as it has to.

## Main statements

* `PostfixCompiler.Emission.Reaches.eq_rise`: what is reached is reached at its own height.
* `PostfixCompiler.Outline.Climbs.append`, `PostfixCompiler.Outline.Climbs.close`.
-/

namespace PostfixCompiler

namespace Emission

/-! ### Runs -/

/-- **How far an instruction moves the top of the stack**, in bytes. -/
def effect : Instr → Int
  | .int _ | .frameAddress _ | .address _ | .stackPointer | .loadResultInt | .dupInt => 4
  | .double _ | .dupDouble | .loadResultDouble => 8
  | .loadDouble | .intToDouble => 4
  | .storeInt => -8
  | .storeDouble => -12
  | .add | .sub | .mul | .div | .mod | .lt | .le | .ge | .gt | .eq | .ne | .and | .or => -4
  | .addDouble | .subDouble | .mulDouble | .divDouble => -8
  | .compareDouble => -12
  | .jumpIfZero _ | .jumpIfNotZero _ | .storeResultInt | .alloc => -4
  | .storeResultDouble => -8
  | .trash n => -n
  | _ => 0

/-- Control may go on behind the instruction. -/
def goesOn : Instr → Bool
  | .jump _ | .return => false
  | _ => true

/-- The label where control may go on. -/
def target? : Instr → Option String
  | .jump l | .jumpIfZero l | .jumpIfNotZero l => some l
  | _ => none

theorem goesOn_of_leadsInto {is : List Instr} {x : Instr} (h : LeadsInto is x) :
    goesOn x = true := by
  cases x with
  | jump | «return» => exact h.elim
  | _ => rfl

/-- A part of forward code from a label on is forward. -/
theorem Forward.right {is js : List Instr} (h : Forward (is ++ js)) : Forward js := by
  induction is with
  | nil => exact h
  | cons i is ih => exact ih h.2

/-- **The ways from one instruction to the next** that a run may take. -/
inductive Edge (code : List Instr) : Nat → Nat → Prop where
  /-- Control goes on behind the instruction. -/
  | next {i : Nat} {x : Instr} (hx : code[i]? = some x) (h : goesOn x = true) : Edge code i (i + 1)
  /-- Control goes on at a label. -/
  | jump {i j : Nat} {x : Instr} {l : String} (hx : code[i]? = some x) (h : target? x = some l)
    (hl : code[j]? = some (.label l)) : Edge code i j

/-- **The instructions that a run reaches** from one of them, each with the height of the stack when
it is reached, above that at the start. -/
inductive Reaches (code : List Instr) (start : Nat) : Nat → Int → Prop where
  /-- The run starts. -/
  | start : Reaches code start start 0
  /-- The run goes on. -/
  | step {i j : Nat} {h : Int} {x : Instr} (hr : Reaches code start i h) (hx : code[i]? = some x)
    (he : Edge code i j) : Reaches code start j (h + effect x)

/-! ### Balanced code -/

/-- How far code moves the top of the stack, if its instructions are run one after the other. -/
def rise : List Instr → Int
  | [] => 0
  | i :: is => effect i + rise is

@[simp] theorem rise_append (is js : List Instr) : rise (is ++ js) = rise is + rise js := by
  induction is with
  | nil => rw [List.nil_append, rise, Int.zero_add]
  | cons i is ih => rw [List.cons_append, rise, rise, ih, Int.add_assoc]

/-- A label stands in code that starts at height `h`, and has height `k`. -/
def Places (h : Int) (is : List Instr) (l : String) (k : Int) : Prop :=
  ∃ before after, is = before ++ .label l :: after ∧ k = h + rise before

/-- **An instruction is in order** at height `h`, if the heights of labels are as `ls` says: a jump
goes to a label that is made up and has the height behind the jump, and a frame is set up and given
back at height 0. -/
def InOrder (ls : String → Int → Prop) (h : Int) : Instr → Prop
  | .jump l => (∃ n, l = labelName n) ∧ ls l h
  | .jumpIfZero l | .jumpIfNotZero l => (∃ n, l = labelName n) ∧ ls l (h - 4)
  | .enter _ | .leave => h = 0
  | _ => True

/-- **Code is balanced** from height `h` on: all instructions are in order, and the height never
drops below 0. -/
def Balanced (ls : String → Int → Prop) (h : Int) : List Instr → Prop
  | [] => 0 ≤ h
  | i :: is => 0 ≤ h ∧ InOrder ls h i ∧ Balanced ls (h + effect i) is

section Balanced

variable {ls ls' : String → Int → Prop} {h h' : Int} {is js : List Instr}

theorem InOrder.mono {i : Instr} (hi : InOrder ls h i) (hl : ∀ l k, ls l k → ls' l k) :
    InOrder ls' h i := by
  cases i with
  | jump | jumpIfZero | jumpIfNotZero => exact ⟨hi.1, hl _ _ hi.2⟩
  | enter | leave => exact hi
  | _ => trivial

theorem Balanced.mono (hb : Balanced ls h is) (hl : ∀ l k, ls l k → ls' l k) :
    Balanced ls' h is := by
  induction is generalizing h with
  | nil => exact hb
  | cons i is ih => exact ⟨hb.1, hb.2.1.mono hl, ih hb.2.2⟩

theorem Balanced.append (hb : Balanced ls h is) (hb' : Balanced ls (h + rise is) js) :
    Balanced ls h (is ++ js) := by
  induction is generalizing h with
  | nil =>
    rw [rise, Int.add_zero] at hb'
    exact hb'
  | cons i is ih =>
    rw [rise, ← Int.add_assoc] at hb'
    exact ⟨hb.1, hb.2.1, ih hb.2.2 hb'⟩

/-- In balanced code every instruction is in order at its height. -/
theorem Balanced.inOrder (hb : Balanced ls h is) {i : Nat} {x : Instr} (hx : is[i]? = some x) :
    InOrder ls (h + rise (is.take i)) x := by
  induction is generalizing h i with
  | nil => cases hx
  | cons y is ih =>
    cases i with
    | zero =>
      cases hx
      rw [List.take_zero, rise, Int.add_zero]
      exact hb.2.1
    | succ i =>
      rw [List.take_succ_cons, rise, ← Int.add_assoc]
      exact ih hb.2.2 hx

/-- In balanced code no height is below 0. -/
theorem Balanced.nonneg (hb : Balanced ls h is) (i : Nat) : 0 ≤ h + rise (is.take i) := by
  induction is generalizing h i with
  | nil =>
    rw [List.take_nil, rise, Int.add_zero]
    exact hb
  | cons y is ih =>
    cases i with
    | zero =>
      rw [List.take_zero, rise, Int.add_zero]
      exact hb.1
    | succ i =>
      rw [List.take_succ_cons, rise, ← Int.add_assoc]
      exact ih hb.2.2 i

theorem Places.left {l : String} {k : Int} (hp : Places h is l k) (js : List Instr) :
    Places h (is ++ js) l k := by
  obtain ⟨a, b, rfl, rfl⟩ := hp
  exact ⟨a, b ++ js, by simp, rfl⟩

theorem Places.right {l : String} {k : Int} (hp : Places (h + rise is) js l k) :
    Places h (is ++ js) l k := by
  obtain ⟨a, b, rfl, rfl⟩ := hp
  exact ⟨is ++ a, b, by simp, by rw [rise_append, Int.add_assoc]⟩

end Balanced

theorem rise_take_succ {code : List Instr} {i : Nat} {x : Instr} (hx : code[i]? = some x) :
    rise (code.take (i + 1)) = rise (code.take i) + effect x := by
  rw [List.take_add_one, hx, rise_append, Option.toList_some, rise, rise, Int.add_zero]

/-- **What a run reaches, it reaches at its own height**, if the code is balanced, the run starts
where a frame is set up, and no label that is made up is placed twice. -/
theorem Reaches.eq_rise {code : List Instr} {n m start i size : Nat} {h : Int}
    (hb : Balanced (Places 0 code) 0 code) (hm : Makes code n m)
    (hstart : code[start]? = some (.enter size)) (hr : Reaches code start i h) :
    h = rise (code.take i) := by
  induction hr with
  | start => exact (Int.zero_add (rise (code.take start)) ▸ (hb.inOrder hstart).symm)
  | @step i j h x hr hx he ih =>
    subst ih
    cases he with
    | next hx' hgo => exact (rise_take_succ hx).symm
    | @jump _ y l hx' htarget hl =>
      cases hx.symm.trans hx'
      have horder := hb.inOrder hx
      have hplaced : (∃ n, l = labelName n) ∧ Places 0 code l (rise (code.take i) + effect x) := by
        cases x with
        | jump | jumpIfZero | jumpIfNotZero =>
          cases htarget
          rw [Int.zero_add] at horder
          simpa [InOrder, effect, Int.sub_eq_add_neg] using horder
        | _ => cases htarget
      obtain ⟨⟨k, rfl⟩, before, after, hcode, heq⟩ := hplaced
      have hj : j = before.length := by
        refine hm.position_unique hl ?_
        rw [hcode, List.getElem?_append_right (Nat.le_refl _), Nat.sub_self]
        rfl
      rw [heq, hj, hcode, List.take_left, Int.zero_add]

end Emission

open Emission

/-! ### Outlines -/

/-- How far the code of a piece moves the top of the stack: an expression leaves its value or an
address, a statement nothing. -/
def Piece.Weighs (T : TypeTable) (n : Int) : Piece → Prop
  | .expression .value _ e => n = (e.type T).size
  | .expression .address _ _ => n = Ty.wordSize
  | .statement _ => n = 0
  | .function _ | .action _ | .branch | .text .. => True

namespace Outline

/-- The code of every piece moves the top of the stack as far as it has to. -/
def Weighed (T : TypeTable) : Outline → Prop
  | .done => True
  | .step _ rest => rest.Weighed T
  | .part p inner rest => p.Weighs T (rise inner.code) ∧ inner.Weighed T ∧ rest.Weighed T

/-- **What a piece of an outline does to the stack** can be read off the heights at its ends. -/
theorem Spans.weighs {T : TypeTable} {o : Outline} {p : Piece} {i j : Nat} (h : o.Spans p i j)
    (hw : o.Weighed T) :
    p.Weighs T (rise (o.code.take j) - rise (o.code.take i)) ∧ j ≤ o.code.length := by
  induction h with
  | here p inner rest =>
    rw [code, List.take_left, List.take_zero, rise, Int.sub_zero, List.length_append]
    exact ⟨hw.1, Nat.le_add_right _ _⟩
  | @inside p q inner rest i j h ih =>
    obtain ⟨ih, hj⟩ := ih hw.2.1
    have hi : i ≤ inner.code.length := h.le.trans hj
    rw [code, List.take_append_of_le_length hj, List.take_append_of_le_length hi,
      List.length_append]
    exact ⟨ih, by omega⟩
  | behindStep x h ih =>
    obtain ⟨ih, hj⟩ := ih hw
    rw [code, List.take_succ_cons, List.take_succ_cons, rise, rise, Int.add_sub_add_left]
    exact ⟨ih, Nat.succ_le_succ hj⟩
  | behindPart q inner h ih =>
    obtain ⟨ih, hj⟩ := ih hw.2.2
    rw [code, List.take_length_add_append, List.take_length_add_append, rise_append, rise_append,
      Int.add_sub_add_left, List.length_append]
    exact ⟨ih, by omega⟩

/-- **The code of an outline leads from one height to another**: it is balanced, where jumps may
lead to labels outside of it that are as `out` says, and every piece of it moves the top of the
stack as far as it has to. -/
structure Climbs (T : TypeTable) (out : String → Int → Prop) (h : Int) (o : Outline)
    (h' : Int) : Prop where
  /-- The code leads to this height. -/
  rise_eq : h' = h + rise o.code
  /-- The code is balanced. -/
  balanced : Balanced (fun l k => out l k ∨ Places h o.code l k) h o.code
  /-- The pieces do what they have to. -/
  weighed : o.Weighed T

theorem weighed_append {T : TypeTable} {a b : Outline} (ha : a.Weighed T) (hb : b.Weighed T) :
    (a ++ b).Weighed T := by
  change (a.append b).Weighed T
  induction a with
  | done => exact hb
  | step i rest ih => exact ih ha
  | part p inner rest _ ih => exact ⟨ha.1, ha.2.1, ih ha.2.2⟩

theorem weighed_ofCode (T : TypeTable) (is : List Instr) : (ofCode is).Weighed T := by
  induction is with
  | nil => trivial
  | cons i is ih => exact ih

namespace Climbs

variable {T : TypeTable} {out out' : String → Int → Prop} {h h' h'' : Int} {a b : Outline}

theorem append (ha : a.Climbs T out h h') (hb : b.Climbs T out h' h'') :
    (a ++ b).Climbs T out h h'' := by
  have hrise := ha.rise_eq
  subst hrise
  refine ⟨?_, ?_, weighed_append ha.weighed hb.weighed⟩
  · rw [hb.rise_eq, code_append, rise_append, Int.add_assoc]
  · rw [code_append]
    refine (ha.balanced.mono fun l k hl => ?_).append (hb.balanced.mono fun l k hl => ?_)
    · exact hl.imp_right fun hp => hp.left b.code
    · exact hl.imp_right Places.right

/-- **A label that stands in the code need not be looked for outside of it.** -/
theorem close (ha : a.Climbs T out' h h') (ho : ∀ l k, out' l k → out l k ∨ Places h a.code l k) :
    a.Climbs T out h h' :=
  ⟨ha.rise_eq, ha.balanced.mono fun l k hl => hl.elim (ho l k) .inr, ha.weighed⟩

theorem piece {p : Piece} (ha : a.Climbs T out h h') (hp : p.Weighs T (h' - h)) :
    (Outline.piece p a).Climbs T out h h' := by
  have hcode := code_piece p a
  have hrise : rise a.code = h' - h := by
    have := ha.rise_eq
    omega
  exact ⟨hcode ▸ ha.rise_eq, hcode ▸ ha.balanced, hrise ▸ hp, ha.weighed, trivial⟩

/-- Instructions that lead from one height to another. -/
theorem ofCode {is : List Instr} (hb : Balanced out h is) (hr : h' = h + rise is) :
    (Outline.ofCode is).Climbs T out h h' := by
  refine ⟨?_, ?_, weighed_ofCode T is⟩
  · rw [code_ofCode, hr]
  · rw [code_ofCode]
    exact hb.mono fun l k hl => .inl hl

/-- The label at the end of the code has the height to which it leads. -/
theorem places_last {is : List Instr} {l : String} (ha : (a ++ .ofCode is).Climbs T out h h')
    (hl : is.getLast? = some (.label l)) : Places h (a ++ .ofCode is).code l h' := by
  obtain ⟨before, rfl⟩ := List.getLast?_eq_some_iff.mp hl
  have hcode : (a ++ .ofCode (before ++ [.label l])).code = a.code ++ before ++ [.label l] := by
    rw [code_append, code_ofCode, List.append_assoc]
  have hlabel : rise [.label l] = 0 := rfl
  refine ⟨a.code ++ before, [], hcode, ?_⟩
  rw [ha.rise_eq, hcode, rise_append, hlabel, Int.add_zero]

theorem done (hh : 0 ≤ h) : Outline.done.Climbs T out h h :=
  (ofCode hh (Int.add_zero h).symm : (Outline.ofCode []).Climbs T out h h)

end Climbs

end Outline

end PostfixCompiler
