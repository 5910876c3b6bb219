import Mathlib.Logic.Relation
import PostfixCompiler.Proofs.Machine.Height

/-!
# Runs of code

A run goes through code from instruction to instruction. Where the jump of a condition stands, an
oracle decides which way the run goes; any other jump that looks at the stack may go either way. On
its way the run takes note of each action that it begins.

Such runs are not determined, but what matters of them is: that they **must** get somewhere. This is
said of a state by induction, since a state from which every run must get somewhere is there
already, or can go on, and whatever the next state is, every run from there must.

## Main definitions

* `PostfixCompiler.Emission.Cell`: an instruction with its marks.
* `PostfixCompiler.Emission.Moves`: one step of a run.
* `PostfixCompiler.Emission.Must`: every run from a state gets somewhere.

## Main statements

* `PostfixCompiler.Emission.Must.of_reaches`: a run that must get somewhere was there, or still must
  get there.
* `PostfixCompiler.Emission.must_through`: a run must get through code whose jumps lead ahead.
-/

namespace PostfixCompiler

namespace Emission

/-! ### Getting somewhere -/

/-- **Every run from a state gets somewhere** where `Q` holds. -/
inductive Must {S : Type} (R : S → S → Prop) (Q : S → Prop) : S → Prop where
  /-- The run is there. -/
  | here {s : S} (h : Q s) : Must R Q s
  /-- The run can go on, and must get there from wherever it goes. -/
  | step {s : S} (hgo : ∃ t, R s t) (h : ∀ t, R s t → Must R Q t) : Must R Q s

namespace Must

variable {S : Type} {R : S → S → Prop} {Q Q' : S → Prop} {s t : S}

/-- What must get somewhere from where it must get, must get there. -/
theorem trans (h : Must R Q s) (hQ : ∀ t, Q t → Must R Q' t) : Must R Q' s := by
  induction h with
  | here h => exact hQ _ h
  | step hgo _ ih => exact .step hgo ih

theorem mono (h : Must R Q s) (hQ : ∀ t, Q t → Q' t) : Must R Q' s :=
  h.trans fun t ht => .here (hQ t ht)

/-- There is a run that gets there. -/
theorem exists_reaches (h : Must R Q s) : ∃ t, Relation.ReflTransGen R s t ∧ Q t := by
  induction h with
  | here h => exact ⟨_, .refl, h⟩
  | step hgo _ ih =>
    obtain ⟨t, ht⟩ := hgo
    obtain ⟨u, hu, hQ⟩ := ih t ht
    exact ⟨u, .head ht hu, hQ⟩

/-- **A run that must get somewhere was there, or still must get there.** -/
theorem of_reaches (h : Must R Q s) (hr : Relation.ReflTransGen R s t) :
    (∃ u, Relation.ReflTransGen R u t ∧ Q u) ∨ Must R Q t := by
  induction hr using Relation.ReflTransGen.head_induction_on with
  | refl => exact .inr h
  | head hstep hrest ih =>
    cases h with
    | here h => exact .inl ⟨_, .head hstep hrest, h⟩
    | step _ hall => exact ih (hall _ hstep)

end Must

/-! ### Cells -/

/-- **An instruction with its marks**: the action that begins with it, and whether it is the jump
that a condition decides. -/
structure Cell where
  /-- The instruction. -/
  instr : Instr
  /-- The action that begins here. -/
  begins : Option Action
  /-- The instruction is the jump that a condition decides. -/
  decides : Bool

namespace Cell

/-- An instruction without marks. -/
def plain (x : Instr) : Cell := ⟨x, none, false⟩

/-- The label for zero, if the instruction is the jump that a condition decides. -/
def test? (c : Cell) : Option String :=
  match c.decides, c.instr with
  | true, .jumpIfZero l => some l
  | _, _ => none

/-- An action begins with the first instruction. -/
def begin (a : Option Action) : List Cell → List Cell
  | [] => []
  | c :: cs => { c with begins := a } :: cs

theorem map_instr_plain (is : List Instr) : (is.map plain).map instr = is := by
  rw [List.map_map]
  exact List.map_id is

theorem map_instr_begin (a : Option Action) (cs : List Cell) :
    (begin a cs).map instr = cs.map instr := by
  cases cs <;> rfl

@[simp] theorem length_begin (a : Option Action) (cs : List Cell) :
    (begin a cs).length = cs.length := by
  cases cs <;> rfl

/-- Where no action begins there is nothing to be marked. -/
theorem begin_none (is : List Instr) : begin none (is.map plain) = is.map plain := by
  cases is <;> rfl

end Cell

end Emission

open Emission

/-- The cells of a piece are marked as those of an action or a branch, if it is one. -/
def Piece.mark : Piece → List Cell → List Cell
  | .action a, cs => Cell.begin (some a) cs
  | .branch, cs => cs.map fun c => { c with decides := true }
  | .expression .., cs | .function _, cs | .statement _, cs | .text .., cs => cs

theorem Piece.map_instr_mark (p : Piece) (cs : List Cell) :
    (p.mark cs).map Cell.instr = cs.map Cell.instr := by
  cases p with
  | action a => exact Cell.map_instr_begin _ _
  | branch => exact List.map_map ..
  | _ => rfl

namespace Outline

/-- **The cells of an outline**: its instructions, each with its marks. -/
def cells : Outline → List Cell
  | .done => []
  | .step i rest => .plain i :: rest.cells
  | .part p inner rest => p.mark inner.cells ++ rest.cells

@[simp] theorem cells_append (a b : Outline) : (a ++ b).cells = a.cells ++ b.cells := by
  change (a.append b).cells = _
  induction a with
  | done => rfl
  | step i rest ih => rw [append, cells, ih, cells, List.cons_append]
  | part p inner rest _ ih => rw [append, cells, ih, cells, List.append_assoc]

@[simp] theorem cells_ofCode (is : List Instr) : (ofCode is).cells = is.map Cell.plain := by
  induction is with
  | nil => rfl
  | cons i is ih => rw [ofCode, cells, ih, List.map_cons]

@[simp] theorem map_instr_cells (o : Outline) : o.cells.map Cell.instr = o.code := by
  induction o with
  | done => rfl
  | step i rest ih => rw [cells, code, List.map_cons, ih]; rfl
  | part p inner rest ihi ihr =>
    rw [cells, code, List.map_append, ihr]
    rw [p.map_instr_mark, ihi]

@[simp] theorem length_cells (o : Outline) : o.cells.length = o.code.length := by
  rw [← map_instr_cells, List.length_map]

@[simp] theorem cells_statement (st : Stmt) (o : Outline) :
    (piece (.statement st) o).cells = o.cells :=
  List.append_nil _

@[simp] theorem cells_function (f : Function) (o : Outline) :
    (piece (.function f) o).cells = o.cells :=
  List.append_nil _

/-- Code without actions and branches. -/
def Bare (o : Outline) : Prop := o.cells = o.code.map Cell.plain

theorem Bare.ofCode (is : List Instr) : (ofCode is).Bare := by
  rw [Bare, cells_ofCode, code_ofCode]

theorem Bare.append {a b : Outline} (ha : a.Bare) (hb : b.Bare) : (a ++ b).Bare := by
  rw [Bare, cells_append, code_append, List.map_append, ha, hb]

end Outline

namespace Emission

/-! ### Steps -/

/-- **Where a run is**, and what happened before. -/
structure Control where
  /-- The position of the next instruction. -/
  pos : Nat
  /-- How many tests were made. -/
  tests : Nat
  /-- How many steps were taken. -/
  clock : Nat
  /-- The actions that were begun. -/
  actions : List Action

/-- The state behind an instruction. -/
def Control.go (s : Control) (c : Cell) (pos tests : Nat) : Control :=
  ⟨pos, tests, s.clock + 1, s.actions ++ c.begins.toList⟩

/-- **A step of a run** in code. -/
inductive Moves (cells : List Cell) (oracle : Nat → Bool) (s : Control) : Control → Prop where
  /-- The oracle says that a condition is zero. -/
  | zero {c : Cell} {l : String} {j : Nat} (hc : cells[s.pos]? = some c) (ht : c.test? = some l)
    (ho : oracle s.tests = false) (hl : (cells.map Cell.instr)[j]? = some (.label l)) :
    Moves cells oracle s (s.go c j (s.tests + 1))
  /-- The oracle says that a condition is not zero. -/
  | nonzero {c : Cell} {l : String} (hc : cells[s.pos]? = some c) (ht : c.test? = some l)
    (ho : oracle s.tests = true) : Moves cells oracle s (s.go c (s.pos + 1) (s.tests + 1))
  /-- The run goes on as it may. -/
  | free {c : Cell} {j : Nat} (hc : cells[s.pos]? = some c) (ht : c.test? = none)
    (he : Edge (cells.map Cell.instr) s.pos j) : Moves cells oracle s (s.go c j s.tests)

/-- The run stands at the end of the function. -/
def Control.Returning (cells : List Cell) (s : Control) : Prop :=
  (cells.map Cell.instr)[s.pos]? = some .return

variable {cells : List Cell} {oracle : Nat → Bool} {n m : Nat} {Q : Control → Prop} {s : Control}

theorem getElem?_instr {c : Cell} {i : Nat} (hc : cells[i]? = some c) :
    (cells.map Cell.instr)[i]? = some c.instr := by
  rw [List.getElem?_map, hc, Option.map_some]

/-- An instruction that is no jump leads to the next one. -/
theorem must_next {c : Cell} (hc : cells[s.pos]? = some c) (ht : c.test? = none)
    (hgo : goesOn c.instr = true) (htarget : target? c.instr = none)
    (h : Must (Moves cells oracle) Q (s.go c (s.pos + 1) s.tests)) :
    Must (Moves cells oracle) Q s := by
  refine .step ⟨_, .free hc ht (.next (getElem?_instr hc) hgo)⟩ fun t hmove => ?_
  cases hmove with
  | zero hc' ht' | nonzero hc' ht' =>
    cases hc.symm.trans hc'
    cases ht.symm.trans ht'
  | free hc' _ he =>
    cases hc.symm.trans hc'
    cases he with
    | next => exact h
    | jump hx htarget' =>
      cases (getElem?_instr hc).symm.trans hx
      rw [htarget] at htarget'
      cases htarget'

/-- A jump leads to its label, if that is placed once. -/
theorem must_jump (hm : Makes (cells.map Cell.instr) n m) {c : Cell} {k j : Nat}
    (hc : cells[s.pos]? = some c) (ht : c.test? = none) (hi : c.instr = .jump (labelName k))
    (hl : (cells.map Cell.instr)[j]? = some (.label (labelName k)))
    (h : Must (Moves cells oracle) Q (s.go c j s.tests)) : Must (Moves cells oracle) Q s := by
  have hx := getElem?_instr hc
  rw [hi] at hx
  refine .step ⟨_, .free hc ht (.jump hx rfl hl)⟩ fun t hmove => ?_
  cases hmove with
  | zero hc' ht' | nonzero hc' ht' =>
    cases hc.symm.trans hc'
    cases ht.symm.trans ht'
  | free hc' _ he =>
    cases hc.symm.trans hc'
    cases he with
    | next hx' hgo =>
      cases hx.symm.trans hx'
      cases hgo
    | jump hx' htarget hl' =>
      cases hx.symm.trans hx'
      cases htarget
      rw [hm.position_unique hl' hl]
      exact h

/-- The jump of a condition leads where the oracle says. -/
theorem must_decide (hm : Makes (cells.map Cell.instr) n m) {c : Cell} {k j : Nat}
    (hc : cells[s.pos]? = some c) (ht : c.test? = some (labelName k))
    (hl : (cells.map Cell.instr)[j]? = some (.label (labelName k))) (h : Must (Moves cells oracle) Q
      (s.go c (if oracle s.tests then s.pos + 1 else j) (s.tests + 1))) :
    Must (Moves cells oracle) Q s := by
  cases ho : oracle s.tests with
  | false =>
    rw [ho, if_neg Bool.false_ne_true] at h
    refine .step ⟨_, .zero hc ht ho hl⟩ fun t hmove => ?_
    cases hmove with
    | zero hc' ht' _ hl' =>
      cases hc.symm.trans hc'
      cases ht.symm.trans ht'
      rw [hm.position_unique hl' hl]
      exact h
    | nonzero _ _ ho' => cases ho.symm.trans ho'
    | free hc' ht' =>
      cases hc.symm.trans hc'
      cases ht.symm.trans ht'
  | true =>
    rw [ho, if_pos rfl] at h
    refine .step ⟨_, .nonzero hc ht ho⟩ fun t hmove => ?_
    cases hmove with
    | zero _ _ ho' => cases ho.symm.trans ho'
    | nonzero hc' =>
      cases hc.symm.trans hc'
      exact h
    | free hc' ht' =>
      cases hc.symm.trans hc'
      cases ht.symm.trans ht'

/-! ### Code that leads ahead -/

/-- The instruction at the start of some cells. -/
theorem Holds.instr {c : Cell} {a : List Cell} {p : Nat} (h : Holds cells p (c :: a)) :
    (cells.map Cell.instr)[p]? = some c.instr := getElem?_instr h.head

/-- **A run gets to a position**, where so many tests were made, and on its way begins some
actions. -/
structure Control.Gets (s : Control) (pos tests : Nat) (as : List Action) (t : Control) : Prop where
  /-- The run is at the position. -/
  pos_eq : t.pos = pos
  /-- So many tests were made. -/
  tests_eq : t.tests = tests
  /-- Time goes on. -/
  clock_le : s.clock ≤ t.clock
  /-- The actions were begun. -/
  actions_eq : t.actions = s.actions ++ as

namespace Control.Gets

variable {t u : Control} {p q i j : Nat} {as bs : List Action}

theorem refl (s : Control) : s.Gets s.pos s.tests [] s :=
  ⟨rfl, rfl, Nat.le_refl _, (List.append_nil _).symm⟩

theorem trans (h : s.Gets p i as t) (h' : t.Gets q j bs u) : s.Gets q j (as ++ bs) u :=
  ⟨h'.pos_eq, h'.tests_eq, h.clock_le.trans h'.clock_le, by
    rw [h'.actions_eq, h.actions_eq, List.append_assoc]⟩

theorem go (s : Control) (c : Cell) (p i : Nat) : s.Gets p i c.begins.toList (s.go c p i) :=
  ⟨rfl, rfl, Nat.le_succ _, rfl⟩

end Control.Gets

/-- **A run must get through code whose jumps lead ahead**; if that is not empty, it begins the
action with which the code is marked. -/
theorem must_through (hm : Makes (cells.map Cell.instr) n m) {is : List Instr} (hf : Forward is)
    (a : Option Action) (hs : Holds cells s.pos (Cell.begin a (is.map Cell.plain))) :
    Must (Moves cells oracle)
      (s.Gets (s.pos + is.length) s.tests (if is = [] then [] else a.toList)) s := by
  obtain ⟨k, hk⟩ : ∃ k, is.length ≤ k := ⟨_, Nat.le_refl _⟩
  induction k generalizing is a s with
  | zero =>
    cases List.length_eq_zero_iff.mp (Nat.le_zero.mp hk)
    exact .here (.refl s)
  | succ k ih =>
    cases is with
    | nil => exact .here (.refl s)
    | cons x is =>
      rw [List.length_cons] at hk
      rw [List.map_cons, Cell.begin] at hs
      have hrest : Holds cells (s.pos + 1) (is.map Cell.plain) := hs.tail
      -- Wherever the run goes, it is in front of a part of the code that is left.
      have hpart : ∀ front back, is = front ++ back →
          Must (Moves cells oracle) (s.Gets (s.pos + (x :: is).length) s.tests a.toList)
            (s.go ⟨x, a, false⟩ (s.pos + 1 + front.length) s.tests) := by
        rintro front back rfl
        rw [List.map_append] at hrest
        have hback := hrest.right
        rw [List.length_map] at hback
        have hlength : back.length ≤ k := by
          rw [List.length_append] at hk
          omega
        rw [← Cell.begin_none] at hback
        refine (@ih (s.go ⟨x, a, false⟩ (s.pos + 1 + front.length) s.tests) back hf.2.right none
          hback hlength).mono fun t ht => ?_
        have hall := (Control.Gets.go s ⟨x, a, false⟩ _ s.tests).trans ht
        refine ⟨hall.pos_eq.trans ?_, hall.tests_eq, hall.clock_le, hall.actions_eq.trans ?_⟩
        · simp only [Control.go, List.length_cons, List.length_append]
          omega
        · simp
      rw [if_neg (List.cons_ne_nil x is)]
      have hx := getElem?_instr hs.head
      refine .step ⟨_, .free hs.head rfl (.next hx (goesOn_of_leadsInto hf.1))⟩ fun t hmove => ?_
      cases hmove with
      | zero hc ht | nonzero hc ht =>
        cases hs.head.symm.trans hc
        cases ht
      | @free _ j hc _ he =>
        cases hs.head.symm.trans hc
        cases he with
        | next => exact hpart [] is rfl
        | @jump _ y l hx' htarget hl =>
          cases hx.symm.trans hx'
          have hmem : ∃ i, l = labelName i ∧ Instr.label l ∈ is := by
            cases x with
            | jumpIfZero | jumpIfNotZero =>
              cases htarget
              exact hf.1
            | jump => exact hf.1.elim
            | _ => cases htarget
          obtain ⟨i, rfl, hmem⟩ := hmem
          obtain ⟨front, back, rfl⟩ := List.append_of_mem hmem
          rw [List.map_append, List.map_cons] at hrest
          have hlabel := hrest.right.instr
          rw [List.length_map] at hlabel
          rw [hm.position_unique hl hlabel]
          exact hpart front _ rfl

/-- **A run that comes to an action must begin it and get behind it.** -/
theorem must_act (hm : Makes (cells.map Cell.instr) n m) {a : Action} {o : Outline} (ho : o.Bare)
    (hf : Forward o.code) (hne : o.code ≠ [])
    (hs : Holds cells s.pos (Outline.piece (.action a) o).cells) :
    Must (Moves cells oracle) (s.Gets (s.pos + o.code.length) s.tests [a]) s := by
  have hcells :
      (Outline.piece (.action a) o).cells = Cell.begin (some a) (o.code.map Cell.plain) := by
    rw [Outline.piece, Outline.cells, Outline.cells, List.append_nil, Piece.mark, ho]
  rw [hcells] at hs
  have h : Must (Moves cells oracle) (s.Gets (s.pos + o.code.length) s.tests
      (if o.code = [] then [] else (some a).toList)) s := must_through hm hf (some a) hs
  rwa [if_neg hne] at h

end Emission

end PostfixCompiler
