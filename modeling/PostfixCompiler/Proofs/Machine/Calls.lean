import PostfixCompiler.Proofs.Machine.Transfer

/-!
# Calls

A machine by itself stops where a function is called. What a call does is up to the function, and
that may stand in another unit, or belong to the runtime, as the functions do that print. So a call
is taken as a whole: from where it is made it leads to where it returns, if it returns at all.

What matters to others is which calls are made, and what they find on the stack. So a run of code
takes note of each call, with the store in which it is made.

## Main definitions

* `PostfixCompiler.Machine.Surroundings`: the functions that are called.
* `PostfixCompiler.Machine.Call`: a call that is made.
* `PostfixCompiler.Machine.Surroundings.step`, `PostfixCompiler.Machine.Surroundings.Goes`: a step,
  and several steps, with the calls that are made.

## Main statements

* `PostfixCompiler.Machine.Surroundings.goes_of_runs`: without calls, runs are as before.
-/

namespace PostfixCompiler

open Emission

namespace Machine

/-- Bytes are dropped, if there are any. -/
theorem acts_trash {M : Machine} (fp : Int) (s : M.Store) (n : Nat) :
    M.acts fp s (trashInstrs n) = some (s.drop n) := by
  by_cases hzero : n = 0
  · subst hzero
    rw [trashInstrs, if_pos rfl, acts_nil, Store.drop, Int.natCast_zero, Int.add_zero]
  · rw [trashInstrs, if_neg hzero, acts_cons, act, Option.bind_some, acts_nil]

/-- **The surroundings of some code**: what goes on outside of the memory, and the functions that
are called. -/
structure Surroundings (M : Machine) where
  /-- What there is outside of the memory: the input, the output, and the registers for results. -/
  World : Type
  /-- The word in the register for results. -/
  word : World → M.Word
  /-- The double in the register for results. -/
  real : World → M.Real
  /-- What the call of a function does, if it returns. -/
  call : String → World → M.Store → Option (World × M.Store)

/-- **A call that is made.** -/
structure Call {M : Machine} (E : Surroundings M) where
  /-- The label of the function. -/
  label : String
  /-- What there is outside of the memory. -/
  world : E.World
  /-- The stack and the memory. -/
  store : M.Store

namespace Surroundings

variable {M : Machine} (E : Surroundings M)

/-- Where a run is: the position of the next instruction, and what it works on. -/
abbrev State : Type := Nat × E.World × M.Store

/-- **A step of a machine** that runs code, with the frame pointer at `fp`: the call that is made,
if there is one, and the next state. -/
def step (fp : Int) (code : List Instr) (a : E.State) : Option (List (Call E) × E.State) :=
  match code[a.1]? with
  | some (.call l) => (E.call l a.2.1 a.2.2).map fun b => ([⟨l, a.2.1, a.2.2⟩], a.1 + 1, b)
  | some .loadResultInt => some ([], a.1 + 1, a.2.1, a.2.2.push M.word (E.word a.2.1))
  | some .loadResultDouble => some ([], a.1 + 1, a.2.1, a.2.2.push M.real (E.real a.2.1))
  | _ => (M.step fp code (a.1, a.2.2)).map fun b => ([], b.1, a.2.1, b.2)

/-- **A machine runs code** from a state to another one, and makes calls on its way. -/
inductive Goes (fp : Int) (code : List Instr) : E.State → List (Call E) → E.State → Prop where
  /-- Nothing is done. -/
  | refl (a : E.State) : Goes fp code a [] a
  /-- A step is taken first. -/
  | head {a b c : E.State} {cs ds : List (Call E)} (h : E.step fp code a = some (cs, b))
      (hrest : Goes fp code b ds c) :
    Goes fp code a (cs ++ ds) c

variable {E} {fp : Int} {code : List Instr} {a b c : E.State} {p : Nat} {w w' : E.World}
  {s s' : M.Store}
  {cs ds : List (Call E)}

theorem Goes.trans (h : E.Goes fp code a cs b) (h' : E.Goes fp code b ds c) :
    E.Goes fp code a (cs ++ ds) c := by
  induction h with
  | refl a => exact h'
  | head hstep _ ih =>
    rw [List.append_assoc]
    exact .head hstep (ih h')

theorem Goes.single (h : E.step fp code a = some (cs, b)) : E.Goes fp code a cs b := by
  have hone := Goes.head h (.refl b)
  rwa [List.append_nil] at hone

/-- Behind steps without calls the calls are those of the rest. -/
theorem Goes.behind (h : E.Goes fp code a [] b) (h' : E.Goes fp code b cs c) :
    E.Goes fp code a cs c := h.trans h'

/-- No call is added by steps without calls. -/
theorem Goes.before (h : E.Goes fp code a cs b) (h' : E.Goes fp code b [] c) :
    E.Goes fp code a cs c := by
  have hboth := h.trans h'
  rwa [List.append_nil] at hboth

/-- What a machine does by itself it does in any surroundings. -/
theorem step_of_step {b : Nat × M.Store} (h : M.step fp code (p, s) = some b) (w : E.World) :
    E.step fp code (p, w, s) = some ([], b.1, w, b.2) := by
  cases hi : code[p]? with
  | none =>
    rw [Machine.step, hi] at h
    cases h
  | some i =>
    unfold step
    rw [hi]
    cases i with
    | call | loadResultInt | loadResultDouble =>
      rw [Machine.step, hi] at h
      cases h
    | _ => exact congrArg (Option.map _) h

/-- **Without calls, runs are as before.** -/
theorem goes_of_runs {a b : Nat × M.Store} (h : M.Runs fp code a b) (w : E.World) :
    E.Goes fp code (a.1, w, a.2) [] (b.1, w, b.2) := by
  induction h using Relation.ReflTransGen.head_induction_on with
  | refl => exact .refl _
  | head hstep _ ih => exact .head (step_of_step hstep w) ih

/-- A call that returns. -/
theorem goes_call {l : String} (hi : code[p]? = some (.call l)) (h : E.call l w s = some (w', s')) :
    E.Goes fp code (p, w, s) [⟨l, w, s⟩] (p + 1, w', s') := by
  refine .single ?_
  rw [step, hi]
  simp only [h, Option.map_some]

/-- A call that returns, behind which its arguments are dropped. -/
theorem goes_dropped {l : String} {n : Nat} (hc : Holds code p (.call l :: trashInstrs n))
    (h : E.call l w s = some (w', s')) :
    E.Goes fp code (p, w, s) [⟨l, w, s⟩]
      (p + (Instr.call l :: trashInstrs n).length, w', s'.drop n) := by
  have htrash := goes_of_runs (E := E) (runs_acts hc.tail (acts_trash fp s' n)) w'
  rw [List.length_cons, Nat.add_comm _ 1, ← Nat.add_assoc]
  exact (goes_call hc.head h).before htrash

/-- The result of a call is a word. -/
theorem goes_result_word (hi : code[p]? = some .loadResultInt) :
    E.Goes fp code (p, w, s) [] (p + 1, w, s.push M.word (E.word w)) := by
  refine .single ?_
  rw [step, hi]

/-- The result of a call is a double. -/
theorem goes_result_real (hi : code[p]? = some .loadResultDouble) :
    E.Goes fp code (p, w, s) [] (p + 1, w, s.push M.real (E.real w)) := by
  refine .single ?_
  rw [step, hi]

end Surroundings

end Machine

end PostfixCompiler
