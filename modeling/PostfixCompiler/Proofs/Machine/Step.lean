import Mathlib.Logic.Relation
import PostfixCompiler.Proofs.Machine.Memory
import PostfixCompiler.Proofs.Machine.UnitLabels

/-!
# Runs of a postfix machine

A machine has a stack pointer, and a stack that grows from there to lower addresses. An instruction
that computes takes its operands from the stack and leaves its result there; a jump moves control to
a label. What is modelled here is what happens between two calls: where a function is called, left
or entered, the machine stops.

Bytes below the stack pointer belong to nobody, so what matters of a run is which bytes it may
change.

## Main definitions

* `PostfixCompiler.Machine.Store`: the stack pointer and the memory.
* `PostfixCompiler.Machine.act`: what an instruction does that does not jump.
* `PostfixCompiler.Machine.step`, `PostfixCompiler.Machine.Runs`: a step of a machine, and several
  steps.
* `PostfixCompiler.Machine.Changes`: the bytes that may change.

## Main statements

* `PostfixCompiler.Machine.runs_acts`: code without jumps is run from its start to its end.
* `PostfixCompiler.Machine.runs_jump`: a jump that is taken leads to its label.
* `PostfixCompiler.Machine.runs_decided`, `PostfixCompiler.Machine.runs_undecided`: where the jump
  of a connective leads.
-/

namespace PostfixCompiler

open Emission

namespace Machine

variable {M : Machine}

/-! ### Stores -/

/-- **What instructions work on**: the stack pointer and the memory. -/
structure Store (M : Machine) where
  /-- Where the top of the stack is. -/
  sp : Int
  /-- The memory. -/
  memory : M.Memory

namespace Store

variable {V V' : Type} {k k' : Nat}

/-- Bytes are dropped from the stack. -/
def drop (s : M.Store) (bytes : Int) : M.Store := { s with sp := s.sp + bytes }

/-- A value is pushed. -/
def push (c : Codec M.Byte V k) (v : V) (s : M.Store) : M.Store :=
  ⟨s.sp - k, c.put s.memory (s.sp - k) v⟩

/-- The value on top of the stack. -/
def top (c : Codec M.Byte V k) (s : M.Store) : V := c.get s.memory s.sp

/-- The value on top is replaced by what is computed from it. -/
def apply (c : Codec M.Byte V k) (c' : Codec M.Byte V' k') (f : V → V') (s : M.Store) : M.Store :=
  (s.drop k).push c' (f (s.top c))

/-- Two values are replaced by what is computed from them, the lower one first. -/
def combine (c : Codec M.Byte V k) (c' : Codec M.Byte V' k') (f : V → V → V')
    (s : M.Store) : M.Store :=
  ((s.drop k).drop k).push c' (f ((s.drop k).top c) (s.top c))

/-- The value below an address goes to that address. -/
def save (c : Codec M.Byte V k) (s : M.Store) : M.Store :=
  let below := s.drop Ty.wordSize
  ⟨below.sp + k, c.put s.memory (M.toInt (s.top M.word)) (below.top c)⟩

@[simp] theorem sp_drop (s : M.Store) (bytes : Int) : (s.drop bytes).sp = s.sp + bytes := rfl

@[simp] theorem memory_drop (s : M.Store) (bytes : Int) : (s.drop bytes).memory = s.memory := rfl

@[simp] theorem sp_push (c : Codec M.Byte V k) (v : V) (s : M.Store) :
    (s.push c v).sp = s.sp - k := rfl

@[simp] theorem top_push (c : Codec M.Byte V k) (v : V) (s : M.Store) :
    (s.push c v).top c = v := c.get_put v

end Store

/-! ### Steps -/

variable (M)

/-- **What an instruction does to a store**, with the frame pointer at `fp`. Control goes on behind
it; a jump, a call and the way into and out of a function are left out. -/
def act (fp : Int) (s : M.Store) : Instr → Option M.Store
  | .int n => some (s.push M.word (M.ofInt n))
  | .double d => some (s.push M.real (M.ofDouble d))
  | .address l => some (s.push M.word (M.label l))
  | .frameAddress offset => some (s.push M.word (M.ofInt (fp + offset)))
  | .stackPointer => some (s.push M.word (M.ofInt s.sp))
  | .loadInt => some (s.apply M.word M.word fun w => M.word.get s.memory (M.toInt w))
  | .loadDouble => some (s.apply M.word M.real fun w => M.real.get s.memory (M.toInt w))
  | .storeInt => some (s.save M.word)
  | .storeDouble => some (s.save M.real)
  | .alloc => some (s.drop (Ty.wordSize - M.toInt (s.top M.word)))
  | .dupInt => some (s.push M.word (s.top M.word))
  | .dupDouble => some (s.push M.real (s.top M.real))
  | .trash n => some (s.drop n)
  | .add => some (s.combine M.word M.word (M.words .add))
  | .sub => some (s.combine M.word M.word (M.words .sub))
  | .mul => some (s.combine M.word M.word (M.words .mul))
  | .div => some (s.combine M.word M.word (M.words .div))
  | .mod => some (s.combine M.word M.word (M.words .mod))
  | .lt => some (s.combine M.word M.word (M.words .lt))
  | .le => some (s.combine M.word M.word (M.words .le))
  | .ge => some (s.combine M.word M.word (M.words .ge))
  | .gt => some (s.combine M.word M.word (M.words .gt))
  | .eq => some (s.combine M.word M.word (M.words .eq))
  | .ne => some (s.combine M.word M.word (M.words .ne))
  | .and => some (s.combine M.word M.word (M.words .and))
  | .or => some (s.combine M.word M.word (M.words .or))
  | .neg => some (s.apply M.word M.word M.negWord)
  | .addDouble => some (s.combine M.real M.real (M.reals .add))
  | .subDouble => some (s.combine M.real M.real (M.reals .sub))
  | .mulDouble => some (s.combine M.real M.real (M.reals .mul))
  | .divDouble => some (s.combine M.real M.real (M.reals .div))
  | .negDouble => some (s.apply M.real M.real M.negReal)
  | .intToDouble => some (s.apply M.word M.real M.widen)
  | .compareDouble => some (s.combine M.real M.word M.compare)
  | .text | .data | .rodata | .bss | .align | .label _ | .global .. | .external _ | .staticInt _
  | .staticDouble _ | .staticString _ | .staticAddress _ | .staticBytes _ => some s
  | .jump _ | .jumpIfZero _ | .jumpIfNotZero _ | .call _ | .return | .enter _
  | .leave | .loadResultInt | .loadResultDouble | .storeResultInt | .storeResultDouble => none

/-- The position of a label in code, if it stands there. -/
def position? (code : List Instr) (l : String) : Option Nat :=
  if Instr.label l ∈ code then some (code.idxOf (.label l)) else none

/-- **A step of a machine** that runs code, with the frame pointer at `fp`: from a position and a
store to the next ones. -/
def step (fp : Int) (code : List Instr) (s : Nat × M.Store) : Option (Nat × M.Store) := do
  match ← code[s.1]? with
  | .jump l => pure (← position? code l, s.2)
  | .jumpIfZero l => pure (← if M.isZero (s.2.top M.word) then position? code l else some (s.1 + 1),
      s.2.drop Ty.wordSize)
  | .jumpIfNotZero l =>
      pure (← if M.isZero (s.2.top M.word) then some (s.1 + 1) else position? code l,
      s.2.drop Ty.wordSize)
  | i => pure (s.1 + 1, ← M.act fp s.2 i)

/-- **A machine runs code** from a position and a store to others. -/
def Runs (fp : Int) (code : List Instr) : Nat × M.Store → Nat × M.Store → Prop :=
  Relation.ReflTransGen fun s t => M.step fp code s = some t

/-- What instructions do one after the other. -/
def acts (fp : Int) (s : M.Store) (is : List Instr) : Option M.Store := is.foldlM (M.act fp) s

variable {M}

@[simp] theorem acts_nil (fp : Int) (s : M.Store) : M.acts fp s [] = some s := rfl

theorem acts_cons (fp : Int) (s : M.Store) (i : Instr) (is : List Instr) :
    M.acts fp s (i :: is) = (M.act fp s i).bind fun t => M.acts fp t is := rfl

theorem acts_append (fp : Int) (s : M.Store) (is js : List Instr) :
    M.acts fp s (is ++ js) = (M.acts fp s is).bind fun t => M.acts fp t js :=
  List.foldlM_append

section Runs

variable {fp : Int} {code : List Instr} {p : Nat} {s s' t : M.Store}

theorem Runs.refl (s : Nat × M.Store) : M.Runs fp code s s := Relation.ReflTransGen.refl

theorem Runs.trans {a b c : Nat × M.Store} (h : M.Runs fp code a b) (h' : M.Runs fp code b c) :
    M.Runs fp code a c := Relation.ReflTransGen.trans h h'

/-- Where an instruction stands that does not jump, the machine does what the instruction does. -/
theorem step_act {i : Instr} (hi : code[p]? = some i) (h : M.act fp s i = some s') :
    M.step fp code (p, s) = some (p + 1, s') := by
  cases i with
  | jump | jumpIfZero | jumpIfNotZero => cases h
  | _ => simp only [step, hi, h, Option.bind_eq_bind, Option.bind_some, Option.pure_def]

/-- **Code without jumps is run from its start to its end.** -/
theorem runs_acts {is : List Instr} (hc : Holds code p is) (h : M.acts fp s is = some s') :
    M.Runs fp code (p, s) (p + is.length, s') := by
  induction is generalizing p s with
  | nil =>
    cases h
    exact .refl _
  | cons i is ih =>
    rw [acts_cons] at h
    obtain ⟨t, ht, h⟩ := Option.bind_eq_some_iff.mp h
    have hrest := ih hc.tail h
    rw [Nat.add_assoc, Nat.add_comm 1] at hrest
    exact .head (step_act hc.head ht) hrest

/-- The label of a jump is found, if it was made up and no such label stands twice. -/
theorem position?_eq {n m k j : Nat} (hm : Makes code n m)
    (hj : code[j]? = some (.label (labelName k))) :
    position? code (labelName k) = some j := by
  have hmem : Instr.label (labelName k) ∈ code := List.mem_of_getElem? hj
  have hfirst : code[code.idxOf (.label (labelName k))]? = some (.label (labelName k)) := by
    rw [List.getElem?_eq_getElem (List.idxOf_lt_length_iff.mpr hmem), List.getElem_idxOf]
  rw [position?, if_pos hmem, hm.position_unique hfirst hj]

/-- **A jump that is taken leads to its label.** -/
theorem runs_jump {n m k j : Nat} {i : Instr} (hm : Makes code n m) (hi : code[p]? = some i)
    (hj : code[j]? = some (.label (labelName k)))
    (h : i = .jumpIfZero (labelName k) ∧ M.isZero (s.top M.word) = true ∨
      i = .jumpIfNotZero (labelName k) ∧ M.isZero (s.top M.word) = false) :
    M.Runs fp code (p, s) (j, s.drop Ty.wordSize) := by
  refine .single ?_
  rcases h with ⟨rfl, hz⟩ | ⟨rfl, hz⟩
  all_goals simp [step, hi, hz, position?_eq hm hj]

/-- A jump that is not taken. -/
theorem runs_pass {k : Nat} {i : Instr} (hi : code[p]? = some i)
    (h : i = .jumpIfZero (labelName k) ∧ M.isZero (s.top M.word) = false ∨
      i = .jumpIfNotZero (labelName k) ∧ M.isZero (s.top M.word) = true) :
    M.Runs fp code (p, s) (p + 1, s.drop Ty.wordSize) := by
  refine .single ?_
  rcases h with ⟨rfl, hz⟩ | ⟨rfl, hz⟩
  all_goals simp [step, hi, hz]

/-- **The jump of a connective is taken** if the first operand decides. -/
theorem runs_decided {n m k j : Nat} {op : BinaryOp} (hop : op = .and ∨ op = .or)
    (hm : Makes code n m) (hi : code[p]? = some (decidedJump op (labelName k)))
    (hj : code[j]? = some (.label (labelName k)))
    (h : M.isZero (s.top M.word) = decide (op = .and)) :
    M.Runs fp code (p, s) (j, s.drop Ty.wordSize) := by
  refine runs_jump hm hi hj ?_
  rcases hop with rfl | rfl
  · exact .inl ⟨rfl, h⟩
  · exact .inr ⟨rfl, h⟩

/-- The jump of a connective is not taken if the first operand does not decide. -/
theorem runs_undecided {k : Nat} {op : BinaryOp} (hop : op = .and ∨ op = .or)
    (hi : code[p]? = some (decidedJump op (labelName k)))
    (h : ¬M.isZero (s.top M.word) = decide (op = .and)) :
    M.Runs fp code (p, s) (p + 1, s.drop Ty.wordSize) := by
  refine runs_pass (k := k) hi ?_
  rcases hop with rfl | rfl
  · exact .inl ⟨rfl, by simpa using h⟩
  · exact .inr ⟨rfl, by simpa using h⟩

end Runs

/-! ### Changes -/

/-- **Only some bytes may change.** -/
def Changes (W : Int → Prop) (m m' : M.Memory) : Prop := ∀ a, ¬W a → m' a = m a

namespace Changes

variable {W W' : Int → Prop} {m m' m'' : M.Memory}

theorem refl (W : Int → Prop) (m : M.Memory) : Changes W m m := fun _ _ => rfl

theorem trans (h : Changes W m m') (h' : Changes W m' m'') : Changes W m m'' :=
  fun a ha => (h' a ha).trans (h a ha)

theorem mono (h : Changes W m m') (hW : ∀ a, W a → W' a) : Changes W' m m' :=
  fun a ha => h a fun hWa => ha (hW a hWa)

/-- A value is written within its bytes. -/
theorem put {V : Type} {k : Nat} (c : Codec M.Byte V k) (m : M.Memory) (a : Int) (v : V) :
    Changes (fun b => a ≤ b ∧ b < a + k) m (c.put m a v) :=
  fun b hb => c.put_outside v (by omega)

/-- A value whose bytes do not change stays as it is. -/
theorem read_eq (h : Changes W m m') {t : Ty} {a : Int} (ht : t.Solid)
    (ha : ∀ b, a ≤ b → b < a + t.size → ¬W b) :
    M.read m' a t = M.read m a t :=
  read_of_agree ht fun b hb hb' => h b (ha b hb hb')

end Changes

end Machine

end PostfixCompiler
