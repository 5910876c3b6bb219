import PostfixCompiler.Proofs.Machine.Height

/-!
# Results on loan

All calls of a function that return a tuple leave it in one area of the frame, so a result is there
only until the next call. Until then it is **on loan**: the code holds addresses in the area, and
reads by way of them. To tell whether a result is read in time, a ledger is kept along a run. It has
an entry for each word on the stack: whether the word has nothing to do with results, or is an
address in the area that was pushed for the result of some call, and in that case whether anything
was called or jumped to since that call. A node that reads a tuple keeps its address in a word of
the frame, a **pin**, so the ledger has an entry for each pin, too.

What a frame address is for cannot be seen from the address itself. It follows from the piece of the
outline to which the instruction belongs, and is kept beside the instruction.

## Main definitions

* `PostfixCompiler.Emission.Purpose`: what a frame address is for.
* `PostfixCompiler.Outline.purposed`: the instructions of an outline, each with a purpose.
* `PostfixCompiler.Emission.Ledger`: the ledger.
* `PostfixCompiler.Emission.Ledger.act`: what an instruction does to it.
* `PostfixCompiler.Emission.Ledger.Permits`: an instruction reads no result too late, and lets none
  escape.
* `PostfixCompiler.Emission.Carries`: where a run arrives, and with which ledger.
* `PostfixCompiler.Emission.Ensures`: what code does to a ledger, if it is run from its start.

## Main statements

* `PostfixCompiler.Emission.Ledger.Plain.act`: code that has nothing to do with results leaves the
  ledger alone.
* `PostfixCompiler.Emission.Ensures.permits`: what is permitted along the code is permitted on every
  run.
-/

namespace PostfixCompiler

namespace Emission

/-! ### Purposes -/

/-- **What a frame address is for.** -/
inductive Purpose where
  /-- Nothing that matters to results of calls. -/
  | plain
  /-- The area where calls leave tuples, for the tuple of a call. -/
  | result (node : NodeId)
  /-- The pin of a node, where it keeps the address of a tuple. -/
  | pin (node : NodeId)
deriving DecidableEq

/-- The call that leaves a tuple in the area. -/
def Purpose.call? : Purpose → Option NodeId
  | .result i => some i
  | .plain | .pin _ => none

end Emission

open Emission

/-- **What the frame addresses in a piece are for**, those in the pieces inside it left out. A call
that returns a tuple has it left in the area for results, and a node that reads a place has a
pin. -/
def Piece.purpose (T : TypeTable) : Piece → Purpose
  | .expression _ _ (.call s _ _) => if (T.typeOf s.id).isTuple then .result s.id else .plain
  | .expression _ _ (.rvalue s _) => .pin s.id
  | .expression .. | .function _ | .statement _ | .action _ | .branch | .text .. => .plain

namespace Outline

/-- **The instructions of an outline, each with a purpose**: that of the innermost piece around it,
or `use` where there is none. -/
def purposed (T : TypeTable) (use : Purpose) : Outline → List (Instr × Purpose)
  | .done => []
  | .step i rest => (i, use) :: rest.purposed T use
  | .part p inner rest => inner.purposed T (p.purpose T) ++ rest.purposed T use

variable {T : TypeTable} {use : Purpose}

@[simp] theorem purposed_append (a b : Outline) :
    (a ++ b).purposed T use = a.purposed T use ++ b.purposed T use := by
  change (a.append b).purposed T use = _
  induction a with
  | done => rfl
  | step i rest ih => rw [append, purposed, ih, purposed, List.cons_append]
  | part p inner rest _ ih => rw [append, purposed, ih, purposed, List.append_assoc]

@[simp] theorem purposed_ofCode (is : List Instr) :
    (ofCode is).purposed T use = is.map (·, use) := by
  induction is with
  | nil => rfl
  | cons i is ih => rw [ofCode, purposed, ih, List.map_cons]

@[simp] theorem purposed_piece (p : Piece) (inner : Outline) :
    (piece p inner).purposed T use = inner.purposed T (p.purpose T) := by
  rw [piece, purposed, purposed, List.append_nil]

end Outline

namespace Emission

/-! ### Entries -/

/-- **What is known of a word.** -/
inductive Entry where
  /-- It has nothing to do with results of calls. -/
  | plain
  /-- It is the address of a pin. -/
  | pin (node : NodeId)
  /-- It is an address in the area for results, for the result of a call, and nothing was called or
  jumped to since. -/
  | due
  /-- It is an address in the area for results, and it is too late to read the result for which it
  was pushed. -/
  | late
deriving DecidableEq

namespace Entry

/-- The word is no address in the area for results. -/
def Free (e : Entry) : Prop := e ≠ .due ∧ e ≠ .late

/-- What is known of the word behind a call or a jump. -/
def age : Entry → Entry
  | .due => .late
  | .plain => .plain
  | .pin i => .pin i
  | .late => .late

/-- What is known of a word that is computed from two others: if one of these is an address in the
area, the word is taken for one, too. -/
def join (a b : Entry) : Entry :=
  if a = .late ∨ b = .late then .late else if a = .due ∨ b = .due then .due else .plain

end Entry

/-- How many words an instruction takes from the stack. -/
def taken : Instr → Nat
  | .loadInt | .loadDouble | .alloc | .intToDouble | .jumpIfZero _ | .jumpIfNotZero _
  | .storeResultInt | .neg | .dupInt => 1
  | .storeInt | .add | .sub | .mul | .div | .mod | .lt | .le | .ge | .gt | .eq | .ne
  | .and | .or | .negDouble | .dupDouble | .storeResultDouble => 2
  | .storeDouble => 3
  | .addDouble | .subDouble | .mulDouble | .divDouble | .compareDouble => 4
  | .trash n => n / Ty.wordSize
  | _ => 0

/-- How many words an instruction leaves on the stack, if one that reserves bytes reserves so many
words. -/
def given (reserved : Nat) : Instr → Nat
  | .int _ | .address _ | .frameAddress _ | .stackPointer | .loadInt | .add | .sub | .mul
  | .div | .mod | .lt | .le | .ge | .gt | .eq | .ne | .and | .or | .neg | .compareDouble
  | .loadResultInt => 1
  | .double _ | .loadDouble | .intToDouble | .addDouble | .subDouble | .mulDouble
  | .divDouble | .negDouble | .loadResultDouble | .dupInt => 2
  | .dupDouble => 4
  | .alloc => reserved
  | _ => 0

/-! ### The ledger -/

/-- **The ledger.** -/
structure Ledger where
  /-- What is known of the words on the stack, the one on top first. Those below are plain. -/
  stack : List Entry
  /-- What is known of the address that is kept in a pin. -/
  pins : NodeId → Entry
  /-- The call that has left a result in the area, if nothing was called or jumped to since. -/
  held : Option NodeId

namespace Ledger

/-- The ledger of a function that is entered. -/
def start : Ledger := ⟨[], fun _ => .plain, none⟩

/-- What is known of the word on top. -/
def top (l : Ledger) : Entry := l.stack.headD .plain

/-- Words are dropped from the stack. -/
def drop (l : Ledger) (words : Nat) : Ledger := { l with stack := l.stack.drop words }

/-- A word is pushed. -/
def push (l : Ledger) (e : Entry) : Ledger := { l with stack := e :: l.stack }

/-- Words are pushed that have nothing to do with results. -/
def pad (l : Ledger) (words : Nat) : Ledger :=
  { l with stack := .replicate words .plain ++ l.stack }

/-- What is known of a frame address that serves a purpose. -/
def address (l : Ledger) : Purpose → Entry
  | .plain => .plain
  | .pin i => .pin i
  | .result i => if l.held = some i then .due else .late

/-- What is known of the word at an address. -/
def fetch (l : Ledger) : Entry → Entry
  | .pin i => l.pins i
  | .plain | .due | .late => .plain

/-- A word goes to an address. -/
def keep (l : Ledger) (e : Entry) : Entry → Ledger
  | .pin i => { l with pins := fun j => if j = i then e else l.pins j }
  | .plain | .due | .late => l

/-- Something is called or jumped to. -/
def age (l : Ledger) : Ledger := ⟨l.stack.map Entry.age, fun i => (l.pins i).age, none⟩

/-- **What an instruction does to the ledger**, if one that reserves bytes reserves so many
words. -/
def act (l : Ledger) (reserved : Nat) (c : Instr × Purpose) : Ledger :=
  match c.1 with
  | .frameAddress _ => l.push (l.address c.2)
  | .loadInt => (l.drop 1).push (l.fetch l.top)
  | .storeInt => (l.drop 2).keep (l.drop 1).top l.top
  | .dupInt => l.push l.top
  | .dupDouble => (l.push (l.drop 1).top).push l.top
  | .add | .sub | .mul | .div | .mod | .lt | .le | .ge | .gt | .eq | .ne | .and | .or =>
    (l.drop 2).push (l.top.join (l.drop 1).top)
  | .neg => l
  | .jump _ | .jumpIfZero _ | .jumpIfNotZero _ => (l.drop (taken c.1)).age
  | .call _ => { l.age with held := c.2.call? }
  | i => (l.drop (taken i)).pad (given reserved i)

/-- **An instruction reads no result too late, and lets none escape**: what is read by way of an
address in the area is still there, and no such address gets into memory, other than into a pin, or
to the caller, or to a function that is called, other than the one that is to leave its own result
there. -/
def Permits (l : Ledger) (c : Instr × Purpose) : Prop :=
  match c.1 with
  | .loadInt | .loadDouble => l.top ≠ .late
  | .storeInt => (l.drop 1).top.Free ∨ ∃ i, l.top = .pin i
  | .storeResultInt => l.top.Free
  | .call _ => ∀ e ∈ if c.2.call?.isSome then l.stack.drop 1 else l.stack, e.Free
  | _ => True

/-! ### Plain ledgers -/

/-- **Nothing on the stack has to do with results.** -/
def Plain (l : Ledger) : Prop := ∀ e ∈ l.stack, e = .plain

/-- **An address in the area is on top**, and it is time to read what is there. -/
structure Due (l : Ledger) : Prop where
  /-- The address is on top. -/
  top : l.top = .due
  /-- Nothing below has to do with results. -/
  below : (l.drop 1).Plain

section Plain

variable {l : Ledger}

theorem plain_start : start.Plain := by simp [start, Plain]

theorem Plain.top_eq (h : l.Plain) : l.top = .plain := by
  unfold top
  cases hs : l.stack with
  | nil => rfl
  | cons e es => exact h e (by simp [hs])

@[simp] theorem drop_drop (l : Ledger) (a b : Nat) : (l.drop a).drop b = l.drop (a + b) := by
  rw [drop, drop, drop, List.drop_drop]

theorem Plain.drop (h : l.Plain) (n : Nat) : (l.drop n).Plain :=
  fun e he => h e (List.mem_of_mem_drop he)

theorem Plain.push (h : l.Plain) : (l.push .plain).Plain := by
  intro e he
  rcases List.mem_cons.mp he with rfl | he
  · rfl
  · exact h e he

theorem Plain.pad (h : l.Plain) (n : Nat) : (l.pad n).Plain := by
  intro e he
  rcases List.mem_append.mp he with he | he
  · exact List.eq_of_mem_replicate he
  · exact h e he

theorem Plain.keep (h : l.Plain) (e a : Entry) : (l.keep e a).Plain := by
  cases a <;> exact h

theorem Plain.age (h : l.Plain) : l.age.Plain := by
  intro e he
  obtain ⟨e', he', rfl⟩ := List.mem_map.mp he
  rw [h e' he']
  rfl

theorem Plain.free (h : l.Plain) : ∀ e ∈ l.stack, e.Free := by
  intro e he
  rw [h e he]
  exact ⟨by simp, by simp⟩

/-- **Where nothing has to do with results, everything is permitted.** -/
theorem Plain.permits (h : l.Plain) (c : Instr × Purpose) : l.Permits c := by
  have htop := h.top_eq
  have hbelow := (h.drop 1).top_eq
  unfold Permits
  split
  · simp [htop]
  · simp [htop]
  · exact .inl (by simp [hbelow, Entry.Free])
  · simp [htop, Entry.Free]
  · split
    · exact (h.drop 1).free
    · exact h.free
  · trivial

/-- **An instruction that has nothing to do with results leaves the ledger alone**: it may be a
call, but it pushes no address that is in the area, or that of a pin. -/
theorem Plain.act (h : l.Plain) (reserved : Nat) {c : Instr × Purpose}
    (hc : c.2 = .plain ∨ ∀ offset, c.1 ≠ .frameAddress offset) : (l.act reserved c).Plain := by
  have htop := h.top_eq
  have hbelow := (h.drop 1).top_eq
  unfold Ledger.act
  split
  -- Only a frame address has a purpose; what is computed from plain words is plain.
  case h_1 offset hi =>
    have huse : c.2 = .plain := hc.resolve_right fun hne => hne offset hi
    rw [huse]
    exact h.push
  case h_2 =>
    rw [htop]
    exact (h.drop 1).push
  case h_3 => exact (h.drop 2).keep _ _
  case h_4 =>
    rw [htop]
    exact h.push
  case h_5 =>
    rw [htop, hbelow]
    exact h.push.push
  case h_19 => exact h
  case h_20 | h_21 | h_22 => exact (h.drop _).age
  case h_23 => exact h.age
  case h_24 => exact (h.drop _).pad _
  all_goals
    rw [htop, hbelow]
    exact (h.drop 2).push

end Plain

end Ledger

/-! ### Runs -/

/-- **Where a run arrives** that starts somewhere in code, and with which ledger. -/
inductive Carries (cells : List (Instr × Purpose)) (start : Nat) : Nat → Ledger → Prop where
  /-- The run starts. -/
  | start : Carries cells start start .start
  /-- The run goes on. -/
  | step {i j : Nat} {l : Ledger} {c : Instr × Purpose} (hr : Carries cells start i l)
      (hc : cells[i]? = some c)
    (he : Edge (cells.map Prod.fst) i j) (reserved : Nat) : Carries cells start j (l.act reserved c)

/-- Control may come from elsewhere, or go on elsewhere. -/
def parts : Instr → Bool
  | .label _ | .jump _ | .jumpIfZero _ | .jumpIfNotZero _ => true
  | _ => false

/-- **The ledgers behind an instruction.** Where control may come from elsewhere, nothing is known
but that nothing on the stack has to do with results. -/
inductive Ledger.Next (l : Ledger) (c : Instr × Purpose) : Ledger → Prop where
  /-- The instruction has been run. -/
  | act (reserved : Nat) : l.Next c (l.act reserved c)
  /-- Control comes from elsewhere. -/
  | elsewhere {l' : Ledger} (hc : parts c.1 = true) (h : l'.Plain) : l.Next c l'

/-- **What code does to a ledger if it is run from its start**: every instruction is permitted, and
at its end the ledger is as `Q` says. Where control may come from elsewhere, or go on elsewhere,
nothing on the stack has to do with results. -/
def Ensures (Q : Ledger → Prop) : List (Instr × Purpose) → Ledger → Prop
  | [], l => Q l
  | c :: cs, l => l.Permits c ∧ (parts c.1 = true → ∀ reserved, (l.act reserved c).Plain) ∧
      ∀ l', l.Next c l' → Ensures Q cs l'

section Ensures

variable {Q Q' : Ledger → Prop} {cs ds : List (Instr × Purpose)} {l : Ledger}

theorem Ensures.append (h : Ensures (Ensures Q ds) cs l) : Ensures Q (cs ++ ds) l := by
  induction cs generalizing l with
  | nil => exact h
  | cons c cs ih => exact ⟨h.1, h.2.1, fun l' hl' => ih (h.2.2 l' hl')⟩

theorem Ensures.mono (h : Ensures Q cs l) (hQ : ∀ l, Q l → Q' l) : Ensures Q' cs l := by
  induction cs generalizing l with
  | nil => exact hQ l h
  | cons c cs ih => exact ⟨h.1, h.2.1, fun l' hl' => ih (h.2.2 l' hl')⟩

/-- Code is run behind other code. -/
theorem Ensures.next (h : Ensures Q cs l) (h' : ∀ l, Q l → Ensures Q' ds l) :
    Ensures Q' (cs ++ ds) l :=
  (h.mono h').append

/-- **An instruction behind which control goes on** is run with the ledger that there is. -/
theorem ensures_cons {c : Instr × Purpose} (hc : parts c.1 = false) (hpermits : l.Permits c)
    (h : ∀ reserved, Ensures Q cs (l.act reserved c)) : Ensures Q (c :: cs) l := by
  refine ⟨hpermits, fun hparts => ?_, fun l' hl' => ?_⟩
  · rw [hc] at hparts
    cases hparts
  · cases hl' with
    | act reserved => exact h reserved
    | elsewhere hparts =>
      rw [hc] at hparts
      cases hparts

/-- **Code that has nothing to do with results leaves the ledger alone.** -/
theorem ensures_plain (h : l.Plain)
    (hcs : ∀ c ∈ cs, c.2 = .plain ∨ ∀ offset, c.1 ≠ .frameAddress offset) :
    Ensures Ledger.Plain cs l := by
  induction cs generalizing l with
  | nil => exact h
  | cons c cs ih =>
    rw [List.forall_mem_cons] at hcs
    refine ⟨h.permits c, fun _ reserved => h.act reserved hcs.1, fun l' hl' => ih ?_ hcs.2⟩
    cases hl' with
    | act reserved => exact h.act reserved hcs.1
    | elsewhere _ h' => exact h'

theorem drop_eq_cons {α : Type} {as : List α} {i : Nat} {a : α} (h : as[i]? = some a) :
    as.drop i = a :: as.drop (i + 1) := by
  obtain ⟨hi, rfl⟩ := List.getElem?_eq_some_iff.mp h
  exact List.drop_eq_getElem_cons hi

/-- What is left of code can be run with some ledger. -/
theorem Ensures.exists_drop (h : Ensures Q cs l) (i : Nat) : ∃ l', Ensures Q (cs.drop i) l' := by
  induction cs generalizing l i with
  | nil => exact ⟨l, by rwa [List.drop_nil]⟩
  | cons c cs ih =>
    cases i with
    | zero => exact ⟨l, h⟩
    | succ i => exact ih (h.2.2 _ (.act 0)) i

/-- A label can be run with every plain ledger, if it can be run with one. -/
theorem Ensures.of_label {c : Instr × Purpose} (h : ∃ l, Ensures Q (c :: cs) l)
    (hc : ∃ name, c.1 = .label name) (hl : l.Plain) : Ensures Q (c :: cs) l := by
  obtain ⟨name, hc⟩ := hc
  obtain ⟨l₀, -, -, hrest⟩ := h
  have hact : ∀ reserved, (l.act reserved c).Plain := fun reserved =>
    hl.act reserved (.inr fun offset => by simp [hc])
  have hparts : parts c.1 = true := by rw [hc, parts]
  refine ⟨hl.permits c, fun _ => hact, fun l' hl' => hrest l' (.elsewhere hparts ?_)⟩
  cases hl' with
  | act reserved => exact hact reserved
  | elsewhere _ h' => exact h'

/-- **What is ensured along the code is ensured on every run**: wherever it arrives, the rest of the
code can be run. -/
theorem Ensures.of_carries {start : Nat} (h : Ensures Q (cs.drop start) .start)
    (hcs : ∃ l, Ensures Q cs l) {i : Nat} (hr : Carries cs start i l) :
    Ensures Q (cs.drop i) l := by
  induction hr with
  | start => exact h
  | @step i j l c hr hc he reserved ih =>
    rw [drop_eq_cons hc] at ih
    obtain ⟨-, hplain, hrest⟩ := ih
    cases he with
    | next => exact hrest _ (.act reserved)
    | @jump _ x name hx htarget hl =>
      -- A jump arrives at a label, which can be run with any plain ledger.
      rw [List.getElem?_map, hc] at hx
      cases hx
      rw [List.getElem?_map] at hl
      obtain ⟨d, hd, hlabel⟩ := Option.map_eq_some_iff.mp hl
      have hparts : parts c.1 = true := by
        generalize c.1 = x at htarget
        cases x with
        | jump | jumpIfZero | jumpIfNotZero => rfl
        | _ => cases htarget
      obtain ⟨l₀, h₀⟩ := hcs
      have hfrom := h₀.exists_drop j
      rw [drop_eq_cons hd] at hfrom ⊢
      exact .of_label hfrom ⟨name, hlabel⟩ (hplain hparts reserved)

/-- **What is permitted along the code is permitted on every run.** -/
theorem Ensures.permits {start : Nat} (h : Ensures Q (cs.drop start) .start)
    (hcs : ∃ l, Ensures Q cs l) {i : Nat} (hr : Carries cs start i l) {c : Instr × Purpose}
    (hc : cs[i]? = some c) : l.Permits c := by
  have hrest := of_carries h hcs hr
  rw [drop_eq_cons hc] at hrest
  exact hrest.1

end Ensures

end Emission

end PostfixCompiler
