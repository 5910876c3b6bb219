import PostfixCompiler.Proofs.Machine.Calls

/-!
# Values that are printed

A value is printed leaf by leaf. When its own code has left it on the stack, the first leaf is on
top, and the others are behind it, in order; so each leaf is on top when its turn comes, if those
before it were dropped, and if no function that prints changed those behind it.

What a run must be for values to be printed is said here without asking how it comes about: by code
of which it is known what the values are, or by code of which nothing is known but what it does to
the stack.

## Main definitions

* `PostfixCompiler.Ty.printer?`: the function that prints a leaf.
* `PostfixCompiler.Machine.Value.leaves`: the leaves of a value.
* `PostfixCompiler.Machine.Surroundings.Printing`: calls that print leaves.
* `PostfixCompiler.Machine.Surroundings.Prints`: a run prints values, one after the other.
* `PostfixCompiler.Machine.Surroundings.Writes`: a run prints values, and may end the line.

## Main statements

* `PostfixCompiler.Machine.leaves_read`: the leaves of a value lie one behind the other.
* `PostfixCompiler.Machine.Surroundings.goes_printing`: the leaves of a value are printed.
-/

namespace PostfixCompiler

open Emission

/-! ### Leaves -/

namespace Ty

/-- **The function that prints a leaf.** Integers, doubles and texts have one each; nothing else is
printed. -/
def printer? : Ty → Option String
  | .int => some "printi"
  | .double => some "printd"
  | .string => some "prints"
  | .void | .auto | .pointer _ | .tuple _ => none

/-- **A leaf that can be printed.** -/
def IsPrinted (t : Ty) : Prop := t = .int ∨ t = .double ∨ t = .string

theorem IsPrinted.scalar {t : Ty} (h : t.IsPrinted) : t.Scalar := by
  rcases h with rfl | rfl | rfl <;> exact ⟨rfl, by simp, by simp⟩

/-- The code calls the function that prints the leaf. -/
theorem IsPrinted.printer?_eq {t : Ty} (h : t.IsPrinted) : t.printer? = some (printHelper t) := by
  rcases h with rfl | rfl | rfl <;> rfl

mutual

/-- **The leaves of what can be printed can be printed.** -/
theorem isPrinted_leaves : ∀ {t : Ty}, t.isPrintable = true → ∀ u ∈ t.leaves, u.IsPrinted
  | .int, _ | .double, _ | .string, _ => by simp [leaves, IsPrinted]
  | .tuple ts, h => isPrinted_leavesOfAll h
  | .void, h | .auto, h | .pointer _, h => by cases h

/-- As `isPrinted_leaves`, for several types. -/
theorem isPrinted_leavesOfAll :
    ∀ {ts : List Ty}, allPrintable ts = true → ∀ u ∈ leavesOfAll ts, u.IsPrinted
  | [], _ => by simp [leavesOfAll]
  | t :: ts, h => by
    obtain ⟨ht, hts⟩ := Bool.and_eq_true_iff.mp h
    rw [leavesOfAll]
    exact List.forall_mem_append.mpr ⟨isPrinted_leaves ht, isPrinted_leavesOfAll hts⟩

end

end Ty

namespace Machine

variable {M : Machine}

namespace Value

mutual

/-- **The leaves of a value**, from left to right: nested tuples are flattened. -/
def leaves : M.Value → List M.Value
  | .tuple vs => leavesOfAll vs
  | .word w => [.word w]
  | .real d => [.real d]

/-- The leaves of values, one value after the other. -/
def leavesOfAll : List M.Value → List M.Value
  | [] => []
  | v :: vs => v.leaves ++ leavesOfAll vs

end

end Value

theorem readAll_append (m : M.Memory) (a : Int) (ts us : List Ty) :
    M.readAll m a (ts ++ us) = M.readAll m a ts ++ M.readAll m (a + Ty.sizeOfAll ts) us := by
  induction ts generalizing a with
  | nil =>
      rw [List.nil_append, readAll, List.nil_append, Ty.sizeOfAll, Int.natCast_zero, Int.add_zero]
  | cons t ts ih =>
    rw [List.cons_append, readAll, readAll, ih, List.cons_append, Ty.sizeOfAll,
      Int.natCast_add, Int.add_assoc]

mutual

/-- **The leaves of a value lie one behind the other**, where the value lies. -/
theorem leaves_read (m : M.Memory) :
    ∀ (t : Ty) (a : Int), (M.read m a t).leaves = M.readAll m a t.leaves
  | .tuple ts, a => by
    rw [read, Value.leaves, Ty.leaves]
    exact leaves_readAll m ts a
  | .void, a | .auto, a | .int, a | .double, a | .string, a | .pointer _, a => by
    simp only [Ty.leaves, readAll, read, Value.leaves]

/-- As `leaves_read`, for several values. -/
theorem leaves_readAll (m : M.Memory) : ∀ (ts : List Ty) (a : Int),
    Value.leavesOfAll (M.readAll m a ts) = M.readAll m a (Ty.leavesOfAll ts)
  | [], a => by rw [readAll, Value.leavesOfAll, Ty.leavesOfAll, readAll]
  | t :: ts, a => by
    rw [readAll, Value.leavesOfAll, Ty.leavesOfAll, readAll_append, Ty.sizeOfAll_leaves,
      leaves_read m t, leaves_readAll m ts]

end

namespace Surroundings

variable (E : Surroundings M)

/-! ### Leaves that are printed -/

/-- **Calls that print leaves**, one for each of them: of the function for the type of the leaf,
with the leaf on top of the stack and the others behind it, up to an address. -/
inductive Printing (base : Int) : List Ty → List M.Value → List (Call E) → Prop where
  /-- Nothing is printed. -/
  | nil : Printing base [] [] []
  /-- A leaf is printed, and then the others are. -/
  | cons {t : Ty} {ts : List Ty} {v : M.Value} {vs : List M.Value} {c : Call E} {cs : List (Call E)}
    (hlabel : t.printer? = some c.label) (hvalue : M.read c.store.memory c.store.sp t = v)
    (hsp : c.store.sp + Ty.sizeOfAll (t :: ts) = base) (hrest : Printing base ts vs cs) :
    Printing base (t :: ts) (v :: vs) (c :: cs)

/-- **A run prints values, one after the other**: the code of each leaves the value on the stack,
its leaves are printed, and then the stack is back where it was. -/
inductive Prints (fp : Int) (code : List Instr) :
    List (Ty × List Instr) → List M.Value → E.State → List (Call E) → E.State → Prop where
  /-- Nothing is printed. -/
  | nil (a : E.State) : Prints fp code [] [] a [] a
  /-- A value is printed, and then the others are. -/
  | cons {t : Ty} {is : List Instr} {parts : List (Ty × List Instr)} {v : M.Value}
      {vs : List M.Value} {p : Nat}
    {w w₁ w₂ : E.World} {s s₁ s₂ : M.Store} {b : E.State} {cs ds es : List (Call E)}
    (hown : E.Goes fp code (p, w, s) cs (p + is.length, w₁, s₁)) (hsp : s₁.sp + t.size = s.sp)
    (hvalue : M.read s₁.memory s₁.sp t = v)
    (hleaves : E.Goes fp code (p + is.length, w₁, s₁) ds
      (p + is.length + (Expr.printInstrs t.leaves).length, w₂, s₂))
    (hcalls : E.Printing s.sp t.leaves v.leaves ds) (hback : s₂.sp = s.sp)
    (hrest : Prints fp code parts vs
      (p + is.length + (Expr.printInstrs t.leaves).length, w₂, s₂) es b) :
    Prints fp code ((t, is) :: parts) (v :: vs) (p, w, s) (cs ++ ds ++ es) b

/-- **A run ends a line**, if it has to: then it makes one call, and otherwise none. -/
def EndsLine (fp : Int) (code : List Instr) (newline : Bool) (a : E.State) (cs : List (Call E))
    (b : E.State) : Prop :=
  E.Goes fp code a cs b ∧ b.2.2.sp = a.2.2.sp ∧
    cs = if newline then [⟨"println", a.2.1, a.2.2⟩] else []

/-- **A run writes values**: it prints them, and then it may end the line. -/
def Writes (fp : Int) (code : List Instr) (parts : List (Ty × List Instr)) (newline : Bool)
    (vs : List M.Value) (a : E.State) (cs : List (Call E)) (b : E.State) : Prop :=
  ∃ before between behind, E.Prints fp code parts vs a before between ∧ between.2.2.sp = a.2.2.sp ∧
    E.EndsLine fp code newline between behind b ∧ cs = before ++ behind

variable {E} {fp : Int} {code : List Instr} {parts : List (Ty × List Instr)} {newline : Bool}
  {vs : List M.Value}
  {a b : E.State} {cs : List (Call E)}

/-- What is printed is printed in one run, which leaves the stack as it was. -/
theorem Prints.goes (h : E.Prints fp code parts vs a cs b) :
    E.Goes fp code a cs b ∧ b.2.2.sp = a.2.2.sp := by
  induction h with
  | nil a => exact ⟨.refl a, rfl⟩
  | cons hown _ _ hleaves _ hback _ ih => exact ⟨(hown.trans hleaves).trans ih.1, ih.2.trans hback⟩

/-- **The leaves of a value are printed**, if the functions that print them return, leave the stack
as it is and change no leaf behind their own. That may hold by virtue of something that was true
before, and is true again afterwards. -/
theorem goes_printing (fp : Int) {base : Int} {I : List Ty → E.World → M.Store → Prop}
    (hcall : ∀ t ts w s, t.IsPrinted → I (t :: ts) w s →
      ∃ w' s', E.call (printHelper t) w s = some (w', s') ∧
      s'.sp = s.sp ∧ (∀ a, s.sp + t.size ≤ a → a < base → s'.memory a = s.memory a) ∧ I ts w'
      (s'.drop t.size))
    {ts : List Ty} (hts : ∀ t ∈ ts, t.IsPrinted) {p : Nat} {w : E.World} {s : M.Store}
    (hc : Holds code p (Expr.printInstrs ts)) (hsp : s.sp + Ty.sizeOfAll ts = base)
    (hI : I ts w s) :
    ∃ cs w' s', E.Goes fp code (p, w, s) cs (p + (Expr.printInstrs ts).length, w', s') ∧
      E.Printing base ts (M.readAll s.memory s.sp ts) cs ∧ s'.sp = base ∧ I [] w' s' := by
  induction ts generalizing p w s with
  | nil =>
    rw [Ty.sizeOfAll, Int.natCast_zero, Int.add_zero] at hsp
    rw [readAll]
    exact ⟨[], w, s, .refl _, .nil, hsp, hI⟩
  | cons t ts ih =>
    rw [List.forall_mem_cons] at hts
    obtain ⟨w₁, s₁, hreturns, hsp₁, hkept, hI₁⟩ := hcall t ts w s hts.1 hI
    rw [Expr.printInstrs, List.flatMap_cons] at hc
    have hfirst : E.Goes fp code (p, w, s) _ _ := goes_dropped hc.left hreturns
    have hsp' := hsp
    rw [Ty.sizeOfAll] at hsp'
    obtain ⟨cs, w', s', hgoes, hprinting, hback, hI'⟩ :=
      ih hts.2 hc.right (by rw [Store.sp_drop]; omega) hI₁
    -- The leaves behind the one that is printed are still what they were.
    have hsame : M.readAll (s₁.drop t.size).memory (s₁.drop t.size).sp ts =
        M.readAll s.memory (s.sp + t.size) ts := by
      rw [Store.memory_drop, Store.sp_drop, hsp₁]
      exact readAll_congr (fun u hu => Ty.solid_of_scalar (hts.2 u hu).scalar) fun k hk =>
        hkept _ (by omega) (by omega)
    rw [hsame] at hprinting
    rw [readAll]
    refine ⟨_, w', s', ?_, .cons (c := ⟨_, w, s⟩) hts.1.printer?_eq rfl hsp hprinting, hback, hI'⟩
    rw [Expr.printInstrs, List.flatMap_cons, List.length_append, ← Nat.add_assoc]
    exact hfirst.trans hgoes

end Surroundings

end Machine

/-! ### Arguments -/

/-- The values that are printed one after the other, each with its type and its code. -/
def Expr.printParts (cx : Context) (pt : Point) : List Expr → List (Ty × List Instr)
  | [] => []
  | e :: es => (e.type cx.types, (e.outline cx pt.scope .value pt.labels).code) ::
      printParts cx (pt.move 0 e.labelCount) es

/-- A statement that writes values prints them, and then it may end the line. -/
theorem Stmt.code_outline_write (cx : Context) (pt : Point) (site : Site) (args : List Expr)
    (newline : Bool) :
    ((Stmt.write site args newline).outline cx pt).code =
      (Expr.printOutline cx pt args).code ++ if newline then [.call "println"] else [] := by
  rw [outline, Outline.code_piece, Outline.code_append]
  cases newline <;> rfl

namespace Machine.Surroundings

variable {M : Machine} {E : Surroundings M} {fp : Int} {code : List Instr} {cx : Context}
  {pt : Point} {site : Site}
  {args : List Expr} {newline : Bool} {vs : List M.Value} {p : Nat} {w w' w'' : E.World}
    {s s' s'' : M.Store}
  {cs : List (Call E)}

/-- **A statement writes the values that it prints**, if the function that ends a line returns. -/
theorem Prints.writes
    (h : E.Prints fp code (Expr.printParts cx pt args) vs (p, w, s) cs
      (p + (Expr.printOutline cx pt args).code.length, w', s'))
    (hc : Holds code p ((Stmt.write site args newline).outline cx pt).code)
    (hline : if newline then E.call "println" w' s' = some (w'', s'') ∧
      s''.sp = s'.sp else w'' = w' ∧ s'' = s') :
    ∃ ds, E.Writes fp code (Expr.printParts cx pt args) newline vs (p, w, s) ds
      (p + ((Stmt.write site args newline).outline cx pt).code.length, w'', s'') := by
  rw [Stmt.code_outline_write] at hc ⊢
  cases newline with
  | true =>
    rw [List.length_append, ← Nat.add_assoc]
    exact ⟨_, cs, _, _, h, h.goes.2, ⟨goes_call hc.right.head hline.1, hline.2, rfl⟩, rfl⟩
  | false =>
    obtain ⟨rfl, rfl⟩ := hline
    rw [List.length_append]
    exact ⟨_, cs, _, [], h, h.goes.2, ⟨.refl _, rfl, rfl⟩, rfl⟩

end Machine.Surroundings

end PostfixCompiler
