import PostfixCompiler.Proofs.Frame.Access
import PostfixCompiler.Proofs.Frame.Source
import PostfixCompiler.Proofs.Machine.Prints

/-!
# Code among orderly functions

Of the functions that are called nothing may be known but that they return and leave the stack where
it was. Still the code of an expression is run to its end: its jumps lead ahead, and each of its
instructions moves the top of the stack by a number of bytes that is known beforehand. There is one
exception, the instruction that takes memory from the stack; an expression without it is **steady**.

So the code of a steady expression leaves as many bytes on the stack as its value has, whatever they
are, and when they are printed, it is those bytes that are printed.

## Main definitions

* `PostfixCompiler.Machine.Surroundings.Orderly`: functions return and leave the stack where it was.
* `PostfixCompiler.Emission.Steady`: code that takes no memory from the stack.
* `PostfixCompiler.Expr.IsSteady`: an expression that takes no memory from the stack.

## Main statements

* `PostfixCompiler.Machine.sp_act`: an instruction moves the top of the stack as far as it has to.
* `PostfixCompiler.Expr.steady`: the code of a steady expression is steady.
* `PostfixCompiler.Machine.Surroundings.Orderly.goes`: steady code is run to its end.
* `PostfixCompiler.Machine.Surroundings.Orderly.writes`: the values of steady expressions are
  written.
-/

namespace PostfixCompiler

open Emission

/-! ### Steady code -/

namespace Emission

/-- The instruction moves the top of the stack by what is known beforehand, and hands over no
result. -/
def isSteady : Instr → Bool
  | .alloc | .storeResultInt | .storeResultDouble => false
  | _ => true

/-- **Code that takes no memory from the stack**, and hands over no result. -/
def Steady (is : List Instr) : Prop := ∀ i ∈ is, isSteady i = true

@[simp] theorem steady_nil : Steady [] := by simp [Steady]

@[simp] theorem steady_cons {i : Instr} {is : List Instr} :
    Steady (i :: is) ↔ isSteady i = true ∧ Steady is :=
  List.forall_mem_cons

@[simp] theorem steady_append {is js : List Instr} : Steady (is ++ js) ↔ Steady is ∧ Steady js :=
  List.forall_mem_append

/-- Whether code that is written out is steady is found by going through it. -/
theorem Steady.of_all {is : List Instr} (h : is.all isSteady = true) : Steady is :=
  List.all_eq_true.mp h

theorem isSteady_of_isMove {i : Instr} (h : isMove i = true) : isSteady i = true := by
  cases i <;> first | rfl | cases h

/-- Code that only moves data is steady. -/
theorem Moving.steady {is : List Instr} (h : Moving is) : Steady is :=
  fun i hi => isSteady_of_isMove (h i hi)

theorem steady_input (t : Ty) : Steady (inputInstrs t) := by
  unfold inputInstrs
  split <;> exact .of_all rfl

theorem steady_call (area : Int) (label : String) (t : Ty) (bytes : Nat) (mode : Mode) :
    Steady (callInstrs area label t bytes mode) := by
  obtain ⟨is, js, his, hjs, heq⟩ := exists_callInstrs area label t bytes mode
  rw [heq]
  exact steady_append.mpr ⟨his.steady, steady_cons.mpr ⟨rfl, hjs.steady⟩⟩

theorem isSteady_variable (config : Config) (scope : View Symbol) (name : String) :
    isSteady (variableInstr config scope name) = true := by
  unfold variableInstr
  split
  · split <;> rfl
  · rfl

theorem isSteady_decided (op : BinaryOp) (label : String) :
    isSteady (decidedJump op label) = true := by
  cases op <;> rfl

end Emission

/-- What is true of the instructions that belong to no piece, and of those that belong to a piece,
is true of the code. -/
theorem Outline.forall_code {R : Instr → Prop} {o : Outline} (h : ∀ i ∈ o.own, R i)
    (hall : o.All fun _ inner => ∀ i ∈ inner.own, R i) : ∀ i ∈ o.code, R i := by
  induction o with
  | done => simp
  | step x rest ih =>
    rw [own, List.forall_mem_cons] at h
    exact List.forall_mem_cons.mpr ⟨h.1, ih h.2 hall⟩
  | part p inner rest ih ih' =>
    rw [code]
    exact List.forall_mem_append.mpr ⟨ih hall.1 hall.2.1, ih' h hall.2.2⟩

namespace Expr

variable {cx : Context} {scope : View Symbol} {mode : Mode}

/-- **An expression takes no memory from the stack.** -/
def IsSteady (e : Expr) : Prop := ∀ x : Expr, x.Part e → ∀ site n, x ≠ .stackAlloc site n

/-- An expression takes no memory from the stack if it does not by itself, and its operands do
not. -/
theorem isSteady_of_operands {e : Expr} (h : ∀ site n, e ≠ .stackAlloc site n)
    (hoperands : ∀ a ∈ e.operands, a.IsSteady) :
    e.IsSteady := by
  rintro x (_ | ⟨ha, hx⟩)
  · exact h
  · exact hoperands _ ha x hx

theorem steady_slotOutline (slot : Int) (es : List Expr) (n : Nat)
    (targets : List Ty) (byte : Nat) :
    Steady (slotOutline cx scope slot n es targets byte).own := by
  induction es generalizing n targets byte with
  | nil => rw [slotOutline] <;> simp
  | cons e es ih =>
    cases targets with
    | nil => rw [slotOutline] <;> simp
    | cons t ts =>
      rw [slotOutline, Outline.own_append, Outline.own_append, own_outline,
        Outline.own_ofCode, steady_append, steady_append]
      exact ⟨⟨steady_nil, (moving_store (moving_base _) _ _ _).steady⟩, ih _ _ _⟩

theorem steady_argumentsOutline (args : List Expr) (n : Nat) (ps : List Ty) :
    Steady (argumentsOutline cx scope n args ps).own := by
  induction args generalizing ps with
  | nil => rw [argumentsOutline] <;> simp
  | cons e es ih =>
    cases ps with
    | nil => rw [argumentsOutline] <;> simp
    | cons p ps =>
      rw [argumentsOutline, Outline.own_append, Outline.own_append, own_outline, Outline.own_ofCode,
        List.append_nil, steady_append]
      exact ⟨ih ps, (moving_widen _ _).steady⟩

/-- What an expression does itself takes no memory from the stack, unless that is what it is for. -/
theorem steady_own {e : Expr} {inner : Outline} {n : Nat} (he : ∀ site c, e ≠ .stackAlloc site c)
    (hpiece : e.outline cx scope mode n = .piece (.expression mode scope e) inner) :
    Steady inner.own := by
  have hinner : ∀ {o : Outline}, e.outline cx scope mode n = .piece (.expression mode scope e) o →
      o = inner := by
    intro o ho
    rw [ho] at hpiece
    cases hpiece
    rfl
  cases e with
  | stackAlloc site c => exact absurd rfl (he site c)
  | integer | double | nullptr | sizeof =>
    cases hinner (by rw [outline])
    exact .of_all rfl
  | string =>
    cases hinner (by rw [outline])
    exact steady_nil
  | input =>
    cases hinner (by rw [outline])
    simpa using steady_input _
  | «variable» =>
    cases hinner (by rw [outline])
    simpa using isSteady_variable _ _ _
  | pointerIndex =>
    cases hinner (by rw [outline])
    simp only [Outline.own_append, own_outline, Outline.own_ofCode]
    exact .of_all rfl
  | tupleIndex =>
    cases hinner (by rw [outline])
    simpa using (moving_offset _).steady
  | rvalue =>
    cases hinner (by rw [outline])
    simpa using (moving_read _ _ _).steady
  | unary =>
    cases hinner (by rw [outline])
    simpa using (moving_unary _ _).steady
  | addressOf =>
    cases hinner (by rw [outline])
    simp
  | assignment site p v =>
    cases hinner (by rw [outline])
    have hdup : Steady [if cx.types.typeOf site.id = .double then .dupDouble else .dupInt] := by
      split <;> exact .of_all rfl
    have hstore :
        Steady [if cx.types.typeOf site.id = .double then .storeDouble else .storeInt] := by
      split <;> exact .of_all rfl
    simp only [Outline.own_append, own_outline, Outline.own_ofCode, steady_append]
    exact ⟨⟨⟨⟨steady_nil, (moving_widen _ _).steady⟩, hdup⟩, steady_nil⟩, hstore⟩
  | binary site op l r =>
    have hword : isSteady (wordInstr op) = true := isSteady_of_isMove (isMove_word op)
    cases hinner (by rw [outline])
    dsimp only
    split
    · simp only [Outline.own_append, own_outline, Outline.own_ofCode, steady_append, steady_cons,
        isSteady_decided, hword, steady_nil, and_true, true_and]
      exact ⟨rfl, rfl⟩
    · simpa using (moving_pointer _ _ _).steady
    · simp only [Outline.own_append, own_outline, Outline.own_ofCode, steady_append]
      exact ⟨⟨⟨⟨steady_nil, (moving_widen _ _).steady⟩, steady_nil⟩, (moving_widen _ _).steady⟩,
        steady_cons.mpr ⟨isSteady_of_isMove (isMove_arithmetic _ _), steady_nil⟩⟩
    · simp only [Outline.own_append, own_outline, Outline.own_ofCode, steady_append]
      exact ⟨⟨⟨⟨steady_nil, (moving_widen _ _).steady⟩, steady_nil⟩, (moving_widen _ _).steady⟩,
        steady_append.mp (moving_compare _ _).steady⟩
  | tuple site es =>
    have hplace : ∀ offset, Steady [.frameAddress offset] := fun _ => .of_all rfl
    rcases es with _ | ⟨a, _ | ⟨b, es⟩⟩
    · cases mode with
      | value =>
        cases hinner (by rw [outline]; simp)
        simp
      | address =>
        cases hinner (by rw [outline]; simp)
        simpa [steady_slotOutline] using hplace _
    · cases hinner (by rw [outline])
      simp
    · cases mode with
      | value =>
        cases hinner (by rw [outline]; simp)
        simp
      | address =>
        cases hinner (by rw [outline]; simp)
        simpa [steady_slotOutline] using hplace _
  | call site name args =>
    cases hinner (by rw [outline])
    simpa [steady_argumentsOutline] using steady_call _ _ _ _ _

/-- **The code of a steady expression is steady.** -/
theorem steady {e : Expr} (he : e.IsSteady) (n : Nat) :
    Steady (e.outline cx scope mode n).code := by
  have hall : (e.outline cx scope mode n).All fun _ inner => Steady inner.own := by
    refine all_parts (fun id label s => ?_) n fun x m k inner hx hpiece =>
      steady_own (he x hx) hpiece
    rw [Outline.own_ofCode]
    exact .of_all rfl
  refine Outline.forall_code ?_ hall
  rw [own_outline]
  simp

end Expr

/-! ### Steady code among orderly functions -/

namespace Machine

variable {M : Machine} (fp : Int) {s s' : M.Store}

/-- **An instruction moves the top of the stack as far as it has to.** -/
theorem sp_act {i : Instr} (h : M.act fp s i = some s') (hi : isSteady i = true) :
    s'.sp + effect i = s.sp := by
  have hword : (Ty.wordSize : Int) = 4 := rfl
  have hdouble : (Ty.doubleSize : Int) = 8 := rfl
  cases i with
  | alloc | storeResultInt | storeResultDouble => cases hi
  | jump | jumpIfZero | jumpIfNotZero | call | «return» | enter | leave | loadResultInt
  | loadResultDouble => cases h
  | _ =>
    cases h
    simp only [effect, Store.apply, Store.combine, Store.save, Store.sp_push, Store.sp_drop]
    omega

namespace Surroundings

variable {E : Surroundings M} {code is : List Instr} {p n m : Nat} {w : E.World}

/-- **Functions are orderly**: each returns and leaves the stack where it was, and those that print
change nothing behind what they print. -/
structure Orderly (E : Surroundings M) : Prop where
  /-- Each returns and leaves the stack where it was. -/
  returns : ∀ l w s, ∃ w' s', E.call l w s = some (w', s') ∧ s'.sp = s.sp
  /-- Those that print change nothing behind what they print. -/
  prints : ∀ (t : Ty) label w s w' s', t.printer? = some label → E.call label w s = some (w', s') →
    ∀ a, s.sp + t.size ≤ a → s'.memory a = s.memory a

/-- An instruction is carried out that does not jump. -/
theorem Orderly.goes_next (hE : E.Orderly) {i : Instr} (hi : code[p]? = some i)
    (hleads : LeadsInto is i) (htarget : target? i = none) (hsteady : isSteady i = true)
    (w : E.World) (s : M.Store) :
    ∃ cs w' s', E.Goes fp code (p, w, s) cs (p + 1, w', s') ∧ s'.sp + effect i = s.sp := by
  cases i with
  | jump | «return» | enter | leave => exact hleads.elim
  | jumpIfZero | jumpIfNotZero => cases htarget
  | alloc | storeResultInt | storeResultDouble => cases hsteady
  | call l =>
    obtain ⟨w', s', hreturns, hsp⟩ := hE.returns l w s
    exact ⟨_, w', s', goes_call hi hreturns, by rw [hsp]; exact Int.add_zero _⟩
  | loadResultInt => exact ⟨_, w, _, goes_result_word hi, Int.sub_add_cancel s.sp 4⟩
  | loadResultDouble => exact ⟨_, w, _, goes_result_real hi, Int.sub_add_cancel s.sp 8⟩
  | _ =>
    have hstep : M.step fp code (p, s) = _ := step_act hi rfl
    exact ⟨_, w, _, goes_of_runs (Relation.ReflTransGen.single hstep) w, sp_act fp rfl rfl⟩

/-- A jump that looks at the stack leads to its label, or on. -/
theorem goes_jump (hm : Makes code n m) {i : Instr} {k j : Nat} (hi : code[p]? = some i)
    (htarget : target? i = some (labelName k)) (hgo : goesOn i = true)
    (hj : code[j]? = some (.label (labelName k))) (w : E.World) (s : M.Store) :
    ∃ q, (q = p + 1 ∨ q = j) ∧ E.Goes fp code (p, w, s) [] (q, w, s.drop Ty.wordSize) ∧
    effect i = -4 := by
  cases i with
  | jumpIfZero l =>
    cases htarget
    cases hz : M.isZero (s.top M.word) with
    | true => exact ⟨j, .inr rfl, goes_of_runs (runs_jump hm hi hj (.inl ⟨rfl, hz⟩)) w, rfl⟩
    | false => exact ⟨p + 1, .inl rfl, goes_of_runs (runs_pass hi (.inl ⟨rfl, hz⟩)) w, rfl⟩
  | jumpIfNotZero l =>
    cases htarget
    cases hz : M.isZero (s.top M.word) with
    | true => exact ⟨p + 1, .inl rfl, goes_of_runs (runs_pass hi (.inr ⟨rfl, hz⟩)) w, rfl⟩
    | false => exact ⟨j, .inr rfl, goes_of_runs (runs_jump hm hi hj (.inr ⟨rfl, hz⟩)) w, rfl⟩
  | jump => cases hgo
  | _ => cases htarget

/-- In balanced code the label of a jump has the height behind the jump. -/
theorem rise_jump (hm : Makes code n m) {front between after : List Instr} {x : Instr} {i : Nat}
    (hc : Holds code p (front ++ x :: between ++ .label (labelName i) :: after))
    (hb : Balanced (Places 0 (front ++ x :: between ++ .label (labelName i) :: after)) 0
      (front ++ x :: between ++ .label (labelName i) :: after))
    (htarget : target? x = some (labelName i)) (hgo : goesOn x = true) :
    rise (front ++ x :: between) = rise (front ++ [x]) := by
  have horder := hb.inOrder (i := front.length) (x := x) (by simp)
  have htake :
      (front ++ x :: between ++ .label (labelName i) :: after).take front.length = front := by
    rw [List.append_assoc, List.take_left]
  have hplaced : Places 0 (front ++ x :: between ++ .label (labelName i) :: after) (labelName i)
      (rise front + effect x) := by
    rw [htake, Int.zero_add] at horder
    cases x with
    | jumpIfZero | jumpIfNotZero =>
      cases htarget
      exact horder.2
    | jump => cases hgo
    | _ => cases htarget
  obtain ⟨before, after', hbefore, hheight⟩ := hplaced
  have hj : code[p + (front ++ x :: between).length]? = some (.label (labelName i)) := hc.right.head
  have hlabel : code[p + before.length]? = some (.label (labelName i)) := by
    rw [hbefore] at hc
    exact hc.right.head
  have hlength : (front ++ x :: between).length = before.length := by
    have := hm.position_unique hlabel hj
    omega
  have hsame := (List.append_inj hbefore hlength).1
  rw [hsame, ← Int.zero_add (rise before), ← hheight, rise_append, rise, rise, Int.add_zero]

/-- A step in steady code leads in front of a part of the code that is left, and finds the stack at
the height of that part. -/
theorem Orderly.goes_on (hE : E.Orderly) (hm : Makes code n m) {front back : List Instr} {x : Instr}
    (hf : Forward (front ++ x :: back))
    (hb : Balanced (Places 0 (front ++ x :: back)) 0 (front ++ x :: back))
    (hs : Steady (front ++ x :: back)) (hc : Holds code p (front ++ x :: back)) (w : E.World)
    (s : M.Store) :
    ∃ front' back' cs w' s', front ++ x :: back = front' ++ back' ∧ back'.length ≤ back.length ∧
      E.Goes fp code (p + front.length, w, s) cs (p + front'.length, w', s') ∧
      s'.sp + rise front' = s.sp + rise front := by
  have hx : code[p + front.length]? = some x := hc.right.head
  have hleads : LeadsInto back x := hf.right.1
  have hsteady : isSteady x = true := (steady_cons.mp (steady_append.mp hs).2).1
  have hnext : rise (front ++ [x]) = rise front + effect x := by
      rw [rise_append, rise, rise, Int.add_zero]
  have hpast : (front ++ [x]).length = front.length + 1 := List.length_append
  cases htarget : target? x with
  | none =>
    obtain ⟨cs, w', s', hgoes, hsp⟩ := hE.goes_next fp hx hleads htarget hsteady w s
    exact ⟨front ++ [x], back, cs, w', s', by simp, Nat.le_refl _, by rwa [hpast], by omega⟩
  | some l =>
    obtain ⟨i, rfl, hmem⟩ : ∃ i, l = labelName i ∧ Instr.label l ∈ back := by
      cases x with
      | jumpIfZero | jumpIfNotZero =>
        cases htarget
        exact hleads
      | jump => exact hleads.elim
      | _ => cases htarget
    obtain ⟨between, after, rfl⟩ := List.append_of_mem hmem
    have hgo := goesOn_of_leadsInto hleads
    have hahead : front ++ x :: (between ++ .label (labelName i) :: after) =
        front ++ x :: between ++ .label (labelName i) :: after := by simp
    rw [hahead] at hc hb ⊢
    obtain ⟨q, hq, hgoes, heffect⟩ := goes_jump (E := E) fp hm hx htarget hgo hc.right.head w s
    have hword : (Ty.wordSize : Int) = 4 := rfl
    have hsp : (s.drop Ty.wordSize).sp + rise (front ++ [x]) = s.sp + rise front := by
      rw [Store.sp_drop]
      omega
    rcases hq with rfl | rfl
    · exact ⟨front ++ [x], between ++ .label (labelName i) :: after, [], w, _,
        by simp, Nat.le_refl _, by rwa [hpast], hsp⟩
    · rw [← rise_jump hm hc hb htarget hgo] at hsp
      exact ⟨front ++ x :: between, _, [], w, _, rfl, by simp, hgoes, hsp⟩

/-- **Steady code is run to its end** among orderly functions, if its jumps lead ahead and it is
balanced. The top of the stack moves as far as it has to. -/
theorem Orderly.goes (hE : E.Orderly) (hm : Makes code n m) (hf : Forward is)
    (hb : Balanced (Places 0 is) 0 is) (hs : Steady is) (hc : Holds code p is) (w : E.World)
    (s : M.Store) :
    ∃ cs w' s', E.Goes fp code (p, w, s) cs (p + is.length, w', s') ∧ s'.sp + rise is = s.sp := by
  -- What is left gets shorter with each step, wherever the run goes.
  have hrest : ∀ k front back, is = front ++ back → back.length ≤ k →
      ∀ w₁ (s₁ : M.Store), s₁.sp + rise front = s.sp →
      ∃ cs w' s', E.Goes fp code (p + front.length, w₁, s₁) cs (p + is.length, w', s') ∧
      s'.sp + rise is = s.sp := by
    intro k
    induction k with
    | zero =>
      rintro front back rfl hk w₁ s₁ hsp
      cases List.length_eq_zero_iff.mp (Nat.le_zero.mp hk)
      rw [List.append_nil]
      exact ⟨[], w₁, s₁, .refl _, hsp⟩
    | succ k ih =>
      rintro front back rfl hk w₁ s₁ hsp
      cases back with
      | nil => exact ih front [] rfl (Nat.zero_le k) w₁ s₁ hsp
      | cons x back =>
        rw [List.length_cons] at hk
        obtain ⟨front', back', cs, w₂, s₂, heq, hback, hgoes, hsp₂⟩ :=
          hE.goes_on fp hm hf hb hs hc w₁ s₁
        obtain ⟨ds, w', s', hgoes', hsp'⟩ := ih front' back' heq (by omega) w₂ s₂ (hsp₂.trans hsp)
        exact ⟨_, w', s', hgoes.trans hgoes', hsp'⟩
  exact hrest is.length [] is rfl (Nat.le_refl _) w s (Int.add_zero _)

/-! ### Values of steady expressions -/

section Printed

variable {r : Room} {cx : Context} {pt : Point}

/-- **The code of a steady expression is run to its end**, and leaves as many bytes on the stack as
its value has. -/
theorem Orderly.goes_value (hE : E.Orderly) (hcx : r.Suits Ty.Sound cx)
    {scope : View Symbol} {e : Expr} (he : e.Sits Ty.Sound r scope .value) (hsteady : e.IsSteady)
    {k : Nat} (hm : Makes code n m) (hc : Holds code p (e.outline cx scope .value k).code)
    (w : E.World) (s : M.Store) :
    ∃ cs w' s',
    E.Goes fp code (p, w, s) cs (p + (e.outline cx scope .value k).code.length, w', s') ∧
      s'.sp + (e.type cx.types).size = s.sp := by
  have hrises : e.Rises cx scope .value :=
    Expr.rises he.names (hcx.types ▸ he.typed) he.placed (hcx.types ▸ he.leaves)
  have hclimbs := hrises (fun _ _ => False) 0 k (Int.le_refl 0)
  have hbalanced := hclimbs.balanced.mono fun l h hl => hl.resolve_left id
  have hrise : rise (e.outline cx scope .value k).code = (e.type cx.types).size := by
    have := hclimbs.rise_eq
    rw [Mode.span] at this
    omega
  obtain ⟨cs, w', s', hgoes, hsp⟩ :=
    hE.goes fp hm (e.through .value k).forward hbalanced (e.steady hsteady k) hc w s
  exact ⟨cs, w', s', hgoes, by rw [← hrise, hsp]⟩

/-- **The values of steady expressions are printed**, whatever they are. -/
theorem Orderly.prints_values (hE : E.Orderly) (hcx : r.Suits Ty.Sound cx) {es : List Expr}
    (hm : Makes code n m) (hc : Holds code p (Expr.printOutline cx pt es).code)
    (hes : ∀ e ∈ es, e.Sits Ty.Sound r pt.scope .value) (hsteady : ∀ e ∈ es, e.IsSteady)
    (hprinted : ∀ e ∈ es, ∀ t ∈ (e.type cx.types).leaves, t.IsPrinted) (w : E.World)
    (s : M.Store) : ∃ vs cs w' s',
    E.Prints fp code (Expr.printParts cx pt es) vs (p, w, s) cs
      (p + (Expr.printOutline cx pt es).code.length, w', s') := by
  induction es generalizing pt p w s with
  | nil => exact ⟨[], [], w, s, .nil _⟩
  | cons e es ih =>
    rw [List.forall_mem_cons] at hes hsteady hprinted
    rw [Expr.printOutline, Outline.code_append, Outline.code_piece, Outline.code_append,
      Outline.code_ofCode] at hc ⊢
    obtain ⟨cs, w₁, s₁, hown, hsp⟩ := hE.goes_value fp hcx hes.1 hsteady.1 hm hc.left.left w s
    have hheight : s₁.sp + Ty.sizeOfAll (e.type cx.types).leaves = s.sp := by
        rw [Ty.sizeOfAll_leaves, hsp]
    obtain ⟨ds, w₂, s₂, hleaves, hprinting, hback, -⟩ := goes_printing fp (I := fun _ _ _ => True)
      (fun t ts w s ht _ => by
        obtain ⟨w', s', hreturns, hsp⟩ := hE.returns (printHelper t) w s
        exact ⟨w', s', hreturns, hsp,
          fun a ha _ => hE.prints t _ w s w' s' ht.printer?_eq hreturns a ha, trivial⟩)
      hprinted.1 hc.left.right hheight trivial
    have hbehind := hc.right
    rw [List.length_append, ← Nat.add_assoc] at hbehind
    obtain ⟨vs, es', w', s', hrest⟩ := ih hbehind hes.2 hsteady.2 hprinted.2 w₂ s₂
    rw [← leaves_read] at hprinting
    rw [List.length_append, List.length_append, ← Nat.add_assoc, ← Nat.add_assoc]
    exact ⟨_ :: vs, _, w', s', .cons hown hsp rfl hleaves hprinting hback hrest⟩

/-- **A statement writes the values of steady expressions**, whatever they are. -/
theorem Orderly.writes (hE : E.Orderly) (hcx : r.Suits Ty.Sound cx) {site : Site} {args : List Expr}
    {newline : Bool} (hm : Makes code n m)
    (hc : Holds code p ((Stmt.write site args newline).outline cx pt).code)
    (hargs : ∀ e ∈ args, e.Sits Ty.Sound r pt.scope .value) (hsteady : ∀ e ∈ args, e.IsSteady)
    (hprinted : ∀ e ∈ args, ∀ t ∈ (e.type cx.types).leaves, t.IsPrinted) (w : E.World)
    (s : M.Store) :
    ∃ vs cs w' s', E.Writes fp code (Expr.printParts cx pt args) newline vs (p, w, s) cs
      (p + ((Stmt.write site args newline).outline cx pt).code.length, w', s') := by
  have hcode := hc
  rw [Stmt.code_outline_write] at hcode
  obtain ⟨vs, cs, w₁, s₁, hprints⟩ :=
    hE.prints_values fp hcx hm hcode.left hargs hsteady hprinted w s
  cases newline with
  | true =>
    obtain ⟨w₂, s₂, hcall, hsp⟩ := hE.returns "println" w₁ s₁
    obtain ⟨ds, hwrites⟩ := hprints.writes hc ⟨hcall, hsp⟩
    exact ⟨vs, ds, w₂, s₂, hwrites⟩
  | false =>
    obtain ⟨ds, hwrites⟩ := hprints.writes hc ⟨rfl, rfl⟩
    exact ⟨vs, ds, w₁, s₁, hwrites⟩

end Printed

end Surroundings

end Machine

end PostfixCompiler
