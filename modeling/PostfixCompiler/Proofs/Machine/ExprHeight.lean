import PostfixCompiler.Proofs.Emission.LocalCode
import PostfixCompiler.Proofs.Machine.Height
import PostfixCompiler.Proofs.Ty.Solid

/-!
# The height of an expression

The code of an expression whose value is wanted moves the top of the stack by the size of its type,
and the code of one whose address is wanted by a word. That holds if the tuples of the program are
tuples proper: a value of type `void` is no bytes, but to load or to store one is to move a word.

## Main definitions

* `PostfixCompiler.Emission.Leads`: instructions lead from one height to another.
* `PostfixCompiler.Mode.span`: what is left on the stack.

## Main statements

* `PostfixCompiler.Emission.leads_load`, `PostfixCompiler.Emission.leads_store`.
* `PostfixCompiler.Expr.rises`: the height of a typed expression.
-/

namespace PostfixCompiler

open Emission

/-! ### Moving values -/

namespace Emission

/-- **Instructions lead from one height to another.** -/
def Leads (out : String → Int → Prop) (h : Int) (is : List Instr) (h' : Int) : Prop :=
  Balanced out h is ∧ h' = h + rise is

variable {out : String → Int → Prop} {h h' : Int}

theorem Leads.append {m : Int} {a b : List Instr} (hi : Leads out h a m) (hj : Leads out m b h') :
    Leads out h (a ++ b) h' := by
  obtain ⟨hb, rfl⟩ := hi
  exact ⟨hb.append hj.1, by rw [hj.2, rise_append, Int.add_assoc]⟩

theorem Leads.nil (h0 : 0 ≤ h) : Leads out h [] h := ⟨h0, (Int.add_zero h).symm⟩

@[simp] theorem leads_nil : Leads out h [] h' ↔ 0 ≤ h ∧ h' = h := by
  rw [Leads, Balanced, rise, Int.add_zero]

@[simp] theorem leads_cons {i : Instr} {is : List Instr} :
    Leads out h (i :: is) h' ↔ 0 ≤ h ∧ InOrder out h i ∧ Leads out (h + effect i) is h' := by
  rw [Leads, Balanced, rise, Leads, Int.add_assoc, and_assoc, and_assoc]

/-- One instruction that is in order at every height. -/
theorem Leads.one {i : Instr} (hi : isPlain i = true) (h0 : 0 ≤ h) (h1 : 0 ≤ h + effect i) :
    Leads out h [i] (h + effect i) := by
  refine ⟨⟨h0, ?_, h1⟩, by rw [rise, rise, Int.add_zero]⟩
  cases i with
  | jump | jumpIfZero | jumpIfNotZero | enter | leave => cases hi
  | _ => trivial

theorem leads_base (b : Base) (byte : Nat) (h0 : 0 ≤ h) : Leads out h (b.instrs byte) (h + 4) := by
  cases b with
  | frame => exact .one rfl h0 (by simp [effect]; omega)
  | pinned slot =>
    by_cases hb : byte = 0 <;> simp [Base.instrs, hb, InOrder, effect] <;> omega

theorem leads_loadInstr {t : Ty} (ht : t.Scalar) (h0 : 0 ≤ h) :
    Leads out (h + 4) [loadInstr t] (h + t.size) := by
  refine ht.choice (motive := fun n x => Leads out (h + 4) [x] (h + n)) ?_ ?_
  · simp [InOrder, effect, Ty.doubleSize]
    omega
  · simp [InOrder, effect, Ty.wordSize]
    omega

/-- **A value is pushed**, leaf by leaf. -/
theorem leads_loadInstrs (b : Base) {leaves : List (Ty × Nat)}
    (hl : ∀ l ∈ leaves, l.1.Scalar) (h0 : 0 ≤ h) :
    Leads out h (loadInstrs b leaves) (h + Ty.sizeOfAll (leaves.map Prod.fst)) := by
  induction leaves generalizing h with
  | nil => simpa [loadInstrs, Ty.sizeOfAll] using h0
  | cons l leaves ih =>
    rw [List.forall_mem_cons] at hl
    have hrest := ih hl.2 (h := h + l.1.size) (by omega)
    rw [List.map_cons, Ty.sizeOfAll, Int.natCast_add, ← Int.add_assoc]
    exact ((leads_base b l.2 h0).append (leads_loadInstr hl.1 h0)).append hrest

theorem leads_load (b : Base) {t : Ty} (ht : t.Solid) (h0 : 0 ≤ h) :
    Leads out h (loadInstrs b t.leafOffsets.reverse) (h + t.size) := by
  have hleaves : ∀ l ∈ t.leafOffsets.reverse, l.1.Scalar := by
    intro l hl
    refine ht l.1 ?_
    rw [← Ty.map_leavesFrom t 0]
    exact List.mem_map_of_mem (List.mem_reverse.mp hl)
  have hsum : Ty.sizeOfAll (t.leafOffsets.reverse.map Prod.fst) = t.size := by
    rw [List.map_reverse, Ty.sizeOfAll_reverse, ← Ty.sizeOfAll_leaves t, ← Ty.map_leavesFrom t 0]
    rfl
  rw [← hsum]
  exact leads_loadInstrs b hleaves h0

/-- A scalar is stored by one instruction, behind the one that widens an `int` where a `double` is
wanted. -/
theorem storeInstrs_scalar {t : Ty} (ht : t.Scalar) (push : Nat → List Instr) (u : Ty)
    (offset : Nat) :
    storeInstrs push t u offset =
      widenInstrs t u.stripped ++ push offset ++
        [if t = .double then .storeDouble else .storeInt] := by
  obtain ⟨htuple, hv, ha⟩ := ht
  cases t with
  | tuple => cases htuple
  | void => exact absurd rfl hv
  | auto => exact absurd rfl ha
  | double | int | string | pointer =>
    unfold storeInstrs
    simp [widenInstrs]

/-- A number that does not have the type that is wanted becomes one that has it. -/
theorem leads_widen {wanted t : Ty} (ht : t.IsNumber)
    (hw : wanted = .double ∨ wanted = .int ∧ t = .int) (h0 : 0 ≤ h) :
    Leads out (h + t.size) (widenInstrs wanted t) (h + wanted.size) := by
  unfold widenInstrs
  rcases hw with rfl | ⟨rfl, rfl⟩
  · rcases ht with rfl | rfl <;>
      simp [InOrder, effect, Ty.size, Ty.wordSize, Ty.doubleSize] <;> omega
  · simp [Ty.size, Ty.wordSize]
    omega

/-- What fits a scalar is widened where it has to be, if it is looked at inside of its one-component
tuples. -/
theorem leads_widen_stripped {t u : Ty} (ht : t.Scalar) (hf : t.Fits u) (h0 : 0 ≤ h) :
    Leads out (h + u.size) (widenInstrs t u.stripped) (h + t.size) := by
  rcases ht.size_of_fits hf with hsize | ⟨rfl, hint⟩
  · have hnone : widenInstrs t u.stripped = [] := by
      refine if_neg fun ⟨hd, hint⟩ => ?_
      rw [← Ty.size_stripped u, hd, hint] at hsize
      cases hsize
    rw [hnone, hsize]
    exact .nil (by omega)
  · rw [← Ty.size_stripped u, hint]
    exact leads_widen (.inl rfl) (.inl rfl) h0

/-- What fits a scalar is widened where it has to be, if it is no one-component tuple. -/
theorem leads_widen_fits {t u : Ty} (ht : t.Scalar) (hu : u.IsPlural) (hf : t.Fits u) (h0 : 0 ≤ h) :
    Leads out (h + u.size) (widenInstrs t u) (h + t.size) := by
  have hlead : Leads out (h + u.size) (widenInstrs t u.stripped) (h + t.size) :=
    leads_widen_stripped ht hf h0
  rwa [Ty.stripped_of_isPlural hu] at hlead

/-- A scalar is moved away from the stack. -/
theorem leads_store_scalar {push : Nat → List Instr}
    (hpush : ∀ n h, 0 ≤ h → Leads out h (push n) (h + 4)) {t u : Ty} (ht : t.Scalar) (hf : t.Fits u)
    (offset : Nat) (h0 : 0 ≤ h) :
    Leads out (h + u.size) (storeInstrs push t u offset) h := by
  have haddress : Leads out (h + t.size) (push offset) (h + t.size + 4) := hpush offset _ (by omega)
  have hstore : Leads out (h + t.size + 4) [if t = .double then .storeDouble else .storeInt] h := by
    refine ht.choice (motive := fun n x => Leads out (h + n + 4) [x] h) ?_ ?_
    · simp [InOrder, effect, Ty.doubleSize]
      omega
    · simp [InOrder, effect, Ty.wordSize]
      omega
  rw [storeInstrs_scalar ht]
  exact ((leads_widen_stripped ht hf h0).append haddress).append hstore

mutual

/-- **A value is moved away** from the stack, leaf by leaf. -/
theorem leads_store {push : Nat → List Instr}
    (hpush : ∀ n h, 0 ≤ h → Leads out h (push n) (h + 4)) :
    ∀ {target source : Ty} {offset : Nat} {h : Int}, target.Solid → target.Fits source → 0 ≤ h →
      Leads out (h + source.size) (storeInstrs push target source offset) h
  | .tuple ts, source, offset, h, ht, hf, h0 => by
    by_cases hp : (Ty.tuple ts).IsPlural
    · obtain ⟨ss, hss, hall⟩ := (Ty.fits_tuple hp).mp hf
      have heach : Leads out (h + Ty.sizeOfAll ss) (storeEachInstrs push ts ss offset) h :=
        leads_storeEach hpush (Ty.solid_tuple.mp ht) hall h0
      rw [← Ty.size_stripped source, hss]
      match ts, hp with
      | [], _ | _ :: _ :: _, _ =>
        unfold storeInstrs
        rw [hss]
        exact heach
    · match ts with
      | [] | _ :: _ :: _ => exact absurd trivial hp
      | [t] =>
        rw [storeInstrs]
        exact leads_store hpush (Ty.solid_tuple.mp ht t List.mem_cons_self)
          (Ty.fits_singleton_left.mp hf) h0
  | .void, _, offset, _, ht, hf, h0 | .int, _, offset, _, ht, hf, h0
  | .double, _, offset, _, ht, hf, h0 | .string, _, offset, _, ht, hf, h0
  | .pointer _, _, offset, _, ht, hf, h0 | .auto, _, offset, _, ht, hf, h0 =>
    leads_store_scalar hpush (ht _ (List.mem_singleton_self _)) hf offset h0

/-- As `leads_store`, for the components of a tuple. -/
theorem leads_storeEach {push : Nat → List Instr}
    (hpush : ∀ n h, 0 ≤ h → Leads out h (push n) (h + 4)) :
    ∀ {targets sources : List Ty} {offset : Nat} {h : Int}, (∀ t ∈ targets, t.Solid) →
      Ty.FitsAll targets sources → 0 ≤ h →
      Leads out (h + Ty.sizeOfAll sources) (storeEachInstrs push targets sources offset) h
  | [], [], offset, h, _, _, h0 => by
    rw [storeEachInstrs] <;> simp [Ty.sizeOfAll, Leads.nil h0]
  | [], _ :: _, _, _, _, hf, _ | _ :: _, [], _, _, _, hf, _ => hf.elim
  | t :: ts, u :: us, offset, h, ht, hf, h0 => by
    rw [List.forall_mem_cons] at ht
    have hfirst : Leads out (h + Ty.sizeOfAll us + u.size) (storeInstrs push t u offset)
        (h + Ty.sizeOfAll us) :=
      leads_store hpush ht.1 hf.1 (by omega)
    rw [storeEachInstrs, Ty.sizeOfAll, Int.natCast_add,
      Int.add_comm (u.size : Int), ← Int.add_assoc]
    exact hfirst.append (leads_storeEach hpush ht.2 hf.2 h0)

end

theorem leads_trash (n : Nat) (h0 : 0 ≤ h) : Leads out (h + n) (trashInstrs n) h := by
  unfold trashInstrs
  split
  · rename_i hn
    rw [hn, Int.natCast_zero, Int.add_zero]
    exact .nil h0
  · simp [InOrder, effect]
    omega

theorem leads_offset (n : Nat) (h0 : 0 ≤ h) : Leads out (h + 4) (offsetInstrs n) (h + 4) := by
  unfold offsetInstrs
  split
  · exact .nil (by omega)
  · simp [InOrder, effect]
    omega

theorem leads_variable (config : Config) (scope : View Symbol) (name : String) (h0 : 0 ≤ h) :
    Leads out h [variableInstr config scope name] (h + 4) := by
  have heffect : effect (variableInstr config scope name) = 4 := by
    unfold variableInstr
    split
    · split <;> rfl
    · rfl
  rw [← heffect]
  exact .one (isPlain_variable ..) h0 (by omega)

theorem effect_wordInstr (op : BinaryOp) : effect (wordInstr op) = -4 := by
  cases op <;> rfl

theorem leads_word (op : BinaryOp) (h0 : 0 ≤ h) : Leads out (h + 8) [wordInstr op] (h + 4) := by
  have h1 : Leads out (h + 8) [wordInstr op] (h + 8 + effect (wordInstr op)) :=
    .one (isPlain_of_isMove (isMove_word op)) (by omega) (by rw [effect_wordInstr]; omega)
  rw [effect_wordInstr] at h1
  rw [show h + 4 = h + 8 + -4 by omega]
  exact h1

end Emission

/-! ### Expressions -/

/-- What is left on the stack, in bytes. -/
def Mode.span (mode : Mode) (t : Ty) : Nat :=
  match mode with
  | .value => t.size
  | .address => Ty.wordSize

namespace Expr

/-- **The code of an expression moves the top of the stack** as far as what is wanted takes. -/
def Rises (cx : Context) (scope : View Symbol) (mode : Mode) (e : Expr) : Prop :=
  ∀ (out : String → Int → Prop) (h : Int) (n : Nat), 0 ≤ h →
    (e.outline cx scope mode n).Climbs cx.types out h (h + mode.span (e.type cx.types))

section Rises

variable {cx : Context} {scope : View Symbol} {mode : Mode} {out : String → Int → Prop}
  {h : Int} {n : Nat}

/-- What is in the piece of an expression decides how far its code moves the top of the stack. -/
theorem climbs_piece {e : Expr} {o : Outline} {t : Ty} (ht : cx.types.get? e.id = some t)
    (ho : o.Climbs cx.types out h (h + mode.span t)) :
    (Outline.piece (.expression mode scope e) o).Climbs cx.types out h
      (h + mode.span (e.type cx.types)) := by
  have htype : e.type cx.types = t := TypeTable.typeOf_eq ht
  have hspan : h + mode.span t - h = mode.span t := by omega
  rw [htype]
  refine ho.piece ?_
  rw [hspan]
  cases mode with
  | value => exact congrArg (fun t : Ty => (t.size : Int)) htype.symm
  | address => rfl

theorem Rises.value {e : Expr} {t : Ty} (he : e.Rises cx scope .value)
    (ht : cx.types.get? e.id = some t) (h0 : 0 ≤ h) :
    (e.outline cx scope .value n).Climbs cx.types out h (h + t.size) := by
  have hc := he out h n h0
  rwa [Expr.type, TypeTable.typeOf_eq ht] at hc

theorem Rises.address {e : Expr} (he : e.Rises cx scope .address) (h0 : 0 ≤ h) :
    (e.outline cx scope .address n).Climbs cx.types out h (h + 4) := he out h n h0

theorem climbs_ofCode {is : List Instr} {h' : Int} (hl : Leads out h is h') :
    (Outline.ofCode is).Climbs cx.types out h h' := .ofCode hl.1 hl.2

variable {Γ : Names}

/-! ### Literals, places and memory -/

theorem rises_pointerIndex {site : Site} {b i : Expr}
    (ht : (pointerIndex site b i).Typed Ty.Sound cx.types Γ) (hb : b.Rises cx scope .value)
    (hi : i.Rises cx scope .value) :
    (pointerIndex site b i).Rises cx scope .address := by
  intro out h n h0
  obtain ⟨-, hit, t, ⟨hbt, -⟩, -, hs⟩ := ht
  rw [outline]
  refine climbs_piece hs (((hb.value hbt h0).append (hi.value hit ?_)).append (climbs_ofCode ?_))
  · simp [Ty.size]
    omega
  · simp [InOrder, effect, Ty.size, Ty.wordSize, Mode.span]
    omega

theorem rises_tupleIndex {site : Site} {b : Expr} {i : Int32}
    (ht : (tupleIndex site b i).Typed Ty.Sound cx.types Γ) (hb : b.Rises cx scope .address) :
    (tupleIndex site b i).Rises cx scope .address := by
  intro out h n h0
  obtain ⟨-, ts, t, -, -, hs⟩ := ht
  rw [outline]
  exact climbs_piece hs ((hb.address h0).append (climbs_ofCode (leads_offset _ h0)))

theorem rises_rvalue (hΓ : View.Settled Ty.Sound Γ) {site : Site} {p : Expr}
    (ht : (rvalue site p).Typed Ty.Sound cx.types Γ) (hw : p.isPlace = true)
    (hm : (rvalue site p).leaves cx.types mode = mode) (hp : p.Rises cx scope .address) :
    (rvalue site p).Rises cx scope mode := by
  intro out h n h0
  obtain ⟨hpt, t, ⟨hpt', hsound⟩, hs⟩ := ht
  have hv : t ≠ .void := hpt.ne_void_of_isPlace (fun h => h.full.ne_void) hΓ hpt' hw
  have htype : cx.types.typeOf site.id = t := TypeTable.typeOf_eq hs
  rw [leaves, htype] at hm
  rw [outline, htype]
  refine climbs_piece hs ((hp.address h0).append (climbs_ofCode ?_))
  cases t with
  | tuple ts =>
    cases mode with
    | address => exact .nil (by omega)
    | value =>
      refine Leads.append (m := h) ?_ (leads_load _ (hsound.solid hv) h0)
      simp [InOrder, effect]
      omega
  | void => exact absurd rfl hv
  | auto => cases hsound.1
  | _ =>
    simp only [Ty.isTuple, Bool.false_eq_true, and_false, if_false] at hm
    subst hm
    simp [readInstrs, InOrder, effect, Mode.span, Ty.size, Ty.wordSize, Ty.doubleSize]
    omega

theorem rises_input {site : Site} (ht : (input site).Typed Ty.Sound cx.types Γ) :
    (input site).Rises cx scope .value := by
  intro out h n h0
  rw [outline]
  rcases ht with ht | ht
  all_goals
    rw [TypeTable.typeOf_eq ht]
    refine climbs_piece ht (climbs_ofCode ?_)
    simp [inputInstrs, InOrder, effect, Mode.span, Ty.size, Ty.wordSize, Ty.doubleSize]
    omega

theorem rises_assignment (hΓ : View.Settled Ty.Sound Γ) {site : Site} {p v : Expr}
    (ht : (assignment site p v).Typed Ty.Sound cx.types Γ) (hw : p.isPlace = true)
    (hp : p.Rises cx scope .address) (hv : v.Rises cx scope .value) :
    (assignment site p v).Rises cx scope .value := by
  intro out h n h0
  obtain ⟨⟨hpt, -⟩, t, u, ⟨hpt', hsound⟩, hvt, ⟨htt, hut⟩, hf, hs⟩ := ht
  have hscalar : t.Scalar :=
    ⟨htt, hpt.ne_void_of_isPlace (fun h => h.full.ne_void) hΓ hpt' hw, fun ha =>
      by rw [ha] at hsound; cases hsound.1⟩
  have htype : cx.types.typeOf site.id = t := TypeTable.typeOf_eq hs
  have hvtype : v.type cx.types = u := TypeTable.typeOf_eq hvt
  rw [outline, htype, hvtype]
  have hdup : Leads out (h + t.size) [if t = .double then .dupDouble else .dupInt]
      (h + t.size + t.size) := by
    refine hscalar.choice (motive := fun n x => Leads out (h + n) [x] (h + n + n)) ?_ ?_
    all_goals
      simp [InOrder, effect, Ty.doubleSize, Ty.wordSize]
      omega
  have hstore :
      Leads out (h + t.size + t.size + 4) [if t = .double then .storeDouble else .storeInt]
      (h + t.size) := by
    refine hscalar.choice (motive := fun n x => Leads out (h + n + n + 4) [x] (h + n)) ?_ ?_
    all_goals
      simp [InOrder, effect, Ty.doubleSize, Ty.wordSize]
      omega
  exact climbs_piece hs (((((hv.value hvt h0).append
    (climbs_ofCode (leads_widen_fits hscalar (Ty.isPlural_of_isTuple hut) hf h0))).append
    (climbs_ofCode hdup)).append (hp.address (by omega))).append (climbs_ofCode hstore))

/-! ### Operators -/

theorem rises_unary {site : Site} {op : UnaryOp} {a : Expr}
    (ht : (unary site op a).Typed Ty.Sound cx.types Γ) (ha : a.Rises cx scope .value) :
    (unary site op a).Rises cx scope .value := by
  intro out h n h0
  obtain ⟨-, t, ⟨hat, -⟩, hop, hs⟩ := ht
  rw [outline, TypeTable.typeOf_eq hs]
  refine climbs_piece hs ((ha.value hat h0).append (climbs_ofCode ?_))
  cases op with
  | neg => by_cases hd : t = .double <;> simp [unaryTail, hd, InOrder, effect, Mode.span] <;> omega
  | identity => exact .nil (by omega)
  | not =>
    simp [unaryTail, InOrder, effect, Mode.span]
    omega

/-- The second operand of a connective is jumped over at the height at which its code and the
operator would have left the stack. -/
theorem climbs_shortCircuit {op : BinaryOp} {l r : Expr} {m : Nat}
    (hl : ∀ {out h n}, 0 ≤ h → (l.outline cx scope .value n).Climbs cx.types out h (h + 4))
    (hr : ∀ {out h n}, 0 ≤ h → (r.outline cx scope .value n).Climbs cx.types out h (h + 4))
    (h0 : 0 ≤ h) (k : Nat) :
    (l.outline cx scope .value n ++ .ofCode [.dupInt, decidedJump op (labelName k)] ++
      r.outline cx scope .value m ++
        .ofCode [wordInstr op, .label (labelName k)]).Climbs cx.types out h (h + 4) := by
  have hjump : Leads (fun lab i => lab = labelName k ∧ i = h + 4) (h + 4)
      [.dupInt, decidedJump op (labelName k)] (h + 4) := by
    refine ⟨⟨by omega, trivial, ?_⟩, ?_⟩
    · rcases decidedJump_eq op (labelName k) with hd | hd <;> rw [hd] <;>
        refine ⟨?_, ⟨⟨k, rfl⟩, rfl, by simp [effect]⟩, ?_⟩ <;>
        simp [effect, Emission.Balanced] <;> omega
    · rcases decidedJump_eq op (labelName k) with hd | hd <;> rw [hd] <;> simp [rise, effect]
  have hlast : Leads (fun lab i => lab = labelName k ∧ i = h + 4) (h + 4 + 4)
      [wordInstr op, .label (labelName k)] (h + 4) := by
    rw [show h + 4 + 4 = h + 8 by omega]
    refine (leads_word op h0).append (b := [.label (labelName k)]) ?_
    simp [InOrder, effect]
    omega
  have hall :=
    (((hl (n := n) h0).append (climbs_ofCode hjump)).append (hr (n := m) (by omega))).append
    (climbs_ofCode hlast)
  refine hall.close fun lab i hi => .inr ?_
  obtain ⟨rfl, rfl⟩ := hi
  exact hall.places_last rfl

/-- Pointers and what they are compared to take a word each. -/
theorem leads_comparison {op : BinaryOp} {w : Ty} (hw : w.IsNumber) (h0 : 0 ≤ h) :
    Leads out (h + w.size + w.size)
      ((if w = .double then [.compareDouble, .int 0] else []) ++ [wordInstr op]) (h + 4) := by
  rcases hw with rfl | rfl
  · refine Leads.append (m := h + 8) ?_ (leads_word op h0)
    simp [Ty.size, Ty.wordSize]
    omega
  · refine Leads.append (m := h + 8) ?_ (leads_word op h0)
    simp [InOrder, effect, Ty.size, Ty.doubleSize]
    omega

theorem leads_arithmetic {op : BinaryOp} {t : Ty}
    (ht : op.IsArithmetic ∧ t = .double ∨ t = .int) (h0 : 0 ≤ h) :
    Leads out (h + t.size + t.size) [arithmeticInstr op t] (h + t.size) := by
  rcases ht with ⟨hop, rfl⟩ | rfl
  · rcases hop with rfl | rfl | rfl | rfl <;>
      simp [arithmeticInstr, InOrder, effect, Ty.size, Ty.doubleSize] <;> omega
  · rw [show h + Ty.int.size + Ty.int.size = h + 8 by simp [Ty.size, Ty.wordSize]; omega]
    exact leads_word op h0

/-- The pairs of numbers to which an operator is applied. -/
theorem widened {t u : Ty} (ht : t.IsNumber) (hu : u.IsNumber) :
    (t.common u = .double ∨ t.common u = .int ∧ t = .int) ∧
    (t.common u = .double ∨ t.common u = .int ∧ u = .int) := by
  rcases ht with rfl | rfl <;> rcases hu with rfl | rfl <;> simp [Ty.common]

theorem rises_binary {site : Site} {op : BinaryOp} {l r : Expr}
    (ht : (binary site op l r).Typed Ty.Sound cx.types Γ) (hl : l.Rises cx scope .value)
    (hr : r.Rises cx scope .value) : (binary site op l r).Rises cx scope .value := by
  intro out h n h0
  obtain ⟨-, t, u, v, ⟨hlt, -⟩, ⟨hrt, -⟩, hv, hs⟩ := ht
  have hoperands := BinaryOp.operands_of_resultType hv
  unfold outline
  refine climbs_piece hs ?_
  have hltype : l.type cx.types = t := TypeTable.typeOf_eq hlt
  have hrtype : r.type cx.types = u := TypeTable.typeOf_eq hrt
  simp only [hltype, hrtype, TypeTable.typeOf_eq hs]
  have hl : ∀ {out h n}, 0 ≤ h → (l.outline cx scope .value n).Climbs cx.types out h (h + t.size) :=
    fun h0 => hl.value hlt h0
  have hr : ∀ {out h n}, 0 ≤ h → (r.outline cx scope .value n).Climbs cx.types out h (h + u.size) :=
    fun h0 => hr.value hrt h0
  clear hv hs hlt hrt hltype hrtype
  generalize binaryForm op t u = form at hoperands
  cases hoperands with
  | connective => exact climbs_shortCircuit hl hr h0 _
  | move =>
    refine ((hl h0).append (hr ?_)).append (climbs_ofCode ?_)
    · omega
    · refine Leads.append (a := [.int _, .mul]) (m := h + 8) ?_ (leads_word op h0)
      simp [InOrder, effect, Ty.size, Ty.wordSize]
      omega
  | distance =>
    refine ((hl h0).append (hr ?_)).append (climbs_ofCode ?_)
    · omega
    · simp [pointerTail, Ty.isPointer, InOrder, effect, Ty.size, Ty.wordSize, Mode.span]
      omega
  | compute hop htn hun =>
    obtain ⟨hwt, hwu⟩ := widened htn hun
    exact (((((hl h0).append (climbs_ofCode (leads_widen htn hwt h0))).append
      (hr (by omega))).append
      (climbs_ofCode (leads_widen hun hwu (by omega)))).append
      (climbs_ofCode (leads_arithmetic ((htn.common hun).symm.imp_left (⟨hop, ·⟩)) h0)))
  | remainder =>
    exact (((((hl h0).append (climbs_ofCode (leads_widen (.inl rfl) (.inr ⟨rfl, rfl⟩) h0))).append
      (hr (by omega))).append (climbs_ofCode (leads_widen (.inl rfl) (.inr ⟨rfl, rfl⟩)
        (by omega)))).append
      (climbs_ofCode (leads_arithmetic (.inr rfl) h0)))
  | compare hop htn hun =>
    obtain ⟨hwt, hwu⟩ := widened htn hun
    exact (((((hl h0).append (climbs_ofCode (leads_widen htn hwt h0))).append
      (hr (by omega))).append
      (climbs_ofCode (leads_widen hun hwu (by omega)))).append
      (climbs_ofCode (leads_comparison (htn.common hun) h0)))
  | same =>
    refine ((((hl h0).append (climbs_ofCode (.nil ?_))).append (hr ?_)).append
      (climbs_ofCode (.nil ?_))).append
      (climbs_ofCode (leads_comparison (w := .int) (.inl rfl) h0))
    all_goals
      simp [Ty.size]
      omega

/-! ### Tuples and calls -/

/-- The elements of a tuple are pushed and moved away one after the other. -/
theorem climbs_slot (slot : Int) {es : List Expr} {ts : List Ty} {byte : Nat}
    (hts : List.Forall₂ (fun e t => ∃ u, cx.types.get? (Expr.id e) = some u ∧ u = t ∧ Ty.Sound t ∧
      t ≠ .void) es ts)
    (hes : ∀ e ∈ es, e.Rises cx scope .value) (h0 : 0 ≤ h) :
    (slotOutline cx scope slot n es ts byte).Climbs cx.types out h h := by
  induction hts generalizing n byte with
  | nil =>
    unfold slotOutline
    exact .done h0
  | @cons e t es ts he _ ih =>
    obtain ⟨_, ht, rfl, hsound, hv⟩ := he
    rw [List.forall_mem_cons] at hes
    have htype : e.type cx.types = _ := TypeTable.typeOf_eq ht
    have hfits := Ty.fits_refl (Ty.leavesKnown_of_containsAuto hsound.1)
    rw [slotOutline, htype]
    exact (((hes.1.value ht h0).append (climbs_ofCode
      (leads_store (fun n h h0 => leads_base (.frame slot) n h0)
        (hsound.solid hv) hfits h0))).append (ih hes.2))

/-- The elements of a tuple are pushed one after the other. -/
theorem climbs_reverse {es : List Expr} {ts : List Ty}
    (hts : List.Forall₂ (fun e t => ∃ u, cx.types.get? (Expr.id e) = some u ∧ u = t ∧ Ty.Sound t ∧
      t ≠ .void) es ts)
    (hes : ∀ e ∈ es, e.Rises cx scope .value) (h0 : 0 ≤ h) :
    (reverseOutline cx scope n es).Climbs cx.types out h (h + Ty.sizeOfAll ts) := by
  induction hts with
  | nil => simpa [reverseOutline, Ty.sizeOfAll] using Outline.Climbs.done h0
  | @cons e t es ts he _ ih =>
    obtain ⟨_, ht, rfl, -, -⟩ := he
    rw [List.forall_mem_cons] at hes
    rw [reverseOutline, Ty.sizeOfAll, Int.natCast_add,
      Int.add_comm (Ty.size _ : Int), ← Int.add_assoc]
    exact (ih hes.2).append (hes.1.value ht (by omega))

/-- The arguments of a call are pushed one after the other, each as its parameter wants it. -/
theorem climbs_arguments {args : List Expr} {ps : List Ty}
    (hps : List.Forall₂ (fun a p => ∃ u, cx.types.get? (Expr.id a) = some u ∧ Ty.Fits p u) args ps)
    (hscalar : ∀ p ∈ ps, p.Scalar) (hplural : ∀ e ∈ args, (e.type cx.types).IsPlural)
    (hargs : ∀ e ∈ args, e.Rises cx scope .value) (h0 : 0 ≤ h) :
    (argumentsOutline cx scope n args ps).Climbs cx.types out h (h + Ty.sizeOfAll ps) := by
  induction hps with
  | nil =>
    unfold argumentsOutline
    simpa [Ty.sizeOfAll] using Outline.Climbs.done h0
  | @cons e p es ps he _ ih =>
    obtain ⟨u, hu, hf⟩ := he
    rw [List.forall_mem_cons] at hargs hscalar hplural
    have htype : e.type cx.types = u := TypeTable.typeOf_eq hu
    rw [htype] at hplural
    rw [argumentsOutline, htype, Ty.sizeOfAll, Int.natCast_add,
      Int.add_comm (p.size : Int), ← Int.add_assoc]
    have hsize : (0 : Int) ≤ h + Ty.sizeOfAll ps := by omega
    exact ((ih hscalar.2 hplural.2 hargs.2).append (hargs.1.value hu hsize)).append
      (climbs_ofCode (leads_widen_fits hscalar.1 hplural.1 hf hsize))

theorem leads_call {t : Ty} (ht : t.Sound) {label : String} {area : Int} {bytes : Nat}
    (hm : (if mode = .address ∧ t.isTuple = true then Mode.address else .value) = mode)
    (h0 : 0 ≤ h) :
    Leads out (h + bytes) (callInstrs area label t bytes mode) (h + mode.span t) := by
  have htrash : Leads out (h + bytes) (trashInstrs bytes) h := leads_trash bytes h0
  have hcall : Leads out (h + bytes) [.call label] (h + bytes) := by
    simp [InOrder, effect]
    omega
  have hresult : ∀ i : Instr, isPlain i = true → 0 ≤ effect i → Leads out h [i] (h + effect i) :=
    fun i hi he => .one hi h0 (by omega)
  cases t with
  | tuple ts =>
    have hstart : Leads out (h + bytes)
        ([.frameAddress area, .call label] ++ trashInstrs (bytes + Ty.wordSize)) h := by
      refine Leads.append (m := h + (bytes + Ty.wordSize : Nat)) ?_ (leads_trash _ h0)
      simp [InOrder, effect, Ty.wordSize]
      omega
    cases mode with
    | address => exact hstart.append (hresult _ rfl (by simp [effect]))
    | value => exact hstart.append (leads_load _ (ht.solid (by simp)) h0)
  | auto => cases ht.1
  | void =>
    simp only [Ty.isTuple, Bool.false_eq_true, and_false, if_false] at hm
    subst hm
    simpa [callInstrs, Mode.span, Ty.size] using hcall.append htrash
  | double =>
    simp only [Ty.isTuple, Bool.false_eq_true, and_false, if_false] at hm
    subst hm
    exact (hcall.append htrash).append (hresult _ rfl (by simp [effect]))
  | int | string | pointer =>
    simp only [Ty.isTuple, Bool.false_eq_true, and_false, if_false] at hm
    subst hm
    exact (hcall.append htrash).append (hresult _ rfl (by simp [effect]))

/-- The parameters of a function that is called are those that its name stands for. -/
theorem calleeParameters_eq {name : String} {ps : List Ty}
    (h : scope.meanings name = some (.function ps)) :
    calleeParameters scope name = ps := by
  obtain ⟨sym, hscope, hmeaning⟩ := Option.map_eq_some_iff.mp h
  rw [calleeParameters, hscope]
  unfold Symbol.meaning at hmeaning
  simp only [Symbol.parameters]
  split at hmeaning
  · cases hmeaning
  · rename_i heq
    cases hmeaning
    rw [heq, Option.getD_some]

theorem rises_call (hΓ : View.Settled Ty.Sound scope.meanings) {site : Site} {name : String}
    {args : List Expr} (ht : (call site name args).Typed Ty.Sound cx.types scope.meanings)
    (hm : (call site name args).leaves cx.types mode = mode)
    (hargs : ∀ e ∈ args, e.Rises cx scope .value) :
    (call site name args).Rises cx scope mode := by
  intro out h n h0
  obtain ⟨hall, ps, t, hname, hps, ⟨-, hsound⟩, hs⟩ := ht
  have hscalar : ∀ p ∈ ps, p.Scalar := by
    intro p hp
    obtain ⟨hsound, htuple, hv⟩ := hΓ _ _ hname p hp
    exact ⟨htuple, hv, fun ha => by rw [ha] at hsound; cases hsound.1⟩
  have hplural : ∀ e ∈ args, (e.type cx.types).IsPlural := by
    intro e he
    obtain ⟨u, hu, hp⟩ := (allTyped_iff.mp hall e he).exists_type Ty.stable_sound hΓ
    rw [Expr.type, TypeTable.typeOf_eq hu]
    rcases hp with hp | ⟨v, rfl⟩
    · exact hp.2.isPlural
    · trivial
  have htype : cx.types.typeOf site.id = t := TypeTable.typeOf_eq hs
  rw [leaves, htype] at hm
  rw [outline, htype, calleeParameters_eq hname]
  exact climbs_piece hs ((climbs_arguments hps hscalar hplural hargs h0).append
    (climbs_ofCode (leads_call hsound hm h0)))

mutual

/-- **The code of a typed expression leaves what is wanted on the stack**, and nothing else. -/
theorem rises (hΓ : View.Settled Ty.Sound scope.meanings) : ∀ {e : Expr} {mode : Mode},
    e.Typed Ty.Sound cx.types scope.meanings → e.WellPlaced → e.leaves cx.types mode = mode →
    e.Rises cx scope mode
  | .integer .., .value, ht, _, _ | .double .., .value, ht, _, _
  | .nullptr _, .value, ht, _, _ => by
    intro out h n h0
    rw [outline]
    refine climbs_piece ht (climbs_ofCode ?_)
    simp [InOrder, effect, Mode.span, Ty.size, Ty.genericPointer, Ty.wordSize, Ty.doubleSize]
    omega
  | .sizeof .., .value, ht, _, _ => by
    intro out h n h0
    rw [outline]
    refine climbs_piece ht.2 (climbs_ofCode ?_)
    simp [InOrder, effect, Mode.span, Ty.size, Ty.wordSize]
    omega
  | .string s x, .value, ht, _, _ => by
    intro out h n h0
    rw [outline]
    refine climbs_piece ht ((climbs_ofCode ?_).piece trivial)
    simp [textInstrs, InOrder, effect, Mode.span, Ty.size, Ty.wordSize]
    omega
  | .input _, .value, ht, _, _ => rises_input ht
  | .variable s name, .address, ht, _, _ => by
    intro out h n h0
    obtain ⟨t, -, hs⟩ := ht
    rw [outline]
    exact climbs_piece hs (climbs_ofCode (leads_variable _ _ _ h0))
  | .pointerIndex _ b i, .address, ht, hw, _ =>
    rises_pointerIndex ht (rises hΓ ht.1.1 hw.1.2 (leaves_value hw.1))
      (rises hΓ ht.1.2 hw.2.2 (leaves_value hw.2))
  | .tupleIndex _ b _, .address, ht, hw, _ => by
    obtain ⟨ts, t, ⟨hb, -⟩, -⟩ := ht.2
    exact rises_tupleIndex ht (rises hΓ ht.1 hw (leaves_address ht.1 hb))
  | .rvalue _ p, mode, ht, hw, hm =>
    rises_rvalue hΓ ht hw.1 hm (rises hΓ ht.1 hw.2 (leaves_of_isPlace hw.1 _))
  | .assignment _ p v, .value, ht, hw, _ =>
    rises_assignment hΓ ht hw.1.1 (rises hΓ ht.1.1 hw.1.2 (leaves_of_isPlace hw.1.1 _))
      (rises hΓ ht.1.2 hw.2.2 (leaves_value hw.2))
  | .unary _ _ a, .value, ht, hw, _ => rises_unary ht (rises hΓ ht.1 hw.2 (leaves_value hw))
  | .binary _ _ l r, .value, ht, hw, _ =>
    rises_binary ht (rises hΓ ht.1.1 hw.1.2 (leaves_value hw.1))
      (rises hΓ ht.1.2 hw.2.2 (leaves_value hw.2))
  | .addressOf _ p, .value, ht, hw, _ => by
    intro out h n h0
    obtain ⟨hp, t, -, hs⟩ := ht
    rw [outline]
    exact climbs_piece hs ((rises hΓ hp hw.2 (leaves_of_isPlace hw.1 _)).address h0)
  | .stackAlloc _ count, .value, ht, hw, _ => by
    intro out h n h0
    obtain ⟨hc, hct, t, hs⟩ := ht
    rw [outline]
    refine climbs_piece hs
      (((rises hΓ hc hw.2 (leaves_value hw)).value hct h0).append (climbs_ofCode ?_))
    simp [InOrder, effect, Mode.span, Ty.size, Ty.wordSize]
    omega
  | .tuple _ [e], mode, ht, hw, hm => by
    intro out h n h0
    obtain ⟨⟨he, -⟩, us, -, hus, hs⟩ := ht
    match us, hus with
    | [u], .cons ⟨_, hu, rfl, _⟩ .nil =>
      rw [leaves] at hm
      have hin := rises hΓ he hw.1.2 hm out h n h0
      rw [Expr.type, TypeTable.typeOf_eq hu] at hin
      rw [outline]
      exact climbs_piece hs hin
  | .tuple _ [], mode, ht, _, _ => by
    obtain ⟨-, us, hne, hus, -⟩ := ht
    cases hus
    exact absurd rfl hne
  | .tuple site (a :: b :: es), mode, ht, hw, _ => by
    intro out h n h0
    have hes := allRise hΓ ht.1 hw
    obtain ⟨-, us, -, hus, hs⟩ := ht
    have hs : cx.types.get? site.id = some (.tuple us) := by
      match us, hus with
      | _ :: _ :: _, _ => exact hs
    have htype : cx.types.typeOf site.id = .tuple us := TypeTable.typeOf_eq hs
    cases mode with
    | value =>
      rw [outline]
      · exact climbs_piece hs (climbs_reverse hus hes h0)
      · simp
    | address =>
      rw [outline, htype]
      · refine climbs_piece hs ((climbs_slot _ hus hes h0).append (climbs_ofCode (.one rfl h0 ?_)))
        simp [effect]
        omega
      · simp
  | .call _ _ args, mode, ht, hw, hm => rises_call hΓ ht hm (allRise hΓ ht.1 hw)
  | .integer .., .address, _, _, hm | .double .., .address, _, _, hm
  | .string .., .address, _, _, hm | .nullptr _, .address, _, _, hm | .input _, .address, _, _, hm
  | .assignment .., .address, _, _, hm | .unary .., .address, _, _, hm
  | .binary .., .address, _, _, hm | .addressOf .., .address, _, _, hm
  | .stackAlloc .., .address, _, _, hm | .sizeof .., .address, _, _, hm
  | .variable .., .value, _, _, hm | .pointerIndex .., .value, _, _, hm
  | .tupleIndex .., .value, _, _, hm => by cases hm

/-- As `rises`, for several expressions whose values are wanted. -/
theorem allRise (hΓ : View.Settled Ty.Sound scope.meanings) : ∀ {es : List Expr},
    AllTyped Ty.Sound cx.types scope.meanings es → AllValues es → ∀ e ∈ es, e.Rises cx scope .value
  | [], _, _ => by simp
  | e :: es, ht, hw =>
    List.forall_mem_cons.mpr ⟨rises hΓ ht.1 hw.1.2 (leaves_value hw.1), allRise hΓ ht.2 hw.2⟩

end

end Rises

end Expr

end PostfixCompiler
