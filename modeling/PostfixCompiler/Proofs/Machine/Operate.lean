import PostfixCompiler.Proofs.Machine.Evaluate
import PostfixCompiler.Proofs.Machine.Transfer

/-!
# Operators on the stack

The code of an operator starts where its operands have been pushed, one above the other, and leaves
its result in their place. What the operands are is read off their types: two words, or two doubles.

## Main definitions

* `PostfixCompiler.Machine.Store.Operand`, `PostfixCompiler.Machine.Store.Operands`: an operand is
  on the stack, or two are.

## Main statements

* `PostfixCompiler.Machine.Store.Operands.word`, `PostfixCompiler.Machine.Store.Operands.real`: two
  operands are replaced by a result.
* `PostfixCompiler.Machine.acts_widen`: a number is widened.
* `PostfixCompiler.Machine.acts_unary`, `PostfixCompiler.Machine.acts_pointer`,
  `PostfixCompiler.Machine.acts_comparison`: the code behind operands.
-/

namespace PostfixCompiler

open Emission

namespace Machine

variable {M : Machine} {fp : Int} {s s₁ s₂ : M.Store} {W W' : Int → Prop}

/-- The type of a word that is an integer. -/
theorem scalar_int : Ty.int.Scalar := ⟨rfl, by simp, by simp⟩

theorem scalar_double : Ty.double.Scalar := ⟨rfl, by simp, by simp⟩

theorem scalar_pointer (t : Ty) : (Ty.pointer t).Scalar := ⟨rfl, by simp, by simp⟩

/-! ### Operands -/

/-- **An operand is on the stack**: a word, or a double. -/
structure Store.Operand {V : Type} {k : Nat} (s t : M.Store) (W : Int → Prop)
    (c : Codec M.Byte V k) (x : V) : Prop where
  /-- It is all that was pushed. -/
  sp : t.sp + k = s.sp
  /-- It is on top. -/
  top : t.top c = x
  /-- Only some bytes may change. -/
  changes : Changes W s.memory t.memory

theorem Store.Operand.mono {V : Type} {k : Nat} {c : Codec M.Byte V k} {x : V}
    (h : s.Operand s₁ W c x) (hW : ∀ a, W a → W' a) : s.Operand s₁ W' c x :=
  ⟨h.sp, h.top, h.changes.mono hW⟩

theorem Store.Gains.operand_word {t : Ty} {x : M.Word} (h : s.Gains s₁ W t (.word x))
    (ht : t.Scalar) :
    s.Operand s₁ W M.word x :=
  ⟨(h.top_word ht).2, (h.top_word ht).1, h.changes⟩

theorem Store.Gains.operand_real {x : M.Real} (h : s.Gains s₁ W .double (.real x)) :
    s.Operand s₁ W M.real x :=
  ⟨(h.top_real scalar_double).2, (h.top_real scalar_double).1, h.changes⟩

/-- **Two operands are on the stack**, one above the other. -/
structure Store.Operands {V : Type} {k : Nat} (s t : M.Store) (W : Int → Prop)
    (c : Codec M.Byte V k) (x y : V) : Prop where
  /-- They are all that was pushed. -/
  sp : t.sp + k + k = s.sp
  /-- The second one is on top. -/
  upper : t.top c = y
  /-- The first one is below it. -/
  lower : (t.drop k).top c = x
  /-- Only some bytes may change. -/
  changes : Changes W s.memory t.memory

section Operands

variable {V : Type} {k : Nat} {c : Codec M.Byte V k} {x y : V}

/-- **An operand stays where it is while the other one is computed.** -/
theorem Store.Operand.and (h₁ : s.Operand s₁ W c x) (h₂ : s₁.Operand s₂ W' c y)
    (hW' : ∀ a, W' a → W a) (hkept : ∀ a, s₁.sp ≤ a → a < s.sp → ¬W' a) :
    s.Operands s₂ W c x y := by
  have hsp₁ := h₁.sp
  have hsp₂ := h₂.sp
  refine ⟨by omega, h₂.top, ?_, h₁.changes.trans (h₂.changes.mono hW')⟩
  rw [← h₁.top]
  unfold Store.top
  rw [Store.sp_drop, hsp₂]
  exact c.get_congr fun a ha ha' => h₂.changes a (hkept a ha (by omega))

/-- **Two operands are replaced by a word.** -/
theorem Store.Operands.word (h : s.Operands s₂ W c x y) (hW : ∀ a, Below s.sp 8 a → W a)
    (f : V → V → M.Word) {t : Ty} (ht : t.Scalar) (hd : t ≠ .double) :
    s.Gains (s₂.combine c M.word f) W t (.word (f x y)) := by
  have hdropped : ((s₂.drop k).drop k).sp = s.sp := h.sp
  rw [Store.combine, h.upper, h.lower]
  refine ((gains_word ht hd _).mono fun a ha => hW a ?_).after hdropped h.changes
  unfold Below at ha ⊢
  rw [hdropped] at ha
  simp only [Ty.wordSize] at ha
  omega

/-- **Two operands are replaced by a double.** -/
theorem Store.Operands.real (h : s.Operands s₂ W c x y) (hW : ∀ a, Below s.sp 8 a → W a)
    (f : V → V → M.Real) :
    s.Gains (s₂.combine c M.real f) W .double (.real (f x y)) := by
  have hdropped : ((s₂.drop k).drop k).sp = s.sp := h.sp
  rw [Store.combine, h.upper, h.lower]
  refine ((gains_real _).mono fun a ha => hW a ?_).after hdropped h.changes
  unfold Below at ha ⊢
  rw [hdropped] at ha
  simp only [Ty.doubleSize] at ha
  omega

end Operands

/-- A word is pushed above another one. -/
theorem Store.Gains.push_word {t : Ty} {x : M.Word} (ht : t.Scalar) (h : s.Gains s₁ W t (.word x))
    (hW : ∀ a, Below s.sp 8 a → W a) (y : M.Word) : s.Operands (s₁.push M.word y) W M.word x y := by
  have hsp := (h.top_word ht).2
  refine (h.operand_word ht).and ((gains_word scalar_int (by simp) y).operand_word scalar_int)
    (fun a ha => hW a ?_)
    fun a ha _ hb => ?_
  · unfold Below at ha ⊢
    simp only [Ty.wordSize] at ha hsp
    omega
  · have := hb.2
    omega

/-- A word on top is all that there is above what is below it. -/
theorem gains_top (s : M.Store) (W : Int → Prop) :
    (s.drop Ty.wordSize).Gains s W .int (.word (s.top M.word)) := by
  refine ⟨rfl, ?_, .refl _ _⟩
  rw [read_word scalar_int (by simp)]
  rfl

/-- **An offset is added to an address** on top. -/
theorem acts_shifted (fp : Int) (s : M.Store) (n : Nat) :
    ∃ s', M.acts fp s (offsetInstrs n) = some s' ∧
    (s.drop Ty.wordSize).Gains s' (Below (s.sp + Ty.wordSize) 8) .int
      (.word (M.shifted (s.top M.word) n)) := by
  have hkept := gains_top s (Below (s.sp + Ty.wordSize) 8)
  by_cases hzero : n = 0
  · subst hzero
    exact ⟨s, rfl, hkept⟩
  · have hadded :=
      (hkept.push_word scalar_int (fun a ha => ha) (M.ofInt n)).word (fun a ha => ha) (M.words .add)
      scalar_int (by simp)
    refine ⟨_, ?_, by rwa [shifted, if_neg hzero]⟩
    rw [offsetInstrs, if_neg hzero, acts_cons, act, Option.bind_some, acts_cons, act,
      Option.bind_some, acts_nil]

/-- The address of a byte further is a word, if the addresses are. -/
theorem shifted_ofInt {low high : Int} (hM : M.Addresses low high) {A : Int} {n : Nat}
    (hA : low ≤ A) (hn : A + n ≤ high) :
    M.shifted (M.ofInt A) n = M.ofInt (A + n) := by
  by_cases hzero : n = 0
  · rw [shifted, if_pos hzero, hzero, Int.natCast_zero, Int.add_zero]
  · rw [shifted, if_neg hzero, hM.add A n hA hn]

/-- An operand of two is scaled. -/
theorem Store.Operands.scale (fp : Int) {a b : M.Word} (h : s.Operands s₂ W M.word a b)
    (hW : ∀ a, Below s.sp 12 a → W a) (size : Nat) : M.acts fp s₂ [.int size, .mul] = some
        ((s₂.push M.word (M.ofInt size)).combine M.word M.word (M.words .mul)) ∧
      s.Operands ((s₂.push M.word (M.ofInt size)).combine M.word M.word (M.words .mul)) W M.word a
        (M.words .mul b (M.ofInt size)) := by
  have hsp := h.sp
  have hword : Ty.wordSize = 4 := rfl
  refine ⟨by simp only [acts_cons, act, Option.bind_some, acts_nil], ?_⟩
  -- The second operand is what is left of the two operands that are multiplied.
  have hkept : (s₂.drop Ty.wordSize).Gains s₂ (Below (s₂.sp + Ty.wordSize) 8) .int (.word b) :=
    h.upper ▸ gains_top s₂ _
  have hscaled := hkept.push_word scalar_int (fun a ha => ha) (M.ofInt size)
  have hgained := hscaled.word (fun a ha => ha) (M.words .mul) scalar_int (by simp)
  obtain ⟨htop, hdropped⟩ := hgained.top_word scalar_int
  have hdropped :
      ((s₂.push M.word (M.ofInt size)).combine M.word M.word (M.words .mul)).sp + Ty.wordSize =
      s₂.sp + Ty.wordSize := hdropped
  refine ⟨by omega, htop, ?_, h.changes.trans (hgained.changes.mono fun a ha => hW a ?_)⟩
  · rw [← h.lower]
    unfold Store.top
    rw [Store.sp_drop, Store.sp_drop, hdropped]
    refine M.word.get_congr fun a ha _ => hgained.changes a fun hb => ?_
    have := hb.2
    omega
  · unfold Below at ha ⊢
    omega

/-! ### The code behind operands -/

theorem acts_wordInstr (op : BinaryOp) (s : M.Store) :
    M.acts fp s [wordInstr op] = some (s.combine M.word M.word (M.words op)) := by
  cases op <;> rfl

theorem acts_arithmetic {op : BinaryOp} (h : op.IsArithmetic) (s : M.Store) :
    M.acts fp s [arithmeticInstr op .double] = some (s.combine M.real M.real (M.reals op)) := by
  rcases h with rfl | rfl | rfl | rfl <;> rfl

/-- **A number is widened** if it is an integer. -/
theorem acts_widen (fp : Int) {t : Ty} {v : M.Value} (h : s.Gains s₁ W t v) (ht : t.IsNumber)
    (hW : ∀ a, Below s.sp 8 a → W a) : ∃ d s₂, v.real? = some d ∧
      M.acts fp s₁ (widenInstrs .double t) = some s₂ ∧ s.Gains s₂ W .double (.real d) := by
  rcases ht with rfl | rfl
  · have hv : v = .word (s₁.top M.word) := h.eq_word scalar_int (by simp)
    subst hv
    have hdropped : (s₁.drop Ty.wordSize).sp = s.sp := (h.top_word scalar_int).2
    refine ⟨M.widen (s₁.top M.word), s₁.apply M.word M.real M.widen, rfl, ?_, ?_⟩
    · rw [widenInstrs, if_pos ⟨rfl, rfl⟩, acts_cons, act, Option.bind_some, acts_nil]
    · refine ((gains_real _).mono fun a ha => hW a ?_).after hdropped h.changes
      unfold Below at ha ⊢
      rw [hdropped] at ha
      simp only [Ty.doubleSize] at ha
      omega
  · have hv : v = .real (s₁.top M.real) := h.eq_real
    subst hv
    exact ⟨s₁.top M.real, s₁, rfl, by simp [widenInstrs], h⟩

/-- **The code of an operator behind its operand.** -/
theorem acts_unary (fp : Int) {op : UnaryOp} {t : Ty} {v : M.Value} (h : s.Gains s₁ W t v)
    (ht : op.accepts t = true) (hW : ∀ a, Below s.sp 8 a → W a) :
    ∃ w s₂, Machine.unary? op v = some w ∧
      M.acts fp s₁ (unaryTail op t) = some s₂ ∧ s.Gains s₂ W t w := by
  have hnumber : t.IsNumber := by
    cases op with
    | not => exact .inl (of_decide_eq_true ht)
    | neg | identity => exact Ty.isNumber_of_isNumeric ht
  rcases hnumber with rfl | rfl
  · have hv : v = .word (s₁.top M.word) := h.eq_word scalar_int (by simp)
    subst hv
    have hdropped : (s₁.drop Ty.wordSize).sp = s.sp := (h.top_word scalar_int).2
    cases op with
    | neg =>
      refine ⟨_, s₁.apply M.word M.word M.negWord, rfl, rfl, ?_⟩
      refine ((gains_word scalar_int (by simp) _).mono fun a ha => hW a ?_).after hdropped h.changes
      unfold Below at ha ⊢
      rw [hdropped] at ha
      simp only [Ty.wordSize] at ha
      omega
    | identity => exact ⟨_, s₁, rfl, rfl, h⟩
    | not =>
      exact ⟨_, _, rfl, rfl,
        (h.push_word scalar_int hW (M.ofInt 0)).word hW (M.words .eq) scalar_int (by simp)⟩
  · have hv : v = .real (s₁.top M.real) := h.eq_real
    subst hv
    have hdropped : (s₁.drop Ty.doubleSize).sp = s.sp := (h.top_real scalar_double).2
    cases op with
    | neg =>
      refine ⟨_, s₁.apply M.real M.real M.negReal, rfl, rfl, ?_⟩
      refine ((gains_real _).mono fun a ha => hW a ?_).after hdropped h.changes
      unfold Below at ha ⊢
      rw [hdropped] at ha
      simp only [Ty.doubleSize] at ha
      omega
    | identity => exact ⟨_, s₁, rfl, rfl, h⟩
    | not => cases ht

/-- **The code of a pointer operation behind its operands**: a number of steps is scaled, and the
distance of two pointers is not. -/
theorem acts_pointer (fp : Int) {op : BinaryOp} {t u v : Ty}
    (hop : BinaryOp.Operands op t u v .pointer) {a b : M.Word} (h : s.Operands s₂ W M.word a b)
    (hW : ∀ a, Below s.sp 12 a → W a) : ∃ s₃ z, M.acts fp s₂ (pointerTail op t u) = some s₃ ∧
      M.binary? op t u (.word a) (.word b) = some z ∧ s.Gains s₃ W v z := by
  have hW' : ∀ a, Below s.sp 8 a → W a := fun a ha => hW a ⟨by have := ha.1; omega, ha.2⟩
  cases hop with
  | @move op t hop =>
    obtain ⟨hacts, hscaled⟩ := h.scale fp hW (max t.size 1)
    refine ⟨_, _, ?_, rfl, hscaled.word hW' (M.words op) (scalar_pointer t) (by simp)⟩
    have hsplit : pointerTail op (.pointer t) .int =
        [.int (max t.size 1 : Nat), .mul] ++ [wordInstr op] := rfl
    rw [hsplit, acts_append, hacts, Option.bind_some, acts_wordInstr]
  | distance => exact ⟨_, _, rfl, rfl, h.word hW' (M.words .sub) scalar_int (by simp)⟩

/-- **The code of a comparison of doubles behind its operands.** -/
theorem acts_comparison (fp : Int) {x y : M.Real} (op : BinaryOp) (h : s.Operands s₂ W M.real x y)
    (hW : ∀ a, Below s.sp 8 a → W a) :
    ∃ s₃, M.acts fp s₂ ([.compareDouble, .int 0] ++ [wordInstr op]) = some s₃ ∧
      s.Gains s₃ W .int (.word (M.compared op x y)) := by
  have hcompared := h.word hW M.compare scalar_int (by simp)
  refine ⟨_, ?_, (hcompared.push_word scalar_int hW (M.ofInt 0)).word hW (M.words op)
    scalar_int (by simp)⟩
  rw [acts_append]
  exact acts_wordInstr op _

end Machine

end PostfixCompiler
