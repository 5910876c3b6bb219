import PostfixCompiler.Proofs.Machine.Step

/-!
# Values that are fetched

A value lies on the stack as it lies anywhere in memory, its first byte at the stack pointer. To
fetch a value from a place is to push its leaves, the last one first, with an address for each that
is found from a base. Here it is shown that in this way a value is fetched as a whole, and that
nothing changes but the bytes below the stack.

## Main definitions

* `PostfixCompiler.Machine.Store.Gains`: a value is left on the stack.
* `PostfixCompiler.Machine.Points`: the address that a base stands for.

## Main statements

* `PostfixCompiler.Machine.acts_load`: a value is fetched from a place.
-/

namespace PostfixCompiler

open Emission

namespace Machine

variable {M : Machine} {fp low high : Int} {s s' s₁ s₂ : M.Store} {W W' : Int → Prop}

/-! ### Values on the stack -/

/-- Some bytes right below an address. -/
def Below (top : Int) (bytes : Nat) (a : Int) : Prop := top - bytes ≤ a ∧ a < top

/-- **A value is left on the stack**, and only some bytes may change. -/
structure Store.Gains (s s' : M.Store) (W : Int → Prop) (t : Ty) (v : M.Value) : Prop where
  /-- The stack grows by the size of the value. -/
  sp : s'.sp + t.size = s.sp
  /-- The value is on top. -/
  value : M.read s'.memory s'.sp t = v
  /-- Only some bytes may change. -/
  changes : Changes W s.memory s'.memory

namespace Store.Gains

variable {t u : Ty} {v : M.Value}

theorem mono (h : s.Gains s' W t v) (hW : ∀ a, W a → W' a) : s.Gains s' W' t v :=
  ⟨h.sp, h.value, h.changes.mono hW⟩

/-- What is left on the stack depends on the leaves of the type only. -/
theorem size_le (h : s.Gains s' W t v) : s'.sp ≤ s.sp := by
  have := h.sp
  omega

/-- A word on top. -/
theorem top_word {w : M.Word} (h : s.Gains s' W t (.word w)) (ht : t.Scalar) :
    s'.top M.word = w ∧ s'.sp + Ty.wordSize = s.sp := by
  have hd : t ≠ .double := by
    rintro rfl
    have hv := h.value
    rw [read] at hv
    cases hv
  have hv := h.value
  rw [read_word ht hd] at hv
  have hsp := h.sp
  rw [ht.size_eq, if_neg hd] at hsp
  exact ⟨Value.word.inj hv, hsp⟩

/-- A double on top. -/
theorem top_real {d : M.Real} (h : s.Gains s' W t (.real d)) (ht : t.Scalar) :
    s'.top M.real = d ∧ s'.sp + Ty.doubleSize = s.sp := by
  have hd : t = .double := by
    by_contra hd
    have hv := h.value
    rw [read_word ht hd] at hv
    cases hv
  subst hd
  have hv := h.value
  rw [read] at hv
  exact ⟨Value.real.inj hv, h.sp⟩

/-- A value of the type of a word is the word on top. -/
theorem eq_word (h : s.Gains s' W t v) (ht : t.Scalar) (hd : t ≠ .double) :
    v = .word (s'.top M.word) := by
  rw [← h.value, read_word ht hd]
  rfl

/-- A double is the double on top. -/
theorem eq_real (h : s.Gains s' W .double v) : v = .real (s'.top M.real) := by
  rw [← h.value, read]
  rfl

end Store.Gains

/-- A word is pushed. -/
theorem gains_word {t : Ty} (ht : t.Scalar) (hd : t ≠ .double) (w : M.Word) :
    s.Gains (s.push M.word w) (Below s.sp Ty.wordSize) t (.word w) := by
  have hsize : t.size = Ty.wordSize := by rw [ht.size_eq, if_neg hd]; rfl
  refine ⟨by rw [hsize, Store.sp_push]; omega, ?_, ?_⟩
  · rw [read_word ht hd]
    exact congrArg Value.word (Store.top_push M.word w s)
  · exact (Changes.put M.word _ _ _).mono fun a ha => ⟨ha.1, by omega⟩

/-- A double is pushed. -/
theorem gains_real (d : M.Real) :
    s.Gains (s.push M.real d) (Below s.sp Ty.doubleSize) .double (.real d) := by
  refine ⟨Int.sub_add_cancel _ _, ?_, ?_⟩
  · rw [read]
    exact congrArg Value.real (Store.top_push M.real d s)
  · exact (Changes.put M.real _ _ _).mono fun a ha => ⟨ha.1, by omega⟩

/-- What is left by code that starts from a changed memory. -/
theorem Store.Gains.after {t : Ty} {v : M.Value} (h : s₁.Gains s' W t v) (hsp : s₁.sp = s.sp)
    (hc : Changes W s.memory s₁.memory) : s.Gains s' W t v :=
  ⟨h.sp.trans hsp, h.value, hc.trans h.changes⟩

/-- The value below another one stays as it is. -/
theorem Store.Gains.behind {t u : Ty} {v w : M.Value} (ht : t.Solid) (h : s.Gains s₁ W t v)
    (h' : s₁.Gains s₂ W' u w) (hW : ∀ a, s₁.sp ≤ a → a < s.sp → ¬W' a) :
    M.read s₂.memory s₁.sp t = v := by
  have hsp := h.sp
  rw [h'.changes.read_eq ht fun b hb hb' => hW b hb (by omega), h.value]

/-- **A value is put in front of the components of a tuple.** -/
theorem Store.Gains.cons {t : Ty} {ts : List Ty} {v : M.Value} {vs : List M.Value}
    {W'' : Int → Prop} (hts : ∀ u ∈ ts, u.Solid) (h : s.Gains s₁ W (.tuple ts) (.tuple vs))
    (h' : s₁.Gains s₂ W' t v) (hkept : ∀ a, s₁.sp ≤ a → a < s.sp → ¬W' a) (hW : ∀ a, W a → W'' a)
    (hW' : ∀ a, W' a → W'' a) :
    s.Gains s₂ W'' (.tuple (t :: ts)) (.tuple (v :: vs)) := by
  have hsp := h.sp
  have hsp' := h'.sp
  refine ⟨?_, ?_, (h.changes.mono hW).trans (h'.changes.mono hW')⟩
  · rw [Ty.size] at hsp ⊢
    rw [Ty.sizeOfAll]
    omega
  · have hrest := h.behind (Ty.solid_tuple.mpr hts) h' hkept
    rw [read, Value.tuple.injEq] at hrest
    rw [read, readAll, h'.value, hsp', hrest]

section Push

variable {V V' : Type} {k k' : Nat} (c : Codec M.Byte V k) (c' : Codec M.Byte V' k')

theorem changes_push (v : V) (s : M.Store) : Changes (Below s.sp k) s.memory (s.push c v).memory :=
  (Changes.put c s.memory _ v).mono fun a ha => ⟨ha.1, by omega⟩

/-- What is pushed and dropped leaves the value below as it was. -/
@[simp] theorem top_drop_push (v : V) (s : M.Store) : ((s.push c v).drop k).top c' = s.top c' := by
  have hsp : (s.push c v).sp + k = s.sp := Int.sub_add_cancel _ _
  unfold Store.top Store.drop
  rw [hsp]
  refine c'.get_congr fun a ha _ => c.put_outside v (.inr ?_)
  have ha : s.sp ≤ a := ha
  omega

@[simp] theorem sp_drop_push (v : V) (s : M.Store) : ((s.push c v).drop k).sp = s.sp :=
  Int.sub_add_cancel _ _

end Push

/-! ### Addresses -/

/-- **The address that a base stands for.** If it is kept in the frame, it is kept above the
stack. -/
def Points (fp low high : Int) (s : M.Store) (A : Int) : Base → Prop
  | .frame offset => A = fp + offset
  | .pinned slot => M.word.get s.memory (fp + slot) = M.ofInt A ∧ s.sp ≤ fp + slot ∧
      low ≤ fp + slot ∧ fp + slot ≤ high

/-- What a base stands for does not change with other bytes. -/
theorem Points.changes {b : Base} {A : Int} (h : Points fp low high s A b)
    (hc : Changes W s.memory s'.memory)
    (hW : ∀ slot, b = .pinned slot → ∀ a, fp + slot ≤ a → a < fp + slot + Ty.wordSize → ¬W a)
    (hsp : ∀ slot, b = .pinned slot → s'.sp ≤ fp + slot) : Points fp low high s' A b := by
  cases b with
  | frame offset => exact h
  | pinned slot =>
    refine ⟨?_, hsp slot rfl, h.2.2⟩
    rw [← h.1]
    exact M.word.get_congr fun a ha ha' => hc a (hW slot rfl a ha ha')

/-- **The address of a byte of a value is pushed.** -/
theorem acts_base (hM : M.Addresses low high) {b : Base} {A : Int} (byte : Nat)
    (hb : Points fp low high s A b) (hA : low ≤ A) (hbyte : A + byte ≤ high) :
    ∃ s', M.acts fp s (b.instrs byte) = some s' ∧
      s.Gains s' (Below s.sp 8) .int (.word (M.ofInt (A + byte))) := by
  have hint : Ty.int.Scalar := ⟨rfl, by simp, by simp⟩
  cases b with
  | frame offset =>
    have hoffset : fp + (offset + byte) = A + byte := by
        rw [show A = fp + offset from hb, Int.add_assoc]
    refine ⟨s.push M.word (M.ofInt (A + byte)), ?_,
      (gains_word hint (by simp) _).mono fun a ha => ?_⟩
    · simp only [Base.instrs, acts_cons, act, hoffset, Option.bind_some, acts_nil]
    · have := ha.1
      simp only [Ty.wordSize] at this
      exact ⟨by omega, ha.2⟩
  | pinned slot =>
    obtain ⟨hget, hsp, hlow, hhigh⟩ := hb
    have hword : Ty.wordSize = 4 := rfl
    have hbelow : ∀ (r : M.Store) (w : M.Word), r.sp = s.sp ∨ r.sp = s.sp - Ty.wordSize →
        Changes (Below s.sp 8) r.memory (r.push M.word w).memory := by
      intro r w hr
      refine (changes_push M.word w r).mono fun a ha => ?_
      unfold Below at ha ⊢
      omega
    -- The address that is kept in the slot takes the place of the address of the slot.
    let fetched := ((s.push M.word (M.ofInt (fp + slot))).drop Ty.wordSize).push M.word (M.ofInt A)
    have hfetch : M.acts fp s [.frameAddress slot, .loadInt] = some fetched := by
      have hkept :
          M.word.get (s.push M.word (M.ofInt (fp + slot))).memory (fp + slot) = M.ofInt A := by
        rw [← hget]
        exact M.word.get_congr fun a ha _ => M.word.put_outside _ (.inr (by omega))
      simp only [acts_cons, act, Option.bind_some, acts_nil, Store.apply, Store.top_push,
        hM.toInt_ofInt _ hlow hhigh, hkept, fetched]
    have hfetched : s.Gains fetched (Below s.sp 8) .int (.word (M.ofInt A)) :=
      ((gains_word hint (by simp) _).mono fun a ha => by
        unfold Below at ha ⊢
        rw [sp_drop_push] at ha
        omega).after (sp_drop_push _ _ _) (hbelow s _ (.inl rfl))
    by_cases hzero : byte = 0
    · subst hzero
      refine ⟨fetched, ?_, by rwa [Int.natCast_zero, Int.add_zero]⟩
      rw [Base.instrs, if_pos rfl, List.append_nil]
      exact hfetch
    · -- The offset of the byte is added to it.
      let added :=
        (((fetched.push M.word (M.ofInt byte)).drop Ty.wordSize).drop Ty.wordSize).push M.word
        (M.ofInt (A + byte))
      have hadd : M.acts fp fetched [.int byte, .add] = some added := by
        have htop : fetched.top M.word = M.ofInt A := Store.top_push _ _ _
        simp only [acts_cons, act, Option.bind_some, acts_nil, Store.combine, Store.top_push,
          top_drop_push, htop, hM.add A byte hA hbyte, added]
      refine ⟨added, ?_, ?_⟩
      · rw [Base.instrs, if_neg hzero, acts_append, hfetch, Option.bind_some, hadd]
      · have hsp : fetched.sp = s.sp - Ty.wordSize := by
          have := hfetched.sp
          simp only [Ty.size] at this
          omega
        have hdropped :
            (((fetched.push M.word (M.ofInt byte)).drop Ty.wordSize).drop Ty.wordSize).sp =
            s.sp := by
          rw [Store.sp_drop, sp_drop_push, hsp]
          omega
        refine ((gains_word hint (by simp) _).mono fun a ha => ?_).after hdropped
          (hfetched.changes.trans (hbelow fetched _ (.inr hsp)))
        unfold Below at ha ⊢
        rw [hdropped] at ha
        omega

/-- A base stands for the same address while the stack grows. -/
theorem Points.grow {b : Base} {A : Int} {n : Nat} (h : Points fp low high s A b)
    (hc : Changes (Below s.sp n) s.memory s'.memory) (hsp : s'.sp ≤ s.sp) :
    Points fp low high s' A b := by
  refine h.changes hc (fun slot hslot a ha _ hbelow => ?_) fun slot hslot => ?_
  · subst hslot
    have hkept := h.2.1
    have htop := hbelow.2
    omega
  · subst hslot
    exact hsp.trans h.2.1

/-! ### Fetching -/

/-- **What is at the address on top takes the place of the address.** -/
theorem acts_fetch (fp : Int) (hM : M.Addresses low high) {A : Int} {t : Ty} (ht : t.Scalar)
    (htop : s.top M.word = M.ofInt A) (hA : low ≤ A) (hhigh : A ≤ high) :
    ∃ s', M.acts fp s [loadInstr t] = some s' ∧
      (s.drop Ty.wordSize).Gains s' (Below (s.sp + Ty.wordSize) 8) t (M.read s.memory A t) := by
  have haddress : M.toInt (M.ofInt A) = A := hM.toInt_ofInt _ hA hhigh
  by_cases hd : t = .double
  · subst hd
    refine ⟨(s.drop Ty.wordSize).push M.real (M.real.get s.memory A), ?_, ?_⟩
    · rw [loadInstr, if_pos rfl, acts_cons, act, Store.apply, htop, haddress,
        Option.bind_some, acts_nil]
    · rw [read]
      exact gains_real _
  · refine ⟨(s.drop Ty.wordSize).push M.word (M.word.get s.memory A), ?_, ?_⟩
    · rw [loadInstr, if_neg hd, acts_cons, act, Store.apply, htop, haddress,
        Option.bind_some, acts_nil]
    · rw [read_word ht hd]
      refine (gains_word ht hd _).mono fun a ha => ?_
      unfold Below at ha ⊢
      simp only [Store.sp_drop, Ty.wordSize] at ha ⊢
      omega

/-- A leaf is fetched. -/
theorem acts_leaf (hM : M.Addresses low high) {b : Base} {A : Int} {k : Nat} {t : Ty}
    (ht : t.Scalar) (hb : Points fp low high s A b) (hA : low ≤ A) (hk : A + k + t.size ≤ high)
    (hsp : ∀ a, A + k ≤ a → a < A + k + t.size → ¬Below s.sp 8 a) :
    ∃ s', M.acts fp s (b.instrs k ++ [loadInstr t]) = some s' ∧
      s.Gains s' (Below s.sp 8) t (M.read s.memory (A + k) t) := by
  obtain ⟨s₁, hs₁, hg⟩ := acts_base (s := s) hM k hb hA (by omega)
  obtain ⟨htop, hdrop⟩ := hg.top_word ⟨rfl, by simp, by simp⟩
  obtain ⟨s₂, hs₂, hfetched⟩ := acts_fetch fp hM ht htop (by omega) (by omega)
  have hkept : M.read s₁.memory (A + k) t = M.read s.memory (A + k) t :=
    hg.changes.read_eq (Ty.solid_of_scalar ht) hsp
  rw [hdrop, hkept] at hfetched
  exact ⟨s₂, by rw [acts_append, hs₁, Option.bind_some, hs₂], hfetched.after hdrop hg.changes⟩

theorem loadInstrs_append (b : Base) (xs ys : List (Ty × Nat)) :
    loadInstrs b (xs ++ ys) = loadInstrs b xs ++ loadInstrs b ys := List.flatMap_append

theorem acts_load_scalar (hM : M.Addresses low high) {b : Base} {A : Int} {k : Nat} {t : Ty}
    (ht : t.Scalar) (hb : Points fp low high s A b) (hA : low ≤ A) (hk : A + k + t.size ≤ high)
    (hsp : ∀ a, A + k ≤ a → a < A + k + t.size → ¬Below s.sp (t.size + 8) a) :
    ∃ s', M.acts fp s (loadInstrs b [(t, k)]) = some s' ∧
      s.Gains s' (Below s.sp (t.size + 8)) t (M.read s.memory (A + k) t) := by
  have hwider : ∀ a, Below s.sp 8 a → Below s.sp (t.size + 8) a :=
    fun a ha => ⟨by have := ha.1; omega, ha.2⟩
  obtain ⟨s', hs', hg⟩ := acts_leaf hM ht hb hA hk fun a ha ha' h => hsp a ha ha' (hwider a h)
  refine ⟨s', ?_, hg.mono hwider⟩
  rw [loadInstrs, List.flatMap_cons, List.flatMap_nil, List.append_nil]
  exact hs'

mutual

/-- **A value is fetched from a place** that is apart from the stack: its leaves are pushed, the
last one first. -/
theorem acts_loadFrom (hM : M.Addresses low high) {b : Base} {A : Int} (hA : low ≤ A) :
    ∀ {t : Ty} {k : Nat} {s : M.Store}, t.Solid → Points fp low high s A b → A + k + t.size ≤ high →
      (∀ a, A + k ≤ a → a < A + k + t.size → ¬Below s.sp (t.size + 8) a) →
      ∃ s', M.acts fp s (loadInstrs b (t.leavesFrom k).reverse) = some s' ∧
        s.Gains s' (Below s.sp (t.size + 8)) t (M.read s.memory (A + k) t)
  | .tuple _, _, _, ht, hb, hk, hsp => acts_loadAllFrom hM hA (Ty.solid_tuple.mp ht) hb hk hsp
  | .double, _, _, ht, hb, hk, hsp =>
      acts_load_scalar hM (ht .double (List.mem_singleton_self _)) hb hA hk hsp
  | .int, _, _, ht, hb, hk, hsp =>
      acts_load_scalar hM (ht .int (List.mem_singleton_self _)) hb hA hk hsp
  | .string, _, _, ht, hb, hk, hsp =>
      acts_load_scalar hM (ht .string (List.mem_singleton_self _)) hb hA hk hsp
  | .pointer t, _, _, ht, hb, hk, hsp =>
    acts_load_scalar hM (ht (.pointer t) (List.mem_singleton_self _)) hb hA hk hsp
  | .void, _, _, ht, _, _, _ => absurd rfl (ht .void (List.mem_singleton_self _)).2.1
  | .auto, _, _, ht, _, _, _ => absurd rfl (ht .auto (List.mem_singleton_self _)).2.2

/-- As `acts_loadFrom`, for the components of a tuple. -/
theorem acts_loadAllFrom (hM : M.Addresses low high) {b : Base} {A : Int} (hA : low ≤ A) :
    ∀ {ts : List Ty} {k : Nat} {s : M.Store}, (∀ t ∈ ts, t.Solid) → Points fp low high s A b →
      A + k + Ty.sizeOfAll ts ≤ high →
      (∀ a, A + k ≤ a → a < A + k + Ty.sizeOfAll ts → ¬Below s.sp (Ty.sizeOfAll ts + 8) a) →
      ∃ s', M.acts fp s (loadInstrs b (Ty.leavesOfAllFrom k ts).reverse) = some s' ∧
        s.Gains s' (Below s.sp (Ty.sizeOfAll ts + 8)) (.tuple ts)
          (M.read s.memory (A + k) (.tuple ts))
  | [], k, s, _, _, _, _ =>
      ⟨s, rfl, ⟨Int.add_zero _, by rw [read, read, readAll, readAll], .refl _ _⟩⟩
  | t :: ts, k, s, ht, hb, hk, hsp => by
    rw [List.forall_mem_cons] at ht
    rw [Ty.sizeOfAll] at hk hsp
    obtain ⟨s₁, hs₁, hg₁⟩ :=
      acts_loadAllFrom hM hA (k := k + t.size) ht.2 hb (by omega) fun a ha ha' h =>
      hsp a (by omega) (by omega) ⟨by have := h.1; omega, h.2⟩
    have hsp₁ := hg₁.sp
    rw [Ty.size] at hsp₁
    obtain ⟨s₂, hs₂, hg₂⟩ :=
      acts_loadFrom hM hA (k := k) ht.1 (hb.grow hg₁.changes hg₁.size_le) (by omega)
      fun a ha ha' h => hsp a ha (by omega) ⟨by have := h.1; omega, by have := h.2; omega⟩
    have hfirst : M.read s₁.memory (A + k) t = M.read s.memory (A + k) t :=
      hg₁.changes.read_eq ht.1 fun a ha ha' h => hsp a ha (by omega) ⟨by have := h.1; omega, h.2⟩
    refine ⟨s₂, ?_, ?_⟩
    · rw [Ty.leavesOfAllFrom, List.reverse_append, loadInstrs_append, acts_append, hs₁,
        Option.bind_some, hs₂]
    · -- The first component is above the others, which stay as they are.
      have hoffset : A + k + t.size = A + (k + t.size : Nat) := by omega
      rw [hfirst] at hg₂
      rw [read] at hg₁
      rw [read, readAll, hoffset]
      refine hg₁.cons ht.2 hg₂ (fun a ha _ hbelow => ?_) (fun a ha => ?_) fun a ha => ?_
      · have := hbelow.2
        omega
      all_goals
        unfold Below at ha ⊢
        rw [Ty.sizeOfAll]
        omega

end

/-- **A value is fetched from a place** that is apart from the stack. -/
theorem acts_load (hM : M.Addresses low high) {b : Base} {A : Int} {t : Ty} (ht : t.Solid)
    (hb : Points fp low high s A b) (hA : low ≤ A) (hhigh : A + t.size ≤ high)
    (hsp : ∀ a, A ≤ a → a < A + t.size → ¬Below s.sp (t.size + 8) a) :
    ∃ s', M.acts fp s (loadInstrs b t.leafOffsets.reverse) = some s' ∧
      s.Gains s' (Below s.sp (t.size + 8)) t (M.read s.memory A t) := by
  have h := acts_loadFrom (k := 0) hM hA ht hb (by omega) (by rwa [Int.natCast_zero, Int.add_zero])
  rwa [Int.natCast_zero, Int.add_zero] at h

end Machine

end PostfixCompiler
