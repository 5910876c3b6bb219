import PostfixCompiler.Proofs.Machine.Effects

/-!
# Expressions are carried out

The code of an expression carries out what the expression does. Where its value is wanted, the value
is left on the stack; where it is asked where something is, an address is left: that of a variable,
or that of the bytes where a value is held that was made up on the way.

Here that is shown of all expressions but tuples and calls: of literals, places, operators and
assignments, if it holds of their parts.

## Main definitions

* `PostfixCompiler.Machine.Scene.Shows`: the address of something is on the stack.
* `PostfixCompiler.Expr.Performs`: the code of an expression carries out what the expression does.

## Main statements

* `PostfixCompiler.Expr.performs_rvalue`: what is read from a place is the value that is there.
* `PostfixCompiler.Expr.performs_assignment`: what is assigned goes to its place.
* `PostfixCompiler.Expr.performs_binary`: operands are computed, and then combined.
-/

namespace PostfixCompiler

open Emission

/-- What fits a scalar is a scalar, if it is no tuple. -/
theorem Ty.Scalar.of_fits {t u : Ty} (ht : t.Scalar) (hu : u.isTuple = false)
    (h : t.Fits u) : u.Scalar := by
  have hstripped : u.stripped = u := stripped_of_isPlural (isPlural_of_isTuple hu)
  cases t with
  | tuple => cases ht.1
  | void => exact absurd rfl ht.2.1
  | auto => exact h.elim
  | pointer =>
    obtain ⟨v, hv⟩ := fits_pointer.mp h
    rw [hstripped] at hv
    subst hv
    exact Machine.scalar_pointer v
  | double =>
    rcases h with hd | hi
    · rw [hstripped] at hd
      exact hd ▸ Machine.scalar_double
    · rw [hstripped] at hi
      exact hi ▸ Machine.scalar_int
  | int | string =>
    have hv : u.stripped = _ := h
    rw [hstripped] at hv
    subst hv
    exact ⟨rfl, by simp, by simp⟩

namespace Machine

/-! ### Words and doubles on the stack -/

section Stack

variable {M : Machine} {fp : Int} {s s₁ s₂ : M.Store} {V : Int → Prop} {t u : Ty} {v : M.Value}

/-- What is on top is all that there is above what is below it. -/
theorem Store.Gains.here (h : s.Gains s₁ V t v) (V' : Int → Prop) :
    (s₁.drop t.size).Gains s₁ V' t v :=
  ⟨rfl, h.value, .refl _ _⟩

theorem Store.Operands.here {X : Type} {k : Nat} {c : Codec M.Byte X k} {x y : X}
    (h : s.Operands s₁ V c x y) (V' : Int → Prop) : ((s₁.drop k).drop k).Operands s₁ V' c x y :=
  ⟨rfl, h.upper, h.lower, .refl _ _⟩

/-- A word is a word, of whatever type it is. -/
theorem Store.Gains.retype {w : M.Word} (h : s.Gains s₁ V t (.word w)) (ht : t.Scalar)
    (hu : u.Scalar) (hd : u ≠ .double) :
    s.Gains s₁ V u (.word w) := by
  obtain ⟨htop, hsp⟩ := h.top_word ht
  have hsize : u.size = Ty.wordSize := by rw [hu.size_eq, if_neg hd]; rfl
  refine ⟨by rw [hsize, hsp], ?_, h.changes⟩
  rw [read_word hu hd]
  exact congrArg Value.word htop

/-- **A value becomes what is wanted**: it is widened if it has to be. -/
theorem acts_fits (fp : Int) (h : s.Gains s₁ V u v) (ht : t.Scalar) (hu : u.isTuple = false)
    (hf : t.Fits u) (hV : ∀ a, Below s.sp 8 a → V a) :
    ∃ s₂, M.acts fp s₁ (widenInstrs t u) = some s₂ ∧ s.Gains s₂ V t (v.widened t) := by
  have hscalar := ht.of_fits hu hf
  by_cases hw : t = .double ∧ u = .int
  · obtain ⟨rfl, rfl⟩ := hw
    have hv := h.eq_word scalar_int (by simp)
    subst hv
    obtain ⟨d, s₂, hd, hs₂, hg⟩ := acts_widen fp h (.inl rfl) hV
    cases hd
    exact ⟨s₂, hs₂, hg⟩
  · have hstripped : u.stripped = u := Ty.stripped_of_isPlural (Ty.isPlural_of_isTuple hu)
    have hsize : u.size = t.size := (ht.size_of_fits hf).resolve_right fun h => hw (hstripped ▸ h)
    refine ⟨s₁, by rw [widenInstrs, if_neg hw, acts_nil], by rw [← hsize, h.sp], ?_, h.changes⟩
    rw [← h.value, widened_read ht hscalar hsize]

/-- **A value on top is doubled.** -/
theorem acts_dup (fp : Int) (h : s.Gains s₁ V t v) (ht : t.Scalar) : ∃ s₂,
    M.acts fp s₁ [if t = .double then .dupDouble else .dupInt] = some s₂ ∧
    s₁.Gains s₂ (Below s₁.sp 8) t v := by
  by_cases hd : t = .double
  · subst hd
    have hv := h.eq_real
    subst hv
    exact ⟨s₁.push M.real (s₁.top M.real), rfl, gains_real _⟩
  · have hv := h.eq_word ht hd
    subst hv
    refine ⟨s₁.push M.word (s₁.top M.word),
      by rw [if_neg hd]; rfl, (gains_word ht hd _).mono fun a ha => ?_⟩
    exact ⟨by have := ha.1; simp only [Ty.wordSize] at this; omega, ha.2⟩

/-- **A value goes to the address above it.** -/
theorem acts_assign (fp : Int) (h : s.Gains s₁ V t v) (ht : t.Scalar) {w : M.Word} {V' : Int → Prop}
    (h' : s₁.Gains s₂ V' .int (.word w)) (hkept : ∀ a, s₁.sp ≤ a → a < s.sp → ¬V' a) :
    M.acts fp s₂ [if t = .double then .storeDouble else .storeInt] =
      some ⟨s.sp, M.write s₂.memory (M.toInt w) v⟩ := by
  obtain ⟨htop, hsp⟩ := h'.top_word scalar_int
  have hvalue := h.behind (Ty.solid_of_scalar ht) h' hkept
  have hsize := h.sp
  by_cases hd : t = .double
  · subst hd
    rw [read] at hvalue
    subst hvalue
    have hdouble : s₂.sp + Ty.wordSize + Ty.doubleSize = s.sp := by
      rw [Ty.size] at hsize
      omega
    rw [if_pos rfl, acts_cons, act, Store.save, htop, Option.bind_some, acts_nil, Store.sp_drop,
      hdouble, write]
    unfold Store.top
    rw [Store.sp_drop, hsp]
    rfl
  · rw [read_word ht hd] at hvalue
    subst hvalue
    have hword : s₂.sp + Ty.wordSize + Ty.wordSize = s.sp := by
      rw [ht.size_eq, if_neg hd] at hsize
      simp only [Ty.wordSize] at hsp ⊢
      omega
    rw [if_neg hd, acts_cons, act, Store.save, htop, Option.bind_some, acts_nil,
      Store.sp_drop, hword, write]
    unfold Store.top
    rw [Store.sp_drop, hsp]
    rfl

/-- The bytes where a scalar is written. -/
theorem changes_write {m : M.Memory} {b : Int} (hv : M.read m b t = v) (ht : t.Scalar)
    (m' : M.Memory) (a : Int) :
    Changes (fun b => a ≤ b ∧ b < a + t.size) m' (M.write m' a v) := by
  subst hv
  by_cases hd : t = .double
  · subst hd
    rw [read, write]
    exact Changes.put M.real m' a _
  · rw [read_word ht hd, write, ht.size_eq, if_neg hd]
    exact Changes.put M.word m' a _

/-- What is written does not depend on what was there. -/
theorem write_congr {m m' : M.Memory} {b : Int} (h : m b = m' b) (a : Int) (v : M.Value) :
    M.write m a v b = M.write m' a v b := by
  cases v with
  | word | real => simp only [write, Codec.put, h]
  | tuple => exact h

end Stack

/-! ### Where something is -/

namespace Scene

variable {M : Machine} {W : Type} (C : M.Scene W)

/-- **The address of something is on the stack**: that of a place, or that of the bytes where a
value is held. -/
def Shows (ids : List NodeId) (t : Ty) (l : Located M) (s s' : M.Store) : Prop :=
  match l with
  | .place w => s.Gains s' (C.Alters ids s.sp) .int (.word w)
  | .held v => ∃ A, s.Gains s' (C.Alters ids s.sp) .int (.word (M.ofInt A)) ∧ C.Keeps ids A t.size ∧
      M.read s'.memory A t = v

variable {C} {cx : Context} {ids ids' : List NodeId} {t : Ty} {l : Located M}
  {s s' : M.Store} {v : M.Value}
  {σ σ' : W × M.Memory} {w : C.surroundings.World}

/-- What is shown is an address. -/
theorem Shows.exists_word (h : C.Shows ids t l s s') :
    ∃ w, s.Gains s' (C.Alters ids s.sp) .int (.word w) := by
  cases l with
  | place w => exact ⟨w, h⟩
  | held v =>
    obtain ⟨A, hg, -⟩ := h
    exact ⟨_, hg⟩

/-- The stack grows by a word. -/
theorem Shows.sp (h : C.Shows ids t l s s') : s'.sp + Ty.wordSize = s.sp := by
  obtain ⟨w, hg⟩ := h.exists_word
  exact hg.sp

theorem Shows.changes (h : C.Shows ids t l s s') :
    Changes (C.Alters ids s.sp) s.memory s'.memory := by
  obtain ⟨w, hg⟩ := h.exists_word
  exact hg.changes

theorem Shows.mono (h : C.Shows ids t l s s') (hids : ids ⊆ ids') : C.Shows ids' t l s s' := by
  cases l with
  | place w => exact Store.Gains.mono h fun a ha => ha.mono hids (Int.le_refl _)
  | held v =>
    obtain ⟨A, hg, hkeeps, hread⟩ := h
    exact ⟨A, hg.mono fun a ha => ha.mono hids (Int.le_refl _), hkeeps.mono hids, hread⟩

/-- **What is fetched can be read** at the address that is shown, and the slots of other nodes are
apart from it. -/
theorem Sound.readable (hC : C.Sound cx) (ht : t.Sound) (hv : t ≠ .void) (h : C.Shows ids t l s s')
    (hsp : s.sp ≤ C.base) (hagrees : C.Agrees σ w s')
    (hfetch : C.stage.fetch t l σ = some (v, σ')) : ∃ A,
      s'.top M.word = M.ofInt A ∧ (C.low ≤ A ∧ A + t.size ≤ C.high) ∧
      M.read s'.memory A t = v ∧ σ' = σ ∧
        ∀ ids', (∀ i ∈ ids, i ∉ ids') → ∀ a, A ≤ a → a < A + t.size →
          ¬C.room.Touches C.stage.fp ids' C.bottom s.sp a := by
  have hpos := ht.size_pos hv
  cases l with
  | place w =>
    have hg : s.Gains s' _ .int (.word w) := h
    rw [Stage.fetch] at hfetch
    split at hfetch
    · rename_i howns
      cases hfetch
      have hown := C.stage.owns_iff.mp howns
      have hfirst := hC.own_within _ (hown _ (Int.le_refl _) (by omega))
      have hlast := hC.own_within _ (hown (M.toInt w + t.size - 1) (by omega) (by omega))
      refine ⟨M.toInt w,
        by rw [hC.words, (hg.top_word scalar_int).1], ⟨hfirst.1, by omega⟩, ?_, rfl, ?_⟩
      · exact read_of_agree (ht.solid hv) fun a ha ha' => hagrees.2 a (hown a ha ha')
      · intro ids' _ a ha ha' htouches
        exact hC.own_apart a (hown a ha ha') ids'
          (.inl (htouches.mono (List.Subset.refl _) (Int.le_refl _) hsp))
    · cases hfetch
  | held u =>
    obtain ⟨A, hg, hkeeps, hread⟩ := h
    obtain ⟨rfl, rfl⟩ := Course.pure_eq_some.mp hfetch
    have hwithin := hC.keeps_within hkeeps
    have hframe := hC.frame
    refine ⟨A, (hg.top_word scalar_int).1, ⟨by omega, by omega⟩, hread, rfl, ?_⟩
    intro ids' hids a ha ha'
    exact hC.keeps_apart hkeeps hids (hsp.trans hC.base_le) ha ha'

/-- **What is assigned goes to the address that is shown**, and no byte of the stack is there. -/
theorem Sound.assigned (hC : C.Sound cx) (ht : t.Scalar) (h : C.Shows ids t l s s')
    {m : M.Memory} {b : Int} (hv : M.read m b t = v) (hagrees : C.Agrees σ w s') {u : Unit}
    (hassign : C.stage.assign t v l σ = some (u, σ')) (sp : Int) :
    ∃ x, s.Gains s' (C.Alters ids s.sp) .int (.word x) ∧
      C.Agrees σ' w ⟨sp, M.write s'.memory (M.toInt x) v⟩ ∧
      Changes (fun a => C.Alters ids s.sp a ∧ ¬(C.bottom ≤ a ∧ a < C.base)) s'.memory
        (M.write s'.memory (M.toInt x) v) := by
  have hwritten := changes_write hv ht s'.memory
  cases l with
  | place x =>
    rw [Stage.assign] at hassign
    split at hassign
    · rename_i howns
      cases hassign
      have hown := C.stage.owns_iff.mp howns
      refine ⟨x, h, ⟨hagrees.1, fun a ha => write_congr (hagrees.2 a ha) _ _⟩,
        (hwritten _).mono fun a ha => ?_⟩
      have howna := hown a ha.1 ha.2
      exact ⟨.inl howna, fun hstack => hC.own_apart a howna [] (.inl (.inl hstack))⟩
    · cases hassign
  | held u =>
    obtain ⟨A, hg, hkeeps, -⟩ := h
    obtain ⟨rfl, rfl⟩ := Course.pure_eq_some.mp hassign
    have hwithin := hC.keeps_within hkeeps
    have hframe := hC.frame
    have hbase := hC.base_le
    have haddress : M.toInt (M.ofInt A) = A := hC.addresses.toInt_ofInt A (by omega) (by omega)
    have hchanges := hwritten (M.toInt (M.ofInt A))
    rw [haddress] at hchanges
    refine ⟨M.ofInt A, hg, ?_, ?_⟩
    · rw [haddress]
      have hprivate : Changes (C.Private ids C.base) s'.memory (M.write s'.memory A v) :=
        hchanges.mono fun a ha => hkeeps.isPrivate ha.1 ha.2
      exact hagrees.of_private hC (Int.le_refl _) hprivate
    · rw [haddress]
      refine hchanges.mono fun a ha => ⟨.inr (hkeeps.isPrivate ha.1 ha.2), fun hstack => ?_⟩
      omega

end Scene

end Machine

/-! ### Expressions -/

namespace Expr

open Machine

/-! ### Room on the stack -/

mutual

/-- **How many bytes of the stack the code of an expression takes**, at most. What a function takes
that is called is not among them. -/
def need (T : TypeTable) : Expr → Nat
  | .integer .. | .double .. | .string .. | .nullptr _ | .sizeof .. | .variable ..
  | .stackAlloc .. => 8
  | .input _ => 20
  | .rvalue s p => p.need T + (T.typeOf s.id).size + 12
  | .tupleIndex _ a _ | .unary _ _ a | .addressOf _ a => a.need T + 8
  | .assignment _ a b | .pointerIndex _ a b | .binary _ _ a b => a.need T + b.need T + 36
  | .tuple _ es => needOfAll T es + 4
  | .call s _ args => needOfAll T args + (T.typeOf s.id).size + 12

/-- How many bytes of the stack expressions take, with their values. -/
def needOfAll (T : TypeTable) : List Expr → Nat
  | [] => 0
  | e :: es => e.need T + (T.typeOf e.id).size + 12 + needOfAll T es

end

/-- There is room for a word at least. -/
theorem wordSize_le_need (T : TypeTable) (e : Expr) : Ty.wordSize ≤ e.need T := by
  cases e <;> simp only [need, Ty.wordSize] <;> omega

section Performs

variable {M : Machine} {W : Type} (C : M.Scene W) (cx : Context) (scope : View Symbol)

/-- **The code of an expression carries out what the expression does**: it leaves the value of the
expression on the stack, or where that is asked for the address of what the expression stands
for. -/
def Performs (e : Expr) : Mode → Prop
  | .value => ∀ n, (e.outline cx scope .value n).Finds M C.stage.texts →
      C.Carries (e.outline cx scope .value n).code (e.value C.stage scope) (e.need C.room.types)
        fun v s s' =>
        s.Gains s' (C.Alters (e.usage C.room.types .value).nodes s.sp) (e.type C.room.types) v
  | .address => ∀ n, (e.outline cx scope .address n).Finds M C.stage.texts →
      C.Carries (e.outline cx scope .address n).code (e.locate C.stage scope) (e.need C.room.types)
        fun l s s' =>
        C.Shows (e.usage C.room.types .address).nodes (e.type C.room.types) l s s'

end Performs

variable {M : Machine} {W : Type} {C : M.Scene W} {cx : Context} {scope : View Symbol}
  {mode : Mode} {n : Nat}

/-! ### Literals and variables -/

/-- Code that pushes a word. -/
theorem performs_word (hC : C.Sound cx) {e : Expr} (is : Nat → List Instr) {w : M.Word}
    (hcode : ∀ n, (e.outline cx scope .value n).code = is n)
    (hacts : ∀ n s, (e.outline cx scope .value n).Finds M C.stage.texts →
      M.acts C.stage.fp s (is n) = some (s.push M.word w))
    (ht : (e.type C.room.types).Scalar) (hd : e.type C.room.types ≠ .double)
    (hv : e.value C.stage scope = pure (.word w)) : e.Performs C cx scope .value := by
  intro n hn
  refine Scene.Carries.le (wordSize_le_need _ e) ?_
  rw [hcode, hv]
  refine Scene.Carries.of_acts fun x s w' σ σ' hsp hroom hagrees hx => ?_
  obtain ⟨rfl, rfl⟩ := Course.pure_eq_some.mp hx
  exact ⟨_, hacts n s hn, hC.push _ hsp (by omega) hagrees (gains_word ht hd w)⟩

theorem performs_double (hC : C.Sound cx) {site : Site} {d : Double}
    (ht : C.room.types.get? site.id = some .double) :
    (Expr.double site d).Performs C cx scope .value := by
  intro n _
  have htype : (Expr.double site d).type C.room.types = .double := TypeTable.typeOf_eq ht
  simp only [outline, Outline.code_piece, Outline.code_ofCode, htype, value, need]
  refine Scene.Carries.of_acts fun x s w' σ σ' hsp hroom hagrees hx => ?_
  obtain ⟨rfl, rfl⟩ := Course.pure_eq_some.mp hx
  have hdouble : Ty.doubleSize = 8 := rfl
  exact ⟨s.push M.real (M.ofDouble d), rfl, hC.push _ hsp (by omega) hagrees (gains_real _)⟩

/-- The address of a text is that of its label. -/
theorem performs_string (hC : C.Sound cx) {site : Site} {x : String}
    (ht : C.room.types.get? site.id = some .string) :
    (string site x).Performs C cx scope .value := by
  have htype : (string site x).type C.room.types = .string := TypeTable.typeOf_eq ht
  refine performs_word hC (fun n => textInstrs (labelName (n + 1)) x)
    (w := C.stage.texts site.id) (fun n => ?_)
    (fun n s hn => ?_) (htype ▸ ⟨rfl, by simp, by simp⟩) (by simp [htype]) rfl
  · rw [outline, Outline.code_piece, Outline.code_piece, Outline.code_ofCode]
  · rw [outline, Outline.finds_expression] at hn
    have hlabel : C.stage.texts site.id = M.label (labelName (n + 1)) :=
      hn (site.id, labelName (n + 1)) List.mem_cons_self
    rw [hlabel]
    rfl

/-- The place of a variable is where its symbol says. -/
theorem performs_variable (hC : C.Sound cx) {site : Site} {name : String} :
    («variable» site name).Performs C cx scope .address := by
  intro n _
  refine Scene.Carries.le (wordSize_le_need _ _) ?_
  simp only [outline, Outline.code_piece, Outline.code_ofCode, locate]
  refine Scene.Carries.of_acts fun l s w' σ σ' hsp hroom hagrees hl => ?_
  obtain ⟨w, σ₁, hw, hpure⟩ := Course.bind_eq_some.mp hl
  obtain ⟨hplace, rfl⟩ := Course.lift_eq_some.mp hw
  obtain ⟨rfl, rfl⟩ := Course.pure_eq_some.mp hpure
  obtain ⟨x, hx, rfl⟩ := Option.map_eq_some_iff.mp hplace
  refine ⟨s.push M.word _, ?_, hC.push _ hsp (by omega) hagrees (gains_word scalar_int (by simp) _)⟩
  rw [variableInstr, hx, ← hC.config]
  by_cases hglobal : x.isGlobal = true
  · simp only [if_pos hglobal, acts_cons, act, Option.bind_some, acts_nil]
  · simp only [if_neg hglobal, acts_cons, act, Option.bind_some, acts_nil]

/-! ### Places -/

/-- **The component of a tuple is at its offset.** -/
theorem performs_tupleIndex (hC : C.Sound cx) {site : Site} {b : Expr} {i : Int32}
    (h : (tupleIndex site b i).Sits Ty.Sound C.room scope .address)
    (hb : b.Performs C cx scope .address) :
    (tupleIndex site b i).Performs C cx scope .address := by
  intro n hn
  obtain ⟨-, ts, t, ⟨hbt, hsound⟩, ⟨hi, ht⟩, hs⟩ := h.typed
  have hbtype : b.type C.room.types = .tuple ts := TypeTable.typeOf_eq hbt
  have htype : (tupleIndex site b i).type C.room.types = t := TypeTable.typeOf_eq hs
  rw [outline, Outline.finds_expression, Outline.finds_append] at hn
  have hbase := hb n hn.1
  let byte := Ty.sizeOfAll (ts.take (i.toInt.toNat - 1))
  have hlength : i.toInt.toNat - 1 < ts.length := (List.getElem?_eq_some_iff.mp ht).1
  have hbyte : (Ty.tuple ts).componentOffset? i.toInt = some byte := by
    rw [Ty.componentOffset?, if_pos ⟨hi, by omega⟩]
  have hsize : byte + t.size ≤ (Ty.tuple ts).size := sizeOfAll_take_le ht
  rw [hbtype] at hbase
  rw [outline, hC.suits.types, hbtype, hbyte, usage, htype, Outline.code_piece, Outline.code_append,
    Outline.code_ofCode, Option.getD_some, locate, hC.types, hbtype, need]
  refine hbase.acts (Nat.le_add_right _ _) fun l s s₁ w σ σ' l' hsp hroom hshows hagrees hl' => ?_
  obtain ⟨hcomponent, rfl⟩ := Course.lift_eq_some.mp hl'
  obtain ⟨s₂, hs₂, hadded⟩ := acts_shifted C.stage.fp s₁ byte
  have hbelow : s₁.sp + Ty.wordSize = s.sp := hshows.sp
  rw [hbelow] at hadded
  obtain ⟨hagrees', hg⟩ :=
    hC.settle (d := s₁.drop Ty.wordSize) hsp (by omega) hshows.changes hagrees hbelow rfl hadded
  refine ⟨s₂, hs₂, hagrees', ?_⟩
  cases l with
  | place w =>
    have hword : s.Gains s₁ _ .int (.word w) := hshows
    rw [(hword.top_word scalar_int).1] at hg
    rw [Located.component?, hbyte, Option.map_some] at hcomponent
    cases hcomponent
    exact hg
  | held v =>
    obtain ⟨A, hword, hkeeps, hread⟩ := hshows
    have hwithin := hC.keeps_within hkeeps
    have hframe := hC.frame
    rw [(hword.top_word scalar_int).1, shifted_ofInt hC.addresses (by omega) (by omega)] at hg
    obtain ⟨u, hu, rfl⟩ := Option.map_eq_some_iff.mp hcomponent
    rw [Machine.read] at hread
    rw [← hread, Value.component?, if_pos hi, readAll_getElem? ht, Option.some.injEq] at hu
    refine ⟨A + byte, hg, hkeeps.part hsize, ?_⟩
    -- The component is above the stack, on which the offset was added.
    have hsolid : t.Solid := Ty.solid_tuple.mp (hsound.solid (by simp)) t (List.mem_of_getElem? ht)
    rw [← hu]
    refine hadded.changes.read_eq hsolid fun a ha _ hb => ?_
    have hfloor := hC.base_le
    have hA := hwithin.1
    have := hb.2
    omega

/-- **What is read from a place is the value that is there.** -/
theorem performs_rvalue_value (hC : C.Sound cx) {site : Site} {p : Expr}
    (h : (rvalue site p).Sits Ty.Sound C.room scope .value) (hp : p.Performs C cx scope .address) :
    (rvalue site p).Performs C cx scope .value := by
  intro n hn
  obtain ⟨hpt, t, ⟨hpt', hsound⟩, hs⟩ := h.typed
  have hptype : p.type C.room.types = t := TypeTable.typeOf_eq hpt'
  have htype : (rvalue site p).type C.room.types = t := TypeTable.typeOf_eq hs
  have hvoid : t ≠ .void := by
    rw [← hC.suits.types] at hpt hpt'
    exact hpt.ne_void_of_isPlace (fun h => h.full.ne_void) h.names hpt' h.placed.1
  have hsolid : t.Solid := hsound.solid hvoid
  rw [outline, Outline.finds_expression, Outline.finds_append] at hn
  have hplace := hp n hn.1
  rw [hptype] at hplace
  have hserves := h.serves
  rw [usage] at hserves
  have hnodes : (p.usage C.room.types .address).nodes ⊆
      ((rvalue site p).usage C.room.types .value).nodes := by
    rw [usage, FrameUsage.nodes_append]
    exact List.subset_append_right _ _
  rw [outline, hC.suits.types, TypeTable.typeOf_eq hs, htype, value, hC.types,
    TypeTable.typeOf_eq hs, Outline.code_piece, Outline.code_append, Outline.code_ofCode, need,
    TypeTable.typeOf_eq hs, Nat.add_assoc]
  refine hplace.acts (Nat.le_add_right _ _) fun l s s₁ w σ σ' v hsp hroom hshows hagrees hv => ?_
  obtain ⟨A, htop, hwithin, hread, rfl, hapart⟩ := hC.readable hsound hvoid hshows hsp hagrees hv
  have hdrop : s₁.sp + Ty.wordSize = s.sp := hshows.sp
  have hchanges := hshows.changes.mono fun a ha => ha.mono hnodes (Int.le_refl _)
  by_cases htuple : t.isTuple = true
  · obtain ⟨ts, rfl⟩ := Ty.exists_tuple htuple
    obtain ⟨slot, hslot, hnode, hsize⟩ := h.slot_rvalue hs
    have hoffset : cx.frame.slotAt site.id = slot.offset := by
      rw [hC.suits.frame, ← hnode, FrameLayout.slotAt_eq hC.suits.nodup hslot]
    have hown : site.id ∈ (FrameUsage.ofCharge site.id
        ((rvalue site p).ownCharge C.room.types .value)).nodes := by
      rw [ownCharge, TypeTable.typeOf_eq hs]
      exact List.mem_singleton_self _
    have hother : ∀ i ∈ (p.usage C.room.types .address).nodes, i ∉ [slot.node] := by
      rintro i hi hi'
      cases List.mem_singleton.mp hi'
      exact hserves.disjoint hown (hnode ▸ hi)
    have hstack : ∀ a,
        C.room.Touches C.stage.fp [slot.node] (s.sp - ((Ty.tuple ts).size + 12 : Nat)) s.sp a →
        C.room.Touches C.stage.fp [slot.node] C.bottom s.sp a :=
      fun a ha => ha.mono (List.Subset.refl _) (by omega) (Int.le_refl _)
    have hfloor := hC.base_le
    obtain ⟨s₂, hs₂, hloaded⟩ := acts_pinned hC.laid hC.addresses hC.frame.1 hC.frame.2 hslot hsize
      hsolid hwithin.1 hwithin.2 htop (by omega) fun a ha ha' htouches => by
        rw [hdrop] at htouches
        exact hapart _ hother a ha ha' (hstack a htouches)
    rw [hdrop, hread] at hloaded
    have hslots : [slot.node] ⊆ ((rvalue site p).usage C.room.types .value).nodes := by
      rw [hnode, usage, FrameUsage.nodes_append]
      exact List.cons_subset.mpr ⟨List.mem_append_left _ hown, List.nil_subset _⟩
    have hprivate : ∀ a,
        C.room.Touches C.stage.fp [slot.node] (s.sp - ((Ty.tuple ts).size + 12 : Nat)) s.sp a →
        C.Private ((rvalue site p).usage C.room.types .value).nodes s.sp a :=
      fun a ha => .inl ((hstack a ha).mono hslots (Int.le_refl _) (Int.le_refl _))
    refine ⟨s₂,
      by rw [hoffset]; exact hs₂, hagrees.of_private hC hsp (hloaded.changes.mono hprivate), ?_⟩
    exact (hloaded.mono fun a ha => .inr (hprivate a ha)).after hdrop hchanges
  · have hscalar : t.Scalar := by
      refine ⟨by simpa using htuple, hvoid, ?_⟩
      rintro rfl
      cases hsound.1
    obtain ⟨s₂, hs₂, hfetched⟩ :=
      acts_fetch C.stage.fp hC.addresses hscalar htop hwithin.1 (by omega)
    rw [hdrop, hread] at hfetched
    refine ⟨s₂, ?_,
      hC.settle (d := s₁.drop Ty.wordSize) hsp (by omega) hchanges hagrees hdrop rfl hfetched⟩
    rw [← hs₂]
    congr 1
    obtain ⟨hne, hv, ha⟩ := hscalar
    cases t with
    | tuple => cases hne
    | void => exact absurd rfl hv
    | auto => exact absurd rfl ha
    | _ => rfl

/-- A tuple that is read where its address is wanted stays where it is. -/
theorem performs_rvalue_address {site : Site} {p : Expr}
    (hC : C.Sound cx) (h : (rvalue site p).Sits Ty.Sound C.room scope .address)
    (hp : p.Performs C cx scope .address) :
    (rvalue site p).Performs C cx scope .address := by
  intro n hn
  obtain ⟨-, t, ⟨hpt', -⟩, hs⟩ := h.typed
  have hptype : p.type C.room.types = t := TypeTable.typeOf_eq hpt'
  have htype : (rvalue site p).type C.room.types = t := TypeTable.typeOf_eq hs
  have hleaves := h.leaves
  rw [leaves, TypeTable.typeOf_eq hs] at hleaves
  obtain ⟨ts, rfl⟩ : ∃ ts, t = .tuple ts := by
    by_cases htuple : t.isTuple = true
    · exact Ty.exists_tuple htuple
    · rw [if_neg fun h => htuple h.2] at hleaves
      cases hleaves
  rw [outline, Outline.finds_expression, Outline.finds_append] at hn
  have hplace := hp n hn.1
  rw [hptype] at hplace
  have hnodes : (p.usage C.room.types .address).nodes ⊆
      ((rvalue site p).usage C.room.types .address).nodes := by
    rw [usage, FrameUsage.nodes_append]
    exact List.subset_append_right _ _
  rw [outline, hC.suits.types, TypeTable.typeOf_eq hs, htype, locate, Outline.code_piece,
    Outline.code_append, Outline.code_ofCode, readInstrs, List.append_nil, need, Nat.add_assoc]
  exact hplace.mono (Nat.le_add_right _ _) fun l s s' _ _ hshows => hshows.mono hnodes

/-- **The address of a place is the value of the expression.** -/
theorem performs_addressOf {site : Site} {p : Expr}
    (h : (addressOf site p).Sits Ty.Sound C.room scope .value)
    (hp : p.Performs C cx scope .address) :
    (addressOf site p).Performs C cx scope .value := by
  intro n hn
  obtain ⟨-, t, -, hs⟩ := h.typed
  have htype : (addressOf site p).type C.room.types = .pointer t := TypeTable.typeOf_eq hs
  rw [outline, Outline.finds_expression] at hn
  have hplace := hp n hn
  rw [outline, Outline.code_piece, htype, value, usage, need]
  refine (hplace.le (Nat.le_add_right _ 8)).still
    fun l s s₁ w σ σ' v hsp hroom hshows hagrees hv => ?_
  obtain ⟨a, σ₁, ha, hpure⟩ := Course.bind_eq_some.mp hv
  obtain ⟨haddress, rfl⟩ := Course.lift_eq_some.mp ha
  obtain ⟨rfl, rfl⟩ := Course.pure_eq_some.mp hpure
  cases l with
  | held => cases haddress
  | place =>
    cases haddress
    exact ⟨hagrees, Store.Gains.retype hshows scalar_int (scalar_pointer t) (by simp)⟩

/-- **What is assigned goes to its place**, and is the value of the expression. -/
theorem performs_assignment (hC : C.Sound cx) {site : Site} {p v : Expr}
    (h : (assignment site p v).Sits Ty.Sound C.room scope .value)
    (hp : p.Performs C cx scope .address) (hv : v.Performs C cx scope .value) :
    (assignment site p v).Performs C cx scope .value := by
  intro n hn
  obtain ⟨⟨hpt, -⟩, t, u, ⟨hpt', hsound⟩, hvt, ⟨htt, hut⟩, hf, hs⟩ := h.typed
  have hvoid : t ≠ .void := by
    rw [← hC.suits.types] at hpt hpt'
    exact hpt.ne_void_of_isPlace (fun h => h.full.ne_void) h.names hpt' h.placed.1.1
  have hscalar : t.Scalar := ⟨htt, hvoid, fun ha => by rw [ha] at hsound; cases hsound.1⟩
  have hptype : p.type C.room.types = t := TypeTable.typeOf_eq hpt'
  have hvtype : v.type C.room.types = u := TypeTable.typeOf_eq hvt
  have htype : (assignment site p v).type C.room.types = t := TypeTable.typeOf_eq hs
  rw [outline, Outline.finds_expression] at hn
  simp only [Outline.finds_append] at hn
  have hvalue := hv n hn.1.1.1.1
  have hplace := hp _ hn.1.2
  rw [hvtype] at hvalue
  rw [hptype] at hplace
  rw [outline, Outline.code_piece, htype, usage, FrameUsage.nodes_append, value, need]
  simp only [Outline.code_append, Outline.code_ofCode, hC.suits.types, hC.types,
    TypeTable.typeOf_eq hs, hvtype]
  -- The value is widened, and doubled: one copy is stored, and the other one is left.
  have hdoubled := hvalue.aside (widenInstrs t u ++ [if t = .double then .dupDouble else .dupInt])
    (Q := fun x s s₁ => ∃ s₀,
      s.Gains s₀ (C.Alters (v.usage C.room.types .value).nodes s.sp) t (x.widened t) ∧
      s₀.Gains s₁ (Below s₀.sp 8) t (x.widened t)) (Nat.le_add_right _ 16)
    fun x s s₀ w σ hsp hroom hg hagrees => by
      obtain ⟨s₁, hs₁, hfits⟩ :=
        acts_fits C.stage.fp (hg.here (Below s.sp 8)) hscalar hut hf fun a ha => by
        rwa [Store.sp_drop, hg.sp] at ha
      obtain ⟨hagrees₁, hg₁⟩ :=
        hC.settle (d := s₀.drop _) hsp (by omega) hg.changes hagrees hg.sp rfl hfits
      obtain ⟨s₂, hs₂, hdup⟩ := acts_dup C.stage.fp hg₁ hscalar
      have hle := hg₁.sp
      have hsize := hscalar.size_le
      obtain ⟨hagrees₂, -⟩ := hC.push [] (by omega) (by omega) hagrees₁ hdup
      refine ⟨s₂, ?_, hagrees₂, s₁, hg₁, hdup⟩
      rw [acts_append, hs₁, Option.bind_some, hs₂]
  rw [List.append_assoc (v.outline cx scope .value n).code]
  refine hdoubled.both (k := 16) (fun x s s₁ hx => ?_) hplace (by omega) (by omega)
    fun x l s s₁ s₂ w σ σ' z hsp hroom hx hshows hagrees hz => ?_
  · obtain ⟨s₀, hg, hdup⟩ := hx
    have := hg.sp
    have := hdup.sp
    have := hscalar.size_le
    omega
  · obtain ⟨s₀, hg, hdup⟩ := hx
    obtain ⟨y, σ₁, hassign, hpure⟩ := Course.bind_eq_some.mp hz
    obtain ⟨rfl, rfl⟩ := Course.pure_eq_some.mp hpure
    have hle₀ := hg.sp
    have hle₁ := hdup.sp
    have hsize := hscalar.size_le
    obtain ⟨a, haddress, hagrees', hwritten⟩ :=
      hC.assigned hscalar hshows hg.value hagrees hassign s₀.sp
    have hkept : ∀ a, s₁.sp ≤ a → a < s.sp →
        ¬C.Alters (p.usage C.room.types .address).nodes s₁.sp a :=
      fun a ha ha' => hC.not_alters_stack ha (by omega) (by omega)
    have hs₃ := acts_assign C.stage.fp hdup hscalar haddress fun a ha ha' => hkept a ha (by omega)
    -- What is on the stack below the place is left alone.
    have hvalue : M.read (M.write s₂.memory (M.toInt a) (x.widened t)) s₀.sp t = x.widened t := by
      have hsolid := Ty.solid_of_scalar hscalar
      rw [hwritten.read_eq hsolid fun b hb hb' hW => hW.2 ⟨by omega, by omega⟩,
        haddress.changes.read_eq hsolid fun b hb hb' => hkept b (by omega) (by omega),
        hdup.changes.read_eq hsolid fun b hb _ hW => ?_, hg.value]
      have := hW.2
      omega
    refine ⟨_, hs₃, hagrees', hle₀, hvalue, ?_⟩
    refine ((hg.changes.mono fun b hb => ?_).trans (hdup.changes.mono fun b hb => ?_)).trans
      ((haddress.changes.mono fun b hb => ?_).trans (hwritten.mono fun b hb => ?_))
    · exact hb.mono (List.subset_append_right _ _) (Int.le_refl _)
    · exact .inr (Scene.private_below (k := 16) (by omega)
        ⟨by have := hb.1; omega, by have := hb.2; omega⟩)
    · exact hb.mono (List.subset_append_left _ _) (by omega)
    · exact hb.1.mono (List.subset_append_left _ _) (by omega)

/-! ### Operators -/

/-- **An operand is computed as what is wanted**: a word, or a double that may have been widened. -/
structure Offers (C : M.Scene W) (is : List Instr) (c : M.Course W M.Value) (n : Nat)
    (ids : List NodeId) (t : Ty) : Prop where
  /-- A word. -/
  word : t.Scalar → t ≠ .double →
    C.Carries is (.word c) n fun x s s' => s.Operand s' (C.Alters ids s.sp) M.word x
  /-- A double. -/
  real : t.IsNumber → C.Carries (is ++ widenInstrs .double t) (.real c) (n + 8) fun x s s' =>
    s.Operand s' (C.Alters ids s.sp) M.real x

/-- What an expression leaves on the stack is an operand. -/
theorem Performs.offers (hC : C.Sound cx) {e : Expr} {t : Ty} (h : e.Performs C cx scope .value)
    (ht : e.type C.room.types = t) (hn : (e.outline cx scope .value n).Finds M C.stage.texts) :
    Offers C (e.outline cx scope .value n).code (e.value C.stage scope) (e.need C.room.types)
      (e.usage C.room.types .value).nodes t := by
  have h := h n hn
  rw [ht] at h
  constructor
  · intro hscalar hd
    refine h.still fun v s s' w σ σ' x _ _ hg hagrees hx => ?_
    obtain ⟨hword, rfl⟩ := Course.lift_eq_some.mp hx
    have hv := hg.eq_word hscalar hd
    subst hv
    cases hword
    exact ⟨hagrees, hg.operand_word hscalar⟩
  · intro hnumber
    refine h.acts (Nat.le_add_right _ _) fun v s s₁ w σ σ' x hsp hroom hg hagrees hx => ?_
    obtain ⟨hreal, rfl⟩ := Course.lift_eq_some.mp hx
    obtain ⟨y, s₂, hy, hs₂, hwidened⟩ :=
      acts_widen C.stage.fp (hg.here (Below s.sp 8)) hnumber fun a ha => by
      rwa [Store.sp_drop, hg.sp] at ha
    obtain ⟨hagrees', hresult⟩ :=
      hC.settle (d := s₁.drop _) hsp (by omega) hg.changes hagrees hg.sp rfl hwidened
    rw [hy, Option.some.injEq] at hreal
    subst hreal
    exact ⟨s₂, hs₂, hagrees', hresult.operand_real⟩

theorem performs_unary (hC : C.Sound cx) {site : Site} {op : UnaryOp} {a : Expr}
    (h : (unary site op a).Sits Ty.Sound C.room scope .value) (ha : a.Performs C cx scope .value) :
    (unary site op a).Performs C cx scope .value := by
  intro n hn
  obtain ⟨-, t, ⟨hat, -⟩, hop, hs⟩ := h.typed
  have hatype : a.type C.room.types = t := TypeTable.typeOf_eq hat
  have htype : (unary site op a).type C.room.types = t := TypeTable.typeOf_eq hs
  rw [outline, Outline.finds_expression, Outline.finds_append] at hn
  have hvalue := ha n hn.1
  rw [hatype] at hvalue
  rw [outline, hC.suits.types, TypeTable.typeOf_eq hs, htype, value, usage, Outline.code_piece,
    Outline.code_append, Outline.code_ofCode, need]
  refine hvalue.acts (Nat.le_add_right _ _) fun v s s₁ w σ σ' x hsp hroom hg hagrees hx => ?_
  obtain ⟨hresult, rfl⟩ := Course.lift_eq_some.mp hx
  obtain ⟨y, s₂, hy, hs₂, hcomputed⟩ :=
    acts_unary C.stage.fp (hg.here (Below s.sp 8)) hop fun a ha => by
    rwa [Store.sp_drop, hg.sp] at ha
  rw [hy, Option.some.injEq] at hresult
  subst hresult
  exact ⟨s₂, hs₂, hC.settle (d := s₁.drop _) hsp (by omega) hg.changes hagrees hg.sp rfl hcomputed⟩

section Operands

variable {X α : Type} {k n₁ n₂ : Nat} {c : Codec M.Byte X k} {is js ks : List Instr}
  {c₁ c₂ : M.Course W X}
  {ids ids' : List NodeId}

/-- The first operand stays where it is while the second one is computed. -/
theorem operands_of_operand (hC : C.Sound cx) {s s₁ s₂ : M.Store} {x y : X} (hsp : s.sp ≤ C.base)
    (hbottom : C.bottom ≤ s₁.sp) (h : s.Operand s₁ (C.Alters ids s.sp) c x)
    (h' : s₁.Operand s₂ (C.Alters ids' s₁.sp) c y) :
    s.Operands s₂ (C.Alters (ids ++ ids') s.sp) c x y := by
  have hle := h.sp
  refine (h.mono fun a ha => ha.mono (List.subset_append_left _ _) (Int.le_refl _)).and h'
    (fun a ha => ?_)
    fun a ha ha' => ?_
  · exact ha.mono (List.subset_append_right _ _) (by omega)
  · exact hC.not_alters_stack ha (by omega) (by omega)

/-- **Two operands are computed, and then combined.** -/
theorem carries_operands (hC : C.Sound cx)
    (h₁ : C.Carries is c₁ n₁ fun x s s' => s.Operand s' (C.Alters ids s.sp) c x)
    (h₂ : C.Carries js c₂ n₂ fun y s s' => s.Operand s' (C.Alters ids' s.sp) c y) {t : Ty}
    (f : X → X → M.Value) (g : X → X → α)
    (hacts : ∀ x y (s s₂ : M.Store), s.Operands s₂ (Below s.sp 12) c x y →
      ∃ s₃, M.acts C.stage.fp s₂ ks = some s₃ ∧ s.Gains s₃ (Below s.sp 12) t (f x y)) :
    C.Carries (is ++ js ++ ks) (c₁ >>= fun x => c₂ >>= fun y => pure (g x y)) (n₁ + n₂ + (k + 12))
      fun z s s' =>
      ∃ x y, z = g x y ∧ s.Gains s' (C.Alters (ids ++ ids') s.sp) t (f x y) := by
  refine h₁.both (k := k) (fun x s s' h => ?_) h₂ (by omega) (by omega)
    fun x y s s₁ s₂ w σ σ' z hsp hroom hx hy hagrees hz => ?_
  · have := h.sp
    omega
  · obtain ⟨rfl, rfl⟩ := Course.pure_eq_some.mp hz
    have hle := hx.sp
    have hboth := operands_of_operand hC hsp (by omega) hx hy
    obtain ⟨s₃, hs₃, hg⟩ := hacts x y _ s₂ (hboth.here _)
    rw [Store.sp_drop, Store.sp_drop, hboth.sp] at hg
    obtain ⟨hagrees', hresult⟩ :=
      hC.settle (d := (s₂.drop k).drop k) hsp (by omega) hboth.changes hagrees hboth.sp rfl hg
    exact ⟨s₃, hs₃, hagrees', x, y, rfl, hresult⟩

end Operands

/-- **The place of a pointer is as many steps further as the index says.** -/
theorem performs_pointerIndex (hC : C.Sound cx) {site : Site} {b i : Expr}
    (h : (pointerIndex site b i).Sits Ty.Sound C.room scope .address)
    (hb : b.Performs C cx scope .value) (hi : i.Performs C cx scope .value) :
    (pointerIndex site b i).Performs C cx scope .address := by
  intro n hn
  obtain ⟨-, hit, t, ⟨hbt, -⟩, -, hs⟩ := h.typed
  have hbtype : b.type C.room.types = .pointer t := TypeTable.typeOf_eq hbt
  have hitype : i.type C.room.types = .int := TypeTable.typeOf_eq hit
  rw [outline, Outline.finds_expression, Outline.finds_append, Outline.finds_append] at hn
  have h₁ := (hb.offers hC hbtype hn.1.1).word (scalar_pointer t) (by simp)
  have h₂ := (hi.offers hC hitype hn.1.2).word scalar_int (by simp)
  have hword : Ty.wordSize = 4 := rfl
  have hcourse : (do
      let w ← (Course.operate .add (.pointer t) .int (value C.stage scope b)
        (value C.stage scope i)).word
      pure (Located.place w)) = (value C.stage scope b).word >>= fun a =>
        (value C.stage scope i).word >>= fun k =>
          pure (Located.place (M.moved .add a k (max t.size 1))) := by
    rw [Course.operate_words (by simp) fun _ _ => rfl]
    simp only [Course.word, bind_assoc, pure_bind, Value.word?, Course.lift_some]
  rw [outline, hC.suits.types, Outline.code_piece, Outline.code_append, Outline.code_append,
    Outline.code_ofCode, locate, hC.types, hbtype, hitype, hcourse, usage, FrameUsage.nodes_append,
    need]
  refine (carries_operands hC h₁ h₂ (t := .int)
    (fun a k => .word (M.moved .add a k (max t.size 1))) _ fun a k s s₂ hboth => ?_).mono
    (by omega) ?_
  · obtain ⟨hacts, hscaled⟩ := hboth.scale C.stage.fp (fun a ha => ha) (max t.size 1)
    refine ⟨_, ?_, hscaled.word (fun a ha => ⟨by have := ha.1; omega, ha.2⟩) (M.words .add)
      scalar_int (by simp)⟩
    have hsplit : [Instr.int (Ty.pointer t).pointerStep, .mul, .add] =
        [.int (max t.size 1 : Nat), .mul] ++ [.add] := rfl
    rw [hsplit, acts_append, hacts]
    rfl
  · rintro l s s' - - ⟨a, k, rfl, hg⟩
    exact hg

/-- **The second operand of a connective is evaluated if the first one does not decide**, and only
then. -/
theorem carries_shortCircuit (hC : C.Sound cx) {op : BinaryOp} (hop : op = .and ∨ op = .or)
    {is js : List Instr} {c₁ c₂ : M.Course W M.Word} {ids ids' : List NodeId} {n₁ n₂ k : Nat}
    (h₁ : C.Carries is c₁ n₁ fun x s s' => s.Operand s' (C.Alters ids s.sp) M.word x)
    (h₂ : C.Carries js c₂ n₂ fun y s s' => s.Operand s' (C.Alters ids' s.sp) M.word y) :
    C.Carries (is ++ [.dupInt, decidedJump op (labelName k)] ++ js ++
      [wordInstr op, .label (labelName k)]) (c₁ >>= fun x =>
        if M.isZero x = decide (op = .and) then pure (Value.word x)
        else c₂ >>= fun y => pure (.word (M.words op x y))) (n₁ + n₂ + 12) fun v s s' =>
          s.Gains s' (C.Alters (ids ++ ids') s.sp) .int v := by
  rw [List.append_assoc, List.append_assoc]
  refine h₁.behind (by omega) fun x s s₁ code p a b w σ σ' v hsp hroom hx hm hc hagrees hv => ?_
  have hword : Ty.wordSize = 4 := rfl
  have hsp₁ := hx.sp
  -- The first operand is doubled, and the jump takes the copy.
  let s₂ := s₁.push M.word (s₁.top M.word)
  have htop : s₂.top M.word = x := (Store.top_push _ _ _).trans hx.top
  have hdup : M.Runs C.stage.fp code (p, s₁) (p + 1, s₂) := .single (step_act hc.left.head rfl)
  have hkept : s.Operand (s₂.drop Ty.wordSize) (C.Alters ids s.sp) M.word x := by
    refine ⟨by rw [sp_drop_push]; exact hsp₁, (top_drop_push _ _ _ _).trans hx.top,
      hx.changes.trans ((changes_push M.word _ s₁).mono fun a ha => .inr ?_)⟩
    unfold Below at ha
    exact Scene.private_below (k := 8) (by omega) ⟨by omega, by omega⟩
  have hpushed : Changes (C.Private ids s.sp) s₁.memory (s₂.drop Ty.wordSize).memory :=
    (changes_push M.word _ s₁).mono fun a ha => by
      unfold Below at ha
      exact Scene.private_below (k := 8) (by omega) ⟨by omega, by omega⟩
  have hagrees₂ := hagrees.of_private hC hsp hpushed
  have hlength : p + ([Instr.dupInt, decidedJump op (labelName k)] ++
      (js ++ [wordInstr op, .label (labelName k)])).length =
      p + 1 + 1 + js.length + 1 + 1 := by
    simp only [List.length_append, List.length_cons, List.length_nil]
    omega
  have hbehind : Holds code (p + 1 + 1) (js ++ [wordInstr op, .label (labelName k)]) := hc.right
  have hlast := hbehind.right
  have hlabel : code[p + 1 + 1 + js.length + 1]? = some (.label (labelName k)) := hlast.tail.head
  rw [hlength]
  by_cases hdecided : M.isZero x = decide (op = .and)
  · rw [if_pos hdecided] at hv
    obtain ⟨rfl, rfl⟩ := Course.pure_eq_some.mp hv
    have hjump :
        M.Runs C.stage.fp code (p + 1, s₂) (p + 1 + 1 + js.length + 1, s₂.drop Ty.wordSize) :=
      runs_decided hop hm hc.left.tail.head hlabel (htop ▸ hdecided)
    have hrun := (hdup.trans hjump).trans (.single (step_act hlabel rfl))
    refine ⟨[], w, _, Surroundings.goes_of_runs hrun w, hagrees₂, hkept.sp, ?_,
      hkept.changes.mono fun a ha => ?_⟩
    · rw [read_word scalar_int (by simp)]
      exact congrArg Value.word hkept.top
    · exact ha.mono (List.subset_append_left _ _) (Int.le_refl _)
  · rw [if_neg hdecided] at hv
    obtain ⟨y, σ₁, hy, hv⟩ := Course.bind_eq_some.mp hv
    obtain ⟨rfl, rfl⟩ := Course.pure_eq_some.mp hv
    have hpass : M.Runs C.stage.fp code (p + 1, s₂) (p + 1 + 1, s₂.drop Ty.wordSize) :=
      runs_undecided hop hc.left.tail.head (htop ▸ hdecided)
    have hle : (s₂.drop Ty.wordSize).sp + 4 = s.sp := hkept.sp
    obtain ⟨cs, w', s₃, hgoes, hagrees₃, hsecond⟩ :=
      h₂ hm hbehind.left (by omega) (by omega) hagrees₂ hy
    have hboth := operands_of_operand hC hsp (by omega) hkept hsecond
    have hlast' : M.Runs C.stage.fp code (p + 1 + 1 + js.length, s₃)
        (p + 1 + 1 + js.length + 1 + 1, s₃.combine M.word M.word (M.words op)) := by
      refine runs_acts hlast ?_
      rw [← List.singleton_append, acts_append, acts_wordInstr]
      rfl
    have hresult := (hboth.here (Below s.sp 8)).word (fun a ha => by
      rwa [Store.sp_drop, Store.sp_drop, hboth.sp] at ha) (M.words op) scalar_int (by simp)
    obtain ⟨hagrees', hg⟩ :=
      hC.settle (d := (s₃.drop _).drop _) hsp (by omega) hboth.changes hagrees₃ hboth.sp rfl hresult
    exact ⟨cs, w', _, ((Surroundings.goes_of_runs (hdup.trans hpass) w).behind hgoes).before
      (Surroundings.goes_of_runs hlast' w'), hagrees', hg⟩

section Binary

variable (hC : C.Sound cx) {t u v : Ty} {is js ks : List Instr} {c d : M.Course W M.Value}
  {ids ids' : List NodeId}
  {n₁ n₂ : Nat} (h : Offers C is c n₁ ids t) (h' : Offers C js d n₂ ids' u)

include hC h h'

/-- Two words are computed, and then combined. -/
theorem Offers.words (ht : t.Scalar ∧ t ≠ .double) (hu : u.Scalar ∧ u ≠ .double)
    (f : M.Word → M.Word → M.Value)
    (hacts : ∀ x y (s s₂ : M.Store), s.Operands s₂ (Below s.sp 12) M.word x y →
      ∃ s₃, M.acts C.stage.fp s₂ ks = some s₃ ∧ s.Gains s₃ (Below s.sp 12) v (f x y)) :
    C.Carries (is ++ js ++ ks) (Course.word c >>= fun x => Course.word d >>= fun y => pure (f x y))
      (n₁ + n₂ + 36)
      fun z s s' => s.Gains s' (C.Alters (ids ++ ids') s.sp) v z := by
  have hword : Ty.wordSize = 4 := rfl
  refine (carries_operands hC (h.word ht.1 ht.2) (h'.word hu.1 hu.2) f f hacts).mono (by omega) ?_
  rintro z s s' - - ⟨x, y, rfl, hg⟩
  exact hg

/-- Two numbers are computed and widened, and then combined. -/
theorem Offers.reals (ht : t.IsNumber) (hu : u.IsNumber) (f : M.Real → M.Real → M.Value)
    (hacts : ∀ x y (s s₂ : M.Store), s.Operands s₂ (Below s.sp 12) M.real x y →
      ∃ s₃, M.acts C.stage.fp s₂ ks = some s₃ ∧ s.Gains s₃ (Below s.sp 12) v (f x y)) :
    C.Carries (is ++ widenInstrs .double t ++ js ++ widenInstrs .double u ++ ks)
      (Course.real c >>= fun x => Course.real d >>= fun y => pure (f x y)) (n₁ + n₂ + 36)
        fun z s s' =>
        s.Gains s' (C.Alters (ids ++ ids') s.sp) v z := by
  have hdouble : Ty.doubleSize = 8 := rfl
  rw [List.append_assoc (is ++ _) js]
  refine (carries_operands hC (h.real ht) (h'.real hu) f f hacts).mono (by omega) ?_
  rintro z s s' - - ⟨x, y, rfl, hg⟩
  exact hg

/-- Two words are replaced by what an operator makes of them. -/
theorem Offers.combined (ht : t.Scalar ∧ t ≠ .double) (hu : u.Scalar ∧ u ≠ .double)
    (op : BinaryOp) :
    C.Carries (is ++ js ++ [wordInstr op])
      (Course.word c >>= fun x => Course.word d >>= fun y =>
        pure (.word (M.words op x y))) (n₁ + n₂ + 36) fun z s s' =>
        s.Gains s' (C.Alters (ids ++ ids') s.sp) .int z :=
  h.words hC h' ht hu (fun x y => .word (M.words op x y)) fun x y s s₂ hxy =>
    ⟨_, acts_wordInstr op _,
      hxy.word (fun a ha => ⟨by have := ha.1; omega, ha.2⟩) (M.words op) scalar_int (by simp)⟩

/-- **Arithmetic** is done with words if both operands are integers, and else with doubles. -/
theorem Offers.arithmetic {op : BinaryOp} (hop : op.IsArithmetic)
    (hnone : ¬(op = .and ∨ op = .or)) (ht : t.IsNumber) (hu : u.IsNumber) :
    C.Carries (is ++ widenInstrs (t.common u) t ++ js ++ widenInstrs (t.common u) u ++
        [arithmeticInstr op (t.common u)]) (Course.operate op t u c d) (n₁ + n₂ + 36)
      fun z s s' => s.Gains s' (C.Alters (ids ++ ids') s.sp) (t.common u) z := by
  by_cases hd : t = .double ∨ u = .double
  · rw [show t.common u = .double from if_pos hd, Course.operate_reals hnone ht hu hd]
    refine h.reals hC h' ht hu (M.ofReals op) fun x y s s₂ hxy => ⟨_, acts_arithmetic hop _, ?_⟩
    rw [ofReals_of_arithmetic hop]
    exact hxy.real (fun a ha => ⟨by have := ha.1; omega, ha.2⟩) (M.reals op)
  · obtain ⟨rfl, rfl⟩ := ht.eq_int hu hd
    have hint : Ty.int.Scalar ∧ Ty.int ≠ .double := ⟨scalar_int, by simp⟩
    rw [show Ty.int.common .int = .int from rfl, widenInstrs_int, List.append_nil, List.append_nil,
      Course.operate_words hnone fun _ _ => rfl]
    exact h.combined hC h' hint hint op

/-- **A comparison** is one of words if both operands are integers, and else one of doubles. -/
theorem Offers.comparison {op : BinaryOp} (hop : op.IsComparison)
    (hnone : ¬(op = .and ∨ op = .or)) (ht : t.IsNumber) (hu : u.IsNumber) {wide : Ty}
    (hwide : wide = if t = .double ∨ u = .double then .double else .int) :
    C.Carries (is ++ widenInstrs wide t ++ js ++ widenInstrs wide u ++
        ((if wide = .double then [.compareDouble, .int 0] else []) ++ [wordInstr op]))
      (Course.operate op t u c d) (n₁ + n₂ + 36)
      fun z s s' => s.Gains s' (C.Alters (ids ++ ids') s.sp) .int z := by
  by_cases hd : t = .double ∨ u = .double
  · rw [if_pos hd] at hwide
    rw [hwide, if_pos rfl, Course.operate_reals hnone ht hu hd]
    refine h.reals hC h' ht hu (M.ofReals op) fun x y s s₂ hxy => ?_
    rw [ofReals_of_comparison hop]
    exact acts_comparison C.stage.fp op hxy fun a ha => ⟨by have := ha.1; omega, ha.2⟩
  · obtain ⟨rfl, rfl⟩ := ht.eq_int hu hd
    have hint : Ty.int.Scalar ∧ Ty.int ≠ .double := ⟨scalar_int, by simp⟩
    rw [if_neg hd] at hwide
    rw [hwide, widenInstrs_int, List.append_nil, List.append_nil, if_neg hint.2, List.nil_append,
      Course.operate_words hnone fun _ _ => rfl]
    exact h.combined hC h' hint hint op

/-- **The code of a pointer operation** moves a pointer, or finds the distance of two. -/
theorem Offers.pointer {op : BinaryOp} (hop : BinaryOp.Operands op t u v .pointer)
    (hnone : ¬(op = .and ∨ op = .or)) (ht : t.Scalar ∧ t ≠ .double) (hu : u.Scalar ∧ u ≠ .double)
    {f : M.Word → M.Word → M.Value}
    (hf : ∀ a b, M.binary? op t u a b = (do pure (f (← a.word?) (← b.word?)))) :
    C.Carries (is ++ js ++ pointerTail op t u) (Course.operate op t u c d) (n₁ + n₂ + 36)
      fun z s s' => s.Gains s' (C.Alters (ids ++ ids') s.sp) v z := by
  rw [Course.operate_words hnone hf]
  refine h.words hC h' ht hu f fun x y s s₂ hxy => ?_
  obtain ⟨s₃, z, hs₃, hz, hg⟩ := acts_pointer C.stage.fp hop hxy fun a ha => ha
  rw [hf] at hz
  cases hz
  exact ⟨s₃, hs₃, hg⟩

end Binary

/-- **The operands of an operator are computed, and then combined.** -/
theorem performs_binary (hC : C.Sound cx) {site : Site} {op : BinaryOp} {a b : Expr}
    (h : (binary site op a b).Sits Ty.Sound C.room scope .value)
    (ha : a.Performs C cx scope .value) (hb : b.Performs C cx scope .value) :
    (binary site op a b).Performs C cx scope .value := by
  intro n hn
  obtain ⟨-, t, u, v, ⟨hat, -⟩, ⟨hbt, -⟩, hv, hs⟩ := h.typed
  have hoperands := BinaryOp.operands_of_resultType hv
  have hconnective := hoperands.connective_iff
  have hatype : a.type C.room.types = t := TypeTable.typeOf_eq hat
  have hbtype : b.type C.room.types = u := TypeTable.typeOf_eq hbt
  have htype : (binary site op a b).type C.room.types = v := TypeTable.typeOf_eq hs
  rw [outline, Outline.finds_expression] at hn
  rw [outline, Outline.code_piece, htype, usage, FrameUsage.nodes_append, value, need]
  simp only [hC.types, hC.suits.types, hatype, hbtype, TypeTable.typeOf_eq hs] at hn ⊢
  clear hv hs htype
  have hint : Ty.int.Scalar ∧ Ty.int ≠ .double := ⟨scalar_int, by simp⟩
  have hpointer : ∀ t, (Ty.pointer t).Scalar ∧ Ty.pointer t ≠ .double := fun t =>
    ⟨scalar_pointer t, by simp⟩
  generalize binaryForm op t u = form at hoperands hconnective hn
  have hnone : form ≠ .shortCircuit → ¬(op = .and ∨ op = .or) := mt hconnective.mp
  cases hoperands with
  | connective hop =>
    simp only [Outline.finds_append] at hn
    simp only [Outline.code_append, Outline.code_ofCode, Course.operate_connective hop]
    have h₁ := (ha.offers hC hatype hn.1.1.1).word hint.1 hint.2
    have h₂ := (hb.offers hC hbtype hn.1.2).word hint.1 hint.2
    exact (carries_shortCircuit hC hop h₁ h₂).le (by omega)
  | move hop =>
    simp only [Outline.finds_append] at hn
    simp only [Outline.code_append, Outline.code_ofCode]
    exact (ha.offers hC hatype hn.1.1).pointer hC (hb.offers hC hbtype hn.1.2) (.move hop)
      (hnone (by simp)) (hpointer _) hint fun _ _ => rfl
  | distance =>
    simp only [Outline.finds_append] at hn
    simp only [Outline.code_append, Outline.code_ofCode]
    exact (ha.offers hC hatype hn.1.1).pointer hC (hb.offers hC hbtype hn.1.2) .distance
      (hnone (by simp)) (hpointer _) (hpointer _) fun _ _ => rfl
  | compute hop ht hu =>
    simp only [Outline.finds_append] at hn
    simp only [Outline.code_append, Outline.code_ofCode]
    exact (ha.offers hC hatype hn.1.1.1.1).arithmetic hC (hb.offers hC hbtype hn.1.1.2) hop
      (hnone (by simp)) ht hu
  | remainder =>
    simp only [Outline.finds_append] at hn
    simp only [Outline.code_append, Outline.code_ofCode, widenInstrs_int, List.append_nil]
    rw [Course.operate_words (hnone (by simp)) fun _ _ => rfl]
    exact (ha.offers hC hatype hn.1.1.1.1).combined hC (hb.offers hC hbtype hn.1.1.2) hint hint .mod
  | compare hop ht hu =>
    simp only [Outline.finds_append] at hn
    simp only [Outline.code_append, Outline.code_ofCode]
    exact (ha.offers hC hatype hn.1.1.1.1).comparison hC (hb.offers hC hbtype hn.1.1.2) hop
      (hnone (by simp)) ht hu rfl
  | same hop =>
    simp only [Outline.finds_append] at hn
    have hd : ∀ t u, ¬(Ty.pointer t = .double ∨ Ty.pointer u = .double) := by simp
    simp only [Outline.code_append, Outline.code_ofCode, if_neg (hd _ _), widenInstrs_int,
      List.append_nil, if_neg hint.2, List.nil_append]
    rw [Course.operate_words (hnone (by simp)) fun _ _ => rfl]
    exact (ha.offers hC hatype hn.1.1.1.1).combined hC (hb.offers hC hbtype hn.1.1.2)
      (hpointer _) (hpointer _) op

end Expr

end PostfixCompiler
