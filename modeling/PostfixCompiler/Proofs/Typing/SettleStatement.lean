import PostfixCompiler.Proofs.Typing.Settle

/-!
# Checked statements are settled

A statement is checked again by the same steps: its declarations define the same symbols, as the
types of initializers are read off the table, and its returns refine the type of the result in the
same order. So all that a second check leaves out is what happens below expressions.

The one type that may stay open is that of fresh memory which initializes variables. It is given the
type that is written for them if that is a pointer; and among the other types that can be written
there, only a tuple of one component unifies with a pointer.

## Main statements

* `PostfixCompiler.VarDecl.lasts_check`: the check of a declaration lasts.
* `PostfixCompiler.Stmt.lasts_check`: the check of a statement lasts.
-/

namespace PostfixCompiler

open Typing

/-- A type that is no pointer unifies with that of fresh memory if it is left open, or if there is a
tuple of one component around it. -/
theorem Ty.singleton_of_compatible {o : CompatOptions} {w t : Ty}
    (h : w.compatible? o (.pointer .auto) = some t) (ht : t.Known) (hw : w.isPointer = false) :
    ∃ u, w = .tuple [u] := by
  by_contra hne
  have hplural : w.IsPlural := by
    unfold IsPlural
    split
    · exact hne ⟨_, rfl⟩
    · trivial
  have hu := unifies_of_compatible h
  rw [stripped_of_isPlural hplural, stripped_of_isPlural (t := .pointer .auto) trivial] at hu
  cases hu with
  | fillLeft => cases ht
  | scalar | pointer => cases hw

/-! ### Declarations -/

namespace VarDecl

variable {s : State}

/-- Variables are declared without a look at the table. -/
theorem lasts_declareEach (d : VarDecl) {bs : List (String × Ty)} (ho : s.Orderly) :
    Ends (d.declareEach bs) s fun _ s' => Lasts (d.declareEach bs) [] (fun _ _ => []) s () s' := by
  induction bs generalizing s with
  | nil => exact .skip ho fun _ => rfl
  | cons b bs ih =>
    simp only [declareEach, ends_bind, ends_get, ends_require, ends_define]
    intro hfree
    refine (ih (ho.define hfree (by simp [Symbol.ofVariable, Symbol.isFunction]))).mono
      fun _ s' h => ?_
    exact .declare hfree h

/-- The form of a declaration does not depend on anything else. -/
theorem ends_checkForm_skip (d : VarDecl) (isGlobal : Bool) :
    Ends (d.checkForm isGlobal) s fun _ s' => s = s' ∧
    ∀ st, d.checkForm isGlobal st = .ok () st := by
  simp only [checkForm, ends_bind, ends_require]
  intro h₁ h₂ h₃ h₄ h₅ h₆ h₇
  refine ⟨trivial, ?_⟩
  rw [require_bind h₁, require_bind h₂, require_bind h₃, require_bind h₄, require_bind h₅,
    require_bind h₆]
  exact require_eq_ok h₇

/-- To unify the written type with that of the initializer does not depend on anything else. -/
theorem ends_unify_skip (d : VarDecl) (u : Ty) :
    Ends (d.unify u) s fun t s' => s = s' ∧ (∀ st, d.unify u st = .ok t st) ∧
      (d.type.compatible? .initializer u = some t ∨ u.isTuple = true) := by
  unfold unify
  split
  · split
    · rename_i t hcompatible
      exact ⟨rfl, fun _ => by simp only [hcompatible]; rfl, .inl hcompatible⟩
    · exact ends_fault
  · split
    · split
      · exact ⟨rfl, fun _ => rfl, .inr rfl⟩
      · exact ends_fault
    · exact ends_fault

/-- **The type of a declaration is decided for good**, where it is known. -/
theorem lasts_declaredType {d : VarDecl} (hs : Good Ty.Known s) (ho : s.Orderly)
    (hr : Ready (Expr.idsOfOption d.initializer) s) (hw : d.WellPlaced) {isGlobal : Bool}
    (ht : d.type = .auto ∨ d.type.Known) :
    Ends (d.declaredType isGlobal) s fun t s' => t.Known →
      Lasts (d.declaredType isGlobal) (Expr.idsOfOption d.initializer)
        (fun _ Γ => d.uses Γ) s t s' := by
  have hw' := hw.2
  cases hinit : d.initializer with
  | none =>
    simp only [declaredType, uses, hinit]
    exact fun _ => .skip ho fun _ => rfl
  | some e =>
    rw [hinit] at hr hw'
    simp only [declaredType, uses, hinit, ends_bind, ends_require]
    intro hliteral
    refine (Ends.fitted hr ht.symm ((Expr.notes hw'.2).found hw'.2 hs hr)).mono
      fun _ _ h => h.mono fun _ _ h => h.mono fun u s₁ h => ?_
    refine (d.ends_unify_skip u).mono ?_
    rintro t _ ⟨rfl, hunify, hcompatible⟩ hk
    have hu : u.Known ∨ e.isFresh = true ∧ ∃ w, some d.type = some (.tuple [w]) := by
      refine h.known.imp_right ?_
      rintro ⟨hfresh, rfl, hscalar⟩
      obtain ⟨w, hw⟩ :=
        Ty.singleton_of_compatible (hcompatible.resolve_right (by simp [Ty.isTuple])) hk hscalar
      exact ⟨hfresh, w, by rw [hw]⟩
    have hfit := h.noted.lasts ho h.fills h.type hu h.again
    rw [require_bind hliteral, Expr.fit_bind]
    exact hfit.bind_skip hunify

/-- **The check of a declaration lasts.** -/
theorem lasts_check {d : VarDecl} (hs : Good Ty.Known s) (ho : s.Orderly) (hr : Ready d.ids s)
    (hw : d.WellPlaced) :
    Ends d.check s fun _ s' => Lasts d.check d.ids (fun _ Γ => d.uses Γ) s () s' := by
  obtain ⟨hid, -, hinit⟩ := ready_cons.mp hr
  simp only [check, ends_bind, ends_get]
  refine ((d.ends_checkForm_skip _).and (ends_checkForm hw (Q := fun _ _ =>
    (d.type = .auto ∨ d.type.Known) ∧ (d.initializer = none → d.names.length = 1 ∧ d.type ≠ .auto))
    fun h h' => ⟨h, h'⟩)).mono ?_
  rintro _ _ ⟨⟨rfl, hform⟩, hknown, hnone⟩
  refine ((ends_declaredType Ty.stable_known hs hinit hw hknown hnone).and
    (lasts_declaredType hs ho hinit hw hknown)).mono ?_
  rintro t s₁ ⟨h₁, l₁⟩
  simp only [ends_require]
  intro hk hv
  have hknown' : t.Known := by simpa using hk
  have l₁ := l₁ hknown'
  have hstorable : ∀ b ∈ d.names.zip (d.typesOfNames t), Ty.Storable Ty.Known b.2 := fun b hb =>
    storable_typesOfNames Ty.stable_known hknown' (by simpa using hv) b.2
      (List.of_mem_zip (a := b.1) (b := b.2) hb).2
  refine ((ends_declareEach Ty.stable_known d (hs.fills h₁.fills) hstorable).and
    (lasts_declareEach d l₁.orderly)).mono ?_
  rintro _ s₂ ⟨⟨hb, _⟩, l₂⟩
  rw [ends_setType]
  have hmoves : Fills [d.id] s₂ (s₂.record d.id t) := .record s₂ d.id t
  have hag : s₁.types.Agrees (s₂.record d.id t).types (Expr.idsOfOption d.initializer) := by
    intro i hi u hu
    rw [hmoves.types i (not_mem_singleton hid i hi), hb.moves.types i (by simp)]
    exact hu
  have hbind :=
    l₂.seq (f := fun _ => setType d.id t) (.setType l₂.orderly) (by simp [TypeTable.Agrees])
  refine .get ?_ fun _ => rfl
  rw [skip_bind hform]
  refine (l₁.seq (hbind.of_eq ?_) hag).mono ?_ ?_
  · rw [require_bind hk, require_bind hv]
  · simp [ids]
  · simp

end VarDecl

namespace Typing

variable {s : State}

/-! ### Phrases in order -/

theorem lasts_checkDeclarations {ds : List VarDecl} (hs : Good Ty.Known s) (ho : s.Orderly)
    (hr : Ready (VarDecl.idsOfAll ds) s) (hw : ∀ d ∈ ds, d.WellPlaced) :
    Ends (checkDeclarations ds) s fun _ s' =>
      Lasts (checkDeclarations ds) (VarDecl.idsOfAll ds)
        (fun T Γ => VarDecl.usesOfAll T Γ ds) s () s' := by
  induction ds generalizing s with
  | nil => exact .skip ho fun _ => rfl
  | cons d ds ih =>
    obtain ⟨hd, hds, hdis⟩ := ready_append.mp hr
    rw [List.forall_mem_cons] at hw
    simp only [checkDeclarations, ends_bind]
    refine ((VarDecl.ends_check Ty.stable_known hs hd hw.1 id).and
      (VarDecl.lasts_check hs ho hd hw.1)).mono ?_
    rintro _ s₁ ⟨⟨hbinds, hs₁, _⟩, l₁⟩
    have hds₁ := hbinds.moves.ready hds hdis
    refine ((ends_checkDeclarations Ty.stable_known hs₁ hds₁ hw.2 fun _ _ h => h).and
      (ih hs₁ l₁.orderly hds₁ hw.2)).mono ?_
    rintro _ s₂ ⟨⟨hbinds', _⟩, l₂⟩
    exact l₁.bind (f := fun _ => _) (fun T Γ => View.bindAll Γ (d.binding T)) l₂
      (hbinds'.moves.agrees hdis)

theorem lasts_checkLoopInits {is : List LoopInit} (hs : Good Ty.Known s) (ho : s.Orderly)
    (hr : Ready (LoopInit.idsOfAll is) s) (hw : ∀ i ∈ is, i.WellPlaced) :
    Ends (checkLoopInits is) s fun _ s' =>
      Lasts (checkLoopInits is) (LoopInit.idsOfAll is)
        (fun T Γ => LoopInit.usesOfAll T Γ is) s () s' := by
  induction is generalizing s with
  | nil => exact .skip ho fun _ => rfl
  | cons i is ih =>
    obtain ⟨hi, his, hdis⟩ := ready_append.mp hr
    rw [List.forall_mem_cons] at hw
    cases i with
    | declare d =>
      simp only [checkLoopInits, ends_bind]
      refine ((VarDecl.ends_check Ty.stable_known hs hi hw.1 id).and
        (VarDecl.lasts_check hs ho hi hw.1)).mono ?_
      rintro _ s₁ ⟨⟨hbinds, hs₁, _⟩, l₁⟩
      have his₁ := hbinds.moves.ready his hdis
      refine ((ends_checkLoopInits Ty.stable_known hs₁ his₁ hw.2 fun _ _ h => h).and
        (ih hs₁ l₁.orderly his₁ hw.2)).mono ?_
      rintro _ s₂ ⟨⟨hbinds', _⟩, l₂⟩
      exact l₁.bind (f := fun _ => _) (fun T Γ => View.bindAll Γ (d.binding T)) l₂
        (hbinds'.moves.agrees hdis)
    | evaluate e =>
      simp only [checkLoopInits, ends_bind]
      refine ((ends_checkKnown Ty.stable_known hs hi hw.1.2).and
        (Expr.lasts_checkKnown hs ho hi hw.1.2)).mono ?_
      rintro t s₁ ⟨h₁, l₁⟩
      have hs₁ := hs.fills h₁.1
      have his₁ := h₁.1.ready his hdis
      refine ((ends_checkLoopInits Ty.stable_known hs₁ his₁ hw.2 fun _ _ h => h).and
        (ih hs₁ l₁.orderly his₁ hw.2)).mono ?_
      rintro _ s₂ ⟨⟨hbinds', _⟩, l₂⟩
      exact l₁.seq l₂ (hbinds'.moves.agrees hdis)

theorem lasts_checkPrinted {es : List Expr} (hs : Good Ty.Known s) (ho : s.Orderly)
    (hr : Ready (Expr.idsOfAll es) s) (hw : Expr.AllValues es) :
    Ends (checkPrinted es) s fun _ s' =>
      Lasts (checkPrinted es) (Expr.idsOfAll es) (fun _ Γ => Expr.usesOfAll Γ es) s () s' := by
  induction es generalizing s with
  | nil => exact .skip ho fun _ => rfl
  | cons e es ih =>
    obtain ⟨he, hes, hdis⟩ := ready_append.mp hr
    simp only [checkPrinted, ends_bind, ends_require]
    refine ((ends_checkKnown Ty.stable_known hs he hw.1.2).and
      (Expr.lasts_checkKnown hs ho he hw.1.2)).mono ?_
    rintro t s₁ ⟨h₁, l₁⟩ hprint
    have hs₁ := hs.fills h₁.1
    have hes₁ := h₁.1.ready hes hdis
    refine ((ends_checkPrinted Ty.stable_known hs₁ hes₁ hw.2).and
      (ih hs₁ l₁.orderly hes₁ hw.2)).mono ?_
    rintro _ s₂ ⟨h₂, l₂⟩
    exact l₁.seq (l₂.of_eq (require_bind hprint)) (h₂.fills.agrees hdis)

theorem lasts_checkEvaluated {es : List Expr} (hs : Good Ty.Known s) (ho : s.Orderly)
    (hr : Ready (Expr.idsOfAll es) s) (hw : Expr.AllValues es) :
    Ends (checkEvaluated es) s fun _ s' =>
      Lasts (checkEvaluated es) (Expr.idsOfAll es) (fun _ Γ => Expr.usesOfAll Γ es) s () s' := by
  induction es generalizing s with
  | nil => exact .skip ho fun _ => rfl
  | cons e es ih =>
    obtain ⟨he, hes, hdis⟩ := ready_append.mp hr
    simp only [checkEvaluated, ends_bind]
    refine ((ends_checkKnown Ty.stable_known hs he hw.1.2).and
      (Expr.lasts_checkKnown hs ho he hw.1.2)).mono ?_
    rintro t s₁ ⟨h₁, l₁⟩
    have hs₁ := hs.fills h₁.1
    have hes₁ := h₁.1.ready hes hdis
    refine ((ends_checkEvaluated Ty.stable_known hs₁ hes₁ hw.2).and
      (ih hs₁ l₁.orderly hes₁ hw.2)).mono ?_
    rintro _ s₂ ⟨h₂, l₂⟩
    exact l₁.seq l₂ (h₂.fills.agrees hdis)

theorem lasts_checkCondition {e : Expr} (hs : Good Ty.Known s) (ho : s.Orderly) (hr : Ready e.ids s)
    (hw : e.WellPlaced) :
    Ends (checkCondition e) s fun _ s' =>
      Lasts (checkCondition e) e.ids (fun _ Γ => Expr.usesOfAll Γ [e]) s () s' := by
  simp only [checkCondition, ends_bind, ends_require]
  refine (Expr.lasts_checkKnown hs ho hr hw).mono fun t s' h hint => ?_
  exact h.bind_skip (require_eq_ok hint)

theorem lasts_checkLoopCondition {c : Option Expr} (hs : Good Ty.Known s) (ho : s.Orderly)
    (hr : Ready (Expr.idsOfOption c) s) (hw : Expr.IsOptionalValue c) :
    Ends (checkLoopCondition c) s fun _ s' => Lasts (checkLoopCondition c) (Expr.idsOfOption c)
      (fun _ Γ => Expr.usesOfAll Γ c.toList) s () s' := by
  cases c with
  | none => exact .skip ho fun _ => rfl
  | some e =>
    simp only [checkLoopCondition, ends_bind, ends_require]
    refine (Expr.lasts_checkKnown hs ho hr hw.2).mono fun t s' h hlast => ?_
    exact h.bind_skip (require_eq_ok hlast)

/-! ### Returns -/

/-- **The check of a returned value lasts.** It refines the type of the current function, which no
call outside of it has seen. -/
theorem lasts_checkReturned {id : SymbolId} {sym : Symbol} {v : Expr} (hs : Good Ty.Known s)
    (ho : s.Orderly) (hid : s.function = some id) (hsym : s.symbols.get? id = some sym)
    (hr : Ready v.ids s) (hw : v.WellPlaced) :
    Ends (checkReturned id sym v) s fun _ s' =>
      Lasts (checkReturned id sym v) v.ids (fun _ Γ => Expr.usesOfAll Γ [v]) s () s' := by
  obtain ⟨sym', hsym', hdefined⟩ := ho.current id hid
  obtain rfl := Option.some.inj (hsym.symm.trans hsym')
  have htarget := (hs.settled id sym hsym).type
  simp only [checkReturned, ends_bind, ends_require]
  refine (Ends.fitted hr (htarget.elim (fun h => .inr h.1) .inl)
    ((Expr.notes hw).found hw hs hr)).mono
    fun _ _ h => h.mono fun _ _ h => h.mono fun t s₁ h hvalue => ?_
  have hk : t.Known := by
    rw [decide_eq_true_eq, Bool.not_eq_true'] at hvalue
    exact hvalue.2
  have hfit : Lasts (v.fit sym.type) v.ids (fun _ Γ => Expr.usesOfAll Γ [v]) s t s₁ :=
    h.noted.lasts ho h.fills h.type (.inl hk) h.again
  have hsym₁ : s₁.symbols.get? id = some sym := by rw [h.fills.symbols]; exact hsym
  rw [Expr.fit_bind]
  rw [ends_ite]
  refine ⟨fun hauto => ?_, fun hauto => ?_⟩
  · split
    · rename_i u hunified
      rw [ends_modifySymbol]
      have hmodify : Lasts (modifySymbol id fun s => { s with type := u }) [] (fun _ _ => []) s₁ ()
          (s₁.modifySymbol id fun s => { s with type := u }) := by
        refine .of_again (hfit.orderly.modify hsym₁ rfl rfl hdefined) (fun ha => ?_)
          (.modifySymbol _ _)
        exact ha.modify hsym₁ rfl rfl rfl (.inr ⟨h.fills.function.trans hid, hauto⟩)
      refine (hfit.seq (hmodify.of_eq ?_) fun _ _ _ h => h).mono (by simp) (by simp)
      rw [require_bind hvalue, if_pos hauto, hunified]
    · exact ends_fault
  · rw [ends_require]
    intro hcompatible
    refine hfit.bind_skip fun st => ?_
    rw [require_bind hvalue, if_neg hauto]
    exact require_eq_ok hcompatible st

theorem lasts_checkReturn {site : Site} {v : Option Expr} (hs : Good Ty.Known s) (ho : s.Orderly)
    (hr : Ready (Stmt.return site v).ids s) (hw : Expr.IsOptionalValue v) :
    Ends (checkReturn site v) s fun _ s' => Lasts (checkReturn site v) (Stmt.return site v).ids
      (fun _ Γ => Expr.usesOfAll Γ v.toList) s () s' := by
  simp only [checkReturn, ends_bind, ends_get]
  split
  · exact ends_fault
  · rename_i id sym hfind
    obtain ⟨i, hid, hsym⟩ := Option.bind_eq_some_iff.mp hfind
    obtain ⟨sym', hsym', heq⟩ := Option.map_eq_some_iff.mp hsym
    cases heq
    cases v with
    | none =>
      rw [ends_require]
      intro hvoid
      refine .get ?_ fun _ => rfl
      simp only [hfind]
      exact (Lasts.skip ho (require_eq_ok hvoid)).mono (by simp) fun _ _ => rfl
    | some v =>
      simp only [ends_bind, ends_require]
      intro hvoid
      refine (lasts_checkReturned hs ho hid hsym' (ready_cons.mp hr).2.2 hw.2).mono fun _ s' h => ?_
      refine .get ?_ fun _ => rfl
      simp only [hfind]
      rw [require_bind hvoid]
      exact h.mono (List.subset_cons_self _ _) fun _ _ => rfl

end Typing

/-! ### Statements -/

namespace Stmt

mutual

/-- **The check of a statement lasts.** -/
theorem lasts_check : ∀ {st : Stmt} {s : State}, Good Ty.Known s → s.Orderly → Ready st.ids s →
    st.WellPlaced →
    Ends st.check s fun _ s' => Lasts st.check st.ids (fun T Γ => st.uses T Γ) s () s'
  | .block site ds body, s, hs, ho, hr, hw => by
    obtain ⟨hds, hbody, hdis⟩ := ready_append.mp (ready_cons.mp hr).2.2
    simp only [check, ends_bind, ends_inScope]
    refine ((ends_checkDeclarations Ty.stable_known hs.enter hds hw.1 fun _ _ h => h).and
      (lasts_checkDeclarations hs.enter ho.enter hds hw.1)).mono ?_
    rintro _ s₁ ⟨⟨hbinds, hs₁, _⟩, l₁⟩
    have hbody₁ := hbinds.moves.ready hbody hdis
    refine ((ends_checkAll Ty.stable_known hs₁ hbody₁ hw.2 fun _ _ h => h).and
      (lasts_checkAll hs₁ l₁.orderly hbody₁ hw.2)).mono ?_
    rintro _ s₂ ⟨h₂, l₂⟩
    exact (l₁.bind (fun T Γ => View.bindAll Γ (VarDecl.bindingOfAll T ds)) l₂
      (h₂.1.agrees hdis)).inScope.mono (List.subset_cons_self _ _) fun T Γ => by rw [uses]
  | .evaluation site e, s, hs, ho, hr, hw => by
    simp only [check, ends_bind, ends_pure]
    refine (Expr.lasts_checkKnown hs ho (ready_cons.mp hr).2.2 hw.2).mono fun t s₁ h => ?_
    exact (h.bind_skip (b := ()) (f := fun _ => pure ()) fun _ =>
      rfl).mono (List.subset_cons_self _ _)
      fun T Γ => by rw [uses]
  | .write site args newline, s, hs, ho, hr, hw => by
    rw [check]
    refine (lasts_checkPrinted hs ho (ready_cons.mp hr).2.2 hw).mono fun _ s₁ h => ?_
    exact h.mono (List.subset_cons_self _ _) fun T Γ => by rw [uses]
  | .ifThen site c t, s, hs, ho, hr, hw => by
    obtain ⟨hc, hthen, hdis⟩ := ready_append.mp (ready_cons.mp hr).2.2
    simp only [check, ends_bind]
    refine ((ends_checkCondition Ty.stable_known hs hc hw.1.2).and
      (lasts_checkCondition hs ho hc hw.1.2)).mono ?_
    rintro _ s₁ ⟨h₁, l₁⟩
    have hs₁ := hs.fills h₁.1
    have hthen₁ := h₁.1.ready hthen hdis
    refine ((ends_check Ty.stable_known hs₁ hthen₁ hw.2 fun _ _ h => h).and
      (lasts_check hs₁ l₁.orderly hthen₁ hw.2)).mono ?_
    rintro _ s₂ ⟨h₂, l₂⟩
    exact (l₁.seq l₂ (h₂.moves.agrees hdis)).mono (List.subset_cons_self _ _)
      fun T Γ => by rw [uses]
  | .ifElse site c t e, s, hs, ho, hr, hw => by
    obtain ⟨hc, hte, hdis⟩ := ready_append.mp (ready_cons.mp hr).2.2
    obtain ⟨hthen, helse, hdis'⟩ := ready_append.mp hte
    simp only [check, ends_bind]
    refine ((ends_checkCondition Ty.stable_known hs hc hw.1.2).and
      (lasts_checkCondition hs ho hc hw.1.2)).mono ?_
    rintro _ s₁ ⟨h₁, l₁⟩
    have hs₁ := hs.fills h₁.1
    obtain ⟨hthen₁, helse₁, -⟩ := ready_append.mp (h₁.1.ready hte hdis)
    refine ((ends_check Ty.stable_known hs₁ hthen₁ hw.2.1 fun _ _ h => h).and
      (lasts_check hs₁ l₁.orderly hthen₁ hw.2.1)).mono ?_
    rintro _ s₂ ⟨h₂, l₂⟩
    have helse₂ := h₂.moves.ready helse₁ hdis'
    refine ((ends_check Ty.stable_known h₂.good helse₂ hw.2.2 fun _ _ h => h).and
      (lasts_check h₂.good l₂.orderly helse₂ hw.2.2)).mono ?_
    rintro _ s₃ ⟨h₃, l₃⟩
    have hmoves := Moves.trans h₂.moves h₃.moves
    exact (l₁.seq (l₂.seq l₃ (h₃.moves.agrees hdis')) (hmoves.agrees hdis)).mono
      (List.subset_cons_self _ _) fun T Γ => by rw [uses]
  | .forLoop site inits c incs body, s, hs, ho, hr, hw => by
    obtain ⟨hinits, hrest, hdis⟩ := ready_append.mp (ready_cons.mp hr).2.2
    obtain ⟨hc, hrest', hdis'⟩ := ready_append.mp hrest
    obtain ⟨hincs, hbody, hdis''⟩ := ready_append.mp hrest'
    simp only [check, ends_bind, ends_inScope]
    refine ((ends_checkLoopInits Ty.stable_known hs.enter hinits hw.1 fun _ _ h => h).and
      (lasts_checkLoopInits hs.enter ho.enter hinits hw.1)).mono ?_
    rintro _ s₁ ⟨⟨hbinds, hs₁, _⟩, l₁⟩
    obtain ⟨hc₁, hrest₁, -⟩ := ready_append.mp (hbinds.moves.ready hrest hdis)
    refine ((ends_checkLoopCondition Ty.stable_known hs₁ hc₁ hw.2.1).and
      (lasts_checkLoopCondition hs₁ l₁.orderly hc₁ hw.2.1)).mono ?_
    rintro _ s₂ ⟨h₂, l₂⟩
    have hs₂ := hs₁.fills h₂.1
    obtain ⟨hincs₂, hbody₂, -⟩ := ready_append.mp (h₂.1.ready hrest₁ hdis')
    refine ((ends_checkEvaluated Ty.stable_known hs₂ hincs₂ hw.2.2.1).and
      (lasts_checkEvaluated hs₂ l₂.orderly hincs₂ hw.2.2.1)).mono ?_
    rintro _ s₃ ⟨h₃, l₃⟩
    have hs₃ := hs₂.fills h₃.fills
    have hbody₃ := h₃.fills.ready hbody₂ hdis''
    refine ((ends_check Ty.stable_known hs₃ hbody₃ hw.2.2.2 fun _ _ h => h).and
      (lasts_check hs₃ l₃.orderly hbody₃ hw.2.2.2)).mono ?_
    rintro _ s₄ ⟨h₄, l₄⟩
    have hmoves₃ := Moves.trans (Moves.outer h₃.fills) h₄.moves
    have hmoves₂ := Moves.trans (Moves.outer h₂.1) hmoves₃
    have hrounds := l₂.seq (f := fun _ => _) (l₃.seq (f := fun _ => _) l₄ (h₄.moves.agrees hdis''))
      (hmoves₃.agrees hdis')
    exact (l₁.bind (fun T Γ => View.bindAll Γ (LoopInit.bindingOfAll T inits)) hrounds
      (hmoves₂.agrees hdis)).inScope.mono (List.subset_cons_self _ _) fun T Γ => by rw [uses]
  | .break site, s, _, ho, _, _ | .continue site, s, _, ho, _, _ =>
    (Lasts.skip ho fun _ => rfl).mono (List.nil_subset _) fun T Γ => by rw [uses]
  | .return site v, s, hs, ho, hr, hw => by
    rw [check]
    refine (lasts_checkReturn hs ho hr hw).mono fun _ s' h => ?_
    exact h.mono (List.Subset.refl _) fun T Γ => by rw [uses]

/-- As `lasts_check`, for several statements. -/
theorem lasts_checkAll : ∀ {ss : List Stmt} {s : State}, Good Ty.Known s → s.Orderly →
    Ready (idsOfAll ss) s → AllWellPlaced ss →
    Ends (checkAll ss) s fun _ s' =>
      Lasts (checkAll ss) (idsOfAll ss) (fun T Γ => usesOfAll T Γ ss) s () s'
  | [], s, _, ho, _, _ => by
    rw [checkAll, ends_pure]
    exact (Lasts.skip ho fun _ => rfl).mono (List.nil_subset _) fun T Γ => by rw [usesOfAll]
  | st :: ss, s, hs, ho, hr, hw => by
    obtain ⟨hst, hss, hdis⟩ := ready_append.mp hr
    simp only [checkAll, ends_bind]
    refine ((ends_check Ty.stable_known hs hst hw.1 fun _ _ h => h).and
      (lasts_check hs ho hst hw.1)).mono ?_
    rintro _ s₁ ⟨h₁, l₁⟩
    have hss₁ := h₁.moves.ready hss hdis
    refine ((ends_checkAll Ty.stable_known h₁.good hss₁ hw.2 fun _ _ h => h).and
      (lasts_checkAll h₁.good l₁.orderly hss₁ hw.2)).mono ?_
    rintro _ s₂ ⟨h₂, l₂⟩
    exact (l₁.seq l₂ (h₂.1.agrees hdis)).mono (List.Subset.refl _) fun T Γ => by rw [usesOfAll]

end

end Stmt

end PostfixCompiler
