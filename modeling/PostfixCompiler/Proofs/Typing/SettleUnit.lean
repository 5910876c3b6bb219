import PostfixCompiler.Proofs.Typing.SettleStatement

/-!
# Checked units are settled

The slot of a function is written twice where the function has a body: first the type is recorded
that is known before the body, then the one that its returns give. A second check does the same in
the finished table, so in between the slot holds less than it did. No check reads it there, and
behind the body the table is what it was.

Before the body of a function of open type no call of it can be checked, as its type is not known.
In the body calls are checked against what is known there, and behind the body these are compared
with the final type. So all calls of a function have the type that its symbol has in the end.

## Main definitions

* `PostfixCompiler.Signature.Stays`: what the check of a signature leaves for good.
* `PostfixCompiler.Typing.State.inBody`: the state in which the body of a function is checked.
* `PostfixCompiler.Function.Answers`, `PostfixCompiler.Decl.Closes`: what a declaration leaves in
  its slots.

## Main statements

* `PostfixCompiler.Function.lasts_check`: the check of a function lasts.
* `PostfixCompiler.Typing.lasts_checkDecls`: the check of the declarations of a unit lasts.
-/

namespace PostfixCompiler

open Typing

/-! ### Signatures -/

/-- The state in which the body of a function is checked: the function is known to have one. -/
def Typing.State.inBody (s : State) (id : SymbolId) : State :=
  (s.modifySymbol id fun sym => { sym with defined := true }).within id

/-- Outside of all scopes, a name that stands for no symbol is bound to none. -/
theorem SymbolTable.lookupLocal?_eq_none {t : SymbolTable} (ht : t.Closed) (hl : t.locals = [])
    {name : String} (h : t.resolveLocal? name = none) : (t.lookupLocal? name).isNone = true := by
  cases hid : t.lookupLocal? name with
  | none => rfl
  | some id =>
    rw [lookupLocal?, hl, List.headD_nil] at hid
    obtain ⟨sym, hsym, -⟩ := ht t.global (by simp [scopes]) _ (Scope.mem_of_find? hid)
    simp [resolveLocal?, lookupLocal?, hl, hid, hsym] at h

/-- The form of an argument does not depend on anything else. -/
theorem VarDecl.ends_argumentType_skip (d : VarDecl) (function : String) {s : State} :
    Ends (d.argumentType function) s fun t s' => s = s' ∧
    ∀ st, d.argumentType function st = .ok t st := by
  simp only [argumentType, ends_bind, ends_require, ends_pure]
  intro h₁ h₂ h₃
  refine ⟨trivial, fun st => ?_⟩
  rw [require_bind h₁, require_bind h₂, require_bind h₃]
  rfl

namespace Signature

variable {s s' : State}

theorem lasts_checkArguments (sig : Signature) {ds : List VarDecl} (ho : s.Orderly)
    (hr : Ready (VarDecl.idsOfAll ds) s) :
    Ends (sig.checkArguments ds) s fun ps s' =>
      Lasts (sig.checkArguments ds) (VarDecl.idsOfAll ds) (fun _ _ => []) s ps s' := by
  induction ds generalizing s with
  | nil => exact .skip ho fun _ => rfl
  | cons d ds ih =>
    obtain ⟨hd, hds, hdis⟩ := ready_append.mp hr
    simp only [checkArguments, ends_bind, ends_setType, ends_pure]
    refine (d.ends_argumentType_skip sig.name).mono ?_
    rintro t _ ⟨rfl, hskip⟩
    have hrecord : Fills d.ids s (s.record d.id t) :=
      (Fills.record s d.id t).mono fun i hi => List.mem_singleton.mp hi ▸ List.mem_cons_self
    have hds' := hrecord.ready hds hdis
    have hfirst :
        Lasts (setType d.id t) [d.id] (fun _ _ => []) s () (s.record d.id t) := .setType ho
    refine ((ends_checkArguments (P := Ty.Known) sig hds' fun _ _ h => h).and
      (ih hfirst.orderly hds')).mono ?_
    rintro ps s₂ ⟨⟨hfills, _⟩, h⟩
    rw [skip_bind hskip]
    refine (hfirst.seq (h.bind_skip (b := t :: ps) (f := fun ts => pure (t :: ts)) fun _ => rfl)
      (hfills.agrees fun i hi => hdis i ?_)).mono ?_ fun _ _ => rfl
    · exact List.mem_singleton.mp hi ▸ List.mem_cons_self
    · simp [VarDecl.idsOfAll, VarDecl.ids]

/-- **What the check of a signature leaves for good**, if the slot of the function may be written
again. -/
structure Stays (sig : Signature) (defining : Bool) (s : State) (id : SymbolId)
    (s' : State) : Prop where
  /-- Functions are known by their names. -/
  orderly : s'.Orderly
  /-- What a call of a name saw is what it would see now. -/
  answers : ∀ {name ps t}, s.Answers name ps t → s'.Answers name ps t
  /-- The check ends again with the same answer, and writes the same type into the slot. -/
  again : ∃ t, s'.types.get? sig.id = some t ∧
    ∀ T, s'.types.Agrees T (VarDecl.idsOfAll sig.arguments) →
    sig.check defining (s.on T) = .ok id (s'.on (T.set sig.id t))
  /-- There is a function of that name, and it has no body yet if it is defined here. -/
  symbol : ∃ sym ps, s'.symbols.get? id = some sym ∧ sym.name = sig.name ∧
    sym.parameters? = some ps ∧
    (defining = true → sym.defined = false)

/-- **The check of a signature lasts.** -/
theorem ends_stays {sig : Signature} {defining : Bool} (hs : Good Ty.Known s) (ho : s.Orderly)
    (hl : s.symbols.locals = []) (hr : Ready sig.ids s) :
    Ends (sig.check defining) s (sig.Stays defining s) := by
  have hargs := (ready_cons.mp hr).2.2
  simp only [check, ends_bind, ends_require, ends_get]
  intro hrequired hpartial
  refine ((ends_checkArguments (P := Ty.Known) sig hargs fun _ _ h => h).and
    (sig.lasts_checkArguments ho hargs)).mono ?_
  rintro ps s₁ ⟨⟨hfills, _⟩, h⟩
  have hs₁ := hs.fills hfills
  have hl₁ : s₁.symbols.locals = [] := by rw [hfills.symbols]; exact hl
  have hag : ∀ {T t}, (s₁.types.set sig.id t).Agrees T (VarDecl.idsOfAll sig.arguments) →
      s₁.types.Agrees T (VarDecl.idsOfAll sig.arguments) := fun hT i hi u hu =>
    hT i hi u (TypeTable.agrees_set (ready_cons.mp hr).1 _ i hi u hu)
  split
  · rename_i id prior hres
    simp only [ends_bind, ends_require, ends_setType, ends_pure]
    intro hfunction hagrees hundefined
    have hres' := SymbolTable.resolveLocal?_eq hl₁ sig.name ▸ hres
    obtain ⟨qs, hqs⟩ := Option.isSome_iff_exists.mp hfunction
    refine ⟨h.orderly.fills (.record s₁ _ _), fun ha => ?_,
      ⟨prior.type, State.get?_record_self .., fun T hT => ?_⟩,
      prior, qs, SymbolTable.get_of_resolve hres', ?_, hqs, fun hd => ?_⟩
    · exact (h.answers ha).fills (.record s₁ _ _) (List.Subset.refl _)
    · have hsame : (s₁.on T).symbols.resolveLocal? sig.name = some (id, prior) := hres
      rw [check, require_bind hrequired, require_bind hpartial,
        bind_of_ok (h.again T (hag hT)), get_bind]
      simp only [hsame]
      rw [require_bind hfunction, require_bind hagrees, require_bind hundefined]
      rfl
    · exact hs₁.closed.name_eq (SymbolTable.view_of_resolve (fun s => s) hres')
    · simpa [hd] using hundefined
  · rename_i hres
    simp only [ends_bind, ends_define, ends_setType, ends_pure]
    have hfree :
        (s₁.symbols.lookupLocal? (Symbol.ofFunction sig.name sig.qualifier sig.returnType ps
        sig.line).name).isNone = true := SymbolTable.lookupLocal?_eq_none hs₁.closed hl₁ hres
    have hdefine := h.orderly.define hfree fun _ => ⟨hl₁, by simp [Symbol.ofFunction]⟩
    refine ⟨hdefine.fills (.record _ _ _), fun ha => ?_,
      ⟨sig.returnType, State.get?_record_self .., fun T hT => ?_⟩,
      _, ps, SymbolTable.get?_define_self _ _, rfl, rfl, fun _ => rfl⟩
    · exact ((h.answers ha).define _).fills (.record _ _ _) (List.Subset.refl _)
    · have hsame : (s₁.on T).symbols.resolveLocal? sig.name = none := hres
      rw [check, require_bind hrequired, require_bind hpartial,
        bind_of_ok (h.again T (hag hT)), get_bind]
      simp only [hsame]
      rw [bind_of_ok (Again.define _ T (by simp [TypeTable.Agrees]))]
      rfl

/-- What lasts behind the signature lasts in the body. No call was possible before if the type of
the result is open. -/
theorem Stays.inBody {sig : Signature} {id : SymbolId} {sym : Symbol} (h : sig.Stays true s id s')
    (hnone : s'.function = none) (hsym : s'.symbols.get? id = some sym)
    (hfunction : sym.isFunction = true) (hundefined : sym.defined = false) :
    (s'.inBody id).Orderly ∧ ∀ {name ps t}, s.Answers name ps t →
    (s'.inBody id).Answers name ps t := by
  have hsym' : (s'.modifySymbol id fun sym => { sym with defined := true }).symbols.get? id =
      some { sym with defined := true } := by
    rw [State.modifySymbol, SymbolTable.get?_modify, if_pos rfl, hsym, Option.map_some]
  have hopen : sym.isAuto = true → sym.type = .auto := fun ha =>
    h.orderly.waiting id sym hsym hfunction ha hundefined
  refine ⟨(h.orderly.modify hsym rfl rfl rfl).within hsym' rfl, fun ha => ?_⟩
  exact ((h.answers ha).modify hsym rfl rfl rfl (.inl rfl)).within hnone hsym' hopen

end Signature

/-! ### Functions -/

namespace VarDecl

variable {s : State}

theorem lasts_declareArgument {d : VarDecl} {t : Ty} {names : List String} (ho : s.Orderly) :
    Ends (d.declareArgument t names) s fun _ s' =>
      Lasts (d.declareArgument t names) [] (fun _ _ => []) s () s' := by
  induction names generalizing s with
  | nil => exact .skip ho fun _ => rfl
  | cons name rest ih =>
    simp only [declareArgument, ends_bind, ends_get, ends_require, ends_define]
    intro hfree
    refine (ih (ho.define hfree (by simp [Symbol.ofVariable, Symbol.isFunction]))).mono
      fun _ s' h => ?_
    exact .declare hfree h

theorem lasts_checkAsArguments {ds : List VarDecl} (hs : Good Ty.Known s) (ho : s.Orderly)
    (hds : ∀ d ∈ ds, d.TypedArgument Ty.Known s.types) :
    Ends (checkAsArguments ds) s fun _ s' =>
      Lasts (checkAsArguments ds) (idsOfAll ds) (fun _ _ => []) s () s' := by
  induction ds generalizing s with
  | nil => exact .skip ho fun _ => rfl
  | cons d ds ih =>
    rw [List.forall_mem_cons] at hds
    obtain ⟨hn, _, t, ht, hp, _, hv⟩ := hds.1
    simp only [checkAsArguments, checkAsArgument, ends_bind, ends_typeOf ht]
    refine ((ends_declareArgument (Ty.stable_known.storable hp hv) Ty.stable_known hs).and
      (lasts_declareArgument ho)).mono ?_
    rintro _ s₁ ⟨⟨hb₁, hs₁⟩, l₁⟩
    have hag₁ : ∀ ids, s.types.Agrees s₁.types ids := fun ids => hb₁.moves.agrees (by simp)
    obtain ⟨hds₁, _⟩ := arguments_mono (hag₁ (idsOfAll ds)) hds.2
    refine ((ends_checkAsArguments Ty.stable_known hs₁ hds₁).and
      (ih hs₁ l₁.orderly hds₁)).mono ?_
    rintro _ s₂ ⟨⟨hb₂, _⟩, l₂⟩
    have hag₂ : ∀ ids, s₁.types.Agrees s₂.types ids := fun ids => hb₂.moves.agrees (by simp)
    have hread := Lasts.of_again ho (fun ha => ha) (Again.typeOf ht)
    have hdeclare := hread.seq (f := fun t => d.declareArgument t d.names) l₁ (hag₁ _)
    exact (hdeclare.seq l₂ (hag₂ _)).mono (by simp [idsOfAll, VarDecl.ids]) fun _ _ => rfl

end VarDecl

namespace Function

variable {s : State}

/-- The arguments of a function are variables of the scope in which its body is checked. -/
theorem lasts_checkBody {f : Function} (hs : Good Ty.Known s) (ho : s.Orderly)
    (hr : Ready f.body.stmt.ids s) (hw : f.WellPlaced)
    (hargs : ∀ d ∈ f.signature.arguments, d.TypedArgument Ty.Known s.types)
    (hdis : ∀ i ∈ VarDecl.idsOfAll f.signature.arguments, i ∉ f.body.stmt.ids) :
    Ends f.checkBody s fun _ s' =>
      Lasts f.checkBody (VarDecl.idsOfAll f.signature.arguments ++ f.body.stmt.ids)
        (fun T Γ =>
          f.body.stmt.uses T (View.bindAll Γ (VarDecl.bindingOfAll T f.signature.arguments)))
        s () s' := by
  simp only [checkBody, ends_inScope, ends_bind]
  refine ((VarDecl.ends_checkAsArguments Ty.stable_known hs.enter hargs).and
    (VarDecl.lasts_checkAsArguments hs.enter ho.enter hargs)).mono ?_
  rintro _ s₁ ⟨⟨hb, hs₁, _⟩, l₁⟩
  have hr₁ : Ready f.body.stmt.ids s₁ := hb.moves.ready hr (by simp)
  refine ((Stmt.ends_check Ty.stable_known hs₁ hr₁ hw.2 fun _ _ h => h).and
    (Stmt.lasts_check hs₁ l₁.orderly hr₁ hw.2)).mono ?_
  rintro _ s₂ ⟨h₂, l₂⟩
  exact (l₁.bind (f := fun _ => f.body.stmt.check)
    (fun T Γ => View.bindAll Γ (VarDecl.bindingOfAll T f.signature.arguments)) l₂
    (h₂.moves.agrees hdis)).inScope

/-- **The definition of a function has the type of the function.** -/
def Answers (f : Function) (s : State) : Prop :=
  ∃ ps R, s.types.get? f.signature.id = some R ∧ s.Answers f.signature.name ps R

/-- **How the check of a function ends**, given how the check of its body ends. -/
theorem check_eq_ok {f : Function} {id : SymbolId} {sym : Symbol} {calls : List SelfCall}
    {s₁ s₂ : State} (hsig : f.signature.check true s = .ok id s₁)
    (hbody : inFunction id f.checkBody (s₁.modifySymbol id fun s => { s with defined := true }) =
      .ok calls s₂)
    (hsym : s₂.symbols.get? id = some sym) (hauto : sym.type ≠ .auto)
    (hcalls : (calls.find? fun c => c.seen ≠ sym.type) = none)
    (hflow : f.checkFlow sym.type = .ok ()) :
    f.check s = .ok () (s₂.record f.signature.id sym.type) := by
  rw [check, bind_of_ok hsig, bind_of_ok (modifySymbol_eq_ok id _ s₁), bind_of_ok hbody, get_bind]
  simp only [hsym]
  rw [require_bind (decide_eq_true hauto)]
  simp only [hcalls, hflow]
  rfl

/-- **The check of a function lasts if that of its body does**, and all calls in the body have seen
the final type. -/
theorem lasts_of_body {f : Function} {id : SymbolId} {sym : Symbol} {s₁ s₂ : State}
    (hr : Ready f.ids s) (h₁ : f.signature.Stays true s id s₁)
    (hargs : ∀ d ∈ f.signature.arguments, d.TypedArgument Ty.Known s₁.types)
    (hnone : s₁.function = none)
    (hanswers : ∀ {name ps t}, s.Answers name ps t → (s₁.inBody id).Answers name ps t)
    (h₂ : Lasts f.checkBody (VarDecl.idsOfAll f.signature.arguments ++ f.body.stmt.ids)
      (fun T Γ =>
        f.body.stmt.uses T (View.bindAll Γ (VarDecl.bindingOfAll T f.signature.arguments)))
      (s₁.inBody id) () s₂)
    (hag : s₁.types.Agrees s₂.types (VarDecl.idsOfAll f.signature.arguments))
    (hfunction : s₂.function = some id) (hsym : s₂.symbols.get? id = some sym)
    (hauto : sym.type ≠ .auto) (hcalls : (s₂.selfCalls.find? fun c => c.seen ≠ sym.type) = none)
    (hflow : f.checkFlow sym.type = .ok ()) :
    Lasts f.check f.ids (fun T Γ => f.uses T Γ) s ()
      ((s₂.beyond none).record f.signature.id sym.type) := by
  obtain ⟨hsig, -, hdis⟩ := ready_append.mp hr
  have hid : f.signature.id ∉ VarDecl.idsOfAll f.signature.arguments ++ f.body.stmt.ids := by
    rw [List.mem_append, not_or]
    exact ⟨(ready_cons.mp hsig).1, hdis _ List.mem_cons_self⟩
  have hseen : ∀ c ∈ s₂.selfCalls, c.seen = sym.type := by simpa using hcalls
  have hclose : ∀ {name ps t}, s₂.Answers name ps t →
      ((s₂.beyond none).record f.signature.id sym.type).Answers name ps t := fun ha =>
    (ha.beyond hfunction hsym hseen).fills (.record _ _ _) (List.Subset.refl _)
  have hbehind : ∀ {T}, ((s₂.beyond none).record f.signature.id sym.type).types.Agrees T f.ids →
      s₂.types.Agrees T (VarDecl.idsOfAll f.signature.arguments ++ f.body.stmt.ids) :=
      fun hT i hi u hu =>
    hT i (List.mem_cons_of_mem _ hi) u (TypeTable.agrees_set hid _ i hi u hu)
  refine ⟨h₂.orderly.beyond.fills (.record _ _ _), fun ha => hclose (h₂.answers (hanswers ha)),
    fun T hT => ?_,
    fun T hT Γ u hu => ?_⟩
  · -- Before the body the slot of the function holds an earlier type, and behind it that of the
    -- table.
    obtain ⟨t, -, hfirst⟩ := h₁.again
    have hfirst := hfirst T fun i hi u hu =>
      hbehind hT i (List.mem_append_left _ hi) u (hag i hi u hu)
    have hsecond := h₂.again.inFunction (T.set f.signature.id t) fun i hi u hu =>
      TypeTable.agrees_set hid t i hi u (hbehind hT i hi u hu)
    have hslot := hT f.signature.id List.mem_cons_self sym.type (State.get?_record_self ..)
    rw [show (s₁.modifySymbol id _).function = none from hnone] at hsecond
    rw [check_eq_ok hfirst hsecond hsym hauto rfl hflow]
    change EStateM.Result.ok () ((s₂.beyond none).on ((T.set _ t).set _ _)) = _
    rw [TypeTable.set_set, TypeTable.set_eq_self hslot]
    rfl
  · rw [uses, Signature.uses_eq_nil hargs, List.nil_append] at hu
    exact (h₂.settled T (hbehind hT) Γ u hu).imp hclose

/-- **The check of a function lasts.** -/
theorem lasts_check {f : Function} (hs : Good Ty.Known s) (ho : s.Orderly)
    (hnone : s.function = none) (hl : s.symbols.locals = []) (hr : Ready f.ids s)
    (hw : f.WellPlaced) :
    Ends f.check s fun _ s' => Lasts f.check f.ids (fun T Γ => f.uses T Γ) s () s' ∧
    f.Answers s' := by
  obtain ⟨hsig, hbody, hdis⟩ := ready_append.mp hr
  simp only [check, ends_bind, ends_modifySymbol, ends_inFunction, ends_get]
  refine ((Signature.ends_check hs hl hsig fun _ _ h => h).and
    (Signature.ends_stays hs ho hl hsig)).mono ?_
  rintro id s₁ ⟨h₁, l₁⟩
  obtain ⟨sym, ps, hsym, hname, hps, hundefined⟩ := l₁.symbol
  have hfunction : sym.isFunction = true := by rw [Symbol.isFunction, hps]; rfl
  have hsettled := h₁.good.settled id sym hsym
  obtain ⟨hmoves₂, hgood₂⟩ := h₁.good.modifySymbol hsym (f := fun s => { s with defined := true })
    ⟨hsettled.meaning, hsettled.type, hsettled.offset⟩ (.defined sym)
  obtain ⟨sym₂, hsym₂, hr₂⟩ := hmoves₂.symbols.keeps id sym hsym
  have hgood₂ := hgood₂.within hsym₂ (hr₂.isFunction_eq.trans hfunction)
  have hnone₁ : s₁.function = none := h₁.moves.function.trans hnone
  obtain ⟨ho₂, hanswers₂⟩ := l₁.inBody hnone₁ hsym hfunction (hundefined rfl)
  have hready := h₁.moves.ready hbody hdis
  have hargs : ∀ i ∈ VarDecl.idsOfAll f.signature.arguments, i ∉ f.body.stmt.ids := fun i hi =>
    hdis i (List.mem_cons_of_mem _ hi)
  rw [show (s₁.modifySymbol id _).function = none from hnone₁]
  refine ((ends_checkBody Ty.stable_known hgood₂ hready hw (fun _ _ h => h) h₁.arguments).and
    (lasts_checkBody hgood₂ ho₂ hready hw h₁.arguments hargs)).mono ?_
  rintro _ s₃ ⟨⟨hmoves₃, -⟩, l₃⟩
  obtain ⟨sym₃, hsym₃, hr₃⟩ := hmoves₃.symbols.keeps id _ hsym₂
  split
  · rename_i hmissing
    cases hmissing.symm.trans hsym₃
  · rename_i sym' hsym'
    obtain rfl := Option.some.inj (hsym'.symm.trans hsym₃)
    simp only [ends_bind, ends_require]
    intro hauto
    have hauto := of_decide_eq_true hauto
    split
    · exact ends_fault
    · rename_i hcalls
      simp only [ends_bind, ends_setType]
      split
      · rename_i hflow
        refine ⟨lasts_of_body hr l₁ h₁.arguments hnone₁ hanswers₂ l₃
          (hmoves₃.agrees hargs) hmoves₃.function hsym₃
          hauto hcalls hflow, ps, sym'.type, State.get?_record_self .., id, sym', hsym₃,
          ?_, ?_, hauto, ?_⟩
        · exact hr₃.name.trans (hr₂.name.trans hname)
        · exact hr₃.parameters.trans (hr₂.parameters.trans hps)
        · refine .inr ⟨?_, rfl⟩
          rintro ⟨hcurrent, -⟩
          cases hcurrent
      · rename_i e hflow
        exact ends_throw.mpr (blames_of_checkFlow hflow)

end Function

/-! ### Units -/

namespace Decl

variable {s s' : State}

/-- **What the check of a declaration of the unit leaves in its slots**: a defined function returns
what its slot holds. -/
def Closes (s : State) : Decl → Prop
  | .variable _ | .declare _ => True
  | .define f => f.Answers s

theorem Closes.mono {d : Decl} (h : d.Closes s) (hag : s.types.Agrees s'.types d.ids)
    (hanswers : ∀ {name ps t}, s.Answers name ps t → s'.Answers name ps t) : d.Closes s' := by
  cases d with
  | «variable» | declare => trivial
  | define f =>
    obtain ⟨ps, R, hR, ha⟩ := h
    exact ⟨ps, R, hag _ List.mem_cons_self R hR, hanswers ha⟩

/-- **The check of a declaration of the unit lasts.** -/
theorem lasts_check {d : Decl} (hs : Good Ty.Known s) (ho : s.Orderly) (hnone : s.function = none)
    (hl : s.symbols.locals = []) (hr : Ready d.ids s) (hw : d.WellPlaced) :
    Ends d.check s fun _ s' => Lasts d.check d.ids (fun T Γ => d.uses T Γ) s () s' ∧
    d.Closes s' := by
  cases d with
  | «variable» d => exact (VarDecl.lasts_check hs ho hr hw).mono fun _ s' h => ⟨h, trivial⟩
  | declare sig =>
    simp only [check, ends_bind, ends_pure]
    refine ((Signature.ends_check hs hl hr fun _ _ h => h).and
      (Signature.ends_stays hs ho hl hr)).mono ?_
    rintro id s₁ ⟨h₁, l₁⟩
    refine ⟨⟨l₁.orderly, l₁.answers, fun T hT => ?_, fun T hT Γ u hu => ?_⟩, trivial⟩
    · obtain ⟨t, ht, hagain⟩ := l₁.again
      rw [bind_of_ok (hagain T (hT.mono (List.subset_cons_self _ _))),
        TypeTable.set_eq_self (hT _ List.mem_cons_self t ht)]
      rfl
    · rw [uses, Signature.uses_eq_nil h₁.arguments] at hu
      cases hu
  | define f => exact Function.lasts_check hs ho hnone hl hr hw

end Decl

namespace Typing

variable {s s' : State}

/-- **The check of the declarations of a unit lasts.** -/
theorem lasts_checkDecls {ds : List Decl} (hs : Good Ty.Known s) (ho : s.Orderly)
    (hnone : s.function = none) (hl : s.symbols.locals = []) (hr : Ready (Decl.idsOfAll ds) s)
    (hw : ∀ d ∈ ds, d.WellPlaced) :
    Ends (checkDecls ds) s fun _ s' =>
      Lasts (checkDecls ds) (Decl.idsOfAll ds) (fun T Γ => ds.flatMap (Decl.uses T Γ)) s () s' ∧
        ∀ d ∈ ds, d.Closes s' := by
  induction ds generalizing s with
  | nil => exact ⟨.skip ho fun _ => rfl, by simp⟩
  | cons d ds ih =>
    obtain ⟨hd, hds, hdis⟩ := ready_append.mp hr
    rw [List.forall_mem_cons] at hw
    simp only [checkDecls, ends_bind]
    refine ((Decl.ends_check Ty.stable_known hs hl hd hw.1 fun _ _ h => h).and
      (Decl.lasts_check hs ho hnone hl hd hw.1)).mono ?_
    rintro _ s₁ ⟨⟨hmoves₁, hs₁, _⟩, l₁, hcloses⟩
    have hl₁ := hmoves₁.symbols.locals hl
    have hds₁ := hmoves₁.ready hds hdis
    refine ((ends_checkDecls Ty.stable_known hs₁ hl₁ hds₁ hw.2 fun _ _ _ _ h => h).and
      (ih hs₁ l₁.orderly (hmoves₁.function.trans hnone) hl₁ hds₁ hw.2)).mono ?_
    rintro _ s₂ ⟨⟨hmoves₂, -⟩, l₂, hrest⟩
    have hag := hmoves₂.agrees hdis
    exact ⟨l₁.seq l₂ hag, List.forall_mem_cons.mpr ⟨hcloses.mono hag l₂.answers, hrest⟩⟩

end Typing

end PostfixCompiler
