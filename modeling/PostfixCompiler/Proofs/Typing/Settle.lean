import PostfixCompiler.Proofs.Typing.Lasts

/-!
# Checked expressions are settled

The check of an expression goes along its operands, and what it makes sure of about assignments and
calls is settled where it happens. All other nodes only pass on what was settled below them, so for
them it is enough to follow the states from operand to operand.

An expression that is adapted to its destination has its slot written once more. It is then of known
type, unless it is fresh memory and the destination is no pointer, and to adapt it again changes
nothing.

## Main definitions

* `PostfixCompiler.Typing.Noted`: what is settled when an expression is checked.
* `PostfixCompiler.Typing.Fitted`: the same, once it is adapted to its destination.
* `PostfixCompiler.Expr.Notes`: the check of an expression settles it.
* `PostfixCompiler.Expr.fit`: checks an expression and adapts it.

## Main statements

* `PostfixCompiler.Expr.notes`: a checked expression is settled.
* `PostfixCompiler.Typing.Fitted.lasts`, `PostfixCompiler.Expr.lasts_checkKnown`: and it stays so.
-/

namespace PostfixCompiler

open Typing

/-- A pointer is stored as a pointer. -/
theorem Ty.isPointer_of_fits {t u : Ty} (ht : t.isTuple = false) (h : t.Fits (.pointer u)) :
    t.isPointer = true := by
  cases t <;> simp [Ty.Fits, Ty.stripped, Ty.isTuple, Ty.isPointer] at h ht ⊢

namespace Typing

variable {s s₁ s₂ : State} {e a b : Expr} {es : List Expr}

/-! ### From operand to operand -/

/-- **What is settled when several expressions are checked.** -/
structure AllNoted (es : List Expr) (s s' : State) : Prop where
  /-- No call of the current function is forgotten. -/
  calls : s.selfCalls ⊆ s'.selfCalls
  /-- The parts of the expressions are settled. -/
  settled : ∀ T, s'.types.Agrees T (Expr.idsOfAll es) → ∀ a ∈ es, ∀ x : Expr, x.Part a →
    x.Settles s'.Answers T

/-- **What is settled when an expression is checked.** -/
structure Noted (e : Expr) (s s' : State) : Prop where
  /-- The operands are settled, whatever is written into the slot of the expression itself. -/
  operands : AllNoted e.operands s s'
  /-- The expression itself is settled. -/
  self : ∀ T, s'.types.Agrees T e.ids → e.Settles s'.Answers T

theorem Noted.settled (h : Noted e s s₁) {T : TypeTable} (hT : s₁.types.Agrees T e.ids) {x : Expr}
    (hx : x.Part e) : x.Settles s₁.Answers T := by
  cases hx with
  | self => exact h.self T hT
  | inside ha hx =>
    refine h.operands.settled T (hT.mono fun i hi => ?_) _ ha x hx
    rw [e.ids_eq]
    exact List.mem_cons_of_mem _ hi

namespace AllNoted

theorem nil (s : State) : AllNoted [] s s := ⟨List.Subset.refl _, by simp⟩

theorem cons (h : Noted e s s₁) (hf : Fills (Expr.idsOfAll es) s₁ s₂) (h' : AllNoted es s₁ s₂)
    (hd : ∀ i ∈ e.ids, i ∉ Expr.idsOfAll es) : AllNoted (e :: es) s s₂ := by
  refine ⟨List.Subset.trans h.operands.calls h'.calls, fun T hT =>
    List.forall_mem_cons.mpr ⟨?_, ?_⟩⟩
  · intro x hx
    refine (h.settled (fun i hi t ht => ?_) hx).imp fun ha => ha.fills hf h'.calls
    exact hT i (List.mem_append_left _ hi) t (hf.agrees hd i hi t ht)
  · exact h'.settled T fun i hi => hT i (List.mem_append_right _ hi)

theorem one (h : Noted a s s₁) : AllNoted [a] s s₁ :=
  cons h (.refl _ s₁) (nil s₁) (by simp [Expr.idsOfAll])

theorem two (h : Noted a s s₁) (hf : Fills b.ids s₁ s₂) (h' : Noted b s₁ s₂)
    (hd : ∀ i ∈ a.ids, i ∉ b.ids) : AllNoted [a, b] s s₂ :=
  cons h (by simpa [Expr.idsOfAll] using hf) (one h') (by simpa [Expr.idsOfAll] using hd)

/-- More calls of the current function are noticed. -/
theorem more (h : AllNoted es s s₁) {calls : List SelfCall} (hcalls : s₁.selfCalls ⊆ calls) :
    AllNoted es s { s₁ with selfCalls := calls } := by
  have hf : Fills [] s₁ { s₁ with selfCalls := calls } := ⟨rfl, rfl, fun _ _ => rfl⟩
  refine ⟨List.Subset.trans h.calls hcalls, fun T hT a ha x hx => ?_⟩
  exact (h.settled T hT a ha x hx).imp fun hanswers => hanswers.fills hf hcalls

end AllNoted

/-- The type of an expression is recorded once its operands are checked, and once more where it is
adapted. -/
theorem Noted.record (hr : Ready e.ids s) (h : AllNoted e.operands s s₁) (t : Ty)
    (hself : ∀ T, (s₁.record e.id t).types.Agrees T e.ids → e.Settles s₁.Answers T) :
    Noted e s (s₁.record e.id t) := by
  rw [e.ids_eq] at hr
  refine ⟨⟨h.calls, fun T hT => h.settled T fun i hi u hu => ?_⟩, hself⟩
  exact hT i hi u (s₁.agrees_record (ready_cons.mp hr).1 t i hi u hu)

/-! ### Destinations -/

/-- **What is true of an expression that was checked and adapted** to a place of type `target`. -/
structure Fitted (e : Expr) (target : Ty) (s : State) (u : Ty) (s' : State) : Prop where
  /-- Only slots of the expression were filled. -/
  fills : Fills e.ids s s'
  /-- The type was recorded. -/
  type : s'.types.get? e.id = some u
  /-- The expression is settled. -/
  noted : Noted e s s'
  /-- The type is known, except that of fresh memory which is no pointer's. -/
  known : u.Known ∨ e.isFresh = true ∧ u = .pointer .auto ∧ target.isPointer = false
  /-- To adapt the expression once more changes nothing. -/
  stays : ∀ st : State, st.types.get? e.id = some u → e.adapt target st = .ok () st

/-- **An expression that is checked and adapted is fitted.** -/
theorem Ends.fitted (hr : Ready e.ids s) {target : Ty} (ht : target.Known ∨ target = .auto)
    (h : Ends e.check s fun t s' => Found Ty.Known e s t s' ∧ Noted e s s') :
    Ends e.check s fun _ s₁ => Ends (e.adapt target) s₁ fun _ s₂ => Ends (typeOf e.id) s₂
      (Fitted e target s) := by
  refine h.mono ?_
  rintro t s₁ ⟨hc, hn⟩
  have hset : ∀ u, (∀ A T, e.Settles A T) → u.Known →
      (∀ st : State, st.types.get? e.id = some u → e.adapt target st = .ok () st) →
      Ends (typeOf e.id) (s₁.record e.id u) (Fitted e target s) := by
    intro u hself hk hstays
    refine (ends_typeOf (s₁.get?_record_self e.id u)).mpr ⟨?_, s₁.get?_record_self e.id u,
      Noted.record hr hn.operands u fun T _ => hself _ T, .inl hk, hstays⟩
    exact (hc.fills.recorded e.id u).mono fun i hi =>
      (List.mem_cons.mp hi).elim (fun h => h ▸ e.id_mem_ids) id
  have hstay : (t.Known ∨ e.isFresh = true ∧ t = .pointer .auto ∧ target.isPointer = false) →
      (∀ st : State, st.types.get? e.id = some t → e.adapt target st = .ok () st) →
      Ends (typeOf e.id) s₁ (Fitted e target s) := fun hk hstays =>
    (ends_typeOf hc.type).mpr ⟨hc.fills, hc.type, hn, hk, hstays⟩
  have hknown : e.isFresh = false → t.Known := fun hfresh => by
    by_contra hk
    obtain ⟨-, _, _, rfl⟩ := hc.waits (by simpa using hk)
    cases hfresh
  cases e with
  | input site =>
    unfold Expr.adapt
    rw [ends_ite]
    refine ⟨fun hd => ?_, fun hd => ?_⟩
    · rw [ends_setType]
      refine hset .double (fun _ _ => trivial) rfl fun st hst => ?_
      rw [Expr.adapt, if_pos hd]
      exact setType_eq_self hst
    · refine hstay (.inl (hknown rfl)) fun st _ => ?_
      rw [Expr.adapt, if_neg hd]
      rfl
  | stackAlloc site count =>
    have hopen : ∀ {st : State} {u : Ty}, st.types.get? site.id = some u →
        ¬(target.isPointer = true ∧ u.containsAuto = true) →
        Expr.adapt (.stackAlloc site count) target st = .ok () st := by
      intro st u hu hcond
      simp only [Expr.adapt, get_bind, hu, if_neg hcond]
      rfl
    have htype : s₁.types.get? site.id = some t := hc.type
    simp only [Expr.adapt, ends_bind, ends_get, ends_ite, htype]
    refine ⟨fun hcond => ?_, fun hcond => ?_⟩
    · have hk : target.Known := ht.resolve_right fun hauto => by
        rw [hauto] at hcond
        cases hcond.1
      rw [ends_setType]
      exact hset target (fun _ _ => trivial) hk fun st hst => hopen hst fun h => by simp [hk] at h
    · refine hstay ?_ fun st hst => hopen hst hcond
      by_cases hk : t.containsAuto = true
      · exact .inr ⟨rfl, (hc.waits hk).1, by simpa [hk] using hcond⟩
      · exact .inl (by simpa using hk)
  | _ => exact hstay (.inl (hknown rfl)) fun _ _ => rfl

/-- The types of arguments that fit their parameters are known. -/
theorem AllFound.known {R : Ty → Prop} {ps ts : List Ty} (h : AllFound Ty.Known R es s ts s₁)
    (hknown : List.Forall₂ (fun e p => ∃ u, s₁.types.get? (Expr.id e) = some u ∧
      (Ty.Fits p u → u.Known)) es ps)
    (hfits : List.Forall₂ (fun e p => ∃ u, s₁.types.get? (Expr.id e) = some u ∧
      Ty.Fits p u) es ps) :
    List.Forall₂ (fun e t => ∃ u, s₁.types.get? (Expr.id e) = some u ∧ u = t ∧ u.Known) es ts := by
  have hdecided : List.Forall₂ (fun e _ => Expr.Decided s₁.types e) es ps := by
    refine hknown.mp ?_ hfits
    rintro e p ⟨u, hu, himp⟩ ⟨u', hu', hfit⟩
    obtain rfl := Option.some.inj (hu.symm.trans hu')
    exact ⟨u, hu, himp hfit⟩
  have hall : ∀ e ∈ es, Expr.Decided s₁.types e := by
    intro e he
    obtain ⟨_, _, hd⟩ := exists_of_mem_left hdecided he
    exact hd
  refine ((List.forall₂_and_left _ _).mpr ⟨hall, h.types⟩).imp ?_
  rintro e t ⟨⟨u, hu, hk⟩, u', hu', rfl, -⟩
  obtain rfl := Option.some.inj (hu.symm.trans hu')
  exact ⟨u, hu, rfl, hk⟩

end Typing

/-! ### Expressions -/

namespace Expr

/-! ### One kind of expression after the other -/

/-- **The check of an expression settles it**, in whatever good state it is checked. -/
def Notes (e : Expr) : Prop :=
  ∀ s : State, Good Ty.Known s → Ready e.ids s → Ends e.check s fun _ s' => Noted e s s'

/-- The same for the elements of a tuple. -/
def ComponentsNote (es : List Expr) : Prop :=
  ∀ s : State, Good Ty.Known s → Ready (idsOfAll es) s →
    Ends (checkComponents es) s fun _ s' => AllNoted es s s'

/-- The same for the arguments of a call. Fresh memory that fits its parameter goes to a pointer, so
its type is known. -/
def ArgumentsNote (es : List Expr) (ps : List Ty) : Prop :=
  ∀ s : State, Good Ty.Known s → Ready (idsOfAll es) s → Ends (checkArguments es ps) s fun _ s' =>
    AllNoted es s s' ∧
      List.Forall₂ (fun e p => ∃ u, s'.types.get? (Expr.id e) = some u ∧ (p.Fits u → u.Known)) es ps

/-- What the checks of an expression make sure of together. -/
theorem Notes.found {e : Expr} (h : e.Notes) (hw : e.WellPlaced) {s : State} (hs : Good Ty.Known s)
    (hr : Ready e.ids s) : Ends e.check s fun t s' => Found Ty.Known e s t s' ∧ Noted e s s' :=
  (ends_check Ty.stable_known hs hr hw).and (h s hs hr)

section Settle

variable {site : Site}

/-- **A node is settled when its operands are**, and what it has to do with their types is. -/
theorem notes_node {e : Expr} {body : CheckM Ty} {ids : List NodeId}
    (hcheck : e.check = once e.id body) (hids : e.ids = e.id :: ids)
    (h : ∀ s : State, Good Ty.Known s → e.id ∉ ids → Ready ids s →
      Ends body s fun t s₁ => AllNoted e.operands s s₁ ∧
        ∀ T, (s₁.record e.id t).types.Agrees T e.ids → e.Settles s₁.Answers T) : e.Notes := by
  intro s hs hr
  obtain ⟨hnode, hfree, hparts⟩ := ready_cons.mp (hids ▸ hr)
  rw [hcheck, ends_once hfree]
  exact (h s hs hnode hparts).mono fun t s₁ h => .record hr h.1 t h.2

/-- A constant has no operands. -/
theorem notes_constant {e : Expr} {t : Ty} (hcheck : e.check = once e.id (pure t))
    (hids : e.ids = [e.id]) (hoperands : e.operands = [])
    (hself : ∀ A T, e.Settles A T) : e.Notes :=
  notes_node hcheck hids fun s _ _ _ => ends_pure.mpr ⟨hoperands ▸ .nil s, fun T _ => hself _ T⟩

theorem notes_variable {name : String} : (Expr.variable site name).Notes := by
  refine notes_node rfl rfl fun s _ _ _ => ?_
  simp only [ends_bind, ends_get]
  split
  · exact ends_fault
  · rw [ends_ite]
    exact ⟨fun _ => ends_fault, fun _ => ends_pure.mpr ⟨.nil s, fun _ _ => trivial⟩⟩

theorem notes_rvalue {place : Expr} (hplace : place.Notes) : (rvalue site place).Notes := by
  refine notes_node rfl rfl fun s hs _ hp => ?_
  exact (hplace s hs hp).mono fun _ _ h => ⟨.one h, fun _ _ => trivial⟩

theorem notes_addressOf {place : Expr} (hplace : place.Notes) : (addressOf site place).Notes := by
  refine notes_node rfl rfl fun s hs _ hp => ?_
  simp only [ends_bind, ends_known, ends_pure]
  exact (hplace s hs hp).mono fun _ _ h _ => ⟨.one h, fun _ _ => trivial⟩

theorem notes_unary {op : UnaryOp} {a : Expr} (ha : a.Notes) : (unary site op a).Notes := by
  refine notes_node rfl rfl fun s hs _ hra => ?_
  simp only [ends_bind, ends_known, ends_require, ends_pure]
  exact (ha s hs hra).mono fun _ _ h _ _ => ⟨.one h, fun _ _ => trivial⟩

theorem notes_stackAlloc {count : Expr} (hcount : count.Notes) : (stackAlloc site count).Notes := by
  refine notes_node rfl rfl fun s hs _ hn => ?_
  simp only [ends_bind, ends_known, ends_require, ends_pure]
  exact (hcount s hs hn).mono fun _ _ h _ _ => ⟨.one h, fun _ _ => trivial⟩

theorem notes_sizeof {e : Expr} (he : e.Notes) : (sizeof site e).Notes := by
  refine notes_node rfl rfl fun s hs _ hre => ?_
  simp only [ends_bind, ends_pure]
  exact (he s hs hre).mono fun _ _ h => ⟨.one h, fun _ _ => trivial⟩

theorem notes_tupleIndex {b : Expr} (hb : b.Notes) {i : Int32} : (tupleIndex site b i).Notes := by
  refine notes_node rfl rfl fun s hs _ hrb => ?_
  simp only [ends_bind, ends_known]
  refine (hb s hs hrb).mono fun t s₁ h _ => ?_
  split
  · split
    · exact ends_pure.mpr ⟨.one h, fun _ _ => trivial⟩
    · exact ends_fault
  · exact ends_fault

theorem notes_pointerIndex {b i : Expr} (hb : b.Notes) (hi : i.Notes) (hwb : b.WellPlaced)
    (hwi : i.WellPlaced) :
    (pointerIndex site b i).Notes := by
  refine notes_node rfl rfl fun s hs _ hbi => ?_
  obtain ⟨hrb, hri, hdis⟩ := ready_append.mp hbi
  simp only [ends_bind, ends_known]
  refine (hb.found hwb hs hrb).mono ?_
  rintro t s₁ ⟨h₁, n₁⟩ _
  split
  · rw [ends_ite]
    refine ⟨fun _ => ends_fault, fun _ => ?_⟩
    simp only [ends_bind, ends_known, ends_require, ends_pure]
    refine (hi.found hwi (hs.fills h₁.fills) (h₁.fills.ready hri hdis)).mono ?_
    rintro u s₂ ⟨h₂, n₂⟩ _ _
    exact ⟨.two n₁ h₂.fills n₂ hdis, fun _ _ => trivial⟩
  · exact ends_fault

theorem notes_binary {op : BinaryOp} {l r : Expr} (hl : l.Notes) (hr : r.Notes) (hwl : l.WellPlaced)
    (hwr : r.WellPlaced) : (binary site op l r).Notes := by
  refine notes_node rfl rfl fun s hs _ hlr => ?_
  obtain ⟨hrl, hrr, hdis⟩ := ready_append.mp hlr
  simp only [ends_bind, ends_known]
  refine (hl.found hwl hs hrl).mono ?_
  rintro t s₁ ⟨h₁, n₁⟩ _
  refine (hr.found hwr (hs.fills h₁.fills) (h₁.fills.ready hrr hdis)).mono ?_
  rintro u s₂ ⟨h₂, n₂⟩ _
  split
  · exact ends_pure.mpr ⟨.two n₁ h₂.fills n₂ hdis, fun _ _ => trivial⟩
  · exact ends_fault

theorem notes_assignment {place value : Expr} (hplace : place.Notes) (hvalue : value.Notes)
    (hwp : place.WellPlaced) (hwv : value.WellPlaced) : (assignment site place value).Notes := by
  refine notes_node rfl rfl fun s hs hsite hpv => ?_
  obtain ⟨hp, hv, hdis⟩ := ready_append.mp hpv
  simp only [ends_bind, ends_known]
  refine (hplace.found hwp hs hp).mono ?_
  rintro t s₁ ⟨h₁, n₁⟩ hk
  have hv₁ := h₁.fills.ready hv hdis
  refine (Ends.fitted hv₁ (.inl hk) (hvalue.found hwv (hs.fills h₁.fills) hv₁)).mono
    fun _ _ h => h.mono fun _ _ h => h.mono fun u s₂ h₂ => ?_
  rw [ends_ite]
  refine ⟨fun _ => ends_fault, fun htuple => ?_⟩
  split
  · rename_i w hcompatible
    rw [not_or, Bool.not_eq_true] at htuple
    refine ends_pure.mpr ⟨.two n₁ h₂.fills h₂.noted hdis, fun T hT => ?_⟩
    -- Fresh memory goes to a pointer here, so its type is known.
    have hu : u.Known := by
      refine h₂.known.resolve_right ?_
      rintro ⟨-, rfl, hscalar⟩
      have hfits := (Ty.joins_of_compatible hcompatible (Ty.leavesKnown_of_containsAuto hk)
        (Ty.leavesKnown_pointer _)).narrow rfl
      rw [Ty.isPointer_of_fits htuple.1 hfits] at hscalar
      cases hscalar
    have hag := s₂.agrees_record hsite t
    have htype : T.get? place.id = some t := by
      refine hT _ (by simp [ids, place.id_mem_ids]) t (hag _ (by simp [place.id_mem_ids]) t ?_)
      exact h₂.fills.agrees hdis _ place.id_mem_ids t h₁.type
    have hsource : T.get? value.id = some u :=
      hT _ (by simp [ids, value.id_mem_ids]) u (hag _ (by simp [value.id_mem_ids]) u h₂.type)
    exact ⟨t, u, htype, ⟨hsource, hu⟩, by rw [hcompatible, Option.isSome_some]⟩
  · exact ends_fault

theorem notes_tuple {es : List Expr} (hes : ComponentsNote es) : (tuple site es).Notes := by
  refine notes_node rfl rfl fun s hs _ hres => ?_
  simp only [ends_bind]
  refine (hes s hs hres).mono fun ts s₁ h => ?_
  split
  · exact ends_fault
  · exact ends_pure.mpr ⟨h, fun _ _ => trivial⟩
  · exact ends_pure.mpr ⟨h, fun _ _ => trivial⟩

theorem notes_call {name : String} {args : List Expr} (hw : AllValues args)
    (hargs : ∀ ps, (∀ p ∈ ps, p.Known ∧ p.isTuple = false) → ps.length = args.length →
      ArgumentsNote args ps) :
    (call site name args).Notes := by
  refine notes_node rfl rfl fun s hs hsite hrargs => ?_
  simp only [ends_bind, ends_get]
  split
  · exact ends_fault
  · rename_i f sym hres
    simp only [ends_bind, ends_require, ends_get]
    intro hfunction hlen
    obtain ⟨ps, hps⟩ := Option.isSome_iff_exists.mp hfunction
    have hparameters := (hs.settled f sym (SymbolTable.get_of_resolve hres)).meaning
    rw [Symbol.meaning, hps] at hparameters
    have hp : ∀ p ∈ ps, p.Known := fun p hm => (hparameters p hm).1
    have hscalar : ∀ p ∈ ps, p.Known ∧ p.isTuple = false :=
      fun p hm => ⟨hp p hm, (hparameters p hm).2.1⟩
    rw [Symbol.parameters, hps, Option.getD_some, decide_eq_true_eq] at hlen
    rw [Symbol.parameterTuple, Symbol.parameters, hps, Option.getD_some]
    refine ((ends_checkArguments Ty.stable_known hs hrargs hw hp hlen).and
      (hargs ps hscalar hlen s hs hrargs)).mono ?_
    rintro ts s₁ ⟨h, n, hknown⟩ hcompatible htype
    have htypes := h.known hknown (fits_of_arguments Ty.stable_known hp h hlen hcompatible)
    have hnode : ∀ calls, s₁.selfCalls ⊆ calls →
        State.Answers { s₁ with selfCalls := calls } name ps sym.type →
        AllNoted args s { s₁ with selfCalls := calls } ∧ ∀ T,
          (State.record { s₁ with selfCalls := calls } site.id sym.type).types.Agrees T
            (site.id :: idsOfAll args) →
            (call site name args).Settles (State.Answers { s₁ with selfCalls := calls }) T := by
      intro calls hcalls hanswers
      refine ⟨n.more hcalls, fun T hT => ?_⟩
      have hag : s₁.types.Agrees T (idsOfAll args) := fun i hi u hu =>
        hT i (List.mem_cons_of_mem _ hi) u (s₁.agrees_record hsite sym.type i hi u hu)
      have hself := hT site.id List.mem_cons_self sym.type (State.get?_record_self _ _ _)
      refine ⟨ps, ts, sym.type, hanswers, hself, (forall₂_agrees hag htypes).imp ?_, hcompatible⟩
      rintro a t ⟨u, hu, rfl, hk⟩
      exact ⟨hu, hk⟩
    have hsym : s₁.symbols.get? f = some sym := h.fills.symbols ▸ SymbolTable.get_of_resolve hres
    have hname : sym.name = name :=
      hs.closed.name_eq (SymbolTable.view_of_resolve (fun s => s) hres)
    have hauto : sym.type ≠ .auto := of_decide_eq_true htype
    rw [ends_ite]
    refine ⟨fun hself => ?_, fun hother =>
      ends_pure.mpr (hnode s₁.selfCalls (List.Subset.refl _) ?_)⟩
    · simp only [ends_bind, ends_modify, ends_pure]
      refine hnode _ (List.subset_append_left _ _) ?_
      exact ⟨f, sym, hsym, hname, hps, hauto, .inl ⟨hself.2, hself.1, _,
        List.mem_append_right _ (List.mem_singleton_self _), rfl⟩⟩
    · exact ⟨f, sym, hsym, hname, hps, hauto, .inr ⟨fun h => hother ⟨h.2, h.1⟩, rfl⟩⟩

theorem componentsNote_cons {e : Expr} {es : List Expr} (he : e.Notes) (hes : ComponentsNote es)
    (hw : AllValues (e :: es)) : ComponentsNote (e :: es) := by
  intro s hs hr
  obtain ⟨hre, hres, hdis⟩ := ready_append.mp hr
  rw [checkComponents]
  simp only [ends_bind, ends_known, ends_require, ends_pure]
  refine (he.found hw.1.2 hs hre).mono ?_
  rintro t s₁ ⟨h₁, n₁⟩ _ _
  have hs₁ := hs.fills h₁.fills
  have hes₁ := h₁.fills.ready hres hdis
  refine ((ends_checkComponents Ty.stable_known hs₁ hes₁ hw.2).and (hes s₁ hs₁ hes₁)).mono ?_
  rintro ts s₂ ⟨h₂, n₂⟩
  exact .cons n₁ h₂.fills n₂ hdis

theorem argumentsNote_nil : ArgumentsNote [] [] := by
  intro s _ _
  rw [checkArguments, ends_pure]
  · exact ⟨.nil s, .nil⟩
  · simp

theorem argumentsNote_cons {e : Expr} {es : List Expr} {p : Ty} {ps : List Ty} (he : e.Notes)
    (hes : ArgumentsNote es ps) (hw : AllValues (e :: es)) (hp : p.Known ∧ p.isTuple = false)
    (hps : ∀ p ∈ ps, p.Known) (hlen : ps.length = es.length) :
    ArgumentsNote (e :: es) (p :: ps) := by
  intro s hs hr
  obtain ⟨hre, hres, hdis⟩ := ready_append.mp hr
  rw [checkArguments]
  simp only [ends_bind, ends_pure]
  refine (Ends.fitted hre (.inl hp.1) (he.found hw.1.2 hs hre)).mono
    fun _ _ h => h.mono fun _ _ h => h.mono fun u s₁ h₁ => ?_
  have hs₁ := hs.fills h₁.fills
  have hes₁ := h₁.fills.ready hres hdis
  refine ((ends_checkArguments Ty.stable_known hs₁ hes₁ hw.2 hps hlen).and
    (hes s₁ hs₁ hes₁)).mono ?_
  rintro ts s₂ ⟨h₂, n₂, hknown⟩
  refine ⟨.cons h₁.noted h₂.fills n₂ hdis, .cons ⟨u, ?_, fun hfits => ?_⟩ hknown⟩
  · exact h₂.fills.agrees hdis _ e.id_mem_ids u h₁.type
  · refine h₁.known.resolve_right ?_
    rintro ⟨-, rfl, hscalar⟩
    rw [Ty.isPointer_of_fits hp.2 hfits] at hscalar
    cases hscalar

end Settle

/-! ### All expressions -/

mutual

/-- **The check of an expression settles it.** -/
theorem notes : ∀ {e : Expr}, e.WellPlaced → e.Notes
  | .integer .., _ | .double .., _ | .string .., _ | .nullptr _, _ | .input _, _ =>
    notes_constant rfl rfl rfl fun _ _ => trivial
  | .variable .., _ => notes_variable
  | .rvalue .., hw => notes_rvalue (notes hw.2)
  | .addressOf .., hw => notes_addressOf (notes hw.2)
  | .unary .., hw => notes_unary (notes hw.2)
  | .stackAlloc .., hw => notes_stackAlloc (notes hw.2)
  | .sizeof _ e, hw => notes_sizeof (notes (e := e) hw)
  | .tupleIndex _ b _, hw => notes_tupleIndex (notes (e := b) hw)
  | .pointerIndex .., hw => notes_pointerIndex (notes hw.1.2) (notes hw.2.2) hw.1.2 hw.2.2
  | .binary .., hw => notes_binary (notes hw.1.2) (notes hw.2.2) hw.1.2 hw.2.2
  | .assignment .., hw => notes_assignment (notes hw.1.2) (notes hw.2.2) hw.1.2 hw.2.2
  | .tuple .., hw => notes_tuple (componentsNote hw)
  | .call .., hw => notes_call hw fun _ hps hlen => argumentsNote hw hps hlen

/-- As `notes`, for the elements of a tuple. -/
theorem componentsNote : ∀ {es : List Expr}, AllValues es → ComponentsNote es
  | [], _ => fun s _ _ => AllNoted.nil s
  | _ :: _, hw => componentsNote_cons (notes hw.1.2) (componentsNote hw.2) hw

/-- As `notes`, for the arguments of a call. -/
theorem argumentsNote : ∀ {es : List Expr} {ps : List Ty}, AllValues es →
    (∀ p ∈ ps, p.Known ∧ p.isTuple = false) → ps.length = es.length → ArgumentsNote es ps
  | [], [], _, _, _ => argumentsNote_nil
  | [], _ :: _, _, _, hlen | _ :: _, [], _, _, hlen => by cases hlen
  | _ :: _, _ :: _, hw, hps, hlen => by
    rw [List.forall_mem_cons] at hps
    have hlen := Nat.succ.inj hlen
    exact argumentsNote_cons (notes hw.1.2) (argumentsNote hw.2 hps.2 hlen) hw hps.1
      (fun p hp => (hps.2 p hp).1) hlen

end

/-! ### Checked expressions last -/

variable {e : Expr} {s : State}

theorem check_eq_ok {t : Ty} (h : s.types.get? e.id = some t) (ht : t ≠ .auto) :
    e.check s = .ok t s := by
  cases e <;>
  · rw [check]
    exact once_eq_ok h ht

/-- Checks an expression and adapts it to a place of type `target`. -/
def fit (e : Expr) (target : Ty) : CheckM Ty := do
  let _ ← e.check
  e.adapt target
  typeOf e.id

theorem fit_bind {β : Type} (target : Ty) (f : Ty → CheckM β) :
    (e.check >>= fun _ => e.adapt target >>= fun _ => typeOf e.id >>= f) = e.fit target >>= f := by
  simp only [fit, bind_assoc]

end Expr

namespace Typing

variable {e : Expr} {s s' : State} {u : Ty}

/-- A check of expressions leaves what a second check starts from. -/
theorem Fills.on_eq {ids : List NodeId} (h : Fills ids s s') (T : TypeTable) :
    s'.on T = s.on T := by
  rw [State.on, State.on, h.symbols, h.function]

/-- **A check of an expression lasts**, if it ends again with the same answer. -/
theorem Noted.lasts {α : Type} {m : CheckM α} {a : α} (ho : s.Orderly) (hf : Fills e.ids s s')
    (hn : Noted e s s') (ht : s'.types.get? e.id = some u) {written : Option Ty}
    (hu : u.Known ∨ e.isFresh = true ∧ ∃ t, written = some (.tuple [t]))
    (h : Again e.ids m s a s') :
    Lasts m e.ids (fun _ Γ => [⟨Γ, e, written⟩]) s a s' where
  orderly := ho.fills hf
  answers ha := ha.fills hf hn.operands.calls
  again := h
  settled T hT Γ := by
    refine List.forall_mem_singleton.mpr ⟨fun x hx => hn.settled hT hx, ?_⟩
    exact hu.imp_left fun hk => ⟨u, hT _ e.id_mem_ids u ht, hk⟩

/-- An expression that was adapted is not checked again, and to adapt it once more changes
nothing. -/
theorem Fitted.again {target : Ty} (h : Fitted e target s u s') :
    Again e.ids (e.fit target) s u s' := by
  intro T hT
  have hu : (s.on T).types.get? e.id = some u := hT _ e.id_mem_ids u h.type
  have hauto : u ≠ .auto := by
    rintro rfl
    rcases h.known with hk | ⟨-, hk, -⟩
    · cases hk
    · cases hk
  rw [Expr.fit, bind_of_ok (Expr.check_eq_ok hu hauto), bind_of_ok (h.stays _ hu), h.fills.on_eq]
  exact typeOf_eq_ok hu

end Typing

/-- **The check of an expression of known type lasts.** -/
theorem Expr.lasts_checkKnown {e : Expr} {s : State} (hs : Good Ty.Known s) (ho : s.Orderly)
    (hr : Ready e.ids s) (hw : e.WellPlaced) :
    Ends e.checkKnown s fun t s' =>
      Lasts e.checkKnown e.ids (fun _ Γ => usesOfAll Γ [e]) s t s' := by
  simp only [checkKnown, ends_bind, ends_known]
  refine ((notes hw).found hw hs hr).mono ?_
  rintro t s' ⟨h, n⟩ hk
  refine n.lasts ho h.fills h.type (.inl hk) fun T hT => ?_
  have ht : (s.on T).types.get? e.id = some t := hT _ e.id_mem_ids t h.type
  have hauto : t ≠ .auto := by
    rintro rfl
    cases hk
  rw [bind_of_ok (check_eq_ok ht hauto), h.fills.on_eq, known, if_neg (by simp [hk])]
  rfl

end PostfixCompiler
