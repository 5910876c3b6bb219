import PostfixCompiler.Proofs.Scope.Checked
import PostfixCompiler.Proofs.Typing.SettleUnit

/-!
# The scenes of the checker in a unit

While the declarations of a unit are checked, names only ever become known: a variable is declared
if its name is free, and a function that was declared before keeps its symbol. So the scene of a
function, when its body is checked, is part of the scene that the whole check leaves behind. In that
scene the code of the unit is written.

## Main definitions

* `PostfixCompiler.Function.checked`, `PostfixCompiler.SyntaxTree.checked`: the expressions that a
  check comes to.
* `PostfixCompiler.SyntaxTree.origins`: the declarations of the symbols that the check of a tree
  leaves behind.
* `PostfixCompiler.Typing.Grows`: a declaration of the unit was checked.

## Main statements

* `PostfixCompiler.Function.ends_checked`: the scenes in the body of a function are those of the
  tree.
* `PostfixCompiler.Typing.ends_checkedOfAll`: each function was checked in a part of the scene
  behind the unit.
-/

namespace PostfixCompiler

open Typing

/-! ### The course of a check -/

/-- The moment behind the declarations of arguments in the body of their function. -/
def VarDecl.afterArguments (m : Moment State) (ds : List VarDecl) : Moment State :=
  ds.foldl (fun m d => m.behind d.id d.checkAsArgument) m

namespace Function

/-- What the check of a function does before it comes to the arguments and the body. -/
def checkHead (f : Function) : CheckM Unit := do
  let id ← f.signature.check true
  modifySymbol id fun symbol => { symbol with defined := true }
  modify fun s => (s.within id).enter

/-- **The expressions that the check of a function comes to.** -/
def checked (m : Moment State) (f : Function) : List Occurrence :=
  f.body.stmt.checked
    (VarDecl.afterArguments (m.behind f.signature.id f.checkHead) f.signature.arguments)

end Function

namespace Decl

/-- The expressions that the check of a declaration of the unit comes to. -/
def checked (m : Moment State) : Decl → List Occurrence
  | .variable d => d.occurrences m.scene
  | .declare _ => []
  | .define f => f.checked m

/-- The expressions that the check of declarations comes to. -/
def checkedOfAll (m : Moment State) : List Decl → List Occurrence
  | [] => []
  | d :: ds => d.checked m ++ checkedOfAll (m.behind d.id d.check) ds

/-- The moment behind the check of declarations. -/
def afterCheck (m : Moment State) (ds : List Decl) : Moment State :=
  ds.foldl (fun m d => m.behind d.id d.check) m

end Decl

namespace SyntaxTree

/-- The moment before the check of a tree. -/
def start (t : SyntaxTree) : Moment State := ⟨.start (.ofSize t.size), []⟩

/-- **The expressions that the check of a tree comes to**, each in the scene of that moment. -/
def checked (t : SyntaxTree) : List Occurrence := Decl.checkedOfAll t.start t.declarations

/-- **The declarations of the symbols** that the check of a tree leaves behind. -/
def origins (t : SyntaxTree) : List NodeId := (Decl.afterCheck t.start t.declarations).origins

end SyntaxTree

/-! ### Names stay known -/

namespace VarDecl

variable {s : State}

/-- Outside of all scopes no variable takes the name of another symbol. -/
theorem ends_declareEach_retains (d : VarDecl) (bs : List (String × Ty))
    (hl : s.symbols.locals = []) :
    Ends (d.declareEach bs) s fun _ s' => s.symbols.Retains s'.symbols := by
  induction bs generalizing s with
  | nil => exact fun _ _ h => h
  | cons b bs ih =>
    simp only [declareEach, ends_bind, ends_get, ends_require, ends_define]
    intro hfree
    rw [Option.isNone_iff_eq_none, SymbolTable.lookupLocal?_eq hl] at hfree
    refine (ih ?_).mono fun _ s' h => SymbolTable.Retains.trans (SymbolTable.retains_define hfree) h
    simp only [SymbolTable.define, hl]

theorem ends_retains {d : VarDecl} (hs : Good Ty.Known s) (hr : Ready d.ids s) (hw : d.WellPlaced)
    (hl : s.symbols.locals = []) : Ends d.check s fun _ s' => s.symbols.Retains s'.symbols := by
  obtain ⟨-, -, hinit⟩ := ready_cons.mp hr
  simp only [check, ends_bind, ends_get]
  refine ends_checkForm hw fun hknown hnone => ?_
  refine (ends_declaredType Ty.stable_known hs hinit hw hknown hnone).mono fun t s₁ h => ?_
  simp only [ends_require]
  intro _ _
  rw [← h.fills.symbols] at hl ⊢
  exact d.ends_declareEach_retains _ hl

end VarDecl

/-- The check of a signature takes no name from another symbol. -/
theorem Signature.ends_retains {sig : Signature} {defining : Bool} {s : State}
    (hs : Good Ty.Known s) (hr : Ready sig.ids s) (hl : s.symbols.locals = []) :
    Ends (sig.check defining) s fun _ s' => s.symbols.Retains s'.symbols := by
  simp only [check, ends_bind, ends_require, ends_get]
  intro _ _
  refine (ends_checkArguments (P := Ty.Known) sig (ready_cons.mp hr).2.2 fun _ _ h =>
    h).mono fun ps s₁ h => ?_
  have hclosed := (hs.fills h.1).closed
  rw [← h.1.symbols] at hl ⊢
  split
  · simp only [ends_bind, ends_require, ends_setType, ends_pure]
    intro _ _ _ _ _ h
    exact h
  · rename_i hres
    simp only [ends_bind, ends_define, ends_setType, ends_pure]
    refine SymbolTable.retains_define ?_
    rw [← SymbolTable.lookupLocal?_eq hl]
    exact Option.isNone_iff_eq_none.mp (SymbolTable.lookupLocal?_eq_none hclosed hl hres)

/-! ### Functions -/

namespace VarDecl

variable {s : State} {m : Moment State}

/-- The symbol of an argument as the checker declares it. -/
def argumentSymbol (d : VarDecl) (t : Ty) (name : String) : Symbol :=
  { Symbol.ofVariable name .private t d.line with defined := true }

/-- The names of an argument are defined one after the other. -/
theorem ends_declareArgument_defines (d : VarDecl) (t : Ty) (names : List String) :
    Ends (d.declareArgument t names) s fun _ s' =>
      s' = { s with symbols := s.symbols.defineAll (names.map (d.argumentSymbol t)) } := by
  induction names generalizing s with
  | nil => exact ends_pure.mpr rfl
  | cons name names ih =>
    simp only [declareArgument, ends_bind, ends_get, ends_require, ends_define]
    intro _
    exact ih.mono fun _ s' h => h

/-- Behind the declaration of an argument it is in the scene. -/
theorem ends_checkAsArgument_advances {d : VarDecl} (hs : Good Ty.Known m.state) (hm : m.Whole)
    (hd : d.TypedArgument Ty.Known m.state.types) :
    Ends d.checkAsArgument m.state fun _ s' => m.behind d.id d.checkAsArgument = m.reach d.id s' ∧
      s'.types = m.state.types ∧ Advances d.ids (fun T Γ => d.scene T Γ) m (m.reach d.id s') := by
  obtain ⟨hn, -, t, ht, hp, -, hv⟩ := hd
  have hchecks : Ends d.checkAsArgument m.state fun _ s' =>
      (Binds [] (d.names.map fun name => (name, t)) m.state s' ∧ Good Ty.Known s') ∧
        s' = { m.state
          with symbols := m.state.symbols.defineAll (d.names.map (d.argumentSymbol t)) } := by
    simp only [checkAsArgument, ends_bind, ends_typeOf ht]
    exact (ends_declareArgument (Ty.stable_known.storable hp hv) Ty.stable_known hs).and
      (d.ends_declareArgument_defines t d.names)
  refine hchecks.ok.mono fun _ s' h => ?_
  obtain ⟨⟨⟨hbinds, hgood⟩, hs'⟩, hok⟩ := h
  have htypes : s'.types = m.state.types := by rw [hs']
  have hdefines :
      s'.symbols = m.state.symbols.defineAll (d.names.map (d.argumentSymbol t)) := by rw [hs']
  obtain ⟨hwhole, hscene⟩ := Moment.reach_defineAll d.id hm hs.closed hdefines (by
    rintro sym hsym
    obtain ⟨name, -, rfl⟩ := List.mem_map.mp hsym
    rfl)
  refine ⟨Moment.behind_of_ok _ hok, htypes, hgood, hwhole, hbinds.moves.mono (by simp),
    fun T hT => ?_⟩
  have ht' : T.get? d.id = some t := hT _ List.mem_cons_self _ (htypes ▸ ht)
  rw [hscene, List.map_map, scene, binding_argument hn ht']
  rfl

/-- Behind the declarations of arguments they are in the scene. -/
theorem ends_afterArguments :
    ∀ {ds : List VarDecl} {m : Moment State}, Good Ty.Known m.state → m.Whole →
    (idsOfAll ds).Nodup → (∀ d ∈ ds, d.TypedArgument Ty.Known m.state.types) →
    Ends (checkAsArguments ds) m.state fun _ s' => (afterArguments m ds).state = s' ∧
      Advances (idsOfAll ds) (fun T Γ => sceneOfAll T Γ ds) m (afterArguments m ds)
  | [], m, hs, hm, _, _ => ⟨rfl, .refl hs hm⟩
  | d :: ds, m, hs, hm, hnodup, hds => by
    obtain ⟨-, hrest, hdis⟩ := List.nodup_append.mp hnodup
    rw [List.forall_mem_cons] at hds
    simp only [checkAsArguments, ends_bind]
    refine (ends_checkAsArgument_advances hs hm hds.1).mono fun _ s₁ h₁ => ?_
    obtain ⟨hbehind, htypes, hfirst⟩ := h₁
    have hds₁ : ∀ d' ∈ ds, d'.TypedArgument Ty.Known s₁.types := htypes ▸ hds.2
    refine (ends_afterArguments hfirst.good hfirst.whole hrest hds₁).mono fun _ s₂ h₂ => ?_
    rw [afterArguments, List.foldl_cons, hbehind, ← afterArguments]
    exact ⟨h₂.1, hfirst.trans h₂.2 fun i hi hj => hdis i hi i hj rfl⟩

end VarDecl

namespace Function

variable {m : Moment State}

/-- **The check of a function comes to the expressions in its body**, each in the scene of its place
in the tree. The names outside of the body are those that are known when the whole function has been
checked. -/
theorem ends_checked {f : Function} (hs : Good Ty.Known m.state) (hm : m.Whole)
    (hl : m.state.symbols.locals = []) (hr : Ready f.ids m.state) (hw : f.WellPlaced) :
    Ends f.check m.state fun _ s' => m.state.symbols.Retains s'.symbols ∧
      ∀ T, s'.types.Agrees T f.ids →
      f.checked m = f.occurrences T (m.reach f.signature.id s').scene := by
  obtain ⟨hsig, hbody, hdis⟩ := ready_append.mp hr
  obtain ⟨hid, -, hargsReady⟩ := ready_cons.mp hsig
  simp only [check, ends_bind, ends_modifySymbol, ends_inFunction, ends_get]
  refine ((Signature.ends_check hs hl hsig fun _ _ h =>
    h).and (Signature.ends_retains hs hsig hl)).ok.mono
    fun id s₁ h₁ => ?_
  obtain ⟨⟨hdeclares, hretains⟩, hok⟩ := h₁
  obtain ⟨sym, hsym, hfunction⟩ := hdeclares.symbol
  have hsettled := hdeclares.good.settled id sym hsym
  obtain ⟨hmoves₂, hgood₂⟩ :=
    hdeclares.good.modifySymbol hsym (f := fun s => { s with defined := true })
    ⟨hsettled.meaning, hsettled.type, hsettled.offset⟩ (.defined sym)
  obtain ⟨sym₂, hsym₂, hr₂⟩ := hmoves₂.symbols.keeps id sym hsym
  have hhead : f.checkHead m.state =
      .ok () ((s₁.modifySymbol id fun s => { s with defined := true }).within id).enter := by
    rw [checkHead, bind_of_ok hok]
    rfl
  generalize s₁.modifySymbol id (fun s => { s with defined := true }) =
    s₂ at hmoves₂ hgood₂ hsym₂ hhead ⊢
  have hkeeps : SymbolTable.Keeps Symbol.Refines m.state.symbols s₂.symbols :=
    hdeclares.moves.symbols.keeps.trans Symbol.Refines.trans hmoves₂.symbols.keeps
  -- The body is checked at the moment when the function is known to be defined, in a scope of its
  -- own.
  have hinside : (m.reach f.signature.id (s₂.within id).enter).Whole :=
    Moment.whole_reach _ hm hkeeps
  have hgood₃ := (hgood₂.within hsym₂ (hr₂.isFunction_eq.trans hfunction)).enter
  have hargs : ∀ d ∈ f.signature.arguments, d.TypedArgument Ty.Known s₂.types :=
    (VarDecl.arguments_mono (hmoves₂.agrees (by simp)) hdeclares.arguments).1
  simp only [checkBody, ends_inScope, ends_bind]
  refine ((VarDecl.ends_checkAsArguments Ty.stable_known hgood₃ hargs).and
    (VarDecl.ends_afterArguments (m := m.reach f.signature.id (s₂.within id).enter) hgood₃ hinside
      hargsReady.1 hargs)).mono fun _ s₃ h₃ => ?_
  obtain ⟨⟨hbinds, -, -⟩, rfl, hentry⟩ := h₃
  have hbody₂ : Ready f.body.stmt.ids s₂ :=
    hmoves₂.ready (hdeclares.moves.ready hbody hdis) (by simp)
  have hbody₃ := hentry.moves.ready hbody₂ fun i hi => hdis i (List.mem_cons_of_mem _ hi)
  refine ((Stmt.ends_check Ty.stable_known hentry.good hbody₃ hw.2 fun _ _ h => h).and
    (Stmt.ends_checked hentry.good hentry.whole hbody₃ hw.2)).mono fun _ s₄ h₄ => ?_
  obtain ⟨hproceeds, hchecked⟩ := h₄
  have houter : SymbolTable.Outer Symbol.Refines s₂.symbols s₄.symbols.exit :=
    (Moves.exit (s := s₂.within id) (hbinds.body hproceeds.moves)).symbols
  obtain ⟨sym₄, hsym₄, -⟩ := houter.keeps id sym₂ hsym₂
  have hrest :
      f.signature.id ∉ VarDecl.idsOfAll f.signature.arguments ++ f.body.stmt.ids := fun hi =>
    (List.mem_append.mp hi).elim hid (hdis _ List.mem_cons_self)
  -- What there is to say of a final state with these symbols.
  have hdone : ∀ s₅ : State, s₅.symbols = s₄.symbols.exit →
      s₄.types.Agrees s₅.types (VarDecl.idsOfAll f.signature.arguments ++ f.body.stmt.ids) →
      m.state.symbols.Retains s₅.symbols ∧
        ∀ T, s₅.types.Agrees T f.ids →
        f.checked m = f.occurrences T (m.reach f.signature.id s₅).scene := by
    intro s₅ hs₅ htypes
    rw [← hs₅] at houter
    refine ⟨(hretains.trans hmoves₂.symbols.retains).trans houter.retains, fun T hT => ?_⟩
    have hT₄ := htypes.trans (hT.mono fun i hi => List.mem_cons_of_mem _ hi)
    have hTargs := (hproceeds.moves.agrees fun i hi => hdis i (List.mem_cons_of_mem _ hi)).trans
      (hT₄.mono fun i hi => List.mem_append_left _ hi)
    have hscene :=
      (Moment.reach_outer f.signature.id (Moment.whole_reach f.signature.id hm hkeeps) hgood₂.closed
      houter Symbol.Refines.meaning_eq).2
    rw [Moment.reach_reach _ hm hkeeps houter.keeps] at hscene
    rw [checked, Moment.behind_of_ok _ hhead,
      hchecked T (hT₄.mono fun i hi => List.mem_append_right _ hi), hentry.scene T hTargs,
      hscene, occurrences]
    exact congrArg (fun Γ =>
      f.body.stmt.occurrences T (VarDecl.sceneOfAll T Γ f.signature.arguments))
      (SymbolTable.scene_enter s₂.symbols _)
  split
  · rename_i hnone
    cases hnone.symm.trans hsym₄
  · rename_i sym' hsym'
    cases hsym'.symm.trans hsym₄
    simp only [ends_bind, ends_require]
    intro _
    split
    · exact ends_fault
    · simp only [ends_bind, ends_setType]
      split
      · exact hdone _ rfl (State.agrees_record _ hrest _)
      · rename_i e hflow
        exact ends_throw.mpr (blames_of_checkFlow hflow)

end Function

/-! ### Units -/

namespace Typing

variable {m m' m'' : Moment State} {ids js : List NodeId}

/-- **Declarations of the unit were checked**: no name was lost, and each symbol has an origin. -/
structure Grows (ids : List NodeId) (m m' : Moment State) : Prop where
  /-- The symbols are settled. -/
  good : Good Ty.Known m'.state
  /-- Each symbol has an origin. -/
  whole : m'.Whole
  /-- No scope is open. -/
  locals : m'.state.symbols.locals = []
  /-- Of the slots only those of the declarations were filled. -/
  moves : Moves SymbolTable.Extends ids m.state m'.state
  /-- No name is lost, and none was declared by another node before. -/
  scene : m.scene.Le m'.scene

theorem Grows.refl (hs : Good Ty.Known m.state) (hm : m.Whole) (hl : m.state.symbols.locals = []) :
    Grows [] m m :=
  ⟨hs, hm, hl, Moves.extends_of_fills (.refl [] m.state), .refl _⟩

theorem Grows.trans (h : Grows ids m m') (h' : Grows js m' m'') : Grows (ids ++ js) m m'' :=
  ⟨h'.good, h'.whole, h'.locals, Moves.extends_trans h.moves h'.moves, h.scene.trans h'.scene⟩

end Typing

namespace Decl

variable {m : Moment State}

/-- The check of a declaration of the unit takes no name from another symbol, and it comes to the
expressions in the body of a function in the scenes that belong to them. -/
theorem ends_checked {d : Decl} (hs : Good Ty.Known m.state) (hm : m.Whole)
    (hl : m.state.symbols.locals = []) (hr : Ready d.ids m.state) (hw : d.WellPlaced) :
    Ends d.check m.state fun _ s' => m.state.symbols.Retains s'.symbols ∧ ∀ f, d = .define f →
      ∀ T, s'.types.Agrees T f.ids → f.checked m = f.occurrences T (m.reach d.id s').scene := by
  cases d with
  | «variable» d => exact (VarDecl.ends_retains hs hr hw hl).mono fun _ s' h => ⟨h, by simp⟩
  | declare sig =>
    simp only [check, ends_bind, ends_pure]
    exact (Signature.ends_retains hs hr hl).mono fun _ s' h => ⟨h, by simp⟩
  | define f =>
    refine (Function.ends_checked hs hm hl hr hw).mono fun _ s' h => ⟨h.1, fun g hg => ?_⟩
    cases hg
    exact h.2

/-- Behind the check of a declaration of the unit its names are in the scene. -/
theorem ends_grows {d : Decl} (hs : Good Ty.Known m.state) (hm : m.Whole)
    (hl : m.state.symbols.locals = []) (hr : Ready d.ids m.state) (hw : d.WellPlaced) :
    Ends d.check m.state fun _ s' => m.behind d.id d.check = m.reach d.id s' ∧
    Grows d.ids m (m.reach d.id s') ∧
      d.Typed Ty.Known s'.types s'.symbols.names ∧ ∀ f, d = .define f →
        ∀ T, s'.types.Agrees T f.ids → f.checked m = f.occurrences T (m.reach d.id s').scene := by
  refine ((ends_check Ty.stable_known hs hl hr hw fun _ _ h =>
    h).and (ends_checked hs hm hl hr hw)).ok.mono
    fun _ s' h => ?_
  obtain ⟨⟨⟨hmoves, hgood, htyped⟩, hretains, hchecked⟩, hok⟩ := h
  refine ⟨Moment.behind_of_ok _ hok, ⟨hgood, ?_, hmoves.symbols.locals hl, hmoves, ?_⟩,
    htyped, hchecked⟩
  · exact Moment.whole_reach _ hm hmoves.symbols.keeps
  · exact SymbolTable.scene_le hmoves.symbols.keeps hretains Symbol.Refines.meaning_eq hm _

end Decl

/-- **A function was checked in a part of a scene**, and its expressions are among those that the
check came to. -/
def Function.CheckedIn (T : TypeTable) (Δ : Scene) (os : List Occurrence) (f : Function) : Prop :=
  ∃ Γ R, Γ.Le Δ ∧ View.Settled Ty.Known Γ.names ∧ f.Typed Ty.Known T Γ.names R ∧
    f.occurrences T Γ ⊆ os

/-- The expressions that the check of a declaration of the unit comes to have their nodes in it,
each of them once. -/
theorem Decl.count_checked {T : TypeTable} {Γ : Scene} {m : Moment State} {d : Decl}
    (h : ∀ f, d = .define f → f.checked m = f.occurrences T Γ) (i : NodeId) :
    (Occurrence.idsOfAll (d.checked m)).count i ≤ d.ids.count i := by
  cases d with
  | «variable» d =>
    rw [checked, Occurrence.idsOfAll_eq (d.uses_of_occurrences m.scene), ids, d.ids_eq,
      List.count_cons]
    exact Nat.le_add_right _ _
  | declare sig => exact Nat.zero_le _
  | define f =>
    rw [checked, h f rfl, Function.occurrences,
      Occurrence.idsOfAll_eq (Stmt.uses_of_occurrences ..), ids, Function.ids, List.count_append,
      f.body.stmt.count_ids]
    exact Nat.le_trans (Nat.le_add_left _ _) (Nat.le_add_left _ _)

/-- **Each function of a unit was checked in a part of the scene behind the unit**, and no node was
checked twice. -/
theorem Typing.ends_checkedOfAll :
    ∀ {ds : List Decl} {m : Moment State}, Good Ty.Known m.state → m.Whole →
    m.state.symbols.locals = [] → Ready (Decl.idsOfAll ds) m.state → (∀ d ∈ ds, d.WellPlaced) →
    Ends (checkDecls ds) m.state fun _ s' => (Decl.afterCheck m ds).state = s' ∧
      Grows (Decl.idsOfAll ds) m (Decl.afterCheck m ds) ∧
      (∀ i, (Occurrence.idsOfAll (Decl.checkedOfAll m ds)).count i ≤ (Decl.idsOfAll ds).count i) ∧
      ∀ f, .define f ∈ ds →
      f.CheckedIn s'.types (Decl.afterCheck m ds).scene (Decl.checkedOfAll m ds)
  | [], m, hs, hm, hl, _, _ => ⟨rfl, .refl hs hm hl, fun _ => Nat.le_refl _, by simp⟩
  | d :: ds, m, hs, hm, hl, hr, hw => by
    obtain ⟨hd, hds, hdis⟩ := ready_append.mp hr
    rw [List.forall_mem_cons] at hw
    simp only [checkDecls, ends_bind]
    refine (Decl.ends_grows hs hm hl hd hw.1).mono fun _ s₁ h₁ => ?_
    obtain ⟨hbehind, hfirst, htyped, hchecked⟩ := h₁
    refine (ends_checkedOfAll hfirst.good hfirst.whole hfirst.locals
      (hfirst.moves.ready hds hdis) hw.2).mono
      fun _ s₂ h₂ => ?_
    obtain ⟨rfl, hrest, hcount, hfunctions⟩ := h₂
    rw [Decl.afterCheck, List.foldl_cons, hbehind, ← Decl.afterCheck, Decl.checkedOfAll, hbehind]
    refine ⟨rfl, hfirst.trans hrest, fun i => ?_, fun f hf => ?_⟩
    · rw [Occurrence.idsOfAll, List.flatMap_append, List.count_append, Decl.idsOfAll,
        List.count_append]
      refine Nat.add_le_add (Decl.count_checked (fun f hf => hchecked f hf s₁.types ?_) i)
        (hcount i)
      exact fun _ _ _ h => h
    rcases List.mem_cons.mp hf with rfl | hf
    · -- What was typed behind the function is typed behind the unit.
      have hag := hrest.moves.agrees hdis
      obtain ⟨R, hR⟩ := htyped
      have hnames : (m.reach (Decl.define f).id s₁).scene.names = s₁.symbols.names :=
        Moment.names_scene hfirst.whole
      rw [← hnames] at hR
      refine ⟨_, R, hrest.scene, hnames ▸ hfirst.good.names, hR.mono (.refl _) hag, ?_⟩
      · rw [← hchecked f rfl _ hag]
        exact List.subset_append_left _ _
    · obtain ⟨Γ, R, hΓ, hsettled, hR, hsub⟩ := hfunctions f hf
      exact ⟨Γ, R, hΓ, hsettled, hR, List.subset_append_of_subset_right _ hsub⟩

/-- **The check of a tree is followed to its end**: the last moment is that of its answer, each
function was checked in a part of its scene, and no node was checked twice. -/
theorem SyntaxTree.checked_functions {nodes : Array Node} {root : NodeId} {t : SyntaxTree}
    {T : TypeTable} {σ : SymbolTable} (h : SyntaxTree.ofNodes nodes root = .ok t)
    (hcheck : checkTree t = .ok (T, σ)) :
    t.origins.length = σ.symbols.size ∧ (Occurrence.idsOfAll t.checked).Nodup ∧
      ∀ f, .define f ∈ t.declarations → f.CheckedIn T (σ.scene t.origins) t.checked := by
  have hends := ends_checkedOfAll (m := t.start) (good_start _) rfl rfl (ready_start h)
    (SyntaxTree.wellPlaced h)
  obtain ⟨s, rfl, rfl, hstate, hgrows, hcount, hfunctions⟩ := (checkTree_of_ends hends).1 T σ hcheck
  cases hstate
  refine ⟨hgrows.whole, List.nodup_iff_count_le_one.mpr fun i => ?_, hfunctions⟩
  exact Nat.le_trans (hcount i) (List.nodup_iff_count_le_one.mp (SyntaxTree.nodup_ids h) i)

end PostfixCompiler
