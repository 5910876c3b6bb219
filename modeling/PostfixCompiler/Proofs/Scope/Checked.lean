import PostfixCompiler.Proofs.Scope.Moment
import PostfixCompiler.Proofs.Typing.Lasts

/-!
# The scenes of the checker

The check of a function is followed moment by moment, and each expression that it comes to is listed
with the scene of that moment. The check of an expression defines no symbol, so the expressions that
are checked one after the other are checked in one scene.

The list is that of the expressions in the body, each in the scene that belongs to its place in the
tree. So what the checker finds when it looks up a name does not depend on what it did elsewhere: a
variable is declared behind its initializer, the symbols of scopes that were left are out of reach,
and the increments of a loop, which are checked before its body, see what the body sees.

## Main definitions

* `PostfixCompiler.Stmt.checked`: the expressions that the check of a statement comes to.
* `PostfixCompiler.Typing.Advances`: the check advances from one moment to another.

## Main statements

* `PostfixCompiler.VarDecl.ends_defines`: the check of a declaration defines its variables, and
  nothing else.
* `PostfixCompiler.Stmt.ends_checked`: the scenes are those of the tree.
-/

namespace PostfixCompiler

open Typing

/-! ### The course of a check -/

namespace VarDecl

/-- The moment behind the check of declarations. -/
def afterCheck (m : Moment State) (ds : List VarDecl) : Moment State :=
  ds.foldl (fun m d => m.behind d.id d.check) m

/-- The initializers that the check of declarations comes to. -/
def checkedOfAll (m : Moment State) : List VarDecl → List Occurrence
  | [] => []
  | d :: ds => d.occurrences m.scene ++ checkedOfAll (m.behind d.id d.check) ds

end VarDecl

namespace LoopInit

/-- The moment behind the check of a step that a loop takes before its first round. -/
def afterCheck (m : Moment State) : LoopInit → Moment State
  | .declare d => m.behind d.id d.check
  | .evaluate e => m.behind e.id e.checkKnown

/-- The expressions that the check of these steps comes to. -/
def checkedOfAll (m : Moment State) : List LoopInit → List Occurrence
  | [] => []
  | i :: is => i.occurrences m.scene ++ checkedOfAll (i.afterCheck m) is

end LoopInit

namespace Stmt

mutual

/-- **The expressions that the check of a statement comes to**, each in the scene of that moment. -/
def checked (m : Moment State) : Stmt → List Occurrence
  | .block _ ds body =>
    let inside := m.change State.enter
    VarDecl.checkedOfAll inside ds ++ checkedOfAll (VarDecl.afterCheck inside ds) body
  | .evaluation _ e => Expr.occurrences m.scene [e]
  | .write _ args _ => Expr.occurrences m.scene args
  | .ifThen _ c t => Expr.occurrences m.scene [c] ++ t.checked (m.behind c.id (checkCondition c))
  | .ifElse _ c t e =>
    let decided := m.behind c.id (checkCondition c)
    Expr.occurrences m.scene [c] ++ (t.checked decided ++ e.checked (decided.behind t.id t.check))
  | .forLoop site inits c incs body =>
    let inside := m.change State.enter
    let start := inits.foldl LoopInit.afterCheck inside
    let round := start.behind site.id do
      checkLoopCondition c
      checkEvaluated incs
    LoopInit.checkedOfAll inside inits ++
      (Expr.occurrences start.scene c.toList ++
        (Expr.occurrences start.scene incs ++ body.checked round))
  | .break _ | .continue _ => []
  | .return _ v => Expr.occurrences m.scene v.toList

/-- The expressions that the check of statements comes to. -/
def checkedOfAll (m : Moment State) : List Stmt → List Occurrence
  | [] => []
  | s :: ss => s.checked m ++ checkedOfAll (m.behind s.id s.check) ss

end

end Stmt

/-! ### From moment to moment -/

theorem TypeTable.Agrees.trans {T U V : TypeTable} {ids : List NodeId} (h : T.Agrees U ids)
    (h' : U.Agrees V ids) : T.Agrees V ids :=
  fun i hi t ht => h' i hi t (h i hi t ht)

namespace Typing

variable {P : Ty → Prop} {s : State} {m m' m'' : Moment State} {ids js : List NodeId}

/-- A check that ends with an answer. -/
theorem Ends.ok {α : Type} {c : CheckM α} {Q : α → State → Prop} (h : Ends c s Q) :
    Ends c s fun a s' => Q a s' ∧ c s = .ok a s' := by
  unfold Ends at h ⊢
  split at h
  · rename_i heq
    exact ⟨h, heq⟩
  · exact h

theorem scene_enter (m : Moment State) : (m.change State.enter).scene = m.scene :=
  SymbolTable.scene_enter m.state.symbols m.origins

/-- **The check advances from one moment to another.** The scene becomes another one, which depends
on the types that the check found for the given nodes. -/
structure Advances (ids : List NodeId) (f : TypeTable → Scene → Scene)
    (m m' : Moment State) : Prop where
  /-- The symbols are still settled. -/
  good : Good Ty.Known m'.state
  /-- Each symbol has an origin. -/
  whole : m'.Whole
  /-- Of the slots only those of the given nodes were filled. -/
  moves : Moves (SymbolTable.Keeps Symbol.Refines) ids m.state m'.state
  /-- The scene is another one. -/
  scene : ∀ T, m'.state.types.Agrees T ids → m'.scene = f T m.scene

namespace Advances

variable {f g : TypeTable → Scene → Scene}

theorem refl (hs : Good Ty.Known m.state) (hm : m.Whole) : Advances [] (fun _ Γ => Γ) m m :=
  ⟨hs, hm, ⟨.refl Symbol.Refines.refl _, rfl, fun _ _ => rfl⟩, fun _ _ => rfl⟩

theorem trans (h : Advances ids f m m') (h' : Advances js g m' m'') (hd : ∀ i ∈ ids, i ∉ js) :
    Advances (ids ++ js) (fun T Γ => g T (f T Γ)) m m'' := by
  refine ⟨h'.good, h'.whole,
    h.moves.append h'.moves (SymbolTable.Keeps.trans Symbol.Refines.trans), ?_⟩
  intro T hT
  have hfirst : m'.state.types.Agrees T ids :=
    (h'.moves.agrees hd).trans (hT.mono fun i hi => List.mem_append_left _ hi)
  rw [h'.scene T (hT.mono fun i hi => List.mem_append_right _ hi), h.scene T hfirst]

/-- The scene stays what it is as long as all scopes stay what they are. -/
theorem of_moves (hs : Good Ty.Known m.state) (hm : m.Whole) (hs' : Good Ty.Known s)
    (h : Moves (SymbolTable.Outer Symbol.Refines) ids m.state s) (node : NodeId) :
    Advances ids (fun _ Γ => Γ) m (m.reach node s) := by
  obtain ⟨hwhole, hscene⟩ :=
    Moment.reach_outer node hm hs.closed h.symbols Symbol.Refines.meaning_eq
  exact ⟨hs', hwhole, Moves.keeps h, fun _ _ => hscene⟩

end Advances

end Typing

/-! ### Declarations -/

namespace VarDecl

variable {s : State} {m : Moment State}

/-- The symbol of a variable as the checker declares it. -/
def symbol (d : VarDecl) (b : String × Ty) : Symbol :=
  { Symbol.ofVariable b.1 d.qualifier b.2 d.line with
    isAuto := d.type = .auto, defined := d.initializer.isSome }

/-- The variables of a declaration are defined one after the other. -/
theorem ends_declareEach_defines (d : VarDecl) (bs : List (String × Ty)) :
    Ends (d.declareEach bs) s fun _ s' =>
      s' = { s with symbols := s.symbols.defineAll (bs.map d.symbol) } := by
  induction bs generalizing s with
  | nil => exact ends_pure.mpr rfl
  | cons b bs ih =>
    simp only [declareEach, ends_bind, ends_get, ends_require, ends_define]
    intro _
    exact ih.mono fun _ s' h => h

/-- **The check of a declaration defines its variables**, and nothing else. -/
theorem ends_defines {d : VarDecl} (hs : Good Ty.Known s) (hr : Ready d.ids s) (hw : d.WellPlaced) :
    Ends d.check s fun _ s' =>
      s'.symbols = s.symbols.defineAll ((d.binding s'.types).map d.symbol) := by
  obtain ⟨-, -, hinit⟩ := ready_cons.mp hr
  simp only [check, ends_bind, ends_get]
  refine ends_checkForm hw fun hknown hnone => ?_
  refine (ends_declaredType Ty.stable_known hs hinit hw hknown hnone).mono fun t s₁ h => ?_
  simp only [ends_require]
  intro _ _
  refine (d.ends_declareEach_defines _).mono ?_
  rintro _ s₂ rfl
  rw [ends_setType, binding_eq (State.get?_record_self _ d.id t), ← h.fills.symbols]
  rfl

/-- Behind the check of a declaration its variables are in the scene. -/
theorem ends_advances {d : VarDecl} (hs : Good Ty.Known m.state) (hm : m.Whole)
    (hr : Ready d.ids m.state) (hw : d.WellPlaced) :
    Ends d.check m.state fun _ s' => m.behind d.id d.check = m.reach d.id s' ∧
      Advances d.ids (fun T Γ => d.scene T Γ) m (m.reach d.id s') := by
  refine ((ends_check Ty.stable_known hs hr hw fun h => h).and (ends_defines hs hr hw)).ok.mono
    fun _ s' h => ?_
  obtain ⟨⟨⟨hbinds, hgood, htyped, -⟩, hdefines⟩, hok⟩ := h
  obtain ⟨hwhole, hscene⟩ := Moment.reach_defineAll d.id hm hs.closed hdefines (by
    rintro sym hsym
    obtain ⟨b, -, rfl⟩ := List.mem_map.mp hsym
    rfl)
  refine ⟨Moment.behind_of_ok _ hok, hgood, hwhole, hbinds.moves,
    fun T (hT : s'.types.Agrees T d.ids) => ?_⟩
  have hnames : ((d.binding s'.types).map d.symbol).map (fun sym => (sym.name, sym.type)) =
      d.binding s'.types := by
    rw [List.map_map]
    exact List.map_id _
  rw [hscene, hnames, ← htyped.binding_eq hT]
  rfl

/-- Behind declarations their variables are in the scene, and each initializer was checked in the
scene behind the declarations before it. -/
theorem ends_afterCheck :
    ∀ {ds : List VarDecl} {m : Moment State}, Good Ty.Known m.state → m.Whole →
    Ready (idsOfAll ds) m.state → (∀ d ∈ ds, d.WellPlaced) →
    Ends (checkDeclarations ds) m.state fun _ s' => (afterCheck m ds).state = s' ∧
      Advances (idsOfAll ds) (fun T Γ => sceneOfAll T Γ ds) m (afterCheck m ds) ∧
      ∀ T, s'.types.Agrees T (idsOfAll ds) → checkedOfAll m ds = occurrencesOfAll T m.scene ds
  | [], m, hs, hm, hr, hw => ⟨rfl, .refl hs hm, fun _ _ => rfl⟩
  | d :: ds, m, hs, hm, hr, hw => by
    obtain ⟨hd, hds, hdis⟩ := ready_append.mp hr
    rw [List.forall_mem_cons] at hw
    simp only [checkDeclarations, ends_bind]
    refine (ends_advances hs hm hd hw.1).mono fun _ s₁ h₁ => ?_
    obtain ⟨hbehind, hfirst⟩ := h₁
    refine (ends_afterCheck hfirst.good hfirst.whole (hfirst.moves.ready hds hdis) hw.2).mono
      fun _ s₂ h₂ => ?_
    obtain ⟨hstate, hrest, hchecked⟩ := h₂
    rw [afterCheck, List.foldl_cons, hbehind, ← afterCheck]
    refine ⟨hstate, hfirst.trans hrest hdis, fun T hT => ?_⟩
    rw [← hstate] at hT hchecked
    have hT₁ : s₁.types.Agrees T d.ids :=
      (hrest.moves.agrees hdis).trans (hT.mono fun i hi => List.mem_append_left _ hi)
    rw [checkedOfAll, occurrencesOfAll, hbehind,
      hchecked T (hT.mono fun i hi => List.mem_append_right _ hi), hfirst.scene T hT₁]

end VarDecl

namespace LoopInit

variable {m : Moment State}

/-- Behind a step that a loop takes before its first round its variables are in the scene. -/
theorem ends_advances {i : LoopInit} {rest : List LoopInit}
    (hs : Good Ty.Known m.state) (hm : m.Whole) (hr : Ready i.ids m.state) (hw : i.WellPlaced)
    {Q : Unit → State → Prop} (hQ : ∀ s', i.afterCheck m = m.reach i.id s' →
      Advances i.ids (fun T Γ => i.scene T Γ) m (m.reach i.id s') →
      Ends (checkLoopInits rest) s' Q) : Ends (checkLoopInits (i :: rest)) m.state Q := by
  cases i with
  | declare d =>
    simp only [checkLoopInits, ends_bind]
    exact (VarDecl.ends_advances hs hm hr hw).mono fun _ s' h => hQ s' h.1 h.2
  | evaluate e =>
    simp only [checkLoopInits, ends_bind]
    refine (ends_checkKnown Ty.stable_known hs hr hw.2).ok.mono fun t s' h => ?_
    exact hQ s' (Moment.behind_of_ok _ h.2)
      (.of_moves hs hm (hs.fills h.1.1) (Moves.outer h.1.1) e.id)

/-- Behind all that a loop does before its first round its variables are in the scene. -/
theorem ends_afterCheck :
    ∀ {is : List LoopInit} {m : Moment State}, Good Ty.Known m.state → m.Whole →
    Ready (idsOfAll is) m.state → (∀ i ∈ is, i.WellPlaced) →
    Ends (checkLoopInits is) m.state fun _ s' => (is.foldl afterCheck m).state = s' ∧
      Advances (idsOfAll is) (fun T Γ => sceneOfAll T Γ is) m (is.foldl afterCheck m) ∧
      ∀ T, s'.types.Agrees T (idsOfAll is) → checkedOfAll m is = occurrencesOfAll T m.scene is
  | [], m, hs, hm, hr, hw => ⟨rfl, .refl hs hm, fun _ _ => rfl⟩
  | i :: is, m, hs, hm, hr, hw => by
    obtain ⟨hi, his, hdis⟩ := ready_append.mp hr
    rw [List.forall_mem_cons] at hw
    refine ends_advances hs hm hi hw.1 fun s₁ hbehind hfirst => ?_
    refine (ends_afterCheck hfirst.good hfirst.whole (hfirst.moves.ready his hdis) hw.2).mono
      fun _ s₂ h₂ => ?_
    obtain ⟨hstate, hrest, hchecked⟩ := h₂
    rw [List.foldl_cons, hbehind]
    refine ⟨hstate, hfirst.trans hrest hdis, fun T hT => ?_⟩
    rw [← hstate] at hT hchecked
    have hT₁ : s₁.types.Agrees T i.ids :=
      (hrest.moves.agrees hdis).trans (hT.mono fun j hj => List.mem_append_left _ hj)
    rw [checkedOfAll, occurrencesOfAll, hbehind,
      hchecked T (hT.mono fun j hj => List.mem_append_right _ hj), hfirst.scene T hT₁]

end LoopInit

/-! ### Statements -/

namespace Stmt

variable {m : Moment State}

/-- Behind the check of a statement the scene is what it was. -/
theorem ends_advances {st : Stmt} (hs : Good Ty.Known m.state) (hm : m.Whole)
    (hr : Ready st.ids m.state) (hw : st.WellPlaced) :
    Ends st.check m.state fun _ s' => m.behind st.id st.check = m.reach st.id s' ∧
      Advances st.ids (fun _ Γ => Γ) m (m.reach st.id s') := by
  refine (ends_check Ty.stable_known hs hr hw fun _ _ h => h).ok.mono fun _ s' h => ?_
  exact ⟨Moment.behind_of_ok _ h.2, .of_moves hs hm h.1.good h.1.moves st.id⟩

mutual

/-- **The check of a statement comes to the expressions in it**, each in the scene of its place in
the tree. -/
theorem ends_checked :
    ∀ {st : Stmt} {m : Moment State}, Good Ty.Known m.state → m.Whole → Ready st.ids m.state →
    st.WellPlaced → Ends st.check m.state fun _ s' =>
      ∀ T, s'.types.Agrees T st.ids → st.checked m = st.occurrences T m.scene
  | .block site ds body, m, hs, hm, hr, hw => by
    obtain ⟨-, -, hr⟩ := ready_cons.mp hr
    obtain ⟨hds, hbody, hdis⟩ := ready_append.mp hr
    simp only [check, ends_bind, ends_inScope]
    refine (VarDecl.ends_afterCheck (m := m.change State.enter) hs.enter hm hds hw.1).mono
      fun _ s₁ h₁ => ?_
    obtain ⟨rfl, hdeclared, hchecked⟩ := h₁
    have hbody₁ := hdeclared.moves.ready hbody hdis
    refine ((ends_checkAll Ty.stable_known hdeclared.good hbody₁ hw.2 fun _ _ h => h).and
      (ends_checkedOfAll hdeclared.good hdeclared.whole hbody₁ hw.2)).mono fun _ s₂ h₂ T hT => ?_
    obtain ⟨⟨hmoves, -, -⟩, hrest⟩ := h₂
    have hT : s₂.types.Agrees T (VarDecl.idsOfAll ds ++ idsOfAll body) :=
      hT.mono fun i hi => List.mem_cons_of_mem _ hi
    have hTds := (hmoves.agrees hdis).trans (hT.mono fun i hi => List.mem_append_left _ hi)
    rw [checked, occurrences, hchecked T hTds,
      hrest T (hT.mono fun i hi => List.mem_append_right _ hi), hdeclared.scene T hTds, scene_enter]
  | .evaluation site e, m, hs, hm, hr, hw => by
    simp only [check, ends_bind, ends_pure]
    exact (ends_checkKnown Ty.stable_known hs (ready_cons.mp hr).2.2 hw.2).mono fun _ _ _ _ _ => rfl
  | .write site args newline, m, hs, hm, hr, hw => by
    rw [check]
    exact (ends_checkPrinted Ty.stable_known hs (ready_cons.mp hr).2.2 hw).mono fun _ _ _ _ _ => rfl
  | .ifThen site c t, m, hs, hm, hr, hw => by
    obtain ⟨hc, hthen, hdis⟩ := ready_append.mp (ready_cons.mp hr).2.2
    simp only [check, ends_bind]
    refine (ends_checkCondition Ty.stable_known hs hc hw.1.2).ok.mono fun _ s₁ h₁ => ?_
    obtain ⟨⟨hfills, -⟩, hok⟩ := h₁
    have hdecided := Advances.of_moves hs hm (hs.fills hfills) (Moves.outer hfills) c.id
    refine (ends_checked hdecided.good hdecided.whole (hfills.ready hthen hdis) hw.2).mono
      fun _ s₂ h₂ T hT => ?_
    have hTthen :=
      hT.mono fun i (hi : i ∈ t.ids) => List.mem_cons_of_mem _ (List.mem_append_right _ hi)
    rw [checked, occurrences, Moment.behind_of_ok _ hok, h₂ T hTthen,
      hdecided.scene _ fun _ _ _ h => h]
  | .ifElse site c t e, m, hs, hm, hr, hw => by
    obtain ⟨hc, hte, hdis⟩ := ready_append.mp (ready_cons.mp hr).2.2
    simp only [check, ends_bind]
    refine (ends_checkCondition Ty.stable_known hs hc hw.1.2).ok.mono fun _ s₁ h₁ => ?_
    obtain ⟨⟨hfills, -⟩, hok⟩ := h₁
    have hdecided := Advances.of_moves hs hm (hs.fills hfills) (Moves.outer hfills) c.id
    obtain ⟨hthen, helse, hdis'⟩ := ready_append.mp (hfills.ready hte hdis)
    refine ((ends_advances hdecided.good hdecided.whole hthen hw.2.1).and
      (ends_checked hdecided.good hdecided.whole hthen hw.2.1)).mono fun _ s₂ h₂ => ?_
    obtain ⟨⟨hbehind, hpassed⟩, hthen₂⟩ := h₂
    have helse₂ := hpassed.moves.ready helse hdis'
    refine ((ends_advances hpassed.good hpassed.whole helse₂ hw.2.2).and
      (ends_checked hpassed.good hpassed.whole helse₂ hw.2.2)).mono fun _ s₃ h₃ T hT => ?_
    obtain ⟨⟨-, hlast⟩, helse₃⟩ := h₃
    have hTelse := hT.mono fun i (hi : i ∈ e.ids) =>
      List.mem_cons_of_mem _ (List.mem_append_right _ (List.mem_append_right _ hi))
    have hTthen := hT.mono fun i (hi : i ∈ t.ids) =>
      List.mem_cons_of_mem _ (List.mem_append_right _ (List.mem_append_left _ hi))
    have hkept : s₂.types.Agrees s₃.types t.ids := hlast.moves.agrees hdis'
    rw [checked, occurrences, Moment.behind_of_ok _ hok, hbehind, hthen₂ T (hkept.trans hTthen),
      helse₃ T hTelse, hpassed.scene _ fun _ _ _ h => h, hdecided.scene _ fun _ _ _ h => h]
  | .forLoop site inits c incs body, m, hs, hm, hr, hw => by
    obtain ⟨hinits, hrest, hdis⟩ := ready_append.mp (ready_cons.mp hr).2.2
    simp only [check, ends_bind, ends_inScope]
    refine (LoopInit.ends_afterCheck (m := m.change State.enter) hs.enter hm hinits hw.1).mono
      fun _ s₁ h₁ => ?_
    obtain ⟨rfl, hstart, hchecked⟩ := h₁
    obtain ⟨hc, hrest₁, hdis₁⟩ := ready_append.mp (hstart.moves.ready hrest hdis)
    refine (ends_checkLoopCondition Ty.stable_known hstart.good hc hw.2.1).ok.mono fun _ s₂ h₂ => ?_
    obtain ⟨⟨hfills₂, -⟩, hok₂⟩ := h₂
    obtain ⟨hincs, hbody, hdis₂⟩ := ready_append.mp (hfills₂.ready hrest₁ hdis₁)
    refine (ends_checkEvaluated Ty.stable_known (hstart.good.fills hfills₂) hincs hw.2.2.1).ok.mono
      fun _ s₃ h₃ => ?_
    obtain ⟨⟨hfills₃, -⟩, hok₃⟩ := h₃
    have hround :=
      Advances.of_moves hstart.good hstart.whole ((hstart.good.fills hfills₂).fills hfills₃)
      (Moves.trans (Moves.outer hfills₂) (Moves.outer hfills₃)) site.id
    have hbody₃ := hfills₃.ready hbody hdis₂
    refine ((ends_advances hround.good hround.whole hbody₃ hw.2.2.2).and
      (ends_checked hround.good hround.whole hbody₃ hw.2.2.2)).mono fun _ s₄ h₄ T hT => ?_
    obtain ⟨⟨-, hlast⟩, hbody₄⟩ := h₄
    have hT : s₄.types.Agrees T (LoopInit.idsOfAll inits ++
        (Expr.idsOfOption c ++ (Expr.idsOfAll incs ++ body.ids))) :=
        hT.mono fun i hi => List.mem_cons_of_mem _ hi
    have hmoves := hround.moves.append hlast.moves (SymbolTable.Keeps.trans Symbol.Refines.trans)
    rw [List.append_assoc] at hmoves
    have hTinits := (hmoves.agrees hdis).trans (hT.mono fun i hi => List.mem_append_left _ hi)
    have hTbody := hT.mono fun i (hi : i ∈ body.ids) =>
      List.mem_append_right _ (List.mem_append_right _ (List.mem_append_right _ hi))
    have hbehind :=
      Moment.behind_of_ok site.id ((bind_of_ok (f := fun _ => checkEvaluated incs) hok₂).trans hok₃)
    rw [checked, occurrences, hchecked T hTinits, hbehind, hbody₄ T hTbody,
      hround.scene _ fun _ _ _ h => h, hstart.scene T hTinits, scene_enter]
  | .break _, m, _, _, _, _ | .continue _, m, _, _, _, _ => fun _ _ => rfl
  | .return site v, m, hs, hm, hr, hw => by
    rw [check]
    exact (ends_checkReturn Ty.stable_known hs hr hw).mono fun _ _ _ _ _ => rfl

/-- As `ends_checked`, for several statements. -/
theorem ends_checkedOfAll : ∀ {ss : List Stmt} {m : Moment State}, Good Ty.Known m.state → m.Whole →
    Ready (idsOfAll ss) m.state → AllWellPlaced ss → Ends (checkAll ss) m.state fun _ s' =>
      ∀ T, s'.types.Agrees T (idsOfAll ss) → checkedOfAll m ss = occurrencesOfAll T m.scene ss
  | [], m, _, _, _, _ => fun _ _ => rfl
  | st :: ss, m, hs, hm, hr, hw => by
    obtain ⟨hst, hss, hdis⟩ := ready_append.mp hr
    simp only [checkAll, ends_bind]
    refine ((ends_advances hs hm hst hw.1).and (ends_checked hs hm hst hw.1)).mono fun _ s₁ h₁ => ?_
    obtain ⟨⟨hbehind, hpassed⟩, hst₁⟩ := h₁
    have hss₁ := hpassed.moves.ready hss hdis
    refine ((ends_checkAll Ty.stable_known hpassed.good hss₁ hw.2 fun _ _ h => h).and
      (ends_checkedOfAll hpassed.good hpassed.whole hss₁ hw.2)).mono fun _ s₂ h₂ T hT => ?_
    obtain ⟨⟨hmoves, -, -⟩, hss₂⟩ := h₂
    have hkept : s₁.types.Agrees s₂.types st.ids := hmoves.agrees hdis
    rw [checkedOfAll, occurrencesOfAll, hbehind,
      hst₁ T (hkept.trans (hT.mono fun i hi => List.mem_append_left _ hi)),
      hss₂ T (hT.mono fun i hi => List.mem_append_right _ hi), hpassed.scene _ fun _ _ _ h => h]

end

end Stmt

end PostfixCompiler
