import PostfixCompiler.Proofs.Emission.Standing
import PostfixCompiler.Proofs.Scope.Moment

/-!
# The scenes of the writer

The code of a function is written in the scopes of a table that starts with the finished scope of
the unit, and the variables of the function are declared in it once more. This is followed moment by
moment, as the check was, and each expression whose code is written is listed with the scene of that
moment.

The list is again that of the expressions in the body, each in the scene that belongs to its place
in the tree. Only its order differs: the increments of a loop are written behind its body. They see
what the body saw before it, since the body leaves the scopes as they were.

## Main definitions

* `PostfixCompiler.Stmt.coded`: the expressions whose code is written for a statement.
* `PostfixCompiler.Emission.Arrives`: the writer has reached a place, with a scene.

## Main statements

* `PostfixCompiler.VarDecl.puts_defines`: the code of a declaration defines its variables, and
  nothing else.
* `PostfixCompiler.Stmt.perm_coded`: the scenes are those of the tree.
-/

namespace PostfixCompiler

open Emission

/-! ### The course of the writing -/

namespace VarDecl

/-- The moment behind the code of declarations. -/
def afterCode (cx : Context) (m : Moment State) (ds : List VarDecl) : Moment State :=
  ds.foldl (fun m d => m.behind d.id (d.code cx)) m

/-- The initializers whose code is written for declarations. -/
def codedOfAll (cx : Context) (m : Moment State) : List VarDecl → List Occurrence
  | [] => []
  | d :: ds => d.occurrences m.scene ++ codedOfAll cx (m.behind d.id (d.code cx)) ds

end VarDecl

namespace LoopInit

/-- The moment behind the code of a step that a loop takes before its first round. -/
def afterCode (cx : Context) (m : Moment State) : LoopInit → Moment State
  | .declare d => m.behind d.id (d.code cx)
  | .evaluate e => m.behind e.id (e.dropValue cx)

/-- The expressions whose code is written for these steps. -/
def codedOfAll (cx : Context) (m : Moment State) : List LoopInit → List Occurrence
  | [] => []
  | i :: is => i.occurrences m.scene ++ codedOfAll cx (i.afterCode cx m) is

end LoopInit

namespace Stmt

/-- The code of a condition, and of the jump that it decides. -/
def codeTest (cx : Context) (c : Expr) (otherwise : String) : EmitM Unit := do
  c.pushValue cx
  emit (.jumpIfZero otherwise)

/-- The code of a loop between what it does before its first round and its body. -/
def codeLoopHead (cx : Context) (id : NodeId) (c : Option Expr) : EmitM Unit := do
  let top ← newLabel
  let _ ← newLabel
  let done ← newLabel
  emit (.label top)
  testLoop cx id done c

/-- The body of a loop that makes up its labels in a state is written with these. -/
def loopContext (cx : Context) (s : State) : Context :=
  { cx with loop := some ⟨labelName (s.labels + 2), labelName (s.labels + 3)⟩ }

mutual

/-- **The expressions whose code is written for a statement**, each in the scene of that moment. -/
def coded (cx : Context) (m : Moment State) : Stmt → List Occurrence
  | .block _ ds body =>
    let inside := m.change State.enter
    VarDecl.codedOfAll cx inside ds ++ codedOfAll cx (VarDecl.afterCode cx inside ds) body
  | .evaluation _ e => Expr.occurrences m.scene [e]
  | .write _ args _ => Expr.occurrences m.scene args
  | .ifThen _ c t =>
    let decided := m.behind c.id (newLabel >>= codeTest cx c)
    Expr.occurrences m.scene [c] ++ t.coded cx decided
  | .ifElse _ c t e =>
    let otherwise := labelName (m.state.labels + 1)
    let done := labelName (m.state.labels + 2)
    let decided := m.behind c.id do
      let _ ← newLabel
      let _ ← newLabel
      codeTest cx c otherwise
    let other :=
      (decided.behind t.id (t.code cx)).change fun s => s.write [.jump done, .label otherwise]
    Expr.occurrences m.scene [c] ++ (t.coded cx decided ++ e.coded cx other)
  | .forLoop site inits c incs body =>
    let inside := m.change State.enter
    let start := inits.foldl (LoopInit.afterCode cx) inside
    let around := loopContext cx start.state
    let round := start.behind site.id (codeLoopHead cx site.id c)
    let increment := labelName (start.state.labels + 2)
    let next := (round.behind body.id (body.code around)).change fun s => s.write [.label increment]
    LoopInit.codedOfAll cx inside inits ++
      (Expr.occurrences start.scene c.toList ++
        (body.coded around round ++ Expr.occurrences next.scene incs))
  | .break _ | .continue _ => []
  | .return _ v => Expr.occurrences m.scene v.toList

/-- The expressions whose code is written for statements. -/
def codedOfAll (cx : Context) (m : Moment State) : List Stmt → List Occurrence
  | [] => []
  | s :: ss => s.coded cx m ++ codedOfAll cx (m.behind s.id (s.code cx)) ss

end

end Stmt

/-! ### From moment to moment -/

namespace Emission

variable {α : Type} {P : Ty → Prop} {cx : Context} {pt pt' : Point} {Γ : Scene} {m : Moment State}

/-- **The writer has reached a place**, and names are bound there as in a scene. -/
structure Arrives (pt : Point) (Γ : Scene) (m : Moment State) : Prop where
  /-- The place. -/
  here : m.state.At pt
  /-- Each symbol has an origin. -/
  whole : m.Whole
  /-- The scene. -/
  scene : m.scene = Γ

theorem Arrives.enter (h : Arrives pt Γ m) : Arrives pt Γ (m.change State.enter) :=
  ⟨h.here.enter, h.whole, (SymbolTable.scene_enter m.state.symbols m.origins).trans h.scene⟩

/-- To write code does not change the scene. -/
theorem Arrives.write (h : Arrives pt Γ m) (is : List Instr) :
    Arrives pt Γ (m.change fun s => s.write is) :=
  ⟨((Lays.refl h.here).write is).here, h.whole, h.scene⟩

/-- Work that moves the writer on and leaves all scopes as they were leaves the scene as it was. -/
theorem Arrives.behind (h : Arrives pt Γ m) (node : NodeId) {work : EmitM α}
    (hwork : Puts work m.state fun _ s' => ∃ is used, Lays Closes pt' is used m.state s') :
    Arrives pt' Γ (m.behind node work) := by
  obtain ⟨a, s', hok, is, used, hlays⟩ := hwork.exists_ok
  obtain ⟨hwhole, hscene⟩ :=
    Moment.reach_outer node h.whole h.here.closed hlays.symbols fun _ _ h => h ▸ rfl
  rw [Moment.behind_of_ok _ hok]
  exact ⟨hlays.here, hwhole, hscene.trans h.scene⟩

/-- Work that defines variables binds them to the node that declares them. -/
theorem Arrives.define (h : Arrives pt Γ m) (node : NodeId) {work : EmitM α} {line : UInt32}
    {ps : List (String × Ty × Int)}
    (hwork : Puts work m.state fun _ s' => s'.At pt' ∧
      s'.symbols = m.state.symbols.defineAll (ps.map (Symbol.placed line))) :
    Arrives pt' (Γ.declare node (ps.map fun p => (p.1, p.2.1))) (m.behind node work) := by
  obtain ⟨a, s', hok, hat, hdefines⟩ := hwork.exists_ok
  obtain ⟨hwhole, hscene⟩ := Moment.reach_defineAll node h.whole h.here.closed hdefines (by
    rintro sym hsym
    obtain ⟨p, -, rfl⟩ := List.mem_map.mp hsym
    rfl)
  rw [Moment.behind_of_ok _ hok]
  refine ⟨hat, hwhole, ?_⟩
  rw [hscene, h.scene, List.map_map]
  rfl

/-- What is found out about a step in two ways is true together. -/
theorem Puts.and {m : EmitM α} {s : State} {Q Q' : α → State → Prop} (h : Puts m s Q)
    (h' : Puts m s Q') :
    Puts m s fun a s' => Q a s' ∧ Q' a s' := by
  unfold Puts at h h' ⊢
  split at h
  · rename_i heq
    rw [heq] at h'
    exact ⟨h, h'⟩
  · exact h.elim

end Emission

/-- The code of a value defines no symbol. -/
theorem Expr.puts_pushValue_symbols {P : Ty → Prop} (hP : Ty.Stable P) {cx : Context}
    {pt : Point} {s : State} (hs : s.At pt) (hΓ : View.Settled P pt.scope.meanings) {e : Expr}
    (h : e.Typed P cx.types pt.scope.meanings) (he : e.IsValue)
    (hf : cx.frame.Provides (e.usage cx.types .value).nodes) :
    Puts (e.pushValue cx) s fun _ s' => s'.symbols = s.symbols := by
  rw [← hs.names] at hΓ h
  unfold Expr.pushValue
  rw [puts_bind]
  exact (Expr.writes hP hΓ h he.2 hf).value he rfl fun s' h' => h'.symbols

/-! ### Declarations -/

namespace VarDecl

variable {P : Ty → Prop} {cx : Context} {pt : Point} {Γ : Scene} {m : Moment State} {s : State}

/-- Variables are defined one after the other. -/
theorem puts_placeEach_defines (line : UInt32) (ps : List (String × Ty × Int)) :
    Puts (placeEach line ps) s fun _ s' =>
      s' = { s with symbols := s.symbols.defineAll (ps.map (Symbol.placed line)) } := by
  induction ps generalizing s with
  | nil => exact puts_pure.mpr rfl
  | cons p ps ih =>
    rw [placeEach, puts_bind, place, puts_modify]
    exact ih.mono fun _ s' h => h

/-- **The code of a declaration defines its variables**, and nothing else. -/
theorem puts_defines (hP : Ty.Stable P) (hs : s.At pt)
    (hΓ : View.Settled P pt.scope.meanings) {d : VarDecl} (h : d.Typed P cx.types pt.scope.meanings)
    (hw : d.WellPlaced) (hf : cx.frame.Provides (d.usage cx.types).nodes) :
    Puts (d.code cx) s fun _ s' => s'.symbols = s.symbols.defineAll
      ((d.places (cx.types.typeOf d.id) (pt.cursor - (cx.types.typeOf d.id).size)).map
        (Symbol.placed d.line)) := by
  obtain ⟨t, ⟨ht, -⟩, -, -, hinit⟩ := h
  have hplaced := hw.2
  unfold code
  rw [puts_bind, puts_typeOf ht, puts_bind, puts_get, puts_bind, puts_modify, hs.cursor,
    TypeTable.typeOf_eq ht]
  rw [usage] at hf
  cases hi : d.initializer with
  | none => exact (puts_placeEach_defines ..).mono fun _ s' h => h ▸ rfl
  | some e =>
    rw [hi] at hf hplaced
    obtain ⟨he, u, hu, hfits⟩ := hinit e hi
    simp only [puts_bind]
    refine (e.puts_pushValue_symbols hP (hs.reach (pt.cursor - t.size)).here hΓ he hplaced
      (hf.mono fun i hi => by simp [Expr.usageOfOption, hi])).mono fun _ s₁ h₁ => ?_
    rw [puts_typeOf hu, puts_store (puts_base (.frame (pt.cursor - t.size))) hfits]
    refine (puts_placeEach_defines ..).mono fun _ s' h => ?_
    rw [h]
    exact congrArg (SymbolTable.defineAll · _) h₁

/-- Behind the code of a declaration its variables are in the scene. -/
theorem arrives_behind (hP : Ty.Stable P) (hm : Arrives pt Γ m)
    (hΓ : View.Settled P pt.scope.meanings) {d : VarDecl} (h : d.Typed P cx.types pt.scope.meanings)
    (hw : d.WellPlaced) (hf : cx.frame.Provides (d.usage cx.types).nodes) :
    Arrives (d.after cx.types pt) (d.scene cx.types Γ) (m.behind d.id (d.code cx)) := by
  have hat : Puts (d.code cx) m.state fun _ s' => s'.At (d.after cx.types pt) :=
    d.puts_code hP hm.here hΓ h hw hf fun s' h => h.here
  have harrives := hm.define d.id (hat.and (puts_defines hP hm.here hΓ h hw hf))
  obtain ⟨t, ⟨ht, -⟩, -, hdivides, -⟩ := h
  rw [TypeTable.typeOf_eq ht, map_places hdivides, ← binding_eq ht] at harrives
  exact harrives

/-- **Behind the code of declarations their variables are in the scene**, and the code of each
initializer was written in the scene behind the declarations before it. -/
theorem arrives_afterCode (hP : Ty.Stable P) :
    ∀ {ds : List VarDecl} {pt : Point} {Γ : Scene} {m : Moment State},
    Arrives pt Γ m → View.Settled P pt.scope.meanings → AllTyped P cx.types pt.scope.meanings ds →
    (∀ d ∈ ds, d.WellPlaced) → cx.frame.Provides (usageOfAll cx.types ds).nodes →
    Arrives (afterAll cx.types pt ds) (sceneOfAll cx.types Γ ds) (afterCode cx m ds) ∧
      codedOfAll cx m ds = occurrencesOfAll cx.types Γ ds
  | [], pt, Γ, m, hm, _, _, _, _ => ⟨hm, rfl⟩
  | d :: ds, pt, Γ, m, hm, hΓ, h, hw, hf => by
    rw [List.forall_mem_cons] at hw
    have hfirst := arrives_behind hP hm hΓ h.1 hw.1 (hf.mono fun i hi => by simp [usageOfAll, hi])
    have hmeanings := meanings_after h.1 pt
    obtain ⟨hrest, hcoded⟩ :=
      arrives_afterCode hP hfirst (hmeanings ▸ h.1.settled hP hΓ) (hmeanings ▸ h.2) hw.2
      (hf.mono fun i hi => by simp [usageOfAll, hi])
    refine ⟨hrest, ?_⟩
    rw [codedOfAll, occurrencesOfAll, hcoded, hm.scene]

end VarDecl

namespace LoopInit

variable {P : Ty → Prop} {cx : Context}

/-- Behind the code of a step that a loop takes before its first round its variables are in the
scene. -/
theorem arrives_behind (hP : Ty.Stable P) {pt : Point} {Γ : Scene} {m : Moment State}
    (hm : Arrives pt Γ m) (hΓ : View.Settled P pt.scope.meanings) {i : LoopInit}
    (h : i.Typed P cx.types pt.scope.meanings) (hw : i.WellPlaced)
    (hf : cx.frame.Provides (i.usage cx.types).nodes) :
    Arrives (i.after cx.types pt) (i.scene cx.types Γ) (i.afterCode cx m) := by
  cases i with
  | declare d => exact VarDecl.arrives_behind hP hm hΓ h hw hf
  | evaluate e =>
    obtain ⟨t, ht⟩ := h
    exact hm.behind e.id (e.puts_dropValue hP hm.here hΓ ht hw hf fun s' h => ⟨_, _, h⟩)

/-- **Behind all that a loop does before its first round its variables are in the scene.** -/
theorem arrives_afterCode (hP : Ty.Stable P) :
    ∀ {is : List LoopInit} {pt : Point} {Γ : Scene} {m : Moment State},
    Arrives pt Γ m → View.Settled P pt.scope.meanings → AllTyped P cx.types pt.scope.meanings is →
    (∀ i ∈ is, i.WellPlaced) → cx.frame.Provides (usageOfAll cx.types is).nodes →
    Arrives (afterAll cx.types pt is) (sceneOfAll cx.types Γ is) (is.foldl (afterCode cx) m) ∧
      codedOfAll cx m is = occurrencesOfAll cx.types Γ is
  | [], pt, Γ, m, hm, _, _, _, _ => ⟨hm, rfl⟩
  | i :: is, pt, Γ, m, hm, hΓ, h, hw, hf => by
    rw [List.forall_mem_cons] at hw
    have hfirst := arrives_behind hP hm hΓ h.1 hw.1 (hf.mono fun i hi => by simp [usageOfAll, hi])
    have hmeanings := meanings_after h.1 pt
    obtain ⟨hrest, hcoded⟩ :=
      arrives_afterCode hP hfirst (hmeanings ▸ h.1.settled hP hΓ) (hmeanings ▸ h.2) hw.2
      (hf.mono fun i hi => by simp [usageOfAll, hi])
    refine ⟨hrest, ?_⟩
    rw [codedOfAll, occurrencesOfAll, hcoded, hm.scene]

end LoopInit

/-! ### Statements -/

namespace Stmt

variable {P : Ty → Prop}

/-- A statement that stands at a place is written there. -/
theorem Stands.lies (hP : Ty.Stable P) {st : Stmt} {cx : Context} {pt : Point} {inLoop : Bool}
    (h : st.Stands P cx pt inLoop) (hf : cx.frame.Provides (st.usage cx.types).nodes) :
    st.Lies cx pt := by
  obtain ⟨x, hx⟩ := h.flow
  exact Stmt.lies hP h.names h.typed h.placed hx h.loop hf

variable {cx : Context} {pt : Point} {inLoop : Bool} {Γ : Scene} {m : Moment State} {s : State}

/-- Behind the code of a statement the scene is what it was. -/
theorem arrives_behind (hP : Ty.Stable P) {st : Stmt} (hm : Arrives pt Γ m)
    (h : st.Stands P cx pt inLoop) (hf : cx.frame.Provides (st.usage cx.types).nodes) :
    Arrives (pt.move (st.usage cx.types).locals st.labelCount) Γ (m.behind st.id (st.code cx)) :=
  hm.behind st.id ((h.lies hP hf m.state hm.here).mono fun _ _ hlays => ⟨_, _, hlays⟩)

/-- A condition is written, and the jump that it decides. -/
theorem puts_codeTest (hP : Ty.Stable P) (hs : s.At pt)
    (hΓ : View.Settled P pt.scope.meanings) {c : Expr}
    (h : c.TypedAs P cx.types pt.scope.meanings .int) (hc : c.IsValue)
    (hf : cx.frame.Provides (c.usage cx.types .value).nodes) (otherwise : String) :
    Puts (codeTest cx c otherwise) s fun _ s' => ∃ is used,
    Lays Closes (pt.move 0 c.labelCount) is used s s' := by
  rw [codeTest, puts_bind]
  refine c.puts_pushValue hP hs hΓ h.1 hc hf fun s₁ h₁ => ?_
  exact puts_emit.mpr ⟨_, _, h₁.write _⟩

/-- The condition of a loop is written behind three labels. -/
theorem puts_codeLoopHead (hP : Ty.Stable P) (hs : s.At pt) {c : Option Expr}
    {incs : List Expr} {body : Stmt} (h : Round P cx pt c incs body) (id : NodeId)
    (hf : cx.frame.Provides (Expr.usageOfOption cx.types c ++
      .ofCharge id (loopCharge cx.types c)).nodes) :
    Puts (codeLoopHead cx id c) s fun _ s' =>
      ∃ is used, Lays Closes (pt.move 0 (3 + Expr.labelCountOfOption c)) is used s s' := by
  have h₁ := hs.makeLabel
  have h₂ := h₁.trans h₁.here.makeLabel Closes.trans
  have h₃ := (h₂.trans h₂.here.makeLabel Closes.trans).write [.label (labelName (s.labels + 1))]
  simp only [Point.move_move] at h₃
  simp only [codeLoopHead, puts_bind, puts_newLabel, puts_emit]
  refine puts_testLoop hP h₃.here h.names
    (fun e he => (h.condition e he).imp fun _ h => h.1) h.conditionValue hf
    fun s' h' => ?_
  have hlays := h₃.trans h' Closes.trans
  rw [Point.move_move] at hlays
  exact ⟨_, _, hlays⟩

mutual

/-- **The expressions whose code is written for a statement are those in it**, each in the scene of
its place in the tree. -/
theorem perm_coded (hP : Ty.Stable P) :
    ∀ {st : Stmt} {cx : Context} {pt : Point} {inLoop : Bool} {Γ : Scene}
    {m : Moment State}, Arrives pt Γ m → st.Stands P cx pt inLoop →
    cx.frame.Provides (st.usage cx.types).nodes → (st.coded cx m).Perm (st.occurrences cx.types Γ)
  | .block site ds body, cx, pt, inLoop, Γ, m, hm, h, hf => by
    obtain ⟨hds, hwds, hbody⟩ := h.block hP
    obtain ⟨hentry, hcoded⟩ := VarDecl.arrives_afterCode hP hm.enter h.names hds hwds
      (hf.mono fun i hi => by simp [usage, hi])
    rw [coded, occurrences, hcoded]
    exact (perm_codedOfAll hP hentry hbody (hf.mono fun i hi => by simp [usage, hi])).append_left _
  | .evaluation site e, cx, pt, inLoop, Γ, m, hm, h, hf => by rw [coded, occurrences, hm.scene]
  | .write site args newline, cx, pt, inLoop, Γ, m, hm, h, hf => by
      rw [coded, occurrences, hm.scene]
  | .ifThen site c t, cx, pt, inLoop, Γ, m, hm, h, hf => by
    obtain ⟨hc, hcv, ht⟩ := h.ifThen
    have hdecided :
        Arrives (pt.move 0 (1 + c.labelCount)) Γ (m.behind c.id (newLabel >>= codeTest cx c)) := by
      refine hm.behind c.id ?_
      rw [puts_bind, puts_newLabel]
      refine (puts_codeTest hP hm.here.makeLabel.here h.names hc hcv
        (hf.mono fun i hi => by simp [usage, hi])
        _).mono fun _ s' hlays => ?_
      obtain ⟨is, used, hlays⟩ := hlays
      rw [Point.move_move] at hlays
      exact ⟨_, _, hm.here.makeLabel.trans hlays Closes.trans⟩
    rw [coded, occurrences, hm.scene]
    exact (perm_coded hP hdecided (ht.move 0 _)
      (hf.mono fun i hi => by simp [usage, hi])).append_left _
  | .ifElse site c t e, cx, pt, inLoop, Γ, m, hm, h, hf => by
    obtain ⟨hc, hcv, ht, he⟩ := h.ifElse
    have hdecided : Arrives (pt.move 0 (2 + c.labelCount)) Γ (m.behind c.id do
        let _ ← newLabel
        let _ ← newLabel
        codeTest cx c (labelName (m.state.labels + 1))) := by
      refine hm.behind c.id ?_
      have htwo := hm.here.makeLabel.trans hm.here.makeLabel.here.makeLabel Closes.trans
      rw [Point.move_move] at htwo
      rw [puts_bind, puts_newLabel, puts_bind, puts_newLabel]
      refine (puts_codeTest hP htwo.here h.names hc hcv (hf.mono fun i hi => by simp [usage, hi])
        _).mono fun _ s' hlays => ?_
      obtain ⟨is, used, hlays⟩ := hlays
      rw [Point.move_move] at hlays
      exact ⟨_, _, htwo.trans hlays Closes.trans⟩
    have hft := hf.mono fun i (hi : i ∈ (t.usage cx.types).nodes) => by simp [usage, hi]
    have hother := (arrives_behind hP hdecided (ht.move 0 _) hft).write
      [.jump (labelName (m.state.labels + 2)), .label (labelName (m.state.labels + 1))]
    rw [Point.move_move] at hother
    rw [coded, occurrences, hm.scene]
    refine List.Perm.append_left _ (.append (perm_coded hP hdecided (ht.move 0 _) hft) ?_)
    exact perm_coded hP hother (he.move _ _) (hf.mono fun i hi => by simp [usage, hi])
  | .forLoop site inits c incs body, cx, pt, inLoop, Γ, m, hm, h, hf => by
    obtain ⟨hinits, hwinits, hround⟩ := h.forLoop hP
    obtain ⟨hstart, hcoded⟩ := LoopInit.arrives_afterCode hP hm.enter h.names hinits hwinits
      (hf.mono fun i hi => by simp [usage, hi])
    have hcontext :
        loopContext cx (inits.foldl (LoopInit.afterCode cx) (m.change State.enter)).state =
        cx.inLoop (LoopInit.afterAll cx.types pt inits) := by
      rw [loopContext, hstart.here.labels]
      rfl
    have hinside := hstart.behind site.id (puts_codeLoopHead hP hstart.here hround site.id
      (hf.mono fun i hi => by
        simp only [usage, FrameUsage.nodes_append, List.mem_append] at hi ⊢
        tauto))
    have hfbody : (cx.inLoop (LoopInit.afterAll cx.types pt inits)).frame.Provides
        (body.usage (cx.inLoop (LoopInit.afterAll cx.types pt inits)).types).nodes :=
      hf.mono fun i hi => by
        rw [types_inLoop] at hi
        simp [usage, hi]
    have hbody := hround.body.move 0 (3 + Expr.labelCountOfOption c)
    have hnext := (arrives_behind hP hinside hbody hfbody).write [.label (labelName
      ((inits.foldl (LoopInit.afterCode cx) (m.change State.enter)).state.labels + 2))]
    rw [coded, occurrences]
    simp only [hcontext, hcoded, hstart.scene, hnext.scene]
    -- The increments are written behind the body, and stand before it in the tree.
    refine List.Perm.append_left _ (List.Perm.append_left _ (List.perm_append_comm.trans ?_))
    exact (perm_coded hP hinside hbody hfbody).append_left _
  | .break _, cx, pt, inLoop, Γ, m, _, _, _ | .continue _, cx, pt, inLoop, Γ, m, _, _, _ => .nil
  | .return site v, cx, pt, inLoop, Γ, m, hm, h, hf => by rw [coded, occurrences, hm.scene]

/-- As `perm_coded`, for several statements. -/
theorem perm_codedOfAll (hP : Ty.Stable P) :
    ∀ {ss : List Stmt} {cx : Context} {pt : Point} {inLoop : Bool}
    {Γ : Scene} {m : Moment State}, Arrives pt Γ m → AllStand P cx pt inLoop ss →
    cx.frame.Provides (usageOfAll cx.types ss).nodes →
    (codedOfAll cx m ss).Perm (occurrencesOfAll cx.types Γ ss)
  | [], cx, pt, inLoop, Γ, m, _, _, _ => .nil
  | st :: ss, cx, pt, inLoop, Γ, m, hm, h, hf => by
    obtain ⟨hst, hss⟩ := h.cons
    have hfst := hf.mono fun i (hi : i ∈ (st.usage cx.types).nodes) => by simp [usageOfAll, hi]
    rw [codedOfAll, occurrencesOfAll]
    refine (perm_coded hP hm hst hfst).append ?_
    exact perm_codedOfAll hP (arrives_behind hP hm hst hfst) (hss _ _)
      (hf.mono fun i hi => by simp [usageOfAll, hi])

end

end Stmt

end PostfixCompiler
