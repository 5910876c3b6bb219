import PostfixCompiler.Proofs.Frame.Conversion
import PostfixCompiler.Proofs.Linkage.References
import PostfixCompiler.Proofs.Linkage.Registered

/-!
# What a unit asks other units for

The code of a unit names labels of its own and labels that other units place. Those of other units
stand in a list behind the code: the functions of the runtime that are called, the functions that
are declared and not defined, and the variables that are required. No label is named that is missing
in both places, and no label is asked for that is not needed: a function of the runtime is in the
list only if it is called.

The one label that could be missing is that of a local variable which the writer takes for one of
the unit. Where tuples are proper, each variable has at least one byte, so there is none.

## Main definitions

* `PostfixCompiler.Config.functionLabel`: the label of a function.
* `PostfixCompiler.Decl.Outside`: the labels of what is declared here and defined elsewhere.
* `PostfixCompiler.Decl.requests`: these labels, computed.

## Main statements

* `PostfixCompiler.Function.refers`, `PostfixCompiler.VarDecl.refers_lay`: what the code of a
  declaration refers to.
* `PostfixCompiler.Decl.mem_externs`: what other units have to place.
* `PostfixCompiler.references_resolved`: each label that is named is placed here, or other units are
  asked for it.
-/

namespace PostfixCompiler

open Emission

/-! ### Local variables have bytes -/

namespace VarDecl

theorem type_mem_of_go {names : List String} {ts : List Ty} {offset : Int} {v : String × Ty × Int}
    (hv : v ∈ places.go names ts offset) : v.2.1 ∈ ts := by
  induction names generalizing ts offset with
  | nil => cases hv
  | cons name names ih =>
    cases ts with
    | nil => cases hv
    | cons t ts =>
      rw [places.go] at hv
      rcases List.mem_cons.mp hv with rfl | hv
      · exact List.mem_cons_self
      · exact List.mem_cons_of_mem _ (ih hv)

/-- A variable has the type of its declaration, or of a component of it. -/
theorem type_of_places {d : VarDecl} {t : Ty} {offset : Int} {v : String × Ty × Int}
    (hv : v ∈ d.places t offset) :
    v.2.1 = t ∨ v.2.1 ∈ t.components := by
  unfold places at hv
  split at hv
  · rw [List.mem_singleton.mp hv]
    exact .inl rfl
  · exact .inr (type_mem_of_go hv)
  · exact .inl (List.mem_singleton.mp (type_mem_of_go hv))

theorem fst_mem_of_declared {T : TypeTable} {ds : List VarDecl} {top : Int} :
    ∀ q ∈ declared T top ds, q.1 ∈ ds := by
  induction ds generalizing top with
  | nil => simp [declared]
  | cons d ds ih =>
    rw [declared, List.forall_mem_cons]
    exact ⟨List.mem_cons_self, fun q hq => List.mem_cons_of_mem _ (ih q hq)⟩

end VarDecl

theorem LoopInit.fst_mem_of_declared {T : TypeTable} {is : List LoopInit} {top : Int} :
    ∀ q ∈ declared T top is, q.1 ∈ is.flatMap locals := by
  induction is generalizing top with
  | nil => simp [declared]
  | cons i is ih =>
    rw [List.flatMap_cons]
    cases i with
    | declare d =>
      rw [declared, List.forall_mem_cons]
      exact ⟨List.mem_append_left _ List.mem_cons_self, fun q hq =>
        List.mem_append_right _ (ih q hq)⟩
    | evaluate e =>
      rw [declared]
      exact fun q hq => List.mem_append_right _ (ih q hq)

namespace Stmt

mutual

/-- The declarations that have a place are those of the local variables. -/
theorem fst_mem_of_declared {T : TypeTable} :
    ∀ {st : Stmt} {top : Int}, ∀ q ∈ st.declared T top, q.1 ∈ st.locals
  | .block _ ds body, top => by
    rw [declared, locals, List.forall_mem_append]
    exact ⟨fun q hq => List.mem_append_left _ (VarDecl.fst_mem_of_declared q hq),
      fun q hq => List.mem_append_right _ (fst_mem_of_declaredInAll q hq)⟩
  | .ifThen _ _ t, top => by
    rw [declared, locals]
    exact fst_mem_of_declared
  | .ifElse _ _ t e, top => by
    rw [declared, locals, List.forall_mem_append]
    exact ⟨fun q hq => List.mem_append_left _ (fst_mem_of_declared q hq),
      fun q hq => List.mem_append_right _ (fst_mem_of_declared q hq)⟩
  | .forLoop _ inits _ _ body, top => by
    rw [declared, locals, List.forall_mem_append]
    exact ⟨fun q hq => List.mem_append_left _ (LoopInit.fst_mem_of_declared q hq),
      fun q hq => List.mem_append_right _ (fst_mem_of_declared q hq)⟩
  | .evaluation .., top | .write .., top | .break _, top | .continue _, top | .return .., top => by
    simp [declared]

/-- As `fst_mem_of_declared`, for several statements. -/
theorem fst_mem_of_declaredInAll {T : TypeTable} :
    ∀ {ss : List Stmt} {top : Int}, ∀ q ∈ declaredInAll T top ss,
    q.1 ∈ localsOfAll ss
  | [], top => by simp [declaredInAll]
  | s :: ss, top => by
    rw [declaredInAll, localsOfAll, List.forall_mem_append]
    exact ⟨fun q hq => List.mem_append_left _ (fst_mem_of_declared q hq),
      fun q hq => List.mem_append_right _ (fst_mem_of_declaredInAll q hq)⟩

end

end Stmt

/-- **Each local variable of a function has at least one byte**, where tuples are proper. -/
theorem Function.size_pos_of_local {T : TypeTable} {Γ : Names} {f : Function}
    (h : (Decl.define f).Typed Ty.Sound T Γ) {q : VarDecl × Int} (hq : q ∈ f.locals T)
    {v : String × Ty × Int} (hv : v ∈ q.1.places (T.typeOf q.1.id) q.2) : 0 < v.2.1.size := by
  have hmem : q.1 ∈ (Decl.define f).varDecls :=
    List.mem_append_right _ (Stmt.fst_mem_of_declared q hq)
  obtain ⟨t, ht, hsound, hvoid⟩ := h.varDecls q.1 hmem
  rw [TypeTable.typeOf_eq ht] at hv
  rcases VarDecl.type_of_places hv with heq | hcomponent
  · exact heq ▸ hsound.size_pos hvoid
  · cases t with
    | tuple ts =>
      exact (Ty.stable_sound.component hsound hcomponent).size_pos
        ((Ty.proper_tuple.mp hsound.2).2 _ hcomponent).2
    | _ =>
      rw [List.mem_singleton.mp hcomponent]
      exact hsound.size_pos hvoid

/-! ### Functions -/

/-- **The labels of a unit**: those of the symbols that names stand for. -/
def SymbolTable.Labels (σ : SymbolTable) (config : Config) (l : String) : Prop :=
  ∃ name s, σ.scope name = some s ∧ l = config.labelOf s

/-- **The labels that the code of a function may name are known**: those of its unit, and those of
local variables without any bytes, which the writer takes for variables of the unit. -/
structure Function.Knows (known : String → Prop) (T : TypeTable) (config : Config) (σ : SymbolTable)
    (f : Function) : Prop where
  /-- The labels of the unit are known. -/
  unit : ∀ l, σ.Labels config l → known l
  /-- The labels that the writer makes of local variables are known. -/
  empty : ∀ q ∈ f.locals T, ∀ v ∈ q.1.places (T.typeOf q.1.id) q.2, v.2.1.size = 0 →
    known (config.labelOf (Symbol.placed q.1.line v))

/-- Where tuples are proper, only labels of the unit need be known. -/
theorem Function.knows_labels {T : TypeTable} {σ : SymbolTable} {Γ : Names} {f : Function}
    (config : Config) (h : (Decl.define f).Typed Ty.Sound T Γ) :
    f.Knows (σ.Labels config) T config σ :=
  ⟨fun _ hl => hl, fun _ hq _ hv hsize => absurd hsize (Nat.ne_of_gt (size_pos_of_local h hq hv))⟩

section Functions

variable {t : SyntaxTree} {T : TypeTable} {σ : SymbolTable} {config : Config} {f : Function}
  {P : Ty → Prop}
  {named known : String → Prop}

/-- The nodes of an expression in the body of a function name known labels only. -/
theorem Function.allLinked_of_places (hglobal : ∀ name s, σ.scope name = some s → s.isGlobal = true)
    (hknows : f.Knows known T config σ) {Γ : Scene} {view : View Symbol}
    (hplaces : (f.source T config σ.scope (σ.scene t.origins)).Places Γ view) {e : Expr}
    (h : e.Typed P T Γ.names) :
    e.AllLinked known config view := by
  intro x hx
  have hx := h.part hx
  cases x with
  | «variable» site name =>
    obtain ⟨u, hname, -⟩ := hx
    obtain ⟨b, hb, -⟩ := Option.map_eq_some_iff.mp hname
    have haddress := f.addresses_of_places hglobal hplaces hb
    change ∀ l, (variableInstr config view name).reference? = some l → known l
    generalize variableInstr config view name = i at haddress ⊢
    intro l hl
    cases haddress with
    | unit hd hnode hs hmeaning => exact hknows.unit l ⟨name, _, hs, (Option.some.inj hl).symm⟩
    | frame => cases hl
    | empty hq _ hv _ _ _ hsize =>
      rw [← Option.some.inj hl]
      exact hknows.empty _ hq _ hv hsize
  | call site name args =>
    obtain ⟨-, ps, -, hname, hargs, -⟩ := hx
    have hmeaning : view.meanings name = some (.function ps) :=
      Function.meanings_of_places hplaces hname
    refine ⟨?_, by rw [Expr.calleeParameters_eq hmeaning, hargs.length_eq]⟩
    obtain ⟨b, hb, hfunction⟩ := Option.map_eq_some_iff.mp hname
    -- A local name is that of a variable, so a function is found among the names of the unit.
    obtain ⟨s, hview, hs⟩ := Function.declares_of_places hplaces hb
    cases hs with
    | unit _ _ hs => exact hknows.unit _ ⟨name, s, hs, by rw [calleeLabel, hview]⟩
    | frame _ _ _ _ hvariable => cases hvariable.symm.trans hfunction
  | _ => trivial

/-- **What the code of the body of a function refers to**: to labels that are known, to functions of
the runtime, and to itself. -/
theorem Function.refers_body {nodes : Array Node} {root : NodeId}
    (h : SyntaxTree.ofNodes nodes root = .ok t) (hcheck : Typing.checkTree t = .ok (T, σ))
    (hP : Ty.Stable P) (haccepted : Typing.Accepted P t.declarations T σ)
    (hf : .define f ∈ t.declarations) (hknows : f.Knows known T config σ) (n : Nat) :
    Refers named known (f.body.stmt.helpers T)
      (f.body.stmt.outline (f.context T config) (f.entry T σ.scope n)).code := by
  obtain ⟨hstem, htyped⟩ := f.stems_of_checked h hcheck config hf n
  obtain ⟨R, hR⟩ := haccepted.typed _ hf
  have hrefers : (f.outline T config σ.scope n).All (Piece.Refers named known T) := by
    refine hstem.imp fun p inner hp => ?_
    cases p with
    | expression mode view x =>
      obtain ⟨o, ho, hpart, hplaces, cx, k, hcx, heq⟩ := hp
      have hx : x.Typed Ty.Known T o.scene.names := (htyped o ho).part hpart
      have htypes : cx.types = T := Source.types_eq hcx
      have hconfig : cx.config = config := Source.config_eq hcx
      have hlinked : x.AllLinked known cx.config view :=
        hconfig ▸ allLinked_of_places
          (fun name s hs => haccepted.global name s hs) hknows hplaces hx
      rw [← htypes] at hx
      have hcode : Refers named known (x.helpers cx.types) (x.outline cx view mode k).code :=
        Expr.refers hx hlinked
      rw [htypes, ← Expr.code_inner heq] at hcode
      exact hcode
    | _ => trivial
  have hscope : σ.names = σ.scope.meanings := σ.names_eq
  have hstands : f.body.stmt.Stands P (f.context T config) (f.entry T σ.scope n) false :=
    f.stands hP (hscope ▸ haccepted.names) (hscope ▸ hR) (SyntaxTree.wellPlaced h _ hf)
  rw [outline, Outline.all_piece, Outline.all_append, Outline.all_append] at hrefers
  obtain ⟨-, ⟨-, hbody⟩, -⟩ := hrefers
  exact Stmt.refers hP hbody hstands fun l hl => by cases hl

/-- **What the code of a function refers to**: to what its body refers to. -/
theorem Function.refers {scope : View Symbol} {n : Nat}
    (hname : named (calleeLabel config scope f.signature.name))
    (hbody : Refers named known (f.body.stmt.helpers T)
      (f.body.stmt.outline (f.context T config) (f.entry T scope n)).code) :
    Refers named known (f.body.stmt.helpers T) (f.outline T config scope n).code := by
  simp only [outline, Outline.code_piece, Outline.code_append, Outline.code_ofCode]
  have hhead : Refers named known [] (f.head T config scope) := .of_known (by
    unfold head
    split <;> simp [Instr.Within, Instr.reference?, hname])
  refine (hhead.append hbody).behind ?_
  unfold tail
  split
  · simp only [leaveOutline, Outline.code_piece, Outline.code_append, Outline.code_ofCode]
    exact .leave
  · exact .inert inert_nil

end Functions

/-! ### Variables of the unit -/

namespace Expr

variable {named known : String → Prop}

mutual

/-- The texts of a literal name no label. -/
theorem within_text : ∀ {e : Expr} {n : Nat}, ∀ i ∈ e.textCode n, i.Within named known
  | .string .., n => by simp [textCode, Instr.Within, Instr.reference?]
  | .tuple _ es, n => by
    rw [textCode]
    exact within_texts
  | .integer .., n | .double .., n | .nullptr _, n | .input _, n | .variable .., n
  | .pointerIndex .., n | .tupleIndex .., n | .rvalue .., n | .assignment .., n | .unary .., n
  | .binary .., n | .addressOf .., n | .stackAlloc .., n | .sizeof .., n
  | .call .., n => by simp [textCode]

theorem within_texts : ∀ {es : List Expr} {n : Nat}, ∀ i ∈ textCodeOfAll n es, i.Within named known
  | [], n => by simp [textCodeOfAll]
  | e :: es, n => by
    rw [textCodeOfAll, List.forall_mem_append]
    exact ⟨within_text, within_texts⟩

end

mutual

/-- **The image of a literal names its texts**, and no other label. -/
theorem within_image : ∀ {e : Expr} {n : Nat} {target : Ty},
    ∀ i ∈ e.imageCode (n + 1) target, i.Within named fun l => .label l ∈ e.textCode n
  | .integer .., n, target => by
    rw [imageCode]
    split <;> simp [Instr.Within, Instr.reference?]
  | .double .., n, target
  | .nullptr _, n, target => by simp [imageCode, Instr.Within, Instr.reference?]
  | .string .., n, target => by simp [imageCode, textCode, Instr.Within, Instr.reference?]
  | .tuple _ [e], n, target => by
    rw [imageCode, textCode, textCodeOfAll, textCodeOfAll, List.append_nil]
    exact within_image
  | .tuple _ [], n, target | .tuple _ (_ :: _ :: _), n, target => by
    unfold imageCode
    rw [textCode]
    exact within_images
  | .input _, n, target | .variable .., n, target | .pointerIndex .., n, target
  | .tupleIndex .., n, target | .rvalue .., n, target | .assignment .., n, target
  | .unary .., n, target | .binary .., n, target | .addressOf .., n, target
  | .stackAlloc .., n, target | .sizeof .., n, target | .call .., n, target => by
    simp [imageCode]

theorem within_images : ∀ {es : List Expr} {n : Nat} {targets : List Ty},
    ∀ i ∈ imageCodeOfAll (n + 1) targets es, i.Within named fun l => .label l ∈ textCodeOfAll n es
  | [], n, targets | _ :: _, n, [] => by
    unfold imageCodeOfAll
    simp
  | e :: es, n, t :: ts => by
    rw [imageCodeOfAll, textCodeOfAll, List.forall_mem_append, Nat.add_right_comm]
    exact ⟨fun i hi => (within_image i hi).imp fun _ => List.mem_append_left _,
      fun i hi => (within_images i hi).imp fun _ => List.mem_append_right _⟩

end

end Expr

namespace VarDecl

variable {P : Ty → Prop} {named known : String → Prop} {d : VarDecl}

theorem within_head {segment : Instr} (hs : segment = .data ∨ segment = .bss) {name : String}
    (hname : named name) :
    ∀ i ∈ d.headCode segment name, i.Within named known := by
  unfold headCode
  rcases hs with rfl | rfl
  all_goals split <;> simp [Instr.Within, Instr.reference?, hname]

theorem refers_variable {n : Nat} {name : String} {u : Ty} {value : Option Expr}
    (hname : named name) :
    Refers named known [] (d.variableCode n name u value) := by
  cases value with
  | none =>
    exact Refers.behind (.of_known (within_head (.inr rfl) hname))
      (.of_known (by simp [Instr.Within, Instr.reference?]))
  | some e =>
    -- The image of the value names the texts that are laid down in front of it.
    refine (Refers.behind (.behind (.of_known e.within_text)
      (.of_known (within_head (.inl rfl) hname)))
      (.of_known e.within_image)).place fun l hl => .inr ?_
    exact List.mem_append_left _ (List.mem_append_left _ hl)

theorem refers_each :
    ∀ {names : List String} {us : List Ty} {values : List (Option Expr)} {n : Nat},
    (∀ name ∈ names, named name) → Refers named known [] (d.eachCode n names us values)
  | _ :: _, _ :: _, _ :: _, n, h => by
    rw [List.forall_mem_cons] at h
    rw [eachCode]
    exact (refers_variable h.1).behind (refers_each h.2)
  | [], _, _, n, _ | _ :: _, [], _, n, _ | _ :: _, _ :: _, [], n, _ => .inert inert_nil

/-- **The variables of a declaration refer to their own texts only.** -/
theorem refers_lay {T : TypeTable} {n : Nat} (h : ∀ name ∈ d.names, named name) :
    Refers named known [] (d.layCode T n) := by
  unfold layCode
  split
  · exact .inert inert_nil
  · exact refers_each h

theorem label_mem_each :
    ∀ {names : List String} {us : List Ty} {values : List (Option Expr)} {n : Nat},
    us.length = names.length → values.length = names.length →
    ∀ name ∈ names, .label name ∈ d.eachCode n names us values
  | [], _, _, _, _, _ => by simp
  | name :: names, u :: us, value :: values, n, hus, hvalues => by
    rw [eachCode, List.forall_mem_cons]
    refine ⟨List.mem_append_left _ ?_, fun x hx => List.mem_append_right _ ?_⟩
    · cases value <;> simp [variableCode, headCode]
    · exact label_mem_each (Nat.succ.inj hus) (Nat.succ.inj hvalues) x hx

/-- **Each variable of a declaration is placed**, unless another unit has to do it. -/
theorem label_mem_lay {T : TypeTable} {Γ : Names} (h : d.TypedGlobal P T Γ)
    (hrequire : d.qualifier ≠ .require) (n : Nat) :
    ∀ name ∈ d.names, .label name ∈ d.layCode T n := by
  have hglobal := h
  obtain ⟨⟨u, ⟨hu, -⟩, -, hdivides, -⟩, -⟩ := h
  obtain ⟨hstarts, -⟩ := forall₂_values hu hglobal
  have hlength := length_typesOfNames hdivides
  rw [layCode, if_neg hrequire, TypeTable.typeOf_eq hu]
  exact label_mem_each hlength (hstarts.length_eq.symm.trans hlength)

end VarDecl

/-! ### What is placed, and what is not -/

namespace Config

/-- **The label of a function** of some name. -/
def functionLabel (c : Config) (name : String) : String :=
  if name = c.entryPoint then c.entrySymbol
  else if name = c.entrySymbol then "." ++ name
  else name

theorem labelOf_function {c : Config} {s : Symbol} (h : s.isFunction = true) :
    c.labelOf s = c.functionLabel s.name := by
  rw [labelOf, h]
  rfl

theorem labelOf_variable {c : Config} {s : Symbol} (h : s.isFunction = false) :
    c.labelOf s = s.name := by
  rw [labelOf, h]
  rfl

end Config

/-- **The labels of what is declared here and defined in another unit**: of functions that are
declared and never defined, and of variables that are required. -/
inductive Decl.Outside (config : Config) (ds : List Decl) : String → Prop where
  /-- A function that is never defined. -/
  | function {sig : Signature} (hsig : .declare sig ∈ ds)
      (hnone : ∀ f, .define f ∈ ds → f.signature.name ≠ sig.name) :
    Outside config ds (config.functionLabel sig.name)
  /-- A variable that is required. -/
  | variable {d : VarDecl} {name : String} (hd : .variable d ∈ ds)
      (hrequire : d.qualifier = .require)
    (hname : name ∈ d.names) : Outside config ds name

namespace Decl

/-- The function that a declaration defines. -/
def definedNames : Decl → List String
  | .variable _ | .declare _ => []
  | .define f => [f.signature.name]

/-- The labels that a declaration leaves to other units, in a unit that defines some functions. -/
def requests (config : Config) (defined : List String) : Decl → List String
  | .variable d => if d.qualifier = .require then d.names else []
  | .declare sig => if sig.name ∈ defined then [] else [config.functionLabel sig.name]
  | .define _ => []

variable {config : Config} {ds : List Decl} {l : String}

theorem mem_definedNames {name : String} :
    name ∈ ds.flatMap definedNames ↔ ∃ f, .define f ∈ ds ∧ f.signature.name = name := by
  rw [List.mem_flatMap]
  constructor
  · rintro ⟨d, hd, hname⟩
    cases d with
    | define f => exact ⟨f, hd, (List.mem_singleton.mp hname).symm⟩
    | «variable» | declare => cases hname
  · rintro ⟨f, hf, rfl⟩
    exact ⟨_, hf, List.mem_singleton_self _⟩

/-- What is defined in another unit can be computed. -/
theorem outside_iff_mem :
    Outside config ds l ↔ l ∈ ds.flatMap (requests config (ds.flatMap definedNames)) := by
  rw [List.mem_flatMap]
  constructor
  · rintro (⟨hsig, hnone⟩ | ⟨hd, hrequire, hname⟩)
    · refine ⟨_, hsig, ?_⟩
      rw [requests, if_neg fun h => ?_, List.mem_singleton]
      obtain ⟨f, hf, hname⟩ := mem_definedNames.mp h
      exact hnone f hf hname
    · refine ⟨_, hd, ?_⟩
      rwa [requests, if_pos hrequire]
  · rintro ⟨d, hd, hl⟩
    cases d with
    | «variable» d =>
      rw [requests] at hl
      split at hl
      · exact .variable hd ‹_› hl
      · cases hl
    | declare sig =>
      rw [requests] at hl
      split at hl
      · cases hl
      · rename_i hdefined
        obtain rfl := List.mem_singleton.mp hl
        exact .function hd fun f hf hname => hdefined (mem_definedNames.mpr ⟨f, hf, hname⟩)
    | define => cases hl

instance : Decidable (Outside config ds l) := decidable_of_iff _ outside_iff_mem.symm

end Decl

/-- What the linker knows of a name. -/
theorem SymbolTable.view_status (σ : SymbolTable) (name : String) :
    σ.view Symbol.status name = (σ.scope name).map Symbol.status := by
  rw [scope, view, view, Option.map_map]
  rfl

namespace Registered

variable {ds : List Decl} {σ : SymbolTable} {config : Config} {name : String} {s : Symbol}

/-- **What a name stands for is declared**, as what it is. -/
theorem exists_declaration (h : Registered ds (σ.view Symbol.status)) (hs : σ.scope name = some s) :
    ∃ d ∈ ds, name ∈ d.names ∧ s.isFunction = d.isFunction ∧ s.qualifier = d.qualifier := by
  have hst : σ.view Symbol.status name = some s.status := by rw [σ.view_status, hs, Option.map_some]
  obtain ⟨d, hd, hname⟩ := h.declared name _ hst
  obtain ⟨st, hst', hkind⟩ := h.known d hd name hname
  cases hst.symm.trans hst'
  exact ⟨d, hd, hname, hkind⟩

/-- A variable of the unit. -/
theorem exists_variable (h : Registered ds (σ.view Symbol.status)) (hs : σ.scope name = some s)
    (hf : s.isFunction = false) :
    ∃ d, Decl.variable d ∈ ds ∧ name ∈ d.names ∧ d.qualifier = s.qualifier := by
  obtain ⟨d, hd, hname, hkind, hqualifier⟩ := h.exists_declaration hs
  cases d with
  | «variable» d => exact ⟨d, hd, hname, hqualifier.symm⟩
  | declare | define => cases hf.symm.trans hkind

/-- A function of the unit. -/
theorem exists_function (h : Registered ds (σ.view Symbol.status)) (hs : σ.scope name = some s)
    (hf : s.isFunction = true) :
    (∃ sig, .declare sig ∈ ds ∧ sig.name = name) ∨
    ∃ f, .define f ∈ ds ∧ f.signature.name = name := by
  obtain ⟨d, hd, hname, hkind, -⟩ := h.exists_declaration hs
  cases d with
  | «variable» d => cases hf.symm.trans hkind
  | declare sig => exact .inl ⟨sig, hd, (List.mem_singleton.mp hname).symm⟩
  | define f => exact .inr ⟨f, hd, (List.mem_singleton.mp hname).symm⟩

/-- A function counts as defined exactly if it is. -/
theorem defined_iff (h : Registered ds (σ.view Symbol.status)) (hs : σ.scope name = some s)
    (hf : s.isFunction = true) :
    s.defined = true ↔ ∃ f, Decl.define f ∈ ds ∧ f.signature.name = name :=
  h.defined name s.status (by rw [σ.view_status, hs, Option.map_some]) hf

/-- A function that another unit has to define is not defined here. -/
theorem isForeign_function (h : Registered ds (σ.view Symbol.status)) (hs : σ.scope name = some s)
    (hf : s.isFunction = true) : isForeign s = !s.defined := by
  have hrequire : s.defined = true → s.qualifier ≠ .require := by
    intro hdefined
    obtain ⟨f, hmem, hname⟩ := (h.defined_iff hs hf).mp hdefined
    obtain ⟨st, hst, -, hqualifier⟩ := h.known _ hmem name (List.mem_singleton.mpr hname.symm)
    rw [σ.view_status, hs] at hst
    cases hst
    exact fun hrequire => h.required f hmem (hqualifier.symm.trans hrequire)
  rw [isForeign, hf, Bool.true_and]
  cases hdefined : s.defined with
  | false => rfl
  | true => simpa using hrequire hdefined

/-- **Another unit has to place exactly what is declared here and defined there.** -/
theorem outside_iff (h : Registered ds (σ.view Symbol.status))
    (hname : ∀ name s, σ.scope name = some s → s.name = name) {l : String} :
    Decl.Outside config ds l ↔ ∃ name s, σ.scope name = some s ∧ isForeign s = true ∧
      config.labelOf s = l := by
  constructor
  · rintro (⟨hsig, hnone⟩ | ⟨hd, hrequire, hmem⟩)
    · obtain ⟨st, hst, hf, -⟩ := h.known _ hsig _ List.mem_cons_self
      rw [σ.view_status] at hst
      obtain ⟨s, hs, rfl⟩ := Option.map_eq_some_iff.mp hst
      refine ⟨_, s, hs, ?_, by rw [Config.labelOf_function hf, hname _ s hs]⟩
      rw [h.isForeign_function hs hf, Bool.not_eq_true']
      by_contra hdefined
      obtain ⟨f, hmem, heq⟩ := (h.defined_iff hs hf).mp (by simpa using hdefined)
      exact hnone f hmem heq
    · obtain ⟨st, hst, hf, hqualifier⟩ := h.known _ hd _ hmem
      rw [σ.view_status] at hst
      obtain ⟨s, hs, rfl⟩ := Option.map_eq_some_iff.mp hst
      have hrequire : s.qualifier = .require := hqualifier.trans hrequire
      exact ⟨_, s, hs,
        by simp [isForeign, hrequire], by rw [Config.labelOf_variable hf, hname _ s hs]⟩
  · rintro ⟨name, s, hs, hforeign, rfl⟩
    obtain rfl := hname name s hs
    cases hf : s.isFunction with
    | true =>
      rw [h.isForeign_function hs hf, Bool.not_eq_true'] at hforeign
      have hnone : ∀ f, Decl.define f ∈ ds → f.signature.name ≠ s.name := by
        intro f hmem heq
        cases hforeign.symm.trans ((h.defined_iff hs hf).mpr ⟨f, hmem, heq⟩)
      rcases h.exists_function hs hf with ⟨sig, hsig, heq⟩ | ⟨f, hmem, heq⟩
      · rw [Config.labelOf_function hf, ← heq]
        exact .function hsig (heq ▸ hnone)
      · exact absurd heq (hnone f hmem)
    | false =>
      obtain ⟨d, hd, hmem, hqualifier⟩ := h.exists_variable hs hf
      rw [Config.labelOf_variable hf]
      refine .variable hd ?_ hmem
      simpa [isForeign, hf, ← hqualifier] using hforeign

end Registered

/-! ### Units -/

namespace Decl

variable {T : TypeTable} {config : Config} {scope : View Symbol} {named known : String → Prop}
  {ds : List Decl}

theorem refers_outlineOfAll
    (h : ∀ d ∈ ds, ∀ n, Refers named known (d.helpers T) (d.outline T config scope n).code)
    (n : Nat) : Refers named known (helpersOfAll T ds) (outlineOfAll T config scope n ds).code := by
  induction ds generalizing n with
  | nil => exact .inert inert_nil
  | cons d ds ih =>
    rw [List.forall_mem_cons] at h
    rw [outlineOfAll, Outline.code_append]
    exact (h.1 n).append (ih h.2 _)

/-- The code of a declaration is in that of the unit. -/
theorem outline_subset_outlineOfAll (T : TypeTable) (config : Config) (scope : View Symbol)
    {d : Decl} (hd : d ∈ ds) (n : Nat) :
    ∃ m, (d.outline T config scope m).code ⊆ (outlineOfAll T config scope n ds).code := by
  induction ds generalizing n with
  | nil => cases hd
  | cons e ds ih =>
    rw [outlineOfAll, Outline.code_append]
    rcases List.mem_cons.mp hd with rfl | hd
    · exact ⟨n, List.subset_append_left _ _⟩
    · obtain ⟨m, hm⟩ := ih hd (n + e.labelCount)
      exact ⟨m, List.Subset.trans hm (List.subset_append_right _ _)⟩

variable {σ : SymbolTable}

/-- **What other units have to place**: the functions of the runtime that are called, and what is
declared here and defined elsewhere. -/
theorem mem_externs {P : Ty → Prop} (haccepted : Typing.Accepted P ds T σ)
    (h : Registered ds (σ.view Symbol.status)) (hn : (σ.global.map Prod.fst).Nodup) {l : String} :
    l ∈ externs T config σ ds ↔ l ∈ helpersOfAll T ds ∨ Outside config ds l := by
  have hname : ∀ name s, σ.scope name = some s → s.name = name :=
    fun _ _ => haccepted.closed.name_eq
  rw [externs, mem_sortedNames, List.mem_append, h.outside_iff hname, List.mem_map]
  simp only [List.mem_filter, SymbolTable.mem_globals haccepted.closed haccepted.locals hn]
  refine or_congr_right ⟨?_, ?_⟩
  · rintro ⟨s, ⟨⟨name, hs⟩, hforeign⟩, hl⟩
    exact ⟨name, s, hs, hforeign, hl⟩
  · rintro ⟨name, s, hs, hforeign, hl⟩
    exact ⟨s, ⟨⟨name, hs⟩, hforeign⟩, hl⟩

/-- **What no other unit has to place is placed here.** -/
theorem label_mem_outlineOfAll {P : Ty → Prop} (haccepted : Typing.Accepted P ds T σ)
    (h : Registered ds (σ.view Symbol.status)) {name : String} {s : Symbol}
    (hs : σ.scope name = some s) (hforeign : isForeign s = false) (n : Nat) :
    .label (config.labelOf s) ∈ (outlineOfAll T config σ.scope n ds).code := by
  have hname : s.name = name := haccepted.closed.name_eq hs
  cases hf : s.isFunction with
  | true =>
    rw [h.isForeign_function hs hf, Bool.not_eq_false'] at hforeign
    obtain ⟨f, hmem, heq⟩ := (h.defined_iff hs hf).mp hforeign
    obtain ⟨m, hm⟩ := outline_subset_outlineOfAll T config σ.scope hmem n
    refine hm ?_
    have hlabel : calleeLabel config σ.scope f.signature.name = config.labelOf s := by
        rw [calleeLabel, heq, hs]
    simp only [outline, Function.outline, Function.head, hlabel, Outline.code_piece,
      Outline.code_append, Outline.code_ofCode]
    simp
  | false =>
    obtain ⟨d, hd, hmem, hqualifier⟩ := h.exists_variable hs hf
    obtain ⟨m, hm⟩ := outline_subset_outlineOfAll T config σ.scope hd n
    refine hm ?_
    have hrequire : d.qualifier ≠ .require := by
      rw [hqualifier]
      simpa [isForeign, hf] using hforeign
    rw [Config.labelOf_variable hf, hname, outline, Outline.code_ofCode]
    exact VarDecl.label_mem_lay (haccepted.typed _ hd) hrequire m name hmem

end Decl

section Units

variable {nodes : Array Node} {root : NodeId} {t : SyntaxTree} {T : TypeTable} {σ : SymbolTable}

/-- What is checked is accepted, with all types known. -/
theorem SyntaxTree.accepted (h : SyntaxTree.ofNodes nodes root = .ok t)
    (hcheck : Typing.checkTree t = .ok (T, σ)) :
    Typing.Accepted Ty.Known t.declarations T σ :=
  (Typing.checkTree_outcome Ty.stable_known h fun _ _ _ _ h => h).1 T σ hcheck

/-- What is checked is compiled, if nothing is asked of types but that they are known. -/
theorem SyntaxTree.compile_eq (h : SyntaxTree.ofNodes nodes root = .ok t)
    (hcheck : Typing.checkTree t = .ok (T, σ)) (config : Config) : compile t config =
      .ok ⟨(Decl.outlineOfAll T config σ.scope 0 t.declarations).code ++
        (Decl.externs T config σ t.declarations).map .external, Decl.frames T t.declarations⟩ :=
  compile_of_checked Ty.stable_known h (fun _ _ _ _ h => h) hcheck config

/-- **What the code of an accepted unit refers to**: to labels that are known, to functions of the
runtime, and to itself. -/
theorem SyntaxTree.refers (h : SyntaxTree.ofNodes nodes root = .ok t)
    (hcheck : Typing.checkTree t = .ok (T, σ)) {P : Ty → Prop} (hP : Ty.Stable P)
    (haccepted : Typing.Accepted P t.declarations T σ) {config : Config} {known : String → Prop}
    (hknows : ∀ f, .define f ∈ t.declarations → f.Knows known T config σ) :
    Refers (fun _ => True) known (Decl.helpersOfAll T t.declarations)
      (Decl.outlineOfAll T config σ.scope 0 t.declarations).code := by
  refine Decl.refers_outlineOfAll (fun d hd n => ?_) 0
  cases d with
  | «variable» d =>
    rw [Decl.outline, Outline.code_ofCode]
    exact d.refers_lay fun _ _ => trivial
  | declare => exact .inert inert_nil
  | define f => exact f.refers trivial (f.refers_body h hcheck hP haccepted hd (hknows f hd) n)

/-- **Each label that is named is placed**, in the unit or by another one that is asked for it. In a
unit whose tuples are proper each label of a jump, a call or an address stands in the code, or it is
one of those behind the code that other units have to place. These are in strictly ascending order,
and they are the functions of the runtime that are called to read and to print, and what is declared
here and defined elsewhere. -/
theorem references_resolved (h : SyntaxTree.ofNodes nodes root = .ok t)
    (ht : ∀ d ∈ t.declarations, ∀ u ∈ d.writtenTypes, u.Proper)
    (hcheck : Typing.checkTree t = .ok (T, σ)) (config : Config) :
    ∃ (c : Compilation) (body : List Instr) (externs : List String), compile t config = .ok c ∧
      c.code = body ++ externs.map .external ∧ (∀ l, .external l ∉ body) ∧
      (∀ i ∈ c.code, ∀ l, i.reference? = some l → .label l ∈ c.code ∨ l ∈ externs) ∧
      externs.Pairwise (· < ·) ∧
      (∀ l, l ∈ externs ↔
        l ∈ Decl.helpersOfAll T t.declarations ∨ Decl.Outside config t.declarations l) ∧
      ∀ l ∈ Decl.helpersOfAll T t.declarations, .call l ∈ body := by
  have hwritten : ∀ d ∈ t.declarations, ∀ u ∈ d.writtenTypes, Typing.Written Ty.Sound u :=
    fun d hd u hu hk => ⟨hk, ht d hd u hu⟩
  have haccepted := (Typing.checkTree_outcome Ty.stable_sound h hwritten).1 T σ hcheck
  have hregistered := SyntaxTree.registered h hcheck
  have hnodup := SyntaxTree.nodup_global hcheck
  have hrefers := SyntaxTree.refers h hcheck Ty.stable_sound haccepted
    fun f hf => f.knows_labels config (haccepted.typed _ hf)
  have hexterns : ∀ l, l ∈ Decl.externs T config σ t.declarations ↔ _ :=
    fun _ => Decl.mem_externs haccepted hregistered hnodup
  refine ⟨_, (Decl.outlineOfAll T config σ.scope 0 t.declarations).code,
    Decl.externs T config σ t.declarations,
    compile_of_checked Ty.stable_sound h hwritten hcheck config, rfl, fun l hl =>
      (hrefers.found _ hl).2.2 l rfl, ?_,
    pairwise_sortedNames _, hexterns, hrefers.called⟩
  intro i hi l hl
  rcases List.mem_append.mp hi with hi | hi
  · rcases (hrefers.found i hi).1 l hl with ⟨name, s, hs, rfl⟩ | hhelper | hplaced
    · cases hforeign : isForeign s with
      | true =>
        have hname : ∀ name s, σ.scope name = some s → s.name = name :=
          fun _ _ => haccepted.closed.name_eq
        exact .inr ((hexterns _).mpr
          (.inr ((hregistered.outside_iff hname).mpr ⟨name, s, hs, hforeign, rfl⟩)))
      | false => exact .inl (List.mem_append_left _
          (Decl.label_mem_outlineOfAll haccepted hregistered hs hforeign 0))
    · exact .inr ((hexterns l).mpr (.inl hhelper))
    · exact .inl (List.mem_append_left _ hplaced)
  · obtain ⟨name, -, rfl⟩ := List.mem_map.mp hi
    cases hl

/-- The nodes of a unit that prints a variable of another unit. -/
def foreignNodes : Array Node := #[
  ⟨1, .variableDeclaration .require .int ["v"] none⟩, ⟨2, .variable "v"⟩, ⟨2, .rvalue (.ofIndex 1)⟩,
  ⟨2, .write [.ofIndex 2] true⟩, ⟨3, .integer 0⟩, ⟨3, .return (some (.ofIndex 4))⟩,
  ⟨2, .block [] [.ofIndex 3, .ofIndex 5]⟩,
  ⟨2, .functionDefinition .public .int "f" [] (.ofIndex 6)⟩, ⟨1, .program [.ofIndex 0, .ofIndex 7]⟩]

theorem references_resolved_foreign :
    ∃ t c body externs, SyntaxTree.ofNodes foreignNodes (.ofIndex 8) = .ok t ∧
    compile t .default = .ok c ∧ c.code = body ++ List.map .external externs ∧
    (∀ l, l ∈ externs ↔ l = "printi" ∨ l = "println" ∨ l = "v") ∧
    ∀ i ∈ c.code, ∀ l, i.reference? = some l → .label l ∈ c.code ∨ l ∈ externs := by
  have hok : (SyntaxTree.ofNodes foreignNodes (.ofIndex 8)).toOption.any (fun t =>
      decide (∀ d ∈ t.declarations, ∀ u ∈ d.writtenTypes, u.Proper) &&
        (Typing.checkTree t).toOption.any fun r =>
        decide (Decl.helpersOfAll r.1 t.declarations = ["printi", "println"]) &&
          decide (t.declarations.flatMap (Decl.requests .default
            (t.declarations.flatMap Decl.definedNames)) = ["v"])) =
      true := by
    decide +kernel
  obtain ⟨t, h, hok⟩ := any_toOption.mp hok
  obtain ⟨ht, hok⟩ := Bool.and_eq_true_iff.mp hok
  obtain ⟨⟨T, σ⟩, hcheck, hok⟩ := any_toOption.mp hok
  obtain ⟨hhelpers, hrequests⟩ := Bool.and_eq_true_iff.mp hok
  obtain ⟨c, body, externs, hc, hcode, -, hresolved, -, hexterns, -⟩ :=
    references_resolved h (of_decide_eq_true ht) hcheck .default
  refine ⟨t, c, body, externs, h, hc, hcode, fun l => ?_, hresolved⟩
  rw [hexterns, of_decide_eq_true hhelpers, Decl.outside_iff_mem, of_decide_eq_true hrequests]
  simp [or_assoc]

end Units

end PostfixCompiler
