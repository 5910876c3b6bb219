import PostfixCompiler.Proofs.Frame.Statements
import PostfixCompiler.Proofs.Machine.Orderly
import PostfixCompiler.Proofs.Machine.PrintRun
import PostfixCompiler.Proofs.Machine.UnitHeight
import PostfixCompiler.Proofs.Machine.UnitRun

/-!
# What a unit prints

All statements of a function sit in its room, so what is known of a statement there that writes
values holds of every such statement in every function of an accepted unit.

It is known in two ways. Among functions that return, and that leave the stack as it was, the code
of the statement comes to its end whatever it computes, and prints whatever it has computed. And if
the language promises the values, then these are what is printed, with whatever functions the code
calls on its way.

The code of the statement may stand in any code, at any position, as long as the labels which the
compiler makes up are placed once there.

## Main definitions

* `PostfixCompiler.Machine.Scene.Plays`: a scene for a function of a unit.
* `PostfixCompiler.Stmt.WritesAny`: code writes whatever the arguments of a statement have left.
* `PostfixCompiler.Stmt.WritesValues`: code writes the values of the arguments of a statement.
* `PostfixCompiler.Function.PrintsLeaves`: a function prints the leaves of what it writes.

## Main statements

* `PostfixCompiler.Machine.Scene.Plays.sound`: in a scene for a function no bytes are used for two
  things.
* `PostfixCompiler.leaves_printed`: every function of an accepted unit prints the leaves of what it
  writes.
-/

namespace PostfixCompiler

open Emission

variable {T : TypeTable} {config : Config} {scope : View Symbol} {n : Nat} {f : Function} {R : Ty}

/-! ### Scenes for functions -/

/-- The bytes of a frame for the results of calls are in the frame, apart from its slots. -/
theorem Function.calls_laid (T : TypeTable) (f : Function) :
    -((f.frame T).frameSize : Int) ≤ (f.frame T).callTempOffset ∧
    (f.frame T).callTempOffset + (f.frame T).callTempSize ≤ 0 ∧ ∀ s ∈ (f.frame T).slots,
      (f.frame T).callTempOffset + (f.frame T).callTempSize ≤ s.offset ∨
      s.offset + s.size ≤ (f.frame T).callTempOffset := by
  have hstacked := (stacked_areas (T := T) (f := f)).pairwise
  have hwithin := (stacked_areas (T := T) (f := f)).within
  rw [areas, List.forall_mem_append] at hwithin
  rw [areas, List.pairwise_append] at hstacked
  rw [FrameLayout.areas, List.pairwise_cons] at hstacked
  have hcalls := hwithin.2 _ List.mem_cons_self
  exact ⟨hcalls.1, hcalls.2, fun s hs =>
    hstacked.2.1.1 _ (List.mem_cons_of_mem _ (List.mem_map_of_mem hs))⟩

namespace Machine

/-- **A scene for a function of a unit**: its code is run in a frame, with the stack below, on a
machine for which the addresses of the frame are words, and the words addresses; and the bytes of
the program are none of those that the machine needs for itself. -/
structure Scene.Plays {M : Machine} {W : Type} (C : M.Scene W) (T : TypeTable) (config : Config)
    (scope : View Symbol) (f : Function) (label : NodeId → String) : Prop where
  /-- The room is that of the function. -/
  room : C.room = f.room T scope
  /-- The nodes have their types. -/
  types : C.stage.types = T
  /-- Labels are made as in the code. -/
  config : C.stage.config = config
  /-- A text stands for the address of its label. -/
  texts : C.stage.texts = fun id => M.label (label id)
  /-- The areas of the room end with the arguments. -/
  top : C.top = f.argumentsStop T
  /-- Each word is an address. -/
  words : ∀ w, M.ofInt (M.toInt w) = w
  /-- Addresses are words. -/
  addresses : M.Addresses C.low C.high
  /-- So are those of the frame. -/
  frame : C.low ≤ C.stage.fp - (f.frame T).frameSize ∧ C.stage.fp + f.argumentsStop T ≤ C.high
  /-- The stack is below the frame. -/
  base_le : C.base ≤ C.stage.fp - (f.frame T).frameSize
  /-- The bytes of the program have addresses. -/
  own_within : ∀ a, C.stage.own a = true → C.low ≤ a ∧ a < C.high
  /-- The machine has none of them to itself. -/
  own_apart : ∀ a, C.stage.own a = true → ∀ ids, ¬C.Private ids C.base a

/-- **In a scene for a function no bytes are used for two things.** -/
theorem Scene.Plays.sound {M : Machine} {W : Type} {C : M.Scene W} {label : NodeId → String}
    (hC : C.Plays T config scope f label)
    (hglobal : ∀ name s, scope name = some s → s.isGlobal = true) {cx : Context}
    (hcx : (f.room T scope).Suits Ty.Sound cx) (hconfig : cx.config = config) : C.Sound cx := by
  obtain ⟨hin, hbelow, hapart⟩ := f.calls_laid T
  have hstop : 0 ≤ f.argumentsStop T := by
    unfold Function.argumentsStop Function.argumentsStart
    split <;> omega
  refine ⟨hC.room ▸ hcx, ?_, hC.config.trans hconfig.symm, ?_, ?_, ?_, hC.words, hC.addresses, ?_,
    ?_, hC.own_within, hC.own_apart⟩
  · rw [hC.types, hC.room]
    rfl
  · rw [hC.room, hC.top]
    exact f.laid hglobal
  · rw [hC.room, hC.top, Room.floor]
    change C.stage.fp - (f.frame T).frameSize ≤ C.stage.fp + (f.frame T).callTempOffset ∧
      (f.frame T).callTempOffset + (f.frame T).callTempSize ≤ f.argumentsStop T
    omega
  · rw [hC.room]
    exact hapart
  · rw [hC.room, hC.top, Room.floor]
    exact hC.frame
  · rw [hC.room, Room.floor]
    exact hC.base_le

end Machine

/-! ### Statements -/

namespace Stmt

open Machine

/-- **Code writes whatever the arguments of a statement have left**, among functions that return and
leave the stack as it was. -/
def WritesAny (cx : Context) (pt : Point) (args : List Expr) (newline : Bool)
    (is : List Instr) : Prop :=
  ∀ (M : Machine) (E : Surroundings M) (fp : Int) (code : List Instr) (p a b : Nat)
    (w : E.World) (s : M.Store),
    E.Orderly → Makes code a b → Holds code p is → ∃ vs cs w' s',
      E.Writes fp code (Expr.printParts cx pt args) newline vs (p, w, s) cs (p + is.length, w', s')

/-- **Code writes the values of the arguments of a statement**, if the language promises them, with
room enough on the stack. -/
def WritesValues (T : TypeTable) (config : Config) (scope : View Symbol) (f : Function)
    (label : NodeId → String) (cx : Context) (pt : Point) (args : List Expr) (newline : Bool)
    (is : List Instr) : Prop :=
  ∀ (M : Machine) (W : Type) (C : M.Scene W) (code : List Instr) (p a b : Nat)
    (w : C.surroundings.World)
    (s : M.Store) (σ σ' : W × M.Memory) (vs : List M.Value),
    C.Plays T config scope f label → C.Honors →
    Makes code a b → Holds code p is → s.sp ≤ C.base →
    C.bottom + Expr.needOfAll T args + C.reserve ≤ s.sp →
    C.Agrees σ w s → Expr.write C.stage pt.scope args newline σ = some (vs, σ') → ∃ cs w' s',
      C.surroundings.Writes C.stage.fp code (Expr.printParts cx pt args) newline vs (p, w, s) cs
        (p + is.length, w', s') ∧ C.Agrees σ' w' s'

end Stmt

/-! ### Functions -/

namespace Function

/-- **A function prints the leaves of what it writes.** For each of its statements that write
values, each value is printed leaf by leaf, in order, from the top of the stack; then the stack is
back where it was. A line is ended behind all values, if it has to be. -/
def PrintsLeaves (T : TypeTable) (config : Config) (scope : View Symbol) (n : Nat)
    (f : Function) : Prop :=
  ∃ label : NodeId → String, (f.outline T config scope n).All fun p inner =>
    (∀ id l, p = .text id l → label id = l) ∧
    ∀ site args newline, p = .statement (.write site args newline) → ∃ cx pt,
      (Stmt.write site args newline).outline cx pt = .piece p inner ∧ cx.types = T ∧
      (∃ k m, Makes inner.code k m) ∧ (∀ e ∈ args, ∀ t ∈ (e.type T).leaves, t.IsPrinted) ∧
      ((∀ e ∈ args, e.IsSteady) → Stmt.WritesAny cx pt args newline inner.code) ∧
      Stmt.WritesValues T config scope f label cx pt args newline inner.code

/-- **Every typed function prints the leaves of what it writes.** -/
theorem printsLeaves (hΓ : View.Settled Ty.Sound scope.meanings)
    (h : f.Typed Ty.Sound T scope.meanings R) (hw : f.WellPlaced) (hf : f.ids.Nodup)
    (hglobal : ∀ name s, scope name = some s → s.isGlobal = true) (config : Config) (n : Nat) :
    f.PrintsLeaves T config scope n := by
  obtain ⟨label, hlabel⟩ := exists_labelOfText hf T config scope n
  refine ⟨label,
    ((Outline.all_texts hlabel).and (f.all_settle Ty.stable_sound config n hΓ h hw hf)).imp ?_⟩
  rintro p inner ⟨⟨htext, htexts⟩, hsettles⟩
  refine ⟨htext, ?_⟩
  rintro site args newline rfl
  obtain ⟨cx, pt, inLoop, hcx, hconfig, hsits, heq⟩ := hsettles _ rfl
  have htypes : cx.types = T := hcx.types
  have hcode : ((Stmt.write site args newline).outline cx pt).code = inner.code := by
      rw [heq, Outline.code_piece]
  have hargs := hsits.write hcx
  have hprinted : ∀ e ∈ args, ∀ t ∈ (e.type cx.types).leaves, t.IsPrinted := by
    intro e he
    obtain ⟨t, ⟨-, ht, -⟩, hprintable⟩ := hsits.stands.typed e he
    rw [Expr.type, TypeTable.typeOf_eq ht]
    exact Ty.isPrinted_leaves hprintable
  refine ⟨cx, pt, heq, htypes, ?_, htypes ▸ hprinted, ?_, ?_⟩
  · exact ⟨_, _, hcode ▸ (Stmt.write site args newline).makes cx pt⟩
  · intro hsteady M E fp code p a b w s hE hm hc
    rw [← hcode] at hc ⊢
    exact hE.writes fp hcx hm hc hargs hsteady hprinted w s
  · intro M W C code p a b w s σ σ' vs hC hH hm hc hbase hroom hagrees hvs
    have hfinds : ((Stmt.write site args newline).outline cx pt).Finds M C.stage.texts := by
      rw [heq, Outline.finds_statement, hC.texts]
      exact fun q hq => congrArg M.label (htexts q hq)
    have htable : C.room.types = T := by rw [hC.room]; rfl
    rw [← htable] at hroom
    rw [← hcode] at hc ⊢
    exact Stmt.writes (hC.sound hglobal hcx hconfig) hH hfinds
      (hC.room ▸ hargs) hprinted hm hc hbase hroom hagrees hvs

end Function

/-! ### A unit that writes -/

/-- The nodes of a unit that writes a number, and a pair of a number and a text. -/
def writingNodes : Array Node := #[
  ⟨2, .integer 1⟩, ⟨2, .double ⟨0x4004000000000000⟩⟩, ⟨2, .string "a"⟩,
  ⟨2, .tuple [.ofIndex 1, .ofIndex 2]⟩,
  ⟨2, .write [.ofIndex 0, .ofIndex 3] true⟩, ⟨1, .block [] [.ofIndex 4]⟩,
  ⟨1, .functionDefinition .public .void "f" [] (.ofIndex 5)⟩, ⟨1, .program [.ofIndex 6]⟩]

/-- The body of a function is one statement that writes a number, and a pair of a number and a
text. -/
def Function.writesPair? (f : Function) : Option (Expr × Expr) :=
  match f.body.declarations, f.body.body with
  | [], [.write _ [.integer s k, .tuple s' [.double i d, .string j x]] true] =>
    some (.integer s k, .tuple s' [.double i d, .string j x])
  | _, _ => none

theorem Function.writesPair?_eq_some {f : Function} {a b : Expr} (h : f.writesPair? = some (a, b)) :
    f.body.declarations = [] ∧ (∃ site, f.body.body = [.write site [a, b] true]) ∧ ∃ s k s' i d j x,
      a = .integer s k ∧ b = .tuple s' [.double i d, .string j x] := by
  unfold writesPair? at h
  split at h
  · cases h
    rename_i hds hbody
    exact ⟨hds, ⟨_, hbody⟩, _, _, _, _, _, _, _, rfl, rfl⟩
  · cases h

/-- What the sample is. -/
theorem exists_writing_sample :
    ∃ t T σ f a b, SyntaxTree.ofNodes writingNodes (.ofIndex 7) = .ok t ∧
    Typing.checkTree t = .ok (T, σ) ∧ t.declarations = [.define f] ∧ f.writesPair? = some (a, b) ∧
    (∀ d ∈ t.declarations, ∀ u ∈ d.writtenTypes, u.Proper) ∧
    Decl.Unreserved .default t.declarations ∧
    (f.frame T).frameSize + Expr.needOfAll T [a, b] < 2 ^ 31 ∧ f.argumentsStop T < 2 ^ 31 := by
  have hok : (SyntaxTree.ofNodes writingNodes (.ofIndex 7)).toOption.any (fun t =>
      (Typing.checkTree t).toOption.any fun r => t.onlyFunction?.any fun f =>
        f.writesPair?.any fun p =>
        decide ((∀ d ∈ t.declarations, ∀ u ∈ d.writtenTypes, u.Proper) ∧
          Decl.Unreserved .default t.declarations ∧
          (f.frame r.1).frameSize + Expr.needOfAll r.1 [p.1, p.2] < 2 ^ 31 ∧
          f.argumentsStop r.1 < 2 ^ 31)) = true := by
    decide +kernel
  obtain ⟨t, ht, hok⟩ := any_toOption.mp hok
  obtain ⟨⟨T, σ⟩, hcheck, hok⟩ := any_toOption.mp hok
  obtain ⟨f, hf, hok⟩ := (Option.any_eq_true _ _).mp hok
  obtain ⟨⟨a, b⟩, hpair, hok⟩ := (Option.any_eq_true _ _).mp hok
  exact ⟨t, T, σ, f, a, b, ht, hcheck, SyntaxTree.onlyFunction?_eq_some.mp hf, hpair,
    of_decide_eq_true hok⟩

namespace Machine

/-- Surroundings in which functions leave everything as it is. -/
def Surroundings.still (M : Machine) : Surroundings M where
  World := Unit
  word _ := M.ofInt 0
  real _ := M.ofDouble ⟨0⟩
  call _ w s := some (w, s)

/-- Functions that leave everything as it is are orderly. -/
theorem Surroundings.orderly_still (M : Machine) : (still M).Orderly where
  returns _ w s := ⟨w, s, rfl, rfl⟩
  prints _ _ _ _ _ _ _ h _ _ := by
    cases h
    rfl

/-- A stage on which no bytes are known, and functions without a result do nothing. -/
def stillStage (labels : String → BitVec 32) (T : TypeTable) (texts : NodeId → BitVec 32) :
    Stage (.standard labels) Unit where
  types := T
  config := .default
  fp := 0
  texts := texts
  own _ := false
  functions c _ := if c.result = .void then pure (.tuple []) else Course.lift none

/-- On this stage leaves are printed, and nothing else is done. -/
theorem printLeaves_still (labels : String → BitVec 32) (T : TypeTable) (texts : NodeId → BitVec 32)
    {ts : List Ty} (hts : ∀ t ∈ ts, t.IsPrinted) (vs : List (standard labels).Value)
    (σ : Unit × (standard labels).Memory) :
    (stillStage labels T texts).printLeaves ts vs σ = some ((), σ) := by
  induction ts generalizing vs with
  | nil => rfl
  | cons t ts ih =>
    rw [List.forall_mem_cons] at hts
    cases vs with
    | nil => rfl
    | cons v vs =>
      rw [Stage.printLeaves, hts.1.printer?_eq]
      exact ih hts.2 vs

/-- A scene for a function, with its frame from address 0 down and the stack below. -/
def stillScene (labels : String → BitVec 32) (T : TypeTable) (scope : View Symbol) (f : Function)
    (label : NodeId → String) : Machine.Scene (.standard labels) Unit where
  surroundings := .still _
  outside w := w
  stage := stillStage labels T fun id => labels (label id)
  room := f.room T scope
  low := -2 ^ 31
  high := 2 ^ 31 - 1
  top := f.argumentsStop T
  bottom := -2 ^ 31
  base := -(f.frame T).frameSize
  reserve := 0

theorem plays_still (labels : String → BitVec 32) {T : TypeTable}
    {scope : View Symbol} {f : Function} (label : NodeId → String)
    (hsize : (f.frame T).frameSize ≤ 2 ^ 31) (hstop : f.argumentsStop T < 2 ^ 31) :
    (stillScene labels T scope f label).Plays T .default scope f label where
  room := rfl
  types := rfl
  config := rfl
  texts := rfl
  top := rfl
  words w := BitVec.ofInt_toInt
  addresses := addresses_standard labels (Int.le_refl _) (Int.sub_lt_self _ Int.one_pos)
  frame := by
    change -2 ^ 31 ≤ (0 : Int) - (f.frame T).frameSize ∧ 0 + f.argumentsStop T ≤ 2 ^ 31 - 1
    omega
  base_le := by
    change -((f.frame T).frameSize : Int) ≤ 0 - (f.frame T).frameSize
    omega
  own_within _ h := by cases h
  own_apart _ h := by cases h

theorem honors_still (labels : String → BitVec 32) (T : TypeTable)
    (scope : View Symbol) (f : Function) (label : NodeId → String) :
    (stillScene labels T scope f label).Honors := by
  intro c vs σ σ' v hv w s hagrees _ _
  have hv : (if c.result = .void then pure (.tuple []) else Course.lift none : Course _ _ _) σ =
      some (v, σ') := hv
  split at hv
  · rename_i hvoid
    obtain ⟨-, rfl⟩ := Course.pure_eq_some.mp hv
    refine ⟨w, s, rfl, hagrees, rfl, ?_, .refl _ _⟩
    rw [Callee.Returned, hvoid]
    trivial
  · cases (Course.lift_eq_some.mp hv).1

end Machine

/-- A statement that is the whole body of a function is a piece of it. -/
theorem Outline.All.body {Q : Piece → Outline → Prop} {st : Stmt}
    (h : (f.outline T config scope n).All Q) (hds : f.body.declarations = [])
    (hbody : f.body.body = [st]) : ∃ inner before behind, Q (.statement st) inner ∧
      (f.outline T config scope n).code = before ++ inner.code ++ behind := by
  obtain ⟨inner, hinner⟩ : ∃ inner,
    st.outline (f.context T config) (f.entry T scope n) = .piece (.statement st) inner := by
    unfold Stmt.outline
    exact ⟨_, rfl⟩
  have hblock : f.body.stmt.outline (f.context T config) (f.entry T scope n) =
      .piece (.statement f.body.stmt) (.done ++ (.piece (.statement st) inner ++ .done)) := by
    rw [Block.stmt, hds, hbody, Stmt.outline, ← hinner]
    rfl
  rw [Function.outline, hblock] at h ⊢
  simp only [all_piece, all_append] at h
  exact ⟨inner, f.head T config scope, (f.tail T).code, h.2.1.2.2.2.1.1, by simp⟩

/-! ### Units -/

/-- **Every function of an accepted unit prints the leaves of what it writes**, if the types that
are written are proper. -/
theorem leaves_printed {nodes : Array Node} {root : NodeId} {t : SyntaxTree}
    (h : SyntaxTree.ofNodes nodes root = .ok t)
    (ht : ∀ d ∈ t.declarations, ∀ u ∈ d.writtenTypes, u.Proper) {σ : SymbolTable}
    (hcheck : Typing.checkTree t = .ok (T, σ)) (config : Config) {before after : List Decl}
    (hf : t.declarations = before ++ .define f :: after) :
    ∃ (c : Compilation) (front back : List Instr), compile t config = .ok c ∧
      c.code = front ++ (f.outline T config σ.scope (Decl.labelCountOfAll before)).code ++ back ∧
      (Decl.Unreserved config t.declarations →
        Makes c.code 0 (Decl.labelCountOfAll t.declarations)) ∧
      f.PrintsLeaves T config σ.scope (Decl.labelCountOfAll before) := by
  have hwritten : ∀ d ∈ t.declarations, ∀ u ∈ d.writtenTypes, Typing.Written Ty.Sound u :=
    fun d hd u hu hauto => ⟨hauto, ht d hd u hu⟩
  have haccepted := (Typing.checkTree_outcome Ty.stable_sound h hwritten).1 T σ hcheck
  obtain ⟨hΓ, ⟨R, hR⟩, hw, c, front, back, hc, hcode⟩ :=
    exists_function_code Ty.stable_sound h hwritten hcheck config hf
  have hmem : Decl.define f ∈ t.declarations := by simp [hf]
  have hids : f.ids.Nodup := SyntaxTree.nodup_ids_of_mem h hmem
  exact ⟨c, front, back, hc, hcode, fun hnames =>
    makes_compile Ty.stable_sound h hwritten hcheck hnames hc,
    f.printsLeaves hΓ hR hw hids (fun name s hs => haccepted.global name s hs) config _⟩

theorem leaves_printed_sample :
    ∃ t T σ f a b c, SyntaxTree.ofNodes writingNodes (.ofIndex 7) = .ok t ∧
    Typing.checkTree t = .ok (T, σ) ∧ t.declarations = [.define f] ∧ f.writesPair? = some (a, b) ∧
    compile t .default = .ok c ∧ ∃ cx pt p q,
      (∀ M fp s, ∃ vs cs s',
        (Machine.Surroundings.still M).Writes fp c.code (Expr.printParts cx pt [a, b]) true vs
        (p, (), s) cs (q, (), s')) ∧
      ∀ labels memory, ∃ x y z cs s',
      (Machine.Surroundings.still (.standard labels)).Writes 0 c.code
        (Expr.printParts cx pt [a, b]) true [.word x, .tuple [.real y, .word z]]
        (p, (), ⟨-(f.frame T).frameSize, memory⟩) cs (q, (), s') := by
  obtain ⟨t, T, σ, f, a, b, ht, hcheck, hf, hpair, hproper, hnames, hsize, hstop⟩ :=
    exists_writing_sample
  have hf' : t.declarations = [] ++ .define f :: [] := hf
  obtain ⟨c, front, back, hc, hcode, hmakes, label, hall⟩ :=
    leaves_printed ht hproper hcheck .default hf'
  obtain ⟨hds, ⟨site, hbody⟩, s, k, s', i, d, j, x, rfl, rfl⟩ := Function.writesPair?_eq_some hpair
  obtain ⟨inner, before, behind, ⟨-, hwrites⟩, hbefore⟩ := hall.body hds hbody
  obtain ⟨cx, pt, -, -, -, hprinted, hany, hvalues⟩ := hwrites _ _ _ rfl
  have hholds : Holds c.code (front ++ before).length inner.code := by
    rw [hcode, hbefore, Holds]
    simp
  have hsteady : ∀ e ∈ [Expr.integer s k, .tuple s' [.double i d, .string j x]], e.IsSteady := by
    have hleaf : ∀ e : Expr, e.operands = [] → (∀ site n, e ≠ .stackAlloc site n) →
        e.IsSteady := fun e he h =>
      Expr.isSteady_of_operands h (by simp [he])
    have htuple : (Expr.tuple s' [.double i d, .string j x]).IsSteady := by
      refine Expr.isSteady_of_operands (by simp) ?_
      simpa [Expr.operands] using ⟨hleaf (.double i d) rfl (by simp),
        hleaf (.string j x) rfl (by simp)⟩
    simpa using ⟨hleaf (.integer s k) rfl (by simp), htuple⟩
  refine ⟨t, T, σ, f, _, _, c, ht, hcheck, hf, hpair, hc, cx, pt, (front ++ before).length,
    (front ++ before).length + inner.code.length, fun M fp s => ?_, fun labels memory => ?_⟩
  · obtain ⟨vs, cs, w', s', hrun⟩ :=
      hany hsteady M (.still M) fp c.code _ _ _ () s (Machine.Surroundings.orderly_still M)
      (hmakes hnames) hholds
    exact ⟨vs, cs, s', hrun⟩
  · have hwritten : Expr.write (Machine.stillScene labels T σ.scope f label).stage pt.scope
        [.integer s k, .tuple s' [.double i d, .string j x]] true ((), memory) =
          some ([.word (BitVec.ofInt 32 k.toInt), .tuple [.real d, .word (labels (label j.id))]],
            (), memory) := by
      rw [Expr.write, Expr.print, Expr.print, Expr.print]
      simp only [Expr.value, Expr.fromLast, pure_bind, bind_assoc]
      have hfirst := Machine.printLeaves_still labels T (fun id => labels (label id))
        (hprinted _ List.mem_cons_self)
      have hsecond := Machine.printLeaves_still labels T (fun id => labels (label id))
        (hprinted _ (.tail _ List.mem_cons_self))
      refine Machine.Course.bind_eq_some.mpr ⟨(), _, hfirst _ _, ?_⟩
      exact Machine.Course.bind_eq_some.mpr ⟨(), _, hsecond _ _, rfl⟩
    have hroom : (-2 ^ 31 : Int) +
        Expr.needOfAll T [.integer s k, .tuple s' [.double i d, .string j x]] + (0 : Nat) ≤
        -(f.frame T).frameSize := by omega
    obtain ⟨cs, w', s', hrun, -⟩ :=
      hvalues (.standard labels) Unit (Machine.stillScene labels T σ.scope f label) c.code
      (front ++ before).length 0 _ () ⟨-(f.frame T).frameSize, memory⟩ ((), memory) _ _
      (Machine.plays_still labels label (by omega) hstop)
        (Machine.honors_still labels T σ.scope f label) (hmakes hnames)
      hholds (Int.le_refl _) hroom ⟨rfl, fun _ h => by cases h⟩ hwritten
    exact ⟨_, _, _, cs, s', hrun⟩

end PostfixCompiler
