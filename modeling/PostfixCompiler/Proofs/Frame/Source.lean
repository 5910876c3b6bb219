import PostfixCompiler.Proofs.Frame.Room
import PostfixCompiler.Proofs.Scope.Scene

/-!
# Where the pieces of a function come from

The outline of a function marks which stretches of its code stand for what. Seen from such a
stretch, the tree is far away: a piece knows its expression and what names stand for there, and not
in which phrase it is and which declarations are in scope. So each piece is followed back to the
phrase it **stems** from. A piece that is an expression is part of one of the expressions in the
body, and where that stands each name has the place that is reserved for the declaration it is bound
to. A piece that gives a variable its initial value, or hands over a result, is made of the code of
that value and of what is done with it.

## Main definitions

* `PostfixCompiler.Source`: what the code of a function is written from.
* `PostfixCompiler.Source.Places`: names have the places of their declarations.
* `PostfixCompiler.Piece.Stems`: a piece stems from the phrases of a function.

## Main statements

* `PostfixCompiler.Expr.all_parts`: the pieces of an expression are its parts.
* `PostfixCompiler.Function.all_stem`: all pieces of a function stem from its phrases.
-/

namespace PostfixCompiler

open Emission

/-! ### Pieces of expressions -/

namespace Expr

variable {cx : Context} {scope : View Symbol} {Q : Piece → Outline → Prop}

/-- Something is true of the pieces that are parts of an expression. -/
def PartsAre (cx : Context) (scope : View Symbol) (Q : Piece → Outline → Prop) (e : Expr) : Prop :=
  ∀ x mode n inner, x.Part e → x.outline cx scope mode n = .piece (.expression mode scope x) inner →
    Q (.expression mode scope x) inner

theorem PartsAre.operand {e a : Expr} (h : e.PartsAre cx scope Q) (ha : a ∈ e.operands) :
    a.PartsAre cx scope Q :=
  fun x mode n inner hx => h x mode n inner (.inside ha hx)

theorem PartsAre.all_piece {e : Expr} (h : e.PartsAre cx scope Q) {mode : Mode} {n : Nat}
    {inner : Outline} (heq : e.outline cx scope mode n = .piece (.expression mode scope e) inner)
    (hinner : inner.All Q) :
    (e.outline cx scope mode n).All Q := by
  have hpiece := h e mode n inner .self heq
  rw [heq]
  exact .piece hpiece hinner

mutual

/-- **The pieces of an expression are its parts**, and its texts. -/
theorem all_parts (htext : ∀ id label s, Q (.text id label) (.ofCode (textInstrs label s))) :
    ∀ {e : Expr} {mode : Mode} (n : Nat),
    e.PartsAre cx scope Q → (e.outline cx scope mode n).All Q
  | .integer .., mode, n, h | .double .., mode, n, h | .nullptr _, mode, n, h
  | .sizeof .., mode, n, h | .input _, mode, n, h
  | .variable .., mode, n, h => h.all_piece (by rw [outline]) (.ofCode _)
  | .string s x, mode, n, h => h.all_piece (by rw [outline]) (.piece (htext _ _ _) (.ofCode _))
  | .pointerIndex s b i, mode, n, h => by
    refine h.all_piece (by rw [outline]) (.append (.append ?_ ?_) (.ofCode _))
    · exact all_parts htext _ (h.operand (by simp [operands]))
    · exact all_parts htext _ (h.operand (by simp [operands]))
  | .tupleIndex s a _, mode, n, h | .rvalue s a, mode, n, h | .unary s _ a, mode, n, h
  | .stackAlloc s a, mode, n, h => by
    refine h.all_piece (by rw [outline]) (.append ?_ (.ofCode _))
    exact all_parts htext _ (h.operand (by simp [operands]))
  | .addressOf s p, mode, n, h => by
    refine h.all_piece (by rw [outline]) ?_
    exact all_parts htext _ (h.operand (by simp [operands]))
  | .assignment s p v, mode, n, h => by
    refine h.all_piece (by rw [outline])
      (.append (.append (.append (.append ?_ (.ofCode _)) (.ofCode _)) ?_) (.ofCode _))
    · exact all_parts htext _ (h.operand (by simp [operands]))
    · exact all_parts htext _ (h.operand (by simp [operands]))
  | .binary s op l r, mode, n, h => by
    refine h.all_piece (by rw [outline]) ?_
    dsimp only
    have hl : ∀ k, (l.outline cx scope .value k).All Q :=
      fun k => all_parts htext k (h.operand (by simp [operands]))
    have hr : ∀ k, (r.outline cx scope .value k).All Q :=
      fun k => all_parts htext k (h.operand (by simp [operands]))
    split
    · exact (((hl _).append (.ofCode _)).append (hr _)).append (.ofCode _)
    · exact ((hl _).append (hr _)).append (.ofCode _)
    · exact ((((hl _).append (.ofCode _)).append (hr _)).append (.ofCode _)).append (.ofCode _)
    · exact ((((hl _).append (.ofCode _)).append (hr _)).append (.ofCode _)).append (.ofCode _)
  | .tuple s [e], mode, n, h => by
    refine h.all_piece (by rw [outline]) ?_
    exact all_parts htext _ (h.operand (by simp [operands]))
  | .tuple s [], .value, n, h =>
      h.all_piece (by rw [outline]; simp) (all_parts_reverse htext [] _ (by simp))
  | .tuple s (a :: b :: es), .value, n, h => by
    refine h.all_piece (by rw [outline]; simp)
      (all_parts_reverse htext (a :: b :: es) _ fun e he => ?_)
    exact h.operand he
  | .tuple s [], .address, n, h => by
    exact h.all_piece (by rw [outline]; simp)
      (.append (all_parts_slot htext [] _ _ _ _ (by simp)) (.ofCode _))
  | .tuple s (a :: b :: es), .address, n, h => by
    refine h.all_piece (by rw [outline]; simp)
      (.append (all_parts_slot htext (a :: b :: es) _ _ _ _ fun e he => ?_) (.ofCode _))
    exact h.operand he
  | .call s name args, mode, n, h => by
    refine h.all_piece (by rw [outline])
      (.append (all_parts_arguments htext args _ _ fun e he => ?_) (.ofCode _))
    exact h.operand he

theorem all_parts_slot (htext : ∀ id label s, Q (.text id label) (.ofCode (textInstrs label s))) :
    ∀ (es : List Expr) (slot : Int) (n : Nat)
    (targets : List Ty) (byte : Nat), (∀ e ∈ es, e.PartsAre cx scope Q) →
    (slotOutline cx scope slot n es targets byte).All Q
  | [], _, _, _, _, _ | _ :: _, _, _, [], _, _ => by
    rw [slotOutline] <;> simp [Outline.All]
  | e :: es, slot, n, _ :: ts, byte, h => by
    rw [List.forall_mem_cons] at h
    rw [slotOutline]
    exact ((all_parts htext _ h.1).append (.ofCode _)).append
      (all_parts_slot htext es slot _ ts _ h.2)

theorem all_parts_reverse
    (htext : ∀ id label s, Q (.text id label) (.ofCode (textInstrs label s))) :
    ∀ (es : List Expr) (n : Nat),
    (∀ e ∈ es, e.PartsAre cx scope Q) → (reverseOutline cx scope n es).All Q
  | [], _, _ => by
    rw [reverseOutline]
    trivial
  | e :: es, n, h => by
    rw [List.forall_mem_cons] at h
    rw [reverseOutline]
    exact (all_parts_reverse htext es n h.2).append (all_parts htext _ h.1)

theorem all_parts_arguments
    (htext : ∀ id label s, Q (.text id label) (.ofCode (textInstrs label s))) :
    ∀ (es : List Expr) (n : Nat)
    (ps : List Ty), (∀ e ∈ es, e.PartsAre cx scope Q) → (argumentsOutline cx scope n es ps).All Q
  | [], _, _, _ | _ :: _, _, [], _ => by
    rw [argumentsOutline] <;> simp [Outline.All]
  | e :: es, n, _ :: ps, h => by
    rw [List.forall_mem_cons] at h
    rw [argumentsOutline]
    exact ((all_parts_arguments htext es n ps h.2).append (all_parts htext _ h.1)).append
      (.ofCode _)

end

end Expr

/-! ### Sources -/

/-- What is fixed in the code of a function, whatever loop is around it. -/
def Emission.Context.outside (cx : Context) : Context := { cx with loop := none }

/-- **What the code of a function is written from.** -/
structure Source where
  /-- What is fixed. -/
  context : Context
  /-- What names stand for outside of the function. -/
  unit : View Symbol
  /-- What names are bound to outside of the function. -/
  scene : Scene
  /-- The arguments and the local variables, with their offsets. -/
  declared : List (VarDecl × Int)
  /-- The expressions in the body, each in its scene. -/
  occurrences : List Occurrence

namespace Source

variable {S : Source}

/-- A name is bound to a declaration of the function, and stands for the place that is reserved for
it. -/
def Reserves (S : Source) (name : String) (b : Bound) (s : Symbol) : Prop :=
  ∃ q ∈ S.declared, q.1.id = b.node ∧ ∃ v ∈ q.1.places (S.context.types.typeOf q.1.id) q.2,
    v.1 = name ∧ b.meaning = .variable v.2.1 ∧ s = Symbol.placed q.1.line v

/-- **Names have the places of their declarations**: a name is bound to what it is bound to outside
of the function and stands for the same thing, or it stands for the place that is reserved for its
declaration. -/
def Places (S : Source) (Γ : Scene) (view : View Symbol) : Prop :=
  ∀ name b, Γ name = some b → (S.scene name = some b ∧ view name = S.unit name) ∨
    ∃ s, view name = some s ∧ S.Reserves name b s

/-- Outside of the function names have no places in it. -/
theorem places_unit (S : Source) : S.Places S.scene S.unit := fun _ _ hb => .inl ⟨hb, rfl⟩

/-- Variables of a declaration get the places that are reserved for it. -/
theorem Places.place {Γ : Scene} {view : View Symbol} (h : S.Places Γ view)
    {d : VarDecl} {offset : Int} (hd : (d, offset) ∈ S.declared) :
    ∀ {ps : List (String × Ty × Int)},
    (∀ p ∈ ps, p ∈ d.places (S.context.types.typeOf d.id) offset) →
    S.Places (Γ.declare d.id (ps.map fun p => (p.1, p.2.1))) (view.place d.line ps) := by
  intro ps
  induction ps generalizing Γ view with
  | nil => exact fun _ => h
  | cons p ps ih =>
    intro hps
    rw [List.forall_mem_cons] at hps
    refine ih (fun name b hb => ?_) hps.2
    by_cases hname : name = p.1
    · rw [View.bind, if_pos hname] at hb
      cases hb
      rw [View.bind, if_pos hname]
      exact .inr ⟨_, rfl, (d, offset), hd, rfl, p, hps.1, hname.symm, rfl, rfl⟩
    · rw [View.bind_ne _ _ hname] at hb ⊢
      exact h name b hb

end Source

/-- **A piece of the code of a function stems from its phrases.** An expression is part of one of
those in the body; an initial value, and a statement that returns a value, are made of the code of
the value and of what is done with it. -/
def Piece.Stems (P : Ty → Prop) (S : Source) (p : Piece) (inner : Outline) : Prop :=
  match p with
  | .expression mode view x => ∃ o ∈ S.occurrences, x.Part o.expr ∧ S.Places o.scene view ∧
      ∃ cx n, cx.outside = S.context ∧ x.outline cx view mode n = .piece p inner
  | .action (.initial id) => ∃ q ∈ S.declared, q.1.id = id ∧ ∃ o ∈ S.occurrences,
      q.1.initializer = some o.expr ∧
      q.1.Typed P S.context.types o.scene.names ∧ ∃ cx view n, cx.outside = S.context ∧
        inner = o.expr.outline cx view .value n ++ .ofCode
          (storeInstrs (Base.frame q.2).instrs (S.context.types.typeOf id)
            (o.expr.type S.context.types) 0)
  | .statement (.return site (some e)) => ∃ o ∈ S.occurrences, o.expr = e ∧
      (∃ u, S.context.types.get? e.id = some u ∧ S.context.returnType.Fits u) ∧
      ∃ cx pt, cx.outside = S.context ∧ inner = leaveOutline site.id (returnOutline cx pt e)
  | .action (.evaluate _) | .action (.print _) | .action (.endLine _) | .action (.test _)
  | .action (.return _) | .statement _ | .function _ | .branch | .text .. => True

/-! ### Statements -/

section Statements

variable {P : Ty → Prop} {S : Source} {cx : Context} {pt : Point} {Γ : Scene} {inLoop : Bool}

theorem Source.types_eq (hcx : cx.outside = S.context) : cx.types = S.context.types := by
  rw [← hcx, Context.outside]

theorem Source.config_eq (hcx : cx.outside = S.context) : cx.config = S.context.config := by
  rw [← hcx, Context.outside]

theorem Source.returnType_eq (hcx : cx.outside = S.context) :
    cx.returnType = S.context.returnType := by
  rw [← hcx, Context.outside]

/-- The pieces of an expression in the body stem from it. -/
theorem Expr.all_stem (hcx : cx.outside = S.context) {view : View Symbol}
    (hplaces : S.Places Γ view) {e : Expr} (he : ⟨e, Γ⟩ ∈ S.occurrences) (mode : Mode) (n : Nat) :
    (e.outline cx view mode n).All (Piece.Stems P S) :=
  all_parts (fun _ _ _ => trivial) n fun _ _ k _ hx heq =>
    ⟨⟨e, Γ⟩, he, hx, hplaces, cx, k, hcx, heq⟩

namespace VarDecl

/-- Behind a declaration its variables have the places that are reserved for it. -/
theorem places_after (hplaces : S.Places Γ pt.scope) {d : VarDecl} {names : Names}
    (h : d.Typed P S.context.types names)
    (hd : (d, pt.cursor - (S.context.types.typeOf d.id).size) ∈ S.declared) :
    S.Places (d.scene S.context.types Γ) (d.after S.context.types pt).scope := by
  have hplaced := hplaces.place hd fun _ hp => hp
  obtain ⟨t, ⟨ht, -⟩, -, hdivides, -⟩ := h
  rw [scene, binding_eq ht, ← map_places hdivides (pt.cursor - (S.context.types.typeOf d.id).size)]
  rw [TypeTable.typeOf_eq ht] at hplaced ⊢
  rw [after, TypeTable.typeOf_eq ht]
  exact hplaced

theorem all_stem (hcx : cx.outside = S.context) (hplaces : S.Places Γ pt.scope) {d : VarDecl}
    (h : d.Typed P S.context.types Γ.names)
    (hd : (d, pt.cursor - (S.context.types.typeOf d.id).size) ∈ S.declared)
    (ho : d.occurrences Γ ⊆ S.occurrences) : (d.outline cx pt).All (Piece.Stems P S) := by
  rw [outline, Source.types_eq hcx]
  rw [occurrences] at ho
  split
  · trivial
  · rename_i e he
    rw [he] at ho
    have hmem : ⟨e, Γ⟩ ∈ S.occurrences := ho List.mem_cons_self
    refine .piece ⟨_, hd, rfl, _, hmem, he, h, cx, pt.scope, pt.labels, hcx, rfl⟩
      (.append ?_ (.ofCode _))
    exact e.all_stem hcx hplaces hmem .value pt.labels

theorem all_stem_outlineAll (hcx : cx.outside = S.context) {ds : List VarDecl}
    (hplaces : S.Places Γ pt.scope) (h : AllTyped P S.context.types Γ.names ds)
    (hd : ∀ q ∈ declared S.context.types pt.cursor ds, q ∈ S.declared)
    (ho : occurrencesOfAll S.context.types Γ ds ⊆ S.occurrences) :
    (outlineAll cx pt ds).All (Piece.Stems P S) ∧
      S.Places (sceneOfAll S.context.types Γ ds) (afterAll S.context.types pt ds).scope := by
  induction ds generalizing pt Γ with
  | nil => exact ⟨trivial, hplaces⟩
  | cons d ds ih =>
    rw [declared, List.forall_mem_cons] at hd
    rw [occurrencesOfAll, List.append_subset] at ho
    obtain ⟨hrest, hafter⟩ := ih (places_after hplaces h.1 hd.1) (d.names_scene Γ ▸ h.2) hd.2 ho.2
    rw [outlineAll, Source.types_eq hcx]
    exact ⟨(all_stem hcx hplaces h.1 hd.1 ho.1).append hrest, hafter⟩

end VarDecl

namespace Expr

theorem all_stem_effects (hcx : cx.outside = S.context) (pt : Point) {es : List Expr}
    (hplaces : S.Places Γ pt.scope) (ho : occurrences Γ es ⊆ S.occurrences) :
    (effectOutlineOfAll cx pt es).All (Piece.Stems P S) := by
  induction es generalizing pt with
  | nil => trivial
  | cons e es ih =>
    rw [occurrences, List.map_cons, List.cons_subset] at ho
    refine .append (.piece trivial (.append ?_ (.ofCode _)))
      (ih (pt.move 0 e.labelCount) hplaces ho.2)
    exact e.all_stem hcx hplaces ho.1 .value pt.labels

theorem all_stem_print (hcx : cx.outside = S.context) (pt : Point) {es : List Expr}
    (hplaces : S.Places Γ pt.scope) (ho : occurrences Γ es ⊆ S.occurrences) :
    (printOutline cx pt es).All (Piece.Stems P S) := by
  induction es generalizing pt with
  | nil => trivial
  | cons e es ih =>
    rw [occurrences, List.map_cons, List.cons_subset] at ho
    refine .append (.piece trivial (.append ?_ (.ofCode _)))
      (ih (pt.move 0 e.labelCount) hplaces ho.2)
    exact e.all_stem hcx hplaces ho.1 .value pt.labels

theorem all_stem_test (hcx : cx.outside = S.context) (pt : Point) {c : Expr}
    (hplaces : S.Places Γ pt.scope) (ho : occurrences Γ [c] ⊆ S.occurrences) (keep : List Instr)
    (otherwise : String) :
    (c.testOutline cx pt keep otherwise).All (Piece.Stems P S) :=
  .append (.piece trivial
    (.append (c.all_stem hcx hplaces (ho List.mem_cons_self) .value pt.labels) (.ofCode _)))
    (.piece trivial (.ofCode _))

end Expr

namespace LoopInit

theorem all_stem_outlineAll (hcx : cx.outside = S.context) {is : List LoopInit}
    (hplaces : S.Places Γ pt.scope) (h : AllTyped P S.context.types Γ.names is)
    (hd : ∀ q ∈ declared S.context.types pt.cursor is, q ∈ S.declared)
    (ho : occurrencesOfAll S.context.types Γ is ⊆ S.occurrences) :
    (outlineAll cx pt is).All (Piece.Stems P S) ∧
      S.Places (sceneOfAll S.context.types Γ is) (afterAll S.context.types pt is).scope := by
  induction is generalizing pt Γ with
  | nil => exact ⟨trivial, hplaces⟩
  | cons i is ih =>
    have hnames := i.names_scene (T := S.context.types) Γ
    rw [occurrencesOfAll, List.append_subset] at ho
    rw [outlineAll, Source.types_eq hcx]
    cases i with
    | declare d =>
      rw [declared, List.forall_mem_cons] at hd
      obtain ⟨hrest, hafter⟩ := ih (VarDecl.places_after hplaces h.1 hd.1) (hnames ▸ h.2) hd.2 ho.2
      exact ⟨(VarDecl.all_stem hcx hplaces h.1 hd.1 ho.1).append hrest, hafter⟩
    | evaluate e =>
      have hcursor : pt.cursor - (0 : Nat) = pt.cursor := Int.sub_zero _
      have hmove : S.Places Γ (pt.move 0 e.labelCount).scope := hplaces
      obtain ⟨hrest, hafter⟩ := ih hmove h.2 (by rw [Point.move, hcursor]; exact hd) ho.2
      have hfirst : (e.effectOutline cx pt).All (Piece.Stems P S) :=
        .piece trivial
          (.append (e.all_stem hcx hplaces (ho.1 List.mem_cons_self) .value pt.labels) (.ofCode _))
      exact ⟨hfirst.append hrest, hafter⟩

end LoopInit

namespace Stmt

/-- **A statement is one of those of a function**: it stands at a place where names have the places
of their declarations, and what it declares and evaluates is known. -/
structure Belongs (P : Ty → Prop) (S : Source) (cx : Context) (pt : Point) (Γ : Scene)
    (inLoop : Bool) (st : Stmt) : Prop where
  /-- The statement stands at the place. -/
  stands : st.Stands P cx pt inLoop
  /-- The names mean what they mean in the scene. -/
  names : Γ.names = pt.scope.meanings
  /-- Names have the places of their declarations. -/
  places : S.Places Γ pt.scope
  /-- What the statement declares is known. -/
  declared : ∀ q ∈ st.declared S.context.types pt.cursor, q ∈ S.declared
  /-- What the statement evaluates is known. -/
  occurrences : st.occurrences S.context.types Γ ⊆ S.occurrences

/-- Statements are those of a function, one after the other. -/
structure AllBelong (P : Ty → Prop) (S : Source) (cx : Context) (pt : Point) (Γ : Scene)
    (inLoop : Bool) (ss : List Stmt) : Prop where
  /-- The statements stand at the place. -/
  stand : AllStand P cx pt inLoop ss
  /-- The names mean what they mean in the scene. -/
  names : Γ.names = pt.scope.meanings
  /-- Names have the places of their declarations. -/
  places : S.Places Γ pt.scope
  /-- What the statements declare is known. -/
  declared : ∀ q ∈ declaredInAll S.context.types pt.cursor ss, q ∈ S.declared
  /-- What the statements evaluate is known. -/
  occurrences : occurrencesOfAll S.context.types Γ ss ⊆ S.occurrences

mutual

/-- **All pieces of a statement stem from the phrases of its function.** -/
theorem all_stem (hP : Ty.Stable P) :
    ∀ {st : Stmt} {cx : Context} {pt : Point} {Γ : Scene} {inLoop : Bool},
    cx.outside = S.context → st.Belongs P S cx pt Γ inLoop →
    (st.outline cx pt).All (Piece.Stems P S)
  | .block _ ds body, cx, pt, Γ, inLoop, hcx, h => by
    obtain ⟨hds, -, hbody⟩ := h.stands.block hP
    obtain ⟨-, hnames, hplaces, hd, ho⟩ := h
    rw [declared, List.forall_mem_append] at hd
    rw [occurrences, List.append_subset] at ho
    have hmeanings := VarDecl.meanings_afterAll hds
    rw [Source.types_eq hcx] at hds hbody hmeanings
    rw [← hnames] at hds
    -- The body stands behind the declarations, where their names have places.
    obtain ⟨hall, hafter⟩ := VarDecl.all_stem_outlineAll hcx hplaces hds hd.1 ho.1
    rw [outline, Source.types_eq hcx]
    refine .piece trivial (hall.append (all_stem_outlineAll hP hcx ⟨hbody, ?_, hafter, ?_, ho.2⟩))
    · rw [VarDecl.names_sceneOfAll, hmeanings, hnames]
    · rw [VarDecl.afterAll_eq]
      exact hd.2
  | .evaluation _ e, cx, pt, Γ, inLoop, hcx, h => by
    have he := e.all_stem (P := P) hcx h.places (h.occurrences List.mem_cons_self) .value pt.labels
    rw [outline]
    exact .piece trivial (.piece trivial (.append he (.ofCode _)))
  | .write _ args newline, cx, pt, Γ, inLoop, hcx, h => by
    rw [outline]
    refine .piece trivial (.append (Expr.all_stem_print hcx pt h.places h.occurrences) ?_)
    split
    · exact .piece trivial (.ofCode _)
    · trivial
  | .ifThen _ c t, cx, pt, Γ, inLoop, hcx, h => by
    obtain ⟨-, -, ht⟩ := h.stands.ifThen
    obtain ⟨-, hnames, hplaces, hd, ho⟩ := h
    rw [occurrences, List.append_subset] at ho
    have hthen : t.Belongs P S cx (pt.move 0 (1 + c.labelCount)) Γ inLoop :=
      ⟨ht.move _ _, hnames, hplaces,
        by rw [Point.move, Int.natCast_zero, Int.sub_zero]; exact hd, ho.2⟩
    rw [outline]
    exact .piece trivial (((c.all_stem_test hcx (pt.move 0 1) hplaces ho.1 _ _).append
      (all_stem hP hcx hthen)).append (.ofCode _))
  | .ifElse _ c t e, cx, pt, Γ, inLoop, hcx, h => by
    obtain ⟨-, -, ht, he⟩ := h.stands.ifElse
    obtain ⟨-, hnames, hplaces, hd, ho⟩ := h
    rw [declared, List.forall_mem_append] at hd
    rw [occurrences, List.append_subset, List.append_subset] at ho
    have hthen : t.Belongs P S cx (pt.move 0 (2 + c.labelCount)) Γ inLoop :=
      ⟨ht.move _ _, hnames, hplaces,
        by rw [Point.move, Int.natCast_zero, Int.sub_zero]; exact hd.1, ho.2.1⟩
    have helse : e.Belongs P S cx
        (pt.move (t.usage cx.types).locals (2 + c.labelCount + t.labelCount)) Γ inLoop :=
      ⟨he.move _ _, hnames, hplaces, by rw [Source.types_eq hcx]; exact hd.2, ho.2.2⟩
    rw [outline]
    exact .piece trivial (((((c.all_stem_test hcx (pt.move 0 2) hplaces ho.1 _ _).append
      (all_stem hP hcx hthen)).append (.ofCode _)).append (all_stem hP hcx
        helse)).append (.ofCode _))
  | .forLoop site inits c incs body, cx, pt, Γ, inLoop, hcx, h => by
    obtain ⟨hinits, -, hround⟩ := h.stands.forLoop hP
    obtain ⟨-, hnames, hplaces, hd, ho⟩ := h
    rw [declared, List.forall_mem_append] at hd
    rw [occurrences, List.append_subset, List.append_subset, List.append_subset] at ho
    obtain ⟨hoinits, hoc, hoincs, hobody⟩ := ho
    have hmeanings := LoopInit.meanings_afterAll hinits
    rw [Source.types_eq hcx] at hinits hround hmeanings
    rw [← hnames] at hinits
    obtain ⟨hall, hafter⟩ := LoopInit.all_stem_outlineAll hcx hplaces hinits hd.1 hoinits
    have hbody : body.Belongs P S (cx.inLoop (LoopInit.afterAll S.context.types pt inits))
        ((LoopInit.afterAll S.context.types pt inits).move 0 (3 + Expr.labelCountOfOption c))
        (LoopInit.sceneOfAll S.context.types Γ inits) true := by
      refine ⟨hround.body.move _ _, ?_, hafter, ?_, hobody⟩
      · rw [LoopInit.names_sceneOfAll, Point.move, hmeanings, hnames]
      · rw [Point.move, Int.natCast_zero, Int.sub_zero, LoopInit.afterAll_eq]
        exact hd.2
    -- The labels of the loop are all that is different inside of it.
    have hloop : (cx.inLoop (LoopInit.afterAll S.context.types pt inits)).outside = S.context := hcx
    rw [outline, Source.types_eq hcx]
    refine .piece trivial ((((((hall.append (.ofCode _)).append ?_).append
      (all_stem hP hloop hbody)).append (.ofCode _)).append
      (Expr.all_stem_effects hcx ((Point.move _ _ _).move _ _) hafter hoincs)).append (.ofCode _))
    cases c with
    | none => trivial
    | some c => exact c.all_stem_test hcx (Point.move _ 0 3) hafter hoc _ _
  | .break _, cx, pt, Γ, inLoop, hcx, h | .continue _, cx, pt, Γ, inLoop, hcx, h => by
    rw [outline]
    exact .piece trivial (.ofCode _)
  | .return site none, cx, pt, Γ, inLoop, hcx, h => by
    rw [outline]
    exact .piece trivial (.piece trivial (.ofCode _))
  | .return site (some v), cx, pt, Γ, inLoop, hcx, h => by
    have hmem : ⟨v, Γ⟩ ∈ S.occurrences := h.occurrences List.mem_cons_self
    have hv := v.all_stem (P := P) hcx h.places hmem .value pt.labels
    obtain ⟨t, ⟨-, ht, -⟩, -, hfits⟩ := h.stands.typed v rfl
    rw [Source.types_eq hcx] at ht
    rw [Source.returnType_eq hcx] at hfits
    rw [outline]
    refine .piece ⟨⟨v, Γ⟩, hmem, rfl, ⟨t, ht, hfits⟩, cx, pt, hcx, rfl⟩
      (.piece trivial (.append ?_ (.ofCode _)))
    unfold returnOutline
    split
    · exact ((Outline.All.ofCode _).append hv).append (.ofCode _)
    · exact hv.append (.ofCode _)
    · exact hv.append (.ofCode _)

/-- As `all_stem`, for several statements. -/
theorem all_stem_outlineAll (hP : Ty.Stable P) :
    ∀ {ss : List Stmt} {cx : Context} {pt : Point} {Γ : Scene}
    {inLoop : Bool}, cx.outside = S.context → AllBelong P S cx pt Γ inLoop ss →
    (outlineAll cx pt ss).All (Piece.Stems P S)
  | [], _, _, _, _, _, _ => by
    rw [outlineAll]
    trivial
  | st :: ss, cx, pt, Γ, inLoop, hcx, h => by
    obtain ⟨hst, hss⟩ := h.stand.cons
    obtain ⟨-, hnames, hplaces, hd, ho⟩ := h
    rw [declaredInAll, List.forall_mem_append] at hd
    rw [occurrencesOfAll, List.append_subset] at ho
    rw [outlineAll, Source.types_eq hcx]
    exact (all_stem hP hcx ⟨hst, hnames, hplaces, hd.1, ho.1⟩).append
      (all_stem_outlineAll hP hcx ⟨hss _ _, hnames, hplaces, hd.2, ho.2⟩)

end

end Stmt

end Statements

/-! ### Functions -/

section Functions

variable {P : Ty → Prop} {T : TypeTable} {config : Config} {scope : View Symbol} {Γ : Scene}
  {f : Function} {R : Ty}

/-- Arguments have the places that are reserved for them. -/
theorem VarDecl.places_argumentScope {S : Source} {view : View Symbol}
    (hplaces : S.Places Γ view) {offset : Int} {ds : List VarDecl}
    (hds : ∀ d ∈ ds, d.TypedArgument P S.context.types)
    (hd : ∀ q ∈ arguments S.context.types offset ds, q ∈ S.declared) :
    S.Places (sceneOfAll S.context.types Γ ds) (argumentScope S.context.types view offset ds) := by
  induction ds generalizing view offset Γ with
  | nil => exact hplaces
  | cons d ds ih =>
    rw [arguments, List.forall_mem_cons] at hd
    rw [List.forall_mem_cons] at hds
    refine ih ?_ hds.2 hd.2
    obtain ⟨hlength, -, t, ht, -⟩ := hds.1
    obtain ⟨name, hname⟩ := List.length_eq_one_iff.mp hlength
    have hplaced := hplaces.place hd.1 fun _ hp => hp
    unfold places at hplaced
    rw [scene, binding_argument hlength ht]
    rw [TypeTable.typeOf_eq ht] at hplaced ⊢
    rw [hname] at hplaced ⊢
    exact hplaced

/-- **What the code of a function is written from**, with what names are outside of it. -/
def Function.source (T : TypeTable) (config : Config) (scope : View Symbol) (Γ : Scene)
    (f : Function) : Source :=
  ⟨f.context T config, scope, Γ, f.arguments T ++ f.locals T, f.occurrences T Γ⟩

/-- **All pieces of a typed function stem from its phrases.** -/
theorem Function.all_stem (hP : Ty.Stable P) (config : Config) (n : Nat)
    (hnames : Γ.names = scope.meanings) (hΓ : View.Settled P scope.meanings)
    (h : f.Typed P T scope.meanings R) (hw : f.WellPlaced) :
    (f.outline T config scope n).All (Piece.Stems P (f.source T config scope Γ)) := by
  have hplaces : (f.source T config scope Γ).Places (VarDecl.sceneOfAll T Γ f.signature.arguments)
      (f.entry T scope n).scope :=
    VarDecl.places_argumentScope (Source.places_unit _) h.arguments fun q hq =>
      List.mem_append_left _ hq
  have hbody :
      f.body.stmt.Belongs P (f.source T config scope Γ) (f.context T config) (f.entry T scope n)
      (VarDecl.sceneOfAll T Γ f.signature.arguments) false := by
    refine ⟨stands hP hΓ h hw, ?_, hplaces, fun q hq => List.mem_append_right _ hq, fun _ ho => ho⟩
    rw [VarDecl.names_sceneOfAll, hnames]
    exact (VarDecl.meanings_argumentScope h.arguments _ _).symm
  refine .piece trivial (.append (.append (.ofCode _) (Stmt.all_stem hP rfl hbody)) ?_)
  unfold tail
  split
  · exact .piece trivial (.ofCode _)
  · trivial

end Functions

end PostfixCompiler
