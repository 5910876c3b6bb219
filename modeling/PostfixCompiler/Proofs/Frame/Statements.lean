import PostfixCompiler.Proofs.Frame.Source

/-!
# Where the statements of a function sit

A statement in the body of a function may be deep inside of blocks, branches and loops. Wherever it
is, it sits in the room of the function, and the stretch of code that is marked as its own was
written where it sits. So what is known of the code of a statement that sits in a room is known of
every statement of a typed function.

All pieces that are no statements are beside the point. Those are all that there is in the outline
of anything but a statement.

## Main definitions

* `PostfixCompiler.Piece.Settles`: a piece that is a statement sits where its code was written.

## Main statements

* `PostfixCompiler.Stmt.all_settle`: the statements inside a statement sit where their code was
  written.
* `PostfixCompiler.Function.all_settle`: so do all statements of a function.
-/

namespace PostfixCompiler

open Emission

/-! ### Pieces that are no statements -/

section Parts

variable {Q : Piece → Outline → Prop} {cx : Context}
  (hQ : ∀ p inner, (∀ st, p ≠ .statement st) → Q p inner)

include hQ

theorem Expr.all_of_parts (e : Expr) (scope : View Symbol) (mode : Mode) (n : Nat) :
    (e.outline cx scope mode n).All Q :=
  all_parts (fun _ _ _ => hQ _ _ (by simp)) n fun _ _ _ _ _ _ => hQ _ _ (by simp)

theorem VarDecl.all_of_parts (pt : Point) (d : VarDecl) : (d.outline cx pt).All Q := by
  unfold outline
  split
  · trivial
  · exact .piece (hQ _ _ (by simp)) ((Expr.all_of_parts hQ _ _ _ _).append (.ofCode _))

theorem VarDecl.all_of_parts_all (pt : Point) (ds : List VarDecl) :
    (outlineAll cx pt ds).All Q := by
  induction ds generalizing pt with
  | nil => trivial
  | cons d ds ih => exact (d.all_of_parts hQ pt).append (ih _)

theorem Expr.all_of_parts_effect (pt : Point) (e : Expr) : (e.effectOutline cx pt).All Q :=
  .piece (hQ _ _ (by simp)) ((e.all_of_parts hQ _ _ _).append (.ofCode _))

theorem Expr.all_of_parts_effects (pt : Point) (es : List Expr) :
    (effectOutlineOfAll cx pt es).All Q := by
  induction es generalizing pt with
  | nil => trivial
  | cons e es ih => exact (e.all_of_parts_effect hQ pt).append (ih _)

theorem Expr.all_of_parts_print (pt : Point) (es : List Expr) : (printOutline cx pt es).All Q := by
  induction es generalizing pt with
  | nil => trivial
  | cons e es ih =>
    exact (Outline.All.piece (hQ _ _ (by simp))
      ((e.all_of_parts hQ _ _ _).append (.ofCode _))).append (ih _)

theorem Expr.all_of_parts_test (pt : Point) (keep : List Instr) (otherwise : String) (c : Expr) :
    (c.testOutline cx pt keep otherwise).All Q :=
  (Outline.All.piece (hQ _ _ (by simp)) ((c.all_of_parts hQ _ _ _).append (.ofCode _))).append
    (.piece (hQ _ _ (by simp)) (.ofCode _))

theorem LoopInit.all_of_parts (pt : Point) (is : List LoopInit) : (outlineAll cx pt is).All Q := by
  induction is generalizing pt with
  | nil => trivial
  | cons i is ih =>
    refine Outline.All.append ?_ (ih _)
    cases i with
    | declare d => exact d.all_of_parts hQ pt
    | evaluate e => exact e.all_of_parts_effect hQ pt

theorem Outline.all_of_parts_leave {id : NodeId} {value : Outline} (h : value.All Q) :
    (leaveOutline id value).All Q :=
  .piece (hQ _ _ (by simp)) (h.append (.ofCode _))

theorem Expr.all_of_parts_return (pt : Point) (v : Expr) : (returnOutline cx pt v).All Q := by
  have hv : (v.outline cx pt.scope .value pt.labels).All Q :=
    v.all_of_parts hQ pt.scope .value pt.labels
  unfold returnOutline
  split
  · exact ((Outline.All.ofCode _).append hv).append (.ofCode _)
  · exact hv.append (.ofCode _)
  · exact hv.append (.ofCode _)

end Parts

/-! ### Statements -/

/-- **A piece that is a statement sits where its code was written.** Nothing is said of other
pieces. -/
def Piece.Settles (P : Ty → Prop) (r : Room) (config : Config) (p : Piece)
    (inner : Outline) : Prop :=
  ∀ st, p = .statement st →
    ∃ cx pt inLoop, r.Suits P cx ∧ cx.config = config ∧ st.Sits P r cx pt inLoop ∧
    st.outline cx pt = .piece p inner

section Statements

variable {P : Ty → Prop} {r : Room} {config : Config}

/-- Of a piece that is no statement nothing is said. -/
theorem Piece.settles_of_ne (p : Piece) (inner : Outline) (h : ∀ st, p ≠ .statement st) :
    p.Settles P r config inner :=
  fun st hst => absurd hst (h st)

namespace Stmt

/-- The code of a statement was written where the statement sits. -/
theorem Sits.settles {st : Stmt} {cx : Context} {pt : Point} {inLoop : Bool}
    (h : st.Sits P r cx pt inLoop) (hcx : r.Suits P cx) (hconfig : cx.config = config)
    {inner : Outline} (heq : st.outline cx pt = .piece (.statement st) inner)
    (hinner : inner.All (Piece.Settles P r config)) :
    (st.outline cx pt).All (Piece.Settles P r config) := by
  have hpiece : Piece.Settles P r config (.statement st) inner := by
    rintro _ ⟨⟩
    exact ⟨cx, pt, inLoop, hcx, hconfig, h, heq⟩
  rw [heq]
  exact .piece hpiece hinner

mutual

/-- **The statements inside a statement sit where their code was written**, and the statement
does. -/
theorem all_settle (hP : Ty.Stable P) :
    ∀ {st : Stmt} {cx : Context} {pt : Point} {inLoop : Bool}, r.Suits P cx →
    cx.config = config → st.Sits P r cx pt inLoop →
    (st.outline cx pt).All (Piece.Settles P r config)
  | .block _ ds body, cx, pt, inLoop, hcx, hconfig, h => by
    refine h.settles hcx hconfig (by rw [outline])
      ((VarDecl.all_of_parts_all Piece.settles_of_ne pt ds).append ?_)
    exact all_settle_outlineAll hP hcx hconfig (h.block hP hcx).2
  | .evaluation _ e, cx, pt, inLoop, hcx, hconfig, h =>
    h.settles hcx hconfig (by rw [outline]) (e.all_of_parts_effect Piece.settles_of_ne pt)
  | .write _ args newline, cx, pt, inLoop, hcx, hconfig, h => by
    refine h.settles hcx hconfig (by rw [outline])
      ((Expr.all_of_parts_print Piece.settles_of_ne pt args).append ?_)
    cases newline with
    | true => exact .piece (Piece.settles_of_ne _ _ (by simp)) (.ofCode _)
    | false => trivial
  | .ifThen _ c t, cx, pt, inLoop, hcx, hconfig, h => by
    obtain ⟨-, ht⟩ := h.ifThen hcx
    exact h.settles hcx hconfig (by rw [outline])
      (((c.all_of_parts_test Piece.settles_of_ne _ _ _).append
      (all_settle hP hcx hconfig ht)).append (.ofCode _))
  | .ifElse _ c t e, cx, pt, inLoop, hcx, hconfig, h => by
    obtain ⟨-, ht, he⟩ := h.ifElse hcx
    exact h.settles hcx hconfig (by rw [outline])
      (((((c.all_of_parts_test Piece.settles_of_ne _ _ _).append
      (all_settle hP hcx hconfig ht)).append (.ofCode _)).append (all_settle hP hcx hconfig
        he)).append (.ofCode _))
  | .forLoop site inits c incs body, cx, pt, inLoop, hcx, hconfig, h => by
    obtain ⟨-, -, -, hbody⟩ := h.forLoop hP hcx
    -- The labels of the loop are all that is different inside of it.
    have hall := all_settle hP (hcx.inLoop (LoopInit.afterAll cx.types pt inits)) hconfig hbody
    refine h.settles hcx hconfig (by rw [outline])
      ((((((LoopInit.all_of_parts Piece.settles_of_ne pt inits).append (.ofCode _)).append
        ?_).append hall).append
        (.ofCode _)).append (Expr.all_of_parts_effects Piece.settles_of_ne _ incs)
          |>.append (.ofCode _))
    cases c with
    | none => trivial
    | some c => exact c.all_of_parts_test Piece.settles_of_ne _ _ _
  | .break _, cx, pt, inLoop, hcx, hconfig, h | .continue _, cx, pt, inLoop, hcx, hconfig, h =>
    h.settles hcx hconfig (by rw [outline]) (.ofCode _)
  | .return _ none, cx, pt, inLoop, hcx, hconfig, h => by
    have hnothing : Outline.done.All (Piece.Settles P r config) := trivial
    exact h.settles hcx hconfig (by rw [outline])
      (Outline.all_of_parts_leave Piece.settles_of_ne hnothing)
  | .return _ (some v), cx, pt, inLoop, hcx, hconfig, h =>
    h.settles hcx hconfig (by rw [outline])
      (Outline.all_of_parts_leave Piece.settles_of_ne
        (v.all_of_parts_return Piece.settles_of_ne pt))

/-- As `all_settle`, for several statements. -/
theorem all_settle_outlineAll (hP : Ty.Stable P) :
    ∀ {ss : List Stmt} {cx : Context} {pt : Point} {inLoop : Bool},
    r.Suits P cx → cx.config = config → AllSit P r cx pt inLoop ss →
    (outlineAll cx pt ss).All (Piece.Settles P r config)
  | [], _, _, _, _, _, _ => by
    rw [outlineAll]
    trivial
  | st :: ss, cx, pt, inLoop, hcx, hconfig, h => by
    obtain ⟨hst, hss⟩ := h.cons hcx
    rw [outlineAll]
    exact (all_settle hP hcx hconfig hst).append (all_settle_outlineAll hP hcx hconfig hss)

end

end Stmt

/-- **All statements of a typed function sit where their code was written.** -/
theorem Function.all_settle {T : TypeTable} {scope : View Symbol} {f : Function} {R : Ty}
    (hP : Ty.Stable P) (config : Config) (n : Nat) (hΓ : View.Settled P scope.meanings)
    (h : f.Typed P T scope.meanings R) (hw : f.WellPlaced) (hf : f.ids.Nodup) :
    (f.outline T config scope n).All (Piece.Settles P (f.room T scope) config) := by
  have hbody : (f.body.stmt.outline (f.context T config) (f.entry T scope n)).All
      (Piece.Settles P (f.room T scope) config) :=
    Stmt.all_settle hP (suits config h hf) rfl (sits hP hΓ h hw hf)
  refine .piece (Piece.settles_of_ne _ _ (by simp))
    (((Outline.All.ofCode _).append hbody).append ?_)
  unfold tail
  split
  · exact Outline.all_of_parts_leave Piece.settles_of_ne trivial
  · trivial

end Statements

end PostfixCompiler
