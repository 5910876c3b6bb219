import PostfixCompiler.Proofs.Emission.Standing
import PostfixCompiler.Proofs.Machine.ExprHeight

/-!
# The height of a statement

The code of a statement starts and ends at height 0, and so does everything that it is made of: an
initial value is pushed and stored, an effect is dropped, the leaves of a printed value are dropped
one by one, a condition is taken by its jump. A jump out of the statement goes to a label of the
loop around it, which stands at height 0 too.

## Main definitions

* `PostfixCompiler.Emission.LoopAtZero`: the labels of the loop around a statement stand at height
  0.
* `PostfixCompiler.Stmt.Level`: the code of a statement starts and ends at height 0.

## Main statements

* `PostfixCompiler.Stmt.level`: the height of a typed statement.
* `PostfixCompiler.Function.climbs`: the height of a typed function.
-/

namespace PostfixCompiler

open Emission

section Local

variable {cx : Context} {pt : Point} {out : String → Int → Prop}

/-- What is known of a value in the scope of a place decides the height of its code. -/
theorem Expr.IsValue.rises {e : Expr} {t : Ty} (hΓ : View.Settled Ty.Sound pt.scope.meanings)
    (h : e.TypedAs Ty.Sound cx.types pt.scope.meanings t) (he : e.IsValue) {n : Nat} :
    (e.outline cx pt.scope .value n).Climbs cx.types out 0 t.size := by
  have hc : (e.outline cx pt.scope .value n).Climbs cx.types out 0 (0 + t.size) :=
    (Expr.rises hΓ h.1 he.2 (Expr.leaves_value he)).value h.2.1 (Int.le_refl 0)
  rwa [Int.zero_add] at hc

/-! ### Local variables -/

/-- A declared variable takes its initial value from the stack. -/
theorem VarDecl.climbs (hΓ : View.Settled Ty.Sound pt.scope.meanings) {d : VarDecl}
    (h : d.Typed Ty.Sound cx.types pt.scope.meanings) (hw : d.WellPlaced) :
    (d.outline cx pt).Climbs cx.types out 0 0 := by
  obtain ⟨t, ⟨ht, hsound⟩, hv, -, hinit⟩ := h
  unfold outline
  cases hd : d.initializer with
  | none => exact .done (Int.le_refl 0)
  | some e =>
    obtain ⟨hte, u, hu, hfits⟩ := hinit e hd
    have he : e.IsValue := (Expr.isOptionalValue_iff _).mp hw.2 e hd
    dsimp only
    have hvalue : (e.outline cx pt.scope .value pt.labels).Climbs cx.types out 0 (0 + u.size) :=
      (Expr.rises hΓ hte he.2 (Expr.leaves_value he)).value hu (Int.le_refl 0)
    rw [TypeTable.typeOf_eq ht, Expr.type, TypeTable.typeOf_eq hu]
    refine (hvalue.append (Expr.climbs_ofCode ?_)).piece trivial
    exact leads_store (fun n h h0 => leads_base _ n h0) (hsound.solid hv) hfits (Int.le_refl 0)

theorem VarDecl.climbs_outlineAll {ds : List VarDecl} (hΓ : View.Settled Ty.Sound pt.scope.meanings)
    (h : AllTyped Ty.Sound cx.types pt.scope.meanings ds) (hw : ∀ d ∈ ds, d.WellPlaced) :
    (outlineAll cx pt ds).Climbs cx.types out 0 0 := by
  induction ds generalizing pt with
  | nil => exact .done (Int.le_refl 0)
  | cons d ds ih =>
    rw [List.forall_mem_cons] at hw
    have hmeanings := VarDecl.meanings_after h.1 pt
    refine (d.climbs hΓ h.1 hw.1).append (ih ?_ ?_ hw.2)
    · exact hmeanings ▸ VarDecl.Typed.settled Ty.stable_sound h.1 hΓ
    · exact hmeanings ▸ h.2

/-! ### Effects, printed values and conditions -/

/-- The value of an expression statement is dropped. -/
theorem Expr.climbs_effect (hΓ : View.Settled Ty.Sound pt.scope.meanings) {e : Expr} {t : Ty}
    (h : e.TypedAs Ty.Sound cx.types pt.scope.meanings t) (he : e.IsValue) :
    (e.effectOutline cx pt).Climbs cx.types out 0 0 := by
  unfold effectOutline
  rw [Expr.type, TypeTable.typeOf_eq h.2.1]
  refine ((he.rises hΓ h).append (Expr.climbs_ofCode ?_)).piece trivial
  have htrash : Leads out (0 + t.size) (trashInstrs t.size) 0 := leads_trash t.size (Int.le_refl 0)
  rwa [Int.zero_add] at htrash

theorem Expr.climbs_effects (hΓ : View.Settled Ty.Sound pt.scope.meanings) {es : List Expr}
    (h : ∀ e ∈ es, ∃ t, e.TypedAs Ty.Sound cx.types pt.scope.meanings t) (hes : AllValues es) :
    (effectOutlineOfAll cx pt es).Climbs cx.types out 0 0 := by
  induction es generalizing pt with
  | nil => exact .done (Int.le_refl 0)
  | cons e es ih =>
    rw [List.forall_mem_cons] at h
    obtain ⟨⟨t, ht⟩, h⟩ := h
    exact (Expr.climbs_effect hΓ ht hes.1).append (ih hΓ h hes.2)

/-- The leaves of a value are dropped one by one, each behind the call that prints it. -/
theorem Emission.leads_print (ts : List Ty) {h : Int} (h0 : 0 ≤ h) :
    Leads out (h + Ty.sizeOfAll ts) (Expr.printInstrs ts) h := by
  induction ts with
  | nil => simpa [Expr.printInstrs, Ty.sizeOfAll] using h0
  | cons t ts ih =>
    have hcall : Leads out (h + Ty.sizeOfAll ts + t.size) [.call (printHelper t)]
        (h + Ty.sizeOfAll ts + t.size) := by
      simp [InOrder, effect]
      omega
    have hdrop :
        Leads out (h + Ty.sizeOfAll ts + t.size) (trashInstrs t.size) (h + Ty.sizeOfAll ts) :=
      leads_trash t.size (by omega)
    have hsum : h + Ty.sizeOfAll (t :: ts) = h + Ty.sizeOfAll ts + t.size := by
      rw [Ty.sizeOfAll]
      omega
    rw [hsum]
    exact (hcall.append hdrop).append ih

theorem Expr.climbs_print (hΓ : View.Settled Ty.Sound pt.scope.meanings) {es : List Expr}
    (h : ∀ e ∈ es, ∃ t, e.TypedAs Ty.Sound cx.types pt.scope.meanings t ∧ t.isPrintable = true)
    (hes : AllValues es) : (printOutline cx pt es).Climbs cx.types out 0 0 := by
  induction es generalizing pt with
  | nil => exact .done (Int.le_refl 0)
  | cons e es ih =>
    rw [List.forall_mem_cons] at h
    obtain ⟨⟨t, ht, -⟩, h⟩ := h
    have hprint : Leads out (0 + Ty.sizeOfAll t.leaves) (Expr.printInstrs t.leaves) 0 :=
      leads_print t.leaves (Int.le_refl 0)
    rw [Ty.sizeOfAll_leaves, Int.zero_add] at hprint
    unfold printOutline
    rw [Expr.type, TypeTable.typeOf_eq ht.2.1]
    have he : e.IsValue := hes.1
    have hfirst : (Outline.piece (.action (.print e.id)) (e.outline cx pt.scope .value pt.labels ++
        .ofCode (printInstrs t.leaves))).Climbs cx.types out 0 0 :=
      ((he.rises hΓ ht).append (Expr.climbs_ofCode hprint)).piece trivial
    exact hfirst.append (ih hΓ h hes.2)

/-- What is left of a condition is taken by the jump that it decides. -/
theorem Expr.climbs_test (hΓ : View.Settled Ty.Sound pt.scope.meanings) {c : Expr} {t : Ty}
    (h : c.TypedAs Ty.Sound cx.types pt.scope.meanings t) (hc : c.IsValue) {keep : List Instr}
    (hkeep : Leads out t.size keep 4) {k : Nat} (hout : out (labelName k) 0) :
    (c.testOutline cx pt keep (labelName k)).Climbs cx.types out 0 0 := by
  unfold testOutline
  have hvalue : (Outline.piece (.action (.test c.id)) (c.outline cx pt.scope .value pt.labels ++
      .ofCode keep)).Climbs cx.types out 0 4 :=
    ((hc.rises hΓ h).append (Expr.climbs_ofCode hkeep)).piece trivial
  refine hvalue.append ((Expr.climbs_ofCode ?_).piece trivial)
  exact ⟨⟨by omega, ⟨⟨k, rfl⟩, hout⟩, by simp [effect, Emission.Balanced]⟩, by simp [rise, effect]⟩

/-- Of a condition the last component is left, whatever is in front of it. -/
theorem Emission.leads_keep {t : Ty} (ht : t.components.getLast? = some .int) (slot : Int) :
    Leads out t.size (keepInstrs slot t) 4 := by
  unfold keepInstrs
  split
  · simp [keepLast, InOrder, effect]
    omega
  · rename_i htuple
    have hint : t = .int := by
      cases t with
      | tuple => exact absurd rfl htuple
      | int => rfl
      | _ => cases ht
    subst hint
    exact Leads.nil (by simp [Ty.size, Ty.wordSize])

theorem Emission.climbs_loopTest (hΓ : View.Settled Ty.Sound pt.scope.meanings) {id : NodeId}
    {k : Nat} {c : Option Expr}
    (h : ∀ e ∈ c, ∃ t, e.TypedAs Ty.Sound cx.types pt.scope.meanings t ∧
      t.components.getLast? = some .int) (hc : Expr.IsOptionalValue c)
    (hout : out (labelName k) 0) :
    (loopTestOutline cx pt id (labelName k) c).Climbs cx.types out 0 0 := by
  cases c with
  | none => exact .done (Int.le_refl 0)
  | some c =>
    obtain ⟨t, ht, hlast⟩ := h c rfl
    unfold loopTestOutline
    dsimp only
    rw [Expr.type, TypeTable.typeOf_eq ht.2.1]
    exact Expr.climbs_test hΓ ht hc (leads_keep hlast _) hout

theorem LoopInit.climbs_outlineAll {is : List LoopInit}
    (hΓ : View.Settled Ty.Sound pt.scope.meanings)
    (h : AllTyped Ty.Sound cx.types pt.scope.meanings is) (hw : ∀ i ∈ is, i.WellPlaced) :
    (outlineAll cx pt is).Climbs cx.types out 0 0 := by
  induction is generalizing pt with
  | nil => exact .done (Int.le_refl 0)
  | cons i is ih =>
    rw [List.forall_mem_cons] at hw
    have hmeanings := LoopInit.meanings_after h.1 pt
    refine Outline.Climbs.append ?_ (ih ?_ ?_ hw.2)
    · cases i with
      | declare d => exact d.climbs hΓ h.1 hw.1
      | evaluate e =>
        obtain ⟨t, ht⟩ := h.1
        exact Expr.climbs_effect hΓ ht hw.1
    · exact hmeanings ▸ LoopInit.Typed.settled Ty.stable_sound h.1 hΓ
    · exact hmeanings ▸ h.2

/-! ### The way out -/

/-- The value that a function returns is stored where its type says. -/
theorem Emission.climbs_return (hΓ : View.Settled Ty.Sound pt.scope.meanings) {v : Expr} {t : Ty}
    (hreturn : cx.returnType.Sound) (h : v.TypedAs Ty.Sound cx.types pt.scope.meanings t)
    (hv : v.IsValue) (ht : t ≠ .void) (hfits : cx.returnType.Fits t) :
    (returnOutline cx pt v).Climbs cx.types out 0 0 := by
  have hvoid : cx.returnType ≠ .void := fun hR => by
    rw [hR, Ty.Fits, Ty.Proper.stripped_eq h.2.2.2] at hfits
    exact ht hfits
  have hsolid := hreturn.solid hvoid
  unfold returnOutline
  rw [Expr.type, TypeTable.typeOf_eq h.2.1]
  split
  · rename_i ts hR
    rw [hR] at hsolid hfits
    have hsave : Leads out 0
        [.frameAddress argumentsOffset, .loadInt, .frameAddress cx.frame.returnTempOffset,
          .storeInt] 0 := by
      simp [InOrder, effect]
    refine ((Expr.climbs_ofCode hsave).append (hv.rises hΓ h)).append (Expr.climbs_ofCode ?_)
    have hstore : Leads out (0 + t.size)
        (storeInstrs (Base.pinned cx.frame.returnTempOffset).instrs (.tuple ts) t 0) 0 :=
      leads_store (fun n h h0 => leads_base _ n h0) hsolid hfits (Int.le_refl 0)
    rwa [Int.zero_add] at hstore
  · rename_i hR
    rw [hR, Ty.Fits, Ty.Proper.stripped_eq h.2.2.2] at hfits
    refine (hv.rises hΓ h).append (Expr.climbs_ofCode ?_)
    rcases hfits with rfl | rfl <;>
      simp [InOrder, effect, Ty.size, Ty.wordSize, Ty.doubleSize]
  · rename_i htuple hdouble
    refine (hv.rises hΓ h).append (Expr.climbs_ofCode ?_)
    have hsize : t.size = 4 := by
      cases hR : cx.returnType with
      | tuple ts => exact absurd hR (htuple ts)
      | double => exact absurd hR hdouble
      | void => exact absurd hR hvoid
      | auto => rw [hR] at hreturn; cases hreturn.1
      | pointer =>
        rw [hR] at hfits
        obtain ⟨u, hu⟩ := Ty.fits_pointer.mp hfits
        rw [← Ty.size_stripped, hu, Ty.size, Ty.wordSize]
      | int | string =>
        rw [hR, Ty.Fits] at hfits
        rw [← Ty.size_stripped, hfits, Ty.size, Ty.wordSize]
    rw [hsize]
    simp [InOrder, effect]

/-- A function is left at height 0. -/
theorem Emission.climbs_leave (id : NodeId) {value : Outline} (h : value.Climbs cx.types out 0 0) :
    (leaveOutline id value).Climbs cx.types out 0 0 := by
  refine (h.append (Expr.climbs_ofCode ?_)).piece trivial
  simp [InOrder, effect]

/-- Of an integer nothing has to be dropped. -/
theorem Emission.leads_int : Leads out Ty.int.size [] 4 :=
  Leads.nil (by simp [Ty.size, Ty.wordSize])

end Local

/-! ### Statements -/

namespace Emission

/-- **The labels of the loop around a statement**, if there is one, were made up and stand at height
0. -/
def LoopAtZero (cx : Context) (out : String → Int → Prop) : Prop :=
  ∀ l, cx.loop = some l → ∀ name, name = l.increment ∨ name = l.done →
    (∃ k, name = labelName k) ∧ out name 0

theorem LoopAtZero.mono {cx : Context} {out out' : String → Int → Prop} (h : LoopAtZero cx out)
    (ho : ∀ l k, out l k → out' l k) : LoopAtZero cx out' := by
  intro l hl name hname
  obtain ⟨hk, hz⟩ := h l hl name hname
  exact ⟨hk, ho _ _ hz⟩

end Emission

namespace Outline

/-- A label that stands in the first part of some code stands in all of it. -/
theorem places_append {a : Outline} {h k : Int} {l : String} (hp : Places h a.code l k)
    (b : Outline) :
    Places h (a ++ b).code l k := by
  rw [code_append]
  exact hp.left b.code

/-- A label, and a jump at height 0. -/
theorem climbs_label {T : TypeTable} {out : String → Int → Prop} (l : String) :
    (Outline.ofCode [.label l]).Climbs T out 0 0 :=
  .ofCode (by simp [Emission.Balanced, Emission.InOrder, effect]) rfl

theorem climbs_jump {T : TypeTable} {out : String → Int → Prop} {k : Nat}
    (hout : out (labelName k) 0) (l : String) :
    (Outline.ofCode [.jump (labelName k), .label l]).Climbs T out 0 0 :=
  .ofCode ⟨Int.le_refl 0, ⟨⟨k, rfl⟩, hout⟩,
    by simp [Emission.Balanced, Emission.InOrder, effect]⟩ rfl

end Outline

namespace Stmt

/-- The code outside of a statement, and labels of the statement itself at height 0. -/
def outOr (out : String → Int → Prop) (ls : List String) : String → Int → Prop :=
  fun l k => out l k ∨ l ∈ ls ∧ k = 0

theorem outOr_of_mem {out : String → Int → Prop} {ls : List String} {l : String} (h : l ∈ ls) :
    outOr out ls l 0 :=
  .inr ⟨h, rfl⟩

/-- **A statement is level**: its code starts and ends at height 0, and what is in it moves the top
of the stack as far as it has to. -/
def Level (st : Stmt) : Prop :=
  ∀ ⦃cx : Context⦄ ⦃pt : Point⦄ ⦃inLoop : Bool⦄ ⦃out : String → Int → Prop⦄,
    cx.returnType.Sound → st.Stands Ty.Sound cx pt inLoop → LoopAtZero cx out →
      (st.outline cx pt).Climbs cx.types out 0 0

/-- As `Level`, for several statements. -/
def AllLevel (ss : List Stmt) : Prop :=
  ∀ ⦃cx : Context⦄ ⦃pt : Point⦄ ⦃inLoop : Bool⦄ ⦃out : String → Int → Prop⦄,
    cx.returnType.Sound → AllStand Ty.Sound cx pt inLoop ss → LoopAtZero cx out →
      (outlineAll cx pt ss).Climbs cx.types out 0 0

variable {site : Site}

theorem level_block {ds : List VarDecl} {body : List Stmt} (hbody : AllLevel body) :
    (block site ds body).Level := by
  intro cx pt inLoop out hR h hl
  obtain ⟨hds, hw, hstands⟩ := h.block Ty.stable_sound
  unfold outline
  exact ((VarDecl.climbs_outlineAll h.names hds hw).append (hbody hR hstands hl)).piece rfl

theorem level_evaluation (e : Expr) : (evaluation site e).Level := by
  intro cx pt inLoop out hR h hl
  obtain ⟨t, ht⟩ := h.typed
  unfold outline
  exact (Expr.climbs_effect h.names ht h.placed).piece rfl

theorem level_write (args : List Expr) (newline : Bool) : (write site args newline).Level := by
  intro cx pt inLoop out hR h hl
  have hline :
      (if newline then Outline.piece (.action (.endLine site.id)) (.ofCode [.call "println"])
      else .done).Climbs cx.types out 0 0 := by
    split
    · exact (Outline.Climbs.ofCode (by simp [Emission.Balanced, Emission.InOrder, effect])
        rfl).piece trivial
    · exact .done (Int.le_refl 0)
  unfold outline
  exact ((Expr.climbs_print h.names h.typed h.placed).append hline).piece rfl

theorem level_ifThen {c : Expr} {t : Stmt} (ht : t.Level) : (ifThen site c t).Level := by
  intro cx pt inLoop out hR h hl
  obtain ⟨hc, hcv, hstands⟩ := h.ifThen
  have htest : (c.testOutline cx (pt.move 0 1) [] (labelName (pt.labels + 1))).Climbs cx.types
      (outOr out [labelName (pt.labels + 1)]) 0 0 :=
    Expr.climbs_test (h.move 0 1).names hc hcv leads_int (outOr_of_mem List.mem_cons_self)
  -- The jump of the condition goes to the label behind the statement under it.
  have hall :=
    (htest.append (ht hR (hstands.move 0 (1 + c.labelCount)) (hl.mono fun _ _ => .inl))).append
      (Outline.climbs_label (labelName (pt.labels + 1)))
  unfold outline
  refine (hall.close fun l k hk => hk.imp_right ?_).piece rfl
  rintro ⟨hl, rfl⟩
  rw [List.mem_singleton.mp hl]
  exact hall.places_last rfl

theorem level_ifElse {c : Expr} {t e : Stmt} (ht : t.Level) (he : e.Level) :
    (ifElse site c t e).Level := by
  intro cx pt inLoop out hR h hl
  obtain ⟨hc, hcv, hfirst, hsecond⟩ := h.ifElse
  have hmono : LoopAtZero cx (outOr out [labelName (pt.labels + 1), labelName (pt.labels + 2)]) :=
    hl.mono fun _ _ => .inl
  have htest : (c.testOutline cx (pt.move 0 2) [] (labelName (pt.labels + 1))).Climbs cx.types
      (outOr out [labelName (pt.labels + 1), labelName (pt.labels + 2)]) 0 0 :=
    Expr.climbs_test (h.move 0 2).names hc hcv leads_int (outOr_of_mem List.mem_cons_self)
  have hjump : (Outline.ofCode [.jump (labelName (pt.labels + 2)),
      .label (labelName (pt.labels + 1))]).Climbs
      cx.types (outOr out [labelName (pt.labels + 1), labelName (pt.labels + 2)]) 0 0 :=
    Outline.climbs_jump (outOr_of_mem (by simp)) _
  have hthen := (htest.append (ht hR (hfirst.move 0 (2 + c.labelCount)) hmono)).append hjump
  have hall := (hthen.append (he hR (hsecond.move (t.usage cx.types).locals
    (2 + c.labelCount + t.labelCount)) hmono)).append
      (Outline.climbs_label (labelName (pt.labels + 2)))
  unfold outline
  refine (hall.close fun l k hk => hk.imp_right ?_).piece rfl
  rintro ⟨hl, rfl⟩
  rcases List.mem_cons.mp hl with rfl | hl
  · exact Outline.places_append (Outline.places_append (hthen.places_last rfl) _) _
  · rw [List.mem_singleton.mp hl]
    exact hall.places_last rfl

/-- What is behind the steps that a loop takes before its first round is level, for jumps to the
labels of the loop, and places these labels at height 0. -/
theorem climbs_round (id : NodeId) {cx : Context} {start : Point} {c : Option Expr}
    {incs : List Expr} {body : Stmt} {out : String → Int → Prop} (hR : cx.returnType.Sound)
    (h : Round Ty.Sound cx start c incs body) (hbody : body.Level)
    (hmem : ∀ n, n = 1 ∨ n = 2 ∨ n = 3 → out (labelName (start.labels + n)) 0) :
    (loopTestOutline cx (start.move 0 3) id (labelName (start.labels + 3)) c).Climbs
        cx.types out 0 0 ∧
      (body.outline (cx.inLoop start) (start.move 0 (3 + Expr.labelCountOfOption c))).Climbs
        cx.types out 0 0 ∧
      (Expr.effectOutlineOfAll cx ((start.move 0 (3 + Expr.labelCountOfOption c)).move
        (body.usage cx.types).locals body.labelCount) incs).Climbs cx.types out 0 0 := by
  have hnames : View.Settled Ty.Sound (start.move 0 3).scope.meanings := h.names
  have hnames' : View.Settled Ty.Sound ((start.move 0 (3 + Expr.labelCountOfOption c)).move
      (body.usage cx.types).locals body.labelCount).scope.meanings := h.names
  have hreturn : (cx.inLoop start).returnType.Sound := hR
  -- The labels of the loop are those of the jumps in its body.
  have hinner : LoopAtZero (cx.inLoop start) out := by
    rintro l hl name hname
    cases hl
    rcases hname with rfl | rfl
    · exact ⟨⟨_, rfl⟩, hmem 2 (by simp)⟩
    · exact ⟨⟨_, rfl⟩, hmem 3 (by simp)⟩
  refine ⟨climbs_loopTest hnames h.condition h.conditionValue (hmem 3 (by simp)), ?_,
    Expr.climbs_effects hnames' h.increments h.incrementValues⟩
  exact hbody hreturn (h.body.move 0 (3 + Expr.labelCountOfOption c)) hinner

theorem level_forLoop {inits : List LoopInit} {c : Option Expr} {incs : List Expr} {body : Stmt}
    (hbody : body.Level) : (forLoop site inits c incs body).Level := by
  intro cx pt inLoop out hR h hl
  obtain ⟨hinits, hwinits, hround⟩ := h.forLoop Ty.stable_sound
  unfold outline
  dsimp only
  generalize LoopInit.afterAll cx.types pt inits = start at hround ⊢
  generalize hlabels : [labelName (start.labels + 1), labelName (start.labels + 2),
    labelName (start.labels + 3)] = labels
  have hmem : ∀ n, n = 1 ∨ n = 2 ∨ n = 3 → outOr out labels (labelName (start.labels + n)) 0 := by
    rintro n (rfl | rfl | rfl) <;> exact outOr_of_mem (by simp [← hlabels])
  have hbefore : (LoopInit.outlineAll cx pt inits).Climbs cx.types (outOr out labels) 0 0 :=
    LoopInit.climbs_outlineAll h.names hinits hwinits
  obtain ⟨htest, hinside, heffects⟩ := climbs_round site.id hR hround hbody hmem
  have hback : (Outline.ofCode [.jump (labelName (start.labels + 1)),
      .label (labelName (start.labels + 3))]).Climbs cx.types (outOr out labels) 0 0 :=
    Outline.climbs_jump (hmem 1 (by simp)) _
  have htop := hbefore.append (Outline.climbs_label (labelName (start.labels + 1)))
  have hincrement := ((htop.append htest).append hinside).append
    (Outline.climbs_label (labelName (start.labels + 2)))
  have hall := (hincrement.append heffects).append hback
  refine (hall.close fun l k hk => hk.imp_right ?_).piece rfl
  rintro ⟨hl, rfl⟩
  rw [← hlabels, List.mem_cons, List.mem_cons, List.mem_singleton] at hl
  rcases hl with rfl | rfl | rfl
  · exact Outline.places_append (Outline.places_append (Outline.places_append
      (Outline.places_append (Outline.places_append (htop.places_last rfl) _) _) _) _) _
  · exact Outline.places_append (Outline.places_append (hincrement.places_last rfl) _) _
  · exact hall.places_last rfl

theorem level_break : (Stmt.break site).Level := by
  intro cx pt inLoop out hR h hl
  obtain ⟨l, hloop⟩ := h.jump (.inl rfl)
  obtain ⟨⟨k, hk⟩, hout⟩ := hl l hloop l.done (.inr rfl)
  have hjump : Emission.Balanced out 0 [.jump l.done] :=
    ⟨Int.le_refl 0, ⟨⟨k, hk⟩, hout⟩, Int.le_refl 0⟩
  unfold outline doneLabel
  rw [hloop]
  exact (Outline.Climbs.ofCode hjump rfl).piece rfl

theorem level_continue : (Stmt.continue site).Level := by
  intro cx pt inLoop out hR h hl
  obtain ⟨l, hloop⟩ := h.jump (.inr rfl)
  obtain ⟨⟨k, hk⟩, hout⟩ := hl l hloop l.increment (.inl rfl)
  have hjump : Emission.Balanced out 0 [.jump l.increment] :=
    ⟨Int.le_refl 0, ⟨⟨k, hk⟩, hout⟩, Int.le_refl 0⟩
  unfold outline incrementLabel
  rw [hloop]
  exact (Outline.Climbs.ofCode hjump rfl).piece rfl

theorem level_return (v : Option Expr) : (Stmt.return site v).Level := by
  intro cx pt inLoop out hR h hl
  unfold outline
  refine (climbs_leave site.id ?_).piece rfl
  cases v with
  | none => exact .done (Int.le_refl 0)
  | some v =>
    obtain ⟨t, ht, hv, hfits⟩ := h.typed v rfl
    exact climbs_return h.names hR ht h.placed hv hfits

mutual

/-- **The code of a statement starts and ends at height 0**, by one lemma for each kind of
statement. -/
theorem level : ∀ st : Stmt, st.Level
  | .block _ _ body => level_block (allLevel body)
  | .evaluation _ e => level_evaluation e
  | .write _ args newline => level_write args newline
  | .ifThen _ _ t => level_ifThen (level t)
  | .ifElse _ _ t e => level_ifElse (level t) (level e)
  | .forLoop _ _ _ _ body => level_forLoop (level body)
  | .break _ => level_break
  | .continue _ => level_continue
  | .return _ v => level_return v

/-- As `level`, for several statements. -/
theorem allLevel : ∀ ss : List Stmt, AllLevel ss
  | [] => fun _ _ _ _ _ _ _ => .done (Int.le_refl 0)
  | st :: ss => fun _ _ _ _ hR h hl =>
    (level st hR h.cons.1 hl).append (allLevel ss hR (h.cons.2 _ _) hl)

end

end Stmt

/-! ### Functions -/

namespace Function

variable {T : TypeTable} {config : Config} {scope : View Symbol} {f : Function}
  {out : String → Int → Prop}

theorem climbs_head (T : TypeTable) (config : Config) (scope : View Symbol) (f : Function) :
    (Outline.ofCode (f.head T config scope)).Climbs T out 0 0 := by
  refine .ofCode ?_ ?_
  · unfold head
    split <;> simp [Emission.Balanced, Emission.InOrder, effect]
  · unfold head
    split <;> simp [rise, effect]

/-- **The code of a typed function starts and ends at height 0.** -/
theorem climbs {R : Ty} (hΓ : View.Settled Ty.Sound scope.meanings)
    (h : f.Typed Ty.Sound T scope.meanings R) (hw : f.WellPlaced) (n : Nat) :
    (f.outline T config scope n).Climbs T out 0 0 := by
  have hR : (f.context T config).returnType.Sound := by
    have heq : (f.context T config).returnType = R := TypeTable.typeOf_eq h.result.1
    rw [heq]
    exact h.result.2.2
  have hbody : (f.body.stmt.outline (f.context T config) (f.entry T scope n)).Climbs T out 0 0 :=
    Stmt.level _ hR (f.stands Ty.stable_sound hΓ h hw) fun l hl => by cases hl
  have htail : (f.tail T).Climbs T out 0 0 := by
    unfold tail
    split
    · have hleave : (leaveOutline f.signature.id .done).Climbs (f.context T config).types out 0 0 :=
        climbs_leave _ (.done (Int.le_refl 0))
      exact hleave
    · exact .done (Int.le_refl 0)
  exact (((climbs_head T config scope f).append hbody).append htail).piece trivial

end Function

end PostfixCompiler
