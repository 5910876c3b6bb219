import PostfixCompiler.Proofs.Machine.Labels

/-!
# The labels of a unit

The labels that the code of a statement places are those that were made up for it: each end of a
branch, the three labels of a loop, and the labels of the expressions. The same holds of the
variables and functions of a unit, except that these also have labels of their own, with names that
the program chose. A name that looks like a label that is made up is **reserved** here. If a program
declares no reserved name, and the linker does not look for one, then no label that is made up
stands twice in the code of the unit.

## Main definitions

* `PostfixCompiler.Emission.Reserved`: a name that a label that is made up may have.
* `PostfixCompiler.Decl.Unreserved`: the names that a unit declares are not reserved.

## Main statements

* `PostfixCompiler.Stmt.makes`, `PostfixCompiler.Decl.makes_outlineOfAll`.
* `PostfixCompiler.Emission.Makes.position_unique`: a label that is made up stands at one position.
-/

namespace PostfixCompiler

open Emission

/-! ### Local variables and effects -/

section Local

variable {cx : Context} {pt : Point}

theorem VarDecl.makes (d : VarDecl) :
    Makes (d.outline cx pt).code pt.labels (pt.labels + Expr.labelCountOfOption d.initializer) := by
  unfold outline
  cases d.initializer with
  | none => exact makes_of_plain plain_nil _
  | some e =>
    simp only [Outline.code_piece, Outline.code_append, Outline.code_ofCode]
    exact (e.through .value _).toMakes.append
      (makes_of_moving (moving_store (moving_base _) _ _ _) _)

theorem VarDecl.makes_outlineAll (ds : List VarDecl) :
    Makes (outlineAll cx pt ds).code pt.labels (pt.labels + labelCountOfAll ds) := by
  induction ds generalizing pt with
  | nil => exact makes_of_plain plain_nil _
  | cons d ds ih =>
    rw [outlineAll, labelCountOfAll, Outline.code_append, ← Nat.add_assoc]
    exact d.makes.append ih

theorem Expr.makes_effect (e : Expr) :
    Makes (e.effectOutline cx pt).code pt.labels (pt.labels + e.labelCount) := by
  simp only [effectOutline, Outline.code_piece, Outline.code_append, Outline.code_ofCode]
  exact (e.through .value _).toMakes.append (makes_of_moving (moving_trash _) _)

theorem Expr.makes_effects (es : List Expr) :
    Makes (effectOutlineOfAll cx pt es).code pt.labels (pt.labels + labelCountOfAll es) := by
  induction es generalizing pt with
  | nil => exact makes_of_plain plain_nil _
  | cons e es ih =>
    rw [effectOutlineOfAll, labelCountOfAll, Outline.code_append, ← Nat.add_assoc]
    exact e.makes_effect.append ih

theorem Emission.plain_print (ts : List Ty) : Plain (Expr.printInstrs ts) :=
  Plain.flatMap fun t _ => plain_cons.mpr ⟨rfl, (moving_trash t.size).plain⟩

theorem Expr.makes_print (es : List Expr) :
    Makes (printOutline cx pt es).code pt.labels (pt.labels + labelCountOfAll es) := by
  induction es generalizing pt with
  | nil => exact makes_of_plain plain_nil _
  | cons e es ih =>
    rw [printOutline, labelCountOfAll, Outline.code_append, Outline.code_piece, Outline.code_append,
      Outline.code_ofCode, ← Nat.add_assoc]
    exact ((e.through .value _).toMakes.append (makes_of_plain (plain_print _) _)).append ih

/-- Jumps, and the way out of a function, place no labels. -/
theorem Emission.makes_jump (l : String) (n : Nat) : Makes [.jump l] n n :=
  makes_of_forall (by simp) n

theorem Expr.makes_test {keep : List Instr} (hkeep : Plain keep) (otherwise : String) (c : Expr) :
    Makes (c.testOutline cx pt keep otherwise).code pt.labels (pt.labels + c.labelCount) := by
  simp only [testOutline, Outline.code_piece, Outline.code_append, Outline.code_ofCode]
  exact ((c.through .value _).toMakes.append (makes_of_plain hkeep _)).append
    (makes_of_forall (by simp) _)

theorem Emission.makes_loopTest (id : NodeId) (done : String) (c : Option Expr) :
    Makes (loopTestOutline cx pt id done c).code pt.labels
      (pt.labels + Expr.labelCountOfOption c) := by
  cases c with
  | none => exact makes_of_plain plain_nil _
  | some c => exact c.makes_test (moving_keep _ _).plain done

theorem LoopInit.makes (i : LoopInit) :
    Makes (i.outline cx pt).code pt.labels (pt.labels + i.labelCount) := by
  cases i with
  | declare d => exact d.makes
  | evaluate e => exact e.makes_effect

theorem LoopInit.makes_outlineAll (is : List LoopInit) :
    Makes (outlineAll cx pt is).code pt.labels (pt.labels + labelCountOfAll is) := by
  induction is generalizing pt with
  | nil => exact makes_of_plain plain_nil _
  | cons i is ih =>
    rw [outlineAll, labelCountOfAll, Outline.code_append, ← Nat.add_assoc]
    refine i.makes.append ?_
    have h := @ih (i.after cx.types pt)
    rw [LoopInit.after_eq] at h
    rw [LoopInit.after_eq]
    exact h

theorem Emission.makes_return (v : Expr) :
    Makes (returnOutline cx pt v).code pt.labels (pt.labels + v.labelCount) := by
  have hv :
      Makes (v.outline cx pt.scope .value pt.labels).code pt.labels (pt.labels + v.labelCount) :=
    (v.through .value pt.labels).toMakes
  unfold returnOutline
  split
  · simp only [Outline.code_append, Outline.code_ofCode]
    exact ((makes_of_plain (.of_all rfl) _).append hv).append
      (makes_of_moving (moving_store (moving_base _) _ _ _) _)
  · simp only [Outline.code_append, Outline.code_ofCode]
    refine hv.append (makes_of_plain ?_ _)
    split <;> exact .of_all rfl
  · simp only [Outline.code_append, Outline.code_ofCode]
    exact hv.append (makes_of_plain (.of_all rfl) _)

theorem Emission.makes_leave (id : NodeId) {value : Outline} {n m : Nat}
    (h : Makes value.code n m) :
    Makes (leaveOutline id value).code n m := by
  simp only [leaveOutline, Outline.code_piece, Outline.code_append, Outline.code_ofCode]
  exact h.append (makes_of_forall (by simp) m)

end Local

/-! ### Statements -/

namespace Stmt

variable {cx : Context} {pt : Point}

/-- The code of a loop, in the order in which its labels were made up. -/
theorem makes_forLoop {site : Site} {inits : List LoopInit} {c : Option Expr}
    {incs : List Expr} {body : Stmt}
    (hbody : ∀ cx pt, Makes (body.outline cx pt).code pt.labels (pt.labels + body.labelCount)) :
    Makes ((forLoop site inits c incs body).outline cx pt).code pt.labels
      (pt.labels + (forLoop site inits c incs body).labelCount) := by
  have hinits : Makes (LoopInit.outlineAll cx pt inits).code pt.labels
      (pt.labels + LoopInit.labelCountOfAll inits) := LoopInit.makes_outlineAll inits
  have hlabels : (LoopInit.afterAll cx.types pt inits).labels =
      pt.labels + LoopInit.labelCountOfAll inits := by
    rw [LoopInit.afterAll_eq]
  simp only [outline, Outline.code_piece, Outline.code_append, Outline.code_ofCode]
  generalize LoopInit.afterAll cx.types pt inits = start at hlabels ⊢
  rw [← hlabels] at hinits
  have hlabels₃ :
      Makes ([.label (labelName (start.labels + 1))] ++ [.label (labelName (start.labels + 2))] ++
      [.label (labelName (start.labels + 3))]) start.labels (start.labels + 3) :=
    ((makes_label start.labels).append (makes_label (start.labels + 1))).append
      (makes_label (start.labels + 2))
  have htest :
      Makes (loopTestOutline cx (start.move 0 3) site.id (labelName (start.labels + 3)) c).code
      (start.move 0 3).labels ((start.move 0 3).labels + Expr.labelCountOfOption c) :=
      makes_loopTest _ _ c
  have hbody := hbody (cx.inLoop start) (start.move 0 (3 + Expr.labelCountOfOption c))
  have hincs : ∀ pt : Point, Makes (Expr.effectOutlineOfAll cx pt incs).code pt.labels
      (pt.labels + Expr.labelCountOfAll incs) := fun _ => Expr.makes_effects incs
  have hincs :=
    hincs ((start.move 0 (3 + Expr.labelCountOfOption c)).move (body.usage cx.types).locals
    body.labelCount)
  simp only [Point.move, ← Nat.add_assoc] at htest hbody hincs
  have hjump :=
    makes_jump (labelName (start.labels + 1)) (start.labels + 3 + Expr.labelCountOfOption c +
    body.labelCount + Expr.labelCountOfAll incs)
  have hall := hinits.append (hlabels₃.append (((htest.append hbody).append hincs).append hjump))
  have heq : pt.labels + (forLoop site inits c incs body).labelCount = start.labels + 3 +
      Expr.labelCountOfOption c + body.labelCount + Expr.labelCountOfAll incs := by
    rw [hlabels, labelCount]
    omega
  rw [heq]
  refine hall.perm (List.perm_iff_count.mpr fun i => ?_)
  simp only [Point.move, ← Nat.add_assoc, List.count_append, List.count_cons, List.count_nil]
  omega

mutual

/-- **The labels of a statement** are those that were made up for it. -/
theorem makes : ∀ (s : Stmt) (cx : Context) (pt : Point),
    Makes (s.outline cx pt).code pt.labels (pt.labels + s.labelCount)
  | .block _ ds body, cx, pt => by
    simp only [outline, labelCount, Outline.code_piece, Outline.code_append]
    rw [← Nat.add_assoc]
    refine (VarDecl.makes_outlineAll ds).append ?_
    have h := makesAll body cx (VarDecl.afterAll cx.types pt ds)
    rw [VarDecl.afterAll_eq] at h
    rw [VarDecl.afterAll_eq]
    exact h
  | .evaluation _ e, cx, pt => by
    simp only [outline, labelCount, Outline.code_piece]
    exact e.makes_effect
  | .write _ args newline, cx, pt => by
    simp only [outline, labelCount, Outline.code_piece, Outline.code_append]
    refine (Expr.makes_print args).append (makes_of_plain ?_ _)
    split <;> exact .of_all rfl
  | .ifThen _ c t, cx, pt => by
    simp only [outline, labelCount, Outline.code_piece, Outline.code_append, Outline.code_ofCode]
    have hc : Makes (c.testOutline cx (pt.move 0 1) [] (labelName (pt.labels + 1))).code
        (pt.move 0 1).labels
        ((pt.move 0 1).labels + c.labelCount) := c.makes_test plain_nil _
    have ht := makes t cx (pt.move 0 (1 + c.labelCount))
    simp only [Point.move, ← Nat.add_assoc] at hc ht ⊢
    exact ((makes_label pt.labels).append (hc.append ht)).perm List.perm_append_comm
  | .ifElse _ c t e, cx, pt => by
    simp only [outline, labelCount, Outline.code_piece, Outline.code_append, Outline.code_ofCode]
    have hc : Makes (c.testOutline cx (pt.move 0 2) [] (labelName (pt.labels + 1))).code
        (pt.move 0 2).labels
        ((pt.move 0 2).labels + c.labelCount) := c.makes_test plain_nil _
    have ht := makes t cx (pt.move 0 (2 + c.labelCount))
    have he := makes e cx (pt.move (t.usage cx.types).locals (2 + c.labelCount + t.labelCount))
    have hlabels :
        Makes ([.label (labelName (pt.labels + 1))] ++ [.label (labelName (pt.labels + 2))])
        pt.labels (pt.labels + 2) :=
      (makes_label pt.labels).append (makes_label (pt.labels + 1))
    simp only [Point.move, ← Nat.add_assoc] at hc ht he ⊢
    refine (hlabels.append
      ((hc.append ht).append ((makes_jump (labelName (pt.labels + 2)) _).append he))).perm
      (List.perm_iff_count.mpr fun i => ?_)
    simp only [List.count_append, List.count_cons, List.count_nil]
    omega
  | .forLoop _ _ _ _ body, cx, pt => makes_forLoop (makes body)
  | .break _, cx, pt | .continue _, cx, pt => by
    simp only [outline, Outline.code_piece, Outline.code_ofCode]
    exact makes_jump _ _
  | .return site v, cx, pt => by
    simp only [outline, Outline.code_piece]
    refine makes_leave site.id ?_
    cases v with
    | none => exact makes_of_plain plain_nil _
    | some v => exact makes_return v

/-- As `makes`, for several statements. -/
theorem makesAll : ∀ (ss : List Stmt) (cx : Context) (pt : Point),
    Makes (outlineAll cx pt ss).code pt.labels (pt.labels + labelCountOfAll ss)
  | [], cx, pt => makes_of_plain plain_nil _
  | s :: ss, cx, pt => by
    rw [outlineAll, labelCountOfAll, Outline.code_append, ← Nat.add_assoc]
    exact (makes s cx pt).append (makesAll ss cx _)

end

end Stmt

/-! ### Names of the program -/

namespace Emission

/-- **A name that a label that is made up may have.** -/
def Reserved (name : String) : Prop := "_L".toList <+: name.toList

instance (name : String) : Decidable (Reserved name) := inferInstanceAs (Decidable (_ <+: _))

theorem reserved_labelName (n : Nat) : Reserved (labelName n) := by
  rw [Reserved, labelName, String.toList_append]
  exact List.prefix_append _ _

/-- A label that the program named is none that was made up. -/
theorem makes_named {name : String} (h : ¬Reserved name) (n : Nat) : Makes [.label name] n n :=
  makes_of_forall (fun k hk => h (by
    cases List.mem_singleton.mp hk
    exact reserved_labelName k)) n

/-- The label of a symbol is not reserved, if neither its name is nor the name that the linker looks
for. -/
theorem not_reserved_labelOf {config : Config} {s : Symbol} (hs : ¬Reserved s.name)
    (hentry : ¬Reserved config.entrySymbol) : ¬Reserved (config.labelOf s) := by
  unfold Config.labelOf
  split
  · exact hs
  · split
    · exact hentry
    · split
      · intro h
        rw [Reserved, String.toList_append] at h
        obtain ⟨t, ht⟩ := h
        cases List.head_eq_of_cons_eq ht
      · exact hs

/-- The label of a function that is called is not reserved, if names are bound to symbols of that
name. -/
theorem not_reserved_callee {config : Config} {scope : View Symbol} {name : String}
    (hscope : ∀ s, scope name = some s → s.name = name) (hname : ¬Reserved name)
    (hentry : ¬Reserved config.entrySymbol) : ¬Reserved (calleeLabel config scope name) := by
  unfold calleeLabel
  split
  · rename_i s hs
    exact not_reserved_labelOf (hscope s hs ▸ hname) hentry
  · exact hname

/-- **A label that is made up stands at one position** in code. -/
theorem Makes.position_unique {is : List Instr} {n m k i j : Nat} (h : Makes is n m)
    (hi : is[i]? = some (.label (labelName k)))
    (hj : is[j]? = some (.label (labelName k))) : i = j := by
  have key : ∀ {i j : Nat}, i < j → is[i]? = some (.label (labelName k)) →
      is[j]? = some (.label (labelName k)) → False := by
    intro i j hlt hi hj
    have hfirst : 0 < (is.take j).count (.label (labelName k)) := by
      refine List.count_pos_iff.mpr (List.mem_of_getElem? (i := i) ?_)
      rw [List.getElem?_take_of_lt hlt, hi]
    have hsecond : 0 < (is.drop j).count (.label (labelName k)) := by
      refine List.count_pos_iff.mpr (List.mem_of_getElem? (i := 0) ?_)
      rw [List.getElem?_drop, Nat.add_zero, hj]
    have hle := h.count_le k
    rw [← List.take_append_drop j is, List.count_append] at hle
    split at hle <;> omega
  rcases Nat.lt_trichotomy i j with hlt | heq | hgt
  · exact (key hlt hi hj).elim
  · exact heq
  · exact (key hgt hj hi).elim

end Emission

/-! ### Variables of the unit -/

namespace Expr

mutual

theorem makes_text : ∀ (e : Expr) (n : Nat), Makes (e.textCode n) n (n + e.labelCount)
  | .string _ s, n =>
    have hhead : Makes [.rodata, .align] n n := makes_of_plain (.of_all rfl) n
    have htext : Makes [.staticString s] (n + 1) (n + 1) := makes_of_plain (.of_all rfl) (n + 1)
    hhead.append ((makes_label n).append htext)
  | .tuple _ es, n => makes_texts es n
  | .integer .., n | .double .., n | .nullptr _, n | .input _, n | .variable .., n
  | .pointerIndex .., n | .tupleIndex .., n | .rvalue .., n | .assignment .., n | .unary .., n
  | .binary .., n | .addressOf .., n | .stackAlloc .., n | .sizeof .., n | .call .., n =>
    (makes_of_plain plain_nil n).mono (Nat.le_refl n) (Nat.le_add_right _ _)

theorem makes_texts :
    ∀ (es : List Expr) (n : Nat), Makes (textCodeOfAll n es) n (n + labelCountOfAll es)
  | [], n => makes_of_plain plain_nil n
  | e :: es, n => by
    rw [textCodeOfAll, labelCountOfAll, ← Nat.add_assoc]
    exact (makes_text e n).append (makes_texts es _)

end

mutual

theorem plain_image : ∀ (e : Expr) (next : Nat) (target : Ty), Plain (e.imageCode next target)
  | .integer .., next, target => by
    rw [imageCode]
    split <;> exact .of_all rfl
  | .double .., _, _ | .nullptr _, _, _ | .string .., _, _ => by
    rw [imageCode]
    exact .of_all rfl
  | .tuple _ [e], next, target => by
    rw [imageCode]
    exact plain_image e next target
  | .tuple _ [], next, target | .tuple _ (_ :: _ :: _), next, target => by
    unfold imageCode
    exact plain_images _ next _
  | .input _, _, _ | .variable .., _, _ | .pointerIndex .., _, _
  | .tupleIndex .., _, _ | .rvalue .., _, _ | .assignment .., _, _ | .unary .., _, _
  | .binary .., _, _ | .addressOf .., _, _ | .stackAlloc .., _, _ | .sizeof .., _, _
  | .call .., _, _ => plain_nil

theorem plain_images :
    ∀ (es : List Expr) (next : Nat) (targets : List Ty), Plain (imageCodeOfAll next targets es)
  | [], _, _ | _ :: _, _, [] => by
    rw [imageCodeOfAll] <;> simp
  | e :: es, next, t :: ts => by
    rw [imageCodeOfAll, plain_append]
    exact ⟨plain_image e next t, plain_images es _ ts⟩

end

end Expr

namespace VarDecl

theorem makes_head (d : VarDecl) {segment : Instr} (hs : isPlain segment = true) {name : String}
    (hname : ¬Reserved name) (n : Nat) : Makes (d.headCode segment name) n n := by
  refine (makes_of_plain ?_ n).append (makes_named hname n)
  rw [plain_append]
  refine ⟨plain_cons.mpr ⟨hs, .of_all rfl⟩, ?_⟩
  split <;> exact .of_all rfl

theorem makes_variable (d : VarDecl) {name : String} (hname : ¬Reserved name) (t : Ty)
    (value : Option Expr) (n : Nat) :
    Makes (d.variableCode n name t value) n (n + Expr.labelCountOfOption value) := by
  cases value with
  | none => exact (d.makes_head rfl hname n).append (makes_of_plain (.of_all rfl) _)
  | some e =>
    exact ((e.makes_text n).append (d.makes_head rfl hname _)).append
      (makes_of_plain (e.plain_image _ _) _)

theorem makes_each (d : VarDecl) :
    ∀ {names : List String} (ts : List Ty) (values : List (Option Expr)) (n : Nat),
    (∀ name ∈ names, ¬Reserved name) →
    Makes (d.eachCode n names ts values) n (n + valueLabels values)
  | name :: names, t :: ts, value :: values, n, h => by
    rw [List.forall_mem_cons] at h
    rw [eachCode, valueLabels, ← Nat.add_assoc]
    exact (d.makes_variable h.1 t value n).append (makes_each d ts values _ h.2)
  | [], _, _, n, _ | _ :: _, [], _, n, _ | _ :: _, _ :: _, [], n, _ =>
    (makes_of_plain plain_nil n).mono (Nat.le_refl n) (Nat.le_add_right _ _)

theorem makes_lay (d : VarDecl) (T : TypeTable) (h : ∀ name ∈ d.names, ¬Reserved name) (n : Nat) :
    Makes (d.layCode T n) n (n + d.layLabels) := by
  unfold layCode layLabels
  split
  · exact makes_of_plain plain_nil n
  · exact d.makes_each _ _ n h

end VarDecl

/-! ### Units -/

namespace Function

theorem makes {T : TypeTable} {config : Config} {scope : View Symbol} {f : Function}
    (h : ¬Reserved (calleeLabel config scope f.signature.name)) (n : Nat) :
    Makes (f.outline T config scope n).code n (n + f.body.stmt.labelCount) := by
  have hhead : Makes (f.head T config scope) n n := by
    refine makes_of_forall (fun k hk => h ?_) n
    have hk : labelName k = calleeLabel config scope f.signature.name := by
      unfold head at hk
      split at hk <;> simpa using hk
    exact hk ▸ reserved_labelName k
  simp only [outline, Outline.code_piece, Outline.code_append, Outline.code_ofCode]
  refine (hhead.append (f.body.stmt.makes _ (f.entry T scope n))).append ?_
  unfold tail
  split
  · exact makes_leave _ (makes_of_plain plain_nil _)
  · exact makes_of_plain plain_nil _

end Function

namespace Decl

/-- **The names that a unit declares are not reserved**, and neither is the name that the linker
looks for. -/
def Unreserved (config : Config) (ds : List Decl) : Prop :=
  ¬Reserved config.entrySymbol ∧ ∀ d ∈ ds, ∀ name ∈ d.names, ¬Reserved name

instance (config : Config) (ds : List Decl) : Decidable (Unreserved config ds) :=
  inferInstanceAs (Decidable (_ ∧ _))

variable {T : TypeTable} {config : Config} {scope : View Symbol}

/-- **The labels of a unit** that are made up are distinct. -/
theorem makes_outlineOfAll (hscope : ∀ name s, scope name = some s → s.name = name) :
    ∀ {ds : List Decl}, Unreserved config ds → ∀ n,
      Makes (outlineOfAll T config scope n ds).code n (n + labelCountOfAll ds)
  | [], _, n => makes_of_plain plain_nil n
  | d :: ds, h, n => by
    obtain ⟨hentry, h⟩ := h
    rw [List.forall_mem_cons] at h
    rw [outlineOfAll, labelCountOfAll, Outline.code_append, ← Nat.add_assoc]
    refine Makes.append ?_ (makes_outlineOfAll hscope ⟨hentry, h.2⟩ _)
    cases d with
    | «variable» d =>
      rw [outline, Outline.code_ofCode]
      exact d.makes_lay T h.1 n
    | declare => exact makes_of_plain plain_nil n
    | define f =>
      exact f.makes (not_reserved_callee (hscope _) (h.1 _ (List.mem_singleton_self _)) hentry) n

end Decl

/-- The sample holds one function; its names are not reserved, and its types are proper. -/
theorem exists_sample_function : ∃ t T σ f, SyntaxTree.ofNodes sampleNodes (.ofIndex 21) = .ok t ∧
    Typing.checkTree t = .ok (T, σ) ∧ t.declarations = [.define f] ∧
    (∀ d ∈ t.declarations, ∀ u ∈ d.writtenTypes, u.Proper) ∧
    Decl.Unreserved .default t.declarations := by
  obtain ⟨t, T, σ, ht, hcheck⟩ := exists_sample
  have hok : (SyntaxTree.ofNodes sampleNodes (.ofIndex 21)).toOption.any (fun t =>
      t.onlyFunction?.isSome && decide ((∀ d ∈ t.declarations, ∀ u ∈ d.writtenTypes, u.Proper) ∧
        Decl.Unreserved .default t.declarations)) = true := by
    decide +kernel
  rw [ht] at hok
  obtain ⟨hone, hmeets⟩ := Bool.and_eq_true_iff.mp hok
  obtain ⟨f, hf⟩ := Option.isSome_iff_exists.mp hone
  exact ⟨t, T, σ, f, ht, hcheck, SyntaxTree.onlyFunction?_eq_some.mp hf, of_decide_eq_true hmeets⟩

end PostfixCompiler
