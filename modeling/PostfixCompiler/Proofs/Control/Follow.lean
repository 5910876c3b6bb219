import PostfixCompiler.Proofs.Control.Leaves

/-!
# Code follows the course of its statement

A run that enters the code of a statement must go the way of the statement: it begins the actions of
the course, and when the course ends the run is behind the code, at the label to which `break` or
`continue` goes, or at the end of the function. A course that is cut after some rounds is followed
by a run of at least as many steps. So whatever a run has done is part of the course, if only the
course is followed for long enough.

## Main definitions

* `PostfixCompiler.Emission.Follows`: a run is where the course of a statement ends.
* `PostfixCompiler.Stmt.Followed`: runs that enter the code of a statement follow its course.

## Main statements

* `PostfixCompiler.Stmt.followed`: a run that enters the code of a statement must follow its
  course.
* `PostfixCompiler.Function.must_follow`: a run of a function must follow its course.
-/

namespace PostfixCompiler

open Emission

namespace Emission

/-- Where a run is when a course ends: behind the code, at a label of the innermost loop, or at the
end of the function. If the course was cut, so many steps were taken. -/
def EndsAt (cells : List Cell) (cx : Context) (past fuel : Nat) (s : Control) (c : Course)
    (t : Control) : Prop :=
  match c.way with
  | .through => t.pos = past ∧ t.tests = c.tests
  | .break => (cells.map Cell.instr)[t.pos]? = some (.label (Stmt.doneLabel cx)) ∧ t.tests = c.tests
  | .continue => (cells.map Cell.instr)[t.pos]? = some (.label (Stmt.incrementLabel cx)) ∧
      t.tests = c.tests
  | .return => t.Returning cells
  | .cut => s.clock + fuel ≤ t.clock

/-- **A run has followed a course**: it has begun the same actions, and is where the course ends. -/
structure Follows (cells : List Cell) (cx : Context) (past fuel : Nat) (s : Control) (c : Course)
    (t : Control) : Prop where
  /-- The actions are those of the course. -/
  actions_eq : t.actions = s.actions ++ c.actions
  /-- Time goes on. -/
  clock_le : s.clock ≤ t.clock
  /-- The run is where the course ends. -/
  place : EndsAt cells cx past fuel s c t

variable {cells : List Cell} {oracle : Nat → Bool} {n m : Nat} {cx : Context} {past p fuel k : Nat}
  {s t u : Control} {as : List Action} {c : Course}

/-- A run that gets behind the code has followed a course that does the same. -/
theorem Follows.of_gets (h : s.Gets past k as t) : Follows cells cx past fuel s (.doing as k) t :=
  ⟨h.actions_eq, h.clock_le, h.pos_eq, h.tests_eq⟩

/-- What follows some actions is followed from where these were begun. -/
theorem Follows.behind (h : s.Gets p k as t) (ht : Follows cells cx past fuel t c u) :
    Follows cells cx past fuel s ⟨c.way, as ++ c.actions, c.tests⟩ u := by
  refine ⟨?_, h.clock_le.trans ht.clock_le, ?_⟩
  · rw [ht.actions_eq, h.actions_eq, List.append_assoc]
  · have hplace := ht.place
    unfold EndsAt at hplace ⊢
    dsimp only
    cases hway : c.way with
    | cut =>
      rw [hway] at hplace
      exact (Nat.add_le_add_right h.clock_le fuel).trans hplace
    | _ =>
      rw [hway] at hplace
      exact hplace

/-- What is followed behind a step without actions is followed from before the step. The step makes
up for a round that the course may not take any more. -/
theorem Follows.later (h : Follows cells cx past fuel t c u)
    (hactions : t.actions = s.actions ++ []) (hclock : s.clock < t.clock) :
    Follows cells cx past (fuel + 1) s c u := by
  refine ⟨?_, hclock.le.trans h.clock_le, ?_⟩
  · rw [h.actions_eq, hactions, List.append_nil]
  · have hplace := h.place
    unfold EndsAt at hplace ⊢
    cases hway : c.way with
    | cut =>
      rw [hway] at hplace
      dsimp only at hplace ⊢
      omega
    | _ =>
      rw [hway] at hplace
      exact hplace

/-- **A course behind a course is followed** if each of them is. -/
theorem must_follow_next {rest : Nat → Course}
    (h : Must (Moves cells oracle) (Follows cells cx p fuel s c) s)
    (hrest : ∀ t, t.pos = p → t.tests = c.tests →
      Must (Moves cells oracle) (Follows cells cx past fuel t (rest c.tests)) t) :
    Must (Moves cells oracle) (Follows cells cx past fuel s (c.next rest)) s := by
  refine h.trans fun t ht => ?_
  by_cases hway : c.way = .through
  · have hplace := ht.place
    unfold EndsAt at hplace
    rw [hway] at hplace
    rw [Course.next, if_pos hway]
    exact (hrest t hplace.1 hplace.2).mono fun u hu =>
      .behind ⟨hplace.1, hplace.2, ht.clock_le, ht.actions_eq⟩ hu
  · rw [Course.next_of_ne hway]
    refine .here ⟨ht.actions_eq, ht.clock_le, ?_⟩
    have hplace := ht.place
    unfold EndsAt at hplace ⊢
    cases h : c.way with
    | through => exact absurd h hway
    | _ =>
      rw [h] at hplace
      exact hplace

/-- Actions that are begun one after the other, and a course behind them. -/
theorem must_follow_doing {o : Outline} (ho : o.Does cells oracle as)
    (hs : Holds cells s.pos o.cells) {rest : Nat → Course}
    (hrest : ∀ t, t.pos = s.pos + o.code.length → t.tests = s.tests →
      Must (Moves cells oracle) (Follows cells cx past fuel t (rest t.tests)) t) :
    Must (Moves cells oracle)
      (Follows cells cx past fuel s ((Course.doing as s.tests).next rest)) s := by
  refine must_follow_next ((ho s hs).mono fun t ht => .of_gets ht) fun t hpos htests => ?_
  have h := hrest t hpos htests
  rwa [htests] at h

/-- A run gets over a label. -/
theorem must_pass {l : String} {rest : List Cell}
    (hs : Holds cells s.pos (.plain (.label l) :: rest)) :
    Must (Moves cells oracle) (fun t => s.Gets (s.pos + 1) s.tests [] t ∧ s.clock < t.clock) s :=
  must_next hs.head rfl rfl rfl
    (.here ⟨.go s (.plain (Instr.label l)) (s.pos + 1) s.tests, Nat.lt_succ_self _⟩)

/-- What is done in one go is followed. -/
theorem must_follow_does {o : Outline} (ho : o.Does cells oracle as) (hp : s.pos = p)
    (hs : Holds cells p o.cells) :
    Must (Moves cells oracle)
      (Follows cells cx (p + o.code.length) fuel s (.doing as s.tests)) s := by
  subst hp
  exact (ho s hs).mono fun t ht => .of_gets ht

/-- A course is followed, and then a label is passed. -/
theorem must_follow_label {l : String} {rest : List Cell}
    (h : Must (Moves cells oracle) (Follows cells cx p fuel s c) s)
    (hs : Holds cells p (.plain (.label l) :: rest)) :
    Must (Moves cells oracle) (Follows cells cx (p + 1) fuel s c) s := by
  rw [← Course.next_done c]
  refine must_follow_next h fun t hpos htests => ?_
  rw [← hpos] at hs
  refine (must_pass hs).mono fun u hu => .of_gets ?_
  rw [← hpos, ← htests]
  exact hu.1

/-- A run that stands at a label passes it. -/
theorem must_follow_skip (cx : Context) (fuel : Nat) {l : String} {rest : List Cell}
    (hp : s.pos = p) (hs : Holds cells p (.plain (.label l) :: rest)) :
    Must (Moves cells oracle) (Follows cells cx (p + 1) fuel s (.doing [] s.tests)) s := by
  subst hp
  exact must_follow_label (.here (.of_gets (.refl s))) hs

/-- A run that stands at a label passes it, and follows the course behind it. -/
theorem must_follow_behind {l : String} {rest : List Cell} {course : Nat → Course} (hp : s.pos = p)
    (hs : Holds cells p (.plain (.label l) :: rest))
    (hrest : ∀ t, t.pos = p + 1 →
      Must (Moves cells oracle) (Follows cells cx past fuel t (course t.tests)) t) :
    Must (Moves cells oracle) (Follows cells cx past fuel s (course s.tests)) s := by
  have hnext : (Course.doing [] s.tests).next course = course s.tests := Course.next_doing ..
  rw [← hnext]
  exact must_follow_next (must_follow_skip cx fuel hp hs) fun t hpos htests => htests ▸ hrest t hpos

/-- A course is followed, and then a jump to a label that is passed. -/
theorem must_follow_jump (hm : Makes (cells.map Cell.instr) n m)
    (h : Must (Moves cells oracle) (Follows cells cx p fuel s c) s)
    {rest rest' : List Cell} {q : Nat} (hs : Holds cells p (.plain (.jump (labelName k)) :: rest))
    (hl : Holds cells q (.plain (.label (labelName k)) :: rest')) :
    Must (Moves cells oracle) (Follows cells cx (q + 1) fuel s c) s := by
  rw [← Course.next_done c]
  refine must_follow_next h fun t hpos htests => ?_
  rw [← hpos] at hs
  refine must_jump hm hs.head rfl rfl hl.instr ((must_pass hl).mono fun u hu => .of_gets ?_)
  have hall := (Control.Gets.go t (.plain (.jump (labelName k))) q t.tests).trans hu.1
  exact ⟨hall.pos_eq, hall.tests_eq.trans htests, hall.clock_le, hall.actions_eq⟩

/-- **The labels of the loop around a statement** are placed, and were made up. -/
def LoopPlaced (cells : List Cell) (cx : Context) : Prop :=
  ∀ l, cx.loop = some l → ∀ name, name = l.increment ∨ name = l.done →
    ∃ k, ∃ j : Nat, name = labelName k ∧ (cells.map Cell.instr)[j]? = some (.label name)

/-- **What a run finds in the code of a loop**, behind what the loop does before its first round:
the label of the condition at `top`, the body at `inside`, the label of the increments at `again`,
and the way back at `back`. -/
structure LoopCode (cells : List Cell) (oracle : Nat → Bool) (cx : Context) (start : Point)
    (c : Option Expr) (incs : List Expr) (body : Nat → Nat → Course)
    (top inside again back : Nat) : Prop where
  /-- The label of the condition. -/
  topLabel : Holds cells top [.plain (.label (labelName (start.labels + 1)))]
  /-- There may be no condition. -/
  unconditional : c = none → inside = top + 1
  /-- The condition decides between the body and the end. -/
  condition : ∀ e ∈ c, ∀ s : Control, s.pos = top + 1 → Must (Moves cells oracle)
    (s.Gets (if oracle s.tests then inside else back + 1) (s.tests + 1) [.test e.id]) s
  /-- The body is followed. -/
  round : ∀ fuel, ∀ s : Control, s.pos = inside → Must (Moves cells oracle)
    (Follows cells (cx.inLoop start) again fuel s (body fuel s.tests)) s
  /-- The label of the increments. -/
  againLabel : Holds cells again [.plain (.label (labelName (start.labels + 2)))]
  /-- The increments. -/
  increments : ∀ s : Control, s.pos = again + 1 → Must (Moves cells oracle)
    (s.Gets back s.tests (incs.map fun e => .evaluate e.id)) s
  /-- The way back to the condition, and the label of the end. -/
  wayBack : Holds cells back
    [.plain (.jump (labelName (start.labels + 1))), .plain (.label (labelName (start.labels + 3)))]

namespace LoopCode

variable {start : Point} {cond : Option Expr} {incs : List Expr} {body : Nat → Nat → Course}
  {top inside again back : Nat}

/-- At the end of a loop a run gets behind it. -/
theorem must_end (h : LoopCode cells oracle cx start cond incs body top inside again back)
    (hs : s.pos = back + 1) :
    Must (Moves cells oracle) (Follows cells cx (back + 2) fuel s (.doing [] s.tests)) s := by
  have hlabel := h.wayBack.tail
  rw [← hs] at hlabel
  refine (must_pass hlabel).mono fun t ht => .of_gets ?_
  rw [show back + 2 = s.pos + 1 by omega]
  exact ht.1

/-- Behind the body a run goes to the increments and back to the condition. -/
theorem must_repeat (hm : Makes (cells.map Cell.instr) n m)
    (h : LoopCode cells oracle cx start cond incs body top inside again back) (hs : s.pos = again) :
    Must (Moves cells oracle) (s.Gets top s.tests (incs.map fun e => .evaluate e.id)) s := by
  have hlabel := h.againLabel
  rw [← hs] at hlabel
  refine (must_pass hlabel).trans fun t ht => ?_
  have htpos : t.pos = again + 1 := by rw [ht.1.pos_eq, hs]
  refine (h.increments t htpos).trans fun u hu => ?_
  have hback := h.wayBack
  rw [← hu.pos_eq] at hback
  refine must_jump hm hback.head rfl rfl h.topLabel.instr (.here ?_)
  have hall :=
    (ht.1.trans hu).trans (.go u (.plain (.jump (labelName (start.labels + 1)))) top u.tests)
  refine ⟨hall.pos_eq, hall.tests_eq.trans (hu.tests_eq.trans ht.1.tests_eq), hall.clock_le,
    hall.actions_eq.trans ?_⟩
  simp [Cell.plain]

/-- **A round of a loop is followed**, and the rounds behind it, if these are followed from where
the condition is asked again. -/
theorem must_round (hm : Makes (cells.map Cell.instr) n m)
    (h : LoopCode cells oracle cx start cond incs body top inside again back)
    {rest : Nat → Course} (hs : s.pos = inside)
    (hrest : ∀ v : Control, v.pos = top → Must (Moves cells oracle)
      (Follows cells cx (back + 2) fuel v (rest v.tests)) v) :
    Must (Moves cells oracle) (Follows cells cx (back + 2) fuel s
      ((body fuel s.tests).round (incs.map fun e => .evaluate e.id) rest)) s := by
  refine (h.round fuel s hs).trans fun u hu => ?_
  have hplace := hu.place
  unfold EndsAt at hplace
  -- Behind the body the increments lead back to the condition.
  have hagain : u.pos = again → u.tests = (body fuel s.tests).tests →
      Must (Moves cells oracle) (Follows cells cx (back + 2) fuel s
        ((Course.doing ((body fuel s.tests).actions ++ incs.map fun e => .evaluate e.id)
          (body fuel s.tests).tests).next rest)) u := by
    intro hpos htests
    refine (h.must_repeat hm hpos).trans fun v hv => ?_
    have hactions : v.actions =
        s.actions ++ ((body fuel s.tests).actions ++ incs.map fun e => .evaluate e.id) := by
      rw [hv.actions_eq, hu.actions_eq, List.append_assoc]
    have hgets : s.Gets top v.tests
        ((body fuel s.tests).actions ++ incs.map fun e => .evaluate e.id) v :=
      ⟨hv.pos_eq, rfl, hu.clock_le.trans hv.clock_le, hactions⟩
    refine (hrest v hv.pos_eq).mono fun w hw => ?_
    rw [Course.next_doing, ← htests, ← hv.tests_eq]
    exact hw.behind hgets
  unfold Course.round
  cases hway : (body fuel s.tests).way with
  | through =>
    rw [hway] at hplace
    exact hagain hplace.1 hplace.2
  | «continue» =>
    rw [hway] at hplace
    exact hagain (hm.position_unique hplace.1 h.againLabel.instr) hplace.2
  | «break» =>
    rw [hway] at hplace
    have hpos : u.pos = back + 1 := hm.position_unique hplace.1 h.wayBack.tail.instr
    have hend :
        Must (Moves cells oracle) (Follows cells cx (back + 2) fuel u (.doing [] u.tests)) u :=
      h.must_end hpos
    refine hend.mono fun v hv => ?_
    have hgets : s.Gets (back + 1) u.tests (body fuel s.tests).actions u :=
      ⟨hpos, rfl, hu.clock_le, hu.actions_eq⟩
    have hall := hv.behind hgets
    rw [hplace.2] at hall
    simpa [Course.doing] using hall
  | «return» =>
    rw [hway] at hplace
    exact .here ⟨hu.actions_eq, hu.clock_le, by rw [EndsAt, hway]; exact hplace⟩
  | cut =>
    rw [hway] at hplace
    exact .here ⟨hu.actions_eq, hu.clock_le, by rw [EndsAt, hway]; exact hplace⟩

/-- **The rounds of a loop are followed.** By induction on the number of rounds: a run that comes to
the condition again has taken a step at least. -/
theorem must_follow (hm : Makes (cells.map Cell.instr) n m)
    (h : LoopCode cells oracle cx start cond incs body top inside again back)
    (fuel : Nat) {s : Control} (hs : s.pos = top) :
    Must (Moves cells oracle) (Follows cells cx (back + 2) fuel s
      (Stmt.rounds oracle cond incs body fuel s.tests)) s := by
  induction fuel generalizing s with
  | zero => exact .here ⟨(List.append_nil _).symm, Nat.le_refl _, Nat.le_refl _⟩
  | succ fuel ih =>
    have hround : ∀ t : Control, t.pos = inside →
        Must (Moves cells oracle) (Follows cells cx (back + 2) fuel t
          ((body fuel t.tests).round (incs.map fun e => .evaluate e.id)
            (Stmt.rounds oracle cond incs body fuel))) t :=
      fun t ht => h.must_round hm ht fun v hv => ih hv
    have hlabel := h.topLabel
    rw [← hs] at hlabel
    refine (must_pass hlabel).trans fun t ht => ?_
    have htpos : t.pos = top + 1 := by rw [ht.1.pos_eq, hs]
    have hlater : ∀ {c : Course} {u : Control}, Follows cells cx (back + 2) fuel t c u →
        Follows cells cx (back + 2) (fuel + 1) s c u := fun hu => hu.later ht.1.actions_eq ht.2
    unfold Stmt.rounds
    cases hcond : cond with
    | none =>
      have hinside : t.pos = inside := htpos.trans (h.unconditional hcond).symm
      subst hcond
      refine (hround t hinside).mono fun u hu => hlater ?_
      rw [ht.1.tests_eq] at hu
      exact hu
    | some e =>
      refine (h.condition e hcond t htpos).trans fun u hu => ?_
      subst hcond
      rw [ht.1.tests_eq] at hu
      dsimp only
      rw [Course.next_doing]
      cases ho : oracle s.tests with
      | true =>
        rw [ho, if_pos rfl] at hu
        refine (hround u hu.pos_eq).mono fun v hv => hlater ?_
        rw [hu.tests_eq] at hv
        simpa using hv.behind hu
      | false =>
        rw [ho, if_neg Bool.false_ne_true] at hu
        have hend :
            Must (Moves cells oracle) (Follows cells cx (back + 2) fuel u (.doing [] u.tests)) u :=
          h.must_end hu.pos_eq
        refine hend.mono fun v hv => hlater ?_
        rw [hu.tests_eq] at hv
        simpa using hv.behind hu

end LoopCode

end Emission

/-! ### Statements -/

namespace Stmt

variable {P : Ty → Prop} {cells : List Cell} {oracle : Nat → Bool} {n m : Nat} {site : Site}

/-- **A statement is followed**: a run that enters the code of the statement must follow its course,
for any number of rounds. -/
def Followed (P : Ty → Prop) (cells : List Cell) (oracle : Nat → Bool) (st : Stmt) : Prop :=
  ∀ (fuel : Nat) ⦃cx : Context⦄ ⦃pt : Point⦄ ⦃inLoop : Bool⦄ ⦃p : Nat⦄ ⦃s : Control⦄,
    st.Stands P cx pt inLoop → s.pos = p → Holds cells p (st.outline cx pt).cells →
      LoopPlaced cells cx → Must (Moves cells oracle)
        (Follows cells cx (p + (st.outline cx pt).code.length) fuel s
          (st.course oracle fuel s.tests)) s

/-- As `Followed`, for several statements. -/
def AllFollowed (P : Ty → Prop) (cells : List Cell) (oracle : Nat → Bool) (ss : List Stmt) : Prop :=
  ∀ (fuel : Nat) ⦃cx : Context⦄ ⦃pt : Point⦄ ⦃inLoop : Bool⦄ ⦃p : Nat⦄ ⦃s : Control⦄,
    AllStand P cx pt inLoop ss → s.pos = p → Holds cells p (outlineAll cx pt ss).cells →
      LoopPlaced cells cx → Must (Moves cells oracle)
        (Follows cells cx (p + (outlineAll cx pt ss).code.length) fuel s
          (courseOfAll oracle ss fuel s.tests)) s

/-- The code of a loop is what a run finds there. -/
theorem loopCode (hm : Makes (cells.map Cell.instr) n m) {cx : Context}
    {start : Point} {id : NodeId} {c : Option Expr} {incs : List Expr} {body : Stmt}
    (h : Round P cx start c incs body) {top : Nat}
    (hbody : body.Followed P cells oracle)
    (hs : Holds cells top (Outline.ofCode [.label (labelName (start.labels + 1))] ++
      (loopTestOutline cx (start.move 0 3) id (labelName (start.labels + 3)) c ++
      (body.outline (cx.inLoop start) (start.move 0 (3 + Expr.labelCountOfOption c)) ++
      (Outline.ofCode [.label (labelName (start.labels + 2))] ++
      (Expr.effectOutlineOfAll cx ((start.move 0 (3 + Expr.labelCountOfOption c)).move
        (body.usage cx.types).locals body.labelCount) incs ++
      .ofCode [.jump (labelName (start.labels + 1)),
        .label (labelName (start.labels + 3))]))))).cells) :
    ∃ inside again back,
      LoopCode cells oracle cx start c incs (body.course oracle) top inside again back ∧
      back + 2 = top + (Outline.ofCode [.label (labelName (start.labels + 1))] ++
        (loopTestOutline cx (start.move 0 3) id (labelName (start.labels + 3)) c ++
        (body.outline (cx.inLoop start) (start.move 0 (3 + Expr.labelCountOfOption c)) ++
        (Outline.ofCode [.label (labelName (start.labels + 2))] ++
        (Expr.effectOutlineOfAll cx ((start.move 0 (3 + Expr.labelCountOfOption c)).move
          (body.usage cx.types).locals body.labelCount) incs ++
        .ofCode [.jump (labelName (start.labels + 1)),
          .label (labelName (start.labels + 3))]))))).code.length := by
  simp only [Outline.cells_append, Outline.cells_ofCode, List.map_cons, List.map_nil] at hs
  have htest := hs.right
  have hinside := htest.right
  have hagain := hinside.right
  have hincs := hagain.right
  have hback := hincs.right
  simp only [Outline.length_cells, List.length_cons, List.length_nil,
    Nat.zero_add] at htest hinside hagain hincs hback
  refine ⟨top + 1 +
    (loopTestOutline cx (start.move 0 3) id (labelName (start.labels + 3)) c).code.length, _, _,
    ⟨hs.left, ?_, ?_, ?_, hagain.left, ?_, hback⟩, ?_⟩
  · rintro rfl
    rfl
  · intro e he s hpos
    obtain ⟨t, ht, -⟩ := h.condition e he
    cases he
    have hcode := htest.left
    have hlabel := hback.tail.instr
    rw [← hpos] at hcode hlabel ⊢
    exact Expr.must_test hm ht.1 (moving_keep _ _).plain hcode hlabel
  · intro fuel s hpos
    refine hbody fuel (h.body.move 0 (3 + Expr.labelCountOfOption c)) hpos hinside.left
      fun l hl name hname => ?_
    cases hl
    rcases hname with rfl | rfl
    · exact ⟨_, _, rfl, hagain.instr⟩
    · exact ⟨_, _, rfl, hback.tail.instr⟩
  · intro s hpos
    have hcode := hincs.left
    rw [← hpos] at hcode ⊢
    exact Expr.does_effects hm h.increments s hcode
  · simp only [Outline.code_append, Outline.code_ofCode, List.length_append, List.length_cons,
      List.length_nil]
    omega

theorem followed_block (hP : Ty.Stable P) (hm : Makes (cells.map Cell.instr) n m)
    {ds : List VarDecl} {body : List Stmt} (hbody : AllFollowed P cells oracle body) :
    (block site ds body).Followed P cells oracle := by
  intro fuel cx pt inLoop p s h hp hs hl
  obtain ⟨hds, -, hstands⟩ := h.block hP
  unfold outline at hs ⊢
  simp only [Outline.cells_statement, Outline.code_piece, Outline.cells_append,
    Outline.code_append, List.length_append, ← Nat.add_assoc] at hs ⊢
  subst hp
  have hright := hs.right
  rw [Outline.length_cells] at hright
  exact must_follow_doing (VarDecl.does_outlineAll hm hds) hs.left fun t ht htests =>
    hbody fuel hstands ht hright hl

theorem followed_evaluation (hm : Makes (cells.map Cell.instr) n m) (e : Expr) :
    (evaluation site e).Followed P cells oracle := by
  intro fuel cx pt inLoop p s h hp hs hl
  obtain ⟨t, ht⟩ := h.typed
  unfold outline at hs ⊢
  rw [Outline.cells_statement] at hs
  rw [Outline.code_piece]
  exact must_follow_does (Expr.does_effect hm ht.1) hp hs

theorem followed_write (hm : Makes (cells.map Cell.instr) n m) (args : List Expr)
    (newline : Bool) : (write site args newline).Followed P cells oracle := by
  intro fuel cx pt inLoop p s h hp hs hl
  have hline :
      (if newline then Outline.piece (.action (.endLine site.id)) (.ofCode [.call "println"])
      else .done).Does cells oracle (if newline then [.endLine site.id] else []) := by
    split
    · exact does_endLine hm site.id
    · exact .done
  unfold outline at hs ⊢
  rw [Outline.cells_statement] at hs
  rw [Outline.code_piece]
  exact must_follow_does ((Expr.does_print hm h.typed).append hline) hp hs

theorem followed_ifThen (hm : Makes (cells.map Cell.instr) n m) {c : Expr} {t : Stmt}
    (ht : t.Followed P cells oracle) : (ifThen site c t).Followed P cells oracle := by
  intro fuel cx pt inLoop p s h hp hs hl
  obtain ⟨hc, -, hstands⟩ := h.ifThen
  unfold outline at hs ⊢
  simp only [Outline.cells_statement, Outline.code_piece, Outline.cells_append,
    Outline.code_append, Outline.cells_ofCode, Outline.code_ofCode, List.length_append,
    List.append_assoc, ← Nat.add_assoc] at hs ⊢
  have hthen := hs.right
  have hdone := hthen.right
  rw [Outline.length_cells] at hthen hdone
  rw [Outline.length_cells] at hdone
  subst hp
  refine (Expr.must_test hm hc.1 plain_nil hs.left hdone.instr).trans fun u hu => ?_
  rw [course, Course.next_doing]
  cases ho : oracle s.tests with
  | true =>
    rw [ho, if_pos rfl] at hu
    have hbranch := ht fuel (hstands.move 0 (1 + c.labelCount)) hu.pos_eq hthen.left hl
    refine (must_follow_label hbranch hdone).mono fun v hv => ?_
    rw [hu.tests_eq] at hv
    exact hv.behind hu
  | false =>
    rw [ho, if_neg Bool.false_ne_true] at hu
    refine (must_follow_skip cx fuel hu.pos_eq hdone).mono fun v hv => ?_
    rw [hu.tests_eq] at hv
    exact hv.behind hu

theorem followed_ifElse (hm : Makes (cells.map Cell.instr) n m) {c : Expr} {t e : Stmt}
    (ht : t.Followed P cells oracle) (he : e.Followed P cells oracle) :
    (ifElse site c t e).Followed P cells oracle := by
  intro fuel cx pt inLoop p s h hp hs hl
  obtain ⟨hc, -, hfirst, hsecond⟩ := h.ifElse
  unfold outline at hs ⊢
  simp only [Outline.cells_statement, Outline.code_piece, Outline.cells_append,
    Outline.code_append, Outline.cells_ofCode, Outline.code_ofCode, List.length_append,
    List.append_assoc, ← Nat.add_assoc] at hs ⊢
  have hthen := hs.right
  rw [Outline.length_cells] at hthen
  have hjump := hthen.right
  rw [Outline.length_cells] at hjump
  have helse := hjump.right
  have hdone := helse.right
  rw [Outline.length_cells] at hdone
  subst hp
  refine (Expr.must_test hm hc.1 plain_nil hs.left hjump.tail.instr).trans fun u hu => ?_
  rw [course, Course.next_doing]
  cases ho : oracle s.tests with
  | true =>
    rw [ho, if_pos rfl] at hu
    have hbranch := ht fuel (hfirst.move 0 (2 + c.labelCount)) hu.pos_eq hthen.left hl
    refine (must_follow_jump hm hbranch hjump hdone).mono fun v hv => ?_
    rw [hu.tests_eq] at hv
    exact hv.behind hu
  | false =>
    rw [ho, if_neg Bool.false_ne_true] at hu
    have hbranch :
        Must (Moves cells oracle) (Follows cells cx _ fuel u (e.course oracle fuel u.tests)) u :=
      must_follow_behind hu.pos_eq hjump.tail fun v hv =>
        must_follow_label (he fuel (hsecond.move (t.usage cx.types).locals
          (2 + c.labelCount + t.labelCount)) hv helse.left hl) hdone
    refine hbranch.mono fun v hv => ?_
    rw [hu.tests_eq] at hv
    exact hv.behind hu

theorem followed_forLoop (hP : Ty.Stable P) (hm : Makes (cells.map Cell.instr) n m)
    {inits : List LoopInit} {c : Option Expr} {incs : List Expr} {body : Stmt}
    (hbody : body.Followed P cells oracle) :
    (forLoop site inits c incs body).Followed P cells oracle := by
  intro fuel cx pt inLoop p s h hp hs hl
  obtain ⟨hinits, -, hround⟩ := h.forLoop hP
  unfold outline at hs ⊢
  simp only [Outline.cells_statement, Outline.code_piece, Outline.append_assoc] at hs ⊢
  rw [Outline.cells_append] at hs
  have hrounds := hs.right
  rw [Outline.length_cells] at hrounds
  subst hp
  obtain ⟨inside, again, back, hcode, hpast⟩ := loopCode hm hround hbody hrounds
  rw [Outline.code_append, List.length_append, ← Nat.add_assoc, ← hpast]
  exact must_follow_doing (LoopInit.does_outlineAll hm hinits) hs.left fun t ht _ =>
    hcode.must_follow hm fuel ht

theorem followed_break (hm : Makes (cells.map Cell.instr) n m) :
    (Stmt.break site).Followed P cells oracle := by
  intro fuel cx pt inLoop p s h hp hs hl
  obtain ⟨l, hloop⟩ := h.jump (.inl rfl)
  obtain ⟨k, j, hk, hj⟩ := hl l hloop l.done (.inr rfl)
  have hlabel := doneLabel_eq hloop
  unfold outline at hs ⊢
  rw [Outline.cells_statement, Outline.cells_ofCode, hlabel, hk] at hs
  rw [hk] at hj
  subst hp
  refine must_jump hm hs.head rfl rfl hj (.here ⟨rfl, Nat.le_succ _, ?_⟩)
  exact ⟨by rw [hlabel, hk]; exact hj, rfl⟩

theorem followed_continue (hm : Makes (cells.map Cell.instr) n m) :
    (Stmt.continue site).Followed P cells oracle := by
  intro fuel cx pt inLoop p s h hp hs hl
  obtain ⟨l, hloop⟩ := h.jump (.inr rfl)
  obtain ⟨k, j, hk, hj⟩ := hl l hloop l.increment (.inl rfl)
  have hlabel := incrementLabel_eq hloop
  unfold outline at hs ⊢
  rw [Outline.cells_statement, Outline.cells_ofCode, hlabel, hk] at hs
  rw [hk] at hj
  subst hp
  refine must_jump hm hs.head rfl rfl hj (.here ⟨rfl, Nat.le_succ _, ?_⟩)
  exact ⟨by rw [hlabel, hk]; exact hj, rfl⟩

theorem followed_return (hm : Makes (cells.map Cell.instr) n m) (v : Option Expr) :
    (Stmt.return site v).Followed P cells oracle := by
  intro fuel cx pt inLoop p s h hp hs hl
  have hvalue : ∀ (past : Nat) (value : Outline), value.Bare → Forward value.code →
      Holds cells s.pos (leaveOutline site.id value).cells →
      Must (Moves cells oracle)
        (Follows cells cx past fuel s ⟨.return, [.return site.id], s.tests⟩) s := by
    intro past value hb hf hs
    exact (must_leave hm hb hf hs).mono fun t ht => ⟨ht.2.2, ht.2.1, ht.1⟩
  subst hp
  unfold outline at hs ⊢
  rw [Outline.cells_statement] at hs
  cases v with
  | none => exact hvalue _ _ (.ofCode []) trivial hs
  | some v => exact hvalue _ _ (bare_return v).1 (bare_return v).2 hs

theorem allFollowed_cons {st : Stmt} {ss : List Stmt} (hst : st.Followed P cells oracle)
    (hss : AllFollowed P cells oracle ss) : AllFollowed P cells oracle (st :: ss) := by
  intro fuel cx pt inLoop p s h hp hs hl
  obtain ⟨hfirst, hrest⟩ := h.cons
  rw [outlineAll, Outline.cells_append] at hs
  rw [outlineAll, Outline.code_append, List.length_append, ← Nat.add_assoc]
  have hright := hs.right
  rw [Outline.length_cells] at hright
  refine must_follow_next (hst fuel hfirst hp hs.left hl) fun t ht htests => ?_
  rw [← htests]
  exact hss fuel (hrest _ _) ht hright hl

mutual

/-- **A run that enters the code of a statement must follow its course.** -/
theorem followed (hP : Ty.Stable P) (hm : Makes (cells.map Cell.instr) n m) :
    ∀ st : Stmt, st.Followed P cells oracle
  | .block _ _ body => followed_block hP hm (allFollowed hP hm body)
  | .evaluation _ e => followed_evaluation hm e
  | .write _ args newline => followed_write hm args newline
  | .ifThen _ _ t => followed_ifThen hm (followed hP hm t)
  | .ifElse _ _ t e => followed_ifElse hm (followed hP hm t) (followed hP hm e)
  | .forLoop _ _ _ _ body => followed_forLoop hP hm (followed hP hm body)
  | .break _ => followed_break hm
  | .continue _ => followed_continue hm
  | .return _ v => followed_return hm v

/-- As `followed`, for several statements. -/
theorem allFollowed (hP : Ty.Stable P) (hm : Makes (cells.map Cell.instr) n m) :
    ∀ ss : List Stmt, AllFollowed P cells oracle ss
  | [] => fun _ _ _ _ _ s _ hp _ _ => hp ▸ .here (.of_gets (.refl s))
  | st :: ss => allFollowed_cons (followed hP hm st) (allFollowed hP hm ss)

end

end Stmt

end PostfixCompiler
