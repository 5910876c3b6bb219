import PostfixCompiler.Proofs.Emission.Standing

/-!
# The course of a statement

What a statement does is a course of actions: the leaves of the statement are done one after the
other, a branch is taken or not, a loop goes from round to round until it is left. Which way a
condition goes is not decided here. An **oracle** says of each test, in the order in which they are
made, whether the value is zero or not.

A loop may have no end, so a course is followed only for a number of rounds, and is cut there. With
more rounds the same actions are done, and others behind them, so what a statement does without a
bound is known from its courses.

## Main definitions

* `PostfixCompiler.Course`: actions one after the other, and how they end.
* `PostfixCompiler.Stmt.course`: the course of a statement.
* `PostfixCompiler.Function.course`: the course of a function.
* `PostfixCompiler.Function.Performs`, `PostfixCompiler.Function.Returns`: what a function does
  without a bound.

## Main statements

* `PostfixCompiler.Stmt.course_upTo`: with more rounds a course goes on where it was cut.
* `PostfixCompiler.Stmt.course_allowed`: a course ends in a way that the check of control allows.
* `PostfixCompiler.Function.course_way`: a function is left by returning.
-/

namespace PostfixCompiler

/-- How the course of a statement ends. -/
inductive Way where
  /-- Control reaches what follows. -/
  | through
  /-- The innermost loop is left. -/
  | «break»
  /-- The innermost loop goes on with its increments. -/
  | «continue»
  /-- The function is left. -/
  | «return»
  /-- The course was cut before its end. -/
  | cut
deriving DecidableEq

/-- **What is done in the course of a statement.** -/
structure Course where
  /-- How the course ends. -/
  way : Way
  /-- What was done. -/
  actions : List Action
  /-- How many tests were made, from the start of the function on. -/
  tests : Nat

namespace Course

/-- Actions are done, and control reaches what follows. -/
def doing (actions : List Action) (tests : Nat) : Course := ⟨.through, actions, tests⟩

/-- What follows a course is done only if control gets there. -/
def next (c : Course) (rest : Nat → Course) : Course :=
  if c.way = .through then
    ⟨(rest c.tests).way, c.actions ++ (rest c.tests).actions, (rest c.tests).tests⟩
  else c

/-- **A round of a loop** ends where its course does, or goes on with the increments and the next
round. -/
def round (c : Course) (increments : List Action) (again : Nat → Course) : Course :=
  match c.way with
  | .through | .continue => (doing (c.actions ++ increments) c.tests).next again
  | .break => doing c.actions c.tests
  | .return | .cut => c

/-- **One course goes as far as another, or farther**: it is the same, unless the other was cut. -/
def UpTo (c d : Course) : Prop := c = d ∨ c.way = .cut ∧ c.actions <+: d.actions

theorem next_doing (as : List Action) (k : Nat) (rest : Nat → Course) :
    (doing as k).next rest = ⟨(rest k).way, as ++ (rest k).actions, (rest k).tests⟩ := by
  rw [next, doing, if_pos rfl]

theorem next_of_ne {c : Course} (h : c.way ≠ .through) (rest : Nat → Course) : c.next rest = c := by
  rw [next, if_neg h]

theorem next_done (c : Course) : c.next (doing []) = c := by
  obtain ⟨way, as, k⟩ := c
  by_cases h : way = .through
  · subst h
    rw [next, if_pos rfl, doing, List.append_nil]
  · exact next_of_ne h _

theorem UpTo.refl (c : Course) : c.UpTo c := .inl rfl

/-- Behind the same actions two courses compare as before. -/
theorem UpTo.behind {c d : Course} (h : c.UpTo d) (as : List Action) :
    (⟨c.way, as ++ c.actions, c.tests⟩ : Course).UpTo ⟨d.way, as ++ d.actions, d.tests⟩ := by
  rcases h with rfl | ⟨hcut, hpre⟩
  · exact .refl _
  · exact .inr ⟨hcut, (List.prefix_append_right_inj as).mpr hpre⟩

theorem UpTo.next {c d : Course} {rest rest' : Nat → Course} (h : c.UpTo d)
    (hrest : ∀ k, (rest k).UpTo (rest' k)) : (c.next rest).UpTo (d.next rest') := by
  rcases h with rfl | ⟨hcut, hpre⟩
  · by_cases hway : c.way = .through
    · rw [Course.next, Course.next, if_pos hway, if_pos hway]
      exact (hrest c.tests).behind c.actions
    · rw [next_of_ne hway, next_of_ne hway]
      exact .refl c
  · rw [next_of_ne (by rw [hcut]; simp)]
    refine .inr ⟨hcut, ?_⟩
    rw [Course.next]
    split
    · exact hpre.trans (List.prefix_append _ _)
    · exact hpre

theorem UpTo.round {c d : Course} {increments : List Action}
    {again again' : Nat → Course} (h : c.UpTo d) (hagain : ∀ k, (again k).UpTo (again' k)) :
    (c.round increments again).UpTo (d.round increments again') := by
  rcases h with rfl | ⟨hcut, hpre⟩
  · unfold Course.round
    split
    · exact .next (.refl _) hagain
    · exact .next (.refl _) hagain
    all_goals exact .refl _
  · have hc : c.round increments again = c := by rw [Course.round, hcut]
    rw [hc]
    refine .inr ⟨hcut, ?_⟩
    unfold Course.round
    split
    · exact hpre.trans (next_doing .. ▸ (List.prefix_append _ _).trans (List.prefix_append _ _))
    · exact hpre.trans (next_doing .. ▸ (List.prefix_append _ _).trans (List.prefix_append _ _))
    all_goals exact hpre

end Course

/-! ### Local variables -/

/-- What is done when local variables are declared. -/
def VarDecl.actions (d : VarDecl) : List Action :=
  if d.initializer.isSome then [.initial d.id] else []

/-- What a loop does in a step before its first round. -/
def LoopInit.actions : LoopInit → List Action
  | .declare d => d.actions
  | .evaluate e => [.evaluate e.id]

/-! ### Statements -/

namespace Stmt

section Rounds

variable (oracle : Nat → Bool) (c : Option Expr) (incs : List Expr) (body : Nat → Nat → Course)

/-- **The rounds of a loop**, as far as `fuel` allows: before each the condition is tested, and
behind each the increments are evaluated. -/
def rounds : Nat → Nat → Course
  | 0, k => ⟨.cut, [], k⟩
  | fuel + 1, k =>
    let round (k : Nat) : Course :=
      (body fuel k).round (incs.map fun e => .evaluate e.id) (rounds fuel)
    match c with
    | none => round k
    | some c => (Course.doing [.test c.id] (k + 1)).next fun k' =>
        if oracle k then round k' else .doing [] k'

end Rounds

mutual

/-- **The course of a statement**, as far as `fuel` rounds of a loop allow, if `k` tests were made
before. -/
def course (oracle : Nat → Bool) : Stmt → Nat → Nat → Course
  | .block _ ds body, fuel, k =>
      (Course.doing (ds.flatMap VarDecl.actions) k).next (courseOfAll oracle body fuel)
  | .evaluation _ e, _, k => .doing [.evaluate e.id] k
  | .write site args newline, _, k =>
    .doing ((args.map fun e => .print e.id) ++ if newline then [.endLine site.id] else []) k
  | .ifThen _ c t, fuel, k =>
    (Course.doing [.test c.id] (k + 1)).next fun k' =>
      if oracle k then t.course oracle fuel k' else .doing [] k'
  | .ifElse _ c t e, fuel, k =>
    (Course.doing [.test c.id] (k + 1)).next fun k' =>
      if oracle k then t.course oracle fuel k' else e.course oracle fuel k'
  | .forLoop _ inits c incs body, fuel, k =>
    (Course.doing (inits.flatMap LoopInit.actions) k).next (rounds oracle c incs
      (body.course oracle) fuel)
  | .break _, _, k => ⟨.break, [], k⟩
  | .continue _, _, k => ⟨.continue, [], k⟩
  | .return site _, _, k => ⟨.return, [.return site.id], k⟩

/-- The course of statements, one after the other. -/
def courseOfAll (oracle : Nat → Bool) : List Stmt → Nat → Nat → Course
  | [], _, k => .doing [] k
  | st :: ss, fuel, k => (st.course oracle fuel k).next (courseOfAll oracle ss fuel)

end

/-! ### More rounds -/

variable {oracle : Nat → Bool}

theorem rounds_upTo {c : Option Expr} {incs : List Expr} {body : Nat → Nat → Course}
    (hbody : ∀ m n k, m ≤ n → (body m k).UpTo (body n k)) (m n k : Nat) (h : m ≤ n) :
    (rounds oracle c incs body m k).UpTo (rounds oracle c incs body n k) := by
  induction m generalizing n k with
  | zero => exact .inr ⟨rfl, List.nil_prefix⟩
  | succ m ih =>
    obtain _ | n := n
    · cases h
    have hle := Nat.le_of_succ_le_succ h
    have hround : ∀ k,
        ((body m k).round (incs.map fun e => .evaluate e.id) (rounds oracle c incs body m)).UpTo
        ((body n k).round (incs.map fun e => .evaluate e.id) (rounds oracle c incs body n)) :=
      fun k => (hbody m n k hle).round fun k => ih n k hle
    unfold rounds
    cases c with
    | none => exact hround k
    | some c =>
      refine Course.UpTo.next (.refl _) fun k' => ?_
      split
      · exact hround k'
      · exact .refl _

mutual

/-- **With more rounds a course goes on where it was cut.** -/
theorem course_upTo :
    ∀ (st : Stmt) (m n k : Nat), m ≤ n → (st.course oracle m k).UpTo (st.course oracle n k)
  | .block _ ds body, m, n, k, h => .next (.refl _) fun k => courseOfAll_upTo body m n k h
  | .ifThen _ c t, m, n, k, h => by
    refine .next (.refl _) fun k' => ?_
    split
    · exact course_upTo t m n k' h
    · exact .refl _
  | .ifElse _ c t e, m, n, k, h => by
    refine .next (.refl _) fun k' => ?_
    split
    · exact course_upTo t m n k' h
    · exact course_upTo e m n k' h
  | .forLoop _ inits c incs body, m, n, k, h =>
    .next (.refl _) fun k => rounds_upTo (fun m n k => course_upTo body m n k) m n k h
  | .evaluation .., _, _, _, _ | .write .., _, _, _, _ | .break _, _, _, _, _
  | .continue _, _, _, _, _ | .return .., _, _, _, _ => .refl _

/-- As `course_upTo`, for several statements. -/
theorem courseOfAll_upTo : ∀ (ss : List Stmt) (m n k : Nat), m ≤ n →
    (courseOfAll oracle ss m k).UpTo (courseOfAll oracle ss n k)
  | [], _, _, _, _ => .refl _
  | st :: ss, m, n, k, h => .next (course_upTo st m n k h) fun k => courseOfAll_upTo ss m n k h

end

/-! ### Ways out -/

/-- **A way that the check of control allows**: what follows is not reached if every path jumps or
returns, and no loop is left where there is none. -/
structure Allowed (inLoop : Bool) (x : Exits) (way : Way) : Prop where
  /-- What follows is not reached if every path jumps or returns. -/
  stops : x.jumps = true ∨ x.returns = true → way ≠ .through
  /-- There is a loop to be left. -/
  loop : inLoop = false → way ≠ .break ∧ way ≠ .continue

variable {inLoop : Bool} {x y : Exits}

/-- A way that does not reach what follows is allowed whatever paths there are. -/
theorem Allowed.of_ne {way : Way} (h : Allowed inLoop x way) (hway : way ≠ .through) :
    Allowed inLoop y way :=
  ⟨fun _ => hway, h.loop⟩

theorem allowed_through : Allowed inLoop .through .through :=
  ⟨by simp [Exits.through], fun _ => ⟨by simp, by simp⟩⟩

theorem Allowed.next {c : Course} {rest : Nat → Course} (hc : Allowed inLoop x c.way)
    (hrest : ∀ k, Allowed inLoop y (rest k).way) : Allowed inLoop y (c.next rest).way := by
  by_cases h : c.way = .through
  · rw [Course.next, if_pos h]
    exact hrest c.tests
  · rw [Course.next_of_ne h]
    exact hc.of_ne h

/-- A loop is left behind its end, or together with the function. -/
theorem allowed_rounds {c : Option Expr} {incs : List Expr} {body : Nat → Nat → Course}
    (inLoop : Bool) (fuel k : Nat) :
    Allowed inLoop .through (rounds oracle c incs body fuel k).way := by
  induction fuel generalizing k with
  | zero => exact ⟨by simp [rounds], fun _ => by simp [rounds]⟩
  | succ fuel ih =>
    have hround : ∀ k, Allowed inLoop .through
        ((body fuel k).round (incs.map fun e => .evaluate e.id)
          (rounds oracle c incs body fuel)).way := by
      intro k
      unfold Course.round
      split
      · exact allowed_through.next ih
      · exact allowed_through.next ih
      · exact allowed_through
      all_goals
        rename_i hway
        rw [hway]
        exact ⟨by simp, fun _ => by simp⟩
    unfold rounds
    cases c with
    | none => exact hround k
    | some c =>
      refine allowed_through.next fun k' => ?_
      split
      · exact hround k'
      · exact allowed_through

theorem Allowed.either {way : Way} (h : Allowed inLoop x way ∨ Allowed inLoop y way) :
    Allowed inLoop (x.either y) way := by
  rcases h with h | h
  · exact ⟨fun hxy => h.stops (by simp [Exits.either] at hxy; tauto), h.loop⟩
  · exact ⟨fun hxy => h.stops (by simp [Exits.either] at hxy; tauto), h.loop⟩

mutual

/-- **A course ends in a way that the check of control allows.** -/
theorem course_allowed : ∀ {st : Stmt} {inLoop : Bool} {x : Exits}, st.exits inLoop = .ok x →
    ∀ fuel k, Allowed inLoop x (st.course oracle fuel k).way
  | .block _ ds body, inLoop, x, h, fuel, k => courseOfAll_allowed h allowed_through fuel
  | .evaluation .., _, _, h, _, _ | .write .., _, _, h, _, _ => by
    cases h
    exact allowed_through
  | .ifThen _ c t, inLoop, x, h, fuel, k => by
    obtain ⟨y, hy, h⟩ := bind_eq_ok.mp h
    cases h
    refine allowed_through.next fun k' => ?_
    split
    · exact ⟨by simp [Exits.through], (course_allowed hy fuel k').loop⟩
    · exact allowed_through
  | .ifElse _ c t e, inLoop, x, h, fuel, k => by
    obtain ⟨y, hy, h⟩ := bind_eq_ok.mp h
    obtain ⟨z, hz, h⟩ := bind_eq_ok.mp h
    cases h
    refine allowed_through.next fun k' => .either ?_
    split
    · exact .inl (course_allowed hy fuel k')
    · exact .inr (course_allowed hz fuel k')
  | .forLoop _ inits c incs body, inLoop, x, h, fuel, k => by
    obtain ⟨y, hy, h⟩ := bind_eq_ok.mp h
    cases h
    exact allowed_through.next fun k => allowed_rounds inLoop fuel k
  | .break _, inLoop, x, h, _, _ | .continue _, inLoop, x, h, _, _ => by
    rw [exits] at h
    split at h
    · rename_i hin
      exact ⟨fun _ => by simp [course], fun hout => by simp [hin] at hout⟩
    · cases h
  | .return .., _, _, _, _, _ => ⟨fun _ => by simp [course], fun _ => by simp [course]⟩

/-- As `course_allowed`, for several statements behind a course. -/
theorem courseOfAll_allowed : ∀ {ss : List Stmt} {inLoop : Bool} {x before : Exits} {c : Course},
    exitsOfAll inLoop before ss = .ok x → Allowed inLoop before c.way →
      ∀ fuel, Allowed inLoop x (c.next (courseOfAll oracle ss fuel)).way
  | [], inLoop, x, before, c, h, hc, fuel => by
    cases h
    by_cases hway : c.way = .through
    · rw [hway] at hc
      rw [Course.next, if_pos hway]
      exact hc
    · rw [Course.next_of_ne hway]
      exact hc
  | st :: ss, inLoop, x, before, c, h, hc, fuel => by
    obtain ⟨_, -, h⟩ := bind_eq_ok.mp h
    obtain ⟨y, hy, h⟩ := bind_eq_ok.mp h
    exact hc.next fun k => courseOfAll_allowed h (course_allowed hy fuel k) fuel

end

end Stmt

/-! ### Functions -/

namespace Function

/-- **The course of a function**, as far as `fuel` rounds of a loop allow: one without a result
returns when its body ends. -/
def course (oracle : Nat → Bool) (T : TypeTable) (f : Function) (fuel : Nat) : Course :=
  (f.body.stmt.course oracle fuel 0).next fun k =>
    if T.typeOf f.signature.id = .void then ⟨.return, [.return f.signature.id], k⟩ else .doing [] k

/-- With more rounds the course of a function goes on where it was cut. -/
theorem course_upTo {oracle : Nat → Bool} {T : TypeTable} (f : Function) {m n : Nat} (h : m ≤ n) :
    (f.course oracle T m).UpTo (f.course oracle T n) :=
  .next (f.body.stmt.course_upTo m n 0 h) fun _ => .refl _

/-- **A function is left by returning**, or not at all. -/
theorem course_way {oracle : Nat → Bool} {T : TypeTable} {f : Function} {R : Ty}
    (hflow : f.checkFlow R = .ok ()) (hR : T.typeOf f.signature.id = R) (fuel : Nat) :
    (f.course oracle T fuel).way = .return ∨ (f.course oracle T fuel).way = .cut := by
  obtain ⟨x, hx, hreturns⟩ := exists_exits hflow
  have hallowed : Stmt.Allowed false x (f.body.stmt.course oracle fuel 0).way :=
    Stmt.course_allowed hx fuel 0
  unfold course
  generalize f.body.stmt.course oracle fuel 0 = c at hallowed ⊢
  by_cases hway : c.way = .through
  · have hvoid : R = .void := by
      by_contra hne
      exact hallowed.stops (.inr (hreturns hne)) hway
    rw [Course.next, if_pos hway, if_pos (hR.trans hvoid)]
    exact .inl rfl
  · rw [Course.next_of_ne hway]
    obtain ⟨hbreak, hcontinue⟩ := hallowed.loop rfl
    cases h : c.way with
    | through => exact absurd h hway
    | «break» => exact absurd h hbreak
    | «continue» => exact absurd h hcontinue
    | «return» => exact .inl rfl
    | cut => exact .inr rfl

/-- **What a function performs**: some of the actions that are its course, from the first on. -/
def Performs (oracle : Nat → Bool) (T : TypeTable) (f : Function) (as : List Action) : Prop :=
  ∃ fuel, as <+: (f.course oracle T fuel).actions

/-- **A function returns** when it has done what is its course. -/
def Returns (oracle : Nat → Bool) (T : TypeTable) (f : Function) (as : List Action) : Prop :=
  ∃ fuel, (f.course oracle T fuel).way = .return ∧ (f.course oracle T fuel).actions = as

end Function

end PostfixCompiler
