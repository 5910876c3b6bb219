import PostfixCompiler.Flow.Track
import PostfixCompiler.Proofs.Outcome

/-!
# When control is in order

The check of the flow of a function keeps two marks, that control returned and that it left the
block, and these mean the same outside of loops only. What the check decides can be said without
them. A statement **completes normally** if control may get behind it; a function is in order if
each jump in it stands in a loop of it, if in each of its blocks every statement but the last
completes normally, and if its body completes normally only where no result is wanted.

The exits of a statement and its being in order are told together, by induction on the statement:
that control left the block says that the statement does not complete, and outside of loops control
cannot leave the block but by a return.

## Main definitions

* `PostfixCompiler.Stmt.Completes`: control may get behind a statement.
* `PostfixCompiler.Stmt.Contains`: what stands in a statement, and whether it stands in a loop
  there.
* `PostfixCompiler.Stmt.InOrder`, `PostfixCompiler.Function.InOrder`.

## Main statements

* `PostfixCompiler.Stmt.exits_spec`: exactly the statements that are in order have exits.
* `PostfixCompiler.Stmt.track_spec`: the walk through a statement finds its exits, from any marks.
* `PostfixCompiler.Function.flow_accepted_iff`: exactly the functions that are in order are
  accepted.
-/

namespace PostfixCompiler

open PostfixCompiler.Flow

/-! ### Statements in order -/

namespace Stmt

/-- **A statement completes normally** if control may get behind it. A return, a `break` and a
`continue` never do; a condition may fail, and a loop may end. -/
inductive Completes : Stmt → Prop where
  /-- A block completes if all of its statements do. -/
  | block {site : Site} {ds : List VarDecl} {body : List Stmt} (h : ∀ s ∈ body, s.Completes) :
    Completes (.block site ds body)
  /-- One of two branches completes, the first one. -/
  | thenBranch {site : Site} {c : Expr} {t e : Stmt} (h : t.Completes) :
      Completes (.ifElse site c t e)
  /-- One of two branches completes, the second one. -/
  | elseBranch {site : Site} {c : Expr} {t e : Stmt} (h : e.Completes) :
      Completes (.ifElse site c t e)
  /-- A statement under a condition completes. -/
  | ifThen (site : Site) (c : Expr) (t : Stmt) : Completes (.ifThen site c t)
  /-- A loop completes. -/
  | forLoop (site : Site) (inits : List LoopInit) (c : Option Expr) (incs : List Expr)
      (body : Stmt) :
    Completes (.forLoop site inits c incs body)
  /-- An evaluation completes. -/
  | evaluation (site : Site) (e : Expr) : Completes (.evaluation site e)
  /-- A write completes. -/
  | write (site : Site) (args : List Expr) (newline : Bool) : Completes (.write site args newline)

/-- The statement leaves a round of a loop. -/
def isJump : Stmt → Bool
  | .break _ | .continue _ => true
  | _ => false

/-- **What stands in a statement**, the statement itself included; the flag says whether it stands
in the body of a loop of the statement. -/
inductive Contains : Stmt → Bool → Stmt → Prop where
  /-- The statement itself. -/
  | self (s : Stmt) : Contains s false s
  /-- What stands in a statement of a block. -/
  | block {site : Site} {ds : List VarDecl} {body : List Stmt} {s u : Stmt} {b : Bool}
      (hs : s ∈ body)
    (h : s.Contains b u) : Contains (.block site ds body) b u
  /-- What stands under a condition. -/
  | ifThen {site : Site} {c : Expr} {t u : Stmt} {b : Bool} (h : t.Contains b u) :
      Contains (.ifThen site c t) b u
  /-- What stands in the first branch. -/
  | thenBranch {site : Site} {c : Expr} {t e u : Stmt} {b : Bool} (h : t.Contains b u) :
    Contains (.ifElse site c t e) b u
  /-- What stands in the second branch. -/
  | elseBranch {site : Site} {c : Expr} {t e u : Stmt} {b : Bool} (h : e.Contains b u) :
    Contains (.ifElse site c t e) b u
  /-- What stands in the body of a loop. -/
  | forLoop {site : Site} {inits : List LoopInit} {c : Option Expr} {incs : List Expr}
      {body u : Stmt} {b : Bool}
    (h : body.Contains b u) : Contains (.forLoop site inits c incs body) true u

/-- **Control is in order in a statement**, which stands in a loop or not. -/
structure InOrder (inLoop : Bool) (s : Stmt) : Prop where
  /-- Jumps stand in loops. -/
  jumps : ∀ b u, s.Contains b u → u.isJump = true → inLoop = true ∨ b = true
  /-- In a block every statement but the last completes. -/
  blocks : ∀ b site ds body, s.Contains b (.block site ds body) → ∀ u ∈ body.dropLast, u.Completes

variable {inLoop : Bool} {site : Site} {ds : List VarDecl} {c : Expr} {t e : Stmt}

theorem completes_block {body : List Stmt} :
    Completes (.block site ds body) ↔ ∀ s ∈ body, s.Completes := by
  refine ⟨fun h => ?_, .block⟩
  cases h with
  | block h => exact h

theorem completes_ifElse : Completes (.ifElse site c t e) ↔ t.Completes ∨ e.Completes := by
  constructor
  · intro h
    cases h with
    | thenBranch h => exact .inl h
    | elseBranch h => exact .inr h
  · rintro (h | h)
    · exact .thenBranch h
    · exact .elseBranch h

theorem inOrder_block {body : List Stmt} : InOrder inLoop (.block site ds body) ↔
    (∀ s ∈ body, s.InOrder inLoop) ∧ ∀ s ∈ body.dropLast, s.Completes := by
  constructor
  · intro h
    exact ⟨fun s hs =>
      ⟨fun b u hu => h.jumps b u (.block hs hu), fun b _ _ _ hu => h.blocks b _ _ _ (.block hs hu)⟩,
      h.blocks false site ds body (.self _)⟩
  · rintro ⟨hbody, hlast⟩
    constructor
    · intro b u hu hjump
      cases hu with
      | self => cases hjump
      | block hs hu => exact (hbody _ hs).jumps b u hu hjump
    · intro b _ _ _ hu
      cases hu with
      | self => exact hlast
      | block hs hu => exact (hbody _ hs).blocks b _ _ _ hu

theorem inOrder_ifThen : InOrder inLoop (.ifThen site c t) ↔ t.InOrder inLoop := by
  constructor
  · intro h
    exact ⟨fun b u hu => h.jumps b u (.ifThen hu), fun b _ _ _ hu => h.blocks b _ _ _ (.ifThen hu)⟩
  · intro h
    constructor
    · intro b u hu hjump
      cases hu with
      | self => cases hjump
      | ifThen hu => exact h.jumps b u hu hjump
    · intro b _ _ _ hu
      cases hu with
      | ifThen hu => exact h.blocks b _ _ _ hu

theorem inOrder_ifElse :
    InOrder inLoop (.ifElse site c t e) ↔ t.InOrder inLoop ∧ e.InOrder inLoop := by
  constructor
  · intro h
    exact ⟨⟨fun b u hu => h.jumps b u (.thenBranch hu), fun b _ _ _ hu =>
      h.blocks b _ _ _ (.thenBranch hu)⟩,
      ⟨fun b u hu => h.jumps b u (.elseBranch hu), fun b _ _ _ hu =>
        h.blocks b _ _ _ (.elseBranch hu)⟩⟩
  · rintro ⟨ht, he⟩
    constructor
    · intro b u hu hjump
      cases hu with
      | self => cases hjump
      | thenBranch hu => exact ht.jumps b u hu hjump
      | elseBranch hu => exact he.jumps b u hu hjump
    · intro b _ _ _ hu
      cases hu with
      | thenBranch hu => exact ht.blocks b _ _ _ hu
      | elseBranch hu => exact he.blocks b _ _ _ hu

/-- In the body of a loop every jump is allowed. -/
theorem inOrder_forLoop {inits : List LoopInit} {c : Option Expr} {incs : List Expr} {body : Stmt} :
    InOrder inLoop (.forLoop site inits c incs body) ↔ body.InOrder true := by
  constructor
  · intro h
    exact ⟨fun _ _ _ _ => .inl rfl, fun b _ _ _ hu => h.blocks true _ _ _ (.forLoop hu)⟩
  · intro h
    constructor
    · intro b u hu hjump
      cases hu with
      | self => cases hjump
      | forLoop hu => exact .inr rfl
    · intro b _ _ _ hu
      cases hu with
      | forLoop hu => exact h.blocks _ _ _ _ hu

/-- A statement without parts is in order, unless it is a jump outside of loops. -/
theorem inOrder_of_leaf {s : Stmt} (hleaf : ∀ b u, s.Contains b u → u = s)
    (hblock : ∀ site ds body, s ≠ .block site ds body) :
    s.InOrder inLoop ↔ (s.isJump = true → inLoop = true) := by
  constructor
  · intro h hjump
    rcases h.jumps false s (.self s) hjump with h | h
    · exact h
    · cases h
  · intro h
    exact ⟨fun b u hu hjump => .inl (h (hleaf b u hu ▸ hjump)),
      fun b site ds body hu => absurd (hleaf b _ hu).symm (hblock site ds body)⟩

/-- A statement that is no jump and has no parts is in order. -/
theorem inOrder_through {s : Stmt} (hleaf : ∀ b u, s.Contains b u → u = s)
    (hblock : ∀ site ds body, s ≠ .block site ds body) (hjump : s.isJump = false) :
    s.InOrder inLoop :=
  (inOrder_of_leaf hleaf hblock).mpr fun h => by
    rw [hjump] at h
    cases h

/-! ### The exits of statements in order -/

/-- **Exits that fit a statement** which completes normally or not. Where it does not, control
leaves the block, and outside of loops only by a return. -/
structure Fits (inLoop : Bool) (completes : Prop) (x : Exits) : Prop where
  /-- Control leaves the block exactly if the statement does not complete. -/
  jumps : x.jumps = false ↔ completes
  /-- A return leaves the block. -/
  returns : x.returns = true → x.jumps = true
  /-- Outside of loops nothing but a return leaves the block. -/
  outside : inLoop = false → x.jumps = true → x.returns = true

variable {P Q : Prop} {x y : Exits}

theorem Fits.congr (h : Fits inLoop P x) (hPQ : P ↔ Q) : Fits inLoop Q x :=
  ⟨h.jumps.trans hPQ, h.returns, h.outside⟩

theorem fits_through (h : P) : Fits inLoop P .through := ⟨iff_of_true rfl h, nofun, fun _ => nofun⟩

theorem fits_byReturn (h : ¬P) : Fits inLoop P .byReturn :=
  ⟨iff_of_false (by decide) h, fun _ => rfl, fun _ _ => rfl⟩

theorem fits_byJump (h : ¬P) : Fits true P .byJump :=
  ⟨iff_of_false (by decide) h, fun _ => rfl, nofun⟩

theorem Fits.either (hx : Fits inLoop P x) (hy : Fits inLoop Q y) :
    Fits inLoop (P ∨ Q) (x.either y) := by
  refine ⟨?_, fun h => ?_, fun hin h => ?_⟩
  · rw [← hx.jumps, ← hy.jumps]
    exact Bool.and_eq_false_iff
  · obtain ⟨hxr, hyr⟩ := Bool.and_eq_true_iff.mp h
    exact Bool.and_eq_true_iff.mpr ⟨hx.returns hxr, hy.returns hyr⟩
  · obtain ⟨hxj, hyj⟩ := Bool.and_eq_true_iff.mp h
    exact Bool.and_eq_true_iff.mpr ⟨hx.outside hin hxj, hy.outside hin hyj⟩

/-- What stands behind a statement is reached exactly if the statement completes. -/
theorem Fits.reachable (h : Fits inLoop P x) (s : Stmt) :
    match reachable x s with | .ok () => P | .error _ => ¬P := by
  rw [Stmt.reachable]
  cases hr : x.returns
  · cases hj : x.jumps
    · exact h.jumps.mp hj
    · exact fun hP => by simp [h.jumps.mpr hP] at hj
  · have hj := h.returns hr
    exact fun hP => by simp [h.jumps.mpr hP] at hj

/-- What a check of exits says of a statement that is in order or not, and completes or not. -/
def Decides (inLoop : Bool) (inOrder completes : Prop) : Except Error Exits → Prop
  | .ok x => inOrder ∧ Fits inLoop completes x
  | .error _ => ¬inOrder

/-- A check that goes on behind a part of the statement. -/
theorem Decides.bind {b : Bool} {r : Except Error Exits}
    {f : Exits → Except Error Exits} {O O' : Prop} (h : Decides b O' Q r) (hO : O → O')
    (hf : O' → ∀ x, Fits b Q x → Decides inLoop O P (f x)) :
    Decides inLoop O P (r >>= f) := by
  cases r with
  | error e => exact fun ho => h (hO ho)
  | ok x => exact hf h.1 x h.2

/-- The statements of a list but the last, where there is one in front. -/
theorem forall_mem_dropLast_cons {p : Stmt → Prop} {s : Stmt} {ss : List Stmt} :
    (∀ u ∈ (s :: ss).dropLast, p u) ↔ (ss ≠ [] → p s) ∧ ∀ u ∈ ss.dropLast, p u := by
  cases ss with
  | nil => simp
  | cons t ss => simp [List.dropLast_cons_of_ne_nil]

mutual

/-- **Exactly the statements that are in order have exits**, and these fit. -/
theorem exits_spec :
    ∀ (s : Stmt) (inLoop : Bool), Decides inLoop (s.InOrder inLoop) s.Completes (s.exits inLoop)
  | .block site ds body, inLoop => by
    -- Nothing stands before the first statement of a block.
    have hbody := exitsOfAll_spec body inLoop True .through (fits_through trivial)
    rw [exits]
    cases hx : exitsOfAll inLoop .through body with
    | error e =>
      rw [hx] at hbody
      exact fun h => hbody ⟨fun _ => trivial, inOrder_block.mp h⟩
    | ok x =>
      rw [hx] at hbody
      exact ⟨inOrder_block.mpr hbody.1.2,
        hbody.2.congr ((and_iff_right trivial).trans completes_block.symm)⟩
  | .return site v, inLoop =>
    ⟨inOrder_through (fun _ _ h => by cases h; rfl) nofun rfl, fits_byReturn nofun⟩
  | .break site, inLoop | .continue site, inLoop => by
    rw [exits]
    cases inLoop with
    | false =>
      intro h
      rcases h.jumps false _ (.self _) rfl with h | h <;> cases h
    | true =>
      refine ⟨(inOrder_of_leaf ?_ fun _ _ _ h => by cases h).mpr fun _ => rfl, fits_byJump nofun⟩
      intro _ _ h
      cases h
      rfl
  | .ifThen site c t, inLoop => by
    rw [exits]
    refine (exits_spec t inLoop).bind inOrder_ifThen.mp fun ht x _ => ?_
    exact ⟨inOrder_ifThen.mpr ht, fits_through (.ifThen site c t)⟩
  | .ifElse site c t e, inLoop => by
    rw [exits]
    refine (exits_spec t inLoop).bind (fun h => (inOrder_ifElse.mp h).1) fun ht x hx => ?_
    refine (exits_spec e inLoop).bind (fun h => (inOrder_ifElse.mp h).2) fun he y hy => ?_
    exact ⟨inOrder_ifElse.mpr ⟨ht, he⟩, (hx.either hy).congr completes_ifElse.symm⟩
  | .forLoop site inits c incs body, inLoop => by
    rw [exits]
    refine (exits_spec body true).bind inOrder_forLoop.mp fun hbody x _ => ?_
    exact ⟨inOrder_forLoop.mpr hbody, fits_through (.forLoop site inits c incs body)⟩
  | .evaluation site e, inLoop =>
    ⟨inOrder_through (fun _ _ h => by cases h; rfl) nofun rfl, fits_through (.evaluation site e)⟩
  | .write site args newline, inLoop =>
    ⟨inOrder_through (fun _ _ h => by cases h; rfl) nofun rfl,
      fits_through (.write site args newline)⟩

/-- As `exits_spec`, for several statements behind something that completes or not. -/
theorem exitsOfAll_spec :
    ∀ (ss : List Stmt) (inLoop : Bool) (P : Prop) (before : Exits), Fits inLoop P before →
    Decides inLoop ((ss ≠ [] → P) ∧ (∀ s ∈ ss, s.InOrder inLoop) ∧ ∀ s ∈ ss.dropLast, s.Completes)
      (P ∧ ∀ s ∈ ss, s.Completes) (exitsOfAll inLoop before ss)
  | [], inLoop, P, before, hbefore => by
    refine ⟨⟨fun h => absurd rfl h, by simp, by simp⟩, hbefore.congr ?_⟩
    simp
  | s :: ss, inLoop, P, before, hbefore => by
    rw [exitsOfAll]
    -- The first statement is reached exactly if `P` holds, and the others exactly if it completes
    -- itself.
    have hreach := hbefore.reachable s
    simp only [List.forall_mem_cons, forall_mem_dropLast_cons]
    cases hr : Stmt.reachable before s with
    | error e =>
      rw [hr] at hreach
      exact fun h => hreach (h.1 (List.cons_ne_nil s ss))
    | ok _ =>
      rw [hr] at hreach
      have hP : P := hreach
      refine (exits_spec s inLoop).bind (fun h => h.2.1.1) fun hs x hx => ?_
      have hrest := exitsOfAll_spec ss inLoop s.Completes x hx
      cases hy : exitsOfAll inLoop x ss with
      | error e =>
        rw [hy] at hrest
        exact fun h => hrest ⟨h.2.2.1, h.2.1.2, h.2.2.2⟩
      | ok y =>
        rw [hy] at hrest
        exact ⟨⟨fun _ => hP, ⟨hs, hrest.1.2.1⟩, hrest.1.1, hrest.1.2.2⟩,
          hrest.2.congr (and_iff_right hP).symm⟩

end

/-! ### The walk through statements -/

/-- **A walk finds what the check of exits says**: the exits, with as many loops open as before, or
the fault. -/
def Tracks (loops : Nat) : Except Error Exits → EStateM.Result Error Marks Unit → Prop
  | .ok x, .ok () m => m = ⟨x, loops⟩
  | .error e, .error e' m => e = e' ∧ m.loops = loops
  | _, _ => False

/-- A walk goes on behind a part of the statement as the check of exits does. -/
theorem Tracks.bind {loops : Nat} {r : Except Error Exits} {f : Exits → Except Error Exits}
    {work : TrackM Unit} {rest : Unit → TrackM Unit} {m : Marks} (h : Tracks loops r (work m))
    (hf : ∀ x, Tracks loops (f x) (rest () ⟨x, loops⟩)) :
    Tracks loops (r >>= f) ((work >>= rest) m) := by
  change Tracks loops (r >>= f) (EStateM.bind work rest m)
  unfold EStateM.bind
  cases r <;> cases hm : work m <;> rw [hm] at h
  · exact h.elim
  · exact h
  · cases h
    exact hf _
  · exact h.elim

/-- The walk through the body of a loop. -/
theorem Tracks.loopBody {loops : Nat} {x : Exits} {r : Except Error Exits} {body : TrackM Unit}
    (h : Tracks (loops + 1) r (body ⟨.through, loops + 1⟩)) :
    Tracks loops r (Flow.inLoop body ⟨x, loops⟩) := by
  unfold Flow.inLoop
  cases r <;> cases hm : body ⟨.through, loops + 1⟩ <;> rw [hm] at h
  · exact h.elim
  · exact ⟨h.1, congrArg (· - 1) h.2⟩
  · cases h
    rfl
  · exact h.elim

/-- Jumps stand in loops. -/
theorem tracks_jump (loops : Nat) (line : UInt32) (f : FlowFault) :
    Tracks loops (if decide (loops ≠ 0) = true then .ok .byJump else .error (.flow line f))
      (jump line f ⟨.through, loops⟩) := by
  cases loops with
  | zero => exact ⟨rfl, rfl⟩
  | succ loops => exact (rfl : (⟨Exits.byJump, loops + 1⟩ : Marks) = _)

/-- A statement is reached or not; the marks stay as they were. -/
theorem reach_eq (s : Stmt) (m : Marks) :
    reach s m = match s.reachable m.exits with | .ok () => .ok () m | .error e => .error e m := by
  change (match s.reachable m.exits with
    | .ok () => pure ()
    | .error e => throw e : TrackM Unit) m = _
  cases s.reachable m.exits <;> rfl

mutual

/-- **The walk through a statement finds its exits**, or the fault in it, and leaves the loops that
it opens. -/
theorem track_spec :
    ∀ (s : Stmt) (loops : Nat), Tracks loops (s.exits (loops ≠ 0)) (s.track ⟨.through, loops⟩)
  | .block _ _ body, loops => by
    rw [exits, track]
    exact trackAll_spec body ⟨.through, loops⟩
  | .return _ _, loops => by
    rw [exits, track]
    exact (rfl : (⟨Exits.byReturn, loops⟩ : Marks) = _)
  | .break _, loops | .continue _, loops => by
    rw [exits, track]
    exact tracks_jump loops _ _
  | .ifThen _ _ t, loops => by
    rw [exits, track]
    exact (track_spec t loops).bind fun _ => rfl
  | .ifElse _ _ t e, loops => by
    rw [exits, track]
    exact (track_spec t loops).bind fun x => (track_spec e loops).bind fun y => rfl
  | .forLoop _ _ _ _ body, loops => by
    have hbody := track_spec body (loops + 1)
    rw [exits, track]
    exact (Tracks.loopBody hbody).bind fun _ => rfl
  | .evaluation _ _, _ | .write _ _ _, _ => by
    rw [exits, track]
    rfl

/-- As `track_spec`, for several statements behind something. -/
theorem trackAll_spec : ∀ (ss : List Stmt) (m : Marks),
    Tracks m.loops (exitsOfAll (m.loops ≠ 0) m.exits ss) (trackAll ss m)
  | [], m => rfl
  | s :: ss, ⟨before, loops⟩ => by
    rw [exitsOfAll, trackAll]
    change Tracks loops _ (EStateM.bind (reach s) _ _)
    rw [EStateM.bind, reach_eq]
    dsimp only
    cases hr : reachable before s with
    | error e => exact ⟨rfl, rfl⟩
    | ok _ =>
      -- What is reached is reached without exits.
      obtain rfl : before = .through := by
        obtain ⟨returns, jumps⟩ := before
        cases returns <;> cases jumps <;> first | rfl | cases hr
      exact (track_spec s loops).bind fun x => trackAll_spec ss ⟨x, loops⟩

end

end Stmt

/-! ### Functions -/

/-- **Control is in order in a function** whose result has type `R`. -/
structure Function.InOrder (f : Function) (R : Ty) : Prop where
  /-- Control is in order in the body. -/
  body : f.body.stmt.InOrder false
  /-- A function with a result does not run off its end. -/
  ends : R = .void ∨ ¬f.body.stmt.Completes

namespace Function

variable {f : Function} {R : Ty}

/-- A body that is in order runs off its end exactly if it completes. -/
theorem inOrder_iff_of_exits {x : Exits} (hx : f.body.stmt.exits false = .ok x) :
    f.InOrder R ↔ ¬(R ≠ .void ∧ (!x.returns) = true) := by
  have hspec := f.body.stmt.exits_spec false
  rw [hx] at hspec
  obtain ⟨hbody, hfits⟩ := hspec
  have hreturns : x.returns = true ↔ ¬f.body.stmt.Completes := by
    rw [← hfits.jumps, Bool.not_eq_false]
    exact ⟨hfits.returns, hfits.outside rfl⟩
  rw [Bool.not_eq_true', ← Bool.not_eq_true, hreturns, not_and_or, not_not, not_not]
  exact ⟨InOrder.ends, fun hends => ⟨hbody, hends⟩⟩

theorem not_inOrder_of_exits {e : Error} (hx : f.body.stmt.exits false = .error e) :
    ¬f.InOrder R := by
  have hspec := f.body.stmt.exits_spec false
  rw [hx] at hspec
  exact fun h => hspec h.body

/-- The walk through a function begins with fresh marks. -/
theorem track_eq (m : Marks) : f.track R m =
    EStateM.bind f.body.stmt.track (fun _ m => if R ≠ .void ∧ !m.exits.returns then
      .error (.flow f.signature.line (.missingReturn f.signature.name)) m else .ok ()
        m) .fresh := by
  change EStateM.bind f.body.stmt.track _ .fresh = _
  refine congrArg (EStateM.bind f.body.stmt.track · Marks.fresh)
    (funext fun _ => funext fun m => ?_)
  change (if R ≠ .void ∧ !m.exits.returns then
    throw (.flow f.signature.line (.missingReturn f.signature.name)) else pure () :
        TrackM Unit) m = _
  split <;> rfl

/-- **Exactly the functions in which control is in order are accepted**, by the exits of their body
and on a walk through it, whatever marks are left from the functions before. -/
theorem flow_accepted_iff (f : Function) (R : Ty) (m : Marks) :
    (f.checkFlow R = .ok () ↔ f.InOrder R) ∧ ((∃ m', f.track R m = .ok () m') ↔ f.InOrder R) := by
  have htrack := f.body.stmt.track_spec 0
  rw [track_eq, checkFlow]
  unfold EStateM.bind
  change Stmt.Tracks 0 (f.body.stmt.exits false) (f.body.stmt.track .fresh) at htrack
  cases hx : f.body.stmt.exits false <;> cases hm : f.body.stmt.track .fresh <;>
    rw [hx, hm] at htrack
  · exact htrack.elim
  · exact ⟨iff_of_false nofun (not_inOrder_of_exits hx),
      iff_of_false nofun (not_inOrder_of_exits hx)⟩
  · cases htrack
    rw [inOrder_iff_of_exits hx]
    change ((if _ then .error _ else .ok ()) = Except.ok () ↔ _) ∧ _
    dsimp only
    split
    · rename_i hfault
      exact ⟨iff_of_false nofun (not_not_intro hfault), iff_of_false nofun (not_not_intro hfault)⟩
    · rename_i hfault
      exact ⟨iff_of_true rfl hfault, iff_of_true ⟨_, rfl⟩ hfault⟩
  · exact htrack.elim

end Function

end PostfixCompiler
