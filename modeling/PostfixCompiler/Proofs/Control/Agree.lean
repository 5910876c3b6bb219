import PostfixCompiler.Proofs.Control.Follow
import PostfixCompiler.Proofs.Machine.UnitHeight

/-!
# Runs agree with the course of their function

A run of the code of a function, from where its frame is set up, does what is the course of the
function, and nothing else: what it has done at any time is a start of the course, it can always go
on until it has done more, and it stands at the end of the function exactly if the function returns.
All this follows from one fact, that a run must follow the course for any number of rounds.

Whatever way a run takes, an oracle can be found for it. So control never gets behind the code of a
function, since no course ends there.

## Main definitions

* `PostfixCompiler.Emission.Runs`: a run from a position of code.
* `PostfixCompiler.Function.Agrees`: runs agree with the course of a function.

## Main statements

* `PostfixCompiler.runs_agree`: runs of a function of an accepted unit agree with its course.
* `PostfixCompiler.never_runs_off`: no way through the code of a function leads behind it.
-/

namespace PostfixCompiler

open Emission

/-! ### Functions -/

namespace Emission

theorem Holds.get {cells part : List Cell} {p i : Nat} {c : Cell} (h : Holds cells p part)
    (hi : part[i]? = some c) : cells[p + i]? = some c := by
  obtain ⟨rest, hrest⟩ := h
  obtain ⟨hlt, -⟩ := List.getElem?_eq_some_iff.mp hi
  rw [← List.getElem?_drop, ← hrest, List.getElem?_append_left hlt, hi]

end Emission

namespace Function

variable {P : Ty → Prop} {T : TypeTable} {config : Config} {scope : View Symbol}
  {f : Function} {R : Ty}
  {cells : List Cell} {oracle : Nat → Bool} {n m k p : Nat} {s : Control}

/-- Behind the body of a function without a result a run returns. -/
theorem must_follow_tail (hm : Makes (cells.map Cell.instr) n m) {cx : Context} (fuel : Nat)
    (hp : s.pos = p) (hs : Holds cells p (f.tail T).cells) :
    Must (Moves cells oracle) (Follows cells cx (p + (f.tail T).code.length) fuel s
      (if T.typeOf f.signature.id = .void then ⟨.return, [.return f.signature.id], s.tests⟩
        else .doing [] s.tests)) s := by
  subst hp
  unfold tail at hs ⊢
  split
  · rw [if_pos ‹_›] at hs
    exact (must_leave hm (.ofCode []) trivial hs).mono fun t ht => ⟨ht.2.2, ht.2.1, ht.1⟩
  · exact .here (.of_gets (.refl s))

/-- **A run of a function must follow its course.** -/
theorem must_follow (hP : Ty.Stable P) (hm : Makes (cells.map Cell.instr) n m)
    (hΓ : View.Settled P scope.meanings) (h : f.Typed P T scope.meanings R) (hw : f.WellPlaced)
    (hs : Holds cells p (f.outline T config scope k).cells) (fuel : Nat)
    (hpos : s.pos = p + f.start T config scope) (htests : s.tests = 0) :
    Must (Moves cells oracle) (Follows cells (f.context T config)
      (p + (f.outline T config scope k).code.length) fuel s (f.course oracle T fuel)) s := by
  unfold outline at hs ⊢
  simp only [Outline.cells_function, Outline.code_piece, Outline.cells_append, Outline.code_append,
    Outline.cells_ofCode, Outline.code_ofCode, List.length_append,
    List.append_assoc, ← Nat.add_assoc] at hs ⊢
  have hbody := hs.right
  have htail := hbody.right
  rw [List.length_map] at hbody htail
  rw [Outline.length_cells] at htail
  have henter : cells[s.pos]? = some (.plain (.enter (f.frame T).frameSize)) := by
    rw [hpos]
    exact hs.left.get (by rw [List.getElem?_map, getElem?_head]; rfl)
  refine must_next henter rfl rfl rfl ?_
  have hgets := Control.Gets.go s (.plain (.enter (f.frame T).frameSize)) (s.pos + 1) s.tests
  generalize s.go (.plain (.enter (f.frame T).frameSize)) (s.pos + 1) s.tests = t at hgets ⊢
  have htpos : t.pos = p + (f.head T config scope).length := by
    rw [hgets.pos_eq, hpos, length_head, Nat.add_assoc]
  have hbody : Must (Moves cells oracle)
      (Follows cells (f.context T config) (p + (f.head T config scope).length +
      (f.body.stmt.outline (f.context T config) (f.entry T scope k)).code.length) fuel t
      (f.body.stmt.course oracle fuel 0)) t := by
    rw [← htests, ← hgets.tests_eq]
    exact Stmt.followed hP hm _ fuel (f.stands hP hΓ h hw) htpos hbody.left fun l hl => by cases hl
  have hcourse : Must (Moves cells oracle) (Follows cells (f.context T config)
      (p + (f.head T config scope).length +
        (f.body.stmt.outline (f.context T config) (f.entry T scope k)).code.length +
          (f.tail T).code.length)
      fuel t (f.course oracle T fuel)) t := by
    refine must_follow_next hbody fun u hu hutests => ?_
    rw [← hutests]
    exact must_follow_tail hm fuel hu htail
  exact hcourse.mono fun u hu => hu.behind hgets

end Function

/-! ### Agreement -/

namespace Emission

variable {cells : List Cell} {oracle : Nat → Bool} {s t : Control}

/-- Where a run starts. -/
def Control.begin (start : Nat) : Control := ⟨start, 0, 0, []⟩

/-- **A run from a position of code** is in some state. -/
def Runs (cells : List Cell) (oracle : Nat → Bool) (start : Nat) (s : Control) : Prop :=
  Relation.ReflTransGen (Moves cells oracle) (.begin start) s

theorem Cell.instr_of_test {c : Cell} {l : String} (h : c.test? = some l) :
    c.instr = .jumpIfZero l := by
  unfold test? at h
  split at h
  · cases h
    assumption
  · cases h

/-- Time goes on, tests are counted, and what was done stays done. -/
theorem Moves.le (h : Moves cells oracle s t) :
    s.clock < t.clock ∧ s.tests ≤ t.tests ∧ s.actions <+: t.actions := by
  cases h with
  | zero | nonzero => exact ⟨Nat.lt_succ_self _, Nat.le_succ _, List.prefix_append _ _⟩
  | free => exact ⟨Nat.lt_succ_self _, Nat.le_refl _, List.prefix_append _ _⟩

theorem le_of_reaches (h : Relation.ReflTransGen (Moves cells oracle) s t) :
    s.clock ≤ t.clock ∧ s.actions <+: t.actions := by
  induction h with
  | refl => exact ⟨Nat.le_refl _, List.prefix_rfl⟩
  | tail _ hmove ih => exact ⟨ih.1.trans hmove.le.1.le, ih.2.trans hmove.le.2.2⟩

/-- At the end of a function a run does not go on. -/
theorem Control.Returning.eq_of_reaches (h : s.Returning cells)
    (hr : Relation.ReflTransGen (Moves cells oracle) s t) : t = s := by
  rcases hr.cases_head with rfl | ⟨u, hmove, -⟩
  · rfl
  · exfalso
    cases hmove with
    | zero hc ht | nonzero hc ht =>
      have hi := (getElem?_instr hc).symm.trans h
      rw [Cell.instr_of_test ht] at hi
      cases hi
    | free hc _ he =>
      cases he with
      | next hx hgo =>
        cases hx.symm.trans h
        cases hgo
      | jump hx htarget =>
        cases hx.symm.trans h
        cases htarget

/-- **A run that is not older than its course** still must follow it. -/
theorem must_of_reaches {cx : Context} {past fuel : Nat} {c : Course}
    (hway : c.way = .return ∨ c.way = .cut)
    (h : Must (Moves cells oracle) (Follows cells cx past fuel s c) s)
    (hr : Relation.ReflTransGen (Moves cells oracle) s t) (hfuel : t.clock < s.clock + fuel) :
    Must (Moves cells oracle) (Follows cells cx past fuel s c) t := by
  rcases h.of_reaches hr with ⟨u, hu, hfollows⟩ | h
  · have hplace := hfollows.place
    unfold EndsAt at hplace
    rcases hway with hway | hway <;> rw [hway] at hplace
    · cases Control.Returning.eq_of_reaches hplace hu
      exact .here hfollows
    · have hle := (le_of_reaches hu).1
      dsimp only at hplace
      omega
  · exact h

end Emission

namespace Function

/-- **Runs agree with the course of a function.** -/
structure Agrees (cells : List Cell) (oracle : Nat → Bool) (start : Nat) (T : TypeTable)
    (f : Function) : Prop where
  /-- What was done in a run is a start of the course. -/
  performs : ∀ s, Runs cells oracle start s → f.Performs oracle T s.actions
  /-- A run goes on until it has done any given start of the course. -/
  performed : ∀ s, Runs cells oracle start s → ∀ as, f.Performs oracle T as →
    ∃ t, Relation.ReflTransGen (Moves cells oracle) s t ∧ as <+: t.actions
  /-- A run that is at the end of the function has done all of a course that returns. -/
  returns : ∀ s, Runs cells oracle start s → s.Returning cells → f.Returns oracle T s.actions
  /-- If the course returns, a run goes on until it is at the end of the function. -/
  returned : ∀ s, Runs cells oracle start s → ∀ as, f.Returns oracle T as →
    ∃ t, Relation.ReflTransGen (Moves cells oracle) s t ∧ t.Returning cells ∧ t.actions = as

variable {cells : List Cell} {oracle : Nat → Bool} {start : Nat} {T : TypeTable} {f : Function}

/-- **Runs that must follow a course agree with it.** -/
theorem agrees_of_must {cx : Context} {past : Nat}
    (hway : ∀ fuel, (f.course oracle T fuel).way = .return ∨ (f.course oracle T fuel).way = .cut)
    (h : ∀ fuel, Must (Moves cells oracle)
      (Follows cells cx past fuel (.begin start) (f.course oracle T fuel)) (.begin start)) :
    f.Agrees cells oracle start T := by
  -- A run can always go on until it has followed the course for any number of rounds.
  have hgo : ∀ s, Runs cells oracle start s → ∀ fuel, s.clock < fuel →
      ∃ t, Relation.ReflTransGen (Moves cells oracle) s t ∧
      t.actions = (f.course oracle T fuel).actions ∧
        ((f.course oracle T fuel).way = .return ∧ t.Returning cells ∨
          (f.course oracle T fuel).way = .cut ∧ fuel ≤ t.clock) := by
    intro s hs fuel hfuel
    have hclock : s.clock < (Control.begin start).clock + fuel := by
      rw [Control.begin, Nat.zero_add]
      exact hfuel
    obtain ⟨t, ht, hfollows⟩ := (must_of_reaches (hway fuel) (h fuel) hs hclock).exists_reaches
    refine ⟨t, ht, hfollows.actions_eq, ?_⟩
    have hplace := hfollows.place
    unfold EndsAt at hplace
    rcases hway fuel with hw | hw <;> rw [hw] at hplace
    · exact .inl ⟨hw, hplace⟩
    · exact .inr ⟨hw, by simpa [Control.begin] using hplace⟩
  refine ⟨fun s hs => ?_, fun s hs as has => ?_, fun s hs hreturning => ?_, fun s hs as has => ?_⟩
  · obtain ⟨t, ht, hactions, -⟩ := hgo s hs (s.clock + 1) (Nat.lt_succ_self _)
    exact ⟨s.clock + 1, hactions ▸ (le_of_reaches ht).2⟩
  · obtain ⟨fuel, hpre⟩ := has
    obtain ⟨t, ht, hactions, -⟩ := hgo s hs (max fuel (s.clock + 1)) (by omega)
    refine ⟨t, ht, hactions ▸ hpre.trans ?_⟩
    rcases f.course_upTo (T := T) (Nat.le_max_left fuel (s.clock + 1)) with heq | ⟨-, hle⟩
    · exact heq ▸ List.prefix_rfl
    · exact hle
  · obtain ⟨t, ht, hactions, hend⟩ := hgo s hs (s.clock + 1) (Nat.lt_succ_self _)
    cases hreturning.eq_of_reaches ht
    rcases hend with ⟨hw, -⟩ | ⟨-, hle⟩
    · exact ⟨s.clock + 1, hw, hactions.symm⟩
    · omega
  · obtain ⟨fuel, hw, hall⟩ := has
    obtain ⟨t, ht, hactions, hend⟩ := hgo s hs (max fuel (s.clock + 1)) (by omega)
    have heq : f.course oracle T fuel = f.course oracle T (max fuel (s.clock + 1)) := by
      refine (f.course_upTo (Nat.le_max_left fuel (s.clock + 1))).resolve_right fun hcut => ?_
      rw [hw] at hcut
      cases hcut.1
    rw [← heq] at hactions hend
    rcases hend with ⟨-, hreturning⟩ | ⟨hcut, -⟩
    · exact ⟨t, ht, hreturning, hactions.trans hall⟩
    · rw [hw] at hcut
      cases hcut

end Function

/-! ### Ways through code -/

namespace Emission

variable {cells : List Cell} {oracle oracle' : Nat → Bool} {start : Nat} {s t : Control}

/-- A step asks the oracle about one test at most. -/
theorem Moves.congr (h : Moves cells oracle s t) (ho : ∀ k < t.tests, oracle k = oracle' k) :
    Moves cells oracle' s t := by
  cases h with
  | zero hc ht hzero hl => exact .zero hc ht ((ho _ (Nat.lt_succ_self _)).symm.trans hzero) hl
  | nonzero hc ht hone => exact .nonzero hc ht ((ho _ (Nat.lt_succ_self _)).symm.trans hone)
  | free hc ht he => exact .free hc ht he

/-- A run asks the oracle about the tests that were made. -/
theorem Runs.congr (h : Runs cells oracle start s) (ho : ∀ k < s.tests, oracle k = oracle' k) :
    Runs cells oracle' start s := by
  induction h with
  | refl => exact .refl
  | tail _ hmove ih => exact (ih fun k hk => ho k (hk.trans_le hmove.le.2.1)).tail (hmove.congr ho)

/-- **For any way through code there is an oracle** with which a run takes it. -/
theorem exists_runs {p q : Nat} (h : Relation.ReflTransGen (Edge (cells.map Cell.instr)) p q) :
    ∃ oracle s, Runs cells oracle p s ∧ s.pos = q := by
  induction h with
  | refl => exact ⟨fun _ => false, .begin p, .refl, rfl⟩
  | @tail i j _ he ih =>
    obtain ⟨oracle, s, hs, rfl⟩ := ih
    obtain ⟨x, hx⟩ : ∃ x, (cells.map Cell.instr)[s.pos]? = some x := by
      cases he with
      | next hx | jump hx => exact ⟨_, hx⟩
    rw [List.getElem?_map] at hx
    obtain ⟨c, hc, rfl⟩ := Option.map_eq_some_iff.mp hx
    -- What the oracle says of tests that were not made yet does not matter.
    have hchange : ∀ b, Runs cells (Function.update oracle s.tests b) p s := fun b =>
      hs.congr fun k hk => (Function.update_of_ne hk.ne b oracle).symm
    cases ht : c.test? with
    | none => exact ⟨oracle, _, hs.tail (.free hc ht he), rfl⟩
    | some l =>
      cases he with
      | next =>
        exact ⟨_, _, (hchange true).tail (.nonzero hc ht (Function.update_self ..)), rfl⟩
      | @jump _ y l' hy htarget hl =>
        have hi := (getElem?_instr hc).symm.trans hy
        rw [Cell.instr_of_test ht] at hi
        cases hi
        cases htarget
        exact ⟨_, _, (hchange false).tail (.zero hc ht (Function.update_self ..) hl), rfl⟩

end Emission

/-! ### Units -/

section Unit

variable {nodes : Array Node} {root : NodeId} {t : SyntaxTree} {T : TypeTable} {σ : SymbolTable}
  {config : Config} {before after : List Decl} {f : Function}

/-- **Runs of a function of an accepted unit agree with its course**, whatever the oracle says: the
actions that the code begins are those of the function, in the same order, and a run gets to the end
of the function exactly if the function returns. -/
theorem runs_agree (h : SyntaxTree.ofNodes nodes root = .ok t)
    (hcheck : Typing.checkTree t = .ok (T, σ)) (hnames : Decl.Unreserved config t.declarations)
    (hf : t.declarations = before ++ .define f :: after) :
    ∃ (c : Compilation) (front back : List Instr) (cells : List Cell), compile t config = .ok c ∧
      c.code = front ++ (f.outline T config σ.scope (Decl.labelCountOfAll before)).code ++ back ∧
      cells = front.map Cell.plain ++
        (f.outline T config σ.scope (Decl.labelCountOfAll before)).cells ++ back.map Cell.plain ∧
      cells.map Cell.instr = c.code ∧
      c.code[front.length + f.start T config σ.scope]? = some (.enter (f.frame T).frameSize) ∧
      ∀ oracle, f.Agrees cells oracle (front.length + f.start T config σ.scope) T := by
  have hwritten : ∀ d ∈ t.declarations, ∀ u ∈ d.writtenTypes,
      Typing.Written (fun t => t.containsAuto = false) u := fun _ _ _ _ hu => hu
  obtain ⟨hΓ, ⟨R, hR⟩, hw, c, front, back, hc, hcode⟩ :=
    exists_function_code Ty.stable_known h hwritten hcheck config hf
  have hmakes := makes_compile Ty.stable_known h hwritten hcheck hnames hc
  have hmap :
      (front.map Cell.plain ++ (f.outline T config σ.scope (Decl.labelCountOfAll before)).cells ++
      back.map Cell.plain).map Cell.instr = c.code := by
    rw [hcode, List.map_append, List.map_append, Cell.map_instr_plain, Cell.map_instr_plain,
      Outline.map_instr_cells]
  have hholds : Holds (front.map Cell.plain ++
      (f.outline T config σ.scope (Decl.labelCountOfAll before)).cells ++
      back.map Cell.plain) front.length (f.outline T config σ.scope
        (Decl.labelCountOfAll before)).cells := by
    rw [Holds, List.append_assoc, List.drop_left' (List.length_map ..)]
    exact List.prefix_append _ _
  refine ⟨c, front, back, _, hc, hcode, rfl, hmap, ?_, fun oracle => ?_⟩
  · rw [hcode]
    exact getElem?_middle (f.getElem?_start T config σ.scope _)
  · refine Function.agrees_of_must (fun fuel =>
      Function.course_way hR.flow (TypeTable.typeOf_eq hR.result.1) fuel)
      fun fuel => f.must_follow Ty.stable_known (hmap ▸ hmakes) hΓ hR hw hholds fuel rfl rfl

theorem runs_agree_sample : ∃ t T σ f, SyntaxTree.ofNodes sampleNodes (.ofIndex 21) = .ok t ∧
    Typing.checkTree t = .ok (T, σ) ∧ t.declarations = [.define f] ∧
    ∃ (c : Compilation) (cells : List Cell) (start : Nat), compile t .default = .ok c ∧
      cells.map Cell.instr = c.code ∧ c.code[start]? = some (.enter (f.frame T).frameSize) ∧
      ∀ oracle, f.Agrees cells oracle start T := by
  obtain ⟨t, T, σ, f, ht, hcheck, hf, -, hnames⟩ := exists_sample_function
  have hsplit : t.declarations = [] ++ .define f :: [] := hf
  obtain ⟨c, front, back, cells, hc, -, -, hcells, hstart, hagrees⟩ :=
    runs_agree ht hcheck hnames hsplit
  exact ⟨t, T, σ, f, ht, hcheck, hf, c, cells, _, hc, hcells, hstart, hagrees⟩

/-- **No way through the code of a function leads behind it.** -/
theorem never_runs_off (h : SyntaxTree.ofNodes nodes root = .ok t)
    (hcheck : Typing.checkTree t = .ok (T, σ)) (hnames : Decl.Unreserved config t.declarations)
    (hf : t.declarations = before ++ .define f :: after) :
    ∃ (c : Compilation) (front back is : List Instr), compile t config = .ok c ∧
    c.code = front ++ is ++ back ∧
      is = (f.outline T config σ.scope (Decl.labelCountOfAll before)).code ∧
      is[f.start T config σ.scope]? = some (.enter (f.frame T).frameSize) ∧
      ¬Relation.ReflTransGen (Edge is) (f.start T config σ.scope) is.length := by
  have hwritten : ∀ d ∈ t.declarations, ∀ u ∈ d.writtenTypes,
      Typing.Written (fun t => t.containsAuto = false) u := fun _ _ _ _ hu => hu
  obtain ⟨hΓ, ⟨R, hR⟩, hw, c, front, back, hc, hcode⟩ :=
    exists_function_code Ty.stable_known h hwritten hcheck config hf
  refine ⟨c, front, back, _, hc, hcode, rfl, f.getElem?_start T config σ.scope _, fun hway => ?_⟩
  have hclosed := ((Typing.checkTree_outcome Ty.stable_known h hwritten).1 T σ hcheck).closed
  have hname : ¬Reserved (calleeLabel config σ.scope f.signature.name) :=
    not_reserved_callee (fun s hs => hclosed.name_eq hs)
      (hnames.2 (.define f) (by simp [hf]) _ (List.mem_singleton_self _)) hnames.1
  have hmakes := f.makes (T := T) hname (Decl.labelCountOfAll before)
  generalize ho : f.outline T config σ.scope (Decl.labelCountOfAll before) = o at hway hmakes
  rw [← o.map_instr_cells] at hway hmakes
  obtain ⟨oracle, s, hs, hpos⟩ := exists_runs hway
  have hholds : Holds o.cells 0 (f.outline T config σ.scope (Decl.labelCountOfAll before)).cells :=
    ho ▸ List.prefix_rfl
  have hmust : Must (Moves o.cells oracle) (Follows o.cells (f.context T config) _ (s.clock + 1)
      (.begin (f.start T config σ.scope)) (f.course oracle T (s.clock + 1))) (.begin
        (f.start T config σ.scope)) :=
    f.must_follow Ty.stable_known hmakes hΓ hR hw hholds (s.clock + 1) (Nat.zero_add _).symm rfl
  have hend : o.cells[s.pos]? = none := by
    rw [hpos, List.length_map]
    exact List.getElem?_eq_none (Nat.le_refl _)
  have hcourse : (f.course oracle T (s.clock + 1)).way = .return ∨
      (f.course oracle T (s.clock + 1)).way = .cut :=
    Function.course_way hR.flow (TypeTable.typeOf_eq hR.result.1) (s.clock + 1)
  -- Behind the code a run cannot go on, and the course does not end there.
  cases must_of_reaches hcourse hmust hs (by simp [Control.begin]) with
  | here hfollows =>
    have hplace := hfollows.place
    unfold EndsAt at hplace
    rcases hcourse with hw | hw <;> rw [hw] at hplace
    · rw [Control.Returning, List.getElem?_map, hend] at hplace
      cases hplace
    · simp only [Control.begin] at hplace
      omega
  | step hgo =>
    obtain ⟨u, hmove⟩ := hgo
    cases hmove with
    | zero hc | nonzero hc | free hc => cases hend.symm.trans hc

theorem never_runs_off_sample : ∃ t T σ f, SyntaxTree.ofNodes sampleNodes (.ofIndex 21) = .ok t ∧
    Typing.checkTree t = .ok (T, σ) ∧ t.declarations = [.define f] ∧
    ∃ is : List Instr, is = (f.outline T .default σ.scope 0).code ∧
      ¬Relation.ReflTransGen (Edge is) (f.start T .default σ.scope) is.length := by
  obtain ⟨t, T, σ, f, ht, hcheck, hf, -, hnames⟩ := exists_sample_function
  have hsplit : t.declarations = [] ++ .define f :: [] := hf
  obtain ⟨c, front, back, is, -, -, his, -, hnever⟩ := never_runs_off ht hcheck hnames hsplit
  exact ⟨t, T, σ, f, ht, hcheck, hf, is, his, hnever⟩

end Unit

end PostfixCompiler
