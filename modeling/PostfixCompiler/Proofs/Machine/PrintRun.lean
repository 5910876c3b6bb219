import PostfixCompiler.Proofs.Machine.CallRun

/-!
# What is printed

The values of expressions are printed one after the other. The code of an expression leaves its
value on the stack, and the functions that print are called with the leaves of the value. They
change no leaf that is still to be printed, since those lie on the stack behind their argument,
where no course knows of them.

## Main statements

* `PostfixCompiler.Machine.Scene.goes_leaves`: the leaves of a value are printed.
* `PostfixCompiler.Expr.prints`: the code of expressions that are printed prints their values.
* `PostfixCompiler.Stmt.writes`: the code of a statement that writes values writes them.
-/

namespace PostfixCompiler

open Emission

namespace Machine.Scene

variable {M : Machine} {W : Type} {C : M.Scene W} {cx : Context}

/-- Leaves that are still to be printed are on the stack, and the course has come to their turn. -/
def Awaits (C : M.Scene W) (base : Int) (σ' : W × M.Memory) (ts : List Ty)
    (w : C.surroundings.World) (s : M.Store) : Prop :=
  s.sp + Ty.sizeOfAll ts = base ∧ (∀ t ∈ ts, t.IsPrinted) ∧ C.bottom + C.reserve ≤ s.sp ∧
    ∃ σ, C.Agrees σ w s ∧
    C.stage.printLeaves ts (M.readAll s.memory s.sp ts) σ = some ((), σ')

/-- **A function that prints a leaf** changes none of those behind it. -/
theorem Awaits.call (hC : C.Sound cx) (hH : C.Honors) {base : Int} (hbase : base ≤ C.base)
    {σ' : W × M.Memory} {t : Ty} {ts : List Ty} {w : C.surroundings.World} {s : M.Store}
    (h : C.Awaits base σ' (t :: ts) w s) :
    ∃ w' s', C.surroundings.call (printHelper t) w s = some (w', s') ∧ s'.sp = s.sp ∧
      (∀ a, s.sp + t.size ≤ a → a < base → s'.memory a = s.memory a) ∧
      C.Awaits base σ' ts w' (s'.drop t.size) := by
  obtain ⟨hsp, hts, hroom, σ, hagrees, hprint⟩ := h
  rw [Ty.sizeOfAll] at hsp
  rw [List.forall_mem_cons] at hts
  rw [readAll, Stage.printLeaves, hts.1.printer?_eq, Course.lift_some, pure_bind] at hprint
  obtain ⟨v, σ₁, hv, hrest⟩ := Course.bind_eq_some.mp hprint
  have hhidden : (printCallee (printHelper t) t).hidden = 0 := rfl
  have hpassed : (printCallee (printHelper t) t).passed = t.size := by
    rw [Callee.passed, hhidden, printCallee, Ty.sizeOfAll, Ty.sizeOfAll, Nat.zero_add, Nat.add_zero]
  have hargument : M.readAll s.memory (s.sp + (printCallee (printHelper t) t).hidden)
      (printCallee (printHelper t) t).parameters = [M.read s.memory s.sp t] := by
    rw [hhidden, printCallee, readAll, readAll, Int.natCast_zero, Int.add_zero]
  obtain ⟨w', s', hcall, hagrees', hsp', -, hchanges⟩ :=
    hH _ _ σ σ₁ v hv w s hagrees hroom hargument
  have hkept : ∀ a, s.sp + t.size ≤ a → a < base → s'.memory a = s.memory a := by
    intro a ha ha'
    refine hchanges a fun hW => ?_
    rcases hW with hown | hstack | ⟨hresult, -⟩
    · exact hC.own_apart a hown [] (.inl (.inl ⟨by omega, by omega⟩))
    · omega
    · cases hresult
  refine ⟨w', s', hcall, hsp', hkept, ?_, hts.2, ?_, σ₁, hagrees', ?_⟩
  · rw [Store.sp_drop]
    omega
  · rw [Store.sp_drop]
    omega
  · have hsame : M.readAll s'.memory (s.sp + t.size) ts = M.readAll s.memory (s.sp + t.size) ts :=
      readAll_congr (fun u hu => Ty.solid_of_scalar (hts.2 u hu).scalar) fun k hk =>
        hkept _ (by omega) (by omega)
    rw [Store.memory_drop, Store.sp_drop, hsp', hsame]
    exact hrest

/-- **The leaves of a value are printed**, where the value is on the stack. -/
theorem goes_leaves (hC : C.Sound cx) (hH : C.Honors) {t : Ty} (ht : ∀ u ∈ t.leaves, u.IsPrinted)
    {code : List Instr} {p : Nat} {w : C.surroundings.World} {s s₁ : M.Store}
    {σ σ' : W × M.Memory} {v : M.Value} (hc : Holds code p (Expr.printInstrs t.leaves))
    (hbase : s.sp ≤ C.base) (hsp : s₁.sp + t.size = s.sp) (hvalue : M.read s₁.memory s₁.sp t = v)
    (hroom : C.bottom + C.reserve ≤ s₁.sp) (hagrees : C.Agrees σ w s₁)
    (hprint : C.stage.printLeaves t.leaves v.leaves σ = some ((), σ')) : ∃ cs w' s',
      C.surroundings.Goes C.stage.fp code (p, w, s₁) cs
        (p + (Expr.printInstrs t.leaves).length, w', s') ∧
        C.surroundings.Printing s.sp t.leaves v.leaves cs ∧ s'.sp = s.sp ∧ C.Agrees σ' w' s' := by
  rw [← Ty.sizeOfAll_leaves] at hsp
  rw [← hvalue, leaves_read] at hprint ⊢
  obtain ⟨cs, w', s', hgoes, hprinting, hback, -, -, -, σ₁, hagrees', hnone⟩ :=
    Surroundings.goes_printing C.stage.fp (I := C.Awaits s.sp σ')
      (fun _ _ _ _ _ h => h.call hC hH hbase) ht hc hsp
      ⟨hsp, ht, hroom, σ, hagrees, hprint⟩
  obtain ⟨-, rfl⟩ := Course.pure_eq_some.mp hnone
  exact ⟨cs, w', s', hgoes, hprinting, hback, hagrees'⟩

end Machine.Scene

open Machine

variable {M : Machine} {W : Type} {C : M.Scene W} {cx : Context} {pt : Point}

/-- **The code of expressions that are printed prints their values**, with room enough on the
stack. -/
theorem Expr.prints (hC : C.Sound cx) (hH : C.Honors) {es : List Expr}
    (hn : (printOutline cx pt es).Finds M C.stage.texts)
    (hes : ∀ e ∈ es, e.Sits Ty.Sound C.room pt.scope .value)
    (hprinted : ∀ e ∈ es, ∀ t ∈ (e.type cx.types).leaves, t.IsPrinted)
    {code : List Instr} {p a b : Nat} {w : C.surroundings.World} {s : M.Store} {σ σ' : W × M.Memory}
    {vs : List M.Value} (hm : Makes code a b) (hc : Holds code p (printOutline cx pt es).code)
    (hbase : s.sp ≤ C.base) (hroom : C.bottom + needOfAll C.room.types es + C.reserve ≤ s.sp)
    (hagrees : C.Agrees σ w s) (hvs : print C.stage pt.scope es σ = some (vs, σ')) : ∃ cs w' s',
      C.surroundings.Prints C.stage.fp code (printParts cx pt es) vs (p, w, s) cs
        (p + (printOutline cx pt es).code.length, w', s') ∧ C.Agrees σ' w' s' := by
  induction es generalizing pt p w s σ vs with
  | nil =>
    obtain ⟨rfl, rfl⟩ := Course.pure_eq_some.mp hvs
    exact ⟨[], w, s, .nil _, hagrees⟩
  | cons e es ih =>
    rw [List.forall_mem_cons] at hes hprinted
    rw [printOutline, Outline.finds_append, Outline.finds_action, Outline.finds_append] at hn
    have hfirst := performs hC hH hes.1 pt.labels hn.1.1
    rw [needOfAll] at hroom
    rw [← hC.suits.types] at hfirst hroom
    have hsize : (e.type cx.types).size = (cx.types.typeOf e.id).size := rfl
    rw [printOutline, Outline.code_append, Outline.code_piece, Outline.code_append,
      Outline.code_ofCode] at hc ⊢
    obtain ⟨v, σ₁, hv, hvs⟩ := Course.bind_eq_some.mp hvs
    obtain ⟨⟨⟩, σ₂, hprint, hvs⟩ := Course.bind_eq_some.mp hvs
    obtain ⟨us, σ₃, hus, hvs⟩ := Course.bind_eq_some.mp hvs
    obtain ⟨rfl, rfl⟩ := Course.pure_eq_some.mp hvs
    rw [hC.types, ← hC.suits.types] at hprint
    obtain ⟨cs, w₁, s₁, hown, hagrees₁, hg⟩ := hfirst hm hc.left.left hbase (by omega) hagrees hv
    have hsp := hg.sp
    obtain ⟨ds, w₂, s₂, hleaves, hprinting, hback, hagrees₂⟩ :=
      Scene.goes_leaves hC hH hprinted.1 hc.left.right hbase
      hsp hg.value (by omega) hagrees₁ hprint
    have hbehind := hc.right
    rw [List.length_append, ← Nat.add_assoc] at hbehind
    obtain ⟨es', w', s', hprints, hagrees'⟩ := ih hn.2 hes.2 hprinted.2 hbehind (hback ▸ hbase)
      (by rw [← hC.suits.types]; omega) hagrees₂ hus
    rw [List.length_append, List.length_append, ← Nat.add_assoc, ← Nat.add_assoc]
    exact ⟨_, w', s', .cons hown hsp hg.value hleaves hprinting hback hprints, hagrees'⟩

/-- **The code of a statement that writes values writes them**, with room enough on the stack. -/
theorem Stmt.writes (hC : C.Sound cx) (hH : C.Honors) {site : Site} {args : List Expr}
    {newline : Bool} (hn : ((Stmt.write site args newline).outline cx pt).Finds M C.stage.texts)
    (hargs : ∀ e ∈ args, e.Sits Ty.Sound C.room pt.scope .value)
    (hprinted : ∀ e ∈ args, ∀ t ∈ (e.type cx.types).leaves, t.IsPrinted)
    {code : List Instr} {p a b : Nat} {w : C.surroundings.World} {s : M.Store} {σ σ' : W × M.Memory}
    {vs : List M.Value} (hm : Makes code a b)
    (hc : Holds code p ((Stmt.write site args newline).outline cx pt).code)
    (hbase : s.sp ≤ C.base) (hroom : C.bottom + Expr.needOfAll C.room.types args + C.reserve ≤ s.sp)
    (hagrees : C.Agrees σ w s)
    (hvs : Expr.write C.stage pt.scope args newline σ = some (vs, σ')) : ∃ cs w' s',
      C.surroundings.Writes C.stage.fp code (Expr.printParts cx pt args) newline vs (p, w, s) cs
        (p + ((Stmt.write site args newline).outline cx pt).code.length, w', s') ∧
        C.Agrees σ' w' s' := by
  rw [outline, Outline.finds_statement, Outline.finds_append] at hn
  have hcode := hc
  rw [code_outline_write] at hcode
  obtain ⟨us, σ₁, hus, hvs⟩ := Course.bind_eq_some.mp hvs
  obtain ⟨⟨⟩, σ₂, hline, hvs⟩ := Course.bind_eq_some.mp hvs
  obtain ⟨rfl, rfl⟩ := Course.pure_eq_some.mp hvs
  obtain ⟨cs, w₁, s₁, hprinted, hagrees₁⟩ :=
    Expr.prints hC hH hn.1 hargs hprinted hm hcode.left hbase hroom hagrees hus
  have hback : s₁.sp = s.sp := hprinted.goes.2
  cases newline with
  | true =>
    obtain ⟨v, σ₃, hv, hnone⟩ := Course.bind_eq_some.mp hline
    obtain ⟨-, rfl⟩ := Course.pure_eq_some.mp hnone
    obtain ⟨w₂, s₂, hcall, hagrees₂, hsp, -⟩ := hH _ _ σ₁ σ₃ v hv w₁ s₁ hagrees₁ (by omega) rfl
    obtain ⟨ds, hwrites⟩ := hprinted.writes hc ⟨hcall, hsp⟩
    exact ⟨ds, w₂, s₂, hwrites, hagrees₂⟩
  | false =>
    obtain ⟨-, rfl⟩ := Course.pure_eq_some.mp hline
    obtain ⟨ds, hwrites⟩ := hprinted.writes hc ⟨rfl, rfl⟩
    exact ⟨ds, w₁, s₁, hwrites, hagrees₁⟩

end PostfixCompiler
