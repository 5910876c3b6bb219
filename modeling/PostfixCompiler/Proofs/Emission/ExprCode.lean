import PostfixCompiler.Proofs.Emission.Puts
import PostfixCompiler.Proofs.Frame.Usage
import PostfixCompiler.Proofs.Typing.Operators

/-!
# The code of an expression is that of its outline

A typed expression is written without a fault, and what is written is the code of its outline. The
proof goes along the expression. What has to be seen at each consumer is that its operand left what
is wanted: a place leaves an address, and so does every expression whose type is a tuple when its
address is wanted; everything else leaves a value.

## Main definitions

* `PostfixCompiler.SymbolTable.scope`: the symbols that names are bound to.
* `PostfixCompiler.Expr.Writes`: the code of an expression is that of its outline.

## Main statements

* `PostfixCompiler.Emission.puts_store`, `PostfixCompiler.Emission.puts_load`.
* `PostfixCompiler.Expr.writes`: this is so for every typed expression.
-/

namespace PostfixCompiler

open Emission

/-- The symbols that names are bound to. -/
def SymbolTable.scope (t : SymbolTable) : View Symbol := t.view id

namespace Emission

variable {s : State} {Q : Unit → State → Prop}

/-! ### Moving values -/

theorem puts_base (b : Base) (byte : Nat) (s : State) (Q : Unit → State → Prop) :
    Puts (b.push byte) s Q ↔ Q () (s.write (b.instrs byte)) := by
  cases b with
  | frame offset => rw [Base.push, Base.instrs, puts_emit]
  | pinned slot =>
    simp only [Base.push, Base.instrs, puts_bind, puts_emitAll, puts_addOffset, write_write,
      offsetInstrs]

theorem puts_loadLeaves {b : Base} {leaves : List (Ty × Nat)} :
    Puts (loadLeaves b leaves) s Q ↔ Q () (s.write (loadInstrs b leaves)) := by
  induction leaves generalizing s with
  | nil => rw [loadLeaves, puts_pure, loadInstrs, List.flatMap_nil, write_nil]
  | cons l rest ih =>
    simp only [loadLeaves, puts_bind, puts_base, puts_emit, ih, write_write, loadInstrs,
      List.flatMap_cons, List.append_assoc, loadInstr]

/-- **A value is pushed from a place.** -/
theorem puts_load {t : Ty} {b : Base} :
    Puts (load t b) s Q ↔ Q () (s.write (loadInstrs b t.leafOffsets.reverse)) := by
  rw [load, puts_loadLeaves]

section Store

variable {push : Nat → EmitM Unit} {pushed : Nat → List Instr}

mutual

/-- **A value is moved to a place that it fits.** -/
theorem puts_store
    (hpush : ∀ n s (Q : Unit → State → Prop), Puts (push n) s Q ↔ Q () (s.write (pushed n))) :
    ∀ {target source : Ty} {offset : Nat} {s : State} {Q : Unit → State → Prop},
    target.Fits source →
      (Puts (store push target source offset) s Q ↔
        Q () (s.write (storeInstrs pushed target source offset)))
  | .void, source, offset, s, Q, h | .int, source, offset, s, Q, h
  | .string, source, offset, s, Q, h => by
    rw [Ty.Fits] at h
    unfold store storeInstrs
    rw [h]
    simp only [puts_bind, hpush, puts_emit, write_write]
  | .pointer t, source, offset, s, Q, h => by
    obtain ⟨u, hu⟩ := Ty.fits_pointer.mp h
    unfold store storeInstrs
    rw [hu]
    simp only [puts_bind, hpush, puts_emit, write_write]
  | .double, source, offset, s, Q, h => by
    rw [Ty.Fits] at h
    unfold store storeInstrs
    rcases h with h | h
    · rw [h]
      simp only [reduceCtorEq, if_false, puts_bind, hpush, puts_emit, write_write, List.nil_append]
    · rw [h]
      simp only [if_true, puts_bind, hpush, puts_emit, write_write, List.append_assoc]
  | .auto, source, offset, s, Q, h => by
    rw [Ty.Fits] at h
    exact h.elim
  | .tuple ts, source, offset, s, Q, h => by
    by_cases hp : (Ty.tuple ts).IsPlural
    · obtain ⟨ss, hss, hall⟩ := (Ty.fits_tuple hp).mp h
      have hlen := hall.length_eq
      have hts : Puts (storeEach push ts ss offset) s Q ↔
          Q () (s.write (storeEachInstrs pushed ts ss offset)) := puts_storeEach hpush hall
      match ts, hp with
      | [], _ | _ :: _ :: _, _ =>
        unfold store storeInstrs
        rw [hss]
        simp only [hlen, if_true]
        exact hts
    · match ts with
      | [] | _ :: _ :: _ => exact absurd trivial hp
      | [t] =>
        rw [store, storeInstrs]
        exact puts_store hpush (Ty.fits_singleton_left.mp h)

/-- As `puts_store`, for the components of a tuple. -/
theorem puts_storeEach
    (hpush : ∀ n s (Q : Unit → State → Prop), Puts (push n) s Q ↔ Q () (s.write (pushed n))) :
    ∀ {targets sources : List Ty} {offset : Nat} {s : State} {Q : Unit → State → Prop},
      Ty.FitsAll targets sources → (Puts (storeEach push targets sources offset) s Q ↔
        Q () (s.write (storeEachInstrs pushed targets sources offset)))
  | [], [], offset, s, Q, _ => by
    rw [storeEach, storeEachInstrs, puts_pure, write_nil] <;> simp
  | [], _ :: _, _, _, _, h | _ :: _, [], _, _, _, h => h.elim
  | t :: ts, u :: us, offset, s, Q, h => by
    rw [storeEach, storeEachInstrs, puts_bind, puts_store hpush h.1, puts_storeEach hpush h.2,
      write_write]

end

end Store

/-- A scalar is moved to a place of its own type. -/
theorem puts_store_scalar {push : Nat → EmitM Unit} {t : Ty} (ht : t.isTuple = false) {n : Nat} :
    Puts (store push t t n) s Q ↔
      Puts (push n) s fun _ s' =>
        Q () (s'.write [if t = .double then .storeDouble else .storeInt]) := by
  cases t with
  | tuple ts => cases ht
  | double =>
    unfold store
    simp only [Ty.stripped, reduceCtorEq, if_false, if_true, puts_bind, puts_emit]
  | _ =>
    unfold store
    simp only [Ty.stripped, reduceCtorEq, if_false, puts_bind, puts_emit]

/-! ### Steps that look at types -/

theorem puts_widen {cx : Context} {wanted t : Ty} {e : Expr} (h : cx.types.get? e.id = some t) :
    Puts (widen cx wanted e) s Q ↔ Q () (s.write (widenInstrs wanted t)) := by
  unfold widen widenInstrs
  by_cases hw : wanted = .double
  · by_cases ht : t = .int
    · simp only [hw, ht, if_true, and_self, puts_bind, puts_typeOf h, puts_emit]
    · simp only [hw, ht, if_true, if_false, and_false, puts_bind, puts_typeOf h,
        puts_pure, write_nil]
  · simp only [hw, if_false, false_and, puts_pure, write_nil]

theorem puts_finishCall {cx : Context} {label : String} {t : Ty} {bytes : Nat} {mode : Mode}
    {Q : Mode → State → Prop} : Puts (finishCall cx label t bytes mode) s Q ↔
      Q (if mode = .address ∧ t.isTuple = true then .address else .value)
        (s.write (callInstrs cx.frame.callTempOffset label t bytes mode)) := by
  cases t with
  | tuple ts =>
    cases mode <;>
      simp [finishCall, callInstrs, Ty.isTuple, puts_load]
  | _ => simp [finishCall, callInstrs, Ty.isTuple]

theorem puts_readPlace {id : NodeId} {t : Ty} {mode : Mode} {slot : Option Int} {offset : Int}
    (h : t.isTuple = true → mode = .value → slot = some offset) {Q : Mode → State → Prop} :
    Puts (readPlace id t mode slot) s Q ↔
      Q (if mode = .address ∧ t.isTuple = true then .address else .value)
        (s.write (readInstrs offset t mode)) := by
  cases t with
  | tuple ts =>
    cases mode with
    | value =>
      rw [h rfl rfl]
      simp [readPlace, readInstrs, puts_load]
    | address => simp [readPlace, readInstrs, Ty.isTuple]
  | _ => cases mode <;> simp [readPlace, readInstrs, Ty.isTuple]

end Emission

namespace Expr

variable {P : Ty → Prop} {T : TypeTable} {Γ : Names}

/-! ### What operands leave -/

/-- What is no place leaves a value if a value is wanted. -/
theorem leaves_value : ∀ {e : Expr}, e.IsValue → e.leaves T .value = .value
  | .tuple _ [e], h => by
    rw [leaves]
    exact leaves_value h.2.1
  | .tuple _ [], _ | .tuple _ (_ :: _ :: _), _ => rfl
  | .rvalue .., _ | .call .., _ => rfl
  | .integer .., _ | .double .., _ | .string .., _ | .nullptr _, _ | .input _, _ | .assignment .., _
  | .unary .., _ | .binary .., _ | .addressOf .., _ | .stackAlloc .., _ | .sizeof .., _ => rfl
  | .variable .., h | .pointerIndex .., h | .tupleIndex .., h => by cases h.1

/-- A place leaves its address. -/
theorem leaves_of_isPlace {e : Expr} (h : e.isPlace = true) (mode : Mode) :
    e.leaves T mode = .address := by
  cases e with
  | «variable» | pointerIndex | tupleIndex => rfl
  | _ => cases h

/-- **An expression whose type is a tuple leaves an address if an address is wanted.** -/
theorem leaves_address : ∀ {e : Expr} {ts : List Ty}, e.Typed P T Γ →
    T.get? e.id = some (.tuple ts) → e.leaves T .address = .address
  | .variable .., _, _, _ | .pointerIndex .., _, _, _ | .tupleIndex .., _, _, _
  | .tuple _ [], _, _, _ | .tuple _ (_ :: _ :: _), _, _, _ => rfl
  | .rvalue s _, ts, _, ht | .call s _ _, ts, _, ht => by
    have ht : T.get? s.id = some (.tuple ts) := ht
    rw [leaves, TypeTable.typeOf_eq ht]
    rfl
  | .tuple s [e], ts, h, ht => by
    obtain ⟨⟨he, -⟩, us, -, hus, hs⟩ := h
    have ht : T.get? s.id = some (.tuple ts) := ht
    match us, hus with
    | [u], .cons ⟨_, hu, rfl, _⟩ .nil =>
      rw [hs] at ht
      rw [leaves]
      exact leaves_address he (hu.trans ht)
  | .integer s _, ts, h, ht | .double s _, ts, h, ht | .string s _, ts, h, ht
  | .nullptr s, ts, h, ht => by cases ht.symm.trans h
  | .input s, ts, h, ht => by rcases h with h | h <;> cases ht.symm.trans h
  | .assignment s _ _, ts, h, ht => by
    obtain ⟨-, t, u, -, -, ⟨htuple, -⟩, -, hs⟩ := h
    cases ht.symm.trans hs
    cases htuple
  | .unary s op _, ts, h, ht => by
    obtain ⟨-, t, -, hop, hs⟩ := h
    cases ht.symm.trans hs
    cases op <;> cases hop
  | .binary s op _ _, ts, h, ht => by
    obtain ⟨-, t, u, v, -, -, hv, hs⟩ := h
    cases ht.symm.trans hs
    cases (BinaryOp.operands_of_resultType hv).isTuple_eq
  | .addressOf s _, ts, h, ht => by
    obtain ⟨-, t, -, hs⟩ := h
    cases ht.symm.trans hs
  | .stackAlloc s _, ts, h, ht => by
    obtain ⟨-, -, t, hs⟩ := h
    cases ht.symm.trans hs
  | .sizeof s _, ts, h, ht => by cases ht.symm.trans h.2

/-! ### Slots -/

/-- Where the slot of an expression is, if it needs one. -/
def ownSlot (cx : Context) (mode : Mode) (e : Expr) : Option Int :=
  (e.ownCharge cx.types mode).map fun _ => cx.frame.slotAt e.id

/-- **The slot of an expression is found**, and used if there is one. -/
theorem puts_ownSlot {cx : Context} {mode : Mode} {e : Expr} {s : State} (h : e.Typed P cx.types Γ)
    (hf : cx.frame.Provides (FrameUsage.ofCharge e.id (e.ownCharge cx.types mode)).nodes)
    {Q : Option Int → State → Prop}
    (hQ : ∀ s',
      Pushed [] 0 (.ofSlots (FrameUsage.ofCharge e.id (e.ownCharge cx.types mode)).nodes) s s' →
      Q (e.ownSlot cx mode) s') : Puts (cx.ownSlot e mode) s Q := by
  unfold Context.ownSlot
  rw [puts_bind, charge_eq h, puts_orFault]
  unfold Expr.ownSlot at hQ
  cases hc : e.ownCharge cx.types mode with
  | none =>
    rw [hc] at hQ
    exact hQ s (.refl s)
  | some n =>
    rw [hc] at hQ hf
    rw [puts_bind, puts_slotOf (hf _ (by simp [FrameUsage.nodes_ofCharge])), puts_pure]
    exact hQ _ ((Pushed.refl s).use e.id)

/-! ### The code -/

/-- **The code of an expression is that of its outline**, whatever was written before. -/
def Writes (cx : Context) (σ : SymbolTable) (mode : Mode) (e : Expr) : Prop :=
  ∀ s : State, s.symbols = σ → Puts (e.code cx mode) s fun m s' => m = e.leaves cx.types mode ∧
    Pushed (e.outline cx σ.scope mode s.labels).code e.labelCount (e.supplies cx.types mode) s s'

section Code

variable {cx : Context} {σ : SymbolTable} {mode : Mode} {s : State} {Q : Unit → State → Prop}

/-- An operand whose value is wanted leaves one. -/
theorem Writes.value {e : Expr} (h : e.Writes cx σ .value) (he : e.IsValue) (hs : s.symbols = σ)
    (hQ : ∀ s', Pushed (e.outline cx σ.scope .value s.labels).code e.labelCount
      (e.supplies cx.types .value) s s' → Q () s') :
    Puts (e.code cx .value) s fun m s' => Puts (wantValue e m) s' Q := by
  refine (h s hs).mono fun m s' hm => ?_
  rw [hm.1, leaves_value he, puts_wantValue]
  exact hQ s' hm.2

/-- An operand whose address is wanted leaves one. -/
theorem Writes.address {e : Expr} (h : e.Writes cx σ .address)
    (he : e.leaves cx.types .address = .address) (hs : s.symbols = σ)
    (hQ : ∀ s', Pushed (e.outline cx σ.scope .address s.labels).code e.labelCount
      (e.supplies cx.types .address) s s' → Q () s') :
    Puts (e.code cx .address) s fun m s' => Puts (wantAddress e m) s' Q := by
  refine (h s hs).mono fun m s' hm => ?_
  rw [hm.1, he, puts_wantAddress]
  exact hQ s' hm.2

/-- The component that a typed expression names is there. -/
theorem componentOffset?_isSome {ts : List Ty} {t : Ty} {i : Int} (h : 1 ≤ i)
    (ht : ts[i.toNat - 1]? = some t) : ((Ty.tuple ts).componentOffset? i).isSome = true := by
  have hlt := (List.getElem?_eq_some_iff.mp ht).1
  rw [Ty.componentOffset?, if_pos ⟨h, by omega⟩]
  rfl

/-- A name that is typed is bound to a symbol. -/
theorem exists_resolve {name : String} {m : Meaning} (h : σ.names name = some m) :
    ∃ id sym, σ.resolve? name = some (id, sym) ∧ σ.scope name = some sym ∧ sym.meaning = m := by
  obtain ⟨id, sym, hres, hm⟩ := SymbolTable.exists_resolve_of_view h
  exact ⟨id, sym, hres, SymbolTable.view_of_resolve _ hres, hm⟩

/-! ### One kind of expression after the other -/

theorem writes_string {site : Site} {x : String} (h : (string site x).Typed P cx.types σ.names) :
    (string site x).Writes cx σ mode := by
  intro s hs
  refine puts_head (e := string site x) rfl h ?_
  simp only [pushText, puts_bind, puts_newLabel, puts_emitAll, puts_pure]
  refine ⟨rfl, ((Pushed.refl s).makeLabel.write _).congr ?_ rfl rfl (.refl _)⟩
  simp only [outline, textInstrs, Outline.code_piece, Outline.code_ofCode, List.nil_append]

theorem writes_input {site : Site} (h : (input site).Typed P cx.types σ.names) :
    (input site).Writes cx σ mode := by
  intro s hs
  unfold outline
  simp only [Outline.code_piece, Outline.code_ofCode]
  rcases h with ht | ht
  · refine puts_head (e := input site) rfl ht ?_
    simp only [TypeTable.typeOf_eq ht, pushInput, inputInstrs, reduceCtorEq, if_false, puts_bind,
      puts_callHelper, puts_emit, puts_pure, write_write]
    refine ⟨rfl, (((Pushed.refl s).need _).write _).congr rfl rfl rfl ?_⟩
    simp [Supplies.Same, supplies, usage, helpers, inputHelper, TypeTable.typeOf_eq ht]
  · refine puts_head (e := input site) rfl ht ?_
    simp only [TypeTable.typeOf_eq ht, pushInput, inputInstrs, if_true, puts_bind, puts_callHelper,
      puts_emit, puts_pure, write_write]
    refine ⟨rfl, (((Pushed.refl s).need _).write _).congr rfl rfl rfl ?_⟩
    simp [Supplies.Same, supplies, usage, helpers, inputHelper, TypeTable.typeOf_eq ht]

theorem writes_variable {site : Site} {name : String}
    (h : (Expr.variable site name).Typed P cx.types σ.names) :
    (Expr.variable site name).Writes cx σ mode := by
  intro s hs
  obtain ⟨t, hname, ht⟩ := h
  obtain ⟨id, sym, hres, hscope, -⟩ := exists_resolve hname
  refine puts_head (e := Expr.variable site name) rfl ht ?_
  simp only [pushVariable, puts_bind, puts_get, hs, hres, puts_emit, puts_pure]
  refine ⟨rfl, ((Pushed.refl s).write _).congr ?_ rfl rfl (.refl _)⟩
  simp only [outline, variableInstr, hscope, Outline.code_piece, Outline.code_ofCode,
    List.nil_append]

theorem writes_pointerIndex {site : Site} {b i : Expr}
    (h : (pointerIndex site b i).Typed P cx.types σ.names) (hw : (pointerIndex site b i).WellPlaced)
    (hb : b.Writes cx σ .value) (hi : i.Writes cx σ .value) :
    (pointerIndex site b i).Writes cx σ mode := by
  intro s hs
  obtain ⟨-, -, t, ⟨hbt, -⟩, -, ht⟩ := h
  refine puts_head (e := pointerIndex site b i) rfl ht ?_
  simp only [puts_bind, puts_typeOf hbt]
  refine hb.value hw.1 hs fun s₁ h₁ => ?_
  refine hi.value hw.2 (h₁.symbols.trans hs) fun s₂ h₂ => ?_
  rw [h₁.labels] at h₂
  rw [puts_emitAll, puts_pure]
  refine ⟨rfl,
    ((h₁.trans h₂).write _).congr ?_ rfl rfl (by simp [Supplies.Same, supplies, usage, helpers])⟩
  simp only [outline, Expr.type, TypeTable.typeOf_eq hbt, Outline.code_piece, Outline.code_append,
    Outline.code_ofCode]

theorem writes_tupleIndex {site : Site} {b : Expr} {i : Int32}
    (h : (tupleIndex site b i).Typed P cx.types σ.names) (hb : b.Writes cx σ .address) :
    (tupleIndex site b i).Writes cx σ mode := by
  intro s hs
  obtain ⟨hbtyped, ts, t, ⟨hbt, -⟩, ⟨hi, hget⟩, ht⟩ := h
  obtain ⟨offset, ho⟩ := Option.isSome_iff_exists.mp (componentOffset?_isSome hi hget)
  refine puts_head (e := tupleIndex site b i) rfl ht ?_
  simp only [puts_bind, puts_typeOf hbt, ho]
  refine hb.address (leaves_address hbtyped hbt) hs fun s₁ h₁ => ?_
  rw [puts_addOffset, puts_pure]
  refine ⟨rfl, (h₁.write _).congr ?_ rfl rfl (by simp [Supplies.Same, supplies, usage, helpers])⟩
  simp only [outline, Expr.type, TypeTable.typeOf_eq hbt, ho, Option.getD_some, Outline.code_piece,
    Outline.code_append, Outline.code_ofCode]

theorem writes_rvalue {site : Site} {p : Expr} (h : (rvalue site p).Typed P cx.types σ.names)
    (hw : (rvalue site p).WellPlaced)
    (hf : cx.frame.Provides ((rvalue site p).usage cx.types mode).nodes)
    (hp : p.Writes cx σ .address) : (rvalue site p).Writes cx σ mode := by
  intro s hs
  have htyped := h
  obtain ⟨-, t, -, ht⟩ := h
  have ht : cx.types.get? (rvalue site p).id = some t := ht
  have hslot : t.isTuple = true → mode = .value →
      ownSlot cx mode (rvalue site p) = some (cx.frame.slotAt site.id) := by
    intro htuple hmode
    rw [ownSlot, ownCharge, if_pos ⟨hmode, TypeTable.typeOf_eq ht ▸ htuple⟩]
    rfl
  have hown : cx.frame.Provides
      (FrameUsage.ofCharge site.id ((rvalue site p).ownCharge cx.types mode)).nodes :=
    hf.mono fun i hi => by simp [usage, hi]
  rw [code, puts_bind]
  refine puts_ownSlot htyped hown fun s₁ h₁ => ?_
  rw [puts_bind, puts_typeOf ht]
  simp only [puts_bind]
  refine hp.address (leaves_of_isPlace hw.1 _) (h₁.symbols.trans hs) fun s₂ h₂ => ?_
  rw [h₁.labels] at h₂
  rw [puts_readPlace hslot]
  have ht : cx.types.typeOf site.id = t := TypeTable.typeOf_eq ht
  refine ⟨by rw [leaves, ht], ((h₁.trans h₂).write _).congr ?_ (Nat.zero_add _) rfl ?_⟩
  · simp only [outline, ht, Outline.code_piece, Outline.code_append, Outline.code_ofCode,
      List.nil_append, Nat.add_zero]
  · simp [Supplies.Same, supplies, usage, helpers, Expr.id, Expr.site]

theorem writes_assignment {site : Site} {p v : Expr}
    (h : (assignment site p v).Typed P cx.types σ.names) (hw : (assignment site p v).WellPlaced)
    (hp : p.Writes cx σ .address) (hv : v.Writes cx σ .value) :
    (assignment site p v).Writes cx σ mode := by
  intro s hs
  obtain ⟨-, t, u, -, hvt, ⟨htt, -⟩, -, ht⟩ := h
  refine puts_head (e := assignment site p v) rfl ht ?_
  simp only [puts_bind]
  refine hv.value hw.2 hs fun s₁ h₁ => ?_
  rw [puts_widen hvt, puts_emit, puts_store_scalar htt]
  simp only [ne_eq, not_true_eq_false, if_false, puts_bind]
  refine hp.address (leaves_of_isPlace hw.1.1 _) (h₁.symbols.trans hs) fun s₂ h₂ => ?_
  have hdup := (h₁.write (widenInstrs t u)).write [if t = .double then .dupDouble else .dupInt]
  rw [labels_write, labels_write, h₁.labels] at h₂
  rw [puts_pure]
  refine ⟨rfl, ((Pushed.trans hdup h₂).write _).congr ?_ rfl rfl
    (by simp [Supplies.Same, supplies, usage, helpers, or_comm])⟩
  simp only [outline, Expr.type, TypeTable.typeOf_eq hvt, TypeTable.typeOf_eq ht,
    Outline.code_piece, Outline.code_append, Outline.code_ofCode]

theorem writes_unary {site : Site} {op : UnaryOp} {a : Expr}
    (h : (unary site op a).Typed P cx.types σ.names) (hw : (unary site op a).WellPlaced)
    (ha : a.Writes cx σ .value) : (unary site op a).Writes cx σ mode := by
  intro s hs
  obtain ⟨-, t, -, -, ht⟩ := h
  refine puts_head (e := unary site op a) rfl ht ?_
  simp only [puts_bind]
  refine ha.value hw hs fun s₁ h₁ => ?_
  rw [puts_emitAll, puts_pure]
  refine ⟨rfl, (h₁.write _).congr ?_ rfl rfl (by simp [Supplies.Same, supplies, usage, helpers])⟩
  simp only [outline, TypeTable.typeOf_eq ht, Outline.code_piece, Outline.code_append,
    Outline.code_ofCode]

/-- The code of an operator, shape by shape. -/
theorem writes_binary {site : Site} {op : BinaryOp} {l r : Expr}
    (h : (binary site op l r).Typed P cx.types σ.names) (hw : (binary site op l r).WellPlaced)
    (hl : l.Writes cx σ .value) (hr : r.Writes cx σ .value) :
    (binary site op l r).Writes cx σ mode := by
  intro s hs
  obtain ⟨-, t, u, v, ⟨hlt, -⟩, ⟨hrt, -⟩, hop, ht⟩ := h
  have hoperands := BinaryOp.operands_of_resultType hop
  refine puts_head (e := binary site op l r) rfl ht ?_
  simp only [puts_bind, puts_typeOf hlt, puts_typeOf hrt]
  unfold outline
  simp only [Expr.type, TypeTable.typeOf_eq hlt, TypeTable.typeOf_eq hrt, TypeTable.typeOf_eq ht,
    Outline.code_piece]
  have hcount := BinaryOp.Operands.connective_iff hoperands
  cases hform : binaryForm op t u with
  | shortCircuit =>
    rw [hform] at hcount
    simp only [puts_bind, puts_newLabel]
    refine hl.value hw.1 hs fun s₁ h₁ => ?_
    rw [puts_emitAll]
    refine hr.value hw.2 (h₁.symbols.trans hs) fun s₂ h₂ => ?_
    rw [puts_emitAll, puts_pure]
    rw [labels_write, h₁.labels, labels_makeLabel] at h₂
    have h₁ := Pushed.trans (Pushed.refl s).makeLabel h₁
    refine ⟨rfl, ((Pushed.trans (h₁.write _) h₂).write _).congr ?_ ?_ rfl
      (by simp [Supplies.Same, supplies, usage, helpers])⟩
    · simp only [labels_makeLabel, Outline.code_append, Outline.code_ofCode, List.nil_append]
    · rw [labelCount, if_pos (hcount.mpr rfl)]
  | pointer =>
    rw [hform] at hcount hoperands
    have hpointer : t.isPointer = true := by cases hoperands <;> rfl
    simp only [hpointer, Bool.not_true, Bool.false_eq_true, if_false, puts_bind]
    refine hl.value hw.1 hs fun s₁ h₁ => ?_
    refine hr.value hw.2 (h₁.symbols.trans hs) fun s₂ h₂ => ?_
    rw [puts_emitAll, puts_pure]
    rw [h₁.labels] at h₂
    refine ⟨rfl,
      ((h₁.trans h₂).write _).congr ?_ ?_ rfl (by simp [Supplies.Same, supplies, usage, helpers])⟩
    · simp only [Outline.code_append, Outline.code_ofCode]
    · rw [labelCount, if_neg (by simp [hcount]), Nat.zero_add]
  | arithmetic =>
    rw [hform] at hcount
    simp only [puts_bind]
    refine hl.value hw.1 hs fun s₁ h₁ => ?_
    rw [puts_widen hlt]
    refine hr.value hw.2 (h₁.symbols.trans hs) fun s₂ h₂ => ?_
    rw [puts_widen hrt, puts_emit, puts_pure]
    rw [labels_write, h₁.labels] at h₂
    refine ⟨rfl, (((Pushed.trans (h₁.write _) h₂).write _).write _).congr ?_ ?_ rfl
      (by simp [Supplies.Same, supplies, usage, helpers])⟩
    · simp only [Outline.code_append, Outline.code_ofCode]
    · rw [labelCount, if_neg (by simp [hcount]), Nat.zero_add]
  | comparison =>
    rw [hform] at hcount
    simp only [puts_bind]
    refine hl.value hw.1 hs fun s₁ h₁ => ?_
    rw [puts_widen hlt]
    refine hr.value hw.2 (h₁.symbols.trans hs) fun s₂ h₂ => ?_
    rw [puts_widen hrt]
    rw [labels_write, h₁.labels] at h₂
    have hboth := (Pushed.trans (h₁.write _) h₂).write
      (widenInstrs (if t = .double ∨ u = .double then .double else .int) u)
    have hlabels : l.labelCount + r.labelCount = (binary site op l r).labelCount := by
      rw [labelCount, if_neg (by simp [hcount]), Nat.zero_add]
    by_cases hwide : (if t = .double ∨ u = .double then Ty.double else .int) = .double
    · rw [if_pos hwide, puts_bind, puts_emitAll, puts_bind, puts_emit, puts_pure]
      refine ⟨rfl, ((hboth.write _).write _).congr ?_ hlabels rfl
        (by simp [Supplies.Same, supplies, usage, helpers])⟩
      rw [if_pos hwide]
      simp only [Outline.code_append, Outline.code_ofCode, List.append_assoc]
    · rw [if_neg hwide, puts_bind, puts_emit, puts_pure]
      refine ⟨rfl,
        (hboth.write _).congr ?_ hlabels rfl (by simp [Supplies.Same, supplies, usage, helpers])⟩
      rw [if_neg hwide]
      simp only [Outline.code_append, Outline.code_ofCode, List.nil_append]

theorem writes_addressOf {site : Site} {p : Expr} (h : (addressOf site p).Typed P cx.types σ.names)
    (hw : (addressOf site p).WellPlaced) (hp : p.Writes cx σ .address) :
    (addressOf site p).Writes cx σ mode := by
  intro s hs
  obtain ⟨-, t, -, ht⟩ := h
  refine puts_head (e := addressOf site p) rfl ht ?_
  simp only [puts_bind]
  refine hp.address (leaves_of_isPlace hw.1 _) hs fun s₁ h₁ => ?_
  rw [puts_pure]
  refine ⟨rfl, h₁.congr ?_ rfl rfl (by simp [Supplies.Same, supplies, usage, helpers])⟩
  simp only [outline, Outline.code_piece]

theorem writes_stackAlloc {site : Site} {n : Expr}
    (h : (stackAlloc site n).Typed P cx.types σ.names) (hw : (stackAlloc site n).WellPlaced)
    (hn : n.Writes cx σ .value) : (stackAlloc site n).Writes cx σ mode := by
  intro s hs
  obtain ⟨-, -, t, ht⟩ := h
  refine puts_head (e := stackAlloc site n) rfl ht ?_
  simp only [puts_bind]
  refine hn.value hw hs fun s₁ h₁ => ?_
  rw [puts_emitAll, puts_pure]
  refine ⟨rfl, (h₁.write _).congr ?_ rfl rfl (by simp [Supplies.Same, supplies, usage, helpers])⟩
  simp only [outline, TypeTable.typeOf_eq ht, Outline.code_piece, Outline.code_append,
    Outline.code_ofCode]

theorem writes_sizeof (hP : Ty.Stable P) (hσ : View.Settled P σ.names) {site : Site} {e : Expr}
    (h : (sizeof site e).Typed P cx.types σ.names) : (sizeof site e).Writes cx σ mode := by
  intro s hs
  obtain ⟨he, ht⟩ := h
  obtain ⟨u, hu, -⟩ := he.exists_type hP hσ
  refine puts_head (e := sizeof site e) rfl ht ?_
  simp only [puts_bind, puts_typeOf hu, puts_emit, puts_pure]
  refine ⟨rfl,
    ((Pushed.refl s).write _).congr ?_ rfl rfl (by simp [Supplies.Same, supplies, usage, helpers])⟩
  simp only [outline, Expr.type, TypeTable.typeOf_eq hu, Outline.code_piece, Outline.code_ofCode,
    List.nil_append]

/-! ### Tuples and calls -/

/-- The elements of a tuple are written into its slot one after the other. -/
theorem puts_codeInSlot (hP : Ty.Stable P) {slot : Int} {es : List Expr} {ts : List Ty} {byte : Nat}
    (hts : List.Forall₂ (fun e t => ∃ u, cx.types.get? (Expr.id e) = some u ∧ u = t ∧ P t ∧
      t ≠ .void) es ts)
    (hw : AllValues es) (hes : ∀ e ∈ es, e.Writes cx σ .value) (hs : s.symbols = σ)
    (hQ : ∀ s', Pushed (slotOutline cx σ.scope slot s.labels es ts byte).code (labelCountOfAll es)
      (suppliesOfAll cx.types es) s s' → Q () s') : Puts (codeInSlot cx slot es ts byte) s Q := by
  induction hts generalizing byte s with
  | nil =>
    rw [codeInSlot, puts_pure]
    · exact hQ s (.refl s)
    · simp
  | @cons e t es ts he _ ih =>
    obtain ⟨_, ht, rfl, hp, -⟩ := he
    rw [List.forall_mem_cons] at hes
    rw [codeInSlot]
    simp only [puts_bind]
    refine hes.1.value hw.1 hs fun s₁ h₁ => ?_
    have hfits := Ty.fits_refl (Ty.leavesKnown_of_containsAuto (hP.known hp))
    rw [puts_typeOf ht, puts_store (puts_base (.frame slot)) hfits]
    refine ih hw.2 hes.2 (h₁.symbols.trans hs) fun s₂ h₂ => hQ s₂ ?_
    rw [labels_write, h₁.labels] at h₂
    refine (Pushed.trans (h₁.write _) h₂).congr ?_ rfl rfl
      (by simp [Supplies.Same, supplies, suppliesOfAll, usageOfAll, helpersOfAll])
    simp only [slotOutline, Expr.type, TypeTable.typeOf_eq ht, Outline.code_append,
      Outline.code_ofCode]

/-- The elements of a tuple are pushed, the last one first. -/
theorem puts_codeFromLast {es : List Expr} (hw : AllValues es)
    (hes : ∀ e ∈ es, e.Writes cx σ .value) (hs : s.symbols = σ)
    (hQ : ∀ s', Pushed (reverseOutline cx σ.scope s.labels es).code (labelCountOfAll es)
      (suppliesOfAll cx.types es) s s' → Q () s') : Puts (codeFromLast cx es) s Q := by
  induction es generalizing Q with
  | nil =>
    rw [codeFromLast, puts_pure]
    exact hQ s (.refl s)
  | cons e es ih =>
    rw [List.forall_mem_cons] at hes
    rw [codeFromLast, puts_bind]
    refine ih hw.2 hes.2 fun s₁ h₁ => ?_
    rw [puts_bind]
    refine hes.1.value hw.1 (h₁.symbols.trans hs) fun s₂ h₂ => hQ s₂ ?_
    rw [h₁.labels] at h₂
    refine (h₁.trans h₂).congr ?_ (Nat.add_comm _ _) rfl
      (by simp [Supplies.Same, supplies, suppliesOfAll, usageOfAll, helpersOfAll, or_comm])
    rw [reverseOutline, Outline.code_append]

/-- The arguments of a call are pushed, the last one first, and they take what the parameters
take. -/
theorem puts_codeArguments {args : List Expr} {ps : List Ty}
    (hps : List.Forall₂ (fun a p => ∃ u, cx.types.get? (Expr.id a) = some u ∧ Ty.Fits p u) args ps)
    (hw : AllValues args) (hargs : ∀ e ∈ args, e.Writes cx σ .value) (hs : s.symbols = σ)
    {Q : Nat → State → Prop}
    (hQ : ∀ s', Pushed (argumentsOutline cx σ.scope s.labels args ps).code (labelCountOfAll args)
      (suppliesOfAll cx.types args) s s' → Q (Ty.sizeOfAll ps) s') :
    Puts (codeArguments cx args ps) s Q := by
  induction hps generalizing Q with
  | nil =>
    rw [codeArguments, puts_pure]
    · exact hQ s (.refl s)
    · simp
  | @cons e p es ps he _ ih =>
    obtain ⟨u, hu, -⟩ := he
    rw [List.forall_mem_cons] at hargs
    rw [codeArguments, puts_bind]
    refine ih hw.2 hargs.2 fun s₁ h₁ => ?_
    simp only [puts_bind]
    refine hargs.1.value hw.1 (h₁.symbols.trans hs) fun s₂ h₂ => ?_
    rw [puts_widen hu, puts_pure]
    rw [h₁.labels] at h₂
    refine hQ _ (((h₁.trans h₂).write _).congr ?_ (Nat.add_comm _ _) rfl ?_)
    · simp only [argumentsOutline, Expr.type, TypeTable.typeOf_eq hu, Outline.code_append,
        Outline.code_ofCode]
    · simp [Supplies.Same, supplies, suppliesOfAll, usageOfAll, helpersOfAll, or_comm]

/-- A value in parentheses is itself. -/
theorem writes_tuple_singleton {site : Site} {e : Expr}
    (h : (tuple site [e]).Typed P cx.types σ.names) (he : e.Writes cx σ mode) :
    (tuple site [e]).Writes cx σ mode := by
  intro s hs
  obtain ⟨-, ts, -, -, ht⟩ := h
  refine puts_head (e := tuple site [e]) rfl ht ?_
  refine (he s hs).mono fun m s' hm => ?_
  obtain ⟨rfl, h⟩ := hm
  refine ⟨by rw [leaves], h.congr ?_ rfl rfl (supplies_singleton .. ▸ .refl _)⟩
  rw [outline_singleton, Outline.code_piece]

theorem writes_tuple_plural (hP : Ty.Stable P) {site : Site} {a b : Expr} {es : List Expr}
    (h : (tuple site (a :: b :: es)).Typed P cx.types σ.names)
    (hw : (tuple site (a :: b :: es)).WellPlaced)
    (hf : cx.frame.Provides ((tuple site (a :: b :: es)).usage cx.types mode).nodes)
    (hes : ∀ e ∈ a :: b :: es, e.Writes cx σ .value) :
    (tuple site (a :: b :: es)).Writes cx σ mode := by
  intro s hs
  have htyped := h
  obtain ⟨-, ts, -, hts, ht⟩ := h
  obtain ⟨t, u, us, rfl⟩ : ∃ t u us, ts = t :: u :: us := by
    match ts, hts with
    | t :: u :: us, _ => exact ⟨t, u, us, rfl⟩
  have ht : cx.types.get? (tuple site (a :: b :: es)).id = some (.tuple (t :: u :: us)) := ht
  cases mode with
  | value =>
    refine puts_head (e := tuple site (a :: b :: es)) rfl ht ?_
    rw [puts_bind]
    refine puts_codeFromLast hw hes hs fun s₁ h₁ => ?_
    rw [puts_pure]
    refine ⟨rfl, h₁.congr ?_ ?_ rfl ?_⟩
    · simp only [outline, Outline.code_piece]
    · rw [labelCount]
    · simp [Supplies.Same, supplies, suppliesOfAll, usage, helpers, ownCharge, FrameUsage.ofCharge]
  | address =>
    have htypeOf : cx.types.typeOf site.id = .tuple (t :: u :: us) := TypeTable.typeOf_eq ht
    have hcharge : (tuple site (a :: b :: es)).ownCharge cx.types .address =
        some (Ty.tuple (t :: u :: us)).size := by
      rw [ownCharge, htypeOf]
      rfl
    have hown : cx.frame.Provides (FrameUsage.ofCharge site.id
        ((tuple site (a :: b :: es)).ownCharge cx.types .address)).nodes :=
      hf.mono fun i hi => by simp [usage, hi]
    have hslot :
        ownSlot cx .address (tuple site (a :: b :: es)) = some (cx.frame.slotAt site.id) := by
      rw [ownSlot, hcharge]
      rfl
    rw [code, puts_bind]
    refine puts_ownSlot htyped hown fun s₁ h₁ => ?_
    rw [puts_bind, puts_typeOf ht, hslot]
    simp only [puts_bind]
    refine puts_codeInSlot hP hts hw hes (h₁.symbols.trans hs) fun s₂ h₂ => ?_
    rw [h₁.labels] at h₂
    rw [puts_emit, puts_pure]
    refine ⟨rfl, ((h₁.trans h₂).write _).congr ?_ ?_ rfl ?_⟩
    · simp only [outline, htypeOf, Ty.components, Outline.code_piece, Outline.code_append,
        Outline.code_ofCode, List.nil_append, Nat.add_zero]
    · rw [labelCount, Nat.zero_add]
    · simp [Supplies.Same, supplies, suppliesOfAll, usage, helpers, Expr.id, Expr.site]

theorem writes_call {site : Site} {name : String} {args : List Expr}
    (h : (call site name args).Typed P cx.types σ.names) (hw : (call site name args).WellPlaced)
    (hargs : ∀ e ∈ args, e.Writes cx σ .value) : (call site name args).Writes cx σ mode := by
  intro s hs
  obtain ⟨-, ps, t, hname, hps, -, ht⟩ := h
  obtain ⟨id, sym, hres, hscope, hmeaning⟩ := exists_resolve hname
  have hparameters : sym.parameters = ps := by
    unfold Symbol.meaning at hmeaning
    unfold Symbol.parameters
    split at hmeaning
    · cases hmeaning
    · rename_i heq
      cases hmeaning
      rw [heq, Option.getD_some]
  refine puts_head (e := call site name args) rfl ht ?_
  simp only [puts_bind, puts_get, hs, hres, hparameters]
  refine puts_codeArguments hps hw hargs hs fun s₁ h₁ => ?_
  rw [puts_finishCall]
  refine ⟨by rw [leaves, TypeTable.typeOf_eq ht], (h₁.write _).congr ?_ ?_ rfl ?_⟩
  · simp only [outline, calleeParameters, calleeLabel, hscope, hparameters, TypeTable.typeOf_eq ht,
      Outline.code_piece, Outline.code_append, Outline.code_ofCode]
  · rw [labelCount]
  · simp only [Supplies.Same, supplies, suppliesOfAll, usage, helpers, FrameUsage.nodes_append]
    split <;> simp

/-! ### All expressions -/

mutual

/-- **A typed expression is written without a fault, and its code is that of its outline.** -/
theorem writes (hP : Ty.Stable P) (hσ : View.Settled P σ.names) : ∀ {e : Expr} {mode : Mode},
    e.Typed P cx.types σ.names → e.WellPlaced → cx.frame.Provides (e.usage cx.types mode).nodes →
    e.Writes cx σ mode
  | .integer .., mode, h, hw, hf | .double .., mode, h, hw, hf | .nullptr _, mode, h, hw, hf => by
    intro s hs
    refine puts_constant rfl (by exact h)
      ⟨rfl, ((Pushed.refl s).write _).congr ?_ rfl rfl (.refl _)⟩
    simp only [outline, Outline.code_piece, Outline.code_ofCode, List.nil_append]
  | .string .., _, h, _, _ => writes_string h
  | .input _, _, h, _, _ => writes_input h
  | .variable .., _, h, _, _ => writes_variable h
  | .pointerIndex _ b i, mode, h, hw, hf =>
    writes_pointerIndex h hw
      (writes hP hσ h.1.1 hw.1.2 (hf.mono fun _ h => by simp [usage, h]))
      (writes hP hσ h.1.2 hw.2.2 (hf.mono fun _ h => by simp [usage, h]))
  | .tupleIndex _ b _, mode, h, hw, hf =>
    writes_tupleIndex h (writes hP hσ h.1 hw (hf.mono fun _ h => by simp [usage, h]))
  | .rvalue _ p, mode, h, hw, hf =>
    writes_rvalue h hw hf (writes hP hσ h.1 hw.2 (hf.mono fun _ h => by simp [usage, h]))
  | .assignment _ p v, mode, h, hw, hf =>
    writes_assignment h hw
      (writes hP hσ h.1.1 hw.1.2 (hf.mono fun _ h => by simp [usage, h]))
      (writes hP hσ h.1.2 hw.2.2 (hf.mono fun _ h => by simp [usage, h]))
  | .unary _ _ a, mode, h, hw, hf =>
    writes_unary h hw (writes hP hσ h.1 hw.2 (hf.mono fun _ h => by simp [usage, h]))
  | .binary _ _ l r, mode, h, hw, hf =>
    writes_binary h hw
      (writes hP hσ h.1.1 hw.1.2 (hf.mono fun _ h => by simp [usage, h]))
      (writes hP hσ h.1.2 hw.2.2 (hf.mono fun _ h => by simp [usage, h]))
  | .addressOf _ p, mode, h, hw, hf =>
    writes_addressOf h hw (writes hP hσ h.1 hw.2 (hf.mono fun _ h => by simp [usage, h]))
  | .stackAlloc _ n, mode, h, hw, hf =>
    writes_stackAlloc h hw (writes hP hσ h.1 hw.2 (hf.mono fun _ h => by simp [usage, h]))
  | .sizeof .., _, h, _, _ => writes_sizeof hP hσ h
  | .tuple _ [], _, h, _, _ => by
    obtain ⟨-, ts, hne, hts, -⟩ := h
    cases hts
    exact absurd rfl hne
  | .tuple _ [e], mode, h, hw, hf =>
    writes_tuple_singleton h
      (writes hP hσ h.1.1 hw.1.2 (hf.mono fun _ h => by simp [usage, h]))
  | .tuple _ (a :: b :: es), mode, h, hw, hf =>
    writes_tuple_plural hP h hw hf
      (allWrite hP hσ h.1 hw (hf.mono fun _ h => by simp [usage, h]))
  | .call _ _ args, mode, h, hw, hf =>
    writes_call h hw (allWrite hP hσ h.1 hw (hf.mono fun _ h => by simp [usage, h]))

/-- As `writes`, for several expressions whose values are wanted. -/
theorem allWrite (hP : Ty.Stable P) (hσ : View.Settled P σ.names) : ∀ {es : List Expr},
    AllTyped P cx.types σ.names es → AllValues es →
    cx.frame.Provides (usageOfAll cx.types es).nodes →
    ∀ e ∈ es, e.Writes cx σ .value
  | [], _, _, _ => by simp
  | e :: es, h, hw, hf =>
    List.forall_mem_cons.mpr
      ⟨writes hP hσ h.1 hw.1.2 (hf.mono fun _ h => by simp [usageOfAll, h]),
        allWrite hP hσ h.2 hw.2 (hf.mono fun _ h => by simp [usageOfAll, h])⟩

end

end Code

end Expr

end PostfixCompiler
