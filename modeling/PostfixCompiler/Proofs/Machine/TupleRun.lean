import PostfixCompiler.Proofs.Machine.ExprRun

/-!
# Tuples are built, and formulas are computed

A tuple of several elements is built in two ways. Where its value is wanted, the elements are pushed
one after the other, the last one first, so that the stack holds the tuple as memory does. Where its
address is wanted, each element is pushed and then moved to its place in a slot; meanwhile the
elements before it stay there, as no element uses that slot itself.

With that each kind of formula is dealt with, and the main theorem is a recursion that asks for the
right mode of each part.

## Main statements

* `PostfixCompiler.Expr.delivers_reverse`: the elements of a tuple are pushed.
* `PostfixCompiler.Expr.delivers_slot`: the elements of a tuple are put into a slot.
* `PostfixCompiler.Expr.computes`: the code of a formula leaves what the formula stands for.
-/

namespace PostfixCompiler

open Emission

/-- **Bytes of a slot are filled.** Nothing else changes but the stack, up to some depth, and the
slots of some nodes. -/
structure Machine.Store.Fills {M : Machine} (s s' : M.Store) (r : Room) (fp : Int)
    (ids : List NodeId) (depth : Nat) (a : Int) (size : Nat) : Prop where
  /-- The stack is as it was. -/
  sp : s'.sp = s.sp
  /-- Only some bytes may change. -/
  changes : Machine.Changes (fun b => r.Touches fp ids (s.sp - depth) s.sp b ∨
    a ≤ b ∧ b < a + size) s.memory s'.memory

/-- What fills bytes of a slot leaves the function as it is. -/
theorem Machine.Store.Fills.calm {M : Machine} {s s' : M.Store} {r : Room} {fp a : Int}
    {ids : List NodeId} {depth size : Nat} (h : s.Fills s' r fp ids depth a size) {slot : Slot}
    (hslot : slot ∈ r.frame.slots) (hsp : s.sp ≤ r.floor fp) (ha : fp + slot.offset ≤ a)
    (ha' : a + size ≤ fp + slot.offset + slot.size) :
    Machine.Calm r fp s s' := by
  refine ⟨h.sp ▸ hsp, ids ++ [slot.node], s.sp - depth, h.changes.mono ?_⟩
  rintro b (hb | hb)
  · exact hb.mono (List.subset_append_left _ _) (Int.le_refl _) hsp
  · exact .inr ⟨slot, hslot, List.mem_append_right _ (List.mem_singleton_self _),
      by omega, by omega⟩

namespace Expr

variable {M : Machine} {r : Room} {fp high : Int} {cx : Context} {scope : View Symbol}
  {texts : NodeId → M.Word} {mode : Mode} {n : Nat}

/-- The components of a tuple are the types of its elements. -/
def Elements (T : TypeTable) (es : List Expr) (ts : List Ty) : Prop :=
  List.Forall₂ (fun e t => ∃ u, T.get? (Expr.id e) = some u ∧ u = t ∧ t.Sound ∧ t ≠ .void) es ts

/-- The components of a tuple are solid. -/
theorem Elements.solid {T : TypeTable} {es : List Expr} {ts : List Ty} (h : Elements T es ts) :
    ∀ t ∈ ts, t.Solid := by
  intro t ht
  obtain ⟨_, -, _, -, rfl, hsound, hv⟩ := exists_of_mem_right h ht
  exact hsound.solid hv

section Elements

variable (hm : M.Setting r fp high cx) (hnames : View.Settled Ty.Sound scope.meanings)
  (hscope : r.Binds scope)
  {es : List Expr} {ts : List Ty}

include hm hnames hscope

/-- **The elements of a tuple are pushed**, the last one first. -/
theorem delivers_reverse (hts : Elements r.types es ts)
    (hes : ∀ e ∈ es, e.Computes M r fp cx scope texts .value)
    (hn : (reverseOutline cx scope n es).Finds M texts) : ∃ d : Nat, ∀ ρ,
    M.Delivers r fp scope ρ (reverseOutline cx scope n es).code fun s s' =>
      ∃ vs, evaluateAll M r.types ρ texts es = some vs ∧
        s.Gains s' (r.Touches fp (usageOfAll r.types es).nodes (s.sp - d) s.sp) (.tuple ts)
          (.tuple vs) := by
  induction hts generalizing n with
  | nil =>
    refine ⟨0, fun ρ => ?_⟩
    rw [reverseOutline]
    refine Machine.Delivers.of_acts fun s _ _ => ⟨s, rfl, [], rfl, Int.add_zero _, ?_, .refl _ _⟩
    rw [Machine.read, Machine.readAll]
  | @cons e t es ts he hts ih =>
    obtain ⟨_, ht, rfl, -⟩ := he
    have htype : e.type r.types = _ := TypeTable.typeOf_eq ht
    rw [List.forall_mem_cons] at hes
    rw [reverseOutline, Outline.finds_append] at hn
    obtain ⟨d₁, hrest⟩ := ih hes.2 hn.1
    obtain ⟨d₂, hfirst⟩ := hes.1 _ hn.2
    rw [htype] at hfirst
    refine ⟨d₁ + d₂ + Ty.sizeOfAll ts, fun ρ => ?_⟩
    rw [reverseOutline, Outline.code_append, usageOfAll, FrameUsage.nodes_append]
    refine ((hrest ρ).bind hm.laid hnames hscope ?_ (hfirst ρ)).mono ?_
    · rintro s s' hsp ⟨_, -, h⟩
      exact h.calm hsp
    · rintro s s'' hsp ⟨s', ⟨vs, hvs, h⟩, v, hv, h'⟩
      have hs' := h.sp
      rw [Ty.size] at hs'
      refine ⟨v :: vs,
        by rw [evaluateAll, hv, hvs]; rfl, h.cons (Elements.solid hts) h' (fun a ha ha' => ?_)
        (fun a ha => ?_) fun a ha => ?_⟩
      · exact hm.laid.not_touches_stack ha (by omega)
      · exact ha.mono (List.subset_append_right _ _) (by omega) (Int.le_refl _)
      · exact ha.mono (List.subset_append_left _ _) (by omega) (by omega)

omit hnames hscope in
/-- An element is pushed, and moved to its place in a slot. -/
theorem delivers_element {slot : Slot} (hslot : slot ∈ r.frame.slots) {e : Expr} {t : Ty}
    (ht : e.type r.types = t) (hsolid : t.Solid) {k : Nat} (hk : k + t.size ≤ slot.size)
    (he : e.Computes M r fp cx scope texts .value)
    (hn : (e.outline cx scope .value n).Finds M texts) : ∃ d : Nat, ∀ ρ,
    M.Delivers r fp scope ρ
      ((e.outline cx scope .value n).code ++
        storeInstrs (Base.frame slot.offset).instrs t t k) fun s s' =>
        ∃ v, e.evaluate M r.types ρ texts = some v ∧ M.read s'.memory (fp + slot.offset + k) t = v ∧
          s.Fills s' r fp (e.usage r.types .value).nodes d (fp + slot.offset + k) t.size := by
  obtain ⟨d, hvalue⟩ := he n hn
  rw [ht] at hvalue
  refine ⟨d + (t.size + 12), fun ρ => (hvalue ρ).acts ?_⟩
  rintro s s₁ hsp ⟨v, hv, hg⟩
  have hsp₁ := hg.sp
  have hwithin := hm.laid.slots_within slot hslot
  have hfloor : r.floor fp = fp - r.frame.frameSize := rfl
  have hplace : Machine.Place fp (r.floor fp) (fp + high) s₁ (fp + slot.offset)
      (.frame slot.offset) k t.size t.size :=
    ⟨rfl, by omega, by omega, .inl (by omega), nofun⟩
  obtain ⟨s₂, hs₂, hsaved⟩ := Machine.acts_store hm.addresses hsolid hplace
  have hchanges := hsaved.changes
  rw [hsp₁] at hchanges
  refine ⟨s₂, hs₂, v, hv, by rw [hsaved.value, hg.value], by rw [hsaved.sp, hsp₁], ?_⟩
  refine (hg.changes.mono fun a ha => ?_).trans (hchanges.mono fun a ha => ?_)
  · exact .inl (ha.mono (List.Subset.refl _) (by omega) (Int.le_refl _))
  · exact ha.imp_left fun ha => Room.touches_below (by omega) ha

/-- **The elements of a tuple are put into a slot**, one after the other. -/
theorem delivers_slot {slot : Slot} (hslot : slot ∈ r.frame.slots) (hts : Elements r.types es ts)
    (hes : ∀ e ∈ es, e.Computes M r fp cx scope texts .value)
    (hown : slot.node ∉ (usageOfAll r.types es).nodes) {k : Nat}
    (hk : k + Ty.sizeOfAll ts ≤ slot.size)
    (hn : (slotOutline cx scope slot.offset n es ts k).Finds M texts) : ∃ d : Nat, ∀ ρ,
    M.Delivers r fp scope ρ (slotOutline cx scope slot.offset n es ts k).code fun s s' =>
      ∃ vs, evaluateAll M r.types ρ texts es = some vs ∧
        M.readAll s'.memory (fp + slot.offset + k) ts = vs ∧
        s.Fills s' r fp (usageOfAll r.types es).nodes d (fp + slot.offset + k)
          (Ty.sizeOfAll ts) := by
  induction hts generalizing n k with
  | nil =>
    refine ⟨0, fun ρ => ?_⟩
    rw [slotOutline]
    · refine Machine.Delivers.of_acts fun s _ _ => ⟨s, rfl, [], rfl, ?_, rfl, .refl _ _⟩
      rw [Machine.readAll]
    · simp
  | @cons e t es ts he hts ih =>
    obtain ⟨u, ht, rfl, hsound, hv⟩ := he
    have htype : e.type r.types = u := TypeTable.typeOf_eq ht
    have hsolid := hsound.solid hv
    rw [List.forall_mem_cons] at hes
    rw [Ty.sizeOfAll] at hk
    rw [usageOfAll, FrameUsage.nodes_append, List.mem_append, not_or] at hown
    rw [slotOutline, Outline.finds_append, Outline.finds_append] at hn
    obtain ⟨d₁, hfirst⟩ :=
      delivers_element hm hslot htype hsolid (k := k) (by omega) hes.1 hn.1.1
    obtain ⟨d₂, hrest⟩ := ih hes.2 hown.2 (by omega) hn.2
    refine ⟨d₁ + d₂, fun ρ => ?_⟩
    rw [slotOutline, Outline.code_append, Outline.code_append, Outline.code_ofCode, hm.suits.types,
      htype, usageOfAll, FrameUsage.nodes_append]
    refine ((hfirst ρ).bind hm.laid hnames hscope ?_ (hrest ρ)).mono ?_
    · rintro s s' hsp ⟨_, -, -, h⟩
      exact h.calm hslot hsp (by omega) (by omega)
    · rintro s s'' hsp ⟨s', ⟨v, hv, hvalue, h⟩, vs, hvs, hvalues, h'⟩
      have hsp' := h.sp
      have hoffset :
          fp + slot.offset + k + u.size = fp + slot.offset + (k + u.size : Nat) := by omega
      -- The element is in the slot, which no other element uses, and before the bytes of the
      -- others.
      have hplace := Room.place_of_slot hslot (n := k) (k := u.size) (by omega)
      have hkept : M.read s''.memory (fp + slot.offset + k) u = v := by
        rw [h'.changes.read_eq hsolid fun a ha ha' hW => ?_, hvalue]
        rcases hW with hW | hW
        · refine hm.laid.not_touches hplace ?_ (hsp' ▸ hsp) (by omega) (by omega) hW
          rintro i hi
          cases List.mem_singleton.mp hi
          exact hown.2
        · omega
      refine ⟨v :: vs, by rw [evaluateAll, hv, hvs]; rfl, ?_, h'.sp.trans hsp', ?_⟩
      · rw [Machine.readAll, hkept, hoffset, hvalues]
      · refine (h.changes.mono fun a ha => ?_).trans (h'.changes.mono fun a ha => ?_)
        · refine ha.imp (fun ha => ?_) fun ha => ?_
          · exact ha.mono (List.subset_append_left _ _) (by omega) (Int.le_refl _)
          · rw [Ty.sizeOfAll]
            omega
        · refine ha.imp (fun ha => ?_) fun ha => ?_
          · exact ha.mono (List.subset_append_right _ _) (by omega) (by omega)
          · rw [Ty.sizeOfAll]
            omega

end Elements

/-- One value in parentheses is itself. -/
theorem computes_singleton {site : Site} {e : Expr}
    (h : (tuple site [e]).Sits Ty.Sound r scope mode) (he : e.Computes M r fp cx scope texts mode) :
    (tuple site [e]).Computes M r fp cx scope texts mode := by
  intro n hn
  have htype : (tuple site [e]).type r.types = e.type r.types := by
    obtain ⟨-, us, -, hus, hs⟩ := h.typed
    match us, hus with
    | [u], .cons ⟨_, hu, rfl, _⟩ .nil =>
        exact (TypeTable.typeOf_eq hs).trans (TypeTable.typeOf_eq hu).symm
  rw [outline_singleton, Outline.finds_expression] at hn
  obtain ⟨d, hvalue⟩ := he n hn
  refine ⟨d, fun ρ => ?_⟩
  rw [outline_singleton, Outline.code_piece, evaluate, usage, htype]
  refine (hvalue ρ).mono ?_
  rintro s s' - ⟨v, hv, h⟩
  exact ⟨v, by simp [evaluateAll, hv, Machine.Value.ofComponents], h⟩

/-- The nodes that the elements of a tuple use are among those that the tuple uses. -/
theorem nodes_elements {T : TypeTable} {site : Site} {a b : Expr} {es : List Expr} (mode : Mode) :
    (usageOfAll T (a :: b :: es)).nodes ⊆ ((tuple site (a :: b :: es)).usage T mode).nodes := by
  rw [usage, FrameUsage.nodes_append]
  · exact List.subset_append_right _ _
  · simp

/-- **A tuple is built where it is wanted**: on the stack, or in a slot. -/
theorem computes_tuple (hm : M.Setting r fp high cx) {site : Site} {a b : Expr} {es : List Expr}
    (h : (tuple site (a :: b :: es)).Sits Ty.Sound r scope mode)
    (hes : ∀ e ∈ a :: b :: es, e.Computes M r fp cx scope texts .value) :
    (tuple site (a :: b :: es)).Computes M r fp cx scope texts mode := by
  intro n hn
  obtain ⟨-, ts, -, hts, hs⟩ := h.typed
  have hs : r.types.get? site.id = some (.tuple ts) := by
    match ts, hts with
    | _ :: _ :: _, _ => exact hs
  have htype : (tuple site (a :: b :: es)).type r.types = .tuple ts := TypeTable.typeOf_eq hs
  cases mode with
  | value =>
    rw [outline, Outline.finds_expression] at hn
    · obtain ⟨d, hpushed⟩ := delivers_reverse hm h.names h.binds hts hes hn
      refine ⟨d, fun ρ => ?_⟩
      rw [outline, Outline.code_piece, htype]
      · refine (hpushed ρ).mono ?_
        rintro s s' - ⟨vs, hvs, hg⟩
        exact ⟨.tuple vs, evaluate_tuple hvs, hg.mono fun a ha =>
          ha.mono (nodes_elements _) (Int.le_refl _) (Int.le_refl _)⟩
      · simp
    · simp
  | address =>
    obtain ⟨slot, hslot, hnode, hsize⟩ := h.slot_tuple hs
    have hserves := h.serves
    have hown : site.id ∈ ((tuple site (a :: b :: es)).usage r.types .address).nodes ∧
        site.id ∉ (usageOfAll r.types (a :: b :: es)).nodes := by
      have hcharge : site.id ∈ (FrameUsage.ofCharge site.id
          ((tuple site (a :: b :: es)).ownCharge r.types .address)).nodes := by
        rw [ownCharge, TypeTable.typeOf_eq hs]
        exact List.mem_singleton_self _
      rw [usage] at hserves ⊢
      · refine ⟨?_, hserves.disjoint hcharge⟩
        rw [FrameUsage.nodes_append]
        exact List.mem_append_left _ hcharge
      all_goals simp
    have hoffset : cx.frame.slotAt site.id = slot.offset := by
      rw [hm.suits.frame, ← hnode, FrameLayout.slotAt_eq hm.suits.nodup hslot]
    have hcomponents : (cx.types.typeOf site.id).components = ts := by
      rw [hm.suits.types, TypeTable.typeOf_eq hs]
      rfl
    rw [outline, Outline.finds_expression] at hn
    · simp only [hoffset, hcomponents, Outline.finds_append] at hn
      obtain ⟨d, hfilled⟩ :=
        delivers_slot (k := 0) hm h.names h.binds hslot hts hes (hnode ▸ hown.2)
        (by rw [hsize, Ty.size, Nat.zero_add]) hn.1
      refine ⟨d + 4, fun ρ => ?_⟩
      rw [outline, Outline.code_piece, htype]
      · simp only [hoffset, hcomponents, Outline.code_append, Outline.code_ofCode]
        refine (hfilled ρ).acts ?_
        rintro s s' hsp ⟨vs, hvs, hvalues, hsp', hchanges⟩
        rw [Int.natCast_zero, Int.add_zero] at hvalues hchanges
        have hsolid : (Ty.tuple ts).Solid := Ty.solid_tuple.mpr (Elements.solid hts)
        have hwithin := (hm.laid.slots_within slot hslot).1
        have hfloor : r.floor fp = fp - r.frame.frameSize := rfl
        refine ⟨s'.push M.word (M.ofInt (fp + slot.offset)), rfl, .tuple vs, evaluate_tuple hvs,
          slot.offset, ?_, ?_, ?_⟩
        · refine ((Machine.gains_word Machine.scalar_int (by simp) _).mono fun a ha =>
            ?_).after hsp'
            (hchanges.mono fun a ha => ?_)
          · rw [hsp'] at ha
            exact Room.touches_below (k := 4) (by omega) ha
          · rcases ha with ha | ha
            · exact ha.mono (nodes_elements _) (by omega) (Int.le_refl _)
            · exact .inr ⟨slot, hslot, hnode ▸ hown.1, by omega, by rw [hsize, Ty.size]; omega⟩
        · have hplace := Room.place_of_slot hslot (n := 0) (k := (Ty.tuple ts).size) (by omega)
          rw [Int.natCast_zero, Int.add_zero] at hplace
          exact hplace.mono (List.cons_subset.mpr ⟨hnode ▸ hown.1, List.nil_subset _⟩)
        · rw [(Machine.changes_push M.word _ s').read_eq hsolid fun a ha _ hb => ?_,
            Machine.read, hvalues]
          have := hb.2
          omega
      · simp
    · simp

/-! ### Formulas -/

/-- The address of a text is that of its label. -/
theorem computes_string {site : Site} {x : String} (ht : r.types.get? site.id = some .string) :
    (string site x).Computes M r fp cx scope texts .value := by
  have htype : (string site x).type r.types = .string := TypeTable.typeOf_eq ht
  refine computes_word (fun n => textInstrs (labelName (n + 1)) x)
    (w := texts site.id) (fun n => ?_)
    (fun n s hn => ?_) (htype ▸ ⟨rfl, by simp, by simp⟩) (by simp [htype]) fun _ => rfl
  · rw [outline, Outline.code_piece, Outline.code_piece, Outline.code_ofCode]
  · rw [outline, Outline.finds_expression] at hn
    have hlabel : texts site.id = M.label (labelName (n + 1)) :=
      hn (site.id, labelName (n + 1)) List.mem_cons_self
    rw [hlabel]
    rfl

mutual

/-- **The code of a formula leaves what the formula stands for.** -/
theorem computes (hm : M.Setting r fp high cx) :
    ∀ {e : Expr} {mode : Mode}, e.Sits Ty.Sound r scope mode →
    e.IsFormula scope → e.Computes M r fp cx scope texts mode
  | .integer s k, .value, h, _ => by
    have htype : (integer s k).type r.types = .int := TypeTable.typeOf_eq h.typed
    refine computes_word (fun _ => [.int k.toInt]) (fun n => ?_) (fun n s _ => rfl)
      (htype ▸ Machine.scalar_int) (by simp [htype]) fun _ => rfl
    rw [outline, Outline.code_piece, Outline.code_ofCode]
  | .double s d, .value, h, _ => computes_double h.typed
  | .string s x, .value, h, _ => computes_string h.typed
  | .nullptr s, .value, h, _ => by
    have htype : (nullptr s).type r.types = .genericPointer := TypeTable.typeOf_eq h.typed
    refine computes_word (fun _ => [.int 0]) (fun n => ?_) (fun n s _ => rfl)
      (htype ▸ Machine.scalar_pointer .void) (by simp [htype, Ty.genericPointer]) fun _ => rfl
    rw [outline, Outline.code_piece, Outline.code_ofCode]
  | .sizeof s e, .value, h, _ => by
    have htype : (sizeof s e).type r.types = .int := TypeTable.typeOf_eq h.typed.2
    refine computes_word (fun _ => [.int (e.type cx.types).size]) (fun n => ?_) (fun n s _ => rfl)
      (htype ▸ Machine.scalar_int) (by simp [htype]) fun _ => by rw [evaluate, hm.suits.types]
    rw [outline, Outline.code_piece, Outline.code_ofCode]
  | .variable s name, .address, h, hf => computes_variable hm h hf
  | .tupleIndex s b i, .address, h, hf => by
    rw [IsFormula] at hf
    exact computes_tupleIndex hm h (computes hm h.tupleIndex hf)
  | .rvalue s p, mode, h, hf => by
    rw [IsFormula] at hf
    exact computes_rvalue hm h (computes hm h.rvalue hf)
  | .unary s op a, .value, h, hf => by
    rw [IsFormula] at hf
    exact computes_unary hm h (computes hm h.unary hf)
  | .binary s op a b, .value, h, hf => by
    rw [IsFormula] at hf
    exact computes_binary hm h (computes hm h.binary.1 hf.1) (computes hm h.binary.2 hf.2)
  | .tuple s [], mode, h, _ => by
    obtain ⟨-, us, hne, hus, -⟩ := h.typed
    cases hus
    exact absurd rfl hne
  | .tuple s [e], mode, h, hf => by
    rw [IsFormula] at hf
    exact computes_singleton h (computes hm h.tuple_singleton hf.1)
  | .tuple s (a :: b :: es), mode, h, hf => by
    rw [IsFormula] at hf
    exact computes_tuple hm h (allCompute hm h.tuple_plural hf)
  | .integer .., .address, h, _ | .double .., .address, h, _ | .string .., .address, h, _
  | .nullptr _, .address, h, _ | .unary .., .address, h, _ | .binary .., .address, h, _
  | .sizeof .., .address, h, _ | .variable .., .value, h, _
  | .tupleIndex .., .value, h, _ => by cases h.leaves
  | .input _, _, _, hf | .pointerIndex .., _, _, hf | .assignment .., _, _, hf
  | .addressOf .., _, _, hf | .stackAlloc .., _, _, hf | .call .., _, _, hf => by
    rw [IsFormula] at hf
    exact hf.elim

/-- As `computes`, for several formulas whose values are wanted. -/
theorem allCompute (hm : M.Setting r fp high cx) :
    ∀ {es : List Expr}, (∀ e ∈ es, e.Sits Ty.Sound r scope .value) →
    AllFormulas scope es → ∀ e ∈ es, e.Computes M r fp cx scope texts .value
  | [], _, _ => by simp
  | e :: es, h, hf => by
    rw [List.forall_mem_cons] at h ⊢
    rw [AllFormulas] at hf
    exact ⟨computes hm h.1 hf.1, allCompute hm h.2 hf.2⟩

end

end Expr

end PostfixCompiler
