import PostfixCompiler.Proofs.Machine.EffectRun

/-!
# Tuples and calls are carried out

The elements of a tuple are pushed one after the other, the last one first, or put into a slot; the
arguments of a call are pushed in the same way, each as what its parameter is. Behind its arguments
a function is called with what it is promised, so it does what the stage says, and its result is
fetched from a register, or from the bytes of the frame where the results of calls go.

With that each kind of expression is dealt with, and the main theorem is a recursion that asks for
the right mode of each part.

## Main definitions

* `PostfixCompiler.Machine.Scene.Fills`: bytes of a slot are filled.

## Main statements

* `PostfixCompiler.Expr.carries_fromLast`, `PostfixCompiler.Expr.carries_fromFirst`: the elements of
  a tuple.
* `PostfixCompiler.Machine.Scene.Sound.goes_called`: a function is called, and its arguments are
  dropped.
* `PostfixCompiler.Expr.performs`: the code of an expression carries out what the expression does.
-/

namespace PostfixCompiler

open Emission

namespace Emission

/-- The instruction that fetches the result of a call from its register. -/
def resultInstr (t : Ty) : Instr := if t = .double then .loadResultDouble else .loadResultInt

theorem callInstrs_scalar {t : Ty} (ht : t.Scalar) (area : Int) (label : String) (bytes : Nat) :
    callInstrs area label t bytes .value =
      Instr.call label :: trashInstrs bytes ++ [resultInstr t] := by
  obtain ⟨htuple, hv, ha⟩ := ht
  cases t with
  | tuple => cases htuple
  | void => exact absurd rfl hv
  | auto => exact absurd rfl ha
  | _ => rfl

end Emission

namespace Machine

namespace Scene

variable {M : Machine} {W : Type} {C : M.Scene W} {cx : Context} {ids ids' : List NodeId}
  {s s₁ s₂ : M.Store}

/-! ### Slots -/

/-- **Bytes of a slot are filled.** Nothing else changes but what code may change. -/
structure Fills (C : M.Scene W) (ids : List NodeId) (a : Int) (size : Nat)
    (s s' : M.Store) : Prop where
  /-- The stack is as it was. -/
  sp : s'.sp = s.sp
  /-- Only some bytes may change. -/
  changes : Changes (fun b => C.Alters ids s.sp b ∨ a ≤ b ∧ b < a + size) s.memory s'.memory

/-- **What is in a slot does not change with the slots of other nodes.** -/
theorem Sound.not_alters_slot (hC : C.Sound cx) {slot : Slot} (hslot : slot ∈ C.room.frame.slots)
    (hid : slot.node ∉ ids) {top : Int} (htop : top ≤ C.base) {a : Int}
    (ha : C.stage.fp + slot.offset ≤ a) (ha' : a < C.stage.fp + slot.offset + slot.size) :
    ¬C.Alters ids top a := by
  have hkeeps : C.Keeps [slot.node] (C.stage.fp + slot.offset) slot.size :=
    .inl ⟨slot, hslot, List.mem_singleton_self _, Int.le_refl _, Int.le_refl _⟩
  rintro (hown | htouches | hcalls)
  · exact hC.own_apart a hown _ (hkeeps.isPrivate ha ha')
  · refine hC.keeps_apart hkeeps ?_ (htop.trans hC.base_le) ha ha' htouches
    rintro i hi
    cases List.mem_singleton.mp hi
    exact hid
  · have hapart := hC.calls_apart slot hslot
    unfold InCalls at hcalls
    omega

/-! ### Calls -/

/-- **A function is called, and its arguments are dropped.** -/
theorem goes_called (hH : C.Honors) {code : List Instr} {p n : Nat} {w : C.surroundings.World}
    {σ σ' : W × M.Memory} {c : Callee} {vs : List M.Value} {v : M.Value}
    (hc : Holds code p (.call c.label :: trashInstrs n)) (hagrees : C.Agrees σ w s)
    (hroom : C.bottom + C.reserve ≤ s.sp)
    (hvs : M.readAll s.memory (s.sp + c.hidden) c.parameters = vs)
    (hv : C.stage.functions c vs σ = some (v, σ')) :
    ∃ w' s', C.surroundings.Goes C.stage.fp code (p, w, s) [⟨c.label, w, s⟩]
        (p + (Instr.call c.label :: trashInstrs n).length, w', s') ∧ C.Agrees σ' w' s' ∧
        s'.sp = s.sp + n ∧
      c.Returned s w' s' v ∧
      Changes (fun a => C.stage.own a = true ∨ (C.bottom ≤ a ∧ a < s.sp + c.passed) ∨
        c.Receives s a) s.memory s'.memory := by
  obtain ⟨w', s', hcall, hagrees', hsp, hreturned, hchanges⟩ :=
    hH c vs σ σ' v hv w s hagrees hroom hvs
  exact ⟨w', s'.drop n, Surroundings.goes_dropped hc hcall, hagrees',
    by rw [Store.sp_drop, hsp], hreturned, hchanges⟩

end Scene

end Machine

namespace Expr

open Machine

variable {M : Machine} {W : Type} {C : M.Scene W} {cx : Context} {scope : View Symbol}
  {mode : Mode} {n : Nat}

/-! ### Tuples -/

/-- What is pushed of the elements of a tuple is part of what they take. -/
theorem Elements.size_le_need {T : TypeTable} {es : List Expr} {ts : List Ty}
    (h : Elements T es ts) :
    Ty.sizeOfAll ts ≤ needOfAll T es := by
  induction h with
  | nil => exact Nat.le_refl 0
  | cons he _ ih =>
    obtain ⟨_, ht, rfl, -⟩ := he
    rw [Ty.sizeOfAll, needOfAll, TypeTable.typeOf_eq ht]
    omega

/-- What is pushed of arguments that are scalars is part of what they take. -/
theorem size_le_need_of_scalar (T : TypeTable) {es : List Expr} {ps : List Ty}
    {R : Expr → Ty → Prop} (h : List.Forall₂ R es ps) (hscalar : ∀ p ∈ ps, p.Scalar) :
    Ty.sizeOfAll ps ≤ needOfAll T es := by
  induction h with
  | nil => exact Nat.le_refl 0
  | cons _ _ ih =>
    rw [List.forall_mem_cons] at hscalar
    have hsize := hscalar.1.size_le
    have hrest := ih hscalar.2
    rw [Ty.sizeOfAll, needOfAll]
    omega

/-- Nothing is pushed, and that is a tuple without components. -/
theorem carries_nil {ids : List NodeId} :
    C.Carries [] (pure [] : M.Course W (List M.Value)) 0 fun vs s s' =>
    s.Gains s' (C.Alters ids s.sp) (.tuple []) (.tuple vs) := by
  refine Scene.Carries.of_acts fun vs s w σ σ' _ _ hagrees hvs => ?_
  obtain ⟨rfl, rfl⟩ := Course.pure_eq_some.mp hvs
  refine ⟨s, rfl, hagrees, Int.add_zero _, ?_, .refl _ _⟩
  rw [Machine.read, Machine.readAll]

section Elements

variable (hC : C.Sound cx) {es : List Expr} {ts : List Ty}

include hC

/-- A value is put in front of the components of a tuple, by code that may change what the code
before it may. -/
theorem gains_cons {s s₁ s₂ : M.Store} {ids ids' : List NodeId} {t : Ty} {v : M.Value}
    {vs : List M.Value} (hts : ∀ u ∈ ts, u.Solid) (hsp : s.sp ≤ C.base) (hbottom : C.bottom ≤ s₁.sp)
    (h : s.Gains s₁ (C.Alters ids s.sp) (.tuple ts) (.tuple vs))
    (h' : s₁.Gains s₂ (C.Alters ids' s₁.sp) t v) :
    s.Gains s₂ (C.Alters (ids' ++ ids) s.sp) (.tuple (t :: ts)) (.tuple (v :: vs)) := by
  have hle := h.size_le
  refine h.cons hts h' (fun a ha ha' => ?_) (fun a ha => ?_) fun a ha => ?_
  · exact hC.not_alters_stack ha (by omega) (by omega)
  · exact ha.mono (List.subset_append_right _ _) (Int.le_refl _)
  · exact ha.mono (List.subset_append_left _ _) hle

/-- **The elements of a tuple are pushed**, the last one first. -/
theorem carries_fromLast (hts : Elements C.room.types es ts)
    (hes : ∀ e ∈ es, e.Performs C cx scope .value)
    (hn : (reverseOutline cx scope n es).Finds M C.stage.texts) :
    C.Carries (reverseOutline cx scope n es).code (fromLast C.stage scope es)
      (needOfAll C.room.types es) fun vs s s' =>
      s.Gains s' (C.Alters (usageOfAll C.room.types es).nodes s.sp) (.tuple ts) (.tuple vs) := by
  induction hts generalizing n with
  | nil =>
    rw [reverseOutline, fromLast]
    exact carries_nil
  | @cons e t es ts he hts ih =>
    obtain ⟨_, ht, rfl, -⟩ := he
    have htype : e.type C.room.types = _ := TypeTable.typeOf_eq ht
    rw [List.forall_mem_cons] at hes
    rw [reverseOutline, Outline.finds_append] at hn
    have hrest := ih hes.2 hn.1
    have hfirst := hes.1 _ hn.2
    have hsize := Elements.size_le_need hts
    rw [htype] at hfirst
    rw [reverseOutline, Outline.code_append, usageOfAll, FrameUsage.nodes_append,
      fromLast, needOfAll, ← List.append_nil (_ ++ _)]
    refine hrest.both (k := Ty.sizeOfAll ts) (fun vs s s' h => ?_) hfirst (by omega) (by omega)
      fun vs v s s₁ s₂ w σ σ' z hsp hroom h h' hagrees hz => ?_
    · have := h.sp
      rw [Ty.size] at this
      omega
    · obtain ⟨rfl, rfl⟩ := Course.pure_eq_some.mp hz
      have hs₁ := h.sp
      rw [Ty.size] at hs₁
      exact ⟨s₂, rfl, hagrees, gains_cons hC (Elements.solid hts) hsp (by omega) h h'⟩

/-- An element is pushed, and moved to its place in a slot. -/
theorem carries_element {slot : Slot} (hslot : slot ∈ C.room.frame.slots) {e : Expr} {t : Ty}
    (ht : e.type C.room.types = t) (hsolid : t.Solid) {k : Nat} (hk : k + t.size ≤ slot.size)
    (he : e.Performs C cx scope .value) (hn : (e.outline cx scope .value n).Finds M C.stage.texts) :
    C.Carries ((e.outline cx scope .value n).code ++
      storeInstrs (Base.frame slot.offset).instrs t t k)
      (e.value C.stage scope) (e.need C.room.types + (t.size + 12)) fun v s s' =>
        M.read s'.memory (C.stage.fp + slot.offset + k) t = v ∧
        C.Fills (e.usage C.room.types .value).nodes (C.stage.fp + slot.offset + k) t.size s s' := by
  have hvalue := he n hn
  rw [ht] at hvalue
  refine hvalue.aside _ (Nat.le_add_right _ _) fun v s s₁ w σ hsp hroom hg hagrees => ?_
  have hsp₁ := hg.sp
  have hwithin := hC.laid.slots_within slot hslot
  have hfloor : C.room.floor C.stage.fp = C.stage.fp - C.room.frame.frameSize := rfl
  have hframe := hC.frame
  have hbase := hC.base_le
  have hplace : Machine.Place C.stage.fp C.low C.high s₁ (C.stage.fp + slot.offset)
      (.frame slot.offset) k t.size
      t.size := ⟨rfl, by omega, by omega, .inl (by omega), nofun⟩
  obtain ⟨s₂, hs₂, hsaved⟩ := acts_store hC.addresses hsolid hplace
  have hchanges := hsaved.changes
  rw [hsp₁] at hchanges
  refine ⟨s₂, hs₂, ?_, by rw [hsaved.value, hg.value], by rw [hsaved.sp, hsp₁], ?_⟩
  · have hprivate : Changes (C.Private [slot.node] s.sp) s₁.memory s₂.memory := by
      refine hchanges.mono fun a ha => ?_
      rcases ha with ha | ha
      · exact Scene.private_below (by omega) ha
      · exact .inl (.inr ⟨slot, hslot, List.mem_singleton_self _, by omega, by omega⟩)
    exact hagrees.of_private hC hsp hprivate
  · refine (hg.changes.mono fun a ha => .inl ha).trans (hchanges.mono fun a ha => ?_)
    exact ha.imp_left fun ha => .inr (Scene.private_below (by omega) ha)

/-- **The elements of a tuple are put into a slot**, one after the other. -/
theorem carries_fromFirst {slot : Slot} (hslot : slot ∈ C.room.frame.slots)
    (hts : Elements C.room.types es ts) (hes : ∀ e ∈ es, e.Performs C cx scope .value)
    (hown : slot.node ∉ (usageOfAll C.room.types es).nodes) {k : Nat}
    (hk : k + Ty.sizeOfAll ts ≤ slot.size)
    (hn : (slotOutline cx scope slot.offset n es ts k).Finds M C.stage.texts) :
    C.Carries (slotOutline cx scope slot.offset n es ts k).code (fromFirst C.stage scope es)
      (needOfAll C.room.types es)
      fun vs s s' => M.readAll s'.memory (C.stage.fp + slot.offset + k) ts = vs ∧
        C.Fills (usageOfAll C.room.types es).nodes (C.stage.fp + slot.offset + k)
          (Ty.sizeOfAll ts) s s' := by
  induction hts generalizing n k with
  | nil =>
    rw [slotOutline, fromFirst]
    · refine Scene.Carries.of_acts fun vs s w σ σ' _ _ hagrees hvs => ?_
      obtain ⟨rfl, rfl⟩ := Course.pure_eq_some.mp hvs
      refine ⟨s, rfl, hagrees, ?_, rfl, .refl _ _⟩
      rw [Machine.readAll]
    · simp
  | @cons e t es ts he hts ih =>
    obtain ⟨u, ht, rfl, hsound, hv⟩ := he
    have htype : e.type C.room.types = u := TypeTable.typeOf_eq ht
    have hsolid := hsound.solid hv
    rw [List.forall_mem_cons] at hes
    rw [Ty.sizeOfAll] at hk
    rw [usageOfAll, FrameUsage.nodes_append, List.mem_append, not_or] at hown
    rw [slotOutline, Outline.finds_append, Outline.finds_append] at hn
    have hfirst := carries_element hC hslot htype hsolid (k := k) (by omega) hes.1 hn.1.1
    have hrest := ih hes.2 hown.2 (by omega) hn.2
    rw [slotOutline, Outline.code_append, Outline.code_append, Outline.code_ofCode, hC.suits.types,
      htype, usageOfAll, FrameUsage.nodes_append, fromFirst, needOfAll,
      TypeTable.typeOf_eq ht, ← List.append_nil (_ ++ _)]
    refine hfirst.both (k := 0) (fun v s s' h => ?_) hrest (by omega) (by omega)
      fun v vs s s₁ s₂ w σ σ' z hsp hroom h h' hagrees hz => ?_
    · have := h.2.sp
      omega
    · obtain ⟨rfl, rfl⟩ := Course.pure_eq_some.mp hz
      obtain ⟨hvalue, hfills⟩ := h
      obtain ⟨hvalues, hfills'⟩ := h'
      have hsp' := hfills.sp
      have hoffset : C.stage.fp + slot.offset + k + u.size =
          C.stage.fp + slot.offset + (k + u.size : Nat) := by omega
      -- The element is in the slot, which no other element uses, and before the bytes of the
      -- others.
      have hkept : M.read s₂.memory (C.stage.fp + slot.offset + k) u = v := by
        rw [hfills'.changes.read_eq hsolid fun a ha ha' hW => ?_, hvalue]
        rcases hW with hW | hW
        · exact hC.not_alters_slot hslot hown.2 (hsp'.trans_le hsp) (by omega) (by omega) hW
        · omega
      refine ⟨s₂, rfl, hagrees, ?_, hfills'.sp.trans hsp', ?_⟩
      · rw [Machine.readAll, hkept, hoffset, hvalues]
      · refine (hfills.changes.mono fun a ha => ?_).trans (hfills'.changes.mono fun a ha => ?_)
        · refine ha.imp (fun ha => ha.mono (List.subset_append_left _ _) (Int.le_refl _))
            fun ha => ?_
          rw [Ty.sizeOfAll]
          omega
        · refine ha.imp (fun ha => ha.mono (List.subset_append_right _ _) (by omega)) fun ha => ?_
          rw [Ty.sizeOfAll]
          omega

end Elements

/-- One value in parentheses is itself. -/
theorem performs_singleton {site : Site} {e : Expr}
    (h : (tuple site [e]).Sits Ty.Sound C.room scope mode) (he : e.Performs C cx scope mode) :
    (tuple site [e]).Performs C cx scope mode := by
  have htype : (tuple site [e]).type C.room.types = e.type C.room.types := by
    obtain ⟨-, us, -, hus, hs⟩ := h.typed
    match us, hus with
    | [u], .cons ⟨_, hu, rfl, _⟩ .nil =>
        exact (TypeTable.typeOf_eq hs).trans (TypeTable.typeOf_eq hu).symm
  have hneed : e.need C.room.types ≤ (tuple site [e]).need C.room.types := by
    rw [need, needOfAll]
    omega
  cases mode with
  | value =>
    intro n hn
    rw [outline_singleton, Outline.finds_expression] at hn
    rw [outline_singleton, Outline.code_piece, value_singleton, usage, htype]
    exact Scene.Carries.le hneed (he n hn)
  | address =>
    intro n hn
    rw [outline_singleton, Outline.finds_expression] at hn
    rw [outline_singleton, Outline.code_piece, locate_singleton, usage, htype]
    exact Scene.Carries.le hneed (he n hn)

/-- **A tuple is built on the stack** where its value is wanted. -/
theorem performs_tuple_value (hC : C.Sound cx) {site : Site} {a b : Expr} {es : List Expr}
    (h : (tuple site (a :: b :: es)).Sits Ty.Sound C.room scope .value)
    (hes : ∀ e ∈ a :: b :: es, e.Performs C cx scope .value) :
    (tuple site (a :: b :: es)).Performs C cx scope .value := by
  intro n hn
  obtain ⟨-, ts, -, hts, hs⟩ := h.typed
  have htype : (tuple site (a :: b :: es)).type C.room.types = .tuple ts := by
    match ts, hts with
    | _ :: _ :: _, _ => exact TypeTable.typeOf_eq hs
  rw [outline, Outline.finds_expression] at hn
  · have hpushed := carries_fromLast hC hts hes hn
    rw [outline, Outline.code_piece, htype, value, need]
    · refine (hpushed.le (Nat.le_add_right _ 4)).still fun vs s s' w σ σ' v _ _ hg hagrees hv => ?_
      obtain ⟨rfl, rfl⟩ := Course.pure_eq_some.mp hv
      exact ⟨hagrees, hg.mono fun a ha => ha.mono (nodes_elements _) (Int.le_refl _)⟩
    all_goals simp
  · simp

/-- **A tuple is built in a slot** where its address is wanted. -/
theorem performs_tuple_address (hC : C.Sound cx) {site : Site} {a b : Expr} {es : List Expr}
    (h : (tuple site (a :: b :: es)).Sits Ty.Sound C.room scope .address)
    (hes : ∀ e ∈ a :: b :: es, e.Performs C cx scope .value) :
    (tuple site (a :: b :: es)).Performs C cx scope .address := by
  intro n hn
  obtain ⟨-, ts, -, hts, hs⟩ := h.typed
  have hs : C.room.types.get? site.id = some (.tuple ts) := by
    match ts, hts with
    | _ :: _ :: _, _ => exact hs
  have htype : (tuple site (a :: b :: es)).type C.room.types = .tuple ts := TypeTable.typeOf_eq hs
  obtain ⟨slot, hslot, hnode, hsize⟩ := h.slot_tuple hs
  have hserves := h.serves
  have hcharge : site.id ∈ (FrameUsage.ofCharge site.id
      ((tuple site (a :: b :: es)).ownCharge C.room.types .address)).nodes := by
    rw [ownCharge, TypeTable.typeOf_eq hs]
    exact List.mem_singleton_self _
  have hown : site.id ∈ ((tuple site (a :: b :: es)).usage C.room.types .address).nodes ∧
      site.id ∉ (usageOfAll C.room.types (a :: b :: es)).nodes := by
    rw [usage] at hserves ⊢
    · refine ⟨?_, hserves.disjoint hcharge⟩
      rw [FrameUsage.nodes_append]
      exact List.mem_append_left _ hcharge
    all_goals simp
  have hoffset : cx.frame.slotAt site.id = slot.offset := by
    rw [hC.suits.frame, ← hnode, FrameLayout.slotAt_eq hC.suits.nodup hslot]
  have hcomponents : (cx.types.typeOf site.id).components = ts := by
    rw [hC.suits.types, TypeTable.typeOf_eq hs]
    rfl
  rw [outline, Outline.finds_expression] at hn
  · simp only [hoffset, hcomponents, Outline.finds_append] at hn
    have hfilled := carries_fromFirst (k := 0) hC hslot hts hes (hnode ▸ hown.2)
      (by rw [hsize, Ty.size, Nat.zero_add]) hn.1
    rw [outline, Outline.code_piece, htype, locate, need]
    · simp only [hoffset, hcomponents, Outline.code_append, Outline.code_ofCode]
      refine hfilled.acts (Nat.le_add_right _ _)
        fun vs s s₁ w σ σ' l hsp hroom hfills hagrees hl => ?_
      obtain ⟨rfl, rfl⟩ := Course.pure_eq_some.mp hl
      obtain ⟨hvalues, hsp₁, hchanges⟩ := hfills
      rw [Int.natCast_zero, Int.add_zero] at hvalues hchanges
      have hsolid : (Ty.tuple ts).Solid := Ty.solid_tuple.mpr (Elements.solid hts)
      have hwithin := (hC.laid.slots_within slot hslot).1
      have hfloor : C.room.floor C.stage.fp = C.stage.fp - C.room.frame.frameSize := rfl
      have hbase := hC.base_le
      have hpushed : s₁.Gains _ (Below s₁.sp 4) .int (.word (M.ofInt (C.stage.fp + slot.offset))) :=
        gains_word scalar_int (by simp) _
      obtain ⟨hagrees', hg⟩ := hC.push _ (hsp₁.trans_le hsp) (by omega) hagrees hpushed
      refine ⟨_, rfl, hagrees', C.stage.fp + slot.offset, ?_, ?_, ?_⟩
      · refine (hg.mono fun a ha => ?_).after hsp₁ (hchanges.mono fun a ha => ?_)
        · exact ha.mono (nodes_elements _) hsp₁.le
        · rcases ha with ha | ha
          · exact ha.mono (nodes_elements _) (Int.le_refl _)
          · exact .inr
              (.inl (.inr ⟨slot, hslot, hnode ▸ hown.1, by omega, by rw [hsize, Ty.size]; omega⟩))
      · exact .inl ⟨slot, hslot, hnode ▸ hown.1, Int.le_refl _, by rw [hsize]⟩
      · rw [hpushed.changes.read_eq hsolid fun a ha _ hb => ?_, Machine.read, hvalues]
        have := hb.2
        omega
    all_goals simp
  · simp

/-! ### Calls -/

/-- **Arguments are pushed**, the last one first, each as what its parameter is. -/
theorem carries_arguments (hC : C.Sound cx) {es : List Expr} {ps : List Ty}
    (hps : List.Forall₂ (fun a p => ∃ u, C.room.types.get? (Expr.id a) = some u ∧ p.Fits u) es ps)
    (hscalar : ∀ p ∈ ps, p.Scalar) (hplural : ∀ e ∈ es, (e.type C.room.types).IsPlural)
    (hes : ∀ e ∈ es, e.Performs C cx scope .value)
    (hn : (argumentsOutline cx scope n es ps).Finds M C.stage.texts) :
    C.Carries (argumentsOutline cx scope n es ps).code (arguments C.stage scope es ps)
      (needOfAll C.room.types es)
      fun vs s s' =>
        s.Gains s' (C.Alters (usageOfAll C.room.types es).nodes s.sp) (.tuple ps) (.tuple vs) := by
  induction hps generalizing n with
  | nil =>
    rw [argumentsOutline, arguments]
    · exact carries_nil
    all_goals simp
  | @cons e p es ps he hps ih =>
    obtain ⟨u, ht, hf⟩ := he
    have htype : e.type C.room.types = u := TypeTable.typeOf_eq ht
    rw [List.forall_mem_cons] at hscalar hplural hes
    have htuple : u.isTuple = false := by
      have hstripped := Ty.isTuple_stripped_of_fits hscalar.1.1 hf
      rwa [Ty.stripped_of_isPlural (htype ▸ hplural.1)] at hstripped
    rw [argumentsOutline, Outline.finds_append, Outline.finds_append] at hn
    have hrest := ih hscalar.2 hplural.2 hes.2 hn.1.1
    have hvalue := hes.1 _ hn.1.2
    have hsize := size_le_need_of_scalar C.room.types hps hscalar.2
    rw [htype] at hvalue
    -- The argument is widened where it has to be.
    have hfirst := hvalue.aside (widenInstrs p u)
      (Q := fun v s s' =>
        s.Gains s' (C.Alters (e.usage C.room.types .value).nodes s.sp) p (v.widened p))
      (Nat.le_add_right _ 8) fun v s s₁ w σ hsp hroom hg hagrees => by
        obtain ⟨s₂, hs₂, hfits⟩ :=
          acts_fits C.stage.fp (hg.here (Below s.sp 8)) hscalar.1 htuple hf fun a ha => by
          rwa [Store.sp_drop, hg.sp] at ha
        exact ⟨s₂, hs₂,
          hC.settle (d := s₁.drop _) hsp (by omega) hg.changes hagrees hg.sp rfl hfits⟩
    rw [argumentsOutline, Outline.code_append, Outline.code_append, Outline.code_ofCode,
      hC.suits.types, htype, usageOfAll, FrameUsage.nodes_append, arguments, needOfAll,
      List.append_assoc, ← List.append_nil (_ ++ (_ ++ _))]
    refine hrest.both (k := Ty.sizeOfAll ps) (fun vs s s' h => ?_) hfirst (by omega) (by omega)
      fun vs v s s₁ s₂ w σ σ' z hsp hroom h h' hagrees hz => ?_
    · have := h.sp
      rw [Ty.size] at this
      omega
    · obtain ⟨rfl, rfl⟩ := Course.pure_eq_some.mp hz
      have hs₁ := h.sp
      rw [Ty.size] at hs₁
      have hsolid : ∀ q ∈ ps, q.Solid := fun q hq => Ty.solid_of_scalar (hscalar.2 q hq)
      exact ⟨s₂, rfl, hagrees, gains_cons hC hsolid hsp (by omega) h h'⟩

section Call

variable (hC : C.Sound cx) (hH : C.Honors) {ids : List NodeId} {ps : List Ty} {label : String}

include hC hH

/-- **A function is called that returns a tuple**, and the tuple is where the results of calls
go. -/
theorem goes_tuple_call {ts : List Ty} (hscalar : ∀ p ∈ ps, p.Scalar)
    (hsize : (Ty.tuple ts).size ≤ C.room.frame.callTempSize) {s s₁ : M.Store}
    {vs : List M.Value} {v : M.Value} {w : C.surroundings.World} {σ σ' : W × M.Memory}
    (hsp : s.sp ≤ C.base) (hroom : C.bottom + 4 + C.reserve ≤ s₁.sp)
    (hg : s.Gains s₁ (C.Alters ids s.sp) (.tuple ps) (.tuple vs))
    (hagrees : C.Agrees σ w s₁) (hv : C.stage.functions ⟨label, ps, .tuple ts⟩ vs σ = some (v, σ'))
    {code : List Instr} {p : Nat}
    (hc : Holds code p (Instr.frameAddress C.room.frame.callTempOffset :: Instr.call label ::
      trashInstrs (Ty.sizeOfAll ps + Ty.wordSize))) : ∃ cs w' s',
      C.surroundings.Goes C.stage.fp code (p, w, s₁) cs
        (p + (Instr.frameAddress C.room.frame.callTempOffset ::
        Instr.call label :: trashInstrs (Ty.sizeOfAll ps + Ty.wordSize)).length, w', s') ∧
        C.Agrees σ' w' s' ∧
      s'.sp = s.sp ∧ M.read s'.memory (C.stage.fp + C.room.frame.callTempOffset) (.tuple ts) = v ∧
      Changes (C.Alters ids s.sp) s.memory s'.memory := by
  have hword : Ty.wordSize = 4 := rfl
  have hhidden : (⟨label, ps, .tuple ts⟩ : Callee).hidden = 4 := rfl
  have hpassed : (⟨label, ps, .tuple ts⟩ : Callee).passed = 4 + Ty.sizeOfAll ps := rfl
  have hle := hg.sp
  rw [Ty.size] at hle
  have hcalls := hC.calls_within
  have hframe := hC.frame
  let A := C.stage.fp + C.room.frame.callTempOffset
  have haddress : M.toInt (M.ofInt A) = A := hC.addresses.toInt_ofInt A (by omega) (by omega)
  -- The address where the result goes is pushed above the arguments.
  let s₂ := s₁.push M.word (M.ofInt A)
  have hs₂ : s₂.sp = s₁.sp - 4 := rfl
  have htop : s₂.top M.word = M.ofInt A := Store.top_push _ _ _
  have hpush : M.Runs C.stage.fp code (p, s₁) (p + 1, s₂) := .single (step_act hc.head rfl)
  have hpushed : s₁.Gains s₂ (Below s₁.sp 4) .int (.word (M.ofInt A)) :=
    gains_word scalar_int (by simp) _
  obtain ⟨hagrees₂, hg₂⟩ := hC.push ids (by omega) (by omega) hagrees hpushed
  have hsolid : (Ty.tuple ps).Solid :=
    Ty.solid_tuple.mpr fun p hp => Ty.solid_of_scalar (hscalar p hp)
  have hargs : M.read s₂.memory s₁.sp (.tuple ps) = .tuple vs := by
    rw [hpushed.changes.read_eq hsolid fun a ha _ hb => ?_, hg.value]
    have := hb.2
    omega
  rw [Machine.read, Value.tuple.injEq] at hargs
  have hvs : M.readAll s₂.memory (s₂.sp + (⟨label, ps, .tuple ts⟩ : Callee).hidden) ps = vs := by
    rw [← hargs, hhidden, hs₂, show s₁.sp - 4 + (4 : Nat) = s₁.sp by omega]
  obtain ⟨w', s₃, hgoes, hagrees₃, hsp₃, hreturned, hchanges⟩ :=
    Scene.goes_called hH (w := w) hc.tail hagrees₂ (by omega) hvs hv
  have hresult : M.read s₃.memory (M.toInt (s₂.top M.word)) (.tuple ts) = v := hreturned
  rw [htop, haddress] at hresult
  refine ⟨[⟨label, w, s₂⟩], w', s₃, ?_, hagrees₃, by omega, hresult, ?_⟩
  · rw [List.length_cons, Nat.add_comm _ 1, ← Nat.add_assoc]
    exact (Surroundings.goes_of_runs hpush w).behind hgoes
  · refine (hg.changes.trans (hg₂.changes.mono fun a ha =>
      ha.mono (List.Subset.refl _) (by omega))).trans
      (hchanges.mono fun a ha => ?_)
    rcases ha with hown | hstack | ⟨-, hstart, hstop⟩
    · exact .inl hown
    · exact .inr (.inl (.inl ⟨hstack.1, by omega⟩))
    · rw [htop, haddress] at hstart hstop
      exact .inr (.inr ⟨hstart, hstop.trans_le (by dsimp only; omega)⟩)

/-- **A function is called that returns a scalar**, and the scalar is fetched from its register. -/
theorem goes_scalar_call {t : Ty} (ht : t.Scalar) {s s₁ : M.Store} {vs : List M.Value} {v : M.Value}
    {w : C.surroundings.World} {σ σ' : W × M.Memory} (hsp : s.sp ≤ C.base)
    (hroom : C.bottom + C.reserve ≤ s₁.sp) (hroom' : C.bottom + 8 ≤ s.sp)
    (hg : s.Gains s₁ (C.Alters ids s.sp) (.tuple ps) (.tuple vs)) (hagrees : C.Agrees σ w s₁)
    (hv : C.stage.functions ⟨label, ps, t⟩ vs σ = some (v, σ')) {code : List Instr} {p : Nat}
    (hc : Holds code p (Instr.call label :: trashInstrs (Ty.sizeOfAll ps) ++ [resultInstr t])) :
    ∃ cs w' s',
      C.surroundings.Goes C.stage.fp code (p, w, s₁) cs
        (p + (Instr.call label :: trashInstrs (Ty.sizeOfAll ps) ++ [resultInstr t]).length,
          w', s') ∧
      C.Agrees σ' w' s' ∧ s.Gains s' (C.Alters ids s.sp) t v := by
  have hle := hg.sp
  rw [Ty.size] at hle
  have htuple : ¬t.isTuple = true := by simp [ht.1]
  have hhidden : (⟨label, ps, t⟩ : Callee).hidden = 0 := if_neg htuple
  have hpassed : (⟨label, ps, t⟩ : Callee).passed = Ty.sizeOfAll ps := by
    rw [Callee.passed, hhidden, Nat.zero_add]
  have hvs : M.readAll s₁.memory (s₁.sp + (⟨label, ps, t⟩ : Callee).hidden) ps = vs := by
    have hargs := hg.value
    rw [Machine.read, Value.tuple.injEq] at hargs
    rw [hhidden, Int.natCast_zero, Int.add_zero, hargs]
  obtain ⟨w', s₂, hgoes, hagrees₂, hsp₂, hreturned, hchanges⟩ :=
    Scene.goes_called hH (w := w) hc.left hagrees hroom hvs hv
  have hsp₂ : s₂.sp = s.sp := by omega
  have hchanges₂ : Changes (C.Alters ids s.sp) s.memory s₂.memory := by
    refine hg.changes.trans (hchanges.mono fun a ha => ?_)
    rcases ha with hown | hstack | hreceives
    · exact .inl hown
    · exact .inr (.inl (.inl ⟨hstack.1, by omega⟩))
    · exact absurd hreceives.1 htuple
  -- The register is pushed, and what is in it is the result.
  obtain ⟨s₃, hlast, hpushed⟩ : ∃ s₃, C.surroundings.Goes C.stage.fp code
      (p + (Instr.call label :: trashInstrs (Ty.sizeOfAll ps)).length, w', s₂) []
      (p + (Instr.call label :: trashInstrs (Ty.sizeOfAll ps)).length + 1, w', s₃) ∧
        s₂.Gains s₃ (Below s₂.sp 8) t v := by
    by_cases hd : t = .double
    · subst hd
      have hv : v = .real (C.surroundings.real w') := hreturned
      subst hv
      exact ⟨_, Surroundings.goes_result_real hc.right.head, gains_real _⟩
    · have hi := hc.right.head
      rw [resultInstr, if_neg hd] at hi
      have hv : v = .word (C.surroundings.word w') := by
        obtain ⟨hne, hvoid, -⟩ := ht
        cases t with
        | tuple => cases hne
        | void => exact absurd rfl hvoid
        | double => exact absurd rfl hd
        | _ => exact hreturned
      subst hv
      refine ⟨_, Surroundings.goes_result_word hi, (gains_word ht hd _).mono fun a ha => ⟨?_, ha.2⟩⟩
      have hbelow := ha.1
      simp only [Ty.wordSize] at hbelow
      omega
  obtain ⟨hagrees₃, hg₃⟩ := hC.push ids (by omega) (by omega) hagrees₂ hpushed
  refine ⟨[⟨label, w, s₁⟩], w', s₃, ?_, hagrees₃,
    (hg₃.mono fun a ha => hsp₂ ▸ ha).after hsp₂ hchanges₂⟩
  rw [List.length_append, ← Nat.add_assoc]
  exact hgoes.before hlast

/-- **A call leaves its value on the stack.** -/
theorem carries_call_value (label : String) {is : List Instr} {c : M.Course W (List M.Value)}
    {n₁ : Nat} {t : Ty} (hps : Ty.sizeOfAll ps ≤ n₁) (hscalar : ∀ p ∈ ps, p.Scalar) (ht : t.Sound)
    (hsize : t.isTuple = true → t.size ≤ C.room.frame.callTempSize)
    (h : C.Carries is c n₁ fun vs s s' => s.Gains s' (C.Alters ids s.sp) (.tuple ps) (.tuple vs)) :
    C.Carries (is ++ callInstrs C.room.frame.callTempOffset label t (Ty.sizeOfAll ps) .value)
      (c >>= C.stage.call ⟨label, ps, t⟩) (n₁ + t.size + 12) fun v s s' =>
        s.Gains s' (C.Alters ids s.sp) t v := by
  refine h.behind (by omega) fun vs s s₁ code p a b w σ σ' v hsp hroom hg hm hc hagrees hv => ?_
  rw [Stage.call] at hv
  split at hv
  · cases (Course.lift_eq_some.mp hv).1
  · rename_i hvoid
    have hvoid : t ≠ .void := hvoid
    have hle := hg.sp
    rw [Ty.size] at hle
    by_cases htuple : t.isTuple = true
    · obtain ⟨ts, rfl⟩ := Ty.exists_tuple htuple
      have hbase := hC.base_le
      have hcalls := hC.calls_within
      have hframe := hC.frame
      have hfits := hsize rfl
      obtain ⟨cs, w', s₂, hgoes, hagrees₂, hsp₂, hresult, hchanges⟩ :=
        goes_tuple_call hC hH hscalar hfits hsp (by omega) hg hagrees hv hc.left
      -- The result is fetched leaf by leaf from where the results of calls go.
      have hpoints : Points C.stage.fp C.low C.high s₂ (C.stage.fp + C.room.frame.callTempOffset)
          (.frame C.room.frame.callTempOffset) := rfl
      obtain ⟨s₃, hs₃, hloaded⟩ :=
        acts_load hC.addresses (ht.solid hvoid) hpoints (by omega) (by omega)
        fun a ha _ hb => by
          have := hb.2
          omega
      rw [hresult] at hloaded
      obtain ⟨hagrees₃, hg₃⟩ := hC.push ids (by omega) (by omega) hagrees₂ hloaded
      refine ⟨cs, w', s₃, ?_, hagrees₃, (hg₃.mono fun a ha => hsp₂ ▸ ha).after hsp₂ hchanges⟩
      have hload := Surroundings.goes_of_runs (E := C.surroundings) (runs_acts hc.right hs₃) w'
      rw [callInstrs, List.length_append, ← Nat.add_assoc]
      exact hgoes.before hload
    · have hsc : t.Scalar := by
        refine ⟨by simpa using htuple, hvoid, ?_⟩
        rintro rfl
        cases ht.1
      rw [callInstrs_scalar hsc] at hc ⊢
      exact goes_scalar_call hC hH hsc hsp (by omega) (by omega) hg hagrees hv hc

/-- **The address of a tuple that is returned** is that of the bytes where the results of calls
go. -/
theorem carries_call_address (label : String) {is : List Instr} {c : M.Course W (List M.Value)}
    {n₁ : Nat} {ts : List Ty} (hps : Ty.sizeOfAll ps ≤ n₁) (hscalar : ∀ p ∈ ps, p.Scalar)
    (ht : (Ty.tuple ts).Sound) (hsize : (Ty.tuple ts).size ≤ C.room.frame.callTempSize)
    (h : C.Carries is c n₁ fun vs s s' => s.Gains s' (C.Alters ids s.sp) (.tuple ps) (.tuple vs)) :
    C.Carries (is ++
      callInstrs C.room.frame.callTempOffset label (.tuple ts) (Ty.sizeOfAll ps) .address)
      (c >>= fun vs => C.stage.call ⟨label, ps, .tuple ts⟩ vs >>= fun v => pure (.held v)) (n₁ + 12)
        fun l s s' =>
        C.Shows ids (.tuple ts) l s s' := by
  refine h.behind (by omega) fun vs s s₁ code p a b w σ σ' l hsp hroom hg hm hc hagrees hl => ?_
  obtain ⟨v, σ₁, hv, hl⟩ := Course.bind_eq_some.mp hl
  obtain ⟨rfl, rfl⟩ := Course.pure_eq_some.mp hl
  rw [Stage.call, if_neg (by simp)] at hv
  have hle := hg.sp
  rw [Ty.size] at hle
  have hbase := hC.base_le
  have hcalls := hC.calls_within
  obtain ⟨cs, w', s₂, hgoes, hagrees₂, hsp₂, hresult, hchanges⟩ :=
    goes_tuple_call hC hH hscalar hsize hsp (by omega) hg hagrees hv hc.left
  have hpushed : s₂.Gains _ (Below s₂.sp 4) .int
      (.word (M.ofInt (C.stage.fp + C.room.frame.callTempOffset))) :=
    gains_word scalar_int (by simp) _
  obtain ⟨hagrees₃, hg₃⟩ := hC.push ids (by omega) (by omega) hagrees₂ hpushed
  refine ⟨cs, w', _, ?_, hagrees₃, _, (hg₃.mono fun a ha => hsp₂ ▸ ha).after hsp₂ hchanges, ?_, ?_⟩
  · rw [callInstrs, List.length_append, ← Nat.add_assoc]
    exact hgoes.before (Surroundings.goes_of_runs (runs_acts hc.right rfl) w')
  · exact .inr ⟨Int.le_refl _, by omega⟩
  · rw [hpushed.changes.read_eq (ht.solid (by simp)) fun a ha _ hb => ?_, hresult]
    have := hb.2
    omega

/-- **A call calls its function with its arguments.** -/
theorem performs_call {site : Site} {name : String} {args : List Expr}
    (h : (call site name args).Sits Ty.Sound C.room scope mode)
    (hargs : ∀ e ∈ args, e.Performs C cx scope .value) :
    (call site name args).Performs C cx scope mode := by
  obtain ⟨hall, ps, t, hname, hps, ⟨-, hsound⟩, hs⟩ := h.typed
  have htype : (call site name args).type C.room.types = t := TypeTable.typeOf_eq hs
  have hscalar : ∀ p ∈ ps, p.Scalar := by
    intro p hp
    obtain ⟨hsound, htuple, hv⟩ := h.names _ _ hname p hp
    exact ⟨htuple, hv, fun ha => by rw [ha] at hsound; cases hsound.1⟩
  have hplural : ∀ e ∈ args, (e.type C.room.types).IsPlural := by
    intro e he
    obtain ⟨u, hu, hp⟩ := (allTyped_iff.mp hall e he).exists_type Ty.stable_sound h.names
    rw [Expr.type, TypeTable.typeOf_eq hu]
    rcases hp with hp | ⟨v, rfl⟩
    · exact hp.2.isPlural
    · trivial
  have hsize : t.isTuple = true → t.size ≤ C.room.frame.callTempSize := by
    intro htuple
    have hserves := h.serves
    rw [usage] at hserves
    have hcalls := hserves.left.calls
    rw [TypeTable.typeOf_eq hs, if_pos htuple] at hcalls
    exact hcalls
  have hnodes : (usageOfAll C.room.types args).nodes ⊆
      ((call site name args).usage C.room.types mode).nodes := by
    rw [usage, FrameUsage.nodes_append]
    exact List.subset_append_right _ _
  have hpassed := size_le_need_of_scalar C.room.types hps hscalar
  have hcallee : callee C.stage scope site name = ⟨calleeLabel cx.config scope name, ps, t⟩ := by
    rw [callee, hC.types, hC.config, TypeTable.typeOf_eq hs, calleeParameters_eq hname]
  have hframe : cx.frame.callTempOffset = C.room.frame.callTempOffset := by rw [hC.suits.frame]
  cases mode with
  | value =>
    intro n hn
    rw [outline, Outline.finds_expression, Outline.finds_append, calleeParameters_eq hname] at hn
    have harguments := carries_arguments hC hps hscalar hplural hargs hn.1
    have hcall :=
      carries_call_value hC hH (calleeLabel cx.config scope name) hpassed hscalar hsound hsize
      (harguments.mono (Nat.le_refl _) fun vs s s' _ _ hg => hg.mono fun a ha =>
        ha.mono hnodes (Int.le_refl _))
    rw [outline, Outline.code_piece, Outline.code_append, Outline.code_ofCode, value,
      hcallee, htype, need, hC.suits.types, TypeTable.typeOf_eq hs,
      calleeParameters_eq hname, hframe]
    exact hcall
  | address =>
    intro n hn
    have hleaves := h.leaves
    rw [leaves, TypeTable.typeOf_eq hs] at hleaves
    obtain ⟨ts, rfl⟩ : ∃ ts, t = .tuple ts := by
      by_cases htuple : t.isTuple = true
      · exact Ty.exists_tuple htuple
      · rw [if_neg fun h => htuple h.2] at hleaves
        cases hleaves
    rw [outline, Outline.finds_expression, Outline.finds_append, calleeParameters_eq hname] at hn
    have harguments := carries_arguments hC hps hscalar hplural hargs hn.1
    have hcall :=
      carries_call_address hC hH (calleeLabel cx.config scope name) hpassed hscalar hsound
      (hsize rfl) (harguments.mono (Nat.le_refl _) fun vs s s' _ _ hg => hg.mono fun a ha =>
        ha.mono hnodes (Int.le_refl _))
    rw [outline, Outline.code_piece, Outline.code_append, Outline.code_ofCode, locate,
      hcallee, htype, need, hC.suits.types, TypeTable.typeOf_eq hs,
      calleeParameters_eq hname, hframe]
    exact hcall.le (by omega)

/-- The input is read by a function of the runtime. -/
theorem performs_input {site : Site} (h : (input site).Sits Ty.Sound C.room scope .value) :
    (input site).Performs C cx scope .value := by
  intro n _
  obtain ⟨t, ht, hs⟩ : ∃ t, t.IsNumber ∧ C.room.types.get? site.id = some t :=
    h.typed.elim (fun h => ⟨_, .inl rfl, h⟩) fun h => ⟨_, .inr rfl, h⟩
  have htype : (input site).type C.room.types = t := TypeTable.typeOf_eq hs
  have hsc : t.Scalar ∧ t.Sound := by
    rcases ht with rfl | rfl
    · exact ⟨scalar_int, rfl, trivial⟩
    · exact ⟨scalar_double, rfl, trivial⟩
  have hnone : C.Carries [] (pure []) 0 fun vs s s' =>
      s.Gains s' (C.Alters ((input site).usage C.room.types .value).nodes s.sp) (.tuple [])
        (.tuple vs) := carries_nil
  have hcall := carries_call_value hC hH (inputCallee t).label (Nat.le_refl 0) (by simp) hsc.2
    (by simp [hsc.1.1]) hnone
  have hsize := hsc.1.size_le
  rw [callInstrs_scalar hsc.1, pure_bind] at hcall
  rw [outline, Outline.code_piece, Outline.code_ofCode, value, hC.types, hC.suits.types,
    TypeTable.typeOf_eq hs, htype]
  have hcode :
      inputInstrs t = [] ++ (Instr.call (inputCallee t).label :: trashInstrs (Ty.sizeOfAll []) ++
      [resultInstr t]) := by
    rcases ht with rfl | rfl <;> rfl
  rw [hcode, need]
  exact hcall.le (by omega)

end Call

/-! ### Expressions -/

/-- Nothing is promised of code whose course fails. -/
theorem carries_fail {α : Type} (is : List Instr) (n : Nat) (Q : α → M.Store → M.Store → Prop) :
    C.Carries is (.lift none) n Q := by
  intro code p a b w s σ σ' x _ _ _ _ _ hx
  cases (Course.lift_eq_some.mp hx).1

mutual

/-- **The code of an expression carries out what the expression does.** -/
theorem performs (hC : C.Sound cx) (hH : C.Honors) :
    ∀ {e : Expr} {mode : Mode}, e.Sits Ty.Sound C.room scope mode →
    e.Performs C cx scope mode
  | .integer s k, .value, h => by
    have htype : (integer s k).type C.room.types = .int := TypeTable.typeOf_eq h.typed
    refine performs_word hC (fun _ => [.int k.toInt]) (fun n => ?_) (fun n s _ => rfl)
      (htype ▸ scalar_int) (by simp [htype]) rfl
    rw [outline, Outline.code_piece, Outline.code_ofCode]
  | .double s d, .value, h => performs_double hC h.typed
  | .string s x, .value, h => performs_string hC h.typed
  | .nullptr s, .value, h => by
    have htype : (nullptr s).type C.room.types = .genericPointer := TypeTable.typeOf_eq h.typed
    refine performs_word hC (fun _ => [.int 0]) (fun n => ?_) (fun n s _ => rfl)
      (htype ▸ scalar_pointer .void) (by simp [htype, Ty.genericPointer]) rfl
    rw [outline, Outline.code_piece, Outline.code_ofCode]
  | .sizeof s e, .value, h => by
    have htype : (sizeof s e).type C.room.types = .int := TypeTable.typeOf_eq h.typed.2
    refine performs_word hC (fun _ => [.int (e.type cx.types).size]) (fun n => ?_)
      (fun n s _ => rfl)
      (htype ▸ scalar_int) (by simp [htype]) (by rw [value, hC.types, hC.suits.types])
    rw [outline, Outline.code_piece, Outline.code_ofCode]
  | .input s, .value, h => performs_input hC hH h
  | .variable s name, .address, h => performs_variable hC
  | .pointerIndex s b i, .address, h =>
    performs_pointerIndex hC h (performs hC hH h.pointerIndex.1) (performs hC hH h.pointerIndex.2)
  | .tupleIndex s b i, .address, h => performs_tupleIndex hC h (performs hC hH h.tupleIndex)
  | .rvalue s p, .value, h => performs_rvalue_value hC h (performs hC hH h.rvalue)
  | .rvalue s p, .address, h => performs_rvalue_address hC h (performs hC hH h.rvalue)
  | .assignment s p v, .value, h =>
    performs_assignment hC h (performs hC hH h.assignment.1) (performs hC hH h.assignment.2)
  | .addressOf s p, .value, h => performs_addressOf h (performs hC hH h.addressOf)
  | .unary s op a, .value, h => performs_unary hC h (performs hC hH h.unary)
  | .binary s op a b, .value, h =>
      performs_binary hC h (performs hC hH h.binary.1) (performs hC hH h.binary.2)
  | .stackAlloc s n, .value, _ => fun _ _ => carries_fail _ _ _
  | .tuple s [], _, h => by
    obtain ⟨-, us, hne, hus, -⟩ := h.typed
    cases hus
    exact absurd rfl hne
  | .tuple s [e], _, h => performs_singleton h (performs hC hH h.tuple_singleton)
  | .tuple s (a :: b :: es), .value, h =>
      performs_tuple_value hC h (allPerform hC hH h.tuple_plural)
  | .tuple s (a :: b :: es), .address, h =>
      performs_tuple_address hC h (allPerform hC hH h.tuple_plural)
  | .call s name args, _, h => performs_call hC hH h (allPerform hC hH h.call)
  | .integer .., .address, h | .double .., .address, h | .string .., .address, h
  | .nullptr _, .address, h | .input _, .address, h | .assignment .., .address, h
  | .addressOf .., .address, h | .unary .., .address, h | .binary .., .address, h
  | .stackAlloc .., .address, h | .sizeof .., .address, h | .variable .., .value, h
  | .pointerIndex .., .value, h | .tupleIndex .., .value, h => by cases h.leaves

/-- As `performs`, for several expressions whose values are wanted. -/
theorem allPerform (hC : C.Sound cx) (hH : C.Honors) : ∀ {es : List Expr},
    (∀ e ∈ es, e.Sits Ty.Sound C.room scope .value) → ∀ e ∈ es, e.Performs C cx scope .value
  | [], _ => by simp
  | e :: es, h => by
    rw [List.forall_mem_cons] at h ⊢
    exact ⟨performs hC hH h.1, allPerform hC hH h.2⟩

end

end Expr

end PostfixCompiler
