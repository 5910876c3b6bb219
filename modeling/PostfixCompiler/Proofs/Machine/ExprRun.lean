import PostfixCompiler.Proofs.Emission.Texts
import PostfixCompiler.Proofs.Machine.Delivers
import PostfixCompiler.Proofs.Machine.Storing

/-!
# Formulas are computed

The code of a formula leaves on the stack what the formula stands for: its value, or where that is
wanted the address of bytes in the frame in which its value is kept. A tuple is built in a slot
where its address is wanted, and pushed from the last element to the first where its value is; a
component is fetched from the middle of a tuple that is kept, and never by itself. That all of this
comes to the same is shown by recursion on the formula.

What carries the recursion is that an address is one of bytes that are kept, in a variable or in the
slot of a node of the formula, and that no two nodes share a slot: so what was computed before is
still there when it is used.

## Main definitions

* `PostfixCompiler.Outline.Finds`: texts are found at the addresses of their labels.
* `PostfixCompiler.Machine.Leaves`: what is left on the stack.
* `PostfixCompiler.Machine.Combines`: what an operator makes of two operands is put there.
* `PostfixCompiler.Expr.Computes`: the code of an expression leaves what the expression stands for.

## Main statements

* `PostfixCompiler.Machine.Delivers.operands`: two operands are computed one after the other.
* `PostfixCompiler.Expr.computes`: the code of a formula leaves what the formula stands for.
-/

namespace PostfixCompiler

open Emission

/-! ### Texts -/

namespace Outline

/-- **The texts of an outline are found** at the addresses of their labels. -/
def Finds (M : Machine) (texts : NodeId → M.Word) (o : Outline) : Prop :=
  ∀ q ∈ o.texts, texts q.1 = M.label q.2

section Finds

variable {M : Machine} {texts : NodeId → M.Word} {a b : Outline}

theorem finds_append : (a ++ b).Finds M texts ↔ a.Finds M texts ∧ b.Finds M texts := by
  rw [Finds, texts_append, List.forall_mem_append]
  rfl

theorem finds_expression {mode : Mode} {scope : View Symbol} {e : Expr} :
    (piece (.expression mode scope e) a).Finds M texts ↔ a.Finds M texts := by
  simp [Finds, piece, Outline.texts]

theorem finds_action {act : Action} : (piece (.action act) a).Finds M texts ↔ a.Finds M texts := by
  simp [Finds, piece, Outline.texts]

theorem finds_statement {st : Stmt} :
    (piece (.statement st) a).Finds M texts ↔ a.Finds M texts := by
  simp [Finds, piece, Outline.texts]

end Finds

end Outline

/-! ### What is left on the stack -/

namespace Machine

/-- **What the code of an expression leaves on the stack**: its value, or the address of bytes in
the frame in which its value is kept. Nothing else changes but the stack, up to some depth, and the
slots of some nodes. -/
def Leaves (M : Machine) (r : Room) (fp : Int) (mode : Mode) (ids : List NodeId) (depth : Nat)
    (t : Ty) (v : M.Value) (s s' : M.Store) : Prop :=
  match mode with
  | .value => s.Gains s' (r.Touches fp ids (s.sp - depth) s.sp) t v
  | .address => ∃ A,
      s.Gains s' (r.Touches fp ids (s.sp - depth) s.sp) .int (.word (M.ofInt (fp + A))) ∧
      r.Place ids A t.size ∧ M.read s'.memory (fp + A) t = v

/-- **Two operands are combined**: they have values, and what the operator makes of these is put on
the stack. -/
def Combines (M : Machine) (r : Room) (fp : Int) (ρ : String → Option M.Value)
    (texts : NodeId → M.Word) (op : BinaryOp) (a b : Expr) (v : Ty) (d : Nat) (s s' : M.Store) :
    Prop :=
  ∃ x y z, (a.evaluate M r.types ρ texts = some x ∧ b.evaluate M r.types ρ texts = some y) ∧
    M.binary? op (a.type r.types) (b.type r.types) x y = some z ∧
    s.Gains s' (r.Touches fp ((a.usage r.types .value).nodes ++ (b.usage r.types .value).nodes)
      (s.sp - d) s.sp) v z

/-- **A machine runs the code of a function** that has a room: the addresses of the frame are words,
and the areas of the room lie apart. -/
structure Setting (M : Machine) (r : Room) (fp high : Int) (cx : Context) : Prop where
  /-- The addresses of the frame are words. -/
  addresses : M.Addresses (r.floor fp) (fp + high)
  /-- The areas of the room lie apart. -/
  laid : r.Laid high
  /-- The code is written for the room. -/
  suits : r.Suits Ty.Sound cx

variable {M : Machine} {r : Room} {fp high : Int} {cx : Context} {scope : View Symbol}
  {ρ : String → Option M.Value}
  {ids ids' : List NodeId} {low : Int} {s s' : M.Store}

/-- What adds to the stack leaves the function as it is. -/
theorem calm_of_changes (hsp : s.sp ≤ r.floor fp) (hle : s'.sp ≤ s.sp)
    (hc : Changes (r.Touches fp ids low s.sp) s.memory s'.memory) : Calm r fp s s' :=
  ⟨hle.trans hsp, ids, low, hc.mono fun _ ha => ha.mono (List.Subset.refl _) (Int.le_refl _) hsp⟩

theorem Store.Gains.calm {t : Ty} {v : M.Value} (hsp : s.sp ≤ r.floor fp)
    (h : s.Gains s' (r.Touches fp ids low s.sp) t v) : Calm r fp s s' :=
  calm_of_changes hsp h.size_le h.changes

/-- The bytes that the second of two phrases changes are among those that both change. -/
theorem touches_second {d k m : Nat} {top : Int} (hk : s.sp ≤ top + k) (htop : top ≤ s.sp)
    (hm : d + k ≤ m) {a : Int} (ha : r.Touches fp ids' (top - d) top a) :
    r.Touches fp (ids ++ ids') (s.sp - m) s.sp a :=
  ha.mono (List.subset_append_right _ _) (by omega) htop

theorem touches_first {d m : Nat} (hm : d ≤ m) {a : Int} (ha : r.Touches fp ids (s.sp - d) s.sp a) :
    r.Touches fp (ids ++ ids') (s.sp - m) s.sp a :=
  ha.mono (List.subset_append_left _ _) (by omega) (Int.le_refl _)

/-- **Two operands are computed one after the other.** -/
theorem Delivers.operands (hm : M.Setting r fp high cx)
    (hnames : View.Settled Ty.Sound scope.meanings) (hscope : r.Binds scope) {V : Type} {k : Nat}
    {c : Codec M.Byte V k} {X Y : V → Prop} {is js : List Instr} {d₁ d₂ : Nat}
    (h₁ : M.Delivers r fp scope ρ is fun s s' => ∃ x, X x ∧
      s.Operand s' (r.Touches fp ids (s.sp - d₁) s.sp) c x)
    (h₂ : M.Delivers r fp scope ρ js fun s s' => ∃ y, Y y ∧
      s.Operand s' (r.Touches fp ids' (s.sp - d₂) s.sp) c y) :
    M.Delivers r fp scope ρ (is ++ js) fun s s' => ∃ x y, (X x ∧ Y y) ∧
      s.Operands s' (r.Touches fp (ids ++ ids') (s.sp - (d₁ + d₂ + k + 12 : Nat)) s.sp) c x y := by
  refine (h₁.bind hm.laid hnames hscope ?_ h₂).mono ?_
  · rintro s s' hsp ⟨x, -, h⟩
    have := h.sp
    exact calm_of_changes hsp (by omega) h.changes
  · rintro s s'' hsp ⟨s', ⟨x, hx, h⟩, y, hy, h'⟩
    have hs' := h.sp
    refine ⟨x, y, ⟨hx, hy⟩,
      (h.mono fun a ha => touches_first (by omega) ha).and h' (fun a ha => ?_) fun a ha ha' => ?_⟩
    · exact touches_second (k := k) (by omega) (by omega) (by omega) ha
    · exact hm.laid.not_touches_stack ha (by omega)

end Machine

namespace Expr

section Computes

variable (M : Machine) (r : Room) (fp : Int) (cx : Context) (scope : View Symbol)
  (texts : NodeId → M.Word)

/-- **The code of an expression leaves what the expression stands for**, whatever values the
variables have. -/
def Computes (mode : Mode) (e : Expr) : Prop :=
  ∀ n, (e.outline cx scope mode n).Finds M texts → ∃ depth : Nat, ∀ ρ,
    M.Delivers r fp scope ρ (e.outline cx scope mode n).code fun s s' =>
      ∃ v, e.evaluate M r.types ρ texts = some v ∧
        M.Leaves r fp mode (e.usage r.types mode).nodes depth (e.type r.types) v s s'

end Computes

variable {M : Machine} {r : Room} {fp high : Int} {cx : Context} {scope : View Symbol}
  {ρ : String → Option M.Value}
  {texts : NodeId → M.Word} {mode : Mode} {n : Nat}

/-! ### Literals and variables -/

/-- Code that pushes a word. -/
theorem computes_word {e : Expr} (is : Nat → List Instr) {w : M.Word}
    (hcode : ∀ n, (e.outline cx scope .value n).code = is n)
    (hacts : ∀ n s, (e.outline cx scope .value n).Finds M texts →
      M.acts fp s (is n) = some (s.push M.word w))
    (ht : (e.type r.types).Scalar) (hd : e.type r.types ≠ .double)
    (hv : ∀ ρ, e.evaluate M r.types ρ texts = some (.word w)) :
    e.Computes M r fp cx scope texts .value := by
  intro n hn
  refine ⟨Ty.wordSize, fun ρ => ?_⟩
  rw [hcode]
  refine Machine.Delivers.of_acts fun s _ _ => ⟨_, hacts n s hn, _, hv ρ, ?_⟩
  exact (Machine.gains_word ht hd w).mono fun a ha => Room.touches_below (Nat.le_refl _) ha

theorem computes_double {site : Site} {d : Double} (ht : r.types.get? site.id = some .double) :
    (Expr.double site d).Computes M r fp cx scope texts .value := by
  intro n _
  refine ⟨Ty.doubleSize, fun ρ => ?_⟩
  have htype : (Expr.double site d).type r.types = .double := TypeTable.typeOf_eq ht
  simp only [outline, Outline.code_piece, Outline.code_ofCode, htype]
  refine Machine.Delivers.of_acts fun s _ _ =>
    ⟨s.push M.real (M.ofDouble d), rfl, .real (M.ofDouble d), rfl, ?_⟩
  exact (Machine.gains_real _).mono fun a ha => Room.touches_below (Nat.le_refl _) ha

/-- The place of a variable is where its symbol says. -/
theorem computes_variable (hm : M.Setting r fp high cx) {site : Site} {name : String}
    (h : («variable» site name).Sits Ty.Sound r scope .address)
    (hf : («variable» site name).IsFormula scope) :
    («variable» site name).Computes M r fp cx scope texts .address := by
  intro n _
  obtain ⟨x, hx, hlocal⟩ := hf
  obtain ⟨t, hmeans, ht⟩ := h.typed
  have hplace : r.Place [] x.offset x.type.size ∧ x.meaning = .variable x.type :=
    hm.laid.place_of_local h.binds hx hlocal
  have htype : x.type = t := by
    rw [View.meanings, hx, Option.map_some, hplace.2] at hmeans
    cases hmeans
    rfl
  have hsound := Ty.storable_sound.mp (h.names name _ hmeans)
  have he : («variable» site name).type r.types = t := TypeTable.typeOf_eq ht
  refine ⟨Ty.wordSize, fun ρ => ?_⟩
  simp only [outline, Outline.code_piece, Outline.code_ofCode, variableInstr, hx, hlocal, he,
    Bool.false_eq_true, if_false]
  refine Machine.Delivers.of_acts fun s hsp hρ =>
    ⟨s.push M.word (M.ofInt (fp + x.offset)), rfl, _, hρ name x hx hlocal, x.offset, ?_, ?_, ?_⟩
  · exact (Machine.gains_word Machine.scalar_int (by simp) _).mono fun a ha =>
      Room.touches_below (Nat.le_refl _) ha
  · rw [← htype]
    exact hplace.1.mono (List.nil_subset _)
  · rw [htype]
    refine (Machine.changes_push M.word _ s).read_eq (hsound.1.solid hsound.2) fun a ha _ hb => ?_
    have hwithin := (hm.laid.place_within fp hplace.1).1
    have := hb.2
    omega

/-! ### Places -/

/-- **The component of a tuple is at its offset.** -/
theorem computes_tupleIndex (hm : M.Setting r fp high cx) {site : Site} {b : Expr} {i : Int32}
    (h : (tupleIndex site b i).Sits Ty.Sound r scope .address)
    (hb : b.Computes M r fp cx scope texts .address) :
    (tupleIndex site b i).Computes M r fp cx scope texts .address := by
  intro n hn
  obtain ⟨-, ts, t, ⟨hbt, hsound⟩, ⟨hi, ht⟩, hs⟩ := h.typed
  have hbtype : b.type r.types = .tuple ts := TypeTable.typeOf_eq hbt
  have htype : (tupleIndex site b i).type r.types = t := TypeTable.typeOf_eq hs
  rw [outline, Outline.finds_expression, Outline.finds_append] at hn
  obtain ⟨d, hbase⟩ := hb n hn.1
  let byte := Ty.sizeOfAll (ts.take (i.toInt.toNat - 1))
  have hlength : i.toInt.toNat - 1 < ts.length := (List.getElem?_eq_some_iff.mp ht).1
  have hbyte : (Ty.tuple ts).componentOffset? i.toInt = some byte := by
    rw [Ty.componentOffset?, if_pos ⟨hi, by omega⟩]
  have hsize : byte + t.size ≤ (Ty.tuple ts).size := Machine.sizeOfAll_take_le ht
  refine ⟨d + 8, fun ρ => ?_⟩
  rw [outline, hm.suits.types, hbtype, hbyte, usage, htype, Outline.code_piece, Outline.code_append,
    Outline.code_ofCode, Option.getD_some]
  rw [hbtype] at hbase
  refine (hbase ρ).acts ?_
  rintro s s₁ hsp ⟨v, hv, A, hg, hplace, hread⟩
  have hwithin := hm.laid.place_within fp hplace
  have hread : M.read s₁.memory (fp + A) (.tuple ts) = v := hread
  rw [Machine.read] at hread
  have hvalue : (tupleIndex site b i).evaluate M r.types ρ texts =
      some (M.read s₁.memory (fp + (A + byte)) t) := by
    rw [evaluate, hv, ← hread, Option.bind_eq_bind, Option.bind_some,
      Machine.Value.component?, if_pos hi, Machine.readAll_getElem? ht, Int.add_assoc]
  obtain ⟨htop, hbelow⟩ := hg.top_word Machine.scalar_int
  obtain ⟨s₂, hs₂, hadded⟩ := Machine.acts_shifted fp s₁ byte
  rw [hbelow, htop, Machine.shifted_ofInt hm.addresses hwithin.1 (by omega),
    Int.add_assoc] at hadded
  have hadded' := hadded.changes
  refine ⟨s₂, hs₂, _, hvalue, A + byte, ?_, hplace.part hsize, ?_⟩
  · refine (hadded.mono fun a ha => Room.touches_below (by omega) ha).after hbelow
      (hg.changes.mono fun a ha => ?_)
    exact ha.mono (List.Subset.refl _) (by omega) (Int.le_refl _)
  · -- The component is above the stack, on which the offset was added.
    have hsolid : t.Solid := by
      have hmem := List.mem_of_getElem? ht
      exact Ty.solid_tuple.mp (hsound.solid (by simp)) t hmem
    refine hadded'.read_eq hsolid fun a ha _ hb => ?_
    have := hb.2
    omega

/-- **A tuple is fetched from where it is kept**, with its address in a slot of its own. -/
theorem acts_pinned (hr : r.Laid high) {bottom top : Int} (hM : M.Addresses bottom top)
    (hbottom : bottom ≤ r.floor fp) (htop : fp + high ≤ top) {slot : Slot}
    (hslot : slot ∈ r.frame.slots) (hsize : slot.size = Ty.wordSize)
    {t : Ty} (ht : t.Solid) {A : Int} (hA : bottom ≤ A) (hA' : A + t.size ≤ top) {s : M.Store}
    (hs : s.top M.word = M.ofInt A) (hsp : s.sp + Ty.wordSize ≤ r.floor fp)
    (hkept : ∀ a, A ≤ a → a < A + t.size →
      ¬r.Touches fp [slot.node] (s.sp + Ty.wordSize - (t.size + 12 : Nat))
      (s.sp + Ty.wordSize) a) : ∃ s',
      M.acts fp s ([.frameAddress slot.offset, .storeInt] ++
        loadInstrs (.pinned slot.offset) t.leafOffsets.reverse) =
        some s' ∧ (s.drop Ty.wordSize).Gains s'
          (r.Touches fp [slot.node] (s.sp + Ty.wordSize - (t.size + 12 : Nat))
            (s.sp + Ty.wordSize)) t (M.read s.memory A t) := by
  have hslots := hr.slots_within slot hslot
  have hfloor : r.floor fp = fp - r.frame.frameSize := rfl
  obtain ⟨s₁, hs₁, hsp₁, hpoints, hchanges⟩ :=
    Machine.acts_pin hM fp slot.offset hs (by omega) (by omega) (by omega)
  have hstack : ∀ a, Machine.Below (s.sp + Ty.wordSize) (t.size + 12) a →
      r.Touches fp [slot.node] (s.sp + Ty.wordSize - (t.size + 12 : Nat)) (s.sp + Ty.wordSize) a :=
    fun a ha => Room.touches_below (Nat.le_refl _) ha
  obtain ⟨s₂, hs₂, hloaded⟩ := Machine.acts_load hM ht hpoints hA hA' fun a ha ha' h => by
    refine hkept a ha ha' (hstack a ⟨?_, ?_⟩)
    · have := h.1
      omega
    · have := h.2
      omega
  have htouches : ∀ a, fp + slot.offset ≤ a → a < fp + slot.offset + Ty.wordSize →
      r.Touches fp [slot.node] (s.sp + Ty.wordSize - (t.size + 12 : Nat)) (s.sp + Ty.wordSize) a :=
    fun a ha ha' => .inr ⟨slot, hslot, List.mem_singleton_self _, ha, by omega⟩
  have hpinned :
      Machine.Changes (r.Touches fp [slot.node] (s.sp + Ty.wordSize - (t.size + 12 : Nat))
      (s.sp + Ty.wordSize)) s.memory s₁.memory :=
    hchanges.mono fun a ha => ha.elim (fun ha => hstack a ⟨by have := ha.1; omega, ha.2⟩) fun ha =>
      htouches a ha.1 ha.2
  rw [hpinned.read_eq ht hkept] at hloaded
  refine ⟨s₂, by rw [Machine.acts_append, hs₁, Option.bind_some, hs₂], ?_⟩
  refine (hloaded.mono fun a ha => ?_).after hsp₁ hpinned
  rw [hsp₁] at ha
  exact Room.touches_below (by omega) ha

/-- **What is read from a place is the value that is kept there.** -/
theorem computes_rvalue (hm : M.Setting r fp high cx) {site : Site} {p : Expr}
    (h : (rvalue site p).Sits Ty.Sound r scope mode)
    (hp : p.Computes M r fp cx scope texts .address) :
    (rvalue site p).Computes M r fp cx scope texts mode := by
  intro n hn
  obtain ⟨hpt, t, ⟨hpt', hsound⟩, hs⟩ := h.typed
  have hptype : p.type r.types = t := TypeTable.typeOf_eq hpt'
  have htype : (rvalue site p).type r.types = t := TypeTable.typeOf_eq hs
  have hsolid : t.Solid := by
    rw [← hm.suits.types] at hpt hpt'
    exact hsound.solid (hpt.ne_void_of_isPlace (fun h => h.full.ne_void) h.names hpt' h.placed.1)
  rw [outline, Outline.finds_expression, Outline.finds_append] at hn
  obtain ⟨d, hplace⟩ := hp n hn.1
  rw [hptype] at hplace
  have hleaves := h.leaves
  rw [leaves, TypeTable.typeOf_eq hs] at hleaves
  have hserves := h.serves
  rw [usage] at hserves
  have hnodes : (p.usage r.types .address).nodes ⊆ ((rvalue site p).usage r.types mode).nodes := by
    rw [usage, FrameUsage.nodes_append]
    exact List.subset_append_right _ _
  have hwider : ∀ {s : M.Store} {a : Int},
      r.Touches fp (p.usage r.types .address).nodes (s.sp - d) s.sp a →
      r.Touches fp ((rvalue site p).usage r.types mode).nodes
        (s.sp - (d + (t.size + 12) : Nat)) s.sp a :=
    fun ha => ha.mono hnodes (by omega) (Int.le_refl _)
  refine ⟨d + (t.size + 12), fun ρ => ?_⟩
  rw [outline, hm.suits.types, TypeTable.typeOf_eq hs, htype, evaluate, Outline.code_piece,
    Outline.code_append, Outline.code_ofCode]
  refine (hplace ρ).acts ?_
  rintro s s₁ hsp ⟨v, hev, A, hg, hkept, hread⟩
  have hwithin := hm.laid.place_within fp hkept
  obtain ⟨htop, hdrop⟩ := hg.top_word Machine.scalar_int
  cases t with
  | tuple ts =>
    cases mode with
    | address => exact ⟨s₁, rfl, v, hev, A, hg.mono fun a ha => hwider ha, hkept.mono hnodes, hread⟩
    | value =>
      obtain ⟨slot, hslot, hnode, hsize⟩ := h.slot_rvalue hs
      have hoffset : cx.frame.slotAt site.id = slot.offset := by
        rw [hm.suits.frame, ← hnode, FrameLayout.slotAt_eq hm.suits.nodup hslot]
      have hown : site.id ∈ (FrameUsage.ofCharge site.id
          ((rvalue site p).ownCharge r.types .value)).nodes := by
        rw [ownCharge, TypeTable.typeOf_eq hs]
        exact List.mem_singleton_self _
      have hother : ∀ i ∈ (p.usage r.types .address).nodes, i ∉ [slot.node] := by
        rintro i hi hi'
        cases List.mem_singleton.mp hi'
        exact hserves.disjoint hown (hnode ▸ hi)
      obtain ⟨s₂, hs₂, hloaded⟩ :=
        acts_pinned hm.laid hm.addresses (Int.le_refl _) (Int.le_refl _) hslot hsize hsolid
        hwithin.1 hwithin.2 htop (by omega) fun a ha ha' =>
          hm.laid.not_touches hkept hother (by omega) ha ha'
      rw [hdrop, hread] at hloaded
      refine ⟨s₂, by rw [hoffset]; exact hs₂, v, hev, (hloaded.mono fun a ha => ?_).after hdrop
        (hg.changes.mono fun a ha => hwider ha)⟩
      refine ha.mono ?_ (by omega) (Int.le_refl _)
      rw [hnode, usage, FrameUsage.nodes_append]
      exact List.cons_subset.mpr ⟨List.mem_append_left _ hown, List.nil_subset _⟩
  | void => exact absurd rfl (hsolid _ (List.mem_singleton_self _)).2.1
  | auto => exact absurd rfl (hsolid _ (List.mem_singleton_self _)).2.2
  | int | double | string | pointer =>
    cases mode with
    | address => cases hleaves
    | value =>
      obtain ⟨s₂, hs₂, hfetched⟩ :=
        Machine.acts_fetch fp hm.addresses (hsolid _ (List.mem_singleton_self _)) htop
        hwithin.1 (by omega)
      rw [hdrop, hread] at hfetched
      exact ⟨s₂, hs₂, v, hev,
        (hfetched.mono fun a ha => Room.touches_below (by omega) ha).after hdrop
        (hg.changes.mono fun a ha => hwider ha)⟩

/-! ### Operators -/

/-- An operand that is a word. -/
theorem Computes.word {e : Expr} (h : e.Computes M r fp cx scope texts .value)
    (ht : (e.type r.types).Scalar) (hd : e.type r.types ≠ .double)
    (hn : (e.outline cx scope .value n).Finds M texts) : ∃ d : Nat, ∀ ρ,
    M.Delivers r fp scope ρ (e.outline cx scope .value n).code fun s s' =>
      ∃ x, e.evaluate M r.types ρ texts = some (.word x) ∧
        s.Operand s' (r.Touches fp (e.usage r.types .value).nodes (s.sp - d) s.sp) M.word x := by
  obtain ⟨d, h⟩ := h n hn
  refine ⟨d, fun ρ => (h ρ).mono ?_⟩
  rintro s s' - ⟨v, hv, hg⟩
  have hg : s.Gains s' _ _ v := hg
  have hword := hg.eq_word ht hd
  subst hword
  exact ⟨_, hv, hg.operand_word ht⟩

/-- An operand that is a number, widened where it has to be. -/
theorem Computes.real {e : Expr} (h : e.Computes M r fp cx scope texts .value)
    (ht : (e.type r.types).IsNumber) (hn : (e.outline cx scope .value n).Finds M texts) :
    ∃ d : Nat, ∀ ρ,
    M.Delivers r fp scope ρ
      ((e.outline cx scope .value n).code ++ widenInstrs .double (e.type r.types)) fun s s' =>
      ∃ x, (∃ v, e.evaluate M r.types ρ texts = some v ∧ v.real? = some x) ∧
        s.Operand s' (r.Touches fp (e.usage r.types .value).nodes (s.sp - d) s.sp) M.real x := by
  obtain ⟨d, h⟩ := h n hn
  refine ⟨d + 8, fun ρ => (h ρ).acts ?_⟩
  rintro s s₁ - ⟨v, hv, hg⟩
  obtain ⟨x, s₂, hx, hs₂, hwidened⟩ := Machine.acts_widen fp
    (hg.mono fun a ha => ha.mono (List.Subset.refl _)
      (show s.sp - (d + 8 : Nat) ≤ s.sp - d by omega) (Int.le_refl _)) ht
    fun a ha => Room.touches_below (by omega) ha
  exact ⟨s₂, hs₂, x, ⟨v, hv, hx⟩, hwidened.operand_real⟩

theorem computes_unary {site : Site} {op : UnaryOp} {a : Expr} (hm : M.Setting r fp high cx)
    (h : (unary site op a).Sits Ty.Sound r scope .value)
    (ha : a.Computes M r fp cx scope texts .value) :
    (unary site op a).Computes M r fp cx scope texts .value := by
  intro n hn
  obtain ⟨-, t, ⟨hat, -⟩, hop, hs⟩ := h.typed
  have hatype : a.type r.types = t := TypeTable.typeOf_eq hat
  have htype : (unary site op a).type r.types = t := TypeTable.typeOf_eq hs
  rw [outline, Outline.finds_expression, Outline.finds_append] at hn
  obtain ⟨d, hvalue⟩ := ha n hn.1
  rw [hatype] at hvalue
  refine ⟨d + 8, fun ρ => ?_⟩
  rw [outline, hm.suits.types, TypeTable.typeOf_eq hs, htype, evaluate, usage, Outline.code_piece,
    Outline.code_append, Outline.code_ofCode]
  refine (hvalue ρ).acts ?_
  rintro s s₁ - ⟨v, hv, hg⟩
  obtain ⟨w, s₂, hw, hs₂, hresult⟩ := Machine.acts_unary fp
    (hg.mono fun a ha => ha.mono (List.Subset.refl _)
      (show s.sp - (d + 8 : Nat) ≤ s.sp - d by omega) (Int.le_refl _)) hop
    fun a ha => Room.touches_below (by omega) ha
  exact ⟨s₂, hs₂, w, by rw [hv]; exact hw, hresult⟩

/-- **The second operand of a connective is evaluated if the first one does not decide**, and only
then. -/
theorem delivers_shortCircuit (hm : M.Setting r fp high cx)
    (hnames : View.Settled Ty.Sound scope.meanings) (hscope : r.Binds scope) {op : BinaryOp}
    (hop : op = .and ∨ op = .or) {X Y : M.Word → Prop} {is js : List Instr} {ids ids' : List NodeId}
    {d₁ d₂ k : Nat} (h₁ : M.Delivers r fp scope ρ is fun s s' =>
      ∃ x, X x ∧ s.Operand s' (r.Touches fp ids (s.sp - d₁) s.sp) M.word x)
    (h₂ : M.Delivers r fp scope ρ js fun s s' =>
      ∃ y, Y y ∧ s.Operand s' (r.Touches fp ids' (s.sp - d₂) s.sp) M.word y) :
    M.Delivers r fp scope ρ
      (is ++ [.dupInt, decidedJump op (labelName k)] ++ js ++
        [wordInstr op, .label (labelName k)]) fun s s' =>
        ∃ x, X x ∧
          ∃ w, (if M.isZero x = decide (op = .and) then w = x else ∃ y, Y y ∧ w = M.words op x y) ∧
          s.Gains s' (r.Touches fp (ids ++ ids') (s.sp - (d₁ + d₂ + 12 : Nat)) s.sp) .int
            (.word w) := by
  intro code p a b s hmakes hc hsp hρ
  have hword : Ty.wordSize = 4 := rfl
  obtain ⟨s₁, hrun₁, x, hx, hoperand⟩ := h₁ hmakes hc.left.left.left hsp hρ
  have hsp₁ := hoperand.sp
  have hfirst : ∀ a, r.Touches fp ids (s.sp - d₁) s.sp a →
      r.Touches fp (ids ++ ids') (s.sp - (d₁ + d₂ + 12 : Nat)) s.sp a :=
      fun a ha => Machine.touches_first (by omega) ha
  -- The first operand is doubled, and the jump takes the copy.
  have hjump := hc.left.left.right
  let s₂ := s₁.push M.word (s₁.top M.word)
  have htop : s₂.top M.word = x := (Machine.Store.top_push _ _ _).trans hoperand.top
  have hrun₂ : M.Runs fp code (p + is.length, s₁) (p + is.length + 1, s₂) :=
    .single (Machine.step_act hjump.head rfl)
  have hsp₃ : (s₂.drop Ty.wordSize).sp = s₁.sp := Machine.sp_drop_push _ _ _
  have hpushed : Machine.Changes (Machine.Below s₁.sp 4) s₁.memory s₂.memory :=
    Machine.changes_push M.word _ s₁
  have hkept : s.Operand (s₂.drop Ty.wordSize)
      (r.Touches fp (ids ++ ids') (s.sp - (d₁ + d₂ + 12 : Nat)) s.sp) M.word x := by
    refine ⟨by rw [hsp₃]; exact hsp₁, (Machine.top_drop_push _ _ _ _).trans hoperand.top,
      (hoperand.changes.mono hfirst).trans (hpushed.mono fun a ha => ?_)⟩
    refine Room.touches_below (k := 8) (by omega) ?_
    unfold Machine.Below at ha ⊢
    omega
  have hlength : p + (is ++ [Instr.dupInt, decidedJump op (labelName k)] ++ js).length =
      p + is.length + 1 + 1 + js.length := by
    simp only [List.length_append, List.length_cons, List.length_nil]
    omega
  have hend : p + (is ++ [Instr.dupInt, decidedJump op (labelName k)] ++ js ++
      [wordInstr op, .label (labelName k)]).length = p + is.length + 1 + 1 + js.length + 1 + 1 := by
    simp only [List.length_append, List.length_cons, List.length_nil]
    omega
  have hlast := hc.right
  rw [hlength] at hlast
  rw [hend]
  have hlabel : code[p + is.length + 1 + 1 + js.length + 1]? = some (.label (labelName k)) :=
    hlast.tail.head
  by_cases hdecided : M.isZero x = decide (op = .and)
  · have hrun₃ : M.Runs fp code (p + is.length + 1, s₂)
        (p + is.length + 1 + 1 + js.length + 1, s₂.drop Ty.wordSize) :=
      Machine.runs_decided hop hmakes hjump.tail.head hlabel (htop ▸ hdecided)
    have hrun₄ : M.Runs fp code (p + is.length + 1 + 1 + js.length + 1, s₂.drop Ty.wordSize)
        (p + is.length + 1 + 1 + js.length + 1 + 1, s₂.drop Ty.wordSize) :=
        .single (Machine.step_act hlabel rfl)
    refine ⟨s₂.drop Ty.wordSize, ((hrun₁.trans hrun₂).trans hrun₃).trans hrun₄, x, hx, x, ?_, ?_⟩
    · rw [if_pos hdecided]
    · refine ⟨hkept.sp, ?_, hkept.changes⟩
      rw [Machine.read_word Machine.scalar_int (by simp)]
      exact congrArg Machine.Value.word hkept.top
  · have hrun₃ :
        M.Runs fp code (p + is.length + 1, s₂) (p + is.length + 1 + 1, s₂.drop Ty.wordSize) :=
      Machine.runs_undecided hop hjump.tail.head (htop ▸ hdecided)
    have hcalm : Machine.Calm r fp s (s₂.drop Ty.wordSize) :=
      Machine.calm_of_changes hsp (by omega) hkept.changes
    have hcode := hc.left.right
    rw [List.length_append, ← Nat.add_assoc] at hcode
    obtain ⟨s₄, hrun₄, y, hy, hsecond⟩ :=
      h₂ hmakes hcode hcalm.1 (hρ.calm hm.laid hnames hscope hcalm)
    have hboth :=
      hkept.and hsecond (fun a ha => ?_) fun a ha ha' => hm.laid.not_touches_stack ha (by omega)
    · refine ⟨s₄.combine M.word M.word (M.words op), ?_, x, hx, M.words op x y, ?_, ?_⟩
      · have hrun₅ : M.Runs fp code (p + is.length + 1 + 1 + js.length, s₄)
            (p + is.length + 1 + 1 + js.length + 1 + 1, s₄.combine M.word M.word (M.words op)) := by
          refine Machine.runs_acts hlast ?_
          rw [← List.singleton_append, Machine.acts_append, Machine.acts_wordInstr]
          rfl
        exact (((hrun₁.trans hrun₂).trans hrun₃).trans hrun₄).trans hrun₅
      · rw [if_neg hdecided]
        exact ⟨y, hy, rfl⟩
      · exact hboth.word (fun a ha => Room.touches_below (by omega) ha)
          (M.words op) Machine.scalar_int (by simp)
    · exact Machine.touches_second (k := 4) (by omega) (by omega) (by omega) ha

/-- Nothing is widened to a word. -/
theorem widenInstrs_int (t : Ty) : widenInstrs .int t = [] := if_neg fun h => by cases h.1

section Binary

variable (hm : M.Setting r fp high cx) (hnames : View.Settled Ty.Sound scope.meanings)
  (hscope : r.Binds scope) {a b : Expr} {m : Nat} {t u : Ty}
  (ha : a.Computes M r fp cx scope texts .value) (hb : b.Computes M r fp cx scope texts .value)
  (hta : a.type r.types = t) (hub : b.type r.types = u)
  (hn : (a.outline cx scope .value n).Finds M texts)
  (hn' : (b.outline cx scope .value m).Finds M texts)

include hm hnames hscope ha hb hta hub hn hn'

/-- Two operands that are words. -/
theorem Computes.words (ht : t.Scalar ∧ t ≠ .double) (hu : u.Scalar ∧ u ≠ .double) :
    ∃ d : Nat, 12 ≤ d ∧ ∀ ρ, M.Delivers r fp scope ρ
      ((a.outline cx scope .value n).code ++ (b.outline cx scope .value m).code) fun s s' =>
        ∃ x y, (a.evaluate M r.types ρ texts = some (.word x) ∧
          b.evaluate M r.types ρ texts = some (.word y)) ∧
          s.Operands s'
            (r.Touches fp ((a.usage r.types .value).nodes ++ (b.usage r.types .value).nodes)
            (s.sp - d) s.sp) M.word x y := by
  obtain ⟨d₁, h₁⟩ := ha.word (hta ▸ ht.1) (hta ▸ ht.2) hn
  obtain ⟨d₂, h₂⟩ := hb.word (hub ▸ hu.1) (hub ▸ hu.2) hn'
  exact ⟨_, Nat.le_add_left 12 _, fun ρ => (h₁ ρ).operands hm hnames hscope (h₂ ρ)⟩

/-- Two operands that are numbers, widened where they have to be. -/
theorem Computes.reals (ht : t.IsNumber) (hu : u.IsNumber) :
    ∃ d : Nat, 12 ≤ d ∧ ∀ ρ, M.Delivers r fp scope ρ
      ((a.outline cx scope .value n).code ++ widenInstrs .double t ++
        ((b.outline cx scope .value m).code ++ widenInstrs .double u)) fun s s' =>
          ∃ x y, ((∃ v, a.evaluate M r.types ρ texts = some v ∧ v.real? = some x) ∧
              ∃ w, b.evaluate M r.types ρ texts = some w ∧ w.real? = some y) ∧
            s.Operands s'
              (r.Touches fp ((a.usage r.types .value).nodes ++ (b.usage r.types .value).nodes)
              (s.sp - d) s.sp) M.real x y := by
  subst hta hub
  obtain ⟨d₁, h₁⟩ := ha.real ht hn
  obtain ⟨d₂, h₂⟩ := hb.real hu hn'
  exact ⟨_, Nat.le_add_left 12 _, fun ρ => (h₁ ρ).operands hm hnames hscope (h₂ ρ)⟩

/-- An operator of words. -/
theorem Computes.combined (ht : t.Scalar ∧ t ≠ .double) (hu : u.Scalar ∧ u ≠ .double)
    (op : BinaryOp)
    (hop : ∀ x y : M.Word, M.binary? op t u (.word x) (.word y) = some (.word (M.words op x y))) :
    ∃ d : Nat, ∀ ρ, M.Delivers r fp scope ρ
      ((a.outline cx scope .value n).code ++ (b.outline cx scope .value m).code ++ [wordInstr op])
      (M.Combines r fp ρ texts op a b .int d) := by
  obtain ⟨d, hd, hboth⟩ := Computes.words hm hnames hscope ha hb hta hub hn hn' ht hu
  subst hta hub
  refine ⟨d, fun ρ => (hboth ρ).acts ?_⟩
  rintro s s' - ⟨x, y, hxy, hoperands⟩
  refine ⟨_, Machine.acts_wordInstr op _, _, _, _, hxy, hop x y, ?_⟩
  exact hoperands.word (fun a ha => Room.touches_below (by omega) ha) (M.words op)
    Machine.scalar_int (by simp)

/-- **A pointer operation** moves a pointer, or finds the distance of two. -/
theorem Computes.pointer {op : BinaryOp} {v : Ty} (hop : BinaryOp.Operands op t u v .pointer)
    (ht : t.Scalar ∧ t ≠ .double) (hu : u.Scalar ∧ u ≠ .double) :
    ∃ d : Nat, ∀ ρ, M.Delivers r fp scope ρ
      ((a.outline cx scope .value n).code ++ (b.outline cx scope .value m).code ++
        pointerTail op t u) (M.Combines r fp ρ texts op a b v d) := by
  obtain ⟨d, hd, hboth⟩ := Computes.words hm hnames hscope ha hb hta hub hn hn' ht hu
  subst hta hub
  refine ⟨d, fun ρ => (hboth ρ).acts ?_⟩
  rintro s s' - ⟨x, y, hxy, hoperands⟩
  obtain ⟨s₁, z, hs₁, hz, hg⟩ :=
    Machine.acts_pointer fp hop hoperands fun a ha => Room.touches_below hd ha
  exact ⟨s₁, hs₁, _, _, z, hxy, hz, hg⟩

/-- **Arithmetic** is done with words if both operands are integers, and else with doubles. -/
theorem Computes.arithmetic {op : BinaryOp} (hop : op.IsArithmetic) (ht : t.IsNumber)
    (hu : u.IsNumber) : ∃ d : Nat, ∀ ρ, M.Delivers r fp scope ρ
      ((a.outline cx scope .value n).code ++ widenInstrs (t.common u) t ++
        (b.outline cx scope .value m).code ++ widenInstrs (t.common u) u ++
        [arithmeticInstr op (t.common u)]) (M.Combines r fp ρ texts op a b (t.common u) d) := by
  by_cases hd : t = .double ∨ u = .double
  · obtain ⟨d, hd', hboth⟩ := Computes.reals hm hnames hscope ha hb hta hub hn hn' ht hu
    subst hta hub
    rw [show (a.type r.types).common (b.type r.types) = .double from if_pos hd,
      List.append_assoc (_ ++ _) _ (widenInstrs _ _)]
    refine ⟨d, fun ρ => (hboth ρ).acts ?_⟩
    rintro s s' - ⟨x, y, ⟨⟨v, hv, hx⟩, w, hw, hy⟩, hxy⟩
    refine ⟨_, Machine.acts_arithmetic hop _, v, w, _, ⟨hv, hw⟩, ?_,
      hxy.real (fun a ha => Room.touches_below (by omega) ha) (M.reals op)⟩
    simp [Machine.binary?_of_double ht hu hd, hx, hy, Machine.ofReals_of_arithmetic hop]
  · obtain ⟨rfl, rfl⟩ := ht.eq_int hu hd
    have hint : Ty.int.Scalar ∧ Ty.int ≠ .double := ⟨Machine.scalar_int, by simp⟩
    simp only [show Ty.int.common .int = .int from rfl, widenInstrs_int, List.append_nil]
    exact Computes.combined hm hnames hscope ha hb hta hub hn hn' hint hint op fun _ _ => rfl

/-- **A comparison** is one of words if both operands are integers, and else one of doubles. -/
theorem Computes.comparison {op : BinaryOp} (hop : op.IsComparison) (ht : t.IsNumber)
    (hu : u.IsNumber) {wide : Ty}
    (hwide : wide = if t = .double ∨ u = .double then .double else .int) :
    ∃ d : Nat, ∀ ρ, M.Delivers r fp scope ρ
      ((a.outline cx scope .value n).code ++ widenInstrs wide t ++
        (b.outline cx scope .value m).code ++ widenInstrs wide u ++
        ((if wide = .double then [.compareDouble, .int 0] else []) ++ [wordInstr op]))
      (M.Combines r fp ρ texts op a b .int d) := by
  by_cases hd : t = .double ∨ u = .double
  · obtain ⟨d, hd', hboth⟩ := Computes.reals hm hnames hscope ha hb hta hub hn hn' ht hu
    subst hta hub
    rw [hwide, if_pos hd, if_pos rfl, List.append_assoc (_ ++ _) _ (widenInstrs .double _)]
    refine ⟨d, fun ρ => (hboth ρ).acts ?_⟩
    rintro s s' - ⟨x, y, ⟨⟨v, hv, hx⟩, w, hw, hy⟩, hxy⟩
    obtain ⟨s₁, hs₁, hg⟩ :=
      Machine.acts_comparison fp op hxy fun a ha => Room.touches_below (by omega) ha
    refine ⟨s₁, hs₁, v, w, _, ⟨hv, hw⟩, ?_, hg⟩
    simp [Machine.binary?_of_double ht hu hd, hx, hy, Machine.ofReals_of_comparison hop]
  · obtain ⟨rfl, rfl⟩ := ht.eq_int hu hd
    have hint : Ty.int.Scalar ∧ Ty.int ≠ .double := ⟨Machine.scalar_int, by simp⟩
    rw [if_neg hd] at hwide
    simp only [hwide, widenInstrs_int, List.append_nil, if_neg hint.2, List.nil_append]
    exact Computes.combined hm hnames hscope ha hb hta hub hn hn' hint hint op fun _ _ => rfl

end Binary

/-- **The operands of an operator are computed, and then combined.** -/
theorem computes_binary (hm : M.Setting r fp high cx) {site : Site} {op : BinaryOp} {a b : Expr}
    (h : (binary site op a b).Sits Ty.Sound r scope .value)
    (ha : a.Computes M r fp cx scope texts .value) (hb : b.Computes M r fp cx scope texts .value) :
    (binary site op a b).Computes M r fp cx scope texts .value := by
  intro n hn
  obtain ⟨-, t, u, v, ⟨hat, -⟩, ⟨hbt, -⟩, hv, hs⟩ := h.typed
  have hoperands := BinaryOp.operands_of_resultType hv
  have hconnective := hoperands.connective_iff
  have hatype : a.type r.types = t := TypeTable.typeOf_eq hat
  have hbtype : b.type r.types = u := TypeTable.typeOf_eq hbt
  have htype : (binary site op a b).type r.types = v := TypeTable.typeOf_eq hs
  rw [outline, Outline.finds_expression] at hn
  rw [outline, Outline.code_piece, htype, usage, FrameUsage.nodes_append]
  simp only [hm.suits.types, hatype, hbtype, TypeTable.typeOf_eq hs] at hn ⊢
  clear hv hs htype
  have hint : Ty.int.Scalar ∧ Ty.int ≠ .double := ⟨Machine.scalar_int, by simp⟩
  have hpointer : ∀ t, (Ty.pointer t).Scalar ∧ Ty.pointer t ≠ .double := fun t =>
    ⟨Machine.scalar_pointer t, by simp⟩
  generalize binaryForm op t u = form at hoperands hconnective hn
  -- An operator that is no connective has the value that its operands decide together.
  have hcombines : form ≠ .shortCircuit → ∀ {is : List Instr}, (∃ d : Nat, ∀ ρ,
      M.Delivers r fp scope ρ is (M.Combines r fp ρ texts op a b v d)) → ∃ d : Nat, ∀ ρ,
        M.Delivers r fp scope ρ is fun s s' => ∃ z,
          (binary site op a b).evaluate M r.types ρ texts = some z ∧
          s.Gains s'
            (r.Touches fp ((a.usage r.types .value).nodes ++ (b.usage r.types .value).nodes)
            (s.sp - d) s.sp) v z := by
    rintro hform is ⟨d, h⟩
    refine ⟨d, fun ρ => (h ρ).mono ?_⟩
    rintro s s' - ⟨x, y, z, ⟨hx, hy⟩, hz, hg⟩
    exact ⟨z, evaluate_binary (mt hconnective.mp hform) rfl rfl hx hy hz, hg⟩
  cases hoperands with
  | connective hop =>
    simp only [Outline.finds_append] at hn
    obtain ⟨d₁, h₁⟩ := ha.word (hatype ▸ hint.1) (hatype ▸ hint.2) hn.1.1.1
    obtain ⟨d₂, h₂⟩ := hb.word (hbtype ▸ hint.1) (hbtype ▸ hint.2) hn.1.2
    simp only [Outline.code_append, Outline.code_ofCode]
    refine ⟨d₁ + d₂ + 12, fun ρ =>
      (delivers_shortCircuit hm h.names h.binds hop (h₁ ρ) (h₂ ρ)).mono ?_⟩
    rintro s s' - ⟨x, hx, w, hw, hg⟩
    exact ⟨.word w, evaluate_connective hop hatype hbtype hx hw, hg⟩
  | move hop =>
    simp only [Outline.finds_append] at hn
    simp only [Outline.code_append, Outline.code_ofCode]
    exact hcombines (by simp) (Computes.pointer hm h.names h.binds ha hb hatype hbtype hn.1.1 hn.1.2
      (.move hop) (hpointer _) hint)
  | distance =>
    simp only [Outline.finds_append] at hn
    simp only [Outline.code_append, Outline.code_ofCode]
    exact hcombines (by simp) (Computes.pointer hm h.names h.binds ha hb hatype hbtype hn.1.1 hn.1.2
      .distance (hpointer _) (hpointer _))
  | compute hop ht hu =>
    simp only [Outline.finds_append] at hn
    simp only [Outline.code_append, Outline.code_ofCode]
    exact hcombines (by simp) (Computes.arithmetic hm h.names h.binds ha hb hatype hbtype
      hn.1.1.1.1 hn.1.1.2 hop ht hu)
  | remainder =>
    simp only [Outline.finds_append] at hn
    simp only [Outline.code_append, Outline.code_ofCode, widenInstrs_int, List.append_nil]
    exact hcombines (by simp) (Computes.combined hm h.names h.binds ha hb hatype hbtype
      hn.1.1.1.1 hn.1.1.2 hint hint .mod fun _ _ => rfl)
  | compare hop ht hu =>
    simp only [Outline.finds_append] at hn
    simp only [Outline.code_append, Outline.code_ofCode]
    exact hcombines (by simp) (Computes.comparison hm h.names h.binds ha hb hatype hbtype
      hn.1.1.1.1 hn.1.1.2 hop ht hu rfl)
  | same hop =>
    simp only [Outline.finds_append] at hn
    have hd : ∀ t u, ¬(Ty.pointer t = .double ∨ Ty.pointer u = .double) := by simp
    simp only [Outline.code_append, Outline.code_ofCode, if_neg (hd _ _), widenInstrs_int,
      List.append_nil, if_neg hint.2, List.nil_append]
    exact hcombines (by simp) (Computes.combined hm h.names h.binds ha hb hatype hbtype
      hn.1.1.1.1 hn.1.1.2 (hpointer _) (hpointer _) op fun _ _ => rfl)

end Expr

end PostfixCompiler
