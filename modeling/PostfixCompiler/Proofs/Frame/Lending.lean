import PostfixCompiler.Proofs.Emission.Inert
import PostfixCompiler.Proofs.Frame.Address
import PostfixCompiler.Proofs.Frame.Loan

/-!
# Results are read in time

A function has one area for all tuples that calls return to it. A result is there until the next
call, so whoever gets its address has to read it before anything else is called. The writer sees to
that by handing addresses on only where the next thing that happens is a read: from a call to the
component that is wanted of its result, from there to the node that reads the component, and from a
tuple of one component to what is in it. Wherever a value is wanted nothing is left to be read.

There is one way to keep such an address: to take the address of a component of a result. Where no
function does that, all results are read in time.

## Main definitions

* `PostfixCompiler.Expr.comesFromCall`: a component is that of the result of a call.
* `PostfixCompiler.Expr.lends`: the code of an expression leaves an address in the area for results.
* `PostfixCompiler.Function.ReadsInTime`: a function reads all results in time.

## Main statements

* `PostfixCompiler.Expr.ensures`: what the code of an expression does to a ledger.
* `PostfixCompiler.Stmt.ensures`: a statement leaves the ledger alone.
* `PostfixCompiler.results_read_in_time`: each function of an accepted unit reads all results in
  time, if it takes no address of a component of one.
-/

namespace PostfixCompiler

open Emission

namespace Expr

/-- **A component comes from a call** if what it is a component of does, or is a call: tuples of one
component and nodes that read a place are looked through. -/
def comesFromCall : Expr → Bool
  | .call .. => true
  | .tupleIndex _ e _ | .rvalue _ e | .tuple _ [e] => e.comesFromCall
  | .integer .. | .double .. | .string .. | .nullptr _ | .input _ | .variable ..
  | .pointerIndex .. | .assignment .. | .unary .. | .binary .. | .addressOf .. | .stackAlloc ..
  | .sizeof .. | .tuple .. => false

/-- **The code of an expression leaves an address in the area for results**, if something of a mode
is wanted. -/
def lends (T : TypeTable) (mode : Mode) : Expr → Bool
  | .call s _ _ => mode = .address && (T.typeOf s.id).isTuple
  | .tupleIndex _ b _ => b.lends T .address
  | .rvalue s p => mode = .address && (T.typeOf s.id).isTuple && p.lends T .address
  | .tuple _ [e] => e.lends T mode
  | .integer .. | .double .. | .string .. | .nullptr _ | .input _ | .variable ..
  | .pointerIndex .. | .assignment .. | .unary .. | .binary .. | .addressOf .. | .stackAlloc ..
  | .sizeof .. | .tuple .. => false

variable {T : TypeTable}

/-- What is lent comes from a call. -/
theorem comesFromCall_of_lends :
    ∀ {e : Expr} {mode : Mode}, e.lends T mode = true → e.comesFromCall = true
  | .call .., _, _ => by rw [comesFromCall]
  | .tupleIndex _ b _, _, h => by
    rw [lends] at h
    rw [comesFromCall]
    exact comesFromCall_of_lends h
  | .rvalue _ p, _, h => by
    rw [lends, Bool.and_eq_true] at h
    rw [comesFromCall]
    exact comesFromCall_of_lends h.2
  | .tuple _ [e], _, h => by
    rw [lends] at h
    rw [comesFromCall]
    exact comesFromCall_of_lends h
  | .integer .., _, h | .double .., _, h | .string .., _, h | .nullptr _, _, h | .input _, _, h
  | .variable .., _, h | .pointerIndex .., _, h | .assignment .., _, h | .unary .., _, h
  | .binary .., _, h | .addressOf .., _, h | .stackAlloc .., _, h | .sizeof .., _, h
  | .tuple _ [], _, h | .tuple _ (_ :: _ :: _), _, h => by
    simp [lends] at h

/-- Where a value is wanted nothing is lent. -/
theorem IsValue.lends_eq : ∀ {e : Expr}, e.IsValue → e.lends T .value = false
  | .tupleIndex .., h => absurd h.1 (by simp [isPlace])
  | .tuple _ [e], h => by
    rw [lends]
    exact IsValue.lends_eq h.2.1
  | .call .., _ | .rvalue .., _ | .integer .., _ | .double .., _ | .string .., _
  | .nullptr _, _ | .input _, _ | .variable .., _ | .pointerIndex .., _ | .assignment .., _
  | .unary .., _ | .binary .., _ | .addressOf .., _ | .stackAlloc .., _ | .sizeof .., _
  | .tuple _ [], _ | .tuple _ (_ :: _ :: _), _ => by
    simp [lends]

mutual

/-- **No address of a component of a result is kept**: none is taken anywhere in what is
evaluated. -/
def keepsNone : Expr → Bool
  | .addressOf _ p => !p.comesFromCall && p.keepsNone
  | .pointerIndex _ a b | .assignment _ a b | .binary _ _ a b => a.keepsNone && b.keepsNone
  | .tupleIndex _ a _ | .rvalue _ a | .unary _ _ a | .stackAlloc _ a => a.keepsNone
  | .tuple _ es | .call _ _ es => keepNone es
  | .integer .. | .double .. | .string .. | .nullptr _ | .input _ | .variable ..
  | .sizeof .. => true

/-- As `keepsNone`, for several expressions. -/
def keepNone : List Expr → Bool
  | [] => true
  | e :: es => e.keepsNone && keepNone es

end

end Expr

/-! ### Reading -/

namespace Emission

/-- **An address is on top from which something can be read**: it is not that of a pin, and if it is
in the area for results then it is time to read what is there. -/
structure Ledger.Readable (l : Ledger) : Prop where
  /-- The address is on top. -/
  top : l.top = .plain ∨ l.top = .due
  /-- Nothing below has to do with results. -/
  below : (l.drop 1).Plain

section Reading

variable {Q : Ledger → Prop} {cs : List (Instr × Purpose)} {l : Ledger}
  {use : Purpose} {id : NodeId}

theorem Ledger.Plain.readable (h : l.Plain) : l.Readable := ⟨.inl h.top_eq, h.drop 1⟩

theorem Ledger.Due.readable (h : l.Due) : l.Readable := ⟨.inr h.top, h.below⟩

/-- What is pushed onto a ledger can be read from. -/
theorem Ledger.Plain.readable_push (h : l.Plain) {e : Entry} (he : e = .plain ∨ e = .due) :
    (l.push e).Readable :=
  ⟨he, h⟩

/-- A leaf is read. -/
theorem Ledger.Readable.load (h : l.Readable) (t : Ty)
    (hrest : ∀ l' : Ledger, l'.Plain → l'.pins = l.pins → l'.held = l.held → Ensures Q cs l') :
    Ensures Q ((loadInstr t, use) :: cs) l := by
  have htop : l.top ≠ .late := by rcases h.top with h | h <;> simp [h]
  unfold loadInstr
  split
  · exact ensures_cons rfl htop fun _ => hrest _ (h.below.pad 2) rfl rfl
  · have hfetch : l.fetch l.top = .plain := by rcases h.top with h | h <;> rw [h] <;> rfl
    refine ensures_cons rfl htop fun _ => hrest _ ?_ rfl rfl
    rw [Ledger.act, hfetch]
    exact h.below.push

/-- A value is stored by way of an address. -/
theorem Ledger.Readable.store (h : l.Readable) (t : Ty) :
    Ensures Ledger.Plain [(if t = .double then .storeDouble else .storeInt, use)] l := by
  have hbelow : ∀ n, (l.drop (1 + n)).Plain := fun n => l.drop_drop 1 n ▸ h.below.drop n
  split
  · exact ensures_cons rfl trivial fun _ => hbelow 2
  · have hfree : (l.drop 1).top.Free := by simp [h.below.top_eq, Entry.Free]
    exact ensures_cons rfl (.inl hfree) fun _ => (hbelow 1).keep _ _

/-- Code that has nothing to do with results. -/
theorem Ledger.Plain.code (h : l.Plain) (is : List Instr) :
    Ensures Ledger.Plain (is.map (·, Purpose.plain)) l := by
  refine ensures_plain h fun c hc => ?_
  obtain ⟨i, -, rfl⟩ := List.mem_map.mp hc
  exact .inl rfl

/-- A number is widened. -/
theorem Ledger.Plain.widen (h : l.Plain) (wanted t : Ty) :
    Ensures Ledger.Plain ((widenInstrs wanted t).map (·, use)) l := by
  refine ensures_plain h fun c hc => .inr fun offset => ?_
  obtain ⟨i, hi, rfl⟩ := List.mem_map.mp hc
  unfold widenInstrs at hi
  split at hi <;> simp_all

/-- **An offset is added to an address in the area**, which gives an address in the area. -/
theorem Ledger.Due.offset (h : l.Due) (n : Nat) :
    Ensures Ledger.Due ((offsetInstrs n).map (·, Purpose.plain)) l := by
  unfold offsetInstrs
  split
  · exact h
  · refine ensures_cons rfl trivial fun _ => ensures_cons rfl trivial fun _ => ⟨?_, h.below⟩
    change Entry.join .plain l.top = .due
    rw [h.top]
    rfl

/-! ### Pins -/

/-- A pin keeps an address from which something can be read. -/
structure Ledger.Pinned (l : Ledger) (id : NodeId) : Prop where
  /-- Nothing on the stack has to do with results. -/
  plain : l.Plain
  /-- The address is kept. -/
  pin : l.pins id = .plain ∨ l.pins id = .due

/-- The address of a byte is fetched from a pin. -/
theorem Ledger.Pinned.address (h : l.Pinned id) (slot : Int) (byte : Nat)
    (hrest : ∀ l' : Ledger, l'.Readable → l'.pins = l.pins → Ensures Q cs l') :
    Ensures Q (((Base.pinned slot).instrs byte).map (·, .pin id) ++ cs) l := by
  have hpushed : (l.push (l.pins id)).Readable := h.plain.readable_push h.pin
  have hfetch : (l.push (.pin id)).top ≠ .late := fun h => by cases h
  refine ensures_cons rfl trivial fun _ => ensures_cons rfl hfetch fun _ => ?_
  split
  · exact hrest _ hpushed rfl
  · refine ensures_cons rfl trivial fun _ => ensures_cons rfl trivial fun _ =>
      hrest _ ⟨?_, h.plain⟩ rfl
    change Entry.join .plain (l.pins id) = .plain ∨ Entry.join .plain (l.pins id) = .due
    rcases h.pin with h | h <;> simp [h, Entry.join]

/-- **Leaves are read by way of a pin.** -/
theorem Ledger.Pinned.load (slot : Int) {leaves : List (Ty × Nat)} (h : l.Pinned id) :
    Ensures Ledger.Plain ((loadInstrs (.pinned slot) leaves).map (·, .pin id)) l := by
  induction leaves generalizing l with
  | nil => exact h.plain
  | cons leaf leaves ih =>
    rw [loadInstrs, List.flatMap_cons, List.map_append, List.map_append, List.append_assoc]
    refine h.address slot leaf.2 fun l₁ h₁ hpins₁ => ?_
    refine h₁.load leaf.1 fun l₂ h₂ hpins₂ _ => ih ⟨h₂, ?_⟩
    rw [hpins₂, hpins₁]
    exact h.pin

/-- A tuple whose address is wanted is not read. -/
theorem readInstrs_address (slot : Int) {t : Ty} (ht : t.isTuple = true) :
    readInstrs slot t .address = [] := by
  cases t with
  | tuple ts => rfl
  | _ => cases ht

/-- **A place is read**: a tuple by way of a pin, unless its address is wanted. -/
theorem Ledger.Readable.read (h : l.Readable) (slot : Int) (t : Ty) {mode : Mode}
    (ht : ¬(mode = .address ∧ t.isTuple = true)) :
    Ensures Ledger.Plain ((readInstrs slot t mode).map (·, .pin id)) l := by
  cases t with
  | tuple ts =>
    cases mode with
    | address => exact absurd ⟨rfl, rfl⟩ ht
    | value =>
      refine ensures_cons rfl trivial fun _ => ensures_cons rfl (.inr ⟨id, rfl⟩) fun _ => ?_
      refine Ledger.Pinned.load slot ⟨h.below, ?_⟩
      change (if id = id then l.top else _) = _ ∨ (if id = id then l.top else _) = _
      rw [if_pos rfl]
      exact h.top
  | double => exact h.load .double fun _ h' _ _ => h'
  | void | int | string | pointer | auto => exact h.load .int fun _ h' _ _ => h'

/-! ### Calls -/

/-- Leaves are read from the area for results. -/
theorem Ledger.Plain.load (area : Int) {leaves : List (Ty × Nat)} (h : l.Plain)
    (hheld : l.held = some id) :
    Ensures Ledger.Plain ((loadInstrs (.frame area) leaves).map (·, .result id)) l := by
  induction leaves generalizing l with
  | nil => exact h
  | cons leaf leaves ih =>
    rw [loadInstrs, List.flatMap_cons, List.map_append, List.map_append, List.append_assoc]
    have haddress : l.address (.result id) = .due := if_pos hheld
    have hpushed : (l.push (l.address (.result id))).Readable := h.readable_push (.inr haddress)
    refine ensures_cons rfl trivial fun _ => hpushed.load leaf.1 fun l₁ h₁ _ hheld₁ => ?_
    exact ih h₁ (hheld₁.trans hheld)

/-- **A tuple is returned**: either it is read, or its address is left. -/
theorem Ledger.Plain.call (h : l.Plain) (area : Int) (label : String) (bytes : Nat)
    (mode : Mode) {t : Ty} (ht : t.isTuple = true) :
    Ensures (fun l' => if mode = .address then l'.Due else l'.Plain)
      ((callInstrs area label t bytes mode).map (·, .result id)) l := by
  obtain ⟨ts, rfl⟩ : ∃ ts, t = .tuple ts := by
    cases t with
    | tuple ts => exact ⟨ts, rfl⟩
    | _ => cases ht
  have htrash : trashInstrs (bytes + Ty.wordSize) = [.trash (bytes + Ty.wordSize)] :=
    if_neg (by simp [Ty.wordSize])
  simp only [callInstrs, htrash]
  refine ensures_cons rfl trivial fun _ => ensures_cons rfl h.free fun _ =>
    ensures_cons rfl trivial fun reserved => ?_
  generalize hl' : Ledger.act _ reserved _ = l'
  have hplain : l'.Plain := by
    -- The address that is passed to the function is dropped together with the arguments.
    have hwords : (bytes + Ty.wordSize) / Ty.wordSize = bytes / Ty.wordSize + 1 :=
      Nat.add_div_right _ (by decide)
    rw [← hl']
    change ((Ledger.drop _ ((bytes + Ty.wordSize) / Ty.wordSize)).pad 0).Plain
    rw [hwords]
    exact (h.age.drop _).pad 0
  have hheld : l'.held = some id := by rw [← hl']; rfl
  cases mode with
  | value => exact (hplain.load area hheld).mono fun _ h => h
  | address =>
    have haddress : l'.address (.result id) = .due := if_pos hheld
    exact ensures_cons rfl trivial fun _ => ⟨haddress, hplain⟩

end Reading

end Emission

/-! ### Expressions -/

namespace Expr

/-- **What the code of an expression leaves**: an address in the area, if it lends one, and else
nothing that has to do with results. -/
def Leaves (T : TypeTable) (mode : Mode) (e : Expr) (l : Ledger) : Prop :=
  if e.lends T mode then l.Due else l.Plain

section Ensures

variable {cx : Context} {scope : View Symbol} {l : Ledger} {T : TypeTable}

theorem Leaves.readable {mode : Mode} {e : Expr} (h : e.Leaves T mode l) : l.Readable := by
  unfold Leaves at h
  split at h
  · exact h.readable
  · exact h.readable

/-- An expression that lends nothing. -/
theorem Leaves.plain {mode : Mode} {e : Expr} (he : e.lends T mode = false)
    (h : e.Leaves T mode l) : l.Plain := by
  rwa [Leaves, he, if_neg (by simp)] at h

theorem leaves_of_plain {mode : Mode} {e : Expr} (he : e.lends T mode = false) (h : l.Plain) :
    e.Leaves T mode l := by
  rwa [Leaves, he, if_neg (by simp)]

/-- What is left by code that ends like that of an expression inside. -/
theorem Leaves.congr {mode mode' : Mode} {e e' : Expr} (he : e'.lends T mode' = e.lends T mode)
    (h : e.Leaves T mode l) : e'.Leaves T mode' l := by
  unfold Leaves at h ⊢
  rwa [he]

/-- Code behind which nothing has to do with results, and which is that of an expression that lends
nothing. -/
theorem ensures_leaves {mode : Mode} {e : Expr} {cs : List (Instr × Purpose)}
    (he : e.lends T mode = false) (h : Ensures Ledger.Plain cs l) :
    Ensures (e.Leaves T mode) cs l :=
  h.mono fun _ => leaves_of_plain he

/-- **The code of a value leaves the ledger as it is**, wherever it is needed. -/
def Calm (cx : Context) (scope : View Symbol) (e : Expr) : Prop :=
  ∀ (n : Nat) (use : Purpose) (l : Ledger), l.Plain →
    Ensures Ledger.Plain ((e.outline cx scope .value n).purposed cx.types use) l

/-- Where a value is wanted nothing is left that has to do with results. -/
theorem calm {e : Expr} (hw : e.IsValue) (h : ∀ (n : Nat) (use : Purpose) (l : Ledger), l.Plain →
    Ensures (e.Leaves cx.types .value) ((e.outline cx scope .value n).purposed cx.types use) l) :
    e.Calm cx scope :=
  fun n use l hl => (h n use l hl).mono fun _ h => h.plain hw.lends_eq

/-- The code of an operator, shape by shape. -/
theorem ensures_binary {site : Site} {op : BinaryOp} {a b : Expr} {mode : Mode} {n : Nat}
    {use : Purpose} (ha : a.Calm cx scope) (hb : b.Calm cx scope) (hl : l.Plain) :
    Ensures Ledger.Plain
      (((binary site op a b).outline cx scope mode n).purposed cx.types use) l := by
  unfold outline
  simp only [Outline.purposed_piece, Piece.purpose]
  cases binaryForm op (a.type cx.types) (b.type cx.types) with
  | shortCircuit =>
    simp only [Outline.purposed_append, Outline.purposed_ofCode]
    exact ((((ha _ _ l hl).next fun _ h => h.code _).next fun _ h => hb _ _ _ h).next fun _ h =>
      h.code _)
  | pointer =>
    simp only [Outline.purposed_append, Outline.purposed_ofCode]
    exact ((ha _ _ l hl).next fun _ h => hb _ _ _ h).next fun _ h => h.code _
  | arithmetic | comparison =>
    simp only [Outline.purposed_append, Outline.purposed_ofCode]
    exact (((((ha _ _ l hl).next fun _ h => h.code _).next fun _ h => hb _ _ _ h).next fun _ h =>
      h.code _).next
      fun _ h => h.code _)

mutual

/-- **What the code of an expression does to a ledger** where nothing has to do with results. -/
theorem ensures : ∀ {e : Expr} {mode : Mode} {n : Nat} {use : Purpose} {l : Ledger}, e.WellPlaced →
    e.keepsNone = true →
    l.Plain → Ensures (e.Leaves cx.types mode) ((e.outline cx scope mode n).purposed cx.types use) l
  | .integer .., mode, n, use, l, hw, hk, hl | .double .., mode, n, use, l, hw, hk, hl
  | .nullptr _, mode, n, use, l, hw, hk, hl | .sizeof .., mode, n, use, l, hw, hk, hl
  | .input _, mode, n, use, l, hw, hk, hl | .variable .., mode, n, use, l, hw, hk, hl => by
    refine ensures_leaves (by rw [lends]) ?_
    simp only [outline, Outline.purposed_piece, Outline.purposed_ofCode, Piece.purpose]
    exact hl.code _
  | .string s x, mode, n, use, l, hw, hk, hl => by
    refine ensures_leaves (by rw [lends]) ?_
    simp only [outline, Outline.purposed_piece, Outline.purposed_ofCode, Piece.purpose]
    exact hl.code _
  | .pointerIndex s b i, mode, n, use, l, hw, hk, hl => by
    refine ensures_leaves (by rw [lends]) ?_
    simp only [outline, Outline.purposed_piece, Outline.purposed_append,
      Outline.purposed_ofCode, Piece.purpose]
    rw [keepsNone, Bool.and_eq_true] at hk
    have hb : b.Calm cx scope := calm hw.1 fun _ _ _ => ensures hw.1.2 hk.1
    have hi : i.Calm cx scope := calm hw.2 fun _ _ _ => ensures hw.2.2 hk.2
    exact ((hb _ _ l hl).next fun _ h => hi _ _ _ h).next fun _ h => h.code _
  | .tupleIndex s b i, mode, n, use, l, hw, hk, hl => by
    rw [outline]
    simp only [Outline.purposed_piece, Outline.purposed_append,
      Outline.purposed_ofCode, Piece.purpose]
    rw [keepsNone] at hk
    refine (ensures (e := b) hw hk hl).next fun l' h => ?_
    -- What is found at an offset in the area is in the area, too.
    unfold Leaves at h ⊢
    rw [lends]
    split at h
    · rename_i hlends
      exact (h.offset _).mono fun _ h' => by rwa [if_pos hlends]
    · rename_i hlends
      exact (h.code _).mono fun _ h' => by rwa [if_neg hlends]
  | .rvalue s p, mode, n, use, l, hw, hk, hl => by
    simp only [outline, Outline.purposed_piece, Outline.purposed_append,
      Outline.purposed_ofCode, Piece.purpose]
    rw [keepsNone] at hk
    refine (ensures hw.2 hk hl).next fun l' h => ?_
    -- A tuple whose address is wanted is handed on unread; everything else is read at once.
    by_cases ht : mode = .address ∧ (cx.types.typeOf s.id).isTuple = true
    · obtain ⟨rfl, htuple⟩ := ht
      rw [readInstrs_address _ htuple]
      exact h.congr (by simp [lends, htuple])
    · exact ensures_leaves (by simp_all [lends]) (h.readable.read _ _ ht)
  | .assignment s p v, mode, n, use, l, hw, hk, hl => by
    refine ensures_leaves (by rw [lends]) ?_
    simp only [outline, Outline.purposed_piece, Outline.purposed_append,
      Outline.purposed_ofCode, Piece.purpose]
    rw [keepsNone, Bool.and_eq_true] at hk
    have hv : v.Calm cx scope := calm hw.2 fun _ _ _ => ensures hw.2.2 hk.2
    refine ((((hv _ _ l hl).next fun _ h => h.widen _ _).next fun _ h => h.code _).next fun _ h =>
      ensures hw.1.2 hk.1 h).next fun _ h => h.readable.store _
  | .unary s op a, mode, n, use, l, hw, hk, hl | .stackAlloc s a, mode, n, use, l, hw, hk, hl => by
    refine ensures_leaves (by rw [lends]) ?_
    simp only [outline, Outline.purposed_piece, Outline.purposed_append,
      Outline.purposed_ofCode, Piece.purpose]
    rw [keepsNone] at hk
    have ha : a.Calm cx scope := calm hw fun _ _ _ => ensures hw.2 hk
    exact (ha _ _ l hl).next fun _ h => h.code _
  | .binary s op a b, mode, n, use, l, hw, hk, hl => by
    rw [keepsNone, Bool.and_eq_true] at hk
    refine ensures_leaves (by rw [lends]) (ensures_binary ?_ ?_ hl)
    · exact calm hw.1 fun _ _ _ => ensures hw.1.2 hk.1
    · exact calm hw.2 fun _ _ _ => ensures hw.2.2 hk.2
  | .addressOf s p, mode, n, use, l, hw, hk, hl => by
    refine ensures_leaves (by rw [lends]) ?_
    rw [keepsNone, Bool.and_eq_true, Bool.not_eq_true'] at hk
    -- The address is kept for as long as the program likes, so it must not be one in the area.
    have hnone : p.lends cx.types .address = false := by
      refine Bool.eq_false_iff.mpr fun h => ?_
      rw [comesFromCall_of_lends h] at hk
      cases hk.1
    simp only [outline, Outline.purposed_piece, Piece.purpose]
    exact (ensures hw.2 hk.2 hl).mono fun _ h => h.plain hnone
  | .tuple s [e], mode, n, use, l, hw, hk, hl => by
    simp only [outline, Outline.purposed_piece, Piece.purpose]
    rw [keepsNone, keepNone, Bool.and_eq_true] at hk
    exact (ensures hw.1.2 hk.1 hl).mono fun _ h => h.congr (by rw [lends])
  | .tuple s [], .value, n, use, l, hw, hk, hl
  | .tuple s (_ :: _ :: _), .value, n, use, l, hw, hk, hl => by
    refine ensures_leaves (by simp [lends]) ?_
    simp only [outline, Outline.purposed_piece, Piece.purpose]
    rw [keepsNone] at hk
    exact ensures_reverse hw hk hl
  | .tuple s [], .address, n, use, l, hw, hk, hl
  | .tuple s (_ :: _ :: _), .address, n, use, l, hw, hk, hl => by
    refine ensures_leaves (by simp [lends]) ?_
    simp only [outline, Outline.purposed_piece, Outline.purposed_append,
      Outline.purposed_ofCode, Piece.purpose]
    rw [keepsNone] at hk
    exact (ensures_slot hw hk hl).next fun _ h => h.code _
  | .call s name args, mode, n, use, l, hw, hk, hl => by
    simp only [outline, Outline.purposed_piece, Outline.purposed_append,
      Outline.purposed_ofCode, Piece.purpose]
    rw [keepsNone] at hk
    -- No argument is an address in the area, so the call destroys nothing that is still to be read.
    refine (ensures_arguments hw hk hl).next fun l' h => ?_
    split
    · rename_i htuple
      exact (h.call _ _ _ mode htuple).mono fun _ h' => by
        unfold Leaves
        simpa [lends, htuple] using h'
    · rename_i hplain
      exact ensures_leaves (by simp [lends, hplain]) (h.code _)

/-- As `ensures`, for the code that builds a tuple in a slot. -/
theorem ensures_slot :
    ∀ {es : List Expr} {slot : Int} {n : Nat} {targets : List Ty} {byte : Nat} {l : Ledger},
    AllValues es → keepNone es = true → l.Plain →
    Ensures Ledger.Plain ((slotOutline cx scope slot n es targets byte).purposed cx.types .plain) l
  | [], _, _, _, _, l, _, _, hl | _ :: _, _, _, [], _, l, _, _, hl => by
    rw [slotOutline]
    · exact hl
    all_goals simp
  | e :: es, slot, n, t :: ts, byte, l, hw, hk, hl => by
    rw [keepNone, Bool.and_eq_true] at hk
    rw [slotOutline, Outline.purposed_append, Outline.purposed_append, Outline.purposed_ofCode]
    have he : e.Calm cx scope := calm hw.1 fun _ _ _ => ensures hw.1.2 hk.1
    exact ((he _ _ l hl).next fun _ h => h.code _).next fun _ h => ensures_slot hw.2 hk.2 h

/-- As `ensures`, for the code that pushes the elements of a tuple. -/
theorem ensures_reverse :
    ∀ {es : List Expr} {n : Nat} {l : Ledger}, AllValues es → keepNone es = true → l.Plain →
    Ensures Ledger.Plain ((reverseOutline cx scope n es).purposed cx.types .plain) l
  | [], _, l, _, _, hl => by
    rw [reverseOutline]
    exact hl
  | e :: es, n, l, hw, hk, hl => by
    rw [keepNone, Bool.and_eq_true] at hk
    rw [reverseOutline, Outline.purposed_append]
    have he : e.Calm cx scope := calm hw.1 fun _ _ _ => ensures hw.1.2 hk.1
    exact (ensures_reverse hw.2 hk.2 hl).next fun _ h => he _ _ _ h

/-- As `ensures`, for the code that pushes the arguments of a call. -/
theorem ensures_arguments {use : Purpose} :
    ∀ {es : List Expr} {n : Nat} {ps : List Ty} {l : Ledger}, AllValues es →
    keepNone es = true → l.Plain →
    Ensures Ledger.Plain ((argumentsOutline cx scope n es ps).purposed cx.types use) l
  | [], _, _, l, _, _, hl | _ :: _, _, [], l, _, _, hl => by
    rw [argumentsOutline]
    · exact hl
    all_goals simp
  | e :: es, n, p :: ps, l, hw, hk, hl => by
    rw [keepNone, Bool.and_eq_true] at hk
    rw [argumentsOutline, Outline.purposed_append, Outline.purposed_append, Outline.purposed_ofCode]
    have he : e.Calm cx scope := calm hw.1 fun _ _ _ => ensures hw.1.2 hk.1
    exact ((ensures_arguments hw.2 hk.2 hl).next fun _ h => he _ _ _ h).next fun _ h => h.widen _ _

end

end Ensures

end Expr

/-! ### Statements -/

/-- **The code of an outline leaves the ledger as it is**, if it belongs to no expression. -/
def Outline.Calm (T : TypeTable) (o : Outline) : Prop :=
  ∀ l : Ledger, l.Plain → Ensures Ledger.Plain (o.purposed T .plain) l

namespace Outline.Calm

variable {T : TypeTable} {a b : Outline}

theorem append (ha : a.Calm T) (hb : b.Calm T) : (a ++ b).Calm T := by
  intro l hl
  rw [purposed_append]
  exact (ha l hl).next hb

/-- Outside of expressions any code does. -/
theorem ofCode (is : List Instr) : (Outline.ofCode is).Calm T := by
  intro l hl
  rw [purposed_ofCode]
  exact hl.code is

theorem done : Outline.done.Calm T := ofCode []

theorem piece {p : Piece} (hp : p.purpose T = .plain) (ha : a.Calm T) :
    (Outline.piece p a).Calm T := by
  intro l hl
  rw [purposed_piece, hp]
  exact ha l hl

end Outline.Calm

/-- **A value may be handed on**: it is well placed, and no address of a component of a result is
kept in it. -/
structure Expr.Mindful (e : Expr) : Prop where
  /-- The expression has a value. -/
  value : e.IsValue
  /-- No address is kept. -/
  keeps : e.keepsNone = true

section Statements

variable {cx : Context} {pt : Point} {Γ : Scene}

namespace Expr

theorem Mindful.calm {e : Expr} (h : e.Mindful) (scope : View Symbol) (n : Nat) :
    (e.outline cx scope .value n).Calm cx.types :=
  fun l hl => Expr.calm h.value (fun _ _ _ => ensures h.value.2 h.keeps) n .plain l hl

theorem calm_effect {e : Expr} (h : e.Mindful) : (e.effectOutline cx pt).Calm cx.types :=
  .piece rfl ((h.calm _ _).append (.ofCode _))

theorem calm_effects {es : List Expr} (h : ∀ e ∈ es, e.Mindful) :
    (effectOutlineOfAll cx pt es).Calm cx.types := by
  induction es generalizing pt with
  | nil => exact .done
  | cons e es ih =>
    rw [List.forall_mem_cons] at h
    exact (calm_effect h.1).append (ih h.2)

theorem calm_print {es : List Expr} (h : ∀ e ∈ es, e.Mindful) :
    (printOutline cx pt es).Calm cx.types := by
  induction es generalizing pt with
  | nil => exact .done
  | cons e es ih =>
    rw [List.forall_mem_cons] at h
    exact (Outline.Calm.piece rfl ((h.1.calm _ _).append (.ofCode _))).append (ih h.2)

theorem calm_test {c : Expr} (h : c.Mindful) (keep : List Instr) (otherwise : String) :
    (c.testOutline cx pt keep otherwise).Calm cx.types :=
  (Outline.Calm.piece rfl ((h.calm _ _).append (.ofCode _))).append (.piece rfl (.ofCode _))

end Expr

/-- Values in which no address is kept may be handed on. -/
theorem Expr.mindful_of_occurrences {es : List Expr} (hw : ∀ e ∈ es, e.IsValue)
    (hk : ∀ o ∈ occurrences Γ es, o.expr.keepsNone = true) : ∀ e ∈ es, e.Mindful :=
  fun e he => ⟨hw e he, hk ⟨e, Γ⟩ (List.mem_map_of_mem he)⟩

/-- As `mindful_of_occurrences`, for a value that may be missing. -/
theorem Expr.mindful_of_option {e : Option Expr} (hw : IsOptionalValue e)
    (hk : ∀ o ∈ occurrences Γ e.toList, o.expr.keepsNone = true) : ∀ a ∈ e, a.Mindful := by
  intro a ha
  have hmem : a ∈ e.toList := Option.mem_toList.mpr ha
  exact mindful_of_occurrences (fun b hb =>
    (isOptionalValue_iff e).mp hw b (Option.mem_toList.mp hb)) hk a hmem

namespace VarDecl

theorem calm {d : VarDecl} (hw : d.WellPlaced)
    (hk : ∀ o ∈ d.occurrences Γ, o.expr.keepsNone = true) :
    (d.outline cx pt).Calm cx.types := by
  unfold outline
  split
  · exact .done
  · rename_i e he
    have hmindful : e.Mindful := Expr.mindful_of_option hw.2 hk e he
    exact .piece rfl ((hmindful.calm _ _).append (.ofCode _))

theorem calm_all {ds : List VarDecl} (hw : ∀ d ∈ ds, d.WellPlaced)
    (hk : ∀ o ∈ occurrencesOfAll cx.types Γ ds, o.expr.keepsNone = true) :
    (outlineAll cx pt ds).Calm cx.types := by
  induction ds generalizing pt Γ with
  | nil => exact .done
  | cons d ds ih =>
    rw [List.forall_mem_cons] at hw
    rw [occurrencesOfAll, List.forall_mem_append] at hk
    exact (calm hw.1 hk.1).append (ih hw.2 hk.2)

end VarDecl

namespace LoopInit

theorem calm {i : LoopInit} (hw : i.WellPlaced)
    (hk : ∀ o ∈ i.occurrences Γ, o.expr.keepsNone = true) :
    (i.outline cx pt).Calm cx.types := by
  cases i with
  | declare d => exact VarDecl.calm hw hk
  | evaluate e => exact Expr.calm_effect ⟨hw, hk ⟨e, Γ⟩ List.mem_cons_self⟩

theorem calm_all {is : List LoopInit} (hw : ∀ i ∈ is, i.WellPlaced)
    (hk : ∀ o ∈ occurrencesOfAll cx.types Γ is, o.expr.keepsNone = true) :
    (outlineAll cx pt is).Calm cx.types := by
  induction is generalizing pt Γ with
  | nil => exact .done
  | cons i is ih =>
    rw [List.forall_mem_cons] at hw
    rw [occurrencesOfAll, List.forall_mem_append] at hk
    exact (calm hw.1 hk.1).append (ih hw.2 hk.2)

end LoopInit

/-- The result of a function is handed over. -/
theorem Emission.calm_return {v : Expr} (h : v.Mindful) :
    (returnOutline cx pt v).Calm cx.types := by
  unfold returnOutline
  split
  · exact ((Outline.Calm.ofCode _).append (h.calm _ _)).append (.ofCode _)
  · exact (h.calm _ _).append (.ofCode _)
  · exact (h.calm _ _).append (.ofCode _)

namespace Stmt

mutual

/-- **A statement leaves the ledger as it is.** -/
theorem calm : ∀ {st : Stmt} {cx : Context} {pt : Point} {Γ : Scene}, st.WellPlaced →
    (∀ o ∈ st.occurrences cx.types Γ, o.expr.keepsNone = true) → (st.outline cx pt).Calm cx.types
  | .block _ ds body, cx, pt, Γ, hw, hk => by
    rw [occurrences, List.forall_mem_append] at hk
    rw [outline]
    exact .piece rfl ((VarDecl.calm_all hw.1 hk.1).append (calm_all hw.2 hk.2))
  | .evaluation _ e, cx, pt, Γ, hw, hk => by
    rw [outline]
    exact .piece rfl (Expr.calm_effect ⟨hw, hk ⟨e, Γ⟩ List.mem_cons_self⟩)
  | .write _ args newline, cx, pt, Γ, hw, hk => by
    rw [outline]
    refine .piece rfl (.append (Expr.calm_print ?_) ?_)
    · exact Expr.mindful_of_occurrences ((Expr.allValues_iff args).mp hw) hk
    · split
      · exact .piece rfl (.ofCode _)
      · exact .done
  | .ifThen _ c t, cx, pt, Γ, hw, hk => by
    rw [occurrences, List.forall_mem_append] at hk
    have hc : c.Mindful := ⟨hw.1, hk.1 ⟨c, Γ⟩ List.mem_cons_self⟩
    rw [outline]
    exact .piece rfl (((Expr.calm_test hc _ _).append (calm hw.2 hk.2)).append (.ofCode _))
  | .ifElse _ c t e, cx, pt, Γ, hw, hk => by
    rw [occurrences, List.forall_mem_append, List.forall_mem_append] at hk
    have hc : c.Mindful := ⟨hw.1, hk.1 ⟨c, Γ⟩ List.mem_cons_self⟩
    rw [outline]
    exact .piece rfl
      (((((Expr.calm_test hc _ _).append (calm hw.2.1 hk.2.1)).append (.ofCode _)).append
      (calm hw.2.2 hk.2.2)).append (.ofCode _))
  | .forLoop site inits c incs body, cx, pt, Γ, hw, hk => by
    obtain ⟨hwinits, hwc, hwincs, hwbody⟩ := hw
    rw [occurrences, List.forall_mem_append, List.forall_mem_append, List.forall_mem_append] at hk
    obtain ⟨hkinits, hkc, hkincs, hkbody⟩ := hk
    have hincs : ∀ e ∈ incs, e.Mindful :=
      Expr.mindful_of_occurrences ((Expr.allValues_iff incs).mp hwincs) hkincs
    -- The labels of the loop are all that is different inside of it.
    have hbody : ∀ start pt, (body.outline (cx.inLoop start) pt).Calm (cx.inLoop start).types :=
      fun start pt =>
      calm hwbody hkbody
    rw [outline]
    refine .piece rfl
      (((((((LoopInit.calm_all hwinits hkinits).append (.ofCode _)).append ?_).append
      (hbody _ _)).append (.ofCode _)).append (Expr.calm_effects hincs)).append (.ofCode _))
    cases c with
    | none => exact .done
    | some c => exact Expr.calm_test (Expr.mindful_of_option hwc hkc c rfl) _ _
  | .break _, cx, pt, Γ, hw, hk | .continue _, cx, pt, Γ, hw, hk => by
    rw [outline]
    exact .piece rfl (.ofCode _)
  | .return _ none, cx, pt, Γ, hw, hk => by
    rw [outline]
    exact .piece rfl (.piece rfl (.append .done (.ofCode _)))
  | .return _ (some v), cx, pt, Γ, hw, hk => by
    rw [outline]
    exact .piece rfl
      (.piece rfl ((calm_return ⟨hw, hk ⟨v, Γ⟩ List.mem_cons_self⟩).append (.ofCode _)))

/-- As `calm`, for several statements. -/
theorem calm_all : ∀ {ss : List Stmt} {cx : Context} {pt : Point} {Γ : Scene}, AllWellPlaced ss →
    (∀ o ∈ occurrencesOfAll cx.types Γ ss, o.expr.keepsNone = true) →
    (outlineAll cx pt ss).Calm cx.types
  | [], _, _, _, _, _ => by
    rw [outlineAll]
    exact .done
  | st :: ss, cx, pt, Γ, hw, hk => by
    rw [occurrencesOfAll, List.forall_mem_append] at hk
    rw [outlineAll]
    exact (calm hw.1 hk.1).append (calm_all hw.2 hk.2)

end

end Stmt

end Statements

/-! ### Functions -/

namespace Function

variable {T : TypeTable} {config : Config} {scope : View Symbol} {n : Nat} {f : Function}

/-- **A function reads all results in time**: wherever a run of it arrives, what is run there is
permitted. So whatever is read by way of an address that was pushed for the result of a call, it is
still that result, and nothing was called or jumped to since; and no such address is kept anywhere
else than in the pin of the node that reads it. -/
def ReadsInTime (T : TypeTable) (config : Config) (scope : View Symbol) (n : Nat)
    (f : Function) : Prop :=
  ∀ i l c, Carries ((f.outline T config scope n).purposed T .plain) (f.start T config scope) i l →
    ((f.outline T config scope n).purposed T .plain)[i]? = some c → l.Permits c

/-- **A function in which everything is where it belongs reads all results in time**, if it keeps no
address of a component of one. -/
theorem readsInTime {Γ : Scene} (hw : f.WellPlaced)
    (hk : ∀ o ∈ f.occurrences T Γ, o.expr.keepsNone = true) (config : Config) (scope : View Symbol)
    (n : Nat) : f.ReadsInTime T config scope n := by
  have hkbody : ∀ o ∈ f.body.stmt.occurrences (f.context T config).types _,
      o.expr.keepsNone = true := hk
  have hbody : (f.body.stmt.outline (f.context T config) (f.entry T scope n)).Calm T :=
    Stmt.calm hw.2 hkbody
  have htail : (f.tail T).Calm T := by
    unfold tail
    split
    · exact .piece rfl (.append .done (.ofCode _))
    · exact .done
  -- A run starts at the end of what stands in front of the body.
  have hrest := hbody.append htail
  have hcells :
      (f.outline T config scope n).purposed T .plain = (f.head T config scope).map (·, .plain) ++
      (f.body.stmt.outline (f.context T config) (f.entry T scope n) ++
        f.tail T).purposed T .plain := by
    rw [outline, Outline.purposed_piece, Outline.append_assoc, Outline.purposed_append,
      Outline.purposed_ofCode]
    rfl
  have hfrom : ∀ p ≤ (f.head T config scope).length, Ensures Ledger.Plain
      (((f.outline T config scope n).purposed T .plain).drop p) .start := by
    intro p hp
    rw [hcells, List.drop_append_of_le_length (by rwa [List.length_map]), ← List.map_drop]
    exact (Ledger.plain_start.code _).next hrest
  have hstart : f.start T config scope ≤ (f.head T config scope).length := by
    rw [length_head]
    exact Nat.le_succ _
  exact fun i l c hr hc => Ensures.permits (hfrom _ hstart) ⟨_, hfrom 0 (Nat.zero_le _)⟩ hr hc

end Function

/-! ### Units -/

/-- **Each function of an accepted unit reads the results of its calls in time**, if it takes no
address of a component of one: the tuple that a call leaves in the area for results is read before
anything else is called or jumped to, so that one area is enough for all calls of a function. -/
theorem results_read_in_time {nodes : Array Node} {root : NodeId} {t : SyntaxTree}
    (h : SyntaxTree.ofNodes nodes root = .ok t) {T : TypeTable} {σ : SymbolTable}
    (hcheck : Typing.checkTree t = .ok (T, σ)) (config : Config)
    {before after : List Decl} {f : Function} (hf : t.declarations = before ++ .define f :: after)
    (hkeeps : ∀ o ∈ f.occurrences T (σ.scene t.origins), o.expr.keepsNone = true) :
    ∃ (c : Compilation) (front back : List Instr), compile t config = .ok c ∧
      c.code = front ++ (f.outline T config σ.scope (Decl.labelCountOfAll before)).code ++ back ∧
      f.ReadsInTime T config σ.scope (Decl.labelCountOfAll before) := by
  have hwritten : ∀ d ∈ t.declarations, ∀ u ∈ d.writtenTypes, Typing.Written Ty.Known u :=
    fun _ _ _ _ h => h
  obtain ⟨-, -, hw, c, front, back, hc, hcode⟩ :=
    exists_function_code Ty.stable_known h hwritten hcheck config hf
  exact ⟨c, front, back, hc, hcode, f.readsInTime hw hkeeps config σ.scope _⟩

/-- The functions of a unit that declares two functions and nothing else. -/
def SyntaxTree.bothFunctions? (t : SyntaxTree) : Option (Function × Function) :=
  match t.declarations with
  | [.define f, .define g] => some (f, g)
  | _ => none

theorem SyntaxTree.bothFunctions?_eq_some {t : SyntaxTree} {f g : Function} :
    t.bothFunctions? = some (f, g) ↔ t.declarations = [.define f, .define g] := by
  unfold bothFunctions?
  split
  · rename_i a b hab
    simp [hab]
  · rename_i hother
    exact ⟨nofun, fun hfg => absurd hfg (hother f g)⟩

/-- The nodes of a unit in which components of two results of a function are added. -/
def resultNodes : Array Node := #[
  ⟨1, .integer 1⟩, ⟨1, .integer 2⟩, ⟨1, .tuple [.ofIndex 0, .ofIndex 1]⟩,
  ⟨1, .return (some (.ofIndex 2))⟩,
  ⟨1, .block [] [.ofIndex 3]⟩,
  ⟨1, .functionDefinition .private (.tuple [.int, .int]) "f" [] (.ofIndex 4)⟩,
  ⟨2, .functionCall "f" []⟩, ⟨2, .tupleIndex (.ofIndex 6) 2⟩, ⟨2, .rvalue (.ofIndex 7)⟩,
  ⟨2, .functionCall "f" []⟩, ⟨2, .tupleIndex (.ofIndex 9) 1⟩, ⟨2, .rvalue (.ofIndex 10)⟩,
  ⟨2, .binary .add (.ofIndex 8) (.ofIndex 11)⟩, ⟨2, .return (some (.ofIndex 12))⟩,
  ⟨2, .block [] [.ofIndex 13]⟩,
  ⟨2, .functionDefinition .private .int "g" [] (.ofIndex 14)⟩,
  ⟨1, .program [.ofIndex 5, .ofIndex 15]⟩]

theorem results_read_in_time_added :
    ∃ t T σ f g c, SyntaxTree.ofNodes resultNodes (.ofIndex 16) = .ok t ∧
    Typing.checkTree t = .ok (T, σ) ∧ t.declarations = [.define f, .define g] ∧
    compile t .default = .ok c ∧
    (∀ o ∈ g.occurrences T (σ.scene t.origins), o.expr.keepsNone = true) ∧ Instr.call "f" ∈ c.code ∧
    g.ReadsInTime T .default σ.scope (Decl.labelCountOfAll [.define f]) := by
  have hok : (SyntaxTree.ofNodes resultNodes (.ofIndex 16)).toOption.any (fun t =>
      (Typing.checkTree t).toOption.any fun r =>
        t.bothFunctions?.any fun p =>
          (p.2.occurrences r.1 (r.2.scene t.origins)).all (fun o => o.expr.keepsNone) &&
          decide (Instr.call "f" ∈ (p.2.outline r.1 .default r.2.scope
            (Decl.labelCountOfAll [.define p.1])).code)) =
      true := by
    decide +kernel
  obtain ⟨t, h, hok⟩ := any_toOption.mp hok
  obtain ⟨⟨T, σ⟩, hcheck, hok⟩ := any_toOption.mp hok
  obtain ⟨⟨f, g⟩, hfunctions, hok⟩ := (Option.any_eq_true _ _).mp hok
  obtain ⟨hall, hcall⟩ := Bool.and_eq_true_iff.mp hok
  have hds : t.declarations = [.define f] ++ .define g :: [] :=
    SyntaxTree.bothFunctions?_eq_some.mp hfunctions
  have hkeeps : ∀ o ∈ g.occurrences T (σ.scene t.origins), o.expr.keepsNone = true :=
    List.all_eq_true.mp hall
  obtain ⟨c, front, back, hc, hcode, htime⟩ := results_read_in_time h hcheck .default hds hkeeps
  refine ⟨t, T, σ, f, g, c, h, hcheck, hds, hc, hkeeps, ?_, htime⟩
  rw [hcode]
  exact List.mem_append_left _ (List.mem_append_right _ (of_decide_eq_true hcall))

end PostfixCompiler
