import Mathlib.Data.List.Pairwise
import PostfixCompiler.Proofs.Frame.Access
import PostfixCompiler.Proofs.Machine.Operate

/-!
# Code that delivers

A machine that runs a function has the frame of the function in its memory, and the stack right
below. What is to be said of a part of the code is always of one form: from any store whose stack is
below the frame, and in which the variables have the values that they are known to have, the machine
runs the part from its start to its end, and what it does to the store is this and that. Code of
which something like this is known **delivers** it, and what code delivers can be put together.

## Main definitions

* `PostfixCompiler.Room.Laid`: the areas of a room lie apart.
* `PostfixCompiler.Room.Touches`: the bytes that code may change: the stack, and the slots of some
  nodes.
* `PostfixCompiler.Machine.Knows`: the values of variables.
* `PostfixCompiler.Machine.Delivers`: code delivers something.

## Main statements

* `PostfixCompiler.Function.laid`: the areas of a function lie apart.
* `PostfixCompiler.Machine.Delivers.bind`, `PostfixCompiler.Machine.Delivers.acts`: code behind
  other code.
-/

namespace PostfixCompiler

open Emission

/-! ### Rooms -/

namespace Room

/-- **The areas of a room lie apart**, from the end of the frame up to some offset, and the symbols
of the unit have no place in a frame. -/
structure Laid (r : Room) (high : Int) : Prop where
  /-- Variables and slots do not overlap. -/
  declared : ∀ q ∈ r.declared, ∀ s ∈ r.frame.slots,
    (VarDecl.area r.types q).Apart (FrameLayout.slotArea s)
  /-- Slots do not overlap. -/
  slots : r.frame.slots.Pairwise fun s s' =>
    (FrameLayout.slotArea s).Apart (FrameLayout.slotArea s')
  /-- Variables are within the bounds. -/
  declared_within : ∀ q ∈ r.declared, -(r.frame.frameSize : Int) ≤ (VarDecl.area r.types q).start ∧
    (VarDecl.area r.types q).stop ≤ high
  /-- Slots are within the bounds. -/
  slots_within : ∀ s ∈ r.frame.slots, -(r.frame.frameSize : Int) ≤ s.offset ∧
    s.offset + s.size ≤ high
  /-- The symbols of the unit have no place in a frame. -/
  globals : ∀ name s, r.unit name = some s → s.isGlobal = true

/-- Where the frame ends, and the stack starts. -/
def floor (r : Room) (fp : Int) : Int := fp - r.frame.frameSize

/-- **The bytes that code may change**: those of the stack from `low` up to `top`, and the slots of
some nodes. -/
def Touches (r : Room) (fp : Int) (ids : List NodeId) (low top a : Int) : Prop :=
  (low ≤ a ∧ a < top) ∨ ∃ s ∈ r.frame.slots, s.node ∈ ids ∧ fp + s.offset ≤ a ∧
    a < fp + s.offset + s.size

/-- **Bytes that are kept**: in the area of a declaration, or in the slot of one of some nodes. -/
def Place (r : Room) (ids : List NodeId) (offset : Int) (size : Nat) : Prop :=
  (∃ q ∈ r.declared, (VarDecl.area r.types q).Covers offset size) ∨
    ∃ s ∈ r.frame.slots, s.node ∈ ids ∧ (FrameLayout.slotArea s).Covers offset size

variable {r : Room} {fp high low top : Int} {ids ids' : List NodeId} {offset : Int} {size : Nat}

theorem Touches.mono {low' top' a : Int} (h : r.Touches fp ids low top a) (hids : ids ⊆ ids')
    (hlow : low' ≤ low) (htop : top ≤ top') : r.Touches fp ids' low' top' a :=
  h.imp (fun h => ⟨hlow.trans h.1, h.2.trans_le htop⟩) fun ⟨s, hs, hid, h⟩ => ⟨s, hs, hids hid, h⟩

theorem touches_below {depth k : Nat} (hk : k ≤ depth) {a : Int} (h : Machine.Below top k a) :
    r.Touches fp ids (top - depth) top a :=
  .inl ⟨by have := h.1; omega, h.2⟩

theorem Place.mono (h : r.Place ids offset size) (hids : ids ⊆ ids') : r.Place ids' offset size :=
  h.imp_right fun ⟨s, hs, hid, h⟩ => ⟨s, hs, hids hid, h⟩

/-- Bytes of a slot are kept. -/
theorem place_of_slot {s : Slot} (hs : s ∈ r.frame.slots) {n k : Nat} (hk : n + k ≤ s.size) :
    r.Place [s.node] (s.offset + n) k := by
  refine .inr ⟨s, hs, List.mem_singleton_self _, ?_, ?_⟩
  all_goals
    simp only [FrameLayout.slotArea, Area.stop]
    omega

/-- A part of bytes that are kept. -/
theorem Place.part (h : r.Place ids offset size) {n k : Nat} (hk : n + k ≤ size) :
    r.Place ids (offset + n) k := by
  have hpart : ∀ a : Area, a.Covers offset size → a.Covers (offset + n) k := by
    rintro a ⟨hstart, hstop⟩
    exact ⟨by omega, by omega⟩
  exact h.imp (fun ⟨q, hq, h⟩ => ⟨q, hq, hpart _ h⟩) fun ⟨s, hs, hid, h⟩ => ⟨s, hs, hid, hpart _ h⟩

namespace Laid

variable (hr : r.Laid high)

include hr

theorem place_within (fp : Int) (h : r.Place ids offset size) :
    r.floor fp ≤ fp + offset ∧ fp + offset + size ≤ fp + high := by
  unfold floor
  rcases h with ⟨q, hq, hstart, hstop⟩ | ⟨s, hs, -, hstart, hstop⟩
  · have hwithin := hr.declared_within q hq
    omega
  · have hwithin := hr.slots_within s hs
    simp only [FrameLayout.slotArea, Area.stop] at hstart hstop
    omega

/-- Slots of different nodes do not overlap. -/
theorem slots_apart {s s' : Slot} (hs : s ∈ r.frame.slots) (hs' : s' ∈ r.frame.slots)
    (hne : s.node ≠ s'.node) :
    (FrameLayout.slotArea s).Apart (FrameLayout.slotArea s') := by
  have : Std.Symm fun s s' : Slot => (FrameLayout.slotArea s).Apart (FrameLayout.slotArea s') :=
    ⟨fun _ _ h => h.symm⟩
  exact hr.slots.forall hs hs' fun heq => hne (congrArg Slot.node heq)

/-- **Bytes that are kept do not change with the slots of other nodes.** -/
theorem not_touches (h : r.Place ids offset size) (hids : ∀ i ∈ ids, i ∉ ids')
    (htop : top ≤ r.floor fp) {a : Int} (ha : fp + offset ≤ a) (ha' : a < fp + offset + size) :
    ¬r.Touches fp ids' low top a := by
  have hwithin := hr.place_within fp h
  rintro (hstack | ⟨s', hs', hid', hstart', hstop'⟩)
  · omega
  · rcases h with ⟨q, hq, hstart, hstop⟩ | ⟨s, hs, hid, hstart, hstop⟩
    · have hapart := hr.declared q hq s' hs'
      simp only [Area.Apart, FrameLayout.slotArea, Area.stop] at hapart hstart hstop
      omega
    · have hapart := hr.slots_apart hs hs' fun heq => hids _ hid (heq ▸ hid')
      simp only [Area.Apart, FrameLayout.slotArea, Area.stop] at hapart hstart hstop
      omega

/-- What is on the stack already does not change. -/
theorem not_touches_stack {a : Int} (ha : top ≤ a) (ha' : a < r.floor fp) :
    ¬r.Touches fp ids low top a := by
  rintro (hstack | ⟨s, hs, -, hstart, -⟩)
  · omega
  · have hwithin := hr.slots_within s hs
    unfold floor at ha'
    omega

/-- A local variable or argument has a place in the frame. -/
theorem place_of_local {scope : View Symbol} (hscope : r.Binds scope) {name : String} {x : Symbol}
    (hx : scope name = some x) (hlocal : x.isGlobal = false) :
    r.Place ids x.offset x.type.size ∧ x.meaning = .variable x.type := by
  rcases hscope name x hx with hunit | ⟨q, hq, v, hv, -, rfl⟩
  · rw [hr.globals name x hunit] at hlocal
    cases hlocal
  · exact ⟨.inl ⟨q, hq, (q.1.places_within _ _ v hv).2⟩, rfl⟩

end Laid

end Room

/-- The areas of a function lie apart. -/
theorem Function.laid {T : TypeTable} {scope : View Symbol} {f : Function}
    (hglobal : ∀ name s, scope name = some s → s.isGlobal = true) : (f.room T scope).Laid
      (f.argumentsStart T + Ty.sizeOfAll (f.signature.arguments.map fun d => T.typeOf d.id)) := by
  have hareas := stacked_areas (T := T) (f := f)
  have harguments := (stacked_arguments (T := T) (f := f)).1
  have hstart : 0 ≤ f.argumentsStart T := by
    unfold argumentsStart
    split <;> omega
  have hslot : ∀ s ∈ (f.frame T).slots, FrameLayout.slotArea s ∈ (f.frame T).areas := fun s hs =>
    List.mem_cons_of_mem _ (List.mem_cons_of_mem _ (List.mem_map_of_mem hs))
  have hpairwise := hareas.pairwise
  rw [areas, List.pairwise_append] at hpairwise
  obtain ⟨-, hframe, hacross⟩ := hpairwise
  have hwithin := hareas.within
  rw [areas, List.forall_mem_append] at hwithin
  have hupper := harguments.within
  have hdeclared : ∀ q ∈ f.arguments T ++ f.locals T,
      f.argumentsStart T ≤ (VarDecl.area T q).start ∧ (VarDecl.area T q).stop ≤ f.argumentsStart T +
          Ty.sizeOfAll (f.signature.arguments.map fun d => T.typeOf d.id) ∨
          VarDecl.area T q ∈ f.localAreas T := by
    intro q hq
    rcases List.mem_append.mp hq with hq | hq
    · exact .inl (hupper _ (List.mem_reverse.mpr (List.mem_map_of_mem hq)))
    · exact .inr (List.mem_map_of_mem hq)
  refine ⟨fun q hq s hs => ?_, ?_, fun q hq => ?_, fun s hs => ?_, hglobal⟩
  · have hbelow := (hwithin.2 _ (hslot s hs)).2
    rcases hdeclared q hq with ⟨hq, -⟩ | hq
    · exact .inr (by change (FrameLayout.slotArea s).stop ≤ (VarDecl.area T q).start; omega)
    · exact hacross _ hq _ (hslot s hs)
  · have htail := hframe.tail.tail
    exact List.pairwise_map.mp htail
  · change -((f.frame T).frameSize : Int) ≤ (VarDecl.area T q).start ∧ (VarDecl.area T q).stop ≤ _
    rcases hdeclared q hq with ⟨hq, hq'⟩ | hq
    · exact ⟨by omega, hq'⟩
    · have hlocal := hwithin.1 _ hq
      exact ⟨hlocal.1, by omega⟩
  · have hlayout := hwithin.2 _ (hslot s hs)
    simp only [FrameLayout.slotArea, Area.stop] at hlayout
    exact ⟨hlayout.1, by omega⟩

namespace Machine

/-! ### Stores of a function -/

/-- **The values of local variables and arguments** are what is at their places. -/
def Knows (M : Machine) (fp : Int) (scope : View Symbol) (ρ : String → Option M.Value)
    (m : M.Memory) : Prop :=
  ∀ name s, scope name = some s → s.isGlobal = false →
    ρ name = some (M.read m (fp + s.offset) s.type)

/-- **Code delivers something**: from any store whose stack is below the frame, and in which the
variables have the values that they are known to have, the machine runs the code to its end. -/
def Delivers (M : Machine) (r : Room) (fp : Int) (scope : View Symbol) (ρ : String → Option M.Value)
    (is : List Instr) (P : M.Store → M.Store → Prop) : Prop :=
  ∀ ⦃code : List Instr⦄ ⦃p a b : Nat⦄ ⦃s : M.Store⦄, Makes code a b → Holds code p is →
    s.sp ≤ r.floor fp →
    M.Knows fp scope ρ s.memory → ∃ s', M.Runs fp code (p, s) (p + is.length, s') ∧ P s s'

/-- **Code leaves the function as it is**: the stack is still below the frame, and nothing is
changed but the stack and the slots. -/
def Calm (r : Room) (fp : Int) {M : Machine} (s s' : M.Store) : Prop :=
  s'.sp ≤ r.floor fp ∧ ∃ ids low, Changes (r.Touches fp ids low (r.floor fp)) s.memory s'.memory

variable {M : Machine} {r : Room} {fp high : Int} {scope : View Symbol}
  {ρ : String → Option M.Value}
  {is js : List Instr} {P Q : M.Store → M.Store → Prop}

/-- The values of variables stay as they are. -/
theorem Knows.calm (hr : r.Laid high) (hnames : View.Settled Ty.Sound scope.meanings)
    (hscope : r.Binds scope) {s s' : M.Store} (h : M.Knows fp scope ρ s.memory)
    (hc : Calm r fp s s') : M.Knows fp scope ρ s'.memory := by
  intro name x hx hlocal
  obtain ⟨-, ids, low, hchanges⟩ := hc
  have hlocal' : r.Place [] x.offset x.type.size ∧ x.meaning = .variable x.type :=
    hr.place_of_local hscope hx hlocal
  obtain ⟨hplace, hmeaning⟩ := hlocal'
  have hmeans : scope.meanings name = some (.variable x.type) := by
    rw [View.meanings, hx, Option.map_some, hmeaning]
  obtain ⟨hsound, hv⟩ := Ty.storable_sound.mp (hnames name _ hmeans)
  rw [h name x hx hlocal, hchanges.read_eq (hsound.solid hv) fun a ha ha' =>
    hr.not_touches hplace (by simp) (Int.le_refl _) ha ha']

namespace Delivers

theorem mono (h : Delivers M r fp scope ρ is P)
    (hPQ : ∀ s s', s.sp ≤ r.floor fp → P s s' → Q s s') :
    Delivers M r fp scope ρ is Q := by
  intro code p a b s hm hc hsp hρ
  obtain ⟨s', hrun, hP⟩ := h hm hc hsp hρ
  exact ⟨s', hrun, hPQ s s' hsp hP⟩

/-- Code without jumps behind other code. -/
theorem acts (h : Delivers M r fp scope ρ is P)
    (hacts : ∀ s s', s.sp ≤ r.floor fp → P s s' → ∃ s'', M.acts fp s' js = some s'' ∧ Q s s'') :
    Delivers M r fp scope ρ (is ++ js) Q := by
  intro code p a b s hm hc hsp hρ
  obtain ⟨s', hrun, hP⟩ := h hm hc.left hsp hρ
  obtain ⟨s'', hs'', hQ⟩ := hacts s s' hsp hP
  refine ⟨s'', ?_, hQ⟩
  rw [List.length_append, ← Nat.add_assoc]
  exact hrun.trans (runs_acts hc.right hs'')

/-- Code without jumps. -/
theorem of_acts (hacts : ∀ s, s.sp ≤ r.floor fp → M.Knows fp scope ρ s.memory →
      ∃ s', M.acts fp s js = some s' ∧ Q s s') :
    Delivers M r fp scope ρ js Q := by
  intro code p a b s hm hc hsp hρ
  obtain ⟨s', hs', hQ⟩ := hacts s hsp hρ
  exact ⟨s', runs_acts hc hs', hQ⟩

/-- **Code behind other code** that leaves the function as it is. -/
theorem bind (hr : r.Laid high) (hnames : View.Settled Ty.Sound scope.meanings)
    (hscope : r.Binds scope) (h : Delivers M r fp scope ρ is P)
    (hcalm : ∀ s s', s.sp ≤ r.floor fp → P s s' → Calm r fp s s')
    (h' : Delivers M r fp scope ρ js Q) :
    Delivers M r fp scope ρ (is ++ js) fun s s'' => ∃ s', P s s' ∧ Q s' s'' := by
  intro code p a b s hm hc hsp hρ
  obtain ⟨s', hrun, hP⟩ := h hm hc.left hsp hρ
  have hcalmed := hcalm s s' hsp hP
  obtain ⟨s'', hrun', hQ⟩ := h' hm hc.right hcalmed.1 (hρ.calm hr hnames hscope hcalmed)
  refine ⟨s'', ?_, s', hP, hQ⟩
  rw [List.length_append, ← Nat.add_assoc]
  exact hrun.trans hrun'

end Delivers

end Machine

end PostfixCompiler
