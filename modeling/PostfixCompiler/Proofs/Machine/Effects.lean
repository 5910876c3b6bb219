import PostfixCompiler.Proofs.Machine.Perform
import PostfixCompiler.Proofs.Machine.TupleRun

/-!
# Code that carries out a course

A course knows of the bytes that belong to the program and of nothing else. A machine that carries
it out has bytes of its own besides: those of the stack, the slots of the frame and the bytes for
the results of calls. No course depends on them, so the memory of the machine has to **agree** with
that of the course where bytes belong to the program, and only there.

Code may change any of these bytes, but not what is on the stack already. So what was pushed before
a function is called, or before a variable is assigned to, is still there afterwards; that carries
every proof about operands.

## Main definitions

* `PostfixCompiler.Machine.Scene`: a machine that runs the code of a function, and a stage for its
  expressions.
* `PostfixCompiler.Machine.Scene.Sound`: no bytes are used for two things.
* `PostfixCompiler.Machine.Scene.Agrees`: the machine is in the state that a course has come to.
* `PostfixCompiler.Machine.Scene.Honors`: functions do what the stage says.
* `PostfixCompiler.Machine.Scene.Carries`: code carries out a course.

## Main statements

* `PostfixCompiler.Machine.Scene.Carries.both`, `PostfixCompiler.Machine.Scene.Carries.acts`: code
  behind other code.
* `PostfixCompiler.Machine.Scene.Sound.settle`: what is computed on the stack is no matter of the
  course.
-/

namespace PostfixCompiler

open Emission

namespace Machine

/-! ### Scenes -/

/-- **A machine that runs the code of a function**, and a stage for the expressions of the
function. -/
structure Scene (M : Machine) (W : Type) where
  /-- What there is besides the code. -/
  surroundings : Surroundings M
  /-- What a course knows of it. -/
  outside : surroundings.World → W
  /-- What the expressions depend on. -/
  stage : Stage M W
  /-- The room of the function. -/
  room : Room
  /-- The first address that is a word. -/
  low : Int
  /-- The addresses that are words end here. -/
  high : Int
  /-- The areas of the room end here, from the frame pointer. -/
  top : Int
  /-- The stack may grow down to here. -/
  bottom : Int
  /-- The stack starts here. -/
  base : Int
  /-- How many bytes of the stack are left to a function that is called. -/
  reserve : Nat

namespace Scene

variable {M : Machine} {W : Type} (C : M.Scene W)

/-- The bytes for the results of calls. -/
def InCalls (a : Int) : Prop :=
  C.stage.fp + C.room.frame.callTempOffset ≤ a ∧
    a < C.stage.fp + C.room.frame.callTempOffset + C.room.frame.callTempSize

/-- **The bytes that the machine has to itself**: those of the stack up to some address, the slots
of some nodes, and the bytes for the results of calls. -/
def Private (ids : List NodeId) (top a : Int) : Prop :=
  C.room.Touches C.stage.fp ids C.bottom top a ∨ C.InCalls a

/-- **The bytes that code may change**: those of the program, and some of those that the machine has
to itself. -/
def Alters (ids : List NodeId) (top a : Int) : Prop := C.stage.own a = true ∨ C.Private ids top a

/-- **The machine is in the state that a course has come to.** -/
def Agrees (σ : W × M.Memory) (w : C.surroundings.World) (s : M.Store) : Prop :=
  C.outside w = σ.1 ∧ ∀ a, C.stage.own a = true → s.memory a = σ.2 a

/-- **Bytes where a value is held** on its way: in the slot of one of some nodes, or where the
results of calls go. -/
def Keeps (ids : List NodeId) (A : Int) (size : Nat) : Prop :=
  (∃ s ∈ C.room.frame.slots, s.node ∈ ids ∧ C.stage.fp + s.offset ≤ A ∧
    A + size ≤ C.stage.fp + s.offset + s.size) ∨
    C.stage.fp + C.room.frame.callTempOffset ≤ A ∧
      A + size ≤ C.stage.fp + C.room.frame.callTempOffset + C.room.frame.callTempSize

/-- **No bytes are used for two things.** -/
structure Sound (cx : Context) : Prop where
  /-- The code is written for the room. -/
  suits : C.room.Suits Ty.Sound cx
  /-- The stage has the types of the room. -/
  types : C.stage.types = C.room.types
  /-- Labels are made in the same way. -/
  config : C.stage.config = cx.config
  /-- The areas of the room lie apart. -/
  laid : C.room.Laid C.top
  /-- The results of calls have a place in the frame, -/
  calls_within : C.room.floor C.stage.fp ≤ C.stage.fp + C.room.frame.callTempOffset ∧
    C.room.frame.callTempOffset + C.room.frame.callTempSize ≤ C.top
  /-- apart from the slots. -/
  calls_apart : ∀ s ∈ C.room.frame.slots,
    C.room.frame.callTempOffset + C.room.frame.callTempSize ≤ s.offset ∨
    s.offset + s.size ≤ C.room.frame.callTempOffset
  /-- Each word is an address. -/
  words : ∀ w, M.ofInt (M.toInt w) = w
  /-- Addresses are words. -/
  addresses : M.Addresses C.low C.high
  /-- So are those of the frame. -/
  frame : C.low ≤ C.room.floor C.stage.fp ∧ C.stage.fp + C.top ≤ C.high
  /-- The stack is below the frame. -/
  base_le : C.base ≤ C.room.floor C.stage.fp
  /-- The bytes of the program have addresses. -/
  own_within : ∀ a, C.stage.own a = true → C.low ≤ a ∧ a < C.high
  /-- The machine has none of them to itself. -/
  own_apart : ∀ a, C.stage.own a = true → ∀ ids, ¬C.Private ids C.base a

variable {C} {cx : Context} {ids ids' : List NodeId} {top : Int} {σ σ' : W × M.Memory}
  {w : C.surroundings.World}
  {s s' s₁ s₂ s₃ : M.Store}

theorem Private.mono {top' a : Int} (h : C.Private ids top a) (hids : ids ⊆ ids')
    (htop : top ≤ top') :
    C.Private ids' top' a :=
  h.imp_left fun h => h.mono hids (Int.le_refl _) htop

theorem Alters.mono {top' a : Int} (h : C.Alters ids top a) (hids : ids ⊆ ids')
    (htop : top ≤ top') :
    C.Alters ids' top' a :=
  h.imp_right fun h => h.mono hids htop

/-- The machine has the stack to itself. -/
theorem private_below {k : Nat} (hk : C.bottom + k ≤ top) {a : Int} (h : Below top k a) :
    C.Private ids top a :=
  .inl (.inl ⟨by have := h.1; omega, h.2⟩)

theorem Keeps.mono {A : Int} {size : Nat} (h : C.Keeps ids A size) (hids : ids ⊆ ids') :
    C.Keeps ids' A size :=
  h.imp_left fun ⟨s, hs, hid, h⟩ => ⟨s, hs, hids hid, h⟩

/-- A part of bytes where a value is held. -/
theorem Keeps.part {A : Int} {size : Nat} (h : C.Keeps ids A size) {n k : Nat} (hk : n + k ≤ size) :
    C.Keeps ids (A + n) k := by
  rcases h with ⟨s, hs, hid, hstart, hstop⟩ | ⟨hstart, hstop⟩
  · exact .inl ⟨s, hs, hid, by omega, by omega⟩
  · exact .inr ⟨by omega, by omega⟩

/-- What is held is held by bytes that the machine has to itself. -/
theorem Keeps.isPrivate {A : Int} {size : Nat} (h : C.Keeps ids A size) {a : Int} (ha : A ≤ a)
    (ha' : a < A + size) :
    C.Private ids top a := by
  rcases h with ⟨s, hs, hid, hstart, hstop⟩ | ⟨hstart, hstop⟩
  · exact .inl (.inr ⟨s, hs, hid, by omega, by omega⟩)
  · exact .inr ⟨by omega, by omega⟩

/-- **No course knows of what the machine has to itself.** -/
theorem Agrees.of_private (h : C.Agrees σ w s) (hC : C.Sound cx) (htop : top ≤ C.base)
    (hc : Changes (C.Private ids top) s.memory s'.memory) : C.Agrees σ w s' := by
  refine ⟨h.1, fun a ha => ?_⟩
  rw [← h.2 a ha]
  exact hc a fun hW => hC.own_apart a ha ids (hW.mono (List.Subset.refl _) htop)

namespace Sound

variable (hC : C.Sound cx)

include hC

/-- **What is on the stack already does not change.** -/
theorem not_alters_stack {a : Int} (ha : top ≤ a) (hbottom : C.bottom ≤ a) (ha' : a < C.base) :
    ¬C.Alters ids top a := by
  have hfloor := ha'.trans_le hC.base_le
  rintro (hown | hstack | hcalls)
  · exact hC.own_apart a hown [] (.inl (.inl ⟨hbottom, ha'⟩))
  · exact hC.laid.not_touches_stack ha hfloor hstack
  · have := hC.calls_within.1
    unfold InCalls at hcalls
    omega

/-- Where a value is held, there is an address for each of its bytes. -/
theorem keeps_within {A : Int} {size : Nat} (h : C.Keeps ids A size) :
    C.room.floor C.stage.fp ≤ A ∧ A + size ≤ C.stage.fp + C.top := by
  rcases h with ⟨s, hs, -, hstart, hstop⟩ | ⟨hstart, hstop⟩
  · have hwithin := hC.laid.slots_within s hs
    unfold Room.floor
    omega
  · have hwithin := hC.calls_within
    omega

/-- **What is held does not change with the slots of other nodes.** -/
theorem keeps_apart {A : Int} {size : Nat} (h : C.Keeps ids A size) (hids : ∀ i ∈ ids, i ∉ ids')
    (htop : top ≤ C.room.floor C.stage.fp) {a low : Int} (ha : A ≤ a) (ha' : a < A + size) :
    ¬C.room.Touches C.stage.fp ids' low top a := by
  have hwithin := hC.keeps_within h
  rintro (hstack | ⟨s', hs', hid', hstart', hstop'⟩)
  · omega
  · rcases h with ⟨s, hs, hid, hstart, hstop⟩ | ⟨hstart, hstop⟩
    · have hapart := hC.laid.slots_apart hs hs' fun heq => hids _ hid (heq ▸ hid')
      simp only [Area.Apart, FrameLayout.slotArea, Area.stop] at hapart
      omega
    · have hapart := hC.calls_apart s' hs'
      omega

/-- **What is computed on the stack is no matter of the course.** Where the operands are taken away,
code starts from the memory as it is, and leaves its result. -/
theorem settle {d : M.Store} {t : Ty} {v : M.Value} {k : Nat} (hbase : s.sp ≤ C.base)
    (hk : C.bottom + k ≤ s.sp) (hc : Changes (C.Alters ids s.sp) s.memory s₂.memory)
    (hagrees : C.Agrees σ w s₂) (hsp : d.sp = s.sp) (hmemory : d.memory = s₂.memory)
    (h : d.Gains s₃ (Below s.sp k) t v) :
    C.Agrees σ w s₃ ∧ s.Gains s₃ (C.Alters ids s.sp) t v := by
  have hchanges : Changes (C.Private ids s.sp) s₂.memory s₃.memory :=
    hmemory ▸ h.changes.mono fun a ha => private_below hk ha
  refine ⟨hagrees.of_private hC hbase hchanges,
    (h.mono fun a ha => .inr (private_below hk ha)).after hsp ?_⟩
  rw [hmemory]
  exact hc

/-- What is pushed is no matter of the course. -/
theorem push (ids : List NodeId) {t : Ty} {v : M.Value} {k : Nat} (hbase : s.sp ≤ C.base)
    (hk : C.bottom + k ≤ s.sp) (hagrees : C.Agrees σ w s) (h : s.Gains s' (Below s.sp k) t v) :
    C.Agrees σ w s' ∧ s.Gains s' (C.Alters ids s.sp) t v :=
  hC.settle hbase hk (.refl _ _) hagrees rfl rfl h

end Sound

end Scene

/-! ### Functions that are called -/

namespace Callee

variable {M : Machine} (c : Callee)

/-- How many bytes lie above the arguments of a function: the address where its result goes, if that
is a tuple. -/
def hidden : Nat := if c.result.isTuple then Ty.wordSize else 0

/-- How many bytes are on the stack for a function. -/
def passed : Nat := c.hidden + Ty.sizeOfAll c.parameters

/-- The bytes where the result of a function goes, if it is a tuple. -/
def Receives (s : M.Store) (a : Int) : Prop :=
  c.result.isTuple = true ∧ M.toInt (s.top M.word) ≤ a ∧ a < M.toInt (s.top M.word) + c.result.size

/-- **A function has returned a value**: a tuple is where the caller wants it, and anything else in
a register. -/
def Returned {E : Surroundings M} (s : M.Store) (w' : E.World) (s' : M.Store)
    (v : M.Value) : Prop :=
  match c.result with
  | .void => True
  | .tuple ts => M.read s'.memory (M.toInt (s.top M.word)) (.tuple ts) = v
  | .double => v = .real (E.real w')
  | .int | .string | .pointer _ | .auto => v = .word (E.word w')

end Callee

namespace Scene

variable {M : Machine} {W : Type} (C : M.Scene W)

/-- **Functions do what the stage says.** Called with its arguments on the stack, and with room
enough, a function returns what the stage says. It leaves the stack where it was, and changes
nothing but the bytes of the program, the stack up to its arguments, and the bytes where its result
goes. -/
def Honors : Prop :=
  ∀ (c : Callee) (vs : List M.Value) (σ σ' : W × M.Memory) (v : M.Value),
    C.stage.functions c vs σ = some (v, σ') →
    ∀ (w : C.surroundings.World) (s : M.Store), C.Agrees σ w s → C.bottom + C.reserve ≤ s.sp →
      M.readAll s.memory (s.sp + c.hidden) c.parameters = vs →
        ∃ w' s', C.surroundings.call c.label w s = some (w', s') ∧
        C.Agrees σ' w' s' ∧ s'.sp = s.sp ∧
          c.Returned s w' s' v ∧
          Changes (fun a => C.stage.own a = true ∨ (C.bottom ≤ a ∧ a < s.sp + c.passed) ∨
            c.Receives s a) s.memory s'.memory

/-! ### Courses -/

/-- **Code carries out a course**: from any state to which the course has come, with room enough on
the stack, the machine runs the code to its end, and is in the state to which the course comes
next. -/
def Carries {α : Type} (is : List Instr) (c : M.Course W α) (need : Nat)
    (Q : α → M.Store → M.Store → Prop) : Prop :=
  ∀ ⦃code : List Instr⦄ ⦃p a b : Nat⦄ ⦃w : C.surroundings.World⦄ ⦃s : M.Store⦄
    ⦃σ σ' : W × M.Memory⦄ ⦃x : α⦄,
    Makes code a b → Holds code p is → s.sp ≤ C.base → C.bottom + need + C.reserve ≤ s.sp →
    C.Agrees σ w s →
      c σ = some (x, σ') →
      ∃ cs w' s', C.surroundings.Goes C.stage.fp code (p, w, s) cs (p + is.length, w', s') ∧
        C.Agrees σ' w' s' ∧ Q x s s'

variable {C} {α β γ : Type} {is js ks : List Instr} {c : M.Course W α}
  {d : M.Course W β} {n m k : Nat}
  {P Q : α → M.Store → M.Store → Prop} {R : β → M.Store → M.Store → Prop}

namespace Carries

theorem mono (h : C.Carries is c n P) (hn : n ≤ m)
    (hPQ : ∀ x s s', s.sp ≤ C.base → C.bottom + m + C.reserve ≤ s.sp → P x s s' → Q x s s') :
    C.Carries is c m Q := by
  intro code p a b w s σ σ' x hm hc hsp hroom hagrees hx
  obtain ⟨cs, w', s', hgoes, hagrees', hP⟩ := h hm hc hsp (by omega) hagrees hx
  exact ⟨cs, w', s', hgoes, hagrees', hPQ x s s' hsp hroom hP⟩

/-- More room does no harm. -/
theorem le (hn : n ≤ m) (h : C.Carries is c n P) : C.Carries is c m P :=
  h.mono hn fun _ _ _ _ _ hP => hP

/-- Code that makes no call and does not jump. -/
theorem of_acts
    (hacts : ∀ x s w σ σ', s.sp ≤ C.base → C.bottom + n + C.reserve ≤ s.sp → C.Agrees σ w s →
    c σ = some (x, σ') → ∃ s', M.acts C.stage.fp s js = some s' ∧ C.Agrees σ' w s' ∧ Q x s s') :
    C.Carries js c n Q := by
  intro code p a b w s σ σ' x hm hc hsp hroom hagrees hx
  obtain ⟨s', hs', hagrees', hQ⟩ := hacts x s w σ σ' hsp hroom hagrees hx
  exact ⟨[], w, s', Surroundings.goes_of_runs (runs_acts hc hs') w, hagrees', hQ⟩

/-- **Code behind other code**, from where that code has come. -/
theorem behind (h : C.Carries is c n P) (hn : n ≤ m) {f : α → M.Course W β}
    (h' : ∀ x s s' code p a b w σ σ' y,
    s.sp ≤ C.base → C.bottom + m + C.reserve ≤ s.sp → P x s s' → Makes code a b → Holds code p js →
    C.Agrees σ w s' →
      f x σ = some (y, σ') → ∃ cs w' s'', C.surroundings.Goes C.stage.fp code (p, w, s') cs
      (p + js.length, w', s'') ∧
        C.Agrees σ' w' s'' ∧ R y s s'') : C.Carries (is ++ js) (c >>= f) m R := by
  intro code p a b w s σ σ' y hm hc hsp hroom hagrees hy
  obtain ⟨x, σ₁, hx, hy⟩ := Course.bind_eq_some.mp hy
  obtain ⟨cs, w₁, s₁, hgoes, hagrees₁, hP⟩ := h hm hc.left hsp (by omega) hagrees hx
  obtain ⟨ds, w₂, s₂, hgoes', hagrees₂, hR⟩ :=
    h' x s s₁ code _ a b w₁ σ₁ σ' y hsp hroom hP hm hc.right hagrees₁ hy
  refine ⟨cs ++ ds, w₂, s₂, ?_, hagrees₂, hR⟩
  rw [List.length_append, ← Nat.add_assoc]
  exact hgoes.trans hgoes'

/-- Code behind other code that makes no call and does not jump. -/
theorem acts (h : C.Carries is c n P) (hn : n ≤ m) {f : α → M.Course W β}
    (hacts : ∀ x s s' w σ σ' y,
    s.sp ≤ C.base → C.bottom + m + C.reserve ≤ s.sp → P x s s' → C.Agrees σ w s' →
    f x σ = some (y, σ') →
      ∃ s'', M.acts C.stage.fp s' js = some s'' ∧ C.Agrees σ' w s'' ∧ R y s s'') :
    C.Carries (is ++ js) (c >>= f) m R :=
  h.behind hn fun x s s' code p a b w σ σ' y hsp hroom hP hm hc hagrees hy => by
    obtain ⟨s'', hs'', hagrees', hR⟩ := hacts x s s' w σ σ' y hsp hroom hP hagrees hy
    exact ⟨[], w, s'', Surroundings.goes_of_runs (runs_acts hc hs'') w, hagrees', hR⟩

/-- What a course does behind code without any code. -/
theorem still (h : C.Carries is c n P) {f : α → M.Course W β}
    (hstill : ∀ x s s' w σ σ' y, s.sp ≤ C.base →
    C.bottom + n + C.reserve ≤ s.sp → P x s s' → C.Agrees σ w s' → f x σ = some (y, σ') →
      C.Agrees σ' w s' ∧ R y s s') : C.Carries is (c >>= f) n R := by
  have hcode : C.Carries (is ++ []) (c >>= f) n R :=
    h.acts (Nat.le_refl n) fun x s s' w σ σ' y hsp hroom hP hagrees hy =>
    ⟨s', rfl, hstill x s s' w σ σ' y hsp hroom hP hagrees hy⟩
  rwa [List.append_nil] at hcode

/-- Code that is no matter of the course. -/
theorem aside (js : List Instr) (h : C.Carries is c n P) (hn : n ≤ m)
    (hacts : ∀ x s s' w σ, s.sp ≤ C.base →
    C.bottom + m + C.reserve ≤ s.sp → P x s s' → C.Agrees σ w s' →
      ∃ s'', M.acts C.stage.fp s' js = some s'' ∧ C.Agrees σ w s'' ∧ Q x s s'') :
      C.Carries (is ++ js) c m Q := by
  have hboth : C.Carries (is ++ js) (c >>= pure) m Q :=
    h.acts hn fun x s s' w σ σ' y hsp hroom hP hagrees hy => by
    obtain ⟨rfl, rfl⟩ := Course.pure_eq_some.mp hy
    exact hacts x s s' w σ hsp hroom hP hagrees
  rwa [bind_pure] at hboth

/-- **Two courses are carried out one after the other**, and something is made of both results. -/
theorem both (h : C.Carries is c n P) (hP : ∀ x s s', P x s s' → s'.sp ≤ s.sp ∧ s.sp ≤ s'.sp + k)
    (h' : C.Carries js d m R) {f : α → β → M.Course W γ}
    {Q : γ → M.Store → M.Store → Prop} {l : Nat} (hn : n ≤ l) (hm : m + k ≤ l)
    (hacts : ∀ x y s s' s'' w σ σ' z, s.sp ≤ C.base → C.bottom + l + C.reserve ≤ s.sp → P x s s' →
      R y s' s'' → C.Agrees σ w s'' → f x y σ = some (z, σ') →
        ∃ t, M.acts C.stage.fp s'' ks = some t ∧ C.Agrees σ' w t ∧ Q z s t) :
    C.Carries (is ++ js ++ ks) (c >>= fun x => d >>= fun y => f x y) l Q := by
  rw [List.append_assoc]
  refine h.behind hn fun x s s' code p a b w σ σ' z hsp hroom hPx hmakes hc hagrees hz => ?_
  have hsp' := hP x s s' hPx
  obtain ⟨y, σ₁, hy, hz⟩ := Course.bind_eq_some.mp hz
  obtain ⟨cs, w₁, s₁, hgoes, hagrees₁, hR⟩ := h' hmakes hc.left (by omega) (by omega) hagrees hy
  obtain ⟨t, ht, hagrees', hQ⟩ := hacts x y s s' s₁ w₁ σ₁ σ' z hsp hroom hPx hR hagrees₁ hz
  refine ⟨cs, w₁, t, ?_, hagrees', hQ⟩
  rw [List.length_append, ← Nat.add_assoc]
  exact hgoes.before (Surroundings.goes_of_runs (runs_acts hc.right ht) w₁)

end Carries

end Scene

end Machine

end PostfixCompiler
