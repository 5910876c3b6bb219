import PostfixCompiler.Proofs.Machine.Standard
import PostfixCompiler.Proofs.Machine.Transfer
import PostfixCompiler.Proofs.Ty.Leaves

/-!
# Values that are stored

To store a value is to take its leaves off the stack one by one, the first one first. Which leaf
goes where can be read off the types alone: the leaves of what is wanted and of what there is
correspond, and each one goes from its offset in the value to its offset in the place. An `int` that
becomes a `double` takes more room in the place than it took on the stack, so the two offsets are
counted apart.

The writer finds the leaves by taking the types apart, side by side, with an offset that runs along.
Here it is shown that what it writes is the code of these moves and no other, and what they do on a
machine.

## Main definitions

* `PostfixCompiler.Emission.Move`: a leaf on its way from the stack to a place.
* `PostfixCompiler.Ty.moves`: the moves by which a value is stored.
* `PostfixCompiler.Machine.Place`: a place is free to be stored to.
* `PostfixCompiler.Machine.Store.Moves`: leaves are moved, and nothing else changes.

## Main statements

* `PostfixCompiler.Emission.storeInstrs_eq`: the code that stores a value is that of its moves.
* `PostfixCompiler.Machine.acts_moves`: what moves do on a machine.
* `PostfixCompiler.Machine.acts_store`: a value of the very type that is wanted is stored as a
  whole.
* `PostfixCompiler.Machine.acts_pin`: an address is kept in the frame.
* `PostfixCompiler.Machine.stored_unified`: a value is stored leaf by leaf as what its type unifies
  to.
-/

namespace PostfixCompiler

/-! ### Moves -/

namespace Emission

/-- **A leaf on its way** from the stack to a place. -/
structure Move where
  /-- What the leaf is to be. -/
  target : Ty
  /-- What the leaf is. -/
  source : Ty
  /-- The byte of the place where it goes. -/
  byte : Nat
  /-- How many bytes are above it on the stack. -/
  depth : Nat

/-- The instructions of a move: the leaf is widened if it has to be, its address is pushed, and it
is stored there. -/
def Move.instrs (push : Nat → List Instr) (m : Move) : List Instr :=
  widenInstrs m.target m.source ++ push m.byte ++
    [if m.target = .double then .storeDouble else .storeInt]

/-- The moves of leaves that lie in a row, from a byte of the place and a depth on. -/
def movesFrom (byte depth : Nat) : List Ty → List Ty → List Move
  | t :: ts, s :: ss => ⟨t, s, byte, depth⟩ :: movesFrom (byte + t.size) (depth + s.size) ts ss
  | _, _ => []

end Emission

/-- **The moves by which a value is stored**: each leaf goes from its offset in the value to its
offset in the place, which is counted from a byte. -/
def Ty.moves (target source : Ty) (byte : Nat) : List Emission.Move :=
  List.zipWith (fun t s => ⟨t.1, s.1, byte + t.2, s.2⟩) target.leafOffsets source.leafOffsets

namespace Emission

variable {push : Nat → List Instr} {ts ts' ss ss' : List Ty} {byte depth : Nat}

theorem movesFrom_append (h : ts.length = ss.length) :
    movesFrom byte depth (ts ++ ts') (ss ++ ss') =
    movesFrom byte depth ts ss ++
      movesFrom (byte + Ty.sizeOfAll ts) (depth + Ty.sizeOfAll ss) ts' ss' := by
  induction ts generalizing ss byte depth with
  | nil =>
    cases List.length_eq_zero_iff.mp h.symm
    rfl
  | cons t ts ih =>
    match ss, h with
    | s :: ss, h =>
      rw [List.cons_append, List.cons_append, movesFrom, movesFrom, ih (Nat.succ.inj h),
        Ty.sizeOfAll, Ty.sizeOfAll, List.cons_append, Nat.add_assoc, Nat.add_assoc]

/-- **A move is within some bytes** of the place, and of the stack. -/
structure Move.Within (m : Move) (byte depth placed taken : Nat) : Prop where
  /-- It goes to these bytes of the place, -/
  byte_le : byte ≤ m.byte
  /-- up to their end. -/
  byte_end : m.byte + m.target.size ≤ byte + placed
  /-- It comes from these bytes of the stack, -/
  depth_le : depth ≤ m.depth
  /-- up to their end. -/
  depth_end : m.depth + m.source.size ≤ depth + taken

/-- Leaves that lie in a row are moved within their row. -/
theorem movesFrom_within {m : Move} (hm : m ∈ movesFrom byte depth ts ss) :
    m.Within byte depth (Ty.sizeOfAll ts) (Ty.sizeOfAll ss) := by
  induction ts generalizing ss byte depth with
  | nil => cases hm
  | cons t ts ih =>
    cases ss with
    | nil => cases hm
    | cons s ss =>
      rw [Ty.sizeOfAll, Ty.sizeOfAll]
      rw [movesFrom, List.mem_cons] at hm
      rcases hm with rfl | hm
      · exact ⟨Nat.le_refl _, by dsimp only; omega, Nat.le_refl _, by dsimp only; omega⟩
      · obtain ⟨hle, hend, hle', hend'⟩ := ih hm
        exact ⟨by omega, by omega, by omega, by omega⟩

/-- All leaves are moved. -/
theorem map_source_movesFrom (h : ts.length = ss.length) :
    (movesFrom byte depth ts ss).map Move.source = ss := by
  induction ts generalizing ss byte depth with
  | nil => exact (List.length_eq_zero_iff.mp h.symm).symm
  | cons t ts ih =>
    match ss, h with
    | s :: ss, h => rw [movesFrom, List.map_cons, ih (Nat.succ.inj h)]

/-- The offsets of the moves are those of the leaves. -/
theorem zipWith_leavesOfAllFrom (n : Nat) :
    ∀ {ts ss : List Ty} {k depth : Nat}, (∀ t ∈ ts, t.Scalar) →
    (∀ s ∈ ss, s.Scalar) →
    List.zipWith (fun t s => Move.mk t.1 s.1 (n + t.2) s.2) (Ty.leavesOfAllFrom k ts)
      (Ty.leavesOfAllFrom depth ss) = movesFrom (n + k) depth ts ss
  | [], _, _, _, _, _ => by
    rw [Ty.leavesOfAllFrom, List.zipWith_nil_left, movesFrom]
    simp
  | _ :: _, [], _, _, _, _ => by
    rw [Ty.leavesOfAllFrom, Ty.leavesOfAllFrom, List.zipWith_nil_right, movesFrom]
    simp
  | t :: ts, s :: ss, k, depth, hts, hss => by
    rw [List.forall_mem_cons] at hts hss
    rw [Ty.leavesOfAllFrom, Ty.leavesOfAllFrom, Ty.leavesFrom_of_isTuple hts.1.1,
      Ty.leavesFrom_of_isTuple hss.1.1, List.singleton_append, List.singleton_append,
      List.zipWith_cons_cons, movesFrom, zipWith_leavesOfAllFrom n hts.2 hss.2, Nat.add_assoc]

mutual

/-- **The code that stores a value is that of its moves**, in whichever depth they start. -/
theorem storeInstrs_eq_movesFrom : ∀ {t u : Ty} (byte depth : Nat), t.Solid → t.Fits u →
    storeInstrs push t u byte = (movesFrom byte depth t.leaves u.leaves).flatMap (Move.instrs push)
  | .tuple ts, u, byte, depth, ht, h => by
    by_cases hp : (Ty.tuple ts).IsPlural
    · obtain ⟨us, hus, hall⟩ := (Ty.fits_tuple hp).mp h
      have heach := storeEachInstrs_eq_movesFrom byte depth (Ty.solid_tuple.mp ht) hall
      rw [← Ty.leaves_stripped u, hus]
      match ts, hp with
      | [], _ | _ :: _ :: _, _ =>
        unfold storeInstrs
        rw [hus]
        exact heach
    · match ts with
      | [] | _ :: _ :: _ => exact absurd trivial hp
      | [t] =>
        rw [storeInstrs, Ty.leaves_singleton]
        exact storeInstrs_eq_movesFrom byte depth (Ty.solid_singleton.mp ht)
          (Ty.fits_singleton_left.mp h)
  | .void, u, byte, depth, ht, h | .int, u, byte, depth, ht, h | .double, u, byte, depth, ht, h
  | .string, u, byte, depth, ht, h | .pointer _, u, byte, depth, ht, h
  | .auto, u, byte, depth, ht, h => by
    rw [storeInstrs_scalar (ht _ (List.mem_singleton_self _)), ← Ty.leaves_stripped u,
      Ty.leaves_of_isTuple (Ty.isTuple_stripped_of_fits rfl h)]
    simp [Ty.leaves, movesFrom, Move.instrs]

/-- As `storeInstrs_eq_movesFrom`, for the components of a tuple. -/
theorem storeEachInstrs_eq_movesFrom : ∀ {ts us : List Ty} (byte depth : Nat), (∀ t ∈ ts, t.Solid) →
    Ty.FitsAll ts us → storeEachInstrs push ts us byte =
      (movesFrom byte depth (Ty.leavesOfAll ts) (Ty.leavesOfAll us)).flatMap (Move.instrs push)
  | [], [], byte, depth, _, _ => by
    rw [storeEachInstrs] <;> simp [Ty.leavesOfAll, movesFrom]
  | [], _ :: _, _, _, _, h | _ :: _, [], _, _, _, h => h.elim
  | t :: ts, u :: us, byte, depth, ht, h => by
    rw [List.forall_mem_cons] at ht
    rw [storeEachInstrs, Ty.leavesOfAll, Ty.leavesOfAll, movesFrom_append h.1.leaves.length_eq,
      List.flatMap_append, Ty.sizeOfAll_leaves, storeInstrs_eq_movesFrom _ _ ht.1 h.1,
      storeEachInstrs_eq_movesFrom _ _ ht.2 h.2]

end

end Emission

open Emission

theorem Ty.moves_eq {t u : Ty} (ht : t.Solid) (hu : u.Solid) (byte : Nat) :
    t.moves u byte = movesFrom byte 0 t.leaves u.leaves := by
  rw [Ty.moves, Ty.leafOffsets, Ty.leafOffsets, Ty.leavesFrom_eq, Ty.leavesFrom_eq]
  exact zipWith_leavesOfAllFrom byte ht hu

/-- **The code that stores a value is that of its moves.** -/
theorem Emission.storeInstrs_eq {push : Nat → List Instr} {t u : Ty} (ht : t.Solid) (hu : u.Solid)
    (h : t.Fits u) (byte : Nat) :
    storeInstrs push t u byte = (t.moves u byte).flatMap (Move.instrs push) := by
  rw [Ty.moves_eq ht hu, storeInstrs_eq_movesFrom byte 0 ht h]

namespace Machine

variable {M : Machine} {fp low high : Int} {s s' s₁ s₂ : M.Store} {W W' : Int → Prop}

/-! ### Places -/

/-- **A place is free to be stored to**: it takes `placed` bytes from some byte of a base on, and a
value of `taken` bytes is on the stack. The place is apart from the stack, with the bytes further up
that are needed on the way, and an address that is kept in the frame is apart from both. -/
structure Place (fp low high : Int) (s : M.Store) (A : Int) (b : Base)
    (byte taken placed : Nat) : Prop where
  /-- The base stands for an address. -/
  points : Points fp low high s A b
  /-- Addresses from there on are words, -/
  lower : low ≤ A
  /-- up to the end of the place. -/
  upper : A + byte + placed ≤ high
  /-- The place is apart from the stack. -/
  apart : s.sp + taken ≤ A + byte ∨ A + byte + placed + 12 ≤ s.sp
  /-- So is an address that is kept in the frame, from both. -/
  pinned : ∀ slot, b = .pinned slot → s.sp + taken ≤ fp + slot ∧
    (fp + slot + Ty.wordSize ≤ A + byte ∨ A + byte + placed ≤ fp + slot)

namespace Place

variable {A : Int} {b : Base} {k taken taken' placed placed' : Nat}

/-- The first bytes of a place are free, too. -/
theorem first (h : Place fp low high s A b k (taken + taken') (placed + placed')) :
    Place fp low high s A b k taken placed := by
  have hupper := h.upper
  have hapart := h.apart
  exact ⟨h.points, h.lower,
    by omega, by omega, fun slot hslot => by have := h.pinned slot hslot; omega⟩

/-- **The rest of a place is free**, after its first bytes are stored to. -/
theorem rest (h : Place fp low high s A b k (taken + taken') (placed + placed'))
    (hsp : s'.sp = s.sp + taken) (hc : Changes (fun a => Below (s.sp + taken) (taken + 12) a ∨
      A + k ≤ a ∧ a < A + k + placed) s.memory s'.memory) :
    Place fp low high s' A b (k + placed) taken' placed' := by
  have hupper := h.upper
  have hapart := h.apart
  refine ⟨h.points.changes hc (fun slot hslot a ha ha' hW => ?_) fun slot hslot => ?_, h.lower,
    by omega, by omega,
    fun slot hslot => ?_⟩
  all_goals
    have hpinned := h.pinned slot hslot
  · unfold Below at hW
    omega
  all_goals omega

end Place

/-! ### One leaf -/

/-- **A value is moved from the stack to an address**, and nothing changes but its bytes there, and
the bytes that belong to nobody. Below the value, some bytes may be needed on the way. -/
structure Store.Saves (s s' : M.Store) (A : Int) (t : Ty) (spare : Nat) : Prop where
  /-- The value is taken from the stack. -/
  sp : s'.sp = s.sp + t.size
  /-- The value is at the address. -/
  value : M.read s'.memory A t = M.read s.memory s.sp t
  /-- Only some bytes may change. -/
  changes : Changes (fun a => Below (s.sp + t.size) (t.size + spare) a ∨
    A ≤ a ∧ a < A + t.size) s.memory s'.memory

/-- The value below an address that was pushed goes to that address, whatever the value is. -/
theorem save_eq {V : Type} {n : Nat} (c : Codec M.Byte V n) {a : Int}
    (h : s.Gains s₁ (Below s.sp 8) .int (.word (M.ofInt a))) (ha : M.toInt (M.ofInt a) = a) :
    s₁.save c = ⟨s.sp + n, c.put s₁.memory a (s.top c)⟩ := by
  obtain ⟨htop, hdrop⟩ := h.top_word ⟨rfl, by simp, by simp⟩
  have hvalue : (s₁.drop Ty.wordSize).top c = s.top c := by
    unfold Store.top
    rw [Store.sp_drop, hdrop]
    refine c.get_congr fun x hx _ => h.changes x fun hbelow => ?_
    have := hbelow.2
    omega
  rw [Store.save, htop, ha, hvalue, Store.sp_drop, hdrop]

/-- A scalar is stored. -/
theorem acts_save (hM : M.Addresses low high) {b : Base} {A : Int} {k : Nat} {t : Ty}
    (ht : t.Scalar) (hb : Points fp low high s A b) (hA : low ≤ A) (hk : A + k + t.size ≤ high) :
    ∃ s', M.acts fp s (b.instrs k ++ [if t = .double then .storeDouble else .storeInt]) = some s' ∧
      s.Saves s' (A + k) t 8 := by
  obtain ⟨s₁, hs₁, hg⟩ := acts_base (s := s) hM k hb hA (by omega)
  have haddress : M.toInt (M.ofInt (A + k)) = A + k := hM.toInt_ofInt _ (by omega) (by omega)
  have hchanges : ∀ {V : Type} {n : Nat} (c : Codec M.Byte V n) (v : V), n = t.size →
      Changes (fun a => Below (s.sp + t.size) (t.size + 8) a ∨
        A + k ≤ a ∧ a < A + k + t.size) s.memory
        (c.put s₁.memory (A + k) v) := by
    intro V n c v hn
    refine (hg.changes.mono fun a ha => ?_).trans ((Changes.put c _ _ _).mono fun a ha =>
      .inr (hn ▸ ha))
    unfold Below at ha ⊢
    omega
  rw [acts_append, hs₁, Option.bind_some]
  by_cases hd : t = .double
  · subst hd
    rw [if_pos rfl, acts_cons, act, save_eq M.real hg haddress]
    refine ⟨_, rfl, rfl, ?_, hchanges M.real _ rfl⟩
    rw [read, read]
    exact congrArg Value.real (M.real.get_put _)
  · have hsize : t.size = Ty.wordSize := by rw [ht.size_eq, if_neg hd]; rfl
    rw [if_neg hd, acts_cons, act, save_eq M.word hg haddress]
    refine ⟨_, rfl, by rw [hsize], ?_, hchanges M.word _ hsize.symm⟩
    rw [read_word ht hd, read_word ht hd]
    exact congrArg Value.word (M.word.get_put _)

/-- **What a value is as a leaf of a type**: a word is widened for a `double`. -/
def Value.widened (t : Ty) : M.Value → M.Value
  | .word w => if t = .double then .real (M.widen w) else .word w
  | v => v

/-- A leaf that takes as many bytes is not widened. -/
theorem widened_read {t u : Ty} (ht : t.Scalar) (hu : u.Scalar) (hsize : u.size = t.size)
    (m : M.Memory) (a : Int) :
    (M.read m a u).widened t = M.read m a t := by
  rw [ht.size_eq, hu.size_eq] at hsize
  by_cases hd : t = .double
  · have hud : u = .double := by
      by_contra hud
      rw [if_pos hd, if_neg hud] at hsize
      cases hsize
    subst hd hud
    rw [read]
    rfl
  · have hud : u ≠ .double := by
      rintro rfl
      rw [if_pos rfl, if_neg hd] at hsize
      cases hsize
    rw [read_word ht hd, read_word hu hud, Value.widened, if_neg hd]

/-- **A leaf is moved**, and widened if it has to be. -/
theorem acts_move (hM : M.Addresses low high) {b : Base} {A : Int} {t u : Ty} {k : Nat} (j : Nat)
    (ht : t.Scalar) (hu : u.Scalar) (hf : t.Fits u) (hp : Place fp low high s A b k u.size t.size) :
    ∃ s', M.acts fp s (Move.instrs b.instrs ⟨t, u, k, j⟩) = some s' ∧ s'.sp = s.sp + u.size ∧
      M.read s'.memory (A + k) t = (M.read s.memory s.sp u).widened t ∧
      Changes (fun a => Below (s.sp + u.size) (u.size + 12) a ∨
        A + k ≤ a ∧ a < A + k + t.size) s.memory s'.memory := by
  have hupper := hp.upper
  rw [Move.instrs, List.append_assoc, acts_append]
  by_cases hw : t = .double ∧ u = .int
  · -- The word on top is widened in place, which takes four bytes more, and the double is stored.
    obtain ⟨rfl, rfl⟩ := hw
    have hword : Ty.int.size = 4 := rfl
    have hdouble : Ty.double.size = 8 := rfl
    have hchanges : Changes (Below (s.sp + 4) 8) s.memory (s.apply M.word M.real M.widen).memory :=
      changes_push M.real _ (s.drop Ty.wordSize)
    have hsp : (s.apply M.word M.real M.widen).sp = s.sp + 4 - 8 := rfl
    have hpoints : Points fp low high (s.apply M.word M.real M.widen) A b := by
      refine hp.points.changes hchanges (fun slot hslot a ha _ hW => ?_) fun slot hslot => ?_
      all_goals
        have hpinned := (hp.pinned slot hslot).1
      · have := hW.2
        omega
      · omega
    obtain ⟨s', hs', hsaved⟩ := acts_save hM ht hpoints hp.lower hupper
    refine ⟨s', ?_, ?_, ?_, ?_⟩
    · rw [widenInstrs, if_pos ⟨rfl, rfl⟩, acts_cons, act, Option.bind_some, acts_nil,
        Option.bind_some]
      exact hs'
    · rw [hsaved.sp]
      omega
    · rw [hsaved.value, read, read, Value.widened, if_pos rfl]
      exact congrArg Value.real (Store.top_push M.real _ _)
    · refine (hchanges.mono fun a ha => ?_).trans (hsaved.changes.mono fun a ha => ?_)
      all_goals
        unfold Below at ha ⊢
        omega
  · have hstripped : u.stripped = u := Ty.stripped_of_isPlural (Ty.isPlural_of_isTuple hu.1)
    have hsize : u.size = t.size := (ht.size_of_fits hf).resolve_right fun h => hw (hstripped ▸ h)
    obtain ⟨s', hs', hsaved⟩ := acts_save hM ht hp.points hp.lower hupper
    refine ⟨s', ?_, hsize ▸ hsaved.sp, by rw [hsaved.value, widened_read ht hu hsize], ?_⟩
    · rw [widenInstrs, if_neg hw, acts_nil, Option.bind_some]
      exact hs'
    · refine hsaved.changes.mono fun a ha => ?_
      unfold Below at ha ⊢
      omega

/-! ### All leaves -/

/-- **Leaves are moved from the stack to a place**, each one to its byte there, and nothing changes
but these bytes, and bytes that belong to nobody. The depths of the leaves are counted from an
address. -/
structure Store.Moves (s s' : M.Store) (A start : Int) (ms : List Move) : Prop where
  /-- All leaves are taken from the stack. -/
  sp : s'.sp = s.sp + Ty.sizeOfAll (ms.map Move.source)
  /-- Each leaf is at its byte of the place, widened if it has to be. -/
  leaf : ∀ m ∈ ms, M.read s'.memory (A + m.byte) m.target =
    (M.read s.memory (start + m.depth) m.source).widened m.target
  /-- Only some bytes may change. -/
  changes : Changes (fun a => Below (s.sp + Ty.sizeOfAll (ms.map Move.source))
    (Ty.sizeOfAll (ms.map Move.source) + 12) a ∨
    ∃ m ∈ ms, A + m.byte ≤ a ∧ a < A + m.byte + m.target.size)
    s.memory s'.memory

/-- **Leaves that lie in a row are moved**, one after the other. -/
theorem acts_movesFrom (hM : M.Addresses low high) {b : Base} {A start : Int} {ts us : List Ty}
    (h : List.Forall₂ Ty.Fits ts us) (hts : ∀ t ∈ ts, t.Scalar)
    (hus : ∀ u ∈ us, u.Scalar) {k j : Nat} (hstart : s.sp = start + j)
    (hp : Place fp low high s A b k (Ty.sizeOfAll us) (Ty.sizeOfAll ts)) :
    ∃ s', M.acts fp s ((movesFrom k j ts us).flatMap (Move.instrs b.instrs)) = some s' ∧
      s.Moves s' A start (movesFrom k j ts us) := by
  induction h generalizing s k j with
  | nil => exact ⟨s, rfl, (Int.add_zero _).symm, nofun, .refl _ _⟩
  | @cons t u ts us hf h ih =>
    rw [List.forall_mem_cons] at hts hus
    obtain ⟨s₁, hs₁, hsp₁, hvalue, hchanges₁⟩ := acts_move hM j hts.1 hus.1 hf hp.first
    obtain ⟨s₂, hs₂, hmoves⟩ :=
      ih hts.2 hus.2 (k := k + t.size) (j := j + u.size) (by omega) (hp.rest hsp₁ hchanges₁)
    have hsource : (movesFrom (k + t.size) (j + u.size) ts us).map Move.source = us :=
      map_source_movesFrom h.length_eq
    obtain ⟨hsp₂, hleaf, hchanges₂⟩ := hmoves
    rw [hsource] at hsp₂ hchanges₂
    have hapart := hp.apart
    simp only [Ty.sizeOfAll] at hapart
    refine ⟨s₂, ?_, ?_, ?_, ?_⟩
    · rw [movesFrom, List.flatMap_cons, acts_append, hs₁, Option.bind_some, hs₂]
    · rw [movesFrom, List.map_cons, hsource, Ty.sizeOfAll]
      dsimp only
      omega
    · rw [movesFrom, List.forall_mem_cons]
      refine ⟨?_, fun m hm => ?_⟩
      · -- The leaf is left alone by the others, which go behind it.
        dsimp only
        rw [← hstart, ← hvalue]
        refine hchanges₂.read_eq (Ty.solid_of_scalar hts.1) fun a ha ha' hW => ?_
        rcases hW with hW | ⟨m, hm, hW⟩
        · unfold Below at hW
          omega
        · have := (movesFrom_within hm).byte_le
          omega
      · -- The others wait on the stack while the leaf is moved.
        obtain ⟨-, -, hle, hend⟩ := movesFrom_within hm
        have hscalar : m.source.Scalar := hus.2 _ (hsource ▸ List.mem_map_of_mem hm)
        have hkept : M.read s₁.memory (start + m.depth) m.source =
            M.read s.memory (start + m.depth) m.source :=
          hchanges₁.read_eq (Ty.solid_of_scalar hscalar) fun a ha ha' hW => by
            unfold Below at hW
            omega
        rw [hleaf m hm, hkept]
    · rw [movesFrom, List.map_cons, hsource, Ty.sizeOfAll]
      dsimp only
      refine (hchanges₁.mono fun a ha => ?_).trans (hchanges₂.mono fun a ha => ?_)
      · refine ha.imp (fun ha => ?_) fun ha => ⟨_, List.mem_cons_self, ha⟩
        unfold Below at ha ⊢
        omega
      · refine ha.imp (fun ha => ?_) fun ⟨m, hm, ha⟩ => ⟨m, List.mem_cons_of_mem _ hm, ha⟩
        unfold Below at ha ⊢
        omega

/-- **A value is moved leaf by leaf** to a place that it fits. -/
theorem acts_moves (hM : M.Addresses low high) {b : Base} {A : Int} {t u : Ty}
    (ht : t.Solid) (hu : u.Solid) (h : t.Fits u) {k : Nat}
    (hp : Place fp low high s A b k u.size t.size) :
    ∃ s', M.acts fp s ((t.moves u k).flatMap (Move.instrs b.instrs)) = some s' ∧
    s.Moves s' A s.sp (t.moves u k) := by
  rw [Ty.moves_eq ht hu]
  rw [← Ty.sizeOfAll_leaves t, ← Ty.sizeOfAll_leaves u] at hp
  exact acts_movesFrom hM h.leaves ht hu (Int.add_zero _).symm hp

/-- **A value of the very type that is wanted is stored as a whole.** -/
theorem acts_store (hM : M.Addresses low high) {b : Base} {A : Int} {t : Ty}
    (ht : t.Solid) {k : Nat} (hp : Place fp low high s A b k t.size t.size) :
    ∃ s', M.acts fp s (storeInstrs b.instrs t t k) = some s' ∧ s.Saves s' (A + k) t 12 := by
  have hfits := Ty.fits_refl ht.leavesKnown
  obtain ⟨s', hs', hmoves⟩ := acts_moves hM ht ht hfits hp
  have hsource : Ty.sizeOfAll ((t.moves t k).map Move.source) = t.size := by
    rw [Ty.moves_eq ht ht, map_source_movesFrom rfl, Ty.sizeOfAll_leaves]
  obtain ⟨hsp, hleaf, hchanges⟩ := hmoves
  rw [hsource] at hsp hchanges
  refine ⟨s', by rw [storeInstrs_eq ht ht hfits, hs'], hsp, ?_, hchanges.mono fun a ha => ?_⟩
  · rw [← Int.add_zero (A + k), ← Int.add_zero s.sp]
    refine read_eq_of_leaves (k := 0) fun l hl => ?_
    have hscalar : l.1.Scalar := ht.scalar hl
    have hmove : ⟨l.1, l.1, k + l.2, l.2⟩ ∈ t.moves t k := by
      rw [Ty.moves, List.zipWith_self]
      exact List.mem_map_of_mem hl
    have hstored := hleaf _ hmove
    rwa [widened_read hscalar hscalar rfl, Int.natCast_add, ← Int.add_assoc] at hstored
  · refine ha.imp_right fun ⟨m, hm, ha⟩ => ?_
    rw [Ty.moves_eq ht ht] at hm
    obtain ⟨hle, hend, -, -⟩ := movesFrom_within hm
    rw [Ty.sizeOfAll_leaves] at hend
    omega

/-- **An address is kept in the frame**, from where it can be fetched again and again. -/
theorem acts_pin (hM : M.Addresses low high) {A : Int} (fp slot : Int)
    (htop : s.top M.word = M.ofInt A) (hlow : low ≤ fp + slot)
    (hhigh : fp + slot + Ty.wordSize ≤ high) (hsp : s.sp + Ty.wordSize ≤ fp + slot) :
    ∃ s', M.acts fp s [.frameAddress slot, .storeInt] = some s' ∧ s'.sp = s.sp + Ty.wordSize ∧
      Points fp low high s' A (.pinned slot) ∧
      Changes (fun a => Below (s.sp + Ty.wordSize) 12 a ∨
        fp + slot ≤ a ∧ a < fp + slot + Ty.wordSize) s.memory
        s'.memory := by
  have hsize : Ty.int.size = Ty.wordSize := rfl
  have hpoints : Points fp low high s (fp + slot) (.frame slot) := rfl
  obtain ⟨s', hs', hdrop, hvalue, hchanges⟩ :=
    acts_save (k := 0) (s := s) (A := fp + slot) (t := .int) hM
    ⟨rfl, by simp, by simp⟩ hpoints hlow (by omega)
  have hcode : (Base.frame slot).instrs 0 = [.frameAddress slot] := by simp [Base.instrs]
  rw [hcode] at hs'
  rw [Int.natCast_zero, Int.add_zero] at hvalue hchanges
  rw [hsize] at hdrop hchanges
  refine ⟨s', hs', hdrop, ⟨?_, by omega, hlow, by omega⟩, hchanges⟩
  rw [read, read, Value.word.injEq] at hvalue
  rw [hvalue]
  exact htop

end Machine

/-! ### Values of unified types -/

/-- The writer writes the code of the moves. -/
theorem Emission.store_eq {t u : Ty} (ht : t.Solid) (hu : u.Solid) (h : t.Fits u) (b : Base)
    (byte : Nat) (s : State) :
    store b.push t u byte s =
      .ok () (s.write ((t.moves u byte).flatMap (Move.instrs b.instrs))) := by
  have hputs : Puts (store b.push t u byte) s fun _ s' =>
      s' = s.write (storeInstrs b.instrs t u byte) :=
    (puts_store (puts_base b) h).mpr rfl
  obtain ⟨⟨⟩, s', hs', rfl⟩ := hputs.exists_ok
  rw [hs', storeInstrs_eq ht hu h]

/-- **A value is stored as what its type unifies to**. The leaves of the unified type come about one
by one from those of the two types, and whoever has a value of the second type on the stack can
store it as a value of the unified one: what is written is one move for each leaf, and on a machine
they move the leaves to where the value is to be, and do nothing else. -/
theorem Machine.stored_unified {o : CompatOptions} {a b t : Ty}
    (h : a.compatible? o b = some t) (ha : a.Solid) (hb : b.Solid) (base : Base) (byte : Nat) :
    Ty.LeavesUnify o a.leaves b.leaves t.leaves ∧
    (∀ s : State, store base.push t b byte s =
      .ok () (s.write ((t.moves b byte).flatMap (Move.instrs base.instrs)))) ∧
    ∀ (M : Machine) (fp low high A : Int) (s : M.Store), M.Addresses low high →
      Place fp low high s A base byte b.size t.size →
        ∃ s', M.acts fp s ((t.moves b byte).flatMap (Move.instrs base.instrs)) = some s' ∧
          s.Moves s' A s.sp (t.moves b byte) := by
  have ht := Ty.solid_of_compatible h ha hb
  have hfits : t.Fits b := (Ty.joins_of_compatible h ha.leavesKnown hb.leavesKnown).right
  exact ⟨Ty.leavesUnify_of_compatible h ha hb, store_eq ht hb hfits base byte,
    fun M fp low high A s hM hp => acts_moves hM ht hb hfits hp⟩

/-- Two of type `int` are on a stack that starts 100 bytes below the frame, and are stored as a
`double` and an `int`, 16 bytes below the frame. -/
theorem Machine.stored_unified_widened :
    (Ty.tuple [.double, .tuple [.int]]).compatible? .assignment (.tuple [.tuple [.int], .int]) =
      some (.tuple [.double, .int]) ∧
    ∃ s' : (standard fun _ => 0).Store,
      (standard fun _ => 0).acts 0 ⟨-100, fun _ => (0 : BitVec 8)⟩
        [.intToDouble, .frameAddress (-16), .storeDouble, .frameAddress (-8), .storeInt] = some s' ∧
        s'.sp = -92 := by
  have h :
      (Ty.tuple [.double, .tuple [.int]]).compatible? .assignment (.tuple [.tuple [.int], .int]) =
      some (.tuple [.double, .int]) := rfl
  have hstored := stored_unified h (by decide) (by decide) (.frame (-16)) 0
  obtain ⟨s', hs', hmoves⟩ :=
    hstored.2.2 (standard fun _ => 0) 0 (-1000) 1000 (-16) ⟨-100, fun _ => (0 : BitVec 8)⟩
    (addresses_standard _ (by decide) (by decide)) ⟨rfl,
      by decide, by decide, .inl (by decide), nofun⟩
  exact ⟨h, s', hs', hmoves.sp⟩

end PostfixCompiler
