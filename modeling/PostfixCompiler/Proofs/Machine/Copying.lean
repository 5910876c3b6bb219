import PostfixCompiler.Proofs.Machine.Storing

/-!
# Values that are copied

The two directions of moving a value are written apart: a value is fetched by the list of its
leaves, from the last one to the first, and stored along its type, with an offset that runs through
the components. They fit together if the bytes on the stack are the bytes of the memory, whatever
the type. So it is shown here that to fetch a value and to store it is to copy it, that nothing else
in memory changes, and that the stack is as it was before. It does not matter whether the two places
have bytes in common, because all of the value is on the stack before the first of its leaves is
stored.

What a machine reads from some bytes may be less than the bytes themselves. Where it is not, as on
the machine of 32 bits, the bytes are copied one by one.

## Main definitions

* `PostfixCompiler.Machine.Lossless`: no byte is lost by reading it.
* `PostfixCompiler.Machine.Situated`: the bytes of a place are above the stack.
* `PostfixCompiler.Machine.Store.Copies`: a value is copied.

## Main statements

* `PostfixCompiler.Machine.lossless_standard`: no byte is lost on the machine of 32 bits.
* `PostfixCompiler.Machine.value_copied`: to fetch a value and to store it is to copy it.
-/

namespace PostfixCompiler

/-! ### Bytes that can be had back -/

namespace Codec

variable {Byte V : Type} {size : Nat} {c : Codec Byte V size} {m m' : Int → Byte} {a b : Int}

/-- **No byte is lost**: any bytes are those of the value that is read from them. -/
def Lossless (c : Codec Byte V size) : Prop := ∀ bs, c.encode (c.decode bs) = bs

/-- Where no byte is lost, values are equal only if their bytes are. -/
theorem Lossless.byte_eq (hc : c.Lossless) (h : c.get m a = c.get m' b) {k : Nat} (hk : k < size) :
    m (a + k) = m' (b + k) := by
  have hbytes := congrArg c.encode h
  rw [get, get, hc, hc] at hbytes
  exact congrFun hbytes ⟨k, hk⟩

/-- The bytes of a number are had back from it by division. -/
theorem ofNat_number_div {n : Nat} (bs : Fin n → BitVec 8) (k : Fin n) :
    BitVec.ofNat 8 (number n bs / 256 ^ k.val) = bs k := by
  induction n with
  | zero => exact k.elim0
  | succ n ih =>
    have hfirst : (bs 0).toNat < 256 := (bs 0).isLt
    rw [number]
    cases k using Fin.cases with
    | zero =>
      rw [Fin.val_zero, pow_zero, Nat.div_one, ← BitVec.toNat_inj, BitVec.toNat_ofNat]
      omega
    | succ k =>
      have hrest : ((bs 0).toNat + 256 * number n fun k => bs k.succ) / 256 = number n fun k =>
          bs k.succ := by omega
      rw [Fin.val_succ, pow_succ', ← Nat.div_div_eq_div_mul, hrest, ih]

theorem number_lt {n : Nat} (bs : Fin n → BitVec 8) : number n bs < 256 ^ n := by
  induction n with
  | zero => exact Nat.one_pos
  | succ n ih =>
    have hfirst : (bs 0).toNat < 256 := (bs 0).isLt
    have hrest := ih fun k => bs k.succ
    rw [number, pow_succ']
    omega

theorem lossless_ofBits (n : Nat) : (ofBits n).Lossless := by
  intro bs
  have hpow : 256 ^ n = 2 ^ (8 * n) := by rw [pow_mul]; rfl
  funext k
  rw [ofBits]
  dsimp only
  rw [BitVec.toNat_ofNat, Nat.mod_eq_of_lt (hpow ▸ number_lt bs), ofNat_number_div]

end Codec

namespace Machine

open Emission

/-- **No byte is lost by reading it**, neither as a part of a word nor as one of a double. -/
structure Lossless (M : Machine) : Prop where
  /-- Words. -/
  word : M.word.Lossless
  /-- Doubles. -/
  real : M.real.Lossless

/-- **No byte is lost on the machine of 32 bits.** -/
theorem lossless_standard (labels : String → BitVec 32) : (standard labels).Lossless :=
  ⟨Codec.lossless_ofBits 4, Codec.lossless_ofBits 8⟩

variable {M : Machine} {fp low high A B : Int} {s s' : M.Store} {m m' : M.Memory}

mutual

/-- Where no byte is lost, values are equal only if their bytes are. -/
theorem Lossless.byte_eq (hM : M.Lossless) :
    ∀ {t : Ty} {a b : Int} {k : Nat}, M.read m a t = M.read m' b t →
    k < t.size → m (a + k) = m' (b + k)
  | .tuple ts, a, b, k, h, hk => by
    rw [read, read, Value.tuple.injEq] at h
    exact hM.byte_eq_all h hk
  | .double, a, b, k, h, hk => by
    rw [read, read, Value.real.injEq] at h
    exact hM.real.byte_eq h hk
  | .int, a, b, k, h, hk | .string, a, b, k, h, hk | .pointer _, a, b, k, h, hk => by
    rw [read, read, Value.word.injEq] at h
    exact hM.word.byte_eq h hk

/-- As `Lossless.byte_eq`, for several values. -/
theorem Lossless.byte_eq_all (hM : M.Lossless) : ∀ {ts : List Ty} {a b : Int} {k : Nat},
    M.readAll m a ts = M.readAll m' b ts → k < Ty.sizeOfAll ts → m (a + k) = m' (b + k)
  | t :: ts, a, b, k, h, hk => by
    rw [readAll, readAll, List.cons.injEq] at h
    rw [Ty.sizeOfAll] at hk
    by_cases hfirst : k < t.size
    · exact hM.byte_eq h.1 hfirst
    · have hbyte := hM.byte_eq_all (k := k - t.size) h.2 (by omega)
      have hplace : ∀ c : Int, c + t.size + (k - t.size : Nat) = c + k := by omega
      rwa [hplace, hplace] at hbyte

end

mutual

/-- The leaves of equal values are equal. -/
theorem leaf_eq_of_read :
    ∀ {t : Ty} {a b : Int} {k : Nat}, M.read m (a + k) t = M.read m' (b + k) t →
    ∀ l ∈ t.leavesFrom k, M.read m (a + l.2) l.1 = M.read m' (b + l.2) l.1
  | .tuple ts, a, b, k, h => by
    rw [read, read, Value.tuple.injEq] at h
    exact leaf_eq_of_readAll h
  | .void, _, _, k, h | .int, _, _, k, h | .double, _, _, k, h | .string, _, _, k, h
  | .pointer _, _, _, k, h | .auto, _, _, k, h => fun l hl => by
    obtain rfl := List.mem_singleton.mp hl
    exact h

/-- As `leaf_eq_of_read`, for several values. -/
theorem leaf_eq_of_readAll : ∀ {ts : List Ty} {a b : Int} {k : Nat},
    M.readAll m (a + k) ts = M.readAll m' (b + k) ts →
      ∀ l ∈ Ty.leavesOfAllFrom k ts, M.read m (a + l.2) l.1 = M.read m' (b + l.2) l.1
  | [], _, _, _, _ => nofun
  | t :: ts, a, b, k, h => by
    rw [readAll, readAll, List.cons.injEq, Int.add_assoc, Int.add_assoc, ← Int.natCast_add] at h
    rw [Ty.leavesOfAllFrom, List.forall_mem_append]
    exact ⟨leaf_eq_of_read h.1, leaf_eq_of_readAll h.2⟩

end

/-! ### Copies -/

/-- The code that fetches a value and stores it. -/
def copyInstrs (t : Ty) (source target : Base) : List Instr :=
  loadInstrs source t.leafOffsets.reverse ++ storeInstrs target.instrs t t 0

/-- **The bytes of a place are above the stack**: they start at an address that a base stands for,
which may be kept in the frame, and each of them has an address that is a word. -/
structure Situated (fp low high : Int) (s : M.Store) (A : Int) (b : Base) (bytes : Nat) : Prop where
  /-- The base stands for an address. -/
  points : Points fp low high s A b
  /-- The bytes are above the stack. -/
  above : s.sp ≤ A
  /-- Addresses from there on are words, -/
  lower : low ≤ A
  /-- up to the end of the place. -/
  upper : A + bytes ≤ high

/-- **A value is copied** from an address to another one, and nothing else changes but bytes below
the stack. -/
structure Store.Copies (s s' : M.Store) (A B : Int) (t : Ty) : Prop where
  /-- The stack is as high as before. -/
  sp : s'.sp = s.sp
  /-- Each leaf is copied. -/
  leaf : ∀ l ∈ t.leafOffsets, M.read s'.memory (B + l.2) l.1 = M.read s.memory (A + l.2) l.1
  /-- So are the bytes, where none is lost. -/
  byte : M.Lossless → ∀ k < t.size, s'.memory (B + k) = s.memory (A + k)
  /-- Nothing else changes but bytes below the stack. -/
  changes :
      Changes (fun a => Below s.sp (t.size + 12) a ∨ B ≤ a ∧ a < B + t.size) s.memory s'.memory

/-- What is on the stack, or above it, stays as it is. -/
theorem Store.Copies.kept {t : Ty} (h : s.Copies s' A B t) {a : Int} (ha : s.sp ≤ a)
    (hB : a < B ∨ B + t.size ≤ a) :
    s'.memory a = s.memory a :=
  h.changes a fun hW => by
    unfold Below at hW
    omega

/-- The writer writes the code. -/
theorem copy_eq {t : Ty} (ht : t.Solid) (source target : Base) (w : State) :
    (do load t source; store target.push t t 0) w =
      .ok () (w.write (copyInstrs t source target)) := by
  have hfits := Ty.fits_refl ht.leavesKnown
  have hputs : Puts (do load t source; store target.push t t 0) w fun _ w' =>
      w' = w.write (copyInstrs t source target) := by
    rw [puts_bind, puts_load, puts_store (puts_base target) hfits, write_write, copyInstrs]
  obtain ⟨⟨⟩, w', hw', rfl⟩ := hputs.exists_ok
  exact hw'

/-- **A value is copied on a machine.** -/
theorem acts_copy (hM : M.Addresses low high) {t : Ty} (ht : t.Solid) {source target : Base}
    (hA : Situated fp low high s A source t.size) (hB : Situated fp low high s B target t.size)
    (hslot : ∀ slot, target = .pinned slot → fp + slot + Ty.wordSize ≤ B ∨ B + t.size ≤ fp + slot) :
    ∃ s', M.acts fp s (copyInstrs t source target) = some s' ∧ s.Copies s' A B t := by
  have habove := hA.above
  have habove' := hB.above
  -- All of the value is fetched, right below the stack.
  obtain ⟨s₁, hs₁, hgains⟩ := acts_load hM ht hA.points hA.lower hA.upper fun a ha _ hbelow => by
    have := hbelow.2
    omega
  have hsp₁ := hgains.sp
  have hplace : Place fp low high s₁ B target 0 t.size t.size := by
    have hupper := hB.upper
    refine ⟨hB.points.grow hgains.changes hgains.size_le, hB.lower,
      by omega, by omega, fun slot htarget => ?_⟩
    subst htarget
    have hkept := hB.points.2.1
    have hout := hslot slot rfl
    omega
  -- From there it is stored, which takes it off the stack again.
  obtain ⟨s₂, hs₂, hsaves⟩ := acts_store hM ht hplace
  obtain ⟨hsp₂, hvalue, hchanges⟩ := hsaves
  rw [Int.natCast_zero, Int.add_zero] at hvalue hchanges
  have hcopied : M.read s₂.memory B t = M.read s.memory A t := hvalue.trans hgains.value
  refine ⟨s₂, by rw [copyInstrs, acts_append, hs₁, Option.bind_some, hs₂], hsp₂.trans hsp₁,
    leaf_eq_of_read (k := 0) ?_, fun hlossless k hk => hlossless.byte_eq hcopied hk, ?_⟩
  · rwa [Int.natCast_zero, Int.add_zero, Int.add_zero]
  · rw [hsp₁] at hchanges
    refine (hgains.changes.mono fun a ha => .inl ?_).trans hchanges
    unfold Below at ha ⊢
    omega

/-- **To fetch a value and to store it is to copy it**, if it is a value of a type whose leaves are
neither `void` nor `auto`. Each of the two places is in the frame, or is found by an address that is
kept in the frame, which then must not be overwritten while it is needed. The code that is written
copies the value leaf by leaf, and byte by byte where no byte is lost by reading it. It changes
nothing else on the stack or above it. -/
theorem value_copied {t : Ty} (ht : t.Solid) (source target : Base) :
    (∀ w : State, (do load t source; store target.push t t 0) w =
      .ok () (w.write (copyInstrs t source target))) ∧
    ∀ (M : Machine) (fp low high A B : Int) (s : M.Store), M.Addresses low high →
      Situated fp low high s A source t.size → Situated fp low high s B target t.size →
      (∀ slot, target = .pinned slot → fp + slot + Ty.wordSize ≤ B ∨ B + t.size ≤ fp + slot) →
      ∃ s', M.acts fp s (copyInstrs t source target) = some s' ∧ s.Copies s' A B t ∧
        ∀ a, s.sp ≤ a → a < B ∨ B + t.size ≤ a → s'.memory a = s.memory a := by
  refine ⟨copy_eq ht source target, fun M fp low high A B s hM hA hB hslot => ?_⟩
  obtain ⟨s', hs', hcopies⟩ := acts_copy hM ht hA hB hslot
  exact ⟨s', hs', hcopies, fun a => hcopies.kept⟩

/-- An `int`, a tuple without components and a `double` in a tuple of its own are copied 16 bytes
up, to an address that is kept in the frame, on a machine of 32 bits. -/
theorem value_copied_nested :
    ∃ (M : Machine) (s s' : M.Store), s.sp = -100 ∧ M.acts 0 s
        [.frameAddress (-28), .loadDouble, .frameAddress (-32), .loadInt,
          .frameAddress (-4), .loadInt, .storeInt, .frameAddress (-4), .loadInt, .int 4, .add,
          .storeDouble] = some s' ∧
      s'.sp = -100 ∧ ∀ k < 12, s'.memory (-16 + (k : Nat)) = s.memory (-32 + (k : Nat)) := by
  have hsolid : (Ty.tuple [.int, .tuple [], .tuple [.double]]).Solid := by decide
  let M := standard fun _ => 0
  have hM : M.Addresses (-1000) 1000 := addresses_standard _ (by decide) (by decide)
  -- The address is kept 4 bytes below the frame.
  let s : M.Store := ⟨-100, M.word.put (fun a => BitVec.ofInt 8 a) (-4) (M.ofInt (-16))⟩
  have hA : Situated 0 (-1000) 1000 s (-32) (.frame (-32)) 12 :=
    ⟨rfl, by decide, by decide, by decide⟩
  have hB : Situated 0 (-1000) 1000 s (-16) (.pinned (-4)) 12 :=
    ⟨⟨M.word.get_put _, by decide, by decide, by decide⟩, by decide, by decide, by decide⟩
  obtain ⟨s', hs', hcopies, -⟩ :=
    (value_copied hsolid (.frame (-32)) (.pinned (-4))).2 M 0 (-1000) 1000 (-32) (-16) s hM
    hA hB fun slot hslot => .inr (by cases hslot; decide)
  exact ⟨M, s, s', rfl, hs', hcopies.sp, hcopies.byte (lossless_standard _)⟩

end Machine

end PostfixCompiler
