import PostfixCompiler.Proofs.Machine.ExprHeight

/-!
# Postfix machines and their memory

What a postfix machine computes with its words and doubles is not part of the language: integers may
wrap, doubles may round. So a machine is any choice of words and doubles, with functions for the
instructions that compute; all that is asked of it is that what is written to memory can be read
back.

Memory is a row of bytes. A value of a scalar type is a word or a double at an address, and a value
of a tuple type is the values of its components, one behind the other. A value on the stack lies in
memory in the same way, from the stack pointer up, so it is read in the same way too.

## Main definitions

* `PostfixCompiler.Codec`: values as bytes.
* `PostfixCompiler.Machine`: a machine.
* `PostfixCompiler.Machine.Value`: a word, a double, or a tuple of values.
* `PostfixCompiler.Machine.read`: the value of a type at an address.

## Main statements

* `PostfixCompiler.Codec.get_put`, `PostfixCompiler.Codec.put_outside`: what is written can be read
  back, and nothing else changes.
* `PostfixCompiler.Machine.read_congr`: a value depends on its own bytes only.
* `PostfixCompiler.Machine.read_eq_of_leaves`: a value is known by its leaves.
* `PostfixCompiler.Machine.readAll_getElem?`: the component of a tuple is found at its offset.
-/

namespace PostfixCompiler

/-! ### Bytes -/

/-- **Values as bytes**: each value can be read back from the bytes as which it is written. -/
structure Codec (Byte V : Type) (size : Nat) where
  /-- The bytes of a value. -/
  encode : V → Fin size → Byte
  /-- The value of some bytes. -/
  decode : (Fin size → Byte) → V
  /-- What is written can be read back. -/
  decode_encode : ∀ v, decode (encode v) = v

namespace Codec

variable {Byte V : Type} {size : Nat} (c : Codec Byte V size) {m m' : Int → Byte} {a b : Int}

/-- The value at an address. -/
def get (m : Int → Byte) (a : Int) : V := c.decode fun k => m (a + k.val)

/-- Memory in which a value is written at an address. -/
def put (m : Int → Byte) (a : Int) (v : V) : Int → Byte := fun b =>
  if h : a ≤ b ∧ b < a + size then c.encode v ⟨(b - a).toNat, by omega⟩ else m b

theorem put_outside (v : V) (h : b < a ∨ a + size ≤ b) : c.put m a v b = m b := by
  have hout : ¬(a ≤ b ∧ b < a + size) := by omega
  rw [put, dif_neg hout]

@[simp] theorem get_put (v : V) : c.get (c.put m a v) a = v := by
  have hbytes : (fun k : Fin size => c.put m a v (a + k.val)) = c.encode v := by
    funext k
    have hin : a ≤ a + k.val ∧ a + k.val < a + size := ⟨by omega, by omega⟩
    rw [put, dif_pos hin]
    congr 1
    exact Fin.ext (by dsimp only; omega)
  rw [get, hbytes, c.decode_encode]

theorem get_congr (h : ∀ b, a ≤ b → b < a + size → m b = m' b) : c.get m a = c.get m' a := by
  unfold get
  congr 1
  funext k
  exact h _ (by omega) (by omega)

end Codec

/-! ### Machines -/

/-- **A postfix machine**: its words and doubles, and what its instructions compute. -/
structure Machine where
  /-- The bytes of the memory. -/
  Byte : Type
  /-- Words. -/
  Word : Type
  /-- Doubles. -/
  Real : Type
  /-- How words lie in memory. -/
  word : Codec Byte Word Ty.wordSize
  /-- How doubles lie in memory. -/
  real : Codec Byte Real Ty.doubleSize
  /-- The word for an integer, or for an address. -/
  ofInt : Int → Word
  /-- The integer, or the address, that a word stands for. -/
  toInt : Word → Int
  /-- The double for a constant. -/
  ofDouble : Double → Real
  /-- The address of a label. -/
  label : String → Word
  /-- The word is zero. -/
  isZero : Word → Bool
  /-- What an operator computes from two words, the lower one on the stack first. -/
  words : BinaryOp → Word → Word → Word
  /-- The word with the other sign. -/
  negWord : Word → Word
  /-- What an operator computes from two doubles, the lower one on the stack first. -/
  reals : BinaryOp → Real → Real → Real
  /-- The double with the other sign. -/
  negReal : Real → Real
  /-- The double with the value of a word. -/
  widen : Word → Real
  /-- A word that compares to zero as two doubles compare to each other. -/
  compare : Real → Real → Word

namespace Machine

variable (M : Machine)

/-- **The memory of a machine**, a row of bytes. -/
abbrev Memory : Type := Int → M.Byte

/-- **The addresses of some bytes are words**: from each the address can be had back, and a number
of bytes can be added to it. -/
structure Addresses (low high : Int) : Prop where
  /-- The address can be had back. -/
  toInt_ofInt : ∀ a, low ≤ a → a ≤ high → M.toInt (M.ofInt a) = a
  /-- A number of bytes can be added. -/
  add : ∀ (a : Int) (n : Nat), low ≤ a → a + n ≤ high →
    M.words .add (M.ofInt a) (M.ofInt n) = M.ofInt (a + n)

/-! ### Values -/

/-- **A value**: a word, a double, or a tuple of values. -/
inductive Value where
  /-- A word. -/
  | word (w : M.Word)
  /-- A double. -/
  | real (d : M.Real)
  /-- A tuple. -/
  | tuple (vs : List Value)

mutual

/-- **The value of a type at an address.** Neither `void` nor `auto` has values. -/
def read (m : M.Memory) (a : Int) : Ty → M.Value
  | .tuple ts => .tuple (readAll m a ts)
  | .double => .real (M.real.get m a)
  | .void | .auto | .int | .string | .pointer _ => .word (M.word.get m a)

/-- The values of types at an address, one behind the other. -/
def readAll (m : M.Memory) (a : Int) : List Ty → List M.Value
  | [] => []
  | t :: ts => read m a t :: readAll m (a + t.size) ts

end

variable {M} {m m' : M.Memory}

/-- The value of a scalar that is no double is a word. -/
theorem read_word {t : Ty} (ht : t.Scalar) (hd : t ≠ .double) (a : Int) :
    M.read m a t = .word (M.word.get m a) := by
  obtain ⟨htuple, -, -⟩ := ht
  cases t with
  | tuple => cases htuple
  | double => exact absurd rfl hd
  | _ => rw [read]

mutual

/-- **A value depends on its own bytes only.** -/
theorem read_congr : ∀ {t : Ty} {a b : Int}, t.Solid →
    (∀ k : Nat, k < t.size → m (a + k) = m' (b + k)) → M.read m a t = M.read m' b t
  | .tuple ts, a, b, ht, h => by
    rw [read, read, readAll_congr (Ty.solid_tuple.mp ht) h]
  | .double, a, b, ht, h => by
    rw [read, read, Codec.get, Codec.get]
    congr 2
    funext k
    exact h k k.isLt
  | .int, a, b, ht, h | .string, a, b, ht, h | .pointer _, a, b, ht, h => by
    rw [read, read, Codec.get, Codec.get]
    congr 2
    funext k
    exact h k k.isLt
  | .void, _, _, ht, _ => absurd rfl (ht .void (List.mem_singleton_self _)).2.1
  | .auto, _, _, ht, _ => absurd rfl (ht .auto (List.mem_singleton_self _)).2.2

/-- As `read_congr`, for several values. -/
theorem readAll_congr : ∀ {ts : List Ty} {a b : Int}, (∀ t ∈ ts, t.Solid) →
    (∀ k : Nat, k < Ty.sizeOfAll ts → m (a + k) = m' (b + k)) → M.readAll m a ts = M.readAll m' b ts
  | [], _, _, _, _ => by rw [readAll, readAll]
  | t :: ts, a, b, ht, h => by
    rw [List.forall_mem_cons] at ht
    rw [Ty.sizeOfAll] at h
    have hrest : M.readAll m (a + t.size) ts = M.readAll m' (b + t.size) ts := by
      refine readAll_congr ht.2 fun k hk => ?_
      have hbyte := h (t.size + k) (by omega)
      rwa [Int.natCast_add, ← Int.add_assoc, ← Int.add_assoc] at hbyte
    rw [readAll, readAll, hrest, read_congr ht.1 fun k hk => h k (by omega)]

end

mutual

/-- **A value is known by its leaves**, which are where their offsets say. -/
theorem read_eq_of_leaves : ∀ {t : Ty} {a b : Int} {k : Nat},
    (∀ l ∈ t.leavesFrom k, M.read m (a + l.2) l.1 = M.read m' (b + l.2) l.1) →
    M.read m (a + k) t = M.read m' (b + k) t
  | .tuple ts, a, b, k, h => by
    rw [read, read, readAll_eq_of_leaves h]
  | .void, _, _, k, h | .int, _, _, k, h | .double, _, _, k, h | .string, _, _, k, h
  | .pointer _, _, _, k, h | .auto, _, _, k, h => h (_, k) (List.mem_singleton_self _)

/-- As `read_eq_of_leaves`, for several values. -/
theorem readAll_eq_of_leaves : ∀ {ts : List Ty} {a b : Int} {k : Nat},
    (∀ l ∈ Ty.leavesOfAllFrom k ts, M.read m (a + l.2) l.1 = M.read m' (b + l.2) l.1) →
      M.readAll m (a + k) ts = M.readAll m' (b + k) ts
  | [], _, _, _, _ => by rw [readAll, readAll]
  | t :: ts, a, b, k, h => by
    rw [Ty.leavesOfAllFrom, List.forall_mem_append] at h
    have hrest := readAll_eq_of_leaves h.2
    rw [Int.natCast_add, ← Int.add_assoc, ← Int.add_assoc] at hrest
    rw [readAll, readAll, hrest, read_eq_of_leaves h.1]

end

/-- A value that is left alone stays as it is. -/
theorem read_of_agree {t : Ty} {a : Int} (ht : t.Solid)
    (h : ∀ b, a ≤ b → b < a + t.size → m' b = m b) :
    M.read m' a t = M.read m a t :=
  read_congr ht fun k hk => h _ (by omega) (by omega)

/-- **The component of a tuple is found at its offset.** -/
theorem readAll_getElem? {ts : List Ty} {a : Int} {i : Nat} {t : Ty} (ht : ts[i]? = some t) :
    (M.readAll m a ts)[i]? = some (M.read m (a + Ty.sizeOfAll (ts.take i)) t) := by
  induction ts generalizing a i with
  | nil => cases ht
  | cons u ts ih =>
    rw [readAll]
    cases i with
    | zero =>
      cases ht
      simp [Ty.sizeOfAll]
    | succ i =>
      rw [List.getElem?_cons_succ] at ht ⊢
      rw [ih ht, List.take_succ_cons, Ty.sizeOfAll, Int.natCast_add, Int.add_assoc]

/-- A component lies within its tuple. -/
theorem sizeOfAll_take_le {ts : List Ty} {i : Nat} {t : Ty} (ht : ts[i]? = some t) :
    Ty.sizeOfAll (ts.take i) + t.size ≤ Ty.sizeOfAll ts := by
  induction ts generalizing i with
  | nil => cases ht
  | cons u ts ih =>
    cases i with
    | zero =>
      cases ht
      simp [Ty.sizeOfAll]
    | succ i =>
      rw [List.getElem?_cons_succ] at ht
      have := ih ht
      rw [List.take_succ_cons, Ty.sizeOfAll, Ty.sizeOfAll]
      omega

end Machine

end PostfixCompiler
