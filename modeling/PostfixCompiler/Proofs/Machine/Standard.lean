import Mathlib.Algebra.Order.Ring.Nat
import PostfixCompiler.Proofs.Machine.Memory

/-!
# The machine of 32 bits

What is proved of all postfix machines holds of the one that the code is meant for: its words have
32 bits and wrap around, its doubles are floating point numbers of 64 bits, and both lie in memory
with the least byte first. Where labels are placed is left open.

All that has to be known of it is that addresses which fit into 32 bits are words.

## Main definitions

* `PostfixCompiler.Codec.ofBits`: bit vectors as bytes.
* `PostfixCompiler.Machine.standard`: the machine of 32 bits.

## Main statements

* `PostfixCompiler.Machine.addresses_standard`: addresses that fit into 32 bits are words of this
  machine.
-/

namespace PostfixCompiler

namespace Codec

/-- The number that some bytes make, the least one first. -/
def number : (n : Nat) → (Fin n → BitVec 8) → Nat
  | 0, _ => 0
  | n + 1, bs => (bs 0).toNat + 256 * number n fun k => bs k.succ

theorem number_digits (n x : Nat) :
    (number n fun k => BitVec.ofNat 8 (x / 256 ^ k.val)) = x % 256 ^ n := by
  induction n generalizing x with
  | zero => rw [number, pow_zero, Nat.mod_one]
  | succ n ih =>
    have hrest : (fun k : Fin n => BitVec.ofNat 8 (x / 256 ^ k.succ.val)) =
        fun k => BitVec.ofNat 8 (x / 256 / 256 ^ k.val) := by
      funext k
      rw [Fin.val_succ, pow_succ', Nat.div_div_eq_div_mul]
    rw [number, hrest, ih, pow_succ', Nat.mod_mul]
    simp

/-- Bit vectors as bytes, the least byte first. -/
def ofBits (n : Nat) : Codec (BitVec 8) (BitVec (8 * n)) n where
  encode v k := .ofNat 8 (v.toNat / 256 ^ k.val)
  decode bs := .ofNat (8 * n) (number n bs)
  decode_encode v := by
    have hpow : 256 ^ n = 2 ^ (8 * n) := by rw [pow_mul]; rfl
    rw [number_digits, hpow, Nat.mod_eq_of_lt v.isLt, BitVec.ofNat_toNat, BitVec.setWidth_eq]

/-- Values that can be had back from other ones, as the bytes of these. -/
def map {Byte V W : Type} {n : Nat} (c : Codec Byte V n) (f : W → V) (g : V → W)
    (h : ∀ w, g (f w) = w) :
    Codec Byte W n where
  encode w := c.encode (f w)
  decode bs := g (c.decode bs)
  decode_encode w := by rw [c.decode_encode, h]

end Codec

namespace Machine

/-- A truth value as a word. -/
def flag (b : Bool) : BitVec 32 := if b then 1 else 0

/-- What an operator computes from two words of 32 bits. -/
def standardWords (op : BinaryOp) (a b : BitVec 32) : BitVec 32 :=
  match op with
  | .add => a + b
  | .sub => a - b
  | .mul => a * b
  | .div => a.sdiv b
  | .mod => a.srem b
  | .lt => flag (a.slt b)
  | .le => flag (a.sle b)
  | .ge => flag (b.sle a)
  | .gt => flag (b.slt a)
  | .eq => flag (a == b)
  | .ne => flag (a != b)
  | .and => a &&& b
  | .or => a ||| b

/-- The floating point number that a double is. -/
def toFloat (d : Double) : Float := .ofBits d.bits

/-- What an operator computes from two doubles: only the operators of arithmetic are used. -/
def standardReals (op : BinaryOp) (a b : Double) : Double :=
  match op with
  | .add => .ofFloat (toFloat a + toFloat b)
  | .sub => .ofFloat (toFloat a - toFloat b)
  | .mul => .ofFloat (toFloat a * toFloat b)
  | .div => .ofFloat (toFloat a / toFloat b)
  | .mod | .lt | .le | .ge | .gt | .eq | .ne | .and | .or => a

/-- **The machine of 32 bits**, with labels placed somewhere. -/
def standard (labels : String → BitVec 32) : Machine where
  Byte := BitVec 8
  Word := BitVec 32
  Real := Double
  word := .ofBits 4
  real := (Codec.ofBits 8).map (fun d : Double => d.bits.toBitVec) (fun v => ⟨⟨v⟩⟩) fun _ => rfl
  ofInt := BitVec.ofInt 32
  toInt := BitVec.toInt
  ofDouble d := d
  label := labels
  isZero w := w == 0
  words := standardWords
  negWord w := -w
  reals := standardReals
  negReal d := .ofFloat (-toFloat d)
  widen w := .ofInt w.toInt
  compare a b := if toFloat a < toFloat b then -1 else flag (toFloat a > toFloat b)

/-- **Addresses that fit into 32 bits are words** of this machine. -/
theorem addresses_standard (labels : String → BitVec 32) {low high : Int} (hlow : -2 ^ 31 ≤ low)
    (hhigh : high < 2 ^ 31) :
    (standard labels).Addresses low high where
  toInt_ofInt a ha ha' := by
    change (BitVec.ofInt 32 a).toInt = a
    rw [BitVec.toInt_ofInt, Int.bmod_eq_of_le]
    · omega
    · omega
  add a n _ _ := (BitVec.ofInt_add a n).symm

end Machine

end PostfixCompiler
