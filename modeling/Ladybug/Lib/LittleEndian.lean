import Mathlib.Tactic.Ring

/-!
# Numbers as little-endian bytes

`encode w n` are the `w` lowest bytes of `n`, the lowest first, and `decode` is the number that a
sequence of bytes stands for.

* `decode_encode`: decoding the bytes of `n` gives `n` modulo `256 ^ w`;
* `decode_encode_of_lt`: and `n` itself when it fits.
-/

namespace LittleEndian

/-- The `w` lowest bytes of a number, the lowest first. -/
def encode : ℕ → ℕ → List UInt8
  | 0, _ => []
  | w + 1, n => UInt8.ofNat n :: encode w (n / 256)

/-- The number that a sequence of bytes stands for. -/
def decode : List UInt8 → ℕ
  | [] => 0
  | b :: bytes => b.toNat + 256 * decode bytes

@[simp] lemma length_encode (w n : ℕ) : (encode w n).length = w := by
  induction w generalizing n with
  | zero => rfl
  | succ w ih => rw [encode, List.length_cons, ih]

lemma decode_encode (w n : ℕ) : decode (encode w n) = n % 256 ^ w := by
  induction w generalizing n with
  | zero => rw [encode, decode, pow_zero, Nat.mod_one]
  | succ w ih =>
    have hbyte : (UInt8.ofNat n).toNat = n % 256 := by simp
    rw [encode, decode, ih, hbyte, pow_succ, Nat.mul_comm (256 ^ w), Nat.mod_mul]

lemma decode_encode_of_lt {w n : ℕ} (h : n < 256 ^ w) : decode (encode w n) = n := by
  rw [decode_encode, Nat.mod_eq_of_lt h]

end LittleEndian
