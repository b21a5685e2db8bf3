/-
Arithmetic of words modulo a power of two.

Ciphers and hashes are defined over the numbers below `2 ^ w`: addition modulo `2 ^ w`,
rotation, and exclusive or.  `add` and `rotl` are these operations on `ℕ`; machine words
rotate as `rotl` does (`toNat_rotl`).
-/
import Mathlib.Tactic

namespace ModWord

/-- Addition modulo `2 ^ w`. -/
def add (w x y : ℕ) : ℕ := (x + y) % 2 ^ w

/-- Rotation by `r` bits towards the high end: the high `r` bits come back as the low ones. -/
def rotl (w r x : ℕ) : ℕ := x * 2 ^ r % 2 ^ w + x / 2 ^ (w - r)

/-- The rotation of a bit vector is the rotation of its number. -/
theorem toNat_rotl {w r : ℕ} (hr : r < w) (x : BitVec w) :
    (x.rotateLeft r).toNat = rotl w r x.toNat := by
  have hsplit : (2 : ℕ) ^ w = 2 ^ (w - r) * 2 ^ r := by
    rw [← pow_add]
    congr 1
    omega
  -- the bits that come back fill the `r` low ones
  have hlow : x.toNat / 2 ^ (w - r) < 2 ^ r := by
    apply Nat.div_lt_of_lt_mul
    rw [← hsplit]
    exact x.isLt
  have hhigh : x.toNat * 2 ^ r % 2 ^ w = (x.toNat % 2 ^ (w - r)) <<< r := by
    rw [hsplit, Nat.mul_mod_mul_right, Nat.shiftLeft_eq]
  rw [BitVec.toNat_rotateLeft, Nat.mod_eq_of_lt hr, Nat.shiftLeft_eq, Nat.shiftRight_eq_div_pow,
    rotl, hhigh, Nat.shiftLeft_add_eq_or_of_lt hlow]

end ModWord
