/-
Big-endian words.

`toBe k n` writes the low `k` bytes of `n`, most significant first, and
`ofBe b` reads a byte string as the number it spells.  The two are inverse to
each other on strings of a fixed length:

* `ofBe_toBe` — reading back a number below `256 ^ k` written in `k` bytes;
* `toBe_ofBe` — writing back what a string of length `k` spells.

Fixed-width integers are the cases `k = 2`, `k = 4` and `k = 8`.
-/
import Mathlib.Tactic

namespace BigEndian

/-- The low `k` bytes of `n`, most significant first. -/
def toBe : ℕ → ℕ → List UInt8
  | 0, _ => []
  | k + 1, n => UInt8.ofNat (n / 256 ^ k) :: toBe k n

/-- The number a byte string spells, most significant byte first. -/
def ofBe : List UInt8 → ℕ
  | [] => 0
  | x :: b => x.toNat * 256 ^ b.length + ofBe b

@[simp] theorem toBe_length (k n : ℕ) : (toBe k n).length = k := by
  induction k with
  | zero => rfl
  | succ k ih => simp [toBe, ih]

theorem ofBe_lt (b : List UInt8) : ofBe b < 256 ^ b.length := by
  induction b with
  | nil => simp [ofBe]
  | cons x b ih =>
    have hx : x.toNat + 1 ≤ 256 := x.toNat_lt
    calc ofBe (x :: b)
        < x.toNat * 256 ^ b.length + 256 ^ b.length := Nat.add_lt_add_left ih _
      _ = (x.toNat + 1) * 256 ^ b.length := by ring
      _ ≤ 256 * 256 ^ b.length := Nat.mul_le_mul_right _ hx
      _ = 256 ^ (x :: b).length := by rw [List.length_cons, pow_succ, mul_comm]

/-- Only the low `k` bytes of the number are written. -/
theorem toBe_mod (k n : ℕ) : ∀ j, k ≤ j → toBe k (n % 256 ^ j) = toBe k n := by
  induction k with
  | zero => exact fun _ _ => rfl
  | succ k ih =>
    intro j hj
    rw [toBe, toBe, ih j (by omega)]
    congr 1
    obtain ⟨i, rfl⟩ : ∃ i, j = k + 1 + i := ⟨j - (k + 1), by omega⟩
    have hsplit : (256 : ℕ) ^ (k + 1 + i) = 256 ^ k * (256 * 256 ^ i) := by ring
    rw [hsplit, Nat.mod_mul_right_div_self]
    apply UInt8.toNat_inj.mp
    simp only [UInt8.toNat_ofNat']
    exact Nat.mod_mul_right_mod _ _ _

theorem ofBe_toBe_mod (k n : ℕ) : ofBe (toBe k n) = n % 256 ^ k := by
  induction k with
  | zero => simp [toBe, ofBe, Nat.mod_one]
  | succ k ih =>
    have hmod : n % 256 ^ (k + 1) = n % 256 ^ k + 256 ^ k * (n / 256 ^ k % 256) := by
      rw [pow_succ, Nat.mod_mul]
    rw [toBe, ofBe, ih, toBe_length, UInt8.toNat_ofNat', hmod, Nat.add_comm, Nat.mul_comm]

/-- **Reading back what was written.** -/
theorem ofBe_toBe {k n : ℕ} (h : n < 256 ^ k) : ofBe (toBe k n) = n := by
  rw [ofBe_toBe_mod, Nat.mod_eq_of_lt h]

/-- **Writing back what was read.** -/
theorem toBe_ofBe (b : List UInt8) : toBe b.length (ofBe b) = b := by
  induction b with
  | nil => rfl
  | cons x b ih =>
    have hb := ofBe_lt b
    have hpos : 0 < 256 ^ b.length := by positivity
    have hmod : ofBe (x :: b) % 256 ^ b.length = ofBe b := by
      rw [ofBe, Nat.mul_comm, Nat.mul_add_mod, Nat.mod_eq_of_lt hb]
    have hdiv : ofBe (x :: b) / 256 ^ b.length = x.toNat := by
      rw [ofBe, Nat.add_comm, Nat.add_mul_div_right _ _ hpos, Nat.div_eq_of_lt hb, zero_add]
    rw [List.length_cons, toBe, hdiv, ← toBe_mod b.length _ b.length le_rfl, hmod, ih]
    simp

/-! ### The widths of a word -/

/-- `u16::to_be_bytes`. -/
def u16ToBe (w : UInt16) : List UInt8 := toBe 2 w.toNat

/-- `u16::from_be_bytes`, on a string of any length. -/
def u16OfBe (b : List UInt8) : UInt16 := UInt16.ofNat (ofBe b)

/-- `u32::to_be_bytes`. -/
def u32ToBe (w : UInt32) : List UInt8 := toBe 4 w.toNat

/-- `u32::from_be_bytes`, on a string of any length. -/
def u32OfBe (b : List UInt8) : UInt32 := UInt32.ofNat (ofBe b)

/-- `u64::to_be_bytes`. -/
def u64ToBe (w : UInt64) : List UInt8 := toBe 8 w.toNat

/-- `u64::from_be_bytes`, on a string of any length. -/
def u64OfBe (b : List UInt8) : UInt64 := UInt64.ofNat (ofBe b)

@[simp] theorem u32ToBe_length (w : UInt32) : (u32ToBe w).length = 4 := toBe_length 4 _

@[simp] theorem u64ToBe_length (w : UInt64) : (u64ToBe w).length = 8 := toBe_length 8 _

@[simp] theorem u16OfBe_u16ToBe (w : UInt16) : u16OfBe (u16ToBe w) = w := by
  have hw : w.toNat < 256 ^ 2 := w.toNat_lt
  rw [u16OfBe, u16ToBe, ofBe_toBe hw, UInt16.ofNat_toNat]

@[simp] theorem u32OfBe_u32ToBe (w : UInt32) : u32OfBe (u32ToBe w) = w := by
  have hw : w.toNat < 256 ^ 4 := w.toNat_lt
  rw [u32OfBe, u32ToBe, ofBe_toBe hw, UInt32.ofNat_toNat]

@[simp] theorem u64OfBe_u64ToBe (w : UInt64) : u64OfBe (u64ToBe w) = w := by
  have hw : w.toNat < 256 ^ 8 := w.toNat_lt
  rw [u64OfBe, u64ToBe, ofBe_toBe hw, UInt64.ofNat_toNat]

theorem u16ToBe_u16OfBe {b : List UInt8} (h : b.length = 2) : u16ToBe (u16OfBe b) = b := by
  have hb := ofBe_lt b
  rw [h] at hb
  rw [u16ToBe, u16OfBe, UInt16.toNat_ofNat_of_lt' hb, ← h, toBe_ofBe]

theorem u32ToBe_u32OfBe {b : List UInt8} (h : b.length = 4) : u32ToBe (u32OfBe b) = b := by
  have hb := ofBe_lt b
  rw [h] at hb
  rw [u32ToBe, u32OfBe, UInt32.toNat_ofNat_of_lt' hb, ← h, toBe_ofBe]

theorem u64ToBe_u64OfBe {b : List UInt8} (h : b.length = 8) : u64ToBe (u64OfBe b) = b := by
  have hb := ofBe_lt b
  rw [h] at hb
  rw [u64ToBe, u64OfBe, UInt64.toNat_ofNat_of_lt' hb, ← h, toBe_ofBe]

end BigEndian
