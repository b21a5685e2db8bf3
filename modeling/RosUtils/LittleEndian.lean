/-
Little-endian words.

`ofLe b` reads a byte string as the number it spells, least significant byte first.  As a sum
over the positions of the string (`ofLe_eq_sum`) it needs no induction on the string, which is
how formats define their words.
-/
import Mathlib.Tactic
import Mathlib.Algebra.BigOperators.Intervals

namespace LittleEndian

/-- The number a byte string spells, least significant byte first. -/
def ofLe : List UInt8 → ℕ
  | [] => 0
  | x :: b => x.toNat + 256 * ofLe b

theorem ofLe_lt (b : List UInt8) : ofLe b < 256 ^ b.length := by
  induction b with
  | nil => simp [ofLe]
  | cons x b ih =>
    have hx : x.toNat < 256 := x.toNat_lt
    rw [ofLe, List.length_cons, pow_succ]
    omega

/-- The byte at a position counts with its power of 256. -/
theorem ofLe_eq_sum (b : List UInt8) :
    ofLe b = ∑ j ∈ Finset.range b.length, (b.getD j 0).toNat * 256 ^ j := by
  induction b with
  | nil => rfl
  | cons x b ih =>
    rw [ofLe, List.length_cons, Finset.sum_range_succ', ih, Finset.mul_sum]
    have hshift : ∀ j, ((x :: b).getD (j + 1) 0).toNat * 256 ^ (j + 1) =
        256 * ((b.getD j 0).toNat * 256 ^ j) := by
      intro j
      rw [List.getD_cons_succ, pow_succ]
      ring
    simp only [hshift, List.getD_cons_zero, pow_zero, mul_one]
    exact Nat.add_comm _ _

/-- `u64::from_le_bytes`, on a string of any length. -/
def u64OfLe (b : List UInt8) : UInt64 := UInt64.ofNat (ofLe b)

theorem toNat_u64OfLe {b : List UInt8} (h : b.length = 8) : (u64OfLe b).toNat = ofLe b := by
  have hb := ofLe_lt b
  rw [h] at hb
  exact UInt64.toNat_ofNat_of_lt' hb

/-- Strings of one length are told apart by the numbers they spell. -/
theorem ofLe_injective {b b' : List UInt8} (hlen : b.length = b'.length)
    (h : ofLe b = ofLe b') : b = b' := by
  induction b generalizing b' with
  | nil => exact (List.length_eq_zero_iff.mp hlen.symm).symm
  | cons x b ih =>
    obtain _ | ⟨x', b'⟩ := b'
    · cases hlen
    have hx : x.toNat < 256 := x.toNat_lt
    have hx' : x'.toNat < 256 := x'.toNat_lt
    rw [ofLe, ofLe] at h
    have hhead : x = x' := UInt8.toNat_inj.mp (by omega)
    have htail : b = b' := ih (Nat.succ.inj hlen) (by omega)
    rw [hhead, htail]

theorem u64OfLe_injective {b b' : List UInt8} (hb : b.length = 8) (hb' : b'.length = 8)
    (h : u64OfLe b = u64OfLe b') : b = b' := by
  have hnat := congrArg UInt64.toNat h
  rw [toNat_u64OfLe hb, toNat_u64OfLe hb'] at hnat
  exact ofLe_injective (hb.trans hb'.symm) hnat

/-! ### Writing -/

/-- The bytes of a number, least significant first. -/
def toLe : ℕ → ℕ → List UInt8
  | 0, _ => []
  | n + 1, v => UInt8.ofNat v :: toLe n (v / 256)

theorem ofLe_toLe {n v : ℕ} (h : v < 256 ^ n) : ofLe (toLe n v) = v := by
  induction n generalizing v with
  | zero =>
    rw [pow_zero] at h
    rw [toLe, ofLe]
    omega
  | succ n ih =>
    have hdiv : v / 256 < 256 ^ n := by
      rw [pow_succ] at h
      omega
    rw [toLe, ofLe, ih hdiv, UInt8.toNat_ofNat']
    omega

end LittleEndian
