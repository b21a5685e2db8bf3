/-
The finite numbers of the binary format of 64 bits.

A finite number is its sign, its biased exponent and its fraction; the exponent
that is kept for the infinities is not among the values of the field.
-/
import Mathlib.Tactic

/-- A finite number: the biased exponent 2047 is left to the infinities. -/
structure F64 where
  negative : Bool
  exponent : Fin 2047
  fraction : Fin (2 ^ 52)
  deriving DecidableEq, Repr

namespace F64

/-- The digits of a number, with the leading one that is not stored. -/
def significand (f : F64) : ℕ :=
  if f.exponent.val = 0 then f.fraction.val else 2 ^ 52 + f.fraction.val

/-- The power of two of the last digit. -/
def power (f : F64) : ℤ := if f.exponent.val = 0 then -1074 else f.exponent.val - 1075

def value (f : F64) : ℚ := (if f.negative then -1 else 1) * (f.significand * 2 ^ f.power)

theorem significand_lt (f : F64) : f.significand < 2 ^ 53 := by
  have hfraction := f.fraction.isLt
  rw [significand]
  split_ifs <;> omega

theorem abs_value (f : F64) : |f.value| = f.significand * 2 ^ f.power := by
  have hnonneg : (0 : ℚ) ≤ f.significand * 2 ^ f.power := by positivity
  rw [value, abs_mul, abs_of_nonneg hnonneg]
  cases f.negative <;> simp

theorem abs_value_lt (f : F64) : |f.value| < 2 ^ 1024 := by
  have hsig : (f.significand : ℚ) < 2 ^ 53 := by exact_mod_cast f.significand_lt
  have hpower : f.power ≤ 971 := by
    have hexp := f.exponent.isLt
    rw [power]
    split_ifs <;> omega
  have hpow : (2 : ℚ) ^ f.power ≤ 2 ^ 971 := by
    exact_mod_cast zpow_le_zpow_right₀ (by norm_num : (1 : ℚ) ≤ 2) hpower
  rw [abs_value]
  calc (f.significand : ℚ) * 2 ^ f.power < 2 ^ 53 * 2 ^ f.power := by gcongr
    _ ≤ 2 ^ 53 * 2 ^ 971 := by gcongr
    _ = 2 ^ 1024 := by rw [← pow_add]

/-! ### The nearest number -/

instance : Finite F64 := by
  refine Finite.of_injective (fun f : F64 => (f.negative, f.exponent, f.fraction)) ?_
  rintro ⟨n, e, m⟩ ⟨n', e', m'⟩ h
  cases h
  rfl

instance : Inhabited F64 := ⟨⟨false, 0, 0⟩⟩

theorem value_default : (default : F64).value = ((0 : ℤ) : ℚ) := by
  simp [value, significand, default]

/-- No finite number is nearer to `q`. -/
def Nearest (q : ℚ) (f : F64) : Prop := ∀ g : F64, |q - f.value| ≤ |q - g.value|

theorem exists_nearest (q : ℚ) : ∃ f, Nearest q f := Finite.exists_min fun g : F64 => |q - g.value|

theorem Nearest.eq_value {f g : F64} (h : Nearest g.value f) : f.value = g.value := by
  have hle := h g
  rw [sub_self, abs_zero] at hle
  exact (sub_eq_zero.mp (abs_nonpos_iff.mp hle)).symm

end F64
