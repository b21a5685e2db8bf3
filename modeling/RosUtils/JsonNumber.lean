/-
The numbers that JSON texts stand for.

`numberValue` is the rational a number stands for, and `IntegerText` says that a number is
the literal of an integer.  An integer is written in decimal (`writeInt`), and the literal is
read as the integer again (`integerOf_intText`).
-/
import RosUtils.JsonValue

open JsonText

namespace JsonReader

/-! ### The value of a number -/

/-- The exponent of ten, if any. -/
def exponentOf : Text → ℤ
  | [] => 0
  | _ :: '-' :: ds => -natOf ds
  | _ :: '+' :: ds => natOf ds
  | _ :: ds => natOf ds

/-- The rational that a number stands for. -/
def numberValue (t : NumberText) : ℚ :=
  (if t.minus then -1 else 1) * natOf (t.int ++ t.frac.tail) *
    10 ^ (exponentOf t.exp - t.frac.tail.length)

/-- A number without fraction and exponent, and the integer it stands for. -/
structure IntegerText (t : NumberText) (z : ℤ) : Prop where
  wf : t.WF
  frac : t.frac = []
  exp : t.exp = []
  val : z = if t.minus then -(natOf t.int : ℤ) else natOf t.int

theorem IntegerText.numberValue_eq {t : NumberText} {z : ℤ} (h : IntegerText t z) :
    numberValue t = z := by
  rw [numberValue, h.frac, h.exp, h.val]
  cases t.minus <;> simp [exponentOf]

theorem Integer.ofInt_eq_some {z : ℤ} {n : Integer} : Integer.ofInt z = some n ↔ n.val = z := by
  rw [Integer.ofInt]
  constructor
  · intro h
    split_ifs at h
    cases h
    rfl
  · rintro rfl
    exact dif_pos ⟨n.lower, n.upper⟩

/-- Which integers are kept as such. -/
theorem IntegerText.integerOf_eq {t : NumberText} {z : ℤ} (h : IntegerText t z) :
    integerOf t = if t.minus = true ∧ z = 0 then none else Integer.ofInt z := by
  rw [integerOf, if_pos ⟨h.frac, h.exp⟩, h.val]
  cases t.minus with
  | false => simp
  | true =>
    by_cases hzero : natOf t.int = 0
    · simp [hzero]
    · simp [hzero]

theorem IntegerText.val_of_integerOf {t : NumberText} {z : ℤ} (h : IntegerText t z) {k : Integer}
    (hk : integerOf t = some k) : k.val = z := by
  rw [h.integerOf_eq] at hk
  split_ifs at hk
  exact Integer.ofInt_eq_some.mp hk

theorem IntegerText.eq_zero_of_integerOf {t : NumberText} {z : ℤ} (h : IntegerText t z)
    (hfits : -2 ^ 63 ≤ z ∧ z < 2 ^ 64) (hnone : integerOf t = none) : z = 0 := by
  rw [h.integerOf_eq] at hnone
  split_ifs at hnone with hzero
  · exact hzero.2
  · rw [Integer.ofInt, dif_pos hfits] at hnone
    cases hnone

/-! ### Digits -/

theorem natOf_toDigits (n : ℕ) : natOf (Nat.toDigits 10 n) = n := Nat.ofDigitChars_ten_toDigits

theorem digits_toDigits (n : ℕ) : Digits (Nat.toDigits 10 n) :=
  ⟨Nat.toDigits_ne_nil, fun _ hc => Nat.isDigit_of_mem_toDigits (by decide) (by decide) hc⟩

/-- The first digit of a positive number is not zero. -/
theorem head_toDigits (n : ℕ) (hn : 0 < n) : (Nat.toDigits 10 n).head? ≠ some '0' := by
  induction n using Nat.strong_induction_on with
  | _ n ih =>
    by_cases hlt : n < 10
    · rw [Nat.toDigits_of_lt_base hlt]
      interval_cases n <;> decide
    · rw [Nat.toDigits_of_base_le (by decide) (Nat.not_lt.mp hlt),
        List.head?_append_of_ne_nil _ Nat.toDigits_ne_nil]
      exact ih (n / 10) (by omega) (by omega)

theorem int_toDigits (n : ℕ) : Int (Nat.toDigits 10 n) := by
  refine ⟨digits_toDigits n, fun hhead => ?_⟩
  rcases Nat.eq_zero_or_pos n with rfl | hn
  · rfl
  · exact absurd hhead (head_toDigits n hn)

/-! ### Integers in decimal -/

/-- An integer in decimal, as `to_string` writes it. -/
def writeInt (z : ℤ) : Text :=
  if z < 0 then '-' :: Nat.toDigits 10 z.natAbs else Nat.toDigits 10 z.natAbs

/-- The parts of an integer that is written. -/
def intText (z : ℤ) : NumberText := ⟨z < 0, Nat.toDigits 10 z.natAbs, [], []⟩

theorem writeInt_eq (z : ℤ) : writeInt z = (intText z).text := by
  by_cases hz : z < 0 <;> simp [writeInt, intText, NumberText.text, hz]

theorem integerText_intText (z : ℤ) : IntegerText (intText z) z := by
  refine ⟨⟨int_toDigits _, .inl rfl, .inl rfl⟩, rfl, rfl, ?_⟩
  rw [intText]
  dsimp only
  rw [natOf_toDigits]
  split_ifs with hz
  · have hneg := of_decide_eq_true hz
    omega
  · have hnonneg : ¬ z < 0 := fun h => hz (decide_eq_true h)
    omega

/-- **An integer is read back.** -/
theorem integerOf_intText (n : Integer) : integerOf (intText n.val) = some n := by
  rw [(integerText_intText n.val).integerOf_eq, if_neg]
  · exact Integer.ofInt_eq_some.mpr rfl
  · rintro ⟨hminus, hzero⟩
    have hneg : n.val < 0 := of_decide_eq_true hminus
    omega

theorem isValue_number {t : NumberText} (h : t.WF) : IsValue t.text :=
  isValue_iff.mpr (.inr (.inl ⟨t, h, rfl⟩))

theorem isValue_writeInt (z : ℤ) : IsValue (writeInt z) := by
  rw [writeInt_eq]
  exact isValue_number (integerText_intText z).wf

/-! ### Few digits -/

/-- At most 17 digits and a power of ten. -/
def ShortDecimal (q : ℚ) : Prop := ∃ m e : ℤ, |m| < 10 ^ 17 ∧ q = m * 10 ^ e

/-- An integer with few digits is small or has a zero at its end. -/
theorem ShortDecimal.small_or_dvd {z : ℤ} (h : ShortDecimal z) : |z| < 10 ^ 17 ∨ 10 ∣ z := by
  obtain ⟨m, e, hm, hz⟩ := h
  rcases lt_or_ge 0 e with hpos | hneg
  · obtain ⟨n, rfl⟩ : ∃ n : ℕ, e = (n + 1 : ℕ) := ⟨(e - 1).toNat, by omega⟩
    rw [zpow_natCast] at hz
    have hint : z = m * 10 ^ (n + 1) := by exact_mod_cast hz
    exact .inr ⟨m * 10 ^ n, by rw [hint]; ring⟩
  · left
    have hpow : (10 : ℚ) ^ e ≤ 1 := zpow_le_one_of_nonpos₀ (by norm_num) hneg
    have habs : |(z : ℚ)| ≤ |(m : ℚ)| := by
      rw [hz, abs_mul, abs_of_nonneg (by positivity : (0 : ℚ) ≤ 10 ^ e)]
      exact mul_le_of_le_one_right (abs_nonneg _) hpow
    have hle : |z| ≤ |m| := by exact_mod_cast habs
    exact hle.trans_lt hm

end JsonReader
