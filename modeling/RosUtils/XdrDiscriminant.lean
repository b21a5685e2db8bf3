/-
The discriminants that the derives assign.

A variant's value is the literal it is declared with, else the value of the variant before
it plus one, and `0` for the first.  `discriminants` computes the values as `i32`.  It
works one value ahead, and negates a literal after it has parsed it, so it refuses two
values that an `i32` has: `discriminantsFrom_ok` says exactly what it accepts.
-/
import RosUtils.XdrDerive

namespace Xdr

/-! ### The values that are declared -/

/-- A variant without a discriminant, or with a literal or a negated literal for one. -/
def VariantDecl.Literal (v : VariantDecl) : Prop :=
  v.discriminant = none ∨
    ∃ n, v.discriminant = some (.lit n) ∨ v.discriminant = some (.neg (.lit n))

/-- The value of a variant, where `next` is the one it has by its place. -/
def VariantDecl.value (v : VariantDecl) (next : ℤ) : ℤ :=
  match v.discriminant with
  | some (.lit n) => n
  | some (.neg (.lit n)) => -n
  | _ => next

/-- The values of the variants, the first of which has the value `next` by its place. -/
def valuesFrom (next : ℤ) : List VariantDecl → List ℤ
  | [] => []
  | v :: vs => v.value next :: valuesFrom (v.value next + 1) vs

/-- The values of the variants of an enum. -/
def values (vs : List VariantDecl) : List ℤ := valuesFrom 0 vs

/-- A number that an `i32` has. -/
def IsI32 (x : ℤ) : Prop := -2 ^ 31 ≤ x ∧ x < 2 ^ 31

instance (x : ℤ) : Decidable (IsI32 x) := inferInstanceAs (Decidable (_ ∧ _))

/-- The assignment is the declared one: it succeeds exactly when every value is an `i32`, and
then it gives the values. -/
structure AssignsValues (vs : List VariantDecl) : Prop where
  succeeds : (∃ l, discriminants vs = .ok l) ↔ ∀ x ∈ values vs, IsI32 x
  returns : ∀ l, discriminants vs = .ok l → l.map Int32.toInt = values vs

/-! ### What the code accepts -/

theorem isI32_toInt (v : Int32) : IsI32 v.toInt := ⟨v.le_toInt, v.toInt_lt⟩

/-- A parsed literal is the number it is. -/
theorem base10ParseI32_ok {n : ℕ} {v : Int32} :
    base10ParseI32 n = .ok v ↔ v.toInt = n := by
  rw [base10ParseI32]
  by_cases hn : n < 2 ^ 31
  · rw [if_pos hn, Except.ok.injEq, ← Int32.toInt_inj, Int32.toInt_ofNat_of_lt hn, eq_comm]
  · rw [if_neg hn]
    refine iff_of_false (fun h => by cases h) (fun h => hn ?_)
    have := v.toInt_lt
    omega

/-- Every number but the least has its negation. -/
theorem toInt_neg {v : Int32} (h : v.toInt ≠ -2 ^ 31) : (-v).toInt = -v.toInt := by
  have hle := v.le_toInt
  have hlt := v.toInt_lt
  rw [Int32.toInt_neg, Int.bmod_eq_of_le] <;> omega

/-- The literal `-2147483648`: its number is an `i32`, but not before it is negated. -/
def VariantDecl.IsMin (v : VariantDecl) : Prop := v.discriminant = some (.neg (.lit (2 ^ 31)))

theorem parseDisc_neg_ok {n : ℕ} {v : Int32} :
    parseDisc (.neg (.lit n)) = .ok v ↔ v.toInt = -n ∧ n ≠ 2 ^ 31 := by
  rw [parseDisc]
  constructor
  · intro h
    cases hparse : base10ParseI32 n with
    | error e =>
      rw [hparse] at h
      cases h
    | ok w =>
      rw [hparse] at h
      cases h
      have hw := base10ParseI32_ok.mp hparse
      have hlt := w.toInt_lt
      exact ⟨by rw [toInt_neg (by omega), hw], by omega⟩
  · rintro ⟨hv, hn⟩
    -- the number is parsed before it is negated
    have hle := v.le_toInt
    have hneg : (-v).toInt = n := by rw [toInt_neg (by omega), hv, neg_neg]
    rw [base10ParseI32_ok.mpr hneg]
    exact congrArg Except.ok Int32.neg_neg

/-- A variant gets its value, unless that is not an `i32` or is written as the literal
`-2147483648`. -/
theorem disc_ok {v : VariantDecl} (h : v.Literal) {next value : Int32} :
    v.disc next = .ok value ↔ value.toInt = v.value next.toInt ∧ ¬ v.IsMin := by
  rw [VariantDecl.disc, VariantDecl.value, VariantDecl.IsMin]
  obtain hnone | ⟨n, hlit | hneg⟩ := h
  · rw [hnone]
    simp only [Except.ok.injEq, reduceCtorEq, not_false_eq_true, and_true]
    rw [Int32.toInt_inj, eq_comm]
  · rw [hlit]
    simp only [Option.some.injEq, reduceCtorEq, not_false_eq_true, and_true]
    exact base10ParseI32_ok
  · rw [hneg]
    simp only [Option.some.injEq, DiscExpr.neg.injEq, DiscExpr.lit.injEq]
    exact parseDisc_neg_ok

theorem checkedSucc_ok {v next : Int32} :
    checkedSucc v = .ok next ↔ next.toInt = v.toInt + 1 := by
  have hone : (1 : Int32).toInt = 1 := rfl
  have hle := v.le_toInt
  rw [checkedSucc]
  by_cases hv : v.toInt < 2 ^ 31 - 1
  · have hsucc : (v + 1).toInt = v.toInt + 1 := by
      rw [Int32.toInt_add, hone, Int.bmod_eq_of_le] <;> omega
    rw [if_pos hv, Except.ok.injEq, ← Int32.toInt_inj, hsucc, eq_comm]
  · rw [if_neg hv]
    refine iff_of_false (fun h => by cases h) (fun h => ?_)
    have := next.toInt_lt
    omega

/-- One round of the loop. -/
theorem discriminantsFrom_cons {v : VariantDecl} {vs : List VariantDecl} {next : Int32}
    {l : List Int32} :
    discriminantsFrom next (v :: vs) = .ok l ↔
      ∃ value next' l', v.disc next = .ok value ∧ checkedSucc value = .ok next' ∧
        discriminantsFrom next' vs = .ok l' ∧ l = value :: l' := by
  constructor
  · intro h
    obtain ⟨value, hdisc, h⟩ := ExceptState.except_bind_ok.mp h
    obtain ⟨next', hsucc, h⟩ := ExceptState.except_bind_ok.mp h
    obtain ⟨l', hrest, rfl⟩ := ExceptState.except_map_ok.mp h
    exact ⟨value, next', l', hdisc, hsucc, hrest, rfl⟩
  · rintro ⟨value, next', l', hdisc, hsucc, hrest, rfl⟩
    refine ExceptState.except_bind_ok.mpr ⟨value, hdisc, ?_⟩
    refine ExceptState.except_bind_ok.mpr ⟨next', hsucc, ?_⟩
    exact ExceptState.except_map_ok.mpr ⟨l', hrest, rfl⟩

/-- **What the loop accepts**: values that are all `i32`, of which none is the greatest, since
the next one is computed before it is known to be wanted, and none is written as the
literal `-2147483648`. -/
theorem discriminantsFrom_ok {vs : List VariantDecl} (h : ∀ v ∈ vs, v.Literal) {next : Int32}
    {l : List Int32} :
    discriminantsFrom next vs = .ok l ↔
      l.map Int32.toInt = valuesFrom next.toInt vs ∧
        (∀ x ∈ valuesFrom next.toInt vs, x ≠ 2 ^ 31 - 1) ∧ ∀ v ∈ vs, ¬ v.IsMin := by
  induction vs generalizing next l with
  | nil =>
    rw [discriminantsFrom, valuesFrom, Except.ok.injEq, List.map_eq_nil_iff, eq_comm]
    simp
  | cons v vs ih =>
    obtain ⟨hv, hvs⟩ := List.forall_mem_cons.mp h
    rw [valuesFrom, List.forall_mem_cons, List.forall_mem_cons]
    constructor
    · intro hrun
      obtain ⟨value, next', l', hdisc, hsucc, hrest, rfl⟩ := discriminantsFrom_cons.mp hrun
      obtain ⟨hvalue, hmin⟩ := (disc_ok hv).mp hdisc
      have hnext := checkedSucc_ok.mp hsucc
      obtain ⟨hmap, hmax, hmins⟩ := (ih hvs).mp hrest
      rw [hnext, hvalue] at hmap hmax
      have hlt := next'.toInt_lt
      refine ⟨?_, ⟨?_, hmax⟩, hmin, hmins⟩
      · rw [List.map_cons, hmap, hvalue]
      · rw [← hvalue]
        omega
    · rintro ⟨hmap, ⟨hne, hmax⟩, hmin, hmins⟩
      obtain ⟨value, l', rfl, hvalue, hmap⟩ := List.map_eq_cons_iff.mp hmap
      -- the next value is an `i32`, since this one is not the greatest
      have hlt := value.toInt_lt
      have hle := value.le_toInt
      have hsucc : (Int32.ofInt (value.toInt + 1)).toInt = value.toInt + 1 :=
        Int32.toInt_ofInt_of_le (by omega) (by omega)
      rw [← hvalue, ← hsucc] at hmap hmax
      exact discriminantsFrom_cons.mpr ⟨value, _, l', (disc_ok hv).mpr ⟨hvalue, hmin⟩,
        checkedSucc_ok.mpr hsucc, (ih hvs).mpr ⟨hmap, hmax, hmins⟩, rfl⟩

/-- Numbers that are all `i32` are the values of a list of them. -/
theorem exists_map_toInt {xs : List ℤ} : (∃ l : List Int32, l.map Int32.toInt = xs) ↔
    ∀ x ∈ xs, IsI32 x := by
  constructor
  · rintro ⟨l, rfl⟩ x hx
    obtain ⟨v, -, rfl⟩ := List.mem_map.mp hx
    exact isI32_toInt v
  · intro h
    refine ⟨xs.map Int32.ofInt, ?_⟩
    rw [List.map_map]
    calc xs.map (Int32.toInt ∘ Int32.ofInt) = xs.map id :=
          List.map_congr_left fun x hx => Int32.toInt_ofInt_of_le (h x hx).1 (h x hx).2
      _ = xs := List.map_id xs

/-- No variant has the greatest value of an `i32`, and none is declared as `-2147483648`. -/
def AvoidsEnds (vs : List VariantDecl) : Prop :=
  (∀ x ∈ values vs, x ≠ 2 ^ 31 - 1) ∧ ∀ v ∈ vs, ¬ v.IsMin

theorem discriminants_ok {vs : List VariantDecl} (h : ∀ v ∈ vs, v.Literal) {l : List Int32} :
    discriminants vs = .ok l ↔ l.map Int32.toInt = values vs ∧ AvoidsEnds vs :=
  discriminantsFrom_ok h

/-- **The derives assign the declared values exactly when**, if the values are all `i32`, none
of them is the greatest and none is written as `-2147483648`. -/
theorem assignsValues_iff {vs : List VariantDecl} (h : ∀ v ∈ vs, v.Literal) :
    AssignsValues vs ↔ ((∀ x ∈ values vs, IsI32 x) → AvoidsEnds vs) := by
  constructor
  · intro hassigns hall
    obtain ⟨l, hl⟩ := hassigns.succeeds.mpr hall
    exact ((discriminants_ok h).mp hl).2
  · intro havoids
    refine ⟨⟨?_, ?_⟩, fun l hl => ((discriminants_ok h).mp hl).1⟩
    · rintro ⟨l, hl⟩
      exact exists_map_toInt.mp ⟨l, ((discriminants_ok h).mp hl).1⟩
    · intro hall
      obtain ⟨l, hl⟩ := exists_map_toInt.mpr hall
      exact ⟨l, (discriminants_ok h).mpr ⟨hl, havoids hall⟩⟩

/-- A variant without fields. -/
def bare (discriminant : Option DiscExpr) : VariantDecl := ⟨discriminant, [], .unit⟩

/-- `enum E { A = 4, B, C = -1 }` -/
def gaps : List VariantDecl := [bare (some (.lit 4)), bare none, bare (some (.neg (.lit 1)))]

theorem assignsValues_gaps : AssignsValues gaps ∧ values gaps = [4, 5, -1] := by
  have hliteral : ∀ v ∈ gaps, v.Literal := by
    intro v hv
    simp only [gaps, List.mem_cons, List.not_mem_nil, or_false] at hv
    obtain rfl | rfl | rfl := hv
    · exact .inr ⟨4, .inl rfl⟩
    · exact .inl rfl
    · exact .inr ⟨1, .inr rfl⟩
  have hvalues : values gaps = [4, 5, -1] := rfl
  refine ⟨(assignsValues_iff hliteral).mpr fun _ => ⟨?_, ?_⟩, hvalues⟩
  · rw [hvalues]
    decide
  · intro v hv hmin
    simp only [gaps, List.mem_cons, List.not_mem_nil, or_false] at hv
    obtain rfl | rfl | rfl := hv
    · cases hmin
    · cases hmin
    · have hone : (1 : ℕ) = 2 ^ 31 := DiscExpr.lit.inj (DiscExpr.neg.inj (Option.some.inj hmin))
      omega

/-- One variant with the greatest value, and one with the least: neither is assigned. -/
theorem ends_refused :
    ¬ AssignsValues [bare (some (.lit 2147483647))] ∧
      ¬ AssignsValues [bare (some (.neg (.lit 2147483648)))] := by
  constructor
  · intro h
    obtain ⟨l, hl⟩ := h.succeeds.mpr (by decide)
    cases hl
  · intro h
    obtain ⟨l, hl⟩ := h.succeeds.mpr (by decide)
    cases hl

end Xdr
