/-
A library that keeps the laws.

The reader of `JsonReader`, a reader of values and a writer, put together as what is asked of
`serde_json` (`reference`, `reference_laws`).  A float is read as the nearest one and written by
its first 17 digits.  It is not `serde_json`: it is there to show that the laws can be kept.
-/
import RosUtils.SerdeJson

open ExceptState JsonText JsonWriter

namespace JsonReader

/-! ### Values are read -/

/-- A value, where `d` is one more than the arrays and objects that may still be entered. -/
def value (num : NumberText → Option Number) (res : Option String) : ℕ → ℕ → Parser Value
  | 0, _ => throw .recursionLimitExceeded
  | d + 1, n => do
    match ← peek with
    | none => throw .eofWhileParsingValue
    | some c =>
      if c = 'n' then do
        ident "null".toList
        pure .null
      else if c = 't' then do
        ident "true".toList
        pure (.bool true)
      else if c = 'f' then do
        ident "false".toList
        pure (.bool false)
      else if c = '"' then do
        eat
        Value.string <$> str n
      else if c = '[' then do
        eat
        if d = 0 then throw .recursionLimitExceeded
        else Value.array <$> listOf (value num res d n) n
      else if c = '{' then do
        eat
        if d = 0 then throw .recursionLimitExceeded
        else do
          let ms ← objectOf (member (str n) (value num res d n)) n
          if ∀ m ∈ ms.head?, some m.1 ≠ res then pure (.object (Map.ofList ms))
          else throw .invalidType
      else if c = '-' ∨ c.isDigit then do
        let t ← number
        match num t with
        | some x => pure (.number x)
        | none => throw .numberOutOfRange
      else throw .expectedSomeValue

theorem value_sound (num : NumberText → Option Number) (res : Option String) (d n : ℕ) :
    Sound (value num res d n) (ValueOf num res d) := by
  -- by induction on the depth: what stands inside is read one level further down
  induction d with
  | zero => exact fun _ _ _ h => absurd h run_throw_ne_ok
  | succ d ih =>
    intro s v t h
    obtain ⟨_, _, hpeek, hrest⟩ := run_bind_ok.mp h
    cases hpeek
    cases s with
    | nil => exact absurd hrest run_throw_ne_ok
    | cons c s =>
      have hword : ∀ {w : Text} {a : Value},
          (do ident w; pure a : Parser Value).run (c :: s) = .ok (v, t) →
          a = v ∧ c :: s = w ++ t := by
        intro w a hw
        obtain ⟨_, _, hident, hpure⟩ := run_bind_ok.mp hw
        obtain ⟨rfl, rfl⟩ := run_pure_ok.mp hpure
        exact ⟨rfl, ident_ok.mp hident⟩
      dsimp only [List.head?_cons] at hrest
      -- the first character decides what is read
      split_ifs at hrest with hn ht hf hquote hbracket hd hbrace hd hnum
      · obtain ⟨rfl, hs⟩ := hword hrest
        exact ⟨_, hs, .null⟩
      · obtain ⟨rfl, hs⟩ := hword hrest
        exact ⟨_, hs, .true⟩
      · obtain ⟨rfl, hs⟩ := hword hrest
        exact ⟨_, hs, .false⟩
      · obtain ⟨_, _, heat, hrest⟩ := run_bind_ok.mp hrest
        cases heat
        obtain ⟨x, hx, rfl⟩ := run_map_ok.mp hrest
        obtain ⟨k, rfl, hk⟩ := str_sound hx
        exact ⟨c :: k, rfl, .string (hquote ▸ hk)⟩
      · obtain ⟨_, _, heat, hrest⟩ := run_bind_ok.mp hrest
        exact absurd hrest run_throw_ne_ok
      · obtain ⟨_, _, heat, hrest⟩ := run_bind_ok.mp hrest
        cases heat
        obtain ⟨vs, hvs, rfl⟩ := run_map_ok.mp hrest
        obtain ⟨o, rfl, ho⟩ := list_sound (l := '[') ih hvs
        subst hbracket
        exact ⟨_, rfl, .array hd ho⟩
      · obtain ⟨_, _, heat, hrest⟩ := run_bind_ok.mp hrest
        exact absurd hrest run_throw_ne_ok
      · obtain ⟨_, _, heat, hrest⟩ := run_bind_ok.mp hrest
        cases heat
        obtain ⟨ms, u, hms, hobject⟩ := run_bind_ok.mp hrest
        obtain ⟨o, rfl, ho⟩ := list_sound (l := '{') (member_sound (N := StringOf)
          (fun _ _ _ h => str_sound h) ih) hms
        split_ifs at hobject with hfirst
        · obtain ⟨rfl, rfl⟩ := run_pure_ok.mp hobject
          subst hbrace
          exact ⟨_, rfl, .object hd hfirst ho⟩
        · exact absurd hobject run_throw_ne_ok
      · obtain ⟨y, u, hy, hrest⟩ := run_bind_ok.mp hrest
        obtain ⟨_, hs, rfl, hwf⟩ := number_sound hy
        cases hx : num y with
        | none =>
          rw [hx] at hrest
          exact absurd hrest run_throw_ne_ok
        | some x =>
          rw [hx] at hrest
          obtain ⟨rfl, rfl⟩ := run_pure_ok.mp hrest
          exact ⟨_, hs, .number hwf hx⟩
      · exact absurd hrest run_throw_ne_ok

theorem value_complete (num : NumberText → Option Number) (res : Option String) (d n : ℕ) :
    Complete n (value num res d n) (ValueOf num res d) := by
  induction d with
  | zero => exact fun _ _ h => h.elim
  | succ d ih =>
    intro v s h hn t ht
    cases h with
    | null => rfl
    | true => rfl
    | false => rfl
    | string h =>
      obtain ⟨k, rfl, hrun⟩ := str_named h hn
      exact run_map_of_ok (hrun t)
    | number hwf hx =>
      obtain ⟨c, s, hs, hc⟩ := number_begins hwf
      -- neither a digit nor a minus sign is tried for anything else
      obtain ⟨h1, h2, h3, h4, h5, h6, h7⟩ := number_branch c hc
      have hnum := number_complete _ ⟨rfl, hwf⟩ (le_refl _) ht
      rw [value, run_bind_of_ok (peek_run _)]
      rw [hs, List.cons_append] at hnum ⊢
      rw [List.head?_cons]
      dsimp only
      rw [if_neg h1, if_neg h2, if_neg h3, if_neg h4, if_neg h5, if_neg h6, if_pos h7,
        run_bind_of_ok hnum, hx]
      rfl
    | array hd h =>
      obtain ⟨o, rfl⟩ := enclosed_begins h
      have hrun := listOf_complete ih (begins_of_isValue (by decide) isValue_of_valueOf) h
        (Nat.le_of_succ_le hn) ht
      show (if d = 0 then throw .recursionLimitExceeded
        else Value.array <$> listOf (value num res d n) n : Parser Value).run (o ++ t) = _
      rw [if_neg hd]
      exact run_map_of_ok hrun
    | @object ms o hd hfirst h =>
      obtain ⟨o, rfl⟩ := enclosed_begins h
      have hmember := member_complete str_named ih
        (begins_of_isValue (by decide) isValue_of_valueOf)
      have hrun := objectOf_complete hmember (begins_named stringOf_begins) h
        (Nat.le_of_succ_le hn) ht
      show (if d = 0 then throw .recursionLimitExceeded else do
        let ms ← objectOf (member (str n) (value num res d n)) n
        if ∀ m ∈ ms.head?, some m.1 ≠ res then pure (.object (Map.ofList ms))
        else throw .invalidType : Parser Value).run (o ++ t) = _
      rw [if_neg hd, run_bind_of_ok hrun, if_pos hfirst]
      rfl

/-- Numbers that are read alike stand for the same, and what stands inside may be forgotten. -/
theorem ValueStep.mono {num num' : NumberText → Option Number} {res : Option String} {d d' : ℕ}
    {V V' : Value → Text → Prop} (hnum : ∀ ⦃t x⦄, t.WF → num t = some x → num' t = some x)
    (hd : d ≠ 0 → d' ≠ 0) (hV : ∀ ⦃x s⦄, V x s → V' x s) {x : Value} {v : Text}
    (h : ValueStep num res d V x v) : ValueStep num' res d' V' x v := by
  cases h with
  | null => exact .null
  | true => exact .true
  | false => exact .false
  | string h => exact .string h
  | number ht hx => exact .number ht (hnum ht hx)
  | array hne h =>
    refine .array (hd hne) (h.forall₂ (R := Eq) ?_ (List.forall₂_same.mpr fun _ _ => rfl))
    rintro x _ s rfl hx
    exact hV hx
  | object hne hfirst h =>
    refine .object (hd hne) hfirst (h.forall₂ (R := Eq) ?_ (List.forall₂_same.mpr fun _ _ => rfl))
    rintro m _ s rfl ⟨k, w, w', v, hs, hk, hw, hw', hv⟩
    exact ⟨k, w, w', v, hs, hk, hw, hw', hV hv⟩

theorem ValueOf.mono {num num' : NumberText → Option Number} {res : Option String}
    (hnum : ∀ ⦃t x⦄, t.WF → num t = some x → num' t = some x) {d : ℕ} ⦃x : Value⦄ ⦃v : Text⦄
    (h : ValueOf num res d x v) : ValueOf num' res d x v := by
  induction d generalizing x v with
  | zero => exact h.elim
  | succ d ih => exact ValueStep.mono hnum id (fun _ _ h => ih h) h

/-! ### Numbers are read -/

open Classical in
/-- An integer of 64 bits is kept; any other number in the range of the floats is rounded. -/
noncomputable def readNumber (t : NumberText) : Option Number :=
  match integerOf t with
  | some k => some (.int k)
  | none =>
    if ∃ f : F64, |numberValue t| ≤ |f.value| then
      some (.float (F64.exists_nearest (numberValue t)).choose)
    else none

theorem readNumber_of_integerOf {t : NumberText} {k : Integer} (h : integerOf t = some k) :
    readNumber t = some (.int k) := by
  rw [readNumber, h]

theorem readNumber_eq_float {t : NumberText} {n : Number} (hnone : integerOf t = none)
    (h : readNumber t = some n) : ∃ f, n = .float f ∧ F64.Nearest (numberValue t) f := by
  rw [readNumber, hnone] at h
  dsimp only at h
  split_ifs at h
  cases h
  exact ⟨_, rfl, (F64.exists_nearest (numberValue t)).choose_spec⟩

theorem two_pow_lt : (2 : ℚ) ^ 1024 < ((10 : ℤ) : ℚ) ^ 309 := by
  calc (2 : ℚ) ^ 1024 = (2 ^ 128) ^ 8 := by rw [← pow_mul]
    _ ≤ (3403 * 10 ^ 35) ^ 8 := by gcongr; norm_num
    _ = 3403 ^ 8 * 10 ^ 280 := by rw [mul_pow, ← pow_mul]
    _ < 10 ^ 29 * 10 ^ 280 := by gcongr; norm_num
    _ = ((10 : ℤ) : ℚ) ^ 309 := by rw [← pow_add, Int.cast_ofNat]

theorem readNumber_beyond {t : NumberText} {z : ℤ} (ht : IntegerText t z)
    (hz : 10 ^ 309 ≤ |z|) : readNumber t = none := by
  have hnone : integerOf t = none := by
    rw [Option.eq_none_iff_forall_ne_some]
    intro k hk
    have hval := ht.val_of_integerOf hk
    have hlower := k.lower
    have hupper := k.upper
    rw [← hval] at hz
    have habs : |k.val| < 10 ^ 309 := abs_lt.mpr ⟨by omega, by omega⟩
    omega
  rw [readNumber, hnone]
  refine if_neg ?_
  rintro ⟨f, hf⟩
  rw [ht.numberValue_eq] at hf
  have hvalue := f.abs_value_lt
  have hbig : ((10 ^ 309 : ℤ) : ℚ) ≤ |(z : ℚ)| := by
    rw [← Int.cast_abs]
    exact Int.cast_le.mpr hz
  rw [Int.cast_pow] at hbig
  exact absurd (hbig.trans (hf.trans hvalue.le)) (not_le.mpr two_pow_lt)

theorem readNumber_minusZero {t : NumberText} (ht : IntegerText t 0) (hminus : t.minus = true) :
    ∃ f : F64, readNumber t = some (.float f) ∧ f.value = 0 := by
  have hnone : integerOf t = none := by
    rw [ht.integerOf_eq, if_pos ⟨hminus, rfl⟩]
  have hzero : numberValue t = (default : F64).value := by
    rw [ht.numberValue_eq, F64.value_default]
  have hread : readNumber t = some (.float (F64.exists_nearest (numberValue t)).choose) := by
    rw [readNumber, hnone]
    exact if_pos ⟨default, le_of_eq (by rw [hzero])⟩
  obtain ⟨f, hf, hnearest⟩ := readNumber_eq_float hnone hread
  cases hf
  rw [hzero] at hnearest
  refine ⟨_, hread, ?_⟩
  rw [hzero, hnearest.eq_value, F64.value_default, Int.cast_zero]

end JsonReader

namespace JsonWriter

open JsonReader

/-! ### Strings are written -/

/-- A character of a string: escaped by a short name, by its code, or not at all. -/
def escapeChar (c : Char) : Text :=
  if c = '"' then "\\\"".toList
  else if c = '\\' then "\\\\".toList
  else if c = '\x08' then "\\b".toList
  else if c = '\x0c' then "\\f".toList
  else if c = '\n' then "\\n".toList
  else if c = '\r' then "\\r".toList
  else if c = '\t' then "\\t".toList
  else if c.toNat < 0x20 then
    ['\\', 'u', '0', '0', Nat.digitChar (c.toNat / 16), Nat.digitChar (c.toNat % 16)]
  else [c]

def writeStr (s : String) : Text := '"' :: (s.toList.flatMap escapeChar ++ ['"'])

theorem hex4_control : ∀ n < 0x20,
    hex4 '0' '0' (Nat.digitChar (n / 16)) (Nat.digitChar (n % 16)) = some n := by
  decide

/-- A code unit that is no surrogate is a character. -/
theorem assemble_unit {u : ℕ} (hu : u < 0x20) (ps : List Piece) :
    assemble (.unit u :: ps) = (Char.ofNat u :: ·) <$> assemble ps := by
  have hhigh : isHigh u = false := by
    simp only [isHigh, Bool.and_eq_false_iff, decide_eq_false_iff_not]
    omega
  have hlow : isLow u = false := by
    simp only [isLow, Bool.and_eq_false_iff, decide_eq_false_iff_not]
    omega
  cases ps with
  | nil => simp [assemble, hhigh, hlow]
  | cons p ps =>
    cases p with
    | char c => simp [assemble, hhigh, hlow]
    | unit v => simp [assemble, hhigh, hlow]

/-- An escaped character is a piece that stands for it. -/
theorem spelled_escapeChar (c : Char) :
    ∃ p, Spelled (escapeChar c) p ∧ ∀ ps, assemble (p :: ps) = (c :: ·) <$> assemble ps := by
  rw [escapeChar]
  split_ifs with h1 h2 h3 h4 h5 h6 h7 h8
  · exact ⟨.char c, h1 ▸ .escaped rfl, fun _ => rfl⟩
  · exact ⟨.char c, h2 ▸ .escaped rfl, fun _ => rfl⟩
  · exact ⟨.char c, h3 ▸ .escaped rfl, fun _ => rfl⟩
  · exact ⟨.char c, h4 ▸ .escaped rfl, fun _ => rfl⟩
  · exact ⟨.char c, h5 ▸ .escaped rfl, fun _ => rfl⟩
  · exact ⟨.char c, h6 ▸ .escaped rfl, fun _ => rfl⟩
  · exact ⟨.char c, h7 ▸ .escaped rfl, fun _ => rfl⟩
  · refine ⟨.unit c.toNat, .unicode (hex4_control c.toNat h8), fun ps => ?_⟩
    rw [assemble_unit h8, Char.ofNat_toNat]
  · exact ⟨.char c, .unescaped c (Nat.not_lt.mp h8) h1 h2, fun _ => rfl⟩

/-- **A string is read back.** -/
theorem strIs_writeStr (s : String) : StrIs (writeStr s) s := by
  have hspell : ∀ cs : Text, ∃ ps, Spell (cs.flatMap escapeChar) ps ∧ assemble ps = some cs := by
    intro cs
    induction cs with
    | nil => exact ⟨[], .nil, rfl⟩
    | cons c cs ih =>
      obtain ⟨ps, hps, hcs⟩ := ih
      obtain ⟨p, hp, hc⟩ := spelled_escapeChar c
      refine ⟨p :: ps, .cons hp hps, ?_⟩
      rw [hc, hcs]
      rfl
  obtain ⟨ps, hps, hs⟩ := hspell s.toList
  exact ⟨ps, ⟨_, rfl, hps⟩, hs⟩

/-! ### Numbers are written -/

/-- A float as an integer and a power of ten. -/
def decimalOf (f : F64) : ℕ × ℤ :=
  if 0 ≤ f.power then (f.significand * 2 ^ f.power.toNat, 0)
  else (f.significand * 5 ^ (-f.power).toNat, f.power)

def exponentText (z : ℤ) : Text :=
  if z < 0 then 'e' :: '-' :: Nat.toDigits 10 z.natAbs else 'e' :: '+' :: Nat.toDigits 10 z.natAbs

/-- How many of the digits are left out. -/
def surplus (n : ℕ) : ℕ := Nat.log 10 n + 1 - 17

/-- The first 17 digits of a float. -/
def floatText (f : F64) : NumberText :=
  let (n, e) := decimalOf f
  ⟨f.negative, Nat.toDigits 10 (n / 10 ^ surplus n), [], exponentText (e + surplus n)⟩

def writeNumber : Number → Text
  | .int k => writeInt k.val
  | .float f => (floatText f).text

theorem exponentOf_exponentText (z : ℤ) : exponentOf (exponentText z) = z := by
  rw [exponentText]
  split_ifs with hz
  · rw [exponentOf, natOf_toDigits]
    omega
  · rw [exponentOf, natOf_toDigits]
    omega

theorem exp_exponentText (z : ℤ) : Exp (exponentText z) := by
  rw [exponentText]
  split_ifs
  · exact .inr ⟨'e', ['-'], _, rfl, .inl rfl, .inr (.inr rfl), digits_toDigits _⟩
  · exact .inr ⟨'e', ['+'], _, rfl, .inl rfl, .inr (.inl rfl), digits_toDigits _⟩

theorem floatText_wf (f : F64) : (floatText f).WF :=
  ⟨int_toDigits _, .inl rfl, exp_exponentText _⟩

theorem numberValue_floatText (f : F64) : numberValue (floatText f) =
    (if f.negative then -1 else 1) * ((decimalOf f).1 / 10 ^ surplus (decimalOf f).1 : ℕ) *
      10 ^ ((decimalOf f).2 + surplus (decimalOf f).1) := by
  rw [numberValue, floatText]
  dsimp only [List.tail_nil]
  rw [List.append_nil, natOf_toDigits, exponentOf_exponentText, List.length_nil, Nat.cast_zero,
    sub_zero]

/-- Not more than 17 digits are left. -/
theorem div_surplus_lt (n : ℕ) : n / 10 ^ surplus n < 10 ^ 17 := by
  refine Nat.div_lt_of_lt_mul ?_
  rw [← pow_add]
  calc n < 10 ^ (Nat.log 10 n + 1) := Nat.lt_pow_succ_log_self (by decide) n
    _ ≤ 10 ^ (surplus n + 17) := Nat.pow_le_pow_right (by decide) (by rw [surplus]; omega)

theorem shortDecimal_floatText (f : F64) : ShortDecimal (numberValue (floatText f)) := by
  have hlt := div_surplus_lt (decimalOf f).1
  rw [numberValue_floatText]
  generalize (decimalOf f).1 / 10 ^ surplus (decimalOf f).1 = m at hlt
  refine ⟨(if f.negative then -1 else 1) * m, (decimalOf f).2 + surplus (decimalOf f).1, ?_, ?_⟩
  · have hm : |(m : ℤ)| < 10 ^ 17 := by
      rw [abs_of_nonneg (Int.natCast_nonneg m)]
      exact_mod_cast hlt
    cases f.negative <;> simpa using hm
  · push_cast
    rfl

/-- Zero is written as zero. -/
theorem numberValue_floatText_of_zero {f : F64} (h : f.value = 0) :
    numberValue (floatText f) = 0 := by
  have hsig : f.significand = 0 := by
    rw [F64.value, mul_eq_zero, mul_eq_zero] at h
    rcases h with h | h | h
    · cases hneg : f.negative <;> simp [hneg] at h
    · exact_mod_cast h
    · exact absurd h (zpow_ne_zero _ (by norm_num))
  have hzero : (decimalOf f).1 = 0 := by
    rw [decimalOf, hsig]
    split_ifs <;> simp
  rw [numberValue_floatText, hzero]
  simp

theorem isValue_writeNumber (n : Number) : IsValue (writeNumber n) := by
  cases n with
  | int k => exact isValue_writeInt k.val
  | float f => exact isValue_number (floatText_wf f)

theorem isValue_writeStr (s : String) : IsValue (writeStr s) :=
  isValue_iff.mpr (.inr (.inr (.inl ⟨_, (strIs_writeStr s).choose_spec.1⟩)))

/-! ### Values are written -/

mutual

/-- A value. -/
def writeValue : Value → Text
  | .null => "null".toList
  | .bool true => "true".toList
  | .bool false => "false".toList
  | .number n => writeNumber n
  | .string s => writeStr s
  | .array vs => arrayText (writeElements vs)
  | .object ms => objectText (writeMembers ms)

def writeElements : List Value → List Text
  | [] => []
  | v :: vs => writeValue v :: writeElements vs

def writeMembers : List (String × Value) → List (Text × Text)
  | [] => []
  | (k, v) :: ms => (writeStr k, writeValue v) :: writeMembers ms

end

mutual

theorem isValue_writeValue : ∀ v, IsValue (writeValue v)
  | .null => isValue_iff.mpr (.inl (by simp [writeValue, literals]))
  | .bool true => isValue_iff.mpr (.inl (by simp [writeValue, literals]))
  | .bool false => isValue_iff.mpr (.inl (by simp [writeValue, literals]))
  | .number n => by
    rw [writeValue]
    exact isValue_writeNumber n
  | .string s => by
    rw [writeValue]
    exact isValue_writeStr s
  | .array vs => by
    rw [writeValue]
    exact isValue_iff.mpr (.inr (.inr (.inr (.inr ⟨_, arrayOf_arrayText
      (isValue_writeElements vs)⟩))))
  | .object ms => by
    rw [writeValue]
    exact isValue_iff.mpr (.inr (.inr (.inr (.inl ⟨_, objectOf_objectText
      (isValue_writeMembers ms)⟩))))

theorem isValue_writeElements :
    ∀ vs, ∀ v ∈ writeElements vs, IsValue v
  | [] => by
    rw [writeElements]
    nofun
  | v :: vs => by
    rw [writeElements, List.forall_mem_cons]
    exact ⟨isValue_writeValue v, isValue_writeElements vs⟩

theorem isValue_writeMembers :
    ∀ ms, ∀ m ∈ writeMembers ms, (∃ x, StrIs m.1 x) ∧ IsValue m.2
  | [] => by
    rw [writeMembers]
    nofun
  | (k, v) :: ms => by
    rw [writeMembers, List.forall_mem_cons]
    exact ⟨⟨⟨k, strIs_writeStr k⟩, isValue_writeValue v⟩, isValue_writeMembers ms⟩

end

theorem writeElements_eq (vs : List Value) :
    writeElements vs = vs.map writeValue := by
  induction vs with
  | nil => rw [writeElements, List.map_nil]
  | cons v vs ih => rw [writeElements, List.map_cons, ih]

theorem writeMembers_eq (ms : List (String × Value)) :
    writeMembers ms = ms.map fun m => (writeStr m.1, writeValue m.2) := by
  induction ms with
  | nil => rw [writeMembers, List.map_nil]
  | cons m ms ih => rw [writeMembers, List.map_cons, ih]

/-- **A value without floats is read back**, above the depth the reader goes to. -/
theorem valueOf_writeValue {num : NumberText → Option Number} {res : Option String}
    (hnum : ∀ k : Integer, num (intText k.val) = some (.int k)) {d : ℕ} {v : Value}
    (h : SerdeJson.Plain res d v) : ValueOf num res (d + 1) v (writeValue v) := by
  induction h with
  | null => exact .null
  | bool b => cases b <;> simp only [writeValue] <;> constructor
  | int k =>
    rw [writeValue, writeNumber, writeInt_eq]
    exact ValueStep.number (integerText_intText k.val).wf (hnum k)
  | string s =>
    rw [writeValue]
    exact .string (strIs_writeStr s)
  | array _ ih =>
    rw [writeValue, writeElements_eq]
    exact .array (Nat.succ_ne_zero _) (enclosed_join
      (List.forall₂_map_right_iff.mpr (List.forall₂_same.mpr ih)))
  | @object d ms hs hfirst _ ih =>
    rw [writeValue, writeMembers_eq]
    have hmembers : List.Forall₂ (fun x m => StrIs m.1 x.1 ∧ ValueOf num res (d + 1) x.2 m.2) ms
        (ms.map fun m => (writeStr m.1, writeValue m.2)) :=
      List.forall₂_map_right_iff.mpr
        (List.forall₂_same.mpr fun m hm => ⟨strIs_writeStr m.1, ih m hm⟩)
    have hstep : ValueStep num res (d + 1) (ValueOf num res (d + 1)) (.object (Map.ofList ms)) _ :=
      .object (Nat.succ_ne_zero d) hfirst (enclosed_objectText hmembers)
    rwa [hs.ofList_eq] at hstep

end JsonWriter

/-! ### The library -/

namespace SerdeJson

open JsonReader

/-- The reader and the writer together. -/
noncomputable def reference : SerdeJson where
  reserved := some reservedName
  Error := ErrorCode
  display := ErrorCode.display
  rawValue := fromStr JsonReader.rawValue
  rawArray := fromStr JsonReader.rawArray
  rawObject text := Map.ofList <$> fromStr JsonReader.rawObject text
  string := fromStr JsonReader.string
  value := fromStr (JsonReader.value readNumber (some reservedName) recursionLimit)
  writeStr := JsonWriter.writeStr
  writeNumber := JsonWriter.writeNumber
  writeNone := "null".toList
  writeValue := JsonWriter.writeValue

theorem reference_value {text : Text} {x : Value} :
    reference.value text = .ok x ↔
      Padded (ValueOf readNumber (some reservedName) recursionLimit) x text :=
  fromStr_ok (value_sound _ _ _) (value_complete _ _ _) isValue_of_valueOf

theorem reference_value_self {v : Text} (hv : IsValue v) {x : Value} :
    reference.value v = .ok x ↔ ValueOf readNumber (some reservedName) recursionLimit x v := by
  rw [reference_value, padded_iff isValue_of_valueOf (padded_self hv)]

/-- A literal is read as the number it is. -/
theorem reference_number {t : NumberText} (ht : t.WF) : reference.number t = readNumber t := by
  refine Option.ext fun n => ?_
  rw [number_eq_some, reference_value_self (isValue_number ht)]
  constructor
  · intro h
    generalize hv : t.text = v at h
    obtain ⟨c, s, hcs, hc⟩ := number_begins ht
    cases h with
    | number ht' hn =>
      obtain rfl := text_injective ht ht' hv
      exact hn
  · exact fun h => ValueStep.number ht h

theorem reference_laws : reference.Laws where
  reserved _ hname := (Option.some.inj hname).symm
  rawValue := fromStr_ok rawValue_sound rawValue_complete isValue_of_elementOf
  rawArray := fromStr_ok rawArray_sound rawArray_complete isValue_of_arrayOf
  rawObject := by
    intro text members
    rw [reference]
    dsimp only
    rw [except_map_ok]
    refine exists_congr fun pairs => ?_
    rw [fromStr_ok rawObject_sound rawObject_complete isValue_of_namesOf, eq_comm (a := members)]
  string := fromStr_ok string_sound string_complete isValue_of_strIs
  value := by
    rintro text x ⟨w, v, w', htext, hw, hv, hw'⟩
    have hread : ValueOf readNumber (some reservedName) recursionLimit x v :=
      hv.mono fun t n ht hn => (reference_number ht).symm.trans hn
    exact reference_value.mpr ⟨w, v, w', htext, hw, hread, hw'⟩
  kind hv _ hx := by
    have hvalue := (reference_value_self hv).mp hx
    exact ValueStep.mono (d := 127) (fun t n ht hn => (reference_number ht).trans hn)
      (fun _ => one_ne_zero)
      (fun _ _ _ => trivial) hvalue
  integer ht hk := (reference_number ht).trans (readNumber_of_integerOf hk)
  float ht hnone hn := by
    rw [reference_number ht] at hn
    obtain ⟨f, hf, -⟩ := readNumber_eq_float hnone hn
    exact ⟨f, hf⟩
  beyond ht hz := (reference_number ht.wf).trans (readNumber_beyond ht hz)
  minusZero ht hminus := by
    obtain ⟨f, hf, hzero⟩ := readNumber_minusZero ht hminus
    exact ⟨.float f, JsonWriter.floatText f, (reference_number ht.wf).trans hf,
      JsonWriter.floatText_wf f, rfl, JsonWriter.numberValue_floatText_of_zero hzero⟩
  writeStr := JsonWriter.strIs_writeStr
  writeInteger _ := rfl
  writeFloat f := ⟨JsonWriter.floatText f, JsonWriter.floatText_wf f, rfl,
    JsonWriter.shortDecimal_floatText f⟩
  writeNone := rfl
  writeValue := JsonWriter.isValue_writeValue
  writePlain := by
    intro d x hx
    refine JsonWriter.valueOf_writeValue (fun k => ?_) hx
    exact (reference_number (integerText_intText k.val).wf).trans
      (readNumber_of_integerOf (integerOf_intText k))

end SerdeJson
