/-
What the crate asks of `serde_json`.

The library is not part of the crate, so it is a parameter here: `SerdeJson` has the functions
the crate calls, and `SerdeJson.Laws` says what is relied on.  The laws are RFC 8259 where the
library follows it, and leave open where it does not:

* a raw value is checked against the grammar, while a name or a string is decoded, and that
  fails when its code units make no characters;
* nothing is said about an object that begins with a name the library has reserved, and does
  not read as an object;
* an integer of 64 bits is kept, and any other literal is read as some float.  It need not be the
  nearest, and what is written of a float has at most 17 digits, not the value of the float.
-/
import RosUtils.JsonNumber
import RosUtils.JsonWriter

open ExceptState JsonText JsonReader JsonWriter

/-- The functions of `serde_json` that are called. -/
structure SerdeJson where
  /-- The name that makes it take an object for a raw value, if there is one: `reservedName`,
  with the feature `raw_value`.  What reads RFC 8259 throughout has none. -/
  reserved : Option String
  /-- `Error`. -/
  Error : Type
  /-- `Error::to_string`. -/
  display : Error → String
  /-- `from_str::<&RawValue>`. -/
  rawValue : Text → Except Error Text
  /-- `from_str::<Vec<&RawValue>>`. -/
  rawArray : Text → Except Error (List Text)
  /-- `from_str::<BTreeMap<String, &RawValue>>`. -/
  rawObject : Text → Except Error (Map Text)
  /-- `from_str::<String>`. -/
  string : Text → Except Error String
  /-- `from_str::<Value>`. -/
  value : Text → Except Error Value
  /-- `to_writer` of a `str`.  The sink is a `Vec`, so that writing does not fail. -/
  writeStr : String → Text
  /-- `to_writer` of a `Number`. -/
  writeNumber : Number → Text
  /-- `to_writer` of `None`. -/
  writeNone : Text
  /-- `to_writer` of a `Value`. -/
  writeValue : Value → Text

namespace SerdeJson

/-- The `Number` that a literal is read as, if any. -/
def number (lib : SerdeJson) (t : NumberText) : Option Number :=
  match lib.value t.text with
  | .ok (.number n) => some n
  | _ => none

/-- A value without floats, in which at most `d` arrays and objects stand in each other.
The members of an object are in the order of a map, and do not begin with a reserved name. -/
inductive Plain (res : Option String) : ℕ → Value → Prop
  | null {d : ℕ} : Plain res d .null
  | bool {d : ℕ} (b : Bool) : Plain res d (.bool b)
  | int {d : ℕ} (n : Integer) : Plain res d (.number (.int n))
  | string {d : ℕ} (s : String) : Plain res d (.string s)
  | array {d : ℕ} {vs : List Value} (h : ∀ v ∈ vs, Plain res d v) : Plain res (d + 1) (.array vs)
  | object {d : ℕ} {ms : Map Value} (hs : ms.Sorted)
      (hfirst : ∀ m ∈ ms.head?, some m.1 ≠ res) (h : ∀ m ∈ ms, Plain res d m.2) :
      Plain res (d + 1) (.object ms)

/-- What is relied on. -/
structure Laws (lib : SerdeJson) : Prop where
  reserved : ∀ name, lib.reserved = some name → name = reservedName
  /-- A raw value is checked against the grammar only, and its text is kept. -/
  rawValue : ∀ {text v}, lib.rawValue text = .ok v ↔ Padded ElementOf v text
  rawArray : ∀ {text vs}, lib.rawArray text = .ok vs ↔ Padded ArrayOf vs text
  /-- The names of an object are decoded, and of those that are the same the last is kept. -/
  rawObject : ∀ {text members}, lib.rawObject text = .ok members ↔
    ∃ pairs, Padded NamesOf pairs text ∧ members = Map.ofList pairs
  string : ∀ {text s}, lib.string text = .ok s ↔ Padded StringOf s text
  /-- What a text stands for is read, down to the limit. -/
  value : ∀ {text x}, Padded (ValueOf lib.number lib.reserved recursionLimit) x text →
    lib.value text = .ok x
  /-- What is read of a value is of its kind, unless the value begins with a reserved name. -/
  kind : ∀ {v x}, IsValue v → ¬ Reserved lib.reserved v → lib.value v = .ok x →
    ValueStep lib.number lib.reserved 1 (fun _ _ => True) x v
  /-- An integer that fits `i64` or `u64` is kept. -/
  integer : ∀ {t k}, t.WF → integerOf t = some k → lib.number t = some (.int k)
  /-- Any other literal is a float, if it is read. -/
  float : ∀ {t n}, t.WF → integerOf t = none → lib.number t = some n → ∃ f, n = .float f
  /-- An integer far beyond the floats is refused. -/
  beyond : ∀ {t z}, IntegerText t z → 10 ^ 309 ≤ |z| → lib.number t = none
  /-- Zero with a sign is read, and what is written of it is zero. -/
  minusZero : ∀ {t}, IntegerText t 0 → t.minus = true →
    ∃ n s, lib.number t = some n ∧ s.WF ∧ lib.writeNumber n = s.text ∧ numberValue s = 0
  writeStr : ∀ s, StrIs (lib.writeStr s) s
  writeInteger : ∀ k : Integer, lib.writeNumber (.int k) = writeInt k.val
  /-- A float is written as a number with few digits. -/
  writeFloat : ∀ f, ∃ s : NumberText, s.WF ∧ lib.writeNumber (.float f) = s.text ∧
    ShortDecimal (numberValue s)
  writeNone : lib.writeNone = "null".toList
  writeValue : ∀ x, IsValue (lib.writeValue x)
  /-- What is written of a value without floats stands for it. -/
  writePlain : ∀ {d x}, Plain lib.reserved d x →
    ValueOf lib.number lib.reserved (d + 1) x (lib.writeValue x)

theorem Plain.mono {res : Option String} {d d' : ℕ} {v : Value} (h : Plain res d v)
    (hle : d ≤ d') : Plain res d' v := by
  induction h generalizing d' with
  | null => exact .null
  | bool b => exact .bool b
  | int n => exact .int n
  | string s => exact .string s
  | array _ ih =>
    obtain ⟨d', rfl⟩ := Nat.exists_eq_add_of_le' (Nat.one_le_of_lt hle)
    exact .array fun v hv => ih v hv (Nat.le_of_succ_le_succ hle)
  | object hs hfirst _ ih =>
    obtain ⟨d', rfl⟩ := Nat.exists_eq_add_of_le' (Nat.one_le_of_lt hle)
    exact .object hs hfirst fun m hm => ih m hm (Nat.le_of_succ_le_succ hle)

section Number

variable {lib : SerdeJson} {t : NumberText} {n : Number}

theorem number_eq_some : lib.number t = some n ↔ lib.value t.text = .ok (.number n) := by
  rw [number]
  split
  · next hvalue =>
    rw [hvalue]
    simp
  · next hother =>
    refine ⟨nofun, fun h => ?_⟩
    exact absurd h (hother n)

end Number

namespace Laws

variable {lib : SerdeJson} (hlib : lib.Laws)
include hlib

theorem value_of {x : Value} {v : Text} (h : ValueOf lib.number lib.reserved recursionLimit x v) :
    lib.value v = .ok x :=
  hlib.value ⟨[], v, [], by simp, nofun, h, nofun⟩

theorem writeNumber_wf (n : Number) :
    ∃ t : NumberText, t.WF ∧ lib.writeNumber n = t.text := by
  cases n with
  | int k =>
    have htext := (hlib.writeInteger k).trans (writeInt_eq _)
    exact ⟨intText k.val, (integerText_intText k.val).wf, htext⟩
  | float f =>
    obtain ⟨s, hs, htext, -⟩ := hlib.writeFloat f
    exact ⟨s, hs, htext⟩

theorem isValue_writeNumber (n : Number) : IsValue (lib.writeNumber n) := by
  obtain ⟨t, ht, htext⟩ := hlib.writeNumber_wf n
  exact htext ▸ isValue_number ht

theorem isValue_writeStr (s : String) : IsValue (lib.writeStr s) :=
  isValue_iff.mpr (.inr (.inr (.inl ⟨_, (hlib.writeStr s).choose_spec.1⟩)))

/-- An integer is read back. -/
theorem number_intText (k : Integer) : lib.number (intText k.val) = some (.int k) :=
  hlib.integer (integerText_intText k.val).wf (integerOf_intText k)

theorem valueOf_int (d : ℕ) (k : Integer) :
    ValueOf lib.number lib.reserved (d + 1) (.number (.int k)) (writeInt k.val) := by
  rw [writeInt_eq]
  exact ValueStep.number (integerText_intText k.val).wf (hlib.number_intText k)

end Laws

end SerdeJson
