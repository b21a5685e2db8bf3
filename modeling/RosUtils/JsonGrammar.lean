/-
The grammar of JSON texts (RFC 8259), over UTF-8 bytes.

Each rule of the grammar is a predicate on byte strings.  The RFC lets whitespace
stand around each of the six structural characters; here it stands around the
values and names inside an object or an array, so that an `Object` or an `Array`
begins with its opening and ends with its closing delimiter.
-/
import Mathlib.Tactic

namespace JsonGrammar

/-- A byte string. -/
abbrev Bytes := List UInt8

/-- The bytes of an ASCII word. -/
def ascii (s : String) : Bytes := s.toList.map Char.toUInt8

/-! ### Whitespace, numbers, strings -/

/-- Space, horizontal tab, line feed or carriage return. -/
def IsWsByte (x : UInt8) : Prop := x ∈ ascii " \t\n\r"

instance (x : UInt8) : Decidable (IsWsByte x) := inferInstanceAs (Decidable (x ∈ _))

/-- `ws`. -/
def Ws (s : Bytes) : Prop := ∀ x ∈ s, IsWsByte x

instance (s : Bytes) : Decidable (Ws s) := List.decidableBAll _ s

/-- `DIGIT`. -/
def Digit (x : UInt8) : Prop := x ∈ ascii "0123456789"

/-- `HEXDIG`, of either case. -/
def HexDigit (x : UInt8) : Prop := x ∈ ascii "0123456789abcdefABCDEF"

/-- `1*DIGIT`. -/
def Digits (s : Bytes) : Prop := s ≠ [] ∧ ∀ x ∈ s, Digit x

/-- `int`: no leading zeros. -/
def Int (s : Bytes) : Prop := s = ascii "0" ∨ (Digits s ∧ s.head? ≠ some '0'.toUInt8)

/-- `[ frac ]`. -/
def Frac (s : Bytes) : Prop := s = [] ∨ ∃ ds, s = '.'.toUInt8 :: ds ∧ Digits ds

/-- `[ exp ]`. -/
def Exp (s : Bytes) : Prop :=
  s = [] ∨ ∃ e sign ds, s = e :: (sign ++ ds) ∧ e ∈ ascii "eE" ∧
    sign ∈ [[], ascii "+", ascii "-"] ∧ Digits ds

/-- `number`. -/
def Number (s : Bytes) : Prop :=
  ∃ minus int frac exp, s = minus ++ (int ++ (frac ++ exp)) ∧ minus ∈ [[], ascii "-"] ∧
    Int int ∧ Frac frac ∧ Exp exp

/-- What may stand between the quotes of a string, one character at a time. -/
inductive Character : Bytes → Prop
  | unescaped (c : Char) (hctl : 0x20 ≤ c.toNat) (hquote : c ≠ '"') (hslash : c ≠ '\\') :
      Character (String.utf8EncodeChar c)
  | escaped {x : UInt8} (hx : x ∈ ascii "\"\\/bfnrt") : Character ['\\'.toUInt8, x]
  | unicode {a b c d : UInt8} (ha : HexDigit a) (hb : HexDigit b) (hc : HexDigit c)
      (hd : HexDigit d) : Character ['\\'.toUInt8, 'u'.toUInt8, a, b, c, d]

/-- `*char`. -/
inductive Characters : Bytes → Prop
  | nil : Characters []
  | cons {c s : Bytes} (hc : Character c) (hs : Characters s) : Characters (c ++ s)

/-- `string`. -/
inductive Str : Bytes → Prop
  | quoted {s : Bytes} (hs : Characters s) : Str ('"'.toUInt8 :: (s ++ ['"'.toUInt8]))

/-! ### Values -/

mutual

/-- `value`. -/
inductive Value : Bytes → Prop
  | literal {s : Bytes} (h : s ∈ [ascii "false", ascii "null", ascii "true"]) : Value s
  | number {s : Bytes} (h : Number s) : Value s
  | string {s : Bytes} (h : Str s) : Value s
  | object {s : Bytes} (h : Object s) : Value s
  | array {s : Bytes} (h : Array s) : Value s

/-- `object`, from its opening to its closing brace. -/
inductive Object : Bytes → Prop
  | empty {w : Bytes} (hw : Ws w) : Object ('{'.toUInt8 :: (w ++ ['}'.toUInt8]))
  | members {s : Bytes} (h : Members s) : Object ('{'.toUInt8 :: (s ++ ['}'.toUInt8]))

/-- `member *( value-separator member )`. -/
inductive Members : Bytes → Prop
  | last {s : Bytes} (h : Member s) : Members s
  | cons {m s : Bytes} (hm : Member m) (hs : Members s) : Members (m ++ ','.toUInt8 :: s)

/-- `string name-separator value`, with the whitespace around the two. -/
inductive Member : Bytes → Prop
  | mk {a k b c v d : Bytes} (ha : Ws a) (hk : Str k) (hb : Ws b) (hc : Ws c) (hv : Value v)
      (hd : Ws d) : Member (a ++ (k ++ (b ++ ':'.toUInt8 :: (c ++ (v ++ d)))))

/-- `array`, from its opening to its closing bracket. -/
inductive Array : Bytes → Prop
  | empty {w : Bytes} (hw : Ws w) : Array ('['.toUInt8 :: (w ++ [']'.toUInt8]))
  | elements {s : Bytes} (h : Elements s) : Array ('['.toUInt8 :: (s ++ [']'.toUInt8]))

/-- `value *( value-separator value )`. -/
inductive Elements : Bytes → Prop
  | last {s : Bytes} (h : Element s) : Elements s
  | cons {e s : Bytes} (he : Element e) (hs : Elements s) : Elements (e ++ ','.toUInt8 :: s)

/-- A value with the whitespace around it. -/
inductive Element : Bytes → Prop
  | mk {a v b : Bytes} (ha : Ws a) (hv : Value v) (hb : Ws b) : Element (a ++ (v ++ b))

end

/-! ### Which bytes a leaf is made of -/

/-- Neither a quote nor a delimiter. -/
def Plain (s : Bytes) : Prop := ∀ x ∈ s, x ∉ ascii "\"\x7b\x7d[]"

instance (s : Bytes) : Decidable (Plain s) := List.decidableBAll _ s

theorem Plain.append {s t : Bytes} (hs : Plain s) (ht : Plain t) : Plain (s ++ t) := by
  intro x hx
  rcases List.mem_append.mp hx with h | h
  · exact hs x h
  · exact ht x h

theorem Plain.cons {x : UInt8} {s : Bytes} (hx : x ∉ ascii "\"\x7b\x7d[]") (hs : Plain s) :
    Plain (x :: s) := by
  intro y hy
  rcases List.mem_cons.mp hy with rfl | h
  · exact hx
  · exact hs y h

theorem Plain.of_subset {s : Bytes} (l : Bytes) (hl : Plain l)
    (hs : ∀ x ∈ s, x ∈ l) : Plain s := fun x hx => hl x (hs x hx)

theorem Ws.plain {s : Bytes} (h : Ws s) : Plain s :=
  Plain.of_subset (ascii " \t\n\r") (by decide) h

theorem Digits.plain {s : Bytes} (h : Digits s) : Plain s :=
  Plain.of_subset (ascii "0123456789") (by decide) h.2

theorem Number.plain {s : Bytes} (h : Number s) : Plain s := by
  obtain ⟨minus, int, frac, exp, rfl, hminus, hint, hfrac, hexp⟩ := h
  have h1 : Plain minus := by
    have hall : ∀ m ∈ [[], ascii "-"], Plain m := by decide
    exact hall minus hminus
  have h2 : Plain int := by
    rcases hint with rfl | ⟨h, -⟩
    · decide
    · exact h.plain
  have h3 : Plain frac := by
    rcases hfrac with rfl | ⟨ds, rfl, h⟩
    · decide
    · exact h.plain.cons (by decide)
  have h4 : Plain exp := by
    rcases hexp with rfl | ⟨e, sign, ds, rfl, he, hsign, h⟩
    · decide
    · have hall : Plain (ascii "eE") := by decide
      have hall' : ∀ m ∈ [[], ascii "+", ascii "-"], Plain m := by decide
      exact Plain.cons (hall e he) ((hall' sign hsign).append h.plain)
  exact h1.append (h2.append (h3.append h4))

theorem literal_plain {s : Bytes} (h : s ∈ [ascii "false", ascii "null", ascii "true"]) :
    Plain s := by
  have hall : ∀ s ∈ [ascii "false", ascii "null", ascii "true"], Plain s := by decide
  exact hall s h

end JsonGrammar
