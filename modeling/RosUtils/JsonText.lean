/-
What a JSON text holds, character by character.

The grammar says which byte strings are values.  Here a text is a list of
characters, and the rules keep what they spell: the pieces of a string
(`StrOf`), the parts of a number (`NumberText`), the elements of an array
(`ArrayOf`) and the members of an object (`ObjectOf`).

A string is a list of pieces: a character, or a code unit of UTF-16 that was
escaped.  `assemble` joins the pairs of surrogates; a surrogate without its
partner stands for no character, so that `assemble` is where a string that is
grammatical may still have no value (`StrIs`).

Each notion is the grammar's own, over the UTF-8 of the text: `str_iff`,
`number_iff`, `object_iff` and `array_iff`.
-/
import RosUtils.JsonGrammar
import RosUtils.Utf8

open JsonGrammar (ascii)

namespace JsonText

/-- A text is a list of characters. -/
abbrev Text := List Char

def isWs (c : Char) : Bool := c = ' ' || c = '\t' || c = '\n' || c = '\r'

/-- Whitespace. -/
def Ws (w : Text) : Prop := ∀ c ∈ w, isWs c = true

instance (w : Text) : Decidable (Ws w) := List.decidableBAll _ w

/-! ### Strings -/

/-- What one character or one escape of a string stands for. -/
inductive Piece where
  | char (c : Char)
  /-- A code unit of UTF-16. -/
  | unit (u : ℕ)
  deriving DecidableEq, Repr

def hexDigits : Text := "0123456789abcdefABCDEF".toList

def hexValue (c : Char) : Option ℕ :=
  (hexDigits.idxOf? c).map fun i => if i < 16 then i else i - 6

/-- The value of four hexadecimal digits. -/
def hex4 (a b c d : Char) : Option ℕ := do
  let a ← hexValue a
  let b ← hexValue b
  let c ← hexValue c
  let d ← hexValue d
  pure (((a * 16 + b) * 16 + c) * 16 + d)

/-- What may stand behind a backslash, and what it stands for. -/
def escapes : List (Char × Char) :=
  [('"', '"'), ('\\', '\\'), ('/', '/'), ('b', '\x08'), ('f', '\x0c'), ('n', '\n'), ('r', '\r'),
    ('t', '\t')]

/-- The spelling of a piece. -/
inductive Spelled : Text → Piece → Prop
  | unescaped (c : Char) (hctl : 0x20 ≤ c.toNat) (hquote : c ≠ '"') (hslash : c ≠ '\\') :
      Spelled [c] (.char c)
  | escaped {x c : Char} (h : escapes.lookup x = some c) : Spelled ['\\', x] (.char c)
  | unicode {a b c d : Char} {u : ℕ} (h : hex4 a b c d = some u) :
      Spelled ['\\', 'u', a, b, c, d] (.unit u)

/-- The spelling of pieces, one after another. -/
inductive Spell : Text → List Piece → Prop
  | nil : Spell [] []
  | cons {c s : Text} {p : Piece} {ps : List Piece} (hc : Spelled c p) (hs : Spell s ps) :
      Spell (c ++ s) (p :: ps)

/-- A string of these pieces, in its quotes. -/
def StrOf (ps : List Piece) (k : Text) : Prop := ∃ s, k = '"' :: (s ++ ['"']) ∧ Spell s ps

def isHigh (u : ℕ) : Bool := 0xD800 ≤ u && u < 0xDC00

def isLow (u : ℕ) : Bool := 0xDC00 ≤ u && u < 0xE000

/-- The character of a pair of surrogates. -/
def ofSurrogates (u v : ℕ) : Char := Char.ofNat (0x10000 + (u - 0xD800) * 0x400 + (v - 0xDC00))

/-- The characters the pieces stand for.  A surrogate without its partner stands for
none. -/
def assemble : List Piece → Option Text
  | [] => some []
  | .char c :: ps => (c :: ·) <$> assemble ps
  | .unit u :: .unit v :: ps =>
    if isHigh u then
      if isLow v then (ofSurrogates u v :: ·) <$> assemble ps else none
    else if isLow u then none else (Char.ofNat u :: ·) <$> assemble (.unit v :: ps)
  | .unit u :: ps =>
    if isHigh u || isLow u then none else (Char.ofNat u :: ·) <$> assemble ps

/-- The text `k` is a string with the value `s`. -/
def StrIs (k : Text) (s : String) : Prop := ∃ ps, StrOf ps k ∧ assemble ps = some s.toList

/-! ### Numbers -/

/-- The parts of a number as they are spelled. -/
structure NumberText where
  minus : Bool
  int : Text
  frac : Text
  exp : Text
  deriving DecidableEq, Repr

def NumberText.text (t : NumberText) : Text :=
  (if t.minus then ['-'] else []) ++ (t.int ++ (t.frac ++ t.exp))

def Digits (s : Text) : Prop := s ≠ [] ∧ ∀ c ∈ s, c.isDigit = true

/-- Digits without a leading zero. -/
def Int (s : Text) : Prop := Digits s ∧ (s.head? = some '0' → s = ['0'])

/-- A fraction, if any. -/
def Frac (s : Text) : Prop := s = [] ∨ ∃ ds, s = '.' :: ds ∧ Digits ds

/-- An exponent, if any. -/
def Exp (s : Text) : Prop :=
  s = [] ∨ ∃ e sign ds, s = e :: (sign ++ ds) ∧ (e = 'e' ∨ e = 'E') ∧
    (sign = [] ∨ sign = ['+'] ∨ sign = ['-']) ∧ Digits ds

/-- The parts are those of a number. -/
structure NumberText.WF (t : NumberText) : Prop where
  int : Int t.int
  frac : Frac t.frac
  exp : Exp t.exp

/-! ### Arrays and objects -/

/-- Things that are spelled one after another with commas between. -/
inductive SepBy {α : Type} (G : α → Text → Prop) : List α → Text → Prop
  | last {a : α} {s : Text} (h : G a s) : SepBy G [a] s
  | cons {a : α} {as : List α} {s t : Text} (h : G a s) (ht : SepBy G as t) :
      SepBy G (a :: as) (s ++ ',' :: t)

/-- A thing with the whitespace around it. -/
def Padded {α : Type} (G : α → Text → Prop) (a : α) (s : Text) : Prop :=
  ∃ w v w', s = w ++ (v ++ w') ∧ Ws w ∧ G a v ∧ Ws w'

/-- Things with commas between and delimiters around them. -/
def Enclosed {α : Type} (l r : Char) (G : α → Text → Prop) (as : List α) (o : Text) : Prop :=
  ∃ s, o = l :: (s ++ [r]) ∧ (as = [] ∧ Ws s ∨ SepBy (Padded G) as s)

/-- Things that are spelled as others may be read as those. -/
theorem SepBy.transfer {α β : Type} {G : α → Text → Prop} {H : β → Text → Prop}
    {R : α → β → Prop} (hGH : ∀ ⦃a s⦄, G a s → ∃ b, R a b ∧ H b s) {as : List α} {s : Text}
    (h : SepBy (Padded G) as s) : ∃ bs, List.Forall₂ R as bs ∧ SepBy (Padded H) bs s := by
  have hpad : ∀ {a s}, Padded G a s → ∃ b, R a b ∧ Padded H b s := by
    rintro a _ ⟨w, v, w', rfl, hw, hv, hw'⟩
    obtain ⟨b, hab, hb⟩ := hGH hv
    exact ⟨b, hab, w, v, w', rfl, hw, hb, hw'⟩
  induction h with
  | last h =>
    obtain ⟨b, hab, hb⟩ := hpad h
    exact ⟨[b], .cons hab .nil, .last hb⟩
  | cons h _ ih =>
    obtain ⟨b, hab, hb⟩ := hpad h
    obtain ⟨bs, habs, hbs⟩ := ih
    exact ⟨b :: bs, .cons hab habs, .cons hb hbs⟩

theorem Enclosed.transfer {α β : Type} {G : α → Text → Prop} {H : β → Text → Prop}
    {R : α → β → Prop} (hGH : ∀ ⦃a s⦄, G a s → ∃ b, R a b ∧ H b s) {l r : Char} {as : List α}
    {o : Text} (h : Enclosed l r G as o) : ∃ bs, List.Forall₂ R as bs ∧ Enclosed l r H bs o := by
  obtain ⟨s, rfl, ⟨rfl, hs⟩ | hs⟩ := h
  · exact ⟨[], .nil, s, rfl, .inl ⟨rfl, hs⟩⟩
  · obtain ⟨bs, habs, hbs⟩ := hs.transfer hGH
    exact ⟨bs, habs, s, rfl, .inr hbs⟩

/-- What each of the things stands for takes its place. -/
theorem SepBy.forall₂ {α β : Type} {G : α → Text → Prop} {H : β → Text → Prop}
    {R : α → β → Prop} (hGH : ∀ ⦃a b s⦄, R a b → G a s → H b s) {as : List α} {bs : List β}
    (hR : List.Forall₂ R as bs) {s : Text} (h : SepBy (Padded G) as s) :
    SepBy (Padded H) bs s := by
  have hpad : ∀ {a b s}, R a b → Padded G a s → Padded H b s := by
    rintro a b _ hab ⟨w, v, w', rfl, hw, hv, hw'⟩
    exact ⟨w, v, w', rfl, hw, hGH hab hv, hw'⟩
  induction h generalizing bs with
  | last h =>
    cases hR with
    | cons hab hnil =>
      cases hnil
      exact .last (hpad hab h)
  | cons h _ ih =>
    cases hR with
    | cons hab hR => exact .cons (hpad hab h) (ih hR)

theorem Enclosed.forall₂ {α β : Type} {G : α → Text → Prop} {H : β → Text → Prop}
    {R : α → β → Prop} (hGH : ∀ ⦃a b s⦄, R a b → G a s → H b s) {l r : Char} {as : List α}
    {bs : List β} (hR : List.Forall₂ R as bs) {o : Text} (h : Enclosed l r G as o) :
    Enclosed l r H bs o := by
  obtain ⟨s, rfl, ⟨rfl, hs⟩ | hs⟩ := h
  · cases hR
    exact ⟨s, rfl, .inl ⟨rfl, hs⟩⟩
  · exact ⟨s, rfl, .inr (hs.forall₂ hGH hR)⟩

/-- Each of the things has a spelling. -/
theorem Enclosed.mem {α : Type} {G : α → Text → Prop} {l r : Char} {as : List α} {o : Text}
    (h : Enclosed l r G as o) {a : α} (ha : a ∈ as) : ∃ s, G a s := by
  obtain ⟨s, -, ⟨rfl, -⟩ | hs⟩ := h
  · cases ha
  · induction hs with
    | last h =>
      obtain ⟨-, v, -, -, -, hv, -⟩ := h
      exact ⟨v, List.mem_singleton.mp ha ▸ hv⟩
    | cons h _ ih =>
      rcases List.mem_cons.mp ha with rfl | ha
      · obtain ⟨-, v, -, -, -, hv, -⟩ := h
        exact ⟨v, hv⟩
      · exact ih ha

/-- The text `v` is a value. -/
def IsValue (v : Text) : Prop := JsonGrammar.Value (Utf8.encode v)

/-- An element of an array: a value. -/
def ElementOf (v s : Text) : Prop := s = v ∧ IsValue v

theorem isValue_of_elementOf ⦃v s : Text⦄ (h : ElementOf v s) : IsValue s := h.1 ▸ h.2

/-- A member of an object: a name and a value. -/
def MemberOf (m : Text × Text) (s : Text) : Prop :=
  ∃ w w', s = m.1 ++ (w ++ ':' :: (w' ++ m.2)) ∧ (∃ ps, StrOf ps m.1) ∧ Ws w ∧ Ws w' ∧
    IsValue m.2

/-- An array of these elements. -/
abbrev ArrayOf : List Text → Text → Prop := Enclosed '[' ']' ElementOf

/-- An object of these members, in their order. -/
abbrev ObjectOf : List (Text × Text) → Text → Prop := Enclosed '{' '}' MemberOf

/-! ### ASCII -/

/-- A check of each character of a list, by evaluation. -/
theorem forall_mem_of_all {α : Type} {p : α → Prop} [DecidablePred p] {L : List α}
    (h : (L.all fun x => decide (p x)) = true) : ∀ x ∈ L, p x :=
  fun x hx => of_decide_eq_true (List.all_eq_true.mp h x hx)

section Ascii

variable {L : String}

/-- Bytes that are ASCII characters of `L` are the UTF-8 of such characters. -/
theorem text_of_ascii (hL : ∀ c ∈ L.toList, c.toNat < 128) {b : List UInt8}
    (h : ∀ x ∈ b, x ∈ ascii L) : ∃ w : Text, b = Utf8.encode w ∧ ∀ c ∈ w, c ∈ L.toList := by
  induction b with
  | nil => exact ⟨[], rfl, nofun⟩
  | cons x b ih =>
    obtain ⟨hx, hb⟩ := List.forall_mem_cons.mp h
    obtain ⟨w, rfl, hw⟩ := ih hb
    obtain ⟨c, hc, rfl⟩ := List.mem_map.mp hx
    exact ⟨c :: w, (Utf8.encode_cons_ascii (hL c hc) w).symm, List.forall_mem_cons.mpr ⟨hc, hw⟩⟩

theorem ascii_of_text (hL : ∀ c ∈ L.toList, c.toNat < 128) {w : Text}
    (h : ∀ c ∈ w, c ∈ L.toList) : ∀ x ∈ Utf8.encode w, x ∈ ascii L := by
  rw [Utf8.encode_ascii fun c hc => hL c (h c hc)]
  intro x hx
  obtain ⟨c, hc, rfl⟩ := List.mem_map.mp hx
  exact List.mem_map_of_mem (h c hc)

end Ascii

theorem isWs_iff {c : Char} : isWs c = true ↔ c ∈ " \t\n\r".toList := by
  simp [isWs, or_assoc]

theorem isDigit_iff {c : Char} : c.isDigit = true ↔ c ∈ "0123456789".toList := by
  constructor
  · intro h
    have hval : 48 ≤ c.val ∧ c.val ≤ 57 := by simpa [Char.isDigit] using h
    have hlo : 48 ≤ c.toNat := UInt32.le_iff_toNat_le.mp hval.1
    have hhi : c.toNat ≤ 57 := UInt32.le_iff_toNat_le.mp hval.2
    rw [← Char.ofNat_toNat c]
    interval_cases c.toNat <;> decide
  · intro h
    have hall : ∀ c ∈ "0123456789".toList, c.isDigit = true := forall_mem_of_all (by decide)
    exact hall c h

theorem ws_text {b : List UInt8} (h : JsonGrammar.Ws b) : ∃ w, b = Utf8.encode w ∧ Ws w := by
  obtain ⟨w, hb, hw⟩ := text_of_ascii (L := " \t\n\r") (forall_mem_of_all (by decide)) h
  exact ⟨w, hb, fun c hc => isWs_iff.mpr (hw c hc)⟩

theorem Ws.grammar {w : Text} (h : Ws w) : JsonGrammar.Ws (Utf8.encode w) :=
  ascii_of_text (forall_mem_of_all (by decide)) fun c hc => isWs_iff.mp (h c hc)

theorem digits_text {b : List UInt8} (h : JsonGrammar.Digits b) :
    ∃ ds, b = Utf8.encode ds ∧ Digits ds := by
  obtain ⟨ds, rfl, hds⟩ := text_of_ascii (L := "0123456789") (forall_mem_of_all (by decide)) h.2
  refine ⟨ds, rfl, ?_, fun c hc => isDigit_iff.mpr (hds c hc)⟩
  rintro rfl
  exact h.1 rfl

theorem isDigit_ascii {c : Char} (h : c.isDigit = true) : c.toNat < 128 := by
  have hall : ∀ c ∈ "0123456789".toList, c.toNat < 128 := forall_mem_of_all (by decide)
  exact hall c (isDigit_iff.mp h)

theorem Digits.grammar {ds : Text} (h : Digits ds) : JsonGrammar.Digits (Utf8.encode ds) := by
  refine ⟨?_, ascii_of_text (L := "0123456789") (forall_mem_of_all (by decide)) fun c hc =>
    isDigit_iff.mp (h.2 c hc)⟩
  rw [Utf8.encode_ascii fun c hc => isDigit_ascii (h.2 c hc)]
  simpa using h.1

/-! ### Strings and numbers are those of the grammar -/

theorem hexValue_isSome {c : Char} : (hexValue c).isSome ↔ c ∈ hexDigits := by
  rw [hexValue, Option.isSome_map, List.isSome_idxOf?]

theorem hex4_isSome {a b c d : Char} :
    (hex4 a b c d).isSome ↔ a ∈ hexDigits ∧ b ∈ hexDigits ∧ c ∈ hexDigits ∧ d ∈ hexDigits := by
  simp only [← hexValue_isSome, hex4]
  cases hexValue a <;> cases hexValue b <;> cases hexValue c <;> cases hexValue d <;> simp

theorem hexDigits_ascii : ∀ c ∈ hexDigits, c.toNat < 128 := forall_mem_of_all (by decide)

theorem hexDigit_text {x : UInt8} (h : JsonGrammar.HexDigit x) :
    ∃ c ∈ hexDigits, c.toUInt8 = x := List.mem_map.mp h

theorem lookup_escapes_isSome {x : Char} :
    (escapes.lookup x).isSome ↔ x ∈ "\"\\/bfnrt".toList := by
  have hkeys : escapes.map Prod.fst = "\"\\/bfnrt".toList := by decide
  rw [← hkeys, List.lookup_isSome_iff, List.mem_map]
  constructor
  · rintro ⟨q, hq, hx⟩
    exact ⟨q, hq, (eq_of_beq hx).symm⟩
  · rintro ⟨q, hq, rfl⟩
    exact ⟨q, hq, beq_self_eq_true _⟩

theorem character_text {b : List UInt8} (h : JsonGrammar.Character b) :
    ∃ c p, b = Utf8.encode c ∧ Spelled c p := by
  cases h with
  | unescaped c hctl hquote hslash =>
    exact ⟨[c], .char c, by simp [Utf8.encode_cons], .unescaped c hctl hquote hslash⟩
  | escaped hx =>
    obtain ⟨d, hd, rfl⟩ := List.mem_map.mp hx
    obtain ⟨e, he⟩ := Option.isSome_iff_exists.mp (lookup_escapes_isSome.mpr hd)
    have hall : ∀ d ∈ "\"\\/bfnrt".toList, d.toNat < 128 := forall_mem_of_all (by decide)
    refine ⟨['\\', d], .char e, ?_, .escaped he⟩
    rw [Utf8.encode_cons_ascii (by decide), Utf8.encode_cons_ascii (hall d hd), Utf8.encode_nil]
  | unicode ha hb hc hd =>
    obtain ⟨a, ha', rfl⟩ := hexDigit_text ha
    obtain ⟨b, hb', rfl⟩ := hexDigit_text hb
    obtain ⟨c, hc', rfl⟩ := hexDigit_text hc
    obtain ⟨d, hd', rfl⟩ := hexDigit_text hd
    obtain ⟨u, hu⟩ := Option.isSome_iff_exists.mp (hex4_isSome.mpr ⟨ha', hb', hc', hd'⟩)
    refine ⟨['\\', 'u', a, b, c, d], .unit u, ?_, .unicode hu⟩
    rw [Utf8.encode_cons_ascii (by decide), Utf8.encode_cons_ascii (by decide),
      Utf8.encode_cons_ascii (hexDigits_ascii a ha'),
      Utf8.encode_cons_ascii (hexDigits_ascii b hb'),
      Utf8.encode_cons_ascii (hexDigits_ascii c hc'),
      Utf8.encode_cons_ascii (hexDigits_ascii d hd'),
      Utf8.encode_nil]

theorem Spelled.grammar {c : Text} {p : Piece} (h : Spelled c p) :
    JsonGrammar.Character (Utf8.encode c) := by
  cases h with
  | unescaped c hctl hquote hslash =>
    rw [Utf8.encode_cons, Utf8.encode_nil, List.append_nil]
    exact .unescaped c hctl hquote hslash
  | @escaped x c h =>
    have hx : x ∈ "\"\\/bfnrt".toList := lookup_escapes_isSome.mp (by rw [h]; rfl)
    have hall : ∀ d ∈ "\"\\/bfnrt".toList, d.toNat < 128 := forall_mem_of_all (by decide)
    rw [Utf8.encode_cons_ascii (by decide), Utf8.encode_cons_ascii (hall x hx), Utf8.encode_nil]
    exact .escaped (List.mem_map_of_mem hx)
  | unicode h =>
    obtain ⟨ha, hb, hc, hd⟩ := hex4_isSome.mp (by rw [h]; rfl)
    rw [Utf8.encode_cons_ascii (by decide), Utf8.encode_cons_ascii (by decide),
      Utf8.encode_cons_ascii (hexDigits_ascii _ ha), Utf8.encode_cons_ascii (hexDigits_ascii _ hb),
      Utf8.encode_cons_ascii (hexDigits_ascii _ hc), Utf8.encode_cons_ascii (hexDigits_ascii _ hd),
      Utf8.encode_nil]
    exact .unicode (List.mem_map_of_mem ha) (List.mem_map_of_mem hb) (List.mem_map_of_mem hc)
      (List.mem_map_of_mem hd)

theorem characters_text {b : List UInt8} (h : JsonGrammar.Characters b) :
    ∃ s ps, b = Utf8.encode s ∧ Spell s ps := by
  induction h with
  | nil => exact ⟨[], [], rfl, .nil⟩
  | cons hc _ ih =>
    obtain ⟨c, p, rfl, hspell⟩ := character_text hc
    obtain ⟨s, ps, rfl, hs⟩ := ih
    exact ⟨c ++ s, p :: ps, (Utf8.encode_append c s).symm, .cons hspell hs⟩

theorem Spell.grammar {s : Text} {ps : List Piece} (h : Spell s ps) :
    JsonGrammar.Characters (Utf8.encode s) := by
  induction h with
  | nil => exact .nil
  | cons hc _ ih =>
    rw [Utf8.encode_append]
    exact .cons hc.grammar ih

/-- A delimiter is its own byte. -/
theorem encode_delimited {l r : Char} (hl : l.toNat < 128) (hr : r.toNat < 128) (s : Text) :
    Utf8.encode (l :: (s ++ [r])) = l.toUInt8 :: (Utf8.encode s ++ [r.toUInt8]) := by
  rw [Utf8.encode_cons_ascii hl, Utf8.encode_append, Utf8.encode_cons_ascii hr, Utf8.encode_nil]

theorem str_iff {b : List UInt8} :
    JsonGrammar.Str b ↔ ∃ k ps, b = Utf8.encode k ∧ StrOf ps k := by
  constructor
  · rintro ⟨hs⟩
    obtain ⟨s, ps, rfl, hspell⟩ := characters_text hs
    exact ⟨_, ps, (encode_delimited (by decide) (by decide) s).symm, s, rfl, hspell⟩
  · rintro ⟨_, ps, rfl, s, rfl, hs⟩
    rw [encode_delimited (by decide) (by decide)]
    exact .quoted hs.grammar

theorem int_text {b : List UInt8} (h : JsonGrammar.Int b) : ∃ s, b = Utf8.encode s ∧ Int s := by
  rcases h with rfl | ⟨hds, hhead⟩
  · exact ⟨['0'], rfl, ⟨by simp, List.forall_mem_singleton.mpr rfl⟩, fun _ => rfl⟩
  · obtain ⟨ds, rfl, hds'⟩ := digits_text hds
    refine ⟨ds, rfl, hds', fun hzero => absurd ?_ hhead⟩
    rw [Utf8.encode_ascii fun c hc => isDigit_ascii (hds'.2 c hc), List.head?_map, hzero]
    rfl

theorem Int.grammar {s : Text} (h : Int s) : JsonGrammar.Int (Utf8.encode s) := by
  obtain ⟨hds, hzero⟩ := h
  by_cases hhead : s.head? = some '0'
  · rw [hzero hhead]
    exact .inl rfl
  · refine .inr ⟨hds.grammar, fun heq => hhead ?_⟩
    rw [Utf8.encode_ascii fun c hc => isDigit_ascii (hds.2 c hc), List.head?_map,
      Option.map_eq_some_iff] at heq
    obtain ⟨c, hc, hbyte⟩ := heq
    have hascii := isDigit_ascii (hds.2 c (List.mem_of_mem_head? hc))
    have hcode := congrArg UInt8.toNat hbyte
    rw [Utf8.toNat_toUInt8 hascii] at hcode
    rw [hc, ← Char.ofNat_toNat c, hcode]
    rfl

theorem frac_text {b : List UInt8} (h : JsonGrammar.Frac b) :
    ∃ s, b = Utf8.encode s ∧ Frac s := by
  rcases h with rfl | ⟨ds, rfl, hds⟩
  · exact ⟨[], rfl, .inl rfl⟩
  · obtain ⟨d, rfl, hd⟩ := digits_text hds
    exact ⟨'.' :: d, (Utf8.encode_cons_ascii (by decide) d).symm, .inr ⟨d, rfl, hd⟩⟩

theorem Frac.grammar {s : Text} (h : Frac s) : JsonGrammar.Frac (Utf8.encode s) := by
  rcases h with rfl | ⟨ds, rfl, hds⟩
  · exact .inl rfl
  · exact .inr ⟨_, Utf8.encode_cons_ascii (by decide) ds, hds.grammar⟩

theorem exp_text {b : List UInt8} (h : JsonGrammar.Exp b) : ∃ s, b = Utf8.encode s ∧ Exp s := by
  rcases h with rfl | ⟨e, sign, ds, rfl, he, hsign, hds⟩
  · exact ⟨[], rfl, .inl rfl⟩
  · obtain ⟨d, rfl, hd⟩ := digits_text hds
    obtain ⟨c, hc, rfl⟩ : ∃ c, (c = 'e' ∨ c = 'E') ∧ c.toUInt8 = e := by
      rcases List.mem_pair.mp he with rfl | rfl
      · exact ⟨'e', .inl rfl, rfl⟩
      · exact ⟨'E', .inr rfl, rfl⟩
    obtain ⟨g, hg, rfl⟩ : ∃ g, (g = [] ∨ g = ['+'] ∨ g = ['-']) ∧ sign = Utf8.encode g := by
      have hcases : sign = [] ∨ sign = ascii "+" ∨ sign = ascii "-" := by simpa using hsign
      rcases hcases with rfl | rfl | rfl
      · exact ⟨[], .inl rfl, rfl⟩
      · exact ⟨['+'], .inr (.inl rfl), rfl⟩
      · exact ⟨['-'], .inr (.inr rfl), rfl⟩
    have hascii : c.toNat < 128 := by rcases hc with rfl | rfl <;> decide
    refine ⟨c :: (g ++ d), ?_, .inr ⟨c, g, d, rfl, hc, hg, hd⟩⟩
    rw [Utf8.encode_cons_ascii hascii, Utf8.encode_append]

theorem Exp.grammar {s : Text} (h : Exp s) : JsonGrammar.Exp (Utf8.encode s) := by
  rcases h with rfl | ⟨e, sign, ds, rfl, he, hsign, hds⟩
  · exact .inl rfl
  · have hascii : e.toNat < 128 := by rcases he with rfl | rfl <;> decide
    refine .inr ⟨e.toUInt8, Utf8.encode sign, Utf8.encode ds, ?_, ?_, ?_, hds.grammar⟩
    · rw [Utf8.encode_cons_ascii hascii, Utf8.encode_append]
    · rcases he with rfl | rfl <;> decide
    · rcases hsign with rfl | rfl | rfl <;> decide

theorem number_iff {b : List UInt8} :
    JsonGrammar.Number b ↔ ∃ t : NumberText, t.WF ∧ b = Utf8.encode t.text := by
  constructor
  · rintro ⟨minus, int, frac, exp, rfl, hminus, hint, hfrac, hexp⟩
    obtain ⟨m, rfl⟩ : ∃ m : Bool, minus = Utf8.encode (if m then ['-'] else []) := by
      rcases List.mem_pair.mp hminus with rfl | rfl
      · exact ⟨false, rfl⟩
      · exact ⟨true, rfl⟩
    obtain ⟨i, rfl, hi⟩ := int_text hint
    obtain ⟨f, rfl, hf⟩ := frac_text hfrac
    obtain ⟨x, rfl, hx⟩ := exp_text hexp
    exact ⟨⟨m, i, f, x⟩, ⟨hi, hf, hx⟩, by simp only [NumberText.text, Utf8.encode_append]⟩
  · rintro ⟨⟨m, i, f, x⟩, ⟨hi, hf, hx⟩, rfl⟩
    refine ⟨Utf8.encode (if m then ['-'] else []), Utf8.encode i, Utf8.encode f, Utf8.encode x, ?_,
      ?_, hi.grammar, hf.grammar, hx.grammar⟩
    · simp only [NumberText.text, Utf8.encode_append]
    · cases m with
      | false => exact List.mem_pair.mpr (.inl rfl)
      | true => exact List.mem_pair.mpr (.inr rfl)

/-! ### Arrays and objects are those of the grammar -/

/-- The values without parts. -/
def literals : List Text := ["false".toList, "null".toList, "true".toList]

theorem literal_iff {b : List UInt8} :
    b ∈ [ascii "false", ascii "null", ascii "true"] ↔ ∃ v ∈ literals, b = Utf8.encode v := by
  have hmap : [ascii "false", ascii "null", ascii "true"] = literals.map Utf8.encode := by decide
  rw [hmap, List.mem_map]
  simp only [eq_comm]

theorem isValue_of {b : List UInt8} {v : Text} (hb : b = Utf8.encode v)
    (h : JsonGrammar.Value b) : IsValue v := by
  rw [hb] at h
  exact h

mutual

/-- Every value of the grammar is UTF-8. -/
theorem value_text {b : List UInt8} : JsonGrammar.Value b → ∃ v, b = Utf8.encode v
  | .literal h =>
    let ⟨v, _, hb⟩ := literal_iff.mp h
    ⟨v, hb⟩
  | .number h =>
    let ⟨t, _, hb⟩ := number_iff.mp h
    ⟨t.text, hb⟩
  | .string h =>
    let ⟨k, _, hb, _⟩ := str_iff.mp h
    ⟨k, hb⟩
  | .object h =>
    let ⟨o, _, hb, _⟩ := object_text h
    ⟨o, hb⟩
  | .array h =>
    let ⟨o, _, hb, _⟩ := array_text h
    ⟨o, hb⟩

theorem object_text {b : List UInt8} :
    JsonGrammar.Object b → ∃ o ms, b = Utf8.encode o ∧ ObjectOf ms o
  | .empty hw =>
    let ⟨w, hb, hw⟩ := ws_text hw
    ⟨'{' :: (w ++ ['}']), [], by rw [encode_delimited (by decide) (by decide), hb],
      w, rfl, .inl ⟨rfl, hw⟩⟩
  | .members h =>
    let ⟨s, ms, hb, hs⟩ := members_text h
    ⟨'{' :: (s ++ ['}']), ms, by rw [encode_delimited (by decide) (by decide), hb],
      s, rfl, .inr hs⟩

theorem members_text {b : List UInt8} :
    JsonGrammar.Members b → ∃ s ms, b = Utf8.encode s ∧ SepBy (Padded MemberOf) ms s
  | .last h =>
    let ⟨s, m, hb, hs⟩ := member_text h
    ⟨s, [m], hb, .last hs⟩
  | .cons hm hms =>
    let ⟨s, m, hb, hs⟩ := member_text hm
    let ⟨t, ms, hb', ht⟩ := members_text hms
    ⟨s ++ ',' :: t, m :: ms,
      by rw [Utf8.encode_append, Utf8.encode_cons_ascii (by decide), hb, hb'], .cons hs ht⟩

theorem member_text {b : List UInt8} :
    JsonGrammar.Member b → ∃ s m, b = Utf8.encode s ∧ Padded MemberOf m s
  | .mk ha hk hb hc hv hd =>
    let ⟨a, ea, ha⟩ := ws_text ha
    let ⟨k, ps, ek, hk⟩ := str_iff.mp hk
    let ⟨b, eb, hb⟩ := ws_text hb
    let ⟨c, ec, hc⟩ := ws_text hc
    let ⟨v, ev⟩ := value_text hv
    let ⟨d, ed, hd⟩ := ws_text hd
    ⟨a ++ ((k ++ (b ++ ':' :: (c ++ v))) ++ d), (k, v),
      by simp [Utf8.encode_cons_ascii (show ':'.toNat < 128 by decide), ea, ek, eb, ec, ev, ed],
      a, _, d, rfl, ha, ⟨b, c, rfl, ⟨ps, hk⟩, hb, hc, isValue_of ev hv⟩, hd⟩

theorem array_text {b : List UInt8} :
    JsonGrammar.Array b → ∃ o vs, b = Utf8.encode o ∧ ArrayOf vs o
  | .empty hw =>
    let ⟨w, hb, hw⟩ := ws_text hw
    ⟨'[' :: (w ++ [']']), [], by rw [encode_delimited (by decide) (by decide), hb],
      w, rfl, .inl ⟨rfl, hw⟩⟩
  | .elements h =>
    let ⟨s, vs, hb, hs⟩ := elements_text h
    ⟨'[' :: (s ++ [']']), vs, by rw [encode_delimited (by decide) (by decide), hb],
      s, rfl, .inr hs⟩

theorem elements_text {b : List UInt8} :
    JsonGrammar.Elements b → ∃ s vs, b = Utf8.encode s ∧ SepBy (Padded ElementOf) vs s
  | .last h =>
    let ⟨s, v, hb, hs⟩ := element_text h
    ⟨s, [v], hb, .last hs⟩
  | .cons he hes =>
    let ⟨s, v, hb, hs⟩ := element_text he
    let ⟨t, vs, hb', ht⟩ := elements_text hes
    ⟨s ++ ',' :: t, v :: vs,
      by rw [Utf8.encode_append, Utf8.encode_cons_ascii (by decide), hb, hb'], .cons hs ht⟩

theorem element_text {b : List UInt8} :
    JsonGrammar.Element b → ∃ s v, b = Utf8.encode s ∧ Padded ElementOf v s
  | .mk ha hv hb =>
    let ⟨a, ea, ha⟩ := ws_text ha
    let ⟨v, ev⟩ := value_text hv
    let ⟨b, eb, hb⟩ := ws_text hb
    ⟨a ++ (v ++ b), v, by simp [ea, ev, eb], a, v, b, rfl, ha, ⟨rfl, isValue_of ev hv⟩, hb⟩

end

theorem MemberOf.grammar {m : Text × Text} {s : Text} (h : Padded MemberOf m s) :
    JsonGrammar.Member (Utf8.encode s) := by
  obtain ⟨a, _, d, rfl, ha, ⟨b, c, rfl, ⟨ps, hk⟩, hb, hc, hv⟩, hd⟩ := h
  have hstr : JsonGrammar.Str (Utf8.encode m.1) := str_iff.mpr ⟨m.1, ps, rfl, hk⟩
  have hmember := JsonGrammar.Member.mk ha.grammar hstr hb.grammar hc.grammar hv hd.grammar
  simpa [Utf8.encode_cons_ascii (show ':'.toNat < 128 by decide)] using hmember

theorem members_grammar {ms : List (Text × Text)} {s : Text} (h : SepBy (Padded MemberOf) ms s) :
    JsonGrammar.Members (Utf8.encode s) := by
  induction h with
  | last h => exact .last (MemberOf.grammar h)
  | cons h _ ih =>
    rw [Utf8.encode_append, Utf8.encode_cons_ascii (by decide)]
    exact .cons (MemberOf.grammar h) ih

theorem elements_grammar {vs : List Text} {s : Text} (h : SepBy (Padded ElementOf) vs s) :
    JsonGrammar.Elements (Utf8.encode s) := by
  have helement : ∀ {v s}, Padded ElementOf v s → JsonGrammar.Element (Utf8.encode s) := by
    rintro v _ ⟨a, _, b, rfl, ha, ⟨rfl, hv⟩, hb⟩
    rw [Utf8.encode_append, Utf8.encode_append]
    exact .mk ha.grammar hv hb.grammar
  induction h with
  | last h => exact .last (helement h)
  | cons h _ ih =>
    rw [Utf8.encode_append, Utf8.encode_cons_ascii (by decide)]
    exact .cons (helement h) ih

theorem object_iff {b : List UInt8} :
    JsonGrammar.Object b ↔ ∃ o ms, b = Utf8.encode o ∧ ObjectOf ms o := by
  constructor
  · exact object_text
  · rintro ⟨_, ms, rfl, s, rfl, ⟨-, hs⟩ | hs⟩ <;> rw [encode_delimited (by decide) (by decide)]
    · exact .empty hs.grammar
    · exact .members (members_grammar hs)

theorem array_iff {b : List UInt8} :
    JsonGrammar.Array b ↔ ∃ o vs, b = Utf8.encode o ∧ ArrayOf vs o := by
  constructor
  · exact array_text
  · rintro ⟨_, vs, rfl, s, rfl, ⟨-, hs⟩ | hs⟩ <;> rw [encode_delimited (by decide) (by decide)]
    · exact .empty hs.grammar
    · exact .elements (elements_grammar hs)

/-- The kinds of values. -/
theorem isValue_iff {v : Text} : IsValue v ↔
    v ∈ literals ∨
      (∃ t : NumberText, t.WF ∧ v = t.text) ∨ (∃ ps, StrOf ps v) ∨ (∃ ms, ObjectOf ms v) ∨
        ∃ vs, ArrayOf vs v := by
  constructor
  · intro h
    cases h with
    | literal h =>
      obtain ⟨w, hw, hv⟩ := literal_iff.mp h
      exact .inl (Utf8.encode_injective hv ▸ hw)
    | number h =>
      obtain ⟨t, ht, hv⟩ := number_iff.mp h
      exact .inr (.inl ⟨t, ht, Utf8.encode_injective hv⟩)
    | string h =>
      obtain ⟨k, ps, hv, hk⟩ := str_iff.mp h
      obtain rfl := Utf8.encode_injective hv
      exact .inr (.inr (.inl ⟨ps, hk⟩))
    | object h =>
      obtain ⟨o, ms, hv, ho⟩ := object_iff.mp h
      obtain rfl := Utf8.encode_injective hv
      exact .inr (.inr (.inr (.inl ⟨ms, ho⟩)))
    | array h =>
      obtain ⟨o, vs, hv, ho⟩ := array_iff.mp h
      obtain rfl := Utf8.encode_injective hv
      exact .inr (.inr (.inr (.inr ⟨vs, ho⟩)))
  · rintro (h | ⟨t, ht, rfl⟩ | ⟨ps, hk⟩ | ⟨ms, ho⟩ | ⟨vs, ho⟩)
    · exact .literal (literal_iff.mpr ⟨v, h, rfl⟩)
    · exact .number (number_iff.mpr ⟨t, ht, rfl⟩)
    · exact .string (str_iff.mpr ⟨v, ps, rfl, hk⟩)
    · exact .object (object_iff.mpr ⟨v, ms, rfl, ho⟩)
    · exact .array (array_iff.mpr ⟨v, vs, rfl, ho⟩)

end JsonText
