/-
Finding where one JSON-RPC message ends in a stream of bytes.

`frame` skips whitespace, wants an opening brace or bracket, and scans to where
the depth is back at zero, with the contents of strings passed over.  The depth is
a `usize`, so counting it down from zero would be a panic: `frame` is `none` then.

* `frame_complete` — on an object or an array of the JSON grammar, `frame` cuts
  right behind it;
* `frame_stable` — a verdict is final, the depth never goes below zero, and a
  stream yields the same messages however it is cut into chunks.
-/
import Mathlib.Data.List.TakeWhile
import RosUtils.JsonGrammar
import RosUtils.StreamFraming
import RosUtils.Utf8

open JsonGrammar StreamFraming Utf8

namespace Jsonrpc

/-- `Frame`: where the first message in a buffer ends. -/
abbrev Frame := Verdict

/-- `is_ws`: the four bytes JSON counts as whitespace between tokens. -/
def isWs (byte : UInt8) : Bool :=
  byte = ' '.toUInt8 || byte = '\t'.toUInt8 || byte = '\n'.toUInt8 || byte = '\r'.toUInt8

/-! ### The scan -/

/-- What the scan remembers between two bytes. -/
structure Scan where
  depth : ℕ
  inString : Bool
  escaped : Bool
  deriving DecidableEq, Repr

/-- What one byte does to the scan. -/
inductive Scanned where
  | next (s : Scan)
  /-- The byte closes the message. -/
  | done
  /-- `depth -= 1` on a depth of zero. -/
  | underflow
  deriving DecidableEq, Repr

/-- The body of the loop. -/
def Scan.step (s : Scan) (byte : UInt8) : Scanned :=
  if s.inString then
    if s.escaped then .next { s with escaped := false }
    else if byte = '\\'.toUInt8 then .next { s with escaped := true }
    else if byte = '"'.toUInt8 then .next { s with inString := false }
    else .next s
  else if byte = '"'.toUInt8 then .next { s with inString := true }
  else if byte = '{'.toUInt8 ∨ byte = '['.toUInt8 then .next { s with depth := s.depth + 1 }
  else if byte = '}'.toUInt8 ∨ byte = ']'.toUInt8 then
    match s.depth with
    | 0 => .underflow
    | 1 => .done
    | depth + 2 => .next { s with depth := depth + 1 }
  else .next s

/-- The loop over the bytes from the position `pos` on. -/
def scan : Scan → ℕ → List UInt8 → Option Frame
  | _, _, [] => some .incomplete
  | s, pos, byte :: rest =>
    match s.step byte with
    | .next s' => scan s' (pos + 1) rest
    | .done => some (.complete (pos + 1))
    | .underflow => none

/-- `frame`: find the end of the first message in `buf`. -/
def frame (buf : List UInt8) : Option Frame :=
  let i := (buf.takeWhile isWs).length
  match buf.drop i with
  | [] => some .incomplete
  | byte :: rest =>
    if byte = '{'.toUInt8 ∨ byte = '['.toUInt8 then scan ⟨0, false, false⟩ i (byte :: rest)
    else some .invalid

/-! ### Whitespace in front -/

section Front

variable {w rest : List UInt8} {x : UInt8}

theorem frame_of_ws (hw : ∀ y ∈ w, isWs y = true) : frame w = some .incomplete := by
  have htake : w.takeWhile isWs = w := List.takeWhile_eq_self_iff.mpr hw
  simp only [frame, htake, List.drop_length]

/-- The scan starts behind the whitespace. -/
theorem frame_of_front (hw : ∀ y ∈ w, isWs y = true) (hx : isWs x = false) :
    frame (w ++ x :: rest) =
      if x = '{'.toUInt8 ∨ x = '['.toUInt8 then scan ⟨0, false, false⟩ w.length (x :: rest)
      else some .invalid := by
  have htake : (w ++ x :: rest).takeWhile isWs = w := by
    rw [List.takeWhile_append_of_pos hw, List.takeWhile_cons_of_neg (by simp [hx]),
      List.append_nil]
  simp only [frame, htake, List.drop_left]

/-- Every buffer is whitespace, or whitespace in front of a byte that is not. -/
theorem front_cases (b : List UInt8) :
    (∀ y ∈ b, isWs y = true) ∨
      ∃ w x rest, b = w ++ x :: rest ∧ (∀ y ∈ w, isWs y = true) ∧ isWs x = false := by
  induction b with
  | nil => exact .inl nofun
  | cons y b ih =>
    by_cases hy : isWs y = true
    · rcases ih with hb | ⟨w, x, rest, rfl, hw, hx⟩
      · exact .inl (List.forall_mem_cons.mpr ⟨hy, hb⟩)
      · exact .inr ⟨y :: w, x, rest, rfl, List.forall_mem_cons.mpr ⟨hy, hw⟩, hx⟩
    · exact .inr ⟨[], y, b, rfl, nofun, by simpa using hy⟩

end Front

/-! ### Bytes that the scan passes over -/

/-- The scan after all of `b`, if `b` neither closes the message nor underflows. -/
def Scan.run : Scan → List UInt8 → Option Scan
  | s, [] => some s
  | s, byte :: rest =>
    match s.step byte with
    | .next s' => Scan.run s' rest
    | .done => none
    | .underflow => none

section Run

variable {s s' : Scan} {byte : UInt8} {x y : List UInt8}

theorem Scan.run_cons (h : s.step byte = .next s') (y : List UInt8) :
    s.run (byte :: y) = s'.run y := by
  rw [Scan.run, h]

theorem Scan.run_append (h : s.run x = some s') (y : List UInt8) :
    s.run (x ++ y) = s'.run y := by
  induction x generalizing s with
  | nil =>
    obtain rfl : s = s' := by simpa [Scan.run] using h
    rfl
  | cons byte x ih =>
    match hstep : s.step byte with
    | .next s₁ =>
      rw [Scan.run_cons hstep] at h
      rw [List.cons_append, Scan.run_cons hstep]
      exact ih h
    | .done => simp [Scan.run, hstep] at h
    | .underflow => simp [Scan.run, hstep] at h

theorem scan_of_run (h : s.run x = some s') (pos : ℕ) (y : List UInt8) :
    scan s pos (x ++ y) = scan s' (pos + x.length) y := by
  induction x generalizing s pos with
  | nil =>
    obtain rfl : s = s' := by simpa [Scan.run] using h
    rfl
  | cons byte x ih =>
    match hstep : s.step byte with
    | .next s₁ =>
      rw [Scan.run_cons hstep] at h
      rw [List.cons_append, scan, hstep]
      dsimp only
      rw [ih h, List.length_cons, Nat.add_assoc, Nat.add_comm 1]
    | .done => simp [Scan.run, hstep] at h
    | .underflow => simp [Scan.run, hstep] at h

end Run

/-- Between two tokens. -/
abbrev outside (depth : ℕ) : Scan := ⟨depth, false, false⟩

/-- Between two characters of a string. -/
abbrev inside (depth : ℕ) : Scan := ⟨depth, true, false⟩

/-- Inside a message, the scan passes over `x` and is where it was. -/
def Neutral (x : List UInt8) : Prop :=
  ∀ d, (outside (d + 1)).run x = some (outside (d + 1))

theorem Neutral.append {x y : List UInt8} (hx : Neutral x) (hy : Neutral y) :
    Neutral (x ++ y) := by
  intro d
  rw [Scan.run_append (hx d)]
  exact hy d

theorem Neutral.cons {byte : UInt8} {x : List UInt8} (hb : Neutral [byte]) (hx : Neutral x) :
    Neutral (byte :: x) :=
  hb.append hx

theorem step_plain {byte : UInt8} (h : byte ∉ ascii "\"\x7b\x7d[]") (d : ℕ) :
    (outside d).step byte = .next (outside d) := by
  have hne : ∀ c ∈ ascii "\"\x7b\x7d[]", byte ≠ c := fun c hc heq => h (heq ▸ hc)
  have hquote := hne '"'.toUInt8 (by decide)
  have hobj := hne '{'.toUInt8 (by decide)
  have hobj' := hne '}'.toUInt8 (by decide)
  have harr := hne '['.toUInt8 (by decide)
  have harr' := hne ']'.toUInt8 (by decide)
  simp only [Scan.step, Bool.false_eq_true, if_false, hquote, hobj, hobj', harr, harr', or_self]

theorem neutral_of_plain {x : List UInt8} (h : Plain x) : Neutral x := by
  intro d
  induction x with
  | nil => rfl
  | cons byte x ih =>
    rw [Scan.run_cons (step_plain (h byte List.mem_cons_self) (d + 1))]
    exact ih fun y hy => h y (List.mem_cons_of_mem byte hy)

/-! ### A value leaves the scan where it was -/

/-- The scan passes over the characters of a string. -/
theorem run_character {c : List UInt8} (h : Character c) (d : ℕ) :
    (inside d).run c = some (inside d) := by
  cases h with
  | unescaped c hctl hquote hslash =>
    have hbytes : ∀ x ∈ String.utf8EncodeChar c, x ≠ '\\'.toUInt8 ∧ x ≠ '"'.toUInt8 :=
      fun x hx => ⟨encodeChar_ne (by decide) hslash hx, encodeChar_ne (by decide) hquote hx⟩
    generalize String.utf8EncodeChar c = bytes at hbytes
    induction bytes with
    | nil => rfl
    | cons x bytes ih =>
      obtain ⟨hx, hx'⟩ := hbytes x List.mem_cons_self
      have hstep : (inside d).step x = .next (inside d) := by
        simp only [Scan.step, if_true, Bool.false_eq_true, if_false, hx, hx']
      rw [Scan.run_cons hstep]
      exact ih fun y hy => hbytes y (List.mem_cons_of_mem x hy)
  | escaped hx =>
    -- whatever stands behind the backslash is passed over
    rfl
  | unicode ha hb hc hd =>
    have hhex : ∀ x, HexDigit x → (inside d).step x = .next (inside d) := by
      intro x hx
      have hslash : '\\'.toUInt8 ∉ ascii "0123456789abcdefABCDEF" := by decide
      have hquote : '"'.toUInt8 ∉ ascii "0123456789abcdefABCDEF" := by decide
      have h1 : x ≠ '\\'.toUInt8 := fun h => hslash (h ▸ hx)
      have h2 : x ≠ '"'.toUInt8 := fun h => hquote (h ▸ hx)
      simp only [Scan.step, if_true, Bool.false_eq_true, if_false, h1, h2]
    have hesc : (inside d).run ['\\'.toUInt8, 'u'.toUInt8] = some (inside d) := rfl
    show (inside d).run (['\\'.toUInt8, 'u'.toUInt8] ++ _) = _
    rw [Scan.run_append hesc, Scan.run_cons (hhex _ ha), Scan.run_cons (hhex _ hb),
      Scan.run_cons (hhex _ hc), Scan.run_cons (hhex _ hd)]
    rfl

theorem run_characters {s : List UInt8} (h : Characters s) (d : ℕ) :
    (inside d).run s = some (inside d) := by
  induction h with
  | nil => rfl
  | cons hc hs ih => rw [Scan.run_append (run_character hc d), ih]

theorem neutral_of_str {s : List UInt8} (h : Str s) : Neutral s := by
  intro d
  cases h with
  | quoted hs =>
    have hopen : (outside (d + 1)).step '"'.toUInt8 = .next (inside (d + 1)) := rfl
    rw [Scan.run_cons hopen, Scan.run_append (run_characters hs (d + 1))]
    rfl

/-- Delimiters around what is neutral; which of the two kinds does not matter. -/
theorem neutral_enclosed {l r : UInt8} {x : List UInt8}
    (hl : l = '{'.toUInt8 ∨ l = '['.toUInt8) (hr : r = '}'.toUInt8 ∨ r = ']'.toUInt8)
    (hx : Neutral x) : Neutral (l :: (x ++ [r])) := by
  intro d
  have hopen : (outside (d + 1)).step l = .next (outside (d + 2)) := by
    rcases hl with rfl | rfl <;> rfl
  have hclose : (outside (d + 2)).step r = .next (outside (d + 1)) := by
    rcases hr with rfl | rfl <;> rfl
  rw [Scan.run_cons hopen, Scan.run_append (hx (d + 1)), Scan.run_cons hclose]
  rfl

/-- What an object or an array has between its delimiters is neutral. -/
def Encloses (s : List UInt8) : Prop :=
  ∃ l x r, s = l :: (x ++ [r]) ∧ (l = '{'.toUInt8 ∨ l = '['.toUInt8) ∧
    (r = '}'.toUInt8 ∨ r = ']'.toUInt8) ∧ Neutral x

theorem Encloses.neutral {s : List UInt8} (h : Encloses s) : Neutral s := by
  obtain ⟨l, x, r, rfl, hl, hr, hx⟩ := h
  exact neutral_enclosed hl hr hx

theorem neutral_ws {w : List UInt8} (h : Ws w) : Neutral w := neutral_of_plain h.plain

mutual

theorem neutral_of_value {s : List UInt8} : Value s → Neutral s
  | .literal h => neutral_of_plain (literal_plain h)
  | .number h => neutral_of_plain h.plain
  | .string h => neutral_of_str h
  | .object h => (encloses_of_object h).neutral
  | .array h => (encloses_of_array h).neutral

theorem encloses_of_object {s : List UInt8} : Object s → Encloses s
  | .empty hw => ⟨_, _, _, rfl, .inl rfl, .inl rfl, neutral_ws hw⟩
  | .members h => ⟨_, _, _, rfl, .inl rfl, .inl rfl, neutral_of_members h⟩

theorem neutral_of_members {s : List UInt8} : Members s → Neutral s
  | .last h => neutral_of_member h
  | .cons hm hs =>
    (neutral_of_member hm).append ((neutral_of_plain (by decide)).cons (neutral_of_members hs))

theorem neutral_of_member {s : List UInt8} : Member s → Neutral s
  | .mk ha hk hb hc hv hd =>
    (neutral_ws ha).append <| (neutral_of_str hk).append <| (neutral_ws hb).append <|
      (neutral_of_plain (by decide)).cons <|
        (neutral_ws hc).append <| (neutral_of_value hv).append (neutral_ws hd)

theorem encloses_of_array {s : List UInt8} : JsonGrammar.Array s → Encloses s
  | .empty hw => ⟨_, _, _, rfl, .inr rfl, .inr rfl, neutral_ws hw⟩
  | .elements h => ⟨_, _, _, rfl, .inr rfl, .inr rfl, neutral_of_elements h⟩

theorem neutral_of_elements {s : List UInt8} : Elements s → Neutral s
  | .last h => neutral_of_element h
  | .cons he hs =>
    (neutral_of_element he).append ((neutral_of_plain (by decide)).cons (neutral_of_elements hs))

theorem neutral_of_element {s : List UInt8} : Element s → Neutral s
  | .mk ha hv hb => (neutral_ws ha).append ((neutral_of_value hv).append (neutral_ws hb))

end

theorem isWs_of_ws {w : List UInt8} (h : Ws w) : ∀ x ∈ w, isWs x = true := by
  have hall : (ascii " \t\n\r").all isWs = true := by decide
  exact fun x hx => List.all_eq_true.mp hall x (h x hx)

/-- What is enclosed in braces or brackets is cut behind the closing one. -/
theorem frame_of_encloses {w j : List UInt8} (hw : ∀ x ∈ w, isWs x = true) (hj : Encloses j)
    (r : List UInt8) : frame (w ++ j ++ r) = some (.complete (w.length + j.length)) := by
  obtain ⟨l, x, c, rfl, hl, hc, hx⟩ := hj
  have hns : isWs l = false := by rcases hl with rfl | rfl <;> rfl
  have hopen : (outside 0).step l = .next (outside 1) := by rcases hl with rfl | rfl <;> rfl
  have hclose : (outside 1).step c = .done := by rcases hc with rfl | rfl <;> rfl
  have hsplit : w ++ l :: (x ++ [c]) ++ r = w ++ l :: (x ++ c :: r) := by simp
  rw [hsplit, frame_of_front hw hns, if_pos hl, scan, hopen]
  dsimp only
  rw [scan_of_run (hx 0), scan, hclose]
  simp only [List.length_cons, List.length_append, List.length_nil]
  congr 2
  omega

/-- **Framing agrees with the JSON grammar**: an object or an array is cut right behind its
closing delimiter, whatever whitespace stands in front and whatever follows. -/
theorem frame_complete {w j : List UInt8} (hw : Ws w)
    (hj : Object j ∨ JsonGrammar.Array j) (r : List UInt8) :
    frame (w ++ j ++ r) = some (.complete (w.length + j.length)) := by
  have hencloses : Encloses j := hj.elim encloses_of_object encloses_of_array
  exact frame_of_encloses (isWs_of_ws hw) hencloses r

/-- An object whose only name is a closing brace, an escaped quote and a character of two
bytes, and whose value is an array of one number. -/
def trickyObject : List UInt8 :=
  [0x7b, 0x22, 0x7d, 0x5c, 0x22, 0xc3, 0xa9, 0x22, 0x3a, 0x5b, 0x37, 0x5d, 0x7d]

theorem trickyObject_object : Object trickyObject := by
  have hname : Str [0x22, 0x7d, 0x5c, 0x22, 0xc3, 0xa9, 0x22] :=
    Str.quoted (Characters.cons (Character.unescaped '}' (by decide) (by decide) (by decide))
      (Characters.cons (Character.escaped (x := 0x22) (by decide))
        (Characters.cons (Character.unescaped 'é' (by decide) (by decide) (by decide))
          Characters.nil)))
  have hdigit : ∀ d ∈ [(0x37 : UInt8)], Digit d :=
    List.forall_mem_singleton.mpr (by unfold Digit; decide)
  have hseven : Number [0x37] :=
    ⟨[], [0x37], [], [], rfl, by decide, .inr ⟨⟨by decide, hdigit⟩, by decide⟩, .inl rfl, .inl rfl⟩
  have harray : JsonGrammar.Array [0x5b, 0x37, 0x5d] :=
    Array.elements (Elements.last (Element.mk (a := []) (b := []) nofun (Value.number hseven) nofun))
  exact Object.members (Members.last (Member.mk (a := []) (b := []) (c := []) (d := []) nofun hname
    nofun nofun (Value.array harray) nofun))

theorem frame_trickyObject :
    frame ([0x20, 0x0a] ++ trickyObject ++ [0x7d]) = some (.complete 15) :=
  frame_complete (by decide) (.inl trickyObject_object) _

/-! ### A verdict is final -/

section Stable

variable {s : Scan} {pos n : ℕ} {b : List UInt8}

theorem scan_complete_append (h : scan s pos b = some (.complete n)) (r : List UInt8) :
    scan s pos (b ++ r) = some (.complete n) := by
  induction b generalizing s pos with
  | nil => cases h
  | cons byte b ih =>
    rw [List.cons_append]
    rw [scan] at h ⊢
    match hstep : s.step byte with
    | .next s' =>
      rw [hstep] at h
      exact ih h
    | .done =>
      rw [hstep] at h
      exact h
    | .underflow =>
      rw [hstep] at h
      cases h

theorem scan_complete_bounds (h : scan s pos b = some (.complete n)) :
    pos < n ∧ n ≤ pos + b.length := by
  induction b generalizing s pos with
  | nil => cases h
  | cons byte b ih =>
    rw [scan] at h
    rw [List.length_cons]
    match hstep : s.step byte with
    | .next s' =>
      rw [hstep] at h
      obtain ⟨h1, h2⟩ := ih h
      omega
    | .done =>
      rw [hstep] at h
      cases h
      omega
    | .underflow =>
      rw [hstep] at h
      cases h

theorem scan_ne_invalid : scan s pos b ≠ some .invalid := by
  induction b generalizing s pos with
  | nil => exact nofun
  | cons byte b ih =>
    rw [scan]
    split
    · exact ih
    · exact nofun
    · exact nofun

/-- Inside a message no byte takes the depth below one without ending it. -/
theorem step_depth_pos (hs : 0 < s.depth) (byte : UInt8) :
    s.step byte = .done ∨ ∃ s', s.step byte = .next s' ∧ 0 < s'.depth := by
  obtain ⟨depth, inString, escaped⟩ := s
  simp only [Scan.step]
  split_ifs
  all_goals try exact .inr ⟨_, rfl, hs⟩
  · exact .inr ⟨_, rfl, Nat.succ_pos _⟩
  · -- a closing delimiter
    match depth, hs with
    | 1, _ => exact .inl rfl
    | depth + 2, _ => exact .inr ⟨_, rfl, Nat.succ_pos _⟩

theorem scan_isSome (hs : 0 < s.depth) (pos : ℕ) (b : List UInt8) : (scan s pos b).isSome := by
  induction b generalizing s pos with
  | nil => rfl
  | cons byte b ih =>
    rw [scan]
    rcases step_depth_pos hs byte with h | ⟨s', h, hs'⟩
    · rw [h]
      rfl
    · rw [h]
      exact ih hs' (pos + 1)

end Stable

/-- **The depth never goes below zero**: the scan starts on an opening delimiter. -/
theorem frame_isSome (b : List UInt8) : (frame b).isSome := by
  rcases front_cases b with hb | ⟨w, x, rest, rfl, hw, hx⟩
  · rw [frame_of_ws hb]
    rfl
  · rw [frame_of_front hw hx]
    split
    · next hopen =>
      have hstep : (outside 0).step x = .next (outside 1) := by rcases hopen with rfl | rfl <;> rfl
      rw [scan, hstep]
      exact scan_isSome Nat.one_pos _ _
    · rfl

/-- A verdict other than "not yet" is due to the first byte behind the whitespace. -/
theorem exists_front_of_frame {b : List UInt8} {v : Frame} (h : frame b = some v)
    (hv : v ≠ .incomplete) : ∃ w x rest, b = w ++ x :: rest ∧ (∀ y ∈ w, isWs y = true) ∧
      isWs x = false ∧
      (if x = '{'.toUInt8 ∨ x = '['.toUInt8 then scan ⟨0, false, false⟩ w.length (x :: rest)
        else some .invalid) = some v := by
  rcases front_cases b with hb | ⟨w, x, rest, rfl, hw, hx⟩
  · rw [frame_of_ws hb] at h
    exact absurd (Option.some.inj h).symm hv
  · rw [frame_of_front hw hx] at h
    exact ⟨w, x, rest, rfl, hw, hx, h⟩

theorem frame_complete_append {b : List UInt8} {n : ℕ} (h : frame b = some (.complete n))
    (r : List UInt8) : frame (b ++ r) = some (.complete n) := by
  obtain ⟨w, x, rest, rfl, hw, hx, h⟩ := exists_front_of_frame h nofun
  rw [List.append_assoc, List.cons_append, frame_of_front hw hx]
  split at h
  · next hopen =>
    rw [if_pos hopen]
    exact scan_complete_append h r
  · cases h

theorem frame_invalid_append {b : List UInt8} (h : frame b = some .invalid) (r : List UInt8) :
    frame (b ++ r) = some .invalid := by
  obtain ⟨w, x, rest, rfl, hw, hx, h⟩ := exists_front_of_frame h nofun
  rw [List.append_assoc, List.cons_append, frame_of_front hw hx]
  split at h
  · exact absurd h scan_ne_invalid
  · next hopen => rw [if_neg hopen]

theorem frame_complete_bounds {b : List UInt8} {n : ℕ} (h : frame b = some (.complete n)) :
    0 < n ∧ n ≤ b.length := by
  obtain ⟨w, x, rest, rfl, hw, hx, h⟩ := exists_front_of_frame h nofun
  split at h
  · obtain ⟨h1, h2⟩ := scan_complete_bounds h
    rw [List.length_append]
    omega
  · cases h

/-- The verdict `frame` always has. -/
def verdict (b : List UInt8) : Frame := (frame b).get (frame_isSome b)

theorem verdict_eq_iff {b : List UInt8} {v : Frame} : verdict b = v ↔ frame b = some v := by
  rw [verdict]
  constructor
  · rintro rfl
    exact (Option.some_get _).symm
  · intro h
    simp only [h, Option.get_some]

/-- `frame` as a framer. -/
def framer : Framer UInt8 where
  verdict := verdict
  nil := rfl
  pos h := (frame_complete_bounds (verdict_eq_iff.mp h)).1
  le h := (frame_complete_bounds (verdict_eq_iff.mp h)).2
  complete_append h r := verdict_eq_iff.mpr (frame_complete_append (verdict_eq_iff.mp h) r)
  invalid_append h r := verdict_eq_iff.mpr (frame_invalid_append (verdict_eq_iff.mp h) r)

/-- **Framing does not depend on how the stream is cut.**  The messages, the bytes they took
and the last verdict are those of the whole stream; a message is not complete before its
last byte, and a verdict other than `incomplete` stands whatever follows; and the depth
never goes below zero. -/
theorem frame_stable :
    (∀ (stream : List UInt8) (chunks : List (List UInt8)), chunks.flatten = stream →
      (framer.receive chunks).outcome = (framer.receive [stream]).outcome) ∧
    (∀ b n, frame b = some (.complete n) → n ≤ b.length ∧
      (∀ p, p <+: b → p.length < n → frame p = some .incomplete) ∧
      ∀ r, frame (b ++ r) = some (.complete n)) ∧
    (∀ b, frame b = some .invalid → ∀ r, frame (b ++ r) = some .invalid) ∧
    ∀ b, frame b ≠ none := by
  refine ⟨?_, ?_, fun b => frame_invalid_append, ?_⟩
  · rintro stream chunks rfl
    exact framer.receive_flatten chunks
  · intro b n h
    refine ⟨(frame_complete_bounds h).2, fun p hp hlt => ?_, frame_complete_append h⟩
    exact verdict_eq_iff.mp (framer.incomplete_of_lt (verdict_eq_iff.mpr h) hp hlt)
  · intro b h
    have hsome := frame_isSome b
    rw [h] at hsome
    cases hsome

end Jsonrpc
