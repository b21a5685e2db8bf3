/-
A block of memory that is read through addresses.

Code that is called through a C interface hands out strings and arrays as addresses in a
buffer.  A read outside of the buffer is `none`, so that a reader that returns a value has
stayed inside.

* `cstr`, `word`, `walk` — a NUL-terminated string, a pointer, and the elements of a
  null-terminated array of pointers, up to the first that fails;
* `StrAt`, `PtrAt`, `ArrayAt` — that the block holds a string, a pointer, an array of
  strings at an address;
* `cstr_eq`, `word_eq`, `walk_eq` — what the block holds is what is read.
-/
import RosUtils.LittleEndian

namespace CMemory

open LittleEndian

/-- Bytes at an address.  No byte is at the null address. -/
structure Block where
  base : ℕ
  bytes : List UInt8
  base_pos : 0 < base

namespace Block

variable (m : Block)

/-! ### Reading -/

/-- The bytes from an address on. -/
def rest (p : ℕ) : Option (List UInt8) :=
  if m.base ≤ p then some (m.bytes.drop (p - m.base)) else none

/-- What stands before the first NUL. -/
def untilNul : List UInt8 → Option (List UInt8)
  | [] => none
  | x :: b => if x = 0 then some [] else (untilNul b).map (x :: ·)

/-- `CStr::from_ptr`: the bytes of the string at an address. -/
def cstr (p : ℕ) : Option (List UInt8) := (m.rest p).bind untilNul

/-- The pointer at an address. -/
def word (p : ℕ) : Option ℕ :=
  (m.rest p).bind fun b => if 8 ≤ b.length then some (ofLe (b.take 8)) else none

theorem word_lt {p q : ℕ} (h : m.word p = some q) : p + 8 ≤ m.base + m.bytes.length := by
  obtain ⟨b, hb, hq⟩ := Option.bind_eq_some_iff.mp h
  rw [rest] at hb
  split at hb
  · next hp =>
    cases hb
    split at hq
    · next hlen =>
      rw [List.length_drop] at hlen
      omega
    · cases hq
  · cases hb

/-- The elements of a null-terminated array of pointers, each as `f` copies it.  The first
that fails ends the walk. -/
def walk {ε α : Type} (f : ℕ → Option (Except ε α)) (p : ℕ) : Option (Except ε (List α)) :=
  match _h : m.word p with
  | none => none
  | some q =>
    if q = 0 then some (.ok [])
    else
      match f q with
      | none => none
      | some (.error e) => some (.error e)
      | some (.ok a) => (walk f (p + 8)).map fun r => r.map (a :: ·)
termination_by m.base + m.bytes.length - p
decreasing_by
  have := m.word_lt ‹m.word p = some q›
  omega

/-! ### What a block holds -/

/-- The bytes are at the address. -/
def Holds (p : ℕ) (b : List UInt8) : Prop := ∃ after, m.rest p = some (b ++ after)

/-- The string is at the address, with its NUL. -/
def StrAt (p : ℕ) (s : List UInt8) : Prop := 0 ∉ s ∧ m.Holds p (s ++ [0])

/-- The pointer is at the address. -/
def PtrAt (p q : ℕ) : Prop := ∃ b, b.length = 8 ∧ ofLe b = q ∧ m.Holds p b

/-- An array of pointers to the strings is at the address, with its null. -/
def ArrayAt (p : ℕ) : List (List UInt8) → Prop
  | [] => m.PtrAt p 0
  | s :: ss => ∃ q, m.PtrAt p q ∧ m.StrAt q s ∧ ArrayAt (p + 8) ss

variable {m}

/-- What stands after some bytes of the block. -/
theorem holds_append (before : List UInt8) {b : List UInt8} (after : List UInt8) {n : ℕ}
    (hn : before.length = n) (h : m.bytes = before ++ (b ++ after)) : m.Holds (m.base + n) b := by
  refine ⟨after, ?_⟩
  rw [rest, if_pos (Nat.le_add_right m.base n), Nat.add_sub_cancel_left, h, ← hn, List.drop_left]

theorem Holds.ne_null {p : ℕ} {b : List UInt8} (h : m.Holds p b) : p ≠ 0 := by
  obtain ⟨after, hrest⟩ := h
  have hpos := m.base_pos
  intro hp
  rw [rest, if_neg (by omega)] at hrest
  cases hrest

theorem untilNul_append {s after : List UInt8} (h : 0 ∉ s) :
    untilNul (s ++ 0 :: after) = some s := by
  induction s with
  | nil => rfl
  | cons x s ih =>
    rw [List.mem_cons, not_or] at h
    rw [List.cons_append, untilNul, if_neg (Ne.symm h.1), ih h.2]
    rfl

theorem cstr_eq {p : ℕ} {s : List UInt8} (h : m.StrAt p s) : m.cstr p = some s := by
  obtain ⟨hnul, after, hrest⟩ := h
  rw [List.append_assoc, List.singleton_append] at hrest
  rw [cstr, hrest]
  exact untilNul_append hnul

theorem word_eq {p q : ℕ} (h : m.PtrAt p q) : m.word p = some q := by
  obtain ⟨b, hlen, rfl, after, hrest⟩ := h
  have hroom : 8 ≤ (b ++ after).length := by
    rw [List.length_append]
    omega
  rw [word, hrest]
  show (if 8 ≤ (b ++ after).length then _ else _) = _
  rw [if_pos hroom, ← hlen, List.take_left]

theorem walk_of_word {ε α : Type} {f : ℕ → Option (Except ε α)} {p q : ℕ}
    (h : m.word p = some q) :
    m.walk f p = if q = 0 then some (.ok []) else
      match f q with
      | none => none
      | some (.error e) => some (.error e)
      | some (.ok a) => (m.walk f (p + 8)).map fun r => r.map (a :: ·) := by
  rw [walk]
  split
  · next hnone =>
    rw [h] at hnone
    cases hnone
  · next q' hq =>
    rw [h] at hq
    cases hq
    rfl

/-- **The walk copies the strings of the array in order**, up to the first that is
refused. -/
theorem walk_eq {ε α : Type} {f : ℕ → Option (Except ε α)} {g : List UInt8 → Except ε α}
    (hf : ∀ q s, m.StrAt q s → f q = some (g s)) {p : ℕ} {ss : List (List UInt8)}
    (h : m.ArrayAt p ss) : m.walk f p = some (ss.mapM g) := by
  induction ss generalizing p with
  | nil =>
    rw [walk_of_word (word_eq h)]
    rfl
  | cons s ss ih =>
    obtain ⟨q, hptr, hstr, hrest⟩ := h
    rw [walk_of_word (word_eq hptr), if_neg hstr.2.ne_null, hf q s hstr, ih hrest,
      List.mapM_cons]
    cases g s with
    | error e => rfl
    | ok a =>
      cases ss.mapM g with
      | error e => rfl
      | ok as => rfl

end Block

end CMemory
