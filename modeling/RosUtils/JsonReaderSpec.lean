/-
The reader accepts the grammar.

A reader is sound for a notion of the grammar if what it takes off the front of a
text is spelled so, and complete if it takes such a spelling off whenever what
follows can follow a value (`Follow`): a number ends only where the next character
is not part of it.  The readers of characters, strings and numbers are settled one
by one; `list` and `member` carry the two properties from their parts to the whole;
and `ignoreValue` has them by induction on the steps it may take, of which it needs
no more than there are characters.

`fromStr_ok` states the result for a whole text: it is read exactly when it is a
spelling with whitespace around it.
-/
import RosUtils.JsonReader

open ExceptState JsonText

namespace JsonReader

variable {α β : Type}

/-- What `p` takes off the front is spelled as `G` says. -/
def Sound (p : Parser α) (G : α → Text → Prop) : Prop :=
  ∀ ⦃s a t⦄, p.run s = .ok (a, t) → ∃ c, s = c ++ t ∧ G a c

/-- What may stand behind a value. -/
def Follow (t : Text) : Prop :=
  ∀ c, t.head? = some c → isWs c = true ∨ c = ',' ∨ c = ']' ∨ c = '}'

/-- A spelling of at most `n` characters is taken off the front. -/
def Complete (n : ℕ) (p : Parser α) (G : α → Text → Prop) : Prop :=
  ∀ ⦃a c⦄, G a c → c.length ≤ n → ∀ ⦃t⦄, Follow t → p.run (c ++ t) = .ok (a, t)

/-! ### Characters -/

/-- What is taken while `p` holds, in front of what does not begin with it. -/
theorem takeWhile_dropWhile_iff {p : Char → Bool} {s x t : Text} :
    s.takeWhile p = x ∧ s.dropWhile p = t ↔
      s = x ++ t ∧ (∀ c ∈ x, p c = true) ∧ ∀ c, t.head? = some c → p c = false := by
  constructor
  · rintro ⟨rfl, rfl⟩
    refine ⟨List.takeWhile_append_dropWhile.symm, fun c hc => ?_, fun c hc => ?_⟩
    · exact List.all_eq_true.mp List.all_takeWhile c hc
    · have hne : s.dropWhile p ≠ [] := by
        intro hnil
        rw [hnil] at hc
        cases hc
      have hhead := List.head_dropWhile_not p hne
      rw [List.head?_eq_some_head hne] at hc
      cases hc
      exact hhead
  · rintro ⟨rfl, hx, ht⟩
    rw [List.takeWhile_append_of_pos hx, List.dropWhile_append_of_pos hx]
    cases t with
    | nil => simp
    | cons c t =>
      have hc : ¬ p c = true := by simp [ht c rfl]
      rw [List.takeWhile_cons_of_neg hc, List.dropWhile_cons_of_neg hc, List.append_nil]
      exact ⟨rfl, rfl⟩

/-- The text does not begin with whitespace. -/
def NoWs (t : Text) : Prop := ∀ c, t.head? = some c → isWs c = false

theorem noWs_cons {c : Char} (h : isWs c = false) (t : Text) : NoWs (c :: t) := by
  intro x hx
  cases hx
  exact h

theorem skipWs_ok {s t : Text} {x : Unit} (h : skipWs.run s = .ok (x, t)) :
    ∃ w, s = w ++ t ∧ Ws w ∧ NoWs t := by
  cases h
  exact ⟨s.takeWhile isWs, takeWhile_dropWhile_iff.mp ⟨rfl, rfl⟩⟩

theorem skipWs_run {w t : Text} (hw : Ws w) (ht : NoWs t) : skipWs.run (w ++ t) = .ok ((), t) := by
  have hdrop : (w ++ t).dropWhile isWs = t := (takeWhile_dropWhile_iff.mpr ⟨rfl, hw, ht⟩).2
  show Except.ok ((), (w ++ t).dropWhile isWs) = _
  rw [hdrop]

theorem peek_run (s : Text) : peek.run s = .ok (s.head?, s) := rfl

theorem next_ok {e : ErrorCode} {s t : Text} {c : Char} :
    (next e).run s = .ok (c, t) ↔ s = c :: t := by
  cases s with
  | nil => exact ⟨nofun, nofun⟩
  | cons x s =>
    constructor
    · intro h
      cases h
      rfl
    · rintro ⟨⟩
      rfl

theorem expect_ok {c : Char} {e o : ErrorCode} {s t : Text} {x : Unit} :
    (expect c e o).run s = .ok (x, t) ↔ s = c :: t := by
  rw [expect, run_bind_ok]
  simp only [next_ok]
  constructor
  · rintro ⟨y, u, rfl, h⟩
    split at h
    · rename_i hy
      obtain ⟨-, rfl⟩ := run_pure_ok.mp h
      rw [hy]
    · exact absurd h run_throw_ne_ok
  · rintro rfl
    exact ⟨c, t, rfl, by rw [if_pos rfl]; rfl⟩

theorem expect_run {c : Char} {e o : ErrorCode} (t : Text) :
    (expect c e o).run (c :: t) = .ok ((), t) := expect_ok.mpr rfl

theorem ident_ok {w s t : Text} {x : Unit} : (ident w).run s = .ok (x, t) ↔ s = w ++ t := by
  induction w generalizing s with
  | nil =>
    rw [ident, run_pure_ok]
    exact ⟨fun h => h.2, fun h => ⟨rfl, h⟩⟩
  | cons c w ih =>
    rw [ident, run_bind_ok]
    simp only [expect_ok, ih]
    constructor
    · rintro ⟨_, u, rfl, rfl⟩
      rfl
    · rintro rfl
      exact ⟨(), w ++ t, rfl, rfl⟩

/-! ### Strings -/

theorem escape_ok {s t : Text} {p : Piece} :
    escape.run s = .ok (p, t) ↔ ∃ c, s = c ++ t ∧ Spelled ('\\' :: c) p := by
  rw [escape, run_bind_ok]
  simp only [next_ok]
  constructor
  · rintro ⟨x, u, rfl, h⟩
    split at h
    · rename_i hx
      simp only [run_bind_ok, next_ok] at h
      obtain ⟨a, _, rfl, b, _, rfl, c, _, rfl, d, _, rfl, h⟩ := h
      cases hu : hex4 a b c d with
      | none =>
        rw [hu] at h
        exact absurd h run_throw_ne_ok
      | some v =>
        rw [hu] at h
        obtain ⟨rfl, rfl⟩ := run_pure_ok.mp h
        exact ⟨[x, a, b, c, d], rfl, hx ▸ .unicode hu⟩
    · cases hx : escapes.lookup x with
      | none =>
        rw [hx] at h
        exact absurd h run_throw_ne_ok
      | some c =>
        rw [hx] at h
        obtain ⟨rfl, rfl⟩ := run_pure_ok.mp h
        exact ⟨[x], rfl, .escaped hx⟩
  · rintro ⟨c, rfl, h⟩
    cases h with
    | unescaped _ _ _ hslash => exact absurd rfl hslash
    | @escaped x _ h =>
      have hx : x ≠ 'u' := by
        rintro rfl
        cases h
      exact ⟨x, t, rfl, by rw [if_neg hx, h]; rfl⟩
    | unicode h =>
      refine ⟨'u', _, rfl, ?_⟩
      rw [if_pos rfl]
      simp only [run_bind_ok, next_ok]
      exact ⟨_, _, rfl, _, _, rfl, _, _, rfl, _, _, rfl, by rw [h]; rfl⟩

theorem piece_none {s t : Text} : piece.run s = .ok (none, t) ↔ s = '"' :: t := by
  rw [piece, run_bind_ok]
  simp only [next_ok]
  constructor
  · rintro ⟨c, u, rfl, h⟩
    split_ifs at h with hquote hslash hctl
    · obtain ⟨-, rfl⟩ := run_pure_ok.mp h
      rw [hquote]
    · obtain ⟨p, -, hp⟩ := run_map_ok.mp h
      cases hp
    · exact absurd h run_throw_ne_ok
    · obtain ⟨hp, -⟩ := run_pure_ok.mp h
      cases hp
  · rintro rfl
    exact ⟨'"', t, rfl, rfl⟩

theorem piece_some {s t : Text} {p : Piece} :
    piece.run s = .ok (some p, t) ↔ ∃ c, s = c ++ t ∧ Spelled c p := by
  rw [piece, run_bind_ok]
  simp only [next_ok]
  constructor
  · rintro ⟨c, u, rfl, h⟩
    split_ifs at h with hquote hslash hctl
    · obtain ⟨hp, -⟩ := run_pure_ok.mp h
      cases hp
    · obtain ⟨q, hq, hp⟩ := run_map_ok.mp h
      cases hp
      obtain ⟨e, rfl, hspell⟩ := escape_ok.mp hq
      exact ⟨c :: e, rfl, hslash ▸ hspell⟩
    · exact absurd h run_throw_ne_ok
    · obtain ⟨hp, rfl⟩ := run_pure_ok.mp h
      cases hp
      exact ⟨[c], rfl, .unescaped c (Nat.not_lt.mp hctl) hquote hslash⟩
  · rintro ⟨c, rfl, hspell⟩
    cases hspell with
    | unescaped c hctl hquote hslash =>
      refine ⟨c, t, rfl, ?_⟩
      rw [if_neg hquote, if_neg hslash, if_neg (Nat.not_lt.mpr hctl)]
      rfl
    | escaped h =>
      exact ⟨'\\', _, rfl, run_map_of_ok (escape_ok.mpr ⟨_, rfl, .escaped h⟩)⟩
    | unicode h =>
      exact ⟨'\\', _, rfl, run_map_of_ok (escape_ok.mpr ⟨_, rfl, .unicode h⟩)⟩

theorem pieces_sound {n : ℕ} {s t : Text} {ps : List Piece} (h : (pieces n).run s = .ok (ps, t)) :
    ∃ c, s = c ++ '"' :: t ∧ Spell c ps := by
  induction n generalizing s ps with
  | zero => exact absurd h run_throw_ne_ok
  | succ n ih =>
    obtain ⟨p, u, hp, h⟩ := run_bind_ok.mp h
    cases p with
    | none =>
      obtain ⟨rfl, rfl⟩ := run_pure_ok.mp h
      exact ⟨[], piece_none.mp hp, .nil⟩
    | some p =>
      obtain ⟨ps', hps, rfl⟩ := run_map_ok.mp h
      obtain ⟨c, rfl, hc⟩ := piece_some.mp hp
      obtain ⟨c', rfl, hc'⟩ := ih hps
      exact ⟨c ++ c', by simp, .cons hc hc'⟩

theorem spelled_length_pos {c : Text} {p : Piece} (h : Spelled c p) : 0 < c.length := by
  cases h <;> exact Nat.succ_pos _

theorem pieces_run {n : ℕ} {c : Text} {ps : List Piece} (h : Spell c ps) (hn : c.length < n)
    (t : Text) : (pieces n).run (c ++ '"' :: t) = .ok (ps, t) := by
  induction h generalizing n with
  | nil =>
    obtain ⟨n, rfl⟩ := Nat.exists_eq_add_of_lt hn
    exact run_bind_ok.mpr ⟨none, t, piece_none.mpr rfl, rfl⟩
  | @cons c s p ps hc _ ih =>
    have hpos := spelled_length_pos hc
    rw [List.length_append] at hn
    obtain ⟨n, rfl⟩ : ∃ m, n = m + 1 := ⟨n - 1, by omega⟩
    rw [List.append_assoc]
    refine run_bind_ok.mpr ⟨some p, _, piece_some.mpr ⟨c, rfl, hc⟩, ?_⟩
    exact run_map_of_ok (ih (by omega))

/-- The pieces of a string, whose quotes are around them. -/
theorem pieces_sound_str {n : ℕ} {s t : Text} {ps : List Piece}
    (h : (pieces n).run s = .ok (ps, t)) : ∃ c, s = c ++ t ∧ StrOf ps ('"' :: c) := by
  obtain ⟨c, rfl, hc⟩ := pieces_sound h
  exact ⟨c ++ ['"'], by simp, c, rfl, hc⟩

theorem pieces_complete_str {n : ℕ} {c : Text} {ps : List Piece} (h : StrOf ps ('"' :: c))
    (hn : c.length ≤ n) (t : Text) : (pieces n).run (c ++ t) = .ok (ps, t) := by
  obtain ⟨s, hs, hspell⟩ := h
  cases hs
  rw [List.length_append, List.length_singleton] at hn
  rw [List.append_assoc]
  exact pieces_run hspell hn t

theorem decoded_ok {ps : List Piece} {s t : Text} {x : String} :
    (decoded ps).run s = .ok (x, t) ↔ assemble ps = some x.toList ∧ s = t := by
  rw [decoded]
  cases assemble ps with
  | none => exact ⟨fun h => absurd h run_throw_ne_ok, fun h => nomatch h.1⟩
  | some cs =>
    dsimp only
    rw [run_pure_ok, Option.some.injEq]
    refine and_congr_left fun _ => ⟨?_, ?_⟩
    · rintro rfl
      exact String.toList_ofList.symm
    · rintro rfl
      exact String.ofList_toList

theorem str_sound {n : ℕ} {s t : Text} {x : String} (h : (str n).run s = .ok (x, t)) :
    ∃ c, s = c ++ t ∧ StrIs ('"' :: c) x := by
  obtain ⟨ps, u, hps, h⟩ := run_bind_ok.mp h
  obtain ⟨hx, rfl⟩ := decoded_ok.mp h
  obtain ⟨c, rfl, hc⟩ := pieces_sound_str hps
  exact ⟨c, rfl, ps, hc, hx⟩

theorem str_complete {n : ℕ} {c : Text} {x : String} (h : StrIs ('"' :: c) x) (hn : c.length ≤ n)
    (t : Text) : (str n).run (c ++ t) = .ok (x, t) := by
  obtain ⟨ps, hps, hx⟩ := h
  exact run_bind_ok.mpr ⟨ps, t, pieces_complete_str hps hn t, decoded_ok.mpr ⟨hx, rfl⟩⟩

/-! ### Numbers -/

/-- The text does not begin with a digit. -/
def NoDigit (t : Text) : Prop := ∀ c, t.head? = some c → c.isDigit = false

theorem digits_ok {s t ds : Text} :
    digits.run s = .ok (ds, t) ↔ s = ds ++ t ∧ Digits ds ∧ NoDigit t := by
  have hrun : digits.run s = .ok (ds, t) ↔
      (s.takeWhile Char.isDigit = ds ∧ s.dropWhile Char.isDigit = t) ∧ ds ≠ [] := by
    rw [digits, run_bind_ok]
    constructor
    · rintro ⟨x, u, hx, h⟩
      cases hx
      split at h
      · exact absurd h run_throw_ne_ok
      · rename_i hne
        obtain ⟨rfl, rfl⟩ := run_pure_ok.mp h
        exact ⟨⟨rfl, rfl⟩, hne⟩
    · rintro ⟨⟨rfl, rfl⟩, hne⟩
      exact ⟨_, _, rfl, by rw [if_neg hne]; rfl⟩
  rw [hrun, takeWhile_dropWhile_iff]
  exact ⟨fun ⟨⟨h1, h2, h3⟩, h4⟩ => ⟨h1, ⟨h4, h2⟩, h3⟩, fun ⟨h1, ⟨h4, h2⟩, h3⟩ => ⟨⟨h1, h2, h3⟩, h4⟩⟩

theorem integer_ok {s t ds : Text} :
    integer.run s = .ok (ds, t) ↔ s = ds ++ t ∧ Int ds ∧ NoDigit t := by
  rw [integer, run_bind_ok]
  simp only [digits_ok]
  constructor
  · rintro ⟨x, u, ⟨rfl, hx, hu⟩, h⟩
    split at h
    · exact absurd h run_throw_ne_ok
    · rename_i hzero
      obtain ⟨rfl, rfl⟩ := run_pure_ok.mp h
      exact ⟨rfl, ⟨hx, fun h0 => not_not.mp fun hne => hzero ⟨h0, hne⟩⟩, hu⟩
  · rintro ⟨rfl, ⟨hds, hzero⟩, ht⟩
    refine ⟨ds, t, ⟨rfl, hds, ht⟩, ?_⟩
    rw [if_neg fun h => h.2 (hzero h.1)]
    rfl

/-- The sign that stands in front, if any. -/
theorem sign_sound {signs s t x : Text} (h : (sign signs).run s = .ok (x, t)) :
    s = x ++ t ∧ (x = [] ∨ ∃ c ∈ signs, x = [c]) := by
  cases s with
  | nil =>
    cases h
    exact ⟨rfl, .inl rfl⟩
  | cons c s =>
    by_cases hc : c ∈ signs
    · have hrun : (sign signs).run (c :: s) = .ok ([c], s) := if_pos hc
      rw [hrun] at h
      cases h
      exact ⟨rfl, .inr ⟨c, hc, rfl⟩⟩
    · have hrun : (sign signs).run (c :: s) = .ok ([], c :: s) := if_neg hc
      rw [hrun] at h
      cases h
      exact ⟨rfl, .inl rfl⟩

theorem sign_cons {signs : Text} {c : Char} (hc : c ∈ signs) (t : Text) :
    (sign signs).run (c :: t) = .ok ([c], t) := if_pos hc

theorem sign_none {signs t : Text} (ht : ∀ c, t.head? = some c → c ∉ signs) :
    (sign signs).run t = .ok ([], t) := by
  cases t with
  | nil => rfl
  | cons c t => exact if_neg (ht c rfl)

theorem fraction_sound : Sound fraction fun f c => c = f ∧ Frac f := by
  intro s f t h
  obtain ⟨point, u, hpoint, hrest⟩ := run_bind_ok.mp h
  obtain ⟨rfl, rfl | ⟨c, hc, rfl⟩⟩ := sign_sound hpoint
  · obtain ⟨rfl, rfl⟩ := run_pure_ok.mp hrest
    exact ⟨[], rfl, rfl, .inl rfl⟩
  · obtain ⟨ds, hds, rfl⟩ := run_map_ok.mp hrest
    obtain ⟨rfl, hds, -⟩ := digits_ok.mp hds
    obtain rfl := List.mem_singleton.mp hc
    exact ⟨['.'] ++ ds, by simp, rfl, .inr ⟨ds, rfl, hds⟩⟩

theorem fraction_run {f t : Text} (hf : Frac f) (ht : NoDigit t)
    (hpoint : ∀ c, t.head? = some c → c ∉ ['.']) : fraction.run (f ++ t) = .ok (f, t) := by
  rcases hf with rfl | ⟨ds, rfl, hds⟩
  · exact run_bind_ok.mpr ⟨[], t, sign_none hpoint, rfl⟩
  · refine run_bind_ok.mpr ⟨['.'], ds ++ t, sign_cons (by simp) _, ?_⟩
    exact run_map_of_ok (digits_ok.mpr ⟨rfl, hds, ht⟩)

theorem exponent_sound : Sound exponent fun x c => c = x ∧ Exp x := by
  intro s x t h
  obtain ⟨e, u, he, hrest⟩ := run_bind_ok.mp h
  obtain ⟨rfl, rfl | ⟨c, hc, rfl⟩⟩ := sign_sound he
  · obtain ⟨rfl, rfl⟩ := run_pure_ok.mp hrest
    exact ⟨[], rfl, rfl, .inl rfl⟩
  · obtain ⟨pm, u', hpm, hdigits⟩ := run_bind_ok.mp hrest
    obtain ⟨rfl, hsign⟩ := sign_sound hpm
    obtain ⟨ds, hds, rfl⟩ := run_map_ok.mp hdigits
    obtain ⟨rfl, hds, -⟩ := digits_ok.mp hds
    have hsign : pm = [] ∨ pm = ['+'] ∨ pm = ['-'] := by
      rcases hsign with rfl | ⟨d, hd, rfl⟩
      · exact .inl rfl
      · rcases List.mem_pair.mp hd with rfl | rfl
        · exact .inr (.inl rfl)
        · exact .inr (.inr rfl)
    exact ⟨[c] ++ (pm ++ ds), by simp, rfl, .inr ⟨c, pm, ds, rfl, List.mem_pair.mp hc, hsign, hds⟩⟩

theorem exponent_run {x t : Text} (hx : Exp x) (ht : NoDigit t)
    (he : ∀ c, t.head? = some c → c ∉ ['e', 'E']) : exponent.run (x ++ t) = .ok (x, t) := by
  rcases hx with rfl | ⟨e, pm, ds, rfl, he, hsign, hds⟩
  · exact run_bind_ok.mpr ⟨[], t, sign_none he, rfl⟩
  · refine run_bind_ok.mpr ⟨[e], pm ++ (ds ++ t), ?_, ?_⟩
    · rw [List.cons_append, List.append_assoc]
      exact sign_cons (List.mem_pair.mpr he) _
    · refine run_bind_ok.mpr ⟨pm, ds ++ t, ?_, run_map_of_ok (digits_ok.mpr ⟨rfl, hds, ht⟩)⟩
      rcases hsign with rfl | rfl | rfl
      · refine sign_none fun c hc hmem => ?_
        -- the first digit is no sign
        have hdig : c.isDigit = true := by
          cases ds with
          | nil => exact absurd rfl hds.1
          | cons d ds =>
            cases hc
            exact hds.2 c List.mem_cons_self
        rcases List.mem_pair.mp hmem with rfl | rfl <;> cases hdig
      · exact sign_cons (by simp) _
      · exact sign_cons (by simp) _

theorem number_sound : Sound number fun x c => c = x.text ∧ x.WF := by
  intro s x t h
  obtain ⟨minus, u1, hminus, h⟩ := run_bind_ok.mp h
  obtain ⟨int, u2, hint, h⟩ := run_bind_ok.mp h
  obtain ⟨frac, u3, hfrac, h⟩ := run_bind_ok.mp h
  obtain ⟨exp, u4, hexp, h⟩ := run_bind_ok.mp h
  obtain ⟨rfl, rfl⟩ := run_pure_ok.mp h
  obtain ⟨rfl, hsign⟩ := sign_sound hminus
  obtain ⟨rfl, hdigits, -⟩ := integer_ok.mp hint
  obtain ⟨_, rfl, rfl, hpoint⟩ := fraction_sound hfrac
  obtain ⟨_, rfl, rfl, he⟩ := exponent_sound hexp
  refine ⟨_, ?_, rfl, hdigits, hpoint, he⟩
  rcases hsign with rfl | ⟨c, hc, rfl⟩
  · simp [NumberText.text]
  · obtain rfl := List.mem_singleton.mp hc
    simp [NumberText.text]

/-- A character that may stand behind a value is no part of a number. -/
theorem Follow.notMem {t : Text} (ht : Follow t) {L : Text}
    (hL : ∀ c ∈ L, isWs c = false ∧ c ∉ [',', ']', '}']) :
    ∀ c, t.head? = some c → c ∉ L := by
  intro c hc hmem
  obtain ⟨hws, hne⟩ := hL c hmem
  rcases ht c hc with h | h
  · rw [h] at hws
    cases hws
  · exact hne (by simpa using h)

theorem Follow.noDigit {t : Text} (ht : Follow t) : NoDigit t := by
  intro c hc
  have hnot := ht.notMem (L := "0123456789".toList) (forall_mem_of_all (by decide)) c hc
  rw [← isDigit_iff] at hnot
  simpa using hnot

/-- The parts of a number follow each other without a digit in between. -/
theorem noDigit_frac_exp {f x t : Text} (hf : Frac f) (hx : Exp x) (ht : NoDigit t) :
    NoDigit (f ++ (x ++ t)) ∧ NoDigit (x ++ t) := by
  have hexp : NoDigit (x ++ t) := by
    rcases hx with rfl | ⟨e, pm, ds, rfl, he, -⟩
    · exact ht
    · intro c hc
      cases hc
      rcases he with rfl | rfl <;> rfl
  refine ⟨?_, hexp⟩
  rcases hf with rfl | ⟨ds, rfl, -⟩
  · exact hexp
  · intro c hc
    cases hc
    rfl

theorem number_complete (n : ℕ) : Complete n number fun x c => c = x.text ∧ x.WF := by
  rintro ⟨minus, int, frac, exp⟩ _ ⟨rfl, hint, hfrac, hexp⟩ - t ht
  dsimp only at hint hfrac hexp
  obtain ⟨hnodigit, hnodigit'⟩ := noDigit_frac_exp hfrac hexp ht.noDigit
  have hpoint : ∀ c, (exp ++ t).head? = some c → c ∉ ['.'] := by
    rcases hexp with rfl | ⟨e, pm, ds, rfl, he, -⟩
    · exact ht.notMem (forall_mem_of_all (by decide))
    · intro c hc
      cases hc
      rcases he with rfl | rfl <;> decide
  have hnum : (do
      let frac ← fraction
      let exp ← exponent
      pure ⟨minus, int, frac, exp⟩ : Parser NumberText).run (frac ++ (exp ++ t))
        = .ok (⟨minus, int, frac, exp⟩, t) := by
    rw [run_bind_of_ok (fraction_run hfrac hnodigit' hpoint),
      run_bind_of_ok (exponent_run hexp ht.noDigit (ht.notMem (forall_mem_of_all (by decide))))]
    rfl
  have hint' := integer_ok.mpr ⟨rfl, hint, hnodigit⟩
  cases minus with
  | true =>
    show number.run ('-' :: (int ++ (frac ++ exp)) ++ t) = _
    rw [List.cons_append, List.append_assoc, List.append_assoc, number,
      run_bind_of_ok (sign_cons (by simp) _), run_bind_of_ok hint']
    exact hnum
  | false =>
    have hsign : (sign ['-']).run (int ++ (frac ++ (exp ++ t)))
        = .ok ([], int ++ (frac ++ (exp ++ t))) := by
      refine sign_none fun c hc hmem => ?_
      obtain rfl := List.mem_singleton.mp hmem
      have hdig : '-'.isDigit = true := by
        cases int with
        | nil => exact absurd rfl hint.1.1
        | cons d int =>
          cases hc
          exact hint.1.2 _ List.mem_cons_self
      cases hdig
    show number.run ([] ++ (int ++ (frac ++ exp)) ++ t) = _
    rw [List.nil_append, List.append_assoc, List.append_assoc, number, run_bind_of_ok hsign,
      run_bind_of_ok hint']
    exact hnum

/-! ### Lists and members -/

/-- A spelling of `G` begins with a character that is neither whitespace nor `close`. -/
def Begins (close : Char) (G : α → Text → Prop) : Prop :=
  ∀ ⦃a s⦄, G a s → ∃ c s', s = c :: s' ∧ isWs c = false ∧ c ≠ close

theorem follow_ws {w t : Text} (hw : Ws w) (ht : Follow t) : Follow (w ++ t) := by
  cases w with
  | nil => exact ht
  | cons c w =>
    intro x hx
    cases hx
    exact .inl (hw _ List.mem_cons_self)

theorem follow_cons {c : Char} (hc : c ∈ [',', ']', '}']) (t : Text) : Follow (c :: t) := by
  intro x hx
  cases hx
  exact .inr (by simpa using hc)

section Lists

variable {item : Parser α} {G : α → Text → Prop} {l close : Char} {eof sep : ErrorCode} {n : ℕ}

theorem items_sound (hitem : Sound item G) {s t : Text} {as : List α}
    (h : (items item close eof sep n).run s = .ok (as, t)) :
    ∃ c, s = c ++ close :: t ∧ SepBy (Padded G) as c := by
  induction n generalizing s as with
  | zero => exact absurd h run_throw_ne_ok
  | succ n ih =>
    simp only [items, run_bind_ok] at h
    obtain ⟨_, _, hws, a, _, ha, _, _, hws', c, u, hc, hrest⟩ := h
    obtain ⟨w, rfl, hw, -⟩ := skipWs_ok hws
    obtain ⟨v, rfl, hv⟩ := hitem ha
    obtain ⟨w', rfl, hw', -⟩ := skipWs_ok hws'
    obtain rfl := next_ok.mp hc
    have hpad : Padded G a (w ++ (v ++ w')) := ⟨w, v, w', rfl, hw, hv, hw'⟩
    split_ifs at hrest with hcomma hclose
    · obtain ⟨as, has, rfl⟩ := run_map_ok.mp hrest
      obtain ⟨d, rfl, hd⟩ := ih has
      subst hcomma
      exact ⟨_, by simp, .cons hpad hd⟩
    · obtain ⟨rfl, rfl⟩ := run_pure_ok.mp hrest
      subst hclose
      exact ⟨_, by simp, .last hpad⟩
    · exact absurd hrest run_throw_ne_ok

/-- One round of the loop, up to the character behind the item. -/
theorem items_step (hitem : Complete n item G) (hbegins : Begins close G) {m : ℕ} {a : α}
    {s : Text} (hs : Padded G a s) (hn : s.length ≤ n) {c : Char} (hc : c ∈ [',', ']', '}'])
    (t : Text) : (items item close eof sep (m + 1)).run (s ++ c :: t) =
      (if c = ',' then (a :: ·) <$> items item close eof sep m
        else if c = close then pure [a] else throw sep : Parser (List α)).run t := by
  obtain ⟨w, v, w', rfl, hw, hv, hw'⟩ := hs
  have hlen : v.length ≤ n := by
    simp only [List.length_append] at hn
    omega
  have hnows : NoWs (v ++ (w' ++ c :: t)) := by
    obtain ⟨x, v', rfl, hx, -⟩ := hbegins hv
    exact noWs_cons hx _
  have hnows' : NoWs (c :: t) := by
    refine noWs_cons ?_ t
    have hall : ∀ c ∈ [',', ']', '}'], isWs c = false := forall_mem_of_all (by decide)
    exact hall c hc
  rw [items, List.append_assoc, List.append_assoc, run_bind_of_ok (skipWs_run hw hnows),
    run_bind_of_ok (hitem hv hlen (follow_ws hw' (follow_cons hc t))),
    run_bind_of_ok (skipWs_run hw' hnows'), run_bind_of_ok (next_ok.mpr rfl)]

theorem items_complete (hitem : Complete n item G) (hbegins : Begins close G)
    (hclose : close ∈ [']', '}']) {m : ℕ} {as : List α} {s : Text} (h : SepBy (Padded G) as s)
    (hn : s.length ≤ n) (hm : s.length ≤ m) (t : Text) :
    (items item close eof sep m).run (s ++ close :: t) = .ok (as, t) := by
  have hpos : ∀ {a s}, Padded G a s → 0 < s.length := by
    rintro a _ ⟨w, v, w', rfl, -, hv, -⟩
    obtain ⟨x, v', rfl, -⟩ := hbegins hv
    simp only [List.length_append, List.length_cons]
    omega
  induction h generalizing m with
  | last h =>
    have h0 := hpos h
    obtain ⟨m, rfl⟩ : ∃ k, m = k + 1 := ⟨m - 1, by omega⟩
    rw [items_step hitem hbegins h hn (List.mem_cons_of_mem _ hclose) t, if_neg, if_pos rfl]
    · rfl
    · rintro rfl
      simp at hclose
  | @cons a as s s' h _ ih =>
    rw [List.length_append, List.length_cons] at hn hm
    obtain ⟨m, rfl⟩ : ∃ k, m = k + 1 := ⟨m - 1, by omega⟩
    rw [List.append_assoc, List.cons_append,
      items_step hitem hbegins h (by omega) (by simp) _, if_pos rfl]
    exact run_map_of_ok (ih (by omega) (by omega))

theorem list_sound (hitem : Sound item G) :
    Sound (list item close eof sep n) fun as c => Enclosed l close G as (l :: c) := by
  intro s as t h
  obtain ⟨_, u, hws, hrest⟩ := run_bind_ok.mp h
  obtain ⟨w, rfl, hw, -⟩ := skipWs_ok hws
  obtain ⟨c?, _, hpeek, hrest⟩ := run_bind_ok.mp hrest
  cases hpeek
  split_ifs at hrest with hc
  · obtain ⟨_, _, heat, hrest⟩ := run_bind_ok.mp hrest
    cases heat
    obtain ⟨rfl, rfl⟩ := run_pure_ok.mp hrest
    obtain ⟨u, rfl⟩ := List.head?_eq_some_iff.mp hc
    exact ⟨w ++ [close], by simp, w, rfl, .inl ⟨rfl, hw⟩⟩
  · obtain ⟨c, rfl, hc'⟩ := items_sound hitem hrest
    refine ⟨w ++ c ++ [close], by simp, w ++ c, rfl, .inr ?_⟩
    -- the whitespace in front is that of the first item
    have hpad : ∀ {a s}, Padded G a s → Padded G a (w ++ s) := by
      rintro a _ ⟨w1, v, w2, rfl, hw1, hv, hw2⟩
      refine ⟨w ++ w1, v, w2, by simp, fun x hx => ?_, hv, hw2⟩
      exact (List.mem_append.mp hx).elim (hw x) (hw1 x)
    cases hc' with
    | last hfirst => exact .last (hpad hfirst)
    | cons hfirst hmore =>
      rw [← List.append_assoc]
      exact .cons (hpad hfirst) hmore

theorem list_complete (hitem : Complete n item G) (hbegins : Begins close G)
    (hclose : close ∈ [']', '}']) :
    Complete n (list item close eof sep n) fun as c => Enclosed l close G as (l :: c) := by
  rintro as c ⟨s, hs, h⟩ hn t -
  cases hs
  rw [List.length_append, List.length_singleton] at hn
  rw [List.append_assoc, List.singleton_append]
  have hnows : NoWs (close :: t) := by
    refine noWs_cons ?_ t
    have hall : ∀ c ∈ [']', '}'], isWs c = false := forall_mem_of_all (by decide)
    exact hall close hclose
  rcases h with ⟨rfl, hw⟩ | h
  · rw [list, run_bind_of_ok (skipWs_run hw hnows), run_bind_of_ok (peek_run _),
      if_pos List.head?_cons]
    rfl
  · -- the whitespace in front of the first item is skipped here, and not in the loop
    have hskip : ∃ w s', s = w ++ s' ∧ Ws w ∧ SepBy (Padded G) as s' ∧
        ∃ x s'', s' = x :: s'' ∧ isWs x = false ∧ x ≠ close := by
      have hpad : ∀ {a s}, Padded G a s → ∃ w s', s = w ++ s' ∧ Ws w ∧ Padded G a s' ∧
          ∃ x s'', s' = x :: s'' ∧ isWs x = false ∧ x ≠ close := by
        rintro a _ ⟨w, v, w', rfl, hw, hv, hw'⟩
        obtain ⟨x, v', rfl, hx⟩ := hbegins hv
        exact ⟨w, _, rfl, hw, ⟨[], _, w', rfl, nofun, hv, hw'⟩, x, _, rfl, hx⟩
      cases h with
      | last h =>
        obtain ⟨w, s', rfl, hw, hs', hx⟩ := hpad h
        exact ⟨w, s', rfl, hw, .last hs', hx⟩
      | cons h ht =>
        obtain ⟨w, s', rfl, hw, hs', x, s'', rfl, hx⟩ := hpad h
        exact ⟨w, _, by simp, hw, .cons hs' ht, x, _, rfl, hx⟩
    obtain ⟨w, _, rfl, hw, h', x, s', rfl, hx, hne⟩ := hskip
    rw [List.append_assoc, list, List.cons_append,
      run_bind_of_ok (skipWs_run hw (noWs_cons hx _)), run_bind_of_ok (peek_run _),
      List.head?_cons, if_neg fun h => hne (Option.some.inj h)]
    rw [List.length_append] at hn
    exact items_complete hitem hbegins hclose h' (by omega) (by omega) t

theorem listOf_complete (hitem : Complete n item G) (hbegins : Begins ']' G) :
    Complete n (listOf item n) fun as c => Enclosed '[' ']' G as ('[' :: c) :=
  list_complete hitem hbegins (by decide)

theorem objectOf_complete (hitem : Complete n item G) (hbegins : Begins '}' G) :
    Complete n (objectOf item n) fun as c => Enclosed '{' '}' G as ('{' :: c) :=
  list_complete hitem hbegins (by decide)

end Lists

/-- A name, a colon and a value, with what they stand for. -/
def Named (N : α → Text → Prop) (V : β → Text → Prop) (m : α × β) (s : Text) : Prop :=
  ∃ k w w' v, s = k ++ (w ++ ':' :: (w' ++ v)) ∧ N m.1 k ∧ Ws w ∧ Ws w' ∧ V m.2 v

section Member

variable {name : Parser α} {val : Parser β} {N : α → Text → Prop} {V : β → Text → Prop}

theorem member_sound (hname : Sound name fun a k => N a ('"' :: k)) (hval : Sound val V) :
    Sound (member name val) (Named N V) := by
  rintro s ⟨a, b⟩ t h
  simp only [member, run_bind_ok] at h
  obtain ⟨_, _, hquote, a, _, ha, _, _, hws, _, _, hcolon, _, _, hws', b, _, hb, hrest⟩ := h
  obtain ⟨heq, rfl⟩ := run_pure_ok.mp hrest
  cases heq
  obtain rfl := expect_ok.mp hquote
  obtain ⟨k, rfl, hk⟩ := hname ha
  obtain ⟨w, rfl, hw, -⟩ := skipWs_ok hws
  obtain rfl := expect_ok.mp hcolon
  obtain ⟨w', rfl, hw', -⟩ := skipWs_ok hws'
  obtain ⟨v, rfl, hv⟩ := hval hb
  exact ⟨_, by simp, '"' :: k, w, w', v, rfl, hk, hw, hw', hv⟩

theorem member_complete {n : ℕ}
    (hname : ∀ ⦃a k⦄, N a k → k.length ≤ n →
      ∃ k', k = '"' :: k' ∧ ∀ t, name.run (k' ++ t) = .ok (a, t))
    (hval : Complete n val V) (hbegins : Begins ':' V) :
    Complete n (member name val) (Named N V) := by
  rintro ⟨a, b⟩ _ ⟨k, w, w', v, rfl, hk, hw, hw', hv⟩ hn t ht
  simp only [List.length_append, List.length_cons] at hn
  obtain ⟨k', rfl, hrun⟩ := hname hk (by omega)
  have hnows : NoWs (v ++ t) := by
    obtain ⟨x, v', rfl, hx, -⟩ := hbegins hv
    exact noWs_cons hx _
  have hcolon : NoWs (':' :: (w' ++ (v ++ t))) := noWs_cons (by decide) _
  rw [List.cons_append, List.cons_append, List.append_assoc, List.append_assoc, List.cons_append,
    List.append_assoc, member, run_bind_of_ok (expect_run _), run_bind_of_ok (hrun _),
    run_bind_of_ok (skipWs_run hw hcolon), run_bind_of_ok (expect_run _),
    run_bind_of_ok (skipWs_run hw' hnows), run_bind_of_ok (hval hv (by omega) ht)]
  rfl

end Member

/-! ### Values -/

theorem run_discard_ok {p : Parser α} {s t : Text} {x : Unit} :
    (discard p).run s = .ok (x, t) ↔ ∃ a, p.run s = .ok (a, t) := by
  show ((fun _ => ()) <$> p).run s = _ ↔ _
  rw [run_map_ok]
  exact ⟨fun ⟨a, h, _⟩ => ⟨a, h⟩, fun ⟨a, h⟩ => ⟨a, h, rfl⟩⟩

/-- How a number begins. -/
theorem number_begins {x : NumberText} (h : x.WF) :
    ∃ c s, x.text = c :: s ∧ c ∈ "-0123456789".toList := by
  obtain ⟨minus, int, frac, exp⟩ := x
  obtain ⟨⟨⟨hne, hdigits⟩, -⟩, -, -⟩ := h
  cases minus with
  | true => exact ⟨'-', _, rfl, by decide⟩
  | false =>
    obtain ⟨d, int, rfl⟩ := List.exists_cons_of_ne_nil hne
    exact ⟨d, _, rfl, List.mem_cons_of_mem _ (isDigit_iff.mp (hdigits d List.mem_cons_self))⟩

/-- No other value begins as a number does. -/
theorem number_branch : ∀ c ∈ "-0123456789".toList,
    c ≠ 'n' ∧ c ≠ 't' ∧ c ≠ 'f' ∧ c ≠ '"' ∧ c ≠ '[' ∧ c ≠ '{' ∧ (c = '-' ∨ c.isDigit) :=
  forall_mem_of_all (by decide)

/-- How a value begins. -/
theorem isValue_begins {v : Text} (h : IsValue v) :
    ∃ c s, v = c :: s ∧ c ∈ "tfn\"[\x7b-0123456789".toList := by
  rcases isValue_iff.mp h with hlit | ⟨x, hx, rfl⟩ | ⟨ps, s, rfl, -⟩ | ⟨ms, s, rfl, -⟩ |
    ⟨vs, s, rfl, -⟩
  · have hall : ∀ v ∈ literals, ∃ c s, v = c :: s ∧ c ∈ "tfn\"[\x7b-0123456789".toList := by
      simp [literals]
    exact hall v hlit
  · obtain ⟨c, s, hxs, hc⟩ := number_begins hx
    have hall : ∀ c ∈ "-0123456789".toList, c ∈ "tfn\"[\x7b-0123456789".toList :=
      forall_mem_of_all (by decide)
    exact ⟨c, s, hxs, hall c hc⟩
  · exact ⟨'"', _, rfl, by decide⟩
  · exact ⟨'{', _, rfl, by decide⟩
  · exact ⟨'[', _, rfl, by decide⟩

theorem begins_of_isValue {close : Char} (hclose : close ∈ [']', '}', ':']) {G : α → Text → Prop}
    (hG : ∀ ⦃a s⦄, G a s → IsValue s) : Begins close G := by
  intro a s h
  obtain ⟨c, s, rfl, hc⟩ := isValue_begins (hG h)
  have hall : ∀ c ∈ "tfn\"[\x7b-0123456789".toList, isWs c = false ∧ c ∉ [']', '}', ':'] :=
    forall_mem_of_all (by decide)
  obtain ⟨hws, hnot⟩ := hall c hc
  exact ⟨c, s, rfl, hws, fun h => hnot (h ▸ hclose)⟩

theorem begins_named {N : α → Text → Prop} {V : β → Text → Prop}
    (hN : ∀ ⦃a k⦄, N a k → ∃ k', k = '"' :: k') : Begins '}' (Named N V) := by
  rintro m _ ⟨k, w, w', v, rfl, hk, -⟩
  obtain ⟨k', rfl⟩ := hN hk
  exact ⟨'"', _, rfl, by decide, by decide⟩

/-- A text that is a value, whatever it holds. -/
abbrev AnyValue (_ : Unit) (v : Text) : Prop := IsValue v

/-- The names of an object are strings of whatever pieces. -/
abbrev AnyMember : List Piece × Unit → Text → Prop := Named StrOf AnyValue

theorem ignoreValue_sound (n : ℕ) : Sound (ignoreValue n) AnyValue := by
  induction n with
  | zero => exact fun _ _ _ h => absurd h run_throw_ne_ok
  | succ n ih =>
    intro s x t h
    obtain ⟨_, _, hpeek, hrest⟩ := run_bind_ok.mp h
    cases hpeek
    cases s with
    | nil => exact absurd hrest run_throw_ne_ok
    | cons c s =>
      dsimp only [List.head?_cons] at hrest
      -- the first character decides what is skipped
      split_ifs at hrest with hn ht hf hquote hbracket hbrace hnum
      · exact ⟨_, ident_ok.mp hrest, isValue_iff.mpr (.inl (by decide))⟩
      · exact ⟨_, ident_ok.mp hrest, isValue_iff.mpr (.inl (by decide))⟩
      · exact ⟨_, ident_ok.mp hrest, isValue_iff.mpr (.inl (by decide))⟩
      · obtain ⟨_, _, heat, hrest⟩ := run_bind_ok.mp hrest
        cases heat
        obtain ⟨ps, hps⟩ := run_discard_ok.mp hrest
        obtain ⟨k, rfl, hk⟩ := pieces_sound_str hps
        exact ⟨c :: k, rfl, isValue_iff.mpr (.inr (.inr (.inl ⟨ps, hquote ▸ hk⟩)))⟩
      · obtain ⟨_, _, heat, hrest⟩ := run_bind_ok.mp hrest
        cases heat
        obtain ⟨as, has⟩ := run_discard_ok.mp hrest
        obtain ⟨o, rfl, ho⟩ := list_sound (l := '[') ih has
        obtain ⟨vs, -, hvs⟩ := ho.transfer (H := ElementOf) (R := fun _ _ => True)
          fun _ v hv => ⟨v, trivial, rfl, hv⟩
        subst hbracket
        exact ⟨_, rfl, isValue_iff.mpr (.inr (.inr (.inr (.inr ⟨vs, hvs⟩))))⟩
      · obtain ⟨_, _, heat, hrest⟩ := run_bind_ok.mp hrest
        cases heat
        obtain ⟨as, has⟩ := run_discard_ok.mp hrest
        obtain ⟨o, rfl, ho⟩ := list_sound (l := '{') (member_sound (N := StrOf)
          (fun _ _ _ h => pieces_sound_str h) ih) has
        obtain ⟨ms, -, hms⟩ := ho.transfer (H := MemberOf) (R := fun _ _ => True) (by
          rintro m _ ⟨k, w, w', v, rfl, hk, hw, hw', hv⟩
          exact ⟨(k, v), trivial, w, w', rfl, ⟨m.1, hk⟩, hw, hw', hv⟩)
        subst hbrace
        exact ⟨_, rfl, isValue_iff.mpr (.inr (.inr (.inr (.inl ⟨ms, hms⟩))))⟩
      · obtain ⟨x, hx⟩ := run_discard_ok.mp hrest
        obtain ⟨_, hs, rfl, hwf⟩ := number_sound hx
        exact ⟨_, hs, isValue_iff.mpr (.inr (.inl ⟨x, hwf, rfl⟩))⟩
      · exact absurd hrest run_throw_ne_ok

/-- A string, behind its opening quote, is taken off whatever follows. -/
theorem pieces_named {n : ℕ} ⦃ps : List Piece⦄ ⦃k : Text⦄ (h : StrOf ps k) (hn : k.length ≤ n) :
    ∃ k', k = '"' :: k' ∧ ∀ t, (pieces n).run (k' ++ t) = .ok (ps, t) := by
  obtain ⟨s, rfl, hs⟩ := h
  rw [List.length_cons] at hn
  exact ⟨_, rfl, pieces_complete_str ⟨s, rfl, hs⟩ (by omega)⟩

theorem strOf_begins ⦃ps : List Piece⦄ ⦃k : Text⦄ (h : StrOf ps k) : ∃ k', k = '"' :: k' := by
  obtain ⟨s, rfl, -⟩ := h
  exact ⟨_, rfl⟩

theorem ignoreValue_complete (n : ℕ) : Complete n (ignoreValue n) AnyValue := by
  induction n with
  | zero =>
    intro x v hv hn
    obtain ⟨c, s, rfl, -⟩ := isValue_begins hv
    exact absurd hn (Nat.not_succ_le_zero _)
  | succ n ih =>
    intro x v hv hn t ht
    rcases isValue_iff.mp hv with hlit | ⟨y, hy, rfl⟩ | ⟨ps, s, rfl, hs⟩ | ⟨ms, s, rfl, hs⟩ |
      ⟨vs, s, rfl, hs⟩
    · have hall : ∀ v ∈ literals, ∀ x t, (ignoreValue (n + 1)).run (v ++ t) = .ok (x, t) := by
        simp only [literals, List.forall_mem_cons]
        exact ⟨fun _ _ => rfl, fun _ _ => rfl, fun _ _ => rfl, nofun⟩
      exact hall v hlit x t
    · obtain ⟨c, s, hs, hc⟩ := number_begins hy
      obtain ⟨h1, h2, h3, h4, h5, h6, h7⟩ := number_branch c hc
      have hnum := number_complete _ ⟨rfl, hy⟩ (le_refl _) ht
      rw [ignoreValue, run_bind_of_ok (peek_run _)]
      rw [hs] at hnum ⊢
      rw [List.cons_append, List.head?_cons]
      dsimp only
      rw [if_neg h1, if_neg h2, if_neg h3, if_neg h4, if_neg h5, if_neg h6, if_pos h7]
      exact run_discard_ok.mpr ⟨y, hnum⟩
    · rw [List.length_cons] at hn
      have hrun := pieces_complete_str ⟨s, rfl, hs⟩ (Nat.le_of_succ_le_succ hn) t
      exact run_discard_ok.mpr ⟨ps, hrun⟩
    -- the names and values of the members are skipped, so nothing is asked of them
    · have hobject : ObjectOf ms ('{' :: (s ++ ['}'])) := ⟨s, rfl, hs⟩
      obtain ⟨as, -, has⟩ := hobject.transfer (H := AnyMember) (R := fun _ _ => True) (by
        rintro m _ ⟨w, w', rfl, ⟨ps, hk⟩, hw, hw', hv⟩
        exact ⟨(ps, ()), trivial, _, w, w', _, rfl, hk, hw, hw', hv⟩)
      have hmember := member_complete pieces_named ih
        (begins_of_isValue (by decide) fun _ _ h => h)
      have hrun := objectOf_complete hmember (begins_named strOf_begins) has
        (Nat.le_of_succ_le_succ hn) ht
      exact run_discard_ok.mpr ⟨as, hrun⟩
    · have harray : ArrayOf vs ('[' :: (s ++ [']'])) := ⟨s, rfl, hs⟩
      obtain ⟨as, -, has⟩ := harray.transfer (H := AnyValue) (R := fun _ _ => True) (by
        rintro v _ ⟨rfl, hv⟩
        exact ⟨(), trivial, hv⟩)
      have hrun := listOf_complete ih (begins_of_isValue (by decide) fun _ _ h => h) has
        (Nat.le_of_succ_le_succ hn) ht
      exact run_discard_ok.mpr ⟨as, hrun⟩

/-! ### Texts of values -/

theorem Sound.advances {p : Parser α} {G : α → Text → Prop} (h : Sound p G) : Advances 1 p := by
  intro s a t hp
  obtain ⟨c, rfl, -⟩ := h hp
  exact ⟨c, rfl, one_dvd _⟩

theorem rawValue_ok {n : ℕ} {s v t : Text} :
    (rawValue n).run s = .ok (v, t) ↔ (ignoreValue n).run s = .ok ((), t) ∧ s = v ++ t := by
  have hadv := (ignoreValue_sound n).advances
  rw [rawValue, run_bind_ok]
  constructor
  · rintro ⟨⟨_, v'⟩, u, hspan, hpure⟩
    obtain ⟨rfl, rfl⟩ := run_pure_ok.mp hpure
    exact (ExceptState.span_ok hadv).mp hspan
  · intro h
    exact ⟨((), v), t, (ExceptState.span_ok hadv).mpr h, rfl⟩

theorem rawValue_sound (n : ℕ) : Sound (rawValue n) ElementOf := by
  intro s v t h
  obtain ⟨hrun, rfl⟩ := rawValue_ok.mp h
  obtain ⟨c, hc, hv⟩ := ignoreValue_sound n hrun
  obtain rfl := List.append_cancel_right hc
  exact ⟨v, rfl, rfl, hv⟩

theorem rawValue_complete (n : ℕ) : Complete n (rawValue n) ElementOf := by
  rintro v _ ⟨rfl, hv⟩ hn t ht
  exact rawValue_ok.mpr ⟨ignoreValue_complete n hv hn ht, rfl⟩

section Opened

variable {p : Parser α} {G : α → Text → Prop} {l : Char} {e o : ErrorCode}

theorem opened_sound (hp : Sound p fun a c => G a (l :: c)) :
    Sound (do expect l e o; p : Parser α) G := by
  intro s a t h
  obtain ⟨_, _, hl, hrest⟩ := run_bind_ok.mp h
  obtain rfl := expect_ok.mp hl
  obtain ⟨c, rfl, hc⟩ := hp hrest
  exact ⟨l :: c, rfl, hc⟩

theorem opened_complete {n : ℕ} (hp : Complete n p fun a c => G a (l :: c))
    (hG : ∀ ⦃a c⦄, G a c → ∃ c', c = l :: c') :
    Complete n (do expect l e o; p : Parser α) G := by
  intro a c hc hn t ht
  obtain ⟨c, rfl⟩ := hG hc
  rw [List.cons_append, run_bind_of_ok (expect_run _)]
  exact hp hc (Nat.le_of_succ_le hn) ht

end Opened

theorem enclosed_begins {l r : Char} {G : α → Text → Prop} ⦃as : List α⦄ ⦃o : Text⦄
    (h : Enclosed l r G as o) : ∃ o', o = l :: o' := by
  obtain ⟨s, rfl, -⟩ := h
  exact ⟨_, rfl⟩

theorem rawArray_sound (n : ℕ) : Sound (rawArray n) ArrayOf :=
  opened_sound (list_sound (rawValue_sound n))

theorem rawArray_complete (n : ℕ) : Complete n (rawArray n) ArrayOf :=
  opened_complete (list_complete (rawValue_complete n)
    (begins_of_isValue (by decide) isValue_of_elementOf) (by decide)) enclosed_begins

/-- The text `k` is a string with the value `x`, the other way round. -/
abbrev StringOf (x : String) (k : Text) : Prop := StrIs k x

theorem str_named {n : ℕ} ⦃x : String⦄ ⦃k : Text⦄ (h : StringOf x k) (hn : k.length ≤ n) :
    ∃ k', k = '"' :: k' ∧ ∀ t, (str n).run (k' ++ t) = .ok (x, t) := by
  obtain ⟨ps, hps, hx⟩ := h
  obtain ⟨k, rfl⟩ := strOf_begins hps
  exact ⟨k, rfl, str_complete ⟨ps, hps, hx⟩ (Nat.le_of_succ_le hn)⟩

theorem stringOf_begins ⦃x : String⦄ ⦃k : Text⦄ (h : StringOf x k) : ∃ k', k = '"' :: k' := by
  obtain ⟨ps, hps, -⟩ := h
  exact strOf_begins hps

/-- An object whose names are read. -/
abbrev NamesOf : List (String × Text) → Text → Prop := Enclosed '{' '}' (Named StringOf ElementOf)

theorem rawObject_sound (n : ℕ) : Sound (rawObject n) NamesOf :=
  opened_sound (list_sound (member_sound (fun _ _ _ h => str_sound h) (rawValue_sound n)))

theorem rawObject_complete (n : ℕ) : Complete n (rawObject n) NamesOf :=
  opened_complete (list_complete (member_complete str_named (rawValue_complete n)
    (begins_of_isValue (by decide) isValue_of_elementOf)) (begins_named stringOf_begins)
    (by decide)) enclosed_begins

theorem string_sound (n : ℕ) : Sound (string n) StringOf := opened_sound fun _ _ _ h => str_sound h

theorem string_complete (n : ℕ) : Complete n (string n) StringOf :=
  opened_complete (fun _ _ h hn t _ => str_complete h hn t) stringOf_begins

theorem isValue_of_strIs ⦃s : String⦄ ⦃v : Text⦄ (h : StringOf s v) : IsValue v :=
  isValue_iff.mpr (.inr (.inr (.inl ⟨_, h.choose_spec.1⟩)))

theorem isValue_of_objectOf ⦃ms : List (Text × Text)⦄ ⦃v : Text⦄ (h : ObjectOf ms v) : IsValue v :=
  isValue_iff.mpr (.inr (.inr (.inr (.inl ⟨ms, h⟩))))

theorem isValue_of_arrayOf ⦃vs : List Text⦄ ⦃v : Text⦄ (h : ArrayOf vs v) : IsValue v :=
  isValue_iff.mpr (.inr (.inr (.inr (.inr ⟨vs, h⟩))))

theorem isValue_of_namesOf ⦃pairs : List (String × Text)⦄ ⦃v : Text⦄ (h : NamesOf pairs v) :
    IsValue v := by
  obtain ⟨ms, -, hms⟩ := h.transfer (H := MemberOf) (R := fun _ _ => True) (by
    rintro x _ ⟨k, w, w', u, rfl, ⟨ps, hk, -⟩, hw, hw', hu⟩
    exact ⟨(k, u), trivial, w, w', rfl, ⟨ps, hk⟩, hw, hw', isValue_of_elementOf hu⟩)
  exact isValue_of_objectOf hms

/-- **A text is read exactly when it is a spelling with whitespace around it.** -/
theorem fromStr_ok {p : ℕ → Parser α} {G : α → Text → Prop} (hsound : ∀ n, Sound (p n) G)
    (hcomplete : ∀ n, Complete n (p n) G) (hG : ∀ ⦃a v⦄, G a v → IsValue v) {text : Text} {a : α} :
    fromStr p text = .ok a ↔ Padded G a text := by
  rw [fromStr, except_bind_ok]
  constructor
  · rintro ⟨⟨a', rest⟩, hrun, hend⟩
    simp only [run_bind_ok] at hrun
    obtain ⟨_, _, hws, a1, _, hp, _, _, hws', hpure⟩ := hrun
    obtain ⟨rfl, rfl⟩ := run_pure_ok.mp hpure
    obtain ⟨w, rfl, hw, -⟩ := skipWs_ok hws
    obtain ⟨v, rfl, hv⟩ := hsound _ hp
    obtain ⟨w', rfl, hw', -⟩ := skipWs_ok hws'
    dsimp only at hend
    split_ifs at hend with hnil
    cases hend
    exact ⟨w, v, w', by rw [hnil, List.append_nil], hw, hv, hw'⟩
  · rintro ⟨w, v, w', rfl, hw, hv, hw'⟩
    refine ⟨(a, []), ?_, if_pos rfl⟩
    have hlen : v.length ≤ (w ++ (v ++ w')).length + 1 := by
      simp only [List.length_append]
      omega
    have hfollow : Follow w' := by
      rw [← List.append_nil w']
      exact follow_ws hw' nofun
    have hnows : NoWs (v ++ w') := by
      have hbegins : Begins ']' G := begins_of_isValue (by decide) hG
      obtain ⟨c, s, rfl, hc, -⟩ := hbegins hv
      exact noWs_cons hc _
    have hend : skipWs.run w' = .ok ((), []) := by
      conv_lhs => rw [← List.append_nil w']
      exact skipWs_run hw' nofun
    rw [run_bind_of_ok (skipWs_run hw hnows), run_bind_of_ok (hcomplete _ hv hlen hfollow),
      run_bind_of_ok hend]
    rfl

/-- The value between the whitespace is the one that is read. -/
theorem padded_iff {G : α → Text → Prop} (hG : ∀ ⦃a v⦄, G a v → IsValue v) {a : α}
    {v text : Text} (h : Padded ElementOf v text) : Padded G a text ↔ G a v := by
  have hraw : ∀ {k}, fromStr rawValue text = .ok k ↔ Padded ElementOf k text :=
    fromStr_ok rawValue_sound rawValue_complete isValue_of_elementOf
  constructor
  · rintro ⟨w, k, w', htext, hw, hk, hw'⟩
    have hread := hraw.mpr ⟨w, k, w', htext, hw, ⟨rfl, hG hk⟩, hw'⟩
    rw [hraw.mpr h] at hread
    cases hread
    exact hk
  · intro ha
    obtain ⟨w, _, w', htext, hw, ⟨rfl, -⟩, hw'⟩ := h
    exact ⟨w, _, w', htext, hw, ha, hw'⟩

theorem padded_value {G : α → Text → Prop} (hG : ∀ ⦃a v⦄, G a v → IsValue v) {a : α}
    {text : Text} (h : Padded G a text) : ∃ v, Padded ElementOf v text ∧ G a v := by
  obtain ⟨w, v, w', htext, hw, hv, hw'⟩ := h
  exact ⟨v, ⟨w, v, w', htext, hw, ⟨rfl, hG hv⟩, hw'⟩, hv⟩

theorem padded_self {v : Text} (hv : IsValue v) : Padded ElementOf v v :=
  ⟨[], v, [], by simp, nofun, ⟨rfl, hv⟩, nofun⟩

/-- A text is spelled in one way, if there is a reader for it. -/
theorem spelling_unique {p : Parser α} {G : α → Text → Prop} {v : Text}
    (hcomplete : Complete v.length p G) {a b : α} (ha : G a v) (hb : G b v) : a = b := by
  have hrun := hcomplete ha (le_refl _) (t := []) nofun
  rw [hcomplete hb (le_refl _) (t := []) nofun] at hrun
  cases hrun
  rfl

theorem strIs_unique {k : Text} {x y : String} (hx : StrIs k x) (hy : StrIs k y) : x = y :=
  spelling_unique (string_complete _) (show StringOf x k from hx) hy

/-- Whether a text is a string is found by reading it. -/
theorem strIs_iff_run {k : Text} {x : String} :
    StrIs k x ↔ (string k.length).run k = .ok (x, []) := by
  constructor
  · intro h
    have hrun := string_complete k.length (show StringOf x k from h) (le_refl _) (t := []) nofun
    rwa [List.append_nil] at hrun
  · intro h
    obtain ⟨c, hk, hc⟩ := string_sound _ h
    rwa [hk, List.append_nil]

instance (k : Text) (x : String) : Decidable (StrIs k x) := decidable_of_iff _ strIs_iff_run.symm

theorem text_injective {x y : NumberText} (hx : x.WF) (hy : y.WF) (h : x.text = y.text) :
    x = y := spelling_unique (number_complete _) ⟨rfl, hx⟩ ⟨h, hy⟩

/-- The text of a name, from behind its opening quote on. -/
def rawName (n : ℕ) : Parser Text := do
  let (_, text) ← span (pieces n)
  pure ('"' :: text)

/-- The members of an object with the texts of their names. -/
def rawMembers (n : ℕ) : Parser (List (Text × Text)) := do
  expect '{' .eofWhileParsingValue .invalidType
  objectOf (member (rawName n) (rawValue n)) n

/-- The text of a string. -/
def NameOf (k s : Text) : Prop := s = k ∧ ∃ ps, StrOf ps k

theorem rawName_sound (n : ℕ) : Sound (rawName n) fun k c => NameOf k ('"' :: c) := by
  have hadv : Advances 1 (pieces n) := by
    intro s ps t h
    obtain ⟨c, rfl, -⟩ := pieces_sound_str h
    exact ⟨c, rfl, one_dvd _⟩
  intro s k t h
  obtain ⟨⟨ps, c⟩, u, hspan, hpure⟩ := run_bind_ok.mp h
  obtain ⟨rfl, rfl⟩ := run_pure_ok.mp hpure
  obtain ⟨hps, rfl⟩ := (ExceptState.span_ok hadv).mp hspan
  obtain ⟨c', hc', hstr⟩ := pieces_sound_str hps
  obtain rfl := List.append_cancel_right hc'
  exact ⟨c, rfl, rfl, ps, hstr⟩

theorem rawName_named {n : ℕ} ⦃k k' : Text⦄ (h : NameOf k k') (hn : k'.length ≤ n) :
    ∃ s, k' = '"' :: s ∧ ∀ t, (rawName n).run (s ++ t) = .ok (k, t) := by
  obtain ⟨rfl, ps, hps⟩ := h
  obtain ⟨s, rfl, hrun⟩ := pieces_named hps hn
  exact ⟨s, rfl, fun t => run_bind_ok.mpr ⟨(ps, s), t, span_of_ok (hrun t), rfl⟩⟩

theorem memberOf_eq : MemberOf = Named NameOf ElementOf := by
  funext m s
  refine propext ⟨?_, ?_⟩
  · rintro ⟨w, w', rfl, hk, hw, hw', hv⟩
    exact ⟨_, w, w', _, rfl, ⟨rfl, hk⟩, hw, hw', rfl, hv⟩
  · rintro ⟨_, w, w', _, rfl, ⟨rfl, hk⟩, hw, hw', rfl, hv⟩
    exact ⟨w, w', rfl, hk, hw, hw', hv⟩

theorem rawMembers_sound (n : ℕ) : Sound (rawMembers n) ObjectOf := by
  rw [ObjectOf, memberOf_eq]
  exact opened_sound (list_sound (member_sound (rawName_sound n) (rawValue_sound n)))

theorem rawMembers_complete (n : ℕ) : Complete n (rawMembers n) ObjectOf := by
  have hbegins : ∀ ⦃k k'⦄, NameOf k k' → ∃ s, k' = '"' :: s := by
    rintro k _ ⟨rfl, ps, hps⟩
    exact strOf_begins hps
  rw [ObjectOf, memberOf_eq]
  exact opened_complete (list_complete (member_complete rawName_named (rawValue_complete n)
    (begins_of_isValue (by decide) isValue_of_elementOf)) (begins_named hbegins) (by decide))
    enclosed_begins

theorem objectOf_unique {ms ms' : List (Text × Text)} {o : Text} (h : ObjectOf ms o)
    (h' : ObjectOf ms' o) : ms = ms' := spelling_unique (rawMembers_complete _) h h'

/-! ### The first character -/

/-- Only an array or an object begins with a bracket or a brace. -/
theorem head_bracket {v : Text} (hv : IsValue v) {c : Char} (hc : c ∈ ['[', '{'])
    (h : v.head? = some c) : (∃ ms, ObjectOf ms v) ∨ ∃ vs, ArrayOf vs v := by
  rcases isValue_iff.mp hv with hlit | ⟨x, hx, rfl⟩ | ⟨ps, s, rfl, -⟩ | ho | ha
  · have hall : ∀ v ∈ literals, v.head? ≠ some '[' ∧ v.head? ≠ some '{' := by decide
    rcases List.mem_pair.mp hc with rfl | rfl
    · exact absurd h (hall v hlit).1
    · exact absurd h (hall v hlit).2
  · obtain ⟨x, s, hs, hx⟩ := number_begins hx
    have hall : ∀ x ∈ "-0123456789".toList, x ∉ ['[', '{'] := forall_mem_of_all (by decide)
    rw [hs, List.head?_cons, Option.some.injEq] at h
    exact absurd (h ▸ hc) (hall x hx)
  · rw [List.head?_cons, Option.some.injEq] at h
    subst h
    exact absurd hc (by decide)
  · exact .inl ho
  · exact .inr ha

theorem head_object {v : Text} (hv : IsValue v) :
    v.head? = some '{' ↔ ∃ ms, ObjectOf ms v := by
  constructor
  · intro h
    rcases head_bracket hv (by decide) h with ho | ⟨vs, s, rfl, -⟩
    · exact ho
    · cases h
  · rintro ⟨ms, s, rfl, -⟩
    rfl

theorem head_array {v : Text} (hv : IsValue v) : v.head? = some '[' ↔ ∃ vs, ArrayOf vs v := by
  constructor
  · intro h
    rcases head_bracket hv (by decide) h with ⟨ms, s, rfl, -⟩ | ha
    · cases h
    · exact ha
  · rintro ⟨vs, s, rfl, -⟩
    rfl

end JsonReader
