/-
Object identifiers (`truenas_gssapi/src/oid.rs`).

`decode` reads the octets of an object identifier as base-128 numbers and splits the first
one into two arcs.  `Encodes` is what X.690 section 8.19 asks of the octets.  Octets that
encode arcs decode to them (`decode_of_encodes`); what decodes is an encoding unless a
number in it is padded with `0x80`, which `decode` does not look for (`decode_iff`,
`oids_exact_iff`).
-/
import RosUtils.Base128
import RosUtils.Hexadecimal

namespace Gss

open Base128 Hexadecimal

/-! ### The code -/

/-- `u64::checked_mul` and `u64::checked_add`, on the numbers they have. -/
def checked (n : ℕ) : Option ℕ := if n < 2 ^ 64 then some n else none

/-- The first arc that a first number stands for. -/
def firstArc (value : ℕ) : ℕ := if value < 40 then 0 else if value < 80 then 1 else 2

/-- What a number adds to the arcs. -/
def pushArc (arcs : List ℕ) (value : ℕ) : List ℕ :=
  if arcs.isEmpty then arcs ++ [firstArc value, value - firstArc value * 40] else arcs ++ [value]

/-- The loop of `decode`. -/
def decodeLoop (arcs : List ℕ) (value : ℕ) : List UInt8 → Option (List ℕ)
  | [] => some arcs
  | byte :: bytes => do
    let value ← checked (value * 128)
    let value ← checked (value + (byte &&& 0x7f).toNat)
    if byte &&& 0x80 ≠ 0 then decodeLoop arcs value bytes
    else decodeLoop (pushArc arcs value) 0 bytes

/-- `decode`. -/
def decode (elements : List UInt8) : Option (List ℕ) := do
  let arcs ← decodeLoop [] 0 elements
  -- a trailing continuation bit means truncation
  if elements.getLast?.any (fun b => b &&& 0x80 != 0) || elements.isEmpty then none
  else some arcs

/-- The loop of `Oid::fmt` over the arcs, from arc `i`. -/
def dottedFrom (i : ℕ) : List ℕ → List Char
  | [] => []
  | arc :: arcs =>
    (if i > 0 then ['.'] else []) ++ Nat.toDigits 10 arc ++ dottedFrom (i + 1) arcs

/-- `Oid::fmt`. -/
def display (elements : List UInt8) : List Char :=
  match decode elements with
  | some arcs => dottedFrom 0 arcs
  | none => elements.flatMap hexOctet

/-! ### The standard -/

/-- X.690, section 8.19: the first two arcs are one number, every number is below `2 ^ 64` and
in the fewest octets. -/
inductive Encodes : List ℕ → List UInt8 → Prop
  | mk {arc₀ arc₁ : ℕ} {arcs : List ℕ} (h₀ : arc₀ ≤ 2) (h₁ : arc₀ < 2 → arc₁ < 40)
      (hrange : ∀ id ∈ (40 * arc₀ + arc₁) :: arcs, id < 2 ^ 64) :
      Encodes (arc₀ :: arc₁ :: arcs) (((40 * arc₀ + arc₁) :: arcs).flatMap encode)

/-! ### One number -/

theorem low_toNat (b : UInt8) : (b &&& 0x7f).toNat = b.toNat % 128 := by
  have hmask : (0x7f : UInt8).toNat = 2 ^ 7 - 1 := rfl
  rw [UInt8.toNat_and, hmask, Nat.and_two_pow_sub_one_eq_mod]

theorem high_ne_zero (b : UInt8) : b &&& 0x80 ≠ 0 ↔ Cont b := by
  have hall : ∀ i : Fin 256, UInt8.ofNat i &&& 0x80 ≠ 0 ↔ 128 ≤ (i : ℕ) := by decide +kernel
  have hb := hall ⟨b.toNat, b.toNat_lt⟩
  rwa [UInt8.ofNat_toNat] at hb

/-- The two checks of an octet are one. -/
theorem decodeLoop_cons (arcs : List ℕ) (v : ℕ) (b : UInt8) (bytes : List UInt8) :
    decodeLoop arcs v (b :: bytes) =
      if v * 128 + b.toNat % 128 < 2 ^ 64 then
        if Cont b then decodeLoop arcs (v * 128 + b.toNat % 128) bytes
        else decodeLoop (pushArc arcs (v * 128 + b.toNat % 128)) 0 bytes
      else none := by
  rw [decodeLoop, checked]
  by_cases hmul : v * 128 < 2 ^ 64
  · rw [if_pos hmul, Option.bind_eq_bind, Option.bind_some, checked, low_toNat]
    by_cases hadd : v * 128 + b.toNat % 128 < 2 ^ 64
    · rw [if_pos hadd, if_pos hadd, Option.bind_some]
      exact if_congr (high_ne_zero b) rfl rfl
    · rw [if_neg hadd, if_neg hadd]
      rfl
  · rw [if_neg hmul, if_neg (by omega)]
    rfl

/-- A whole number is read as it is, if it is below `2 ^ 64`. -/
theorem decodeLoop_group {g : List UInt8} (hg : Group g) (arcs : List ℕ) (bytes : List UInt8) :
    decodeLoop arcs 0 (g ++ bytes) =
      if value g < 2 ^ 64 then decodeLoop (pushArc arcs (value g)) 0 bytes else none := by
  cases hg with
  | @mk front last hfront hlast =>
    -- the numbers on the way are not above the one that is read
    suffices h : ∀ v, decodeLoop arcs v (front ++ [last] ++ bytes) =
        if valueFrom v (front ++ [last]) < 2 ^ 64 then
          decodeLoop (pushArc arcs (valueFrom v (front ++ [last]))) 0 bytes
        else none from h 0
    induction front with
    | nil =>
      intro v
      rw [List.nil_append, List.singleton_append, decodeLoop_cons, if_neg hlast]
      rfl
    | cons b front ih =>
      obtain ⟨hb, hfront⟩ := List.forall_mem_cons.mp hfront
      intro v
      rw [List.cons_append, List.cons_append, decodeLoop_cons, if_pos hb, valueFrom_cons]
      by_cases hlt : v * 128 + b.toNat % 128 < 2 ^ 64
      · rw [if_pos hlt, ih hfront]
      · have hle := le_valueFrom (v * 128 + b.toNat % 128) (front ++ [last])
        rw [if_neg hlt, if_neg (by omega)]

/-! ### All numbers -/

/-- The arcs that numbers stand for. -/
def arcsOf : List ℕ → List ℕ
  | [] => []
  | id :: ids => firstArc id :: (id - firstArc id * 40) :: ids

theorem decodeLoop_groups {gs : List (List UInt8)} (hgs : ∀ g ∈ gs, Group g)
    (hrange : ∀ g ∈ gs, value g < 2 ^ 64) {arcs : List ℕ} (harcs : arcs ≠ []) :
    decodeLoop arcs 0 gs.flatten = some (arcs ++ gs.map value) := by
  induction gs generalizing arcs with
  | nil =>
    rw [List.map_nil, List.append_nil]
    rfl
  | cons g gs ih =>
    obtain ⟨hg, hgs⟩ := List.forall_mem_cons.mp hgs
    obtain ⟨hlt, hrange⟩ := List.forall_mem_cons.mp hrange
    have hpush : pushArc arcs (value g) = arcs ++ [value g] := by
      rw [pushArc, if_neg (by rwa [List.isEmpty_iff])]
    rw [List.flatten_cons, decodeLoop_group hg, if_pos hlt, hpush,
      ih hgs hrange (List.append_ne_nil_of_left_ne_nil harcs _), List.append_assoc,
      List.singleton_append, List.map_cons]

/-- A number that is too large is refused, wherever it is. -/
theorem decodeLoop_large {gs : List (List UInt8)} (hgs : ∀ g ∈ gs, Group g)
    (hlarge : ∃ g ∈ gs, ¬ value g < 2 ^ 64) (arcs : List ℕ) :
    decodeLoop arcs 0 gs.flatten = none := by
  induction gs generalizing arcs with
  | nil =>
    obtain ⟨g, hg, -⟩ := hlarge
    cases hg
  | cons g gs ih =>
    obtain ⟨hg, hgs⟩ := List.forall_mem_cons.mp hgs
    rw [List.flatten_cons, decodeLoop_group hg]
    by_cases hlt : value g < 2 ^ 64
    · obtain ⟨g', hg', hnot⟩ := hlarge
      obtain rfl | hg' := List.mem_cons.mp hg'
      · exact absurd hlt hnot
      · rw [if_pos hlt]
        exact ih hgs ⟨g', hg', hnot⟩ _
    · rw [if_neg hlt]

theorem getLast?_groups {gs : List (List UInt8)} (hgs : ∀ g ∈ gs, Group g) :
    gs.flatten.getLast?.any (fun b => b &&& 0x80 != 0) = false := by
  cases hlast : gs.flatten.getLast? with
  | none => rfl
  | some b =>
    have hcont : ¬ Cont b := getLast?_flatten hgs hlast
    rw [← high_ne_zero, not_not] at hcont
    rw [Option.any_some, hcont]
    rfl

/-- What is not closed is refused. -/
theorem decode_tail (e : List UInt8) {tail : List UInt8} (hne : tail ≠ [])
    (htail : ∀ b ∈ tail, Cont b) : decode (e ++ tail) = none := by
  have hlast : (e ++ tail).getLast?.any (fun b => b &&& 0x80 != 0) = true := by
    rw [List.getLast?_append_of_ne_nil _ hne, List.getLast?_eq_some_getLast hne, Option.any_some,
      bne_iff_ne]
    exact (high_ne_zero _).mpr (htail _ (List.getLast_mem hne))
  rw [decode]
  cases decodeLoop [] 0 (e ++ tail) with
  | none => rfl
  | some arcs =>
    rw [hlast]
    rfl

/-- One or more numbers below `2 ^ 64` decode to the arcs they stand for. -/
theorem decode_groups {g : List UInt8} {gs : List (List UInt8)} (hgs : ∀ h ∈ g :: gs, Group h)
    (hrange : ∀ h ∈ g :: gs, value h < 2 ^ 64) :
    decode (g :: gs).flatten = some (arcsOf ((g :: gs).map value)) := by
  obtain ⟨hg, hrest⟩ := List.forall_mem_cons.mp hgs
  obtain ⟨hlt, hranges⟩ := List.forall_mem_cons.mp hrange
  have hne : (g :: gs).flatten ≠ [] := by
    rw [List.flatten_cons]
    exact List.append_ne_nil_of_left_ne_nil hg.ne_nil _
  have hloop : decodeLoop [] 0 (g :: gs).flatten = some (arcsOf ((g :: gs).map value)) := by
    rw [List.flatten_cons, decodeLoop_group hg, if_pos hlt]
    exact decodeLoop_groups hrest hranges (List.cons_ne_nil _ _)
  rw [decode, hloop, getLast?_groups hgs, Bool.false_or, List.isEmpty_eq_false_iff.mpr hne]
  rfl

/-- **What decodes**: one or more numbers below `2 ^ 64`, each in any octets that stand for
it. -/
theorem decode_iff {e : List UInt8} {arcs : List ℕ} :
    decode e = some arcs ↔ ∃ gs : List (List UInt8), gs ≠ [] ∧ e = gs.flatten ∧
      (∀ g ∈ gs, Group g) ∧ (∀ g ∈ gs, value g < 2 ^ 64) ∧ arcs = arcsOf (gs.map value) := by
  constructor
  · intro h
    -- any octets are numbers and a rest that is not closed, which there is none of here
    obtain ⟨gs, tail, rfl, hgs, htail⟩ := exists_groups e
    by_cases hne : tail = []
    · subst hne
      rw [List.append_nil] at h ⊢
      have hrange : ∀ g ∈ gs, value g < 2 ^ 64 := by
        by_contra hlarge
        push Not at hlarge
        obtain ⟨g, hg, hle⟩ := hlarge
        rw [decode, decodeLoop_large hgs ⟨g, hg, not_lt.mpr hle⟩] at h
        cases h
      cases gs with
      | nil => cases h
      | cons g gs =>
        rw [decode_groups hgs hrange] at h
        cases h
        exact ⟨g :: gs, List.cons_ne_nil _ _, rfl, hgs, hrange, rfl⟩
    · rw [decode_tail _ hne htail] at h
      cases h
  · rintro ⟨gs, hne, rfl, hgs, hrange, rfl⟩
    cases gs with
    | nil => exact absurd rfl hne
    | cons g gs => exact decode_groups hgs hrange

example : decode [0x2a, 0x86, 0x48, 0x86, 0xf7, 0x12, 0x01, 0x02, 0x02] =
    some [1, 2, 840, 113554, 1, 2, 2] := by decide

/-- The first two arcs are the first number, split the way the standard has it. -/
theorem firstArc_iff {id arc₀ arc₁ : ℕ} :
    arc₀ = firstArc id ∧ arc₁ = id - firstArc id * 40 ↔
      id = 40 * arc₀ + arc₁ ∧ arc₀ ≤ 2 ∧ (arc₀ < 2 → arc₁ < 40) := by
  rw [firstArc]
  split_ifs <;> omega

/-- Numbers are arcs, and the arcs are those numbers. -/
theorem arcsOf_iff {ids arcs : List ℕ} :
    ids ≠ [] ∧ arcs = arcsOf ids ↔
      ∃ arc₀ arc₁ rest, arcs = arc₀ :: arc₁ :: rest ∧ ids = (40 * arc₀ + arc₁) :: rest ∧
        arc₀ ≤ 2 ∧ (arc₀ < 2 → arc₁ < 40) := by
  constructor
  · rintro ⟨hne, rfl⟩
    cases ids with
    | nil => exact absurd rfl hne
    | cons id ids =>
      have hsplit : firstArc id = firstArc id ∧ id - firstArc id * 40 = id - firstArc id * 40 :=
        ⟨rfl, rfl⟩
      obtain ⟨hid, h₀, h₁⟩ := firstArc_iff.mp hsplit
      exact ⟨_, _, ids, rfl, by rw [← hid], h₀, h₁⟩
  · rintro ⟨arc₀, arc₁, rest, rfl, rfl, h₀, h₁⟩
    obtain ⟨hfirst, hsecond⟩ := firstArc_iff.mpr ⟨rfl, h₀, h₁⟩
    refine ⟨List.cons_ne_nil _ _, ?_⟩
    rw [arcsOf, ← hsecond, ← hfirst]

/-! ### Encodings -/

/-- **What encodes arcs decodes to them.** -/
theorem decode_of_encodes {arcs : List ℕ} {e : List UInt8} (h : Encodes arcs e) :
    decode e = some arcs := by
  cases h with
  | @mk arc₀ arc₁ rest h₀ h₁ hrange =>
    obtain ⟨-, harcs⟩ := arcsOf_iff.mpr ⟨arc₀, arc₁, rest, rfl, rfl, h₀, h₁⟩
    have hvalues : (((40 * arc₀ + arc₁) :: rest).map encode).map value =
        (40 * arc₀ + arc₁) :: rest := by
      rw [List.map_map]
      calc ((40 * arc₀ + arc₁) :: rest).map (value ∘ encode)
          = ((40 * arc₀ + arc₁) :: rest).map id :=
            List.map_congr_left fun n _ => value_encode n
        _ = (40 * arc₀ + arc₁) :: rest := List.map_id _
    refine decode_iff.mpr ⟨((40 * arc₀ + arc₁) :: rest).map encode, List.cons_ne_nil _ _,
      List.flatMap_def, ?_, ?_, ?_⟩
    · intro g hg
      obtain ⟨n, -, rfl⟩ := List.mem_map.mp hg
      exact group_encode n
    · intro g hg
      obtain ⟨n, hn, rfl⟩ := List.mem_map.mp hg
      rw [value_encode]
      exact hrange n hn
    · rw [hvalues]
      exact harcs

theorem unpadded_of_encodes {arcs : List ℕ} {e : List UInt8} (h : Encodes arcs e) :
    Unpadded e := by
  cases h with
  | mk h₀ h₁ hrange =>
    rw [List.flatMap_def, unpadded_flatten]
    · intro g hg
      obtain ⟨n, -, rfl⟩ := List.mem_map.mp hg
      exact (encode_value (group_encode n)).mp (by rw [value_encode])
    · intro g hg
      obtain ⟨n, -, rfl⟩ := List.mem_map.mp hg
      exact group_encode n

/-- **What decodes is an encoding exactly when no number in it is padded.** -/
theorem encodes_iff_unpadded {e : List UInt8} {arcs : List ℕ} (h : decode e = some arcs) :
    Encodes arcs e ↔ Unpadded e := by
  refine ⟨unpadded_of_encodes, fun hunpadded => ?_⟩
  obtain ⟨gs, hne, rfl, hgs, hrange, rfl⟩ := decode_iff.mp h
  have hheads := (unpadded_flatten hgs).mp hunpadded
  have hencode : (gs.map value).map encode = gs := by
    rw [List.map_map]
    calc gs.map (encode ∘ value) = gs.map id :=
          List.map_congr_left fun g hg => (encode_value (hgs g hg)).mpr (hheads g hg)
      _ = gs := List.map_id gs
  have hids : gs.map value ≠ [] := by rwa [Ne, List.map_eq_nil_iff]
  obtain ⟨arc₀, arc₁, rest, harcs, hids, h₀, h₁⟩ := arcsOf_iff.mp ⟨hids, rfl⟩
  have hflat : gs.flatten = ((40 * arc₀ + arc₁) :: rest).flatMap encode := by
    rw [List.flatMap_def, ← hids, hencode]
  rw [harcs, hflat]
  refine .mk h₀ h₁ ?_
  rw [← hids]
  intro n hn
  obtain ⟨g, hg, rfl⟩ := List.mem_map.mp hn
  exact hrange g hg

/-- Octets encode one list of arcs at most, and arcs have one encoding. -/
theorem Encodes.eq_octets {arcs : List ℕ} {e e' : List UInt8} (h : Encodes arcs e)
    (h' : Encodes arcs e') : e = e' := by
  cases h with
  | mk =>
    cases h' with
    | mk => rfl

/-! ### The dotted form -/

/-- What follows the digits of an arc begins with a dot, if there is anything. -/
theorem dottedFrom_succ (i : ℕ) (arcs : List ℕ) :
    dottedFrom (i + 1) arcs = [] ∨ ∃ rest, dottedFrom (i + 1) arcs = '.' :: rest := by
  cases arcs with
  | nil => exact .inl rfl
  | cons arc arcs => exact .inr ⟨_, rfl⟩

/-- The digits are read up to the dot. -/
theorem takeWhile_digits (n : ℕ) {rest : List Char}
    (hrest : rest = [] ∨ ∃ rest', rest = '.' :: rest') :
    (Nat.toDigits 10 n ++ rest).takeWhile Char.isDigit = Nat.toDigits 10 n := by
  have hdigits : ∀ c ∈ Nat.toDigits 10 n, c.isDigit = true :=
    fun c hc => Nat.isDigit_of_mem_toDigits (by decide) (by decide) hc
  rw [List.takeWhile_append_of_pos hdigits]
  obtain rfl | ⟨rest', rfl⟩ := hrest
  · exact List.append_nil _
  · exact List.append_nil _

theorem dottedFrom_injective (i : ℕ) {arcs arcs' : List ℕ}
    (h : dottedFrom i arcs = dottedFrom i arcs') : arcs = arcs' := by
  have hne : ∀ i arc arcs, dottedFrom i (arc :: arcs) ≠ [] := by
    intro i arc arcs
    rw [dottedFrom]
    exact List.append_ne_nil_of_left_ne_nil
      (List.append_ne_nil_of_right_ne_nil _ Nat.toDigits_ne_nil) _
  induction arcs generalizing i arcs' with
  | nil =>
    cases arcs' with
    | nil => rfl
    | cons arc' arcs' => exact absurd h.symm (hne i arc' arcs')
  | cons arc arcs ih =>
    cases arcs' with
    | nil => exact absurd h (hne i arc arcs)
    | cons arc' arcs' =>
      rw [dottedFrom, dottedFrom, List.append_assoc, List.append_assoc, List.append_right_inj] at h
      -- the digits of an arc end where the next dot is
      have hdigits := congrArg (List.takeWhile Char.isDigit) h
      rw [takeWhile_digits arc (dottedFrom_succ i arcs),
        takeWhile_digits arc' (dottedFrom_succ i arcs')] at hdigits
      have harc : arc = arc' := by
        have hread := congrArg (fun cs => Nat.ofDigitChars 10 cs 0) hdigits
        rwa [Nat.ofDigitChars_ten_toDigits, Nat.ofDigitChars_ten_toDigits] at hread
      rw [harc, List.append_right_inj] at h
      rw [harc, ih (i + 1) h]

/-- What decodes is printed by its arcs, and by no others. -/
theorem display_injective {e e' : List UInt8} {arcs arcs' : List ℕ} (h : decode e = some arcs)
    (h' : decode e' = some arcs') (hdisplay : display e = display e') : arcs = arcs' := by
  rw [display, display, h, h'] at hdisplay
  exact dottedFrom_injective 0 hdisplay

/-! ### Two identifiers -/

/-- Two identifiers are decoded as the standard has it, and told apart. -/
structure OidsExact (e e' : List UInt8) : Prop where
  decodes : ∀ arcs, decode e = some arcs ↔ Encodes arcs e
  decodes' : ∀ arcs, decode e' = some arcs ↔ Encodes arcs e'
  distinct : e ≠ e' → ∀ arcs, ¬ (decode e = some arcs ∧ decode e' = some arcs)
  printed : e ≠ e' → decode e ≠ none → decode e' ≠ none → display e ≠ display e'

/-- Octets that are not a sequence of numbers below `2 ^ 64`, whatever their padding. -/
inductive Malformed (e : List UInt8) : Prop
  | empty (h : e = [])
  /-- The last octet has the continuation bit. -/
  | unclosed {b : UInt8} (h : e.getLast? = some b) (hb : Cont b)
  | large {gs : List (List UInt8)} {g : List UInt8} (he : e = gs.flatten)
      (hgs : ∀ g ∈ gs, Group g) (hg : g ∈ gs) (hle : 2 ^ 64 ≤ value g)

/-- Octets that are malformed in another way, or in which no number is padded. -/
def Sound (e : List UInt8) : Prop := Malformed e ∨ Unpadded e

theorem decode_eq_none_iff {e : List UInt8} : decode e = none ↔ Malformed e := by
  constructor
  · intro h
    obtain ⟨gs, tail, rfl, hgs, htail⟩ := exists_groups e
    by_cases hne : tail = []
    · subst hne
      rw [List.append_nil] at h ⊢
      cases gs with
      | nil => exact .empty rfl
      | cons g gs =>
        -- numbers that are all in range would have decoded
        by_contra hwell
        have hrange : ∀ g' ∈ g :: gs, value g' < 2 ^ 64 := by
          intro g' hg'
          by_contra hle
          exact hwell (.large rfl hgs hg' (not_lt.mp hle))
        rw [decode_groups hgs hrange] at h
        cases h
    · refine .unclosed (b := tail.getLast hne) ?_ (htail _ (List.getLast_mem hne))
      rw [List.getLast?_append_of_ne_nil _ hne, List.getLast?_eq_some_getLast hne]
  · intro h
    cases h with
    | empty h =>
      rw [h]
      rfl
    | unclosed h hb =>
      obtain ⟨front, rfl⟩ := List.getLast?_eq_some_iff.mp h
      exact decode_tail front (List.cons_ne_nil _ _) (List.forall_mem_singleton.mpr hb)
    | large he hgs hg hle =>
      rw [he, decode, decodeLoop_large hgs ⟨_, hg, not_lt.mpr hle⟩]
      rfl

theorem decodes_iff_sound {e : List UInt8} :
    (∀ arcs, decode e = some arcs ↔ Encodes arcs e) ↔ Sound e := by
  constructor
  · intro hexact
    cases hdecode : decode e with
    | none => exact .inl (decode_eq_none_iff.mp hdecode)
    | some arcs => exact .inr (unpadded_of_encodes ((hexact arcs).mp hdecode))
  · intro hsound arcs
    refine ⟨fun h => ?_, decode_of_encodes⟩
    obtain hmalformed | hunpadded := hsound
    · rw [decode_eq_none_iff.mpr hmalformed] at h
      cases h
    · exact (encodes_iff_unpadded h).mpr hunpadded

/-- **Identifiers are decoded exactly, and told apart by their arcs and their dotted forms, if
and only if no number in those that are not malformed is padded with `0x80`.** -/
theorem oids_exact_iff (e e' : List UInt8) : OidsExact e e' ↔ Sound e ∧ Sound e' := by
  constructor
  · intro h
    exact ⟨decodes_iff_sound.mp h.decodes, decodes_iff_sound.mp h.decodes'⟩
  · rintro ⟨hs, hs'⟩
    have hdecodes := decodes_iff_sound.mpr hs
    have hdecodes' := decodes_iff_sound.mpr hs'
    have hdistinct : e ≠ e' → ∀ arcs, ¬ (decode e = some arcs ∧ decode e' = some arcs) := by
      rintro hne arcs ⟨h, h'⟩
      exact hne (((hdecodes arcs).mp h).eq_octets ((hdecodes' arcs).mp h'))
    refine ⟨hdecodes, hdecodes', hdistinct, ?_⟩
    intro hne hsome hsome' hdisplay
    obtain ⟨arcs, h⟩ := Option.ne_none_iff_exists'.mp hsome
    obtain ⟨arcs', h'⟩ := Option.ne_none_iff_exists'.mp hsome'
    obtain rfl := display_injective h h' hdisplay
    exact hdistinct hne arcs ⟨h, h'⟩

/-- `0.1`, and the same with a padded number: both decode to the same arcs. -/
theorem oids_padded_collide : ¬ OidsExact [0x01] [0x80, 0x01] := by
  intro h
  exact h.distinct (by decide) [0, 1] ⟨by decide, by decide⟩

end Gss
