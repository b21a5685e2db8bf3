/-
Numbers in base 128, most significant octet first, with a continuation bit.

A number is a run of octets that have the high bit set, closed by one that has not
(`Group`).  Octets `0x80` in front of it change nothing; without them the octets are
determined by the number: `encode_value` and `value_encode`.  Any octets are a sequence of
such groups and a tail that is not closed (`exists_groups`), and whether no group begins
with `0x80` can be seen from neighbouring octets alone (`unpadded_flatten`).
-/
import Mathlib.Data.Nat.Digits.Defs
import Mathlib.Tactic

namespace Base128

/-- The octet has the continuation bit. -/
def Cont (b : UInt8) : Prop := 128 ≤ b.toNat

instance (b : UInt8) : Decidable (Cont b) := inferInstanceAs (Decidable (_ ≤ _))

/-- The number read so far, and then these octets. -/
def valueFrom (v : ℕ) (g : List UInt8) : ℕ := g.foldl (fun v b => v * 128 + b.toNat % 128) v

/-- The number that octets stand for. -/
def value (g : List UInt8) : ℕ := valueFrom 0 g

/-- A run of octets with the continuation bit and then one without. -/
inductive Group : List UInt8 → Prop
  | mk {front : List UInt8} {last : UInt8} (hfront : ∀ b ∈ front, Cont b) (hlast : ¬ Cont last) :
      Group (front ++ [last])

/-- The octets in front of the last one. -/
def front (n : ℕ) : List UInt8 :=
  if n = 0 then [] else front (n / 128) ++ [UInt8.ofNat (128 + n % 128)]
decreasing_by omega

/-- The fewest octets that stand for a number. -/
def encode (n : ℕ) : List UInt8 := front (n / 128) ++ [UInt8.ofNat (n % 128)]

/-! ### One number -/

theorem valueFrom_cons (v : ℕ) (b : UInt8) (g : List UInt8) :
    valueFrom v (b :: g) = valueFrom (v * 128 + b.toNat % 128) g := List.foldl_cons ..

theorem value_concat (g : List UInt8) (b : UInt8) :
    value (g ++ [b]) = value g * 128 + b.toNat % 128 := by
  rw [value, valueFrom, List.foldl_append]
  rfl

/-- More octets do not make it less. -/
theorem le_valueFrom (v : ℕ) (g : List UInt8) : v ≤ valueFrom v g := by
  induction g generalizing v with
  | nil => exact le_rfl
  | cons b g ih =>
    rw [valueFrom_cons]
    exact le_trans (by omega) (ih _)

theorem front_zero : front 0 = [] := by rw [front, if_pos rfl]

theorem front_pos {n : ℕ} (h : n ≠ 0) :
    front n = front (n / 128) ++ [UInt8.ofNat (128 + n % 128)] := by rw [front, if_neg h]

theorem toNat_octet {n : ℕ} (h : n < 256) : (UInt8.ofNat n).toNat = n :=
  UInt8.toNat_ofNat_of_lt' h

theorem front_spec (n : ℕ) : value (front n) = n ∧ ∀ b ∈ front n, Cont b := by
  induction n using Nat.strong_induction_on with
  | _ n ih =>
    by_cases hn : n = 0
    · rw [hn, front_zero]
      exact ⟨rfl, List.forall_mem_nil _⟩
    · obtain ⟨hvalue, hcont⟩ := ih (n / 128) (by omega)
      have hoctet : (UInt8.ofNat (128 + n % 128)).toNat = 128 + n % 128 := toNat_octet (by omega)
      rw [front_pos hn, value_concat, hvalue, hoctet]
      refine ⟨by omega, List.forall_mem_append.mpr ⟨hcont, List.forall_mem_singleton.mpr ?_⟩⟩
      rw [Cont, hoctet]
      omega

theorem value_encode (n : ℕ) : value (encode n) = n := by
  have hoctet : (UInt8.ofNat (n % 128)).toNat = n % 128 := toNat_octet (by omega)
  rw [encode, value_concat, (front_spec _).1, hoctet]
  omega

theorem group_encode (n : ℕ) : Group (encode n) := by
  refine .mk (front_spec _).2 ?_
  rw [Cont, toNat_octet (by omega)]
  omega

/-- What does not begin with `0x80` is the front of its number. -/
theorem front_value {f : List UInt8} (hcont : ∀ b ∈ f, Cont b) (hhead : f.head? ≠ some 0x80) :
    front (value f) = f := by
  induction f using List.reverseRecOn with
  | nil => exact front_zero
  | append_singleton f b ih =>
    obtain ⟨hf, hb⟩ := List.forall_mem_append.mp hcont
    have hb : 128 ≤ b.toNat := hb b List.mem_cons_self
    have hlt := b.toNat_lt
    -- the last octet is a digit, and the number is not zero
    have hvalue : value (f ++ [b]) = value f * 128 + (b.toNat - 128) := by
      rw [value_concat]
      omega
    have hoctet : UInt8.ofNat (128 + (b.toNat - 128)) = b := by
      rw [Nat.add_sub_cancel' hb, UInt8.ofNat_toNat]
    by_cases hnil : f = []
    · subst hnil
      have hzero : value [] = 0 := rfl
      have hne : b.toNat ≠ 128 := by
        intro h
        exact hhead (congrArg some (UInt8.toNat_inj.mp h))
      rw [hvalue, hzero, front_pos (by omega), Nat.div_eq_of_lt (by omega), front_zero,
        Nat.mod_eq_of_lt (by omega), Nat.zero_mul, Nat.zero_add, hoctet]
    · have hfhead : f.head? ≠ some 0x80 := by
        rwa [List.head?_append_of_ne_nil _ hnil] at hhead
      have hfront := ih hf hfhead
      have hne : value f ≠ 0 := by
        intro h
        rw [h, front_zero] at hfront
        exact hnil hfront.symm
      have hdiv : (value f * 128 + (b.toNat - 128)) / 128 = value f := by omega
      have hmod : (value f * 128 + (b.toNat - 128)) % 128 = b.toNat - 128 := by omega
      rw [hvalue, front_pos (by omega), hdiv, hmod, hfront, hoctet]

/-- The octets of `encode` are not padded. -/
theorem head_front (n : ℕ) : (front n).head? ≠ some 0x80 := by
  induction n using Nat.strong_induction_on with
  | _ n ih =>
    by_cases hn : n = 0
    · rw [hn, front_zero]
      intro h
      cases h
    · rw [front_pos hn]
      by_cases hsmall : n / 128 = 0
      · -- the only octet, and its digit is not zero
        rw [hsmall, front_zero]
        intro h
        have hoctet := congrArg UInt8.toNat (Option.some.inj h)
        rw [toNat_octet (by omega)] at hoctet
        have : (0x80 : UInt8).toNat = 128 := rfl
        omega
      · have hne : front (n / 128) ≠ [] := by
          rw [front_pos hsmall]
          exact List.append_ne_nil_of_right_ne_nil _ (List.cons_ne_nil _ _)
        rw [List.head?_append_of_ne_nil _ hne]
        exact ih _ (by omega)

theorem not_cont_of_group {g : List UInt8} (h : Group g) {b : UInt8} (hb : g.getLast? = some b) :
    ¬ Cont b := by
  cases h with
  | mk hfront hlast =>
    rw [List.getLast?_concat] at hb
    cases hb
    exact hlast

theorem Group.ne_nil {g : List UInt8} (h : Group g) : g ≠ [] := by
  cases h with
  | mk => exact List.append_ne_nil_of_right_ne_nil _ (List.cons_ne_nil _ _)

/-- **A group that does not begin with `0x80` is the encoding of its number, and no other
is.** -/
theorem encode_value {g : List UInt8} (h : Group g) :
    encode (value g) = g ↔ g.head? ≠ some 0x80 := by
  cases h with
  | @mk f last hfront hlast =>
    have hlt : last.toNat < 128 := not_le.mp hlast
    have hvalue : value (f ++ [last]) = value f * 128 + last.toNat := by
      rw [value_concat]
      omega
    have hdiv : (value f * 128 + last.toNat) / 128 = value f := by omega
    have hmod : (value f * 128 + last.toNat) % 128 = last.toNat := by omega
    have hencode : encode (value (f ++ [last])) = front (value f) ++ [last] := by
      rw [encode, hvalue, hdiv, hmod, UInt8.ofNat_toNat]
    have hhead : (f ++ [last]).head? = some 0x80 ↔ f.head? = some 0x80 := by
      by_cases hnil : f = []
      · subst hnil
        refine iff_of_false (fun h => ?_) (fun h => by cases h)
        cases h
        exact hlast (le_refl 128)
      · rw [List.head?_append_of_ne_nil _ hnil]
    rw [hencode, List.append_left_inj, Ne, hhead]
    constructor
    · intro heq
      rw [← heq]
      exact head_front _
    · exact front_value hfront

/-! ### Sequences of numbers -/

/-- Octets are groups, one after another, and a tail that is not closed. -/
theorem exists_groups (e : List UInt8) :
    ∃ (gs : List (List UInt8)) (tail : List UInt8), e = gs.flatten ++ tail ∧
      (∀ g ∈ gs, Group g) ∧ ∀ b ∈ tail, Cont b := by
  induction e with
  | nil => exact ⟨[], [], rfl, List.forall_mem_nil _, List.forall_mem_nil _⟩
  | cons b e ih =>
    obtain ⟨gs, tail, rfl, hgs, htail⟩ := ih
    by_cases hb : Cont b
    · cases gs with
      | nil =>
        exact ⟨[], b :: tail, rfl, List.forall_mem_nil _, List.forall_mem_cons.mpr ⟨hb, htail⟩⟩
      | cons g gs =>
        -- the octet belongs to the first group
        obtain ⟨hg, hgs⟩ := List.forall_mem_cons.mp hgs
        refine ⟨(b :: g) :: gs, tail, rfl, List.forall_mem_cons.mpr ⟨?_, hgs⟩, htail⟩
        cases hg with
        | @mk f last hfront hlast =>
          have hcons : Group (b :: f ++ [last]) :=
            .mk (List.forall_mem_cons.mpr ⟨hb, hfront⟩) hlast
          exact hcons
    · have hone : Group ([] ++ [b]) := .mk (List.forall_mem_nil _) hb
      exact ⟨[b] :: gs, tail, rfl, List.forall_mem_cons.mpr ⟨hone, hgs⟩, htail⟩

/-- No number begins with `0x80`: the octet stands only where another continues. -/
def Unpadded (e : List UInt8) : Prop :=
  ∀ before after, e = before ++ 0x80 :: after → ∃ b, before.getLast? = some b ∧ Cont b

theorem getLast?_flatten {gs : List (List UInt8)} (h : ∀ g ∈ gs, Group g) {b : UInt8}
    (hb : gs.flatten.getLast? = some b) : ¬ Cont b := by
  induction gs using List.reverseRecOn with
  | nil => cases hb
  | append_singleton gs g ih =>
    obtain ⟨-, hg⟩ := List.forall_mem_append.mp h
    have hg : Group g := hg g List.mem_cons_self
    rw [List.flatten_append, List.flatten_singleton, List.getLast?_append_of_ne_nil _ hg.ne_nil]
      at hb
    exact not_cont_of_group hg hb

/-- An octet of a group that is not its last one continues. -/
theorem Group.cont_of_append {g before after : List UInt8} {b : UInt8} (h : Group g)
    (hsplit : g = before ++ b :: after) : ∀ c ∈ before, Cont c := by
  cases h with
  | @mk f last hfront hlast =>
    intro c hc
    refine hfront c ?_
    obtain ⟨mid, hmid⟩ : ∃ mid, f = before ++ mid := by
      obtain ⟨mid, rfl, htail⟩ | ⟨mid, hmid, -⟩ := List.append_eq_append_iff.mp hsplit
      · cases mid with
        | nil => exact ⟨[], by rw [List.append_nil, List.append_nil]⟩
        | cons m mid =>
          rw [List.cons_append, List.cons.injEq] at htail
          exact absurd htail.2.symm (List.append_ne_nil_of_right_ne_nil _ (List.cons_ne_nil _ _))
      · exact ⟨mid, hmid⟩
    rw [hmid]
    exact List.mem_append_left _ hc

/-- **Neighbouring octets show whether a group is padded.** -/
theorem unpadded_flatten {gs : List (List UInt8)} (h : ∀ g ∈ gs, Group g) :
    Unpadded gs.flatten ↔ ∀ g ∈ gs, g.head? ≠ some 0x80 := by
  constructor
  · intro hun g hg hhead
    obtain ⟨pre, post, rfl⟩ := List.append_of_mem hg
    obtain ⟨rest, rfl⟩ : ∃ rest, g = 0x80 :: rest := by
      cases g with
      | nil => cases hhead
      | cons b rest =>
        cases hhead
        exact ⟨rest, rfl⟩
    obtain ⟨b, hb, hcont⟩ := hun pre.flatten (rest ++ post.flatten) (by
      rw [List.flatten_append, List.flatten_cons, List.cons_append])
    exact getLast?_flatten (fun g hg => h g (List.mem_append_left _ hg)) hb hcont
  · intro hheads
    induction gs with
    | nil =>
      intro before after hnil
      exact absurd hnil.symm (List.append_ne_nil_of_right_ne_nil _ (List.cons_ne_nil _ _))
    | cons g gs ih =>
      obtain ⟨hg, hgs⟩ := List.forall_mem_cons.mp h
      obtain ⟨hhead, hheads⟩ := List.forall_mem_cons.mp hheads
      intro before after hsplit
      rw [List.flatten_cons] at hsplit
      obtain ⟨mid, rfl, hrest⟩ | ⟨mid, hmid, hrest⟩ := List.append_eq_append_iff.mp hsplit
      · -- the octet is in a later group
        obtain ⟨b, hb, hcont⟩ := ih hgs hheads mid after hrest
        have hne : mid ≠ [] := by
          rintro rfl
          cases hb
        exact ⟨b, by rw [List.getLast?_append_of_ne_nil _ hne]; exact hb, hcont⟩
      · cases mid with
        | nil =>
          -- the octet begins the next group
          rw [List.append_nil] at hmid
          obtain ⟨b, hb, -⟩ := ih hgs hheads [] after hrest.symm
          cases hb
        | cons m mid =>
          rw [List.cons_append, List.cons.injEq] at hrest
          obtain ⟨rfl, -⟩ := hrest
          have hne : before ≠ [] := by
            rintro rfl
            rw [List.nil_append] at hmid
            exact hhead (by rw [hmid, List.head?_cons])
          refine ⟨before.getLast hne, List.getLast?_eq_some_getLast hne, ?_⟩
          exact hg.cont_of_append hmid _ (List.getLast_mem hne)

end Base128
