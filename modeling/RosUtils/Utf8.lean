/-
UTF-8, as a function on lists of characters.

`encode` is the encoding of a text, and `decode` finds the text of a byte string if
there is one.  An ASCII character is its own byte, and its byte stands for no other
character: so a byte string can be searched for an ASCII character in place of the
text (`mem_encode`).
-/
import Mathlib.Tactic

namespace Utf8

/-- The bytes of a text. -/
def encode (cs : List Char) : List UInt8 := cs.flatMap String.utf8EncodeChar

@[simp] theorem encode_nil : encode [] = [] := rfl

theorem encode_cons (c : Char) (cs : List Char) :
    encode (c :: cs) = String.utf8EncodeChar c ++ encode cs := List.flatMap_cons

@[simp] theorem encode_append (a b : List Char) : encode (a ++ b) = encode a ++ encode b :=
  List.flatMap_append

theorem toUTF8_eq (s : String) : s.toUTF8.data.toList = encode s.toList := by
  have h : s.toUTF8 = (encode s.toList).toByteArray := by
    rw [String.toUTF8, ← String.ofList_toList (s := s), String.toByteArray_ofList,
      String.toList_ofList]
    rfl
  rw [h, List.toList_data_toByteArray]

/-! ### Decoding -/

/-- `str::from_utf8`. -/
def decode (b : List UInt8) : Option (List Char) :=
  (String.fromUTF8? ⟨b.toArray⟩).map String.toList

theorem fromUTF8?_eq_some {b : List UInt8} {s : String} :
    String.fromUTF8? ⟨b.toArray⟩ = some s ↔ s.toUTF8.data.toList = b := by
  rw [String.fromUTF8?]
  constructor
  · intro h
    split at h
    · cases h
      rfl
    · cases h
  · rintro rfl
    have hs : (⟨s.toUTF8.data.toList.toArray⟩ : ByteArray) = s.toByteArray := rfl
    rw [dif_pos (hs ▸ s.isValidUTF8)]
    rfl

theorem decode_eq_some {b : List UInt8} {cs : List Char} :
    decode b = some cs ↔ b = encode cs := by
  rw [decode, Option.map_eq_some_iff]
  constructor
  · rintro ⟨s, hs, rfl⟩
    rw [← fromUTF8?_eq_some.mp hs, toUTF8_eq]
  · rintro rfl
    refine ⟨String.ofList cs, fromUTF8?_eq_some.mpr ?_, String.toList_ofList⟩
    rw [toUTF8_eq, String.toList_ofList]

theorem encode_injective {a b : List Char} (h : encode a = encode b) : a = b := by
  have hb := decode_eq_some.mpr h.symm
  rw [decode_eq_some.mpr rfl] at hb
  exact (Option.some.inj hb).symm

/-! ### ASCII -/

theorem toNat_toUInt8 {d : Char} (hd : d.toNat < 128) : d.toUInt8.toNat = d.toNat := by
  show d.val.toNat % 256 = d.val.toNat
  have : d.val.toNat < 128 := hd
  omega

theorem encodeChar_ascii {c : Char} (hc : c.toNat < 128) :
    String.utf8EncodeChar c = [c.toUInt8] := by
  have hval : c.val.toNat ≤ 127 := Nat.lt_succ_iff.mp hc
  rw [String.utf8EncodeChar]
  simp only [if_pos hval]
  rfl

theorem encode_cons_ascii {c : Char} (hc : c.toNat < 128) (cs : List Char) :
    encode (c :: cs) = c.toUInt8 :: encode cs := by
  rw [encode_cons, encodeChar_ascii hc]
  rfl

theorem encode_ascii {cs : List Char} (h : ∀ c ∈ cs, c.toNat < 128) :
    encode cs = cs.map Char.toUInt8 := by
  induction cs with
  | nil => rfl
  | cons c cs ih =>
    obtain ⟨hc, hcs⟩ := List.forall_mem_cons.mp h
    rw [encode_cons_ascii hc, ih hcs, List.map_cons]

/-- The UTF-8 bytes of a character are its code, or lie outside ASCII. -/
theorem mem_encodeChar {c : Char} {x : UInt8} (h : x ∈ String.utf8EncodeChar c) :
    x.toNat = c.toNat ∨ 128 ≤ x.toNat := by
  have hval : c.val.toNat = c.toNat := rfl
  simp only [String.utf8EncodeChar, hval] at h
  split_ifs at h <;> simp only [List.mem_cons, List.not_mem_nil, or_false] at h
  · subst h
    left
    rw [UInt8.toNat_ofNat']
    omega
  · right
    rcases h with rfl | rfl <;> rw [UInt8.toNat_ofNat'] <;> omega
  · right
    rcases h with rfl | rfl | rfl <;> rw [UInt8.toNat_ofNat'] <;> omega
  · right
    rcases h with rfl | rfl | rfl | rfl <;> rw [UInt8.toNat_ofNat'] <;> omega

/-- No byte of another character is taken for an ASCII character. -/
theorem encodeChar_ne {c d : Char} {x : UInt8} (hd : d.toNat < 128) (hc : c ≠ d)
    (h : x ∈ String.utf8EncodeChar c) : x ≠ d.toUInt8 := by
  rintro rfl
  have hcode := toNat_toUInt8 hd
  rcases mem_encodeChar h with hx | hx
  · refine hc (Char.ext ?_)
    rw [hcode] at hx
    exact UInt32.toNat_inj.mp hx.symm
  · omega

theorem mem_encode {d : Char} (hd : d.toNat < 128) (cs : List Char) :
    d.toUInt8 ∈ encode cs ↔ d ∈ cs := by
  rw [encode, List.mem_flatMap]
  constructor
  · rintro ⟨c, hc, hmem⟩
    by_cases h : c = d
    · exact h ▸ hc
    · exact absurd rfl (encodeChar_ne hd h hmem)
  · intro h
    exact ⟨d, h, by rw [encodeChar_ascii hd]; exact List.mem_singleton_self _⟩

end Utf8
