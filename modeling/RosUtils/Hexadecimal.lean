/-
Bytes in hexadecimal digits.

A byte is written with two lower-case digits (`hexOctet`), and bytes one after another.  The
digits are as many as twice the bytes, and different bytes have different digits
(`hex_injective`).
-/
import Mathlib.Tactic

namespace Hexadecimal

/-- Two lower-case hexadecimal digits. -/
def hexOctet (byte : UInt8) : List Char :=
  [Nat.digitChar (byte.toNat / 16), Nat.digitChar (byte.toNat % 16)]

theorem mem_hexOctet {b : UInt8} {c : Char} (h : c ∈ hexOctet b) :
    ∃ d : Fin 16, c = Nat.digitChar d := by
  have hb := b.toNat_lt
  rcases List.mem_pair.mp h with rfl | rfl
  · exact ⟨⟨b.toNat / 16, by omega⟩, rfl⟩
  · exact ⟨⟨b.toNat % 16, by omega⟩, rfl⟩

theorem length_hex (bytes : List UInt8) :
    (bytes.flatMap hexOctet).length = 2 * bytes.length := by
  induction bytes with
  | nil => rfl
  | cons b bytes ih =>
    rw [List.flatMap_cons, List.length_append, ih, List.length_cons]
    show 2 + _ = _
    omega

theorem digitChar_injective (d d' : Fin 16) (h : Nat.digitChar d = Nat.digitChar d') : d = d' := by
  revert d d'
  decide

theorem hexOctet_injective {b b' : UInt8} (h : hexOctet b = hexOctet b') : b = b' := by
  have hb := b.toNat_lt
  have hb' := b'.toNat_lt
  simp only [hexOctet, List.cons.injEq, and_true] at h
  have hhigh := digitChar_injective ⟨b.toNat / 16, by omega⟩ ⟨b'.toNat / 16, by omega⟩ h.1
  have hlow := digitChar_injective ⟨b.toNat % 16, by omega⟩ ⟨b'.toNat % 16, by omega⟩ h.2
  simp only [Fin.mk.injEq] at hhigh hlow
  exact UInt8.toNat_inj.mp (by omega)

/-- Different bytes are written differently. -/
theorem hex_injective {a b : List UInt8} (h : a.flatMap hexOctet = b.flatMap hexOctet) :
    a = b := by
  induction a generalizing b with
  | nil =>
    cases b with
    | nil => rfl
    | cons y b => cases h
  | cons x a ih =>
    cases b with
    | nil => cases h
    | cons y b =>
      obtain ⟨hxy, hab⟩ := List.append_inj h rfl
      rw [hexOctet_injective hxy, ih hab]

end Hexadecimal
