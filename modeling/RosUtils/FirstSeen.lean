/-
Dropping repeated entries, the first of each kept.

`FirstSeen all out` says that `out` is what is left of `all`: the same entries, in the
order in which `all` has them first.  The order makes `out` free of repetitions.  An entry
that comes at the end of `all` is left out if it is there already, and comes at the end of
`out` if not: `FirstSeen.old` and `FirstSeen.new`.
-/
import Mathlib.Data.List.Nodup
import Mathlib.Tactic

/-- The entries of `out` are those of `all`, in the order of their first appearance. -/
structure FirstSeen {α : Type} [DecidableEq α] (all out : List α) : Prop where
  mem_iff : ∀ x, x ∈ out ↔ x ∈ all
  order : out.Pairwise fun x y => all.idxOf x < all.idxOf y

namespace FirstSeen

variable {α : Type} [DecidableEq α] {all out : List α} {x : α}

theorem nil : FirstSeen ([] : List α) [] := ⟨fun _ => Iff.rfl, List.Pairwise.nil⟩

theorem nodup (h : FirstSeen all out) : out.Nodup :=
  h.order.imp fun hlt heq => absurd (heq ▸ hlt) (lt_irrefl _)

/-- More entries at the end leave the order of those before as it was. -/
theorem order_append (h : FirstSeen all out) (more : List α) :
    out.Pairwise fun x y => (all ++ more).idxOf x < (all ++ more).idxOf y := by
  refine h.order.imp_of_mem ?_
  intro x y hx hy hlt
  rwa [List.idxOf_append_of_mem ((h.mem_iff x).mp hx),
    List.idxOf_append_of_mem ((h.mem_iff y).mp hy)]

theorem old (h : FirstSeen all out) (hx : x ∈ all) : FirstSeen (all ++ [x]) out where
  mem_iff := by
    intro y
    rw [h.mem_iff, List.mem_append, List.mem_singleton]
    constructor
    · exact .inl
    · rintro (hy | rfl)
      · exact hy
      · exact hx
  order := h.order_append [x]

theorem new (h : FirstSeen all out) (hx : x ∉ all) : FirstSeen (all ++ [x]) (out ++ [x]) where
  mem_iff := by
    intro y
    rw [List.mem_append, List.mem_append, h.mem_iff]
  order := by
    refine List.pairwise_append.mpr ⟨h.order_append [x], List.pairwise_singleton _ _, ?_⟩
    intro y hy z hz
    rw [List.mem_singleton.mp hz]
    have hmem : y ∈ all := (h.mem_iff y).mp hy
    rw [List.idxOf_append_of_mem hmem, List.idxOf_append_of_notMem hx]
    exact Nat.lt_add_right _ (List.idxOf_lt_length_of_mem hmem)

/-- What comes first in the one comes first in the other. -/
theorem head?_eq (h : FirstSeen (x :: all) out) : out.head? = some x := by
  have hx : x ∈ out := (h.mem_iff x).mpr List.mem_cons_self
  cases out with
  | nil => cases hx
  | cons y out =>
    obtain rfl | hx := List.mem_cons.mp hx
    · rfl
    · -- nothing is before an entry of index zero
      have hlt := List.rel_of_pairwise_cons h.order hx
      rw [List.idxOf_cons_self] at hlt
      exact absurd hlt (Nat.not_lt_zero _)

end FirstSeen
