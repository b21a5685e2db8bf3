/-
Removing an entry of a list by swapping it with the last.

`swapRemove l i` puts the last entry in the place of entry `i`, which reorders the
list but keeps everything else in it: `swapRemove_perm`.  With `rposition`, the
index of the last occurrence, a list without repetitions loses exactly the entry
asked for: `nodup_swapRemove` and `mem_swapRemove`.
-/
import Mathlib.Data.List.Perm.Basic
import Mathlib.Data.List.Nodup
import Mathlib.Tactic

namespace SwapRemove

variable {α : Type}

/-- The list without its entry `i`, in whose place the last entry is put. -/
def swapRemove (l : List α) (i : ℕ) : List α :=
  match l.getLast? with
  | some x => (l.set i x).dropLast
  | none => []

theorem swapRemove_concat (l : List α) (z : α) (i : ℕ) :
    swapRemove (l ++ [z]) i = ((l ++ [z]).set i z).dropLast := by
  rw [swapRemove, List.getLast?_concat]

/-- Together with the entry that was removed it is the list, in another order. -/
theorem swapRemove_perm {l : List α} {i : ℕ} {x : α} (h : l[i]? = some x) :
    (x :: swapRemove l i).Perm l := by
  obtain rfl | ⟨front, z, rfl⟩ := l.eq_nil_or_concat'
  · cases h
  rw [swapRemove_concat, List.set_append]
  by_cases hi : i < front.length
  · -- the last entry takes the place of entry `i`
    rw [List.getElem?_append_left hi] at h
    obtain ⟨-, rfl⟩ := List.getElem?_eq_some_iff.mp h
    rw [if_pos hi, List.dropLast_concat]
    have hset : (front.set i z).Perm (z :: front.eraseIdx i) := List.set_perm_cons_eraseIdx hi z
    have herase : (front[i] :: front.eraseIdx i).Perm front := List.getElem_cons_eraseIdx_perm hi
    calc List.Perm (front[i] :: front.set i z) (front[i] :: z :: front.eraseIdx i) := hset.cons _
      List.Perm _ (z :: front[i] :: front.eraseIdx i) := List.Perm.swap _ _ _
      List.Perm _ (z :: front) := herase.cons _
      List.Perm _ (front ++ [z]) := (List.perm_append_singleton z front).symm
  · -- entry `i` is the last one
    have hlen : i < (front ++ [z]).length := (List.getElem?_eq_some_iff.mp h).1
    rw [List.length_append, List.length_singleton] at hlen
    obtain rfl : i = front.length := by omega
    rw [List.getElem?_concat_length] at h
    cases h
    rw [if_neg hi, Nat.sub_self, List.set_cons_zero, List.dropLast_concat]
    exact (List.perm_append_singleton _ front).symm

/-- The index of the last occurrence of an entry. -/
def rposition [DecidableEq α] (l : List α) (x : α) : Option ℕ :=
  (l.reverse.idxOf? x).map fun j => l.length - 1 - j

/-- Removing the last entry leaves the rest as it was. -/
theorem swapRemove_length (l : List α) (z : α) : swapRemove (l ++ [z]) l.length = l := by
  rw [swapRemove_concat, List.set_append, if_neg (lt_irrefl _), Nat.sub_self, List.set_cons_zero,
    List.dropLast_concat]

theorem rposition_concat [DecidableEq α] (l : List α) (x : α) :
    rposition (l ++ [x]) x = some l.length := by
  rw [rposition, List.reverse_append, List.reverse_singleton, List.singleton_append,
    List.idxOf?_cons, if_pos (beq_self_eq_true x), List.length_append]
  rfl

variable {l : List α} {x : α} {i : ℕ}

theorem getElem?_of_rposition [DecidableEq α] (h : rposition l x = some i) : l[i]? = some x := by
  obtain ⟨j, hj, rfl⟩ := Option.map_eq_some_iff.mp h
  obtain ⟨hlt, heq, -⟩ := List.idxOf?_eq_some_iff.mp hj
  rw [List.getElem_reverse] at heq
  rw [← heq]
  exact List.getElem?_eq_getElem _

theorem rposition_eq_none [DecidableEq α] : rposition l x = none ↔ x ∉ l := by
  rw [rposition, Option.map_eq_none_iff, List.idxOf?_eq_none_iff, List.mem_reverse]

/-- A list without repetitions has none after a removal. -/
theorem nodup_swapRemove (hl : l.Nodup) (h : l[i]? = some x) : (swapRemove l i).Nodup :=
  (List.nodup_cons.mp ((swapRemove_perm h).nodup_iff.mpr hl)).2

/-- A removal takes one entry out of a list without repetitions, and no other. -/
theorem mem_swapRemove (hl : l.Nodup) (h : l[i]? = some x) {y : α} :
    y ∈ swapRemove l i ↔ y ∈ l ∧ y ≠ x := by
  have hperm := swapRemove_perm h
  have hnot : x ∉ swapRemove l i := (List.nodup_cons.mp (hperm.nodup_iff.mpr hl)).1
  rw [← hperm.mem_iff, List.mem_cons]
  constructor
  · intro hy
    exact ⟨.inr hy, fun hyx => hnot (hyx ▸ hy)⟩
  · rintro ⟨hyx | hy, hne⟩
    · exact absurd hyx hne
    · exact hy

end SwapRemove
