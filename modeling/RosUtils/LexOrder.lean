/-
Lexicographic order and prefixes.

Lists over an ordered type are ordered lexicographically, so that what begins with
a given list `p` is one block of the order, and the block begins at `p`:

* `not_lt_of_prefix` — what begins with `p` is not below `p`;
* `prefix_of_between` — what lies between `p` and something that begins with `p`
  begins with `p`.

For entries in the order of their keys this says where a search has to start and
where it may stop: `dropWhile_lt` and `takeWhile_prefix`.
-/
import Mathlib.Data.List.TakeWhile
import Mathlib.Tactic

namespace LexOrder

variable {α β : Type} [LT α]

/-! ### The block of a prefix -/

/-- What begins with `p` is not below `p`. -/
theorem not_lt_of_prefix (hirrefl : ∀ a : α, ¬ a < a) {p k : List α} (h : p <+: k) :
    ¬ k < p := by
  induction p generalizing k with
  | nil => exact List.not_lt_nil k
  | cons a p ih =>
    obtain ⟨t, rfl⟩ := h
    rw [List.cons_append, List.cons_lt_cons_iff]
    rintro (hlt | ⟨-, hlt⟩)
    · exact hirrefl a hlt
    · exact ih (List.prefix_append p t) hlt

/-- What is not below `p` and is below something that begins with `p` begins with `p`. -/
theorem prefix_of_between {p k k' : List α} (hp : ¬ k < p) (hk : k < k') (h : p <+: k') :
    p <+: k := by
  induction p generalizing k k' with
  | nil => exact List.nil_prefix
  | cons a p ih =>
    obtain ⟨t, rfl⟩ := h
    cases k with
    | nil => exact absurd (List.nil_lt_cons a p) hp
    | cons b k =>
      rw [List.cons_append, List.cons_lt_cons_iff] at hk
      rw [List.cons_lt_cons_iff] at hp
      push Not at hp
      rcases hk with hlt | ⟨rfl, hlt⟩
      · exact absurd hlt hp.1
      · exact List.cons_prefix_cons.mpr ⟨rfl, ih (hp.2 rfl) hlt (List.prefix_append p t)⟩

/-! ### Entries in the order of their keys -/

section Sorted

variable {key : β → List α} {l : List β}

/-- The entries are in the order of their keys, which are distinct. -/
def Sorted (key : β → List α) (l : List β) : Prop := l.Pairwise fun a b => key a < key b

variable [DecidableEq α] [DecidableLT α]

/-- The entries that are not below `p` are all entries from the first of them on. -/
theorem dropWhile_lt (htrans : ∀ {a b c : List α}, a < b → b < c → a < c) (hl : Sorted key l)
    (p : List α) :
    l.dropWhile (fun e => decide (key e < p)) = l.filter fun e => !decide (key e < p) := by
  induction l with
  | nil => rfl
  | cons e l ih =>
    obtain ⟨hfirst, hrest⟩ := List.pairwise_cons.mp hl
    by_cases hlt : key e < p
    · rw [List.dropWhile_cons_of_pos (by simpa using hlt),
        List.filter_cons_of_neg (by simpa using hlt)]
      exact ih hrest
    · -- the entries behind one that is not below `p` are not either
      have hall : ∀ x ∈ e :: l, (!decide (key x < p)) = true := by
        intro x hx
        rcases List.mem_cons.mp hx with rfl | hx
        · simpa using hlt
        · simpa using fun hxp => hlt (htrans (hfirst x hx) hxp)
      rw [List.dropWhile_cons_of_neg (by simpa using hlt), List.filter_eq_self.mpr hall]

omit [DecidableLT α] in
/-- Among entries that are not below `p`, those that begin with `p` are in front. -/
theorem takeWhile_prefix_of_not_lt (hl : Sorted key l) {p : List α}
    (hp : ∀ e ∈ l, ¬ key e < p) :
    l.takeWhile (fun e => p.isPrefixOf (key e)) = l.filter fun e => p.isPrefixOf (key e) := by
  induction l with
  | nil => rfl
  | cons e l ih =>
    obtain ⟨hfirst, hrest⟩ := List.pairwise_cons.mp hl
    by_cases he : p.isPrefixOf (key e) = true
    · rw [List.takeWhile_cons_of_pos (by simpa using he),
        List.filter_cons_of_pos (by simpa using he),
        ih hrest fun x hx => hp x (List.mem_cons_of_mem e hx)]
    · have hnone : l.filter (fun e => p.isPrefixOf (key e)) = [] := by
        refine List.filter_eq_nil_iff.mpr fun x hx hpx => he ?_
        have hbetween := prefix_of_between (hp e List.mem_cons_self) (hfirst x hx)
          (List.isPrefixOf_iff_prefix.mp hpx)
        exact List.isPrefixOf_iff_prefix.mpr hbetween
      rw [List.takeWhile_cons_of_neg (by simpa using he),
        List.filter_cons_of_neg (by simpa using he), hnone]

/-- **The entries whose key begins with `p` are those from the first one not below `p` up to
the first one that does not begin with it.** -/
theorem takeWhile_prefix (hirrefl : ∀ a : α, ¬ a < a)
    (htrans : ∀ {a b c : List α}, a < b → b < c → a < c) (hl : Sorted key l) (p : List α) :
    (l.dropWhile fun e => decide (key e < p)).takeWhile (fun e => p.isPrefixOf (key e))
      = l.filter fun e => p.isPrefixOf (key e) := by
  have hsub : Sorted key (l.dropWhile fun e => decide (key e < p)) :=
    List.Pairwise.sublist (List.dropWhile_sublist _) hl
  have hnot : ∀ e ∈ l.dropWhile (fun e => decide (key e < p)), ¬ key e < p := by
    intro e he
    rw [dropWhile_lt htrans hl] at he
    simpa using List.of_mem_filter he
  rw [takeWhile_prefix_of_not_lt hsub hnot, dropWhile_lt htrans hl, List.filter_filter]
  refine List.filter_congr fun e _ => ?_
  -- what begins with `p` passes the other test as well
  cases hpe : p.isPrefixOf (key e) with
  | false => rfl
  | true =>
    have hlt := not_lt_of_prefix hirrefl (List.isPrefixOf_iff_prefix.mp hpe)
    simpa using hlt

/-- The entries behind an entry are those above it. -/
theorem dropWhile_not_gt (htrans : ∀ {a b c : List α}, a < b → b < c → a < c)
    (hirrefl : ∀ a : List α, ¬ a < a) (hl : Sorted key l) {q : β → Bool} {e : β} {rest : List β}
    (h : l.dropWhile q = e :: rest) :
    l.dropWhile (fun x => !decide (key e < key x)) = rest := by
  have hsplit : l = l.takeWhile q ++ e :: rest := by
    rw [← h, List.takeWhile_append_dropWhile]
  have hpair := hl
  rw [Sorted, hsplit, List.pairwise_append, List.pairwise_cons] at hpair
  obtain ⟨-, ⟨habove, -⟩, hbelow⟩ := hpair
  rw [hsplit, List.dropWhile_append_of_pos, List.dropWhile_cons_of_pos]
  · cases rest with
    | nil => rfl
    | cons x rest =>
      rw [List.dropWhile_cons_of_neg]
      simpa using habove x List.mem_cons_self
  · simpa using hirrefl (key e)
  · intro x hx
    have hlt : key x < key e := hbelow x hx e List.mem_cons_self
    simpa using fun hgt => hirrefl _ (htrans hlt hgt)

end Sorted

end LexOrder
