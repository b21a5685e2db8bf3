/-
Blocks that are allocated, written and freed by hand.

A heap has live blocks with contents.  A block keeps the size that it was allocated with: a
write that does not fit it, an access to a block that is not live, or a second `free` of one,
is `none`.  What a block held when it was freed is kept, since the next owner of the memory
may read it.

`Owns h l` says that the list `l` has the live blocks of `h`, each once.  It is all that the
specifications of the operations need: `l` is divided between the owners of the blocks, and
an operation changes the part it is given.

* `Owns.alloc`, `Owns.write`, `Owns.free`, `Owns.release` — the operations;
* `Owns.perm` — the order of the blocks does not matter;
* `Frees P h h'` — the blocks that were freed on the way from `h` to `h'` satisfy `P`.
-/
import Mathlib.Tactic

namespace OwnedHeap

/-- Live blocks, and what the freed ones held, oldest first. -/
structure Heap (V : Type) where
  next : ℕ
  live : ℕ → Option V
  freed : List V

namespace Heap

variable {V : Type}

/-- No block. -/
def empty : Heap V := ⟨0, fun _ => none, []⟩

/-- A new block with these contents. -/
def alloc (h : Heap V) (v : V) : ℕ × Heap V :=
  (h.next, { h with next := h.next + 1, live := Function.update h.live h.next (some v) })

/-- New contents for a block, of the size of the old ones. -/
def write (size : V → ℕ) (h : Heap V) (p : ℕ) (v : V) : Option (Heap V) :=
  match h.live p with
  | none => none
  | some old =>
    if size v = size old then some { h with live := Function.update h.live p (some v) } else none

/-- A block is given back. -/
def free (h : Heap V) (p : ℕ) : Option (Heap V) :=
  match h.live p with
  | none => none
  | some v => some { h with live := Function.update h.live p none, freed := h.freed ++ [v] }

/-- Somebody else gives a block back, and answers for what it held. -/
def release (h : Heap V) (p : ℕ) : Option (Heap V) :=
  match h.live p with
  | none => none
  | some _ => some { h with live := Function.update h.live p none }

/-! ### Ownership -/

/-- The live blocks are those of the list, each once. -/
structure Owns (h : Heap V) (l : List (ℕ × V)) : Prop where
  live_iff : ∀ p v, h.live p = some v ↔ (p, v) ∈ l
  nodup : (l.map Prod.fst).Nodup
  bound : ∀ p ∈ l.map Prod.fst, p < h.next

variable {h : Heap V} {l l' : List (ℕ × V)} {p : ℕ} {v : V}

theorem owns_empty : Owns (empty : Heap V) [] where
  live_iff _ v := iff_of_false (Option.some_ne_none v).symm List.not_mem_nil
  nodup := List.nodup_nil
  bound _ hp := absurd hp List.not_mem_nil

theorem Owns.perm (ho : h.Owns l) (hperm : l.Perm l') : h.Owns l' where
  live_iff p v := (ho.live_iff p v).trans hperm.mem_iff
  nodup := (hperm.map Prod.fst).nodup_iff.mp ho.nodup
  bound p hp := ho.bound p ((hperm.map Prod.fst).mem_iff.mpr hp)

/-- A block that is owned is live, with its contents. -/
theorem Owns.get (ho : h.Owns ((p, v) :: l)) : h.live p = some v :=
  (ho.live_iff p v).mpr List.mem_cons_self

/-- The first block is not among the others. -/
theorem Owns.not_mem (ho : h.Owns ((p, v) :: l)) : ∀ w, (p, w) ∉ l := by
  intro w hw
  exact (List.nodup_cons.mp ho.nodup).1 (List.mem_map.mpr ⟨(p, w), hw, rfl⟩)

theorem Owns.alloc (ho : h.Owns l) (v : V) : (h.alloc v).2.Owns ((h.next, v) :: l) where
  live_iff p w := by
    show Function.update h.live h.next (some v) p = some w ↔ _
    by_cases hp : p = h.next
    · rw [hp, Function.update_self, List.mem_cons, Prod.mk.injEq]
      constructor
      · intro hv
        exact .inl ⟨rfl, (Option.some.inj hv).symm⟩
      · rintro (⟨-, rfl⟩ | hmem)
        · rfl
        · exact absurd (ho.bound _ (List.mem_map_of_mem hmem)) (lt_irrefl _)
    · rw [Function.update_of_ne hp, ho.live_iff, List.mem_cons, Prod.mk.injEq]
      exact ⟨.inr, fun hor => hor.resolve_left fun heq => hp heq.1⟩
  nodup := by
    refine List.nodup_cons.mpr ⟨?_, ho.nodup⟩
    intro hmem
    exact absurd (ho.bound _ hmem) (lt_irrefl _)
  bound := by
    intro p hp
    show p < h.next + 1
    obtain rfl | hp := List.mem_cons.mp hp
    · exact Nat.lt_succ_self _
    · exact Nat.lt_succ_of_lt (ho.bound p hp)

theorem Owns.write {size : V → ℕ} (ho : h.Owns ((p, v) :: l)) {w : V} (hsize : size w = size v) :
    ∃ h', h.write size p w = some h' ∧ h'.Owns ((p, w) :: l) ∧ h'.freed = h.freed := by
  refine ⟨{ h with live := Function.update h.live p (some w) }, ?_, ⟨?_, ho.nodup, ho.bound⟩, rfl⟩
  · rw [Heap.write, ho.get]
    exact if_pos hsize
  · intro q x
    show Function.update h.live p (some w) q = some x ↔ _
    by_cases hq : q = p
    · rw [hq, Function.update_self, List.mem_cons, Prod.mk.injEq]
      constructor
      · intro hx
        exact .inl ⟨rfl, (Option.some.inj hx).symm⟩
      · rintro (⟨-, rfl⟩ | hmem)
        · rfl
        · exact absurd hmem (ho.not_mem x)
    · rw [Function.update_of_ne hq, ho.live_iff, List.mem_cons, List.mem_cons, Prod.mk.injEq,
        Prod.mk.injEq]
      simp only [hq, false_and, false_or]

/-- What is left when a block is gone. -/
theorem Owns.remove (ho : h.Owns ((p, v) :: l)) (freed : List V) :
    Owns { h with live := Function.update h.live p none, freed := freed } l where
  live_iff q x := by
    show Function.update h.live p none q = some x ↔ _
    by_cases hq : q = p
    · rw [hq, Function.update_self]
      exact iff_of_false (Option.some_ne_none x).symm (ho.not_mem x)
    · rw [Function.update_of_ne hq, ho.live_iff, List.mem_cons, Prod.mk.injEq]
      simp only [hq, false_and, false_or]
  nodup := (List.nodup_cons.mp ho.nodup).2
  bound q hq := ho.bound q (List.mem_cons_of_mem _ hq)

theorem Owns.free (ho : h.Owns ((p, v) :: l)) :
    ∃ h', h.free p = some h' ∧ h'.Owns l ∧ h'.freed = h.freed ++ [v] := by
  refine ⟨_, ?_, ho.remove (h.freed ++ [v]), rfl⟩
  rw [Heap.free, ho.get]

theorem Owns.release (ho : h.Owns ((p, v) :: l)) :
    ∃ h', h.release p = some h' ∧ h'.Owns l ∧ h'.freed = h.freed := by
  refine ⟨_, ?_, ho.remove h.freed, rfl⟩
  rw [Heap.release, ho.get]

/-! ### What is left behind -/

/-- What was freed between two states satisfies `P`. -/
def Frees (P : V → Prop) (h h' : Heap V) : Prop :=
  ∃ vs, h'.freed = h.freed ++ vs ∧ ∀ v ∈ vs, P v

variable {P : V → Prop} {h₁ h₂ h₃ : Heap V}

theorem Frees.of_eq (heq : h₂.freed = h₁.freed) : Frees P h₁ h₂ :=
  ⟨[], by rw [heq, List.append_nil], List.forall_mem_nil _⟩

theorem Frees.one (heq : h₂.freed = h₁.freed ++ [v]) (hv : P v) : Frees P h₁ h₂ :=
  ⟨[v], heq, List.forall_mem_singleton.mpr hv⟩

theorem Frees.trans (h12 : Frees P h₁ h₂) (h23 : Frees P h₂ h₃) : Frees P h₁ h₃ := by
  obtain ⟨vs, hvs, hP⟩ := h12
  obtain ⟨ws, hws, hQ⟩ := h23
  exact ⟨vs ++ ws, by rw [hws, hvs, List.append_assoc], List.forall_mem_append.mpr ⟨hP, hQ⟩⟩

/-- What holds of everything freed before holds of everything freed since. -/
theorem Frees.all (h12 : Frees P h₁ h₂) (h1 : ∀ v ∈ h₁.freed, P v) : ∀ v ∈ h₂.freed, P v := by
  obtain ⟨vs, hvs, hP⟩ := h12
  rw [hvs]
  exact List.forall_mem_append.mpr ⟨h1, hP⟩

end Heap

end OwnedHeap
