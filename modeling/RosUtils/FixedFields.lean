/-
Records whose fields have fixed places.

A reader goes through a record from front to back, and nothing in its code says where in the
record it stands.  `At s i p a j` says so: from position `i` of `s`, the reader `p` reads `a`
and stops at position `j`.  One step leads to the next (`At.bind`), so the places of the
fields, and the length of the record, come out of going through the code once.

* `Raises P p` — all failures of `p` are `P`;
* `named` — a field that holds one of some known codes, or another code; what it holds can be
  told from the name it is given (`named_injective`).
-/
import RosUtils.ExceptState

namespace FixedFields

open ExceptState

variable {τ ε α β : Type}

/-- From position `i` of `s`, the reader reads `a` and stops at position `j`. -/
def At (s : List τ) (i : ℕ) (p : Reader τ ε α) (a : α) (j : ℕ) : Prop :=
  p.run (s.drop i) = .ok (a, s.drop j)

section At

variable {s : List τ} {i j k : ℕ} {p : Reader τ ε α} {a : α} {b : β}

theorem At.pure (a : α) : At s i (Pure.pure a : Reader τ ε α) a i := rfl

theorem At.bind {f : α → Reader τ ε β} (hp : At s i p a j) (hf : At s j (f a) b k) :
    At s i (p >>= f) b k := by
  rw [At, run_bind_of_ok hp]
  exact hf

theorem At.map (f : α → β) (hp : At s i p a j) : At s i (f <$> p) (f a) j := run_map_of_ok hp

theorem At.unique {a' : α} {j' : ℕ} (h : At s i p a j) (h' : At s i p a' j') : a = a' :=
  congrArg Prod.fst (Except.ok.inj (h.symm.trans h'))

end At

/-- All failures of the reader are `P`. -/
def Raises (P : ε → Prop) (p : Reader τ ε α) : Prop := ∀ s e, p.run s = .error e → P e

section Raises

variable {P : ε → Prop} {p : Reader τ ε α}

theorem Raises.pure (a : α) : Raises P (Pure.pure a : Reader τ ε α) := by
  intro s e h
  cases h

theorem Raises.bind {f : α → Reader τ ε β} (hp : Raises P p) (hf : ∀ a, Raises P (f a)) :
    Raises P (p >>= f) := by
  intro s e h
  cases hrun : p.run s with
  | error e' =>
    rw [run_bind_of_error hrun] at h
    cases h
    exact hp s _ hrun
  | ok r =>
    rw [run_bind_of_ok hrun] at h
    exact hf r.1 r.2 e h

theorem Raises.map (f : α → β) (hp : Raises P p) : Raises P (f <$> p) := by
  intro s e h
  cases hrun : p.run s with
  | error e' =>
    rw [run_map_of_error hrun] at h
    cases h
    exact hp s _ hrun
  | ok r =>
    rw [run_map_of_ok hrun] at h
    cases h

end Raises

/-! ### Codes -/

section Codes

variable {κ ν : Type} [DecidableEq κ]

/-- The name of a code, where those that are not in the table keep their code. -/
def named (table : List (κ × ν)) (unknown : κ → ν) (code : κ) : ν :=
  match table.find? (·.1 == code) with
  | some entry => entry.2
  | none => unknown code

/-- A code has a name of the table, or none of them. -/
theorem named_cases (table : List (κ × ν)) (unknown : κ → ν) (code : κ) :
    (code, named table unknown code) ∈ table ∨ named table unknown code = unknown code := by
  rw [named]
  cases hfind : table.find? (·.1 == code) with
  | none => exact .inr rfl
  | some entry =>
    have hcode : entry.1 = code := by simpa using List.find?_some hfind
    have hmem : entry ∈ table := List.mem_of_find?_eq_some hfind
    rw [← hcode]
    exact .inl hmem

/-- **Different codes have different names**, if the names of the table are different and no
unknown code has one of them. -/
theorem named_injective {table : List (κ × ν)} {unknown : κ → ν}
    (hnames : (table.map Prod.snd).Nodup) (hunknown : Function.Injective unknown)
    (hfree : ∀ code, unknown code ∉ table.map Prod.snd) :
    Function.Injective (named table unknown) := by
  have hname : ∀ {code name}, (code, name) ∈ table → name ∈ table.map Prod.snd :=
    fun h => List.mem_map.mpr ⟨_, h, rfl⟩
  intro c c' h
  obtain hc | hc := named_cases table unknown c <;> obtain hc' | hc' := named_cases table unknown c'
  · rw [← h] at hc'
    exact congrArg Prod.fst (List.inj_on_of_nodup_map hnames hc hc' rfl)
  · rw [← h] at hc'
    exact absurd (hname hc) (hc' ▸ hfree c')
  · rw [h] at hc
    exact absurd (hname hc') (hc ▸ hfree c)
  · exact hunknown (hc.symm.trans (h.trans hc'))

end Codes

end FixedFields
