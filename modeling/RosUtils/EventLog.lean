/-
What a log says about the order of its entries.

A log grows at its end.  `Everywhere R` asks of each entry a relation to what stands before
it and to what stands after it, and `Since P Q` says that the log has an entry `P` after
which only `Q` has happened.

* `Everywhere.append` — a log grows well when the new entries are related to the whole of
  it, provided that an entry is content with more coming after it;
* `Since.append`, `Since.snoc` — how a log that grows keeps such an entry, or gets one.
-/
import Mathlib.Data.List.Basic

namespace EventLog

variable {α : Type} {P : α → Prop} {Q : List α → Prop} {R : List α → α → List α → Prop}
  {log es : List α}

/-- Each entry is related by `R` to those before it and to those after it. -/
def Everywhere (R : List α → α → List α → Prop) (log : List α) : Prop :=
  ∀ before e after, log = before ++ e :: after → R before e after

theorem everywhere_nil : Everywhere R [] := by
  intro before e after h
  exact absurd h.symm (List.append_ne_nil_of_right_ne_nil _ (List.cons_ne_nil _ _))

/-- An entry of the longer log is one of the old ones, with the new ones added after it, or
one of the new ones, with the old log before it. -/
theorem Everywhere.append (hlog : Everywhere R log)
    (hmore : ∀ before e after, R before e after → R before e (after ++ es))
    (hnew : Everywhere (fun before => R (log ++ before)) es) : Everywhere R (log ++ es) := by
  intro before e after h
  obtain ⟨mid, rfl, hes⟩ | ⟨mid, hlog', hmid⟩ := List.append_eq_append_iff.mp h
  · exact hnew mid e after hes
  · cases mid with
    | nil =>
      rw [List.append_nil] at hlog'
      have hfirst : R (log ++ []) e after := hnew [] e after hmid.symm
      rwa [List.append_nil, hlog'] at hfirst
    | cons e' mid =>
      rw [List.cons_append, List.cons.injEq] at hmid
      obtain ⟨rfl, rfl⟩ := hmid
      exact hmore _ _ _ (hlog before e mid hlog')

/-- The first entry, and then the others with it before them. -/
theorem everywhere_cons {e : α} (he : R [] e es)
    (hrest : Everywhere (fun before => R (e :: before)) es) : Everywhere R (e :: es) := by
  intro before e' after h
  cases before with
  | nil =>
    rw [List.nil_append, List.cons.injEq] at h
    obtain ⟨rfl, rfl⟩ := h
    exact he
  | cons b before =>
    rw [List.cons_append, List.cons.injEq] at h
    obtain ⟨rfl, hes⟩ := h
    exact hrest before e' after hes

/-- There is an entry `P`, and what came after it is `Q`. -/
def Since (P : α → Prop) (Q : List α → Prop) (log : List α) : Prop :=
  ∃ before e after, log = before ++ e :: after ∧ P e ∧ Q after

theorem Since.append {Q' : List α → Prop} (h : Since P Q log)
    (hmore : ∀ after, Q after → Q' (after ++ es)) : Since P Q' (log ++ es) := by
  obtain ⟨before, e, after, rfl, he, hafter⟩ := h
  exact ⟨before, e, after ++ es, by rw [List.append_assoc, List.cons_append], he, hmore after hafter⟩

theorem Since.snoc {e : α} (he : P e) (hnil : Q []) : Since P Q (log ++ [e]) :=
  ⟨log, e, [], rfl, he, hnil⟩

end EventLog
