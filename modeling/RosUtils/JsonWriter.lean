/-
Writing arrays and objects of texts.

The crate puts its frames together from texts, without whitespace.  Whatever the parts are
spellings of, the whole is a spelling of the list of them: `enclosed_join`.
-/
import RosUtils.JsonValue

open JsonText JsonReader

namespace JsonWriter

/-- The parts one after another, with `c` between them. -/
def join {τ : Type} (c : τ) : List (List τ) → List τ
  | [] => []
  | a :: as => a ++ as.flatMap fun b => c :: b

theorem join_cons_cons {τ : Type} (c : τ) (a b : List τ) (as : List (List τ)) :
    join c (a :: b :: as) = a ++ c :: join c (b :: as) := by
  simp [join]

/-- An array of texts. -/
def arrayText (vs : List Text) : Text := '[' :: (join ',' vs ++ [']'])

/-- A member of an object. -/
def memberText (m : Text × Text) : Text := m.1 ++ ':' :: m.2

/-- An object of texts. -/
def objectText (ms : List (Text × Text)) : Text := '{' :: (join ',' (ms.map memberText) ++ ['}'])

section Lists

variable {α : Type} {G : α → Text → Prop}

theorem sepBy_join {a : α} {as : List α} {o : Text} {os : List Text} (ho : G a o)
    (h : List.Forall₂ G as os) : SepBy (Padded G) (a :: as) (join ',' (o :: os)) := by
  have hpad : ∀ {x o}, G x o → Padded G x o := fun {x o} hx =>
    ⟨[], o, [], by simp, nofun, hx, nofun⟩
  induction h generalizing a o with
  | nil =>
    have hlast : join ',' [o] = o := by simp [join]
    rw [hlast]
    exact .last (hpad ho)
  | cons ho' _ ih =>
    rw [join_cons_cons]
    exact .cons (hpad ho) (ih ho')

/-- **Parts that are written one by one make a list.** -/
theorem enclosed_join {l r : Char} {as : List α} {os : List Text} (h : List.Forall₂ G as os) :
    Enclosed l r G as (l :: (join ',' os ++ [r])) := by
  cases h with
  | nil => exact ⟨[], rfl, .inl ⟨rfl, nofun⟩⟩
  | cons ho h => exact ⟨_, rfl, .inr (sepBy_join ho h)⟩

end Lists

theorem arrayOf_arrayText {vs : List Text} (h : ∀ v ∈ vs, IsValue v) :
    ArrayOf vs (arrayText vs) :=
  enclosed_join (List.forall₂_same.mpr fun v hv => ⟨rfl, h v hv⟩)

theorem objectOf_objectText {ms : List (Text × Text)}
    (h : ∀ m ∈ ms, (∃ x, StrIs m.1 x) ∧ IsValue m.2) : ObjectOf ms (objectText ms) := by
  refine enclosed_join (List.forall₂_map_right_iff.mpr (List.forall₂_same.mpr fun m hm => ?_))
  obtain ⟨⟨x, ps, hps, -⟩, hv⟩ := h m hm
  exact ⟨[], [], rfl, ⟨ps, hps⟩, nofun, nofun, hv⟩

/-- Members whose names and values are read back make an object. -/
theorem enclosed_objectText {β : Type} {V : β → Text → Prop} {pairs : List (String × β)}
    {ms : List (Text × Text)}
    (h : List.Forall₂ (fun x m => StrIs m.1 x.1 ∧ V x.2 m.2) pairs ms) :
    Enclosed '{' '}' (Named StringOf V) pairs (objectText ms) := by
  refine enclosed_join (List.forall₂_map_right_iff.mpr (h.imp ?_))
  rintro x m ⟨hname, hvalue⟩
  exact ⟨m.1, [], [], m.2, rfl, hname, nofun, nofun, hvalue⟩

end JsonWriter
