/-
Text in which separators can be quoted.

A text is a list of symbols.  Some symbols are separators, and one symbol, `esc`, quotes: a
separator or `esc` that stands after it is an ordinary symbol.  Reading a text therefore
gives `Token`s, which are ordinary symbols or separators.

* `read_quote` — a quoted text is read as the ordinary symbols it was made of;
* `read_quoted_fields` — so are quoted fields that are put together with a separator, whose
  tokens can then be split at it again (`splitOn_fields`).
-/
import Mathlib.Data.List.Basic

namespace Quoting

/-- A symbol of a text that has been read. -/
inductive Token (α : Type) where
  | lit (a : α)
  | sep (a : α)
  deriving DecidableEq, Repr

/-- The symbol of a token. -/
def Token.symbol {α : Type} : Token α → α
  | .lit a => a
  | .sep a => a

variable {α : Type} [DecidableEq α] (esc : α) (isSep : α → Bool)

/-- The symbols that have to be quoted. -/
def isQuoted (a : α) : Bool := a == esc || isSep a

/-- A text with its separators quoted. -/
def quote (s : List α) : List α := s.flatMap fun a => if isQuoted esc isSep a then [esc, a] else [a]

/-- A symbol with no `esc` before it. -/
def bare (a : α) : Token α := if isSep a then .sep a else .lit a

/-- Read a text.  An `esc` that has nothing to quote is an ordinary symbol. -/
def read : List α → List (Token α)
  | [] => []
  | [a] => [bare isSep a]
  | a :: b :: s =>
    if a = esc ∧ isQuoted esc isSep b then .lit b :: read s else bare isSep a :: read (b :: s)

section Read

variable {esc isSep} {a : α} {s rest : List α}

theorem read_esc (h : isQuoted esc isSep a) :
    read esc isSep (esc :: a :: s) = .lit a :: read esc isSep s := by
  rw [read, if_pos ⟨rfl, h⟩]

theorem read_bare (h : a ≠ esc) :
    read esc isSep (a :: s) = bare isSep a :: read esc isSep s := by
  cases s with
  | nil => rfl
  | cons b s => rw [read, if_neg fun hab => h hab.1]

theorem read_sep (hesc : a ≠ esc) (hsep : isSep a) :
    read esc isSep (a :: s) = .sep a :: read esc isSep s := by
  rw [read_bare hesc, bare, if_pos hsep]

theorem read_lit (h : ¬ isQuoted esc isSep a) :
    read esc isSep (a :: s) = .lit a :: read esc isSep s := by
  rw [isQuoted, Bool.or_eq_true, beq_iff_eq, not_or] at h
  rw [read_bare h.1, bare, if_neg h.2]

/-- Quoting brings in nothing but `esc`. -/
theorem eq_or_mem_of_mem_quote (h : a ∈ quote esc isSep s) :
    a = esc ∨ a ∈ s := by
  obtain ⟨b, hb, hab⟩ := List.mem_flatMap.mp h
  split at hab
  · rw [List.mem_cons, List.mem_singleton] at hab
    obtain hesc | rfl := hab
    · exact .inl hesc
    · exact .inr hb
  · obtain rfl := List.mem_singleton.mp hab
    exact .inr hb

/-- **Quoted symbols are ordinary**, whatever comes after them. -/
theorem read_quote : read esc isSep (quote esc isSep s ++ rest) =
    s.map .lit ++ read esc isSep rest := by
  induction s with
  | nil => rfl
  | cons a s ih =>
    rw [quote, List.flatMap_cons, List.append_assoc]
    change read esc isSep (_ ++ (quote esc isSep s ++ rest)) = .lit a :: (s.map .lit ++ _)
    split
    next h => rw [List.cons_append, List.singleton_append, read_esc h, ih]
    next h => rw [List.singleton_append, read_lit h, ih]

theorem read_quote_all : read esc isSep (quote esc isSep s) = s.map .lit := by
  have h : read esc isSep (quote esc isSep s ++ []) = _ := read_quote
  rwa [List.append_nil, read, List.append_nil] at h

/-- Quoted fields with separators between them are read as the fields with the separators
between them. -/
theorem read_quoted_fields (hesc : a ≠ esc) (hsep : isSep a) (fields : List (List α)) :
    read esc isSep ([a].intercalate (fields.map (quote esc isSep)) ++ rest) =
      [.sep a].intercalate (fields.map (List.map .lit)) ++ read esc isSep rest := by
  induction fields with
  | nil => rfl
  | cons field fields ih =>
    cases fields with
    | nil => simp only [List.map_cons, List.map_nil, List.intercalate_singleton, read_quote]
    | cons field' fields =>
      rw [List.map_cons, List.map_cons, List.intercalate_cons_cons, ← List.map_cons]
      rw [List.append_assoc, List.append_assoc, read_quote, List.singleton_append,
        read_sep hesc hsep, ih]
      simp only [List.map_cons, List.intercalate_cons_cons, List.append_assoc,
        List.cons_append, List.nil_append]

end Read

omit [DecidableEq α] in
/-- Each field but the first has the separator before it. -/
theorem intercalate_cons_flatMap (a : α) (field : List α) (fields : List (List α)) :
    [a].intercalate (field :: fields) = field ++ fields.flatMap (List.cons a) := by
  induction fields generalizing field with
  | nil => rw [List.intercalate_singleton, List.flatMap_nil, List.append_nil]
  | cons field' fields ih =>
    rw [List.intercalate_cons_cons, ih, List.flatMap_cons, List.append_assoc,
      List.singleton_append, List.cons_append]

omit [DecidableEq α] in
theorem eq_or_mem_of_mem_intercalate {a b : α} {fields : List (List α)}
    (h : b ∈ [a].intercalate fields) : b = a ∨ ∃ field ∈ fields, b ∈ field := by
  cases fields with
  | nil => exact absurd h List.not_mem_nil
  | cons field fields =>
    rw [intercalate_cons_flatMap, List.mem_append] at h
    obtain hfield | hrest := h
    · exact .inr ⟨field, List.mem_cons_self, hfield⟩
    · obtain ⟨field', hfield', hb⟩ := List.mem_flatMap.mp hrest
      exact (List.mem_cons.mp hb).imp_right fun hb =>
        ⟨field', List.mem_cons_of_mem _ hfield', hb⟩

omit [DecidableEq α] in
theorem map_symbol_lit (s : List α) : (s.map Token.lit).map Token.symbol = s := by
  rw [List.map_map]
  exact List.map_id s

omit [DecidableEq α] in
theorem sep_notMem_lit {a : α} (s : List α) : Token.sep a ∉ s.map Token.lit := by
  intro h
  obtain ⟨b, -, hb⟩ := List.mem_map.mp h
  cases hb

omit [DecidableEq α] in
/-- Between fields there is no separator but the one they are put together with. -/
theorem sep_notMem_fields {a b : α} (h : b ≠ a) (fields : List (List α)) :
    Token.sep b ∉ [Token.sep a].intercalate (fields.map (List.map .lit)) := by
  intro hmem
  obtain hab | ⟨ts, hts, hb⟩ := eq_or_mem_of_mem_intercalate hmem
  · exact h (Token.sep.inj hab)
  · obtain ⟨s, -, rfl⟩ := List.mem_map.mp hts
    exact sep_notMem_lit s hb

/-- **Fields are told apart by the separators between them**, as soon as there is one. -/
theorem splitOn_fields {a : α} {fields : List (List α)} (h : fields ≠ []) :
    (([Token.sep a].intercalate (fields.map (List.map .lit))).splitOn (.sep a)).map
      (List.map Token.symbol) = fields := by
  rw [List.splitOn_intercalate]
  · rw [List.map_map]
    conv_rhs => rw [← List.map_id fields]
    exact List.map_congr_left fun s _ => map_symbol_lit s
  · intro ts hts
    obtain ⟨s, -, rfl⟩ := List.mem_map.mp hts
    exact sep_notMem_lit s
  · exact fun hnil => h (List.map_eq_nil_iff.mp hnil)

end Quoting
