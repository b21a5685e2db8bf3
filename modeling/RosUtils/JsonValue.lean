/-
The values JSON texts stand for, as `serde_json` keeps them.

A number that is an integer of 64 bits, with or without a sign, is kept as that
integer, and any other as a binary float.  An object is a map from names to values, in
the order of the names, which keeps the last of the members that have one name.

`ValueOf` states what a text stands for, down to a depth, given what its numbers stand for.
-/
import RosUtils.Binary64
import RosUtils.JsonReaderSpec

open ExceptState JsonText

namespace JsonReader

/-! ### Maps -/

/-- `BTreeMap<String, V>`: the members in the order of their names. -/
abbrev Map (V : Type) := List (String × V)

namespace Map

variable {V : Type}

def get (name : String) : Map V → Option V
  | [] => none
  | (k, v) :: m => if name = k then some v else get name m

/-- A member takes the place of one that has its name. -/
def insert (k : String) (v : V) : Map V → Map V
  | [] => [(k, v)]
  | (k', v') :: m =>
    if k < k' then (k, v) :: (k', v') :: m
    else if k = k' then (k, v) :: m
    else (k', v') :: insert k v m

def ofList (ms : List (String × V)) : Map V := ms.foldl (fun m x => insert x.1 x.2 m) []

theorem get_insert (k : String) (v : V) (m : Map V) (name : String) :
    get name (insert k v m) = if name = k then some v else get name m := by
  induction m with
  | nil => rfl
  | cons x m ih =>
    obtain ⟨k', v'⟩ := x
    rw [insert]
    by_cases hlt : k < k'
    · rw [if_pos hlt, get]
    rw [if_neg hlt]
    by_cases heq : k = k'
    · subst heq
      rw [if_pos rfl, get, get]
      split_ifs <;> rfl
    rw [if_neg heq, get, get, ih]
    by_cases hname : name = k
    · rw [if_pos hname, if_pos hname, if_neg (hname ▸ heq)]
    · rw [if_neg hname, if_neg hname]

/-- Of the members that have one name, the last is kept. -/
theorem get_ofList_append (ms : List (String × V)) (k : String) (v : V) (name : String) :
    get name (ofList (ms ++ [(k, v)])) = if name = k then some v else get name (ofList ms) := by
  rw [ofList, List.foldl_append]
  exact get_insert k v _ name

theorem get_ofList_eq_none {ms : List (String × V)} {name : String} :
    get name (ofList ms) = none ↔ ∀ x ∈ ms, x.1 ≠ name := by
  induction ms using List.reverseRecOn with
  | nil => simp [ofList, get]
  | append_singleton ms x ih =>
    rw [get_ofList_append, List.forall_mem_append, List.forall_mem_singleton, ← ih]
    split_ifs with hname
    · simp [hname]
    · simp [Ne.symm hname]

theorem get_ofList_eq_some {ms : List (String × V)} {name : String} {v : V} :
    get name (ofList ms) = some v ↔
      ∃ front back, ms = front ++ (name, v) :: back ∧ ∀ x ∈ back, x.1 ≠ name := by
  induction ms using List.reverseRecOn with
  | nil => simp [ofList, get]
  | append_singleton ms x ih =>
    obtain ⟨k, u⟩ := x
    rw [get_ofList_append]
    split_ifs with hname
    · subst hname
      constructor
      · intro h
        cases h
        exact ⟨ms, [], rfl, nofun⟩
      · rintro ⟨front, back, hms, hback⟩
        -- the last member has the name, so that nothing stands behind it
        rcases List.eq_nil_or_concat' back with rfl | ⟨back, y, rfl⟩
        · have hlast := List.append_inj_right' hms rfl
          cases hlast
          rfl
        · rw [← List.cons_append, ← List.append_assoc] at hms
          cases List.append_inj_right' hms rfl
          exact absurd rfl (hback (name, u) (by simp))
    · rw [ih]
      constructor
      · rintro ⟨front, back, rfl, hback⟩
        refine ⟨front, back ++ [(k, u)], by simp, ?_⟩
        rw [List.forall_mem_append, List.forall_mem_singleton]
        exact ⟨hback, Ne.symm hname⟩
      · rintro ⟨front, back, hms, hback⟩
        rcases List.eq_nil_or_concat' back with rfl | ⟨back, y, rfl⟩
        · cases List.append_inj_right' hms rfl
          exact absurd rfl hname
        · rw [← List.cons_append, ← List.append_assoc] at hms
          refine ⟨front, back, List.append_inj_left' hms rfl, fun x hx => hback x ?_⟩
          exact List.mem_append_left _ hx

/-- Members whose names increase are a map as they stand. -/
def Sorted (m : Map V) : Prop := m.Pairwise fun x y => x.1 < y.1

theorem insert_last {m : Map V} {k : String} (h : ∀ x ∈ m, x.1 < k) (v : V) :
    insert k v m = m ++ [(k, v)] := by
  induction m with
  | nil => rfl
  | cons x m ih =>
    obtain ⟨k', v'⟩ := x
    obtain ⟨hlt, hm⟩ := List.forall_mem_cons.mp h
    have hne : k ≠ k' := fun heq => String.lt_irrefl k' (heq ▸ hlt)
    rw [insert, if_neg (String.lt_asymm hlt), if_neg hne, ih hm, List.cons_append]

theorem Sorted.ofList_eq {m : Map V} (h : Sorted m) : ofList m = m := by
  induction m using List.reverseRecOn with
  | nil => rfl
  | append_singleton m x ih =>
    obtain ⟨hm, -, hlast⟩ := List.pairwise_append.mp h
    have hfold := ih hm
    rw [ofList] at hfold
    rw [ofList, List.foldl_append, hfold]
    exact insert_last (fun y hy => hlast y hy x List.mem_cons_self) x.2

end Map

/-! ### Numbers -/

/-- The natural number that digits stand for. -/
def natOf (ds : Text) : ℕ := Nat.ofDigitChars 10 ds 0

/-- An integer that fits `i64` or `u64`. -/
structure Integer where
  val : ℤ
  lower : -2 ^ 63 ≤ val
  upper : val < 2 ^ 64
  deriving DecidableEq

def Integer.ofInt (z : ℤ) : Option Integer :=
  if h : -2 ^ 63 ≤ z ∧ z < 2 ^ 64 then some ⟨z, h.1, h.2⟩ else none

/-- `Number`: an integer of 64 bits, or a float. -/
inductive Number where
  | int (n : Integer)
  | float (f : F64)
  deriving DecidableEq

/-- The integer of 64 bits that a literal is.  The sign of `-0` would be lost. -/
def integerOf (t : NumberText) : Option Integer :=
  if t.frac = [] ∧ t.exp = [] then
    if t.minus then
      if natOf t.int = 0 then none else Integer.ofInt (-natOf t.int)
    else Integer.ofInt (natOf t.int)
  else none

/-! ### Values -/

/-- `Value`. -/
inductive Value where
  | null
  | bool (b : Bool)
  | number (n : Number)
  | string (s : String)
  | array (vs : List Value)
  | object (ms : List (String × Value))

/-- The depth that values are read to. -/
def recursionLimit : ℕ := 128

/-- The name by which `serde_json` hands a text on to itself: an object that begins with it is
read as the text in its one member, and not as an object. -/
def reservedName : String := "$serde_json::private::RawValue"

/-- The text is an object that begins with a name which is reserved. -/
def Reserved (res : Option String) (v : Text) : Prop :=
  ∃ name m ms, res = some name ∧ ObjectOf (m :: ms) v ∧ StrIs m.1 name

/-- What a text stands for, given what the numbers and the texts inside it stand for. -/
inductive ValueStep (num : NumberText → Option Number) (res : Option String) (d : ℕ)
    (V : Value → Text → Prop) : Value → Text → Prop
  | null : ValueStep num res d V .null "null".toList
  | true : ValueStep num res d V (.bool true) "true".toList
  | false : ValueStep num res d V (.bool false) "false".toList
  | string {x : String} {k : Text} (h : StrIs k x) : ValueStep num res d V (.string x) k
  | number {t : NumberText} {x : Number} (ht : t.WF) (hx : num t = some x) :
      ValueStep num res d V (.number x) t.text
  | array {vs : List Value} {o : Text} (hd : d ≠ 0) (h : Enclosed '[' ']' V vs o) :
      ValueStep num res d V (.array vs) o
  | object {ms : List (String × Value)} {o : Text} (hd : d ≠ 0)
      (hfirst : ∀ m ∈ ms.head?, some m.1 ≠ res)
      (h : Enclosed '{' '}' (Named StringOf V) ms o) :
      ValueStep num res d V (.object (Map.ofList ms)) o

/-- What a text stands for, above a depth. -/
def ValueOf (num : NumberText → Option Number) (res : Option String) : ℕ → Value → Text → Prop
  | 0 => fun _ _ => False
  | d + 1 => ValueStep num res d (ValueOf num res d)

theorem isValue_of_valueOf {num : NumberText → Option Number} {res : Option String} {d : ℕ}
    ⦃v : Value⦄ ⦃s : Text⦄ (h : ValueOf num res d v s) : IsValue s := by
  induction d generalizing v s with
  | zero => exact h.elim
  | succ d ih =>
    refine isValue_iff.mpr ?_
    cases h with
    | null => exact .inl (by decide)
    | true => exact .inl (by decide)
    | false => exact .inl (by decide)
    | string h => exact .inr (.inr (.inl ⟨_, h.choose_spec.1⟩))
    | number ht _ => exact .inr (.inl ⟨_, ht, rfl⟩)
    | array hd h =>
      obtain ⟨vs, -, hvs⟩ := h.transfer (H := ElementOf) (R := fun _ _ => True)
        fun _ s hs => ⟨s, trivial, rfl, ih hs⟩
      exact .inr (.inr (.inr (.inr ⟨vs, hvs⟩)))
    | object hd _ h =>
      obtain ⟨ms, -, hms⟩ := h.transfer (H := MemberOf) (R := fun _ _ => True) (by
        rintro m _ ⟨k, w, w', v, rfl, ⟨ps, hk, -⟩, hw, hw', hv⟩
        exact ⟨(k, v), trivial, w, w', rfl, ⟨ps, hk⟩, hw, hw', ih hv⟩)
      exact .inr (.inr (.inr (.inl ⟨ms, hms⟩)))

end JsonReader
