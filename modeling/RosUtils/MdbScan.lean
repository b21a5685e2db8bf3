/-
Scans and iterators over an LMDB database.

`Db::scan`, `Db::scan_from` and `Db::scan_prefix` hand every entry to a callback;
`Db::iter`, `Db::iter_from` and `Db::iter_prefix` yield them one at a time.  All
six take the same step, `CursorGuard::walk`: it seeks first, moves on after that,
and stops at the first key that does not begin with the prefix.

LMDB is a cursor with any state and any answers (`Lmdb`).  What it promises for a
database is `Lmdb.Serves`: `MDB_FIRST` lands on the least key, `MDB_SET_RANGE` on
the least one not below a start, `MDB_NEXT` on the successor.  Under the promise
the walk visits exactly what was asked for (`scans_exact`), because the keys with
a prefix are one block of the order; that an iterator is over once it has
returned `None` or an error needs no promise at all.
-/
import RosUtils.LexOrder

namespace Mdb

namespace Scan

abbrev Bytes := List UInt8

/-- A key and its value. -/
abbrev Entry := Bytes × Bytes

/-- The content of a database: its entries in the order of their keys. -/
structure Content where
  entries : List Entry
  sorted : LexOrder.Sorted Prod.fst entries
  nonempty : ∀ e ∈ entries, e.1 ≠ []

/-! ### The cursor -/

/-- The cursor operations in use. -/
inductive Op where
  | first
  | setRange
  | next

/-- What `mdb_cursor_get` returns, with what it fills in. -/
inductive Rc (ε : Type) where
  | success (e : Entry)
  | notFound
  | failure (e : ε)

/-- `mdb_cursor_get` of a library whose cursors are in one of the states `σ`, with the
errors `ε`. -/
structure Lmdb (σ ε : Type) where
  cursorGet : σ → Op → Option Bytes → Rc ε × σ

/-- `ControlFlow`. -/
inductive ControlFlow (B : Type) where
  | continue
  | break (b : B)

variable {σ ε φ B : Type}

section Walk

variable (L : Lmdb σ ε)

/-- `CursorGuard::step`. -/
def Lmdb.step (c : σ) (op : Op) (start : Option Bytes) : Except ε (Option Entry) × σ :=
  match L.cursorGet c op start with
  | (.success e, c) => (.ok (some e), c)
  | (.notFound, c) => (.ok none, c)
  | (.failure e, c) => (.error e, c)

/-- The operation of a walk that has started or is about to, and its key. -/
def seek (started : Bool) (start : Option Bytes) : Op × Option Bytes :=
  if started then (.next, none)
  else
    match start with
    | some key => if key.isEmpty then (.first, none) else (.setRange, some key)
    | none => (.first, none)

/-- The key does not begin with the prefix that was asked for. -/
def past (pfx : Option Bytes) (e : Entry) : Bool :=
  match pfx with
  | some p => !p.isPrefixOf e.1
  | none => false

/-- `CursorGuard::walk`.  The walk has started afterwards. -/
def Lmdb.walk (c : σ) (started : Bool) (start pfx : Option Bytes) :
    Except ε (Option Entry) × σ :=
  match L.step c (seek started start).1 (seek started start).2 with
  | (.error e, c) => (.error e, c)
  | (.ok none, c) => (.ok none, c)
  | (.ok (some e), c) => if past pfx e then (.ok none, c) else (.ok (some e), c)

/-! ### Scans -/

/-- The loop of `Db::scan_impl`.  The callback has a state of its own.  Nothing comes back
when the fuel runs out. -/
def Lmdb.scanLoop (start pfx : Option Bytes) (f : φ → Entry → φ × ControlFlow B) :
    ℕ → φ → σ → Bool → Option (φ × Except ε (Option B))
  | 0, _, _, _ => none
  | fuel + 1, x, c, started =>
    match L.walk c started start pfx with
    | (.error e, _) => some (x, .error e)
    | (.ok none, _) => some (x, .ok none)
    | (.ok (some e), c) =>
      match f x e with
      | (x, .break b) => some (x, .ok (some b))
      | (x, .continue) => Lmdb.scanLoop start pfx f fuel x c true

/-- `Db::scan_impl`, where `opened` is the cursor, or why the transaction or the cursor could
not be had. -/
def Lmdb.scanImpl (opened : Except ε σ) (start pfx : Option Bytes)
    (f : φ → Entry → φ × ControlFlow B) (fuel : ℕ) (x : φ) :
    Option (φ × Except ε (Option B)) :=
  match opened with
  | .error e => some (x, .error e)
  | .ok c => L.scanLoop start pfx f fuel x c false

/-- `Db::scan`. -/
def Lmdb.scan (opened : Except ε σ) (f : φ → Entry → φ × ControlFlow B) (fuel : ℕ) (x : φ) :
    Option (φ × Except ε (Option B)) :=
  L.scanImpl opened none none f fuel x

/-- `Db::scan_from`. -/
def Lmdb.scanFrom (opened : Except ε σ) (start : Bytes) (f : φ → Entry → φ × ControlFlow B)
    (fuel : ℕ) (x : φ) : Option (φ × Except ε (Option B)) :=
  L.scanImpl opened (some start) none f fuel x

/-- `Db::scan_prefix`. -/
def Lmdb.scanPrefix (opened : Except ε σ) (pfx : Bytes) (f : φ → Entry → φ × ControlFlow B)
    (fuel : ℕ) (x : φ) : Option (φ × Except ε (Option B)) :=
  L.scanImpl opened (some pfx) (some pfx) f fuel x

end Walk

/-! ### Iterators -/

/-- `Iter`. -/
structure Iter (σ : Type) where
  cursor : σ
  start : Option Bytes
  pfx : Option Bytes
  started : Bool
  done : Bool

/-- `Iter::new`. -/
def Iter.new (opened : Except ε σ) (start pfx : Option Bytes) : Except ε (Iter σ) :=
  match opened with
  | .error e => .error e
  | .ok c => .ok ⟨c, start, pfx, false, false⟩

/-- `Db::iter`. -/
def iter (opened : Except ε σ) : Except ε (Iter σ) := Iter.new opened none none

/-- `Db::iter_from`. -/
def iterFrom (opened : Except ε σ) (start : Bytes) : Except ε (Iter σ) :=
  Iter.new opened (some start) none

/-- `Db::iter_prefix`. -/
def iterPrefix (opened : Except ε σ) (pfx : Bytes) : Except ε (Iter σ) :=
  Iter.new opened (some pfx) (some pfx)

/-- `Iter::step`. -/
def Iter.step (L : Lmdb σ ε) (it : Iter σ) : Except ε (Option Entry) × Iter σ :=
  match L.walk it.cursor it.started it.start it.pfx with
  | (r, c) => (r, { it with cursor := c, started := true })

/-- `Iter::next`. -/
def Iter.next (L : Lmdb σ ε) (it : Iter σ) : Option (Except ε Entry) × Iter σ :=
  if it.done then (none, it)
  else
    match it.step L with
    | (.ok (some e), it) => (some (.ok e), it)
    | (.ok none, it) => (none, { it with done := true })
    | (.error e, it) => (some (.error e), { it with done := true })

/-- What `n` calls of `next` return. -/
def Iter.nexts (L : Lmdb σ ε) : ℕ → Iter σ → List (Option (Except ε Entry))
  | 0, _ => []
  | n + 1, it => (it.next L).1 :: Iter.nexts L n (it.next L).2

/-! ### What LMDB promises -/

/-- What `mdb_cursor_get` returns for an entry that was found or not. -/
def Rc.ofFound : Option Entry → Rc ε
  | some e => .success e
  | none => .notFound

/-- LMDB serves the content of a database.  `stands c k` says that the cursor is on the
key `k`. -/
structure Lmdb.Serves (L : Lmdb σ ε) (db : Content) (stands : σ → Bytes → Prop) : Prop where
  first : ∀ c, ∃ c', L.cursorGet c .first none = (Rc.ofFound db.entries.head?, c') ∧
    ∀ e, db.entries.head? = some e → stands c' e.1
  setRange : ∀ c key, key ≠ [] →
    ∃ c', L.cursorGet c .setRange (some key)
        = (Rc.ofFound (db.entries.find? fun e => !decide (e.1 < key)), c') ∧
      ∀ e, (db.entries.find? fun e => !decide (e.1 < key)) = some e → stands c' e.1
  next : ∀ c key, stands c key →
    ∃ c', L.cursorGet c .next none
        = (Rc.ofFound (db.entries.find? fun e => decide (key < e.1)), c') ∧
      ∀ e, (db.entries.find? fun e => decide (key < e.1)) = some e → stands c' e.1

/-- The entries from a start on. -/
def Content.fromStart (db : Content) (start : Option Bytes) : List Entry :=
  db.entries.dropWhile fun e => decide (e.1 < start.getD [])

/-- The entries behind a key. -/
def Content.behind (db : Content) (key : Bytes) : List Entry :=
  db.entries.dropWhile fun e => !decide (key < e.1)

/-- The entries a walk has still to come to, but for the prefix. -/
def Ahead (db : Content) (stands : σ → Bytes → Prop) (start : Option Bytes) (c : σ)
    (started : Bool) (l : List Entry) : Prop :=
  if started then ∃ key, stands c key ∧ l = db.behind key else l = db.fromStart start

theorem bytes_lt_irrefl (a : Bytes) : ¬ a < a := List.lt_irrefl a

theorem bytes_lt_trans {a b c : Bytes} (hab : a < b) (hbc : b < c) : a < c :=
  List.lt_trans hab hbc

section Serves

variable {L : Lmdb σ ε} {db : Content} {stands : σ → Bytes → Prop}

theorem find?_from (db : Content) (key : Bytes) :
    (db.entries.find? fun e => !decide (e.1 < key)) = (db.fromStart (some key)).head? :=
  List.find?_not_eq_head?_dropWhile _ _

theorem find?_behind (db : Content) (key : Bytes) :
    (db.entries.find? fun e => decide (key < e.1)) = (db.behind key).head? :=
  List.find?_eq_head?_dropWhile_not _ _

/-- A start that is empty or was not given is the beginning. -/
theorem fromStart_nil (db : Content) : db.fromStart (some []) = db.entries := by
  rw [Content.fromStart, List.dropWhile_eq_self_iff]
  intro _
  simp

/-- The seek or the move of a walk lands on the first entry ahead. -/
theorem Lmdb.Serves.step_ahead (h : L.Serves db stands) {start : Option Bytes} {c : σ}
    {started : Bool} {l : List Entry} (hl : Ahead db stands start c started l) :
    ∃ c', L.cursorGet c (seek started start).1 (seek started start).2 = (Rc.ofFound l.head?, c') ∧
      ∀ e, l.head? = some e → stands c' e.1 := by
  have first_ok (hl : l = db.entries) :
      ∃ c', L.cursorGet c .first none = (Rc.ofFound l.head?, c') ∧
        ∀ e, l.head? = some e → stands c' e.1 := by
    rw [hl]
    exact h.first c
  cases started with
  | true =>
    obtain ⟨key, hkey, rfl⟩ := hl
    rw [← find?_behind]
    exact h.next c key hkey
  | false =>
    have hl : l = db.fromStart start := hl
    cases start with
    | none => exact first_ok (hl.trans (fromStart_nil db))
    | some key =>
      cases key with
      | nil => exact first_ok (hl.trans (fromStart_nil db))
      | cons b key =>
        rw [hl, ← find?_from]
        exact h.setRange c (b :: key) (List.cons_ne_nil b key)

/-- What is ahead of an entry of what is ahead are the entries behind it. -/
theorem Ahead.tail {start : Option Bytes} {c c' : σ} {started : Bool} {e : Entry}
    {l : List Entry} (hl : Ahead db stands start c started (e :: l)) (hc : stands c' e.1) :
    Ahead db stands start c' true l := by
  have hbehind {q : Entry → Bool} (h : db.entries.dropWhile q = e :: l) : db.behind e.1 = l :=
    LexOrder.dropWhile_not_gt bytes_lt_trans bytes_lt_irrefl db.sorted h
  refine ⟨e.1, hc, ?_⟩
  cases started with
  | true =>
    obtain ⟨key, -, hl⟩ := hl
    exact (hbehind hl.symm).symm
  | false => exact (hbehind (Eq.symm hl)).symm

/-- **One step of a walk**: the first entry ahead, unless it is past the prefix. -/
theorem Lmdb.Serves.walk_ahead (h : L.Serves db stands) {start : Option Bytes}
    (pfx : Option Bytes) {c : σ} {started : Bool} {l : List Entry}
    (hl : Ahead db stands start c started l) :
    ∃ c', L.walk c started start pfx = (.ok (l.takeWhile fun e => !past pfx e).head?, c') ∧
      ∀ e l', l = e :: l' → Ahead db stands start c' true l' := by
  obtain ⟨c', hget, hstands⟩ := h.step_ahead hl
  refine ⟨c', ?_, fun e l' hel => ?_⟩
  · rw [Lmdb.walk, Lmdb.step, hget]
    cases l with
    | nil => rfl
    | cons e l =>
      show (if past pfx e then _ else _) = _
      cases hpast : past pfx e <;> simp [hpast]
  · subst hel
    exact hl.tail (hstands e rfl)

/-! ### Scans and iterators are exact -/

/-- Hand the entries to a callback one after another, up to the first break. -/
def visit (f : φ → Entry → φ × ControlFlow B) : φ → List Entry → φ × Option B
  | x, [] => (x, none)
  | x, e :: l =>
    match f x e with
    | (x, .break b) => (x, some b)
    | (x, .continue) => visit f x l

/-- The loop of a scan visits what is ahead up to the end of the prefix, and it ends. -/
theorem Lmdb.Serves.scanLoop_ahead (h : L.Serves db stands) {start : Option Bytes}
    (pfx : Option Bytes) (f : φ → Entry → φ × ControlFlow B) {l : List Entry} {c : σ}
    {started : Bool} (hl : Ahead db stands start c started l) {fuel : ℕ} (hfuel : l.length < fuel)
    (x : φ) :
    L.scanLoop start pfx f fuel x c started =
      some ((visit f x (l.takeWhile fun e => !past pfx e)).1,
        .ok (visit f x (l.takeWhile fun e => !past pfx e)).2) := by
  induction l generalizing c started fuel x with
  | nil =>
    obtain ⟨fuel, rfl⟩ : ∃ n, fuel = n + 1 := ⟨fuel - 1, by omega⟩
    obtain ⟨c', hwalk, -⟩ := h.walk_ahead pfx hl
    rw [Lmdb.scanLoop, hwalk]
    rfl
  | cons e l ih =>
    obtain ⟨fuel, rfl⟩ : ∃ n, fuel = n + 1 := ⟨fuel - 1, by omega⟩
    obtain ⟨c', hwalk, hrest⟩ := h.walk_ahead pfx hl
    rw [Lmdb.scanLoop, hwalk]
    cases hpast : past pfx e with
    | true => simp [hpast, visit]
    | false =>
      have htake : (e :: l).takeWhile (fun e => !past pfx e)
          = e :: l.takeWhile fun e => !past pfx e := by simp [hpast]
      rw [htake, List.head?_cons, visit]
      dsimp only
      rcases f x e with ⟨x', _ | b⟩
      · rw [List.length_cons] at hfuel
        exact ih (hrest e l rfl) (Nat.lt_of_succ_lt_succ hfuel) x'
      · rfl

/-- An iterator whose walk is over returns `None` for ever. -/
theorem Iter.nexts_done (L : Lmdb σ ε) {it : Iter σ} (hdone : it.done = true) (n : ℕ) :
    it.nexts L n = List.replicate n none := by
  have hnext : it.next L = (none, it) := by rw [Iter.next, if_pos hdone]
  induction n with
  | zero => rfl
  | succ n ih => rw [Iter.nexts, hnext, ih, List.replicate_succ]

/-- An iterator yields what is ahead up to the end of the prefix, and then `None`. -/
theorem Lmdb.Serves.nexts_ahead (h : L.Serves db stands) (n : ℕ) {it : Iter σ}
    (hdone : it.done = false) {l : List Entry}
    (hl : Ahead db stands it.start it.cursor it.started l) :
    it.nexts L n = (List.range n).map fun i =>
      (l.takeWhile fun e => !past it.pfx e)[i]?.map .ok := by
  induction n generalizing it l with
  | zero => rfl
  | succ n ih =>
    obtain ⟨c', hwalk, hrest⟩ := h.walk_ahead it.pfx hl
    have hstep : it.step L = (.ok (l.takeWhile fun e => !past it.pfx e).head?,
        { it with cursor := c', started := true }) := by rw [Iter.step, hwalk]
    rw [Iter.nexts, Iter.next, if_neg (by simp [hdone]), hstep, List.range_succ_eq_map,
      List.map_cons, List.map_map]
    cases htake : l.takeWhile fun e => !past it.pfx e with
    | nil =>
      rw [List.head?_nil]
      simp only [List.getElem?_nil, Option.map_none, Function.comp_def, List.map_const',
        List.length_range]
      exact congrArg (none :: ·) (Iter.nexts_done L rfl n)
    | cons e rest =>
      -- the entry that was yielded is the first one ahead
      cases l with
      | nil => cases htake
      | cons e' l =>
        rw [List.takeWhile_cons] at htake
        split at htake
        · cases htake
          have hnext := @ih { it with cursor := c', started := true } hdone l (hrest e l rfl)
          rw [List.head?_cons]
          exact congrArg _ hnext
        · cases htake

/-- **A walk from a start to the end of a prefix comes to the entries `l`**, in a scan. -/
theorem Lmdb.Serves.scanImpl_eq (h : L.Serves db stands) (c : σ) {start pfx : Option Bytes}
    (f : φ → Entry → φ × ControlFlow B) {fuel : ℕ} (hfuel : db.entries.length < fuel) (x : φ)
    {l : List Entry} (hl : (db.fromStart start).takeWhile (fun e => !past pfx e) = l) :
    L.scanImpl (.ok c) start pfx f fuel x = some ((visit f x l).1, .ok (visit f x l).2) := by
  have hlen : (db.fromStart start).length < fuel :=
    lt_of_le_of_lt (List.length_dropWhile_le _ db.entries) hfuel
  have hahead : Ahead db stands start c false (db.fromStart start) := rfl
  subst hl
  exact h.scanLoop_ahead pfx f hahead hlen x

/-- The same walk in an iterator. -/
theorem Lmdb.Serves.nexts_eq (h : L.Serves db stands) (c : σ) {start pfx : Option Bytes}
    (n : ℕ) {l : List Entry} (hl : (db.fromStart start).takeWhile (fun e => !past pfx e) = l) :
    Iter.nexts L n ⟨c, start, pfx, false, false⟩ = (List.range n).map fun i => l[i]?.map .ok := by
  have hahead : Ahead db stands start c false (db.fromStart start) := rfl
  subst hl
  exact @Lmdb.Serves.nexts_ahead σ ε L db stands h n ⟨c, start, pfx, false, false⟩ rfl _ hahead

end Serves

/-! ### Which entries -/

section Entries

variable (db : Content)

theorem takeWhile_not_past_none (l : List Entry) :
    l.takeWhile (fun e => !past none e) = l := by
  rw [List.takeWhile_eq_self_iff]
  intro e _
  rfl

theorem walk_all : (db.fromStart none).takeWhile (fun e => !past none e) = db.entries := by
  rw [takeWhile_not_past_none]
  exact fromStart_nil db

theorem walk_from (start : Bytes) :
    (db.fromStart (some start)).takeWhile (fun e => !past none e)
      = db.entries.filter fun e => !decide (e.1 < start) := by
  rw [takeWhile_not_past_none]
  exact LexOrder.dropWhile_lt bytes_lt_trans db.sorted start

theorem walk_below (p : Bytes) :
    (db.fromStart (some p)).takeWhile (fun e => !past (some p) e)
      = db.entries.filter fun e => p.isPrefixOf e.1 := by
  have hpast : (fun e : Entry => !past (some p) e) = fun e => p.isPrefixOf e.1 := by
    funext e
    exact Bool.not_not _
  rw [hpast]
  exact LexOrder.takeWhile_prefix UInt8.lt_irrefl bytes_lt_trans db.sorted p

end Entries

/-- What a scan of the entries `l` returns: the callback has seen them one after another, up
to the first break. -/
def scanned (f : φ → Entry → φ × ControlFlow B) (x : φ) (l : List Entry) :
    Option (φ × Except ε (Option B)) :=
  some ((visit f x l).1, .ok (visit f x l).2)

/-- What `n` calls of `next` return over the entries `l`: each of them once, and `None` from
then on. -/
def yielded (n : ℕ) (l : List Entry) : List (Option (Except ε Entry)) :=
  (List.range n).map fun i => l[i]?.map .ok

/-- The scans and iterators of a database visit exactly what they are asked for, from a
cursor in any state.  A scan ends within a round for each entry and one more. -/
structure ScansExact (L : Lmdb σ ε) (db : Content) (c : σ) : Prop where
  scan : ∀ {φ B : Type} (f : φ → Entry → φ × ControlFlow B) (x : φ) (fuel : ℕ),
    db.entries.length < fuel → L.scan (.ok c) f fuel x = scanned f x db.entries
  scanFrom : ∀ {φ B : Type} (start : Bytes) (f : φ → Entry → φ × ControlFlow B) (x : φ)
    (fuel : ℕ), db.entries.length < fuel →
    L.scanFrom (.ok c) start f fuel x
      = scanned f x (db.entries.filter fun e => !decide (e.1 < start))
  scanPrefix : ∀ {φ B : Type} (p : Bytes) (f : φ → Entry → φ × ControlFlow B) (x : φ)
    (fuel : ℕ), db.entries.length < fuel →
    L.scanPrefix (.ok c) p f fuel x = scanned f x (db.entries.filter fun e => p.isPrefixOf e.1)
  iter : ∃ it, Scan.iter (ε := ε) (.ok c) = .ok it ∧
    ∀ n, it.nexts L n = yielded n db.entries
  iterFrom : ∀ start, ∃ it, Scan.iterFrom (ε := ε) (.ok c) start = .ok it ∧
    ∀ n, it.nexts L n = yielded n (db.entries.filter fun e => !decide (e.1 < start))
  iterPrefix : ∀ p, ∃ it, Scan.iterPrefix (ε := ε) (.ok c) p = .ok it ∧
    ∀ n, it.nexts L n = yielded n (db.entries.filter fun e => p.isPrefixOf e.1)

/-- A call that returns `None` or an error leaves the iterator done. -/
theorem Iter.next_done (L : Lmdb σ ε) (it : Iter σ)
    (h : (it.next L).1 = none ∨ ∃ e, (it.next L).1 = some (.error e)) :
    (it.next L).2.done = true := by
  rw [Iter.next] at h ⊢
  split at h
  · next hdone => rw [if_pos hdone]; exact hdone
  · next hdone =>
    rw [if_neg hdone]
    rcases hstep : it.step L with ⟨e | (_ | e), it'⟩
    · rfl
    · rfl
    · rw [hstep] at h
      rcases h with h | ⟨err, h⟩
      · cases h
      · cases h

/-- **Prefix and range scans are exact**, and an iterator that has returned `None` or an
error returns `None` for ever, whatever LMDB does. -/
theorem scans_exact (L : Lmdb σ ε) (db : Content) (stands : σ → Bytes → Prop)
    (h : L.Serves db stands) (c : σ) :
    ScansExact L db c ∧
    ∀ (L' : Lmdb σ ε) (it : Iter σ),
      ((it.next L').1 = none ∨ ∃ e, (it.next L').1 = some (.error e)) →
      ∀ n, (it.next L').2.nexts L' n = List.replicate n none := by
  refine ⟨?_, fun L' it hover n => Iter.nexts_done L' (it.next_done L' hover) n⟩
  exact {
    scan := fun f x _ hfuel => h.scanImpl_eq c f hfuel x (walk_all db)
    scanFrom := fun start f x _ hfuel => h.scanImpl_eq c f hfuel x (walk_from db start)
    scanPrefix := fun p f x _ hfuel => h.scanImpl_eq c f hfuel x (walk_below db p)
    iter := ⟨_, rfl, fun n => h.nexts_eq c n (walk_all db)⟩
    iterFrom := fun start => ⟨_, rfl, fun n => h.nexts_eq c n (walk_from db start)⟩
    iterPrefix := fun p => ⟨_, rfl, fun n => h.nexts_eq c n (walk_below db p)⟩ }

/-! ### A cursor that keeps the promise -/

/-- A cursor that is on a key, or on none yet. -/
def Content.found (db : Content) (c : Option Bytes) : Op → Option Bytes → Option Entry
  | .first, _ => db.entries.head?
  | .setRange, key => db.entries.find? fun e => !decide (e.1 < key.getD [])
  | .next, _ => db.entries.find? fun e => decide (c.getD [] < e.1)

/-- A library whose cursors stand on keys of the database. -/
def Lmdb.standing (ε : Type) (db : Content) : Lmdb (Option Bytes) ε where
  cursorGet c op key :=
    (Rc.ofFound (db.found c op key), (db.found c op key).elim c fun e => some e.1)

theorem Lmdb.standing_serves (db : Content) :
    (Lmdb.standing ε db).Serves db fun c key => c = some key where
  first c := by
    refine ⟨_, rfl, fun e he => ?_⟩
    show (db.entries.head?).elim c _ = some e.1
    rw [he]
    rfl
  setRange c key _ := by
    refine ⟨_, rfl, fun e he => ?_⟩
    show (db.entries.find? fun e => !decide (e.1 < key)).elim c _ = some e.1
    rw [he]
    rfl
  next c key hc := by
    subst hc
    refine ⟨_, rfl, fun e he => ?_⟩
    show (db.entries.find? fun e => decide (key < e.1)).elim _ _ = some e.1
    rw [he]
    rfl

/-- Three keys, two of which begin with `a`. -/
def threeKeys : Content where
  entries := [([97], [1]), ([97, 98], [2]), ([98], [3])]
  sorted := by
    unfold LexOrder.Sorted
    decide
  nonempty := by decide

/-- A callback that records the keys it sees, and breaks at `ab`. -/
def recordKeys (seen : List Bytes) (e : Entry) : List Bytes × ControlFlow ℕ :=
  (seen ++ [e.1], if e.1 = [97, 98] then .break 7 else .continue)

/-- A scan from `a` on that breaks at its second entry, and an iterator over the keys that
begin with `a`. -/
theorem scans_exact_threeKeys :
    (Lmdb.standing Unit threeKeys).scanFrom (.ok none) [97] recordKeys 4 []
      = some ([[97], [97, 98]], .ok (some 7)) ∧
    ∃ it, Scan.iterPrefix (ε := Unit) (.ok none) [97] = .ok it ∧
      it.nexts (Lmdb.standing Unit threeKeys) 3
        = [some (.ok ([97], [1])), some (.ok ([97, 98], [2])), none] := by
  have h := (scans_exact _ threeKeys _ (Lmdb.standing_serves (ε := Unit) threeKeys) none).1
  obtain ⟨it, hit, hnexts⟩ := h.iterPrefix [97]
  refine ⟨?_, it, hit, (hnexts 3).trans rfl⟩
  rw [h.scanFrom [97] recordKeys [] 4 (by decide)]
  rfl

end Scan

end Mdb
