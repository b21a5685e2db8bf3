/-
Reading a list by index while it changes.

A list of distinct entries changes by removals, which shift the later entries down,
and by additions at the end (`Distinct`, `Change`).  A reader asks for the entry at
0, 1, 2, … and any number of changes may happen before each answer (`History`).

An entry that stays in the list the whole time can only move towards the front, so it
is read at most once.  It is missed exactly when a removal from an index already read
moves it from the next index to read to one behind the reader (`Passes`).  An entry that
was read and removed comes back at the end, in front of the reader, and is read again
unless it is removed or passed before its turn:

* `History.count_eq_one_and_nodup_iff` — the reader sees every entry that stays exactly
  once, and nothing twice, if and only if no entry that stays is passed (`Skips`) and none
  that was read comes back so (`Returns`).
-/
import Mathlib.Data.List.Nodup
import Mathlib.Tactic

namespace ShiftingList

variable {σ : Type} [DecidableEq σ]

/-! ### Changes -/

/-- A list without repetitions. -/
@[ext] structure Distinct (σ : Type) where
  entries : List σ
  nodup : entries.Nodup

inductive Change (σ : Type) where
  | remove (s : σ)
  | add (s : σ)
  deriving DecidableEq

/-- A removal shifts the later entries down, an addition appends.  An entry that is not
there is not removed, and one that is there is not added. -/
def Distinct.apply (l : Distinct σ) : Change σ → Distinct σ
  | .remove s => ⟨l.entries.erase s, l.nodup.erase s⟩
  | .add s =>
    if h : s ∈ l.entries then l
    else ⟨l.entries ++ [s], l.nodup.append (List.nodup_singleton s) (by simpa using h)⟩

/-- Several changes in turn. -/
def Distinct.settle (l : Distinct σ) (cs : List (Change σ)) : Distinct σ := cs.foldl Distinct.apply l

/-- Where an entry stands. -/
abbrev Distinct.pos (l : Distinct σ) (s : σ) : ℕ := l.entries.idxOf s

section Steps

variable {l : Distinct σ} {s x : σ} {c : Change σ} {cs : List (Change σ)}

theorem settle_append (l : Distinct σ) (cs cs' : List (Change σ)) :
    l.settle (cs ++ cs') = (l.settle cs).settle cs' := List.foldl_append

/-- The entry at an index, by its position. -/
theorem getElem?_iff_pos {k : ℕ} : l.entries[k]? = some s ↔ s ∈ l.entries ∧ l.pos s = k := by
  constructor
  · intro h
    obtain ⟨hk, rfl⟩ := List.getElem?_eq_some_iff.mp h
    exact ⟨List.getElem_mem hk, l.nodup.idxOf_getElem k hk⟩
  · rintro ⟨hs, rfl⟩
    have hlt := List.idxOf_lt_length_of_mem hs
    rw [List.getElem?_eq_getElem hlt, List.getElem_idxOf hlt]

/-- Erasing an entry moves what stands behind it one place to the front. -/
theorem idxOf_erase {l : List σ} (h : s ≠ x) :
    (l.erase x).idxOf s = if l.idxOf x < l.idxOf s then l.idxOf s - 1 else l.idxOf s := by
  induction l with
  | nil => rfl
  | cons y l ih =>
    by_cases hy : y = x
    · subst hy
      rw [List.erase_cons_head, List.idxOf_cons_self, List.idxOf_cons_ne l (Ne.symm h)]
      simp
    · rw [List.erase_cons_tail (by simpa using hy), List.idxOf_cons_ne l hy]
      by_cases hs : y = s
      · subst hs
        simp
      · rw [List.idxOf_cons_ne _ hs, List.idxOf_cons_ne _ hs, ih]
        split_ifs <;> omega

theorem pos_remove (h : s ≠ x) :
    (l.apply (.remove x)).pos s = if l.pos x < l.pos s then l.pos s - 1 else l.pos s :=
  idxOf_erase h

theorem not_mem_remove : s ∉ (l.apply (.remove s)).entries := l.nodup.not_mem_erase

theorem mem_add_of_mem (h : s ∈ l.entries) : s ∈ (l.apply (.add x)).entries := by
  rw [Distinct.apply]
  split
  · exact h
  · exact List.mem_append_left _ h

theorem pos_add_of_mem (h : s ∈ l.entries) : (l.apply (.add x)).pos s = l.pos s := by
  rw [Distinct.apply]
  split
  · rfl
  · exact List.idxOf_append_of_mem h

/-- What is there after a change was there before, no nearer to the front, or was added. -/
theorem pos_apply_le (h : s ∈ (l.apply c).entries) :
    (s ∈ l.entries ∧ (l.apply c).pos s ≤ l.pos s) ∨ c = .add s := by
  cases c with
  | remove x =>
    have hne : s ≠ x := by
      rintro rfl
      exact not_mem_remove h
    refine .inl ⟨List.mem_of_mem_erase h, ?_⟩
    rw [pos_remove hne]
    split_ifs <;> omega
  | add x =>
    by_cases hs : s ∈ l.entries
    · exact .inl ⟨hs, (pos_add_of_mem hs).le⟩
    · right
      rw [Distinct.apply] at h
      split at h
      · exact absurd h hs
      · rcases List.mem_append.mp h with h | h
        · exact absurd h hs
        · rw [List.mem_singleton.mp h]

end Steps

/-- The entry is there at every moment of the changes. -/
def Remains (l : Distinct σ) (cs : List (Change σ)) (s : σ) : Prop :=
  ∀ pre post, cs = pre ++ post → s ∈ (l.settle pre).entries

/-- A removal from an index below `i` finds the entry at `i`. -/
def Passes (l : Distinct σ) (cs : List (Change σ)) (i : ℕ) (s : σ) : Prop :=
  ∃ pre x post, cs = pre ++ .remove x :: post ∧ x ∈ (l.settle pre).entries ∧
    (l.settle pre).pos x < i ∧ (l.settle pre).entries[i]? = some s

section Remains

variable {l : Distinct σ} {s x : σ} {c : Change σ} {cs pre post : List (Change σ)} {i : ℕ}

theorem Remains.mem (h : Remains l cs s) : s ∈ l.entries := h [] cs rfl

theorem Remains.mem_settle (h : Remains l cs s) : s ∈ (l.settle cs).entries :=
  h cs [] (List.append_nil cs).symm

theorem Remains.tail (h : Remains l (c :: cs) s) : Remains (l.apply c) cs s :=
  fun pre post hcs => h (c :: pre) post (by rw [hcs, List.cons_append])

theorem Remains.front (h : Remains l (pre ++ post) s) : Remains l pre s :=
  fun a b hpre => h a (b ++ post) (by rw [hpre, List.append_assoc])

theorem Remains.back (h : Remains l (pre ++ post) s) : Remains (l.settle pre) post s := by
  intro a b hpost
  rw [← settle_append]
  exact h (pre ++ a) b (by rw [hpost, List.append_assoc])

theorem Remains.ne_remove (h : Remains l (c :: cs) s) : c ≠ .remove s := by
  rintro rfl
  exact not_mem_remove (h.tail).mem

/-- An entry that remains and is never removed. -/
theorem remains_of_not_mem (h : s ∈ l.entries) (hcs : .remove s ∉ cs) : Remains l cs s := by
  induction cs generalizing l with
  | nil =>
    intro pre post hnil
    obtain ⟨rfl, rfl⟩ := List.append_eq_nil_iff.mp hnil.symm
    exact h
  | cons c cs ih =>
    have hmem : s ∈ (l.apply c).entries := by
      cases c with
      | add x => exact mem_add_of_mem h
      | remove x =>
        have hne : s ≠ x := by
          rintro rfl
          exact hcs List.mem_cons_self
        exact (List.mem_erase_of_ne hne).mpr h
    intro pre post hsplit
    cases pre with
    | nil => exact h
    | cons c' pre =>
      obtain ⟨rfl, rfl⟩ := List.cons_eq_cons.mp hsplit
      exact ih hmem (fun hc => hcs (List.mem_cons_of_mem _ hc)) pre post rfl

/-- An entry that remains only moves towards the front. -/
theorem Remains.pos_le (h : Remains l cs s) : (l.settle cs).pos s ≤ l.pos s := by
  induction cs generalizing l with
  | nil => exact le_rfl
  | cons c cs ih =>
    have hstep : (l.apply c).pos s ≤ l.pos s := by
      rcases pos_apply_le h.tail.mem with ⟨-, hle⟩ | rfl
      · exact hle
      · exact (pos_add_of_mem h.mem).le
    exact (ih h.tail).trans hstep

/-- An entry behind the reader stays there unless it is passed. -/
theorem Remains.le_pos (h : Remains l cs s) (hi : i ≤ l.pos s) (hpass : ¬ Passes l cs i s) :
    i ≤ (l.settle cs).pos s := by
  induction cs generalizing l with
  | nil => exact hi
  | cons c cs ih =>
    have hstep : i ≤ (l.apply c).pos s := by
      cases c with
      | add x => rwa [pos_add_of_mem h.mem]
      | remove x =>
        have hne : s ≠ x := by
          rintro rfl
          exact h.ne_remove rfl
        rw [pos_remove hne]
        split_ifs with hlt
        · have hx : x ∈ l.entries := by
            by_contra hx
            have hlen : l.pos s < l.entries.length := List.idxOf_lt_length_of_mem h.mem
            have hlast : l.pos x = l.entries.length := List.idxOf_eq_length hx
            omega
          by_cases hnext : l.pos s = i
          · have hlt' : l.pos x < i := by omega
            exact absurd ⟨[], x, cs, rfl, hx, hlt', getElem?_iff_pos.mpr ⟨h.mem, hnext⟩⟩ hpass
          · omega
        · exact hi
    refine ih h.tail hstep ?_
    rintro ⟨pre, x, post, hcs, hrest⟩
    exact hpass ⟨c :: pre, x, post, by rw [hcs, List.cons_append], hrest⟩

/-- What is passed stands in front of the index from then on. -/
theorem Remains.pos_lt_of_passes (h : Remains l cs s) (hpass : Passes l cs i s) :
    (l.settle cs).pos s < i := by
  obtain ⟨pre, x, post, rfl, hx, hlt, hnext⟩ := hpass
  obtain ⟨-, hpos⟩ := getElem?_iff_pos.mp hnext
  have hne : s ≠ x := by
    rintro rfl
    exact h.back.ne_remove rfl
  have hle := h.back.tail.pos_le
  rw [pos_remove hne, if_pos (by omega)] at hle
  rw [settle_append]
  have hsettle : ((l.settle pre).settle (.remove x :: post)).pos s ≤ (l.settle pre).pos s - 1 := hle
  omega

/-- What is passed at an index stood there or behind before. -/
theorem Remains.le_pos_of_passes (h : Remains l cs s) (hpass : Passes l cs i s) : i ≤ l.pos s := by
  obtain ⟨pre, x, post, rfl, -, -, hnext⟩ := hpass
  obtain ⟨-, hpos⟩ := getElem?_iff_pos.mp hnext
  have hle := h.front.pos_le
  omega

/-- An entry that is there after changes was there all the time, or was added by one of them
and has been there since. -/
theorem remains_or_added (h : s ∈ (l.settle cs).entries) :
    Remains l cs s ∨ ∃ pre post, cs = pre ++ .add s :: post ∧ s ∉ (l.settle pre).entries ∧
      Remains (l.settle (pre ++ [.add s])) post s := by
  induction cs generalizing l with
  | nil => exact .inl (remains_of_not_mem h List.not_mem_nil)
  | cons c cs ih =>
    obtain hrem | ⟨pre, post, rfl, hnot, hrem⟩ := ih (l := l.apply c) h
    · by_cases hs : s ∈ l.entries
      · refine .inl fun pre post hsplit => ?_
        cases pre with
        | nil => exact hs
        | cons c' pre =>
          obtain ⟨rfl, rfl⟩ := List.cons_eq_cons.mp hsplit
          exact hrem pre post rfl
      · -- it was not there, so that the change is what added it
        obtain ⟨hmem, -⟩ | rfl := pos_apply_le hrem.mem
        · exact absurd hmem hs
        · exact .inr ⟨[], cs, rfl, hs, hrem⟩
    · exact .inr ⟨c :: pre, post, rfl, hnot, hrem⟩

/-- An entry is added at the end. -/
theorem pos_add_self (h : s ∉ (l.settle pre).entries) :
    (l.settle (pre ++ [.add s])).pos s = (l.settle pre).entries.length := by
  rw [settle_append]
  show ((l.settle pre).apply (.add s)).pos s = _
  rw [Distinct.apply, dif_neg h]
  show ((l.settle pre).entries ++ [s]).idxOf s = _
  rw [List.idxOf_append_of_notMem h, List.idxOf_cons_self, Nat.add_zero]

end Remains

/-! ### Reading while the list changes -/

/-- The list at the start, and what happens to it before each request is answered. -/
structure History (σ : Type) where
  start : Distinct σ
  changes : ℕ → List (Change σ)

namespace History

variable (H : History σ)

/-- The list when `i` requests have been answered. -/
def state : ℕ → Distinct σ
  | 0 => H.start
  | i + 1 => (state i).settle (H.changes i)

/-- The answer to request `k`, for the entry at the index `k`. -/
def read (k : ℕ) : Option σ := (H.state (k + 1)).entries[k]?

/-- The entry is in the list at every moment until request `n` is answered. -/
def Stays (n : ℕ) (s : σ) : Prop := ∀ i ≤ n, Remains (H.state i) (H.changes i) s

/-- An entry that stays is passed: it is at the next index to read when one is removed from
an index already read. -/
def Skips (n : ℕ) : Prop := ∃ i ≤ n, ∃ s, Passes (H.state i) (H.changes i) i s ∧ H.Stays n s

/-- An entry that was at the index `i` when that was asked for is added again before the
answer to request `k`, and comes up at request `j`. -/
structure Returns (i k j : ℕ) (s : σ) (pre post : List (Change σ)) : Prop where
  before : i < k
  upTo : k ≤ j
  asked : (H.state (i + 1)).entries[i]? = some s
  added : H.changes k = pre ++ .add s :: post
  absent : s ∉ ((H.state k).settle pre).entries
  /-- It is added at an index that was not asked for. -/
  ahead : k ≤ ((H.state k).settle pre).entries.length
  /-- From there on it is neither removed nor passed, -/
  remains : Remains ((H.state k).settle (pre ++ [.add s])) post s
  unpassed : ¬ Passes ((H.state k).settle (pre ++ [.add s])) post k s
  later : ∀ m, k < m → m ≤ j →
    Remains (H.state m) (H.changes m) s ∧ ¬ Passes (H.state m) (H.changes m) m s
  /-- until it is no further back than what is asked for. -/
  reached : (H.state (j + 1)).pos s ≤ j

variable {H} {n : ℕ} {s : σ}

theorem read_eq_some {k : ℕ} :
    H.read k = some s ↔ s ∈ (H.state (k + 1)).entries ∧ (H.state (k + 1)).pos s = k :=
  getElem?_iff_pos

/-- An entry that is there at first and that nothing removes stays. -/
theorem stays_of_not_removed (hs : s ∈ H.start.entries)
    (h : ∀ i ≤ n, .remove s ∉ H.changes i) : H.Stays n s := by
  have hmem : ∀ i ≤ n, s ∈ (H.state i).entries := by
    intro i hi
    induction i with
    | zero => exact hs
    | succ i ih => exact (remains_of_not_mem (ih (by omega)) (h i (by omega))).mem_settle
  exact fun i hi => remains_of_not_mem (hmem i hi) (h i hi)

theorem Stays.mem_state (h : H.Stays n s) {i : ℕ} (hi : i ≤ n + 1) :
    s ∈ (H.state i).entries := by
  cases i with
  | zero => exact (h 0 (Nat.zero_le n)).mem
  | succ i => exact (h i (by omega)).mem_settle

theorem Stays.pos_le (h : H.Stays n s) {i j : ℕ} (hij : i ≤ j) (hj : j ≤ n + 1) :
    (H.state j).pos s ≤ (H.state i).pos s := by
  induction j, hij using Nat.le_induction with
  | base => exact le_rfl
  | succ j hij ih => exact (h j (by omega)).pos_le.trans (ih (by omega))

/-- Unless it is skipped, an entry the reader has not reached is not passed before the next
answer. -/
theorem Stays.le_pos_succ (h : H.Stays n s) (hskip : ¬ H.Skips n) {i : ℕ} (hi : i ≤ n)
    (hpos : i ≤ (H.state i).pos s) : i ≤ (H.state (i + 1)).pos s := by
  exact (h i hi).le_pos hpos fun hpass => hskip ⟨i, hi, s, hpass, h⟩

theorem Stays.read_or_le (h : H.Stays n s) (hskip : ¬ H.Skips n) {i : ℕ} (hi : i ≤ n) :
    (∃ k < i, H.read k = some s) ∨ i ≤ (H.state i).pos s := by
  induction i with
  | zero => exact .inr (Nat.zero_le _)
  | succ i ih =>
    rcases ih (by omega) with ⟨k, hk, hread⟩ | hpos
    · exact .inl ⟨k, by omega, hread⟩
    · have hle := h.le_pos_succ hskip (by omega) hpos
      by_cases hnext : (H.state (i + 1)).pos s = i
      · exact .inl ⟨i, Nat.lt_succ_self i,
          read_eq_some.mpr ⟨h.mem_state (by omega), hnext⟩⟩
      · exact .inr (by omega)

/-- With no more entries at the end than were read, an entry that stays is read unless it
is skipped. -/
theorem Stays.exists_read (h : H.Stays n s) (hskip : ¬ H.Skips n)
    (hend : (H.state (n + 1)).entries.length ≤ n) : ∃ k < n, H.read k = some s := by
  rcases h.read_or_le hskip le_rfl with hread | hpos
  · exact hread
  · -- it would stand behind the end of the list
    have hle := h.le_pos_succ hskip le_rfl hpos
    have hlt : (H.state (n + 1)).pos s < (H.state (n + 1)).entries.length :=
      List.idxOf_lt_length_of_mem (h.mem_state le_rfl)
    omega

/-- What is skipped is not read. -/
theorem Skips.exists_unread (h : H.Skips n) : ∃ s, H.Stays n s ∧ ∀ k < n, H.read k ≠ some s := by
  obtain ⟨i, hi, s, hpass, hstay⟩ := h
  refine ⟨s, hstay, fun k hk hread => ?_⟩
  obtain ⟨-, hat⟩ := read_eq_some.mp hread
  by_cases hki : k < i
  · -- so far it has stood at `i` or behind
    have hle := hstay.pos_le (show k + 1 ≤ i by omega) (by omega)
    have hpos := (hstay i hi).le_pos_of_passes hpass
    omega
  · -- from now on it stands in front of `i`
    have hlt : (H.state (i + 1)).pos s < i := (hstay i hi).pos_lt_of_passes hpass
    have hle := hstay.pos_le (show i + 1 ≤ k + 1 by omega) (by omega)
    omega

section Returns

variable {i k j : ℕ} {pre post : List (Change σ)}

theorem Returns.state_succ (h : H.Returns i k j s pre post) :
    H.state (k + 1) = ((H.state k).settle (pre ++ [.add s])).settle post := by
  rw [state, h.added, ← settle_append, List.append_assoc, List.singleton_append]

/-- What comes back is read again: as long as it is not, it stands behind the reader. -/
theorem Returns.read_or_lt (h : H.Returns i k j s pre post) {m : ℕ} (hkm : k ≤ m) (hmj : m ≤ j) :
    (∃ m', k ≤ m' ∧ m' ≤ m ∧ H.read m' = some s) ∨
      s ∈ (H.state (m + 1)).entries ∧ m < (H.state (m + 1)).pos s := by
  have hturn {m : ℕ} (hkm : k ≤ m) (hmem : s ∈ (H.state (m + 1)).entries)
      (hle : m ≤ (H.state (m + 1)).pos s) :
      (∃ m', k ≤ m' ∧ m' ≤ m ∧ H.read m' = some s) ∨
        s ∈ (H.state (m + 1)).entries ∧ m < (H.state (m + 1)).pos s := by
    by_cases heq : (H.state (m + 1)).pos s = m
    · exact .inl ⟨m, hkm, le_rfl, read_eq_some.mpr ⟨hmem, heq⟩⟩
    · exact .inr ⟨hmem, by omega⟩
  induction m, hkm using Nat.le_induction with
  | base =>
    have hpos := pos_add_self h.absent
    have hahead := h.ahead
    have hle := h.remains.le_pos (by rw [hpos]; exact hahead) h.unpassed
    rw [← h.state_succ] at hle
    exact hturn le_rfl (h.state_succ ▸ h.remains.mem_settle) hle
  | succ m hkm ih =>
    obtain ⟨m', hm', hle, hread⟩ | ⟨hmem, hlt⟩ := ih (by omega)
    · exact .inl ⟨m', hm', by omega, hread⟩
    · obtain ⟨hrem, hpass⟩ := h.later (m + 1) (by omega) hmj
      exact hturn (by omega) hrem.mem_settle (hrem.le_pos hlt hpass)

theorem Returns.exists_read (h : H.Returns i k j s pre post) :
    H.read i = some s ∧ ∃ m, i < m ∧ m ≤ j ∧ H.read m = some s := by
  have hbefore := h.before
  obtain ⟨m, hkm, hmj, hread⟩ | ⟨-, hlt⟩ := h.read_or_lt h.upTo le_rfl
  · exact ⟨h.asked, m, by omega, hmj, hread⟩
  · exact absurd h.reached (not_le.mpr hlt)

/-- Where an entry comes from that is there after request `m`. -/
theorem remains_or_returned {m : ℕ} (him : i ≤ m) (hmem : s ∈ (H.state (m + 1)).entries) :
    (∀ t, i < t → t ≤ m → Remains (H.state t) (H.changes t) s) ∨
      ∃ k pre post, i < k ∧ k ≤ m ∧ H.changes k = pre ++ .add s :: post ∧
        s ∉ ((H.state k).settle pre).entries ∧
        Remains ((H.state k).settle (pre ++ [.add s])) post s ∧
        ∀ t, k < t → t ≤ m → Remains (H.state t) (H.changes t) s := by
  induction m, him using Nat.le_induction with
  | base => exact .inl fun t hit hti => by omega
  | succ m him ih =>
    have hlast {a : ℕ} (h : ∀ t, a < t → t ≤ m → Remains (H.state t) (H.changes t) s)
        (hrem : Remains (H.state (m + 1)) (H.changes (m + 1)) s) :
        ∀ t, a < t → t ≤ m + 1 → Remains (H.state t) (H.changes t) s := by
      intro t hat htm
      obtain htm | rfl := Nat.lt_or_eq_of_le htm
      · exact h t hat (by omega)
      · exact hrem
    obtain hrem | ⟨pre, post, hsplit, hnot, hrem⟩ := remains_or_added hmem
    · obtain hall | ⟨k, pre, post, hik, hkm, hsplit, hnot, hadded, hall⟩ := ih hrem.mem
      · exact .inl (hlast hall hrem)
      · exact .inr ⟨k, pre, post, hik, by omega, hsplit, hnot, hadded, hlast hall hrem⟩
    · exact .inr ⟨m + 1, pre, post, by omega, le_rfl, hsplit, hnot, hrem,
        fun t hmt htm => by omega⟩

/-- Positions do not grow while an entry remains. -/
theorem pos_le_of_remains {a b : ℕ} (hab : a ≤ b)
    (h : ∀ t, a ≤ t → t < b → Remains (H.state t) (H.changes t) s) :
    (H.state b).pos s ≤ (H.state a).pos s := by
  induction b, hab using Nat.le_induction with
  | base => exact le_rfl
  | succ b hab ih =>
    exact (h b hab (Nat.lt_succ_self b)).pos_le.trans (ih fun t hat htb => h t hat (by omega))

/-- **What is read twice has come back in between.** -/
theorem exists_returns (hij : i < j) (hi : H.read i = some s) (hj : H.read j = some s) :
    ∃ k pre post, H.Returns i k j s pre post := by
  obtain ⟨-, hposi⟩ := read_eq_some.mp hi
  obtain ⟨hmem, hposj⟩ := read_eq_some.mp hj
  obtain hall | ⟨k, pre, post, hik, hkj, hsplit, hnot, hrem, hall⟩ :=
    remains_or_returned (show i ≤ j by omega) hmem
  · -- an entry that was there all the time would be in front of `j`
    have hle := pos_le_of_remains (show i + 1 ≤ j + 1 by omega)
      fun t hit htj => hall t (by omega) (by omega)
    omega
  · have hsucc : H.state (k + 1) = ((H.state k).settle (pre ++ [.add s])).settle post := by
      rw [state, hsplit, ← settle_append, List.append_assoc, List.singleton_append]
    have hlater {m : ℕ} (hkm : k ≤ m) (hmj : m ≤ j) :
        (H.state (j + 1)).pos s ≤ (H.state (m + 1)).pos s :=
      pos_le_of_remains (by omega) fun t hmt htj => hall t (by omega) (by omega)
    have hend := hlater le_rfl hkj
    have hstart := hrem.pos_le
    rw [← hsucc, pos_add_self hnot] at hstart
    refine ⟨k, pre, post, ⟨hik, hkj, hi, hsplit, hnot, by omega, hrem, fun hpass => ?_,
      fun m hkm hmj => ⟨hall m hkm hmj, fun hpass => ?_⟩, hposj.le⟩⟩
    -- what is passed stands in front of the index from then on, and not at `j`
    · have hlt := hrem.pos_lt_of_passes hpass
      rw [← hsucc] at hlt
      omega
    · have hlt : (H.state (m + 1)).pos s < m := (hall m hkm hmj).pos_lt_of_passes hpass
      have hle := hlater hkm.le hmj
      omega

end Returns

/-- **When a reader sees every entry that stays exactly once, and nothing twice.** -/
theorem count_eq_one_and_nodup_iff {v : List σ} (hlen : v.length = n)
    (hread : ∀ k < n, H.read k = v[k]?) (hend : (H.state (n + 1)).entries.length ≤ n) :
    ((∀ s, H.Stays n s → v.count s = 1) ∧ v.Nodup) ↔
      ¬ H.Skips n ∧ ∀ i k j s pre post, j < n → ¬ H.Returns i k j s pre post := by
  constructor
  · rintro ⟨hcount, hnodup⟩
    refine ⟨fun hskip => ?_, ?_⟩
    · obtain ⟨s, hstay, hnot⟩ := hskip.exists_unread
      have hmem : s ∈ v := List.count_pos_iff.mp (by rw [hcount s hstay]; exact Nat.one_pos)
      obtain ⟨k, hk, hv⟩ := List.getElem_of_mem hmem
      refine hnot k (by omega) ?_
      rw [hread k (by omega), List.getElem?_eq_getElem hk, hv]
    · intro i k j s pre post hj hreturns
      obtain ⟨hi, m, him, hmj, hm⟩ := hreturns.exists_read
      rw [hread i (by omega)] at hi
      rw [hread m (by omega)] at hm
      exact List.nodup_iff_getElem?_ne_getElem?.mp hnodup i m him (by omega) (hi.trans hm.symm)
  · rintro ⟨hskip, hre⟩
    have hnodup : v.Nodup := by
      rw [List.nodup_iff_getElem?_ne_getElem?]
      intro i j hij hj heq
      have hvj : v[j]? = some v[j] := List.getElem?_eq_getElem hj
      have hi : H.read i = some v[j] := by rw [hread i (by omega), heq, hvj]
      have hj' : H.read j = some v[j] := by rw [hread j (by omega), hvj]
      obtain ⟨k, pre, post, hreturns⟩ := exists_returns hij hi hj'
      exact hre i k j v[j] pre post (by omega) hreturns
    refine ⟨fun s hstay => ?_, hnodup⟩
    obtain ⟨k, hk, hs⟩ := hstay.exists_read hskip hend
    rw [hread k hk] at hs
    exact List.count_eq_one_of_mem hnodup (List.mem_of_getElem? hs)

end History

end ShiftingList
