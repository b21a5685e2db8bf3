/-
The client's walk over chronyd's source list.

`Client::sources` asks for the number of sources, then for the source at each index,
then for the number again, and starts over when an index is gone or the number has
changed.  Between two requests the daemon may remove and add sources (`Chronyd`), and a
request may fail for any other reason.

An unchanged number at the end does not mean an unchanged list: a removal and an
addition cancel out in it.  Which changes a returned list survives is stated exactly by
`sources_consistent_iff`, an instance of the general account of `ShiftingList.lean`.
-/
import RosUtils.ChronyWire
import RosUtils.ShiftingList

open ShiftingList

namespace Chrony

/-- `SOURCE_WALKS`. -/
def sourceWalks : ℕ := 3

variable {σ α : Type} [DecidableEq σ]

/-! ### The daemon -/

/-- What happens around the client: the changes of the source list before each request is
answered, and the requests that fail on the way. -/
structure Chronyd (σ : Type) where
  schedule : ℕ → List (Change σ)
  fault : ℕ → Option Error

/-- The daemon's sources, and how many requests it was sent. -/
structure World (σ : Type) where
  sources : Distinct σ
  requests : ℕ

section Client

variable (env : Chronyd σ)

/-- The world when the next request is answered. -/
def World.tick (w : World σ) : World σ :=
  ⟨w.sources.settle (env.schedule w.requests), w.requests + 1⟩

/-- `Client::exchange`: a request and the daemon's answer to it. -/
def exchange (answer : List σ → Except Error α) (w : World σ) : Except Error α × World σ :=
  match env.fault w.requests with
  | some e => (.error e, w.tick env)
  | none => (answer (w.tick env).sources.entries, w.tick env)

/-- `Client::source_count`. -/
def sourceCount : World σ → Except Error ℕ × World σ :=
  exchange env fun sources => .ok sources.length

/-- `Client::source`: the source at an index, counting from zero. -/
def source (index : ℕ) : World σ → Except Error σ × World σ :=
  exchange env fun sources =>
    match sources[index]? with
    | some s => .ok s
    | none => .error (.status .noSuchSource)

/-- The loop over the indexes; `none` when an index is gone. -/
def walk : ℕ → ℕ → List σ → World σ → Except Error (Option (List σ)) × World σ
  | 0, _, sources, w => (.ok (some sources), w)
  | left + 1, index, sources, w =>
    match source env index w with
    | (.ok s, w') => walk left (index + 1) (sources ++ [s]) w'
    | (.error e, w') => if e = .status .noSuchSource then (.ok none, w') else (.error e, w')

/-- One walk, from its first count to its second; `none` when it has to be repeated. -/
def walkOnce (w : World σ) : Except Error (Option (List σ)) × World σ :=
  match sourceCount env w with
  | (.error e, w₁) => (.error e, w₁)
  | (.ok count, w₁) =>
    match walk env count 0 [] w₁ with
    | (.error e, w₂) => (.error e, w₂)
    | (.ok none, w₂) => (.ok none, w₂)
    | (.ok (some sources), w₂) =>
      match sourceCount env w₂ with
      | (.error e, w₃) => (.error e, w₃)
      | (.ok again, w₃) => if again = count then (.ok (some sources), w₃) else (.ok none, w₃)

/-- At most `n` walks. -/
def walks : ℕ → World σ → Except Error (List σ) × World σ
  | 0, w => (.error .changed, w)
  | n + 1, w =>
    match walkOnce env w with
    | (.ok (some sources), w') => (.ok sources, w')
    | (.ok none, w') => walks n w'
    | (.error e, w') => (.error e, w')

/-- `Client::sources`: every source, in index order. -/
def sources : World σ → Except Error (List σ) × World σ := walks env sourceWalks

/-- The world at the first count reply of the walk that is returned. -/
def returnedWalk : ℕ → World σ → Option (World σ)
  | 0, _ => none
  | n + 1, w =>
    match walkOnce env w with
    | (.ok (some _), _) => some (w.tick env)
    | (.ok none, w') => returnedWalk n w'
    | (.error _, _) => none

/-- What happens to the sources from a world on. -/
def World.history (w : World σ) : History σ :=
  ⟨w.sources, fun i => env.schedule (w.requests + i)⟩

/-- The world when `i` more requests have been answered. -/
def World.after (w : World σ) (i : ℕ) : World σ := ⟨(w.history env).state i, w.requests + i⟩

end Client

/-! ### What a walk has read -/

section Walk

variable {env : Chronyd σ} {w w₁ w' : World σ} {n : ℕ} {v : List σ}

theorem tick_after (w : World σ) (i : ℕ) : (w.after env i).tick env = w.after env (i + 1) := rfl

theorem exchange_ok {answer : List σ → Except Error α} {a : α}
    (h : exchange env answer w = (.ok a, w')) :
    w' = w.tick env ∧ answer (w.tick env).sources.entries = .ok a := by
  rw [exchange] at h
  split at h
  · cases h
  · obtain ⟨ha, hw⟩ := Prod.mk.inj h
    exact ⟨hw.symm, ha⟩

theorem sourceCount_ok {count : ℕ} (h : sourceCount env w = (.ok count, w')) :
    w' = w.tick env ∧ (w.tick env).sources.entries.length = count := by
  obtain ⟨hw, hcount⟩ := exchange_ok h
  exact ⟨hw, Except.ok.inj hcount⟩

theorem source_ok {index : ℕ} {s : σ} (h : source env index w = (.ok s, w')) :
    w' = w.tick env ∧ (w.tick env).sources.entries[index]? = some s := by
  obtain ⟨hw, hs⟩ := exchange_ok h
  refine ⟨hw, ?_⟩
  split at hs
  · next s' hs' =>
    obtain rfl := Except.ok.inj hs
    exact hs'
  · cases hs

/-- A walk that is not cut short has read one index after another. -/
theorem walk_ok {i : ℕ} {acc : List σ} (hacc : acc.length = i)
    (hread : ∀ k < i, (w.history env).read k = acc[k]?)
    (h : walk env n i acc (w.after env i) = (.ok (some v), w')) :
    w' = w.after env (i + n) ∧ v.length = i + n ∧
      ∀ k < i + n, (w.history env).read k = v[k]? := by
  induction n generalizing i acc with
  | zero =>
    cases h
    exact ⟨rfl, hacc, hread⟩
  | succ n ih =>
    rw [walk] at h
    split at h
    · next s w'' hsource =>
      obtain ⟨rfl, hs⟩ := source_ok hsource
      rw [tick_after] at h
      have hlast : (w.history env).read i = some s := hs
      -- what was read so far, and the source that was read now
      have hread' : ∀ k < i + 1, (w.history env).read k = (acc ++ [s])[k]? := by
        intro k hk
        by_cases hlt : k < i
        · rw [List.getElem?_append_left (by omega)]
          exact hread k hlt
        · obtain rfl : k = i := by omega
          rw [List.getElem?_append_right (by omega), hacc, Nat.sub_self, hlast]
          rfl
      rw [show i + (n + 1) = i + 1 + n by omega]
      exact ih (by simp [hacc]) hread' h
    · split at h <;> cases h

/-- What is known of a walk that is returned: it read every index below the number of
sources it was told first, and was told the same number last. -/
structure Walked (env : Chronyd σ) (w₁ : World σ) (v : List σ) : Prop where
  length : v.length = w₁.sources.entries.length
  read : ∀ k < w₁.sources.entries.length, (w₁.history env).read k = v[k]?
  final : ((w₁.history env).state (w₁.sources.entries.length + 1)).entries.length
    = w₁.sources.entries.length

theorem walkOnce_ok (h : walkOnce env w = (.ok (some v), w')) : Walked env (w.tick env) v := by
  rw [walkOnce] at h
  split at h
  · cases h
  next count w₁ hcount =>
  obtain ⟨rfl, rfl⟩ := sourceCount_ok hcount
  split at h
  · cases h
  · cases h
  next v' w₂ hwalk =>
  have hstart : ∀ k < 0, ((w.tick env).history env).read k = ([] : List σ)[k]? :=
    fun k hk => absurd hk (Nat.not_lt_zero k)
  obtain ⟨rfl, hlen, hread⟩ := walk_ok (w := w.tick env) List.length_nil hstart hwalk
  rw [Nat.zero_add] at hlen hread
  split at h
  · cases h
  next again w₃ hagain =>
  obtain ⟨rfl, hfinal⟩ := sourceCount_ok hagain
  split at h
  -- the walk is returned only if the number is the same again
  · next heq =>
    cases h
    refine ⟨hlen, hread, ?_⟩
    rw [Nat.zero_add, tick_after, heq] at hfinal
    exact hfinal
  · cases h

theorem walks_ok (h : walks env n w = (.ok v, w')) :
    ∃ w₁, returnedWalk env n w = some w₁ ∧ Walked env w₁ v := by
  induction n generalizing w with
  | zero => cases h
  | succ n ih =>
    rw [walks] at h
    rw [returnedWalk]
    split at h
    · next v' w'' hwalk =>
      cases h
      exact ⟨w.tick env, rfl, walkOnce_ok hwalk⟩
    · exact ih h
    · cases h

theorem walks_of_returnedWalk (h : returnedWalk env n w = some w₁) :
    ∃ v w', walks env n w = (.ok v, w') := by
  induction n generalizing w with
  | zero => cases h
  | succ n ih =>
    rw [returnedWalk] at h
    rw [walks]
    split at h
    · next v w' hwalk => exact ⟨v, w', rfl⟩
    · exact ih h
    · cases h

end Walk

/-! ### When the list is consistent -/

/-- If the sources are returned, then every source that was in the daemon's list from the
first count reply of the returned walk to its second is listed exactly once, and none is
listed twice. -/
def SourcesConsistent (env : Chronyd σ) (w : World σ) : Prop :=
  ∀ v w', sources env w = (.ok v, w') → ∃ w₁, returnedWalk env sourceWalks w = some w₁ ∧
    (∀ s, (w₁.history env).Stays w₁.sources.entries.length s → v.count s = 1) ∧ v.Nodup

/-- During the returned walk no source is removed from an index already read while the next
index holds a source that stays, and none that was asked for is added again ahead of the walk
and left there until its turn. -/
def NothingSlips (env : Chronyd σ) (w : World σ) : Prop :=
  ∀ w₁, returnedWalk env sourceWalks w = some w₁ →
    ¬ (w₁.history env).Skips w₁.sources.entries.length ∧
    ∀ i k j s pre post, j < w₁.sources.entries.length →
      ¬ (w₁.history env).Returns i k j s pre post

/-- **The listed sources are consistent exactly when nothing slips past the walk.** -/
theorem sources_consistent_iff (env : Chronyd σ) (w : World σ) :
    SourcesConsistent env w ↔ NothingSlips env w := by
  constructor
  · intro h w₁ hw₁
    obtain ⟨v, w', hv⟩ := walks_of_returnedWalk hw₁
    obtain ⟨w₂, hw₂, hwalked⟩ := walks_ok hv
    obtain ⟨w₃, hw₃, hcons⟩ := h v w' hv
    obtain rfl : w₁ = w₂ := Option.some.inj (hw₁.symm.trans hw₂)
    obtain rfl : w₁ = w₃ := Option.some.inj (hw₁.symm.trans hw₃)
    exact (History.count_eq_one_and_nodup_iff hwalked.length hwalked.read hwalked.final.le).mp hcons
  · intro h v w' hv
    obtain ⟨w₁, hw₁, hwalked⟩ := walks_ok hv
    refine ⟨w₁, hw₁, ?_⟩
    exact (History.count_eq_one_and_nodup_iff hwalked.length hwalked.read hwalked.final.le).mpr
      (h w₁ hw₁)

/-- Before the second source is read, the first one is removed and a new one is added. -/
def replacingFirst : Chronyd ℕ where
  schedule i := if i = 2 then [.remove 1, .add 4] else []
  fault _ := none

def threeSources : World ℕ := ⟨⟨[1, 2, 3], by decide⟩, 0⟩

/-- The number of sources is the same at the end, but the second source, which was there
all the time, is not listed. -/
theorem sources_replacingFirst_breaks : ¬ SourcesConsistent replacingFirst threeSources := by
  intro h
  obtain ⟨w₁, hw₁, hcount, -⟩ := h [1, 3, 4] _ rfl
  have hfirst : returnedWalk replacingFirst sourceWalks threeSources
      = some ⟨⟨[1, 2, 3], by decide⟩, 1⟩ := rfl
  obtain rfl := Option.some.inj (hw₁.symm.trans hfirst)
  have hstays : (World.history replacingFirst ⟨⟨[1, 2, 3], by decide⟩, 1⟩).Stays 3 2 :=
    History.stays_of_not_removed (by decide) (by decide)
  exact absurd (hcount 2 hstays) (by decide)

end Chrony
