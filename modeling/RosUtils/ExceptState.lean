/-
Computations that pass a state along and may fail.

`StateT σ (Except ε)` runs a program over a state of type `σ`.  The lemmas here
take such a run apart: a sequence succeeds exactly when its parts do, one after
the other (`run_bind_ok`), and a part that is known to succeed or to fail is
replaced by what it returned (`run_bind_of_ok`, `run_bind_of_error`).

The second half specialises the state to a list of items still to be read:

* `takeN` — read a fixed number of items;
* `Advances` — every successful run consumes a front part of the input;
* `span` — run a reader and keep the items it consumed;
* `Carries` — what one reader reads in front of a tail, another reads in front
  of another tail.
-/
import Mathlib.Tactic

namespace ExceptState

variable {σ ε α β : Type}

theorem except_bind_ok {x : Except ε α} {f : α → Except ε β} {b : β} :
    (x >>= f) = .ok b ↔ ∃ a, x = .ok a ∧ f a = .ok b := by
  cases x with
  | error e =>
    constructor
    · intro h
      cases h
    · rintro ⟨a, h, -⟩
      cases h
  | ok a =>
    constructor
    · exact fun h => ⟨a, rfl, h⟩
    · rintro ⟨a', ha, h⟩
      cases ha
      exact h

theorem except_map_ok {x : Except ε α} {f : α → β} {b : β} :
    f <$> x = .ok b ↔ ∃ a, x = .ok a ∧ f a = b := by
  cases x with
  | error e =>
    constructor
    · intro h
      cases h
    · rintro ⟨a, h, -⟩
      cases h
  | ok a =>
    constructor
    · intro h
      exact ⟨a, rfl, Except.ok.inj h⟩
    · rintro ⟨a', ha, rfl⟩
      cases ha
      rfl

theorem except_toOption_eq_some {x : Except ε α} {a : α} :
    x.toOption = some a ↔ x = .ok a := by
  cases x with
  | error e => simp [Except.toOption]
  | ok a' => simp [Except.toOption]

theorem except_mapM_ok {f : α → Except ε β} {xs : List α} {ys : List β} :
    xs.mapM f = .ok ys ↔ List.Forall₂ (fun x y => f x = .ok y) xs ys := by
  induction xs generalizing ys with
  | nil =>
    rw [List.mapM_nil, List.forall₂_nil_left_iff]
    exact ⟨fun h => (Except.ok.inj h).symm, fun h => h ▸ rfl⟩
  | cons x xs ih =>
    rw [List.mapM_cons, List.forall₂_cons_left_iff]
    simp only [except_bind_ok, ih]
    constructor
    · rintro ⟨y, hy, ys, hys, heq⟩
      exact ⟨y, ys, hy, hys, (Except.ok.inj heq).symm⟩
    · rintro ⟨y, ys, hy, hys, rfl⟩
      exact ⟨y, hy, ys, hys, rfl⟩

section MapError

variable {ε' : Type} {f : ε → ε'} {x : Except ε α}

theorem except_mapError_ok {a : α} : x.mapError f = .ok a ↔ x = .ok a := by
  cases x with
  | error e => simp [Except.mapError]
  | ok a' => simp [Except.mapError]

theorem except_mapError_map (g : α → β) : (g <$> x).mapError f = g <$> x.mapError f := by
  cases x with
  | error e => rfl
  | ok a => rfl

end MapError

section Run

variable {m : StateT σ (Except ε) α} {f : α → StateT σ (Except ε) β} {s s' : σ}

theorem run_bind_of_ok {a : α} (h : m.run s = .ok (a, s')) :
    (m >>= f).run s = (f a).run s' := by
  rw [StateT.run_bind, h]
  rfl

theorem run_bind_of_error {e : ε} (h : m.run s = .error e) :
    (m >>= f).run s = .error e := by
  rw [StateT.run_bind, h]
  rfl

theorem run_bind_ok {r : β × σ} :
    (m >>= f).run s = .ok r ↔ ∃ a s', m.run s = .ok (a, s') ∧ (f a).run s' = .ok r := by
  rw [StateT.run_bind, except_bind_ok]
  exact ⟨fun ⟨p, h⟩ => ⟨p.1, p.2, h⟩, fun ⟨a, s', h⟩ => ⟨(a, s'), h⟩⟩

theorem run_map_ok {g : α → β} {b : β} :
    (g <$> m).run s = .ok (b, s') ↔ ∃ a, m.run s = .ok (a, s') ∧ g a = b := by
  rw [StateT.run_map, except_map_ok]
  constructor
  · rintro ⟨⟨a, t⟩, h, heq⟩
    cases heq
    exact ⟨a, h, rfl⟩
  · rintro ⟨a, h, rfl⟩
    exact ⟨(a, s'), h, rfl⟩

theorem run_map_of_ok {g : α → β} {a : α} (h : m.run s = .ok (a, s')) :
    (g <$> m).run s = .ok (g a, s') := run_map_ok.mpr ⟨a, h, rfl⟩

theorem run_map_of_error {g : α → β} {e : ε} (h : m.run s = .error e) :
    (g <$> m).run s = .error e := by
  rw [StateT.run_map, h]
  rfl

theorem run_bind_congr {m' : StateT σ (Except ε) α} (h : m.run s = m'.run s) :
    (m >>= f).run s = (m' >>= f).run s := by
  rw [StateT.run_bind, StateT.run_bind, h]

theorem run_map_congr {m' : StateT σ (Except ε) α} {g : α → β} (h : m.run s = m'.run s) :
    (g <$> m).run s = (g <$> m').run s := by
  rw [StateT.run_map, StateT.run_map, h]

theorem run_pure_ok {a a' : α} :
    (pure a : StateT σ (Except ε) α).run s = .ok (a', s') ↔ a = a' ∧ s = s' := by
  rw [StateT.run_pure]
  constructor
  · intro h
    cases h
    exact ⟨rfl, rfl⟩
  · rintro ⟨rfl, rfl⟩
    rfl

theorem run_throw_ne_ok {e : ε} {r : α × σ} :
    (throw e : StateT σ (Except ε) α).run s ≠ .ok r := fun h => nomatch h

end Run

/-! ### Reading a list of items -/

/-- A program that reads from a list of items. -/
abbrev Reader (τ ε α : Type) := StateT (List τ) (Except ε) α

variable {τ : Type}

/-- Read exactly `n` items; `short k` is the failure when `k` are missing. -/
def takeN (short : ℕ → ε) (n : ℕ) : Reader τ ε (List τ) := fun b =>
  if n ≤ b.length then .ok (b.take n, b.drop n) else .error (short (n - b.length))

theorem takeN_append {short : ℕ → ε} {n : ℕ} {x t : List τ} (h : x.length = n) :
    (takeN short n).run (x ++ t) = .ok (x, t) := by
  subst h
  simp [takeN, StateT.run]

theorem takeN_ok {short : ℕ → ε} {n : ℕ} {b x t : List τ} :
    (takeN short n).run b = .ok (x, t) ↔ b = x ++ t ∧ x.length = n := by
  constructor
  · intro h
    by_cases hn : n ≤ b.length
    · simp only [takeN, StateT.run, if_pos hn] at h
      cases h
      exact ⟨(List.take_append_drop n b).symm, List.length_take_of_le hn⟩
    · simp only [takeN, StateT.run, if_neg hn] at h
      cases h
  · rintro ⟨rfl, h⟩
    exact takeN_append h

theorem takeN_error {short : ℕ → ε} {n : ℕ} {b : List τ} (h : b.length < n) :
    (takeN short n).run b = .error (short (n - b.length)) := by
  simp only [takeN, StateT.run, if_neg (Nat.not_le.mpr h)]

/-- Every successful run of `p` consumes a front part of its input whose length
is a multiple of `k`. -/
def Advances (k : ℕ) (p : Reader τ ε α) : Prop :=
  ∀ ⦃b a t⦄, p.run b = .ok (a, t) → ∃ c, b = c ++ t ∧ k ∣ c.length

theorem Advances.pure (k : ℕ) (a : α) : Advances k (Pure.pure a : Reader τ ε α) := by
  intro b a' t h
  obtain ⟨rfl, rfl⟩ := run_pure_ok.mp h
  exact ⟨[], rfl, by simp⟩

theorem Advances.throw (k : ℕ) (e : ε) : Advances k (throw e : Reader τ ε α) :=
  fun _ _ _ h => absurd h run_throw_ne_ok

theorem Advances.bind {k : ℕ} {p : Reader τ ε α} {f : α → Reader τ ε β}
    (hp : Advances k p) (hf : ∀ a, Advances k (f a)) : Advances k (p >>= f) := by
  intro b r t h
  obtain ⟨a, u, h1, h2⟩ := run_bind_ok.mp h
  obtain ⟨c, rfl, hc⟩ := hp h1
  obtain ⟨d, rfl, hd⟩ := hf a h2
  exact ⟨c ++ d, by simp, by simpa using dvd_add hc hd⟩

theorem Advances.map {k : ℕ} {p : Reader τ ε α} (g : α → β) (hp : Advances k p) :
    Advances k (g <$> p) := by
  intro b r t h
  obtain ⟨a, h1, -⟩ := run_map_ok.mp h
  exact hp h1

theorem Advances.one {k : ℕ} {p : Reader τ ε α} (hp : Advances k p) : Advances 1 p := by
  intro b a t h
  obtain ⟨c, hb, -⟩ := hp h
  exact ⟨c, hb, one_dvd _⟩

theorem Advances.takeN {k n : ℕ} (short : ℕ → ε) (h : k ∣ n) :
    Advances k (ExceptState.takeN short n : Reader τ ε (List τ)) := by
  intro b x t hx
  obtain ⟨rfl, hlen⟩ := takeN_ok.mp hx
  exact ⟨x, rfl, by rwa [hlen]⟩

/-- What `p` reads, with the items it consumed. -/
def span (p : Reader τ ε α) : Reader τ ε (α × List τ) := fun b =>
  match p.run b with
  | .error e => .error e
  | .ok (a, t) => .ok ((a, b.take (b.length - t.length)), t)

theorem span_of_ok {p : Reader τ ε α} {a : α} {c t : List τ}
    (h : p.run (c ++ t) = .ok (a, t)) : (span p).run (c ++ t) = .ok ((a, c), t) := by
  simp only [span, StateT.run] at h ⊢
  rw [h]
  simp

theorem span_of_error {p : Reader τ ε α} {e : ε} {b : List τ} (h : p.run b = .error e) :
    (span p).run b = .error e := by
  simp only [span, StateT.run] at h ⊢
  rw [h]

theorem span_congr {p q : Reader τ ε α} {b : List τ} (h : p.run b = q.run b) :
    (span p).run b = (span q).run b := by
  simp only [span, StateT.run] at h ⊢
  rw [h]

theorem span_ok {k : ℕ} {p : Reader τ ε α} (hp : Advances k p) {a : α} {b c t : List τ} :
    (span p).run b = .ok ((a, c), t) ↔ p.run b = .ok (a, t) ∧ b = c ++ t := by
  constructor
  · intro h
    match hr : p.run b with
    | .error e =>
      rw [span_of_error hr] at h
      cases h
    | .ok (a', t') =>
      obtain ⟨c', rfl, -⟩ := hp hr
      rw [span_of_ok hr] at h
      cases h
      exact ⟨rfl, rfl⟩
  · rintro ⟨h, rfl⟩
    exact span_of_ok h

theorem Advances.span {k : ℕ} {p : Reader τ ε α} (hp : Advances k p) :
    Advances k (ExceptState.span p) := by
  rintro b ⟨a, c⟩ t h
  exact hp ((span_ok hp).mp h).1

/-! ### Two readers, side by side -/

/-- What `p` reads in front of `s`, `q` reads in front of `t`; and `p` goes forward
only, by multiples of `k`, so that `s` is still there for what comes after it. -/
structure Carries (k : ℕ) (s t : List τ) (p q : Reader τ ε α) : Prop where
  adv : Advances k p
  run : ∀ ⦃x a u⦄, p.run (x ++ s) = .ok (a, u ++ s) → q.run (x ++ t) = .ok (a, u ++ t)

section Carries

variable {k : ℕ} {s t : List τ} {p q : Reader τ ε α}

theorem Carries.pure (a : α) : Carries k s t (Pure.pure a : Reader τ ε α) (Pure.pure a) := by
  refine ⟨Advances.pure k a, fun x a' u h => ?_⟩
  obtain ⟨rfl, hx⟩ := run_pure_ok.mp h
  rw [List.append_cancel_right hx, StateT.run_pure]
  rfl

theorem Carries.throw (e : ε) : Carries k s t (MonadExcept.throw e : Reader τ ε α) q :=
  ⟨Advances.throw k e, fun _ _ _ h => absurd h run_throw_ne_ok⟩

theorem Carries.bind {f g : α → Reader τ ε β} (hp : Carries k s t p q)
    (hf : ∀ a, Carries k s t (f a) (g a)) : Carries k s t (p >>= f) (q >>= g) := by
  refine ⟨hp.adv.bind fun a => (hf a).adv, fun x b u h => ?_⟩
  obtain ⟨a, w, h1, h2⟩ := run_bind_ok.mp h
  -- the tail is still there when `f` starts, because `f` leaves it
  obtain ⟨c, rfl, -⟩ := (hf a).adv h2
  rw [← List.append_assoc] at h1 h2
  exact run_bind_ok.mpr ⟨a, _, hp.run h1, (hf a).run h2⟩

theorem Carries.map (g : α → β) (hp : Carries k s t p q) : Carries k s t (g <$> p) (g <$> q) := by
  refine ⟨hp.adv.map g, fun x b u h => ?_⟩
  obtain ⟨a, h1, rfl⟩ := run_map_ok.mp h
  exact run_map_of_ok (hp.run h1)

theorem Carries.takeN {n : ℕ} (short : ℕ → ε) (hn : k ∣ n) :
    Carries k s t (ExceptState.takeN short n : Reader τ ε (List τ)) (ExceptState.takeN short n) := by
  refine ⟨Advances.takeN short hn, fun x a u h => ?_⟩
  obtain ⟨hx, hlen⟩ := takeN_ok.mp h
  rw [← List.append_assoc] at hx
  rw [List.append_cancel_right hx, List.append_assoc]
  exact takeN_append hlen

theorem Carries.span (hp : Carries k s t p q) :
    Carries k s t (ExceptState.span p) (ExceptState.span q) := by
  refine ⟨hp.adv.span, ?_⟩
  rintro x ⟨a, c⟩ u h
  obtain ⟨h1, hx⟩ := (span_ok hp.adv).mp h
  rw [← List.append_assoc] at hx
  obtain rfl : x = c ++ u := List.append_cancel_right hx
  have h2 := hp.run h1
  rw [List.append_assoc] at h2 ⊢
  exact span_of_ok h2

end Carries

/-- `p` does what `q` does, unless it stops with `e`. -/
def SameUnless (e : ε) (p q : Reader τ ε α) : Prop :=
  ∀ b, p.run b = .error e ∨ p.run b = q.run b

section SameUnless

variable {e : ε} {p q : Reader τ ε α}

theorem SameUnless.rfl (p : Reader τ ε α) : SameUnless e p p := fun _ => .inr (Eq.refl _)

theorem SameUnless.throw (q : Reader τ ε α) : SameUnless e (MonadExcept.throw e) q :=
  fun _ => .inl (Eq.refl _)

theorem SameUnless.bind {f g : α → Reader τ ε β} (hp : SameUnless e p q)
    (hf : ∀ a, SameUnless e (f a) (g a)) : SameUnless e (p >>= f) (q >>= g) := by
  intro b
  rcases hp b with hb | hb
  · exact .inl (run_bind_of_error hb)
  · match hq : q.run b with
    | .error e' => exact .inr (by rw [run_bind_of_error (hb.trans hq), run_bind_of_error hq])
    | .ok (a, t) =>
      rw [run_bind_of_ok (hb.trans hq), run_bind_of_ok hq]
      exact hf a t

theorem SameUnless.map (g : α → β) (hp : SameUnless e p q) :
    SameUnless e (g <$> p) (g <$> q) := by
  rw [map_eq_pure_bind, map_eq_pure_bind]
  exact hp.bind fun a => .rfl _

theorem SameUnless.span (hp : SameUnless e p q) :
    SameUnless e (ExceptState.span p) (ExceptState.span q) := by
  intro b
  rcases hp b with hb | hb
  · exact .inl (span_of_error hb)
  · refine .inr ?_
    simp only [ExceptState.span, StateT.run] at hb ⊢
    rw [hb]

end SameUnless

end ExceptState
