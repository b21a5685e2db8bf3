/-
Readers whose input shows where it ends.

A reader is self-delimiting (`Delimits`) when a success depends on nothing but
the items it consumed: they are read the same whatever follows, and of any
shorter part of them the reader says that it is short, by no more than what is
missing.  The property is kept by the combinators, so it is checked on the
leaves.

Two things follow for any such reader: no input it consumes whole is a proper
front part of another one (`Delimits.front_eq`), and whoever fetches what the
reader asks for and tries again ends with the message and nothing beyond it
(`retry_eq`).
-/
import RosUtils.ExceptState

namespace ExceptState

variable {τ ε α β : Type}

/-- What the reader consumes shows its own end; `short k` is the failure of an input that is
`k` items short. -/
structure Delimits (short : ℕ → ε) (p : Reader τ ε α) : Prop where
  adv : Advances 1 p
  whole : ∀ ⦃c t a⦄, p.run (c ++ t) = .ok (a, t) → ∀ t', p.run (c ++ t') = .ok (a, t')
  cut : ∀ ⦃c t a⦄, p.run (c ++ t) = .ok (a, t) → ∀ c₁ c₂, c = c₁ ++ c₂ → c₂ ≠ [] →
    ∃ k, p.run c₁ = .error (short k) ∧ 1 ≤ k ∧ k ≤ c₂.length

section Rules

variable {short : ℕ → ε} {p : Reader τ ε α}

theorem Delimits.pure (a : α) : Delimits short (Pure.pure a : Reader τ ε α) where
  adv := Advances.pure 1 a
  whole c t a' h t' := by
    obtain ⟨rfl, hc⟩ := run_pure_ok.mp h
    obtain rfl : c = [] := List.append_left_eq_self.mp hc
    rfl
  cut c t a' h c₁ c₂ hc hne := by
    obtain ⟨-, hct⟩ := run_pure_ok.mp h
    obtain rfl : c = [] := List.append_left_eq_self.mp hct
    exact absurd (List.append_eq_nil_iff.mp hc.symm).2 hne

theorem Delimits.throw (e : ε) : Delimits short (throw e : Reader τ ε α) where
  adv := Advances.throw 1 e
  whole _ _ _ h := absurd h run_throw_ne_ok
  cut _ _ _ h := absurd h run_throw_ne_ok

theorem Delimits.bind {f : α → Reader τ ε β} (hp : Delimits short p)
    (hf : ∀ a, Delimits short (f a)) : Delimits short (p >>= f) where
  adv := hp.adv.bind fun a => (hf a).adv
  whole c t r h t' := by
    obtain ⟨a, u, h1, h2⟩ := run_bind_ok.mp h
    obtain ⟨d, rfl, -⟩ := (hf a).adv h2
    obtain ⟨c', hc, -⟩ := hp.adv h1
    rw [← List.append_assoc] at hc
    obtain rfl := List.append_cancel_right hc
    rw [List.append_assoc] at h1 ⊢
    exact run_bind_ok.mpr ⟨a, d ++ t', hp.whole h1 _, (hf a).whole h2 t'⟩
  cut c t r h c₁ c₂ hsplit hne := by
    obtain ⟨a, u, h1, h2⟩ := run_bind_ok.mp h
    obtain ⟨d, rfl, -⟩ := (hf a).adv h2
    obtain ⟨c', hc, -⟩ := hp.adv h1
    rw [← List.append_assoc] at hc
    obtain rfl := List.append_cancel_right hc
    rw [List.append_assoc] at h1
    have hbehind : ∀ y, d = y ++ c₂ →
        ∃ k, (p >>= f).run (c' ++ y) = .error (short k) ∧ 1 ≤ k ∧ k ≤ c₂.length := by
      intro y hy
      obtain ⟨k, hk, hpos, hle⟩ := (hf a).cut h2 y c₂ hy hne
      exact ⟨k, by rw [run_bind_of_ok (hp.whole h1 y), hk], hpos, hle⟩
    -- the cut falls behind what `p` reads, or in it
    rcases List.append_eq_append_iff.mp hsplit with ⟨y, rfl, hd⟩ | ⟨y, rfl, rfl⟩
    · exact hbehind y hd
    · by_cases hy : y = []
      · subst hy
        simpa using hbehind [] rfl
      · obtain ⟨k, hk, hpos, hle⟩ := hp.cut h1 c₁ y rfl hy
        refine ⟨k, run_bind_of_error hk, hpos, ?_⟩
        rw [List.length_append]
        omega

theorem Delimits.ite {q : Reader τ ε α} {c : Prop} [Decidable c] (hp : Delimits short p)
    (hq : Delimits short q) : Delimits short (if c then p else q) := by
  by_cases h : c
  · rwa [if_pos h]
  · rwa [if_neg h]

theorem Delimits.map (g : α → β) (hp : Delimits short p) : Delimits short (g <$> p) := by
  rw [map_eq_pure_bind]
  exact hp.bind fun a => .pure (g a)

theorem Delimits.takeN (short : ℕ → ε) (n : ℕ) :
    Delimits short (ExceptState.takeN short n : Reader τ ε (List τ)) where
  adv := Advances.takeN short (one_dvd n)
  whole c t a h t' := by
    obtain ⟨hc, hlen⟩ := takeN_ok.mp h
    obtain rfl := List.append_cancel_right hc
    exact takeN_append hlen
  cut c t a h c₁ c₂ hsplit hne := by
    obtain ⟨hc, hlen⟩ := takeN_ok.mp h
    obtain rfl := List.append_cancel_right hc
    have hpos : 0 < c₂.length := List.length_pos_iff.mpr hne
    rw [hsplit, List.length_append] at hlen
    exact ⟨n - c₁.length, takeN_error (by omega), by omega, by omega⟩

theorem Delimits.span (hp : Delimits short p) : Delimits short (ExceptState.span p) where
  adv := hp.adv.span
  whole := by
    rintro c t ⟨a, c'⟩ h t'
    obtain ⟨h1, hc⟩ := (span_ok hp.adv).mp h
    obtain rfl := List.append_cancel_right hc
    exact span_of_ok (hp.whole h1 t')
  cut := by
    rintro c t ⟨a, c'⟩ h c₁ c₂ hsplit hne
    obtain ⟨h1, -⟩ := (span_ok hp.adv).mp h
    obtain ⟨k, hk, hle⟩ := hp.cut h1 c₁ c₂ hsplit hne
    exact ⟨k, span_of_error hk, hle⟩

/-- What is consumed whole is not a proper front part of what is consumed whole. -/
theorem Delimits.front_eq (hp : Delimits short p) {c d : List τ} {a a' : α}
    (hc : p.run c = .ok (a, [])) (hd : p.run d = .ok (a', [])) (h : c <+: d) : c = d := by
  obtain ⟨y, rfl⟩ := h
  by_contra hne
  have hy : y ≠ [] := fun h => hne (by rw [h, List.append_nil])
  rw [← List.append_nil (c ++ y)] at hd
  obtain ⟨k, hk, -⟩ := hp.cut hd c y rfl hy
  rw [hk] at hc
  cases hc

end Rules

/-! ### Fetching what is asked for -/

/-- A client of a stream: it holds the first `n` items and tries to read them with `p`, and
when it is told how many are missing it fetches that many and tries again.  It ends with
the number of items it holds and what it has read; the rounds it may take are `fuel`. -/
def retry (missing : ε → Option ℕ) (p : List τ → Except ε α) (stream : List τ) :
    ℕ → ℕ → Option (ℕ × Except ε α)
  | 0, _ => none
  | fuel + 1, n =>
    match p (stream.take n) with
    | .ok a => some (n, .ok a)
    | .error e =>
      match missing e with
      | some k => retry missing p stream fuel (n + k)
      | none => some (n, .error e)

/-- **A client that fetches what it is asked for ends with the message**: it has read its
value, and it holds the message and nothing of what follows. -/
theorem retry_eq {missing : ε → Option ℕ} {p : List τ → Except ε α} {c t : List τ} {a : α}
    (hc : p c = .ok a)
    (hcut : ∀ c₁ c₂, c = c₁ ++ c₂ → c₂ ≠ [] →
      ∃ e k, p c₁ = .error e ∧ missing e = some k ∧ 1 ≤ k ∧ k ≤ c₂.length)
    {n fuel : ℕ} (hn : n ≤ c.length) (hfuel : c.length - n < fuel) :
    retry missing p (c ++ t) fuel n = some (c.length, .ok a) := by
  induction fuel generalizing n with
  | zero => omega
  | succ fuel ih =>
    have htake : (c ++ t).take n = c.take n := List.take_append_of_le_length hn
    by_cases heq : n = c.length
    · subst heq
      rw [retry, htake, List.take_length, hc]
    · have hne : c.drop n ≠ [] := by
        intro h
        have := List.drop_eq_nil_iff.mp h
        omega
      obtain ⟨e, k, he, hk, hpos, hle⟩ :=
        hcut (c.take n) (c.drop n) (List.take_append_drop n c).symm hne
      rw [List.length_drop] at hle
      rw [retry, htake, he]
      dsimp only
      rw [hk]
      exact ih (by omega) (by omega)

end ExceptState
