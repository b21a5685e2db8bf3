/-
Cutting a stream into messages.

A framer looks at the front of a buffer and says where the first message ends,
that it has not ended yet, or that the bytes cannot begin one.  What makes it fit
for a stream is that a verdict other than "not yet" is final: bytes that arrive
later do not change it (`Framer`).  A receiver appends each chunk that arrives to
its buffer and cuts messages off the front until the framer asks for more.

* `Framer.incomplete_of_lt` — before its last byte a message is not yet complete;
* `Framer.receive_flatten` — what a receiver yields does not depend on how the
  stream was cut into chunks.
-/
import Mathlib.Tactic

namespace StreamFraming

variable {τ : Type}

/-- What a framer says of a buffer. -/
inductive Verdict where
  /-- The first message is the first `n` bytes. -/
  | complete (n : ℕ)
  /-- The first message has not ended yet. -/
  | incomplete
  /-- No message begins like this. -/
  | invalid
  deriving DecidableEq, Repr

/-- A verdict that later bytes do not change. -/
structure Framer (τ : Type) where
  verdict : List τ → Verdict
  nil : verdict [] = .incomplete
  pos : ∀ {b n}, verdict b = .complete n → 0 < n
  le : ∀ {b n}, verdict b = .complete n → n ≤ b.length
  complete_append : ∀ {b n}, verdict b = .complete n → ∀ r, verdict (b ++ r) = .complete n
  invalid_append : ∀ {b}, verdict b = .invalid → ∀ r, verdict (b ++ r) = .invalid

/-- Before its last byte a message is not yet complete. -/
theorem Framer.incomplete_of_lt (F : Framer τ) {b p : List τ} {n : ℕ}
    (h : F.verdict b = .complete n) (hp : p <+: b) (hlt : p.length < n) :
    F.verdict p = .incomplete := by
  obtain ⟨r, rfl⟩ := hp
  match hv : F.verdict p with
  | .incomplete => rfl
  | .complete m =>
    have hm := F.complete_append hv r
    rw [h] at hm
    obtain rfl : n = m := by injection hm
    exact absurd (F.le hv) (by omega)
  | .invalid =>
    have hm := F.invalid_append hv r
    rw [h] at hm
    cases hm

/-! ### The receiver -/

/-- The bytes not yet cut, the messages cut so far, how many bytes they took, and the
last verdict. -/
@[ext] structure Receiver (τ : Type) where
  buffer : List τ
  messages : List (List τ)
  drained : ℕ
  verdict : Verdict

/-- A receiver that has seen nothing. -/
def Receiver.start : Receiver τ := ⟨[], [], 0, .incomplete⟩

/-- What a receiver has to show for the stream. -/
def Receiver.outcome (r : Receiver τ) : List (List τ) × ℕ × Verdict :=
  (r.messages, r.drained, r.verdict)

/-- Cut the first `n` bytes off the buffer. -/
def Receiver.cut (r : Receiver τ) (n : ℕ) : Receiver τ where
  buffer := r.buffer.drop n
  messages := r.messages ++ [r.buffer.take n]
  drained := r.drained + n
  verdict := .complete n

/-- A chunk arrives. -/
def Receiver.push (r : Receiver τ) (chunk : List τ) : Receiver τ :=
  { r with buffer := r.buffer ++ chunk }

namespace Framer

variable (F : Framer τ)

/-- Cut messages off the buffer until the verdict is no longer `complete`. -/
def drain (r : Receiver τ) : Receiver τ :=
  match _h : F.verdict r.buffer with
  | .complete n => drain (r.cut n)
  | .incomplete => { r with verdict := .incomplete }
  | .invalid => { r with verdict := .invalid }
termination_by r.buffer.length
decreasing_by
  have hpos := F.pos _h
  have hle := F.le _h
  simp only [Receiver.cut, List.length_drop]
  omega

/-- A chunk arrives; after an `invalid` nothing is looked at any more. -/
def feed (r : Receiver τ) (chunk : List τ) : Receiver τ :=
  if r.verdict = .invalid then r else F.drain (r.push chunk)

/-- The whole stream, chunk by chunk. -/
def receive (chunks : List (List τ)) : Receiver τ := chunks.foldl F.feed Receiver.start

variable {F} {r : Receiver τ}

theorem drain_of_complete {n : ℕ} (h : F.verdict r.buffer = .complete n) :
    F.drain r = F.drain (r.cut n) := by
  rw [drain]
  split
  · next m hm =>
    rw [h] at hm
    cases hm
    rfl
  · next hm => rw [h] at hm; cases hm
  · next hm => rw [h] at hm; cases hm

theorem drain_of_incomplete (h : F.verdict r.buffer = .incomplete) :
    F.drain r = { r with verdict := .incomplete } := by
  rw [drain]
  split
  · next hm => rw [h] at hm; cases hm
  · rfl
  · next hm => rw [h] at hm; cases hm

theorem drain_of_invalid (h : F.verdict r.buffer = .invalid) :
    F.drain r = { r with verdict := .invalid } := by
  rw [drain]
  split
  · next hm => rw [h] at hm; cases hm
  · next hm => rw [h] at hm; cases hm
  · rfl

/-- Messages that stand one after another are cut off one by one. -/
theorem drain_flatten {fs : List (List τ)} (h : ∀ f ∈ fs, F.verdict f = .complete f.length)
    (messages : List (List τ)) (drained : ℕ) (v : Verdict) :
    F.drain ⟨fs.flatten, messages, drained, v⟩ =
      ⟨[], messages ++ fs, drained + fs.flatten.length, .incomplete⟩ := by
  induction fs generalizing messages drained v with
  | nil =>
    rw [drain_of_incomplete F.nil]
    simp
  | cons f fs ih =>
    obtain ⟨hf, hfs⟩ := List.forall_mem_cons.mp h
    rw [List.flatten_cons, drain_of_complete (F.complete_append hf _), Receiver.cut]
    dsimp only
    rw [List.drop_left, List.take_left, ih hfs]
    simp [Nat.add_assoc]

/-- **A stream of whole messages yields exactly these.** -/
theorem receive_messages {fs : List (List τ)} (h : ∀ f ∈ fs, F.verdict f = .complete f.length) :
    F.receive [fs.flatten] = ⟨[], fs, fs.flatten.length, .incomplete⟩ := by
  have hdrain := drain_flatten h [] 0 .incomplete
  rw [List.nil_append, Nat.zero_add] at hdrain
  exact hdrain

/-- The loop follows the first verdict it gets, whatever the last one was. -/
theorem drain_verdict (v : Verdict) : F.drain { r with verdict := v } = F.drain r := by
  match h : F.verdict r.buffer with
  | .complete n =>
    rw [drain_of_complete h, drain_of_complete (r := { r with verdict := v }) h]
    rfl
  | .incomplete => rw [drain_of_incomplete h, drain_of_incomplete (r := { r with verdict := v }) h]
  | .invalid => rw [drain_of_invalid h, drain_of_invalid (r := { r with verdict := v }) h]

theorem push_cut {n : ℕ} (hn : n ≤ r.buffer.length) (chunk : List τ) :
    (r.push chunk).cut n = (r.cut n).push chunk := by
  simp only [Receiver.push, Receiver.cut, List.drop_append_of_le_length hn,
    List.take_append_of_le_length hn]

/-- Bytes that arrive after the loop has run continue where it stopped. -/
theorem drain_push (r : Receiver τ) (chunk : List τ) :
    F.drain (r.push chunk) =
      if (F.drain r).verdict = .invalid then (F.drain r).push chunk
      else F.drain ((F.drain r).push chunk) := by
  induction r using drain.induct (F := F) with
  | case1 r n h ih =>
    rw [drain_of_complete (F.complete_append h chunk : F.verdict (r.push chunk).buffer = _),
      push_cut (F.le h), drain_of_complete h, ih]
  | case2 r h =>
    rw [drain_of_incomplete h, if_neg (by simp)]
    exact (drain_verdict (r := r.push chunk) .incomplete).symm
  | case3 r h =>
    rw [drain_of_invalid (F.invalid_append h chunk : F.verdict (r.push chunk).buffer = _),
      drain_of_invalid h, if_pos rfl]
    rfl

/-- A receiver that has cut off all it can. -/
def Settled (F : Framer τ) (r : Receiver τ) : Prop := r.verdict ≠ .invalid → F.drain r = r

theorem settled_start : Settled F (Receiver.start : Receiver τ) := fun _ =>
  drain_of_incomplete F.nil

theorem drain_drain (r : Receiver τ) : F.drain (F.drain r) = F.drain r := by
  induction r using drain.induct (F := F) with
  | case1 r n h ih => rw [drain_of_complete h, ih]
  | case2 r h => rw [drain_of_incomplete h, drain_verdict, drain_of_incomplete h]
  | case3 r h => rw [drain_of_invalid h, drain_verdict, drain_of_invalid h]

theorem settled_feed (hr : Settled F r) (chunk : List τ) : Settled F (F.feed r chunk) := by
  rw [feed]
  split
  · exact hr
  · exact fun _ => drain_drain _

/-- Two chunks are as good as one. -/
theorem feed_feed (r : Receiver τ) (a b : List τ) :
    (F.feed (F.feed r a) b).outcome = (F.feed r (a ++ b)).outcome := by
  by_cases hr : r.verdict = .invalid
  · simp only [feed, if_pos hr]
  · have hpush : r.push (a ++ b) = (r.push a).push b := by
      simp only [Receiver.push, List.append_assoc]
    simp only [feed, if_neg hr]
    rw [hpush, drain_push (r.push a)]
    split <;> rfl

/-- **How a stream is cut into chunks does not matter**, from any settled receiver on. -/
theorem foldl_feed (hr : Settled F r) (chunks : List (List τ)) :
    (chunks.foldl F.feed r).outcome = (F.feed r chunks.flatten).outcome := by
  induction chunks generalizing r with
  | nil =>
    rw [List.foldl_nil, List.flatten_nil, feed]
    split
    · rfl
    · next hv =>
      have hpush : r.push [] = r := by simp only [Receiver.push, List.append_nil]
      rw [hpush, hr hv]
  | cons chunk chunks ih =>
    rw [List.foldl_cons, List.flatten_cons, ih (settled_feed hr chunk), feed_feed]

/-- **What a receiver yields does not depend on how the stream was cut.** -/
theorem receive_flatten (F : Framer τ) (chunks : List (List τ)) :
    (F.receive chunks).outcome = (F.receive [chunks.flatten]).outcome :=
  foldl_feed settled_start chunks

end Framer

end StreamFraming
