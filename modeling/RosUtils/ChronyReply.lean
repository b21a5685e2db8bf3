/-
The reply sockets of chrony clients in one directory (`truenas_chrony/src/client.rs`).

A client binds a socket of a random name in a directory that all clients share.  Before it
does, it sweeps the directory: it takes every socket of such a name that refuses a
connection for one that a client has left behind, and removes it.  A client that is dropped
closes its socket and then removes the file; one that crashes leaves it.

The clients take their steps in any order, and may fail or crash at any of them.  If no two
of them draw the same random tag, and none draws the name of a file that was there before
(`Fresh`), then (`Safe`):

* the socket of a client is in its place from the moment it is bound, so the daemon's replies
  reach it;
* what a sweep is about to remove is a socket of a reply name that nobody is bound to, whoever
  made it;
* a client that has removed its file has left none;
* whatever else is in the directory is left alone.

So every step that removes a file (`Removes`) removes a stale reply socket, or the file of the
client that takes it.
-/
import RosUtils.Hexadecimal
import RosUtils.Transition
import RosUtils.Utf8

open Transition Hexadecimal

namespace Chrony.Reply

/-! ### Names -/

/-- A file name. -/
abbrev Name := List UInt8

/-- The eight random bytes of a client. -/
abbrev Tag := { tag : List UInt8 // tag.length = 8 }

/-- `.sock` -/
def suffix : List Char := ['.', 's', 'o', 'c', 'k']

/-- The name of a client's socket: its tag in hexadecimal digits, and `.sock`. -/
def replyName (tag : Tag) : Name := Utf8.encode (tag.1.flatMap hexOctet ++ suffix)

/-- `u8::is_ascii_hexdigit`. -/
def isAsciiHexdigit (b : UInt8) : Bool :=
  (48 ≤ b && b ≤ 57) || (65 ≤ b && b ≤ 70) || (97 ≤ b && b ≤ 102)

/-- `str::strip_suffix`. -/
def stripSuffix (name sfx : Name) : Option Name :=
  if sfx.isSuffixOf name then some (name.take (name.length - sfx.length)) else none

/-- `is_reply_name`. -/
def isReplyName (name : Name) : Bool :=
  (Utf8.decode name).isSome &&
    match stripSuffix name (Utf8.encode suffix) with
    | some tag => tag.length == 16 && tag.all isAsciiHexdigit
    | none => false

theorem digitChar_hex (d : Fin 16) :
    (Nat.digitChar d).toNat < 128 ∧ isAsciiHexdigit (Nat.digitChar d).toUInt8 = true := by
  revert d
  decide

theorem ascii_hex {bytes : List UInt8} {c : Char} (h : c ∈ bytes.flatMap hexOctet) :
    c.toNat < 128 ∧ isAsciiHexdigit c.toUInt8 = true := by
  obtain ⟨b, -, hc⟩ := List.mem_flatMap.mp h
  obtain ⟨d, rfl⟩ := mem_hexOctet hc
  exact digitChar_hex d

theorem replyName_eq (tag : Tag) :
    replyName tag = (tag.1.flatMap hexOctet).map Char.toUInt8 ++ Utf8.encode suffix := by
  rw [replyName, Utf8.encode, List.flatMap_append]
  congr 1
  exact Utf8.encode_ascii fun c hc => (ascii_hex hc).1

/-- A sweep knows the names that clients have. -/
theorem isReplyName_replyName (tag : Tag) : isReplyName (replyName tag) = true := by
  have hdecode : (Utf8.decode (replyName tag)).isSome = true := by
    rw [replyName, Utf8.decode_eq_some.mpr rfl]
    rfl
  have hstrip : stripSuffix (replyName tag) (Utf8.encode suffix)
      = some ((tag.1.flatMap hexOctet).map Char.toUInt8) := by
    rw [stripSuffix, replyName_eq, if_pos, List.length_append, Nat.add_sub_cancel,
      List.take_left']
    · rfl
    · exact List.isSuffixOf_iff_suffix.mpr (List.suffix_append _ _)
  rw [isReplyName, hdecode, hstrip]
  simp only [Bool.true_and, Bool.and_eq_true, beq_iff_eq, List.length_map, length_hex, tag.2,
    List.all_map, List.all_eq_true, true_and]
  intro c hc
  exact (ascii_hex hc).2

/-- Different tags are different names. -/
theorem replyName_injective : Function.Injective replyName := fun _ _ h =>
  Subtype.ext (hex_injective (List.append_cancel_right (Utf8.encode_injective h)))

/-! ### Clients -/

/-- What is in the directory under a name. -/
inductive Node where
  | socket (ino : ℕ)
  | other
  deriving DecidableEq

/-- Where a client is, in `bind_reply_socket` and after it. -/
inductive Pc where
  | idle
  /-- Before the daemon is reached. -/
  | reaching
  /-- Before the directory is made. -/
  | making
  /-- Before the directory's mode is set. -/
  | permitting
  /-- In `sweep`, before the next entry. -/
  | sweeping
  /-- Before the probe of an entry. -/
  | probing (n : Name)
  /-- The probe was refused. -/
  | removing (n : Name)
  /-- Before the tag is read. -/
  | drawing
  | binding (tag : Tag)
  /-- Before the socket's mode is set, and before the socket is connected. -/
  | bound (tag : Tag) (ino : ℕ) (permitted : Bool)
  /-- `connect_in` has returned the client. -/
  | live (tag : Tag) (ino : ℕ)
  /-- Setting the mode or connecting has failed: the file is removed first, -/
  | undoing (tag : Tag) (ino : ℕ)
  /-- and then the socket is closed. -/
  | undone (tag : Tag) (ino : ℕ)
  /-- The client is dropped, and its socket is closed. -/
  | unlinking (tag : Tag)
  | gone

namespace Pc

/-- The tag it drew. -/
def tag : Pc → Option Tag
  | .binding t | .bound t _ _ | .live t _ | .undoing t _ | .undone t _ | .unlinking t => some t
  | _ => none

/-- The socket it is bound with. -/
def ino : Pc → Option ℕ
  | .bound _ ino _ | .live _ ino | .undoing _ ino | .undone _ ino => some ino
  | _ => none

/-- The tag whose file is there, with its socket. -/
def owns : Pc → Option (Tag × ℕ)
  | .bound t ino _ | .live t ino | .undoing t ino => some (t, ino)
  | _ => none

/-- The tag whose file is there, or about to be made. -/
def claims : Pc → Option Tag
  | .binding t | .bound t _ _ | .live t _ | .undoing t _ => some t
  | _ => none

/-- The name it takes, or is about to take, for a socket left behind. -/
def target : Pc → Option Name
  | .probing n | .removing n => some n
  | _ => none

end Pc

/-- The directory, the sockets that are bound, the clients, the tags they drew, those who
have removed their file, and the directory as everybody else has left it.  The sockets are
numbered; those before `first` are not the clients'. -/
structure State (ι : Type) where
  dir : Name → Option Node
  isOpen : ℕ → Bool
  first : ℕ
  next : ℕ
  clients : ι → Pc
  drawn : List Tag
  ended : List Tag
  others : Name → Option Node

/-- What a client does, and what comes of it. -/
inductive Act where
  | start
  /-- The system call it is at succeeds. -/
  | ok
  /-- It fails. -/
  | fail
  /-- The next entry of the directory. -/
  | entry (n : Name)
  /-- There is none, or it cannot be read. -/
  | stop
  | draw (tag : Tag)
  | drop
  | crash

/-- A client does something, or somebody else changes a file that has no reply name, or closes
a socket. -/
inductive Event (ι : Type) where
  | client (i : ι) (act : Act)
  | foreign (n : Name) (node : Option Node)
  | closed (ino : ℕ)

namespace State

variable {ι : Type} [DecidableEq ι]

/-- A connection to the name is refused: nobody is bound to the socket, or it is none. -/
def refused (s : State ι) (n : Name) : Bool :=
  match s.dir n with
  | some (.socket ino) => !s.isOpen ino
  | some .other => true
  | none => false

def goto (s : State ι) (i : ι) (p : Pc) : State ι :=
  { s with clients := Function.update s.clients i p }

/-- `fs::remove_file`. -/
def remove (s : State ι) (n : Name) : State ι := { s with dir := Function.update s.dir n none }

/-- A socket is closed. -/
def close (s : State ι) (ino : ℕ) : State ι :=
  { s with isOpen := Function.update s.isOpen ino false }

/-- A process that ends takes its socket with it, and leaves the file. -/
def crash (s : State ι) (p : Pc) : State ι :=
  match p.ino with
  | some ino => s.close ino
  | none => s

/-- `UnixDatagram::bind`, of a name that is free. -/
def bind (s : State ι) (tag : Tag) : State ι :=
  { s with
    dir := Function.update s.dir (replyName tag) (some (.socket s.next))
    isOpen := Function.update s.isOpen s.next true
    next := s.next + 1 }

/-- What a client does. -/
def clientStep (s : State ι) (i : ι) (act : Act) : Option (State ι) :=
  match s.clients i, act with
  | _, .crash => some ((s.crash (s.clients i)).goto i .gone)
  | .idle, .start => some (s.goto i .reaching)
  | .reaching, .ok => some (s.goto i .making)
  | .reaching, .fail => some (s.goto i .gone)
  | .making, .ok => some (s.goto i .permitting)
  | .making, .fail => some (s.goto i .gone)
  | .permitting, .ok => some (s.goto i .sweeping)
  | .permitting, .fail => some (s.goto i .gone)
  | .sweeping, .entry n =>
    match s.dir n with
    | some (.socket _) => some (s.goto i (if isReplyName n then .probing n else .sweeping))
    | some .other => some s
    | none => none
  | .sweeping, .stop => some (s.goto i .drawing)
  | .probing n, .ok => some (s.goto i (if s.refused n then .removing n else .sweeping))
  | .probing _, .fail => some (s.goto i .sweeping)
  | .removing n, .ok => some ((s.remove n).goto i .sweeping)
  | .removing _, .fail => some (s.goto i .sweeping)
  | .drawing, .draw tag => some ({ s with drawn := s.drawn ++ [tag] }.goto i (.binding tag))
  | .drawing, .fail => some (s.goto i .gone)
  | .binding tag, .ok =>
    if (s.dir (replyName tag)).isNone then some ((s.bind tag).goto i (.bound tag s.next false))
    else some (s.goto i .gone)
  | .binding _, .fail => some (s.goto i .gone)
  | .bound tag ino false, .ok => some (s.goto i (.bound tag ino true))
  | .bound tag ino true, .ok => some (s.goto i (.live tag ino))
  | .bound tag ino _, .fail => some (s.goto i (.undoing tag ino))
  | .undoing tag ino, .ok =>
    some ({ s.remove (replyName tag) with ended := s.ended ++ [tag] }.goto i (.undone tag ino))
  | .undoing tag ino, .fail => some (s.goto i (.undone tag ino))
  | .undone _ ino, .ok => some ((s.close ino).goto i .gone)
  | .live tag ino, .drop => some ((s.close ino).goto i (.unlinking tag))
  | .unlinking tag, .ok =>
    some ({ s.remove (replyName tag) with ended := s.ended ++ [tag] }.goto i .gone)
  | .unlinking _, .fail => some (s.goto i .gone)
  | _, _ => none

def step (s : State ι) : Event ι → Option (State ι)
  | .client i act => s.clientStep i act
  | .foreign n node =>
    if isReplyName n then none
    else
      some { s with
        dir := Function.update s.dir n node
        others := Function.update s.others n node }
  | .closed ino => if ino < s.first then some (s.close ino) else none

end State

/-- A directory with some files, and which sockets are bound; those in the directory have
numbers that no client's socket will have. -/
structure Start where
  dir : Name → Option Node
  isOpen : ℕ → Bool
  next : ℕ
  lt : ∀ n ino, dir n = some (.socket ino) → ino < next

/-- Clients that have not started. -/
def system (ι : Type) [DecidableEq ι] (start : Start) : System (State ι) (Event ι) where
  init :=
    { dir := start.dir, isOpen := start.isOpen, first := start.next, next := start.next
      clients := fun _ => .idle, drawn := [], ended := [], others := start.dir }
  step := State.step

/-! ### What a client has -/

namespace Pc

theorem tag_of_claims {p : Pc} {t : Tag} (h : p.claims = some t) : p.tag = some t := by
  cases p <;> first | exact h | cases h

theorem claims_of_owns {p : Pc} {t : Tag} {ino : ℕ} (h : p.owns = some (t, ino)) :
    p.claims = some t ∧ p.ino = some ino := by
  cases p <;> cases h <;> exact ⟨rfl, rfl⟩

theorem claims_cases {p : Pc} {t : Tag} (h : p.claims = some t) :
    p = .binding t ∨ ∃ ino, p.owns = some (t, ino) := by
  cases p with
  | binding t' =>
    cases h
    exact .inl rfl
  | bound t' ino b =>
    cases h
    exact .inr ⟨ino, rfl⟩
  | live t' ino =>
    cases h
    exact .inr ⟨ino, rfl⟩
  | undoing t' ino =>
    cases h
    exact .inr ⟨ino, rfl⟩
  | _ => cases h

/-- A place at which a client has no more than at another. -/
structure Le (p' p : Pc) : Prop where
  tag : ∀ t, p'.tag = some t → p.tag = some t
  ino : ∀ ino, p'.ino = some ino → p.ino = some ino
  owns : ∀ x, p'.owns = some x → p.owns = some x
  claims : ∀ t, p'.claims = some t → p.claims = some t
  free : ∀ t, p' = .binding t → p = .binding t
  target : ∀ n, p'.target = some n → p.target = some n
  removing : ∀ n, p' = .removing n → p = .removing n

/-- It has nothing. -/
def bare : Pc → Bool
  | .idle | .reaching | .making | .permitting | .sweeping | .drawing | .gone => true
  | _ => false

theorem le_of_bare {p' p : Pc} (h : p'.bare = true) : Le p' p := by
  cases p' with
  | probing n => cases h
  | removing n => cases h
  | binding t => cases h
  | bound t ino permitted => cases h
  | live t ino => cases h
  | undoing t ino => cases h
  | undone t ino => cases h
  | unlinking t => cases h
  | _ => exact ⟨nofun, nofun, nofun, nofun, nofun, nofun, nofun⟩

/-- A client that keeps its file and its socket has what it had. -/
theorem le_of_owns {p' p : Pc} {t : Tag} {ino : ℕ} (h' : p'.owns = some (t, ino))
    (h : p.owns = some (t, ino)) : Le p' p := by
  obtain ⟨hclaims, hino⟩ := claims_of_owns h
  obtain ⟨hclaims', hino'⟩ := claims_of_owns h'
  have htag := tag_of_claims hclaims
  have htag' := tag_of_claims hclaims'
  refine ⟨fun _ ht => ?_, fun _ hi => ?_, fun _ ho => ?_, fun _ hc => ?_, ?_, ?_, ?_⟩
  · rw [htag, ← ht, htag']
  · rw [hino, ← hi, hino']
  · rw [h, ← ho, h']
  · rw [hclaims, ← hc, hclaims']
  · rintro _ rfl
    cases h'
  · intro n hn
    cases p' <;> cases h' <;> cases hn
  · rintro _ rfl
    cases h'

end Pc

variable {ι : Type} (dir₀ : Name → Option Node)

/-- No tag was drawn twice, and none is the name of a file that was there. -/
def Fresh (s : State ι) : Prop := s.drawn.Nodup ∧ ∀ t ∈ s.drawn, dir₀ (replyName t) = none

/-- The name was there from the beginning, or is that of a tag that was drawn. -/
def Seen (s : State ι) (n : Name) : Prop := dir₀ n ≠ none ∨ ∃ t ∈ s.drawn, n = replyName t

/-- What is there under the name is a socket that nobody is bound to. -/
def Stale (s : State ι) (n : Name) : Prop :=
  ∀ node, s.dir n = some node → ∃ ino, node = .socket ino ∧ s.isOpen ino = false

/-- What holds of a client. -/
structure ClientOk (s : State ι) (p : Pc) : Prop where
  tag : ∀ t, p.tag = some t → t ∈ s.drawn
  owns : ∀ t ino, p.owns = some (t, ino) →
    s.dir (replyName t) = some (.socket ino) ∧ s.isOpen ino = true
  free : ∀ t, p = .binding t → s.dir (replyName t) = none
  ino : ∀ ino, p.ino = some ino → s.first ≤ ino ∧ ino < s.next
  target : ∀ n, p.target = some n → isReplyName n = true ∧ Seen dir₀ s n ∧ dir₀ n ≠ some .other
  removing : ∀ n, p = .removing n → Stale s n

/-- What holds of two clients: they have nothing in common, and neither is about to remove the
other's file. -/
structure Apart (p q : Pc) : Prop where
  tag : ∀ t, p.tag = some t → q.tag ≠ some t
  ino : ∀ ino, p.ino = some ino → q.ino ≠ some ino
  removing : ∀ n t, p = .removing n → q.claims = some t → n ≠ replyName t

/-- What holds of the directory. -/
structure DirOk (s : State ι) : Prop where
  seen : ∀ n, isReplyName n = true → s.dir n ≠ none → Seen dir₀ s n
  other : ∀ n, isReplyName n = true → (s.dir n = some .other ↔ dir₀ n = some .other)
  lt : ∀ n ino, isReplyName n = true → s.dir n = some (.socket ino) → ino < s.next
  others : ∀ n, isReplyName n = false → s.dir n = s.others n
  ended : ∀ t ∈ s.ended, t ∈ s.drawn ∧ s.dir (replyName t) = none

structure Good (s : State ι) : Prop where
  first : s.first ≤ s.next
  clients : ∀ i, ClientOk dir₀ s (s.clients i)
  apart : ∀ i j, i ≠ j → Apart (s.clients i) (s.clients j)
  dir : DirOk dir₀ s
  /-- who has removed its file has no other -/
  ended : ∀ t ∈ s.ended, ∀ i, (s.clients i).claims ≠ some t

variable {dir₀} {s s' : State ι} {p : Pc} {i : ι}

theorem Apart.mono {p' q' q : Pc} (h : Apart p q) (hp : p'.Le p) (hq : q'.Le q) : Apart p' q' where
  tag := fun t ht hq' => h.tag t (hp.tag t ht) (hq.tag t hq')
  ino := fun ino hino hq' => h.ino ino (hp.ino ino hino) (hq.ino ino hq')
  removing := fun n t hn ht => h.removing n t (hp.removing n hn) (hq.claims t ht)

theorem ClientOk.mono {p' : Pc} (h : ClientOk dir₀ s p) (hle : p'.Le p) : ClientOk dir₀ s p' where
  tag := fun t ht => h.tag t (hle.tag t ht)
  owns := fun t ino ht => h.owns t ino (hle.owns _ ht)
  free := fun t ht => h.free t (hle.free t ht)
  ino := fun ino hino => h.ino ino (hle.ino ino hino)
  target := fun n hn => h.target n (hle.target n hn)
  removing := fun n hn => h.removing n (hle.removing n hn)

theorem Pc.Le.refl (p : Pc) : p.Le p :=
  ⟨fun _ h => h, fun _ h => h, fun _ h => h, fun _ h => h, fun _ h => h, fun _ h => h, fun _ h => h⟩

/-- A client that moves to a place where it has no more is as far from the others as before. -/
theorem Good.apart_le (h : Good dir₀ s) (hle : p.Le (s.clients i)) :
    ∀ j ≠ i, Apart p (s.clients j) ∧ Apart (s.clients j) p := fun j hj =>
  ⟨(h.apart i j hj.symm).mono hle (.refl _), (h.apart j i hj).mono (.refl _) hle⟩

section Steps

variable [DecidableEq ι]

/-- One client has moved. -/
theorem Good.client (h : Good dir₀ s) (hfirst : s'.first ≤ s'.next)
    (hclients : s'.clients = Function.update s.clients i p)
    (hframe : ∀ j ≠ i, ClientOk dir₀ s' (s.clients j)) (hok : ClientOk dir₀ s' p)
    (hapart : ∀ j ≠ i, Apart p (s.clients j) ∧ Apart (s.clients j) p) (hdir : DirOk dir₀ s')
    (hended : ∀ t ∈ s'.ended, p.claims ≠ some t ∧ ∀ j ≠ i, (s.clients j).claims ≠ some t) :
    Good dir₀ s' := by
  refine ⟨hfirst, fun j => ?_, fun j k hjk => ?_, hdir, fun t ht j => ?_⟩
  · rw [hclients]
    by_cases hj : j = i
    · subst hj
      rwa [Function.update_self]
    · rw [Function.update_of_ne hj]
      exact hframe j hj
  · rw [hclients]
    by_cases hj : j = i
    · subst hj
      rw [Function.update_self, Function.update_of_ne hjk.symm]
      exact (hapart k hjk.symm).1
    · rw [Function.update_of_ne hj]
      by_cases hk : k = i
      · subst hk
        rw [Function.update_self]
        exact (hapart j hjk).2
      · rw [Function.update_of_ne hk]
        exact h.apart j k hjk
  · rw [hclients]
    by_cases hj : j = i
    · subst hj
      rw [Function.update_self]
      exact (hended t ht).1
    · rw [Function.update_of_ne hj]
      exact (hended t ht).2 j hj

/-- The client goes on without a change to the directory. -/
theorem Good.goto (h : Good dir₀ s) (hok : ClientOk dir₀ s p)
    (hapart : ∀ j ≠ i, Apart p (s.clients j) ∧ Apart (s.clients j) p)
    (hclaims : ∀ t, p.claims = some t → (s.clients i).claims = some t) :
    Good dir₀ (s.goto i p) := by
  refine h.client h.first rfl (fun j _ => ⟨(h.clients j).tag, (h.clients j).owns,
    (h.clients j).free, (h.clients j).ino, (h.clients j).target, (h.clients j).removing⟩)
    ⟨hok.tag, hok.owns, hok.free, hok.ino, hok.target, hok.removing⟩ hapart
    ⟨h.dir.seen, h.dir.other, h.dir.lt, h.dir.others, h.dir.ended⟩ fun t ht => ?_
  exact ⟨fun hp => h.ended t ht i (hclaims t hp), fun j _ => h.ended t ht j⟩

theorem Good.goto_le (h : Good dir₀ s) (hle : p.Le (s.clients i)) : Good dir₀ (s.goto i p) :=
  h.goto ((h.clients i).mono hle) (h.apart_le hle) hle.claims

/-- The client goes on with its file and its socket. -/
theorem Good.goto_owns (h : Good dir₀ s) {t : Tag} {ino : ℕ}
    (howns : (s.clients i).owns = some (t, ino)) (hp : p.owns = some (t, ino)) :
    Good dir₀ (s.goto i p) :=
  h.goto_le (Pc.le_of_owns hp howns)

omit [DecidableEq ι] in
/-- A socket that is closed does not make anything less stale. -/
theorem Stale.close {n : Name} (h : Stale s n) (ino : ℕ) : Stale (s.close ino) n := by
  intro node hnode
  obtain ⟨ino', rfl, hclosed⟩ := h node hnode
  refine ⟨ino', rfl, ?_⟩
  by_cases hne : ino' = ino
  · rw [hne]
    exact Function.update_self _ _ _
  · exact (Function.update_of_ne hne _ _).trans hclosed

/-- The client closes its socket. -/
theorem Good.close (h : Good dir₀ s) {ino : ℕ} (hino : (s.clients i).ino = some ino)
    (hle : p.Le (s.clients i)) (howns : p.owns = none) (hclaims : p.claims = none) :
    Good dir₀ ((s.close ino).goto i p) := by
  have hok := (h.clients i).mono hle
  refine h.client h.first rfl (fun j hj => ?_) ⟨hok.tag, ?_, hok.free, hok.ino, hok.target,
      fun n hn => (hok.removing n hn).close ino⟩
    (h.apart_le hle) ⟨h.dir.seen, h.dir.other, h.dir.lt, h.dir.others, h.dir.ended⟩ fun t ht => ?_
  · have hj' := h.clients j
    refine ⟨hj'.tag, fun t ino' hown => ?_, hj'.free, hj'.ino, hj'.target,
      fun n hn => (hj'.removing n hn).close ino⟩
    obtain ⟨hdir, hopen⟩ := hj'.owns t ino' hown
    -- it is not the socket of another client
    have hne : ino' ≠ ino := by
      rintro rfl
      exact (h.apart i j hj.symm).ino ino' hino (Pc.claims_of_owns hown).2
    exact ⟨hdir, (Function.update_of_ne hne _ _).trans hopen⟩
  · rw [howns]
    nofun
  · rw [hclaims]
    exact ⟨nofun, fun j _ => h.ended t ht j⟩

/-- The client's process ends. -/
theorem Good.crash (h : Good dir₀ s) : Good dir₀ ((s.crash (s.clients i)).goto i .gone) := by
  rw [State.crash]
  split
  · next ino hino => exact h.close hino (Pc.le_of_bare rfl) rfl rfl
  · exact h.goto_le (Pc.le_of_bare rfl)

omit [DecidableEq ι] in
/-- Somebody else closes a socket. -/
theorem Good.closed (h : Good dir₀ s) {ino : ℕ} (hino : ino < s.first) :
    Good dir₀ (s.close ino) := by
  refine ⟨h.first, fun j => ?_, h.apart,
    ⟨h.dir.seen, h.dir.other, h.dir.lt, h.dir.others, h.dir.ended⟩, h.ended⟩
  have hj := h.clients j
  refine ⟨hj.tag, fun t ino' hown => ?_, hj.free, hj.ino, hj.target,
    fun n hn => (hj.removing n hn).close ino⟩
  obtain ⟨hdir, hopen⟩ := hj.owns t ino' hown
  have hne : ino' ≠ ino := by
    rintro rfl
    exact absurd (hj.ino ino' (Pc.claims_of_owns hown).2).1 (Nat.not_le.mpr hino)
  exact ⟨hdir, (Function.update_of_ne hne _ _).trans hopen⟩

omit [DecidableEq ι] in
/-- What is there after a file was removed was there before. -/
theorem dir_of_remove {n m : Name} {node : Node} (h : (s.remove n).dir m = some node) :
    s.dir m = some node := by
  simp only [State.remove] at h
  by_cases hmn : m = n
  · rw [hmn, Function.update_self] at h
    cases h
  · rwa [Function.update_of_ne hmn] at h

/-- Removing a file leaves the clients that do not claim it as they are. -/
theorem ClientOk.remove {q : Pc} (h : ClientOk dir₀ s q) {n : Name}
    (hclaims : ∀ t, q.claims = some t → n ≠ replyName t) (ended : List Tag) :
    ClientOk dir₀ ({ s.remove n with ended }.goto i p) q where
  tag := h.tag
  owns := by
    intro t ino hown
    obtain ⟨hdir, hopen⟩ := h.owns t ino hown
    have hne := hclaims t (Pc.claims_of_owns hown).1
    exact ⟨(Function.update_of_ne hne.symm _ _).trans hdir, hopen⟩
  free := by
    intro t ht
    have hne := hclaims t (by rw [ht]; rfl)
    exact (Function.update_of_ne hne.symm _ _).trans (h.free t ht)
  ino := h.ino
  target := h.target
  removing := fun m hm node hnode => h.removing m hm node (dir_of_remove hnode)

theorem DirOk.remove (h : DirOk dir₀ s) {n : Name} (hn : isReplyName n = true)
    (hother : dir₀ n ≠ some .other) {ended : List Tag}
    (hended : ∀ t ∈ ended, t ∈ s.ended ∨ t ∈ s.drawn ∧ n = replyName t) :
    DirOk dir₀ ({ s.remove n with ended }.goto i p) where
  seen := by
    intro m hm hdir
    obtain ⟨node, hnode⟩ := Option.ne_none_iff_exists'.mp hdir
    exact h.seen m hm (by rw [dir_of_remove hnode]; nofun)
  other := by
    intro m hm
    refine ⟨fun hm' => (h.other m hm).mp (dir_of_remove hm'), fun hm₀ => ?_⟩
    have hmn : m ≠ n := by
      rintro rfl
      exact hother hm₀
    exact (Function.update_of_ne hmn _ _).trans ((h.other m hm).mpr hm₀)
  lt := fun m ino hm hdir => h.lt m ino hm (dir_of_remove hdir)
  others := by
    intro m hm
    have hmn : m ≠ n := by
      rintro rfl
      rw [hn] at hm
      cases hm
    exact (Function.update_of_ne hmn _ _).trans (h.others m hm)
  ended := by
    intro t ht
    rcases hended t ht with hold | ⟨hdrawn, rfl⟩
    · obtain ⟨hdrawn, hnone⟩ := h.ended t hold
      refine ⟨hdrawn, Option.eq_none_iff_forall_ne_some.mpr fun node hnode => ?_⟩
      rw [dir_of_remove hnode] at hnone
      cases hnone
    · exact ⟨hdrawn, Function.update_self _ _ _⟩

/-- The client removes a file that no other client claims. -/
theorem Good.remove (h : Good dir₀ s) {n : Name} (hn : isReplyName n = true)
    (hother : dir₀ n ≠ some .other)
    (hothers : ∀ j ≠ i, ∀ t, (s.clients j).claims = some t → n ≠ replyName t)
    (hle : p.Le (s.clients i)) (hclaims : p.claims = none) {ended : List Tag}
    (hended : ∀ t ∈ ended, t ∈ s.ended ∨ (s.clients i).tag = some t ∧ n = replyName t) :
    Good dir₀ ({ s.remove n with ended }.goto i p) := by
  have hnothing : ∀ t, p.claims = some t → n ≠ replyName t := by
    rw [hclaims]
    nofun
  refine h.client h.first rfl (fun j hj => (h.clients j).remove (hothers j hj) ended)
    (((h.clients i).mono hle).remove hnothing ended) (h.apart_le hle)
    (h.dir.remove hn hother fun t ht => ?_) fun t ht => ?_
  · exact (hended t ht).imp_right fun ⟨htag, heq⟩ => ⟨(h.clients i).tag t htag, heq⟩
  · rw [hclaims]
    refine ⟨nofun, fun j hj hclaim => ?_⟩
    rcases hended t ht with hold | ⟨htag, -⟩
    · exact h.ended t hold j hclaim
    · exact (h.apart i j hj.symm).tag t htag (Pc.tag_of_claims hclaim)

/-- The client removes its own file. -/
theorem Good.unlink (h : Good dir₀ s) {t : Tag} (htag : (s.clients i).tag = some t)
    (hfree : t ∈ s.drawn → dir₀ (replyName t) = none) (hle : p.Le (s.clients i))
    (hclaims : p.claims = none) :
    Good dir₀ ({ s.remove (replyName t) with ended := s.ended ++ [t] }.goto i p) := by
  refine h.remove (isReplyName_replyName t) ?_ (fun j hj t' ht' heq => ?_) hle hclaims
    fun t' ht' => ?_
  · rw [hfree ((h.clients i).tag t htag)]
    nofun
  · rw [← replyName_injective heq] at ht'
    exact (h.apart i j hj.symm).tag t htag (Pc.tag_of_claims ht')
  · rcases List.mem_append.mp ht' with hold | hnew
    · exact .inl hold
    · rw [List.mem_singleton.mp hnew]
      exact .inr ⟨htag, rfl⟩

/-- A client finds a socket of a reply name. -/
theorem Good.entry (h : Good dir₀ s) {n : Name} {ino : ℕ}
    (hdir : s.dir n = some (.socket ino)) (hn : isReplyName n = true) :
    Good dir₀ (s.goto i (.probing n)) := by
  have hle : ∀ q, Apart (.probing n) q ∧ Apart q (.probing n) := fun q =>
    ⟨⟨nofun, nofun, nofun⟩, ⟨fun _ _ => nofun, fun _ _ => nofun, fun _ _ _ => nofun⟩⟩
  refine h.goto ⟨nofun, nofun, nofun, nofun, fun m hm => ?_, nofun⟩ (fun j _ => hle _) nofun
  cases hm
  refine ⟨hn, h.dir.seen n hn (by rw [hdir]; nofun), fun hother => ?_⟩
  rw [(h.dir.other n hn).mpr hother] at hdir
  cases hdir

omit [DecidableEq ι] in
/-- The probe of a socket that a client claims is not refused. -/
theorem Good.not_refused (h : Good dir₀ s) {n : Name} (hrefused : s.refused n = true) {j : ι}
    {t : Tag} (hclaims : (s.clients j).claims = some t) : n ≠ replyName t := by
  rintro rfl
  rw [State.refused] at hrefused
  rcases Pc.claims_cases hclaims with hbinding | ⟨ino, howns⟩
  · rw [(h.clients j).free t hbinding] at hrefused
    cases hrefused
  · obtain ⟨hdir, hopen⟩ := (h.clients j).owns t ino howns
    rw [hdir] at hrefused
    simp only [hopen, Bool.not_true] at hrefused
    cases hrefused

/-- A client takes a socket for one left behind. -/
theorem Good.probed (h : Good dir₀ s) {n : Name} (hpc : s.clients i = .probing n)
    (hrefused : s.refused n = true) : Good dir₀ (s.goto i (.removing n)) := by
  have htarget := (h.clients i).target n (by rw [hpc]; rfl)
  have hstale : Stale s n := by
    intro node hnode
    rw [State.refused, hnode] at hrefused
    cases node with
    | socket ino => exact ⟨ino, rfl, by simpa using hrefused⟩
    | other => exact absurd ((h.dir.other n htarget.1).mp hnode) htarget.2.2
  refine h.goto ⟨nofun, nofun, nofun, nofun, fun m hm => ?_, fun m hm => ?_⟩
    (fun j _ => ⟨⟨nofun, nofun, ?_⟩,
      ⟨fun _ _ => nofun, fun _ _ => nofun, fun _ _ _ => nofun⟩⟩) nofun
  · cases hm
    exact htarget
  · cases hm
    exact hstale
  · intro m t hm ht
    cases hm
    exact h.not_refused hrefused ht

/-- A client draws a tag that nobody has had. -/
theorem Good.draw (h : Good dir₀ s) {t : Tag} (hnew : t ∉ s.drawn)
    (hfree : dir₀ (replyName t) = none) :
    Good dir₀ ({ s with drawn := s.drawn ++ [t] }.goto i (.binding t)) := by
  have hseen {n : Name} (hn : Seen dir₀ s n) : n ≠ replyName t := by
    rintro rfl
    rcases hn with hn | ⟨t', ht', heq⟩
    · exact hn hfree
    · rw [replyName_injective heq] at hnew
      exact hnew ht'
  have hmore {n : Name} (hn : Seen dir₀ s n) :
      Seen dir₀ ({ s with drawn := s.drawn ++ [t] }.goto i (.binding t)) n := by
    rcases hn with hn | ⟨t', ht', heq⟩
    · exact .inl hn
    · exact .inr ⟨t', List.mem_append_left _ ht', heq⟩
  have hdir : s.dir (replyName t) = none := by
    by_contra hdir
    exact hseen (h.dir.seen _ (isReplyName_replyName t) hdir) rfl
  refine h.client h.first rfl (fun j _ => ?_)
    ⟨fun t' ht' => ?_, nofun, fun t' ht' => ?_, nofun, nofun, nofun⟩
    (fun j _ => ⟨⟨fun t' ht' hj => ?_, nofun, nofun⟩,
      ⟨fun t' hj ht' => ?_, fun _ _ => nofun, fun n t' hn ht' => ?_⟩⟩)
    ⟨fun n hn hnd => hmore (h.dir.seen n hn hnd), h.dir.other, h.dir.lt, h.dir.others,
      fun t' ht' => ?_⟩
    fun t' ht' => ⟨fun heq => ?_, fun j _ => h.ended t' ht' j⟩
  · have hj := h.clients j
    exact ⟨fun t' ht' => List.mem_append_left _ (hj.tag t' ht'), hj.owns, hj.free, hj.ino,
      fun n hn => ⟨(hj.target n hn).1, hmore (hj.target n hn).2.1, (hj.target n hn).2.2⟩,
      hj.removing⟩
  · cases ht'
    exact List.mem_append_right _ (List.mem_singleton_self _)
  · cases ht'
    exact hdir
  · cases ht'
    exact hnew ((h.clients j).tag t hj)
  · cases ht'
    exact hnew ((h.clients j).tag t hj)
  · cases ht'
    exact hseen ((h.clients j).target n (by rw [hn]; rfl)).2.1
  · exact ⟨List.mem_append_left _ (h.dir.ended t' ht').1, (h.dir.ended t' ht').2⟩
  · cases heq
    exact hnew (h.dir.ended t ht').1

/-- A socket that is bound to a new tag leaves the other clients as they are. -/
theorem ClientOk.bind {q : Pc} (h : ClientOk dir₀ s q) (hdir : DirOk dir₀ s) {t : Tag}
    (htag : ∀ t', q.tag = some t' → t' ≠ t)
    (hremoving : ∀ n, q = .removing n → n ≠ replyName t) :
    ClientOk dir₀ ((s.bind t).goto i p) q where
  tag := h.tag
  owns := by
    intro t' ino hown
    obtain ⟨hthere, hopen⟩ := h.owns t' ino hown
    obtain ⟨hclaim, hino⟩ := Pc.claims_of_owns hown
    have hne := replyName_injective.ne (htag t' (Pc.tag_of_claims hclaim))
    exact ⟨(Function.update_of_ne hne _ _).trans hthere,
      (Function.update_of_ne (ne_of_lt (h.ino ino hino).2) _ _).trans hopen⟩
  free := by
    intro t' ht'
    have hne := replyName_injective.ne (htag t' (by rw [ht']; rfl))
    exact (Function.update_of_ne hne _ _).trans (h.free t' ht')
  ino := fun ino hino => ⟨(h.ino ino hino).1, (h.ino ino hino).2.trans (Nat.lt_succ_self _)⟩
  target := h.target
  removing := by
    -- neither the name nor the socket is the new one
    intro n hn node hnode
    have hnode := (Function.update_of_ne (hremoving n hn) _ s.dir).symm.trans hnode
    obtain ⟨ino, rfl, hclosed⟩ := h.removing n hn node hnode
    have hlt := hdir.lt n ino (h.target n (by rw [hn]; rfl)).1 hnode
    exact ⟨ino, rfl, (Function.update_of_ne (ne_of_lt hlt) _ _).trans hclosed⟩

omit [DecidableEq ι] in
/-- What is there after a socket was bound is the socket, or was there before. -/
theorem dir_of_bind {t : Tag} {m : Name} {node : Node} (h : (s.bind t).dir m = some node) :
    (m = replyName t ∧ node = .socket s.next) ∨ s.dir m = some node := by
  simp only [State.bind] at h
  by_cases hm : m = replyName t
  · rw [hm, Function.update_self] at h
    exact .inl ⟨hm, (Option.some.inj h).symm⟩
  · rw [Function.update_of_ne hm] at h
    exact .inr h

theorem DirOk.bind (h : DirOk dir₀ s) {t : Tag} (hdrawn : t ∈ s.drawn)
    (hfree : s.dir (replyName t) = none) (hended : t ∉ s.ended) :
    DirOk dir₀ ((s.bind t).goto i p) where
  seen := by
    intro n hn hnd
    obtain ⟨node, hnode⟩ := Option.ne_none_iff_exists'.mp hnd
    obtain ⟨hnt, -⟩ | hold := dir_of_bind hnode
    · exact .inr ⟨t, hdrawn, hnt⟩
    · exact h.seen n hn (by rw [hold]; nofun)
  other := by
    intro n hn
    rw [← h.other n hn]
    refine ⟨fun hnode => ?_, fun hnode => ?_⟩
    · obtain ⟨-, hsocket⟩ | hold := dir_of_bind hnode
      · cases hsocket
      · exact hold
    · have hnt : n ≠ replyName t := by
        rintro rfl
        rw [hfree] at hnode
        cases hnode
      exact (Function.update_of_ne hnt _ _).trans hnode
  lt := by
    intro n ino hn hnode
    obtain ⟨-, hsocket⟩ | hold := dir_of_bind hnode
    · cases hsocket
      exact Nat.lt_succ_self _
    · exact (h.lt n ino hn hold).trans (Nat.lt_succ_self _)
  others := by
    intro n hn
    have hnt : n ≠ replyName t := by
      rintro rfl
      rw [isReplyName_replyName] at hn
      cases hn
    exact (Function.update_of_ne hnt _ _).trans (h.others n hn)
  ended := by
    intro t' ht'
    have hne : t' ≠ t := fun heq => hended (heq ▸ ht')
    exact ⟨(h.ended t' ht').1,
      (Function.update_of_ne (replyName_injective.ne hne) _ _).trans (h.ended t' ht').2⟩

/-- A client binds its socket. -/
theorem Good.bind (h : Good dir₀ s) {t : Tag} (hpc : s.clients i = .binding t) :
    Good dir₀ ((s.bind t).goto i (.bound t s.next false)) := by
  have htag : (s.clients i).tag = some t := by rw [hpc]; rfl
  have hclaims : (s.clients i).claims = some t := by rw [hpc]; rfl
  have hothers {j : ι} (hj : j ≠ i) : (s.clients j).tag ≠ some t :=
    (h.apart i j hj.symm).tag t htag
  have hnew {j : ι} : (s.clients j).ino ≠ some s.next := fun hino =>
    lt_irrefl _ ((h.clients j).ino _ hino).2
  refine h.client (h.first.trans (Nat.le_succ _)) rfl (fun j hj => ?_)
    ⟨fun t' ht' => ?_, fun t' ino ht' => ?_, nofun, fun ino hino => ?_, nofun, nofun⟩
    (fun j hj => ⟨⟨fun t' ht' => ?_, fun ino hino => ?_, nofun⟩,
      ⟨fun t' hjt ht' => ?_, fun ino hjino hino => ?_, fun n t' hn ht' => ?_⟩⟩)
    (h.dir.bind ((h.clients i).tag t htag) ((h.clients i).free t hpc)
      fun hended => h.ended t hended i hclaims)
    fun t' ht' => ⟨fun heq => ?_, fun j _ => h.ended t' ht' j⟩
  · exact (h.clients j).bind h.dir (fun t' ht' heq => hothers hj (heq ▸ ht'))
      fun n hn => (h.apart j i hj).removing n t hn hclaims
  · cases ht'
    exact (h.clients i).tag t htag
  · cases ht'
    exact ⟨Function.update_self _ _ _, Function.update_self _ _ _⟩
  · cases hino
    exact ⟨h.first, Nat.lt_succ_self _⟩
  · cases ht'
    exact hothers hj
  · cases hino
    exact hnew
  · cases ht'
    exact hothers hj hjt
  · cases hino
    exact hnew hjino
  · cases ht'
    exact (h.apart j i hj).removing n t hn hclaims
  · cases heq
    exact h.ended t ht' i hclaims

omit [DecidableEq ι] in
/-- Somebody else changes a file. -/
theorem Good.foreign (h : Good dir₀ s) {n : Name} (hn : isReplyName n = false)
    (node : Option Node) :
    Good dir₀ { s with
      dir := Function.update s.dir n node
      others := Function.update s.others n node } := by
  have hkept {m : Name} (hm : isReplyName m = true) : Function.update s.dir n node m = s.dir m := by
    refine Function.update_of_ne ?_ _ _
    rintro rfl
    rw [hn] at hm
    cases hm
  have hreply (t : Tag) := hkept (isReplyName_replyName t)
  refine ⟨h.first, fun j => ?_, h.apart, ⟨fun m hm hmd => ?_, fun m hm => ?_,
    fun m ino hm hmd => h.dir.lt m ino hm ((hkept hm).symm.trans hmd), fun m hm => ?_,
    fun t ht => ⟨(h.dir.ended t ht).1, (hreply t).trans (h.dir.ended t ht).2⟩⟩, h.ended⟩
  · have hj := h.clients j
    refine ⟨hj.tag, fun t ino hown => ⟨(hreply t).trans (hj.owns t ino hown).1,
      (hj.owns t ino hown).2⟩, fun t ht => (hreply t).trans (hj.free t ht), hj.ino, hj.target,
      fun m hm node hnode => ?_⟩
    have hname := (hj.target m (by rw [hm]; rfl)).1
    exact hj.removing m hm node ((hkept hname).symm.trans hnode)
  · exact h.dir.seen m hm fun hnone => hmd ((hkept hm).trans hnone)
  · dsimp only
    rw [hkept hm]
    exact h.dir.other m hm
  · by_cases hmn : m = n
    · subst hmn
      simp only [Function.update_self]
    · simp only [Function.update_of_ne hmn]
      exact h.dir.others m hm

/-- What a client does keeps everything, as long as its tag is fresh. -/
theorem Good.clientStep (h : Good dir₀ s) (hfresh : Fresh dir₀ s') {act : Act}
    (hstep : s.clientStep i act = some s') : Good dir₀ s' := by
  unfold State.clientStep at hstep
  split at hstep
  -- most steps lead to a place where the client has nothing
  all_goals try
    cases hstep
    exact h.goto_le (Pc.le_of_bare rfl)
  · cases hstep
    exact h.crash
  · next n hpc =>
    split at hstep
    · next ino hdir =>
      cases hstep
      split
      · next hn => exact h.entry hdir hn
      · exact h.goto_le (Pc.le_of_bare rfl)
    · cases hstep
      exact h
    · cases hstep
  · next n hpc =>
    cases hstep
    split
    · next hrefused => exact h.probed hpc hrefused
    · exact h.goto_le (Pc.le_of_bare rfl)
  · next n hpc =>
    cases hstep
    obtain ⟨hn, -, hother⟩ := (h.clients i).target n (by rw [hpc]; rfl)
    refine h.remove hn hother (fun j hj t ht => ?_) (Pc.le_of_bare rfl) rfl fun t ht => .inl ht
    exact (h.apart i j hj.symm).removing n t hpc ht
  · next t hpc =>
    cases hstep
    obtain ⟨hnodup, hfree⟩ := hfresh
    have hnew : t ∉ s.drawn := (List.nodup_cons.mp (List.nodup_append_comm.mp hnodup)).1
    exact h.draw hnew (hfree t (List.mem_append_right _ (List.mem_singleton_self t)))
  · next t hpc =>
    split at hstep
    · cases hstep
      exact h.bind hpc
    · cases hstep
      exact h.goto_le (Pc.le_of_bare rfl)
  · next t ino hpc =>
    cases hstep
    exact h.goto_owns (by rw [hpc]; rfl) rfl
  · next t ino hpc =>
    cases hstep
    exact h.goto_owns (by rw [hpc]; rfl) rfl
  · next t ino permitted hpc =>
    cases hstep
    exact h.goto_owns (by rw [hpc]; rfl) rfl
  · next t ino hpc =>
    cases hstep
    refine h.unlink (t := t) (by rw [hpc]; rfl) (hfresh.2 t) ?_ rfl
    rw [hpc]
    exact ⟨fun _ h => h, fun _ h => h, nofun, nofun, nofun, nofun, nofun⟩
  · next t ino hpc =>
    cases hstep
    refine h.goto_le ?_
    rw [hpc]
    exact ⟨fun _ h => h, fun _ h => h, nofun, nofun, nofun, nofun, nofun⟩
  · next t ino hpc =>
    cases hstep
    exact h.close (by rw [hpc]; rfl) (Pc.le_of_bare rfl) rfl rfl
  · next t ino hpc =>
    cases hstep
    refine h.close (by rw [hpc]; rfl) ?_ rfl rfl
    rw [hpc]
    exact ⟨fun _ h => h, nofun, nofun, nofun, nofun, nofun, nofun⟩
  · next t hpc =>
    cases hstep
    exact h.unlink (t := t) (by rw [hpc]; rfl) (hfresh.2 t) (Pc.le_of_bare rfl) rfl
  · cases hstep

/-- No tag that was drawn is forgotten. -/
theorem drawn_grows {e : Event ι} (hstep : s.step e = some s') : s.drawn <+: s'.drawn := by
  cases e with
  | foreign n node =>
    simp only [State.step] at hstep
    split at hstep <;> cases hstep
    exact List.prefix_rfl
  | closed ino =>
    simp only [State.step] at hstep
    split at hstep <;> cases hstep
    exact List.prefix_rfl
  | client i act =>
    simp only [State.step, State.clientStep] at hstep
    split at hstep
    · cases hstep
      rw [State.crash]
      split <;> exact List.prefix_rfl
    all_goals first
      | cases hstep; exact List.prefix_rfl
      | cases hstep; exact List.prefix_append _ _
      | split at hstep <;> cases hstep <;> exact List.prefix_rfl
      | cases hstep

theorem Fresh.before {e : Event ι} (hfresh : Fresh dir₀ s') (hstep : s.step e = some s') :
    Fresh dir₀ s := by
  have hsub := (drawn_grows hstep).sublist
  exact ⟨hfresh.1.sublist hsub, fun t ht => hfresh.2 t (hsub.subset ht)⟩

theorem Good.step {e : Event ι} (h : Good dir₀ s) (hfresh : Fresh dir₀ s')
    (hstep : s.step e = some s') : Good dir₀ s' := by
  cases e with
  | client i act => exact h.clientStep hfresh hstep
  | foreign n node =>
    simp only [State.step] at hstep
    split at hstep
    · cases hstep
    · next hn =>
      cases hstep
      exact h.foreign (Bool.eq_false_iff.mpr hn) node
  | closed ino =>
    simp only [State.step] at hstep
    split at hstep
    · next hino =>
      cases hstep
      exact h.closed hino
    · cases hstep

/-! ### What is removed -/

omit [DecidableEq ι] in
/-- What takes a file out of the directory, or changes it. -/
inductive Removes (s : State ι) (n : Name) : Event ι → Prop
  /-- Somebody else does it, to a file that has no reply name. -/
  | foreign {node : Option Node} (hn : isReplyName n = false) : Removes s n (.foreign n node)
  /-- A sweep removes a socket of a reply name that nobody is bound to. -/
  | swept {i : ι} {ino : ℕ} (hpc : s.clients i = .removing n) (hn : isReplyName n = true)
      (hdir : s.dir n = some (.socket ino)) (hopen : s.isOpen ino = false) :
      Removes s n (.client i .ok)
  /-- A client removes the file of its own tag. -/
  | own {i : ι} {t : Tag} (htag : (s.clients i).tag = some t) (hn : n = replyName t) :
      Removes s n (.client i .ok)

/-- A file that a name was removed of. -/
theorem eq_of_removed {dir : Name → Option Node} {n m : Name} {node : Node} {new : Option Node}
    (hdir : dir n = some node) (hne : Function.update dir m new n ≠ some node) : n = m := by
  by_contra hnm
  exact hne ((Function.update_of_ne hnm _ _).trans hdir)

theorem Good.removes (h : Good dir₀ s) {e : Event ι} (hstep : s.step e = some s') {n : Name}
    {node : Node} (hdir : s.dir n = some node) (hne : s'.dir n ≠ some node) : Removes s n e := by
  cases e with
  | foreign m new =>
    simp only [State.step] at hstep
    split at hstep
    · cases hstep
    · next hm =>
      cases hstep
      obtain rfl := eq_of_removed hdir hne
      exact .foreign (Bool.eq_false_iff.mpr hm)
  | closed ino =>
    simp only [State.step] at hstep
    split at hstep <;> cases hstep
    exact absurd hdir hne
  | client i act =>
    simp only [State.step, State.clientStep] at hstep
    split at hstep
    -- most steps leave the directory as it is
    all_goals try
      cases hstep
      exact absurd hdir hne
    · cases hstep
      rw [State.crash] at hne
      split at hne <;> exact absurd hdir hne
    · split at hstep <;> cases hstep <;> exact absurd hdir hne
    · next m hpc =>
      cases hstep
      obtain rfl := eq_of_removed hdir hne
      obtain ⟨ino, rfl, hclosed⟩ := (h.clients i).removing n hpc node hdir
      exact .swept hpc ((h.clients i).target n (by rw [hpc]; rfl)).1 hdir hclosed
    · next t hpc =>
      split at hstep
      · next hnone =>
        cases hstep
        rw [← eq_of_removed hdir hne, hdir] at hnone
        cases hnone
      · cases hstep
        exact absurd hdir hne
    · next t ino hpc =>
      cases hstep
      exact .own (by rw [hpc]; rfl) (eq_of_removed hdir hne)
    · next t hpc =>
      cases hstep
      exact .own (by rw [hpc]; rfl) (eq_of_removed hdir hne)
    · cases hstep

end Steps

/-- What the clients may rely on. -/
structure Safe (dir₀ : Name → Option Node) (s : State ι) : Prop where
  /-- the socket of a client that is bound, connected or not, is in its place, and no other client
  has its name -/
  bound : ∀ i t ino, (s.clients i).owns = some (t, ino) →
    s.dir (replyName t) = some (.socket ino) ∧ s.isOpen ino = true ∧
      ∀ j, (s.clients j).tag = some t → j = i
  /-- what a sweep is about to remove has a reply name, and nobody is bound to it -/
  swept : ∀ i n, s.clients i = .removing n → isReplyName n = true ∧ Stale s n
  /-- who has removed its file has left none -/
  ended : ∀ t ∈ s.ended, s.dir (replyName t) = none
  /-- a file of such a name that is no socket is left alone -/
  other : ∀ n, isReplyName n = true → dir₀ n = some .other → s.dir n = some .other
  /-- and so is every other file -/
  others : ∀ n, isReplyName n = false → s.dir n = s.others n

theorem Good.safe (h : Good dir₀ s) : Safe dir₀ s := by
  refine ⟨fun i t ino hi => ?_, fun i n hi => ?_, fun t ht => (h.dir.ended t ht).2,
    fun n hn => (h.dir.other n hn).mpr, h.dir.others⟩
  · obtain ⟨hdir, hopen⟩ := (h.clients i).owns t ino hi
    refine ⟨hdir, hopen, fun j hj => ?_⟩
    by_contra hne
    exact (h.apart j i hne).tag t hj (Pc.tag_of_claims (Pc.claims_of_owns hi).1)
  · exact ⟨((h.clients i).target n (by rw [hi]; rfl)).1, (h.clients i).removing n hi⟩

/-- **No client loses its reply socket to another**, and nothing is removed but stale reply
sockets and the clients' own files, as long as the tags are fresh. -/
theorem reply_sockets_safe [DecidableEq ι] {start : Start} (h : (system ι start).Reachable s)
    (hfresh : Fresh start.dir s) :
    Safe start.dir s ∧ ∀ e s', s.step e = some s' → ∀ n node, s.dir n = some node →
      s'.dir n ≠ some node → Removes s n e := by
  have hs : Good start.dir s := by
    refine h.invariant_while ?_ (fun s e s' hstep hfresh => hfresh.before hstep)
      (fun s e s' hfresh hs hstep => hs.step hfresh hstep) hfresh
    refine ⟨le_rfl, fun i => ⟨nofun, nofun, nofun, nofun, nofun, nofun⟩,
      fun i j _ => ⟨nofun, nofun, nofun⟩,
      ⟨fun n _ hn => .inl hn, fun n _ => Iff.rfl, fun n ino _ => start.lt n ino,
        fun n _ => rfl, ?_⟩,
      ?_⟩
    · intro t ht
      cases ht
    · intro t ht
      cases ht
  exact ⟨hs.safe, fun e s' hstep n node => hs.removes hstep⟩

/-- A client connects: it finds nothing to sweep, draws its tag and binds its socket. -/
def connect (i : Bool) (tag : Tag) : List (Event Bool) :=
  [.start, .ok, .ok, .ok, .stop, .draw tag, .ok, .ok, .ok].map (.client i)

/-- The socket of somebody else, who is bound to it. -/
def elsewhere : Start where
  dir n := if n = replyName ⟨[255, 0, 0, 0, 0, 0, 0, 0], rfl⟩ then some (.socket 0) else none
  isOpen ino := ino == 0
  next := 1
  lt := by
    intro n ino h
    split_ifs at h
    cases h
    exact Nat.one_pos

/-- One client connects and crashes.  The other finds both sockets, removes the one that was left
behind, and connects. -/
def sweepOne : List (Event Bool) :=
  connect true ⟨[0, 1, 2, 3, 4, 5, 6, 7], rfl⟩ ++ [.client true .crash] ++
    [.start, .ok, .ok, .ok, .entry (replyName ⟨[255, 0, 0, 0, 0, 0, 0, 0], rfl⟩), .ok,
      .entry (replyName ⟨[0, 1, 2, 3, 4, 5, 6, 7], rfl⟩), .ok, .ok, .stop,
      .draw ⟨[8, 9, 10, 11, 12, 13, 14, 15], rfl⟩, .ok, .ok, .ok].map (.client false)

theorem reply_sockets_safe_sweepOne :
    ∃ s, (system Bool elsewhere).run (system Bool elsewhere).init sweepOne = some s ∧
      s.clients false = .live ⟨[8, 9, 10, 11, 12, 13, 14, 15], rfl⟩ 2 ∧
      s.dir (replyName ⟨[0, 1, 2, 3, 4, 5, 6, 7], rfl⟩) = none ∧
      s.dir (replyName ⟨[255, 0, 0, 0, 0, 0, 0, 0], rfl⟩) = some (.socket 0) ∧
      Safe elsewhere.dir s := by
  have hinit := System.Reachable.init (S := system Bool elsewhere)
  refine ⟨_, rfl, rfl, rfl, rfl, ?_⟩
  have hfresh : ∀ t ∈ [(⟨[0, 1, 2, 3, 4, 5, 6, 7], rfl⟩ : Tag),
      ⟨[8, 9, 10, 11, 12, 13, 14, 15], rfl⟩], elsewhere.dir (replyName t) = none := by decide
  exact (reply_sockets_safe (hinit.run (rfl : System.run _ _ sweepOne = some _))
    ⟨by decide, hfresh⟩).1

end Chrony.Reply
