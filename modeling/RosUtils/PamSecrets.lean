/-
The memory that answers to PAM prompts pass through (`truenas_pam/src/secret.rs`, `conv.rs`).

An answer is a `Secret`, whose buffer is overwritten before it is freed.  To hand the answers
of a round to a module they are copied into strings that the C library allocates, in an array
that the module frees.  A round that fails on the way frees what it has built, after
overwriting it as well.

Here these functions run on a heap on which an access outside of a block or a second `free` is
a fault, and which remembers what a block held when it was freed.

* `Secret.new`, `Secret.drop`, `responsesToC`, `freeResponses`, `answer` — the functions;
* `answer_spec` — one round: the heap-level result is that of `Conv.responsesToC`, the answers
  are gone, and what was freed on the way was overwritten;
* `secrets_scrubbed` — in any run nothing faults, no block that was freed here holds a byte of
  an answer, no block is lost, and the modules read what was answered.
-/
import Mathlib.Data.List.ReduceOption
import RosUtils.OwnedHeap
import RosUtils.PamConv

open OwnedHeap Transition

namespace Pam.Secrets

open Conv (pamBufErr pamConvErr takeWhile_string toResponse)

/-! ### Memory -/

/-- `pam_response` in memory: the block its string is in, or null. -/
structure Resp where
  resp : Option ℕ
  retcode : ℤ

/-- A response as `calloc` leaves it. -/
def Resp.zeroed : Resp := ⟨none, 0⟩

/-- What a block holds. -/
inductive Cell where
  | bytes (b : List UInt8)
  | array (rs : List Resp)

/-- The size of a block: a `pam_response` is a pointer and an `int`, padded. -/
def Cell.size : Cell → ℕ
  | .bytes b => b.length
  | .array rs => 16 * rs.length

/-- The heap. -/
abbrev Memory := Heap Cell

/-- What `malloc` finds in a block of each size. -/
structure Junk where
  bytes : ℕ → List UInt8
  length : ∀ n, (bytes n).length = n

/-- The bytes of a block. -/
def readBytes (m : Memory) (p : ℕ) : Option (List UInt8) :=
  match m.live p with
  | some (.bytes b) => some b
  | _ => none

/-- The responses of an array. -/
def readArray (m : Memory) (p : ℕ) : Option (List Resp) :=
  match m.live p with
  | some (.array rs) => some rs
  | _ => none

/-- Bytes are written at an offset, inside the block. -/
def store (m : Memory) (p offset : ℕ) (bytes : List UInt8) : Option Memory := do
  let b ← readBytes m p
  if offset + bytes.length ≤ b.length then
    m.write Cell.size p (.bytes (b.take offset ++ (bytes ++ b.drop (offset + bytes.length))))
  else none

/-- `scrub`. -/
def scrub (m : Memory) (p len : ℕ) : Option Memory := store m p 0 (List.replicate len 0)

/-- The bytes of a string, whose NUL is inside the block. -/
def readString (m : Memory) (p : ℕ) : Option (List UInt8) := do
  let b ← readBytes m p
  if (0 : UInt8) ∈ b then some (b.takeWhile (· != 0)) else none

/-- `strlen`. -/
def strlen (m : Memory) (p : ℕ) : Option ℕ := (readString m p).map List.length

/-! ### Secrets -/

/-- `Secret::new`, of a vector whose buffer is the block `src` and which has `len` bytes. -/
def Secret.new (m : Memory) (src len : ℕ) : Option (ℕ × Memory) := do
  let b ← readBytes m src
  -- exact already: the allocation is kept in place
  if b.length = len then some (src, m)
  else
    let (box, m) := m.alloc (.bytes (b.take len))
    let m ← scrub m src b.length
    let m ← m.free src
    some (box, m)

/-- `Drop for Secret`. -/
def Secret.drop (m : Memory) (p : ℕ) : Option Memory := do
  let b ← readBytes m p
  let m ← scrub m p b.length
  m.free p

/-- The drop of a vector of answers. -/
def dropAnswers (m : Memory) : List (Option ℕ) → Option Memory
  | [] => some m
  | none :: answers => dropAnswers m answers
  | some p :: answers => do
    let m ← Secret.drop m p
    dropAnswers m answers

/-! ### Responses -/

/-- The loop of `free_responses`. -/
def freeStrings (m : Memory) : List Resp → Option Memory
  | [] => some m
  | ⟨none, _⟩ :: rs => freeStrings m rs
  | ⟨some p, _⟩ :: rs => do
    let n ← strlen m p
    let m ← scrub m p n
    let m ← m.free p
    freeStrings m rs

/-- `free_responses`. -/
def freeResponses (m : Memory) (array count : ℕ) : Option Memory := do
  let rs ← readArray m array
  if count ≤ rs.length then
    let m ← freeStrings m (rs.take count)
    m.free array
  else none

/-- The string is copied into the buffer, and then its NUL. -/
def copyString (m : Memory) (buf : ℕ) (bytes : List UInt8) : Option Memory := do
  let m ← store m buf 0 bytes
  store m buf bytes.length [0]

/-- `(*array.add(i)).resp = buf`. -/
def setResp (m : Memory) (array i buf : ℕ) : Option Memory := do
  let rs ← readArray m array
  if i < rs.length then
    m.write Cell.size array (.array (rs.modify i fun r => { r with resp := some buf }))
  else none

/-- The loop of `responses_to_c`, at answer `i` of `count`. -/
def fillResponses (alloc : ℕ → Bool) (junk : Junk) (m : Memory) (array count i : ℕ) :
    List (Option ℕ) → Option (Except Error ℕ × Memory)
  | [] => some (.ok array, m)
  | none :: answers => fillResponses alloc junk m array count (i + 1) answers
  | some secret :: answers => do
    let bytes ← readBytes m secret
    if (0 : UInt8) ∈ bytes then
      let m ← freeResponses m array count
      some (.error .nulByte, m)
    else if alloc (i + 1) then
      let (buf, m) := m.alloc (.bytes (junk.bytes (bytes.length + 1)))
      let m ← copyString m buf bytes
      let m ← setResp m array i buf
      fillResponses alloc junk m array count (i + 1) answers
    else
      let m ← freeResponses m array count
      some (.error (.pam pamBufErr), m)

/-- `responses_to_c`. -/
def responsesToC (alloc : ℕ → Bool) (junk : Junk) (m : Memory)
    (answers : List (Option ℕ)) : Option (Except Error ℕ × Memory) :=
  if alloc 0 then
    let (array, m) := m.alloc (.array (List.replicate answers.length .zeroed))
    fillResponses alloc junk m array answers.length 0 answers
  else some (.error (.pam pamBufErr), m)

/-- What the trampoline does with the answers to `count` messages. -/
def marshal (alloc : ℕ → Bool) (junk : Junk) (m : Memory) (count : ℕ)
    (answers : List (Option ℕ)) : Option (Except Error ℕ × Memory) :=
  if answers.length ≠ count then some (.error (.pam pamConvErr), m)
  else responsesToC alloc junk m answers

/-- The same, to the end of the closure, where the answers are dropped. -/
def answer (alloc : ℕ → Bool) (junk : Junk) (m : Memory) (count : ℕ)
    (answers : List (Option ℕ)) : Option (Except Error ℕ × Memory) := do
  let (r, m) ← marshal alloc junk m count answers
  let m ← dropAnswers m answers
  some (r, m)

/-! ### The module -/

/-- What a module reads in an array: the strings up to their NUL. -/
def readStrings (m : Memory) : List Resp → Option (List (Option (List UInt8)))
  | [] => some []
  | ⟨none, _⟩ :: rs => do
    let strings ← readStrings m rs
    some (none :: strings)
  | ⟨some p, _⟩ :: rs => do
    let string ← readString m p
    let strings ← readStrings m rs
    some (some string :: strings)

/-- What a module reads in the array it was handed. -/
def moduleReads (m : Memory) (array : ℕ) : Option (List (Option (List UInt8))) := do
  let rs ← readArray m array
  readStrings m rs

/-- The module frees the strings of an array. -/
def releaseStrings (m : Memory) : List Resp → Option Memory
  | [] => some m
  | ⟨none, _⟩ :: rs => releaseStrings m rs
  | ⟨some p, _⟩ :: rs => do
    let m ← m.release p
    releaseStrings m rs

/-- The module frees an array. -/
def moduleFrees (m : Memory) (array : ℕ) : Option Memory := do
  let rs ← readArray m array
  let m ← releaseStrings m rs
  m.release array

/-! ### What is freed -/

/-- No byte but zero, or an array of responses. -/
def Scrubbed : Cell → Prop
  | .bytes b => ∀ x ∈ b, x = 0
  | .array _ => True

/-- Bytes, and the block they are in. -/
abbrev Held := ℕ × List UInt8

/-- The blocks of secrets. -/
def secretCells (as : List (Option Held)) : List (ℕ × Cell) :=
  as.filterMap fun o => o.map fun a => (a.1, .bytes a.2)

/-- The blocks of C strings. -/
def stringCells (f : List (Option Held)) : List (ℕ × Cell) :=
  f.filterMap fun o => o.map fun a => (a.1, .bytes (a.2 ++ [0]))

/-- The responses that point at these strings. -/
def resps (f : List (Option Held)) : List Resp := f.map fun o => ⟨o.map Prod.fst, 0⟩

/-- The blocks of an array that was handed over. -/
def arrayCells (array : ℕ) (f : List (Option Held)) : List (ℕ × Cell) :=
  (array, .array (resps f)) :: stringCells f

/-- The blocks that answers are in. -/
def blocks (as : List (Option Held)) : List (Option ℕ) := as.map (Option.map Prod.fst)

/-- The bytes of answers. -/
def texts (as : List (Option Held)) : List (Option (List UInt8)) := as.map (Option.map Prod.snd)

/-- No answer has a NUL. -/
def NoNul (f : List (Option Held)) : Prop := ∀ p b, some (p, b) ∈ f → (0 : UInt8) ∉ b

section Specs

variable {m : Memory} {rest : List (ℕ × Cell)} {p : ℕ} {b : List UInt8}

theorem readBytes_of_owns {l : List (ℕ × Cell)} (ho : m.Owns l) (hmem : (p, .bytes b) ∈ l) :
    readBytes m p = some b := by
  rw [readBytes, (ho.live_iff p _).mpr hmem]

theorem readArray_of_owns {l : List (ℕ × Cell)} {rs : List Resp} (ho : m.Owns l)
    (hmem : (p, .array rs) ∈ l) : readArray m p = some rs := by
  rw [readArray, (ho.live_iff p _).mpr hmem]

/-- Bytes are written into a block that has room for them. -/
theorem store_spec (offset : ℕ) (bytes : List UInt8) (ho : m.Owns ((p, .bytes b) :: rest))
    (hroom : offset + bytes.length ≤ b.length) :
    ∃ m', store m p offset bytes = some m' ∧
      m'.Owns ((p, .bytes (b.take offset ++ (bytes ++ b.drop (offset + bytes.length)))) :: rest) ∧
      m'.freed = m.freed := by
  have hsize : Cell.size (.bytes (b.take offset ++ (bytes ++ b.drop (offset + bytes.length)))) =
      Cell.size (.bytes b) := by
    simp only [Cell.size, List.length_append, List.length_take, List.length_drop]
    omega
  obtain ⟨m', hwrite, ho', hfreed⟩ := ho.write hsize
  refine ⟨m', ?_, ho', hfreed⟩
  rw [store, readBytes_of_owns ho List.mem_cons_self]
  show (if offset + bytes.length ≤ b.length then _ else none) = _
  rw [if_pos hroom, hwrite]

theorem scrub_spec {n : ℕ} (ho : m.Owns ((p, .bytes b) :: rest)) (hn : n ≤ b.length) :
    ∃ m', scrub m p n = some m' ∧
      m'.Owns ((p, .bytes (List.replicate n 0 ++ b.drop n)) :: rest) ∧ m'.freed = m.freed := by
  have hroom : 0 + (List.replicate n (0 : UInt8)).length ≤ b.length := by
    rw [List.length_replicate, zero_add]
    exact hn
  obtain ⟨m', hstore, ho', hfreed⟩ := store_spec 0 (List.replicate n 0) ho hroom
  rw [List.length_replicate, zero_add, List.take_zero, List.nil_append] at ho'
  exact ⟨m', hstore, ho', hfreed⟩

/-- A block of the length of the string and its NUL holds both. -/
theorem copyString_spec {found : List UInt8} (ho : m.Owns ((p, .bytes found) :: rest))
    (hlen : found.length = b.length + 1) :
    ∃ m', copyString m p b = some m' ∧ m'.Owns ((p, .bytes (b ++ [0])) :: rest) ∧
      m'.freed = m.freed := by
  obtain ⟨m₁, hstore, ho₁, hfreed₁⟩ := store_spec 0 b ho (by omega)
  rw [List.take_zero, List.nil_append, zero_add] at ho₁
  have hroom : b.length + [(0 : UInt8)].length ≤ (b ++ found.drop b.length).length := by
    rw [List.length_append, List.length_drop, List.length_singleton]
    omega
  obtain ⟨m', hnul, ho', hfreed'⟩ := store_spec b.length [0] ho₁ hroom
  have hall : (b ++ found.drop b.length).drop (b.length + [(0 : UInt8)].length) = [] := by
    rw [List.drop_eq_nil_iff, List.length_append, List.length_drop, List.length_singleton]
    omega
  rw [List.take_left, hall, List.append_nil] at ho'
  refine ⟨m', ?_, ho', hfreed'.trans hfreed₁⟩
  rw [copyString, hstore]
  exact hnul

/-- A block that is overwritten as far as it has other bytes than zero, and freed. -/
theorem scrub_free {n : ℕ} (ho : m.Owns ((p, .bytes b) :: rest)) (hn : n ≤ b.length)
    (hzero : ∀ x ∈ b.drop n, x = 0) :
    ∃ m₁ m', scrub m p n = some m₁ ∧ m₁.free p = some m' ∧ m'.Owns rest ∧
      Heap.Frees Scrubbed m m' := by
  obtain ⟨m₁, hscrub, ho₁, hfreed₁⟩ := scrub_spec ho hn
  obtain ⟨m', hfree, ho', hfreed⟩ := ho₁.free
  refine ⟨m₁, m', hscrub, hfree, ho', .one (hfreed.trans (by rw [hfreed₁])) ?_⟩
  intro x hx
  obtain hx | hx := List.mem_append.mp hx
  · exact List.eq_of_mem_replicate hx
  · exact hzero x hx

/-- **A secret is copied out of a buffer with room to spare, and the buffer burnt.** -/
theorem Secret.new_spec (ho : m.Owns ((p, .bytes b) :: rest)) (len : ℕ) :
    ∃ q m', Secret.new m p len = some (q, m') ∧ m'.Owns ((q, .bytes (b.take len)) :: rest) ∧
      Heap.Frees Scrubbed m m' := by
  rw [Secret.new, readBytes_of_owns ho List.mem_cons_self]
  show ∃ q m', (if b.length = len then some (p, m) else _) = _ ∧ _
  by_cases hexact : b.length = len
  · refine ⟨p, m, if_pos hexact, ?_, .of_eq rfl⟩
    rw [← hexact, List.take_length]
    exact ho
  · have ho₁ := (ho.alloc (.bytes (b.take len))).perm (List.Perm.swap _ _ _)
    obtain ⟨m₁, m', hscrub, hfree, ho', hfrees⟩ := scrub_free ho₁ le_rfl (by
      rw [List.drop_length]
      exact List.forall_mem_nil _)
    refine ⟨m.next, m', ?_, ho', hfrees⟩
    rw [if_neg hexact]
    show ((scrub (m.alloc _).2 p b.length).bind fun m => (m.free p).bind _) = _
    rw [hscrub, Option.bind_some, hfree]
    rfl

theorem Secret.drop_spec (ho : m.Owns ((p, .bytes b) :: rest)) :
    ∃ m', Secret.drop m p = some m' ∧ m'.Owns rest ∧ Heap.Frees Scrubbed m m' := by
  obtain ⟨m₁, m', hscrub, hfree, ho', hfrees⟩ := scrub_free ho le_rfl (by
    rw [List.drop_length]
    exact List.forall_mem_nil _)
  refine ⟨m', ?_, ho', hfrees⟩
  rw [Secret.drop, readBytes_of_owns ho List.mem_cons_self]
  show ((scrub m p b.length).bind fun m => m.free p) = _
  rw [hscrub, Option.bind_some, hfree]

/-- **All answers of a round are overwritten and freed.** -/
theorem dropAnswers_spec (as : List (Option Held)) (ho : m.Owns (secretCells as ++ rest)) :
    ∃ m', dropAnswers m (blocks as) = some m' ∧ m'.Owns rest ∧ Heap.Frees Scrubbed m m' := by
  induction as generalizing m with
  | nil => exact ⟨m, rfl, ho, .of_eq rfl⟩
  | cons o as ih =>
    cases o with
    | none => exact ih ho
    | some a =>
      obtain ⟨m₁, hdrop, ho₁, hfrees₁⟩ := Secret.drop_spec (p := a.1) (b := a.2) ho
      obtain ⟨m', hrest, ho', hfrees'⟩ := ih ho₁
      refine ⟨m', ?_, ho', hfrees₁.trans hfrees'⟩
      show ((Secret.drop m a.1).bind fun m => dropAnswers m (blocks as)) = _
      rw [hdrop, Option.bind_some, hrest]

/-! ### Freeing responses -/

theorem readString_spec {l : List (ℕ × Cell)} (ho : m.Owns l)
    (hmem : (p, .bytes (b ++ [0])) ∈ l) (h : (0 : UInt8) ∉ b) : readString m p = some b := by
  rw [readString, readBytes_of_owns ho hmem]
  show (if (0 : UInt8) ∈ b ++ [0] then some _ else none) = _
  rw [if_pos (List.mem_append_right _ (List.mem_singleton_self _)), takeWhile_string h]

theorem strlen_spec (ho : m.Owns ((p, .bytes (b ++ [0])) :: rest)) (h : (0 : UInt8) ∉ b) :
    strlen m p = some b.length := by
  rw [strlen, readString_spec ho List.mem_cons_self h]
  rfl

theorem freeStrings_spec (f : List (Option Held)) (hf : NoNul f)
    (ho : m.Owns (stringCells f ++ rest)) :
    ∃ m', freeStrings m (resps f) = some m' ∧ m'.Owns rest ∧ Heap.Frees Scrubbed m m' := by
  induction f generalizing m with
  | nil => exact ⟨m, rfl, ho, .of_eq rfl⟩
  | cons o f ih =>
    have hf' : NoNul f := fun p b hmem => hf p b (List.mem_cons_of_mem _ hmem)
    cases o with
    | none => exact ih hf' ho
    | some a =>
      have hnul : (0 : UInt8) ∉ a.2 := hf a.1 a.2 List.mem_cons_self
      have ho₀ : m.Owns ((a.1, .bytes (a.2 ++ [0])) :: (stringCells f ++ rest)) := ho
      -- the length of the string is all of the block but its NUL
      have hlen : a.2.length ≤ (a.2 ++ [0]).length := by
        rw [List.length_append]
        omega
      obtain ⟨m₁, m₂, hscrub, hfree, ho₂, hfrees₂⟩ := scrub_free ho₀ hlen (by
        rw [List.drop_left]
        exact List.forall_mem_singleton.mpr rfl)
      obtain ⟨m', hrest, ho', hfrees'⟩ := ih hf' ho₂
      refine ⟨m', ?_, ho', hfrees₂.trans hfrees'⟩
      show ((strlen m a.1).bind fun n => (scrub m a.1 n).bind fun m =>
        (m.free a.1).bind fun m => freeStrings m (resps f)) = _
      rw [strlen_spec ho₀ hnul, Option.bind_some, hscrub, Option.bind_some, hfree,
        Option.bind_some, hrest]

/-- **An array that is not handed over is freed with all its strings, which are overwritten
before.** -/
theorem freeResponses_spec {array count : ℕ} (f : List (Option Held)) (hf : NoNul f)
    (hcount : f.length = count) (ho : m.Owns (arrayCells array f ++ rest)) :
    ∃ m', freeResponses m array count = some m' ∧ m'.Owns rest ∧ Heap.Frees Scrubbed m m' := by
  have harray := readArray_of_owns ho (List.mem_cons_self)
  have ho₀ : m.Owns (stringCells f ++ ((array, .array (resps f)) :: rest)) :=
    ho.perm (List.perm_middle.symm)
  obtain ⟨m₁, hstrings, ho₁, hfrees₁⟩ := freeStrings_spec f hf ho₀
  obtain ⟨m', hfree, ho', hfreed⟩ := ho₁.free
  refine ⟨m', ?_, ho', hfrees₁.trans (.one hfreed trivial)⟩
  have hlen : (resps f).length = count := (List.length_map _).trans hcount
  rw [freeResponses, harray]
  show (if count ≤ (resps f).length then
    (freeStrings m ((resps f).take count)).bind fun m => m.free array else none) = _
  rw [if_pos hlen.ge, ← hlen, List.take_length, hstrings, Option.bind_some, hfree]

/-! ### One round -/

/-- The next response of an array is filled in. -/
theorem modify_resps (done f : List (Option Held)) (buf : ℕ) (b : List UInt8) :
    (resps (done ++ none :: f)).modify done.length (fun r => { r with resp := some buf }) =
      resps (done ++ [some (buf, b)] ++ f) := by
  induction done with
  | nil => rfl
  | cons o done ih =>
    show (_ :: resps (done ++ none :: f)).modify (done.length + 1) _ = _
    rw [List.modify_succ_cons, ih]
    rfl

/-- The pointer of a response is filled in. -/
theorem setResp_spec {array : ℕ} (buf : ℕ) (done f : List (Option Held)) (b : List UInt8)
    (ho : m.Owns ((array, .array (resps (done ++ none :: f))) :: rest)) :
    ∃ m', setResp m array done.length buf = some m' ∧
      m'.Owns ((array, .array (resps (done ++ [some (buf, b)] ++ f))) :: rest) ∧
      m'.freed = m.freed := by
  have hsize : Cell.size (.array (resps (done ++ [some (buf, b)] ++ f))) =
      Cell.size (.array (resps (done ++ none :: f))) := by
    simp only [Cell.size, resps, List.length_map, List.length_append, List.length_cons,
      List.length_nil]
    omega
  have hlt : done.length < (resps (done ++ none :: f)).length := by
    rw [resps, List.length_map, List.length_append, List.length_cons]
    omega
  obtain ⟨m', hwrite, ho', hfreed⟩ := ho.write hsize
  refine ⟨m', ?_, ho', hfreed⟩
  rw [setResp, readArray_of_owns ho List.mem_cons_self]
  show (if done.length < (resps (done ++ none :: f)).length then _ else none) = _
  rw [if_pos hlt, modify_resps done f buf b, hwrite]

theorem stringCells_append (f g : List (Option Held)) :
    stringCells (f ++ g) = stringCells f ++ stringCells g := List.filterMap_append

theorem stringCells_replicate (n : ℕ) : stringCells (List.replicate n none) = [] := by
  induction n with
  | zero => rfl
  | succ n ih => exact ih

/-- One more string. -/
theorem stringCells_next (done : List (Option Held)) (q n : ℕ) (b : List UInt8) :
    ((q, .bytes (b ++ [0])) :: stringCells (done ++ List.replicate (n + 1) none)).Perm
      (stringCells (done ++ [some (q, b)] ++ List.replicate n none)) := by
  rw [stringCells_append, stringCells_append, stringCells_append, stringCells_replicate,
    stringCells_replicate, List.append_nil, List.append_nil]
  exact (List.perm_append_singleton _ _).symm

/-- One more of the array is done. -/
theorem texts_next {done as : List (Option Held)} {o o' : Option Held}
    (h : o'.map Prod.snd = o.map Prod.snd) :
    texts (done ++ [o'] ++ as) = texts (done ++ o :: as) := by
  simp only [texts, List.map_append, List.map_cons, h, List.append_assoc, List.singleton_append]

theorem responses_next (done : List (Option Held)) (o : Option Held) (n : ℕ) :
    (texts (done ++ [o])).map toResponse ++ List.replicate n Conv.Response.zeroed =
      (texts done).map toResponse ++
        toResponse (o.map Prod.snd) :: List.replicate n Conv.Response.zeroed := by
  simp only [texts, List.map_append, List.map_cons, List.map_nil, List.append_assoc,
    List.singleton_append]

theorem noNul_next {done : List (Option Held)} (hdone : NoNul done) {p : ℕ} {b : List UInt8}
    (hb : (0 : UInt8) ∉ b) : NoNul (done ++ [some (p, b)]) := by
  intro q c hmem
  obtain hmem | hmem := List.mem_append.mp hmem
  · exact hdone q c hmem
  · cases List.mem_singleton.mp hmem
    exact hb

theorem noNul_none {done : List (Option Held)} (hdone : NoNul done) (n : ℕ) :
    NoNul (done ++ List.replicate n none) := by
  intro q c hmem
  obtain hmem | hmem := List.mem_append.mp hmem
  · exact hdone q c hmem
  · cases List.eq_of_mem_replicate hmem

/-- The value-level loop stores a response. -/
theorem set_responses (done : List (Option Held)) (p n : ℕ) (b : List UInt8) :
    ((texts done).map toResponse ++ List.replicate (n + 1) Conv.Response.zeroed).set done.length
      ⟨some (b ++ [0]), 0⟩ =
        (texts (done ++ [some (p, b)])).map toResponse ++
          List.replicate n Conv.Response.zeroed := by
  have hlen : ((texts done).map toResponse).length = done.length := by
    rw [List.length_map, texts, List.length_map]
  rw [responses_next, List.set_append, hlen, if_neg (lt_irrefl _), Nat.sub_self,
    List.replicate_succ, List.set_cons_zero]
  rfl

/-- How a round ends: with an error, and all it has built is gone, or with an array that holds
the answers. -/
def RoundEnds (rest : List (ℕ × Cell)) (texts : List (Option (List UInt8)))
    (spec : Except Error (List Conv.Response)) (r : Except Error ℕ) (m' : Memory) : Prop :=
  (∃ e, spec = .error e ∧ r = .error e ∧ m'.Owns rest) ∨
  ∃ array f, spec = .ok (texts.map toResponse) ∧ r = .ok array ∧ Secrets.texts f = texts ∧
    NoNul f ∧ m'.Owns (arrayCells array f ++ rest)

section Loop

variable {alloc : ℕ → Bool} {junk : Junk} {array count i : ℕ} {answers : List (Option ℕ)}

theorem fillResponses_nul (hread : readBytes m p = some b) (hb : (0 : UInt8) ∈ b) :
    fillResponses alloc junk m array count i (some p :: answers) =
      (freeResponses m array count).bind fun m => some (.error .nulByte, m) := by
  rw [fillResponses, hread]
  exact if_pos hb

theorem fillResponses_full (hread : readBytes m p = some b) (hb : (0 : UInt8) ∉ b)
    (hfull : alloc (i + 1) = false) :
    fillResponses alloc junk m array count i (some p :: answers) =
      (freeResponses m array count).bind fun m => some (.error (.pam pamBufErr), m) := by
  rw [fillResponses, hread]
  refine (if_neg hb).trans ?_
  rw [hfull]
  rfl

/-- An answer is stored: its string is written, and then the pointer to it. -/
theorem fillResponses_next (junk : Junk) (count : ℕ) (answers : List (Option ℕ))
    {done : List (Option Held)} {n : ℕ} (hread : readBytes m p = some b)
    (hb : (0 : UInt8) ∉ b) (hroom : alloc (done.length + 1) = true)
    (ho : m.Owns (arrayCells array (done ++ List.replicate (n + 1) none) ++ rest)) :
    ∃ m', fillResponses alloc junk m array count done.length (some p :: answers) =
        fillResponses alloc junk m' array count (done.length + 1) answers ∧
      m'.Owns (arrayCells array (done ++ [some (m.next, b)] ++ List.replicate n none) ++ rest) ∧
      m'.freed = m.freed := by
  obtain ⟨m₁, hcopy, ho₁, hfreed₁⟩ := copyString_spec
    (ho.alloc (.bytes (junk.bytes (b.length + 1)))) (junk.length _)
  have harray := ho₁.perm (List.Perm.swap _ _ _)
  rw [List.replicate_succ] at harray
  obtain ⟨m₂, hset, ho₂, hfreed₂⟩ :=
    setResp_spec m.next done (List.replicate n none) b harray
  refine ⟨m₂, ?_, ?_, hfreed₂.trans hfreed₁⟩
  · rw [fillResponses, hread]
    refine (if_neg hb).trans ?_
    rw [hroom]
    show ((copyString (m.alloc _).2 m.next b).bind fun m₁ =>
      (setResp m₁ array done.length m.next).bind fun m₂ =>
        fillResponses alloc junk m₂ array count (done.length + 1) answers) = _
    rw [hcopy, Option.bind_some, hset, Option.bind_some]
  · exact ho₂.perm (((stringCells_next done m.next n b).append_right rest).cons _)

end Loop

/-- The value-level loop goes on behind an answer that it has stored. -/
theorem conv_fillResponses_next {alloc : ℕ → Bool} {done as : List (Option Held)}
    (q : ℕ) (hb : (0 : UInt8) ∉ b) (hroom : alloc (done.length + 1) = true) :
    Conv.fillResponses alloc ((texts done).map toResponse ++
        List.replicate (as.length + 1) .zeroed) done.length (some b :: texts as) =
      Conv.fillResponses alloc ((texts (done ++ [some (q, b)])).map toResponse ++
        List.replicate as.length .zeroed) (done.length + 1) (texts as) := by
  rw [Conv.fillResponses, if_neg hb, if_pos hroom, set_responses]

theorem length_next {done as : List (Option Held)} {o : Option Held} {count : ℕ}
    (h : done.length + (o :: as).length = count) (o' : Option Held) :
    (done ++ [o']).length + as.length = count := by
  rw [← h, List.length_append, List.length_singleton, List.length_cons]
  omega

/-- The loop, when some of the array is filled. -/
theorem fillResponses_spec (alloc : ℕ → Bool) (junk : Junk) {array count : ℕ}
    (as done : List (Option Held)) (hcount : done.length + as.length = count)
    (hdone : NoNul done)
    (hsecrets : ∀ p b, some (p, b) ∈ as → (p, .bytes b) ∈ rest)
    (ho : m.Owns (arrayCells array (done ++ List.replicate as.length none) ++ rest)) :
    ∃ r m', fillResponses alloc junk m array count done.length (blocks as) = some (r, m') ∧
      Heap.Frees Scrubbed m m' ∧
      RoundEnds rest (texts (done ++ as))
        (Conv.fillResponses alloc ((texts done).map toResponse ++
          List.replicate as.length .zeroed) done.length (texts as)) r m' := by
  induction as generalizing m done with
  | nil =>
    rw [List.length_nil, List.replicate_zero, List.append_nil] at ho
    refine ⟨.ok array, m, rfl, .of_eq rfl, .inr ⟨array, done, ?_, rfl, ?_, hdone, ho⟩⟩
    · rw [List.append_nil, List.length_nil, List.replicate_zero, List.append_nil]
      rfl
    · rw [List.append_nil]
  | cons o as ih =>
    have hsecrets' : ∀ p b, some (p, b) ∈ as → (p, .bytes b) ∈ rest :=
      fun p b hmem => hsecrets p b (List.mem_cons_of_mem _ hmem)
    cases o with
    | none =>
      have hnext : done ++ List.replicate (as.length + 1) none =
          done ++ [none] ++ List.replicate as.length none := by
        rw [List.replicate_succ, List.append_assoc, List.singleton_append]
      obtain ⟨r, m', hfill, hfrees, hends⟩ := ih (done ++ [none]) (length_next hcount none)
        (noNul_none hdone 1) hsecrets' (hnext ▸ ho)
      rw [List.length_append, List.length_singleton] at hfill hends
      rw [texts_next rfl, responses_next] at hends
      exact ⟨r, m', hfill, hfrees, hends⟩
    | some a =>
      obtain ⟨p, b⟩ := a
      have hread : readBytes m p = some b :=
        readBytes_of_owns ho (List.mem_append_right _ (hsecrets p b List.mem_cons_self))
      have hfree : ∃ m', freeResponses m array count = some m' ∧ m'.Owns rest ∧
          Heap.Frees Scrubbed m m' := by
        refine freeResponses_spec _ (noNul_none hdone _) ?_ ho
        rw [List.length_append, List.length_replicate]
        exact hcount
      by_cases hb : (0 : UInt8) ∈ b
      · obtain ⟨m', hfree, ho', hfrees⟩ := hfree
        refine ⟨.error .nulByte, m', ?_, hfrees, .inl ⟨.nulByte, if_pos hb, rfl, ho'⟩⟩
        exact (fillResponses_nul hread hb).trans (by rw [hfree, Option.bind_some])
      · cases hroom : alloc (done.length + 1) with
        | false =>
          obtain ⟨m', hfree, ho', hfrees⟩ := hfree
          refine ⟨.error (.pam pamBufErr), m', ?_, hfrees, .inl ⟨.pam pamBufErr, ?_, rfl, ho'⟩⟩
          · exact (fillResponses_full hread hb hroom).trans (by rw [hfree, Option.bind_some])
          · refine (if_neg hb).trans ?_
            rw [hroom]
            rfl
        | true =>
          obtain ⟨m₁, hnext, ho₁, hfreed⟩ :=
            fillResponses_next junk count (blocks as) hread hb hroom ho
          obtain ⟨r, m', hfill, hfrees, hends⟩ := ih (done ++ [some (m.next, b)])
            (length_next hcount _) (noNul_next hdone hb) hsecrets' ho₁
          rw [List.length_append, List.length_singleton] at hfill hends
          have htexts : texts (done ++ [some (m.next, b)] ++ as) =
              texts (done ++ some (p, b) :: as) := texts_next rfl
          rw [htexts, ← conv_fillResponses_next m.next hb hroom] at hends
          exact ⟨r, m', hnext.trans hfill, Heap.Frees.trans (.of_eq hfreed) hfrees, hends⟩

/-- **The array that is built in memory is that of `Conv.responsesToC`**, and there is none,
and nothing is left, where that fails. -/
theorem responsesToC_spec (alloc : ℕ → Bool) (junk : Junk) (as : List (Option Held))
    (hsecrets : ∀ p b, some (p, b) ∈ as → (p, .bytes b) ∈ rest) (ho : m.Owns rest) :
    ∃ r m', responsesToC alloc junk m (blocks as) = some (r, m') ∧ Heap.Frees Scrubbed m m' ∧
      RoundEnds rest (texts as) (Conv.responsesToC alloc (texts as)) r m' := by
  have hlen : (blocks as).length = as.length := List.length_map _
  have hlen' : (texts as).length = as.length := List.length_map _
  rw [responsesToC, Conv.responsesToC, hlen, hlen']
  cases halloc : alloc 0 with
  | false =>
    exact ⟨.error (.pam pamBufErr), m, rfl, .of_eq rfl, .inl ⟨_, rfl, rfl, ho⟩⟩
  | true =>
    have hcells : arrayCells m.next ([] ++ List.replicate as.length none) ++ rest =
        (m.next, .array (List.replicate as.length Resp.zeroed)) :: rest := by
      rw [List.nil_append, arrayCells, stringCells_replicate, resps, List.map_replicate]
      rfl
    have ho₀ := ho.alloc (.array (List.replicate as.length Resp.zeroed))
    rw [← hcells] at ho₀
    obtain ⟨r, m', hfill, hfrees, hends⟩ := fillResponses_spec alloc junk as [] (zero_add _)
      (fun p b hmem => absurd hmem List.not_mem_nil) hsecrets ho₀
    exact ⟨r, m', hfill, hfrees, hends⟩

/-- What a round returns, by the answers alone. -/
def answerSpec (alloc : ℕ → Bool) (count : ℕ) (texts : List (Option (List UInt8))) :
    Except Error (List Conv.Response) :=
  if texts.length ≠ count then .error (.pam pamConvErr) else Conv.responsesToC alloc texts

theorem mem_secretCells {as : List (Option Held)} (h : some (p, b) ∈ as) :
    (p, .bytes b) ∈ secretCells as := List.mem_filterMap.mpr ⟨some (p, b), h, rfl⟩

/-- **One round**: its answers are overwritten and freed, and what it leaves is what it hands
over. -/
theorem answer_spec (alloc : ℕ → Bool) (junk : Junk) (count : ℕ)
    (as : List (Option Held)) (ho : m.Owns (secretCells as ++ rest)) :
    ∃ r m', answer alloc junk m count (blocks as) = some (r, m') ∧ Heap.Frees Scrubbed m m' ∧
      RoundEnds rest (texts as) (answerSpec alloc count (texts as)) r m' := by
  have hround : ∃ r m₁, marshal alloc junk m count (blocks as) = some (r, m₁) ∧
      Heap.Frees Scrubbed m m₁ ∧
      RoundEnds (secretCells as ++ rest) (texts as) (answerSpec alloc count (texts as)) r m₁ := by
    have hlen : (texts as).length = (blocks as).length := by
      rw [texts, blocks, List.length_map, List.length_map]
    rw [marshal, answerSpec, hlen]
    by_cases hcount : (blocks as).length ≠ count
    · rw [if_pos hcount, if_pos hcount]
      exact ⟨_, m, rfl, .of_eq rfl, .inl ⟨_, rfl, rfl, ho⟩⟩
    · rw [if_neg hcount, if_neg hcount]
      refine responsesToC_spec alloc junk as ?_ ho
      exact fun p b hmem => List.mem_append_left _ (mem_secretCells hmem)
  obtain ⟨r, m₁, hround, hfrees₁, hends⟩ := hround
  have hanswer : answer alloc junk m count (blocks as) =
      (dropAnswers m₁ (blocks as)).bind fun m => some (r, m) := by
    rw [answer, hround]
    rfl
  obtain ⟨e, hspec, hr, ho₁⟩ | ⟨array, f, hspec, hr, hf, hnul, ho₁⟩ := hends
  · obtain ⟨m', hdrop, ho', hfrees'⟩ := dropAnswers_spec as ho₁
    refine ⟨r, m', ?_, hfrees₁.trans hfrees', .inl ⟨e, hspec, hr, ho'⟩⟩
    rw [hanswer, hdrop, Option.bind_some]
  · -- the answers are dropped while the array is there
    have hperm : (arrayCells array f ++ (secretCells as ++ rest)).Perm
        (secretCells as ++ (arrayCells array f ++ rest)) := by
      rw [← List.append_assoc, ← List.append_assoc]
      exact List.perm_append_comm.append_right rest
    obtain ⟨m', hdrop, ho', hfrees'⟩ := dropAnswers_spec as (ho₁.perm hperm)
    refine ⟨r, m', ?_, hfrees₁.trans hfrees', .inr ⟨array, f, hspec, hr, hf, hnul, ho'⟩⟩
    rw [hanswer, hdrop, Option.bind_some]

end Specs

/-! ### The module's side -/

section Module

variable {m : Memory} {l rest : List (ℕ × Cell)} {array : ℕ}

theorem readStrings_spec (f : List (Option Held)) (hf : NoNul f) (ho : m.Owns l)
    (hmem : ∀ x ∈ stringCells f, x ∈ l) : readStrings m (resps f) = some (texts f) := by
  induction f with
  | nil => rfl
  | cons o f ih =>
    have hf' : NoNul f := fun p b hmem => hf p b (List.mem_cons_of_mem _ hmem)
    cases o with
    | none =>
      show ((readStrings m (resps f)).bind fun strings => some (none :: strings)) = _
      rw [ih hf' hmem]
      rfl
    | some a =>
      obtain ⟨hhead, htail⟩ := List.forall_mem_cons.mp hmem
      show ((readString m a.1).bind fun string => (readStrings m (resps f)).bind fun strings =>
        some (some string :: strings)) = _
      rw [readString_spec ho hhead (hf a.1 a.2 List.mem_cons_self), ih hf' htail,
        Option.bind_some, Option.bind_some]
      rfl

/-- **A module reads in its array what was answered.** -/
theorem moduleReads_spec (f : List (Option Held)) (hf : NoNul f) (ho : m.Owns l)
    (hmem : ∀ x ∈ arrayCells array f, x ∈ l) : moduleReads m array = some (texts f) := by
  obtain ⟨hhead, htail⟩ := List.forall_mem_cons.mp hmem
  rw [moduleReads, readArray_of_owns ho hhead]
  exact readStrings_spec f hf ho htail

theorem releaseStrings_spec (f : List (Option Held)) (ho : m.Owns (stringCells f ++ rest)) :
    ∃ m', releaseStrings m (resps f) = some m' ∧ m'.Owns rest ∧ m'.freed = m.freed := by
  induction f generalizing m with
  | nil => exact ⟨m, rfl, ho, rfl⟩
  | cons o f ih =>
    cases o with
    | none => exact ih ho
    | some a =>
      have ho₀ : m.Owns ((a.1, .bytes (a.2 ++ [0])) :: (stringCells f ++ rest)) := ho
      obtain ⟨m₁, hrelease, ho₁, hfreed₁⟩ := ho₀.release
      obtain ⟨m', hrest, ho', hfreed'⟩ := ih ho₁
      refine ⟨m', ?_, ho', hfreed'.trans hfreed₁⟩
      show ((m.release a.1).bind fun m => releaseStrings m (resps f)) = _
      rw [hrelease, Option.bind_some, hrest]

theorem moduleFrees_spec (f : List (Option Held)) (ho : m.Owns (arrayCells array f ++ rest)) :
    ∃ m', moduleFrees m array = some m' ∧ m'.Owns rest ∧ m'.freed = m.freed := by
  have harray := readArray_of_owns ho List.mem_cons_self
  have ho₀ : m.Owns (stringCells f ++ ((array, .array (resps f)) :: rest)) :=
    ho.perm List.perm_middle.symm
  obtain ⟨m₁, hstrings, ho₁, hfreed₁⟩ := releaseStrings_spec f ho₀
  obtain ⟨m', hrelease, ho', hfreed'⟩ := ho₁.release
  refine ⟨m', ?_, ho', hfreed'.trans hfreed₁⟩
  rw [moduleFrees, harray]
  show ((releaseStrings m (resps f)).bind fun m => m.release array) = _
  rw [hstrings, Option.bind_some, hrelease]

end Module

/-! ### Runs -/

/-- A round that was made: what it was given, and what it returned. -/
structure Round where
  alloc : ℕ → Bool
  count : ℕ
  texts : List (Option (List UInt8))
  result : Except Error ℕ

/-- The memory, the secrets that the application has, and the arrays that modules have, with
what was answered in them. -/
structure State where
  memory : Memory
  secrets : List ℕ
  handed : List (ℕ × List (Option (List UInt8)))
  rounds : List Round
  faulted : Bool

/-- What happens. -/
inductive Event where
  /-- The application makes a secret of the first `len` bytes of a buffer. -/
  | make (content : List UInt8) (len : ℕ)
  /-- It drops one. -/
  | discard (p : ℕ)
  /-- It answers a round of messages, and gives its secrets away. -/
  | round (count : ℕ) (answers : List (Option ℕ)) (alloc : ℕ → Bool) (junk : Junk)
  /-- A module frees an array. -/
  | moduleFrees (array : ℕ)

namespace State

/-- A function of the model has run, or has faulted. -/
def settle {α : Type} (s : State) (k : α → State) : Option α → Option State
  | none => some { s with faulted := true }
  | some a => some (k a)

/-- The secrets but for these. -/
def without (s : State) (ids : List ℕ) : List ℕ := s.secrets.filter fun p => p ∉ ids

/-- A round has returned. -/
def returned (s : State) (alloc : ℕ → Bool) (count : ℕ) (answers : List (Option ℕ))
    (r : Except Error ℕ × Memory) : State :=
  let texts := answers.map fun o => o.bind (readBytes s.memory)
  { s with
    memory := r.2
    secrets := s.without answers.reduceOption
    handed := match r.1 with
      | .ok array => s.handed ++ [(array, texts)]
      | .error _ => s.handed
    rounds := s.rounds ++ [⟨alloc, count, texts, r.1⟩] }

/-- What an event does. -/
def step (s : State) : Event → Option State
  | .make content len =>
    if len ≤ content.length then
      s.settle (fun r : ℕ × Memory => { s with memory := r.2, secrets := r.1 :: s.secrets })
        (Secret.new (s.memory.alloc (.bytes content)).2 (s.memory.alloc (.bytes content)).1 len)
    else none
  | .discard p =>
    if p ∈ s.secrets then
      s.settle (fun m => { s with memory := m, secrets := s.without [p] }) (Secret.drop s.memory p)
    else none
  | .round count answers alloc junk =>
    if answers.reduceOption.Nodup ∧ ∀ p ∈ answers.reduceOption, p ∈ s.secrets then
      s.settle (s.returned alloc count answers) (answer alloc junk s.memory count answers)
    else none
  | .moduleFrees array =>
    if array ∈ s.handed.map Prod.fst then
      s.settle (fun m => { s with memory := m, handed := s.handed.filter fun a => a.1 ≠ array })
        (moduleFrees s.memory array)
    else none

end State

/-- The runs, from an empty memory. -/
def system : System State Event where
  init := ⟨.empty, [], [], [], false⟩
  step := State.step

/-! ### What holds all along -/

/-- The block of a secret. -/
def cell (a : Held) : ℕ × Cell := (a.1, .bytes a.2)

/-- The round returned what the answers say. -/
def Round.Agrees (x : Round) : Prop :=
  match x.result with
  | .ok _ => answerSpec x.alloc x.count x.texts = .ok (x.texts.map toResponse)
  | .error e => answerSpec x.alloc x.count x.texts = .error e

/-- The memory is divided between the secrets and the arrays. -/
structure Parts (s : State) (own : List Held) (fills : List (ℕ × List (Option Held))) : Prop where
  secrets : s.secrets = own.map Prod.fst
  handed : s.handed = fills.map fun x => (x.1, texts x.2)
  noNul : ∀ x ∈ fills, NoNul x.2
  owns : s.memory.Owns (own.map cell ++ fills.flatMap fun x => arrayCells x.1 x.2)

/-- The invariant. -/
structure Inv (s : State) : Prop where
  safe : s.faulted = false
  scrubbed : ∀ v ∈ s.memory.freed, Scrubbed v
  rounds : ∀ x ∈ s.rounds, x.Agrees
  parts : ∃ own fills, Parts s own fills

section Runs

variable {s : State} {own : List Held} {fills : List (ℕ × List (Option Held))}

theorem secretCells_eq (as : List (Option Held)) : secretCells as = as.reduceOption.map cell := by
  induction as with
  | nil => rfl
  | cons o as ih =>
    cases o with
    | none => exact ih
    | some a => exact congrArg (cell a :: ·) ih

/-- Some entries of a list with keys, and the others. -/
theorem perm_divide {β : Type} {l taken : List (ℕ × β)} (hkeys : (l.map Prod.fst).Nodup)
    (hmem : ∀ a ∈ taken, a ∈ l) (hnodup : (taken.map Prod.fst).Nodup) :
    l.Perm (taken ++ l.filter fun a => a.1 ∉ taken.map Prod.fst) := by
  have hinj : ∀ a ∈ l, ∀ a' ∈ l, a.1 = a'.1 → a = a' :=
    fun a ha a' ha' => List.inj_on_of_nodup_map hkeys ha ha'
  refine (List.perm_ext_iff_of_nodup hkeys.of_map ?_).mpr ?_
  · refine List.nodup_append'.mpr ⟨hnodup.of_map, hkeys.of_map.filter _, ?_⟩
    intro a ha hrest
    have hnot := (List.mem_filter.mp hrest).2
    exact of_decide_eq_true hnot (List.mem_map_of_mem ha)
  · intro a
    rw [List.mem_append, List.mem_filter]
    constructor
    · intro ha
      by_cases hkey : a.1 ∈ taken.map Prod.fst
      · obtain ⟨a', ha', heq⟩ := List.mem_map.mp hkey
        rw [← hinj a' (hmem a' ha') a ha heq]
        exact .inl ha'
      · exact .inr ⟨ha, decide_eq_true hkey⟩
    · rintro (ha | ha)
      · exact hmem a ha
      · exact ha.1

theorem Parts.keys (h : Parts s own fills) : (own.map Prod.fst).Nodup := by
  have hnodup := h.owns.nodup
  rw [List.map_append, List.map_map] at hnodup
  exact (List.nodup_append'.mp hnodup).1

/-- Some of the secrets are divided from the rest. -/
theorem Parts.divide (h : Parts s own fills) (as : List (Option Held))
    (hmem : ∀ a ∈ as.reduceOption, a ∈ own) (hnodup : (as.reduceOption.map Prod.fst).Nodup) :
    ∃ own' : List Held, s.without (as.reduceOption.map Prod.fst) = own'.map Prod.fst ∧
      s.memory.Owns (secretCells as ++
        (own'.map cell ++ fills.flatMap fun x => arrayCells x.1 x.2)) := by
  refine ⟨own.filter fun a => a.1 ∉ as.reduceOption.map Prod.fst, ?_, ?_⟩
  · rw [State.without, h.secrets, List.filter_map]
    rfl
  · refine h.owns.perm ?_
    rw [secretCells_eq, ← List.append_assoc, ← List.map_append]
    exact ((perm_divide h.keys hmem hnodup).map cell).append_right _

/-- The secrets that are given away, with what is in them. -/
theorem exists_held {answers : List (Option ℕ)}
    (h : ∀ p ∈ answers.reduceOption, p ∈ own.map Prod.fst) :
    ∃ as : List (Option Held), blocks as = answers ∧ ∀ a ∈ as.reduceOption, a ∈ own := by
  induction answers with
  | nil => exact ⟨[], rfl, List.forall_mem_nil _⟩
  | cons o answers ih =>
    cases o with
    | none =>
      obtain ⟨as, hblocks, hmem⟩ := ih h
      exact ⟨none :: as, congrArg (none :: ·) hblocks, hmem⟩
    | some p =>
      obtain ⟨hp, hrest⟩ := List.forall_mem_cons.mp h
      obtain ⟨as, hblocks, hmem⟩ := ih hrest
      obtain ⟨a, ha, rfl⟩ := List.mem_map.mp hp
      exact ⟨some a :: as, congrArg (some a.1 :: ·) hblocks,
        List.forall_mem_cons.mpr ⟨ha, hmem⟩⟩

/-- What is read in the secrets is what is in them. -/
theorem Parts.texts_eq (h : Parts s own fills) {as : List (Option Held)}
    (hmem : ∀ a ∈ as.reduceOption, a ∈ own) :
    (blocks as).map (fun o => o.bind (readBytes s.memory)) = texts as := by
  rw [blocks, texts, List.map_map]
  refine List.map_congr_left ?_
  intro o ho
  cases o with
  | none => rfl
  | some a =>
    have ha : a ∈ own := hmem a (List.reduceOption_mem_iff.mpr ho)
    exact readBytes_of_owns h.owns (List.mem_append_left _ (List.mem_map_of_mem ha))

theorem inv_init : Inv system.init where
  safe := rfl
  scrubbed := List.forall_mem_nil _
  rounds := List.forall_mem_nil _
  parts := ⟨[], [], rfl, rfl, List.forall_mem_nil _, Heap.owns_empty⟩

theorem Inv.make (h : Inv s) (content : List UInt8) (len : ℕ) {s' : State}
    (hstep : s.step (.make content len) = some s') : Inv s' := by
  obtain ⟨own, fills, hparts⟩ := h.parts
  obtain ⟨q, m', hnew, ho', hfrees⟩ := Secret.new_spec (hparts.owns.alloc (.bytes content)) len
  rw [State.step] at hstep
  split at hstep
  · have hnew' : Secret.new (s.memory.alloc (.bytes content)).2
        (s.memory.alloc (.bytes content)).1 len = some (q, m') := hnew
    rw [hnew'] at hstep
    cases hstep
    exact ⟨h.safe, hfrees.all h.scrubbed, h.rounds, (q, content.take len) :: own, fills,
      congrArg (q :: ·) hparts.secrets, hparts.handed, hparts.noNul, ho'⟩
  · cases hstep

theorem Inv.discard (h : Inv s) (p : ℕ) {s' : State} (hstep : s.step (.discard p) = some s') :
    Inv s' := by
  obtain ⟨own, fills, hparts⟩ := h.parts
  rw [State.step] at hstep
  split at hstep
  · next hp =>
    rw [hparts.secrets] at hp
    obtain ⟨a, ha, rfl⟩ := List.mem_map.mp hp
    obtain ⟨own', hwithout, ho⟩ := hparts.divide [some a]
      (List.forall_mem_singleton.mpr ha) (List.nodup_singleton _)
    obtain ⟨m', hdrop, ho', hfrees⟩ := Secret.drop_spec (p := a.1) (b := a.2) ho
    rw [hdrop] at hstep
    cases hstep
    exact ⟨h.safe, hfrees.all h.scrubbed, h.rounds, own', fills, hwithout, hparts.handed,
      hparts.noNul, ho'⟩
  · cases hstep

theorem Inv.round (h : Inv s) (count : ℕ) (answers : List (Option ℕ)) (alloc : ℕ → Bool)
    (junk : Junk) {s' : State}
    (hstep : s.step (.round count answers alloc junk) = some s') : Inv s' := by
  obtain ⟨own, fills, hparts⟩ := h.parts
  rw [State.step] at hstep
  split at hstep
  · next hguard =>
    obtain ⟨hnodup, hsecrets⟩ := hguard
    rw [hparts.secrets] at hsecrets
    obtain ⟨as, rfl, hmem⟩ := exists_held hsecrets
    have hids : (blocks as).reduceOption = as.reduceOption.map Prod.fst := List.reduceOption_map
    rw [hids] at hnodup
    obtain ⟨own', hwithout, ho⟩ := hparts.divide as hmem hnodup
    obtain ⟨r, m', hanswer, hfrees, hends⟩ := answer_spec alloc junk count as ho
    rw [hanswer] at hstep
    cases hstep
    have htexts := hparts.texts_eq hmem
    obtain ⟨e, hspec, rfl, ho'⟩ | ⟨array, f, hspec, rfl, hf, hnul, ho'⟩ := hends
    · refine ⟨h.safe, hfrees.all h.scrubbed, ?_, own', fills, ?_, hparts.handed, hparts.noNul, ho'⟩
      · refine List.forall_mem_append.mpr ⟨h.rounds, List.forall_mem_singleton.mpr ?_⟩
        show answerSpec alloc count ((blocks as).map _) = _
        rw [htexts, hspec]
      · rw [← hwithout, ← hids]
        rfl
    · refine ⟨h.safe, hfrees.all h.scrubbed, ?_, own', fills ++ [(array, f)], ?_, ?_, ?_, ?_⟩
      · refine List.forall_mem_append.mpr ⟨h.rounds, List.forall_mem_singleton.mpr ?_⟩
        show answerSpec alloc count ((blocks as).map _) = .ok (((blocks as).map _).map toResponse)
        rw [htexts, hspec]
      · rw [← hwithout, ← hids]
        rfl
      · show s.handed ++ [(array, (blocks as).map _)] = _
        rw [htexts, hparts.handed, List.map_append, List.map_singleton, hf]
      · exact List.forall_mem_append.mpr ⟨hparts.noNul, List.forall_mem_singleton.mpr hnul⟩
      · refine Heap.Owns.perm ho' ?_
        rw [List.flatMap_append, List.flatMap_singleton]
        exact List.perm_append_comm.trans (by rw [List.append_assoc])
  · cases hstep

/-- The arrays are told apart by their blocks. -/
theorem Parts.arrays (h : Parts s own fills) : (fills.map Prod.fst).Nodup := by
  have hsub : ∀ fills : List (ℕ × List (Option Held)), (fills.map Prod.fst).Sublist
      ((fills.flatMap fun x => arrayCells x.1 x.2).map Prod.fst) := by
    intro fills
    induction fills with
    | nil => exact List.Sublist.refl _
    | cons x fills ih =>
      rw [List.flatMap_cons, List.map_append]
      exact (ih.trans (List.sublist_append_right _ _)).cons_cons x.1
  have hnodup := h.owns.nodup
  rw [List.map_append] at hnodup
  exact (List.nodup_append'.mp hnodup).2.1.sublist (hsub fills)

theorem Inv.moduleFrees (h : Inv s) (array : ℕ) {s' : State}
    (hstep : s.step (.moduleFrees array) = some s') : Inv s' := by
  obtain ⟨own, fills, hparts⟩ := h.parts
  rw [State.step] at hstep
  split at hstep
  · next harray =>
    have hkeys : s.handed.map Prod.fst = fills.map Prod.fst := by
      rw [hparts.handed, List.map_map]
      rfl
    rw [hkeys] at harray
    obtain ⟨x, hx, rfl⟩ := List.mem_map.mp harray
    -- the array is divided from the others, and then gone
    have hothers : (fun y : ℕ × List (Option Held) => decide (y.1 ∉ [x].map Prod.fst)) =
        fun y => decide (y.1 ≠ x.1) := by
      funext y
      simp only [List.map_singleton, List.mem_singleton, ne_eq]
    have hdivide := perm_divide hparts.arrays (List.forall_mem_singleton.mpr hx)
      (List.nodup_singleton _)
    rw [hothers] at hdivide
    have ho := hparts.owns.perm (((hdivide.flatMap_right _).append_left _).trans
      (List.perm_append_comm_assoc _ _ _))
    obtain ⟨m', hfrees, ho', hfreed⟩ := moduleFrees_spec x.2 ho
    rw [hfrees] at hstep
    cases hstep
    refine ⟨h.safe, hfreed ▸ h.scrubbed, h.rounds, own, fills.filter fun y => y.1 ≠ x.1,
      hparts.secrets, ?_, ?_, ho'⟩
    · show s.handed.filter _ = _
      rw [hparts.handed, List.filter_map]
      rfl
    · intro y hy
      exact hparts.noNul y (List.mem_filter.mp hy).1
  · cases hstep

theorem inv_step (e : Event) (s' : State) (h : Inv s) (hstep : system.step s e = some s') :
    Inv s' := by
  cases e with
  | make content len => exact h.make content len hstep
  | discard p => exact h.discard p hstep
  | round count answers alloc junk => exact h.round count answers alloc junk hstep
  | moduleFrees array => exact h.moduleFrees array hstep

theorem inv_reachable (h : system.Reachable s) : Inv s :=
  h.invariant inv_init fun _ e s' => inv_step e s'

/-- The blocks that belong to an array a module has: the array, and what it points at. -/
def Belongs (m : Memory) (array p : ℕ) : Prop :=
  p = array ∨ ∃ rs, readArray m array = some rs ∧ some p ∈ rs.map Resp.resp

/-- What is to hold in every state. -/
structure Exact (s : State) : Prop where
  /-- no access to memory that is not there, and no second `free` -/
  safe : s.faulted = false
  /-- no byte of an answer is left in memory that was freed -/
  scrubbed : ∀ b, Cell.bytes b ∈ s.memory.freed → ∀ x ∈ b, x = 0
  /-- every block is a secret of the application's or belongs to an array of a module's -/
  accounted : ∀ p v, s.memory.live p = some v →
    p ∈ s.secrets ∨ ∃ a ∈ s.handed, Belongs s.memory a.1 p
  /-- a module reads what was answered -/
  delivered : ∀ a ∈ s.handed, moduleReads s.memory a.1 = some a.2
  rounds : ∀ x ∈ s.rounds, x.Agrees

theorem mem_stringCells {f : List (Option Held)} {p : ℕ} {v : Cell}
    (h : (p, v) ∈ stringCells f) : some p ∈ (resps f).map Resp.resp := by
  obtain ⟨o, ho, heq⟩ := List.mem_filterMap.mp h
  obtain ⟨a, rfl, heq⟩ := Option.map_eq_some_iff.mp heq
  cases heq
  rw [resps, List.map_map]
  exact List.mem_map.mpr ⟨some a, ho, rfl⟩

theorem Inv.exact (h : Inv s) : Exact s := by
  obtain ⟨own, fills, hparts⟩ := h.parts
  have hcells : ∀ x ∈ fills, ∀ c ∈ arrayCells x.1 x.2,
      c ∈ own.map cell ++ fills.flatMap fun x => arrayCells x.1 x.2 := by
    intro x hx c hc
    exact List.mem_append_right _ (List.mem_flatMap.mpr ⟨x, hx, hc⟩)
  refine ⟨h.safe, fun b hb => h.scrubbed _ hb, ?_, ?_, h.rounds⟩
  · intro p v hlive
    obtain hown | hfill := List.mem_append.mp ((hparts.owns.live_iff p v).mp hlive)
    · obtain ⟨a, ha, heq⟩ := List.mem_map.mp hown
      cases heq
      rw [hparts.secrets]
      exact .inl (List.mem_map_of_mem ha)
    · obtain ⟨x, hx, hc⟩ := List.mem_flatMap.mp hfill
      refine .inr ⟨(x.1, texts x.2), ?_, ?_⟩
      · rw [hparts.handed]
        exact List.mem_map.mpr ⟨x, hx, rfl⟩
      · obtain heq | hc := List.mem_cons.mp hc
        · cases heq
          exact .inl rfl
        · exact .inr ⟨resps x.2, readArray_of_owns hparts.owns (hcells x hx _ List.mem_cons_self),
            mem_stringCells hc⟩
  · intro a ha
    rw [hparts.handed] at ha
    obtain ⟨x, hx, rfl⟩ := List.mem_map.mp ha
    exact moduleReads_spec x.2 (hparts.noNul x hx) hparts.owns (hcells x hx)

/-- **No answer is left behind**: in every run, whatever is answered, wherever an allocation
fails and whenever a module frees its arrays, nothing faults, what is freed here was
overwritten before, no block is lost, and the modules read what was answered. -/
theorem secrets_scrubbed (h : system.Reachable s) : Exact s := (inv_reachable h).exact

end Runs

/-- A password in a buffer with room to spare, given as the answer to one prompt. -/
def login : List Event :=
  [.make [112, 119, 7] 2,
    .round 1 [some 1] (fun _ => true) ⟨fun n => List.replicate n 7, fun _ => List.length_replicate⟩]

theorem secrets_scrubbed_login :
    ∃ s, system.run system.init login = some s ∧ s.handed = [(2, [some [112, 119]])] ∧
      s.memory.freed.length = 2 ∧ Exact s := by
  have hrun : ∃ s, system.run system.init login = some s ∧
      s.handed = [(2, [some [112, 119]])] ∧ s.memory.freed.length = 2 := ⟨_, rfl, rfl, rfl⟩
  obtain ⟨s, hrun, hhanded, hfreed⟩ := hrun
  exact ⟨s, hrun, hhanded, hfreed, secrets_scrubbed (System.Reachable.init.run hrun)⟩

end Pam.Secrets
