/-
Looking up users and groups (`truenas_nss/src/service.rs`, `pwd.rs`, `grp.rs`).

A module fills in a C struct whose pointers lie in a buffer that the caller brings, and may
ask for a larger one.  The entry is copied out while the buffer lives, and checked: a name
that is null or not UTF-8 is refused.  The lookups over all modules take the first hit in
lookup order and skip a module that is unavailable.

What a module holds is a directory: for each key it has an entry, or none, or fails, and it
takes a buffer of some length to say so.  The directory may change at any time, in the middle
of a lookup as well.

* `extractPasswd`, `extractGroup` — the copies, with `extractPasswd_eq`, `extractGroup_eq`:
  they are the entry, wherever the module laid it in the buffer, and nothing outside of the
  buffer is read;
* `Serves` — that a function of a module answers for one key from the directory;
* `lookupEntry` — one call of a module, with `lookupEntry_eq`: the answer is that of its
  directory at one moment of the call, whatever buffers it took to get it;
* `getpwnam`, `getpwuid`, `getgrnam`, `getgrgid` — the lookups over all modules;
* `Answers`, `FirstHit` — what they are to return.
-/
import RosUtils.CMemory
import RosUtils.NssGroups
import RosUtils.NssRegistry
import RosUtils.Utf8

namespace Nss.Lookup

open CMemory

/-! ### The entries -/

/-- `libc::passwd`, its pointers as addresses. -/
structure CPasswd where
  pwName : ℕ
  pwPasswd : ℕ
  pwUid : UInt32
  pwGid : UInt32
  pwGecos : ℕ
  pwDir : ℕ
  pwShell : ℕ

/-- `libc::group`. -/
structure CGroup where
  grName : ℕ
  grPasswd : ℕ
  grGid : UInt32
  grMem : ℕ

/-- The all-zero struct. -/
def CPasswd.zeroed : CPasswd := ⟨0, 0, 0, 0, 0, 0, 0⟩

/-- The all-zero struct. -/
def CGroup.zeroed : CGroup := ⟨0, 0, 0, 0⟩

/-- `Passwd`. -/
structure Passwd where
  name : List Char
  uid : UInt32
  gid : UInt32
  gecos : List Char
  dir : List Char
  shell : List Char
  source : Source

/-- `Group`. -/
structure Group where
  name : List Char
  gid : UInt32
  members : List (List Char)
  source : Source

/-- `to_string_lossy`, of which only this is known: a text comes back as it is. -/
structure Lossy where
  decode : List UInt8 → List Char
  valid : ∀ cs, decode (Utf8.encode cs) = cs

/-! ### Copying out of the buffer -/

/-- Code that reads the buffer: `none` if it read outside, otherwise a value or an error. -/
abbrev Reading := ExceptT Error Option

/-- `name_field`. -/
def nameField (m : Block) (p : ℕ) : Reading (List Char) :=
  if p = 0 then throw .nullName
  else do
    let s ← (m.cstr p : Option (List UInt8))
    match Utf8.decode s with
    | some name => pure name
    | none => throw .notUtf8

/-- `text_field`. -/
def textField (lossy : Lossy) (m : Block) (p : ℕ) : Reading (List Char) :=
  if p = 0 then pure []
  else do
    let s ← (m.cstr p : Option (List UInt8))
    pure (lossy.decode s)

/-- `extract_passwd`.  The password is not read. -/
def extractPasswd (lossy : Lossy) (m : Block) (pw : CPasswd) (source : Source) :
    Reading Passwd := do
  let name ← nameField m pw.pwName
  let gecos ← textField lossy m pw.pwGecos
  let dir ← textField lossy m pw.pwDir
  let shell ← textField lossy m pw.pwShell
  pure { name, uid := pw.pwUid, gid := pw.pwGid, gecos, dir, shell, source }

/-- `extract_group`.  The password is not read. -/
def extractGroup (m : Block) (gr : CGroup) (source : Source) : Reading Group := do
  let members ← (if gr.grMem = 0 then pure [] else m.walk (nameField m) gr.grMem)
  let name ← nameField m gr.grName
  pure { name, gid := gr.grGid, members, source }

/-! ### What a module holds -/

/-- A user as a module holds it: bytes, any of which may be missing. -/
structure PasswdRecord where
  name : Option (List UInt8)
  uid : UInt32
  gid : UInt32
  gecos : Option (List UInt8)
  dir : Option (List UInt8)
  shell : Option (List UInt8)
  deriving DecidableEq

/-- A group as a module holds it. -/
structure GroupRecord where
  name : Option (List UInt8)
  gid : UInt32
  members : List (List UInt8)
  deriving DecidableEq

/-- An identity that has to be a text. -/
def readName : Option (List UInt8) → Except Error (List Char)
  | none => .error .nullName
  | some s =>
    match Utf8.decode s with
    | some name => .ok name
    | none => .error .notUtf8

/-- A description, which never fails. -/
def readText (lossy : Lossy) : Option (List UInt8) → List Char
  | none => []
  | some s => lossy.decode s

/-- The user of a record. -/
def PasswdRecord.read (lossy : Lossy) (r : PasswdRecord) (source : Source) :
    Except Error Passwd := do
  let name ← readName r.name
  pure
    { name, uid := r.uid, gid := r.gid, gecos := readText lossy r.gecos,
      dir := readText lossy r.dir, shell := readText lossy r.shell, source }

/-- The group of a record: one bad member refuses it. -/
def GroupRecord.read (r : GroupRecord) (source : Source) : Except Error Group := do
  let members ← r.members.mapM fun s => readName (some s)
  let name ← readName r.name
  pure { name, gid := r.gid, members, source }

/-- A string that may be missing is at the address, or the address is null. -/
def OptAt (m : Block) (p : ℕ) : Option (List UInt8) → Prop
  | none => p = 0
  | some s => m.StrAt p s

/-- The struct and the buffer hold the record. -/
structure PasswdRecord.At (m : Block) (pw : CPasswd) (r : PasswdRecord) : Prop where
  name : OptAt m pw.pwName r.name
  uid : pw.pwUid = r.uid
  gid : pw.pwGid = r.gid
  gecos : OptAt m pw.pwGecos r.gecos
  dir : OptAt m pw.pwDir r.dir
  shell : OptAt m pw.pwShell r.shell

/-- The struct and the buffer hold the record. -/
structure GroupRecord.At (m : Block) (gr : CGroup) (r : GroupRecord) : Prop where
  name : OptAt m gr.grName r.name
  gid : gr.grGid = r.gid
  members : (gr.grMem = 0 ∧ r.members = []) ∨ m.ArrayAt gr.grMem r.members

section Extract

variable {m : Block}

theorem nameField_eq {p : ℕ} {o : Option (List UInt8)} (h : OptAt m p o) :
    nameField m p = some (readName o) := by
  cases o with
  | none =>
    have hnull : p = 0 := h
    rw [nameField, if_pos hnull]
    rfl
  | some s =>
    rw [nameField, if_neg h.2.ne_null, Block.cstr_eq h, readName]
    show (match Utf8.decode s with
      | some name => pure name
      | none => throw .notUtf8 : Reading (List Char)) = _
    cases Utf8.decode s with
    | none => rfl
    | some name => rfl

theorem textField_eq (lossy : Lossy) {p : ℕ} {o : Option (List UInt8)} (h : OptAt m p o) :
    textField lossy m p = some (.ok (readText lossy o)) := by
  cases o with
  | none =>
    have hnull : p = 0 := h
    rw [textField, if_pos hnull]
    rfl
  | some s =>
    rw [textField, if_neg h.2.ne_null, Block.cstr_eq h]
    rfl

/-- **The user that is copied out is the one that the module wrote.** -/
theorem extractPasswd_eq (lossy : Lossy) {pw : CPasswd} {r : PasswdRecord}
    (h : r.At m pw) (source : Source) :
    extractPasswd lossy m pw source = some (r.read lossy source) := by
  rw [extractPasswd, nameField_eq h.name, textField_eq lossy h.gecos,
    textField_eq lossy h.dir, textField_eq lossy h.shell, h.uid, h.gid, PasswdRecord.read]
  cases readName r.name with
  | error e => rfl
  | ok name => rfl

theorem members_eq {gr : CGroup} {r : GroupRecord} (h : r.At m gr) :
    (if gr.grMem = 0 then pure [] else m.walk (nameField m) gr.grMem : Reading (List (List Char)))
      = some (r.members.mapM fun s => readName (some s)) := by
  obtain ⟨hnull, hnone⟩ | harray := h.members
  · rw [if_pos hnull, hnone]
    rfl
  · have hne : gr.grMem ≠ 0 := by
      cases hr : r.members with
      | nil =>
        rw [hr] at harray
        obtain ⟨b, -, -, hholds⟩ := harray
        exact hholds.ne_null
      | cons s ss =>
        rw [hr] at harray
        obtain ⟨q, ⟨b, -, -, hholds⟩, -⟩ := harray
        exact hholds.ne_null
    rw [if_neg hne]
    exact Block.walk_eq (fun q s hs => nameField_eq (o := some s) hs) harray

/-- **The group that is copied out is the one that the module wrote**, every member of it. -/
theorem extractGroup_eq {gr : CGroup} {r : GroupRecord} (h : r.At m gr) (source : Source) :
    extractGroup m gr source = some (r.read source) := by
  rw [extractGroup, members_eq h, nameField_eq h.name, h.gid, GroupRecord.read]
  cases r.members.mapM fun s => readName (some s) with
  | error e => rfl
  | ok members =>
    cases readName r.name with
    | error e => rfl
    | ok name => rfl

end Extract

/-! ### Calling a module -/

/-- What a call leaves behind: the answer, the struct, the contents of the buffer, and the
world, in which the directory is. -/
structure Report (σ C : Type) where
  answer : Answer
  entry : C
  bytes : List UInt8
  world : σ

/-- A `get*_r` function with its key: it is given the struct as it is, and the address and
the length of a zeroed buffer. -/
abbrev RawFn (σ C : Type) := σ → C → (base len : ℕ) → Report σ C

/-- Where the buffers lie: a buffer of each length at an address that is not null, inside
the address space. -/
structure Heap where
  addr : ℕ → ℕ
  pos : ∀ len, 0 < addr len
  fits : ∀ len ≤ maxBuflen, addr len + len ≤ 2 ^ 64

/-- The buffer of a length, with its contents. -/
def Heap.block (heap : Heap) (len : ℕ) (bytes : List UInt8) : Block :=
  ⟨heap.addr len, bytes, heap.pos len⟩

/-- The struct, the buffer and the world between two attempts. -/
structure Scratch (σ C : Type) where
  entry : C
  bytes : List UInt8
  world : σ

/-- A lookup: `none` if it read outside of the buffer. -/
abbrev Query (σ T : Type) := σ → Option (Except Error (Option T)) × σ

section Calls

variable {σ C R T : Type}

/-- One attempt, in a fresh buffer. -/
def attempt (heap : Heap) (raw : RawFn σ C) : Callback (Scratch σ C) := fun s len =>
  let r := raw s.world s.entry (heap.addr len) len
  (r.answer, ⟨r.entry, r.bytes, r.world⟩)

/-- `lookup_entry`. -/
def lookupEntry (heap : Heap) (svc : Registry.Service) (op : String) (raw : RawFn σ C)
    (zeroed : C) (extract : Block → C → Source → Reading T) : Query σ T := fun w =>
  let g := growAndCall (attempt heap raw)
    ⟨zeroed, List.replicate initialBuflen 0, w⟩ initialBuflen
  let r : Reading (Option T) := do
    let hit ← ExceptT.mk (some (classifyLookup svc.name op g.answer))
    if hit then
      let out ← extract (heap.block g.len g.state.bytes) g.state.entry svc.source
      pure (some out)
    else pure none
  (r, g.state.world)

/-! ### What a module answers -/

/-- The answer is an error, and no request for more room. -/
def IsFailure (a : Answer) : Prop :=
  ¬ a.Retry ∧ (a.errno ≠ 0 ∨ a.status ≠ statusNotfound ∧ a.status ≠ statusSuccess)

instance (a : Answer) : Decidable (IsFailure a) := inferInstanceAs (Decidable (_ ∧ _))

/-- What the directory has for a key: an entry, nothing, or the module's own failure. -/
inductive Verdict (R : Type) where
  | found (r : R)
  | absent
  | failed (a : {a : Answer // IsFailure a})

/-- The verdict, and how long a buffer it takes to come to it.  This is not the size of the
entry alone: a module that reads through a file takes room for the entries before it, and
for all of them to find nothing. -/
structure Reply (R : Type) where
  need : ℕ
  verdict : Verdict R

/-- What a lookup returns for a verdict. -/
def Verdict.outcome (module op : String) (read : R → Except Error T) :
    Verdict R → Except Error (Option T)
  | .found r => (read r).map some
  | .absent => .ok none
  | .failed a => .error (.call module op a.1.status a.1.errno)

/-- What a lookup is to return: the verdict, if there is room for it below the ceiling. -/
def Reply.outcome (module op : String) (read : R → Except Error T) (reply : Reply R) :
    Except Error (Option T) :=
  if reply.need ≤ maxBuflen then reply.verdict.outcome module op read
  else .error (.call module op statusTryagain erange)

/-- The function answers from the directory, in the buffers of the heap.  Where the buffer is
too short it asks for more room, whatever the verdict; otherwise it gives the verdict, and
lays an entry into the buffer in any way.  The world may have gone on when the call
returns. -/
structure Serves [Preorder σ] (heap : Heap) (At : Block → C → R → Prop) (raw : RawFn σ C)
    (dir : σ → Reply R) : Prop where
  short : ∀ w c {len}, len ≤ maxBuflen → len < (dir w).need →
    (raw w c (heap.addr len) len).answer = ⟨statusTryagain, erange⟩
  found : ∀ {w r}, (dir w).verdict = .found r → ∀ c {len}, len ≤ maxBuflen →
    (dir w).need ≤ len →
      (raw w c (heap.addr len) len).answer = ⟨statusSuccess, 0⟩ ∧
      (raw w c (heap.addr len) len).bytes.length = len ∧
      At (heap.block len (raw w c (heap.addr len) len).bytes)
        (raw w c (heap.addr len) len).entry r
  absent : ∀ {w}, (dir w).verdict = .absent → ∀ c {len}, len ≤ maxBuflen →
    (dir w).need ≤ len → (raw w c (heap.addr len) len).answer = ⟨statusNotfound, 0⟩
  failed : ∀ {w a}, (dir w).verdict = .failed a → ∀ c {len}, len ≤ maxBuflen →
    (dir w).need ≤ len → (raw w c (heap.addr len) len).answer = a.1
  forward : ∀ w c base len, w ≤ (raw w c base len).world

/-- The query returns, and its answer is that of one moment of the call. -/
def AtMoment [Preorder σ] (query : Query σ T) (answer : σ → Except Error (Option T)) : Prop :=
  ∀ w, ∃ t w', w ≤ t ∧ t ≤ w' ∧ query w = (some (answer t), w')

theorem classifyLookup_failed {a : Answer} (h : IsFailure a) (module op : String) :
    classifyLookup module op a = .error (.call module op a.status a.errno) := by
  rw [classifyLookup]
  by_cases herrno : a.errno = 0
  · obtain hne | ⟨hnotfound, hsuccess⟩ := h.2
    · exact absurd herrno hne
    · rw [if_neg (not_not.mpr herrno), if_neg hnotfound, if_neg hsuccess, herrno]
  · rw [if_pos herrno]

/-- A call that asks for more room, at the ceiling. -/
theorem not_grows_retry {raw : RawFn σ C} {heap : Heap} {s : Scratch σ C} {len : ℕ}
    (h : ¬ (callAt (attempt heap raw) s len).Grows)
    (hretry : (raw s.world s.entry (heap.addr len) len).answer = ⟨statusTryagain, erange⟩) :
    maxBuflen ≤ len := by
  by_contra hlt
  refine h ⟨?_, not_le.mp hlt⟩
  show (raw s.world s.entry (heap.addr len) len).answer.Retry
  rw [hretry]
  exact ⟨rfl, rfl⟩

variable [Preorder σ] {heap : Heap} {At : Block → C → R → Prop} {raw : RawFn σ C}
  {dir : σ → Reply R}

/-- **The answer of a module is that of its directory at one moment of the call**, whatever
room it takes and wherever the module lays its entries. -/
theorem lookupEntry_eq (h : Serves heap At raw dir) (svc : Registry.Service)
    (op : String) (zeroed : C) {extract : Block → C → Source → Reading T}
    {read : R → Source → Except Error T}
    (hextract : ∀ m c r, At m c r → ∀ source, extract m c source = some (read r source)) :
    AtMoment (lookupEntry heap svc op raw zeroed extract)
      fun t => (dir t).outcome svc.name op fun r => read r svc.source := by
  intro w
  -- the call that settled, and the world it was made in
  obtain ⟨s, len, hsettles, hresult, hkeeps⟩ := growAndCall_settles (attempt heap raw)
    ⟨zeroed, List.replicate initialBuflen 0, w⟩ initialBuflen
  have hle : w ≤ s.world :=
    hkeeps (fun s => w ≤ s.world) (fun s len hw => hw.trans (h.forward _ _ _ _)) le_rfl
  have hlen : len ≤ maxBuflen := by
    have hkept := kept_initial.growAndCall (attempt heap raw)
      ⟨zeroed, List.replicate initialBuflen 0, w⟩
    rw [hresult] at hkept
    exact hkept.le
  refine ⟨s.world, (raw s.world s.entry (heap.addr len) len).world, hle,
    h.forward _ _ _ _, ?_⟩
  rw [lookupEntry, hresult]
  simp only [attempt]
  refine Prod.ext ?_ rfl
  by_cases hfits : (dir s.world).need ≤ len
  · rw [Reply.outcome, if_pos (hfits.trans hlen)]
    cases hdir : (dir s.world).verdict with
    | absent =>
      rw [h.absent hdir s.entry hlen hfits]
      rfl
    | failed a =>
      rw [h.failed hdir s.entry hlen hfits, classifyLookup_failed a.2]
      rfl
    | found r =>
      obtain ⟨hanswer, -, hat⟩ := h.found hdir s.entry hlen hfits
      rw [hanswer]
      show ((extract _ _ svc.source) >>= fun out => pure (some out) : Reading (Option T)) = _
      rw [hextract _ _ _ hat, Verdict.outcome]
      cases read r svc.source with
      | error e => rfl
      | ok out => rfl
  · -- a request for more room is an answer at the ceiling only
    have hretry := h.short s.world s.entry hlen (not_le.mp hfits)
    have hceiling := not_grows_retry hsettles hretry
    rw [hretry, Reply.outcome, if_neg (by omega)]
    rfl

end Calls

/-! ### One module, and all of them -/

/-- What is at the addresses of the functions of a module. -/
structure Code (σ : Type) where
  getpwnamR : ℕ → List UInt8 → RawFn σ CPasswd
  getpwuidR : ℕ → UInt32 → RawFn σ CPasswd
  getgrnamR : ℕ → List UInt8 → RawFn σ CGroup
  getgrgidR : ℕ → UInt32 → RawFn σ CGroup

/-- What the lookups run in.  `service` is `Source::service`: the services of the registry
have the source they were asked for. -/
structure Env (σ : Type) where
  heap : Heap
  lossy : Lossy
  code : Code σ
  service : Source → Except Error Registry.Service
  source : ∀ {src svc}, service src = .ok svc → svc.source = src

section Lookups

variable {σ C R T : Type}

/-- `Service::missing`. -/
def missing (svc : Registry.Service) (suffix : String) : Error :=
  .symbol svc.name (Registry.symbolName svc.pfx suffix)

/-- A lookup of one module, for a key that needs no check. -/
def byKey {K : Type} (heap : Heap) (svc : Registry.Service) (sym : Registry.Sym)
    (code : ℕ → K → RawFn σ C) (zeroed : C) (extract : Block → C → Source → Reading T)
    (key : K) : Query σ T := fun w =>
  match svc.fns sym with
  | none => (some (.error (missing svc sym.suffix)), w)
  | some f => lookupEntry heap svc sym.suffix (code f key) zeroed extract w

/-- A lookup of one module by name. -/
def byName (heap : Heap) (svc : Registry.Service) (sym : Registry.Sym)
    (code : ℕ → List UInt8 → RawFn σ C) (zeroed : C) (extract : Block → C → Source → Reading T)
    (name : List Char) : Query σ T := fun w =>
  match svc.fns sym with
  | none => (some (.error (missing svc sym.suffix)), w)
  | some f =>
    -- `CString::new`
    if (0 : UInt8) ∈ Utf8.encode name then (some (.error .nulByte), w)
    else lookupEntry heap svc sym.suffix (code f (Utf8.encode name)) zeroed extract w

/-- `self.service()?`, and the lookup of the service. -/
def Env.ask (env : Env σ) (lookup : Registry.Service → Query σ T) (src : Source) : Query σ T :=
  fun w =>
    match env.service src with
    | .error e => (some (.error e), w)
    | .ok svc => lookup svc w

/-- The loop of `fan_out`. -/
def fanOut (lookup : Source → Query σ T) : List Source → Query σ T
  | [], w => (some (.ok none), w)
  | src :: srcs, w =>
    match lookup src w with
    | (none, w') => (none, w')
    | (some (.ok (some entry)), w') => (some (.ok (some entry)), w')
    | (some (.ok none), w') => fanOut lookup srcs w'
    | (some (.error e), w') => if e.isUnavail then fanOut lookup srcs w' else (some (.error e), w')

variable (env : Env σ)

/-- `Service::getpwnam`. -/
def Service.getpwnam (name : List Char) (svc : Registry.Service) : Query σ Passwd :=
  byName env.heap svc .getpwnamR env.code.getpwnamR .zeroed (extractPasswd env.lossy) name

/-- `Service::getpwuid`. -/
def Service.getpwuid (uid : UInt32) (svc : Registry.Service) : Query σ Passwd :=
  byKey env.heap svc .getpwuidR env.code.getpwuidR .zeroed (extractPasswd env.lossy) uid

/-- `Service::getgrnam`. -/
def Service.getgrnam (name : List Char) (svc : Registry.Service) : Query σ Group :=
  byName env.heap svc .getgrnamR env.code.getgrnamR .zeroed extractGroup name

/-- `Service::getgrgid`. -/
def Service.getgrgid (gid : UInt32) (svc : Registry.Service) : Query σ Group :=
  byKey env.heap svc .getgrgidR env.code.getgrgidR .zeroed extractGroup gid

/-- `Source::getpwnam`. -/
def Source.getpwnam (name : List Char) : Source → Query σ Passwd :=
  env.ask (Service.getpwnam env name)

/-- `Source::getpwuid`. -/
def Source.getpwuid (uid : UInt32) : Source → Query σ Passwd :=
  env.ask (Service.getpwuid env uid)

/-- `Source::getgrnam`. -/
def Source.getgrnam (name : List Char) : Source → Query σ Group :=
  env.ask (Service.getgrnam env name)

/-- `Source::getgrgid`. -/
def Source.getgrgid (gid : UInt32) : Source → Query σ Group :=
  env.ask (Service.getgrgid env gid)

/-- `getpwnam`. -/
def getpwnam (name : List Char) : Query σ Passwd :=
  fanOut (Source.getpwnam env name) lookupOrder

/-- `getpwuid`. -/
def getpwuid (uid : UInt32) : Query σ Passwd := fanOut (Source.getpwuid env uid) lookupOrder

/-- `getgrnam`. -/
def getgrnam (name : List Char) : Query σ Group :=
  fanOut (Source.getgrnam env name) lookupOrder

/-- `getgrgid`. -/
def getgrgid (gid : UInt32) : Query σ Group := fanOut (Source.getgrgid env gid) lookupOrder

/-! ### What the modules have -/

/-- The module of the source, if it can be asked, answers from the directory: this for the
one key that `raw` is for. -/
def Env.Serves [Preorder σ] (env : Env σ) (At : Block → C → R → Prop) (sym : Registry.Sym)
    (raw : ℕ → RawFn σ C) (src : Source) (dir : σ → Reply R) : Prop :=
  ∀ {svc a}, env.service src = .ok svc → svc.fns sym = some a →
    Lookup.Serves env.heap At (raw a) dir

/-- The answer of one source: it cannot be loaded, or has no such function, or cannot be
asked for this key, or its directory answers. -/
def Env.expected (sym : Registry.Sym) (askable : Bool) (read : R → Source → Except Error T)
    (src : Source) (reply : Reply R) : Except Error (Option T) :=
  match env.service src with
  | .error e => .error e
  | .ok svc =>
    if svc.fns sym = none then .error (missing svc sym.suffix)
    else if askable then reply.outcome svc.name sym.suffix fun r => read r src
    else .error .nulByte

/-- The source has no entry, or is unavailable. -/
def Passes : Except Error (Option T) → Prop
  | .ok none => True
  | .ok (some _) => False
  | .error e => e.isUnavail = true

/-- The first source that does not pass decides; the entry is nowhere if all of them do. -/
inductive FirstHit (answer : Source → Except Error (Option T)) (order : List Source) :
    Except Error (Option T) → Prop
  | decided (before after : List Source) (src : Source) :
    order = before ++ src :: after → (∀ s ∈ before, Passes (answer s)) →
      ¬ Passes (answer src) → FirstHit answer order (answer src)
  | nowhere : (∀ src ∈ order, Passes (answer src)) → FirstHit answer order (.ok none)

/-- The query returns the first hit of what the sources answer, each at one moment of the
call, one after another. -/
def Answers [Preorder σ] (query : Query σ T) (answer : Source → σ → Except Error (Option T)) :
    Prop :=
  ∀ w, ∃ t : Source → σ, ∃ w' r, query w = (some r, w') ∧ (∀ src, w ≤ t src ∧ t src ≤ w') ∧
    lookupOrder.Pairwise (fun a b => t a ≤ t b) ∧
    FirstHit (fun src => answer src (t src)) lookupOrder r

end Lookups

end Nss.Lookup
