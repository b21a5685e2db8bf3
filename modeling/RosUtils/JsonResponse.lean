/-
Building the Response object, and the id it carries.

A response is written piece by piece into a buffer; the bytes are those of an
object with the members `jsonrpc`, `result` or `error`, and `id`
(`Response.frameOf_toBytes`).

The id of a request is kept as the library keeps numbers.  An integer of 64 bits is
kept as it is, and the response carries it.  Any other is kept as a float, if at all, and
the response then carries the few digits that are written of the float:
`response_echoes_id`.
-/
import RosUtils.JsonVerdict

open ExceptState JsonText JsonReader JsonWriter

namespace Jsonrpc

/-- `RawValue`: the text of a value. -/
abbrev RawValue := {v : Text // IsValue v}

/-- `Payload`: exactly one of the two members. -/
inductive Payload where
  | result (raw : RawValue)
  | error (e : ErrorObject)

/-- `Response`. -/
structure Response where
  payload : Payload
  id : Id

/-- The bytes of a text of the program. -/
def bytes (s : String) : List UInt8 := Utf8.encode s.toList

/-- `Id::serialize`. -/
def writeId (lib : SerdeJson) : Id → Text
  | .number n => lib.writeNumber n
  | .string s => lib.writeStr s
  | .null => lib.writeNone

/-- `Response::write_into`: append the bytes to `out`. -/
def Response.writeInto (lib : SerdeJson) (response : Response) (out : List UInt8) : List UInt8 :=
  let out := out ++ bytes "\x7b\"jsonrpc\":\""
  let out := out ++ bytes version
  let out := out ++ bytes "\","
  let out := match response.payload with
    | .result raw =>
      let out := out ++ bytes "\"result\":"
      out ++ Utf8.encode raw.val
    | .error e =>
      let out := out ++ bytes "\"error\":\x7b\"code\":"
      let out := out ++ Utf8.encode (writeInt e.code.toInt)
      let out := out ++ bytes ",\"message\":"
      let out := out ++ Utf8.encode (lib.writeStr e.message)
      let out := match e.data with
        | some data =>
          let out := out ++ bytes ",\"data\":"
          out ++ Utf8.encode (lib.writeValue data)
        | none => out
      out ++ bytes "\x7d"
  let out := out ++ bytes ",\"id\":"
  let out := out ++ Utf8.encode (writeId lib response.id)
  out ++ bytes "\x7d"

/-- `Response::to_bytes`. -/
def Response.toBytes (lib : SerdeJson) (response : Response) : List UInt8 :=
  response.writeInto lib []

/-- The loop of `batch_frame` and `batch_of`: a comma before every element but the first. -/
def writeBatch {α : Type} (writeInto : α → List UInt8 → List UInt8) (xs : List α) :
    Option (List UInt8) :=
  if xs.isEmpty then none
  else
    let out := ['['.toUInt8]
    let out := xs.zipIdx.foldl (fun out x =>
      let out := if 0 < x.2 then out ++ [','.toUInt8] else out
      writeInto x.1 out) out
    some (out ++ [']'.toUInt8])

/-- `batch_frame`. -/
def batchFrame (lib : SerdeJson) (responses : List Response) : Option (List UInt8) :=
  writeBatch (Response.writeInto lib) responses

/-! ### The bytes of a batch -/

section Batch

variable {α : Type} {writeInto : α → List UInt8 → List UInt8} {f : α → List UInt8}

/-- After the first element, every one has a comma before it. -/
theorem foldl_writeBatch (h : ∀ x out, writeInto x out = out ++ f x) (xs : List α) (n : ℕ)
    (out : List UInt8) :
    (xs.zipIdx (n + 1)).foldl (fun out x =>
      writeInto x.1 (if 0 < x.2 then out ++ [','.toUInt8] else out)) out =
        out ++ (xs.map f).flatMap fun b => ','.toUInt8 :: b := by
  induction xs generalizing n out with
  | nil => simp
  | cons x xs ih =>
    rw [List.zipIdx_cons, List.foldl_cons, ih, if_pos (Nat.succ_pos n), h]
    simp

theorem writeBatch_eq (h : ∀ x out, writeInto x out = out ++ f x) {xs : List α} (hne : xs ≠ []) :
    writeBatch writeInto xs =
      some ('['.toUInt8 :: (join ','.toUInt8 (xs.map f) ++ [']'.toUInt8])) := by
  cases xs with
  | nil => exact (hne rfl).elim
  | cons x xs =>
    have hrest := foldl_writeBatch h xs 0 (writeInto x ['['.toUInt8])
    refine congrArg some (Eq.trans (congrArg (· ++ [']'.toUInt8]) hrest) ?_)
    rw [h]
    simp [join]

end Batch

theorem encode_arrayText (ts : List Text) :
    Utf8.encode (arrayText ts) =
      '['.toUInt8 :: (join ','.toUInt8 (ts.map Utf8.encode) ++ [']'.toUInt8]) := by
  have hjoin : Utf8.encode (join ',' ts) = join ','.toUInt8 (ts.map Utf8.encode) := by
    induction ts with
    | nil => rfl
    | cons t ts ih =>
      cases ts with
      | nil => simp [join]
      | cons u ts =>
        rw [join_cons_cons, Utf8.encode_append, Utf8.encode_cons_ascii (by decide), ih]
        rw [List.map_cons, List.map_cons, List.map_cons, join_cons_cons]
  rw [arrayText, Utf8.encode_cons_ascii (by decide), Utf8.encode_append, hjoin]
  rfl

/-! ### The members of a response -/

/-- A name that needs no escape, in its quotes. -/
def quoted (name : String) : Text := '"' :: (name.toList ++ ['"'])

/-- The members of an error object. -/
def ErrorObject.members (lib : SerdeJson) (e : ErrorObject) : List (Text × Text) :=
  (quoted "code", writeInt e.code.toInt) :: (quoted "message", lib.writeStr e.message) ::
    (e.data.map fun data => (quoted "data", lib.writeValue data)).toList

/-- The `result` or the `error` member. -/
def Payload.member (lib : SerdeJson) : Payload → Text × Text
  | .result raw => (quoted "result", raw.val)
  | .error e => (quoted "error", objectText (e.members lib))

def Response.members (lib : SerdeJson) (response : Response) : List (Text × Text) :=
  [(quoted "jsonrpc", quoted version), response.payload.member lib,
    (quoted "id", writeId lib response.id)]

theorem bytes_eq (s : String) : bytes s = Utf8.encode s.toList := rfl

theorem Response.toBytes_eq (lib : SerdeJson) (response : Response) :
    response.toBytes lib = Utf8.encode (objectText (response.members lib)) := by
  obtain ⟨payload, id⟩ := response
  rw [Response.toBytes, Response.writeInto]
  cases payload with
  | result raw =>
    simp only [bytes_eq, ← Utf8.encode_append, List.nil_append]
    simp [objectText, join, memberText, Response.members, Payload.member, quoted]
  | error e =>
    obtain ⟨code, message, data⟩ := e
    cases data with
    | none =>
      simp only [bytes_eq, ← Utf8.encode_append, List.nil_append]
      simp [objectText, join, memberText, Response.members, Payload.member, quoted,
        ErrorObject.members]
    | some data =>
      simp only [bytes_eq, ← Utf8.encode_append, List.nil_append]
      simp [objectText, join, memberText, Response.members, Payload.member, quoted,
        ErrorObject.members]

/-! ### What the bytes are -/

/-- The names and texts of the program. -/
def plainNames : List String :=
  ["jsonrpc", "method", "params", "id", "result", "error", "code", "message", "data", version]

theorem strIs_quoted : ∀ name ∈ plainNames, StrIs (quoted name) name := by
  decide +kernel

theorem not_strIs_quoted {name other : String} (h : name ∈ plainNames) (hne : name ≠ other) :
    ¬ StrIs (quoted name) other := fun hother => hne (strIs_unique (strIs_quoted name h) hother)

theorem isValue_quoted_version : IsValue (quoted version) :=
  isValue_of_strIs (strIs_quoted version (by decide))

section Members

variable {lib : SerdeJson} (hlib : lib.Laws)
include hlib

theorem isValue_writeId (id : Id) : IsValue (writeId lib id) := by
  cases id with
  | number n => exact hlib.isValue_writeNumber n
  | string s => exact hlib.isValue_writeStr s
  | null =>
    rw [writeId, hlib.writeNone]
    exact isValue_iff.mpr (.inl (by simp [literals]))

theorem ErrorObject.objectOf_members (e : ErrorObject) :
    ObjectOf (e.members lib) (objectText (e.members lib)) := by
  refine objectOf_objectText fun m hm => ?_
  obtain ⟨code, message, data⟩ := e
  rcases List.mem_cons.mp hm with rfl | hm
  · exact ⟨⟨_, strIs_quoted "code" (by decide)⟩, isValue_writeInt _⟩
  rcases List.mem_cons.mp hm with rfl | hm
  · exact ⟨⟨_, strIs_quoted "message" (by decide)⟩, hlib.isValue_writeStr _⟩
  cases data with
  | none => cases hm
  | some data =>
    obtain rfl := List.mem_singleton.mp hm
    exact ⟨⟨_, strIs_quoted "data" (by decide)⟩, hlib.writeValue data⟩

theorem Payload.member_ok (p : Payload) :
    (∃ x, x ≠ "id" ∧ StrIs (p.member lib).1 x) ∧ IsValue (p.member lib).2 := by
  cases p with
  | result raw => exact ⟨⟨"result", by decide, strIs_quoted _ (by decide)⟩, raw.property⟩
  | error e =>
    exact ⟨⟨"error", by decide, strIs_quoted _ (by decide)⟩,
      isValue_of_objectOf (e.objectOf_members hlib)⟩

theorem Response.members_ok (response : Response) :
    ∀ m ∈ response.members lib, (∃ x, StrIs m.1 x) ∧ IsValue m.2 := by
  intro m hm
  obtain ⟨⟨x, -, hx⟩, hvalue⟩ := response.payload.member_ok hlib
  simp only [Response.members, List.mem_cons, List.not_mem_nil, or_false] at hm
  rcases hm with rfl | rfl | rfl
  · exact ⟨⟨_, strIs_quoted "jsonrpc" (by decide)⟩, isValue_quoted_version⟩
  · exact ⟨⟨x, hx⟩, hvalue⟩
  · exact ⟨⟨_, strIs_quoted "id" (by decide)⟩, isValue_writeId hlib _⟩

theorem Response.namesDecode (response : Response) :
    NamesDecode (response.members lib) := fun m hm => (response.members_ok hlib m hm).1

/-- **A response is an object**, whose members are `jsonrpc`, `result` or `error`, and `id`. -/
theorem Response.frameOf_toBytes (response : Response) :
    FrameOf ObjectOf (response.members lib) (response.toBytes lib) := by
  have hobject := objectOf_objectText (response.members_ok hlib)
  have hself := padded_self (isValue_of_objectOf hobject)
  exact ⟨_, response.toBytes_eq lib, (padded_iff isValue_of_objectOf hself).mpr hobject⟩

end Members

theorem Response.lastMember_id (lib : SerdeJson) (response : Response) :
    LastMember "id" (response.members lib) (writeId lib response.id) :=
  ⟨[_, _], quoted "id", [], rfl, strIs_quoted "id" (by decide), nofun⟩

/-! ### The id of a response -/

/-- The bytes are an object whose `id` member is a number with the value `z`. -/
def WritesId (out : List UInt8) (z : ℤ) : Prop :=
  ∃ ms t, FrameOf ObjectOf ms out ∧ LastMember "id" ms t.text ∧ t.WF ∧ numberValue t = z

/-- The members are those of a request, whatever the id is. -/
structure OtherwiseValid (ms : List (Text × Text)) : Prop where
  names : NamesDecode ms
  jsonrpc : ∃ v, LastMember "jsonrpc" ms v ∧ StrIs v version
  method : ∃ v s, LastMember "method" ms v ∧ StrIs v s
  params : ∀ v, LastMember "params" ms v → ∃ p, ParamsIs v p

/-- What `parse` makes of the object with these members, in a frame of its own or in a
batch. -/
inductive Received (lib : SerdeJson) (ms : List (Text × Text)) (call : Call) : Prop
  | frame {frame : List UInt8} (hframe : FrameOf ObjectOf ms frame)
      (hparse : parse lib frame = .single call)
  | element {frame : List UInt8} {vs : List Text} {n : ℕ} {o : Text} {calls : List Call}
      (hframe : FrameOf ArrayOf vs frame) (hn : vs[n]? = some o) (ho : ObjectOf ms o)
      (hparse : parse lib frame = .batch calls) (hcall : calls[n]? = some call)

/-- Every request with the literal `t` as its id is let through, and every response with the
id of the request carries the integer `z`. -/
def Echoes (lib : SerdeJson) (t : NumberText) (z : ℤ) : Prop :=
  ∀ ms call, OtherwiseValid ms → LastMember "id" ms t.text → Received lib ms call →
    ∃ r i, call = .valid r ∧ r.id = some i ∧
      ∀ response : Response, response.id = i → WritesId (response.toBytes lib) z

section Echoes

variable {lib : SerdeJson} {ms : List (Text × Text)} {pairs : List (String × Text)}
  {t : NumberText} {z : ℤ}

theorem Received.eq_one (hlib : lib.Laws) {call : Call} (h : Received lib ms call) :
    ∃ text, Padded ObjectOf ms text ∧ call = one lib text := by
  cases h with
  | frame hframe hparse =>
    obtain ⟨text, rfl, htext⟩ := hframe
    rw [parse_object hlib htext] at hparse
    cases hparse
    exact ⟨text, htext, rfl⟩
  | @element frame vs n o calls hframe hn ho hparse hcall =>
    obtain ⟨text, rfl, htext⟩ := hframe
    have hself := padded_self (isValue_of_objectOf ho)
    have hne : vs ≠ [] := by
      rintro rfl
      cases hn
    rw [parse_array hlib htext, if_neg hne] at hparse
    cases hparse
    rw [List.getElem?_map, hn, Option.map_some, Jsonrpc.element,
      if_pos ((firstToken_object hself).mpr ⟨ms, ho⟩)] at hcall
    exact ⟨o, (padded_iff isValue_of_objectOf hself).mpr ho, (Option.some.inj hcall).symm⟩

theorem NamesDecode.decoded (h : NamesDecode ms) : ∃ pairs, List.Forall₂ Decoded ms pairs := by
  rcases decoded_or ms with hpairs | ⟨m, hm, hno⟩
  · exact hpairs
  · exact ((h m hm).elim hno).elim

/-- A literal does not begin with a reserved name. -/
theorem not_reserved_of_lastMember (hd : List.Forall₂ Decoded ms pairs) (ht : t.WF)
    (hlast : LastMember "id" ms t.text) :
    ∀ v, LastMember "id" ms v → ¬ Reserved lib.reserved v := by
  intro v hv
  rw [lastMember_unique hd hv hlast]
  exact IdType.not_reserved (.inr (.inl ⟨t, ht, rfl⟩))

/-- The number that is read of the literal is the id of the request. -/
theorem OtherwiseValid.one_valid (hlib : lib.Laws) (h : OtherwiseValid ms) (ht : t.WF)
    (hlast : LastMember "id" ms t.text) {n : Number} (hn : lib.number t = some n)
    {text : Text} (htext : Padded ObjectOf ms text) :
    ∃ r, one lib text = .valid r ∧ r.id = some (.number n) := by
  obtain ⟨pairs, hd⟩ := h.names.decoded
  obtain ⟨v, method, hv, hmethod⟩ := h.method
  obtain ⟨params, hparams⟩ := exists_read_member hd "params" h.params
  have hiff := one_valid_iff (r := ⟨some (.number n), method, params⟩) hlib htext hd
    (not_reserved_of_lastMember hd ht hlast)
  exact ⟨_, hiff.mpr ⟨h.jsonrpc, ⟨v, hv, hmethod⟩, .inr ⟨_, _, hlast, .number ht hn, rfl⟩,
    hparams⟩, rfl⟩

/-- The id of a request with the literal is the number that is read of it. -/
theorem OtherwiseValid.id_of_valid (hlib : lib.Laws) (h : OtherwiseValid ms) (ht : t.WF)
    (hlast : LastMember "id" ms t.text) {text : Text} (htext : Padded ObjectOf ms text)
    {r : Request} (hr : one lib text = .valid r) :
    ∃ n, lib.number t = some n ∧ r.id = some (.number n) := by
  obtain ⟨pairs, hd⟩ := h.names.decoded
  have hiff := one_valid_iff (r := r) hlib htext hd (not_reserved_of_lastMember hd ht hlast)
  rcases (hiff.mp hr).2.id with ⟨habsent, -⟩ | ⟨v, i, hv, hi, hid⟩
  · exact (absent_of_lastMember habsent hlast).elim
  · obtain rfl := lastMember_unique hd hlast hv
    obtain ⟨n, hn, rfl⟩ := hi.of_number ht
    exact ⟨n, hn, hid⟩

/-- A request with the literal as its id. -/
def sampleMembers (t : NumberText) : List (Text × Text) :=
  [(quoted "jsonrpc", quoted version), (quoted "method", quoted "params"), (quoted "id", t.text)]

theorem objectOf_sample (ht : t.WF) :
    ObjectOf (sampleMembers t) (objectText (sampleMembers t)) := by
  refine objectOf_objectText fun m hm => ?_
  simp only [sampleMembers, List.mem_cons, List.not_mem_nil, or_false] at hm
  rcases hm with rfl | rfl | rfl
  · exact ⟨⟨_, strIs_quoted "jsonrpc" (by decide)⟩, isValue_quoted_version⟩
  · exact ⟨⟨_, strIs_quoted "method" (by decide)⟩,
      isValue_of_strIs (strIs_quoted "params" (by decide))⟩
  · exact ⟨⟨_, strIs_quoted "id" (by decide)⟩, isValue_number ht⟩

theorem otherwiseValid_sample (t : NumberText) : OtherwiseValid (sampleMembers t) where
  names := by
    intro m hm
    simp only [sampleMembers, List.mem_cons, List.not_mem_nil, or_false] at hm
    rcases hm with rfl | rfl | rfl
    · exact ⟨_, strIs_quoted "jsonrpc" (by decide)⟩
    · exact ⟨_, strIs_quoted "method" (by decide)⟩
    · exact ⟨_, strIs_quoted "id" (by decide)⟩
  jsonrpc := by
    refine ⟨quoted version, ⟨[], quoted "jsonrpc", _, rfl, strIs_quoted "jsonrpc" (by decide), ?_⟩,
      strIs_quoted version (by decide)⟩
    simp only [List.forall_mem_cons]
    exact ⟨not_strIs_quoted (by decide) (by decide), not_strIs_quoted (by decide) (by decide),
      nofun⟩
  method := by
    refine ⟨quoted "params", "params",
      ⟨[_], quoted "method", _, rfl, strIs_quoted "method" (by decide), ?_⟩,
      strIs_quoted "params" (by decide)⟩
    simp only [List.forall_mem_cons]
    exact ⟨not_strIs_quoted (by decide) (by decide), nofun⟩
  params := by
    intro v hlast
    obtain ⟨k, hk, hname⟩ := hlast.mem
    simp only [sampleMembers, List.mem_cons, List.not_mem_nil, or_false, Prod.mk.injEq] at hk
    rcases hk with ⟨rfl, -⟩ | ⟨rfl, -⟩ | ⟨rfl, -⟩ <;>
      exact absurd hname (not_strIs_quoted (by decide) (by decide))

theorem lastMember_sample (t : NumberText) : LastMember "id" (sampleMembers t) t.text :=
  ⟨[_, _], quoted "id", [], rfl, strIs_quoted "id" (by decide), nofun⟩

/-- What a response says about a number that is its id. -/
theorem writesId_iff (hlib : lib.Laws) {n : Number} {response : Response}
    (hid : response.id = .number n) {s : NumberText} (hs : s.WF)
    (htext : lib.writeNumber n = s.text) :
    WritesId (response.toBytes lib) z ↔ numberValue s = z := by
  have hframe := response.frameOf_toBytes hlib
  have hlast := response.lastMember_id lib
  rw [hid, writeId, htext] at hlast
  constructor
  · rintro ⟨ms, s', hms, hlast', hs', hz⟩
    obtain rfl := frameOf_unique hms hframe
    obtain ⟨pairs, hd⟩ := (response.namesDecode hlib).decoded
    obtain rfl := text_injective hs' hs (lastMember_unique hd hlast' hlast)
    exact hz
  · intro hz
    exact ⟨_, s, hframe, hlast, hs, hz⟩

/-- The id of a response is the integer of the request when the literal is read, and the
number that is written for what was read has its value. -/
theorem echoes_iff (hlib : lib.Laws) (ht : t.WF) : Echoes lib t z ↔
    ∃ n s, lib.number t = some n ∧ s.WF ∧ lib.writeNumber n = s.text ∧ numberValue s = z := by
  constructor
  · intro h
    have hobject := objectOf_sample ht
    have hself := padded_self (isValue_of_objectOf hobject)
    have hpad : Padded ObjectOf (sampleMembers t) _ :=
      (padded_iff isValue_of_objectOf hself).mpr hobject
    have hvalid := otherwiseValid_sample t
    have hlast := lastMember_sample t
    obtain ⟨r, i, hcall, hid, hresponse⟩ := h _ _ hvalid hlast
      (.frame ⟨_, rfl, hpad⟩ (parse_object hlib hpad))
    obtain ⟨n, hn, hid'⟩ := hvalid.id_of_valid hlib ht hlast hpad hcall
    obtain rfl := Option.some.inj (hid.symm.trans hid')
    obtain ⟨s, hs, htext⟩ := hlib.writeNumber_wf n
    have hwrites := hresponse ⟨.error .invalidRequest, .number n⟩ rfl
    exact ⟨n, s, hn, hs, htext, (writesId_iff hlib rfl hs htext).mp hwrites⟩
  · rintro ⟨n, s, hn, hs, htext, hz⟩ ms call hvalid hlast hreceived
    obtain ⟨text, hpad, rfl⟩ := hreceived.eq_one hlib
    obtain ⟨r, hr, hid⟩ := hvalid.one_valid hlib ht hlast hn hpad
    refine ⟨r, .number n, hr, hid, fun response hresponse => ?_⟩
    exact (writesId_iff hlib hresponse hs htext).mpr hz

/-- An integer of 64 bits is echoed. -/
theorem echoes_of_fits (hlib : lib.Laws) (ht : IntegerText t z) (hfits : -2 ^ 63 ≤ z ∧ z < 2 ^ 64) :
    Echoes lib t z := by
  rw [echoes_iff hlib ht.wf]
  cases hint : integerOf t with
  | some k =>
    have hs := integerText_intText k.val
    refine ⟨.int k, _, hlib.integer ht.wf hint, hs.wf,
      (hlib.writeInteger k).trans (writeInt_eq k.val), ?_⟩
    rw [hs.numberValue_eq, ht.val_of_integerOf hint]
  | none =>
    -- the only integer that fits and is not kept is written `-0`
    obtain rfl := ht.eq_zero_of_integerOf hfits hint
    have hminus : t.minus = true := by
      rw [ht.integerOf_eq] at hint
      split_ifs at hint with hzero
      · exact hzero.1
      · rw [Integer.ofInt, dif_pos hfits] at hint
        cases hint
    obtain ⟨n, s, hn, hs, htext, hzero⟩ := hlib.minusZero ht hminus
    exact ⟨n, s, hn, hs, htext, by rw [hzero, Int.cast_zero]⟩

/-- Any other is not, when it has more digits than are written of a float, or is beyond the
floats. -/
theorem not_echoes_of_beyond (hlib : lib.Laws) (ht : IntegerText t z)
    (hfits : ¬ (-2 ^ 63 ≤ z ∧ z < 2 ^ 64)) (h : ¬ ShortDecimal z ∨ 10 ^ 309 ≤ |z|) :
    ¬ Echoes lib t z := by
  rw [echoes_iff hlib ht.wf]
  rintro ⟨n, s, hn, hs, htext, hz⟩
  rcases h with hlong | hfar
  · have hnone : integerOf t = none := by
      rw [Option.eq_none_iff_forall_ne_some]
      intro k hk
      have hval := ht.val_of_integerOf hk
      exact hfits ⟨hval ▸ k.lower, hval ▸ k.upper⟩
    obtain ⟨f, rfl⟩ := hlib.float ht.wf hnone hn
    obtain ⟨s', hs', htext', hshort⟩ := hlib.writeFloat f
    obtain rfl := text_injective hs' hs (htext'.symm.trans htext)
    exact hlong (hz ▸ hshort)
  · rw [hlib.beyond ht hfar] at hn
    cases hn

end Echoes

theorem integerText_seven : IntegerText ⟨false, "7".toList, [], []⟩ 7 :=
  ⟨⟨⟨⟨by decide, forall_mem_of_all (by decide)⟩, by decide⟩, .inl rfl, .inl rfl⟩, rfl, rfl,
    by decide⟩

/-- The literal of 2 ^ 64 + 1. -/
def beyondText : NumberText := ⟨false, "18446744073709551617".toList, [], []⟩

end Jsonrpc
