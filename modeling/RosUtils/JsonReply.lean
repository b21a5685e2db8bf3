/-
Reading the Response object — the client's half of the exchange.

A reply is an id together with a `result` or an `error`, and `outcome` relies on there
being exactly one of the two.  What a server writes is read back with the same id and the
same outcome, alone and in the Array that answers a batch: `server_client`.
-/
import RosUtils.JsonClient

open ExceptState JsonText JsonReader JsonWriter

namespace Jsonrpc

/-! ### Replies -/

/-- `Outcome`. -/
inductive Outcome where
  | result (raw : Text)
  | failure (e : ErrorObject)

/-- `Reply`. -/
structure Reply where
  id : Id
  result : Option Text
  error : Option ErrorObject

/-- `Reply::outcome`, or nothing where it would panic. -/
def Reply.outcome (reply : Reply) : Option Outcome :=
  match reply.result, reply.error with
  | some raw, none => some (.result raw)
  | none, some error => some (.failure error)
  | _, _ => none

/-- `Answer`: what one frame held, read as responses. -/
inductive Answer where
  | single (reply : Reply)
  | batch (replies : List Reply)
  | invalid (reason : String)

/-- `Value::as_i64`. -/
def asI64 : Value → Option Int64
  | .number (.int n) => if n.val < 2 ^ 63 then some (.ofInt n.val) else none
  | _ => none

/-- `ErrorObject::with_data`. -/
def ErrorObject.withData (e : ErrorObject) (data : Value) : ErrorObject :=
  { e with data := some data }

namespace Reply

/-- `error_object`. -/
def errorObject (lib : SerdeJson) (raw : Text) : Except String ErrorObject :=
  match lib.value raw with
  | .ok (.object members) =>
    match (Map.get "code" members).bind asI64 with
    | none => .error "'code' must be an integer Number"
    | some code =>
      match Map.get "message" members with
      | some (.string message) =>
        let error := ErrorObject.new code message
        match Map.get "data" members with
        | some data => .ok (error.withData data)
        | none => .ok error
      | _ => .error "'message' must be a String"
  | _ => .error "'error' must be an Object"

/-- What `one` checks of the members, one after the other. -/
def validate (lib : SerdeJson) (members : Map Text) : Except String Reply :=
  if (members.get "jsonrpc").bind (asStr lib) ≠ some version then
    .error "'jsonrpc' must be exactly \"2.0\""
  else
    match members.get "id" with
    | none => .error "'id' is required in a response"
    | some rawId =>
      match Id.fromRaw lib rawId with
      | none => .error "'id' must be a String, a Number, or Null"
      | some id =>
        match members.get "result", members.get "error" with
        | some result, none => .ok ⟨id, some result, none⟩
        | none, some raw => do
          let error ← errorObject lib raw
          .ok ⟨id, none, some error⟩
        | some _, some _ => .error "'result' and 'error' must not both appear"
        | none, none => .error "one of 'result' and 'error' is required"

/-- `one`: validate one Response object. -/
def one (lib : SerdeJson) (text : Text) : Except String Reply :=
  match lib.rawObject text with
  | .error _ => .error "not an Object"
  | .ok members => validate lib members

/-- `batch`: the first element that is no Response object refuses the Array. -/
def batch (lib : SerdeJson) (text : Text) : Answer :=
  match lib.rawArray text with
  | .error _ => .invalid "a batch answer must be an Array of Response objects"
  | .ok elements =>
    if elements = [] then .invalid "a batch answer must not be an empty Array"
    else
      match elements.mapM (one lib) with
      | .ok replies => .batch replies
      | .error reason => .invalid reason

end Reply

/-- `parse_answer`: the frame must hold exactly one JSON value. -/
def parseAnswer (lib : SerdeJson) (frame : List UInt8) : Answer :=
  match Utf8.decode frame with
  | none => .invalid "not UTF-8"
  | some text =>
    match lib.rawValue text with
    | .error e => .invalid (lib.display e)
    | .ok _ =>
      if firstToken text = some '{'.toUInt8 then
        match Reply.one lib text with
        | .ok reply => .single reply
        | .error reason => .invalid reason
      else if firstToken text = some '['.toUInt8 then Reply.batch lib text
      else .invalid "a response must be an Object and a batch answer an Array"

/-! ### Exactly one of the two members -/

/-- The reply carries a result or an error, and not both. -/
def Reply.ExactlyOne (reply : Reply) : Prop :=
  (∃ raw, reply.result = some raw ∧ reply.error = none) ∨
    ∃ e, reply.result = none ∧ reply.error = some e

/-- `parse_answer` returns the reply, alone or in an Array. -/
def Returned (lib : SerdeJson) (frame : List UInt8) (reply : Reply) : Prop :=
  parseAnswer lib frame = .single reply ∨
    ∃ replies, parseAnswer lib frame = .batch replies ∧ reply ∈ replies

section ExactlyOne

variable {lib : SerdeJson} {reply : Reply}

theorem Reply.ExactlyOne.outcome (h : reply.ExactlyOne) :
    ∃ outcome, reply.outcome = some outcome := by
  obtain ⟨id, result, error⟩ := reply
  rcases h with ⟨raw, rfl, rfl⟩ | ⟨e, rfl, rfl⟩
  · exact ⟨_, rfl⟩
  · exact ⟨_, rfl⟩

theorem Reply.validate_exactlyOne {members : Map Text} (h : validate lib members = .ok reply) :
    reply.ExactlyOne := by
  rw [validate] at h
  split_ifs at h
  split at h
  · cases h
  split at h
  · cases h
  split at h
  · cases h
    exact .inl ⟨_, rfl, rfl⟩
  · obtain ⟨error, -, hok⟩ := except_bind_ok.mp h
    cases hok
    exact .inr ⟨error, rfl, rfl⟩
  · cases h
  · cases h

theorem Reply.one_exactlyOne {text : Text} (h : one lib text = .ok reply) : reply.ExactlyOne := by
  rw [one] at h
  split at h
  · cases h
  · exact validate_exactlyOne h

theorem Reply.batch_exactlyOne {text : Text} {replies : List Reply}
    (h : batch lib text = .batch replies) (hmem : reply ∈ replies) : reply.ExactlyOne := by
  rw [batch] at h
  split at h
  · cases h
  split_ifs at h
  split at h
  · next hreplies =>
    cases h
    obtain ⟨text, -, hone⟩ := forall₂_mem (R := fun reply text => one lib text = .ok reply)
      (except_mapM_ok.mp hreplies).flip hmem
    exact one_exactlyOne hone
  · cases h

theorem Reply.batch_ne_single {text : Text} : batch lib text ≠ .single reply := by
  rw [batch]
  split
  · nofun
  split_ifs
  · nofun
  split
  · nofun
  · nofun

/-- **Every reply carries exactly one of `result` and `error`.** -/
theorem Returned.exactlyOne {frame : List UInt8} (h : Returned lib frame reply) :
    reply.ExactlyOne := by
  simp only [Returned, parseAnswer] at h
  split at h
  · simp at h
  split at h
  · simp at h
  split_ifs at h
  · split at h
    · next hone =>
      simp only [Answer.single.injEq, reduceCtorEq, false_and, exists_false, or_false] at h
      exact Reply.one_exactlyOne (h ▸ hone)
    · simp at h
  · rcases h with h | ⟨replies, h, hmem⟩
    · exact (Reply.batch_ne_single h).elim
    · exact Reply.batch_exactlyOne h hmem
  · simp at h

end ExactlyOne

/-! ### What a server answers, a client reads -/

/-- The outcome a response carries. -/
def Payload.outcome : Payload → Outcome
  | .result raw => .result raw.val
  | .error e => .failure e

/-- The id is a String, Null or an integer, and the data has no floats, no object that begins
with a reserved name and, where it stands in its error object, is nested below the limit of
the reader. -/
structure Response.Readable (lib : SerdeJson) (response : Response) : Prop where
  id : response.id.Exact
  data : ∀ e data, response.payload = .error e → e.data = some data →
    ∃ d, d + 1 < recursionLimit ∧ SerdeJson.Plain lib.reserved d data

/-- The reply is the one that was sent. -/
structure Reply.Answers (reply : Reply) (response : Response) : Prop where
  id : reply.id = response.id
  outcome : reply.outcome = some response.payload.outcome

section Answers

variable {lib : SerdeJson}

/-- A code, as the number that is written of it. -/
def Integer.ofInt64 (n : Int64) : Integer :=
  ⟨n.toInt, n.le_toInt, by have := n.toInt_lt; omega⟩

/-- The members of an error object, by their names. -/
def ErrorObject.pairs (e : ErrorObject) : List (String × Value) :=
  ("code", .number (.int (Integer.ofInt64 e.code))) :: ("message", .string e.message) ::
    (e.data.map fun data => ("data", data)).toList

theorem asI64_ofInt64 (n : Int64) : asI64 (.number (.int (Integer.ofInt64 n))) = some n := by
  refine (if_pos n.toInt_lt).trans ?_
  exact congrArg some n.ofInt_toInt

theorem ErrorObject.get_pairs (e : ErrorObject) :
    (Map.ofList e.pairs).get "code" = some (.number (.int (Integer.ofInt64 e.code))) ∧
    (Map.ofList e.pairs).get "message" = some (.string e.message) ∧
    (Map.ofList e.pairs).get "data" = e.data := by
  obtain ⟨code, message, data⟩ := e
  cases data <;> simp [ErrorObject.pairs, Map.ofList, Map.get_insert, Map.get]

/-- The error object is read as the map of its members. -/
theorem ErrorObject.valueOf_members (hlib : lib.Laws) {e : ErrorObject}
    (h : ∀ data, e.data = some data →
      ∃ d, d + 1 < recursionLimit ∧ SerdeJson.Plain lib.reserved d data) :
    ValueOf lib.number lib.reserved recursionLimit (.object (Map.ofList e.pairs))
      (objectText (e.members lib)) := by
  have hfirst : ∀ m ∈ e.pairs.head?, some m.1 ≠ lib.reserved := by
    rintro _ ⟨⟩ hname
    exact absurd (hlib.reserved "code" hname.symm) (by decide)
  refine ValueStep.object (d := 127) (by decide) hfirst (enclosed_objectText ?_)
  refine .cons ⟨strIs_quoted "code" (by decide), hlib.valueOf_int 126 _⟩
    (.cons ⟨strIs_quoted "message" (by decide), .string (hlib.writeStr _)⟩ ?_)
  cases hdata : e.data with
  | none => exact .nil
  | some data =>
    obtain ⟨d, hd, hplain⟩ := h data hdata
    have hle : d ≤ 126 := Nat.le_of_lt_succ (Nat.lt_of_succ_lt_succ hd)
    exact .cons ⟨strIs_quoted "data" (by decide), hlib.writePlain (hplain.mono hle)⟩ .nil

theorem Reply.errorObject_members (hlib : lib.Laws) {e : ErrorObject}
    (h : ∀ data, e.data = some data →
      ∃ d, d + 1 < recursionLimit ∧ SerdeJson.Plain lib.reserved d data) :
    Reply.errorObject lib (objectText (e.members lib)) = .ok e := by
  have hread := hlib.value_of (ErrorObject.valueOf_members hlib h)
  obtain ⟨hcode, hmessage, hdata⟩ := e.get_pairs
  rw [Reply.errorObject, hread]
  dsimp only
  rw [hcode, Option.bind_some, asI64_ofInt64, hmessage, hdata]
  obtain ⟨code, message, data⟩ := e
  cases data with
  | none => rfl
  | some data => rfl

/-- The members of a response, by their names. -/
def Payload.pair (lib : SerdeJson) : Payload → String × Text
  | .result raw => ("result", raw.val)
  | .error e => ("error", objectText (e.members lib))

def Response.pairs (lib : SerdeJson) (response : Response) : List (String × Text) :=
  [("jsonrpc", quoted version), response.payload.pair lib, ("id", writeId lib response.id)]

theorem Response.decoded_members (response : Response) :
    List.Forall₂ Decoded (response.members lib) (response.pairs lib) := by
  refine .cons ⟨strIs_quoted "jsonrpc" (by decide), rfl⟩ (.cons ?_
    (.cons ⟨strIs_quoted "id" (by decide), rfl⟩ .nil))
  cases response.payload with
  | result raw => exact ⟨strIs_quoted "result" (by decide), rfl⟩
  | error e => exact ⟨strIs_quoted "error" (by decide), rfl⟩

/-- **A response is read back.** -/
theorem Reply.one_members (hlib : lib.Laws) {response : Response} (h : response.Readable lib) :
    ∃ reply : Reply, Reply.one lib (objectText (response.members lib)) = .ok reply ∧
      reply.Answers response := by
  have hobject := objectOf_objectText (response.members_ok hlib)
  have hself := padded_self (isValue_of_objectOf hobject)
  have hpad := (padded_iff isValue_of_objectOf hself).mpr hobject
  have hread : lib.rawObject _ = .ok (Map.ofList (response.pairs lib)) :=
    hlib.rawObject.mpr ⟨_, (padded_namesOf_iff hpad).mpr response.decoded_members, rfl⟩
  have hversion : asStr lib (quoted version) = some version :=
    (asStr_eq_some hlib isValue_quoted_version).mpr (strIs_quoted version (by decide))
  have hid : Id.fromRaw lib (writeId lib response.id) = some response.id :=
    (idIs_writeId hlib h.id).fromRaw_eq hlib
  obtain ⟨payload, id⟩ := response
  cases payload with
  | result raw =>
    refine ⟨⟨id, some raw.val, none⟩, ?_, rfl, rfl⟩
    rw [Reply.one, hread]
    simp [Reply.validate, Response.pairs, Payload.pair, Map.ofList, Map.get_insert, Map.get,
      hversion, hid]
  | error e =>
    have herror := Reply.errorObject_members hlib fun data => h.data e data rfl
    refine ⟨⟨id, none, some e⟩, ?_, rfl, rfl⟩
    rw [Reply.one, hread]
    simp [Reply.validate, Response.pairs, Payload.pair, Map.ofList, Map.get_insert, Map.get,
      hversion, hid, herror, bind, Except.bind]

theorem parseAnswer_of_value (hlib : lib.Laws) {v text : Text} (h : Padded ElementOf v text) :
    parseAnswer lib (Utf8.encode text) =
      if firstToken text = some '{'.toUInt8 then
        match Reply.one lib text with
        | .ok reply => .single reply
        | .error reason => .invalid reason
      else if firstToken text = some '['.toUInt8 then Reply.batch lib text
      else .invalid "a response must be an Object and a batch answer an Array" := by
  rw [parseAnswer, decode_encode]
  dsimp only
  rw [hlib.rawValue.mpr h]

theorem parseAnswer_toBytes (hlib : lib.Laws) {response : Response} (h : response.Readable lib) :
    ∃ reply : Reply, parseAnswer lib (response.toBytes lib) = .single reply ∧
      reply.Answers response := by
  obtain ⟨reply, hone, hanswers⟩ := Reply.one_members hlib h
  have hobject := objectOf_objectText (response.members_ok hlib)
  have hself := padded_self (isValue_of_objectOf hobject)
  refine ⟨reply, ?_, hanswers⟩
  rw [response.toBytes_eq, parseAnswer_of_value hlib hself,
    if_pos ((firstToken_object hself).mpr ⟨_, hobject⟩), hone]

/-- Each response of a list is read back. -/
theorem Reply.mapM_members (hlib : lib.Laws) {responses : List Response}
    (h : ∀ r ∈ responses, r.Readable lib) :
    ∃ replies : List Reply,
      (responses.map fun r => objectText (r.members lib)).mapM (Reply.one lib) = .ok replies ∧
        List.Forall₂ Reply.Answers replies responses := by
  simp only [except_mapM_ok, List.forall₂_map_left_iff]
  induction responses with
  | nil => exact ⟨[], .nil, .nil⟩
  | cons r responses ih =>
    obtain ⟨hr, hresponses⟩ := List.forall_mem_cons.mp h
    obtain ⟨reply, hone, hanswers⟩ := Reply.one_members hlib hr
    obtain ⟨replies, hread, hall⟩ := ih hresponses
    exact ⟨reply :: replies, .cons hone hread, .cons hanswers hall⟩

theorem Response.writeInto_eq (response : Response) (out : List UInt8) :
    response.writeInto lib out = out ++ response.toBytes lib := by
  rw [Response.toBytes, Response.writeInto, Response.writeInto]
  cases response.payload with
  | result raw => simp only [List.nil_append, List.append_assoc]
  | error e =>
    obtain ⟨code, message, data⟩ := e
    cases data with
    | none => simp only [List.nil_append, List.append_assoc]
    | some data => simp only [List.nil_append, List.append_assoc]

theorem batchFrame_eq {responses : List Response} (hne : responses ≠ []) :
    batchFrame lib responses =
      some (Utf8.encode (arrayText (responses.map fun r => objectText (r.members lib)))) := by
  rw [batchFrame, writeBatch_eq Response.writeInto_eq hne, encode_arrayText, List.map_map]
  refine congrArg (fun bs => some ('['.toUInt8 :: (join ','.toUInt8 bs ++ [']'.toUInt8]))) ?_
  exact List.map_congr_left fun r _ => r.toBytes_eq lib

theorem parseAnswer_batchFrame (hlib : lib.Laws) {responses : List Response}
    (hne : responses ≠ []) (h : ∀ r ∈ responses, r.Readable lib) :
    ∃ out replies, batchFrame lib responses = some out ∧
      parseAnswer lib out = .batch replies ∧ List.Forall₂ Reply.Answers replies responses := by
  obtain ⟨replies, hread, hanswers⟩ := Reply.mapM_members hlib h
  have hvalues : ∀ v ∈ responses.map fun r => objectText (r.members lib), IsValue v := by
    intro v hv
    obtain ⟨r, -, rfl⟩ := List.mem_map.mp hv
    exact isValue_of_objectOf (objectOf_objectText (r.members_ok hlib))
  have harray := arrayOf_arrayText hvalues
  have hself := padded_self (isValue_of_arrayOf harray)
  have helements := hlib.rawArray.mpr ((padded_iff isValue_of_arrayOf hself).mpr harray)
  refine ⟨_, replies, batchFrame_eq hne, ?_, hanswers⟩
  rw [parseAnswer_of_value hlib hself, (firstToken_array hself).mpr ⟨_, harray⟩, if_neg (by decide),
    if_pos rfl, Reply.batch, helements]
  dsimp only
  rw [if_neg fun hnil => hne (List.map_eq_nil_iff.mp hnil), hread]

end Answers

/-- **What a server answers, a client reads.**  A response is read back with its id and its
outcome, alone and in the Array that answers a batch; and whatever the frame is, a reply
carries exactly one of `result` and `error`, so that it has an outcome. -/
theorem server_client (lib : SerdeJson) (hlib : lib.Laws) :
    (∀ response : Response, response.Readable lib →
      ∃ reply, parseAnswer lib (response.toBytes lib) = .single reply ∧
        Reply.Answers reply response) ∧
    (∀ responses : List Response, responses ≠ [] → (∀ r ∈ responses, r.Readable lib) →
      ∃ out replies, batchFrame lib responses = some out ∧
        parseAnswer lib out = .batch replies ∧ List.Forall₂ Reply.Answers replies responses) ∧
    ∀ frame reply, Returned lib frame reply →
      reply.ExactlyOne ∧ ∃ outcome, reply.outcome = some outcome := by
  refine ⟨fun _ => parseAnswer_toBytes hlib, fun _ => parseAnswer_batchFrame hlib,
    fun frame reply h => ?_⟩
  exact ⟨h.exactlyOne, h.exactlyOne.outcome⟩

/-- An error with data that is `null`. -/
def nullData : Response := ⟨.error ((ErrorObject.new 5 "no").withData .null), .null⟩

theorem server_client_null :
    ∃ reply,
      parseAnswer SerdeJson.reference (nullData.toBytes SerdeJson.reference) = .single reply ∧
        Reply.Answers reply nullData := by
  refine (server_client _ SerdeJson.reference_laws).1 nullData ⟨trivial, ?_⟩
  rintro e data he hdata
  cases he
  cases hdata
  exact ⟨0, by decide, .null⟩

end Jsonrpc
