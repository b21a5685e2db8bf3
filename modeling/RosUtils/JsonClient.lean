/-
Building the Request object — the client's outbound half.

A frame is assembled from fixed pieces, the method, the encoded parameters and the
id.  The bytes are those of an object (`objectOf_callText`), which the server's `parse`
reads back, alone and in a batch, and which `frame` finds in a stream:
`client_server`.
-/
import RosUtils.JsonResponse

open ExceptState JsonText JsonReader JsonWriter StreamFraming

namespace Jsonrpc

/-! ### The client -/

section Client

variable {ε : Type}

/-- `BuildError`: why a call could not be built. -/
inductive BuildError (ε : Type) where
  | paramsNotStructured
  | encode (e : ε)

/-- What `to_raw_value` makes of the parameters, if there are any. -/
abbrev Encoded (ε : Type) := Option (Except ε RawValue)

/-- `open`: everything up to an `id` member or the closing brace. -/
def openCall (lib : SerdeJson) (out : List UInt8) (method : String) (params : Encoded ε) :
    Except (BuildError ε) (List UInt8) :=
  let out := out ++ bytes "\x7b\"jsonrpc\":\""
  let out := out ++ bytes version
  let out := out ++ bytes "\",\"method\":"
  let out := out ++ Utf8.encode (lib.writeStr method)
  match params with
  | none => .ok out
  | some (.error e) => .error (.encode e)
  | some (.ok raw) =>
    if (Utf8.encode raw.val).head? = some '['.toUInt8 ∨
        (Utf8.encode raw.val).head? = some '{'.toUInt8 then
      let out := out ++ bytes ",\"params\":"
      .ok (out ++ Utf8.encode raw.val)
    else .error .paramsNotStructured

/-- `Caller`: mints ids and builds request frames. -/
structure Caller where
  next : UInt64

/-- `Caller::new`. -/
def Caller.new : Caller := ⟨1⟩

/-- A `u64` as a number. -/
def Integer.ofUInt64 (n : UInt64) : Integer :=
  ⟨n.toNat, by omega, by have := n.toNat_lt; omega⟩

/-- `Caller::peek_id`. -/
def Caller.peekId (caller : Caller) : Id := .number (.int (Integer.ofUInt64 caller.next))

/-- `Caller::request_with_id`. -/
def Caller.requestWithId (lib : SerdeJson) (_ : Caller) (id : Id) (method : String)
    (params : Encoded ε) : Except (BuildError ε) (List UInt8) := do
  let out ← openCall lib [] method params
  let out := out ++ bytes ",\"id\":"
  let out := out ++ Utf8.encode (writeId lib id)
  pure (out ++ bytes "\x7d")

/-- `saturating_add(1)`. -/
def saturatingSucc (n : UInt64) : UInt64 := if n.toNat + 1 < 2 ^ 64 then n + 1 else n

/-- `Caller::request`: the id is used up only when the frame is built. -/
def Caller.request (lib : SerdeJson) (caller : Caller) (method : String) (params : Encoded ε) :
    Except (BuildError ε) (Id × List UInt8) × Caller :=
  let id := caller.peekId
  match caller.requestWithId lib id method params with
  | .error e => (.error e, caller)
  | .ok frame => (.ok (id, frame), ⟨saturatingSucc caller.next⟩)

/-- `Caller::notification`. -/
def Caller.notification (lib : SerdeJson) (_ : Caller) (method : String) (params : Encoded ε) :
    Except (BuildError ε) (List UInt8) := do
  let out ← openCall lib [] method params
  pure (out ++ bytes "\x7d")

/-- `batch_of`. -/
def batchOf (objects : List (List UInt8)) : Option (List UInt8) :=
  writeBatch (fun object out => out ++ object) objects

end Client

/-! ### What is built -/

/-- The parameters encode to an array or an object, or there are none. -/
inductive Serialized {ε : Type} : Encoded ε → Option Params → Prop
  | none : Serialized none none
  | some {raw : RawValue} {p : Params} (h : ParamsIs raw.val p) :
      Serialized (some (.ok raw)) (some p)

/-- The id is a String, Null or an integer. -/
def Id.Exact : Id → Prop
  | .number (.float _) => False
  | _ => True

/-- The members of a call, by their names. -/
def callPairs (lib : SerdeJson) (r : Request) : List (String × Text) :=
  ("jsonrpc", quoted version) :: ("method", lib.writeStr r.method) ::
    ((r.params.map fun p => ("params", p.get)).toList ++
      (r.id.map fun id => ("id", writeId lib id)).toList)

def callMembers (lib : SerdeJson) (r : Request) : List (Text × Text) :=
  (callPairs lib r).map fun x => (quoted x.1, x.2)

/-- The text of a call. -/
def callText (lib : SerdeJson) (r : Request) : Text := objectText (callMembers lib r)

theorem ParamsIs.get_eq {v : Text} {p : Params} (h : ParamsIs v p) : p.get = v := by
  cases h <;> rfl

theorem ParamsIs.isValue {v : Text} {p : Params} (h : ParamsIs v p) : IsValue v := by
  cases h with
  | positional h => exact isValue_of_arrayOf h
  | named h => exact isValue_of_objectOf h

/-- The parameters begin with a bracket or a brace. -/
theorem ParamsIs.head {v : Text} {p : Params} (h : ParamsIs v p) :
    (Utf8.encode v).head? = some '['.toUInt8 ∨ (Utf8.encode v).head? = some '{'.toUInt8 := by
  cases h with
  | positional h =>
    obtain ⟨o, rfl⟩ := enclosed_begins h
    exact .inl (by rw [Utf8.encode_cons_ascii (by decide)]; rfl)
  | named h =>
    obtain ⟨o, rfl⟩ := enclosed_begins h
    exact .inr (by rw [Utf8.encode_cons_ascii (by decide)]; rfl)

section Build

variable {ε : Type} {lib : SerdeJson} {method : String} {params : Encoded ε} {p : Option Params}

/-- The text of a call up to its id. -/
def openText (lib : SerdeJson) (method : String) (p : Option Params) : Text :=
  '{' :: join ',' ((("jsonrpc", quoted version) :: ("method", lib.writeStr method) ::
    (p.map fun p => ("params", p.get)).toList).map fun x => memberText (quoted x.1, x.2))

theorem openCall_eq (h : Serialized params p) :
    openCall lib [] method params = .ok (Utf8.encode (openText lib method p)) := by
  cases h with
  | none =>
    show Except.ok _ = Except.ok _
    congr 1
    simp only [bytes_eq, ← Utf8.encode_append, List.nil_append]
    simp [openText, join, memberText, quoted]
  | @some raw q h =>
    refine Eq.trans (if_pos h.head) ?_
    congr 1
    simp only [bytes_eq, ← Utf8.encode_append, List.nil_append]
    simp [openText, join, memberText, quoted, h.get_eq]

theorem requestWithId_eq (caller : Caller) (id : Id) (h : Serialized params p) :
    caller.requestWithId lib id method params =
      .ok (Utf8.encode (callText lib ⟨some id, method, p⟩)) := by
  rw [Caller.requestWithId, openCall_eq h]
  show Except.ok _ = Except.ok _
  congr 1
  simp only [bytes_eq, ← Utf8.encode_append]
  cases p <;>
    simp [openText, callText, callMembers, callPairs, objectText, join, memberText, quoted]

theorem notification_eq (caller : Caller) (h : Serialized params p) :
    caller.notification lib method params =
      .ok (Utf8.encode (callText lib ⟨none, method, p⟩)) := by
  rw [Caller.notification, openCall_eq h]
  show Except.ok _ = Except.ok _
  congr 1
  simp only [bytes_eq, ← Utf8.encode_append]
  cases p <;>
    simp [openText, callText, callMembers, callPairs, objectText, join, memberText, quoted]

theorem request_eq (caller : Caller) (h : Serialized params p) :
    caller.request lib method params =
      (.ok (caller.peekId, Utf8.encode (callText lib ⟨some caller.peekId, method, p⟩)),
        ⟨saturatingSucc caller.next⟩) := by
  rw [Caller.request, requestWithId_eq caller caller.peekId h]

end Build

/-! ### What the server reads -/

/-- A request that a client can build. -/
structure Buildable (r : Request) : Prop where
  id : ∀ i, r.id = some i → i.Exact
  params : ∀ p, r.params = some p → ParamsIs p.get p

section Server

variable {lib : SerdeJson} {r : Request}

theorem mem_callPairs {x : String × Text} (hx : x ∈ callPairs lib r) :
    x = ("jsonrpc", quoted version) ∨ x = ("method", lib.writeStr r.method) ∨
      (∃ p, r.params = some p ∧ x = ("params", p.get)) ∨
        ∃ i, r.id = some i ∧ x = ("id", writeId lib i) := by
  simpa [callPairs, eq_comm] using hx

theorem callPairs_ok (hlib : lib.Laws) (hr : Buildable r) {x : String × Text}
    (hx : x ∈ callPairs lib r) :
    StrIs (quoted x.1) x.1 ∧ IsValue x.2 := by
  rcases mem_callPairs hx with rfl | rfl | ⟨p, hp, rfl⟩ | ⟨i, -, rfl⟩
  · exact ⟨strIs_quoted "jsonrpc" (by decide), isValue_quoted_version⟩
  · exact ⟨strIs_quoted "method" (by decide), hlib.isValue_writeStr _⟩
  · exact ⟨strIs_quoted "params" (by decide), (hr.params p hp).isValue⟩
  · exact ⟨strIs_quoted "id" (by decide), isValue_writeId hlib i⟩

theorem objectOf_callText (hlib : lib.Laws) (hr : Buildable r) :
    ObjectOf (callMembers lib r) (callText lib r) := by
  refine objectOf_objectText fun m hm => ?_
  obtain ⟨x, hx, rfl⟩ := List.mem_map.mp hm
  exact ⟨⟨x.1, (callPairs_ok hlib hr hx).1⟩, (callPairs_ok hlib hr hx).2⟩

theorem decoded_callMembers (hlib : lib.Laws) (hr : Buildable r) :
    List.Forall₂ Decoded (callMembers lib r) (callPairs lib r) := by
  rw [callMembers, List.forall₂_map_left_iff, List.forall₂_same]
  exact fun x hx => ⟨(callPairs_ok hlib hr hx).1, rfl⟩

/-- An id that is written is read back. -/
theorem idIs_writeId (hlib : lib.Laws) {i : Id} (hi : i.Exact) : IdIs lib (writeId lib i) i := by
  cases i with
  | number n =>
    cases n with
    | int n =>
      rw [writeId, hlib.writeInteger, writeInt_eq]
      exact .number (integerText_intText n.val).wf (hlib.number_intText n)
    | float f => exact hi.elim
  | string s => exact .string (hlib.writeStr s)
  | null =>
    rw [writeId, hlib.writeNone]
    exact .null

/-- What the map of the members holds. -/
theorem get_callPairs (lib : SerdeJson) (r : Request) :
    (Map.ofList (callPairs lib r)).get "jsonrpc" = some (quoted version) ∧
    (Map.ofList (callPairs lib r)).get "method" = some (lib.writeStr r.method) ∧
    (Map.ofList (callPairs lib r)).get "params" = r.params.map Params.get ∧
    (Map.ofList (callPairs lib r)).get "id" = r.id.map (writeId lib) := by
  obtain ⟨id, method, params⟩ := r
  cases params <;> cases id <;> simp [callPairs, Map.ofList, Map.get_insert, Map.get]

theorem one_callText (hlib : lib.Laws) (hr : Buildable r) :
    one lib (callText lib r) = .valid r := by
  have hobject := objectOf_callText hlib hr
  have hself := padded_self (isValue_of_objectOf hobject)
  have hpad := (padded_iff isValue_of_objectOf hself).mpr hobject
  rw [one_decoded hlib hpad (decoded_callMembers hlib hr), validate_eq_valid]
  obtain ⟨hjsonrpc, hmethod, hparams, hid⟩ := get_callPairs lib r
  refine ⟨⟨?_, ?_, ?_⟩, ?_⟩
  · rw [hjsonrpc]
    exact (asStr_eq_some hlib isValue_quoted_version).mpr (strIs_quoted version (by decide))
  · rw [hmethod]
    exact (asStr_eq_some hlib (hlib.isValue_writeStr _)).mpr (hlib.writeStr _)
  · rw [hparams]
    cases hp : r.params with
    | none => rfl
    | some p =>
      have hpis := hr.params p hp
      exact congrArg some ((Params.fromRaw_eq_some hpis.isValue).mpr hpis)
  · rw [hid]
    cases hi : r.id with
    | none => rfl
    | some i =>
      exact congrArg some ((idIs_writeId hlib (hr.id i hi)).fromRaw_eq hlib)

theorem parse_callText (hlib : lib.Laws) (hr : Buildable r) :
    parse lib (Utf8.encode (callText lib r)) = .single (.valid r) := by
  have hobject := objectOf_callText hlib hr
  have hself := padded_self (isValue_of_objectOf hobject)
  rw [parse_object hlib ((padded_iff isValue_of_objectOf hself).mpr hobject), one_callText hlib hr]

/-- A text that is an object or an array is framed as a whole. -/
theorem frame_text {o : Text} (h : (∃ ms, ObjectOf ms o) ∨ ∃ vs, ArrayOf vs o) :
    frame (Utf8.encode o) = some (.complete (Utf8.encode o).length) := by
  have hencloses : Encloses (Utf8.encode o) := by
    rcases h with ⟨ms, hms⟩ | ⟨vs, hvs⟩
    · exact encloses_of_object (object_iff.mpr ⟨o, ms, rfl, hms⟩)
    · exact encloses_of_array (array_iff.mpr ⟨o, vs, rfl, hvs⟩)
  have hframe := frame_of_encloses (w := []) nofun hencloses []
  rwa [List.nil_append, List.append_nil, List.length_nil, Nat.zero_add] at hframe

theorem element_callText (hlib : lib.Laws) (hr : Buildable r) :
    element lib (callText lib r) = .valid r := by
  have hobject := objectOf_callText hlib hr
  have hself := padded_self (isValue_of_objectOf hobject)
  rw [element, if_pos ((firstToken_object hself).mpr ⟨_, hobject⟩), one_callText hlib hr]

theorem frame_callText (hlib : lib.Laws) (hr : Buildable r) :
    frame (Utf8.encode (callText lib r)) =
      some (.complete (Utf8.encode (callText lib r)).length) :=
  frame_text (.inl ⟨_, objectOf_callText hlib hr⟩)

theorem batchOf_eq {objects : List (List UInt8)} (hne : objects ≠ []) :
    batchOf objects =
      some ('['.toUInt8 :: (join ','.toUInt8 objects ++ [']'.toUInt8])) := by
  have hwrite : ∀ (object out : List UInt8), out ++ object = out ++ id object := fun _ _ => rfl
  rw [batchOf, writeBatch_eq hwrite hne, List.map_id]

/-- **A batch of calls**: it is built, it holds the calls, and it is framed as a whole. -/
theorem batchOf_callTexts (hlib : lib.Laws) {rs : List Request} (hne : rs ≠ [])
    (hr : ∀ r ∈ rs, Buildable r) :
    ∃ out, batchOf (rs.map fun r => Utf8.encode (callText lib r)) = some out ∧
      parse lib out = .batch (rs.map .valid) ∧ frame out = some (.complete out.length) := by
  have hvalues : ∀ v ∈ rs.map (callText lib), IsValue v := by
    intro v hv
    obtain ⟨r, hmem, rfl⟩ := List.mem_map.mp hv
    exact isValue_of_objectOf (objectOf_callText hlib (hr r hmem))
  have harray := arrayOf_arrayText hvalues
  have hself := padded_self (isValue_of_arrayOf harray)
  refine ⟨Utf8.encode (arrayText (rs.map (callText lib))), ?_, ?_, frame_text (.inr ⟨_, harray⟩)⟩
  · rw [batchOf_eq fun h => hne (List.map_eq_nil_iff.mp h), encode_arrayText, List.map_map]
    rfl
  · rw [parse_array hlib ((padded_iff isValue_of_arrayOf hself).mpr harray),
      if_neg fun h => hne (List.map_eq_nil_iff.mp h), List.map_map]
    have helement : ∀ r ∈ rs, (element lib ∘ callText lib) r = .valid r := by
      intro r hmem
      rw [Function.comp_apply, element_callText hlib (hr r hmem)]
    rw [List.map_congr_left helement]

end Server

/-! ### What a client builds, a server reads -/

/-- `frame` is what a client builds for the request `r`. -/
inductive Built (ε : Type) (lib : SerdeJson) : List UInt8 → Request → Prop
  | requestWithId {caller : Caller} {id : Id} {method : String} {params : Encoded ε}
      {p : Option Params} {frame : List UInt8} (hid : id.Exact) (hp : Serialized params p)
      (h : caller.requestWithId lib id method params = .ok frame) :
      Built ε lib frame ⟨some id, method, p⟩
  | request {caller : Caller} {id : Id} {method : String} {params : Encoded ε}
      {p : Option Params} {frame : List UInt8} (hp : Serialized params p)
      (h : (caller.request lib method params).1 = .ok (id, frame)) :
      Built ε lib frame ⟨some id, method, p⟩
  | notification {caller : Caller} {method : String} {params : Encoded ε}
      {p : Option Params} {frame : List UInt8} (hp : Serialized params p)
      (h : caller.notification lib method params = .ok frame) :
      Built ε lib frame ⟨none, method, p⟩

/-- A frame that a client sends: one call, or a batch of them. -/
def Sent (ε : Type) (lib : SerdeJson) (frame : List UInt8) : Prop :=
  (∃ r, Built ε lib frame r) ∨
    ∃ objects, (∀ o ∈ objects, ∃ r, Built ε lib o r) ∧ batchOf objects = some frame

section ClientServer

variable {ε : Type} {lib : SerdeJson}

theorem Serialized.buildable {params : Encoded ε} {p : Option Params} (h : Serialized params p)
    {method : String} {id : Option Id} (hid : ∀ i, id = Option.some i → i.Exact) :
    Buildable ⟨id, method, p⟩ := by
  refine ⟨hid, ?_⟩
  rintro q rfl
  cases h with
  | some h => exact h.get_eq.symm ▸ h

theorem Built.spec {frame : List UInt8} {r : Request} (h : Built ε lib frame r) :
    Buildable r ∧ frame = Utf8.encode (callText lib r) := by
  cases h with
  | requestWithId hid hp h =>
    rw [requestWithId_eq _ _ hp] at h
    cases h
    exact ⟨hp.buildable fun _ h => Option.some.inj h ▸ hid, rfl⟩
  | request hp h =>
    rw [request_eq _ hp] at h
    cases h
    exact ⟨hp.buildable fun _ h => Option.some.inj h ▸ trivial, rfl⟩
  | notification hp h =>
    rw [notification_eq _ hp] at h
    cases h
    exact ⟨hp.buildable fun _ h => (Option.some_ne_none _ h.symm).elim, rfl⟩

/-- The calls of a list of built objects. -/
theorem exists_calls {objects : List (List UInt8)}
    (h : ∀ o ∈ objects, ∃ r, Built ε lib o r) : ∃ rs, List.Forall₂ (Built ε lib) objects rs := by
  induction objects with
  | nil => exact ⟨[], .nil⟩
  | cons o objects ih =>
    obtain ⟨r, hr⟩ := h o List.mem_cons_self
    obtain ⟨rs, hrs⟩ := ih fun o ho => h o (List.mem_cons_of_mem _ ho)
    exact ⟨r :: rs, .cons hr hrs⟩

theorem calls_spec {objects : List (List UInt8)} {rs : List Request}
    (h : List.Forall₂ (Built ε lib) objects rs) :
    objects = rs.map (fun r => Utf8.encode (callText lib r)) ∧ ∀ r ∈ rs, Buildable r := by
  induction h with
  | nil => exact ⟨rfl, List.forall_mem_nil _⟩
  | cons hr _ ih =>
    obtain ⟨hbuildable, rfl⟩ := hr.spec
    rw [List.map_cons, ← ih.1]
    exact ⟨rfl, List.forall_mem_cons.mpr ⟨hbuildable, ih.2⟩⟩

theorem batchOf_built (hlib : lib.Laws) {objects : List (List UInt8)} {rs : List Request}
    (hne : objects ≠ []) (h : List.Forall₂ (Built ε lib) objects rs) :
    ∃ out, batchOf objects = some out ∧ parse lib out = .batch (rs.map .valid) ∧
      frame out = some (.complete out.length) := by
  obtain ⟨rfl, hr⟩ := calls_spec h
  exact batchOf_callTexts hlib (by simpa using hne) hr

theorem Sent.framed (hlib : lib.Laws) {f : List UInt8} (h : Sent ε lib f) :
    frame f = some (.complete f.length) := by
  rcases h with ⟨r, h⟩ | ⟨objects, h, hbatch⟩
  · obtain ⟨hr, rfl⟩ := h.spec
    exact frame_callText hlib hr
  · obtain ⟨rs, hrs⟩ := exists_calls h
    have hne : objects ≠ [] := by
      rintro rfl
      cases hbatch
    obtain ⟨out, hout, -, hframe⟩ := batchOf_built hlib hne hrs
    cases hout.symm.trans hbatch
    exact hframe

end ClientServer

/-- **What a client builds, a server reads.**  A call with parameters that encode to an array
or an object is built; `parse` gives back its id, its method and the text of its parameters,
alone and in a batch; and `frame` cuts a stream of such frames where they end. -/
theorem client_server (ε : Type) (lib : SerdeJson) (hlib : lib.Laws) :
    (∀ (caller : Caller) (id : Id) (method : String) (params : Encoded ε) (p : Option Params),
      id.Exact → Serialized params p →
        (∃ frame, caller.requestWithId lib id method params = .ok frame) ∧
        (∃ frame, (caller.request lib method params).1 = .ok (caller.peekId, frame)) ∧
        ∃ frame, caller.notification lib method params = .ok frame) ∧
    (∀ f r, Built ε lib f r →
      parse lib f = .single (.valid r) ∧ frame f = some (.complete f.length)) ∧
    (∀ objects rs, objects ≠ [] → List.Forall₂ (Built ε lib) objects rs →
      ∃ out, batchOf objects = some out ∧ parse lib out = .batch (rs.map .valid) ∧
        frame out = some (.complete out.length)) ∧
    ∀ fs, (∀ f ∈ fs, Sent ε lib f) →
      framer.receive [fs.flatten] = ⟨[], fs, fs.flatten.length, .incomplete⟩ := by
  refine ⟨fun caller id method params p _ hp => ?_, fun f r h => ?_,
    fun _ _ => batchOf_built hlib, ?_⟩
  · rw [requestWithId_eq caller id hp, request_eq caller hp, notification_eq caller hp]
    exact ⟨⟨_, rfl⟩, ⟨_, rfl⟩, ⟨_, rfl⟩⟩
  · obtain ⟨hr, rfl⟩ := h.spec
    exact ⟨parse_callText hlib hr, frame_callText hlib hr⟩
  · intro fs hfs
    exact framer.receive_messages fun f hf => verdict_eq_iff.mpr ((hfs f hf).framed hlib)

theorem client_server_ping :
    ∃ frame, (Caller.new.request SerdeJson.reference "ping" (none : Encoded Unit)).1 =
        .ok (Caller.new.peekId, frame) ∧
      parse SerdeJson.reference frame =
        .single (.valid ⟨some Caller.new.peekId, "ping", none⟩) := by
  obtain ⟨hbuilds, hreads, -⟩ := client_server Unit _ SerdeJson.reference_laws
  obtain ⟨-, ⟨frame, hframe⟩, -⟩ := hbuilds Caller.new .null "ping" none none trivial .none
  exact ⟨frame, hframe, (hreads frame _ (.request .none hframe)).1⟩

end Jsonrpc
