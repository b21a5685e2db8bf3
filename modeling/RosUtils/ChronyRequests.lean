/-
Requests to chronyd (`request.rs` of `truenas_chrony`, and `put_address`).

A request is a header of 20 bytes, a payload, and zeros up to the length of its reply.  The
payload belongs to the question and the length to the answer, so it has to be seen that the one
has room in the other, and that the zeros hide no difference between two payloads.

* `bytes_eq` — where everything stands in a request;
* `putAddress_read` — an address is read back from what is written of it;
* `decode_exclusive` — no datagram answers two requests that differ in their command or
  sequence number;
* `requests_told_apart` — all of it, for the requests that can be made.
-/
import RosUtils.ChronyReports

namespace Chrony

open BigEndian FixedFields

/-! ### Addresses -/

/-- `FAMILY_NONE`. -/
def familyNone : UInt16 := 0

/-- `FAMILY_IPV4`. -/
def familyIpv4 : UInt16 := 1

/-- `FAMILY_IPV6`. -/
def familyIpv6 : UInt16 := 2

/-- `FAMILY_ID`. -/
def familyId : UInt16 := 3

/-- The match of `put_address`: the 16 bytes that hold the address, and the family code. -/
def Address.parts : Address → List UInt8 × UInt16
  | .unspecified => (List.replicate 16 0, familyNone)
  | .v4 a b c d => ([a, b, c, d] ++ List.replicate 12 0, familyIpv4)
  | .v6 octets => (octets.toList, familyIpv6)
  | .id n => (u32ToBe n ++ List.replicate 12 0, familyId)

/-- `put_address`. -/
def putAddress (buf : List UInt8) (address : Address) : List UInt8 :=
  buf ++ address.parts.1 ++ u16ToBe address.parts.2 ++ [0, 0]

theorem Address.parts_length (address : Address) : address.parts.1.length = 16 := by
  cases address with
  | unspecified => rfl
  | v4 a b c d => rfl
  | v6 octets => exact octets.length_toList
  | id n => rfl

/-- The family code tells which kind of address the bytes hold. -/
theorem Address.ofFamily_parts (address : Address) :
    Address.ofFamily address.parts.1 address.parts.2 = address := by
  cases address with
  | unspecified => rfl
  | v4 a b c d => rfl
  | v6 octets =>
    refine congrArg Address.v6 (Vector.ext fun i hi => ?_)
    rw [Vector.getElem_ofFn, parts, List.getD_eq_getElem?_getD,
      List.getElem?_eq_getElem (by rw [Vector.length_toList]; exact hi), Option.getD_some,
      Vector.getElem_toList]
  | id n => exact congrArg Address.id (u32OfBe_u32ToBe n)

theorem putAddress_length (address : Address) : (putAddress [] address).length = 20 := by
  rw [putAddress, List.length_append, List.length_append, List.nil_append, address.parts_length]
  rfl

/-- **An address is read back.** -/
theorem putAddress_read (address : Address) (rest : List UInt8) :
    Reader.address.run (putAddress [] address ++ rest) = .ok (address, rest) := by
  have hparts := address.parts_length
  have hlen := putAddress_length address
  have hcode : (u16ToBe address.parts.2).length = 2 := toBe_length 2 _
  have haddr : field 0 16 (putAddress [] address ++ rest) = address.parts.1 := by
    rw [putAddress, field, List.drop_zero, List.nil_append, List.append_assoc, List.append_assoc,
      List.take_left' hparts]
  have hfamily : field 16 2 (putAddress [] address ++ rest) = u16ToBe address.parts.2 := by
    rw [putAddress, field, List.nil_append, List.append_assoc, List.append_assoc,
      List.drop_left' hparts, List.take_left' hcode]
  have hroom : 0 + 20 ≤ (putAddress [] address ++ rest).length := by
    rw [List.length_append]
    omega
  have hread := Reader.address_at hroom
  rw [At, addressAt, halfAt, haddr, hfamily, u16OfBe_u16ToBe, address.ofFamily_parts,
    List.drop_left' hlen] at hread
  exact hread

/-! ### The requests -/

/-- `REQUEST_HEADER`. -/
def requestHeader : ℕ := 20

/-- `about`. -/
def about {T : Type} (layout : Layout T) (address : Address) (sequence : UInt32) : Request T :=
  build layout (putAddress [] address) sequence

section Constructors

variable {τ : Type} (clock : Clock τ)

/-- `Request::tracking`. -/
def Request.tracking (sequence : UInt32) : Request (Kind.tracking.Report τ) :=
  build (Kind.tracking.layout clock) [] sequence

/-- `Request::source_count`. -/
def Request.sourceCount (sequence : UInt32) : Request (Kind.sourceCount.Report τ) :=
  build (Kind.sourceCount.layout clock) [] sequence

/-- `Request::source`. -/
def Request.source (index sequence : UInt32) : Request (Kind.source.Report τ) :=
  build (Kind.source.layout clock) (u32ToBe index) sequence

/-- `Request::selection`. -/
def Request.selection (index sequence : UInt32) : Request (Kind.selection.Report τ) :=
  build (Kind.selection.layout clock) (u32ToBe index) sequence

/-- `Request::authentication`. -/
def Request.authentication (address : Address) (sequence : UInt32) :
    Request (Kind.authentication.Report τ) :=
  about (Kind.authentication.layout clock) address sequence

/-- What can be asked. -/
inductive Query where
  | tracking
  | sourceCount
  | source (index : UInt32)
  | selection (index : UInt32)
  | authentication (address : Address)
  deriving DecidableEq

namespace Query

/-- The report that is asked for. -/
def kind : Query → Kind
  | tracking => .tracking
  | sourceCount => .sourceCount
  | source _ => .source
  | selection _ => .selection
  | authentication _ => .authentication

/-- What is put behind the header. -/
def payload : Query → List UInt8
  | tracking => []
  | sourceCount => []
  | source index => u32ToBe index
  | selection index => u32ToBe index
  | authentication address => putAddress [] address

/-- The request that asks it. -/
def request (sequence : UInt32) : (q : Query) → Request (q.kind.Report τ)
  | tracking => Request.tracking clock sequence
  | sourceCount => Request.sourceCount clock sequence
  | source index => Request.source clock index sequence
  | selection index => Request.selection clock index sequence
  | authentication address => Request.authentication clock address sequence

theorem request_eq (sequence : UInt32) (q : Query) :
    q.request clock sequence = build (q.kind.layout clock) q.payload sequence := by
  cases q <;> rfl

end Query

end Constructors

/-! ### Where things stand -/

section Bytes

variable {T : Type} {layout : Layout T} {data : List UInt8}

/-- The payload has room, which `build` asserts. -/
def HasRoom (layout : Layout T) (data : List UInt8) : Prop :=
  requestHeader + data.length ≤ replyHeader + layout.len

theorem bytes_eq (hroom : HasRoom layout data) (sequence : UInt32) (attempt : UInt16) :
    ((build layout data sequence).withAttempt attempt).bytes =
      [version, typeRequest, 0, 0] ++ u16ToBe layout.command ++ u16ToBe attempt ++
        u32ToBe sequence ++ List.replicate 8 0 ++ data ++
        List.replicate (replyHeader + layout.len - (requestHeader + data.length)) 0 := by
  have hlen : ([version, typeRequest, 0, 0] ++ u16ToBe layout.command ++ [0, 0] ++
      u32ToBe sequence ++ List.replicate 8 0 ++ data).length = requestHeader + data.length := by
    rw [List.length_append]
    rfl
  have htake := List.take_of_length_le (hlen.trans_le hroom)
  simp only [Request.withAttempt, build, resize, htake, hlen]
  rfl

theorem resize_length (bytes : List UInt8) (len : ℕ) : (resize bytes len).length = len := by
  rw [resize, List.length_append, List.length_take, List.length_replicate]
  omega

theorem bytes_length (layout : Layout T) (data : List UInt8) (sequence : UInt32)
    (attempt : UInt16) :
    ((build layout data sequence).withAttempt attempt).bytes.length =
      replyHeader + layout.len := by
  have hlen : (build layout data sequence).bytes.length = 28 + layout.len := resize_length _ _
  have hattempt : (u16ToBe attempt).length = 2 := toBe_length 2 _
  rw [Request.withAttempt, List.length_append, List.length_append, List.length_take,
    List.length_drop, hlen, hattempt]
  show _ = 28 + layout.len
  omega

/-- The attempt stands behind the command. -/
theorem field_attempt (layout : Layout T) (data : List UInt8) (sequence : UInt32)
    (attempt : UInt16) :
    field 6 2 ((build layout data sequence).withAttempt attempt).bytes = u16ToBe attempt := by
  have hlen : replyHeader + layout.len = layout.len + 28 := Nat.add_comm _ _
  simp only [field, Request.withAttempt, build, resize, hlen, u16ToBe, u32ToBe, toBe]
  rfl

/-- No byte of the payload is cut off. -/
theorem field_payload (hroom : HasRoom layout data) (sequence : UInt32) (attempt : UInt16) :
    field requestHeader data.length ((build layout data sequence).withAttempt attempt).bytes =
      data := by
  rw [bytes_eq hroom, field, List.append_assoc]
  exact List.take_left

/-- What can be told from the bytes of a request, if the length of the payload is known from
the command. -/
theorem build_injective {T' : Type} {layout' : Layout T'} {data' : List UInt8}
    {sequence sequence' : UInt32} {attempt attempt' : UInt16}
    (hroom : HasRoom layout data) (hroom' : HasRoom layout' data')
    (hlen : layout.command = layout'.command → data.length = data'.length)
    (hsame : ((build layout data sequence).withAttempt attempt).bytes =
      ((build layout' data' sequence').withAttempt attempt').bytes) :
    layout.command = layout'.command ∧ data = data' ∧ sequence = sequence' ∧
      attempt = attempt' := by
  obtain ⟨hcommand, hsequence⟩ := field_build layout data sequence attempt
  obtain ⟨hcommand', hsequence'⟩ := field_build layout' data' sequence' attempt'
  have hattempt := field_attempt layout data sequence attempt
  have hpayload := field_payload hroom sequence attempt
  rw [hsame] at hcommand hsequence hattempt hpayload
  have hc : layout.command = layout'.command :=
    Function.LeftInverse.injective u16OfBe_u16ToBe (hcommand.symm.trans hcommand')
  refine ⟨hc, ?_, ?_, ?_⟩
  · rw [hlen hc, field_payload hroom'] at hpayload
    exact hpayload.symm
  · exact Function.LeftInverse.injective u32OfBe_u32ToBe (hsequence.symm.trans hsequence')
  · rw [field_attempt] at hattempt
    exact Function.LeftInverse.injective u16OfBe_u16ToBe hattempt.symm

end Bytes

/-! ### Telling requests apart -/

/-- **No datagram answers two requests** that differ in their command or sequence number. -/
theorem decode_exclusive {T T' : Type} (r : Request T) (r' : Request T') (d : Datagram)
    (hdiffer : r.command ≠ r'.command ∨ r.sequence ≠ r'.sequence) :
    r.decode d = .unrelated ∨ r'.decode d = .unrelated := by
  by_cases hecho : Echoes r.command r.sequence d
  · right
    refine r'.decode_eq_unrelated fun hecho' => ?_
    rcases hdiffer with hcommand | hsequence
    · have hsame := hecho.1.symm.trans hecho'.1
      exact hcommand (Function.LeftInverse.injective u16OfBe_u16ToBe hsame)
    · exact hsequence (hecho.2.unique hecho'.2)
  · exact .inl (r.decode_eq_unrelated hecho)

section Queries

variable {τ : Type} (clock : Clock τ)

/-- The command of each report. -/
def Kind.command : Kind → UInt16
  | .sourceCount => 14
  | .source => 15
  | .selection => 69
  | .tracking => 33
  | .authentication => 67

theorem Kind.layout_command (k : Kind) : (k.layout clock).command = k.command := by
  cases k <;> rfl

theorem Kind.command_injective {k k' : Kind}
    (h : (k.layout clock).command = (k'.layout clock).command) : k = k' := by
  rw [layout_command, layout_command] at h
  revert h
  cases k <;> cases k' <;> decide

namespace Query

/-- Every payload has room in front of the end of its reply. -/
theorem hasRoom (q : Query) : HasRoom (q.kind.layout clock) q.payload := by
  cases q with
  | tracking => exact (by decide : 20 + 0 ≤ 28 + 76)
  | sourceCount => exact (by decide : 20 + 0 ≤ 28 + 4)
  | source index => exact (by decide : 20 + 4 ≤ 28 + 48)
  | selection index => exact (by decide : 20 + 4 ≤ 28 + 48)
  | authentication address =>
    show 20 + (putAddress [] address).length ≤ 28 + 24
    rw [putAddress_length]
    decide

/-- The length of a payload is known from the report that is asked for. -/
theorem payload_length (q : Query) :
    q.payload.length =
      match q.kind with
      | .sourceCount => 0
      | .source => 4
      | .selection => 4
      | .tracking => 0
      | .authentication => 20 := by
  cases q with
  | tracking => rfl
  | sourceCount => rfl
  | source index => rfl
  | selection index => rfl
  | authentication address => exact putAddress_length address

theorem payload_injective {q q' : Query} (hkind : q.kind = q'.kind)
    (hpayload : q.payload = q'.payload) : q = q' := by
  have hindex : ∀ {index index' : UInt32}, u32ToBe index = u32ToBe index' → index = index' :=
    fun h => Function.LeftInverse.injective u32OfBe_u32ToBe h
  cases q with
  | tracking => cases q' <;> first | rfl | cases hkind
  | sourceCount => cases q' <;> first | rfl | cases hkind
  | source index =>
    cases q' with
    | source index' => rw [hindex hpayload]
    | _ => cases hkind
  | selection index =>
    cases q' with
    | selection index' => rw [hindex hpayload]
    | _ => cases hkind
  | authentication address =>
    cases q' with
    | authentication address' =>
      -- both are read back from the same bytes
      have hread := putAddress_read address []
      have hsame : putAddress [] address = putAddress [] address' := hpayload
      rw [hsame, putAddress_read address'] at hread
      cases hread
      rfl
    | _ => cases hkind

variable {clock}

/-- **Everything that is asked can be told from the datagram.** -/
theorem bytes_injective {q q' : Query} {sequence sequence' : UInt32} {attempt attempt' : UInt16}
    (h : ((q.request clock sequence).withAttempt attempt).bytes =
      ((q'.request clock sequence').withAttempt attempt').bytes) :
    q = q' ∧ sequence = sequence' ∧ attempt = attempt' := by
  rw [request_eq, request_eq] at h
  have hlen : (q.kind.layout clock).command = (q'.kind.layout clock).command →
      q.payload.length = q'.payload.length := by
    intro hcommand
    rw [payload_length, payload_length, Kind.command_injective clock hcommand]
  obtain ⟨hcommand, hpayload, hrest⟩ := build_injective (q.hasRoom clock) (q'.hasRoom clock) hlen h
  exact ⟨payload_injective (Kind.command_injective clock hcommand) hpayload, hrest⟩

end Query

/-- **Requests are faithful and told apart.**  An address is read back from the 20 bytes that
are written of it.  A request has the length of its reply, with the whole payload in it.  The
datagrams of different requests are different, and no datagram is an answer to two requests
that differ in their command or sequence number. -/
theorem requests_told_apart (clock : Clock τ) :
    (∀ address rest, (putAddress [] address).length = 20 ∧
      Reader.address.run (putAddress [] address ++ rest) = .ok (address, rest)) ∧
    (∀ (k : Kind) (payload : List UInt8) sequence attempt,
      let bytes := ((build (k.layout clock) payload sequence).withAttempt attempt).bytes
      bytes.length = replyHeader + (k.layout clock).len ∧
        (HasRoom (k.layout clock) payload →
          field requestHeader payload.length bytes = payload)) ∧
    (∀ (q : Query) sequence,
      q.request clock sequence = build (q.kind.layout clock) q.payload sequence ∧
        HasRoom (q.kind.layout clock) q.payload) ∧
    (∀ (q q' : Query) sequence sequence' attempt attempt',
      (q.kind.layout clock).command ≠ (q'.kind.layout clock).command ∨ q.payload ≠ q'.payload ∨
          sequence ≠ sequence' ∨ attempt ≠ attempt' →
        ((q.request clock sequence).withAttempt attempt).bytes ≠
          ((q'.request clock sequence').withAttempt attempt').bytes) ∧
    ∀ {T T' : Type} (r : Request T) (r' : Request T') (d : Datagram),
      r.command ≠ r'.command ∨ r.sequence ≠ r'.sequence →
        r.decode d = .unrelated ∨ r'.decode d = .unrelated := by
  refine ⟨fun address rest => ⟨putAddress_length address, putAddress_read address rest⟩,
    fun k payload sequence attempt => ⟨bytes_length _ _ _ _, fun hroom => field_payload hroom _ _⟩,
    fun q sequence => ⟨q.request_eq clock sequence, q.hasRoom clock⟩, ?_,
    fun r r' d => decode_exclusive r r' d⟩
  intro q q' sequence sequence' attempt attempt' hdiffer hsame
  obtain ⟨rfl, rfl, rfl⟩ := Query.bytes_injective hsame
  rcases hdiffer with h | h | h | h <;> exact h rfl

end Queries

/-- The third and the fourth source: the payload has room, the datagrams differ, and with the
sequence numbers 1 and 2 nothing answers both. -/
theorem requests_told_apart_sources :
    let clock : Clock Unit := ⟨(), fun _ _ => some (), fun _ _ => some ()⟩
    field requestHeader 4 ((Request.source clock 2 1).withAttempt 5).bytes = [0, 0, 0, 2] ∧
      ((Request.source clock 2 1).withAttempt 5).bytes ≠
        ((Request.source clock 3 1).withAttempt 5).bytes ∧
      ∀ d, (Request.source clock 2 1).decode d = .unrelated ∨
        (Request.source clock 3 2).decode d = .unrelated := by
  intro clock
  obtain ⟨-, hbuild, hquery, hbytes, hdecode⟩ := requests_told_apart clock
  refine ⟨?_, ?_, fun d => ?_⟩
  · exact (hbuild .source (u32ToBe 2) 1 5).2 (hquery (.source 2) 1).2
  · exact hbytes (.source 2) (.source 3) 1 1 5 5 (.inr (.inl (by decide)))
  · exact hdecode _ _ d (.inr (by decide))

end Chrony
