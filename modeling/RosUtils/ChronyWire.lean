/-
chronyd's requests and replies as datagrams.

A `Request` is the datagram that asks for a report, and `Request.decode` reads a received
datagram as the reply to it.  Whatever echoes another command or another sequence number, or
does not have the form of a reply, is not its reply (`Verdict.unrelated`).

* `Layout` — a report, and how its data is read;
* `decode_eq_answer`, `decode_eq_unrelated` — which datagrams are read at all, and what they
  are read as;
* `WellFormed` — a datagram of the form of a reply;
* `Replies` — a reply to a datagram, with the command and the sequence number copied from it.
-/
import RosUtils.BigEndian

open BigEndian

namespace Chrony

/-! ### Errors -/

/-- `Status`: the status of a reply. -/
inductive Status where
  | failed
  | unauthorized
  | invalid
  | noSuchSource
  | invalidTimestamp
  | notEnabled
  | badSubnet
  | accessAllowed
  | accessDenied
  | noHostAccess
  | sourceAlreadyKnown
  | tooManySources
  | noRtc
  | badRtcFile
  | inactive
  | badSample
  | invalidAddressFamily
  | badPacketVersion
  | badPacketLength
  | invalidName
  | unknown (code : UInt16)
  deriving DecidableEq, Repr

/-- `Error`, with the system's error as its number. -/
inductive Error where
  | io (errno : ℕ)
  | timeout
  | status (s : Status)
  | version (v : UInt8)
  | changed
  | unexpectedReply (code : UInt16)
  | malformed (what : String)
  deriving DecidableEq, Repr

/-- `Status::from_code`. -/
def Status.fromCode (code : UInt16) : Status :=
  match code.toNat with
  | 1 => .failed
  | 2 => .unauthorized
  | 3 => .invalid
  | 4 => .noSuchSource
  | 5 => .invalidTimestamp
  | 6 => .notEnabled
  | 7 => .badSubnet
  | 8 => .accessAllowed
  | 9 => .accessDenied
  | 10 => .noHostAccess
  | 11 => .sourceAlreadyKnown
  | 12 => .tooManySources
  | 13 => .noRtc
  | 14 => .badRtcFile
  | 15 => .inactive
  | 16 => .badSample
  | 17 => .invalidAddressFamily
  | 18 => .badPacketVersion
  | 19 => .badPacketLength
  | 21 => .invalidName
  | _ => .unknown code

/-! ### The wire format -/

/-- `VERSION`. -/
def version : UInt8 := 6

/-- `OLDEST_MISMATCH_VERSION`. -/
def oldestMismatchVersion : UInt8 := 4

/-- `TYPE_REQUEST`. -/
def typeRequest : UInt8 := 1

/-- `TYPE_REPLY`. -/
def typeReply : UInt8 := 2

/-- `REPLY_HEADER`. -/
def replyHeader : ℕ := 28

/-- `STATUS_OK`. -/
def statusOk : UInt16 := 0

/-- `STATUS_BAD_VERSION`. -/
def statusBadVersion : UInt16 := 18

/-- `RECV_BUF`. -/
def recvBuf : ℕ := 1024

/-- A datagram. -/
abbrev Datagram := List UInt8

/-- `n` bytes of a datagram. -/
def field (i n : ℕ) (d : Datagram) : List UInt8 := (d.drop i).take n

/-- `Layout`: a report, and the request that asks for it.  The receive buffer has room for
the reply, and what does not fit the layout is malformed. -/
structure Layout (T : Type) where
  command : UInt16
  reply : UInt16
  len : ℕ
  read : List UInt8 → Except Error T
  fits : replyHeader + len ≤ recvBuf
  malformed : ∀ data e, read data = .error e → ∃ what, e = .malformed what

/-- `wire::decode`. -/
def Layout.decode {T : Type} (layout : Layout T) (reply : UInt16) (data : List UInt8) :
    Except Error T :=
  if reply ≠ layout.reply then .error (.unexpectedReply reply)
  else if data.length < layout.len then .error (.malformed "reply shorter than its layout")
  else layout.read (data.take layout.len)

/-- `Reader::take`: the next bytes, and what is left. -/
def Reader.take (n : ℕ) (rest : List UInt8) : Except Error (List UInt8 × List UInt8) :=
  if rest.length < n then .error (.malformed "reply shorter than its layout")
  else .ok (rest.take n, rest.drop n)

/-- `Reader::u32`. -/
def Reader.u32 (rest : List UInt8) : Except Error (UInt32 × List UInt8) :=
  (Reader.take 4 rest).map (Prod.map u32OfBe id)

/-- `Layout` of `u32`: the number of sources. -/
def Layout.sourceCount : Layout UInt32 where
  command := 14
  reply := 2
  len := 4
  read data := (Reader.u32 data).map Prod.fst
  fits := by decide
  malformed := by
    intro data e h
    unfold Reader.u32 Reader.take at h
    split at h
    · cases h
      exact ⟨_, rfl⟩
    · cases h

/-- `Request`. -/
structure Request (T : Type) where
  command : UInt16
  sequence : UInt32
  bytes : Datagram
  decodeData : UInt16 → List UInt8 → Except Error T

/-- `Vec::resize` with zeros. -/
def resize (bytes : List UInt8) (len : ℕ) : List UInt8 :=
  bytes.take len ++ List.replicate (len - bytes.length) 0

/-- `build`. -/
def build {T : Type} (layout : Layout T) (data : List UInt8) (sequence : UInt32) : Request T where
  command := layout.command
  sequence := sequence
  bytes := resize ([version, typeRequest, 0, 0] ++ u16ToBe layout.command ++ [0, 0] ++
    u32ToBe sequence ++ List.replicate 8 0 ++ data) (replyHeader + layout.len)
  decodeData := layout.decode

namespace Request

variable {T : Type}

/-- `Request::with_attempt`. -/
def withAttempt (r : Request T) (attempt : UInt16) : Request T :=
  { r with bytes := r.bytes.take 6 ++ u16ToBe attempt ++ r.bytes.drop 8 }

end Request

/-- `Verdict`. -/
inductive Verdict (T : Type) where
  /-- Not its reply: keep waiting. -/
  | unrelated
  /-- The reply, decoded. -/
  | answer (result : Except Error T)

/-- What is read of the header of a reply. -/
structure Header where
  version : UInt8
  type : UInt8
  reserved : List UInt8
  command : UInt16
  reply : UInt16
  status : UInt16
  sequence : UInt32
  deriving DecidableEq

def header (d : Datagram) : Header where
  version := d.getD 0 0
  type := d.getD 1 0
  reserved := field 2 2 d
  command := u16OfBe (field 4 2 d)
  reply := u16OfBe (field 6 2 d)
  status := u16OfBe (field 8 2 d)
  sequence := u32OfBe (field 16 4 d)

/-- The status of a daemon of another version, in a version that is still heard. -/
def Header.mismatch (h : Header) : Bool :=
  h.version != Chrony.version && h.version ≥ oldestMismatchVersion && h.status == statusBadVersion

namespace Request

variable {T : Type}

/-- `Request::decode`. -/
def decode (r : Request T) (datagram : Datagram) : Verdict T :=
  if datagram.length < replyHeader then .unrelated
  else
    let h := header datagram
    if (h.version ≠ Chrony.version ∧ h.mismatch = false) ∨ h.type ≠ typeReply ∨
        h.reserved ≠ [0, 0] ∨ h.command ≠ r.command ∨ h.sequence ≠ r.sequence then
      .unrelated
    else
      .answer <|
        if h.mismatch then .error (.version h.version)
        else if h.status ≠ statusOk then .error (.status (Status.fromCode h.status))
        else r.decodeData h.reply (datagram.drop replyHeader)

end Request

/-! ### What is read as a reply -/

/-- The form of a reply: its version and its fixed bytes. -/
structure WellFormed (d : Datagram) : Prop where
  length : replyHeader ≤ d.length
  version : (header d).version = Chrony.version ∨ (header d).mismatch = true
  type : (header d).type = typeReply
  reserved : (header d).reserved = [0, 0]

/-- The datagram carries the sequence number. -/
def Carries (sequence : UInt32) (d : Datagram) : Prop := field 16 4 d = u32ToBe sequence

/-- The datagram echoes the command and the sequence number. -/
def Echoes (command : UInt16) (sequence : UInt32) (d : Datagram) : Prop :=
  field 4 2 d = u16ToBe command ∧ Carries sequence d

/-- A reply to the datagram `req`: chronyd copies the command and the sequence number. -/
structure Replies (req d : Datagram) : Prop where
  command : field 4 2 d = field 4 2 req
  sequence : field 16 4 d = field 8 4 req

instance (sequence : UInt32) : DecidablePred (Carries sequence) :=
  fun _ => inferInstanceAs (Decidable (_ = _))

instance (command : UInt16) (sequence : UInt32) : DecidablePred (Echoes command sequence) :=
  fun _ => inferInstanceAs (Decidable (_ ∧ _))

instance : DecidablePred WellFormed := fun d =>
  decidable_of_iff (replyHeader ≤ d.length ∧
      ((header d).version = Chrony.version ∨ (header d).mismatch = true) ∧
      (header d).type = typeReply ∧ (header d).reserved = [0, 0])
    ⟨fun ⟨h₁, h₂, h₃, h₄⟩ => ⟨h₁, h₂, h₃, h₄⟩, fun ⟨h₁, h₂, h₃, h₄⟩ => ⟨h₁, h₂, h₃, h₄⟩⟩

instance (req : Datagram) : DecidablePred (Replies req) := fun d =>
  decidable_of_iff (field 4 2 d = field 4 2 req ∧ field 16 4 d = field 8 4 req)
    ⟨fun ⟨h₁, h₂⟩ => ⟨h₁, h₂⟩, fun ⟨h₁, h₂⟩ => ⟨h₁, h₂⟩⟩

/-- In a datagram with room for a header, an echo is what the header reads. -/
theorem echoes_iff {command : UInt16} {sequence : UInt32} {d : Datagram}
    (hlen : replyHeader ≤ d.length) :
    Echoes command sequence d ↔
      (header d).command = command ∧ (header d).sequence = sequence := by
  have hlen : 28 ≤ d.length := hlen
  have h2 : (field 4 2 d).length = 2 := by
    rw [field, List.length_take, List.length_drop]
    omega
  have h4 : (field 16 4 d).length = 4 := by
    rw [field, List.length_take, List.length_drop]
    omega
  constructor
  · rintro ⟨hcommand, hsequence⟩
    constructor
    · show u16OfBe (field 4 2 d) = command
      rw [hcommand, u16OfBe_u16ToBe]
    · show u32OfBe (field 16 4 d) = sequence
      rw [hsequence, u32OfBe_u32ToBe]
  · rintro ⟨rfl, rfl⟩
    exact ⟨(u16ToBe_u16OfBe h2).symm, (u32ToBe_u32OfBe h4).symm⟩

namespace Request

variable {T : Type} (r : Request T)

/-- What a reply is read as. -/
def answer (d : Datagram) : Except Error T :=
  if (header d).mismatch then .error (.version (header d).version)
  else if (header d).status ≠ statusOk then .error (.status (Status.fromCode (header d).status))
  else r.decodeData (header d).reply (d.drop replyHeader)

/-- The replies to a request are the well-formed datagrams that echo it. -/
theorem decode_eq_answer {d : Datagram} (hform : WellFormed d)
    (hecho : Echoes r.command r.sequence d) : r.decode d = .answer (r.answer d) := by
  obtain ⟨hlen, hversion, htype, hreserved⟩ := hform
  obtain ⟨hcommand, hsequence⟩ := (echoes_iff hlen).mp hecho
  have hversion : ¬ ((header d).version ≠ Chrony.version ∧ (header d).mismatch = false) := by
    rintro ⟨hne, hmis⟩
    rcases hversion with heq | htrue
    · exact hne heq
    · rw [htrue] at hmis
      cases hmis
  simp only [decode, if_neg (Nat.not_lt.mpr hlen), hversion, htype, hreserved, hcommand,
    hsequence, ne_eq, not_true_eq_false, or_self, if_false, answer]

theorem decode_eq_unrelated {d : Datagram} (hecho : ¬ Echoes r.command r.sequence d) :
    r.decode d = .unrelated := by
  simp only [decode]
  split
  · rfl
  · next hlen =>
    rw [echoes_iff (Nat.not_lt.mp hlen)] at hecho
    refine if_pos ?_
    rcases not_and_or.mp hecho with h | h
    · exact .inr (.inr (.inr (.inl h)))
    · exact .inr (.inr (.inr (.inr h)))

/-- Nothing that is read is a failure of the client's own. -/
theorem answer_ne {layout : Layout T} (hlayout : r.decodeData = layout.decode) (d : Datagram) :
    r.answer d ≠ .error .timeout ∧ ∀ errno, r.answer d ≠ .error (.io errno) := by
  have hread : ∀ reply data e, layout.decode reply data = .error e →
      e ≠ .timeout ∧ ∀ errno, e ≠ .io errno := by
    intro reply data e h
    unfold Layout.decode at h
    split at h
    · cases h
      exact ⟨nofun, fun _ => nofun⟩
    · split at h
      · cases h
        exact ⟨nofun, fun _ => nofun⟩
      · obtain ⟨what, rfl⟩ := layout.malformed _ _ h
        exact ⟨nofun, fun _ => nofun⟩
  unfold answer
  rw [hlayout]
  split
  · exact ⟨nofun, fun _ => nofun⟩
  · split
    · exact ⟨nofun, fun _ => nofun⟩
    · exact ⟨fun h => (hread _ _ _ h).1 rfl, fun errno h => (hread _ _ _ h).2 errno rfl⟩

/-- No datagram is read as a failure of a system call. -/
theorem decode_ne_io {layout : Layout T} (hlayout : r.decodeData = layout.decode) (d : Datagram)
    {errno : ℕ} : r.decode d ≠ .answer (.error (.io errno)) := by
  intro h
  simp only [decode] at h
  split at h
  · cases h
  · split at h
    · cases h
    · exact (r.answer_ne hlayout d).2 errno (Verdict.answer.inj h)

end Request

/-! ### The receive buffer -/

theorem field_take {i n k : ℕ} (h : i + n ≤ k) (d : Datagram) :
    field i n (d.take k) = field i n d := by
  rw [field, List.drop_take, List.take_take, Nat.min_eq_left (by omega), field]

theorem header_take {k : ℕ} (h : replyHeader ≤ k) (d : Datagram) :
    header (d.take k) = header d := by
  have hk : 28 ≤ k := h
  have hget : ∀ i, i < 2 → (d.take k).getD i 0 = d.getD i 0 := by
    intro i hi
    rw [List.getD_eq_getElem?_getD, List.getElem?_take_of_lt (by omega),
      List.getD_eq_getElem?_getD]
  simp only [header, hget 0 (by omega), hget 1 (by omega), field_take (show 2 + 2 ≤ k by omega),
    field_take (show 4 + 2 ≤ k by omega), field_take (show 6 + 2 ≤ k by omega),
    field_take (show 8 + 2 ≤ k by omega), field_take (show 16 + 4 ≤ k by omega)]

theorem Layout.decode_take {T : Type} (layout : Layout T) {k : ℕ} (h : layout.len ≤ k)
    (reply : UInt16) (data : List UInt8) :
    layout.decode reply (data.take k) = layout.decode reply data := by
  have hlen : (data.take k).length < layout.len ↔ data.length < layout.len := by
    rw [List.length_take]
    omega
  simp only [Layout.decode, hlen, List.take_take, Nat.min_eq_left h]

/-- The receive buffer cuts nothing off that is read. -/
theorem Request.decode_take {T : Type} (r : Request T) {layout : Layout T}
    (hlayout : r.decodeData = layout.decode) (d : Datagram) :
    r.decode (d.take recvBuf) = r.decode d := by
  have hfits := layout.fits
  have hlen : (d.take recvBuf).length < replyHeader ↔ d.length < replyHeader := by
    rw [List.length_take]
    omega
  have hdata : ∀ reply, layout.decode reply ((d.take recvBuf).drop replyHeader) =
      layout.decode reply (d.drop replyHeader) := by
    intro reply
    rw [List.drop_take]
    exact layout.decode_take (by omega) _ _
  simp only [decode, hlen, header_take (show replyHeader ≤ recvBuf by omega), hlayout, hdata]

/-! ### Echoes -/

/-- The request has its command and its sequence number where a reply copies them from. -/
theorem field_build {T : Type} (layout : Layout T) (data : List UInt8) (sequence : UInt32)
    (attempt : UInt16) :
    field 4 2 ((build layout data sequence).withAttempt attempt).bytes = u16ToBe layout.command ∧
      field 8 4 ((build layout data sequence).withAttempt attempt).bytes = u32ToBe sequence := by
  have hlen : replyHeader + layout.len = layout.len + 28 := Nat.add_comm _ _
  simp only [field, Request.withAttempt, build, resize, hlen, u16ToBe, u32ToBe, toBe]
  exact ⟨rfl, rfl⟩

/-- A reply to a request echoes it. -/
theorem Replies.echoes {T : Type} {layout : Layout T} {data : List UInt8} {sequence : UInt32}
    {attempt : UInt16} {d : Datagram}
    (h : Replies ((build layout data sequence).withAttempt attempt).bytes d) :
    Echoes layout.command sequence d := by
  obtain ⟨hcommand, hsequence⟩ := field_build layout data sequence attempt
  exact ⟨h.command.trans hcommand, h.sequence.trans hsequence⟩

/-- chronyd's reply to a request for the number of sources. -/
def countReply (sequence count : UInt32) : Datagram :=
  [version, typeReply, 0, 0] ++ u16ToBe Layout.sourceCount.command ++
    u16ToBe Layout.sourceCount.reply ++ u16ToBe statusOk ++ List.replicate 6 0 ++
    u32ToBe sequence ++ List.replicate 8 0 ++ u32ToBe count

theorem Carries.unique {sequence sequence' : UInt32} {d : Datagram} (h : Carries sequence d)
    (h' : Carries sequence' d) : sequence = sequence' := by
  rw [← u32OfBe_u32ToBe sequence, ← h, h', u32OfBe_u32ToBe]

end Chrony
