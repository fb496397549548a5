import SyncSpirit.Proto
import SyncSpirit.Lib.Wire

/-!
# The relay protocol (`proto/relay_support.cpp`)

A relay message is a header (magic, type, length of the payload) and a payload. The
connection is a stream, so the buffer that `parse` looks at may end anywhere and may
hold further messages.

- `serialize`, `parse`: the codec, all seven kinds of messages;
- `Message.payload`: what follows the header; an invitation has four bytes there that
  are not written.

Every read of `parse` stands behind a check of the size, so a read is the total
`Wire.decode`. The text of a response is a string of bytes.
-/

namespace SyncSpirit

namespace Relay

/-- `message_t`. -/
inductive Message where
  | ping
  | pong
  | joinRelayRequest
  | joinSessionRequest (key : Bytes)
  | response (code : UInt32) (details : Bytes)
  | connectRequest (deviceId : Bytes)
  | sessionInvitation (source key : Bytes) (address : Option UInt32) (port : UInt32)
      (serverSocket : Bool)
  deriving DecidableEq, Repr

/-- `parse_result_t`. -/
inductive Result where
  | incomplete
  | protocolError
  | message (length : Nat) (m : Message)
  deriving DecidableEq, Repr

/-- `magic`. -/
def magic : Nat := 0x9E79BC40

/-- `header_sz`. -/
def headerSize : Nat := 12

/-- `max_packet_sz`. -/
def maxPacketSize : Nat := 1400

/-! ## The encoder -/

/-- `write32_be`. -/
def write32 (v : Nat) : Bytes := Wire.encode 4 v

/-- `type_t`. -/
def Message.type : Message → Nat
  | .ping => 0
  | .pong => 1
  | .joinRelayRequest => 2
  | .joinSessionRequest _ => 3
  | .response _ _ => 4
  | .connectRequest _ => 5
  | .sessionInvitation _ _ _ _ _ => 6

/-- The address of an invitation; zero stands for none. -/
def rawAddress : Option UInt32 → Nat
  | some address => address.toNat
  | none => 0

/-- What is written behind the header. -/
def Message.fields : Message → Bytes
  | .ping | .pong | .joinRelayRequest => []
  | .joinSessionRequest key => write32 key.length ++ key
  | .response code details => write32 code.toNat ++ write32 details.length ++ details
  | .connectRequest deviceId => write32 deviceId.length ++ deviceId
  | .sessionInvitation source key address port serverSocket =>
    write32 source.length ++ source ++ (write32 key.length ++ key ++
      (write32 4 ++ write32 (rawAddress address) ++
        (write32 port.toNat ++ write32 (if serverSocket then 1 else 0))))

/-- `payload_sz`: an invitation has five numbers, but six are counted. -/
def Message.payloadSize : Message → Nat
  | .ping | .pong | .joinRelayRequest => 0
  | .joinSessionRequest key => 4 + key.length
  | .response _ details => 4 + 4 + details.length
  | .connectRequest deviceId => 4 + deviceId.length
  | .sessionInvitation source key _ _ _ => 4 * 6 + source.length + key.length + 4

/-- `serialize_header`. -/
def serializeHeader (type size : Nat) : Bytes := write32 magic ++ write32 type ++ write32 size

/-- What `serialize` leaves behind the header: the fields, and what else is in the buffer
after it has been resized. -/
def Message.payload (m : Message) (out : Bytes) : Bytes :=
  m.fields ++ (Wire.resize out (headerSize + m.payloadSize)).drop (headerSize + m.fields.length)

/-- `serialize`: the message is written over the content of `out`. -/
def serialize (m : Message) (out : Bytes) : Bytes :=
  serializeHeader m.type m.payloadSize ++ m.payload out

/-! ## The decoder -/

/-- `read32_be`. -/
def read32 (data : Bytes) : Nat := Wire.decode (data.take 4)

/-- `parse_join_session_request`: the key is everything behind its size. -/
def parseJoinSessionRequest (data : Bytes) : Result :=
  if data.length < 4 then .protocolError
  else if data.length < read32 data + 4 then .protocolError
  else .message (headerSize + data.length) (.joinSessionRequest (data.drop 4))

/-- `parse_response`. -/
def parseResponse (data : Bytes) : Result :=
  if data.length < 8 then .protocolError
  else if data.length < read32 (data.drop 4) + 8 then .protocolError
  else .message (headerSize + data.length)
    (.response (UInt32.ofNat (read32 data)) ((data.drop 8).take (read32 (data.drop 4))))

/-- `parse_connect_request`. -/
def parseConnectRequest (data : Bytes) : Result :=
  if data.length < 4 then .protocolError
  else if read32 data + 4 ≠ data.length then .protocolError
  else .message (headerSize + data.length) (.connectRequest (data.drop 4))

/-- A string with its size in front, and what is behind it. -/
def takeString (data : Bytes) : Option (Bytes × Bytes) :=
  if data.length < 4 then none
  else if (data.drop 4).length < read32 data then none
  else some ((data.drop 4).take (read32 data), (data.drop 4).drop (read32 data))

/-- A number, and what is behind it. -/
def takeNumber (data : Bytes) : Option (Nat × Bytes) :=
  if data.length < 4 then none else some (read32 data, data.drop 4)

/-- The address of an invitation. -/
def parseAddress (addr : Bytes) : Option UInt32 :=
  if addr.length = 4 ∧ Wire.decode addr ≠ 0 then some (UInt32.ofNat (Wire.decode addr)) else none

/-- The fields of an invitation. -/
def invitation? (data : Bytes) : Option Message := do
  let (source, rest) ← takeString data
  let (key, rest) ← takeString rest
  let (addr, rest) ← takeString rest
  let (port, rest) ← takeNumber rest
  let (serverSocket, _) ← takeNumber rest
  return .sessionInvitation source key (parseAddress addr) (UInt32.ofNat port) (serverSocket ≠ 0)

/-- `parse_session_invitation`. -/
def parseSessionInvitation (data : Bytes) : Result :=
  match invitation? data with
  | some m => .message (headerSize + data.length) m
  | none => .protocolError

/-- The decoder of a type. -/
def parsePayload (type : Nat) (tail : Bytes) : Result :=
  match type with
  | 0 => .message headerSize .ping
  | 1 => .message headerSize .pong
  | 2 => .message headerSize .joinRelayRequest
  | 3 => parseJoinSessionRequest tail
  | 4 => parseResponse tail
  | 5 => parseConnectRequest tail
  | 6 => parseSessionInvitation tail
  | _ => .protocolError

/-- `parse`: everything behind the header goes to the decoder of the type, whatever the
length of the payload is. -/
def parse (data : Bytes) : Result :=
  if data.length < headerSize then .incomplete
  else if read32 data ≠ magic then .protocolError
  else if 6 < read32 (data.drop 4) then .protocolError
  else if maxPacketSize < read32 (data.drop 8) then .protocolError
  else if data.length < headerSize + read32 (data.drop 8) then .incomplete
  else parsePayload (read32 (data.drop 4)) (data.drop headerSize)

/-! ## Reading back -/

/-- The messages that the protocol can carry: the payload is not too long, and a zero
address is none. -/
structure Valid (m : Message) : Prop where
  size : m.payloadSize ≤ maxPacketSize
  address : ∀ source key port serverSocket,
    m ≠ .sessionInvitation source key (some 0) port serverSocket

@[simp] theorem length_write32 (v : Nat) : (write32 v).length = 4 := Wire.length_encode 4 v

theorem read32_write32 {v : Nat} (h : v < 2 ^ 32) (rest : Bytes) : read32 (write32 v ++ rest) = v := by
  rw [read32, List.take_left' (length_write32 v)]
  exact Wire.decode_encode_of_lt h

theorem drop_write32 (v : Nat) (rest : Bytes) : (write32 v ++ rest).drop 4 = rest :=
  List.drop_left' (length_write32 v)

@[simp] theorem length_serializeHeader (type size : Nat) :
    (serializeHeader type size).length = headerSize := by
  simp [serializeHeader, headerSize]

/-- **The header** decides whether there is enough data, and which decoder gets it. -/
theorem parse_header {type size : Nat} (htype : type ≤ 6) (hsize : size ≤ maxPacketSize) (rest : Bytes) :
    parse (serializeHeader type size ++ rest) =
      if rest.length < size then .incomplete else parsePayload type rest := by
  have hmax : maxPacketSize < 2 ^ 32 := by decide
  have hmagic : read32 (serializeHeader type size ++ rest) = magic := by
    rw [serializeHeader, List.append_assoc, List.append_assoc]
    exact read32_write32 (by decide) _
  have htail : (serializeHeader type size ++ rest).drop 4 = write32 type ++ (write32 size ++ rest) := by
    rw [serializeHeader, List.append_assoc, List.append_assoc]
    exact drop_write32 _ _
  have htype' : read32 ((serializeHeader type size ++ rest).drop 4) = type := by
    rw [htail]
    exact read32_write32 (by omega) _
  have hsize' : read32 ((serializeHeader type size ++ rest).drop 8) = size := by
    have hdrop : (serializeHeader type size ++ rest).drop 8 = write32 size ++ rest := by
      rw [show (8 : Nat) = 4 + 4 from rfl, ← List.drop_drop, htail]
      exact drop_write32 _ _
    rw [hdrop]
    exact read32_write32 (by omega) _
  have hdrop : (serializeHeader type size ++ rest).drop headerSize = rest :=
    List.drop_left' (length_serializeHeader type size)
  unfold parse
  rw [hmagic, htype', hsize', hdrop, List.length_append, length_serializeHeader, if_neg (by omega),
    if_neg (fun hne => hne rfl), if_neg (by omega), if_neg (by omega)]
  simp only [Nat.add_lt_add_iff_left]

/-! ### Each payload -/

theorem parseJoinSessionRequest_append {key : Bytes} (hkey : key.length < 2 ^ 32) (rest : Bytes) :
    parseJoinSessionRequest (write32 key.length ++ key ++ rest) =
      .message (headerSize + (4 + key.length + rest.length)) (.joinSessionRequest (key ++ rest)) := by
  unfold parseJoinSessionRequest
  rw [List.append_assoc, read32_write32 hkey, drop_write32]
  simp only [List.length_append, length_write32]
  rw [if_neg (by omega), if_neg (by omega), Nat.add_assoc 4]

theorem parseResponse_append {code : UInt32} {details : Bytes} (hdetails : details.length < 2 ^ 32)
    (rest : Bytes) :
    parseResponse (write32 code.toNat ++ write32 details.length ++ details ++ rest) =
      .message (headerSize + (8 + details.length + rest.length)) (.response code details) := by
  unfold parseResponse
  have hdrop : (write32 code.toNat ++ (write32 details.length ++ (details ++ rest))).drop 8 =
      details ++ rest := by
    rw [show (8 : Nat) = 4 + 4 from rfl, ← List.drop_drop, drop_write32, drop_write32]
  rw [List.append_assoc, List.append_assoc, hdrop, drop_write32, read32_write32 hdetails,
    read32_write32 code.toNat_lt, List.take_left, UInt32.ofNat_toNat]
  simp only [List.length_append, length_write32]
  rw [if_neg (by omega), if_neg (by omega)]
  congr 2
  omega

theorem parseConnectRequest_append {deviceId : Bytes} (hid : deviceId.length < 2 ^ 32) (rest : Bytes) :
    parseConnectRequest (write32 deviceId.length ++ deviceId ++ rest) =
      if rest = [] then .message (headerSize + (4 + deviceId.length)) (.connectRequest deviceId)
      else .protocolError := by
  unfold parseConnectRequest
  rw [List.append_assoc, read32_write32 hid, drop_write32]
  simp only [List.length_append, length_write32]
  rw [if_neg (by omega)]
  by_cases hrest : rest = []
  · rw [if_neg (by simp [hrest]; omega), if_pos hrest]
    simp [hrest]
  · have hpos := List.length_pos_of_ne_nil hrest
    rw [if_pos (by omega), if_neg hrest]

theorem takeString_append {str : Bytes} (hstr : str.length < 2 ^ 32) (rest : Bytes) :
    takeString (write32 str.length ++ str ++ rest) = some (str, rest) := by
  unfold takeString
  rw [List.append_assoc, read32_write32 hstr, drop_write32]
  simp only [List.length_append, length_write32]
  rw [if_neg (by omega), if_neg (by omega), List.take_left, List.drop_left]

theorem takeString_write32 (v : Nat) (rest : Bytes) :
    takeString (write32 4 ++ write32 v ++ rest) = some (write32 v, rest) := by
  have hlen : (write32 v).length = 4 := length_write32 v
  have hlt : (write32 v).length < 2 ^ 32 := by omega
  have hstr := takeString_append hlt rest
  rwa [hlen] at hstr

theorem takeNumber_append {v : Nat} (hv : v < 2 ^ 32) (rest : Bytes) :
    takeNumber (write32 v ++ rest) = some (v, rest) := by
  unfold takeNumber
  rw [read32_write32 hv, drop_write32]
  simp only [List.length_append, length_write32]
  rw [if_neg (by omega)]

theorem parseAddress_rawAddress {address : Option UInt32} (h : address ≠ some 0) :
    parseAddress (write32 (rawAddress address)) = address := by
  unfold parseAddress
  cases address with
  | none => exact if_neg fun hnot => hnot.2 (Wire.decode_encode_of_lt (by decide : 0 < 256 ^ 4))
  | some a =>
    have hdecode : Wire.decode (write32 a.toNat) = a.toNat := Wire.decode_encode_of_lt a.toNat_lt
    have hne : a.toNat ≠ 0 := fun heq => h (congrArg some (UInt32.toNat.inj heq))
    rw [rawAddress, hdecode, if_pos ⟨length_write32 _, hne⟩, UInt32.ofNat_toNat]

theorem invitation?_of_fields {data source key addr : Bytes} {port serverSocket : Nat}
    {rest₁ rest₂ rest₃ rest₄ rest₅ : Bytes} (hsource : takeString data = some (source, rest₁))
    (hkey : takeString rest₁ = some (key, rest₂)) (haddr : takeString rest₂ = some (addr, rest₃))
    (hport : takeNumber rest₃ = some (port, rest₄))
    (hsocket : takeNumber rest₄ = some (serverSocket, rest₅)) :
    invitation? data = some (.sessionInvitation source key (parseAddress addr) (UInt32.ofNat port)
      (serverSocket ≠ 0)) := by
  simp [invitation?, hsource, hkey, haddr, hport, hsocket]

theorem invitation?_append {source key : Bytes} {address : Option UInt32} {port : UInt32}
    {serverSocket : Bool} (haddress : address ≠ some 0) (hsource : source.length < 2 ^ 32)
    (hkey : key.length < 2 ^ 32) (rest : Bytes) :
    invitation? ((Message.sessionInvitation source key address port serverSocket).fields ++ rest) =
      some (.sessionInvitation source key address port serverSocket) := by
  have hfirst : takeString ((Message.sessionInvitation source key address port serverSocket).fields ++
      rest) = some (source, write32 key.length ++ key ++ (write32 4 ++ write32 (rawAddress address) ++
        (write32 port.toNat ++ (write32 (if serverSocket then 1 else 0) ++ rest)))) := by
    rw [Message.fields, List.append_assoc]
    simp only [List.append_assoc]
    rw [← List.append_assoc (write32 source.length)]
    exact takeString_append hsource _
  have hsocket : (if serverSocket then 1 else 0) < 2 ^ 32 := by split <;> omega
  have hbool : decide ((if serverSocket then 1 else 0) ≠ 0) = serverSocket := by
    cases serverSocket <;> rfl
  have hfields := invitation?_of_fields hfirst (takeString_append hkey _) (takeString_write32 _ _)
    (takeNumber_append port.toNat_lt _) (takeNumber_append hsocket _)
  rw [parseAddress_rawAddress haddress, UInt32.ofNat_toNat, hbool] at hfields
  exact hfields

/-! ### The payload in the buffer -/

theorem length_fields_le (m : Message) : m.fields.length ≤ m.payloadSize := by
  cases m <;> simp [Message.fields, Message.payloadSize] <;> omega

@[simp] theorem length_payload (m : Message) (out : Bytes) : (m.payload out).length = m.payloadSize := by
  have hle := length_fields_le m
  rw [Message.payload, List.length_append, List.length_drop, Wire.length_resize]
  omega

@[simp] theorem length_serialize (m : Message) (out : Bytes) :
    (serialize m out).length = headerSize + m.payloadSize := by
  rw [serialize, List.length_append, length_serializeHeader, length_payload]

/-- Every other message fills its buffer. -/
theorem payload_eq_fields {m : Message} (h : m.fields.length = m.payloadSize) (out : Bytes) :
    m.payload out = m.fields := by
  have hlen : (Wire.resize out (headerSize + m.payloadSize)).length ≤ headerSize + m.fields.length := by
    rw [Wire.length_resize]
    omega
  rw [Message.payload, List.drop_eq_nil_of_le hlen, List.append_nil]

theorem parsePayload_joinSessionRequest {key : Bytes} (hkey : key.length < 2 ^ 32) (rest : Bytes) :
    parsePayload 3 ((Message.joinSessionRequest key).fields ++ rest) =
        .message (headerSize + (4 + key.length)) (.joinSessionRequest key) ↔
      rest = [] := by
  rw [parsePayload, Message.fields, parseJoinSessionRequest_append hkey]
  simp only [Result.message.injEq, Message.joinSessionRequest.injEq, List.append_right_eq_self]
  refine and_iff_right_of_imp ?_
  rintro rfl
  rw [List.length_nil, Nat.add_zero]

theorem parsePayload_response {code : UInt32} {details : Bytes} (hdetails : details.length < 2 ^ 32)
    (rest : Bytes) :
    parsePayload 4 ((Message.response code details).fields ++ rest) =
        .message (headerSize + (4 + 4 + details.length)) (.response code details) ↔
      rest = [] := by
  rw [parsePayload, Message.fields, parseResponse_append hdetails, ← List.length_eq_zero_iff]
  simp only [Result.message.injEq, and_true]
  omega

theorem parsePayload_connectRequest {deviceId : Bytes} (hid : deviceId.length < 2 ^ 32) (rest : Bytes) :
    parsePayload 5 ((Message.connectRequest deviceId).fields ++ rest) =
        .message (headerSize + (4 + deviceId.length)) (.connectRequest deviceId) ↔
      rest = [] := by
  rw [parsePayload, Message.fields, parseConnectRequest_append hid]
  split
  · rename_i hrest
    simp only [hrest]
  · rename_i hrest
    simp only [hrest, reduceCtorEq]

theorem parsePayload_sessionInvitation {source key : Bytes} {address : Option UInt32} {port : UInt32}
    {serverSocket : Bool} (haddress : address ≠ some 0) (hsource : source.length < 2 ^ 32)
    (hkey : key.length < 2 ^ 32) (rest : Bytes) :
    parsePayload 6 ((Message.sessionInvitation source key address port serverSocket).fields ++ rest) =
      .message (headerSize +
          ((Message.sessionInvitation source key address port serverSocket).fields.length + rest.length))
        (.sessionInvitation source key address port serverSocket) := by
  rw [parsePayload, parseSessionInvitation, invitation?_append haddress hsource hkey, List.length_append]

/-- A payload is read back; what follows it is counted in or confuses the decoder. -/
theorem parsePayload_append {m : Message} (hm : Valid m) (out rest : Bytes) :
    parsePayload m.type (m.payload out ++ rest) = .message (headerSize + m.payloadSize) m ↔
      rest = [] ∨ m.payloadSize = 0 := by
  have hmax : maxPacketSize < 2 ^ 32 := by decide
  have hsize := hm.size
  cases m with
  | ping => simp [Message.type, Message.payloadSize, parsePayload]
  | pong => simp [Message.type, Message.payloadSize, parsePayload]
  | joinRelayRequest => simp [Message.type, Message.payloadSize, parsePayload]
  | joinSessionRequest key =>
    rw [Message.payloadSize] at hsize ⊢
    rw [or_iff_left (by omega), payload_eq_fields (by simp [Message.fields, Message.payloadSize])]
    exact parsePayload_joinSessionRequest (by omega) rest
  | response code details =>
    rw [Message.payloadSize] at hsize ⊢
    rw [or_iff_left (by omega), payload_eq_fields (by simp [Message.fields, Message.payloadSize]; omega)]
    exact parsePayload_response (by omega) rest
  | connectRequest deviceId =>
    rw [Message.payloadSize] at hsize ⊢
    rw [or_iff_left (by omega), payload_eq_fields (by simp [Message.fields, Message.payloadSize])]
    exact parsePayload_connectRequest (by omega) rest
  | sessionInvitation source key address port serverSocket =>
    have haddress : address ≠ some 0 := by
      rintro rfl
      exact hm.address source key port serverSocket rfl
    have hlen := length_payload (.sessionInvitation source key address port serverSocket) out
    rw [Message.payload, List.length_append] at hlen
    have hpos : (Message.sessionInvitation source key address port serverSocket).payloadSize ≠ 0 := by
      rw [Message.payloadSize]
      omega
    have hle : source.length + key.length ≤
        (Message.sessionInvitation source key address port serverSocket).payloadSize := by
      rw [Message.payloadSize]
      omega
    -- the bytes that were not written are a part of what follows the fields
    rw [Message.type, or_iff_left hpos, Message.payload, List.append_assoc,
      parsePayload_sessionInvitation haddress (by omega) (by omega), ← List.length_eq_zero_iff]
    simp only [Result.message.injEq, and_true, List.length_append]
    omega

/-! ## The stream -/

theorem type_le (m : Message) : m.type ≤ 6 := by
  cases m <;> simp [Message.type]

/-- A message that has been cut off anywhere is incomplete. -/
theorem parse_of_cut {m : Message} (hm : Valid m) {out p : Bytes} (hp : p <+: serialize m out)
    (hne : p ≠ serialize m out) : parse p = .incomplete := by
  by_cases hlen : p.length < headerSize
  · rw [parse, if_pos hlen]
  · -- the header is there, so the cut is in the payload
    obtain ⟨payload, rfl⟩ : serializeHeader m.type m.payloadSize <+: p :=
      List.prefix_of_prefix_length_le (List.prefix_append _ _) hp (by simp; omega)
    have hcut : payload <+: m.payload out := (List.prefix_append_right_inj _).mp hp
    have hlt : payload.length < m.payloadSize := by
      rw [← length_payload m out]
      refine Nat.lt_of_le_of_ne hcut.length_le fun heq => hne ?_
      rw [hcut.eq_of_length heq, serialize]
    rw [parse_header (type_le m) hm.size, if_pos hlt]

/-- **The relay codec is a streaming codec** as long as nothing follows a message that has
a payload: the decoders take the rest of the buffer for the payload. -/
theorem parse_serialize_iff {m : Message} (hm : Valid m) (out t : Bytes) :
    (parse (serialize m out ++ t) = .message (serialize m out).length m ∧
        ∀ p, p <+: serialize m out → p ≠ serialize m out → parse p = .incomplete) ↔
      t = [] ∨ m.payloadSize = 0 := by
  have hparse : parse (serialize m out ++ t) = parsePayload m.type (m.payload out ++ t) := by
    rw [serialize, List.append_assoc, parse_header (type_le m) hm.size, if_neg (by simp)]
  rw [hparse, length_serialize, parsePayload_append hm]
  exact and_iff_left fun p hp hne => parse_of_cut hm hp hne

/-- A response that nothing follows. -/
theorem parse_serialize_response :
    parse (serialize (.response 0 [0x6f, 0x6b]) []) = .message 22 (.response 0 [0x6f, 0x6b]) ∧
      ∀ p, p <+: serialize (.response 0 [0x6f, 0x6b]) [] → p ≠ serialize (.response 0 [0x6f, 0x6b]) [] →
        parse p = .incomplete := by
  have h := (parse_serialize_iff (m := .response 0 [0x6f, 0x6b])
    ⟨by decide, fun _ _ _ _ => by simp⟩ [] []).mpr (.inl rfl)
  rw [List.append_nil] at h
  exact h

/-- A ping behind the response: the response is read, but the ping is consumed with it. -/
theorem ping_swallowed_by_response :
    parse (serialize (.response 0 [0x6f, 0x6b]) [] ++ serialize .ping []) =
        .message 34 (.response 0 [0x6f, 0x6b]) ∧
      Valid (.response 0 [0x6f, 0x6b]) ∧
      ¬ ∀ m out t, Valid m → parse (serialize m out ++ t) = .message (serialize m out).length m := by
  have hvalid : Valid (.response 0 [0x6f, 0x6b]) := ⟨by decide, fun _ _ _ _ => by simp⟩
  refine ⟨by decide, hvalid, fun hall => ?_⟩
  exact absurd (hall _ [] (serialize .ping []) hvalid) (by decide)

end Relay

end SyncSpirit
