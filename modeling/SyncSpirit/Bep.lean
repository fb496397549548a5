import Mathlib
import SyncSpirit.Proto
import SyncSpirit.Lib.Wire

/-!
# Framing of the block exchange protocol (`proto/bep_support.cpp`)

A packet is either a Hello (magic, size, content) or a message: the size of its header,
the header, the size of its content, the content. The content may be an LZ4 block with
the plain size in front of it.

- `serialize`, `makeHelloMessage`: the encoder;
- `parseBep`: the decoder, on whatever has been received so far.

The decoder works on raw pointers. Here each of its reads and slices is checked against
the buffer, and what C++ leaves undefined is a `Fault`: the model does not say what the
code makes of foreign memory. What is encoded with protopuf and LZ4 is a `Codec`.
-/

namespace SyncSpirit

namespace Bep

/-- `proto::MessageType`, as far as a message on the wire can have it. -/
inductive MessageType where
  | clusterConfig
  | index
  | indexUpdate
  | request
  | response
  | downloadProgress
  | ping
  | close
  deriving DecidableEq, Repr

/-- The number of a type. -/
def MessageType.toInt : MessageType → Int
  | .clusterConfig => 0
  | .index => 1
  | .indexUpdate => 2
  | .request => 3
  | .response => 4
  | .downloadProgress => 5
  | .ping => 6
  | .close => 7

/-- The branches of `parse_msg`. -/
def MessageType.ofInt? : Int → Option MessageType
  | 0 => some .clusterConfig
  | 1 => some .index
  | 2 => some .indexUpdate
  | 3 => some .request
  | 4 => some .response
  | 5 => some .downloadProgress
  | 6 => some .ping
  | 7 => some .close
  | _ => none

/-- `proto::Compression`. -/
inductive Compression where
  | metadata
  | never
  | always
  deriving DecidableEq, Repr

/-- `proto::Header`; the enumerations hold whatever number the peer has sent, and
`MessageCompression::NONE` is 0. -/
structure Header where
  type : Int
  compression : Int
  deriving DecidableEq, Repr

/-- `proto::encode`, `proto::decode` and LZ4, over the contents of messages and of Hello. -/
structure Codec (μ η : Type) where
  type : μ → MessageType
  encode : μ → Bytes
  decode : MessageType → Bytes → Option μ
  encodeHello : η → Bytes
  decodeHello : Bytes → Option η
  encodeHeader : Header → Bytes
  decodeHeader : Bytes → Option Header
  /-- `LZ4_compress_destSize`, with room for the worst case. -/
  compress : Bytes → Option Bytes
  /-- `LZ4_decompress_safe`: the block, its size and the room for the result as `int`. -/
  decompress : Bytes → Int → Int → Option Bytes

/-- `message_t`. -/
inductive Message (μ η : Type) where
  | hello (content : η)
  | plain (content : μ)
  deriving DecidableEq, Repr

/-- `bep_error_code_t`. -/
inductive Error where
  | protobufErr
  | lz4Decoding
  deriving DecidableEq, Repr

/-- What must not happen. -/
inductive Fault where
  | outOfBounds
  | wrapped
  | aborted
  deriving DecidableEq, Repr

/-- `outcome::result<wrapped_message_t>`; nothing consumed means that the message is not
complete. -/
inductive Outcome (μ η : Type) where
  | incomplete
  | message (consumed : Nat) (m : Message μ η)
  | error (e : Error)
  | fault (f : Fault)
  deriving DecidableEq, Repr

/-- `constants::bep_magic`. -/
def bepMagic : Nat := 0x2EA7D90B

/-- `compression_threshold`. -/
def compressionThreshold : Nat := 128

/-- `(int)` of an unsigned number. -/
def toInt (n : Nat) : Int := Int.bmod n (2 ^ 32)

variable {μ η : Type}

/-! ## The encoder -/

/-- `applied_compression`. -/
def Codec.compresses (C : Codec μ η) (m : μ) (compression : Compression) : Bool :=
  compressionThreshold < (C.encode m).length ∧ compression ≠ .never ∧
    (C.type m = .response → compression = .always)

/-- The header and the sizes in front of a content. -/
def Codec.packet (C : Codec μ η) (header : Header) (content : Bytes) : Bytes :=
  Wire.encode 2 (C.encodeHeader header).length ++ C.encodeHeader header ++
    Wire.encode 4 content.length ++ content

/-- The header of a message. -/
def Codec.header (C : Codec μ η) (m : μ) (compression : Compression) : Header :=
  ⟨(C.type m).toInt, if C.compresses m compression then 1 else 0⟩

/-- `serialize`; `none` if the assertion about LZ4 fails. -/
def serialize (C : Codec μ η) (m : μ) (compression : Compression) : Option Bytes :=
  if C.compresses m compression then
    (C.compress (C.encode m)).map fun block =>
      C.packet (C.header m compression) (Wire.encode 4 (C.encode m).length ++ block)
  else some (C.packet (C.header m compression) (C.encode m))

/-- `make_hello_message`, from its content. -/
def makeHelloMessage (C : Codec μ η) (content : η) : Bytes :=
  Wire.encode 4 bepMagic ++ Wire.encode 2 (C.encodeHello content).length ++ C.encodeHello content

/-- Either packet. -/
def Message.serialize (C : Codec μ η) : Message μ η → Compression → Option Bytes
  | .hello content, _ => some (makeHelloMessage C content)
  | .plain content, compression => Bep.serialize C content compression

/-! ## The decoder -/

/-- `parse_hello`, behind the magic; too short is taken for too long. -/
def parseHello (C : Codec μ η) (buff : Bytes) : Outcome μ η :=
  match Wire.read 2 buff 0 with
  | none => .fault .outOfBounds
  | some msgSize =>
    if msgSize < buff.length - 2 then .incomplete
    else
      match Wire.slice buff 2 msgSize with
      | none => .fault .outOfBounds
      | some bytes =>
        match C.decodeHello bytes with
        | none => .error .protobufErr
        | some content => .message (msgSize + 6) (.hello content)

/-- `parse_msg` and `parse`. -/
def parseMessage (C : Codec μ η) (type : Int) (bytes : Bytes) (consumed : Nat) : Outcome μ η :=
  match MessageType.ofInt? type with
  | none => .fault .aborted
  | some type =>
    match C.decode type bytes with
    | none => .error .protobufErr
    | some content => .message consumed (.plain content)

/-- The compressed branch of `parse_bep`: `off` is where the content of `messageSize`
bytes begins. The whole of the plain buffer is decoded, however much LZ4 has filled. -/
def parseCompressed (C : Codec μ η) (buff : Bytes) (type : Int) (off messageSize : Nat) :
    Outcome μ η :=
  match Wire.read 4 buff off with
  | none => .fault .outOfBounds
  | some plainSize =>
    if messageSize < 4 then .fault .wrapped
    else
      match Wire.slice buff (off + 4) (messageSize - 4) with
      | none => .fault .outOfBounds
      | some block =>
        match C.decompress block (toInt (messageSize - 4)) (toInt plainSize) with
        | none => .error .lz4Decoding
        | some plain => parseMessage C type (Wire.resize plain plainSize) (off + messageSize)

/-- What `parse_bep` does behind the header. -/
def parseContent (C : Codec μ η) (buff : Bytes) (header : Header) (off : Nat) : Outcome μ η :=
  match Wire.read 4 buff off with
  | none => .fault .outOfBounds
  | some messageSize =>
    if buff.length < off + 4 + messageSize then .incomplete
    else if header.compression = 0 then
      match Wire.slice buff (off + 4) messageSize with
      | none => .fault .outOfBounds
      | some rest => parseMessage C header.type rest (off + 4 + messageSize)
    else parseCompressed C buff header.type (off + 4) messageSize

/-- `parse_bep`. -/
def parseBep (C : Codec μ η) (buff : Bytes) : Outcome μ η :=
  if buff.length < 4 then .incomplete
  else if buff.take 4 = Wire.encode 4 bepMagic then parseHello C (buff.drop 4)
  else
    match Wire.read 2 buff 0 with
    | none => .fault .outOfBounds
    | some headerSize =>
      if toInt buff.length < 2 + headerSize then .incomplete
      else
        match Wire.slice buff 2 headerSize with
        | none => .fault .outOfBounds
        | some bytes =>
          match C.decodeHeader bytes with
          | none => .error .protobufErr
          | some header => parseContent C buff header (2 + headerSize)

/-! ## Robustness -/

/-- What a parser of a buffer of `size` bytes may answer. -/
@[simp] def Outcome.Robust (size : Nat) : Outcome μ η → Prop
  | .incomplete | .error _ => True
  | .message consumed _ => consumed ≤ size
  | .fault _ => False

/-- The types that have a branch in `parse_msg`. -/
def Known (type : Int) : Prop := 0 ≤ type ∧ type < 8

/-- A Hello, behind its magic, which has not been cut off. -/
def DelimitedHello (buff : Bytes) : Prop := 2 ≤ buff.length ∧ Wire.number buff 0 2 ≤ buff.length - 2

/-- A compressed content that has a plain size, and either is refused by LZ4 or has a known
type. -/
def DelimitedBlock (C : Codec μ η) (buff : Bytes) (type : Int) (off messageSize : Nat) : Prop :=
  4 ≤ messageSize ∧
    (C.decompress ((buff.drop (off + 4)).take (messageSize - 4)) (toInt (messageSize - 4))
        (toInt (Wire.number buff off 4)) = none ∨
      Known type)

/-- A content whose size is there; if the content is there too, then it has a known type. -/
def DelimitedContent (C : Codec μ η) (buff : Bytes) (header : Header) (off : Nat) : Prop :=
  off + 4 ≤ buff.length ∧
    (off + 4 + Wire.number buff off 4 ≤ buff.length →
      if header.compression = 0 then Known header.type
      else DelimitedBlock C buff header.type (off + 4) (Wire.number buff off 4))

/-- The buffers that `parse_bep` can handle. -/
def Delimited (C : Codec μ η) (buff : Bytes) : Prop :=
  4 ≤ buff.length →
    if buff.take 4 = Wire.encode 4 bepMagic then DelimitedHello (buff.drop 4)
    else (2 + Wire.number buff 0 2 : Int) ≤ toInt buff.length →
      ∀ header, C.decodeHeader ((buff.drop 2).take (Wire.number buff 0 2)) = some header →
        DelimitedContent C buff header (2 + Wire.number buff 0 2)

theorem toInt_le (n : Nat) : toInt n ≤ n := by
  unfold toInt
  rw [Int.bmod_def]
  split <;> omega

theorem toInt_of_lt {n : Nat} (h : n < 2 ^ 31) : toInt n = n := by
  unfold toInt
  rw [Int.bmod_eq_of_le] <;> omega

theorem isSome_ofInt? (type : Int) : (MessageType.ofInt? type).isSome ↔ Known type := by
  unfold Known MessageType.ofInt?
  split <;> simp_all
  omega

theorem robust_parseMessage (C : Codec μ η) {type : Int} {bytes : Bytes} {consumed size : Nat}
    (h : consumed ≤ size) : (parseMessage C type bytes consumed).Robust size ↔ Known type := by
  rw [← isSome_ofInt?]
  unfold parseMessage
  cases MessageType.ofInt? type with
  | none => exact iff_of_false not_false Bool.false_ne_true
  | some k =>
    cases hdecode : C.decode k bytes with
    | none => simp [hdecode]
    | some content => simpa [hdecode] using h

theorem robust_parseCompressed (C : Codec μ η) {buff : Bytes} {type : Int} {off messageSize : Nat}
    (h : off + messageSize ≤ buff.length) :
    (parseCompressed C buff type off messageSize).Robust buff.length ↔
      DelimitedBlock C buff type off messageSize := by
  unfold parseCompressed DelimitedBlock
  by_cases hsize : messageSize < 4
  · -- either the plain size or the size of the block is nonsense
    refine iff_of_false ?_ fun hblock => absurd hblock.1 (Nat.not_le.mpr hsize)
    cases Wire.read 4 buff off with
    | none => exact not_false
    | some plainSize => simp [hsize]
  · rw [Wire.read_of_le (by omega), and_iff_right (Nat.not_lt.mp hsize)]
    dsimp only
    rw [if_neg hsize, Wire.slice_of_le (by omega)]
    cases hplain : C.decompress ((buff.drop (off + 4)).take (messageSize - 4))
      (toInt (messageSize - 4)) (toInt (Wire.number buff off 4)) with
    | none => simp [hplain]
    | some plain => simpa [hplain] using robust_parseMessage C h

theorem robust_parseContent (C : Codec μ η) (buff : Bytes) (header : Header) (off : Nat) :
    (parseContent C buff header off).Robust buff.length ↔ DelimitedContent C buff header off := by
  unfold parseContent DelimitedContent
  by_cases hoff : off + 4 ≤ buff.length
  · rw [Wire.read_of_le hoff, and_iff_right hoff]
    dsimp only
    by_cases hall : off + 4 + Wire.number buff off 4 ≤ buff.length
    · rw [imp_iff_right hall, if_neg (Nat.not_lt.mpr hall)]
      split
      · rw [Wire.slice_of_le hall]
        exact robust_parseMessage C hall
      · exact robust_parseCompressed C hall
    · rw [if_pos (Nat.not_le.mp hall)]
      exact iff_of_true trivial fun hnot => absurd hnot hall
  · rw [Wire.read_of_lt (Nat.not_le.mp hoff)]
    exact iff_of_false not_false fun hcontent => hoff hcontent.1

theorem robust_parseHello (C : Codec μ η) (buff : Bytes) :
    (parseHello C buff).Robust (buff.length + 4) ↔ DelimitedHello buff := by
  unfold parseHello DelimitedHello
  by_cases hlen : 2 ≤ buff.length
  · rw [Wire.read_of_le (by omega), and_iff_right hlen]
    dsimp only
    by_cases hlt : Wire.number buff 0 2 < buff.length - 2
    · rw [if_pos hlt]
      exact iff_of_true trivial (Nat.le_of_lt hlt)
    · rw [if_neg hlt]
      by_cases hle : Wire.number buff 0 2 ≤ buff.length - 2
      · rw [Wire.slice_of_le (by omega)]
        refine iff_of_true ?_ hle
        cases hhello : C.decodeHello ((buff.drop 2).take (Wire.number buff 0 2)) with
        | none => simp [hhello]
        | some content =>
          simp only [hhello, Outcome.Robust]
          omega
      · rw [Wire.slice_of_lt (by omega)]
        exact iff_of_false not_false hle
  · rw [Wire.read_of_lt (by omega)]
    exact iff_of_false not_false fun hhello => hlen hhello.1

/-- **Robustness**: `parse_bep` stays inside the buffer, does not wrap and does not abort
exactly if the buffer is delimited as it expects. -/
theorem robust_parseBep_iff (C : Codec μ η) (buff : Bytes) :
    (parseBep C buff).Robust buff.length ↔ Delimited C buff := by
  unfold parseBep Delimited
  by_cases hfour : 4 ≤ buff.length
  · rw [if_neg (Nat.not_lt.mpr hfour), imp_iff_right hfour]
    split
    · have hlen : buff.length = (buff.drop 4).length + 4 := by
        rw [List.length_drop]
        omega
      rw [hlen]
      exact robust_parseHello C (buff.drop 4)
    · rw [Wire.read_of_le (by omega)]
      dsimp only
      by_cases hint : (2 + Wire.number buff 0 2 : Int) ≤ toInt buff.length
      · have hle := toInt_le buff.length
        rw [if_neg (Int.not_lt.mpr hint), Wire.slice_of_le (by omega), imp_iff_right hint]
        cases hheader : C.decodeHeader ((buff.drop 2).take (Wire.number buff 0 2)) with
        | none => simp [hheader]
        | some header => simpa [hheader] using robust_parseContent C buff header (2 + Wire.number buff 0 2)
      · rw [if_pos (Int.not_le.mp hint)]
        exact iff_of_true trivial fun hnot => absurd hnot hint
  · rw [if_pos (Nat.not_le.mp hfour)]
    exact iff_of_true trivial fun hnot => absurd hnot hfour

/-! ## The stream -/

/-- `LZ4_MAX_INPUT_SIZE`. -/
def lz4MaxInputSize : Nat := 0x7E000000

/-- `LZ4_COMPRESSBOUND`. -/
def lz4CompressBound (size : Nat) : Nat := size + size / 255 + 16

/-- What protopuf and LZ4 promise: both read back what they have written. A header is two
fields of small numbers, a serialized message has less than two gigabytes, and LZ4 takes
an input up to its maximum. -/
structure Codec.Lawful (C : Codec μ η) : Prop where
  decode_encode : ∀ m, C.decode (C.type m) (C.encode m) = some m
  decodeHello_encodeHello : ∀ content, C.decodeHello (C.encodeHello content) = some content
  decodeHeader_encodeHeader : ∀ m compression,
    C.decodeHeader (C.encodeHeader (C.header m compression)) = some (C.header m compression)
  length_encodeHeader : ∀ m compression, (C.encodeHeader (C.header m compression)).length ≤ 4
  length_encode : ∀ m, (C.encode m).length < 2 ^ 31
  compress : ∀ data, data.length ≤ lz4MaxInputSize → ∃ block, C.compress data = some block ∧
    block.length ≤ lz4CompressBound data.length ∧ C.decompress block block.length data.length = some data
  compress_none : ∀ data, lz4MaxInputSize < data.length → C.compress data = none

/-! ### Reading a prefix -/

/-- No message begins like a Hello. -/
theorem ne_magic_of_number {buff : Bytes} (h : Wire.number buff 0 2 ≤ 4) :
    buff.take 4 ≠ Wire.encode 4 bepMagic := by
  intro hmagic
  have htake : buff.take 2 = (Wire.encode 4 bepMagic).take 2 := by
    rw [← hmagic, List.take_take]
    rfl
  rw [Wire.number, List.drop_zero, htake] at h
  exact absurd h (by decide)

section Packet

variable {C : Codec μ η} {header : Header} {content rest buff : Bytes}

theorem length_packet (C : Codec μ η) (header : Header) (content : Bytes) :
    (C.packet header content).length = 6 + (C.encodeHeader header).length + content.length := by
  simp only [Codec.packet, List.length_append, Wire.length_encode]
  omega

theorem packet_headerSize (hsize : (C.encodeHeader header).length ≤ 4) :
    Wire.number (C.packet header content ++ rest) 0 2 = (C.encodeHeader header).length := by
  simp only [Codec.packet, List.append_assoc]
  rw [← List.nil_append (Wire.encode 2 _ ++ _), ← List.append_assoc]
  exact Wire.number_append (by omega) rfl

theorem packet_header : ((C.packet header content ++ rest).drop 2).take (C.encodeHeader header).length =
    C.encodeHeader header := by
  simp only [Codec.packet, List.append_assoc]
  rw [List.drop_left' (Wire.length_encode _ _), List.take_left]

theorem packet_messageSize (hcontent : content.length < 2 ^ 32) :
    Wire.number (C.packet header content ++ rest) (2 + (C.encodeHeader header).length) 4 = content.length := by
  rw [Codec.packet, List.append_assoc _ content]
  exact Wire.number_append hcontent (by simp)

theorem packet_content :
    (C.packet header content ++ rest).drop (2 + (C.encodeHeader header).length + 4) = content ++ rest := by
  rw [Codec.packet, List.append_assoc _ content]
  exact List.drop_left' (by simp; omega)

/-- A packet that has been cut off anywhere or is followed by something is read up to its
header, unless its header is not there. -/
theorem parseBep_of_cut (hsize : (C.encodeHeader header).length ≤ 4)
    (hheader : C.decodeHeader (C.encodeHeader header) = some header)
    (hbuff : buff <+: C.packet header content ++ rest) :
    parseBep C buff =
      if buff.length < 4 ∨ toInt buff.length < 2 + (C.encodeHeader header).length then .incomplete
      else parseContent C buff header (2 + (C.encodeHeader header).length) := by
  unfold parseBep
  by_cases hfour : buff.length < 4
  · rw [if_pos hfour, if_pos (.inl hfour)]
  · have hnumber : Wire.number buff 0 2 = (C.encodeHeader header).length := by
      rw [Wire.number_cut hbuff (by omega), packet_headerSize hsize]
    rw [if_neg hfour, if_neg (ne_magic_of_number (hnumber ▸ hsize)), Wire.read_of_le (by omega), hnumber]
    dsimp only
    by_cases hint : toInt buff.length < 2 + (C.encodeHeader header).length
    · rw [if_pos hint, if_pos (.inr hint)]
    · have hle := toInt_le buff.length
      have hslice : (buff.drop 2).take (C.encodeHeader header).length = C.encodeHeader header := by
        rw [Wire.take_drop_cut hbuff (by omega), packet_header]
      rw [if_neg hint, if_neg (not_or.mpr ⟨hfour, hint⟩), Wire.slice_of_le (by omega), hslice]
      dsimp only
      rw [hheader]

/-- Where the cut is decides what is behind the header. -/
theorem parseContent_of_cut (hcontent : content.length < 2 ^ 32)
    (hbuff : buff <+: C.packet header content) (hne : buff ≠ C.packet header content) :
    parseContent C buff header (2 + (C.encodeHeader header).length) =
      if buff.length < 6 + (C.encodeHeader header).length then .fault .outOfBounds else .incomplete := by
  have hlt : buff.length < 6 + (C.encodeHeader header).length + content.length := by
    rw [← length_packet]
    exact Nat.lt_of_le_of_ne hbuff.length_le fun heq => hne (hbuff.eq_of_length heq)
  unfold parseContent
  by_cases hcut : buff.length < 6 + (C.encodeHeader header).length
  · rw [Wire.read_of_lt (by omega), if_pos hcut]
  · have hnumber : Wire.number buff (2 + (C.encodeHeader header).length) 4 = content.length := by
      rw [← List.append_nil (C.packet header content)] at hbuff
      rw [Wire.number_cut hbuff (by omega), packet_messageSize hcontent]
    rw [Wire.read_of_le (by omega), hnumber, if_neg hcut]
    dsimp only
    rw [if_pos (by omega)]

/-- All of the content is there. -/
theorem parseContent_packet (hcontent : content.length < 2 ^ 32) :
    parseContent C (C.packet header content ++ rest) header (2 + (C.encodeHeader header).length) =
      if header.compression = 0 then
        parseMessage C header.type content (C.packet header content).length
      else parseCompressed C (C.packet header content ++ rest) header.type
        (2 + (C.encodeHeader header).length + 4) content.length := by
  have hlen : (C.packet header content ++ rest).length =
      6 + (C.encodeHeader header).length + content.length + rest.length := by
    rw [List.length_append, length_packet]
  unfold parseContent
  rw [Wire.read_of_le (by omega), packet_messageSize hcontent]
  dsimp only
  rw [if_neg (by omega), Wire.slice_of_le (by omega), packet_content, List.take_left]
  dsimp only
  congr 2
  rw [length_packet]
  omega

end Packet

/-! ### Messages -/

theorem ofInt?_toInt (type : MessageType) : MessageType.ofInt? type.toInt = some type := by
  cases type <;> rfl

theorem parseMessage_encode {C : Codec μ η} (hC : C.Lawful) (m : μ) (consumed : Nat) :
    parseMessage C (C.type m).toInt (C.encode m) consumed = .message consumed (.plain m) := by
  rw [parseMessage, ofInt?_toInt]
  dsimp only
  rw [hC.decode_encode]

theorem lz4CompressBound_lt {size : Nat} (h : size ≤ lz4MaxInputSize) : lz4CompressBound size < 2 ^ 31 := by
  unfold lz4CompressBound
  unfold lz4MaxInputSize at h
  omega

/-- The plain size and the block lead back to the message. -/
theorem parseCompressed_packet {C : Codec μ η} (hC : C.Lawful) {m : μ} {header : Header}
    {block rest : Bytes} (hblock : block.length < 2 ^ 31)
    (hplain : C.decompress block block.length (C.encode m).length = some (C.encode m)) :
    parseCompressed C (C.packet header (Wire.encode 4 (C.encode m).length ++ block) ++ rest)
        (C.type m).toInt (2 + (C.encodeHeader header).length + 4)
        (Wire.encode 4 (C.encode m).length ++ block).length =
      .message (C.packet header (Wire.encode 4 (C.encode m).length ++ block)).length (.plain m) := by
  have hsize := hC.length_encode m
  have hcontent : (Wire.encode 4 (C.encode m).length ++ block).length = 4 + block.length := by
    rw [List.length_append, Wire.length_encode]
  have hlen : (C.packet header (Wire.encode 4 (C.encode m).length ++ block) ++ rest).length =
      6 + (C.encodeHeader header).length + (4 + block.length) + rest.length := by
    rw [List.length_append, length_packet, hcontent]
  have hdrop : (C.packet header (Wire.encode 4 (C.encode m).length ++ block) ++ rest).drop
      (2 + (C.encodeHeader header).length + 4) = Wire.encode 4 (C.encode m).length ++ (block ++ rest) := by
    rw [packet_content, List.append_assoc]
  have hnumber : Wire.number (C.packet header (Wire.encode 4 (C.encode m).length ++ block) ++ rest)
      (2 + (C.encodeHeader header).length + 4) 4 = (C.encode m).length := by
    rw [Wire.number, hdrop, List.take_left' (Wire.length_encode _ _), Wire.decode_encode_of_lt (by omega)]
  have hslice : ((C.packet header (Wire.encode 4 (C.encode m).length ++ block) ++ rest).drop
      (2 + (C.encodeHeader header).length + 4 + 4)).take block.length = block := by
    rw [← List.drop_drop, hdrop, List.drop_left' (Wire.length_encode _ _), List.take_left]
  unfold parseCompressed
  rw [Wire.read_of_le (by omega), hnumber, hcontent]
  dsimp only
  rw [if_neg (by omega), Nat.add_sub_cancel_left, Wire.slice_of_le (by omega), hslice, toInt_of_lt hblock,
    toInt_of_lt hsize]
  dsimp only
  rw [hplain]
  dsimp only
  rw [Wire.resize_length, parseMessage_encode hC, length_packet, hcontent]
  congr 1
  omega

/-- What has been serialized is a packet with the header of the message, and its content
is read back. -/
theorem serialize_spec {C : Codec μ η} (hC : C.Lawful) {m : μ} {compression : Compression} {s : Bytes}
    (hs : serialize C m compression = some s) : ∃ content, content.length < 2 ^ 32 ∧
      s = C.packet (C.header m compression) content ∧
      ∀ rest, parseContent C (s ++ rest) (C.header m compression)
        (2 + (C.encodeHeader (C.header m compression)).length) = .message s.length (.plain m) := by
  have hsize := hC.length_encode m
  unfold serialize at hs
  split at hs
  · rename_i hcompress
    by_cases hmax : (C.encode m).length ≤ lz4MaxInputSize
    · obtain ⟨block, hblock, hbound, hplain⟩ := hC.compress _ hmax
      have hlt := lz4CompressBound_lt hmax
      have hcontent : (Wire.encode 4 (C.encode m).length ++ block).length < 2 ^ 32 := by
        rw [List.length_append, Wire.length_encode]
        omega
      have hcompression : (C.header m compression).compression ≠ 0 := by
        simp [Codec.header, hcompress]
      rw [hblock] at hs
      obtain rfl := Option.some.inj hs
      refine ⟨_, hcontent, rfl, fun rest => ?_⟩
      rw [parseContent_packet hcontent, if_neg hcompression]
      exact parseCompressed_packet hC (by omega) hplain
    · rw [hC.compress_none _ (Nat.not_le.mp hmax)] at hs
      cases hs
  · rename_i hcompress
    have hcontent : (C.encode m).length < 2 ^ 32 := by omega
    have hcompression : (C.header m compression).compression = 0 := by
      simp [Codec.header, hcompress]
    obtain rfl := Option.some.inj hs
    refine ⟨_, hcontent, rfl, fun rest => ?_⟩
    rw [parseContent_packet hcontent, if_pos hcompression]
    exact parseMessage_encode hC m _

/-- Only LZ4 can refuse a message. -/
theorem serialize_isSome {C : Codec μ η} (hC : C.Lawful) (m : μ) (compression : Compression) :
    (serialize C m compression).isSome ↔
      (C.compresses m compression → (C.encode m).length ≤ lz4MaxInputSize) := by
  unfold serialize
  split
  · rename_i hcompress
    rw [imp_iff_right hcompress, Option.isSome_map]
    by_cases hmax : (C.encode m).length ≤ lz4MaxInputSize
    · obtain ⟨block, hblock, -⟩ := hC.compress _ hmax
      simp [hblock, hmax]
    · rw [hC.compress_none _ (Nat.not_le.mp hmax)]
      simp [hmax]
  · rename_i hcompress
    simp [hcompress]

/-! ### Hello -/

theorem parseBep_makeHelloMessage {C : Codec μ η} {content : η} {rest buff : Bytes}
    (hbuff : buff <+: makeHelloMessage C content ++ rest) :
    parseBep C buff = if buff.length < 4 then .incomplete else parseHello C (buff.drop 4) := by
  unfold parseBep
  by_cases hfour : buff.length < 4
  · rw [if_pos hfour, if_pos hfour]
  · have hmagic : buff.take 4 = Wire.encode 4 bepMagic := by
      have htake : (buff.drop 0).take 4 = ((makeHelloMessage C content ++ rest).drop 0).take 4 :=
        Wire.take_drop_cut hbuff (by omega)
      rw [List.drop_zero, List.drop_zero] at htake
      rw [htake, makeHelloMessage, List.append_assoc, List.append_assoc,
        List.take_left' (Wire.length_encode _ _)]
    rw [if_neg hfour, if_pos hmagic, if_neg hfour]

theorem drop_makeHelloMessage (C : Codec μ η) (content : η) (rest : Bytes) :
    (makeHelloMessage C content ++ rest).drop 4 =
      Wire.encode 2 (C.encodeHello content).length ++ (C.encodeHello content ++ rest) := by
  rw [makeHelloMessage, List.append_assoc, List.append_assoc, List.drop_left' (Wire.length_encode _ _)]

/-- A Hello is read back if nothing follows it and its size is not truncated. -/
theorem parseHello_iff {C : Codec μ η} (hC : C.Lawful) (content : η) (rest : Bytes) :
    parseHello C (Wire.encode 2 (C.encodeHello content).length ++ (C.encodeHello content ++ rest)) =
        .message ((C.encodeHello content).length + 6) (.hello content) ↔
      (C.encodeHello content).length < 2 ^ 16 ∧ rest = [] := by
  have hlen : (Wire.encode 2 (C.encodeHello content).length ++ (C.encodeHello content ++ rest)).length =
      2 + (C.encodeHello content).length + rest.length := by
    simp only [List.length_append, Wire.length_encode]
    omega
  have hnumber : Wire.number (Wire.encode 2 (C.encodeHello content).length ++
      (C.encodeHello content ++ rest)) 0 2 = (C.encodeHello content).length % 2 ^ 16 := by
    rw [Wire.number, List.drop_zero, List.take_left' (Wire.length_encode _ _)]
    exact Wire.decode_encode 2 _
  unfold parseHello
  rw [Wire.read_of_le (by omega), hnumber]
  dsimp only
  by_cases hlt : (C.encodeHello content).length % 2 ^ 16 <
      (Wire.encode 2 (C.encodeHello content).length ++ (C.encodeHello content ++ rest)).length - 2
  · rw [if_pos hlt]
    refine iff_of_false (by simp) ?_
    rintro ⟨hsize, rfl⟩
    rw [hlen, Nat.mod_eq_of_lt hsize, List.length_nil] at hlt
    omega
  · rw [if_neg hlt]
    rw [hlen] at hlt
    have hrest : rest = [] := List.length_eq_zero_iff.mp (by omega)
    have hsize : (C.encodeHello content).length < 2 ^ 16 := by omega
    subst hrest
    rw [Nat.mod_eq_of_lt hsize, Wire.slice_of_le (by omega), List.drop_left' (Wire.length_encode _ _),
      List.append_nil, List.take_length]
    dsimp only
    rw [hC.decodeHello_encodeHello]
    exact iff_of_true rfl ⟨hsize, rfl⟩

/-- A Hello that has been cut off behind the magic is read from foreign memory. -/
theorem parseHello_of_cut {C : Codec μ η} {content : η} (hsize : (C.encodeHello content).length < 2 ^ 16)
    {buff : Bytes} (hbuff : buff <+: makeHelloMessage C content) (hne : buff ≠ makeHelloMessage C content)
    (hfour : 4 ≤ buff.length) : parseHello C (buff.drop 4) = .fault .outOfBounds := by
  have hcut : buff.drop 4 <+:
      Wire.encode 2 (C.encodeHello content).length ++ (C.encodeHello content ++ []) := by
    rw [← drop_makeHelloMessage, List.append_nil]
    exact List.IsPrefix.drop hbuff 4
  have hlt : buff.length < 6 + (C.encodeHello content).length := by
    have hlt := Nat.lt_of_le_of_ne hbuff.length_le fun heq => hne (hbuff.eq_of_length heq)
    simp only [makeHelloMessage, List.length_append, Wire.length_encode] at hlt
    omega
  have hdrop : (buff.drop 4).length = buff.length - 4 := List.length_drop
  unfold parseHello
  by_cases htwo : 2 ≤ (buff.drop 4).length
  · have hnumber : Wire.number (buff.drop 4) 0 2 = (C.encodeHello content).length := by
      rw [Wire.number_cut hcut (by omega), Wire.number, List.drop_zero, List.take_left' (Wire.length_encode _ _),
        Wire.decode_encode_of_lt hsize]
    rw [Wire.read_of_le (by omega), hnumber]
    dsimp only
    rw [if_neg (by omega), Wire.slice_of_lt (by omega)]
  · rw [Wire.read_of_lt (by omega)]

/-! ### Both -/

/-- When a packet can be followed by `t` and cut off after `p`. The size of a Hello is a
16-bit number, and nothing may follow it. The size of the buffer is compared as an `int`.
A message may not be cut off between its header and the end of its size. -/
def Streams (C : Codec μ η) (compression : Compression) (t p : Bytes) : Message μ η → Prop
  | .hello content => (C.encodeHello content).length < 2 ^ 16 ∧ t = [] ∧ p.length < 4
  | .plain m =>
    (C.compresses m compression → (C.encode m).length ≤ lz4MaxInputSize) ∧
    (∀ s, serialize C m compression = some s →
      2 + (C.encodeHeader (C.header m compression)).length ≤ toInt (s ++ t).length) ∧
    (p.length < 4 ∨ toInt p.length < 2 + (C.encodeHeader (C.header m compression)).length ∨
      6 + (C.encodeHeader (C.header m compression)).length ≤ p.length)

theorem hello_streams_iff {C : Codec μ η} (hC : C.Lawful) {content : η} (compression : Compression)
    (t : Bytes) {p : Bytes} (hsub : p <+: makeHelloMessage C content)
    (hne : p ≠ makeHelloMessage C content) :
    parseBep C (makeHelloMessage C content ++ t) =
          .message (makeHelloMessage C content).length (.hello content) ∧
        parseBep C p = .incomplete ↔
      Streams C compression t p (.hello content) := by
  have hlen : (makeHelloMessage C content).length = (C.encodeHello content).length + 6 := by
    simp only [makeHelloMessage, List.length_append, Wire.length_encode]
    omega
  have hfull : parseBep C (makeHelloMessage C content ++ t) =
      .message (makeHelloMessage C content).length (.hello content) ↔
        (C.encodeHello content).length < 2 ^ 16 ∧ t = [] := by
    rw [parseBep_makeHelloMessage (List.prefix_refl _),
      if_neg (by rw [List.length_append, hlen]; omega), drop_makeHelloMessage, hlen]
    exact parseHello_iff hC content t
  rw [hfull, and_assoc]
  refine and_congr_right fun hsize => and_congr_right fun _ => ?_
  rw [parseBep_makeHelloMessage (hsub.trans (List.prefix_append _ []))]
  split
  · rename_i hfour
    exact iff_of_true rfl hfour
  · rename_i hfour
    rw [parseHello_of_cut hsize hsub hne (Nat.not_lt.mp hfour)]
    exact iff_of_false (by simp) hfour

theorem message_streams_iff {C : Codec μ η} (hC : C.Lawful) {m : μ} {compression : Compression}
    {s : Bytes} (hs : serialize C m compression = some s) (t : Bytes) {p : Bytes} (hsub : p <+: s)
    (hne : p ≠ s) :
    parseBep C (s ++ t) = .message s.length (.plain m) ∧ parseBep C p = .incomplete ↔
      Streams C compression t p (.plain m) := by
  have hsize := hC.length_encodeHeader m compression
  have hheader := hC.decodeHeader_encodeHeader m compression
  have hlz4 := (serialize_isSome hC m compression).mp (by rw [hs]; rfl)
  obtain ⟨content, hcontent, hpacket, hparse⟩ := serialize_spec hC hs
  have hlong : 6 ≤ (s ++ t).length := by
    rw [List.length_append, hpacket, length_packet]
    omega
  have hfull : parseBep C (s ++ t) = .message s.length (.plain m) ↔
      2 + (C.encodeHeader (C.header m compression)).length ≤ toInt (s ++ t).length := by
    have hwhole : s ++ t <+: C.packet (C.header m compression) content ++ t := by
      rw [← hpacket]
    rw [parseBep_of_cut hsize hheader hwhole]
    split
    · rename_i hshort
      exact iff_of_false (by simp) (by omega)
    · rename_i hshort
      exact iff_of_true (hparse t) (by omega)
  have hcut : parseBep C p = .incomplete ↔
      p.length < 4 ∨ toInt p.length < 2 + (C.encodeHeader (C.header m compression)).length ∨
        6 + (C.encodeHeader (C.header m compression)).length ≤ p.length := by
    rw [hpacket] at hsub hne
    rw [parseBep_of_cut hsize hheader (hsub.trans (List.prefix_append _ [])),
      parseContent_of_cut hcontent hsub hne]
    split
    · rename_i hshort
      exact iff_of_true rfl (by omega)
    · rename_i hshort
      split
      · exact iff_of_false (by simp) (by omega)
      · exact iff_of_true rfl (by omega)
  rw [hfull, hcut, Streams, and_iff_right hlz4, hs]
  simp only [Option.some.injEq, forall_eq']

/-- **The framing is a streaming codec** under `Streams`, and only then. -/
theorem parseBep_serialize_iff {C : Codec μ η} (hC : C.Lawful) (m : Message μ η)
    (compression : Compression) (t p : Bytes)
    (hp : ∀ s, m.serialize C compression = some s → p <+: s ∧ p ≠ s) :
    (∃ s, m.serialize C compression = some s ∧ parseBep C (s ++ t) = .message s.length m ∧
        parseBep C p = .incomplete) ↔
      Streams C compression t p m := by
  cases m with
  | hello content =>
    obtain ⟨hsub, hne⟩ := hp _ rfl
    rw [← hello_streams_iff hC compression t hsub hne, Message.serialize]
    simp only [Option.some.injEq, exists_eq_left']
  | plain m =>
    rw [Message.serialize] at hp ⊢
    cases hs : serialize C m compression with
    | none =>
      refine iff_of_false (by simp) fun hstreams => ?_
      have hsome := (serialize_isSome hC m compression).mpr hstreams.1
      rw [hs] at hsome
      cases hsome
    | some s =>
      obtain ⟨hsub, hne⟩ := hp s hs
      rw [← message_streams_iff hC hs t hsub hne]
      simp only [Option.some.injEq, exists_eq_left']

/-! ### Packets of a Ping -/

/-- Messages and Hello as their own encodings; LZ4 stores its input. -/
def rawCodec : Codec (MessageType × { bytes : Bytes // bytes.length < 2 ^ 31 }) Bytes where
  type m := m.1
  encode m := m.2
  decode type bytes := if h : bytes.length < 2 ^ 31 then some (type, ⟨bytes, h⟩) else none
  encodeHello content := content
  decodeHello := some
  encodeHeader header := [0x08, UInt8.ofInt header.type, 0x10, UInt8.ofInt header.compression]
  decodeHeader
    | [0x08, type, 0x10, compression] => some ⟨type.toNat, compression.toNat⟩
    | _ => none
  compress data := if data.length ≤ lz4MaxInputSize then some data else none
  decompress block _ room := if block.length ≤ room then some block else none

theorem rawCodec_lawful : rawCodec.Lawful where
  decode_encode m := dif_pos m.2.2
  decodeHello_encodeHello _ := rfl
  decodeHeader_encodeHeader m compression := by
    cases hcompress : rawCodec.compresses m compression <;>
      obtain ⟨type, bytes⟩ := m <;> cases type <;> simp [Codec.header, hcompress] <;> rfl
  length_encodeHeader _ _ := Nat.le_refl 4
  length_encode m := m.2.2
  compress data hdata := by
    refine ⟨data, if_pos hdata, ?_, if_pos (Int.le_refl _)⟩
    unfold lz4CompressBound
    omega
  compress_none data hdata := if_neg (Nat.not_le.mpr hdata)

/-- A Ping: no content. -/
theorem noBytes_fit : ([] : Bytes).length < 2 ^ 31 := by decide

def pingMessage : Message (MessageType × { bytes : Bytes // bytes.length < 2 ^ 31 }) Bytes :=
  .plain (.ping, ⟨[], noBytes_fit⟩)

/-- Its packet. -/
def pingPacket : Bytes := [0x00, 0x04, 0x08, 0x06, 0x10, 0x00, 0x00, 0x00, 0x00, 0x00]

theorem serialize_pingMessage : pingMessage.serialize rawCodec .always = some pingPacket := rfl

/-- A Ping with another one behind it, and one that is cut off inside its header. -/
theorem ping_streams : ∃ s, pingMessage.serialize rawCodec .always = some s ∧
    parseBep rawCodec (s ++ pingPacket) = .message s.length pingMessage ∧
    parseBep rawCodec (pingPacket.take 5) = .incomplete := by
  refine (parseBep_serialize_iff rawCodec_lawful pingMessage .always pingPacket (pingPacket.take 5)
    ?_).mpr ⟨by decide, ?_, by decide⟩
  · intro s hs
    obtain rfl := Option.some.inj (serialize_pingMessage.symm.trans hs)
    exact ⟨List.take_prefix _ _, by decide⟩
  · intro s hs
    obtain rfl := Option.some.inj (serialize_pingMessage.symm.trans hs)
    decide

/-- A Ping that is cut off behind its header: the size is read from foreign memory. -/
theorem ping_cut_before_size :
    parseBep rawCodec (pingPacket.take 6) = .fault .outOfBounds ∧
      ¬ ∀ (m : Message (MessageType × { bytes : Bytes // bytes.length < 2 ^ 31 }) Bytes)
        (compression : Compression) (s t p : Bytes), m.serialize rawCodec compression = some s →
          p <+: s → p ≠ s →
            parseBep rawCodec (s ++ t) = .message s.length m ∧ parseBep rawCodec p = .incomplete := by
  have hfault : parseBep rawCodec (pingPacket.take 6) = .fault .outOfBounds := by decide
  refine ⟨hfault, fun hall => ?_⟩
  have hcut := (hall pingMessage .always pingPacket [] (pingPacket.take 6) serialize_pingMessage
    (List.take_prefix _ _) (by decide)).2
  rw [hfault] at hcut
  cases hcut

/-- The magic of a Hello without anything behind it, and a complete message of a type that
is not on the list. -/
theorem magic_read_past_the_end :
    parseBep rawCodec [0x2E, 0xA7, 0xD9, 0x0B] = .fault .outOfBounds ∧
      parseBep rawCodec [0x00, 0x04, 0x08, 0x08, 0x10, 0x00, 0x00, 0x00, 0x00, 0x00] = .fault .aborted ∧
      ¬ ∀ buff, (parseBep rawCodec buff).Robust buff.length := by
  have hfault : parseBep rawCodec [0x2E, 0xA7, 0xD9, 0x0B] = .fault .outOfBounds := by decide
  refine ⟨hfault, by decide, fun hall => ?_⟩
  have hrobust := hall [0x2E, 0xA7, 0xD9, 0x0B]
  rwa [hfault] at hrobust

end Bep

end SyncSpirit
