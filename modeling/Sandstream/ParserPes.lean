import Mathlib
import Sandstream.TsPacket

/-! # Sandstream.ParserPes -- elementary stream bytes

`parser_pes_t` strips the PES header from the packets that start a PES packet and hands the payload on
without copying it. `put` returns the buffer `on_data` is called with, if it is called.
`staysInside_iff` says when the header it strips lies inside the payload, which is not checked.
-/

namespace Sandstream

open Sandstream.Lib.Window

namespace ParserPes

/-- `parser_pes_t::parse_result_t`. -/
structure ParseResult where
  isSuccess : Bool := false
  consumedBytes : Nat := 0
  deriving Repr, DecidableEq

/-- `program_stream_map`. -/
def programStreamMap : UInt8 := 0xbc

/-- `padding_stream`. -/
def paddingStream : UInt8 := 0xbe

/-- `private_stream_2`. -/
def privateStream2 : UInt8 := 0xbf

/-- `ecm_stream`. -/
def ecmStream : UInt8 := 0xf0

/-- `emm_stream`. -/
def emmStream : UInt8 := 0xf1

/-- `dsmcc_stream`. -/
def dsmccStream : UInt8 := 0xf2

/-- `h222_type_e_stream`. -/
def h222TypeEStream : UInt8 := 0xf8

/-- `program_stream_directory`. -/
def programStreamDirectory : UInt8 := 0xff

/-- The condition of the first branch: none of the eight stream ids whose packets have no optional
header. -/
def HasOptionalHeader (streamId : UInt8) : Prop :=
  streamId ≠ programStreamMap ∧ streamId ≠ paddingStream ∧ streamId ≠ privateStream2 ∧
    streamId ≠ ecmStream ∧ streamId ≠ emmStream ∧ streamId ≠ programStreamDirectory ∧
    streamId ≠ dsmccStream ∧ streamId ≠ h222TypeEStream

instance (streamId : UInt8) : Decidable (HasOptionalHeader streamId) :=
  inferInstanceAs (Decidable (_ ∧ _))

/-- `parser_pes_t::try_parse_header`. Both branches for the other stream ids are `assert(false)`. -/
def tryParseHeader (data : List UInt8) (available : Nat) : Exec ParseResult := do
  let packetStartCodePrefixLength := 3
  let streamIdLength := 1
  let pesPacketLengthLength := 2
  if available < packetStartCodePrefixLength + pesPacketLengthLength + streamIdLength then
    return {}
  else
    let position := packetStartCodePrefixLength
    let streamId ← load data position
    let position := position + streamIdLength
    let position := position + pesPacketLengthLength
    if HasOptionalHeader streamId then
      -- the room for the two bytes of flags is checked, that for the length byte is not
      let pesHeaderDataLengthOffset := 2
      if sizeSub available position < pesHeaderDataLengthOffset then
        return {}
      else
        let position := position + pesHeaderDataLengthOffset
        let pesHeaderDataLength ← load data position
        let position := position + 1
        let position := position + pesHeaderDataLength.toNat
        return ⟨true, position⟩
    else
      assert false
      return ⟨true, position⟩

/-- `parser_pes_t::put`. -/
def put (a : Arrival) : Exec (Option ConstBuffer) := do
  let payload := a.packet.payload
  let payload ←
    if a.packet.payloadUnitStartIndicator then do
      let parseResult ← tryParseHeader (a.storage.drop payload.data) payload.size
      if parseResult.isSuccess then
        pure ⟨payload.data + parseResult.consumedBytes,
          sizeSub payload.size parseResult.consumedBytes⟩
      else
        pure payload
    else
      pure payload
  -- a header that is longer than the payload has made the size wrap, which is not 0
  if payload.size ≠ 0 then
    return some payload
  else
    return none

/-! ## Headers inside the packet -/

/-- The size of the PES header at the front of a payload. -/
def headerLength (payload : List UInt8) : Nat := 9 + (payload.getD 8 0).toNat

/-- The payload begins with a PES header that is wholly inside it, of a stream that has one. -/
structure HeaderInside (payload : List UInt8) : Prop where
  hasOptionalHeader : HasOptionalHeader (payload.getD 3 0)
  inside : headerLength payload ≤ payload.length

instance (payload : List UInt8) : Decidable (HeaderInside payload) :=
  decidable_of_iff (HasOptionalHeader (payload.getD 3 0) ∧ headerLength payload ≤ payload.length)
    ⟨fun h => ⟨h.1, h.2⟩, fun h => ⟨h.1, h.2⟩⟩

/-- A byte of the payload, read through the pointer to it. -/
theorem load_payload {a : Arrival} (ha : a.packet.payload.ValidIn a.storage) {i : Nat}
    (hi : i < a.packet.payload.size) :
    load (a.storage.drop a.packet.payload.data) i = .ok (a.payload.getD i 0) := by
  apply load_of_getElem?
  have hlt : i < a.payload.length := by
    rw [Arrival.payload, ConstBuffer.bytes_length ha]
    exact hi
  have hget : a.payload[i]? = (a.storage.drop a.packet.payload.data)[i]? := by
    rw [Arrival.payload, ConstBuffer.bytes, window, List.getElem?_take_of_lt hi]
  rw [← hget]
  exact getElem?_getD hlt

/-- Below eight bytes the parser waits for more. -/
theorem tryParseHeader_of_short {data : List UInt8} {available : Nat} {streamId : UInt8}
    (hshort : available < 8)
    (hid : 6 ≤ available → load data 3 = .ok streamId ∧ HasOptionalHeader streamId) :
    tryParseHeader data available = .ok {} := by
  by_cases hlen : available < 6
  · simp only [tryParseHeader]
    rw [if_pos hlen]
    rfl
  · obtain ⟨hload, hopt⟩ := hid (by omega)
    have hroom : sizeSub available (3 + 1 + 2) < 2 := by
      rw [sizeSub_of_le (by omega)]
      omega
    simp only [tryParseHeader, hload, ok_bind]
    rw [if_neg hlen, if_pos hopt, if_pos hroom]
    rfl

/-- From eight bytes on it reads the ninth one, and believes it. -/
theorem tryParseHeader_of_long {data : List UInt8} {available : Nat} {streamId : UInt8}
    (hlong : 8 ≤ available) (hload : load data 3 = .ok streamId) (hopt : HasOptionalHeader streamId) :
    tryParseHeader data available = (do return ⟨true, 9 + (← load data 8).toNat⟩) := by
  have hsize : ¬ available < 3 + 2 + 1 := by omega
  have hroom : ¬ sizeSub available (3 + 1 + 2) < 2 := by
    rw [sizeSub_of_le (by omega)]
    omega
  simp only [tryParseHeader, hload, ok_bind]
  rw [if_neg hsize, if_pos hopt, if_neg hroom]

theorem tryParseHeader_of_inside {a : Arrival} (ha : a.Valid) (h : HeaderInside a.payload) :
    tryParseHeader (a.storage.drop a.packet.payload.data) a.packet.payload.size =
      .ok ⟨true, headerLength a.payload⟩ := by
  have hinside := h.inside
  rw [ha.payload_length] at hinside
  simp only [headerLength] at hinside
  rw [tryParseHeader_of_long (by omega) (load_payload ha.inside (by omega)) h.hasOptionalHeader,
    load_payload ha.inside (by omega)]
  rfl

/-! ## Payloads of any size -/

/-- Nothing is handed on, or a non-empty end of the payload. -/
def HandsOnSuffix (payload : ConstBuffer) (handed : Option ConstBuffer) : Prop :=
  ∀ b ∈ handed, payload.data ≤ b.data ∧ b.data + b.size = payload.data + payload.size ∧ 0 < b.size

/-- Parsing this payload stays inside it, and so does what `put` hands on of any packet with it. -/
structure StaysInside (payload : List UInt8) : Prop where
  /-- on a buffer that ends with the payload, as a read behind it would be a fault -/
  parses : Returns (tryParseHeader payload payload.length) fun r =>
    (r.isSuccess = true →
      r.consumedBytes = headerLength payload ∧ r.consumedBytes ≤ payload.length) ∧
    (payload.length < headerLength payload → r = {})
  puts : ∀ a : Arrival, a.packet.payload.ValidIn a.storage → a.payload = payload →
    Returns (put a) (HandsOnSuffix a.packet.payload)

/-- `put` is right when the size of the header it takes off is. -/
theorem put_handsOnSuffix {a : Arrival}
    (h : a.packet.payloadUnitStartIndicator = true →
      Returns (tryParseHeader (a.storage.drop a.packet.payload.data) a.packet.payload.size) fun r =>
        r.isSuccess = true → r.consumedBytes ≤ a.packet.payload.size) :
    Returns (put a) (HandsOnSuffix a.packet.payload) := by
  have hsuffix : ∀ b : ConstBuffer, a.packet.payload.data ≤ b.data →
      b.data + b.size = a.packet.payload.data + a.packet.payload.size →
      Returns (if b.size ≠ 0 then (.ok (some b) : Exec (Option ConstBuffer)) else .ok none)
        (HandsOnSuffix a.packet.payload) := by
    intro b hdata hend
    by_cases hsize : b.size = 0
    · rw [if_neg (not_not.mpr hsize), returns_ok]
      exact fun c hc => absurd hc (by simp)
    · rw [if_pos hsize, returns_ok]
      intro c hc
      obtain rfl : b = c := Option.some.inj hc
      exact ⟨hdata, hend, Nat.pos_of_ne_zero hsize⟩
  unfold put
  by_cases hstart : a.packet.payloadUnitStartIndicator = true
  · obtain ⟨r, hr, hconsumed⟩ := returns_iff.mp (h hstart)
    simp only [hstart, if_true, hr, ok_bind]
    by_cases hsuccess : r.isSuccess = true
    · have hle := hconsumed hsuccess
      rw [if_pos hsuccess, sizeSub_of_le hle]
      exact hsuffix _ (Nat.le_add_right _ _) (by dsimp only; omega)
    · rw [if_neg hsuccess]
      exact hsuffix _ le_rfl rfl
  · simp only [hstart]
    exact hsuffix _ le_rfl rfl

/-- Below eight bytes nothing is taken off. -/
theorem staysInside_of_short {payload : List UInt8} (hshort : payload.length < 8)
    (hid : 6 ≤ payload.length → HasOptionalHeader (payload.getD 3 0)) : StaysInside payload where
  parses := by
    rw [tryParseHeader_of_short hshort fun h6 => ⟨load_getD (by omega), hid h6⟩, returns_ok]
    exact ⟨fun hsuccess => absurd hsuccess Bool.false_ne_true, fun _ => rfl⟩
  puts := by
    rintro a ha rfl
    have hsize : a.payload.length = a.packet.payload.size := ConstBuffer.bytes_length ha
    apply put_handsOnSuffix
    intro _
    rw [tryParseHeader_of_short (by omega) fun h6 => ⟨load_payload ha (by omega), hid (by omega)⟩,
      returns_ok]
    exact fun hsuccess => absurd hsuccess Bool.false_ne_true

/-- A whole header is taken off, and no more. -/
theorem staysInside_of_headerInside {payload : List UInt8} (h : HeaderInside payload) :
    StaysInside payload where
  parses := by
    have hinside := h.inside
    have hnine : 9 ≤ payload.length := (Nat.le_add_right _ _).trans hinside
    rw [tryParseHeader_of_long (by omega) (load_getD (by omega)) h.hasOptionalHeader,
      load_getD hnine, ok_bind]
    exact returns_ok.mpr ⟨fun _ => ⟨rfl, hinside⟩, fun hcut => absurd hcut (by omega)⟩
  puts := by
    rintro a ha rfl
    have hinside := h.inside
    have hsize : a.payload.length = a.packet.payload.size := ConstBuffer.bytes_length ha
    have hpos : 0 < headerLength a.payload := Nat.lt_add_right _ (by decide)
    apply put_handsOnSuffix
    intro _
    rw [tryParseHeader_of_inside ⟨ha, by omega⟩ h, returns_ok, ← hsize]
    exact fun _ => hinside

/-- **When header skipping stays inside the packet.** For a payload of a stream that has the optional
header, exactly if the payload is too short for the parser to look for the header's length, or holds
the whole header. -/
theorem staysInside_iff (payload : List UInt8)
    (hid : 4 ≤ payload.length → HasOptionalHeader (payload.getD 3 0)) :
    StaysInside payload ↔ payload.length < 8 ∨ headerLength payload ≤ payload.length := by
  constructor
  · intro h
    by_contra hnot
    rw [not_or] at hnot
    have hparses := h.parses
    rw [tryParseHeader_of_long (by omega) (load_getD (by omega)) (hid (by omega))] at hparses
    rcases Nat.lt_or_ge 8 payload.length with hlong | hend
    · -- success is reported, with more bytes than there are
      rw [load_getD hlong, ok_bind] at hparses
      have hconsumed := ((returns_ok.mp hparses).1 rfl).2
      exact hnot.2 hconsumed
    · -- the ninth of eight bytes is read
      rw [load_of_length_le hend, error_bind, returns_error] at hparses
      exact hparses
  · rintro (hshort | hinside)
    · exact staysInside_of_short hshort fun h6 => hid (by omega)
    · have hnine : 9 ≤ payload.length := (Nat.le_add_right _ _).trans hinside
      exact staysInside_of_headerInside ⟨hid (by omega), hinside⟩

/-- The payload of the unit tests: a header of fourteen bytes and five more. -/
def headerAndData : List UInt8 :=
  [0x00, 0x00, 0x01, 0xe0, 0x00, 0x00, 0x84, 0x80, 0x05, 0x21, 0x00, 0x37, 0x77, 0x41,
    0x00, 0x00, 0x00, 0x01, 0x09]

theorem staysInside_headerAndData : StaysInside headerAndData :=
  (staysInside_iff headerAndData fun _ => by decide).mpr (by decide)

/-- Of a payload of eight bytes the ninth is read; of nine bytes, where five more are announced, fourteen
are taken off. -/
theorem not_staysInside_cutHeader :
    (∀ n ∈ [8, 9], HasOptionalHeader ((headerAndData.take n).getD 3 0)) ∧
      ¬ StaysInside (headerAndData.take 8) ∧ ¬ StaysInside (headerAndData.take 9) := by
  refine ⟨by decide, ?_, ?_⟩
  · intro h
    have hparses := h.parses
    exact absurd hparses (by decide)
  · intro h
    have hparses := h.parses
    exact absurd hparses (by decide)

end ParserPes

end Sandstream
