import Mathlib
import Sandstream.Buffer

/-! # Sandstream.TsPacket -- decoding one transport stream packet

`TsPacket.ofBytes` is the parsing constructor of `ts_packet_t`. It copies nothing: the payload of the
packet is a view into the storage it was parsed from. `ofBytes_eq` gives the result for every block
the constructor accepts, in terms of the block's own bytes.
-/

namespace Sandstream

open Sandstream.Lib.Window

/-- `ts_packet_t::ts_packet_size`. -/
def tsPacketSize : Nat := 188

/-- `ts_packet_t::ts_sync_byte`. -/
def tsSyncByte : UInt8 := 0x47

/-- `ts_packet_t`. -/
structure TsPacket where
  pid : UInt16
  payloadUnitStartIndicator : Bool
  payload : ConstBuffer
  deriving Repr, DecidableEq

/-- `ts_packet_t::ts_packet_t(const uint8_t *data, size_t available_bytes)`, where `data` is an
address inside `storage`. -/
def TsPacket.ofBytes (storage : List UInt8) (data availableBytes : Nat) : Exec TsPacket := do
  -- `data()` of a vector is null only when the vector is empty
  assert (!storage.isEmpty)
  assert ((← load storage data) == tsSyncByte)
  assert (availableBytes == tsPacketSize)
  let payloadUnitStartIndicator := (← load storage (data + 1)) &&& 0x40 != 0
  let pid ← maskedTwoBytesValue (storage.drop (data + 1)) 0x1f
  let adaptationFieldControl := ((← load storage (data + 3)) &&& 0x30) >>> 4
  let payloadData := data + 4
  let payloadSize := sizeSub tsPacketSize 4
  if adaptationFieldControl = 0x03 ∨ adaptationFieldControl = 0x02 then
    -- the length is not checked against the packet: a longer field makes the size wrap
    let adaptationFieldLength ← load storage payloadData
    let adaptationFieldSkipSize := 1 + adaptationFieldLength.toNat
    return ⟨pid, payloadUnitStartIndicator,
      ⟨payloadData + adaptationFieldSkipSize, sizeSub payloadSize adaptationFieldSkipSize⟩⟩
  else
    return ⟨pid, payloadUnitStartIndicator, ⟨payloadData, payloadSize⟩⟩

/-! ## What the header of a block says -/

/-- The adaptation_field_control bits of a block. -/
def adaptationFieldControl (block : List UInt8) : UInt8 := (block.getD 3 0 &&& 0x30) >>> 4

/-- The bytes of a block its adaptation field takes, its length byte included. -/
def adaptationFieldSkipSize (block : List UInt8) : Nat :=
  if adaptationFieldControl block = 0x03 ∨ adaptationFieldControl block = 0x02 then
    1 + (block.getD 4 0).toNat
  else 0

/-- The PID of a block. -/
def blockPid (block : List UInt8) : UInt16 := twoBytes (block.getD 1 0) (block.getD 2 0) 0x1f

/-- The mask keeps 13 bits. -/
theorem maskedPid_lt (msb lsb : UInt8) : twoBytes msb lsb 0x1f < 0x2000 := by
  have heq := twoBytes_toNat (w := 5) (by decide) msb lsb
  have hmod : msb.toNat % 2 ^ 5 < 2 ^ 5 := Nat.mod_lt _ (by decide)
  have hlsb := lsb.toNat_lt
  rw [UInt16.lt_iff_toNat_lt]
  refine lt_of_eq_of_lt heq ?_
  change _ < 8192
  omega

/-- The payload_unit_start_indicator of a block. -/
def blockPusi (block : List UInt8) : Bool := block.getD 1 0 &&& 0x40 != 0

/-- The adaptation field ends inside the block. -/
def AdaptationFieldFits (block : List UInt8) : Prop :=
  adaptationFieldSkipSize block ≤ tsPacketSize - 4

instance (block : List UInt8) : Decidable (AdaptationFieldFits block) :=
  inferInstanceAs (Decidable (_ ≤ _))

/-- What the constructor computes from a block that stands at address `data`. -/
def packetAt (block : List UInt8) (data : Nat) : TsPacket where
  pid := blockPid block
  payloadUnitStartIndicator := blockPusi block
  payload := ⟨data + 4 + adaptationFieldSkipSize block,
    sizeSub (tsPacketSize - 4) (adaptationFieldSkipSize block)⟩

/-- Any block of 188 bytes that starts with the sync byte is accepted. -/
theorem TsPacket.ofBytes_eq {storage : List UInt8} {data : Nat}
    (hin : data + tsPacketSize ≤ storage.length) (hsync : storage[data]? = some tsSyncByte) :
    TsPacket.ofBytes storage data tsPacketSize =
      .ok (packetAt (window storage data tsPacketSize) data) := by
  set block := window storage data tsPacketSize with hblock
  simp only [tsPacketSize] at hin
  have hbyte : ∀ i, i < 188 → storage[data + i]? = some (block.getD i 0) := by
    intro i hi
    have hlt : data + i < storage.length := by omega
    rw [List.getD_eq_getElem?_getD, hblock, window_getElem?, if_pos (by exact hi),
      List.getElem?_eq_getElem hlt]
    rfl
  have hne : storage.isEmpty = false := by
    cases storage with
    | nil => simp at hin
    | cons => rfl
  have h0 : load storage data = .ok tsSyncByte := load_of_getElem? hsync
  have h1 : load storage (data + 1) = .ok (block.getD 1 0) := load_of_getElem? (hbyte 1 (by omega))
  have h3 : load storage (data + 3) = .ok (block.getD 3 0) := load_of_getElem? (hbyte 3 (by omega))
  have h4 : load storage (data + 4) = .ok (block.getD 4 0) := load_of_getElem? (hbyte 4 (by omega))
  have hpid : maskedTwoBytesValue (storage.drop (data + 1)) 0x1f = .ok (blockPid block) :=
    maskedTwoBytesValue_of_getElem? (hbyte 1 (by omega)) (hbyte 2 (by omega)) _
  have hafc : (block.getD 3 0 &&& 0x30) >>> 4 = adaptationFieldControl block := rfl
  simp only [TsPacket.ofBytes, h0, h1, h3, h4, hpid, hne, hafc, Bool.not_false, assert_true,
    beq_self_eq_true, ok_bind, packetAt, blockPusi, adaptationFieldSkipSize]
  split_ifs <;> rfl

/-! ## Packets and the bytes they point at -/

/-- A packet that is being handed on, and the contents of the storage its payload points into. -/
structure Arrival where
  storage : List UInt8
  packet : TsPacket
  deriving Repr, DecidableEq

/-- The payload bytes of the packet. -/
def Arrival.payload (a : Arrival) : List UInt8 := a.packet.payload.bytes a.storage

/-- The payload lies inside the storage and is not empty. -/
structure Arrival.Valid (a : Arrival) : Prop where
  inside : a.packet.payload.ValidIn a.storage
  nonempty : 0 < a.packet.payload.size

/-- What a section parser needs: the payload lies inside the storage, and there is a pointer_field
byte where the packet announces one. -/
structure Arrival.Readable (a : Arrival) : Prop where
  inside : a.packet.payload.ValidIn a.storage
  pointerField : a.packet.payloadUnitStartIndicator = true → 1 ≤ a.packet.payload.size

/-- The storage is one that an address can reach the end of. -/
def Arrival.Addressable (a : Arrival) : Prop := a.storage.length < 2 ^ 63

instance (a : Arrival) : Decidable a.Addressable := inferInstanceAs (Decidable (_ < _))

theorem Arrival.Valid.readable {a : Arrival} (h : a.Valid) : a.Readable :=
  ⟨h.inside, fun _ => h.nonempty⟩

theorem Arrival.Valid.payload_length {a : Arrival} (h : a.Valid) :
    a.payload.length = a.packet.payload.size :=
  ConstBuffer.bytes_length h.inside

/-- A transport packet whose adaptation field leaves at least one payload byte. -/
structure TsBlock where
  bytes : List UInt8
  length_eq : bytes.length = tsPacketSize
  sync : bytes[0]? = some tsSyncByte
  payload_pos : adaptationFieldSkipSize bytes < tsPacketSize - 4

/-- The packet as the demuxer gets it, from a storage that holds nothing else. -/
def TsBlock.arrival (b : TsBlock) : Arrival := ⟨b.bytes, packetAt b.bytes 0⟩

/-- The arrival of a block is what the parsing constructor makes of it. -/
theorem TsBlock.ofBytes_eq (b : TsBlock) :
    TsPacket.ofBytes b.bytes 0 tsPacketSize = .ok b.arrival.packet := by
  have hwindow : window b.bytes 0 tsPacketSize = b.bytes := by
    rw [← b.length_eq]
    exact window_full _
  rw [TsPacket.ofBytes_eq (by rw [b.length_eq, Nat.zero_add]) b.sync, hwindow]
  rfl

theorem TsBlock.valid (b : TsBlock) : b.arrival.Valid := by
  have hlen := b.length_eq
  have hpos := b.payload_pos
  have hsize : b.arrival.packet.payload.size =
      tsPacketSize - 4 - adaptationFieldSkipSize b.bytes := sizeSub_of_le hpos.le
  have hdata : b.arrival.packet.payload.data = 0 + 4 + adaptationFieldSkipSize b.bytes := rfl
  have hstorage : b.arrival.storage = b.bytes := rfl
  simp only [tsPacketSize] at hlen hpos hsize
  refine ⟨?_, by omega⟩
  rw [ConstBuffer.ValidIn, hstorage, hsize, hdata]
  omega

theorem TsBlock.addressable (b : TsBlock) : b.arrival.Addressable := by
  have hlen : b.arrival.storage.length = tsPacketSize := b.length_eq
  rw [Arrival.Addressable, hlen]
  decide

end Sandstream
