import Mathlib
import Sandstream.TsPacket

/-! # Sandstream.TsFrame -- the transport packets of ISO 13818-1

`TsFrame` is a transport packet as the standard describes it, by its fields, and `TsFrame.bytes` its 188
bytes. The adaptation field may be absent or have any body that fits; a packet may consist of its
adaptation field alone. `IsOf.payload_eq` and its companions say that the parsing constructor of
`ts_packet_t` gives back PID, payload unit start indicator and payload, wherever the bytes stand.

`ofBytes_contained_exact` puts this beside the other blocks: the view stays in its block exactly if the
adaptation field does, whose announced length the constructor subtracts without a check.
-/

namespace Sandstream

open Sandstream.Lib.Window

/-! ## Fields and bytes -/

/-- The adaptation field: its length byte and its body. -/
def adaptationBytes : Option (List UInt8) → List UInt8
  | none => []
  | some body => UInt8.ofNat body.length :: body

/-- A transport packet. -/
structure TsFrame where
  transportError : Bool
  payloadUnitStart : Bool
  transportPriority : Bool
  pid : UInt16
  scramblingControl : Fin 4
  continuityCounter : Fin 16
  /-- the body of the adaptation field, without its length byte -/
  adaptation : Option (List UInt8)
  payload : List UInt8
  pid_lt : pid < 0x2000
  length_eq : (adaptationBytes adaptation).length + payload.length = 184

namespace TsFrame

/-- adaptation_field_control: 1 for payload only, 2 for an adaptation field only, 3 for both. -/
def adaptationFieldControl (f : TsFrame) : Nat :=
  match f.adaptation with
  | none => 1
  | some _ => if f.payload.isEmpty then 2 else 3

/-- The three flags in front of the PID. -/
def flags (f : TsFrame) : Nat :=
  4 * f.transportError.toNat + 2 * f.payloadUnitStart.toNat + f.transportPriority.toNat

/-- The fourth byte of the header. -/
def controlByte (f : TsFrame) : Nat :=
  f.scramblingControl * 64 + f.adaptationFieldControl * 16 + f.continuityCounter

/-- The bytes of the packet. -/
def bytes (f : TsFrame) : List UInt8 :=
  tsSyncByte :: fieldMsb 5 f.flags f.pid.toNat :: fieldLsb f.pid.toNat ::
    UInt8.ofNat f.controlByte :: (adaptationBytes f.adaptation ++ f.payload)

theorem bytes_length (f : TsFrame) : f.bytes.length = tsPacketSize := by
  have hlen := f.length_eq
  unfold bytes tsPacketSize
  simp only [List.length_cons, List.length_append]
  omega

/-! ## Decoding -/

theorem pid_toNat_lt (f : TsFrame) : f.pid.toNat < 2 ^ 5 * 256 :=
  UInt16.lt_iff_toNat_lt.mp f.pid_lt

theorem blockPid_bytes (f : TsFrame) : blockPid f.bytes = f.pid := by
  apply UInt16.toNat_inj.mp
  exact twoBytes_field (w := 5) (by decide) f.flags f.pid_toNat_lt

theorem and_pusi_mask : ∀ n < 256, (UInt8.ofNat n &&& 0x40 != 0) = decide (n / 64 % 2 = 1) := by
  decide +kernel

theorem blockPusi_bytes (f : TsFrame) : blockPusi f.bytes = f.payloadUnitStart := by
  have hpid := f.pid_toNat_lt
  have he := f.transportError.toNat_le
  have hs := f.payloadUnitStart.toNat_le
  have hp := f.transportPriority.toNat_le
  show (UInt8.ofNat (f.flags * 2 ^ 5 + f.pid.toNat / 256) &&& 0x40 != 0) = f.payloadUnitStart
  unfold flags
  rw [and_pusi_mask _ (by omega)]
  -- bit 6 is the indicator: the priority bit and the high PID bits are below, the error bit above
  cases hstart : f.payloadUnitStart with
  | false =>
    simp only [Bool.toNat_false, decide_eq_false_iff_not]
    omega
  | true =>
    simp only [Bool.toNat_true, decide_eq_true_eq]
    omega

theorem adaptationFieldControl_le (f : TsFrame) : f.adaptationFieldControl ≤ 3 := by
  unfold adaptationFieldControl
  split
  · decide
  · split_ifs <;> decide

theorem and_control_mask : ∀ n < 256,
    ((UInt8.ofNat n &&& 0x30) >>> 4) = UInt8.ofNat (n / 16 % 4) := by
  decide +kernel

theorem adaptationFieldControl_bytes (f : TsFrame) :
    Sandstream.adaptationFieldControl f.bytes = UInt8.ofNat f.adaptationFieldControl := by
  have hs := f.scramblingControl.isLt
  have hc := f.continuityCounter.isLt
  have ha := f.adaptationFieldControl_le
  show ((UInt8.ofNat f.controlByte &&& 0x30) >>> 4) = UInt8.ofNat f.adaptationFieldControl
  unfold controlByte
  rw [and_control_mask _ (by omega)]
  congr 1
  omega

/-- The constructor skips the adaptation field, and nothing else. -/
theorem adaptationFieldSkipSize_bytes (f : TsFrame) :
    adaptationFieldSkipSize f.bytes = (adaptationBytes f.adaptation).length := by
  have hlen := f.length_eq
  have hcontrol := f.adaptationFieldControl_bytes
  unfold adaptationFieldSkipSize
  unfold TsFrame.adaptationFieldControl at hcontrol
  rw [hcontrol]
  -- without an adaptation field the control bits are 1, which skips nothing
  cases hbody : f.adaptation with
  | none =>
    simp only
    rw [if_neg (by decide)]
    rfl
  | some body =>
    rw [hbody] at hlen
    simp only [adaptationBytes, List.length_cons] at hlen
    have hbyte : f.bytes.getD 4 0 = UInt8.ofNat body.length := by
      unfold bytes
      rw [hbody]
      rfl
    have hvalue : (UInt8.ofNat body.length).toNat = body.length := by
      rw [UInt8.toNat_ofNat']
      omega
    have htaken : UInt8.ofNat (if f.payload.isEmpty then 2 else 3) = 0x03 ∨
        UInt8.ofNat (if f.payload.isEmpty then 2 else 3) = 0x02 := by
      split_ifs
      · exact Or.inr rfl
      · exact Or.inl rfl
    simp only
    rw [if_pos htaken, hbyte, hvalue]
    simp only [adaptationBytes, List.length_cons]
    omega

theorem drop_bytes (f : TsFrame) :
    f.bytes.drop (4 + (adaptationBytes f.adaptation).length) = f.payload := by
  rw [← List.drop_drop]
  show (adaptationBytes f.adaptation ++ f.payload).drop (adaptationBytes f.adaptation).length = _
  exact List.drop_left

end TsFrame

/-! ## Arrivals -/

/-- The arrival is what the parsing constructor makes of the block, somewhere in a storage. -/
def Arrival.IsOfBlock (a : Arrival) (block : List UInt8) : Prop :=
  ∃ data, window a.storage data tsPacketSize = block ∧
    TsPacket.ofBytes a.storage data tsPacketSize = .ok a.packet

theorem Arrival.IsOfBlock.packet_eq {a : Arrival} {block : List UInt8} (h : a.IsOfBlock block)
    (hlength : block.length = tsPacketSize) (hsync : block[0]? = some tsSyncByte) :
    ∃ data, data + tsPacketSize ≤ a.storage.length ∧
      window a.storage data tsPacketSize = block ∧ a.packet = packetAt block data := by
  rcases h with ⟨data, hwindow, hparse⟩
  have hin : data + tsPacketSize ≤ a.storage.length := by
    have hlen := congrArg List.length hwindow
    rw [hlength] at hlen
    unfold window at hlen
    rw [List.length_take, List.length_drop] at hlen
    have : 0 < tsPacketSize := by decide
    omega
  have hfirst : a.storage[data]? = some tsSyncByte := by
    have hhead : (window a.storage data tsPacketSize).head? = a.storage[data]? :=
      window_head? (by decide)
    rw [← hhead, hwindow, List.head?_eq_getElem?, hsync]
  rw [TsPacket.ofBytes_eq hin hfirst, hwindow, Except.ok.injEq] at hparse
  exact ⟨data, hin, hwindow, hparse.symm⟩

/-- The arrival is the packet `f`. -/
def Arrival.IsOf (a : Arrival) (f : TsFrame) : Prop := a.IsOfBlock f.bytes

namespace Arrival.IsOf

variable {a : Arrival} {f : TsFrame}

theorem packet_eq (h : a.IsOf f) : ∃ data, data + tsPacketSize ≤ a.storage.length ∧
    window a.storage data tsPacketSize = f.bytes ∧ a.packet = packetAt f.bytes data :=
  Arrival.IsOfBlock.packet_eq h f.bytes_length rfl

theorem pid_eq (h : a.IsOf f) : a.packet.pid = f.pid := by
  rcases h.packet_eq with ⟨data, -, -, hpacket⟩
  rw [hpacket]
  exact f.blockPid_bytes

theorem payloadUnitStart_eq (h : a.IsOf f) :
    a.packet.payloadUnitStartIndicator = f.payloadUnitStart := by
  rcases h.packet_eq with ⟨data, -, -, hpacket⟩
  rw [hpacket]
  exact f.blockPusi_bytes

theorem view_eq (h : a.IsOf f) : ∃ data, data + tsPacketSize ≤ a.storage.length ∧
    window a.storage data tsPacketSize = f.bytes ∧
    a.packet.payload = ⟨data + (4 + (adaptationBytes f.adaptation).length), f.payload.length⟩ := by
  rcases h.packet_eq with ⟨data, hin, hwindow, hpacket⟩
  have hlen := f.length_eq
  have hsize : sizeSub (tsPacketSize - 4) (adaptationBytes f.adaptation).length =
      f.payload.length := by
    unfold tsPacketSize
    rw [sizeSub_of_le (by omega)]
    omega
  refine ⟨data, hin, hwindow, ?_⟩
  rw [hpacket]
  show ConstBuffer.mk (data + 4 + adaptationFieldSkipSize f.bytes)
    (sizeSub (tsPacketSize - 4) (adaptationFieldSkipSize f.bytes)) = _
  rw [f.adaptationFieldSkipSize_bytes, hsize, Nat.add_assoc]

theorem size_eq (h : a.IsOf f) : a.packet.payload.size = f.payload.length := by
  rcases h.view_eq with ⟨data, -, -, hview⟩
  rw [hview]

theorem inside (h : a.IsOf f) : a.packet.payload.ValidIn a.storage := by
  rcases h.view_eq with ⟨data, hin, -, hview⟩
  have hlen := f.length_eq
  have hsize : tsPacketSize = 188 := rfl
  rw [hview]
  unfold ConstBuffer.ValidIn
  show data + (4 + (adaptationBytes f.adaptation).length) + f.payload.length ≤ _
  omega

/-- **Decoding undoes encoding**, for the payload: the view is a view of the payload of the packet. -/
theorem payload_eq (h : a.IsOf f) : a.payload = f.payload := by
  rcases h.view_eq with ⟨data, -, hwindow, hview⟩
  have hlen := f.length_eq
  have hsize : f.payload.length =
      tsPacketSize - (4 + (adaptationBytes f.adaptation).length) := by
    unfold tsPacketSize
    omega
  unfold Arrival.payload ConstBuffer.bytes
  rw [hview]
  show window a.storage (data + (4 + (adaptationBytes f.adaptation).length)) f.payload.length = _
  rw [hsize, ← window_drop, hwindow, f.drop_bytes]

end Arrival.IsOf

/-- The arrival of a block from a storage that holds nothing else. -/
def blockArrival (block : List UInt8) : Arrival := ⟨block, packetAt block 0⟩

theorem isOfBlock_blockArrival {block : List UInt8} (hlength : block.length = tsPacketSize)
    (hsync : block[0]? = some tsSyncByte) : (blockArrival block).IsOfBlock block := by
  have hwindow : window block 0 tsPacketSize = block := by
    rw [← hlength]
    exact window_full _
  refine ⟨0, hwindow, ?_⟩
  show TsPacket.ofBytes block 0 tsPacketSize = .ok (packetAt block 0)
  rw [TsPacket.ofBytes_eq (by rw [hlength, Nat.zero_add]) hsync, hwindow]

/-! ## Blocks of any content -/

/-- A view of the end of the block that stands at `data`: all of it but the header, at most. -/
structure InBlock (data : Nat) (payload : ConstBuffer) : Prop where
  starts : payload.data ≤ data + tsPacketSize
  ends : payload.data + payload.size = data + tsPacketSize
  size_le : payload.size ≤ tsPacketSize - 4

theorem inBlock_packetAt_iff (block : List UInt8) (data : Nat) :
    InBlock data (packetAt block data).payload ↔ AdaptationFieldFits block := by
  have hdata : (packetAt block data).payload.data = data + 4 + adaptationFieldSkipSize block := rfl
  have hsize : (packetAt block data).payload.size =
      sizeSub (tsPacketSize - 4) (adaptationFieldSkipSize block) := rfl
  unfold AdaptationFieldFits
  constructor
  · intro h
    have hstarts := h.starts
    simp only [tsPacketSize] at hstarts ⊢
    omega
  · intro hfits
    rw [sizeSub_of_le hfits] at hsize
    simp only [tsPacketSize] at hfits hsize
    constructor <;> simp only [tsPacketSize] <;> omega

/-- The payload of a block whose adaptation field ends inside it lies inside the storage. -/
theorem Arrival.IsOfBlock.inside {a : Arrival} {block : List UInt8} (h : a.IsOfBlock block)
    (hlength : block.length = tsPacketSize) (hsync : block[0]? = some tsSyncByte)
    (hfits : AdaptationFieldFits block) : a.packet.payload.ValidIn a.storage := by
  rcases h.packet_eq hlength hsync with ⟨data, hin, -, hpacket⟩
  have hinBlock := (inBlock_packetAt_iff block data).mpr hfits
  rw [hpacket, ConstBuffer.ValidIn, hinBlock.ends]
  exact hin

/-- A packet with a payload, as the demuxer gets it: the block may stand anywhere in any storage. -/
structure Arrival.IsOfTsBlock (a : Arrival) : Prop where
  ofBlock : ∃ b : TsBlock, a.IsOfBlock b.bytes
  addressable : a.Addressable

theorem Arrival.IsOfTsBlock.readable {a : Arrival} (h : a.IsOfTsBlock) : a.Readable := by
  rcases h.ofBlock with ⟨b, hblock⟩
  refine ⟨hblock.inside b.length_eq b.sync b.payload_pos.le, fun _ => ?_⟩
  rcases hblock.packet_eq b.length_eq b.sync with ⟨data, -, -, hpacket⟩
  have hsize : a.packet.payload.size = tsPacketSize - 4 - adaptationFieldSkipSize b.bytes := by
    rw [hpacket]
    exact sizeSub_of_le b.payload_pos.le
  have hpos := b.payload_pos
  omega

theorem TsBlock.isOfTsBlock (b : TsBlock) : b.arrival.IsOfTsBlock :=
  ⟨⟨b, isOfBlock_blockArrival b.length_eq b.sync⟩, b.addressable⟩

/-- **Decoding is contained and exact.** From a block of 188 bytes with the sync byte, whatever its
other bytes, the constructor gives a PID of 13 bits, and a view that ends with the block exactly if the
adaptation field does not reach beyond it; and from the bytes of a transport packet it gives back its
fields. -/
theorem ofBytes_contained_exact {storage : List UInt8} {data : Nat}
    (hin : data + tsPacketSize ≤ storage.length) (hsync : storage[data]? = some tsSyncByte) :
    Returns (TsPacket.ofBytes storage data tsPacketSize) fun p =>
      p.pid < 0x2000 ∧
        (InBlock data p.payload ↔ AdaptationFieldFits (window storage data tsPacketSize)) ∧
        ∀ f : TsFrame, window storage data tsPacketSize = f.bytes →
          p.pid = f.pid ∧ p.payloadUnitStartIndicator = f.payloadUnitStart ∧
            InBlock data p.payload ∧ p.payload.bytes storage = f.payload := by
  have hparse := TsPacket.ofBytes_eq hin hsync
  rw [hparse, returns_ok]
  refine ⟨maskedPid_lt _ _, inBlock_packetAt_iff _ _, ?_⟩
  intro f hf
  have hof : Arrival.IsOf ⟨storage, packetAt (window storage data tsPacketSize) data⟩ f :=
    ⟨data, hf, hparse⟩
  refine ⟨hof.pid_eq, hof.payloadUnitStart_eq, ?_, hof.payload_eq⟩
  rw [inBlock_packetAt_iff, hf, AdaptationFieldFits, f.adaptationFieldSkipSize_bytes]
  have hlen := f.length_eq
  simp only [tsPacketSize]
  omega

/-- The block of the unit tests: an adaptation field of seven bytes, the start indicator set. -/
def testBlock : List UInt8 :=
  [0x47, 0x40, 0x21, 0x30, 0x07, 0x50, 0x00, 0x06, 0xc7, 0xd7, 0x7e, 0x00, 0xe0] ++
    List.replicate 175 0x00

theorem ofBytes_contained_exact_testBlock :
    Returns (TsPacket.ofBytes testBlock 0 tsPacketSize) fun p =>
      p.pid < 0x2000 ∧ InBlock 0 p.payload := by
  have hin : 0 + tsPacketSize ≤ testBlock.length := by decide +kernel
  have hfits : AdaptationFieldFits (window testBlock 0 tsPacketSize) := by decide +kernel
  apply (ofBytes_contained_exact hin rfl).mono
  intro p hp
  exact ⟨hp.1, hp.2.1.mpr hfits⟩

/-- A block whose adaptation field announces one byte more than there is. -/
def overlongBlock : List UInt8 := [0x47, 0x00, 0x21, 0x30, 0xb8] ++ List.replicate 183 0x00

/-- Its payload begins behind the block, and the size has wrapped. -/
theorem overlongBlock_not_contained :
    overlongBlock.length = tsPacketSize ∧ overlongBlock[0]? = some tsSyncByte ∧
      Returns (TsPacket.ofBytes overlongBlock 0 tsPacketSize) fun p =>
        ¬ InBlock 0 p.payload ∧ p.payload = ⟨189, 2 ^ 64 - 1⟩ := by
  have hlen : overlongBlock.length = tsPacketSize := by decide +kernel
  have hparse : Returns (TsPacket.ofBytes overlongBlock 0 tsPacketSize) fun p =>
      p.payload = ⟨189, 2 ^ 64 - 1⟩ := by decide +kernel
  refine ⟨hlen, rfl, hparse.mono fun p hp => ⟨fun hinside => ?_, hp⟩⟩
  have hstarts := hinside.starts
  rw [hp] at hstarts
  exact absurd hstarts (by decide)

end Sandstream
