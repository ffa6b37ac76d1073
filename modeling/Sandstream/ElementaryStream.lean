import Mathlib
import Sandstream.DemuxerStep
import Sandstream.TsFrame

/-! # Sandstream.ElementaryStream -- PES packets on a PID

`PesPacket` is a PES packet with an optional header, as ISO 13818-1 lays it out, and `PesCut` says how a
list of them is cut into transport payloads: the payload unit start indicator stands on the first
transport packet of each, and that one holds the whole PES header. `mapM_esCalls` says that
`parser_pes_t` then delivers the data of the PES packets, all of it and nothing else.
-/

namespace Sandstream

open Sandstream.Lib.Window
open ParserPes (HasOptionalHeader HeaderInside headerLength)

/-! ## One transport packet -/

/-- A call that hands on no buffer outside of its storage. -/
def Callback.IsInside : Callback → Prop
  | .onData buffer => buffer.IsInside
  | _ => True

/-- The buffers handed on so far lie inside their storage. -/
def Demuxer.HandsOnInside {κ φ : Type} (d : Demuxer κ φ) : Prop :=
  ∀ pid callback, .handler pid callback ∈ d.history → callback.IsInside

/-- The call of `on_data` for some bytes; there is none for no bytes. -/
def dataCalls (bytes : List UInt8) : List Callback :=
  if bytes.isEmpty then [] else [.onData (.inside bytes)]

/-- The bytes that are handed on in some calls. -/
def dataOf (calls : List Callback) : List UInt8 :=
  calls.flatMap fun
    | .onData buffer => buffer.bytes
    | _ => []

theorem inside_of_mem_dataCalls {bytes : List UInt8} {callback : Callback}
    (hmem : callback ∈ dataCalls bytes) : ∃ bytes, callback = .onData (.inside bytes) := by
  unfold dataCalls at hmem
  split_ifs at hmem
  · exact absurd hmem List.not_mem_nil
  · exact ⟨bytes, List.mem_singleton.mp hmem⟩

theorem dataOf_dataCalls (bytes : List UInt8) : dataOf (dataCalls bytes) = bytes := by
  unfold dataCalls
  cases bytes with
  | nil => rfl
  | cons b bytes => exact List.append_nil _

theorem dataOf_append (calls calls' : List Callback) :
    dataOf (calls ++ calls') = dataOf calls ++ dataOf calls' := by
  unfold dataOf
  rw [List.flatMap_append]

namespace ParserPes

variable {a : Arrival}

/-- The suffix of a payload that is handed on, if it is not empty. -/
def suffixFrom (payload : ConstBuffer) (n : Nat) : Option ConstBuffer :=
  if payload.size - n ≠ 0 then some ⟨payload.data + n, payload.size - n⟩ else none

theorem suffixFrom_eq_none_iff {b : ConstBuffer} {k : Nat} : suffixFrom b k = none ↔ b.size ≤ k := by
  unfold suffixFrom
  split_ifs with h
  · exact ⟨(nomatch ·), fun hle => absurd hle (by omega)⟩
  · exact ⟨fun _ => by omega, fun _ => rfl⟩

theorem put_of_not_start (hstart : a.packet.payloadUnitStartIndicator = false) :
    put a = .ok (suffixFrom a.packet.payload 0) := by
  unfold put suffixFrom
  simp only [hstart, Bool.false_eq_true, if_false, pure_bind, Nat.sub_zero, Nat.add_zero]
  split_ifs <;> rfl

theorem put_of_header (ha : a.Valid) (hstart : a.packet.payloadUnitStartIndicator = true)
    (h : HeaderInside a.payload) :
    put a = .ok (suffixFrom a.packet.payload (headerLength a.payload)) := by
  have hin := h.inside
  rw [ha.payload_length] at hin
  unfold put suffixFrom
  simp only [hstart, if_true, tryParseHeader_of_inside ha h, ok_bind, sizeSub_of_le hin,
    pure_bind]
  split_ifs <;> rfl

end ParserPes

namespace Handler

variable {a : Arrival}

/-- Handing on a suffix of the payload. -/
theorem esCalls_of_put {n : Nat} (hin : a.packet.payload.ValidIn a.storage)
    (hn : n ≤ a.packet.payload.size)
    (hput : ParserPes.put a = .ok (ParserPes.suffixFrom a.packet.payload n)) :
    esCalls a = .ok (dataCalls (a.payload.drop n)) := by
  have hlen : (a.payload.drop n).length = a.packet.payload.size - n := by
    rw [List.length_drop, Arrival.payload, ConstBuffer.bytes_length hin]
  have hbytes : a.payload.drop n =
      ConstBuffer.bytes ⟨a.packet.payload.data + n, a.packet.payload.size - n⟩ a.storage :=
    window_drop _ _ _ _
  unfold esCalls
  rw [hput, ok_bind]
  unfold ParserPes.suffixFrom dataCalls
  -- nothing is handed on when the header takes the whole payload
  by_cases hsize : a.packet.payload.size - n = 0
  · have hnil : a.payload.drop n = [] := List.eq_nil_of_length_eq_zero (hlen.trans hsize)
    rw [if_neg (not_not.mpr hsize), hnil]
    rfl
  · have hne : (a.payload.drop n).isEmpty = false := by
      rw [List.isEmpty_eq_false_iff]
      rintro heq
      rw [heq] at hlen
      exact hsize hlen.symm
    have hread : ConstBuffer.ValidIn
        ⟨a.packet.payload.data + n, a.packet.payload.size - n⟩ a.storage := by
      unfold ConstBuffer.ValidIn at hin ⊢
      show a.packet.payload.data + n + (a.packet.payload.size - n) ≤ a.storage.length
      omega
    rw [if_pos hsize, hne]
    dsimp only
    rw [ConstBuffer.handed_of_validIn hread, ← hbytes]
    rfl

end Handler

/-! ## PES packets -/

/-- A PES packet of a stream that has the optional header. -/
structure PesPacket where
  streamId : UInt8
  packetLength : UInt8 × UInt8
  /-- the two bytes of flags in front of PES_header_data_length -/
  flags : UInt8 × UInt8
  /-- optional fields and stuffing of the header -/
  headerData : List UInt8
  data : List UInt8
  hasOptionalHeader : HasOptionalHeader streamId
  headerData_le : headerData.length ≤ 255

namespace PesPacket

/-- The header, from the start code prefix to the last byte that PES_header_data_length counts. -/
def header (p : PesPacket) : List UInt8 :=
  0x00 :: 0x00 :: 0x01 :: p.streamId :: p.packetLength.1 :: p.packetLength.2 :: p.flags.1 ::
    p.flags.2 :: UInt8.ofNat p.headerData.length :: p.headerData

/-- The packet. -/
def bytes (p : PesPacket) : List UInt8 := p.header ++ p.data

theorem headerLength_append (p : PesPacket) (t : List UInt8) :
    headerLength (p.header ++ t) = p.header.length := by
  have hlen := p.headerData_le
  have hvalue : (UInt8.ofNat p.headerData.length).toNat = p.headerData.length := by
    rw [UInt8.toNat_ofNat']
    omega
  show 9 + (UInt8.ofNat p.headerData.length).toNat = p.headerData.length + 9
  rw [hvalue, Nat.add_comm]

theorem headerInside_append (p : PesPacket) (t : List UInt8) : HeaderInside (p.header ++ t) where
  hasOptionalHeader := p.hasOptionalHeader
  inside := by
    rw [p.headerLength_append, List.length_append]
    exact Nat.le_add_right _ _

end PesPacket

/-! ## PES packets cut into transport packets -/

/-- What a transport packet carries: the payload unit start indicator and the payload. -/
abbrev Cargo := Bool × List UInt8

/-- `PesCut packets cargo`: the transport packets `cargo` carry the PES packets `packets`, each with its
header inside its first transport packet. -/
inductive PesCut : List PesPacket → List Cargo → Prop where
  | nil : PesCut [] []
  | cons {p : PesPacket} {packets : List PesPacket} {first : List UInt8} {rest : List (List UInt8)}
      {cargo : List Cargo} :
      first ++ rest.flatten = p.bytes → p.header.length ≤ first.length → PesCut packets cargo →
      PesCut (p :: packets) ((true, first) :: (rest.map (Prod.mk false) ++ cargo))

/-- What is delivered of a transport packet. -/
def delivered (c : Cargo) : List UInt8 := if c.1 then c.2.drop (headerLength c.2) else c.2

/-- A PES header is expected only where one is. -/
def HeaderOk (c : Cargo) : Prop := c.1 = true → HeaderInside c.2

/-- The first transport packet of a PES packet holds the header and the first bytes of the data. -/
theorem PesPacket.first_eq {p : PesPacket} {first : List UInt8} {rest : List (List UInt8)}
    (hbytes : first ++ rest.flatten = p.bytes) (hheader : p.header.length ≤ first.length) :
    ∃ t, first = p.header ++ t ∧ t ++ rest.flatten = p.data := by
  have hheaderBytes : p.header <+: p.bytes := ⟨p.data, rfl⟩
  have hfront : p.header <+: first :=
    List.prefix_of_prefix_length_le hheaderBytes ⟨rest.flatten, hbytes⟩ hheader
  rcases hfront with ⟨t, rfl⟩
  refine ⟨t, rfl, ?_⟩
  unfold PesPacket.bytes at hbytes
  rw [List.append_assoc] at hbytes
  exact List.append_cancel_left hbytes

theorem flatMap_delivered_rest (rest : List (List UInt8)) :
    (rest.map (Prod.mk false)).flatMap delivered = rest.flatten := by
  induction rest with
  | nil => rfl
  | cons r rest ih =>
    rw [List.map_cons, List.flatMap_cons, ih]
    rfl

theorem PesCut.headerOk {packets : List PesPacket} {cargo : List Cargo} (h : PesCut packets cargo) :
    ∀ c ∈ cargo, HeaderOk c := by
  induction h with
  | nil => exact fun _ hc => absurd hc List.not_mem_nil
  | @cons p packets first rest cargo hbytes hheader _ ih =>
    intro c hc hstart
    rcases List.mem_cons.mp hc with rfl | hc
    · rcases PesPacket.first_eq hbytes hheader with ⟨t, rfl, -⟩
      exact p.headerInside_append t
    · rcases List.mem_append.mp hc with hrest | hc
      · rcases List.mem_map.mp hrest with ⟨r, -, rfl⟩
        exact absurd hstart Bool.false_ne_true
      · exact ih c hc hstart

/-- Stripping the headers leaves the data of the PES packets. -/
theorem PesCut.delivered_eq {packets : List PesPacket} {cargo : List Cargo}
    (h : PesCut packets cargo) : cargo.flatMap delivered = packets.flatMap PesPacket.data := by
  induction h with
  | nil => rfl
  | @cons p packets first rest cargo hbytes hheader _ ih =>
    rcases PesPacket.first_eq hbytes hheader with ⟨t, rfl, hdata⟩
    have hfirst : delivered (true, p.header ++ t) = t := by
      unfold delivered
      rw [if_pos rfl, p.headerLength_append, List.drop_left]
    rw [List.flatMap_cons, List.flatMap_append, flatMap_delivered_rest, ih, hfirst,
      List.flatMap_cons, ← hdata, List.append_assoc]

/-! ## What the parser delivers -/

/-- What a transport packet carries. -/
def TsFrame.cargo (f : TsFrame) : Cargo := (f.payloadUnitStart, f.payload)

theorem esCalls_eq {a : Arrival} {f : TsFrame} (ha : a.IsOf f) (hheader : HeaderOk f.cargo) :
    Handler.esCalls a = .ok (dataCalls (delivered f.cargo)) := by
  have hpayload := ha.payload_eq
  unfold delivered TsFrame.cargo
  cases hstart : f.payloadUnitStart with
  | false =>
    have hput := ParserPes.put_of_not_start (ha.payloadUnitStart_eq.trans hstart)
    rw [Handler.esCalls_of_put ha.inside (Nat.zero_le _) hput, hpayload]
    rfl
  | true =>
    have hinside : HeaderInside f.payload := hheader hstart
    rw [← hpayload] at hinside ⊢
    have hlen := hinside.inside
    have hvalid : a.Valid := ⟨ha.inside, by
      rw [ha.size_eq, ← hpayload]
      unfold headerLength at hlen
      omega⟩
    have hput := ParserPes.put_of_header hvalid (ha.payloadUnitStart_eq.trans hstart) hinside
    rw [hvalid.payload_length] at hlen
    rw [Handler.esCalls_of_put ha.inside hlen hput]
    rfl

/-- The calls of `on_data` for several transport packets. -/
theorem mapM_esCalls {arrivals : List Arrival} {frames : List TsFrame}
    (harrive : List.Forall₂ Arrival.IsOf arrivals frames)
    (hheader : ∀ f ∈ frames, HeaderOk f.cargo) :
    arrivals.mapM Handler.esCalls = .ok (frames.map fun f => dataCalls (delivered f.cargo)) := by
  induction harrive with
  | nil => rfl
  | cons ha _ ih =>
    rw [List.mapM_cons, esCalls_eq ha (hheader _ List.mem_cons_self), ok_bind,
      ih fun f hf => hheader f (List.mem_cons_of_mem _ hf)]
    rfl

theorem dataOf_flatten_dataCalls (frames : List TsFrame) :
    dataOf (frames.map fun f => dataCalls (delivered f.cargo)).flatten =
      frames.flatMap fun f => delivered f.cargo := by
  induction frames with
  | nil => rfl
  | cons f frames ih =>
    rw [List.map_cons, List.flatten_cons, dataOf_append, ih, dataOf_dataCalls]
    rfl

end Sandstream
