import Mathlib
import Sandstream.Lib.Runs
import Sandstream.Assertions
import Sandstream.ElementaryStream
import Sandstream.Registration
import Sandstream.TsFrame

/-! # Sandstream.Payloadless -- packets without payload

adaptation_field_control says whether a packet has a payload. The packet constructor looks only whether
there is an adaptation field, and takes what is left of the packet for its payload; so a packet without
payload may still give its handler bytes.

`payloadless_invisible` compares a run with the run on the packets that have a payload. They come to
the same if every packet that was left out is `Inert` where it stands: its handler finds nothing in it.
-/

namespace Sandstream

open Sandstream.Lib
open Sandstream.Lib.Frames
open ParserPsi (sectionFormat)
open ParserPes (HasOptionalHeader HeaderInside headerLength)

variable {κ φ : Type} {factory : EsFactory κ φ}

/-! ## Section parsers at rest -/

/-- A section parser holds no complete section. -/
def Handler.Settled : Handler κ → Prop
  | .parserPat sectionData | .parserPmt sectionData => sectionFormat.complete sectionData = none
  | .parserPes _ => True

theorem ParserPsi.put_settled {σ : Type} {onPayload : List UInt8 → Nat → σ → Exec σ}
    {sectionData sectionData' : List UInt8} {a : Arrival} {s s' : σ} (haddr : a.Addressable)
    (hbound : sectionData.length < 4098)
    (hput : put onPayload sectionData a s = .ok (sectionData', s')) :
    sectionFormat.complete sectionData' = none := by
  by_cases hread : a.Readable
  · rw [put_eq onPayload hread (buffer_lt hbound haddr)] at hput
    obtain ⟨s₁, -, hresult⟩ := bind_eq_ok_iff.mp hput
    obtain ⟨rfl, -⟩ := Prod.mk.inj (Except.ok.inj hresult)
    exact sectionFormat.complete_rest _
  · rw [put_of_not_readable onPayload hread haddr] at hput
    exact nomatch hput

namespace Handler

theorem feed_settled {h h' : Handler κ} {a : Arrival} {calls : List Callback}
    (haddr : a.Addressable) (hs : h.Settled) (hfeed : h.feed a = .ok (h', calls)) : h'.Settled := by
  cases h with
  | parserPat sectionData =>
    obtain ⟨⟨sectionData', calls'⟩, hput, hresult⟩ := bind_eq_ok_iff.mp hfeed
    obtain ⟨rfl, -⟩ := Prod.mk.inj (Except.ok.inj hresult)
    exact ParserPsi.put_settled haddr (ParserPsi.length_lt_of_incomplete hs) hput
  | parserPmt sectionData =>
    obtain ⟨⟨sectionData', calls'⟩, hput, hresult⟩ := bind_eq_ok_iff.mp hfeed
    obtain ⟨rfl, -⟩ := Prod.mk.inj (Except.ok.inj hresult)
    exact ParserPsi.put_settled haddr (ParserPsi.length_lt_of_incomplete hs) hput
  | parserPes consumer =>
    rw [feed_parserPes] at hfeed
    obtain ⟨calls', -, hresult⟩ := bind_eq_ok_iff.mp hfeed
    obtain ⟨rfl, -⟩ := Prod.mk.inj (Except.ok.inj hresult)
    trivial

theorem feedAll_settled {h h' : Handler κ} {arrivals : List Arrival} {calls : List Callback}
    (haddr : ∀ a ∈ arrivals, a.Addressable) (hs : h.Settled)
    (hfeed : h.feedAll arrivals = .ok (h', calls)) : h'.Settled := by
  induction arrivals generalizing h calls with
  | nil =>
    obtain ⟨rfl, -⟩ := Prod.mk.inj (Except.ok.inj hfeed)
    exact hs
  | cons a arrivals ih =>
    obtain ⟨⟨h₁, calls₁⟩, hfirst, hrest⟩ := bind_eq_ok_iff.mp hfeed
    obtain ⟨⟨h₂, calls₂⟩, hlater, hresult⟩ := bind_eq_ok_iff.mp hrest
    obtain ⟨rfl, -⟩ := Prod.mk.inj (Except.ok.inj hresult)
    exact ih (fun b hb => haddr b (List.mem_cons_of_mem _ hb))
      (feed_settled (haddr a List.mem_cons_self) hs hfirst) hlater

end Handler

namespace Demuxer

/-- The run lemma: between two packets no parser holds a complete section. -/
theorem settled_of_run {state : φ} {arrivals : List Arrival} {d : Demuxer κ φ}
    (haddr : ∀ a ∈ arrivals, a.Addressable) (hrun : consume factory (new state) arrivals = .ok d)
    {pid : UInt16} {h : Handler κ} (hk : d.packetStreams[pid]? = some h) : h.Settled := by
  -- the handler is what its packets make of a fresh one
  obtain ⟨h₀, after, hreg⟩ := exists_registration hrun hk
  obtain ⟨h', hk', hall⟩ := hreg.factor hrun
  obtain rfl : h = h' := Option.some.inj (hk.symm.trans hk')
  have hpackets : ∀ b ∈ packetsOf pid after, b.Addressable := by
    intro b hb
    have hafter := (List.mem_filter.mp hb).1
    cases hreg with
    | pat => exact haddr b hafter
    | table hsplit => exact haddr b (hsplit ▸ List.mem_append_right _ (List.mem_cons_of_mem _ hafter))
  refine Handler.feedAll_settled hpackets ?_ hall
  cases hreg with
  | pat => exact sectionFormat.complete_nil
  | table _ _ _ _ _ hfresh =>
    rcases hfresh with rfl | ⟨streamType, st, rfl⟩
    · exact sectionFormat.complete_nil
    · trivial

end Demuxer

/-! ## Packets that give their handler nothing -/

section Feed

variable {a : Arrival}

/-- Collecting calls makes one for each section. -/
theorem ParserPsi.foldlM_collect_length {τ ω : Type} {parse : List UInt8 → Nat → Exec τ}
    {call : τ → ω} {heads : List (List UInt8)} {calls calls' : List ω}
    (h : heads.foldlM
      (visit fun data available calls => do return calls ++ [call (← parse data available)]) calls =
        .ok calls') : calls'.length = calls.length + heads.length := by
  induction heads generalizing calls with
  | nil =>
    obtain rfl := Except.ok.inj h
    rfl
  | cons t heads ih =>
    rw [List.foldlM_cons] at h
    obtain ⟨calls₁, hvisit, hrest⟩ := bind_eq_ok_iff.mp h
    obtain ⟨table, -, hcalls⟩ := bind_eq_ok_iff.mp hvisit
    obtain rfl := Except.ok.inj hcalls
    rw [ih hrest, List.length_append, List.length_cons, List.length_cons, List.length_nil]
    omega

theorem ParserPsi.appended_eq_nil_iff (hread : a.Readable) :
    appended a = [] ↔ a.packet.payload.size = a.packet.payloadUnitStartIndicator.toNat := by
  have hlen : a.payload.length = a.packet.payload.size := ConstBuffer.bytes_length hread.inside
  have hpointer := hread.pointerField
  unfold appended
  rw [← List.length_eq_zero_iff]
  cases hstart : a.packet.payloadUnitStartIndicator with
  | false =>
    rw [if_neg Bool.false_ne_true, hlen]
    rfl
  | true =>
    have := hpointer hstart
    rw [if_pos rfl, List.length_drop, hlen, Bool.toNat_true]
    omega

/-- A section parser at rest that makes no call and keeps what it held has got no byte. -/
theorem ParserPsi.put_eq_self_iff {τ ω : Type} (parse : List UInt8 → Nat → Exec τ) (call : τ → ω)
    {sectionData : List UInt8} (hin : a.packet.payload.ValidIn a.storage) (haddr : a.Addressable)
    (hs : sectionFormat.complete sectionData = none) :
    put (fun data available calls => do return calls ++ [call (← parse data available)])
        sectionData a [] = .ok (sectionData, []) ↔
      a.packet.payload.size = a.packet.payloadUnitStartIndicator.toNat := by
  by_cases hread : a.Readable
  · rw [put_eq _ hread (buffer_lt (length_lt_of_incomplete hs) haddr), ← appended_eq_nil_iff hread]
    constructor
    · intro h
      obtain ⟨calls, hfold, hresult⟩ := bind_eq_ok_iff.mp h
      obtain ⟨hrest, rfl⟩ := Prod.mk.inj (Except.ok.inj hresult)
      have hcount := foldlM_collect_length hfold
      -- without a call there was no complete section, and all bytes are kept
      cases hnext : sectionFormat.complete (sectionData ++ appended a) with
      | none =>
        rw [Format.rest_of_incomplete _ hnext] at hrest
        exact List.append_cancel_left (hrest.trans (List.append_nil _).symm)
      | some n =>
        rw [Format.heads_of_complete _ hnext] at hcount
        simp only [List.length_nil, List.length_cons] at hcount
        omega
    · intro h
      rw [h, List.append_nil, Format.heads_of_incomplete _ hs, Format.rest_of_incomplete _ hs]
      rfl
  · rw [put_of_not_readable _ hread haddr]
    constructor
    · exact fun h => nomatch h
    · intro hsize
      refine absurd ⟨hin, fun hstart => ?_⟩ hread
      rw [hsize, hstart]
      exact le_rfl

namespace ParserPes

/-- What `tryParseHeader` can return: it waits for more, or it has read the header's length. -/
theorem tryParseHeader_cases (hin : a.packet.payload.ValidIn a.storage) {r : ParseResult}
    (hr : tryParseHeader (a.storage.drop a.packet.payload.data) a.packet.payload.size = .ok r) :
    r = {} ∨ 8 ≤ a.packet.payload.size ∧ HasOptionalHeader (a.payload.getD 3 0) ∧
      ∃ length, load (a.storage.drop a.packet.payload.data) 8 = .ok length ∧
        r = ⟨true, 9 + length.toNat⟩ := by
  have hid : 6 ≤ a.packet.payload.size → load (a.storage.drop a.packet.payload.data) 3 =
      .ok (a.payload.getD 3 0) ∧ HasOptionalHeader (a.payload.getD 3 0) := by
    intro h6
    have hload := load_payload hin (i := 3) (by omega)
    refine ⟨hload, ?_⟩
    by_contra hnot
    -- otherwise the assertion fails
    have hfails := (tryParseHeader_assertion_iff (a.storage.drop a.packet.payload.data)
      a.packet.payload.size).mpr ⟨h6, a.payload.getD 3 0, ?_, hnot⟩
    · rw [hfails] at hr
      exact nomatch hr
    · unfold load at hload
      split at hload
      · rename_i b hb
        rw [hb, Except.ok.inj hload]
      · exact nomatch hload
  rcases Nat.lt_or_ge a.packet.payload.size 8 with hshort | hlong
  · rw [tryParseHeader_of_short hshort hid] at hr
    exact Or.inl (Except.ok.inj hr).symm
  · obtain ⟨hload, hopt⟩ := hid (by omega)
    rw [tryParseHeader_of_long hlong hload hopt] at hr
    obtain ⟨length, hlength, hresult⟩ := bind_eq_ok_iff.mp hr
    exact Or.inr ⟨hlong, hopt, length, hlength, (Except.ok.inj hresult).symm⟩

/-- Of a packet that starts a PES packet nothing is handed on when there is no payload, or nothing behind
the header. -/
theorem put_start_eq_none_iff (hin : a.packet.payload.ValidIn a.storage)
    (hstart : a.packet.payloadUnitStartIndicator = true) :
    put a = .ok none ↔ a.packet.payload.size = 0 ∨
      HeaderInside a.payload ∧ headerLength a.payload = a.packet.payload.size := by
  have hnone : ∀ payload : ConstBuffer,
      (if payload.size ≠ 0 then (pure (some payload) : Exec (Option ConstBuffer)) else pure none) =
        .ok none ↔ payload.size = 0 := by
    intro payload
    by_cases hsize : payload.size = 0
    · rw [if_neg (not_not.mpr hsize)]
      exact ⟨fun _ => hsize, fun _ => rfl⟩
    · rw [if_pos hsize]
      exact ⟨fun h => absurd (Except.ok.inj h) (by simp), fun h => absurd h hsize⟩
  have hlen : a.payload.length = a.packet.payload.size := ConstBuffer.bytes_length hin
  constructor
  · intro h
    unfold put at h
    simp only [hstart, if_true] at h
    obtain ⟨r, hr, hrest⟩ := bind_eq_ok_iff.mp h
    rcases tryParseHeader_cases hin hr with rfl | ⟨hlong, hopt, length, hlength, rfl⟩
    · exact Or.inl ((hnone _).mp hrest)
    · have hzero := (hnone ⟨_, sizeSub a.packet.payload.size (9 + length.toNat)⟩).mp hrest
      have hbyte := length.toNat_lt
      -- a header that reaches beyond the payload makes the size wrap, which does not give 0
      have hall : 9 + length.toNat = a.packet.payload.size := by
        dsimp only [sizeSub] at hzero
        split_ifs at hzero <;> omega
      rw [load_payload hin (by omega)] at hlength
      have hheader : headerLength a.payload = a.packet.payload.size := by
        rw [headerLength, Except.ok.inj hlength, hall]
      exact Or.inr ⟨⟨hopt, by omega⟩, hheader⟩
  · rintro (hzero | ⟨hinside, hall⟩)
    · unfold put
      rw [if_pos hstart, hzero,
        @tryParseHeader_of_short _ 0 0 (by decide) fun h => absurd h (by decide)]
      exact (hnone a.packet.payload).mpr hzero
    · have hpos : 0 < a.packet.payload.size := by
        rw [← hall, headerLength]
        omega
      rw [put_of_header ⟨hin, hpos⟩ hstart hinside, suffixFrom, hall, Nat.sub_self]
      rfl

theorem put_eq_none_iff (hin : a.packet.payload.ValidIn a.storage) :
    put a = .ok none ↔ a.packet.payload.size = 0 ∨
      a.packet.payloadUnitStartIndicator = true ∧ HeaderInside a.payload ∧
        headerLength a.payload = a.packet.payload.size := by
  by_cases hstart : a.packet.payloadUnitStartIndicator = true
  · rw [put_start_eq_none_iff hin hstart, and_iff_right hstart]
  · rw [put_of_not_start (Bool.eq_false_iff.mpr hstart), Except.ok.injEq, suffixFrom_eq_none_iff,
      Nat.le_zero, iff_self_or]
    exact fun h => absurd h.1 hstart

end ParserPes

namespace Handler

/-- The handler finds nothing in the packet: no byte behind the pointer_field, or behind the PES
header. -/
def Ignores (a : Arrival) : Handler κ → Prop
  | .parserPat _ | .parserPmt _ =>
    a.packet.payload.size = a.packet.payloadUnitStartIndicator.toNat
  | .parserPes _ =>
    a.packet.payload.size = 0 ∨
      a.packet.payloadUnitStartIndicator = true ∧ HeaderInside a.payload ∧
        headerLength a.payload = a.packet.payload.size

theorem esCalls_eq_nil_iff : esCalls a = .ok [] ↔ ParserPes.put a = .ok none := by
  unfold esCalls
  constructor
  · intro h
    obtain ⟨buffer, hput, hrest⟩ := bind_eq_ok_iff.mp h
    cases buffer with
    | none => exact hput
    | some buffer =>
      exact absurd (Except.ok.inj hrest) (List.cons_ne_nil _ _)
  · intro h
    rw [h]
    rfl

/-- The section parsers: `call` is what they report of a table, `wrap` the parser as a handler. -/
theorem psi_feed_eq_self_iff {τ : Type} (parse : List UInt8 → Nat → Exec τ) (call : τ → Callback)
    (wrap : List UInt8 → Handler κ) (hwrap : ∀ s s', wrap s = wrap s' → s = s')
    {sectionData : List UInt8} (hin : a.packet.payload.ValidIn a.storage) (haddr : a.Addressable)
    (hs : sectionFormat.complete sectionData = none) :
    (do
      let (sectionData, calls) ← ParserPsi.put
        (fun data available calls => do return calls ++ [call (← parse data available)])
        sectionData a []
      return (wrap sectionData, calls)) = .ok (wrap sectionData, []) ↔
      a.packet.payload.size = a.packet.payloadUnitStartIndicator.toNat := by
  rw [← ParserPsi.put_eq_self_iff parse call hin haddr hs]
  cases ParserPsi.put (fun data available calls => do return calls ++ [call (← parse data available)])
    sectionData a [] with
  | error e => exact ⟨fun h => absurd h (by simp), fun h => absurd h (by simp)⟩
  | ok r =>
    obtain ⟨s, calls⟩ := r
    constructor
    · intro h
      obtain ⟨hsame, rfl⟩ := Prod.mk.inj (Except.ok.inj h)
      rw [hwrap _ _ hsame]
    · intro h
      obtain ⟨rfl, rfl⟩ := Prod.mk.inj (Except.ok.inj h)
      rfl

/-- A handler at rest stays as it is and makes no call exactly for the packets it finds nothing in. -/
theorem feed_eq_self_iff {h : Handler κ} (hin : a.packet.payload.ValidIn a.storage)
    (haddr : a.Addressable) (hs : h.Settled) : h.feed a = .ok (h, []) ↔ h.Ignores a := by
  cases h with
  | parserPat sectionData =>
    exact psi_feed_eq_self_iff ParserPat.parsePatPayload .onPat .parserPat
      (fun _ _ => parserPat.inj) hin haddr hs
  | parserPmt sectionData =>
    exact psi_feed_eq_self_iff ParserPmt.parsePmtPayload .onPmt .parserPmt
      (fun _ _ => parserPmt.inj) hin haddr hs
  | parserPes consumer =>
    rw [feed_parserPes]
    refine Iff.trans ?_ (esCalls_eq_nil_iff.trans (ParserPes.put_eq_none_iff hin))
    cases esCalls a with
    | error e => exact ⟨fun h => absurd h (by simp), fun h => absurd h (by simp)⟩
    | ok calls =>
      constructor
      · exact fun h => congrArg _ (Prod.mk.inj (Except.ok.inj h)).2
      · exact fun h => congrArg (fun calls => Except.ok (parserPes consumer, calls)) (Except.ok.inj h)

end Handler

end Feed

/-! ## One packet -/

namespace Demuxer

/-- The handler of the packet, if it has one, finds nothing in it. -/
def Inert (d : Demuxer κ φ) (a : Arrival) : Prop :=
  ∀ h ∈ d.packetStreams[a.packet.pid]?, h.Ignores a

/-- **The step lemma.** Where its section parsers are at rest, the demuxer stays exactly as it is, the
record of its calls included, for the packets that are inert. -/
theorem consumePacket_eq_self_iff {d : Demuxer κ φ} {a : Arrival}
    (hin : a.packet.payload.ValidIn a.storage) (haddr : a.Addressable)
    (hs : ∀ h, d.packetStreams[a.packet.pid]? = some h → h.Settled) :
    consumePacket factory d a = .ok d ↔ Inert d a := by
  constructor
  · intro hstep h hk
    rw [consumePacket_eq_step] at hstep
    obtain ⟨h', calls, hfeed, hlook, hout⟩ := Dispatch.Dispatcher.step_own hk hstep
    obtain rfl : h = h' := Option.some.inj (hk.symm.trans hlook)
    have hnil : calls = [] := List.append_cancel_left (hout.symm.trans (List.append_nil _).symm)
    rw [hnil] at hfeed
    exact (Handler.feed_eq_self_iff hin haddr (hs h hk)).mp hfeed
  · intro hinert
    unfold consumePacket
    cases hk : d.packetStreams[a.packet.pid]? with
    | none => rfl
    | some h =>
      have hfeed := (Handler.feed_eq_self_iff hin haddr (hs h hk)).mpr (hinert h hk)
      have hself : d.settle a.packet.pid h = d := settle_self hk
      dsimp only
      rw [Handler.put_eq_feed, hfeed]
      exact congrArg Except.ok hself

end Demuxer

/-! ## Runs with and without -/

/-- A transport packet whose adaptation field ends inside it, as the demuxer gets it: it stands anywhere in
any storage. -/
structure FittingPacket where
  arrival : Arrival
  block : List UInt8
  ofBlock : arrival.IsOfBlock block
  length_eq : block.length = tsPacketSize
  sync : block[0]? = some tsSyncByte
  fits : AdaptationFieldFits block
  addressable : arrival.Addressable

namespace FittingPacket

/-- The packet in a storage that holds nothing else. -/
def ofBytes (block : List UInt8) (length_eq : block.length = tsPacketSize)
    (sync : block[0]? = some tsSyncByte) (fits : AdaptationFieldFits block) : FittingPacket where
  arrival := blockArrival block
  block := block
  ofBlock := isOfBlock_blockArrival length_eq sync
  length_eq := length_eq
  sync := sync
  fits := fits
  addressable := by
    show block.length < 2 ^ 63
    rw [length_eq]
    decide

/-- A packet with a payload is such a packet. -/
def ofTsBlock (b : TsBlock) : FittingPacket := ofBytes b.bytes b.length_eq b.sync b.payload_pos.le

theorem inside (b : FittingPacket) : b.arrival.packet.payload.ValidIn b.arrival.storage :=
  b.ofBlock.inside b.length_eq b.sync b.fits

/-- The payload bit of adaptation_field_control. -/
def hasPayload (b : FittingPacket) : Bool := adaptationFieldControl b.block &&& 0x01 != 0

end FittingPacket

namespace Demuxer

/-- The `section_data` of a section parser. -/
def sectionDataAt (d : Demuxer κ φ) (pid : UInt16) : Option (List UInt8) :=
  match d.packetStreams[pid]? with
  | some (.parserPat sectionData) | some (.parserPmt sectionData) => some sectionData
  | _ => none

/-- What is compared of two runs: the calls of `create`, the bytes handed on for each PID, and what each
section parser holds. -/
def observed (d : Demuxer κ φ) :
    List (UInt8 × UInt16) × (UInt16 → List UInt8) × (UInt16 → Option (List UInt8)) :=
  (createsOf d.history, fun pid => dataOf (callbacksOf pid d.history), d.sectionDataAt)

/-- Two runs come to the same. -/
def SameOutcome (x y : Exec (Demuxer κ φ)) : Prop := observed <$> x = observed <$> y

/-- Every packet without payload is inert where it stands. -/
def InertRun (factory : EsFactory κ φ) (state : φ) (packets : List FittingPacket) : Prop :=
  Runs.Along (fun d b => consumePacket factory d b.arrival)
    (fun d b => b.hasPayload = false → Inert d b.arrival) (new state) packets

/-- **When packets without payload are invisible.** In every run in which each of them is inert where it
stands, leaving them out gives the same calls of `create`, the same bytes and the same section data. -/
theorem payloadless_invisible (state : φ) {packets : List FittingPacket}
    (hinert : InertRun factory state packets) :
    SameOutcome
      (consume factory (new state)
        ((packets.filter FittingPacket.hasPayload).map FittingPacket.arrival))
      (consume factory (new state) (packets.map FittingPacket.arrival)) := by
  unfold SameOutcome consume
  rw [List.foldlM_map, List.foldlM_map]
  refine congrArg (observed <$> ·) (Runs.foldlM_filter ?_)
  apply Runs.along_iff.mpr
  intro before b after d hsplit hrun hb
  refine (consumePacket_eq_self_iff b.inside b.addressable ?_).mpr
    (Runs.along_iff.mp hinert before b after d hsplit hrun hb)
  -- the section parsers are at rest before the packet
  intro h hk
  have haddr : ∀ a ∈ before.map FittingPacket.arrival, a.Addressable :=
    List.forall_mem_map.mpr fun b _ => b.addressable
  have hbefore : consume factory (new state) (before.map FittingPacket.arrival) = .ok d := by
    rw [consume, List.foldlM_map]
    exact hrun
  exact settled_of_run haddr hbefore hk

instance (h : Handler κ) (a : Arrival) : Decidable (h.Ignores a) :=
  match h with
  | .parserPat _ | .parserPmt _ => inferInstanceAs (Decidable (_ = _))
  | .parserPes _ => inferInstanceAs (Decidable (_ ∨ _))

instance (d : Demuxer κ φ) (a : Arrival) : Decidable (Inert d a) :=
  inferInstanceAs (Decidable (∀ h ∈ d.packetStreams[a.packet.pid]?, h.Ignores a))

instance (factory : EsFactory κ φ) (state : φ) (packets : List FittingPacket) :
    Decidable (InertRun factory state packets) :=
  inferInstanceAs (Decidable (Runs.Along _ _ _ _))

/-- A packet without the start indicator, with the given bytes behind its PID and zeros to the end. -/
def stuffedBlock (pid : UInt8) (control : List UInt8) : List UInt8 :=
  [0x47, 0x00, pid] ++ control ++ List.replicate (185 - control.length) 0x00

/-- The tables that announce PID 0x30, and on it a packet with the adaptation_field_control given. -/
def withStray (stray : FittingPacket) : List FittingPacket :=
  announcedBlocks.map FittingPacket.ofTsBlock ++ [stray]

/-- The adaptation field takes the whole packet. -/
def adaptationOnly : FittingPacket :=
  .ofBytes (stuffedBlock 0x30 [0x20, 0xb7]) (by decide +kernel) rfl (by decide +kernel)

/-- Neither an adaptation field nor a payload. -/
def reservedControl : FittingPacket :=
  .ofBytes (stuffedBlock 0x30 [0x00]) (by decide +kernel) rfl (by decide +kernel)

theorem payloadless_invisible_adaptationOnly :
    SameOutcome
      (consume pidFactory (new ())
        (((withStray adaptationOnly).filter FittingPacket.hasPayload).map FittingPacket.arrival))
      (consume pidFactory (new ()) ((withStray adaptationOnly).map FittingPacket.arrival)) :=
  payloadless_invisible () (by decide +kernel)

/-- Of the reserved packet, 184 bytes are handed on. -/
theorem payloadless_visible :
    ¬ ∀ packets : List FittingPacket, SameOutcome
      (consume pidFactory (new ())
        ((packets.filter FittingPacket.hasPayload).map FittingPacket.arrival))
      (consume pidFactory (new ()) (packets.map FittingPacket.arrival)) := by
  intro hclaim
  have hsame := hclaim (withStray reservedControl)
  have hnothing : Returns (consume pidFactory (new ())
      (((withStray reservedControl).filter FittingPacket.hasPayload).map FittingPacket.arrival))
      fun d => ((observed d).2.1 0x30).length = 0 := by
    decide +kernel
  have hbytes : Returns (consume pidFactory (new ())
      ((withStray reservedControl).map FittingPacket.arrival))
      fun d => ((observed d).2.1 0x30).length = 184 := by
    decide +kernel
  obtain ⟨d, hrun, hzero⟩ := returns_iff.mp hnothing
  obtain ⟨d', hrun', hmany⟩ := returns_iff.mp hbytes
  unfold SameOutcome at hsame
  rw [hrun, hrun', ok_map, ok_map, Except.ok.injEq] at hsame
  rw [hsame, hmany] at hzero
  exact absurd hzero (by decide)

end Demuxer

end Sandstream
