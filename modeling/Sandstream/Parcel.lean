import Mathlib
import Sandstream.Cargo
import Sandstream.CallbackEs

/-! # Sandstream.Parcel -- the demuxer without memory

`acceptAll` is the demuxer on packets that are given by their PID and what they carry, with the handlers
of `Sandstream.Cargo`. A packet whose adaptation field is too long carries nothing.

`consume_accept_iff` says that `demuxer_t::consume` is this machine as long as it hands on only bytes that
are there; the storage the packets stand in, their other header bits and the contents of their adaptation
fields make no difference. `accepts_iff` finds these runs.
-/

namespace Sandstream

open Sandstream.Lib
open Sandstream.Lib.Window
open ParserPsi (sectionFormat)

/-- A transport packet for the demuxer: the PID and what it carries. -/
abbrev Parcel := UInt16 × Option Cargo

/-- What the demuxer sees of a packet whose payload lies inside its storage. -/
def Arrival.parcel (a : Arrival) : Parcel := (a.packet.pid, some a.cargo)

/-- The payload of a block: what its adaptation field leaves. -/
def blockPayload (block : List UInt8) : List UInt8 := block.drop (4 + adaptationFieldSkipSize block)

/-- What the demuxer sees of a block. -/
def blockParcel (block : List UInt8) : Parcel :=
  (blockPid block,
    if AdaptationFieldFits block then some (blockPusi block, blockPayload block) else none)

section Block

variable {a : Arrival} {block : List UInt8}

theorem Arrival.IsOfBlock.pid_eq (h : a.IsOfBlock block) (hlength : block.length = tsPacketSize)
    (hsync : block[0]? = some tsSyncByte) : a.packet.pid = blockPid block := by
  obtain ⟨data, -, -, hpacket⟩ := h.packet_eq hlength hsync
  rw [hpacket]
  rfl

theorem Arrival.IsOfBlock.stored (h : a.IsOfBlock block) (hlength : block.length = tsPacketSize)
    (hsync : block[0]? = some tsSyncByte) (hfits : AdaptationFieldFits block) (haddr : a.Addressable) :
    a.Stored := by
  obtain ⟨data, hin, -, hpacket⟩ := h.packet_eq hlength hsync
  have hinBlock := (inBlock_packetAt_iff block data).mpr hfits
  refine ⟨?_, haddr⟩
  rw [hpacket, ConstBuffer.ValidIn, hinBlock.ends]
  exact hin

theorem Arrival.IsOfBlock.payload_eq (h : a.IsOfBlock block) (hlength : block.length = tsPacketSize)
    (hsync : block[0]? = some tsSyncByte) (hfits : AdaptationFieldFits block) :
    a.payload = blockPayload block := by
  obtain ⟨data, hin, hwindow, hpacket⟩ := h.packet_eq hlength hsync
  have hsize : sizeSub (tsPacketSize - 4) (adaptationFieldSkipSize block) =
      tsPacketSize - (4 + adaptationFieldSkipSize block) := by
    rw [sizeSub_of_le hfits]
    omega
  show a.packet.payload.bytes a.storage = block.drop (4 + adaptationFieldSkipSize block)
  rw [hpacket, ← hwindow, window_drop, hwindow]
  show window a.storage (data + 4 + adaptationFieldSkipSize block)
    (sizeSub (tsPacketSize - 4) (adaptationFieldSkipSize block)) = _
  rw [hsize, Nat.add_assoc]

theorem Arrival.IsOfBlock.parcel_eq (h : a.IsOfBlock block) (hlength : block.length = tsPacketSize)
    (hsync : block[0]? = some tsSyncByte) (hfits : AdaptationFieldFits block) :
    a.parcel = blockParcel block := by
  have hpayload := h.payload_eq hlength hsync hfits
  obtain ⟨data, -, -, hpacket⟩ := h.packet_eq hlength hsync
  show (a.packet.pid, some (a.packet.payloadUnitStartIndicator, a.payload)) = blockParcel block
  rw [hpayload, hpacket, blockParcel, if_pos hfits]
  rfl

/-- The size of a payload that does not fit has wrapped. -/
theorem Arrival.IsOfBlock.size_of_not_fits (h : a.IsOfBlock block)
    (hlength : block.length = tsPacketSize) (hsync : block[0]? = some tsSyncByte)
    (hfits : ¬ AdaptationFieldFits block) : 2 ^ 64 - 72 ≤ a.packet.payload.size := by
  obtain ⟨data, -, -, hpacket⟩ := h.packet_eq hlength hsync
  have hbyte := (block.getD 4 0).toNat_lt
  have hskip : adaptationFieldSkipSize block ≤ 256 := by
    unfold adaptationFieldSkipSize
    split_ifs <;> omega
  have hwraps : sizeSub (tsPacketSize - 4) (adaptationFieldSkipSize block) =
      2 ^ 64 - (adaptationFieldSkipSize block - (tsPacketSize - 4)) := if_neg hfits
  rw [hpacket]
  show 2 ^ 64 - 72 ≤ sizeSub (tsPacketSize - 4) (adaptationFieldSkipSize block)
  rw [hwraps]
  unfold tsPacketSize
  omega

end Block

/-! ## Payloads outside of the storage -/

namespace Handler

variable {κ : Type} {h : Handler κ} {a : Arrival}

/-- No handler gets bytes from a packet whose adaptation field is too long. -/
theorem fits_of_feed {block : List UInt8} {r : Handler κ × List Callback} (ha : a.IsOfBlock block)
    (hlength : block.length = tsPacketSize) (hsync : block[0]? = some tsSyncByte)
    (haddr : a.Addressable) (hfeed : h.feed a = .ok r) (hinside : ∀ callback ∈ r.2, callback.IsInside) :
    AdaptationFieldFits block := by
  by_contra hfits
  have hsize := ha.size_of_not_fits hlength hsync hfits
  have houtside : ¬ a.packet.payload.ValidIn a.storage := by
    unfold ConstBuffer.ValidIn
    unfold Arrival.Addressable at haddr
    omega
  have hunread : ¬ a.Readable := fun hread => houtside hread.inside
  cases h with
  | parserPat sectionData =>
    rw [(feed_of_not_readable haddr hunread).1] at hfeed
    exact nomatch hfeed
  | parserPmt sectionData =>
    rw [(feed_of_not_readable haddr hunread).2] at hfeed
    exact nomatch hfeed
  | parserPes consumer =>
    rw [feed_parserPes] at hfeed
    obtain ⟨calls, hcalls, hresult⟩ := bind_eq_ok_iff.mp hfeed
    obtain rfl := Except.ok.inj hresult
    rcases esCalls_cases haddr hcalls with ⟨-, hshort⟩ | ⟨hvalid, -⟩ | ⟨b, rfl, -⟩
    · omega
    · exact houtside hvalid
    · exact hinside _ List.mem_cons_self

end Handler

namespace Demuxer

variable {κ φ : Type} (factory : EsFactory κ φ)

/-! ## The machine -/

/-- One packet: its handler takes what it carries, and the calls are acted on. -/
def acceptPacket (d : Demuxer κ φ) (x : Parcel) : Taken (Demuxer κ φ) :=
  match d.packetStreams[x.1]?, x.2 with
  | none, _ => return d
  | some stream, some c => do
    let (stream, calls) ← stream.accept c
    return (d.reportAll factory x.1 calls).settle x.1 stream
  | some _, none => .error ()

/-- Several packets. -/
def acceptAll (d : Demuxer κ φ) (parcels : List Parcel) : Taken (Demuxer κ φ) :=
  parcels.foldlM (acceptPacket factory) d

/-- No section parser holds as much as the longest section. -/
def Bounded (d : Demuxer κ φ) : Prop :=
  ∀ (pid : UInt16) h, d.packetStreams[pid]? = some h → h.Bounded

variable {factory} {d d' : Demuxer κ φ} {x : Parcel}

theorem bounded_new (state : φ) : (new state : Demuxer κ φ).Bounded := by
  intro pid h hk
  rw [getElem?_new] at hk
  split_ifs at hk
  obtain rfl := Option.some.inj hk
  show ([] : List UInt8).length < 4098
  decide

theorem Bounded.reportAll (hd : d.Bounded) (pid : UInt16) (calls : List Callback) :
    (d.reportAll factory pid calls).Bounded := by
  induction calls generalizing d with
  | nil => exact hd
  | cons callback calls ih =>
    apply ih
    intro k h hk
    cases hbefore : d.packetStreams[k]? with
    | none =>
      rcases report_fresh hbefore hk with rfl | ⟨streamType, state, rfl⟩
      · show ([] : List UInt8).length < 4098
        decide
      · trivial
    | some g =>
      obtain rfl : g = h := Option.some.inj ((report_kept hbefore).symm.trans hk)
      exact hd k g hbefore

/-- What `accept` leaves of a section parser is bounded, whatever it was before. -/
theorem bounded_of_accept {h h' : Handler κ} {c : Cargo} {calls : List Callback}
    (haccept : h.accept c = .ok (h', calls)) : h'.Bounded := by
  cases h with
  | parserPat sectionData =>
    simp only [Handler.accept] at haccept
    split_ifs at haccept
    obtain ⟨rfl, -⟩ := Prod.mk.inj (Except.ok.inj haccept)
    exact ParserPsi.rest_sectionFormat_length_lt _
  | parserPmt sectionData =>
    simp only [Handler.accept] at haccept
    split_ifs at haccept
    obtain ⟨rfl, -⟩ := Prod.mk.inj (Except.ok.inj haccept)
    exact ParserPsi.rest_sectionFormat_length_lt _
  | parserPes consumer =>
    simp only [Handler.accept] at haccept
    split_ifs at haccept
    obtain ⟨rfl, -⟩ := Prod.mk.inj (Except.ok.inj haccept)
    trivial

/-- What one packet does. -/
theorem acceptPacket_cases (hstep : acceptPacket factory d x = .ok d') :
    (d.packetStreams[x.1]? = none ∧ d' = d) ∨
      ∃ h c h' calls, d.packetStreams[x.1]? = some h ∧ x.2 = some c ∧ h.accept c = .ok (h', calls) ∧
        d' = (d.reportAll factory x.1 calls).settle x.1 h' := by
  obtain ⟨pid, cargo⟩ := x
  unfold acceptPacket at hstep
  dsimp only at hstep ⊢
  cases hk : d.packetStreams[pid]? with
  | none =>
    rw [hk] at hstep
    exact Or.inl ⟨rfl, (Except.ok.inj hstep).symm⟩
  | some h =>
    rw [hk] at hstep
    cases cargo with
    | none => exact nomatch hstep
    | some c =>
      obtain ⟨⟨h', calls⟩, haccept, hresult⟩ := bind_eq_ok_iff.mp hstep
      exact Or.inr ⟨h, c, h', calls, rfl, rfl, haccept, (Except.ok.inj hresult).symm⟩

/-- The step lemma for the invariant. -/
theorem Bounded.step (hd : d.Bounded) (hstep : acceptPacket factory d x = .ok d') : d'.Bounded := by
  rcases acceptPacket_cases hstep with ⟨-, rfl⟩ | ⟨h, c, h', calls, -, -, haccept, rfl⟩
  · exact hd
  · intro k g hk
    rw [getElem?_settle] at hk
    split_ifs at hk
    · obtain rfl := Option.some.inj hk
      exact bounded_of_accept haccept
    · exact hd.reportAll x.1 calls k g hk

/-- The record only grows. -/
theorem history_prefix_acceptAll {parcels : List Parcel}
    (hrun : acceptAll factory d parcels = .ok d') : d.history <+: d'.history := by
  induction parcels generalizing d with
  | nil =>
    obtain rfl : d = d' := Except.ok.inj hrun
    exact List.prefix_refl _
  | cons x parcels ih =>
    unfold acceptAll at hrun ih
    rw [List.foldlM_cons, bind_eq_ok_iff] at hrun
    obtain ⟨d₁, hstep, hrest⟩ := hrun
    refine List.IsPrefix.trans ?_ (ih hrest)
    rcases acceptPacket_cases hstep with ⟨-, rfl⟩ | ⟨h, c, h', calls, -, -, -, rfl⟩
    · exact List.prefix_refl _
    · exact history_prefix_reportAll factory d x.1 calls

/-! ## Runs that take all packets -/

/-- The handler of the packet, if it has one, can take what it carries. -/
def Takes (d : Demuxer κ φ) (x : Parcel) : Prop :=
  ∀ h ∈ d.packetStreams[x.1]?, ∃ c ∈ x.2, h.Takes c

instance (d : Demuxer κ φ) (x : Parcel) : Decidable (d.Takes x) :=
  inferInstanceAs (Decidable (∀ h ∈ d.packetStreams[x.1]?, ∃ c ∈ x.2, h.Takes c))

theorem acceptPacket_returns_iff (d : Demuxer κ φ) (x : Parcel) :
    (∃ d', acceptPacket factory d x = .ok d') ↔ d.Takes x := by
  constructor
  · rintro ⟨d', hstep⟩ h hh
    rcases acceptPacket_cases hstep with ⟨hnone, -⟩ | ⟨h', c, g, calls, hk, hc, haccept, -⟩
    · rw [hnone] at hh
      exact absurd hh (by simp)
    · rw [hk] at hh
      obtain rfl : h' = h := Option.some.inj hh
      exact ⟨c, hc, (h'.accept_returns_iff c).mp ⟨_, haccept⟩⟩
  · intro htakes
    unfold acceptPacket
    cases hk : d.packetStreams[x.1]? with
    | none => exact ⟨d, rfl⟩
    | some stream =>
      obtain ⟨c, hc, hstream⟩ := htakes stream hk
      obtain ⟨r, hr⟩ := (stream.accept_returns_iff c).mpr hstream
      have hcargo : x.2 = some c := hc
      refine ⟨(d.reportAll factory x.1 r.2).settle x.1 r.1, ?_⟩
      rw [hcargo]
      dsimp only
      rw [hr]
      rfl

/-- Each packet of a run can be taken where it stands. -/
def TakesAll (factory : EsFactory κ φ) (d : Demuxer κ φ) (parcels : List Parcel) : Prop :=
  Runs.Along (acceptPacket factory) (fun d x => d.Takes x) d parcels

instance (factory : EsFactory κ φ) (d : Demuxer κ φ) (parcels : List Parcel) :
    Decidable (TakesAll factory d parcels) :=
  inferInstanceAs (Decidable (Runs.Along _ _ _ _))

/-- A run returns exactly if each packet can be taken where it stands. -/
theorem accepts_iff (d : Demuxer κ φ) (parcels : List Parcel) :
    (∃ d', acceptAll factory d parcels = .ok d') ↔ TakesAll factory d parcels := by
  unfold acceptAll TakesAll
  rw [Runs.foldlM_returns_iff]
  simp only [acceptPacket_returns_iff]

/-! ## How far a run gets -/

/-- `before` is the longest beginning of `parcels` whose packets can be taken, and `d` the demuxer after
it. -/
structure TakesUpTo (factory : EsFactory κ φ) (start : Demuxer κ φ) (parcels before : List Parcel)
    (d : Demuxer κ φ) : Prop where
  isPrefix : before <+: parcels
  taken : acceptAll factory start before = .ok d
  longest : ∀ other d', other <+: parcels → acceptAll factory start other = .ok d' → other <+: before

section TakesUpTo

variable {start : Demuxer κ φ} {parcels parcels' before before' : List Parcel}

/-- What follows a beginning is taken after it. -/
theorem acceptAll_of_isPrefix (hfront : before <+: parcels) (htaken : acceptAll factory start before = .ok d)
    (hall : acceptAll factory start parcels = .ok d') :
    ∃ later, parcels = before ++ later ∧ acceptAll factory d later = .ok d' := by
  obtain ⟨later, rfl⟩ := hfront
  unfold acceptAll at htaken hall
  rw [List.foldlM_append, htaken] at hall
  exact ⟨later, rfl, hall⟩

/-- A run that takes all parcels. -/
theorem TakesUpTo.of_all (htaken : acceptAll factory start parcels = .ok d) :
    TakesUpTo factory start parcels parcels d :=
  ⟨List.prefix_refl parcels, htaken, fun _ _ hfront _ => hfront⟩

/-- A run that gets to a parcel which cannot be taken. -/
theorem TakesUpTo.of_refused {after : List Parcel} (htaken : acceptAll factory start before = .ok d)
    (hrefused : ¬ d.Takes x) : TakesUpTo factory start (before ++ x :: after) before d := by
  refine ⟨List.prefix_append _ _, htaken, ?_⟩
  intro other d' hother hrun
  rcases List.prefix_or_prefix_of_prefix hother (List.prefix_append before (x :: after)) with h | hlonger
  · exact h
  · obtain ⟨later, rfl, hlater⟩ := acceptAll_of_isPrefix hlonger htaken hrun
    rw [List.prefix_append_right_inj] at hother
    cases later with
    | nil => rw [List.append_nil]
    | cons y later =>
      obtain ⟨rfl, -⟩ := List.cons_prefix_cons.mp hother
      unfold acceptAll at hlater
      rw [List.foldlM_cons, bind_eq_ok_iff] at hlater
      obtain ⟨d₁, hstep, -⟩ := hlater
      exact absurd ((acceptPacket_returns_iff d y).mp ⟨d₁, hstep⟩) hrefused

theorem TakesUpTo.unique (h : TakesUpTo factory start parcels before d)
    (h' : TakesUpTo factory start parcels before' d') : before' = before ∧ d' = d := by
  have hle := h.longest before' d' h'.isPrefix h'.taken
  have hge := h'.longest before d h.isPrefix h.taken
  obtain rfl : before' = before := hle.eq_of_length (Nat.le_antisymm hle.length_le hge.length_le)
  exact ⟨rfl, Except.ok.inj (h'.taken.symm.trans h.taken)⟩

/-- On a beginning of the parcels a run gets no further, and has recorded a beginning of the calls. -/
theorem TakesUpTo.history_isPrefix (h : TakesUpTo factory start parcels before d)
    (h' : TakesUpTo factory start parcels' before' d') (hparcels : parcels' <+: parcels) :
    d'.history <+: d.history := by
  have hfront := h.longest before' d' (h'.isPrefix.trans hparcels) h'.taken
  obtain ⟨later, -, hlater⟩ := acceptAll_of_isPrefix hfront h'.taken h.taken
  exact history_prefix_acceptAll hlater

end TakesUpTo

/-! ## The refinement -/

theorem handsOnInside_new (state : φ) : (new state : Demuxer κ φ).HandsOnInside :=
  fun _ _ hmem => absurd hmem List.not_mem_nil

theorem handsOnInside_report (pid : UInt16) (callback : Callback) :
    (d.report factory pid callback).HandsOnInside ↔ d.HandsOnInside ∧ callback.IsInside := by
  unfold HandsOnInside
  simp only [history_report, List.mem_append, List.mem_cons, List.mem_map]
  constructor
  · intro h
    exact ⟨fun pid callback hmem => h pid callback (Or.inl hmem), h pid callback (Or.inr (Or.inl rfl))⟩
  · rintro ⟨hd, hcallback⟩ k c (hmem | heq | ⟨track, -, heq⟩)
    · exact hd k c hmem
    · obtain ⟨-, rfl⟩ := Event.handler.inj heq
      exact hcallback
    · cases heq

theorem handsOnInside_reportAll (pid : UInt16) (calls : List Callback) :
    (d.reportAll factory pid calls).HandsOnInside ↔
      d.HandsOnInside ∧ ∀ callback ∈ calls, callback.IsInside := by
  induction calls generalizing d with
  | nil => exact (and_iff_left fun callback hmem => absurd hmem List.not_mem_nil).symm
  | cons callback calls ih =>
    rw [reportAll_cons, ih, handsOnInside_report, List.forall_mem_cons, and_assoc]

/-- What the demuxer has handed on before it has handed on still. -/
theorem HandsOnInside.of_isPrefix (hd : d'.HandsOnInside) (hfront : d.history <+: d'.history) :
    d.HandsOnInside :=
  fun pid callback hmem => hd pid callback (hfront.subset hmem)

section Refinement

variable {a : Arrival} {block : List UInt8} {arrivals : List Arrival} {blocks : List (List UInt8)}

/-- The handler of a packet of any content: it takes what the packet carries exactly if it returns and
hands on only buffers that are there. -/
theorem accept_blockParcel_iff {h : Handler κ} {r : Handler κ × List Callback} (ha : a.IsOfBlock block)
    (hlength : block.length = tsPacketSize) (hsync : block[0]? = some tsSyncByte)
    (haddr : a.Addressable) (hbound : h.Bounded) :
    (∃ c, (blockParcel block).2 = some c ∧ h.accept c = .ok r) ↔
      h.feed a = .ok r ∧ ∀ callback ∈ r.2, callback.IsInside := by
  by_cases hfits : AdaptationFieldFits block
  · have hparcel : (blockParcel block).2 = some a.cargo := by
      rw [← ha.parcel_eq hlength hsync hfits]
      rfl
    rw [← Handler.accept_eq_ok_iff (ha.stored hlength hsync hfits haddr) hbound, hparcel]
    constructor
    · rintro ⟨c, hc, haccept⟩
      obtain rfl := Option.some.inj hc
      exact haccept
    · exact fun haccept => ⟨_, rfl, haccept⟩
  · constructor
    · rintro ⟨c, hc, -⟩
      rw [blockParcel, if_neg hfits] at hc
      cases hc
    · rintro ⟨hfeed, hinside⟩
      exact absurd (Handler.fits_of_feed ha hlength hsync haddr hfeed hinside) hfits

/-- The step lemma. -/
theorem consumePacket_accept_iff (ha : a.IsOfBlock block) (hlength : block.length = tsPacketSize)
    (hsync : block[0]? = some tsSyncByte) (haddr : a.Addressable) (hd : d.Bounded)
    (hinside : d.HandsOnInside) :
    consumePacket factory d a = .ok d' ∧ d'.HandsOnInside ↔
      acceptPacket factory d (blockParcel block) = .ok d' := by
  have hpid : (blockParcel block).1 = a.packet.pid := (ha.pid_eq hlength hsync).symm
  rw [consumePacket_eq_step]
  constructor
  · rintro ⟨hstep, hinside'⟩
    unfold acceptPacket
    rw [hpid]
    cases hk : d.packetStreams[a.packet.pid]? with
    | none =>
      rw [Dispatch.Dispatcher.step_of_unregistered hk] at hstep
      obtain rfl := Except.ok.inj hstep
      rfl
    | some h =>
      obtain ⟨h', calls, hfeed, rfl⟩ := Dispatch.Dispatcher.step_of_registered hk hstep
      have hcalls := ((handsOnInside_reportAll a.packet.pid calls).mp hinside').2
      obtain ⟨c, hc, haccept⟩ :=
        (accept_blockParcel_iff ha hlength hsync haddr (hd _ h hk)).mpr ⟨hfeed, hcalls⟩
      rw [hc]
      dsimp only
      rw [haccept]
      rfl
  · intro haccept
    rcases acceptPacket_cases haccept with ⟨hnone, rfl⟩ | ⟨h, c, h', calls, hk, hc, htaken, rfl⟩
    · rw [hpid] at hnone
      exact ⟨Dispatch.Dispatcher.step_of_unregistered hnone, hinside⟩
    · rw [hpid] at hk ⊢
      obtain ⟨hfeed, hcalls⟩ :=
        (accept_blockParcel_iff ha hlength hsync haddr (hd _ h hk)).mp ⟨c, hc, htaken⟩
      refine ⟨?_, (handsOnInside_reportAll a.packet.pid calls).mpr ⟨hinside, hcalls⟩⟩
      unfold Dispatch.Dispatcher.step
      have hlookup : (dispatcher factory).lookup d ((dispatcher factory).key a) = some h := hk
      have hfeed' : (dispatcher factory).feed h a = .ok (h', calls) := hfeed
      rw [hlookup]
      dsimp only
      rw [hfeed']
      rfl

/-- Blocks that the packet constructor accepts. -/
def Synced (blocks : List (List UInt8)) : Prop :=
  ∀ b ∈ blocks, b.length = tsPacketSize ∧ b[0]? = some tsSyncByte

theorem HandsOnInside.run_accept_iff (hinside : d.HandsOnInside) (hd : d.Bounded)
    (hblocks : List.Forall₂ Arrival.IsOfBlock arrivals blocks) (hsynced : Synced blocks)
    (haddr : ∀ a ∈ arrivals, a.Addressable) :
    consume factory d arrivals = .ok d' ∧ d'.HandsOnInside ↔
      acceptAll factory d (blocks.map blockParcel) = .ok d' := by
  induction hblocks generalizing d with
  | nil =>
    constructor
    · rintro ⟨hrun, -⟩
      obtain rfl : d = d' := Except.ok.inj hrun
      rfl
    · intro hrun
      obtain rfl : d = d' := Except.ok.inj hrun
      exact ⟨rfl, hinside⟩
  | @cons a block arrivals blocks ha _ ih =>
    obtain ⟨⟨hlength, hsync⟩, hsynced⟩ := List.forall_mem_cons.mp hsynced
    obtain ⟨haddr, hlater⟩ := List.forall_mem_cons.mp haddr
    have hstep : ∀ d₁, consumePacket factory d a = .ok d₁ ∧ d₁.HandsOnInside ↔
        acceptPacket factory d (blockParcel block) = .ok d₁ :=
      fun d₁ => consumePacket_accept_iff ha hlength hsync haddr hd hinside
    unfold acceptAll
    rw [consume_cons, List.map_cons, List.foldlM_cons, bind_eq_ok_iff, bind_eq_ok_iff]
    constructor
    · rintro ⟨⟨d₁, hfirst, hrest⟩, hinside'⟩
      have hinside₁ := hinside'.of_isPrefix (history_prefix_consume hrest)
      have haccept := (hstep d₁).mp ⟨hfirst, hinside₁⟩
      exact ⟨d₁, haccept, (ih hinside₁ (hd.step haccept) hsynced hlater).mp ⟨hrest, hinside'⟩⟩
    · rintro ⟨d₁, haccept, hrest⟩
      obtain ⟨hfirst, hinside₁⟩ := (hstep d₁).mpr haccept
      obtain ⟨hrun, hinside'⟩ := (ih hinside₁ (hd.step haccept) hsynced hlater).mpr hrest
      exact ⟨⟨d₁, hfirst, hrun⟩, hinside'⟩

/-- **The demuxer is a function of the parcels.** On packets of any content, wherever they stand and
whatever else is in their storage, it returns and has handed on only bytes that are there exactly if the
machine without memory takes them all, and then both have done the same. -/
theorem consume_accept_iff (factory : EsFactory κ φ) (state : φ)
    (hblocks : List.Forall₂ Arrival.IsOfBlock arrivals blocks) (hsynced : Synced blocks)
    (haddr : ∀ a ∈ arrivals, a.Addressable) :
    consume factory (new state) arrivals = .ok d ∧ d.HandsOnInside ↔
      acceptAll factory (new state) (blocks.map blockParcel) = .ok d :=
  (handsOnInside_new state).run_accept_iff (bounded_new state) hblocks hsynced haddr

theorem consume_accept_iff_announcedBlocks :
    ∃ d, consume pidFactory (new ()) (announcedBlocks.map TsBlock.arrival) = .ok d ∧ d.HandsOnInside := by
  have htakes : TakesAll pidFactory (new ()) ((announcedBlocks.map TsBlock.bytes).map blockParcel) := by
    decide +kernel
  obtain ⟨d, haccept⟩ := (accepts_iff _ _).mpr htakes
  refine ⟨d, (consume_accept_iff pidFactory () ?_ ?_ ?_).mpr haccept⟩
  · rw [List.forall₂_map_left_iff, List.forall₂_map_right_iff, List.forall₂_same]
    exact fun b _ => isOfBlock_blockArrival b.length_eq b.sync
  · intro block hmem
    obtain ⟨b, -, rfl⟩ := List.mem_map.mp hmem
    exact ⟨b.length_eq, b.sync⟩
  · intro a hmem
    obtain ⟨b, -, rfl⟩ := List.mem_map.mp hmem
    exact b.addressable

end Refinement

end Demuxer

end Sandstream
