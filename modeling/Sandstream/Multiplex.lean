import Mathlib
import Sandstream.CreateCalls
import Sandstream.ElementaryStream
import Sandstream.Tables

/-! # Sandstream.Multiplex -- transport streams as ISO 13818-1 puts them together

`Multiplex` is a transport stream with its packets in any order: a program association table on PID 0,
program map tables on further PIDs, PES packets on the elementary PIDs, and anything on other PIDs.
Each PID has a layout of its own, and the packets of a table or stream come after a section that lists
their PID has ended.

The second half says what the handler of one PID does alone on the packets of that PID.
-/

namespace Sandstream

open Sandstream.Lib
open Sandstream.Lib.Frames
open ParserPsi (sectionFormat sectionLength)
open OpenSection (sentBytes inProgress)

variable {κ φ : Type}

/-! ## Multiplexes -/

/-- A packet of a transport stream: one of a PID that is multiplexed here, or any other 188 bytes. -/
inductive MuxPacket where
  | frame (f : TsFrame)
  | other (block : List UInt8) (length_eq : block.length = tsPacketSize)
      (sync : block[0]? = some tsSyncByte)

namespace MuxPacket

/-- The packet on the wire. -/
def bytes : MuxPacket → List UInt8
  | frame f => f.bytes
  | other block _ _ => block

theorem bytes_length (p : MuxPacket) : p.bytes.length = tsPacketSize := by
  cases p with
  | frame f => exact f.bytes_length
  | other block hlength hsync => exact hlength

theorem bytes_sync (p : MuxPacket) : p.bytes[0]? = some tsSyncByte := by
  cases p with
  | frame f => rfl
  | other block hlength hsync => exact hsync

/-- The arrival is the packet. -/
def Arrives (a : Arrival) (p : MuxPacket) : Prop := a.IsOfBlock p.bytes

/-- The packet, if it is one of the given PID. -/
def frameOn (pid : UInt16) : MuxPacket → Option TsFrame
  | frame f => if f.pid = pid then some f else none
  | other _ _ _ => none

end MuxPacket

/-- The packets of a PID that is multiplexed here. -/
def onPid (pid : UInt16) (packets : List MuxPacket) : List TsFrame :=
  packets.filterMap (MuxPacket.frameOn pid)

/-- The packets that have a payload. -/
def payloadFrames (frames : List TsFrame) : List TsFrame :=
  frames.filter fun f => !f.payload.isEmpty

/-- What a packet of a layout looks like on the wire. -/
def PsiPacket.cargo (p : PsiPacket) : Cargo := (p.payloadUnitStart, p.payload)

/-- Packets without payload start nothing. -/
def StartsWithPayload (frames : List TsFrame) : Prop :=
  ∀ f ∈ frames, f.payload = [] → f.payloadUnitStart = false

/-- The packets `frames` of a PID carry the sections `ss`, laid out as `packets`. -/
structure CarriesSections (frames : List TsFrame) (ss : List PsiSection)
    (packets : List PsiPacket) : Prop where
  packetised : Packetised none ss packets
  cargo_eq : (payloadFrames frames).map TsFrame.cargo = packets.map PsiPacket.cargo
  starts : StartsWithPayload frames

/-- The packets `frames` of a PID carry PES packets. -/
structure CarriesPes (frames : List TsFrame) (packets : List PesPacket) : Prop where
  cut : PesCut packets ((payloadFrames frames).map TsFrame.cargo)
  starts : StartsWithPayload frames

/-- The sections of a layout that have ended when the packets `frames` of its PID have been sent. -/
def endedBy (packets : List PsiPacket) (frames : List TsFrame) : List PsiSection :=
  (packets.take (payloadFrames frames).length).flatMap PsiPacket.completes

/-- A multiplex. -/
structure Multiplex where
  pmtPids : List UInt16
  esPids : List UInt16
  streamType : UInt16 → UInt8
  pat : List PatSection
  pmt : UInt16 → List PmtSection
  es : UInt16 → List PesPacket
  /-- how the sections on PID 0 and on the PMT PIDs are cut -/
  patPackets : List PsiPacket
  pmtPackets : UInt16 → List PsiPacket
  /-- all packets, in the order in which they are sent -/
  packets : List MuxPacket
  zero_not_pmt : 0 ∉ pmtPids
  zero_not_es : 0 ∉ esPids
  pmt_not_es : ∀ q ∈ pmtPids, q ∉ esPids
  pat_pids : ∀ s ∈ pat, ∀ q ∈ s.pids, q ∈ pmtPids
  pmt_streams : ∀ q ∈ pmtPids, ∀ s ∈ pmt q, ∀ e ∈ s.streams, e.1 ∈ esPids ∧ e.2 = streamType e.1
  other_pids : ∀ block hlength hsync, .other block hlength hsync ∈ packets →
    blockPid block ≠ 0 ∧ blockPid block ∉ pmtPids ∧ blockPid block ∉ esPids
  carries_pat : CarriesSections (onPid 0 packets) (pat.map PatSection.toPsi) patPackets
  carries_pmt : ∀ q ∈ pmtPids,
    CarriesSections (onPid q packets) ((pmt q).map PmtSection.toPsi) (pmtPackets q)
  carries_es : ∀ p ∈ esPids, CarriesPes (onPid p packets) (es p)
  /-- a packet of a PMT PID comes after a PAT section that lists the PID has ended -/
  pat_first : ∀ before f after, packets = before ++ .frame f :: after → f.pid ∈ pmtPids →
    ∃ s ∈ pat, s.toPsi ∈ endedBy patPackets (onPid 0 before) ∧ f.pid ∈ s.pids
  /-- a packet of an elementary PID comes after a PMT section that lists the PID has ended -/
  pmt_first : ∀ before f after, packets = before ++ .frame f :: after → f.pid ∈ esPids →
    ∃ q ∈ pmtPids, ∃ s ∈ pmt q, s.toPsi ∈ endedBy (pmtPackets q) (onPid q before) ∧
      ∃ t, (f.pid, t) ∈ s.streams

/-! ## One table PID alone -/

/-- What the two table parsers have in common: one packet reports the sections it completes. -/
def TableParser (wrap : List UInt8 → Handler κ) (call : List UInt8 → Callback) : Prop :=
  ∀ (sectionData : List UInt8) (a : Arrival),
    (sectionData ++ ParserPsi.appended a).length + 8 < 2 ^ 64 → a.Readable →
    (∀ s ∈ sectionFormat.units (sectionData ++ ParserPsi.appended a), 9 ≤ sectionLength s) →
    (wrap sectionData).feed a =
      .ok (wrap (sectionFormat.rest (sectionData ++ ParserPsi.appended a)),
        (sectionFormat.units (sectionData ++ ParserPsi.appended a)).map call)

theorem tableParser_pat :
    TableParser (Handler.parserPat : List UInt8 → Handler κ) fun s => .onPat (patTable s) :=
  fun _ _ hsize hread hlong => Handler.feed_parserPat hsize hread hlong

theorem tableParser_pmt :
    TableParser (Handler.parserPmt : List UInt8 → Handler κ) fun s => .onPmt (pmtTable s) :=
  fun _ _ hsize hread hlong => Handler.feed_parserPmt hsize hread hlong

section TableParser

variable {wrap : List UInt8 → Handler κ} {call : List UInt8 → Callback} {a : Arrival} {f : TsFrame}

/-- A packet that starts nothing where it has no payload can be read. -/
theorem Arrival.IsOf.readable (ha : a.IsOf f)
    (hstart : f.payload = [] → f.payloadUnitStart = false) : a.Readable where
  inside := ha.inside
  pointerField := by
    intro hpusi
    rw [ha.payloadUnitStart_eq] at hpusi
    rw [ha.size_eq]
    apply List.length_pos_iff.mpr
    intro hnil
    rw [hstart hnil] at hpusi
    exact Bool.false_ne_true hpusi

/-- A packet without payload adds nothing to the section in progress. -/
theorem TableParser.feed_empty (hparser : TableParser wrap call) (o : Option OpenSection)
    (ha : a.IsOf f) (hempty : f.payload = []) (hstart : f.payloadUnitStart = false) :
    (wrap (sentBytes o)).feed a = .ok (wrap (sentBytes o), []) := by
  have hbound := sentBytes_length_lt o
  have happended : ParserPsi.appended a = [] := by
    unfold ParserPsi.appended
    rw [ha.payloadUnitStart_eq, hstart, ha.payload_eq, hempty]
    rfl
  have hincomplete : sectionFormat.complete (sentBytes o) = none := by
    cases o with
    | none => rfl
    | some o => exact o.whole.isUnit.complete_take o.sent_lt
  have hfeed := hparser (sentBytes o) a
  rw [happended, List.append_nil, Format.units_of_incomplete _ hincomplete,
    Format.rest_of_incomplete _ hincomplete] at hfeed
  exact hfeed (by omega) (ha.readable fun _ => hstart) fun _ hs => absurd hs List.not_mem_nil

/-- A packet of a layout. -/
theorem TableParser.feed_packet (hparser : TableParser wrap call) {o : Option OpenSection}
    {ss : List PsiSection} {p : PsiPacket} {ps : List PsiPacket} (h : Packetised o ss (p :: ps))
    (ha : a.IsOf f) (hcargo : f.cargo = p.cargo)
    (hlong : ∀ s ∈ p.completes, 9 ≤ sectionLength s.bytes) :
    ∃ o' ss', Packetised o' ss' ps ∧ (wrap (sentBytes o)).feed a =
      .ok (wrap (sentBytes o'), p.completes.map fun s => call s.bytes) := by
  rcases h.step with ⟨o', ss', hps, hfits, -, hunits, hrest⟩
  have hbound := sentBytes_length_lt o
  have hcontent := content_length_le hfits
  have hcarries : Carries a p :=
    ⟨ha.payloadUnitStart_eq.trans (Prod.mk.inj hcargo).1, ha.inside,
      ha.payload_eq.trans (Prod.mk.inj hcargo).2⟩
  have hsize : (sentBytes o ++ p.content).length + 8 < 2 ^ 64 := by
    rw [List.length_append]
    omega
  have hfeed := hparser (sentBytes o) a
  rw [hcarries.appended_eq, hunits, hrest, List.map_map] at hfeed
  refine ⟨o', ss', hps, hfeed hsize (hcarries.valid hfits).readable ?_⟩
  intro u hu
  rcases List.mem_map.mp hu with ⟨s, hs, rfl⟩
  exact hlong s hs

theorem Handler.feedAll_cons_of_ok {h h' h'' : Handler κ} {arrivals : List Arrival}
    {calls later : List Callback} (hone : h.feed a = .ok (h', calls))
    (hall : h'.feedAll arrivals = .ok (h'', later)) :
    h.feedAll (a :: arrivals) = .ok (h'', calls ++ later) := by
  unfold Handler.feedAll
  rw [hone, ok_bind]
  dsimp only
  rw [hall]
  rfl

/-- **A table PID alone.** The parser reports the sections that have ended, and keeps the sent part of
the one in progress. -/
theorem TableParser.feedAll (hparser : TableParser wrap call) {o : Option OpenSection}
    {ss : List PsiSection} {ps ps' : List PsiPacket} {arrivals : List Arrival}
    {frames : List TsFrame} (h : Packetised o ss (ps ++ ps'))
    (harrive : List.Forall₂ Arrival.IsOf arrivals frames)
    (hcargo : (payloadFrames frames).map TsFrame.cargo = ps.map PsiPacket.cargo)
    (hstart : StartsWithPayload frames)
    (hlong : ∀ s ∈ ps.flatMap PsiPacket.completes, 9 ≤ sectionLength s.bytes) :
    ∃ o', (wrap (sentBytes o)).feedAll arrivals =
      .ok (wrap (sentBytes o'), (ps.flatMap PsiPacket.completes).map fun s => call s.bytes) := by
  -- along the packets of the PID; `o` is the section whose sent part the parser holds
  induction harrive generalizing o ss ps with
  | nil =>
    have hnil : ps = [] := List.map_eq_nil_iff.mp hcargo.symm
    subst hnil
    exact ⟨o, rfl⟩
  | @cons a f arrivals frames ha _ ih =>
    have htail : StartsWithPayload frames := fun g hg => hstart g (List.mem_cons_of_mem _ hg)
    by_cases hempty : f.payload = []
    · have hone := hparser.feed_empty o ha hempty (hstart f List.mem_cons_self hempty)
      have hskip : payloadFrames (f :: frames) = payloadFrames frames :=
        List.filter_cons_of_neg (by simp [hempty])
      rw [hskip] at hcargo
      rcases ih h hcargo htail hlong with ⟨o', hall⟩
      exact ⟨o', Handler.feedAll_cons_of_ok hone hall⟩
    · have hkeep : payloadFrames (f :: frames) = f :: payloadFrames frames :=
        List.filter_cons_of_pos (by simp [hempty])
      rw [hkeep, List.map_cons] at hcargo
      cases ps with
      | nil => exact absurd hcargo (by simp)
      | cons p ps =>
        rcases List.cons.inj hcargo with ⟨hfirst, hrest⟩
        rw [List.flatMap_cons] at hlong
        rcases hparser.feed_packet h ha hfirst fun s hs => hlong s (List.mem_append_left _ hs) with
          ⟨o₁, ss₁, hps, hone⟩
        rcases ih hps hrest htail fun s hs => hlong s (List.mem_append_right _ hs) with ⟨o', hall⟩
        refine ⟨o', ?_⟩
        rw [Handler.feedAll_cons_of_ok hone hall, List.flatMap_cons, List.map_append]

/-- The first packets of a PID carry the first packets of its layout. -/
theorem CarriesSections.cargo_prefix {frames frames' : List TsFrame} {ss : List PsiSection}
    {packets : List PsiPacket} (h : CarriesSections (frames ++ frames') ss packets) :
    (payloadFrames frames).map TsFrame.cargo =
      (packets.take (payloadFrames frames).length).map PsiPacket.cargo := by
  have hsplit : payloadFrames (frames ++ frames') = payloadFrames frames ++ payloadFrames frames' :=
    List.filter_append _ _
  -- cutting both sides of the layout behind the payloads that have been sent
  have hall := congrArg (List.take (payloadFrames frames).length) h.cargo_eq
  rw [hsplit, List.map_append, ← List.length_map (f := TsFrame.cargo), List.take_left] at hall
  rw [hall, List.length_map, List.map_take]

/-- From the start of a PID, the parser reports the sections that have ended. -/
theorem TableParser.feedAll_carried (hparser : TableParser wrap call)
    {frames frames' : List TsFrame} {ss : List PsiSection} {packets : List PsiPacket}
    (h : CarriesSections (frames ++ frames') ss packets)
    (hlong : ∀ s ∈ ss, 9 ≤ sectionLength s.bytes) {arrivals : List Arrival}
    (harrive : List.Forall₂ Arrival.IsOf arrivals frames) :
    ∃ o, (wrap []).feedAll arrivals =
      .ok (wrap (sentBytes o), (endedBy packets frames).map fun s => call s.bytes) := by
  have hsplit : packets.take (payloadFrames frames).length ++
      packets.drop (payloadFrames frames).length = packets := List.take_append_drop _ _
  have hpacketised := h.packetised
  rw [← hsplit] at hpacketised
  apply hparser.feedAll hpacketised harrive h.cargo_prefix
  · intro f hf
    exact h.starts f (List.mem_append_left _ hf)
  · intro s hs
    apply hlong s
    have hcompletes := h.packetised.completes_eq
    rw [← hsplit, List.flatMap_append, inProgress, List.nil_append] at hcompletes
    rw [← hcompletes]
    exact List.mem_append_left _ hs

/-- At the end of a PID all its sections have ended. -/
theorem CarriesSections.endedBy_eq {frames : List TsFrame} {ss : List PsiSection}
    {packets : List PsiPacket} (h : CarriesSections frames ss packets) :
    endedBy packets frames = ss := by
  have hlen : (payloadFrames frames).length = packets.length := by
    have := congrArg List.length h.cargo_eq
    rwa [List.length_map, List.length_map] at this
  unfold endedBy
  rw [hlen, List.take_length]
  exact h.packetised.completes_eq

end TableParser

/-- A layout of one packet has ended with the first payload of its PID. -/
theorem mem_endedBy_of_mem {packets : List MuxPacket} {f : TsFrame} {p : PsiPacket} {s : PsiSection}
    (hmem : .frame f ∈ packets) (hpayload : f.payload ≠ []) (hs : s ∈ p.completes) :
    s ∈ endedBy [p] (onPid f.pid packets) := by
  have hf : f ∈ payloadFrames (onPid f.pid packets) := by
    refine List.mem_filter.mpr ⟨?_, by simp [hpayload]⟩
    exact List.mem_filterMap.mpr ⟨_, hmem, if_pos rfl⟩
  have hlen : 1 ≤ (payloadFrames (onPid f.pid packets)).length := List.length_pos_of_mem hf
  unfold endedBy
  rw [List.take_of_length_le (by exact hlen), List.flatMap_singleton]
  exact hs

/-! ## One elementary PID alone -/

/-- Packets without payload deliver nothing. -/
theorem flatMap_delivered_payloadFrames {frames : List TsFrame} (hstart : StartsWithPayload frames) :
    (frames.flatMap fun f => delivered f.cargo) =
      ((payloadFrames frames).map TsFrame.cargo).flatMap delivered := by
  induction frames with
  | nil => rfl
  | cons f frames ih =>
    have htail : StartsWithPayload frames := fun g hg => hstart g (List.mem_cons_of_mem _ hg)
    rw [List.flatMap_cons, ih htail]
    by_cases hempty : f.payload = []
    · have hskip : payloadFrames (f :: frames) = payloadFrames frames :=
        List.filter_cons_of_neg (by simp [hempty])
      have hnone : delivered f.cargo = [] := by
        unfold delivered TsFrame.cargo
        rw [hstart f List.mem_cons_self hempty, hempty]
        rfl
      rw [hskip, hnone, List.nil_append]
    · have hkeep : payloadFrames (f :: frames) = f :: payloadFrames frames :=
        List.filter_cons_of_pos (by simp [hempty])
      rw [hkeep, List.map_cons, List.flatMap_cons]

theorem CarriesPes.headerOk {frames : List TsFrame} {packets : List PesPacket}
    (h : CarriesPes frames packets) : ∀ f ∈ frames, HeaderOk f.cargo := by
  intro f hf hstart
  by_cases hempty : f.payload = []
  · rw [show f.cargo.1 = f.payloadUnitStart from rfl, h.starts f hf hempty] at hstart
    exact absurd hstart Bool.false_ne_true
  · apply h.cut.headerOk f.cargo (List.mem_map.mpr ⟨f, ?_, rfl⟩) hstart
    exact List.mem_filter.mpr ⟨hf, by simp [hempty]⟩

/-- The calls for all packets of an elementary PID hand on the data of its PES packets. -/
theorem CarriesPes.dataOf_eq {frames : List TsFrame} {packets : List PesPacket}
    (h : CarriesPes frames packets) :
    dataOf (frames.map fun f => dataCalls (delivered f.cargo)).flatten =
      packets.flatMap PesPacket.data := by
  rw [dataOf_flatten_dataCalls, flatMap_delivered_payloadFrames h.starts, h.cut.delivered_eq]

end Sandstream
