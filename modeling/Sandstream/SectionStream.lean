import Mathlib
import Sandstream.ParserPsi

/-! # Sandstream.SectionStream -- reassembly undoes packetisation

`Packetised` is the layout that ISO 13818-1 prescribes for the sections of one PID: where a section
may start and end, what the payload unit start indicator and the pointer_field say, and where stuffing
may stand. `sectionStream_reassembled` says that `parser_psi_t` gets the sections back from every such
layout, each during the `put` of the packet that completes it.

The parser never reads the value of a pointer_field. `sectionStream_joined` says that a parser which
joins the stream between two sections gets all later ones; `sectionStream_tail_swallows` is a stream
where a parser that joins inside a section loses the next one.
-/

namespace Sandstream

open Sandstream.Lib.Frames
open ParserPsi (sectionFormat sectionLength sectionExtHeaderLength)

/-! ## Sections -/

/-- A section that is long enough for its extended header. -/
structure PsiSection where
  bytes : List UInt8
  length_eq : bytes.length = 3 + sectionLength bytes
  tableId_ne : bytes.head? ≠ some 0xff
  header_le : sectionExtHeaderLength ≤ sectionLength bytes

namespace PsiSection

/-- The bytes from the end of the extended header to the end of the section. -/
def payload (s : PsiSection) : List UInt8 := s.bytes.drop 8

theorem isUnit (s : PsiSection) : sectionFormat.IsUnit s.bytes where
  size_eq := by
    have hlen := s.length_eq
    rw [ParserPsi.size_sectionFormat, if_pos (by omega), hlen]
  unpadded := by
    intro a ha
    refine beq_eq_false_iff_ne.mpr fun heq => s.tableId_ne ?_
    rw [Option.mem_def.mp ha, heq]

theorem length_lt (s : PsiSection) : s.bytes.length < 4099 := by
  have := ParserPsi.sectionLength_lt s.bytes
  rw [s.length_eq]
  omega

end PsiSection

/-- A section of which the first `sent` bytes have been sent, and not all. -/
structure OpenSection where
  whole : PsiSection
  sent : Nat
  sent_pos : 0 < sent
  sent_lt : sent < whole.bytes.length

namespace OpenSection

/-- The bytes sent of the section in progress. -/
def sentBytes : Option OpenSection → List UInt8
  | none => []
  | some o => o.whole.bytes.take o.sent

/-- The bytes still to come of the section in progress. -/
def tail : Option OpenSection → List UInt8
  | none => []
  | some o => o.whole.bytes.drop o.sent

/-- The section in progress. -/
def inProgress : Option OpenSection → List PsiSection
  | none => []
  | some o => [o.whole]

theorem sentBytes_append_tail (o : Option OpenSection) :
    sentBytes o ++ tail o = ((inProgress o).map PsiSection.bytes).flatten := by
  cases o with
  | none => rfl
  | some o => simp [sentBytes, tail, inProgress]

end OpenSection

open OpenSection

/-! ## Packets of sections -/

/-- What a packet of the PID carries: its payload, and which sections start and end in it. -/
structure PsiPacket where
  payloadUnitStart : Bool
  payload : List UInt8
  starts : List PsiSection
  completes : List PsiSection

namespace PsiPacket

/-- The payload sizes a transport packet can have. -/
def Fits (p : PsiPacket) : Prop := 1 ≤ p.payload.length ∧ p.payload.length ≤ 184

instance (p : PsiPacket) : Decidable p.Fits := inferInstanceAs (Decidable (_ ∧ _))

/-- The bytes of whole sections, one behind the other. -/
def sectionBytes (ss : List PsiSection) : List UInt8 := (ss.map PsiSection.bytes).flatten

/-- A packet inside one section: the next `n` bytes of it. -/
def within (o : OpenSection) (n : Nat) : PsiPacket where
  payloadUnitStart := false
  payload := (o.whole.bytes.drop o.sent).take n
  starts := []
  completes := []

/-- A packet that ends the section in progress, if there is one, holds `whole` sections, and begins
`next`. -/
def into (o : Option OpenSection) (whole : List PsiSection) (next : OpenSection) : PsiPacket where
  payloadUnitStart := true
  payload := UInt8.ofNat (tail o).length ::
    (tail o ++ (sectionBytes whole ++ next.whole.bytes.take next.sent))
  starts := whole ++ [next.whole]
  completes := inProgress o ++ whole

/-- A packet that ends with a section and `stuffing` bytes behind it. -/
def ending (o : Option OpenSection) (whole : List PsiSection) (stuffing : Nat) : PsiPacket where
  payloadUnitStart := !whole.isEmpty
  payload := (if whole.isEmpty then [] else [UInt8.ofNat (tail o).length]) ++
    (tail o ++ (sectionBytes whole ++ List.replicate stuffing 0xff))
  starts := whole
  completes := inProgress o ++ whole

end PsiPacket

open PsiPacket (Fits within into ending sectionBytes)

/-- `Packetised o ss ps`: with `o` the section in progress, the packets `ps` carry the rest of it and
then the sections `ss`, and the last one ends with a section. -/
inductive Packetised : Option OpenSection → List PsiSection → List PsiPacket → Prop where
  | done : Packetised none [] []
  | continues {o next : OpenSection} {ss ps} :
      next.whole = o.whole → o.sent < next.sent → Fits (within o (next.sent - o.sent)) →
      Packetised (some next) ss ps →
      Packetised (some o) ss (within o (next.sent - o.sent) :: ps)
  | begins {o whole next ss ps} :
      Fits (into o whole next) → Packetised (some next) ss ps →
      Packetised o (whole ++ next.whole :: ss) (into o whole next :: ps)
  | ends {o whole stuffing ss ps} :
      inProgress o ++ whole ≠ [] → Fits (ending o whole stuffing) → Packetised none ss ps →
      Packetised o (whole ++ ss) (ending o whole stuffing :: ps)

/-- The sections of a layout are those that start in its packets. -/
theorem Packetised.starts_eq {o ss ps} (h : Packetised o ss ps) :
    ps.flatMap PsiPacket.starts = ss := by
  induction h with
  | done => rfl
  | continues _ _ _ _ ih => exact ih
  | begins _ _ ih =>
    rw [List.flatMap_cons, ih]
    exact (List.append_cons _ _ _).symm
  | ends _ _ _ ih =>
    rw [List.flatMap_cons, ih]
    rfl

/-- The section in progress and those that start are the ones that end. -/
theorem Packetised.completes_eq {o ss ps} (h : Packetised o ss ps) :
    ps.flatMap PsiPacket.completes = inProgress o ++ ss := by
  induction h with
  | done => rfl
  | continues hwhole _ _ _ ih =>
    simp only [inProgress, hwhole] at ih ⊢
    exact ih
  | begins _ _ ih =>
    rw [List.flatMap_cons, ih]
    simp only [into, inProgress, List.append_assoc, List.cons_append, List.nil_append]
  | ends _ _ _ ih =>
    rw [List.flatMap_cons, ih]
    simp only [ending, inProgress, List.append_assoc, List.nil_append]

/-! ## One packet -/

/-- The arrival is this packet. -/
structure Carries (a : Arrival) (p : PsiPacket) : Prop where
  pusi_eq : a.packet.payloadUnitStartIndicator = p.payloadUnitStart
  inside : a.packet.payload.ValidIn a.storage
  payload_eq : a.payload = p.payload

theorem Carries.valid {a : Arrival} {p : PsiPacket} (h : Carries a p) (hp : Fits p) : a.Valid where
  inside := h.inside
  nonempty := by
    rw [← ConstBuffer.bytes_length h.inside]
    exact Nat.lt_of_lt_of_eq hp.1 (congrArg List.length h.payload_eq.symm)

/-- The bytes of sections and stuffing in a packet. -/
def PsiPacket.content (p : PsiPacket) : List UInt8 :=
  if p.payloadUnitStart then p.payload.drop 1 else p.payload

theorem Carries.appended_eq {a : Arrival} {p : PsiPacket} (h : Carries a p) :
    ParserPsi.appended a = p.content := by
  rw [ParserPsi.appended, h.pusi_eq, h.payload_eq, PsiPacket.content]

theorem content_into (o : Option OpenSection) (whole : List PsiSection) (next : OpenSection) :
    (into o whole next).content =
      tail o ++ (sectionBytes whole ++ next.whole.bytes.take next.sent) := rfl

theorem content_ending (o : Option OpenSection) (whole : List PsiSection) (stuffing : Nat) :
    (ending o whole stuffing).content =
      tail o ++ (sectionBytes whole ++ List.replicate stuffing 0xff) := by
  cases whole <;> rfl

theorem sent_append_sections (o : Option OpenSection) (whole : List PsiSection) (t : List UInt8) :
    sentBytes o ++ (tail o ++ (sectionBytes whole ++ t)) =
      ((inProgress o ++ whole).map PsiSection.bytes).flatten ++ t := by
  rw [← List.append_assoc, sentBytes_append_tail, sectionBytes, List.map_append,
    List.flatten_append, List.append_assoc]

theorem isUnit_bytes (ss : List PsiSection) :
    ∀ u ∈ ss.map PsiSection.bytes, sectionFormat.IsUnit u := by
  intro u hu
  obtain ⟨s, -, rfl⟩ := List.mem_map.mp hu
  exact s.isUnit

/-- **The step of the simulation.** From the sent part of the section in progress, a packet of a
layout completes its sections and leaves the sent part of the next one in progress. -/
theorem Packetised.step {o ss p ps} (h : Packetised o ss (p :: ps)) :
    ∃ o' ss', Packetised o' ss' ps ∧ Fits p ∧
      inProgress o ++ p.starts = p.completes ++ inProgress o' ∧
      sectionFormat.units (sentBytes o ++ p.content) = p.completes.map PsiSection.bytes ∧
      sectionFormat.rest (sentBytes o ++ p.content) = sentBytes o' := by
  cases h with
  | @continues o next _ _ hwhole hlt hfits hps =>
    -- more of the same section, still not all of it
    have hlen : o.sent + (next.sent - o.sent) = next.sent := by omega
    have hbytes : sentBytes (some o) ++ (within o (next.sent - o.sent)).content =
        next.whole.bytes.take next.sent := by
      show o.whole.bytes.take o.sent ++ (o.whole.bytes.drop o.sent).take (next.sent - o.sent) = _
      rw [← List.take_add, hlen, hwhole]
    have hcut := next.whole.isUnit.complete_take next.sent_lt
    refine ⟨some next, ss, hps, hfits, ?_, ?_, ?_⟩
    · simp only [within, inProgress, hwhole, List.append_nil, List.nil_append]
    · rw [hbytes, Format.units_of_incomplete _ hcut]
      rfl
    · rw [hbytes, Format.rest_of_incomplete _ hcut]
      rfl
  | @begins _ whole next ss _ hfits hps =>
    have hbytes := sent_append_sections o whole (next.whole.bytes.take next.sent)
    obtain ⟨hunits, hrest⟩ := Format.units_flatten_take (isUnit_bytes (inProgress o ++ whole))
      next.whole.isUnit next.sent_pos next.sent_lt
    refine ⟨some next, ss, hps, hfits, ?_, ?_, ?_⟩
    · simp only [into, inProgress, List.append_assoc]
    · rw [content_into, hbytes, hunits]
      rfl
    · rw [content_into, hbytes, hrest]
      rfl
  | @ends _ whole stuffing ss _ hne hfits hps =>
    have hbytes := sent_append_sections o whole (List.replicate stuffing 0xff)
    have hpadding : ∀ a ∈ List.replicate stuffing (0xff : UInt8),
        sectionFormat.padding a = true := by
      intro a ha
      rw [List.eq_of_mem_replicate ha]
      rfl
    obtain ⟨hunits, hrest⟩ := Format.units_flatten_padding (isUnit_bytes (inProgress o ++ whole))
      (by simpa using hne) hpadding
    refine ⟨none, ss, hps, hfits, ?_, ?_, ?_⟩
    · simp only [ending, inProgress, List.append_nil]
    · rw [content_ending, hbytes, hunits]
      rfl
    · rw [content_ending, hbytes, hrest]
      rfl

/-! ## One `put` -/

/-- A call of `on_payload`: the suffix of `section_data` that it points at, and a size. -/
structure PayloadCall where
  data : List UInt8
  available : Nat
  deriving Repr, DecidableEq

/-- The bytes a call denotes, if they lie inside `section_data`. -/
def PayloadCall.slice (c : PayloadCall) : Option (List UInt8) :=
  if c.available ≤ c.data.length then some (c.data.take c.available) else none

/-- The `on_payload` of the unit tests' mock: it records its calls. -/
def recordCall (data : List UInt8) (available : Nat) (calls : List PayloadCall) :
    Exec (List PayloadCall) :=
  .ok (calls ++ [⟨data, available⟩])

/-- The call for the section at the front of `t`. -/
def callOf (t : List UInt8) : PayloadCall :=
  ⟨t.drop 8, sizeSub (sectionLength t) sectionExtHeaderLength⟩

theorem foldlM_recordCall (heads : List (List UInt8)) (calls : List PayloadCall) :
    heads.foldlM (ParserPsi.visit recordCall) calls = .ok (calls ++ heads.map callOf) := by
  induction heads generalizing calls with
  | nil => simp only [List.foldlM_nil, List.map_nil, List.append_nil]; rfl
  | cons t heads ih =>
    rw [List.foldlM_cons, ParserPsi.visit, recordCall, ok_bind, ih, List.map_cons,
      List.append_assoc]
    rfl

/-- A call for a section that holds an extended header denotes the payload of the section. -/
theorem slice_callOf {t : List UInt8} {n : Nat} (hn : sectionFormat.complete t = some n)
    (hext : 8 ≤ n) : (callOf t).slice = some ((t.take n).drop 8) := by
  obtain ⟨hsize, hinside, hbytes⟩ := ParserPsi.payload_of_complete hn hext
  rw [callOf, PayloadCall.slice, hsize, if_pos hinside, hbytes]

/-- The calls of one `put` denote the payloads of the complete sections. -/
theorem slices_heads (buffer : List UInt8)
    (hext : ∀ u ∈ sectionFormat.units buffer, 8 ≤ u.length) :
    (sectionFormat.heads buffer).map (fun t => (callOf t).slice) =
      (sectionFormat.units buffer).map fun u => some (u.drop 8) := by
  induction buffer using sectionFormat.unit_induction with
  | stop t h => rw [Format.heads_of_incomplete _ h, Format.units_of_incomplete _ h]; rfl
  | unit t n h ih =>
    rw [Format.units_of_complete _ h] at hext ⊢
    have hle := (ParserPsi.complete_sectionFormat_iff.mp h).2
    have hn : 8 ≤ n := by
      have := hext _ List.mem_cons_self
      rw [List.length_take] at this
      omega
    rw [Format.heads_of_complete _ h, List.map_cons, List.map_cons, slice_callOf h hn,
      ih fun u hu => hext u (List.mem_cons_of_mem _ hu)]

/-- One `put` into the parser with the recording `on_payload`. -/
theorem put_recordCall (sectionData : List UInt8) {a : Arrival} (ha : a.Readable)
    (hsize : (sectionData ++ ParserPsi.appended a).length + 8 < 2 ^ 64) :
    ParserPsi.put recordCall sectionData a [] =
      .ok (sectionFormat.rest (sectionData ++ ParserPsi.appended a),
        (sectionFormat.heads (sectionData ++ ParserPsi.appended a)).map callOf) := by
  rw [ParserPsi.put_eq recordCall ha hsize, foldlM_recordCall, ok_bind, List.nil_append]
  rfl

/-! ## Whole streams -/

/-- `put` one packet after the other: the final `section_data`, and the calls made in each `put`. -/
def putAll (sectionData : List UInt8) : List Arrival → Exec (List UInt8 × List (List PayloadCall))
  | [] => .ok (sectionData, [])
  | a :: arrivals => do
    let (sectionData, calls) ← ParserPsi.put recordCall sectionData a []
    let (sectionData, later) ← putAll sectionData arrivals
    return (sectionData, calls :: later)

/-- The calls of each `put` denote the payloads of the sections that end in its packet, and no bytes
are left at the end. -/
def Reassembles (packets : List PsiPacket) (result : List UInt8 × List (List PayloadCall)) : Prop :=
  result.2.map (fun calls => calls.map PayloadCall.slice) =
      packets.map (fun p => p.completes.map fun s => some s.payload) ∧
    result.1 = []

theorem sentBytes_length_lt (o : Option OpenSection) : (sentBytes o).length < 4099 := by
  cases o with
  | none => decide
  | some o =>
    have := o.whole.length_lt
    rw [sentBytes, List.length_take]
    omega

theorem content_length_le {p : PsiPacket} (h : Fits p) : p.content.length ≤ 184 := by
  have := h.2
  rw [PsiPacket.content]
  split_ifs
  · rw [List.length_drop]
    omega
  · exact this

/-- The run lemma: from the sent part of the section in progress to the end of the layout. -/
theorem putAll_packetised {o ss ps} (h : Packetised o ss ps) {arrivals : List Arrival}
    (hcarry : List.Forall₂ Carries arrivals ps) :
    Returns (putAll (sentBytes o) arrivals) (Reassembles ps) := by
  induction hcarry generalizing o ss with
  | nil =>
    cases h
    simp only [putAll, returns_ok]
    exact ⟨rfl, rfl⟩
  | @cons a p arrivals ps hap _ ih =>
    obtain ⟨o', ss', hps, hfits, -, hunits, hrest⟩ := h.step
    have hsent := sentBytes_length_lt o
    have hcontent := content_length_le hfits
    have hput := put_recordCall (sentBytes o) (hap.valid hfits).readable (by
      rw [hap.appended_eq, List.length_append]
      omega)
    -- the sections of a layout are long enough for their extended header
    have hext : ∀ u ∈ sectionFormat.units (sentBytes o ++ p.content), 8 ≤ u.length := by
      intro u hu
      rw [hunits] at hu
      obtain ⟨s, -, rfl⟩ := List.mem_map.mp hu
      have := s.header_le
      rw [s.length_eq]
      simp only [sectionExtHeaderLength] at this
      omega
    have hslices := slices_heads _ hext
    rw [hap.appended_eq, hrest] at hput
    rw [hunits, List.map_map] at hslices
    obtain ⟨⟨final, later⟩, hlater, hpost⟩ := returns_iff.mp (ih hps)
    obtain ⟨hcalls, hempty⟩ := hpost
    simp only [putAll, hput, ok_bind, hlater]
    refine returns_ok.mpr ⟨?_, hempty⟩
    rw [List.map_cons, List.map_cons, hcalls, List.map_map]
    exact congrArg (· :: _) hslices

/-- **Reassembly undoes packetisation.** However a list of sections is laid out in packets, a fresh
parser calls `on_payload` once for each section, in order and during the `put` of the packet that
completes it, with the bytes behind its extended header, and ends with empty `section_data`. -/
theorem sectionStream_reassembled {ss : List PsiSection} {ps : List PsiPacket}
    {arrivals : List Arrival} (h : Packetised none ss ps)
    (hcarry : List.Forall₂ Carries arrivals ps) :
    Returns (putAll [] arrivals) (Reassembles ps) ∧ ps.flatMap PsiPacket.completes = ss :=
  ⟨putAll_packetised h hcarry, h.completes_eq⟩

/-- The PAT section of the unit tests. -/
def patSection : PsiSection where
  bytes := [0x00, 0xb0, 0x0d, 0x41, 0x57, 0xc1, 0x01, 0x01, 0x41, 0x57, 0xe0, 0x20,
    0x9d, 0xe6, 0x30, 0x91]
  length_eq := by decide
  tableId_ne := by decide
  header_le := by decide

/-- Its first ten bytes have been sent. -/
def patSectionBegun : OpenSection := ⟨patSection, 10, by decide, by decide⟩

/-- The packet alone in a storage of its own. -/
def PsiPacket.arrival (p : PsiPacket) : Arrival :=
  ⟨p.payload, ⟨0, p.payloadUnitStart, ⟨0, p.payload.length⟩⟩⟩

theorem carries_arrival (ps : List PsiPacket) :
    List.Forall₂ Carries (ps.map PsiPacket.arrival) ps := by
  induction ps with
  | nil => exact .nil
  | cons p ps ih =>
    refine .cons ⟨rfl, ?_, Sandstream.Lib.Window.window_full _⟩ ih
    exact (Nat.zero_add _).le

/-- A section split over two packets, the second of which holds another one and two stuffing bytes. -/
def splitPackets : List PsiPacket :=
  [into none [] patSectionBegun, ending (some patSectionBegun) [patSection] 2]

theorem packetised_splitPackets : Packetised none [patSection, patSection] splitPackets :=
  have hfirst : Fits (into none [] patSectionBegun) := by decide
  have hsecond : Fits (ending (some patSectionBegun) [patSection] 2) := by decide
  .begins hfirst (.ends (List.cons_ne_nil _ _) hsecond .done)

theorem sectionStream_splitPackets :
    Returns (putAll [] (splitPackets.map PsiPacket.arrival)) (Reassembles splitPackets) ∧
      splitPackets.flatMap PsiPacket.completes = [patSection, patSection] :=
  sectionStream_reassembled packetised_splitPackets (carries_arrival _)

/-! ## Joining a stream -/

/-- Behind any packet of a layout the rest is a layout again. -/
theorem Packetised.suffix {before after : List PsiPacket} {o ss}
    (h : Packetised o ss (before ++ after)) :
    ∃ o' ss', Packetised o' ss' after ∧
      inProgress o ++ before.flatMap PsiPacket.starts =
        before.flatMap PsiPacket.completes ++ inProgress o' := by
  induction before generalizing o ss with
  | nil => exact ⟨o, ss, h, by simp only [List.flatMap_nil, List.append_nil, List.nil_append]⟩
  | cons p before ih =>
    obtain ⟨o₁, ss₁, hps, -, hstep, -, -⟩ := h.step
    obtain ⟨o', ss', hafter, hrun⟩ := ih hps
    refine ⟨o', ss', hafter, ?_⟩
    rw [List.flatMap_cons, List.flatMap_cons, ← List.append_assoc, hstep, List.append_assoc, hrun,
      List.append_assoc]

/-- All calls together denote the payloads of the sections that start in the packets, in order. -/
def DeliversStarted (packets : List PsiPacket)
    (result : List UInt8 × List (List PayloadCall)) : Prop :=
  result.2.flatten.map PayloadCall.slice =
    (packets.flatMap PsiPacket.starts).map fun s => some s.payload

/-- **Joining between two sections.** A fresh parser that gets the packets of a layout only from some
point on, where every section that had started has also ended, delivers exactly the sections that
start from there on, in order. -/
theorem sectionStream_joined {ss : List PsiSection} {before after : List PsiPacket}
    {arrivals : List Arrival} (h : Packetised none ss (before ++ after))
    (hjoin : before.flatMap PsiPacket.starts = before.flatMap PsiPacket.completes)
    (hcarry : List.Forall₂ Carries arrivals after) :
    Returns (putAll [] arrivals) (DeliversStarted after) := by
  obtain ⟨o, ss', hafter, hrun⟩ := h.suffix
  -- a section in progress would have started without ending
  have hnone : o = none := by
    cases o with
    | none => rfl
    | some o =>
      rw [hjoin] at hrun
      simp [inProgress] at hrun
  subst hnone
  refine (putAll_packetised hafter hcarry).mono fun result hresult => ?_
  have hcompletes := hafter.completes_eq
  rw [inProgress, List.nil_append, List.flatMap_def] at hcompletes
  rw [DeliversStarted, List.map_flatten, hresult.1, hafter.starts_eq, ← hcompletes,
    List.map_flatten, List.map_map]
  rfl

theorem sectionStream_joined_splitPackets :
    Returns (putAll [] ([ending none [patSection] 2].map PsiPacket.arrival))
      (DeliversStarted [ending none [patSection] 2]) := by
  have hfits : Fits (ending none [patSection] 2) := by decide
  have h : Packetised none ([patSection] ++ ([patSection] ++ []))
      ([ending none [patSection] 2] ++ [ending none [patSection] 2]) :=
    .ends (List.cons_ne_nil _ _) hfits (.ends (List.cons_ne_nil _ _) hfits .done)
  exact sectionStream_joined h rfl (carries_arrival _)

/-- The last six bytes of a section whose start was missed are taken for the header of 157 more:
the section behind them, which the parser gets in full, is not delivered. -/
theorem sectionStream_tail_swallows :
    ¬ ∀ (ss : List PsiSection) (before after : List PsiPacket) (arrivals : List Arrival),
      (∀ s ∈ ss, 9 ≤ sectionLength s.bytes) → Packetised none ss (before ++ after) →
        List.Forall₂ Carries arrivals after →
        Returns (putAll [] arrivals) (DeliversStarted after) := by
  intro hclaim
  have hswallowed : ¬ Returns
      (putAll [] ([ending (some patSectionBegun) [patSection] 2].map PsiPacket.arrival)) fun result =>
        result.2.flatten.map PayloadCall.slice = [some patSection.payload] := by
    decide
  have hlong : ∀ s ∈ [patSection, patSection], 9 ≤ sectionLength s.bytes := by
    simp only [List.mem_cons, List.not_mem_nil, or_false, or_self, forall_eq]
    decide
  exact hswallowed (hclaim _ [into none [] patSectionBegun] _ _ hlong packetised_splitPackets
    (carries_arrival _))

end Sandstream
