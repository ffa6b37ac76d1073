import Mathlib
import Sandstream.SectionStream

/-! # Sandstream.SectionBounds -- `parser_psi_t::put` on any bytes

`put_conserves` holds for whatever `section_data` and a packet hold: the loop ends, the bytes are cut
into sections, the padding behind them and an incomplete rest, and `on_payload` is called for each of
the sections. `puts_inside_iff` says when the two unchecked subtractions of `put` and the ranges it
hands to `on_payload` are what they should be.
-/

namespace Sandstream

open Sandstream.Lib.Frames
open Sandstream.Lib.Frames.Format (join)
open PsiPacket (ending)
open ParserPsi (sectionFormat sectionLength sectionExtHeaderLength appended)

/-! ## Conservation -/

/-- Bytes that a `std::vector` can hold. -/
def Holdable (bytes : List UInt8) : Prop := bytes.length < 2 ^ 63

instance (bytes : List UInt8) : Decidable (Holdable bytes) := inferInstanceAs (Decidable (_ < _))

/-- The calls of `on_payload` for sections with the padding behind them, where `rest` follows the last
of them in `section_data`. -/
def payloadCalls (rest : List UInt8) : List (List UInt8 × List UInt8) → List PayloadCall
  | [] => []
  | p :: ps =>
    ⟨(join (p :: ps) rest).drop 8, sizeSub (sectionLength p.1) sectionExtHeaderLength⟩ ::
      payloadCalls rest ps

/-- `buffer` is cut into sections, each with the padding behind it, and a rest. -/
structure Conserves (buffer : List UInt8) (sections : List (List UInt8 × List UInt8))
    (rest : List UInt8) : Prop where
  conserved : join sections rest = buffer
  sized : ∀ p ∈ sections, p.1.length = 3 + sectionLength p.1
  /-- the padding is the longest run of 0xFF -/
  padded : ∀ before p after, sections = before ++ p :: after →
    p.2 = (p.2 ++ join after rest).takeWhile (· == 0xff)
  incomplete : rest.length < 3 ∨ rest.length < 3 + sectionLength rest
  /-- nothing is dropped before a section is complete -/
  kept : buffer.length < 3 + sectionLength buffer → sections = [] ∧ rest = buffer

theorem map_callOf_heads (s : List UInt8) :
    (sectionFormat.heads s).map callOf = payloadCalls (sectionFormat.rest s) (sectionFormat.parts s) := by
  induction s using sectionFormat.unit_induction with
  | stop s h =>
    rw [Format.heads_of_incomplete _ h, Format.parts_of_incomplete _ h]
    rfl
  | unit s n h ih =>
    have hjoin := sectionFormat.join_parts s
    rw [Format.parts_of_complete _ h, Format.rest_of_complete _ h] at hjoin
    rw [Format.heads_of_complete _ h, Format.parts_of_complete _ h, Format.rest_of_complete _ h,
      List.map_cons, ih, payloadCalls, hjoin, ParserPsi.sectionLength_take h]
    rfl

theorem conserves_parts (buffer : List UInt8) :
    Conserves buffer (sectionFormat.parts buffer) (sectionFormat.rest buffer) where
  conserved := sectionFormat.join_parts buffer
  sized := by
    intro p hp
    have hmem : p.1 ∈ sectionFormat.units buffer := by
      rw [← Format.map_fst_parts]
      exact List.mem_map_of_mem hp
    exact ParserPsi.length_of_mem_units hmem
  padded := fun _ _ _ h => sectionFormat.padding_maximal h
  incomplete :=
    Or.inr (ParserPsi.complete_sectionFormat_eq_none_iff.mp (sectionFormat.complete_rest buffer))
  kept := by
    intro hshort
    have hnone := ParserPsi.complete_sectionFormat_eq_none_iff.mpr hshort
    exact ⟨Format.parts_of_incomplete _ hnone, Format.rest_of_incomplete _ hnone⟩

section Calls

variable {σ : Type} (onPayload : List UInt8 → Nat → σ → Exec σ)

/-- Making several calls of `on_payload`. -/
def callAll (calls : List PayloadCall) (s : σ) : Exec σ :=
  calls.foldlM (fun s c => onPayload c.data c.available s) s

theorem foldlM_visit (heads : List (List UInt8)) (s : σ) :
    heads.foldlM (ParserPsi.visit onPayload) s = callAll onPayload (heads.map callOf) s := by
  unfold callAll
  rw [List.foldlM_map]
  rfl

theorem callAll_append (calls later : List PayloadCall) (s : σ) :
    callAll onPayload (calls ++ later) s =
      (do callAll onPayload later (← callAll onPayload calls s)) := by
  unfold callAll
  rw [List.foldlM_append]

/-- `put` one packet after the other. -/
def putRun (r : List UInt8 × σ) (arrivals : List Arrival) : Exec (List UInt8 × σ) :=
  arrivals.foldlM (fun r a => ParserPsi.put onPayload r.1 a r.2) r

/-- One `put`, with the calls it makes. -/
theorem put_eq_callAll {sectionData : List UInt8} {a : Arrival} (ha : a.Readable)
    (hsize : (sectionData ++ appended a).length + 8 < 2 ^ 64) (s : σ) :
    ParserPsi.put onPayload sectionData a s = (do
      let calls := (sectionFormat.heads (sectionData ++ appended a)).map callOf
      return (sectionFormat.rest (sectionData ++ appended a), ← callAll onPayload calls s)) := by
  rw [ParserPsi.put_eq onPayload ha hsize, foldlM_visit]

end Calls

/-- The run lemma: what is kept and which calls are made does not depend on `on_payload`, and what is
kept stays shorter than the longest section. -/
theorem putRun_eq_callAll {arrivals : List Arrival} (hread : ∀ a ∈ arrivals, a.Readable)
    (haddr : ∀ a ∈ arrivals, a.Addressable) {sectionData : List UInt8}
    (hbound : sectionData.length < 4098) :
    ∃ rest calls, rest.length < 4098 ∧
      ∀ (σ : Type) (onPayload : List UInt8 → Nat → σ → Exec σ) (s : σ),
        putRun onPayload (sectionData, s) arrivals = (do return (rest, ← callAll onPayload calls s)) := by
  induction arrivals generalizing sectionData with
  | nil => exact ⟨sectionData, [], hbound, fun _ _ _ => rfl⟩
  | cons a arrivals ih =>
    obtain ⟨hread, hreadLater⟩ := List.forall_mem_cons.mp hread
    obtain ⟨haddr, haddrLater⟩ := List.forall_mem_cons.mp haddr
    have hsize := ParserPsi.buffer_lt hbound haddr
    obtain ⟨rest, later, hrest, hlater⟩ := ih hreadLater haddrLater
      (ParserPsi.rest_sectionFormat_length_lt (sectionData ++ appended a))
    refine ⟨rest, (sectionFormat.heads (sectionData ++ appended a)).map callOf ++ later, hrest, ?_⟩
    intro σ onPayload s
    unfold putRun
    rw [List.foldlM_cons, put_eq_callAll onPayload hread hsize, callAll_append]
    simp only [bind_assoc, pure_bind]
    exact bind_congr fun s' => hlater σ onPayload s'

/-- **`put` conserves bytes and terminates.** For every `section_data` and every packet whose payload
can be read, the loop ends, at a position inside the vector; what it passed over are sections with
their padding, each of which got one call of `on_payload`, and the rest is kept. After any number of
`put`s the vector holds at most 4097 bytes. -/
theorem put_conserves :
    (∀ (sectionData : List UInt8) (a : Arrival), a.Readable → Holdable (sectionData ++ appended a) →
      ∃ sections rest consumed, Conserves (sectionData ++ appended a) sections rest ∧
        consumed + rest.length = (sectionData ++ appended a).length ∧
        ∀ (σ : Type) (onPayload : List UInt8 → Nat → σ → Exec σ) (s : σ),
          ParserPsi.parseLoop onPayload (sectionData ++ appended a)
              ((sectionData ++ appended a).length + 1) 0 s =
            (do return (consumed, ← callAll onPayload (payloadCalls rest sections) s)) ∧
          ParserPsi.put onPayload sectionData a s =
            (do return (rest, ← callAll onPayload (payloadCalls rest sections) s))) ∧
    ∀ arrivals : List Arrival, (∀ a ∈ arrivals, a.Readable) → (∀ a ∈ arrivals, a.Addressable) →
      ∃ rest calls, rest.length ≤ 4097 ∧
        ∀ (σ : Type) (onPayload : List UInt8 → Nat → σ → Exec σ) (s : σ),
          putRun onPayload ([], s) arrivals = (do return (rest, ← callAll onPayload calls s)) := by
  constructor
  · intro sectionData a hread hhold
    unfold Holdable at hhold
    have hsize : (sectionData ++ appended a).length + 8 < 2 ^ 64 := by omega
    set buffer := sectionData ++ appended a
    have hrest := (sectionFormat.rest_suffix buffer).length_le
    refine ⟨sectionFormat.parts buffer, sectionFormat.rest buffer,
      buffer.length - (sectionFormat.rest buffer).length, conserves_parts buffer, by omega, ?_⟩
    intro σ onPayload s
    rw [← map_callOf_heads]
    refine ⟨?_, put_eq_callAll onPayload hread hsize s⟩
    rw [ParserPsi.parseLoop_eq onPayload (t := buffer) List.drop_zero (Nat.zero_le _) hsize
      (Nat.lt_succ_self _), foldlM_visit]
  · intro arrivals hread haddr
    have hempty : ([] : List UInt8).length < 4098 := by decide
    obtain ⟨rest, calls, hrest, hputs⟩ := putRun_eq_callAll hread haddr hempty
    exact ⟨rest, calls, Nat.le_of_lt_succ hrest, hputs⟩

/-- A whole section with two stuffing bytes behind it. -/
def paddedPacket : PsiPacket := ending none [patSection] 2

theorem put_conserves_paddedPacket :
    (∃ sections rest consumed, Conserves (appended paddedPacket.arrival) sections rest ∧
      consumed + rest.length = (appended paddedPacket.arrival).length ∧
      ParserPsi.put recordCall [] paddedPacket.arrival [] =
        (do return (rest, ← callAll recordCall (payloadCalls rest sections) []))) ∧
    ∃ rest calls, rest.length ≤ 4097 ∧
      putRun recordCall ([], []) [paddedPacket.arrival] =
        (do return (rest, ← callAll recordCall calls [])) := by
  have hread : paddedPacket.arrival.Readable := ⟨by decide, by decide⟩
  have haddr : paddedPacket.arrival.Addressable := by decide
  have hhold : Holdable (appended paddedPacket.arrival) := by decide
  obtain ⟨sections, rest, consumed, hconserves, hconsumed, hput⟩ :=
    put_conserves.1 [] paddedPacket.arrival hread hhold
  obtain ⟨rest', calls, hrest, hputs⟩ := put_conserves.2 [paddedPacket.arrival]
    (List.forall_mem_singleton.mpr hread) (List.forall_mem_singleton.mpr haddr)
  exact ⟨⟨sections, rest, consumed, hconserves, hconsumed, (hput _ recordCall []).2⟩,
    rest', calls, hrest, hputs _ recordCall []⟩

/-! ## Short sections and empty payloads -/

/-- The call is for the section `u` of `buffer`: it denotes the bytes of `u` from the ninth on. -/
structure CallInside (buffer : List UInt8) (c : PayloadCall) (u : List UInt8) : Prop where
  /-- the subtraction of the extended header does not wrap -/
  unwrapped : c.available + sectionExtHeaderLength = sectionLength u
  inside : ∃ before after, before ++ (u ++ after) = buffer ∧ c.data = (u ++ after).drop 8 ∧
    8 + c.available = u.length

/-- No subtraction of a run wraps, and every call lies inside the section it is made for. -/
def InsideRun (sectionData : List UInt8) : List Arrival → Prop
  | [] => True
  | a :: arrivals =>
    (a.packet.payloadUnitStartIndicator = true → 1 ≤ a.packet.payload.size) ∧
      Returns (ParserPsi.put recordCall sectionData a []) fun r =>
        List.Forall₂ (CallInside (sectionData ++ appended a)) r.2
          (sectionFormat.units (sectionData ++ appended a)) ∧
        InsideRun r.1 arrivals

/-- A packet that announces a pointer_field holds one, and no section that is complete with it is too
short for the extended header. -/
def Enough (sectionData : List UInt8) (a : Arrival) : Prop :=
  (a.packet.payloadUnitStartIndicator = true → 1 ≤ a.packet.payload.size) ∧
    ∀ u ∈ sectionFormat.units (sectionData ++ appended a), sectionExtHeaderLength ≤ sectionLength u

instance (sectionData : List UInt8) (a : Arrival) : Decidable (Enough sectionData a) :=
  inferInstanceAs (Decidable (_ ∧ _))

/-- Every packet of a run is one with enough bytes, for the bytes that are kept before it. -/
def EnoughRun (sectionData : List UInt8) : List Arrival → Prop
  | [] => True
  | a :: arrivals =>
    Enough sectionData a ∧ EnoughRun (sectionFormat.rest (sectionData ++ appended a)) arrivals

theorem callInside_iff {buffer t : List UInt8} (ht : t ∈ sectionFormat.heads buffer) :
    CallInside buffer (callOf t) (t.take ((sectionFormat.size t).getD 0)) ↔
      sectionExtHeaderLength ≤ sectionLength (t.take ((sectionFormat.size t).getD 0)) := by
  obtain ⟨⟨before, hbefore⟩, n, hn⟩ := sectionFormat.of_mem_heads ht
  obtain ⟨hnL, hle⟩ := ParserPsi.complete_sectionFormat_iff.mp hn
  have hlen : (t.take n).length = n := List.length_take_of_le hle
  have havailable : (callOf t).available = sizeSub (sectionLength t) 5 := rfl
  rw [((Format.complete_eq_some_iff _).mp hn).1, Option.getD_some, ParserPsi.sectionLength_take hn]
  simp only [sectionExtHeaderLength]
  constructor
  · intro h
    have hunwrapped := h.unwrapped
    rw [ParserPsi.sectionLength_take hn] at hunwrapped
    simp only [sectionExtHeaderLength] at hunwrapped
    omega
  · intro hL
    rw [sizeSub_of_le hL] at havailable
    refine ⟨?_, before, t.drop n, ?_, ?_, ?_⟩
    · rw [ParserPsi.sectionLength_take hn]
      simp only [sectionExtHeaderLength]
      omega
    · rw [List.take_append_drop, hbefore]
    · rw [List.take_append_drop]
      rfl
    · omega

theorem insideRun_iff {arrivals : List Arrival}
    (hvalid : ∀ a ∈ arrivals, a.packet.payload.ValidIn a.storage)
    (haddr : ∀ a ∈ arrivals, a.Addressable) {sectionData : List UInt8}
    (hbound : sectionData.length < 4098) :
    InsideRun sectionData arrivals ↔ EnoughRun sectionData arrivals := by
  induction arrivals generalizing sectionData with
  | nil => exact Iff.rfl
  | cons a arrivals ih =>
    obtain ⟨hvalid, hvalidLater⟩ := List.forall_mem_cons.mp hvalid
    obtain ⟨haddr, haddrLater⟩ := List.forall_mem_cons.mp haddr
    have hsize := ParserPsi.buffer_lt hbound haddr
    have hlater := ih hvalidLater haddrLater
      (ParserPsi.rest_sectionFormat_length_lt (sectionData ++ appended a))
    unfold InsideRun EnoughRun Enough
    rw [and_assoc]
    apply and_congr_right
    intro hpointer
    have hread : a.Readable := ⟨hvalid, hpointer⟩
    rw [put_recordCall sectionData hread hsize, returns_ok, hlater]
    apply and_congr_left
    intro _
    unfold Format.units
    rw [List.forall₂_map_left_iff, List.forall₂_map_right_iff, List.forall₂_same,
      List.forall_mem_map]
    exact forall₂_congr fun t ht => callInside_iff ht

/-- **When `put` stays inside.** In a run from a fresh parser no subtraction wraps and every call lies
inside its section exactly if every packet with the start indicator has a byte of payload and no
section that completes has a section_length below 5. -/
theorem puts_inside_iff (arrivals : List Arrival)
    (hvalid : ∀ a ∈ arrivals, a.packet.payload.ValidIn a.storage)
    (haddr : ∀ a ∈ arrivals, a.Addressable) :
    InsideRun [] arrivals ↔ EnoughRun [] arrivals :=
  insideRun_iff hvalid haddr (by decide)

theorem puts_inside_splitPackets : InsideRun [] (splitPackets.map PsiPacket.arrival) := by
  have henough : EnoughRun [] (splitPackets.map PsiPacket.arrival) :=
    ⟨by decide, by decide, trivial⟩
  exact (puts_inside_iff _ (by decide) (by decide)).mpr henough

/-- A packet that is all header and adaptation field, with the start indicator set. -/
def emptyStart : Arrival := ⟨List.replicate 188 0xff, ⟨0, true, ⟨188, 0⟩⟩⟩

/-- A packet with a pointer_field and a section of section_length 0. -/
def shortSection : Arrival := ⟨[0x00, 0x00, 0x00, 0x00], ⟨0, true, ⟨0, 4⟩⟩⟩

/-- The size of an empty payload wraps when the pointer_field is taken off, and the size that a section
of section_length 0 is handed over with wraps when the extended header is. -/
theorem puts_wrap :
    (∀ a ∈ [emptyStart, shortSection], a.packet.payload.ValidIn a.storage ∧ a.Addressable) ∧
      ¬ InsideRun [] [emptyStart] ∧ ¬ InsideRun [] [shortSection] := by
  have hvalid : ∀ a ∈ [emptyStart, shortSection],
      a.packet.payload.ValidIn a.storage ∧ a.Addressable := by decide +kernel
  have hinside : ∀ a ∈ [emptyStart, shortSection], ¬ Enough [] a → ¬ InsideRun [] [a] := by
    intro a ha hshort hrun
    rw [insideRun_iff (List.forall_mem_singleton.mpr (hvalid a ha).1)
      (List.forall_mem_singleton.mpr (hvalid a ha).2) (by decide)] at hrun
    exact hshort hrun.1
  have hempty : ¬ Enough [] emptyStart := by decide
  have hshort : ¬ Enough [] shortSection := by decide
  exact ⟨hvalid, hinside _ List.mem_cons_self hempty,
    hinside _ (List.mem_cons_of_mem _ List.mem_cons_self) hshort⟩

end Sandstream
