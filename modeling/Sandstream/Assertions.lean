import Mathlib
import Sandstream.Demuxer
import Sandstream.Lib.Runs

/-! # Sandstream.Assertions -- which packets fail an assertion of the demuxer

The only assertions behind the packet constructor are the two `assert(false)` of
`parser_pes_t::try_parse_header`, which stand for the eight stream ids without an optional header.
`consumePacket_assertion_iff` says which packets reach them: those that start a PES packet with such a
stream id, on a PID that has a PES parser. The section parsers never fail an assertion, whatever they
read.
-/

namespace Sandstream

open ParserPes (HasOptionalHeader)

variable {α β σ κ φ : Type}

/-! ## Executions that fail no assertion -/

/-- The execution does not end with a failed assertion. -/
def AssertFree (x : Exec α) : Prop := x ≠ .error .assertion

/-- An execution that returns fails no assertion. -/
theorem assertFree_ok (a : α) : AssertFree (.ok a) := fun h => nomatch h

/-- Nor does one that ends with another fault. -/
theorem assertFree_error {e : Fault} (he : e ≠ .assertion) : AssertFree (.error e : Exec α) :=
  fun h => he (Except.error.inj h)

/-- Two executions one after the other. -/
theorem AssertFree.bind {x : Exec α} {f : α → Exec β} (hx : AssertFree x)
    (hf : ∀ a, AssertFree (f a)) : AssertFree (x >>= f) := by
  cases x with
  | ok a => exact hf a
  | error e =>
    intro h
    rw [error_bind, Except.error.injEq] at h
    exact hx (congrArg _ h)

/-- Where nothing fails behind it, the first part has failed. -/
theorem assertion_bind_iff {x : Exec α} {f : α → Exec β} (hf : ∀ a, AssertFree (f a)) :
    x >>= f = .error .assertion ↔ x = .error .assertion := by
  constructor
  · intro h
    by_contra hx
    exact AssertFree.bind hx hf h
  · rintro rfl
    rfl

/-- Either of two executions. -/
theorem AssertFree.ite {c : Prop} [Decidable c] {x y : Exec α} (hx : AssertFree x)
    (hy : AssertFree y) : AssertFree (if c then x else y) := by
  split
  · exact hx
  · exact hy

/-! ## Reads and section parsers -/

/-- A read can only leave the memory. -/
theorem assertFree_load (data : List UInt8) (i : Nat) : AssertFree (load data i) := by
  unfold load
  split
  · exact assertFree_ok _
  · exact assertFree_error (by decide)

/-- Two reads. -/
theorem assertFree_maskedTwoBytesValue (data : List UInt8) (msbMask : UInt32) :
    AssertFree (maskedTwoBytesValue data msbMask) := by
  show AssertFree (load data 0 >>= _)
  apply (assertFree_load _ _).bind
  intro msb
  apply (assertFree_load _ _).bind
  intro lsb
  exact assertFree_ok _

namespace ParserPsi

/-- The loop over padding bytes, by the bytes that are left to look at. -/
theorem assertFree_skipPaddingLoop (data : List UInt8) (position remaining : Nat) :
    AssertFree (skipPaddingLoop data position remaining) := by
  induction remaining generalizing position with
  | zero => exact assertFree_ok _
  | succ remaining ih =>
    show AssertFree (load data position >>= _)
    apply (assertFree_load _ _).bind
    intro b
    exact (ih (position + 1)).ite (assertFree_ok _)

/-- The header of a section. -/
theorem assertFree_tryParseHeader (data : List UInt8) (available : Nat) :
    AssertFree (tryParseHeader data available) := by
  unfold tryParseHeader
  apply (assertFree_ok _).ite
  apply (assertFree_maskedTwoBytesValue _ _).bind
  intro sectionLength
  exact (assertFree_ok _).ite (assertFree_ok _)

section Put

variable {onPayload : List UInt8 → Nat → σ → Exec σ}
  (hfree : ∀ data available s, AssertFree (onPayload data available s))

include hfree

/-- The step of the loop, from the parse of a header to that of the next one. -/
theorem assertFree_parseLoop (sectionData : List UInt8) (fuel c : Nat) (s : σ) :
    AssertFree (parseLoop onPayload sectionData fuel c s) := by
  induction fuel generalizing c s with
  | zero => exact assertFree_error (by decide)
  | succ fuel ih =>
    show AssertFree (tryParseHeader (sectionData.drop c) (sizeSub sectionData.length c) >>= _)
    apply (assertFree_tryParseHeader _ _).bind
    intro r
    refine AssertFree.ite ?_ (assertFree_ok _)
    apply (hfree _ _ _).bind
    intro s'
    apply (assertFree_skipPaddingLoop _ _ _).bind
    intro skipped
    exact ih _ _

/-- One packet, between the append and the erasure of what has been parsed. -/
theorem assertFree_put (sectionData : List UInt8) (a : Arrival) (s : σ) :
    AssertFree (put onPayload sectionData a s) := by
  have hfault : insertFault sectionData (sectionsPayload a.packet) ≠ .assertion :=
    insertFault_ne (by decide) (by decide) _ _
  have hinsert : AssertFree (insertEnd sectionData a.storage (sectionsPayload a.packet)) :=
    (assertFree_ok _).ite (assertFree_error hfault)
  have herase : ∀ buffer count, AssertFree (eraseFront buffer count) :=
    fun _ _ => (assertFree_ok _).ite (assertFree_error (by decide))
  unfold put
  apply hinsert.bind
  intro buffer
  apply (assertFree_parseLoop hfree _ _ _ _).bind
  rintro ⟨consumed, s'⟩
  apply (herase _ _).bind
  exact fun _ => assertFree_ok _

end Put

end ParserPsi

/-- The entries of a PAT, with or without a bound that has wrapped. -/
theorem assertFree_patLoop (data : List UInt8) (available fuel position : Nat) (pat : Pat) :
    AssertFree (ParserPat.patLoop data available fuel position pat) := by
  induction fuel generalizing position pat with
  | zero => exact assertFree_error (by decide)
  | succ fuel ih =>
    unfold ParserPat.patLoop
    refine AssertFree.ite ?_ (assertFree_ok _)
    apply (assertFree_maskedTwoBytesValue _ _).bind
    intro programNumber
    apply (assertFree_maskedTwoBytesValue _ _).bind
    intro pid
    exact ih _ _

/-- The entries of a PMT. -/
theorem assertFree_pmtLoop (data : List UInt8) (payloadSize fuel position : Nat) (pmt : Pmt) :
    AssertFree (ParserPmt.pmtLoop data payloadSize fuel position pmt) := by
  induction fuel generalizing position pmt with
  | zero => exact assertFree_error (by decide)
  | succ fuel ih =>
    unfold ParserPmt.pmtLoop
    refine AssertFree.ite ?_ (assertFree_ok _)
    apply (assertFree_load _ _).bind
    intro streamType
    apply (assertFree_maskedTwoBytesValue _ _).bind
    intro elementaryPid
    apply (assertFree_maskedTwoBytesValue _ _).bind
    intro esInfoLength
    exact ih _ _

/-- `on_payload` of the PAT parser. -/
theorem assertFree_onPat (onPat : Pat → σ → σ) (data : List UInt8) (available : Nat) (s : σ) :
    AssertFree (ParserPat.onPayload onPat data available s) := by
  show AssertFree (ParserPat.patLoop data available (data.length + 1) 0 ∅ >>= _)
  apply (assertFree_patLoop _ _ _ _ _).bind
  exact fun _ => assertFree_ok _

/-- `on_payload` of the PMT parser. -/
theorem assertFree_onPmt (onPmt : Pmt → σ → σ) (data : List UInt8) (available : Nat) (s : σ) :
    AssertFree (ParserPmt.onPayload onPmt data available s) := by
  show AssertFree (ParserPmt.parsePmtPayload data available >>= _)
  refine AssertFree.bind ?_ fun _ => assertFree_ok _
  apply (assertFree_maskedTwoBytesValue _ _).bind
  intro programInfoLength
  exact assertFree_pmtLoop _ _ _ _ _

/-! ## PES parsers -/

namespace ParserPes

/-- The two `assert(false)`, and what leads to them: the stream_id alone, once there are six bytes. -/
theorem tryParseHeader_assertion_iff (data : List UInt8) (available : Nat) :
    tryParseHeader data available = .error .assertion ↔
      6 ≤ available ∧ ∃ streamId, data[3]? = some streamId ∧ ¬ HasOptionalHeader streamId := by
  by_cases hlen : available < 6
  · have hfree : AssertFree (tryParseHeader data available) := by
      unfold tryParseHeader
      rw [if_pos hlen]
      exact assertFree_ok _
    exact ⟨fun h => absurd h hfree, fun h => absurd h.1 (by omega)⟩
  · unfold tryParseHeader
    rw [if_neg hlen]
    show (load data 3 >>= _) = _ ↔ _
    cases hid : data[3]? with
    | none =>
      rw [show load data 3 = .error .outOfBounds by rw [load, hid], error_bind]
      constructor
      · intro h
        cases h
      · rintro ⟨-, streamId, hsome, -⟩
        cases hsome
    | some streamId =>
      rw [load_of_getElem? hid, ok_bind]
      by_cases hopt : HasOptionalHeader streamId
      · rw [if_pos hopt]
        constructor
        · intro h
          refine absurd h ?_
          apply (assertFree_ok _).ite
          apply (assertFree_load _ _).bind
          intro length
          exact assertFree_ok _
        · rintro ⟨-, id, hsome, hnot⟩
          obtain rfl := Option.some.inj hsome
          exact absurd hopt hnot
      · rw [if_neg hopt]
        exact ⟨fun _ => ⟨by omega, streamId, rfl, hopt⟩, fun _ => rfl⟩

/-- Behind the header nothing can fail; the size may be one that has wrapped. -/
theorem put_assertion_iff (a : Arrival) :
    put a = .error .assertion ↔
      a.packet.payloadUnitStartIndicator = true ∧ 6 ≤ a.packet.payload.size ∧
        ∃ streamId, a.storage[a.packet.payload.data + 3]? = some streamId ∧
          ¬ HasOptionalHeader streamId := by
  have hafter : ∀ payload : ConstBuffer, AssertFree
      (if payload.size ≠ 0 then (pure (some payload) : Exec (Option ConstBuffer)) else pure none) :=
    fun payload => (assertFree_ok _).ite (assertFree_ok _)
  unfold put
  by_cases hstart : a.packet.payloadUnitStartIndicator = true
  · have hheader := tryParseHeader_assertion_iff (a.storage.drop a.packet.payload.data)
      a.packet.payload.size
    rw [List.getElem?_drop] at hheader
    simp only [hstart, if_true, true_and]
    rw [← hheader]
    apply assertion_bind_iff
    intro r
    exact (hafter _).ite (hafter _)
  · constructor
    · intro h
      simp only [hstart] at h
      exact absurd h (hafter a.packet.payload)
    · exact fun h => absurd h.1 hstart

/-- Where the header fails no assertion, its stream_id, if there is one, has an optional header. -/
theorem streamId_of_assertFree {a : Arrival} (hin : a.packet.payload.ValidIn a.storage)
    (hfree : AssertFree (tryParseHeader (a.storage.drop a.packet.payload.data) a.packet.payload.size))
    (hsix : 6 ≤ a.packet.payload.size) :
    load (a.storage.drop a.packet.payload.data) 3 = .ok (a.payload.getD 3 0) ∧
      HasOptionalHeader (a.payload.getD 3 0) := by
  have hload := load_payload hin (i := 3) (by omega)
  refine ⟨hload, ?_⟩
  by_contra hnot
  apply hfree
  exact (tryParseHeader_assertion_iff _ _).mpr ⟨hsix, _, getElem?_of_load hload, hnot⟩

/-- A payload that lies inside its storage: besides the assertions, `put` can fail where the payload has
eight bytes and ends with the storage, behind which the ninth is read. -/
theorem put_error {a : Arrival} {e : Fault} (hin : a.packet.payload.ValidIn a.storage)
    (herror : put a = .error e) :
    e = .assertion ∨ e = .outOfBounds ∧ a.packet.payloadUnitStartIndicator = true ∧
      a.packet.payload.size = 8 ∧ a.packet.payload.data + 8 = a.storage.length := by
  by_contra hother
  rw [not_or] at hother
  have hafter : ∀ payload : ConstBuffer,
      (if payload.size ≠ 0 then (pure (some payload) : Exec (Option ConstBuffer)) else pure none) ≠
        .error e := by
    intro payload h
    split_ifs at h <;> cases h
  unfold put at herror
  by_cases hstart : a.packet.payloadUnitStartIndicator = true
  · simp only [hstart, if_true] at herror
    cases hparse : tryParseHeader (a.storage.drop a.packet.payload.data) a.packet.payload.size with
    | ok r =>
      rw [hparse, ok_bind] at herror
      split_ifs at herror <;> exact hafter _ herror
    | error e' =>
      rw [hparse, error_bind] at herror
      obtain rfl := Except.error.inj herror
      have hfree : AssertFree
          (tryParseHeader (a.storage.drop a.packet.payload.data) a.packet.payload.size) := by
        rw [hparse]
        exact assertFree_error hother.1
      have hid := streamId_of_assertFree hin hfree
      rcases Nat.lt_or_ge a.packet.payload.size 8 with hshort | hlong
      · rw [tryParseHeader_of_short hshort hid] at hparse
        cases hparse
      · obtain ⟨hload, hopt⟩ := hid (by omega)
        rw [tryParseHeader_of_long hlong hload hopt] at hparse
        unfold ConstBuffer.ValidIn at hin
        by_cases hnine : a.packet.payload.data + 8 < a.storage.length
        · rw [load_drop, load_getD hnine] at hparse
          cases hparse
        · rw [load_drop, load_of_length_le (Nat.le_of_not_lt hnine), error_bind] at hparse
          obtain rfl := Except.error.inj hparse
          exact hother.2 ⟨rfl, hstart, by omega, by omega⟩
  · rw [if_neg hstart] at herror
    exact hafter _ herror

end ParserPes

/-! ## The demuxer -/

/-- Of the handlers, only PES parsers fail an assertion. -/
theorem Handler.put_assertion_iff (report : Callback → σ → σ) (h : Handler κ) (a : Arrival) (s : σ) :
    h.put report a s = .error .assertion ↔
      (∃ consumer, h = .parserPes consumer) ∧ ParserPes.put a = .error .assertion := by
  unfold Handler.put
  cases h with
  | parserPat sectionData =>
    refine ⟨fun hfails => absurd hfails ?_, by rintro ⟨⟨consumer, h⟩, -⟩; cases h⟩
    apply (ParserPsi.assertFree_put (assertFree_onPat _) _ _ _).bind
    exact fun _ => assertFree_ok _
  | parserPmt sectionData =>
    refine ⟨fun hfails => absurd hfails ?_, by rintro ⟨⟨consumer, h⟩, -⟩; cases h⟩
    apply (ParserPsi.assertFree_put (assertFree_onPmt _) _ _ _).bind
    exact fun _ => assertFree_ok _
  | parserPes consumer =>
    rw [and_iff_right ⟨consumer, rfl⟩]
    apply assertion_bind_iff
    intro buffer
    cases buffer <;> exact assertFree_ok _

namespace Demuxer

variable {factory : EsFactory κ φ}

/-- The packet starts a PES packet with a stream id that is not implemented, on the PID of an
elementary stream. -/
structure TripsAssertion (d : Demuxer κ φ) (a : Arrival) : Prop where
  registered : ∃ consumer, d.packetStreams[a.packet.pid]? = some (.parserPes consumer)
  starts : a.packet.payloadUnitStartIndicator = true
  long : 6 ≤ a.packet.payload.size
  streamId : ∃ streamId, a.storage[a.packet.payload.data + 3]? = some streamId ∧
    ¬ HasOptionalHeader streamId

/-- The step lemma. -/
theorem consumePacket_assertion_iff (d : Demuxer κ φ) (a : Arrival) :
    consumePacket factory d a = .error .assertion ↔ TripsAssertion d a := by
  unfold consumePacket
  cases hk : d.packetStreams[a.packet.pid]? with
  | none =>
    constructor
    · exact fun h => nomatch h
    · intro h
      obtain ⟨consumer, hes⟩ := h.registered
      rw [hk] at hes
      exact nomatch hes
  | some stream =>
    refine (assertion_bind_iff fun ⟨_, _⟩ => assertFree_ok _).trans ?_
    rw [Handler.put_assertion_iff, ParserPes.put_assertion_iff]
    constructor
    · rintro ⟨⟨consumer, rfl⟩, hstarts, hlong, hid⟩
      exact ⟨⟨consumer, hk⟩, hstarts, hlong, hid⟩
    · intro h
      obtain ⟨consumer, hes⟩ := h.registered
      rw [hk] at hes
      exact ⟨⟨consumer, Option.some.inj hes⟩, h.starts, h.long, h.streamId⟩

/-- The packet starts a PES packet on the PID of an elementary stream, with a payload of eight bytes that
ends with the storage: the byte behind it is read all the same. -/
structure ReadsBehindStorage (d : Demuxer κ φ) (a : Arrival) : Prop where
  registered : ∃ consumer, d.packetStreams[a.packet.pid]? = some (.parserPes consumer)
  starts : a.packet.payloadUnitStartIndicator = true
  eight : a.packet.payload.size = 8
  ends : a.packet.payload.data + 8 = a.storage.length

end Demuxer

end Sandstream
