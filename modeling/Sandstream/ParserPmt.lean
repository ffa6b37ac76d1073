import Mathlib
import Sandstream.Lib.FirstWins
import Sandstream.ParserPsi

/-! # Sandstream.ParserPmt -- program map tables

`parser_pmt_t` turns the payload of each section into a map from elementary PIDs to stream types and
hands it to its callback. Descriptors are skipped by their announced lengths, whatever these say, so a
position may end up behind the payload; the loop then stops. `parsePmtPayload_eq` gives the map for
every payload that holds at least its CRC, and `takesWholeEntries_iff` says for which payloads no entry
reaches into the CRC.
-/

namespace Sandstream

open Sandstream.Lib

/-- `pmt_t`. -/
abbrev Pmt := Std.ExtTreeMap UInt16 UInt8 compare

namespace ParserPmt

/-- `crc_length`. -/
def crcLength : Nat := 4

/-- The `while` loop of `parser_pmt_t::parse_pmt_payload`. A position is at most 4097 bytes behind one
that was read, so it does not wrap. -/
def pmtLoop (data : List UInt8) (payloadSize : Nat) : Nat → Nat → Pmt → Exec Pmt
  | 0, _, _ => .error .outOfFuel
  | fuel + 1, position, pmt => do
    if position < sizeSub payloadSize crcLength then
      let streamTypePresence := 1
      let streamType ← load data position
      let position := position + streamTypePresence
      let elementaryPidMsbMask := 0x1f
      let elementaryPid ← maskedTwoBytesValue (data.drop position) elementaryPidMsbMask
      let position := position + twoByteValueLength
      let esInfoLengthMsbMask := 0x0f
      let esInfoLength ← maskedTwoBytesValue (data.drop position) esInfoLengthMsbMask
      let position := position + twoByteValueLength
      let position := position + esInfoLength.toNat
      pmtLoop data payloadSize fuel position (pmt.insertIfNew elementaryPid streamType)
    else
      return pmt

/-- `parser_pmt_t::parse_pmt_payload`. Each turn of the loop reads further bytes of `data`. -/
def parsePmtPayload (data : List UInt8) (payloadSize : Nat) : Exec Pmt := do
  let ignoredReservedAndPcrPidFieldsLength := 2
  let position := ignoredReservedAndPcrPidFieldsLength
  let programInfoLengthMsbMask := 0x0f
  let programInfoLength ← maskedTwoBytesValue (data.drop position) programInfoLengthMsbMask
  let position := position + twoByteValueLength
  let position := position + programInfoLength.toNat
  pmtLoop data payloadSize (data.length + 1) position ∅

/-- `parser_pmt_t::on_payload`. -/
def onPayload {σ : Type} (onPmt : Pmt → σ → σ) (data : List UInt8) (available : Nat) (s : σ) :
    Exec σ := do
  return onPmt (← parsePmtPayload data available) s

/-- The entries of a payload behind the next `skip` bytes; the last four bytes are left alone. -/
def pmtEntriesFrom : Nat → List UInt8 → List (UInt16 × UInt8)
  | skip + 1, _ :: s => pmtEntriesFrom skip s
  | 0, a :: b :: c :: d :: e :: rest =>
    (twoBytes b c 0x1f, a) :: pmtEntriesFrom (twoBytes d e 0x0f).toNat rest
  | _, _ => []

/-- The entries of a payload. -/
def pmtEntries (payload : List UInt8) : List (UInt16 × UInt8) :=
  pmtEntriesFrom (4 + (twoBytes (payload.getD 2 0) (payload.getD 3 0) 0x0f).toNat) payload

/-- The map of a payload. -/
def table (payload : List UInt8) : Pmt := FirstWins.ofEntries (pmtEntries payload)

theorem pmtEntriesFrom_eq_drop (skip : Nat) (s : List UInt8) :
    pmtEntriesFrom skip s = pmtEntriesFrom 0 (s.drop skip) := by
  induction s generalizing skip with
  | nil => cases skip <;> rfl
  | cons b s ih =>
    cases skip with
    | zero => rfl
    | succ skip => exact ih skip

theorem pmtEntriesFrom_cons (a b c d e : UInt8) (rest : List UInt8) :
    pmtEntriesFrom 0 (a :: b :: c :: d :: e :: rest) =
      (twoBytes b c 0x1f, a) :: pmtEntriesFrom 0 (rest.drop (twoBytes d e 0x0f).toNat) := by
  rw [← pmtEntriesFrom_eq_drop]
  rfl

theorem pmtEntriesFrom_of_short {s : List UInt8} (h : s.length ≤ 4) : pmtEntriesFrom 0 s = [] := by
  match s, h with
  | [], _ | [_], _ | [_, _], _ | [_, _, _], _ | [_, _, _, _], _ => rfl

/-- From any position the loop adds the entries that are left. -/
theorem pmtLoop_eq {data : List UInt8} {payloadSize position fuel : Nat} {pmt : Pmt}
    (hle : payloadSize ≤ data.length) (hcrc : crcLength ≤ payloadSize)
    (hfuel : payloadSize - position < fuel) :
    pmtLoop data payloadSize fuel position pmt =
      .ok (FirstWins.emplaceAll pmt
        (pmtEntriesFrom 0 ((data.take payloadSize).drop position))) := by
  have hbound : sizeSub payloadSize crcLength = payloadSize - 4 := sizeSub_of_le hcrc
  induction fuel generalizing position pmt with
  | zero => omega
  | succ fuel ih =>
    have hlen : ((data.take payloadSize).drop position).length = payloadSize - position := by
      rw [List.length_drop, List.length_take, Nat.min_eq_left hle]
    -- descriptors may have taken the position anywhere behind the CRC; then nothing is left
    by_cases hlt : position < payloadSize - 4
    · obtain ⟨a, b, c, d, e, rest, hs⟩ : ∃ a b c d e rest,
          (data.take payloadSize).drop position = a :: b :: c :: d :: e :: rest := by
        match hs : (data.take payloadSize).drop position with
        | a :: b :: c :: d :: e :: rest => exact ⟨a, b, c, d, e, rest, rfl⟩
        | [] | [_] | [_, _] | [_, _, _] | [_, _, _, _] =>
          rw [hs] at hlen
          simp only [List.length_cons, List.length_nil] at hlen
          omega
      have hbyte : ∀ i, i < 5 → data[position + i]? = (a :: b :: c :: d :: e :: rest)[i]? := by
        intro i hi
        rw [← hs, List.getElem?_drop, List.getElem?_take_of_lt (by omega)]
      have htype : load data position = .ok a := load_of_getElem? (hbyte 0 (by omega))
      have hpid : maskedTwoBytesValue (data.drop (position + 1)) 0x1f = .ok (twoBytes b c 0x1f) :=
        maskedTwoBytesValue_of_getElem? (hbyte 1 (by omega)) (hbyte 2 (by omega)) _
      have hinfo : maskedTwoBytesValue (data.drop (position + 1 + twoByteValueLength)) 0x0f =
          .ok (twoBytes d e 0x0f) :=
        maskedTwoBytesValue_of_getElem? (hbyte 3 (by omega)) (hbyte 4 (by omega)) _
      have hnext : (data.take payloadSize).drop
          (position + 1 + twoByteValueLength + twoByteValueLength + (twoBytes d e 0x0f).toNat) =
            rest.drop (twoBytes d e 0x0f).toNat := by
        have hfive : position + 1 + twoByteValueLength + twoByteValueLength = position + 5 := rfl
        rw [hfive, ← List.drop_drop, ← List.drop_drop, hs]
        rfl
      simp only [pmtLoop, htype, hpid, hinfo, ok_bind]
      rw [hbound, if_pos hlt, ih (by simp only [twoByteValueLength]; omega), hnext, hs,
        pmtEntriesFrom_cons]
      rfl
    · simp only [pmtLoop]
      rw [hbound, if_neg hlt, pmtEntriesFrom_of_short (by omega)]
      rfl

/-- A payload that lies inside `data` and holds its CRC is read without a fault, and the first entry
for each PID stays. -/
theorem parsePmtPayload_eq {data : List UInt8} {payloadSize : Nat}
    (hle : payloadSize ≤ data.length) (hcrc : crcLength ≤ payloadSize) :
    parsePmtPayload data payloadSize = .ok (table (data.take payloadSize)) := by
  have hbyte : ∀ i, i < 4 → data[i]? = some ((data.take payloadSize).getD i 0) := by
    intro i hi
    simp only [crcLength] at hcrc
    have hlt : i < (data.take payloadSize).length := by
      rw [List.length_take]
      omega
    rw [← getElem?_getD hlt, List.getElem?_take_of_lt (by omega)]
  have hinfo : maskedTwoBytesValue (data.drop 2) 0x0f =
      .ok (twoBytes ((data.take payloadSize).getD 2 0) ((data.take payloadSize).getD 3 0) 0x0f) :=
    maskedTwoBytesValue_of_getElem? (hbyte 2 (by decide)) (hbyte 3 (by decide)) _
  simp only [parsePmtPayload, hinfo, ok_bind]
  rw [pmtLoop_eq hle hcrc (by omega), ← pmtEntriesFrom_eq_drop]
  rfl

/-! ## Payloads of any size -/

/-- The length that stands in the bytes at `position` of a payload. -/
def infoLength (payload : List UInt8) (position : Nat) : Nat :=
  (twoBytes (payload.getD position 0) (payload.getD (position + 1) 0) 0x0f).toNat

/-- The positions at which the loop of `parsePmtPayload` makes a turn. -/
def pmtTurns (payload : List UInt8) : Nat → Nat → List Nat
  | 0, _ => []
  | fuel + 1, position =>
    if position < sizeSub payload.length crcLength then
      position :: pmtTurns payload fuel (position + 5 + infoLength payload (position + 3))
    else
      []

/-- The positions of a whole run of the loop. -/
def turns (payload : List UInt8) : List Nat :=
  pmtTurns payload (payload.length + 1) (4 + infoLength payload 2)

/-- The entry that a turn decodes. -/
def entryAt (payload : List UInt8) (position : Nat) : UInt16 × UInt8 :=
  (twoBytes (payload.getD (position + 1) 0) (payload.getD (position + 2) 0) 0x1f,
    payload.getD position 0)

/-- Behind the next `skip` bytes, whole entries follow up to the CRC: an entry is never cut off by it,
though the descriptors of the last one may reach into it. -/
def EntriesFit : Nat → List UInt8 → Prop
  | skip + 1, _ :: s => EntriesFit skip s
  | 0, _ :: _ :: _ :: d :: e :: rest =>
    crcLength ≤ rest.length ∧ EntriesFit (twoBytes d e 0x0f).toNat rest
  | _, _ => True

theorem entriesFit_iff_drop (skip : Nat) (s : List UInt8) :
    EntriesFit skip s ↔ EntriesFit 0 (s.drop skip) := by
  induction s generalizing skip with
  | nil => cases skip <;> exact Iff.rfl
  | cons b s ih =>
    cases skip with
    | zero => exact Iff.rfl
    | succ skip => exact ih skip

theorem entriesFit_of_short {s : List UInt8} (h : s.length ≤ 4) : EntriesFit 0 s := by
  match s, h with
  | [], _ | [_], _ | [_, _], _ | [_, _, _], _ | [_, _, _, _], _ => trivial

/-- Five bytes in front of the last four make a turn. -/
theorem exists_turn {payload : List UInt8} {position : Nat} (h : position + 4 < payload.length) :
    ∃ rest, payload.drop position =
      payload.getD position 0 :: payload.getD (position + 1) 0 :: payload.getD (position + 2) 0 ::
        payload.getD (position + 3) 0 :: payload.getD (position + 4) 0 :: rest := by
  have hstep : ∀ i, i < payload.length →
      payload.drop i = payload.getD i 0 :: payload.drop (i + 1) := by
    intro i hi
    have hget := getElem?_getD hi
    rw [List.getElem?_eq_getElem hi, Option.some.injEq] at hget
    rw [List.drop_eq_getElem_cons hi, hget]
  refine ⟨payload.drop (position + 5), ?_⟩
  rw [hstep _ (by omega), hstep _ (by omega), hstep _ (by omega), hstep _ (by omega),
    hstep _ (by omega)]

/-- One loop, three ways to follow it: the entries, the turns, and the room in front of the CRC. -/
theorem pmtTurns_spec {payload : List UInt8} (hcrc : crcLength ≤ payload.length)
    {fuel position : Nat} (hfuel : payload.length - position < fuel) :
    pmtEntriesFrom 0 (payload.drop position) =
        (pmtTurns payload fuel position).map (entryAt payload) ∧
      ((∀ p ∈ pmtTurns payload fuel position, p + 5 + crcLength ≤ payload.length) ↔
        EntriesFit 0 (payload.drop position)) := by
  have hbound : sizeSub payload.length crcLength = payload.length - 4 := sizeSub_of_le hcrc
  induction fuel generalizing position with
  | zero => omega
  | succ fuel ih =>
    have hlen : (payload.drop position).length = payload.length - position := List.length_drop
    unfold pmtTurns
    rw [hbound]
    by_cases hlt : position < payload.length - 4
    · have hfive : position + 4 < payload.length := by omega
      obtain ⟨rest, hs⟩ := exists_turn hfive
      have hnext : rest.drop (infoLength payload (position + 3)) =
          payload.drop (position + 5 + infoLength payload (position + 3)) := by
        rw [← List.drop_drop, ← List.drop_drop, hs]
        rfl
      have hless : payload.length - (position + 5 + infoLength payload (position + 3)) < fuel := by
        omega
      obtain ⟨hentries, hfit⟩ := ih hless
      rw [hs] at hlen
      simp only [List.length_cons] at hlen
      rw [if_pos hlt, hs, pmtEntriesFrom_cons, List.map_cons, List.forall_mem_cons, hfit, ← hnext,
        ← entriesFit_iff_drop]
      refine ⟨?_, ?_⟩
      · rw [← hentries, ← hnext]
        rfl
      · apply and_congr_left
        intro _
        omega
    · rw [if_neg hlt, pmtEntriesFrom_of_short (by omega)]
      refine ⟨rfl, ?_⟩
      exact ⟨fun _ => entriesFit_of_short (by omega), fun _ p hp => absurd hp List.not_mem_nil⟩

/-- Parsing this payload stays inside it, and takes no entry from its CRC. -/
structure TakesWholeEntries (payload : List UInt8) : Prop where
  /-- the subtraction of the CRC does not wrap -/
  unwrapped : sizeSub payload.length crcLength + crcLength = payload.length
  /-- on a buffer that ends with the payload, as a read behind it would be a fault -/
  parses : parsePmtPayload payload payload.length =
    .ok (FirstWins.ofEntries ((turns payload).map (entryAt payload)))
  beforeCrc : ∀ p ∈ turns payload, p + 5 + crcLength ≤ payload.length

/-- **When PMT parsing is safe.** Exactly if the payload holds its CRC, and following the lengths in it
from entry to entry never ends one to four bytes in front of the CRC. -/
theorem takesWholeEntries_iff (payload : List UInt8) :
    TakesWholeEntries payload ↔
      crcLength ≤ payload.length ∧ EntriesFit (4 + infoLength payload 2) payload := by
  have hfuel : payload.length - (4 + infoLength payload 2) < payload.length + 1 := by omega
  have hspec := fun hcrc => pmtTurns_spec hcrc hfuel
  constructor
  · intro h
    have hcrc : crcLength ≤ payload.length := sizeSub_add_eq_iff.mp h.unwrapped
    rw [entriesFit_iff_drop]
    exact ⟨hcrc, (hspec hcrc).2.mp h.beforeCrc⟩
  · rintro ⟨hcrc, hfit⟩
    obtain ⟨hentries, hbefore⟩ := hspec hcrc
    rw [entriesFit_iff_drop] at hfit
    refine ⟨sizeSub_add_eq_iff.mpr hcrc, ?_, hbefore.mpr hfit⟩
    have hparse := parsePmtPayload_eq (le_refl payload.length) hcrc
    rw [List.take_length] at hparse
    rw [hparse, table, pmtEntries]
    unfold turns
    rw [← hentries, ← pmtEntriesFrom_eq_drop]
    rfl

/-- A payload of three bytes, and one with a stray byte in front of the CRC, from which an entry is
decoded with the PID 0x0dad. -/
theorem not_takesWholeEntries_short_stray :
    ¬ TakesWholeEntries [0xe0, 0x21, 0xf0] ∧
      ¬ TakesWholeEntries [0xe0, 0x21, 0xf0, 0x00, 0x1b, 0xad, 0xad, 0xad, 0xad] := by
  refine ⟨fun h => ?_, fun h => ?_⟩
  · exact absurd h.unwrapped (by decide)
  · exact absurd h.beforeCrc (by decide)

end ParserPmt

end Sandstream
