import Mathlib
import Sandstream.Lib.FirstWins
import Sandstream.ParserPsi

/-! # Sandstream.ParserPat -- program association tables

`parser_pat_t` turns the payload of each section into a map from PIDs to program numbers and hands it
to its callback. `parsePatPayload_eq` gives the map for every payload that holds at least its CRC, and
`staysBeforeCrc_iff` says for which payloads nothing is taken from the CRC or from behind it.
-/

namespace Sandstream

open Sandstream.Lib

/-- `pat_t`. -/
abbrev Pat := Std.ExtTreeMap UInt16 UInt16 compare

namespace ParserPat

/-- `crc_length`. -/
def crcLength : Nat := 4

/-- The `while` loop of `parser_pat_t::parse_pat_payload`. A position is at most four bytes behind one
that was read, so it does not wrap. -/
def patLoop (data : List UInt8) (available : Nat) : Nat → Nat → Pat → Exec Pat
  | 0, _, _ => .error .outOfFuel
  | fuel + 1, position, pat => do
    if position < sizeSub available crcLength then
      let programNumber ← maskedTwoBytesValue (data.drop position) 0xff
      let position := position + twoByteValueLength
      let pidMsbMask := 0x1f
      let pid ← maskedTwoBytesValue (data.drop position) pidMsbMask
      let position := position + twoByteValueLength
      patLoop data available fuel position (pat.insertIfNew pid programNumber)
    else
      return pat

/-- `parser_pat_t::parse_pat_payload`. Each turn of the loop reads further bytes of `data`. -/
def parsePatPayload (data : List UInt8) (available : Nat) : Exec Pat :=
  patLoop data available (data.length + 1) 0 ∅

/-- `parser_pat_t::on_payload`. -/
def onPayload {σ : Type} (onPat : Pat → σ → σ) (data : List UInt8) (available : Nat) (s : σ) :
    Exec σ := do
  return onPat (← parsePatPayload data available) s

/-- The entries of a payload, the last four bytes of which are left alone. -/
def patEntries : List UInt8 → List (UInt16 × UInt16)
  | a :: b :: c :: d :: e :: rest =>
    (twoBytes c d 0x1f, twoBytes a b 0xff) :: patEntries (e :: rest)
  | _ => []

/-- The map of a payload. -/
def table (payload : List UInt8) : Pat := FirstWins.ofEntries (patEntries payload)

theorem patEntries_of_short {s : List UInt8} (h : s.length ≤ 4) : patEntries s = [] := by
  match s, h with
  | [], _ | [_], _ | [_, _], _ | [_, _, _], _ | [_, _, _, _], _ => rfl

theorem length_le_four {s : List UInt8}
    (hshort : ∀ a b c d e rest, s = a :: b :: c :: d :: e :: rest → False) : s.length ≤ 4 := by
  match s, hshort with
  | [], _ | [_], _ | [_, _], _ | [_, _, _], _ | [_, _, _, _], _ => simp
  | a :: b :: c :: d :: e :: rest, h => exact absurd rfl (h a b c d e rest)

/-- Four bytes an entry, as long as a fifth stands behind them. -/
theorem patEntries_length (s : List UInt8) : (patEntries s).length = (s.length - 1) / 4 := by
  induction s using patEntries.induct with
  | case1 a b c d e rest ih =>
    rw [patEntries, List.length_cons, ih]
    simp only [List.length_cons]
    omega
  | case2 s hshort =>
    have hfour := length_le_four hshort
    rw [patEntries_of_short hfour, List.length_nil]
    omega

/-- From any position inside a payload the loop adds the entries that are left. It needs no more of
the payload than these entries. -/
theorem patLoop_eq {data payload s : List UInt8} {position fuel : Nat} {pat : Pat}
    (hs : payload.drop position = s) (hcrc : crcLength ≤ payload.length)
    (hread : ∀ i, i < position + 4 * (patEntries s).length → data[i]? = payload[i]?)
    (hfuel : (patEntries s).length < fuel) :
    patLoop data payload.length fuel position pat =
      .ok (FirstWins.emplaceAll pat (patEntries s)) := by
  have hbound : sizeSub payload.length crcLength = payload.length - 4 := sizeSub_of_le hcrc
  -- `s` is what the loop has not read yet: five bytes of it make an entry, fewer end the loop
  induction s using patEntries.induct generalizing position fuel pat with
  | case1 a b c d e rest ih =>
    obtain ⟨k, rfl⟩ : ∃ k, fuel = k + 1 := ⟨fuel - 1, by omega⟩
    have hlen : (a :: b :: c :: d :: e :: rest).length = payload.length - position := by
      rw [← hs, List.length_drop]
    rw [patEntries, List.length_cons] at hread hfuel
    simp only [List.length_cons] at hlen
    have hbyte : ∀ i, i < 4 → data[position + i]? = (a :: b :: c :: d :: e :: rest)[i]? := by
      intro i hi
      rw [hread (position + i) (by omega), ← hs, List.getElem?_drop]
    have hnumber : maskedTwoBytesValue (data.drop position) 0xff = .ok (twoBytes a b 0xff) :=
      maskedTwoBytesValue_of_getElem? (hbyte 0 (by omega)) (hbyte 1 (by omega)) _
    have hpid : maskedTwoBytesValue (data.drop (position + twoByteValueLength)) 0x1f =
        .ok (twoBytes c d 0x1f) :=
      maskedTwoBytesValue_of_getElem? (hbyte 2 (by omega)) (hbyte 3 (by omega)) _
    have hnext : payload.drop (position + twoByteValueLength + twoByteValueLength) = e :: rest := by
      rw [Nat.add_assoc, ← List.drop_drop, hs]
      rfl
    have hlt : position < sizeSub payload.length crcLength := by omega
    simp only [patLoop, hnumber, hpid, ok_bind]
    rw [if_pos hlt, ih hnext (fun i hi => hread i (by simp only [twoByteValueLength] at hi; omega))
      (by omega)]
    rfl
  | case2 s hshort =>
    obtain ⟨k, rfl⟩ : ∃ k, fuel = k + 1 := ⟨fuel - 1, by omega⟩
    have hlen : s.length = payload.length - position := by
      rw [← hs, List.length_drop]
    have hfour := length_le_four hshort
    have hge : ¬ position < sizeSub payload.length crcLength := by omega
    rw [patEntries_of_short hfour]
    simp only [patLoop]
    rw [if_neg hge]
    rfl

/-- Of the payload only the entries have to lie in `data`. -/
theorem parsePatPayload_of_read {data payload : List UInt8} (hcrc : crcLength ≤ payload.length)
    (hread : ∀ i, i < 4 * (patEntries payload).length → data[i]? = payload[i]?)
    (hroom : (patEntries payload).length ≤ data.length) :
    parsePatPayload data payload.length = .ok (table payload) := by
  have hloop : patLoop data payload.length (data.length + 1) 0 ∅ =
      .ok (FirstWins.emplaceAll ∅ (patEntries payload)) :=
    patLoop_eq List.drop_zero hcrc (fun i hi => hread i (by omega)) (Nat.lt_succ_of_le hroom)
  exact hloop

/-- A payload that lies inside `data` and holds its CRC is read without a fault, and the first entry
for each PID stays. -/
theorem parsePatPayload_eq {data : List UInt8} {available : Nat} (hle : available ≤ data.length)
    (hcrc : crcLength ≤ available) :
    parsePatPayload data available = .ok (table (data.take available)) := by
  have hlen : (data.take available).length = available := List.length_take_of_le hle
  have hcount := patEntries_length (data.take available)
  rw [hlen] at hcount
  have hread : ∀ i, i < 4 * (patEntries (data.take available)).length →
      data[i]? = (data.take available)[i]? := by
    intro i hi
    rw [List.getElem?_take_of_lt (by omega)]
  have hparse := parsePatPayload_of_read (by rwa [hlen]) hread (by omega)
  rwa [hlen] at hparse

/-! ## Payloads of any size -/

/-- Parsing this payload stays in front of its CRC. -/
structure StaysBeforeCrc (payload : List UInt8) : Prop where
  /-- the subtraction of the CRC does not wrap -/
  unwrapped : sizeSub payload.length crcLength + crcLength = payload.length
  /-- the loop ends, also when a read behind the first `n - 4` bytes is a fault -/
  parses : Returns (parsePatPayload (payload.take (payload.length - crcLength)) payload.length)
    fun pat => parsePatPayload payload payload.length = .ok pat ∧
      pat.size ≤ (payload.length - crcLength) / 4

/-- The step of the loop that reads too far: where the bytes in front of the CRC are no whole number of
entries, the last turn runs into it. -/
theorem patLoop_of_ragged {data : List UInt8} {available position fuel : Nat} {pat : Pat}
    (havailable : available = data.length + crcLength) (hragged : (data.length - position) % 4 ≠ 0) :
    ¬ Returns (patLoop data available fuel position pat) fun _ => True := by
  have hbound : sizeSub available crcLength = data.length := by
    rw [sizeSub_of_le (by omega), havailable, Nat.add_sub_cancel]
  induction fuel generalizing position pat with
  | zero =>
    rw [patLoop, returns_error]
    exact id
  | succ fuel ih =>
    have hlt : position < sizeSub available crcLength := by omega
    unfold patLoop
    rw [if_pos hlt]
    by_cases hone : position + 1 < data.length
    · rw [maskedTwoBytesValue_getD hone, ok_bind]
      by_cases hthree : position + twoByteValueLength + 1 < data.length
      · simp only [maskedTwoBytesValue_getD hthree, ok_bind]
        simp only [twoByteValueLength] at hthree ⊢
        exact ih (by omega)
      · simp only [maskedTwoBytesValue_of_short (Nat.le_of_not_lt hthree), error_bind, returns_error]
        exact id
    · rw [maskedTwoBytesValue_of_short (Nat.le_of_not_lt hone), error_bind, returns_error]
      exact id

/-- **When PAT parsing is safe.** Exactly if the payload holds its CRC and in front of it whole entries,
four bytes each. -/
theorem staysBeforeCrc_iff (payload : List UInt8) :
    StaysBeforeCrc payload ↔ crcLength ≤ payload.length ∧ payload.length % 4 = 0 := by
  have htake : (payload.take (payload.length - crcLength)).length = payload.length - crcLength :=
    List.length_take_of_le (Nat.sub_le _ _)
  constructor
  · intro h
    have hcrc : crcLength ≤ payload.length := sizeSub_add_eq_iff.mp h.unwrapped
    refine ⟨hcrc, ?_⟩
    by_contra hragged
    refine patLoop_of_ragged ?_ ?_ (h.parses.mono fun _ _ => trivial)
    · rw [htake]
      omega
    · rw [htake]
      simp only [crcLength] at hcrc ⊢
      omega
  · rintro ⟨hcrc, hwhole⟩
    have hcount := patEntries_length payload
    have hsize := FirstWins.size_emplaceAll_le (∅ : Pat) (patEntries payload)
    have hparse : parsePatPayload payload payload.length = .ok (table payload) :=
      parsePatPayload_of_read hcrc (fun _ _ => rfl) (by omega)
    -- whole entries end where the CRC begins, so its bytes are not missed
    have hread : ∀ i, i < 4 * (patEntries payload).length →
        (payload.take (payload.length - crcLength))[i]? = payload[i]? := by
      intro i hi
      simp only [crcLength] at hcrc ⊢
      rw [List.getElem?_take_of_lt (by omega)]
    have hroom : (patEntries payload).length ≤ (payload.take (payload.length - crcLength)).length := by
      rw [htake]
      simp only [crcLength] at hcrc ⊢
      omega
    refine ⟨sizeSub_add_eq_iff.mpr hcrc, ?_⟩
    rw [parsePatPayload_of_read hcrc hread hroom, returns_ok]
    refine ⟨hparse, ?_⟩
    rw [Std.ExtTreeMap.size_empty] at hsize
    simp only [crcLength] at hcrc ⊢
    show (FirstWins.emplaceAll ∅ (patEntries payload)).size ≤ _
    omega

/-- A payload of nothing but three bytes, and one with a stray byte in front of the CRC. -/
theorem not_staysBeforeCrc_short_stray :
    ¬ StaysBeforeCrc [0x00, 0x01, 0xe0] ∧
      ¬ StaysBeforeCrc [0x00, 0x01, 0xe0, 0x20, 0x00, 0xad, 0xad, 0xad, 0xad] := by
  refine ⟨fun h => ?_, fun h => ?_⟩
  · exact absurd h.unwrapped (by decide)
  · have hparses := h.parses.mono fun _ _ => trivial
    exact absurd hparses (by decide)

end ParserPat

end Sandstream
