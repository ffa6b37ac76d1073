import Mathlib
import Sandstream.Lib.Frames
import Sandstream.TsPacket

/-! # Sandstream.ParserPsi -- collecting the sections of a table

`parser_psi_t` keeps the section bytes that have arrived in `section_data` and hands the payload of
each complete section to the virtual function `on_payload`. Here `put` takes that function as a
parameter `onPayload`, acting on a state `σ` of the caller; a call gets the suffix of `section_data`
it points at and a size, as in the source.

The second half connects `put` to `Lib.Frames`: sections are units of `sectionFormat`, and one `put`
visits the complete ones in order and keeps the rest.
-/

namespace Sandstream

open Sandstream.Lib.Window
open Sandstream.Lib.Frames

/-- `section_header_t`. -/
structure SectionHeader where
  sectionLength : UInt16 := 0
  deriving Repr, DecidableEq

namespace ParserPsi

/-- `parser_psi_t::parse_result_t`. -/
structure ParseResult where
  isSuccess : Bool := false
  consumedBytes : Nat := 0
  header : SectionHeader := {}
  deriving Repr, DecidableEq

/-! ## The parser -/

/-- The `while` loop of `parser_psi_t::skip_padding_bytes`, at `position` with `remaining` bytes to
look at. -/
def skipPaddingLoop (data : List UInt8) (position : Nat) : Nat → Exec Nat
  | 0 => .ok position
  | remaining + 1 => do
    -- stuffing: no table_id has this value
    let sectionPaddingByte := 0xff
    if (← load data position) = sectionPaddingByte then
      skipPaddingLoop data (position + 1) remaining
    else
      return position

/-- `parser_psi_t::skip_padding_bytes`. -/
def skipPaddingBytes (data : List UInt8) (available : Nat) : Exec Nat :=
  skipPaddingLoop data 0 available

/-- `parser_psi_t::try_parse_header`. -/
def tryParseHeader (data : List UInt8) (available : Nat) : Exec ParseResult := do
  let sectionHeaderLength := 3
  if available < sectionHeaderLength then
    return {}
  else
    let tableIdPresence := 1
    let position := tableIdPresence
    let sectionLength ← maskedTwoBytesValue (data.drop position) 0x0f
    let position := position + twoByteValueLength
    if sizeSub available position < sectionLength.toNat then
      return {}
    else
      let transportStreamIdLength := 2
      let ignoredFieldsLength := 1
      let position := position + (transportStreamIdLength + ignoredFieldsLength)
      let sectionNumberPresence := 1
      let position := position + sectionNumberPresence
      let lastSectionNumberPresence := 1
      let position := position + lastSectionNumberPresence
      return ⟨true, position, ⟨sectionLength⟩⟩

/-- How an append fails. The new length is compared with `max_size()` before anything is read. -/
def insertFault (sectionData : List UInt8) (b : ConstBuffer) : Fault :=
  if 2 ^ 63 ≤ sectionData.length + b.size then .lengthError else .outOfBounds

theorem insertFault_ne {e : Fault} (hlength : e ≠ .lengthError) (hbounds : e ≠ .outOfBounds)
    (sectionData : List UInt8) (b : ConstBuffer) : insertFault sectionData b ≠ e := by
  unfold insertFault
  split_ifs
  · exact hlength.symm
  · exact hbounds.symm

/-- `section_data.insert(section_data.end(), data, data + size)`. -/
def insertEnd (sectionData storage : List UInt8) (b : ConstBuffer) : Exec (List UInt8) :=
  if b.ValidIn storage then
    .ok (sectionData ++ b.bytes storage)
  else
    .error (insertFault sectionData b)

/-- `section_data.erase(section_data.begin(), section_data.begin() + count)`. -/
def eraseFront (sectionData : List UInt8) (count : Nat) : Exec (List UInt8) :=
  if count ≤ sectionData.length then .ok (sectionData.drop count) else .error .outOfBounds

/-- `section_ext_header_length`. -/
def sectionExtHeaderLength : Nat := 5

section Put

variable {σ : Type} (onPayload : List UInt8 → Nat → σ → Exec σ)

/-- The `while` loop of `parser_psi_t::put`, from the parse of the header at `consumedBytes` on. -/
def parseLoop (sectionData : List UInt8) : Nat → Nat → σ → Exec (Nat × σ)
  | 0, _, _ => .error .outOfFuel
  | fuel + 1, consumedBytes, s => do
    let parseResult ← tryParseHeader (sectionData.drop consumedBytes)
      (sizeSub sectionData.length consumedBytes)
    if parseResult.isSuccess then
      let consumedBytes := sizeAdd consumedBytes parseResult.consumedBytes
      -- a section_length below 5 makes this wrap
      let payloadSize := sizeSub parseResult.header.sectionLength.toNat sectionExtHeaderLength
      let s ← onPayload (sectionData.drop consumedBytes) payloadSize s
      let consumedBytes := sizeAdd consumedBytes payloadSize
      let skipped ← skipPaddingBytes (sectionData.drop consumedBytes)
        (sizeSub sectionData.length consumedBytes)
      parseLoop sectionData fuel (sizeAdd consumedBytes skipped) s
    else
      return (consumedBytes, s)

/-- The bytes `parser_psi_t::put` takes from a packet: the payload without its pointer_field. -/
def sectionsPayload (packet : TsPacket) : ConstBuffer :=
  if packet.payloadUnitStartIndicator then
    let pointerFieldPresence := 1
    ⟨packet.payload.data + pointerFieldPresence, sizeSub packet.payload.size pointerFieldPresence⟩
  else
    packet.payload

/-- `parser_psi_t::put`, on a parser whose `section_data` is given. The loop takes at least three bytes
a turn, so the length of `section_data` bounds its turns. -/
def put (sectionData : List UInt8) (a : Arrival) (s : σ) : Exec (List UInt8 × σ) := do
  let sectionData ← insertEnd sectionData a.storage (sectionsPayload a.packet)
  let (consumedBytes, s) ← parseLoop onPayload sectionData (sectionData.length + 1) 0 s
  let sectionData ← eraseFront sectionData consumedBytes
  return (sectionData, s)

end Put

/-! ## Sections as units -/

/-- The section_length field of a section. -/
def sectionLengthField (s : List UInt8) : UInt16 := twoBytes (s.getD 1 0) (s.getD 2 0) 0x0f

/-- Its value. -/
def sectionLength (s : List UInt8) : Nat := (sectionLengthField s).toNat

theorem sectionLength_eq (s : List UInt8) :
    sectionLength s = (s.getD 1 0).toNat % 16 * 256 + (s.getD 2 0).toNat :=
  twoBytes_toNat (w := 4) (by decide) _ _

theorem sectionLength_lt (s : List UInt8) : sectionLength s < 4096 := by
  rw [sectionLength_eq]
  have h1 : (s.getD 1 0).toNat % 16 < 16 := Nat.mod_lt _ (by decide)
  have h2 := (s.getD 2 0).toNat_lt
  omega

theorem sectionLength_append {s : List UInt8} (h : 3 ≤ s.length) (t : List UInt8) :
    sectionLength (s ++ t) = sectionLength s := by
  have hget : ∀ i, i < 3 → (s ++ t).getD i 0 = s.getD i 0 := fun i hi => by
    rw [List.getD_append _ _ _ _ (by omega)]
  rw [sectionLength_eq, sectionLength_eq, hget 1 (by decide), hget 2 (by decide)]

/-- A section announces its size in its first three bytes; 0xFF bytes may stand behind it. -/
def sectionFormat : Format UInt8 where
  size s := if 3 ≤ s.length then some (3 + sectionLength s) else none
  padding b := b == 0xff
  size_pos := by
    intro s n h
    split_ifs at h
    simp only [Option.some.injEq] at h
    omega
  size_append := by
    intro s n h t
    split_ifs at h with hlen
    rw [if_pos (by rw [List.length_append]; omega), sectionLength_append hlen]
    exact h

theorem size_sectionFormat (s : List UInt8) :
    sectionFormat.size s = if 3 ≤ s.length then some (3 + sectionLength s) else none := rfl

theorem complete_sectionFormat_iff {s : List UInt8} {n : Nat} :
    sectionFormat.complete s = some n ↔ n = 3 + sectionLength s ∧ n ≤ s.length := by
  rw [Format.complete_eq_some_iff, size_sectionFormat]
  constructor
  · rintro ⟨hsize, hle⟩
    split_ifs at hsize
    simp only [Option.some.injEq] at hsize
    exact ⟨hsize.symm, hle⟩
  · rintro ⟨rfl, hle⟩
    exact ⟨if_pos (by omega), hle⟩

theorem complete_sectionFormat_eq_none_iff {s : List UInt8} :
    sectionFormat.complete s = none ↔ s.length < 3 + sectionLength s := by
  rw [Option.eq_none_iff_forall_ne_some]
  constructor
  · intro h
    by_contra hle
    exact h _ (complete_sectionFormat_iff.mpr ⟨rfl, by omega⟩)
  · intro h n hn
    obtain ⟨rfl, hle⟩ := complete_sectionFormat_iff.mp hn
    omega

/-- What a parser keeps is shorter than the longest section. -/
theorem length_lt_of_incomplete {s : List UInt8} (h : sectionFormat.complete s = none) :
    s.length < 4098 := by
  have hshort := complete_sectionFormat_eq_none_iff.mp h
  have := sectionLength_lt s
  omega

theorem rest_sectionFormat_length_lt (s : List UInt8) : (sectionFormat.rest s).length < 4098 :=
  length_lt_of_incomplete (sectionFormat.complete_rest s)

/-- The length field is inside the section, so cutting the section out keeps it. -/
theorem sectionLength_take {t : List UInt8} {n : Nat} (h : sectionFormat.complete t = some n) :
    sectionLength (t.take n) = sectionLength t := by
  obtain ⟨hn, hle⟩ := complete_sectionFormat_iff.mp h
  have hlen : (t.take n).length = n := List.length_take_of_le hle
  have hsame := sectionLength_append (s := t.take n) (by omega) (t.drop n)
  rw [List.take_append_drop] at hsame
  exact hsame.symm

theorem length_of_mem_units {buffer u : List UInt8} (hu : u ∈ sectionFormat.units buffer) :
    u.length = 3 + sectionLength u := by
  induction buffer using sectionFormat.unit_induction with
  | stop t h =>
    rw [Format.units_of_incomplete _ h] at hu
    exact absurd hu List.not_mem_nil
  | unit t n h ih =>
    rw [Format.units_of_complete _ h] at hu
    rcases List.mem_cons.mp hu with rfl | hu
    · obtain ⟨hn, hle⟩ := complete_sectionFormat_iff.mp h
      rw [sectionLength_take h, List.length_take, Nat.min_eq_left hle, hn]
    · exact ih hu

/-! ## What the parts of `put` compute -/

/-- The section_length field is read off the first three bytes. -/
theorem maskedTwoBytesValue_header {t : List UInt8} (h : 3 ≤ t.length) :
    maskedTwoBytesValue (t.drop 1) 0x0f = .ok (sectionLengthField t) :=
  maskedTwoBytesValue_getD h 0x0f

theorem tryParseHeader_of_complete {t : List UInt8} {n : Nat}
    (h : sectionFormat.complete t = some n) :
    tryParseHeader t t.length = .ok ⟨true, 8, ⟨sectionLengthField t⟩⟩ := by
  obtain ⟨rfl, hle⟩ := complete_sectionFormat_iff.mp h
  have hfield := maskedTwoBytesValue_header (t := t) (by omega)
  have hroom : ¬ sizeSub t.length (1 + twoByteValueLength) < (sectionLengthField t).toNat := by
    rw [twoByteValueLength, sizeSub_of_le (by omega)]
    simp only [sectionLength] at hle
    omega
  simp only [tryParseHeader, hfield, ok_bind]
  rw [if_neg (by omega), if_neg hroom]
  rfl

theorem tryParseHeader_of_incomplete {t : List UInt8} (h : sectionFormat.complete t = none) :
    tryParseHeader t t.length = .ok {} := by
  have hlt := complete_sectionFormat_eq_none_iff.mp h
  by_cases hlen : t.length < 3
  · simp only [tryParseHeader]
    rw [if_pos hlen]
    rfl
  · have hfield := maskedTwoBytesValue_header (t := t) (by omega)
    have hroom : sizeSub t.length (1 + twoByteValueLength) < (sectionLengthField t).toNat := by
      rw [twoByteValueLength, sizeSub_of_le (by omega)]
      simp only [sectionLength] at hlt
      omega
    simp only [tryParseHeader, hfield, ok_bind]
    rw [if_neg hlen, if_pos hroom]
    rfl

theorem skipPaddingLoop_eq {data : List UInt8} {position remaining : Nat}
    (h : position + remaining = data.length) :
    skipPaddingLoop data position remaining =
      .ok (position + ((data.drop position).takeWhile sectionFormat.padding).length) := by
  induction remaining generalizing position with
  | zero =>
    rw [List.drop_of_length_le (by omega)]
    rfl
  | succ remaining ih =>
    have hlt : position < data.length := by omega
    have hload : load data position = .ok data[position] :=
      load_of_getElem? (List.getElem?_eq_getElem hlt)
    rw [List.drop_eq_getElem_cons hlt, List.takeWhile_cons]
    simp only [skipPaddingLoop, hload, ok_bind]
    by_cases hpad : data[position] = 0xff
    · have hpadding : sectionFormat.padding data[position] = true := beq_iff_eq.mpr hpad
      rw [if_pos hpad, if_pos hpadding, ih (by omega), List.length_cons]
      congr 1
      omega
    · have hpadding : ¬ sectionFormat.padding data[position] = true := fun hb =>
        hpad (beq_iff_eq.mp hb)
      rw [if_neg hpad, if_neg hpadding]
      rfl

/-- All padding in front is counted. -/
theorem skipPaddingBytes_eq (data : List UInt8) :
    skipPaddingBytes data data.length =
      .ok (data.takeWhile sectionFormat.padding).length := by
  rw [skipPaddingBytes, skipPaddingLoop_eq (Nat.zero_add _), List.drop_zero, Nat.zero_add]

section Put

variable {σ : Type} (onPayload : List UInt8 → Nat → σ → Exec σ)

/-- The call of `on_payload` for the complete section at the front of `t`. -/
def visit (s : σ) (t : List UInt8) : Exec σ :=
  onPayload (t.drop 8) (sizeSub (sectionLength t) sectionExtHeaderLength) s

/-- The additions and the subtraction of one turn add up to the size of the section, also when the
subtraction wraps. -/
theorem consumed_eq {c L : Nat} (hL : L < 4096) (hc : c + 3 + L + 8 < 2 ^ 64) :
    sizeAdd (sizeAdd c 8) (sizeSub L sectionExtHeaderLength) = c + (3 + L) := by
  rw [sizeAdd_of_lt (a := c) (by omega), sizeAdd, sizeSub, sectionExtHeaderLength]
  split_ifs <;> omega

/-- The loop visits the complete sections in order and stops in front of what is left. -/
theorem parseLoop_eq {sectionData t : List UInt8} {c fuel : Nat} {s : σ}
    (ht : sectionData.drop c = t) (hc : c ≤ sectionData.length)
    (hsize : sectionData.length + 8 < 2 ^ 64) (hfuel : t.length < fuel) :
    parseLoop onPayload sectionData fuel c s = (do
      let s ← (sectionFormat.heads t).foldlM (visit onPayload) s
      return (sectionData.length - (sectionFormat.rest t).length, s)) := by
  -- `t` is what is left of `section_data` at position `c`; the induction is along its sections
  induction t using sectionFormat.unit_induction generalizing c fuel s with
  | stop t hstop =>
    obtain ⟨k, rfl⟩ : ∃ k, fuel = k + 1 := ⟨fuel - 1, by omega⟩
    have hlen : t.length = sectionData.length - c := by rw [← ht, List.length_drop]
    have hback : sectionData.length - t.length = c := by omega
    rw [Format.heads_of_incomplete _ hstop, Format.rest_of_incomplete _ hstop, hback]
    simp only [parseLoop, ht, sizeSub_of_le hc, ← hlen, tryParseHeader_of_incomplete hstop, ok_bind,
      List.foldlM_nil]
    rfl
  | unit t n hn ih =>
    obtain ⟨k, rfl⟩ : ∃ k, fuel = k + 1 := ⟨fuel - 1, by omega⟩
    have hlen : t.length = sectionData.length - c := by rw [← ht, List.length_drop]
    have hdec := sectionFormat.after_length_lt hn
    obtain ⟨hnL, hle⟩ := complete_sectionFormat_iff.mp hn
    have hL := sectionLength_lt t
    have hsum : sizeAdd (sizeAdd c 8) (sizeSub (sectionLength t) sectionExtHeaderLength) = c + n := by
      rw [consumed_eq hL (by omega), hnL]
    -- so the padding is looked for right behind the unit
    have hdrop : sectionData.drop (c + n) = t.drop n := by rw [← ht, List.drop_drop]
    have hrest : sectionData.length - (c + n) = (t.drop n).length := by
      rw [List.length_drop]
      omega
    have hpad : ((t.drop n).takeWhile sectionFormat.padding).length ≤ (t.drop n).length :=
      (List.takeWhile_sublist _).length_le
    have hdrop8 : sectionData.drop (sizeAdd c 8) = t.drop 8 := by
      rw [sizeAdd_of_lt (by omega), ← ht, List.drop_drop]
    rw [Format.heads_of_complete _ hn, Format.rest_of_complete _ hn]
    simp only [parseLoop, ht, sizeSub_of_le hc, ← hlen, tryParseHeader_of_complete hn, ok_bind,
      List.foldlM_cons, bind_assoc, if_true]
    have hfield : (sectionLengthField t).toNat = sectionLength t := rfl
    rw [hdrop8, hfield, hsum, hdrop, sizeSub_of_le (by omega : c + n ≤ sectionData.length), hrest,
      skipPaddingBytes_eq]
    refine bind_congr fun s' => ?_
    rw [ok_bind, sizeAdd_of_lt (by omega)]
    refine ih ?_ (by omega) (by omega)
    rw [Format.after_eq_drop, ← ht, List.drop_drop, List.drop_drop, Nat.add_assoc]

/-- The bytes a packet adds to `section_data`. -/
def appended (a : Arrival) : List UInt8 :=
  if a.packet.payloadUnitStartIndicator then a.payload.drop 1 else a.payload

theorem insertEnd_eq {sectionData : List UInt8} {a : Arrival} (ha : a.Readable) :
    insertEnd sectionData a.storage (sectionsPayload a.packet) =
      .ok (sectionData ++ appended a) := by
  by_cases hpusi : a.packet.payloadUnitStartIndicator = true
  · have hpointer := ha.pointerField hpusi
    have hpayload : sectionsPayload a.packet =
        ⟨a.packet.payload.data + 1, a.packet.payload.size - 1⟩ := by
      rw [sectionsPayload, if_pos hpusi, ← sizeSub_of_le hpointer]
    have hread : ConstBuffer.ValidIn
        ⟨a.packet.payload.data + 1, a.packet.payload.size - 1⟩ a.storage := by
      have hin := ha.inside
      simp only [ConstBuffer.ValidIn] at hin ⊢
      omega
    rw [hpayload, insertEnd, if_pos hread, appended, if_pos hpusi, Arrival.payload, ConstBuffer.bytes,
      ConstBuffer.bytes, window_drop]
  · have hpayload : sectionsPayload a.packet = a.packet.payload := if_neg hpusi
    rw [hpayload, insertEnd, if_pos ha.inside, appended, if_neg hpusi, Arrival.payload]

/-- Otherwise the append fails. -/
theorem insertEnd_of_not_readable {sectionData : List UInt8} {a : Arrival} (ha : ¬ a.Readable)
    (haddr : a.Addressable) :
    insertEnd sectionData a.storage (sectionsPayload a.packet) =
      .error (insertFault sectionData (sectionsPayload a.packet)) := by
  have houtside : ¬ (sectionsPayload a.packet).ValidIn a.storage := by
    intro hin
    simp only [Arrival.Addressable] at haddr
    refine ha ⟨?_, fun hpusi => ?_⟩
    · simp only [ConstBuffer.ValidIn, sectionsPayload] at hin ⊢
      split_ifs at hin with hpusi
      · simp only [sizeSub] at hin
        split_ifs at hin <;> omega
      · exact hin
    · rw [sectionsPayload, if_pos hpusi] at hin
      simp only [ConstBuffer.ValidIn, sizeSub] at hin
      split_ifs at hin with hsize
      · exact hsize
      · omega
  rw [insertEnd, if_neg houtside]

/-- **One `put`**: the complete sections of the old bytes and the new ones are visited in order, and
what is left is kept. -/
theorem put_eq {sectionData : List UInt8} {a : Arrival} {s : σ} (ha : a.Readable)
    (hsize : (sectionData ++ appended a).length + 8 < 2 ^ 64) :
    put onPayload sectionData a s = (do
      let s ← (sectionFormat.heads (sectionData ++ appended a)).foldlM (visit onPayload) s
      return (sectionFormat.rest (sectionData ++ appended a), s)) := by
  set buffer := sectionData ++ appended a with hbuffer
  have hsuffix := List.suffix_iff_eq_drop.mp (sectionFormat.rest_suffix buffer)
  simp only [put, insertEnd_eq ha, ok_bind, ← hbuffer]
  rw [parseLoop_eq onPayload (t := buffer) List.drop_zero (Nat.zero_le _) hsize (Nat.lt_succ_self _),
    bind_assoc]
  refine bind_congr fun s' => ?_
  simp only [pure_bind, eraseFront]
  rw [if_pos (Nat.sub_le _ _), ← hsuffix]
  rfl

theorem put_of_not_readable {sectionData : List UInt8} {a : Arrival} {s : σ} (ha : ¬ a.Readable)
    (haddr : a.Addressable) :
    put onPayload sectionData a s = .error (insertFault sectionData (sectionsPayload a.packet)) := by
  rw [put, insertEnd_of_not_readable ha haddr]
  rfl

theorem appended_length_le (a : Arrival) : (appended a).length ≤ a.storage.length := by
  have hpayload : a.payload.length ≤ a.storage.length := by
    rw [Arrival.payload, ConstBuffer.bytes, window, List.length_take, List.length_drop]
    omega
  rw [appended]
  split_ifs
  · rw [List.length_drop]
    omega
  · exact hpayload

theorem buffer_lt {sectionData : List UInt8} {a : Arrival} (hbound : sectionData.length < 4098)
    (haddr : a.Addressable) : (sectionData ++ appended a).length + 8 < 2 ^ 64 := by
  have hle := appended_length_le a
  simp only [Arrival.Addressable] at haddr
  rw [List.length_append]
  omega

end Put

/-! ## Parsers of tables -/

/-- For a section that holds an extended header, `on_payload` gets the bytes behind that header, and
they lie inside `section_data`. -/
theorem payload_of_complete {t : List UInt8} {n : Nat} (hn : sectionFormat.complete t = some n)
    (hext : 8 ≤ n) :
    sizeSub (sectionLength t) sectionExtHeaderLength = n - 8 ∧ n - 8 ≤ (t.drop 8).length ∧
      (t.drop 8).take (n - 8) = (t.take n).drop 8 := by
  obtain ⟨hnL, hle⟩ := complete_sectionFormat_iff.mp hn
  refine ⟨?_, ?_, List.drop_take.symm⟩
  · rw [sectionExtHeaderLength, sizeSub_of_le (by omega)]
    omega
  · rw [List.length_drop]
    omega

section Table

variable {τ : Type} {parse : List UInt8 → Nat → Exec τ} {table : List UInt8 → τ}

/-- Visiting sections that are long enough for their table collects the tables. -/
theorem foldlM_visit_table
    (hparse : ∀ data available, available ≤ data.length → 4 ≤ available →
      parse data available = .ok (table (data.take available)))
    (buffer : List UInt8) (hlong : ∀ u ∈ sectionFormat.units buffer, 12 ≤ u.length)
    (calls : List τ) :
    (sectionFormat.heads buffer).foldlM
        (visit fun data available calls => do return calls ++ [← parse data available]) calls =
      .ok (calls ++ (sectionFormat.units buffer).map fun u => table (u.drop 8)) := by
  induction buffer using sectionFormat.unit_induction generalizing calls with
  | stop t h =>
    rw [Format.heads_of_incomplete _ h, Format.units_of_incomplete _ h, List.map_nil,
      List.append_nil]
    rfl
  | unit t n h ih =>
    rw [Format.units_of_complete _ h] at hlong ⊢
    have hn : 12 ≤ n := by
      have hfirst := hlong _ List.mem_cons_self
      rw [List.length_take] at hfirst
      omega
    obtain ⟨hsize, hinside, hbytes⟩ := payload_of_complete h (by omega)
    rw [Format.heads_of_complete _ h, List.foldlM_cons, visit, hsize,
      hparse _ _ hinside (by omega), hbytes, ok_bind]
    refine (ih (fun u hu => hlong u (List.mem_cons_of_mem _ hu)) _).trans ?_
    rw [List.map_cons, List.append_assoc, List.singleton_append]

/-- One `put` into a table parser: the tables of the complete sections, in order. -/
theorem put_table
    (hparse : ∀ data available, available ≤ data.length → 4 ≤ available →
      parse data available = .ok (table (data.take available)))
    {sectionData : List UInt8} {a : Arrival} (ha : a.Readable)
    (hsize : (sectionData ++ appended a).length + 8 < 2 ^ 64)
    (hlong : ∀ u ∈ sectionFormat.units (sectionData ++ appended a), 12 ≤ u.length) :
    put (fun data available calls => do return calls ++ [← parse data available]) sectionData a [] =
      .ok (sectionFormat.rest (sectionData ++ appended a),
        (sectionFormat.units (sectionData ++ appended a)).map fun u => table (u.drop 8)) := by
  rw [put_eq _ ha hsize, foldlM_visit_table hparse _ hlong, ok_bind, List.nil_append]
  rfl

end Table

end ParserPsi

end Sandstream
