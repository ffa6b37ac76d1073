import Mathlib
import Sandstream.Assertions
import Sandstream.ElementaryStream

/-! # Sandstream.Cargo -- handlers without memory

A handler reads its packet through a pointer and a size, copies, subtracts without checks, and trusts the
lengths it reads. Where a length reaches beyond the payload, a section parser leaves its memory, and a PES
parser hands on a buffer whose size has wrapped. `Handler.accept` is about all other packets, in terms of
the payload unit start indicator and the bytes of the payload alone; it takes no other.

`Handler.accept_eq_ok_iff` is the refinement, for every payload that lies inside its storage: a packet is
taken exactly if the handler returns from it and has handed on nothing but bytes that are there.
-/

namespace Sandstream

open Sandstream.Lib
open Sandstream.Lib.Frames
open Sandstream.Lib.Window
open ParserPsi (sectionFormat sectionLength)
open ParserPes (HasOptionalHeader HeaderInside headerLength)

/-! ## Sections without a CRC -/

/-- Taking off the extended header and then the CRC is taking off both, also when it wraps. -/
theorem sizeSub_sizeSub {a b c : Nat} (ha : a < 2 ^ 63) (hb : b < 2 ^ 62) (hc : c < 2 ^ 62) :
    sizeSub (sizeSub a b) c = sizeSub a (b + c) := by
  unfold sizeSub
  split_ifs <;> omega

/-- The loop goes on until it reads outside of `data`, when its bound has wrapped. -/
theorem ParserPat.patLoop_of_wrapped {data : List UInt8} {available fuel position : Nat} {pat : Pat}
    (hbound : data.length < sizeSub available crcLength) (hposition : position ≤ data.length)
    (hfuel : data.length - position < fuel) :
    patLoop data available fuel position pat = .error .outOfBounds := by
  induction fuel generalizing position pat with
  | zero => omega
  | succ fuel ih =>
    unfold patLoop
    rw [if_pos (Nat.lt_of_le_of_lt hposition hbound)]
    by_cases hone : position + 1 < data.length
    · rw [maskedTwoBytesValue_getD hone, ok_bind]
      by_cases hthree : position + twoByteValueLength + 1 < data.length
      · simp only [maskedTwoBytesValue_getD hthree, ok_bind]
        simp only [twoByteValueLength] at hthree ⊢
        exact ih (by omega) (by omega)
      · simp only [maskedTwoBytesValue_of_short (Nat.le_of_not_lt hthree), error_bind]
    · rw [maskedTwoBytesValue_of_short (Nat.le_of_not_lt hone), error_bind]

/-- Here the loop may jump behind the end, and reads there. -/
theorem ParserPmt.pmtLoop_of_wrapped {data : List UInt8} {payloadSize fuel position : Nat} {pmt : Pmt}
    (hbound : data.length + 2 ^ 17 ≤ sizeSub payloadSize crcLength)
    (hposition : position < data.length + 2 ^ 17) (hfuel : data.length - position < fuel) :
    pmtLoop data payloadSize fuel position pmt = .error .outOfBounds := by
  induction fuel generalizing position pmt with
  | zero => omega
  | succ fuel ih =>
    unfold pmtLoop
    rw [if_pos (Nat.lt_of_lt_of_le hposition hbound)]
    by_cases hzero : position < data.length
    · rw [load_getD hzero, ok_bind]
      by_cases htwo : position + 1 + 1 < data.length
      · simp only [maskedTwoBytesValue_getD htwo, ok_bind]
        by_cases hfour : position + 1 + twoByteValueLength + 1 < data.length
        · simp only [maskedTwoBytesValue_getD hfour, ok_bind]
          simp only [twoByteValueLength] at hfour ⊢
          have hinfo := (twoBytes (data.getD (position + 1 + 2) 0) (data.getD (position + 1 + 2 + 1) 0)
            0x0f).toNat_lt
          exact ih (by omega) (by omega)
        · simp only [maskedTwoBytesValue_of_short (Nat.le_of_not_lt hfour), error_bind]
      · simp only [maskedTwoBytesValue_of_short (Nat.le_of_not_lt htwo), error_bind]
    · rw [load_of_length_le (Nat.le_of_not_lt hzero), error_bind]

/-- A parser of tables that runs out of its data when the size it is given has no room for the CRC. -/
def FailsWithoutCrc {τ : Type} (parse : List UInt8 → Nat → Exec τ) : Prop :=
  ∀ data available, data.length + 2 ^ 17 ≤ sizeSub available 4 →
    parse data available = .error .outOfBounds

theorem ParserPat.parsePatPayload_failsWithoutCrc : FailsWithoutCrc parsePatPayload := by
  intro data available hbound
  have hloop : patLoop data available (data.length + 1) 0 ∅ = .error .outOfBounds :=
    patLoop_of_wrapped (Nat.lt_of_lt_of_le (Nat.lt_add_of_pos_right (by decide)) hbound)
      (Nat.zero_le _) (Nat.lt_succ_self _)
  exact hloop

theorem ParserPmt.parsePmtPayload_failsWithoutCrc : FailsWithoutCrc parsePmtPayload := by
  intro data payloadSize hbound
  unfold parsePmtPayload
  by_cases hinfo : 2 + 1 < data.length
  · have hlength := (twoBytes (data.getD 2 0) (data.getD (2 + 1) 0) 0x0f).toNat_lt
    simp only [maskedTwoBytesValue_getD hinfo, ok_bind]
    apply pmtLoop_of_wrapped hbound
    · simp only [twoByteValueLength]
      omega
    · omega
  · simp only [maskedTwoBytesValue_of_short (Nat.le_of_not_lt hinfo), error_bind]

/-- Collecting the tables of some sections: all are long enough, or the parser of tables fails. -/
theorem ParserPsi.foldlM_visit_eq {τ : Type} {parse : List UInt8 → Nat → Exec τ}
    {table : List UInt8 → τ}
    (hparse : ∀ data available, available ≤ data.length → 4 ≤ available →
      parse data available = .ok (table (data.take available)))
    (hfails : FailsWithoutCrc parse) {buffer : List UInt8} (hsize : buffer.length < 2 ^ 63 + 4098)
    (calls : List τ) :
    (sectionFormat.heads buffer).foldlM
        (visit fun data available calls => do return calls ++ [← parse data available]) calls =
      if ∀ u ∈ sectionFormat.units buffer, 9 ≤ sectionLength u then
        .ok (calls ++ (sectionFormat.units buffer).map fun u => table (u.drop 8))
      else .error .outOfBounds := by
  induction buffer using sectionFormat.unit_induction generalizing calls with
  | stop t h =>
    rw [Format.heads_of_incomplete _ h, Format.units_of_incomplete _ h,
      if_pos fun u hu => absurd hu List.not_mem_nil, List.map_nil, List.append_nil]
    rfl
  | unit t n h ih =>
    obtain ⟨hn, hle⟩ := complete_sectionFormat_iff.mp h
    have hless := sectionFormat.after_length_lt h
    have hrest := ih (Nat.lt_trans hless hsize)
    rw [Format.heads_of_complete _ h, Format.units_of_complete _ h, List.foldlM_cons]
    simp only [List.forall_mem_cons, sectionLength_take h]
    by_cases hlong : 9 ≤ sectionLength t
    · obtain ⟨havailable, hinside, hbytes⟩ := payload_of_complete h (by omega)
      rw [visit, havailable, hparse _ _ hinside (by omega), hbytes, ok_bind]
      refine (hrest _).trans ?_
      simp only [hlong, true_and, List.map_cons, List.append_assoc, List.singleton_append]
    · -- the bound of its loop is the section_length less nine
      have hwraps : sizeSub (sizeSub (sectionLength t) sectionExtHeaderLength) 4 =
          2 ^ 64 - (9 - sectionLength t) := by
        rw [sizeSub_sizeSub (Nat.lt_trans (sectionLength_lt t) (by decide)) (by decide) (by decide)]
        exact if_neg hlong
      have hvisit : visit (fun data available calls => do return calls ++ [← parse data available])
          calls t = .error .outOfBounds := by
        rw [visit, hfails _ _ ?_, error_bind]
        rw [hwraps, List.length_drop]
        omega
      rw [hvisit, error_bind, if_neg fun h => hlong h.1]

/-! ## Buffers that have wrapped -/

namespace ParserPes

/-- The header length is a byte, so a header takes up to 264 bytes. -/
theorem consumedBytes_le {data : List UInt8} {available : Nat} {r : ParseResult}
    (hr : tryParseHeader data available = .ok r) : r.consumedBytes ≤ 264 := by
  simp only [tryParseHeader] at hr
  by_cases hlen : available < 3 + 2 + 1
  · rw [if_pos hlen] at hr
    obtain rfl := Except.ok.inj hr
    exact Nat.zero_le _
  · rw [if_neg hlen] at hr
    obtain ⟨streamId, -, hrest⟩ := bind_eq_ok_iff.mp hr
    by_cases hopt : HasOptionalHeader streamId
    · rw [if_pos hopt] at hrest
      by_cases hroom : sizeSub available (3 + 1 + 2) < 2
      · rw [if_pos hroom] at hrest
        obtain rfl := Except.ok.inj hrest
        exact Nat.zero_le _
      · rw [if_neg hroom] at hrest
        obtain ⟨length, -, hresult⟩ := bind_eq_ok_iff.mp hrest
        obtain rfl := Except.ok.inj hresult
        have hbyte := length.toNat_lt
        show 3 + 1 + 2 + 2 + 1 + length.toNat ≤ 264
        omega
    · rw [if_neg hopt] at hrest
      cases hrest

/-- What is handed on: the payload, with some bytes taken off in front, if that is not empty. -/
theorem put_cases {a : Arrival} {buffer : Option ConstBuffer} (hput : put a = .ok buffer) :
    ∃ n, n ≤ 264 ∧ buffer =
      if sizeSub a.packet.payload.size n ≠ 0 then
        some ⟨a.packet.payload.data + n, sizeSub a.packet.payload.size n⟩
      else none := by
  have hresult : ∀ payload : ConstBuffer,
      (if payload.size ≠ 0 then (pure (some payload) : Exec (Option ConstBuffer)) else pure none) =
        .ok buffer → buffer = if payload.size ≠ 0 then some payload else none := by
    intro payload h
    split_ifs at h ⊢
    · exact (Except.ok.inj h).symm
    · exact (Except.ok.inj h).symm
  have hwhole : ∀ payload : ConstBuffer, payload.size = sizeSub payload.size 0 :=
    fun payload => (sizeSub_of_le (Nat.zero_le _)).symm
  unfold put at hput
  by_cases hstart : a.packet.payloadUnitStartIndicator = true
  · simp only [hstart, if_true] at hput
    obtain ⟨r, hr, hrest⟩ := bind_eq_ok_iff.mp hput
    by_cases hsuccess : r.isSuccess = true
    · rw [if_pos hsuccess] at hrest
      exact ⟨r.consumedBytes, consumedBytes_le hr, hresult _ hrest⟩
    · rw [if_neg hsuccess] at hrest
      refine ⟨0, Nat.zero_le _, ?_⟩
      rw [← hwhole]
      exact hresult _ hrest
  · rw [if_neg hstart] at hput
    refine ⟨0, Nat.zero_le _, ?_⟩
    rw [← hwhole]
    exact hresult _ hput

end ParserPes

/-- A payload as the packet constructor makes them: it lies inside the storage, or its size has wrapped
because the adaptation field is too long. -/
def Arrival.Wrapped (a : Arrival) : Prop :=
  a.packet.payload.ValidIn a.storage ∨ 2 ^ 64 - 72 ≤ a.packet.payload.size

/-- A PES parser that returns has handed on an end of a payload that lies inside the storage, or nothing
of a payload that its header may fill, or a buffer outside of the storage; of the payloads there are, the
size of that one has wrapped. -/
theorem Handler.esCalls_cases {a : Arrival} {calls : List Callback} (haddr : a.Addressable)
    (hcalls : esCalls a = .ok calls) :
    (calls = [] ∧ a.packet.payload.size ≤ 264) ∨
      (a.packet.payload.ValidIn a.storage ∧ ∃ n, calls = [.onData (.inside (a.payload.drop n))]) ∨
      ∃ b, calls = [.onData (.outside b)] ∧ (a.Wrapped → 2 ^ 63 ≤ b.size) := by
  unfold Arrival.Addressable at haddr
  obtain ⟨buffer, hput, hrest⟩ := bind_eq_ok_iff.mp hcalls
  obtain ⟨n, hn, rfl⟩ := ParserPes.put_cases hput
  by_cases hsize : sizeSub a.packet.payload.size n ≠ 0
  · rw [if_pos hsize] at hrest
    obtain rfl := Except.ok.inj hrest
    by_cases hvalid : ConstBuffer.ValidIn
        ⟨a.packet.payload.data + n, sizeSub a.packet.payload.size n⟩ a.storage
    · rw [ConstBuffer.handed_of_validIn hvalid]
      unfold ConstBuffer.ValidIn at hvalid
      dsimp only at hvalid
      -- no storage is as large as the sizes that wrap
      have hle : n ≤ a.packet.payload.size := by
        by_contra hlt
        rw [sizeSub, if_neg hlt] at hvalid
        omega
      rw [sizeSub_of_le hle] at hvalid ⊢
      refine Or.inr (Or.inl ⟨?_, n, ?_⟩)
      · unfold ConstBuffer.ValidIn
        omega
      · exact congrArg (fun bytes => [Callback.onData (.inside bytes)]) (window_drop _ _ _ _).symm
    · rw [ConstBuffer.handed_of_not_validIn hvalid]
      refine Or.inr (Or.inr ⟨_, rfl, ?_⟩)
      rintro (hinside | hwrapped)
      · -- the header is longer than the payload
        unfold ConstBuffer.ValidIn at hinside hvalid
        dsimp only at hvalid ⊢
        unfold sizeSub at hvalid ⊢
        split_ifs at hvalid ⊢ <;> omega
      · show 2 ^ 63 ≤ sizeSub a.packet.payload.size n
        unfold sizeSub
        split_ifs <;> omega
  · rw [if_neg hsize] at hrest
    obtain rfl := Except.ok.inj hrest
    refine Or.inl ⟨rfl, ?_⟩
    unfold sizeSub at hsize
    split_ifs at hsize <;> omega

/-! ## What a handler does -/

/-- What the packet carries. -/
def Arrival.cargo (a : Arrival) : Cargo := (a.packet.payloadUnitStartIndicator, a.payload)

/-- A payload that lies inside its storage. -/
structure Arrival.Stored (a : Arrival) : Prop where
  inside : a.packet.payload.ValidIn a.storage
  addressable : a.Addressable

theorem Arrival.Stored.length_eq {a : Arrival} (ha : a.Stored) :
    a.payload.length = a.packet.payload.size :=
  ConstBuffer.bytes_length ha.inside

/-- The bytes of sections, without the pointer_field. -/
def sectionBytes (c : Cargo) : List UInt8 := if c.1 then c.2.drop 1 else c.2

/-- What comes of a packet, if it can be taken. -/
abbrev Taken (α : Type) := Except Unit α

/-- A section parser that holds `sectionData` can take the packet: its pointer_field is there, and the
sections it completes are long enough for their tables. -/
def TakesSections (sectionData : List UInt8) (c : Cargo) : Prop :=
  (c.1 = true → 1 ≤ c.2.length) ∧
    ∀ u ∈ sectionFormat.units (sectionData ++ sectionBytes c), 9 ≤ sectionLength u

instance (sectionData : List UInt8) (c : Cargo) : Decidable (TakesSections sectionData c) :=
  inferInstanceAs (Decidable (_ ∧ _))

/-- A PES parser can take the packet: where it looks for a header, the stream has one, and it is there. -/
def TakesHeader (c : Cargo) : Prop :=
  c.1 = true → (6 ≤ c.2.length → HasOptionalHeader (c.2.getD 3 0)) ∧
    (8 ≤ c.2.length → headerLength c.2 ≤ c.2.length)

instance (c : Cargo) : Decidable (TakesHeader c) := inferInstanceAs (Decidable (_ → _))

/-- The bytes that are handed on of a packet, if it can be taken. -/
def handedOn (c : Cargo) : List UInt8 :=
  if c.1 = true ∧ 8 ≤ c.2.length then c.2.drop (headerLength c.2) else c.2

namespace Handler

variable {κ : Type}

/-- What a handler makes of a packet that it can take. -/
def accept (h : Handler κ) (c : Cargo) : Taken (Handler κ × List Callback) :=
  match h with
  | .parserPat sectionData =>
    if TakesSections sectionData c then
      .ok (.parserPat (sectionFormat.rest (sectionData ++ sectionBytes c)),
        (sectionFormat.units (sectionData ++ sectionBytes c)).map fun s =>
          .onPat (ParserPat.table (s.drop 8)))
    else .error ()
  | .parserPmt sectionData =>
    if TakesSections sectionData c then
      .ok (.parserPmt (sectionFormat.rest (sectionData ++ sectionBytes c)),
        (sectionFormat.units (sectionData ++ sectionBytes c)).map fun s =>
          .onPmt (ParserPmt.table (s.drop 8)))
    else .error ()
  | .parserPes consumer =>
    if TakesHeader c then .ok (.parserPes consumer, dataCalls (handedOn c)) else .error ()

/-- The handler can take the packet. -/
def Takes (h : Handler κ) (c : Cargo) : Prop :=
  match h with
  | .parserPat sectionData | .parserPmt sectionData => TakesSections sectionData c
  | .parserPes _ => TakesHeader c

instance (h : Handler κ) (c : Cargo) : Decidable (h.Takes c) :=
  match h with
  | .parserPat sectionData => inferInstanceAs (Decidable (TakesSections sectionData c))
  | .parserPmt sectionData => inferInstanceAs (Decidable (TakesSections sectionData c))
  | .parserPes _ => inferInstanceAs (Decidable (TakesHeader c))

theorem accept_returns_iff (h : Handler κ) (c : Cargo) : (∃ r, h.accept c = .ok r) ↔ h.Takes c := by
  unfold accept Takes
  cases h with
  | parserPat sectionData =>
    by_cases htakes : TakesSections sectionData c <;> simp [htakes]
  | parserPmt sectionData =>
    by_cases htakes : TakesSections sectionData c <;> simp [htakes]
  | parserPes consumer =>
    by_cases htakes : TakesHeader c <;> simp [htakes]

/-! ## The refinement -/

variable {a : Arrival} {sectionData : List UInt8}

section PutPsi

variable {τ : Type} {parse : List UInt8 → Nat → Exec τ} {table : List UInt8 → τ}
  (hparse : ∀ data available, available ≤ data.length → 4 ≤ available →
    parse data available = .ok (table (data.take available)))
  (hfails : FailsWithoutCrc parse) (call : τ → Callback) (ha : a.Stored)
  (hbound : sectionData.length < 4098)

include hparse hfails ha hbound

/-- A section parser on a packet that has its pointer_field. -/
theorem put_psi_of_pointerField
    (hpointer : a.packet.payloadUnitStartIndicator = true → 1 ≤ a.payload.length) :
    ParserPsi.put (fun data available calls => do return calls ++ [call (← parse data available)])
        sectionData a [] =
      if ∀ u ∈ sectionFormat.units (sectionData ++ sectionBytes a.cargo), 9 ≤ sectionLength u then
        .ok (sectionFormat.rest (sectionData ++ sectionBytes a.cargo),
          (sectionFormat.units (sectionData ++ sectionBytes a.cargo)).map
            fun u => call (table (u.drop 8)))
      else .error .outOfBounds := by
  have hlen := ha.length_eq
  have happended : ParserPsi.appended a = sectionBytes a.cargo := rfl
  have hle := ParserPsi.appended_length_le a
  have haddr : a.storage.length < 2 ^ 63 := ha.addressable
  have hread : a.Readable := ⟨ha.inside, fun hstart => hlen ▸ hpointer hstart⟩
  have hsize : (sectionData ++ ParserPsi.appended a).length < 2 ^ 63 + 4098 := by
    rw [List.length_append]
    omega
  rw [ParserPsi.put_collect parse (fun t calls => calls ++ [call t]), ParserPsi.put_eq _ hread (by omega),
    ParserPsi.foldlM_visit_eq hparse hfails hsize, ← happended]
  split_ifs with hlong
  · simp only [ok_bind, pure_bind, List.nil_append, foldl_record, List.map_map]
    rfl
  · rfl

theorem put_psi_of_takes (htakes : TakesSections sectionData a.cargo) :
    ParserPsi.put (fun data available calls => do return calls ++ [call (← parse data available)])
        sectionData a [] =
      .ok (sectionFormat.rest (sectionData ++ sectionBytes a.cargo),
        (sectionFormat.units (sectionData ++ sectionBytes a.cargo)).map
          fun u => call (table (u.drop 8))) := by
  rw [put_psi_of_pointerField hparse hfails call ha hbound htakes.1, if_pos htakes.2]

/-- From any other packet a section parser does not return; it does not loop for ever either. -/
theorem put_psi_of_not_takes (hnot : ¬ TakesSections sectionData a.cargo) :
    ∃ e, e ≠ .outOfFuel ∧
      ParserPsi.put (fun data available calls => do return calls ++ [call (← parse data available)])
        sectionData a [] = .error e := by
  have hlen := ha.length_eq
  by_cases hpointer : a.packet.payloadUnitStartIndicator = true → 1 ≤ a.payload.length
  · refine ⟨.outOfBounds, by decide, ?_⟩
    rw [put_psi_of_pointerField hparse hfails call ha hbound hpointer]
    exact if_neg fun hlong => hnot ⟨hpointer, hlong⟩
  · have hread : ¬ a.Readable := fun h => hpointer fun hstart => hlen ▸ h.pointerField hstart
    exact ⟨_, ParserPsi.insertFault_ne (by decide) (by decide) _ _,
      ParserPsi.put_of_not_readable _ hread ha.addressable⟩

/-- The section parsers return exactly from the packets they can take. -/
theorem put_psi_eq_ok_iff {r : List UInt8 × List Callback} :
    ParserPsi.put (fun data available calls => do return calls ++ [call (← parse data available)])
        sectionData a [] = .ok r ↔
      TakesSections sectionData a.cargo ∧
        (sectionFormat.rest (sectionData ++ sectionBytes a.cargo),
          (sectionFormat.units (sectionData ++ sectionBytes a.cargo)).map
            fun u => call (table (u.drop 8))) = r := by
  by_cases htakes : TakesSections sectionData a.cargo
  · rw [put_psi_of_takes hparse hfails call ha hbound htakes, Except.ok.injEq]
    exact (and_iff_right htakes).symm
  · obtain ⟨e, -, hput⟩ := put_psi_of_not_takes hparse hfails call ha hbound htakes
    rw [hput]
    refine iff_of_false ?_ fun h => htakes h.1
    intro h
    cases h

end PutPsi

end Handler

namespace ParserPes

variable {a : Arrival}

/-- A packet whose header is waited for is handed on as it is. -/
theorem put_of_waiting (h : tryParseHeader (a.storage.drop a.packet.payload.data) a.packet.payload.size =
    .ok {}) : put a = .ok (suffixFrom a.packet.payload 0) := by
  unfold put suffixFrom
  cases hstart : a.packet.payloadUnitStartIndicator with
  | false =>
    simp only [Bool.false_eq_true, if_false, pure_bind, Nat.sub_zero, Nat.add_zero]
    split_ifs <;> rfl
  | true =>
    simp only [if_true, h, ok_bind, Bool.false_eq_true, if_false, pure_bind, Nat.sub_zero, Nat.add_zero]
    split_ifs <;> rfl

end ParserPes

namespace Handler

variable {κ : Type} {a : Arrival}

/-- Where a header is announced that is longer than the payload, the size of what is left wraps, and a
buffer is handed on that is not there. -/
theorem esCalls_of_cut (ha : a.Stored) (hstart : a.packet.payloadUnitStartIndicator = true)
    (hlong : 8 ≤ a.payload.length) (hopt : HasOptionalHeader (a.payload.getD 3 0))
    (hcut : ¬ headerLength a.payload ≤ a.payload.length) {calls : List Callback}
    (hcalls : esCalls a = .ok calls) : ∃ b, calls = [.onData (.outside b)] := by
  have hlen := ha.length_eq
  have haddr : a.storage.length < 2 ^ 63 := ha.addressable
  have hparse := ParserPes.tryParseHeader_of_long (hlen ▸ hlong)
    (ParserPes.load_payload ha.inside (by omega)) hopt
  unfold esCalls ParserPes.put at hcalls
  simp only [hstart, if_true, hparse] at hcalls
  cases hbyte : load (a.storage.drop a.packet.payload.data) 8 with
  | error e =>
    -- the ninth of eight bytes may be the first one behind the storage
    rw [hbyte] at hcalls
    cases hcalls
  | ok length =>
    have hshort : a.packet.payload.size < 9 + length.toNat := by
      by_contra hge
      apply hcut
      rw [ParserPes.load_payload ha.inside (by omega), Except.ok.injEq] at hbyte
      unfold headerLength
      rw [hbyte]
      omega
    have hless := length.toNat_lt
    have hwraps : sizeSub a.packet.payload.size (9 + length.toNat) =
        2 ^ 64 - (9 + length.toNat - a.packet.payload.size) := if_neg (Nat.not_le.mpr hshort)
    have houtside : ¬ ConstBuffer.ValidIn ⟨a.packet.payload.data + (9 + length.toNat),
        sizeSub a.packet.payload.size (9 + length.toNat)⟩ a.storage := by
      unfold ConstBuffer.ValidIn
      dsimp only
      rw [hwraps]
      omega
    have hsome : sizeSub a.packet.payload.size (9 + length.toNat) ≠ 0 := by
      rw [hwraps]
      omega
    simp only [hbyte, ok_bind, pure_bind, if_true, if_pos hsome,
      ConstBuffer.handed_of_not_validIn houtside] at hcalls
    exact ⟨_, (Except.ok.inj hcalls).symm⟩

/-- A packet that a PES parser can take. -/
theorem esCalls_of_takes (ha : a.Stored) (htakes : TakesHeader a.cargo) :
    esCalls a = .ok (dataCalls (handedOn a.cargo)) := by
  have hlen := ha.length_eq
  cases hstart : a.packet.payloadUnitStartIndicator with
  | false =>
    have hput := ParserPes.put_of_not_start hstart
    have hnot : ¬ a.cargo.1 = true := Bool.eq_false_iff.mp hstart
    rw [esCalls_of_put ha.inside (Nat.zero_le _) hput, handedOn, if_neg fun h => hnot h.1]
    rfl
  | true =>
    have hyes : a.cargo.1 = true := hstart
    obtain ⟨hopt, hinside⟩ := htakes hyes
    by_cases hlong : 8 ≤ a.payload.length
    · have hheader : headerLength a.payload ≤ a.payload.length := hinside hlong
      have hsix : 6 ≤ a.payload.length := by omega
      have hput := ParserPes.put_of_header ⟨ha.inside, by omega⟩ hstart ⟨hopt hsix, hheader⟩
      rw [esCalls_of_put ha.inside (hlen ▸ hheader) hput, handedOn, if_pos ⟨hyes, hlong⟩]
      rfl
    · have hparse := @ParserPes.tryParseHeader_of_short
        (a.storage.drop a.packet.payload.data) a.packet.payload.size (a.payload.getD 3 0) (by omega)
        fun hsix => ⟨ParserPes.load_payload ha.inside (by omega), hopt (hlen ▸ hsix)⟩
      have hput := ParserPes.put_of_waiting hparse
      rw [esCalls_of_put ha.inside (Nat.zero_le _) hput, handedOn, if_neg fun h => hlong h.2]
      rfl

/-- From any other packet it does not return, or it hands on a buffer that is not there. -/
theorem esCalls_of_not_takes (ha : a.Stored) (hnot : ¬ TakesHeader a.cargo) {calls : List Callback}
    (hcalls : esCalls a = .ok calls) : ∃ b, calls = [.onData (.outside b)] := by
  have hlen := ha.length_eq
  unfold TakesHeader at hnot
  rw [Classical.not_imp, Classical.not_and_iff_not_or_not] at hnot
  obtain ⟨hstart, hnot⟩ := hnot
  have hid : 6 ≤ a.payload.length → HasOptionalHeader (a.payload.getD 3 0) := by
    intro hsix
    by_contra hopt
    -- the assertion fails
    have hbyte : load (a.storage.drop a.packet.payload.data) 3 = .ok (a.payload.getD 3 0) :=
      ParserPes.load_payload ha.inside (by omega)
    have hget : a.storage[a.packet.payload.data + 3]? = some (a.payload.getD 3 0) := by
      rw [load_drop, load] at hbyte
      split at hbyte
      · rename_i b hb
        rw [hb, Except.ok.inj hbyte]
      · cases hbyte
    have hfails := (ParserPes.put_assertion_iff a).mpr ⟨hstart, hlen ▸ hsix, _, hget, hopt⟩
    rw [esCalls, hfails] at hcalls
    cases hcalls
  rcases hnot with hopt | hcut
  · exact absurd hid hopt
  · rw [Classical.not_imp] at hcut
    obtain ⟨hlong, hcut⟩ := hcut
    have height : 8 ≤ a.payload.length := hlong
    exact esCalls_of_cut ha hstart height (hid (by omega)) hcut hcalls

/-- The section parsers: `call` is what they report of a table, `wrap` the parser as a handler. -/
theorem psi_accept_iff {τ : Type} {parse : List UInt8 → Nat → Exec τ} {table : List UInt8 → τ}
    (hparse : ∀ data available, available ≤ data.length → 4 ≤ available →
      parse data available = .ok (table (data.take available)))
    (hfails : FailsWithoutCrc parse) {call : τ → Callback} (hcall : ∀ t, (call t).IsInside)
    (wrap : List UInt8 → Handler κ) (ha : a.Stored) {sectionData : List UInt8}
    (hbound : sectionData.length < 4098) {r : Handler κ × List Callback} :
    (if TakesSections sectionData a.cargo then
      .ok (wrap (sectionFormat.rest (sectionData ++ sectionBytes a.cargo)),
        (sectionFormat.units (sectionData ++ sectionBytes a.cargo)).map
          fun u => call (table (u.drop 8)))
    else .error () : Taken (Handler κ × List Callback)) = .ok r ↔
      (do
        let (sectionData, calls) ← ParserPsi.put
          (fun data available calls => do return calls ++ [call (← parse data available)])
          sectionData a []
        return (wrap sectionData, calls)) = .ok r ∧ ∀ callback ∈ r.2, callback.IsInside := by
  rw [bind_eq_ok_iff]
  constructor
  · intro haccept
    split_ifs at haccept with htakes
    obtain rfl := Except.ok.inj haccept
    refine ⟨⟨_, (put_psi_eq_ok_iff hparse hfails call ha hbound).mpr ⟨htakes, rfl⟩, rfl⟩, ?_⟩
    intro callback hmem
    obtain ⟨u, -, rfl⟩ := List.mem_map.mp hmem
    exact hcall _
  · rintro ⟨⟨x, hput, hresult⟩, -⟩
    obtain ⟨htakes, rfl⟩ := (put_psi_eq_ok_iff hparse hfails call ha hbound).mp hput
    rw [if_pos htakes]
    exact congrArg Except.ok (Except.ok.inj hresult)

/-- **The handlers are functions of the cargo**, for the packets they can take, as long as a section parser
holds less than a section. -/
theorem accept_eq_ok_iff {h : Handler κ} (ha : a.Stored) (hbound : h.Bounded)
    {r : Handler κ × List Callback} :
    h.accept a.cargo = .ok r ↔ h.feed a = .ok r ∧ ∀ callback ∈ r.2, callback.IsInside := by
  cases h with
  | parserPat sectionData =>
    have hpat : ∀ update : Pat, (Callback.onPat update).IsInside := fun _ => trivial
    exact psi_accept_iff (fun _ _ hle hcrc => ParserPat.parsePatPayload_eq hle hcrc)
      ParserPat.parsePatPayload_failsWithoutCrc hpat .parserPat ha hbound
  | parserPmt sectionData =>
    have hpmt : ∀ update : Pmt, (Callback.onPmt update).IsInside := fun _ => trivial
    exact psi_accept_iff (fun _ _ hle hcrc => ParserPmt.parsePmtPayload_eq hle hcrc)
      ParserPmt.parsePmtPayload_failsWithoutCrc hpmt .parserPmt ha hbound
  | parserPes consumer =>
    rw [feed_parserPes]
    unfold accept
    constructor
    · intro haccept
      dsimp only at haccept
      split_ifs at haccept with htakes
      obtain rfl := Except.ok.inj haccept
      rw [esCalls_of_takes ha htakes]
      refine ⟨rfl, ?_⟩
      intro callback hmem
      obtain ⟨bytes, rfl⟩ := inside_of_mem_dataCalls hmem
      trivial
    · rintro ⟨hfeed, hinside⟩
      obtain ⟨calls, hcalls, hresult⟩ := bind_eq_ok_iff.mp hfeed
      obtain rfl := Except.ok.inj hresult
      by_cases htakes : TakesHeader a.cargo
      · rw [esCalls_of_takes ha htakes, Except.ok.injEq] at hcalls
        dsimp only
        rw [if_pos htakes, hcalls]
      · obtain ⟨b, rfl⟩ := esCalls_of_not_takes ha htakes hcalls
        exact absurd (hinside _ List.mem_cons_self) id

end Handler

end Sandstream
