import Mathlib
import Sandstream.Parcel
import Sandstream.Registration

/-! # Sandstream.Footprint -- what a run can need

A section that is too short for its table ends the run, so in a run that goes on all sections are long
enough, and the registration invariant `Registered` holds without a condition on the sections.

`footprint_of_run` bounds from it what the demuxer keeps in any run: the handlers, the bytes in
`section_data`, and the consumers it asks for. `Registered.consumePacket_ends` says that no packet keeps
it in a loop.
-/

namespace Sandstream

open Sandstream.Lib
open ParserPsi (sectionFormat sectionLength)

/-! ## Executions that end -/

/-- No loop has used up its fuel. -/
def Ends {α : Type} (x : Exec α) : Prop := x ≠ .error .outOfFuel

section Ends

variable {α β : Type} {x : Exec α} {f : α → Exec β}

theorem ends_ok {r : α} : Ends (.ok r) := by
  intro h
  cases h

theorem Ends.bind (hx : Ends x) (hf : ∀ r, Ends (f r)) : Ends (x >>= f) := by
  cases x with
  | ok r => exact hf r
  | error e => exact fun h => hx (congrArg Except.error (Except.error.inj h))

theorem load_ends (data : List UInt8) (i : Nat) : Ends (load data i) := by
  intro h
  unfold load at h
  split at h <;> cases h

end Ends

namespace ParserPes

theorem tryParseHeader_ends (data : List UInt8) (available : Nat) :
    Ends (tryParseHeader data available) := by
  simp only [tryParseHeader]
  split
  · exact ends_ok
  · apply Ends.bind (load_ends _ _)
    intro streamId
    split
    · split
      · exact ends_ok
      · exact (load_ends _ _).bind fun length => ends_ok
    · -- the stream_ids without an optional header fail an assertion
      intro h
      cases h

theorem put_ends (a : Arrival) : Ends (put a) := by
  have hlast : ∀ payload : ConstBuffer,
      Ends (if payload.size ≠ 0 then (pure (some payload) : Exec (Option ConstBuffer)) else pure none) := by
    intro payload
    split <;> exact ends_ok
  unfold put
  dsimp only
  split
  · apply Ends.bind (tryParseHeader_ends _ _)
    intro r
    split <;> exact hlast _
  · exact hlast _

end ParserPes

variable {κ φ : Type} {factory : EsFactory κ φ}

/-! ## Handlers -/

namespace Handler

variable {h : Handler κ} {a : Arrival} {r : Handler κ × List Callback}

/-- The calls of a section parser hand on no buffers. -/
theorem inside_of_psi (hpsi : ∀ consumer, h ≠ .parserPes consumer) (hfeed : h.feed a = .ok r) :
    ∀ callback ∈ r.2, callback.IsInside := by
  intro callback hmem
  cases callback with
  | onPat update => trivial
  | onPmt update => trivial
  | onData buffer =>
    obtain ⟨consumer, hes⟩ := (feed_reports hfeed).parserPes_of_onData hmem
    exact absurd hes (hpsi consumer)

/-- A section parser returns only from sections that are long enough. -/
theorem longSections_of_feed (haddr : a.Addressable) (hbound : h.Bounded)
    (hfeed : h.feed a = .ok r) : h.LongSections a := by
  cases h with
  | parserPes consumer => exact fun s hs => absurd hs List.not_mem_nil
  | parserPat sectionData =>
    by_cases hin : a.packet.payload.ValidIn a.storage
    · have hinside := inside_of_psi (by simp) hfeed
      have haccept := (accept_eq_ok_iff ⟨hin, haddr⟩ hbound).mpr ⟨hfeed, hinside⟩
      exact ((accept_returns_iff _ a.cargo).mp ⟨r, haccept⟩).2
    · rw [(feed_of_not_readable haddr fun hread => hin hread.inside).1] at hfeed
      cases hfeed
  | parserPmt sectionData =>
    by_cases hin : a.packet.payload.ValidIn a.storage
    · have hinside := inside_of_psi (by simp) hfeed
      have haccept := (accept_eq_ok_iff ⟨hin, haddr⟩ hbound).mpr ⟨hfeed, hinside⟩
      exact ((accept_returns_iff _ a.cargo).mp ⟨r, haccept⟩).2
    · rw [(feed_of_not_readable haddr fun hread => hin hread.inside).2] at hfeed
      cases hfeed

/-- The parts of a PES parser have no loops. -/
theorem esCalls_ends (a : Arrival) : Ends (esCalls a) := by
  unfold esCalls
  apply Ends.bind (ParserPes.put_ends a)
  intro buffer
  cases buffer with
  | none => exact ends_ok
  | some b => exact ends_ok

/-- The loops of the section parsers end: `call` is what they report of a table, `wrap` the parser as a
handler. -/
theorem psi_ends {τ : Type} {parse : List UInt8 → Nat → Exec τ} {table : List UInt8 → τ}
    (hparse : ∀ data available, available ≤ data.length → 4 ≤ available →
      parse data available = .ok (table (data.take available)))
    (hfails : FailsWithoutCrc parse) (call : τ → Callback) (wrap : List UInt8 → Handler κ)
    (haddr : a.Addressable) {sectionData : List UInt8} (hbound : sectionData.length < 4098) :
    Ends (do
      let (sectionData, calls) ← ParserPsi.put
        (fun data available calls => do return calls ++ [call (← parse data available)])
        sectionData a []
      return (wrap sectionData, calls)) := by
  refine Ends.bind ?_ fun _ => ends_ok
  by_cases hin : a.packet.payload.ValidIn a.storage
  · by_cases htakes : TakesSections sectionData a.cargo
    · rw [put_psi_of_takes hparse hfails call ⟨hin, haddr⟩ hbound htakes]
      exact ends_ok
    · obtain ⟨e, he, hput⟩ := put_psi_of_not_takes hparse hfails call ⟨hin, haddr⟩ hbound htakes
      rw [hput]
      exact fun h => he (Except.error.inj h)
  · rw [ParserPsi.put_of_not_readable _ (fun hread => hin hread.inside) haddr]
    have hfault : ParserPsi.insertFault sectionData (ParserPsi.sectionsPayload a.packet) ≠ .outOfFuel :=
      ParserPsi.insertFault_ne (by decide) (by decide) _ _
    exact fun h => hfault (Except.error.inj h)

/-- No handler keeps the demuxer in a loop. -/
theorem feed_ends (haddr : a.Addressable) (hbound : h.Bounded) : Ends (h.feed a) := by
  cases h with
  | parserPes consumer =>
    rw [feed_parserPes]
    exact (esCalls_ends a).bind fun calls => ends_ok
  | parserPat sectionData =>
    exact psi_ends (fun _ _ hle hcrc => ParserPat.parsePatPayload_eq hle hcrc)
      ParserPat.parsePatPayload_failsWithoutCrc .onPat .parserPat haddr hbound
  | parserPmt sectionData =>
    exact psi_ends (fun _ _ hle hcrc => ParserPmt.parsePmtPayload_eq hle hcrc)
      ParserPmt.parsePmtPayload_failsWithoutCrc .onPmt .parserPmt haddr hbound

/-- The bytes in the `section_data` of a handler. -/
def held : Handler κ → Nat
  | .parserPat sectionData | .parserPmt sectionData => sectionData.length
  | .parserPes _ => 0

theorem held_le_of_bounded (hbound : h.Bounded) : h.held ≤ 4097 := by
  cases h with
  | parserPat sectionData => exact Nat.le_of_lt_succ hbound
  | parserPmt sectionData => exact Nat.le_of_lt_succ hbound
  | parserPes consumer => exact Nat.zero_le _

end Handler

/-! ## Runs -/

namespace Demuxer

variable {d d' : Demuxer κ φ} {a : Arrival} {arrivals : List Arrival} {state : φ}

/-- The step lemma: a packet that is taken keeps the invariant. -/
theorem Registered.step_of_ok (hd : Registered d) (haddr : a.Addressable)
    (hstep : consumePacket factory d a = .ok d') : Registered d' := by
  apply hd.step haddr _ hstep
  intro h hk
  rw [consumePacket_eq_step] at hstep
  obtain ⟨h', calls, hfeed, -⟩ := Dispatch.Dispatcher.step_of_registered hk hstep
  exact Handler.longSections_of_feed haddr (hd.bounded _ h hk) hfeed

/-- The run lemma. -/
theorem registered_of_consume (haddr : ∀ a ∈ arrivals, a.Addressable)
    (hrun : consume factory (new state) arrivals = .ok d) : Registered d := by
  refine run_induction (P := fun _ d => Registered d) (registered_new state) ?_
    (List.prefix_refl arrivals) hrun
  intro before a after d d' hsplit _ hstep hd
  exact hd.step_of_ok (haddr a (hsplit ▸ List.mem_append_right _ List.mem_cons_self)) hstep

/-- What the demuxer keeps. -/
structure Footprint (d : Demuxer κ φ) : Prop where
  handlers : d.packetStreams.size ≤ 8192
  sectionData : ∀ (pid : UInt16) h, d.packetStreams[pid]? = some h → h.held ≤ 4097
  total : (d.packetStreams.toList.map fun e => e.2.held).sum ≤ 8192 * 4097
  consumers : (createsOf d.history).length ≤ 8191

/-- There is room for 8192 keys. -/
theorem Registered.size_le (hd : Registered d) : d.packetStreams.size ≤ 8192 := by
  have hnodup : (d.packetStreams.keys.map UInt16.toNat).Nodup :=
    (Std.ExtTreeMap.nodup_keys (t := d.packetStreams)).map fun _ _ => UInt16.toNat_inj.mp
  have hrange : ∀ n ∈ d.packetStreams.keys.map UInt16.toNat, n ∈ Finset.range 8192 := by
    intro n hn
    obtain ⟨pid, hmem, rfl⟩ := List.mem_map.mp hn
    rw [Std.ExtTreeMap.mem_keys] at hmem
    obtain ⟨h, hk⟩ := Option.isSome_iff_exists.mp (Std.ExtTreeMap.mem_iff_isSome_getElem?.mp hmem)
    rw [Finset.mem_range]
    exact UInt16.lt_iff_toNat_lt.mp (hd.keys pid h hk)
  have hcard : (d.packetStreams.keys.map UInt16.toNat).toFinset.card ≤ (Finset.range 8192).card :=
    Finset.card_le_card fun n hn => hrange n (List.mem_toFinset.mp hn)
  rw [List.toFinset_card_of_nodup hnodup, List.length_map, Std.ExtTreeMap.length_keys,
    Finset.card_range] at hcard
  exact hcard

theorem Registered.footprint (hd : Registered d) : Footprint d := by
  have hheld : ∀ (pid : UInt16) h, d.packetStreams[pid]? = some h → h.held ≤ 4097 :=
    fun pid h hk => Handler.held_le_of_bounded (hd.bounded pid h hk)
  refine ⟨hd.size_le, hheld, ?_, created_length_le hd⟩
  have hsum := List.sum_le_card_nsmul (d.packetStreams.toList.map fun e => e.2.held) 4097 ?_
  · rw [List.length_map, Std.ExtTreeMap.length_toList, smul_eq_mul] at hsum
    exact hsum.trans (Nat.mul_le_mul_right _ hd.size_le)
  · intro n hn
    obtain ⟨e, he, rfl⟩ := List.mem_map.mp hn
    exact hheld e.1 e.2 (Std.ExtTreeMap.mem_toList_iff_getElem?_eq_some.mp he)

/-- **Bounded memory.** Whatever the packets hold, and however many they are: while the run goes on there
are at most 8192 handlers, each with less than the longest section in its `section_data`, and at most
8191 consumers have been asked for. -/
theorem footprint_of_run (factory : EsFactory κ φ) (state : φ)
    (haddr : ∀ a ∈ arrivals, a.Addressable) :
    IfReturns (consume factory (new state) arrivals) Footprint := by
  cases hrun : consume factory (new state) arrivals with
  | error e => exact ifReturns_error.mpr trivial
  | ok d => exact ifReturns_ok.mpr (registered_of_consume haddr hrun).footprint

theorem footprint_of_run_announcedBlocks :
    IfReturns (consume pidFactory (new ()) (announcedBlocks.map TsBlock.arrival)) Footprint := by
  apply footprint_of_run
  intro a ha
  obtain ⟨b, -, rfl⟩ := List.mem_map.mp ha
  exact b.addressable

/-- No packet keeps the demuxer in a loop. -/
theorem Registered.consumePacket_ends (hd : Registered d) (haddr : a.Addressable) :
    Ends (consumePacket factory d a) := by
  intro hstep
  unfold consumePacket at hstep
  cases hk : d.packetStreams[a.packet.pid]? with
  | none =>
    rw [hk] at hstep
    exact nomatch hstep
  | some stream =>
    rw [hk] at hstep
    dsimp only at hstep
    rw [Handler.put_eq_feed] at hstep
    cases hfeed : stream.feed a with
    | ok r =>
      rw [hfeed] at hstep
      exact nomatch hstep
    | error e =>
      rw [hfeed] at hstep
      have he : e = .outOfFuel := Except.error.inj hstep
      exact Handler.feed_ends haddr (hd.bounded _ _ hk) (hfeed.trans (congrArg _ he))

end Demuxer

end Sandstream
