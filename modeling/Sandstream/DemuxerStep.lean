import Mathlib
import Sandstream.PidFactor

/-! # Sandstream.DemuxerStep -- what one packet can do

Everything the demuxer does with a packet, said once: `consumePacket_cases` is the inversion lemma that
the registration laws rest on. A packet of a table PID reports the tables of the sections it completes,
one by one; a packet of an elementary PID hands on a buffer. The second part says which handlers and which
calls of `create` a list of reported tables leads to.
-/

namespace Sandstream

open Sandstream.Lib
open Sandstream.Lib.Frames
open ParserPsi (sectionFormat sectionLength)

variable {κ φ : Type}

/-! ## Sections and tables -/

/-- The PAT in a section. -/
def patTable (s : List UInt8) : Pat := ParserPat.table (s.drop 8)

/-- The PMT in a section. -/
def pmtTable (s : List UInt8) : Pmt := ParserPmt.table (s.drop 8)

namespace Handler

/-- The sections a packet completes in a section parser. -/
def sections (h : Handler κ) (a : Arrival) : List (List UInt8) :=
  match h with
  | .parserPat sectionData | .parserPmt sectionData =>
    sectionFormat.units (sectionData ++ ParserPsi.appended a)
  | .parserPes _ => []

/-- A section parser holds less than the longest section. -/
def Bounded : Handler κ → Prop
  | .parserPat sectionData | .parserPmt sectionData => sectionData.length < 4098
  | .parserPes _ => True

/-- Each section a packet completes is long enough for its table. -/
def LongSections (h : Handler κ) (a : Arrival) : Prop :=
  ∀ s ∈ h.sections a, 9 ≤ sectionLength s

/-- The calls that a handler can make for a packet: the tables of the completed sections, or buffers
that are handed on. -/
inductive Announces : Handler κ → Arrival → List Callback → Prop where
  | pat {sectionData : List UInt8} {a : Arrival} : Announces (.parserPat sectionData) a
      ((sectionFormat.units (sectionData ++ ParserPsi.appended a)).map fun s => .onPat (patTable s))
  | pmt {sectionData : List UInt8} {a : Arrival} : Announces (.parserPmt sectionData) a
      ((sectionFormat.units (sectionData ++ ParserPsi.appended a)).map fun s => .onPmt (pmtTable s))
  | es {consumer : κ} {a : Arrival} {calls : List Callback} :
      (∀ callback ∈ calls, ∃ buffer, callback = .onData buffer) →
      Announces (.parserPes consumer) a calls

section Feed

variable {sectionData : List UInt8} {a : Arrival}

/-- A section parser alone, `parse` being its parser of tables and `call` its callback. -/
theorem put_psi {τ : Type} {parse : List UInt8 → Nat → Exec τ} {table : List UInt8 → τ}
    (hparse : ∀ data available, available ≤ data.length → 4 ≤ available →
      parse data available = .ok (table (data.take available))) (call : τ → Callback)
    (hsize : (sectionData ++ ParserPsi.appended a).length + 8 < 2 ^ 64) (hread : a.Readable)
    (hlong : ∀ u ∈ sectionFormat.units (sectionData ++ ParserPsi.appended a), 9 ≤ sectionLength u) :
    ParserPsi.put (fun data available calls => do return calls ++ [call (← parse data available)])
        sectionData a [] =
      .ok (sectionFormat.rest (sectionData ++ ParserPsi.appended a),
        (sectionFormat.units (sectionData ++ ParserPsi.appended a)).map
          fun u => call (table (u.drop 8))) := by
  have hlength : ∀ u ∈ sectionFormat.units (sectionData ++ ParserPsi.appended a),
      12 ≤ u.length := by
    intro u hu
    have hmin := hlong u hu
    rw [ParserPsi.length_of_mem_units hu]
    omega
  rw [ParserPsi.put_collect parse (fun t calls => calls ++ [call t]),
    ParserPsi.put_table hparse hread hsize hlength, ok_bind]
  simp only [foldl_record, List.map_map]
  rfl

theorem feed_parserPat (hsize : (sectionData ++ ParserPsi.appended a).length + 8 < 2 ^ 64)
    (hread : a.Readable) (hlong : (parserPat sectionData : Handler κ).LongSections a) :
    (parserPat sectionData : Handler κ).feed a =
      .ok (.parserPat (sectionFormat.rest (sectionData ++ ParserPsi.appended a)),
        ((parserPat sectionData : Handler κ).sections a).map fun s => .onPat (patTable s)) := by
  have hput := put_psi (fun _ _ hle hcrc => ParserPat.parsePatPayload_eq hle hcrc) .onPat
    hsize hread hlong
  exact congrArg (fun x : Exec (List UInt8 × List Callback) =>
    x >>= fun r => .ok ((parserPat r.1 : Handler κ), r.2)) hput

theorem feed_parserPmt (hsize : (sectionData ++ ParserPsi.appended a).length + 8 < 2 ^ 64)
    (hread : a.Readable) (hlong : (parserPmt sectionData : Handler κ).LongSections a) :
    (parserPmt sectionData : Handler κ).feed a =
      .ok (.parserPmt (sectionFormat.rest (sectionData ++ ParserPsi.appended a)),
        ((parserPmt sectionData : Handler κ).sections a).map fun s => .onPmt (pmtTable s)) := by
  have hput := put_psi (fun _ _ hle hcrc => ParserPmt.parsePmtPayload_eq hle hcrc) .onPmt
    hsize hread hlong
  exact congrArg (fun x : Exec (List UInt8 × List Callback) =>
    x >>= fun r => .ok ((parserPmt r.1 : Handler κ), r.2)) hput

/-- A handler later on: it is of the same class, and a PES parser has its consumer still. -/
def Continues : Handler κ → Handler κ → Prop
  | .parserPat _, .parserPat _ | .parserPmt _, .parserPmt _ => True
  | .parserPes consumer, .parserPes consumer' => consumer = consumer'
  | _, _ => False

theorem continues_refl (h : Handler κ) : h.Continues h := by
  cases h with
  | parserPat => trivial
  | parserPmt => trivial
  | parserPes => rfl

theorem feed_of_not_readable (haddr : a.Addressable) (hread : ¬ a.Readable) :
    (parserPat sectionData : Handler κ).feed a =
        .error (ParserPsi.insertFault sectionData (ParserPsi.sectionsPayload a.packet)) ∧
      (parserPmt sectionData : Handler κ).feed a =
        .error (ParserPsi.insertFault sectionData (ParserPsi.sectionsPayload a.packet)) := by
  constructor
  · rw [feed, put, ParserPsi.put_of_not_readable _ hread haddr, error_bind]
  · rw [feed, put, ParserPsi.put_of_not_readable _ hread haddr, error_bind]

theorem esCalls_onData {calls : List Callback} (h : esCalls a = .ok calls) :
    ∀ callback ∈ calls, ∃ buffer, callback = .onData buffer := by
  obtain ⟨buffer, -, hrest⟩ := bind_eq_ok_iff.mp h
  cases buffer with
  | none =>
    obtain rfl := Except.ok.inj hrest
    exact fun _ hmem => absurd hmem List.not_mem_nil
  | some buffer =>
    obtain rfl := Except.ok.inj hrest
    intro callback hmem
    exact ⟨_, List.mem_singleton.mp hmem⟩

/-- What a handler alone can do with a packet. -/
theorem feed_cases {h h' : Handler κ} {calls : List Callback} (hbound : h.Bounded)
    (haddr : a.Addressable) (hlong : h.LongSections a) (hfeed : h.feed a = .ok (h', calls)) :
    h.Continues h' ∧ h'.Bounded ∧ h.Announces a calls := by
  cases h with
  | parserPat sectionData =>
    by_cases hread : a.Readable
    · have hsize := ParserPsi.buffer_lt hbound haddr
      rw [feed_parserPat hsize hread hlong, Except.ok.injEq, Prod.mk.injEq] at hfeed
      obtain ⟨rfl, rfl⟩ := hfeed
      exact ⟨trivial, ParserPsi.rest_sectionFormat_length_lt _, .pat⟩
    · rw [(feed_of_not_readable haddr hread).1] at hfeed
      exact absurd hfeed (by simp)
  | parserPmt sectionData =>
    by_cases hread : a.Readable
    · have hsize := ParserPsi.buffer_lt hbound haddr
      rw [feed_parserPmt hsize hread hlong, Except.ok.injEq, Prod.mk.injEq] at hfeed
      obtain ⟨rfl, rfl⟩ := hfeed
      exact ⟨trivial, ParserPsi.rest_sectionFormat_length_lt _, .pmt⟩
    · rw [(feed_of_not_readable haddr hread).2] at hfeed
      exact absurd hfeed (by simp)
  | parserPes consumer =>
    rw [feed_parserPes] at hfeed
    obtain ⟨calls', hcalls, hr⟩ := bind_eq_ok_iff.mp hfeed
    obtain ⟨rfl, rfl⟩ := Prod.mk.inj (Except.ok.inj hr)
    exact ⟨rfl, trivial, .es (esCalls_onData hcalls)⟩

end Feed

end Handler

/-! ## Lists of reports -/

namespace Demuxer

variable {factory : EsFactory κ φ}

/-- Several calls of the handler of a PID. -/
def reportAll (factory : EsFactory κ φ) (pid : UInt16) (calls : List Callback)
    (d : Demuxer κ φ) : Demuxer κ φ :=
  calls.foldl (fun d callback => d.report factory pid callback) d

/-- The demuxer when the handler of a PID has returned. -/
def settle (d : Demuxer κ φ) (pid : UInt16) (h : Handler κ) : Demuxer κ φ :=
  { d with packetStreams := d.packetStreams.insert pid h }

@[simp] theorem history_settle (d : Demuxer κ φ) (pid : UInt16) (h : Handler κ) :
    (d.settle pid h).history = d.history := rfl

theorem getElem?_settle (d : Demuxer κ φ) (pid k : UInt16) (h : Handler κ) :
    (d.settle pid h).packetStreams[k]? = if pid = k then some h else d.packetStreams[k]? := by
  rw [settle, Std.ExtTreeMap.getElem?_insert]
  simp only [Std.LawfulEqCmp.compare_eq_iff_eq]

/-- Writing back the handler that is there changes nothing. -/
theorem settle_self {d : Demuxer κ φ} {pid : UInt16} {h : Handler κ}
    (hk : d.packetStreams[pid]? = some h) : d.settle pid h = d := by
  have hsame : (d.settle pid h).packetStreams = d.packetStreams := by
    apply Std.ExtTreeMap.ext_getElem?
    intro k
    rw [getElem?_settle]
    split_ifs with hpid
    · rw [← hpid, hk]
    · rfl
  show (⟨d.esCallbackFactory, (d.settle pid h).packetStreams, d.history⟩ : Demuxer κ φ) = d
  rw [hsame]

/-- **The inversion lemma.** What the demuxer does with a packet, on states whose section parsers hold
less than a section, when the sections that the packet completes are long enough for their tables. -/
theorem consumePacket_cases {d d' : Demuxer κ φ} {a : Arrival} (haddr : a.Addressable)
    (hbound : ∀ h, d.packetStreams[a.packet.pid]? = some h → h.Bounded)
    (hlong : ∀ h, d.packetStreams[a.packet.pid]? = some h → h.LongSections a)
    (hstep : consumePacket factory d a = .ok d') :
    (d.packetStreams[a.packet.pid]? = none ∧ d' = d) ∨
      ∃ h h' calls, d.packetStreams[a.packet.pid]? = some h ∧ h.Continues h' ∧ h'.Bounded ∧
        h.Announces a calls ∧
        d' = (d.reportAll factory a.packet.pid calls).settle a.packet.pid h' := by
  rw [consumePacket_eq_step] at hstep
  cases hk : d.packetStreams[a.packet.pid]? with
  | none =>
    refine Or.inl ⟨rfl, ?_⟩
    exact (Except.ok.inj ((Dispatch.Dispatcher.step_of_unregistered hk).symm.trans hstep)).symm
  | some h =>
    obtain ⟨h', calls, hfeed, rfl⟩ := Dispatch.Dispatcher.step_of_registered hk hstep
    obtain ⟨hcont, hbound', hann⟩ := Handler.feed_cases (hbound h hk) haddr (hlong h hk) hfeed
    exact Or.inr ⟨h, h', calls, rfl, hcont, hbound', hann, rfl⟩

end Demuxer

end Sandstream
