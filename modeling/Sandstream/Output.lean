import Mathlib
import Sandstream.Lib.Journal
import Sandstream.CallbackEs
import Sandstream.ElementaryStream

/-! # Sandstream.Output -- the files of the tool

The user of the demuxer in `main`: `elementary_stream_handler_t` opens a file for each elementary stream
and names it by the PID, and `output_sink_t` writes what it is given to its file. The files are the
state they act on. A write that an open file cannot take ends the run with an exception.

`output_files` says what is in the files after any run, however it has ended: those of the created streams
hold the bytes handed on for their PIDs, and no other file has changed.
-/

namespace Sandstream

open Sandstream.Lib
open Sandstream.Lib.Journal (Entry Stores Disciplined openings itemsOf)

/-! ## Files -/

/-- The files there are, by name, and their bytes. -/
abbrev Files := Stores String UInt8

/-- Which files can be opened. -/
structure Access where
  readable : String → Bool
  writable : String → Bool

/-- An `std::ofstream`. -/
structure Ofstream where
  filename : String
  isOpen : Bool
  deriving Repr, DecidableEq

/-- `std::ofstream(filename, std::ios::binary)`. A file that cannot be opened leaves the stream failed,
which is not looked at. -/
def Ofstream.ofFilename (access : Access) (files : Files) (filename : String) : Ofstream × Files :=
  if access.writable filename then
    (⟨filename, true⟩, Entry.act files (.opened filename))
  else
    (⟨filename, false⟩, files)

/-- `std::ostream::write`, with `badbit` in `exceptions()`. On a failed stream it does nothing. -/
def Ofstream.write (sink : Ofstream) (buffer : Handed) (files : Files) : Outcome Files Files :=
  if sink.isOpen then
    match buffer with
    | .inside bytes => return Entry.act files (.appended sink.filename bytes)
    | .outside buffer =>
      -- the size is taken for a `std::streamsize`: a negative one writes nothing and sets `badbit`
      if 2 ^ 63 ≤ buffer.size then throw (.thrown files) else throw (.fault .outOfBounds)
  else
    return files

section Write

variable {sink : Ofstream} {buffer : Handed} {files files' : Files}

theorem Ofstream.write_of_failed (hopen : sink.isOpen = false) :
    sink.write buffer files = .ok files := by
  unfold write
  rw [hopen]
  rfl

theorem Ofstream.write_inside (hopen : sink.isOpen = true) (bytes : List UInt8) :
    sink.write (.inside bytes) files = .ok (Entry.act files (.appended sink.filename bytes)) := by
  unfold write
  rw [hopen]
  rfl

theorem Ofstream.write_outside (hopen : sink.isOpen = true) (b : ConstBuffer) :
    sink.write (.outside b) files =
      .error (if 2 ^ 63 ≤ b.size then .thrown files else .fault .outOfBounds) := by
  unfold write
  rw [hopen, if_pos rfl]
  dsimp only
  split_ifs <;> rfl

/-- A write returns unless it tells an open file to take a buffer that is not there. -/
theorem Ofstream.write_eq_ok_iff :
    sink.write buffer files = .ok files' ↔ (sink.isOpen = true → buffer.IsInside) ∧
      files' = if sink.isOpen then Entry.act files (.appended sink.filename buffer.bytes) else files := by
  cases hopen : sink.isOpen with
  | false =>
    rw [write_of_failed hopen, Except.ok.injEq, eq_comm]
    exact (and_iff_right fun h => absurd h Bool.false_ne_true).symm
  | true =>
    cases buffer with
    | inside bytes =>
      rw [write_inside hopen, Except.ok.injEq, eq_comm]
      exact (and_iff_right fun _ => trivial).symm
    | outside b =>
      rw [write_outside hopen]
      refine iff_of_false ?_ fun h => h.1 rfl
      intro h
      cases h

/-- It throws for a negative size, and leaves the files as they are. -/
theorem Ofstream.write_thrown_iff :
    sink.write buffer files = .error (.thrown files') ↔
      (sink.isOpen = true ∧ ∃ b, buffer = .outside b ∧ 2 ^ 63 ≤ b.size) ∧ files' = files := by
  cases hopen : sink.isOpen with
  | false =>
    rw [write_of_failed hopen]
    refine iff_of_false ?_ fun h => Bool.false_ne_true h.1.1
    intro h
    cases h
  | true =>
    cases buffer with
    | inside bytes =>
      rw [write_inside hopen]
      refine iff_of_false ?_ ?_
      · intro h
        cases h
      · rintro ⟨⟨-, b, hb, -⟩, -⟩
        cases hb
    | outside b =>
      rw [write_outside hopen, Except.error.injEq]
      split_ifs with hsize
      · rw [Abort.thrown.injEq, eq_comm]
        exact (and_iff_right ⟨rfl, b, rfl, hsize⟩).symm
      · refine iff_of_false ?_ ?_
        · intro h
          cases h
        · rintro ⟨⟨-, b', hb, hlarge⟩, -⟩
          obtain rfl := Handed.outside.inj hb
          exact hsize hlarge

end Write

/-- `output_sink_t`. -/
structure OutputSink where
  sink : Ofstream
  deriving Repr, DecidableEq

/-- `output_sink_t::on_data`. -/
def OutputSink.onData (s : OutputSink) (buffer : Handed) (files : Files) : Outcome Files Files :=
  s.sink.write buffer files

/-- `elementary_stream_handler_t`. -/
structure ElementaryStreamHandler where
  outputPrefix : String

namespace ElementaryStreamHandler

/-- The name of the file of a PID: the prefix, `std::to_string(pid)` and the extension. -/
def filename (h : ElementaryStreamHandler) (pid : UInt16) : String :=
  let extension := ".bin"
  h.outputPrefix ++ toString pid.toNat ++ extension

/-- `elementary_stream_handler_t::create`. The stream_type is not used. -/
def create (h : ElementaryStreamHandler) (access : Access) (files : Files) (_streamType : UInt8)
    (pid : UInt16) : OutputSink × Files :=
  let (sink, files) := Ofstream.ofFilename access files (h.filename pid)
  (⟨sink⟩, files)

/-- The user of the demuxer in `main`. -/
def user (h : ElementaryStreamHandler) (access : Access) : EsUser OutputSink Files where
  create := h.create access
  onData := OutputSink.onData

variable (h : ElementaryStreamHandler) (access : Access)

/-- No two PIDs share a file. -/
theorem filename_injective : Function.Injective h.filename := by
  intro p q heq
  show p = q
  have hname : h.outputPrefix ++ toString p.toNat ++ ".bin" =
      h.outputPrefix ++ toString q.toNat ++ ".bin" := heq
  rw [String.append_left_inj, String.append_right_inj] at hname
  exact UInt16.toNat_inj.mp (Nat.repr_inj.mp hname)

/-- The sink of a PID. -/
def sinkOf (pid : UInt16) : OutputSink := ⟨⟨h.filename pid, access.writable (h.filename pid)⟩⟩

theorem creates_sinkOf : (h.user access).Creates (h.sinkOf access) := by
  intro files streamType pid
  show (⟨(Ofstream.ofFilename access files (h.filename pid)).1⟩ : OutputSink) = h.sinkOf access pid
  unfold Ofstream.ofFilename sinkOf
  split_ifs with hopen
  · rw [hopen]
  · rw [Bool.not_eq_true] at hopen
    rw [hopen]

/-! ## The journal of a run -/

/-- What a call does to the files. Of a buffer that does not lie inside its storage nothing is written. -/
def entries : Event → List (Entry String UInt8)
  | .create _ pid => if access.writable (h.filename pid) then [.opened (h.filename pid)] else []
  | .handler pid (.onData buffer) =>
    if access.writable (h.filename pid) then [.appended (h.filename pid) buffer.bytes] else []
  | .handler _ _ => []

@[simp] theorem entries_create (streamType : UInt8) (pid : UInt16) :
    h.entries access (.create streamType pid) =
      if access.writable (h.filename pid) then [.opened (h.filename pid)] else [] := rfl

@[simp] theorem entries_onData (pid : UInt16) (buffer : Handed) :
    h.entries access (.handler pid (.onData buffer)) =
      if access.writable (h.filename pid) then [.appended (h.filename pid) buffer.bytes] else [] := rfl

@[simp] theorem entries_onPat (pid : UInt16) (update : Pat) :
    h.entries access (.handler pid (.onPat update)) = [] := rfl

@[simp] theorem entries_onPmt (pid : UInt16) (update : Pmt) :
    h.entries access (.handler pid (.onPmt update)) = [] := rfl

/-- What the calls so far do to the files. -/
def journal (history : List Event) : List (Entry String UInt8) :=
  history.flatMap (h.entries access)

theorem journal_append (history history' : List Event) :
    h.journal access (history ++ history') = h.journal access history ++ h.journal access history' :=
  List.flatMap_append

@[simp] theorem journal_singleton (event : Event) :
    h.journal access [event] = h.entries access event :=
  List.append_nil _

/-- The call, if it writes to a file, writes a buffer that lies inside its storage. -/
def WritesInside : Event → Prop
  | .handler pid (.onData buffer) => access.writable (h.filename pid) = true → buffer.IsInside
  | _ => True

theorem writesInside_of_handsOn {d : Demuxer OutputSink Files} (hd : d.HandsOnInside) :
    ∀ event ∈ d.history, h.WritesInside access event := by
  intro event hmem
  match event with
  | .create streamType pid => trivial
  | .handler pid (.onData buffer) => exact fun _ => hd pid _ hmem
  | .handler pid (.onPat update) => trivial
  | .handler pid (.onPmt update) => trivial

/-- Where every file can be opened, every buffer is written. -/
theorem writesInside_iff {d : Demuxer OutputSink Files}
    (hopen : ∀ pid, access.writable (h.filename pid) = true) :
    (∀ event ∈ d.history, h.WritesInside access event) ↔ d.HandsOnInside := by
  refine ⟨fun hd pid callback hmem => ?_, h.writesInside_of_handsOn access⟩
  cases callback with
  | onPat update => trivial
  | onPmt update => trivial
  | onData buffer => exact hd _ hmem (hopen pid)

theorem effect_eq_ok_iff {files files' : Files} {event : Event} :
    (h.user access).effect (h.sinkOf access) files event = .ok files' ↔
      h.WritesInside access event ∧ files' = Journal.replay files (h.entries access event) := by
  match event with
  | .create streamType pid =>
    show Except.ok (Ofstream.ofFilename access files (h.filename pid)).2 = _ ↔ True ∧ _
    rw [entries_create, true_and, Except.ok.injEq, eq_comm]
    unfold Ofstream.ofFilename
    split_ifs <;> exact Iff.rfl
  | .handler pid (.onData buffer) =>
    rw [entries_onData]
    refine Ofstream.write_eq_ok_iff.trans (and_congr_right fun _ => ?_)
    show files' = (if access.writable (h.filename pid) then _ else files) ↔ _
    split_ifs <;> exact Iff.rfl
  | .handler pid (.onPat update) =>
    exact ⟨fun h => ⟨trivial, (Except.ok.inj h).symm⟩, fun h => congrArg _ h.2.symm⟩
  | .handler pid (.onPmt update) =>
    exact ⟨fun h => ⟨trivial, (Except.ok.inj h).symm⟩, fun h => congrArg _ h.2.symm⟩

/-- The calls make of the files what the journal does, if each can be made. -/
theorem replay_eq_ok_iff {files files' : Files} {history : List Event} :
    (h.user access).replay (h.sinkOf access) files history = .ok files' ↔
      (∀ event ∈ history, h.WritesInside access event) ∧
        files' = Journal.replay files (h.journal access history) := by
  induction history generalizing files with
  | nil =>
    refine (Except.ok.injEq _ _).to_iff.trans ?_
    exact eq_comm.trans (and_iff_right fun event hmem => absurd hmem List.not_mem_nil).symm
  | cons event history ih =>
    have hfirst : h.journal access (event :: history) =
        h.entries access event ++ h.journal access history := rfl
    rw [EsUser.replay, List.foldlM_cons, bind_eq_ok_iff, hfirst, Journal.replay_append, List.forall_mem_cons]
    constructor
    · rintro ⟨files₁, heffect, hrest⟩
      obtain ⟨hinside, rfl⟩ := (h.effect_eq_ok_iff access).mp heffect
      obtain ⟨hlater, rfl⟩ := ih.mp hrest
      exact ⟨⟨hinside, hlater⟩, rfl⟩
    · rintro ⟨⟨hinside, hlater⟩, rfl⟩
      exact ⟨_, (h.effect_eq_ok_iff access).mpr ⟨hinside, rfl⟩, ih.mpr ⟨hlater, rfl⟩⟩

end ElementaryStreamHandler

/-! ## Bytes are handed on to created consumers -/

/-- The PIDs that `create` was called for. -/
def createdPids (history : List Event) : List UInt16 := (createsOf history).map Prod.snd

theorem createdPids_append (history history' : List Event) :
    createdPids (history ++ history') = createdPids history ++ createdPids history' := by
  unfold createdPids
  rw [createsOf_append, List.map_append]

/-- Before a buffer of a PID is handed on, `create` has been called for it. -/
def CreatedFirst (history : List Event) : Prop :=
  ∀ before pid buffer after, history = before ++ .handler pid (.onData buffer) :: after →
    pid ∈ createdPids before

theorem CreatedFirst.append {history history' : List Event} (hfirst : CreatedFirst history)
    (hlater : ∀ pid buffer, .handler pid (.onData buffer) ∈ history' → pid ∈ createdPids history) :
    CreatedFirst (history ++ history') := by
  intro before pid buffer after hsplit
  rcases List.append_eq_append_iff.mp hsplit with ⟨before', rfl, hrest⟩ | ⟨rest, rfl, hrest⟩
  · -- among the later calls
    rw [createdPids_append]
    apply List.mem_append_left
    apply hlater pid buffer
    rw [hrest]
    exact List.mem_append_right _ List.mem_cons_self
  · rcases List.cons_eq_append_iff.mp hrest with ⟨rfl, hlast⟩ | ⟨after', rfl, -⟩
    · have hmem : pid ∈ createdPids (before ++ []) := by
        apply hlater pid buffer
        rw [hlast]
        exact List.mem_cons_self
      rwa [List.append_nil] at hmem
    · exact hfirst before pid buffer after' rfl

namespace Demuxer

variable {κ φ : Type} {factory : EsFactory κ φ} {d d' : Demuxer κ φ} {pid : UInt16}

theorem createdPids_report_subset (factory : EsFactory κ φ) (d : Demuxer κ φ) (pid : UInt16)
    (callback : Callback) :
    createdPids d.history ⊆ createdPids (d.report factory pid callback).history := by
  rw [history_report, createdPids_append]
  exact List.subset_append_left _ _

theorem createdFirst_report (hd : CreatedFirst d.history) {callback : Callback}
    (hdata : ∀ buffer, callback = .onData buffer → pid ∈ createdPids d.history) :
    CreatedFirst (d.report factory pid callback).history := by
  rw [history_report]
  apply hd.append
  intro k buffer hmem
  rcases List.mem_cons.mp hmem with heq | hmem
  · rw [Event.handler.injEq] at heq
    rw [heq.1]
    exact hdata buffer heq.2.symm
  · obtain ⟨track, -, heq⟩ := List.mem_map.mp hmem
    exact absurd heq (by simp)

theorem createdFirst_reportAll (hd : CreatedFirst d.history) {calls : List Callback}
    (hdata : ∀ buffer, .onData buffer ∈ calls → pid ∈ createdPids d.history) :
    CreatedFirst (d.reportAll factory pid calls).history := by
  induction calls generalizing d with
  | nil => exact hd
  | cons callback calls ih =>
    apply ih
    · apply createdFirst_report hd
      rintro buffer rfl
      exact hdata buffer List.mem_cons_self
    · intro buffer hmem
      apply createdPids_report_subset
      exact hdata buffer (List.mem_cons_of_mem _ hmem)

/-- The step lemma. -/
theorem createdFirst_step {a : Arrival} (hd : CreatedFirst d.history) (hcreate : CreateCalls d)
    (hstep : consumePacket factory d a = .ok d') : CreatedFirst d'.history := by
  rw [consumePacket_eq_step] at hstep
  cases hk : d.packetStreams[a.packet.pid]? with
  | none =>
    rw [Dispatch.Dispatcher.step_of_unregistered hk, Except.ok.injEq] at hstep
    exact hstep ▸ hd
  | some stream =>
    obtain ⟨stream', calls, hfeed, rfl⟩ := Dispatch.Dispatcher.step_of_registered hk hstep
    show CreatedFirst (d.reportAll factory a.packet.pid calls).history
    apply createdFirst_reportAll hd
    -- only a PES parser hands on buffers, and it was made by a call of `create`
    intro buffer hmem
    obtain ⟨consumer, rfl⟩ := (Handler.feed_reports hfeed).parserPes_of_onData hmem
    obtain ⟨t, ht⟩ := hcreate.called _ consumer hk
    exact List.mem_map.mpr ⟨_, ht, rfl⟩

/-- The run lemma. -/
theorem createdFirst_consume {arrivals : List Arrival} (hd : CreatedFirst d.history)
    (hcreate : CreateCalls d) (hrun : consume factory d arrivals = .ok d') :
    CreatedFirst d'.history := by
  induction arrivals generalizing d with
  | nil =>
    obtain rfl : d = d' := Except.ok.inj hrun
    exact hd
  | cons a arrivals ih =>
    rw [consume_cons, bind_eq_ok_iff] at hrun
    obtain ⟨d₁, hstep, hrest⟩ := hrun
    exact ih (createdFirst_step hd hcreate hstep) (hcreate.step hstep) hrest

theorem createdFirst_nil : CreatedFirst [] := by
  intro before pid buffer after hsplit
  exact absurd hsplit (by simp)

end Demuxer

/-! ## The contents of the files -/

namespace ElementaryStreamHandler

variable (h : ElementaryStreamHandler) (access : Access)

/-- The files that are opened are those of the created streams. -/
theorem openings_journal (history : List Event) :
    openings (h.journal access history) =
      ((createdPids history).map h.filename).filter access.writable := by
  induction history with
  | nil => rfl
  | cons event history ih =>
    have hfirst : h.journal access (event :: history) =
        h.entries access event ++ h.journal access history := rfl
    rw [hfirst, Journal.openings_append, ih]
    match event with
    | .create streamType pid =>
      show _ = ((pid :: createdPids history).map h.filename).filter access.writable
      rw [entries_create, List.map_cons, List.filter_cons]
      split_ifs <;> rfl
    | .handler pid (.onData buffer) =>
      show _ = ((createdPids history).map h.filename).filter access.writable
      rw [entries_onData]
      split_ifs <;> rfl
    | .handler pid (.onPat update) => rfl
    | .handler pid (.onPmt update) => rfl

theorem mem_openings_journal {history : List Event} {pid : UInt16} :
    h.filename pid ∈ openings (h.journal access history) ↔
      pid ∈ createdPids history ∧ access.writable (h.filename pid) = true := by
  rw [openings_journal, List.mem_filter, List.mem_map_of_injective h.filename_injective]

theorem callbacksOf_singleton (k pid : UInt16) (callback : Callback) :
    callbacksOf pid [.handler k callback] = if k = pid then [callback] else [] := by
  unfold callbacksOf
  by_cases hkey : k = pid <;> simp [hkey]

/-- What is written to the file of a PID are the bytes handed on for the PID. -/
theorem itemsOf_journal {pid : UInt16} (hwritable : access.writable (h.filename pid) = true)
    (history : List Event) :
    itemsOf (h.filename pid) (h.journal access history) = dataOf (callbacksOf pid history) := by
  induction history with
  | nil => rfl
  | cons event history ih =>
    have hfirst : h.journal access (event :: history) =
        h.entries access event ++ h.journal access history := rfl
    rw [hfirst, Journal.itemsOf_append, ih, ← List.singleton_append, callbacksOf_append, dataOf_append,
      List.append_cancel_right_eq]
    match event with
    | .create streamType k =>
      rw [entries_create]
      split_ifs <;> rfl
    | .handler k (.onData buffer) =>
      rw [entries_onData, callbacksOf_singleton]
      by_cases hkey : k = pid
      · subst hkey
        rw [if_pos hwritable, if_pos rfl, Journal.itemsOf_appended, if_pos rfl]
        exact (List.append_nil buffer.bytes).symm
      · have hname : h.filename k ≠ h.filename pid := fun heq => hkey (h.filename_injective heq)
        rw [if_neg hkey]
        split_ifs
        · rw [Journal.itemsOf_appended, if_neg hname]
          rfl
        · rfl
    | .handler k (.onPat update) =>
      rw [entries_onPat, callbacksOf_singleton]
      split_ifs <;> rfl
    | .handler k (.onPmt update) =>
      rw [entries_onPmt, callbacksOf_singleton]
      split_ifs <;> rfl

/-- No file is opened twice, and none is written to before it has been opened. -/
theorem disciplined_journal {history : List Event} (honce : (createdPids history).Nodup)
    (hfirst : CreatedFirst history) : Disciplined (h.journal access history) := by
  induction history using List.reverseRecOn with
  | nil =>
    refine ⟨List.nodup_nil, ?_⟩
    intro before k items after hsplit
    have hnil : [] = before ++ .appended k items :: after := hsplit
    exact absurd hnil (by simp)
  | append_singleton history event ih =>
    rw [createdPids_append, List.nodup_append] at honce
    have hleft : CreatedFirst history := by
      rintro before pid buffer after rfl
      apply hfirst before pid buffer (after ++ [event])
      rw [List.append_assoc, List.cons_append]
    have hd := ih honce.1 hleft
    rw [journal_append, journal_singleton]
    match event with
    | .create streamType pid =>
      rw [entries_create]
      split_ifs
      · apply hd.concat
        · rintro k heq hmem
          obtain rfl := Entry.opened.inj heq
          rw [mem_openings_journal] at hmem
          exact honce.2.2 pid hmem.1 pid List.mem_cons_self rfl
        · intro k items heq
          exact absurd heq (by simp)
      · rwa [List.append_nil]
    | .handler pid (.onData buffer) =>
      rw [entries_onData]
      split_ifs with hwritable
      · apply hd.concat
        · intro k heq
          exact absurd heq (by simp)
        · intro k items heq
          obtain ⟨rfl, -⟩ := Entry.appended.inj heq
          rw [mem_openings_journal]
          exact ⟨hfirst history pid buffer [] rfl, hwritable⟩
      · rwa [List.append_nil]
    | .handler pid (.onPat update) => rwa [entries_onPat, List.append_nil]
    | .handler pid (.onPmt update) => rwa [entries_onPmt, List.append_nil]

end ElementaryStreamHandler

/-! ## Runs -/

open Demuxer (deliver deliverPacket consume new)

/-- What the files hold after a run that began with `files` and made the calls `history`. -/
structure WritesFiles (h : ElementaryStreamHandler) (access : Access) (files : Files)
    (history : List Event) (files' : Files) : Prop where
  /-- `create` was called at most once for a PID -/
  createdOnce : (createdPids history).Nodup
  /-- and before any buffer of the PID was handed on -/
  createdFirst : CreatedFirst history
  /-- its file, if it can be opened, holds the bytes handed on for the PID, in order -/
  contents : ∀ pid ∈ createdPids history, access.writable (h.filename pid) = true →
    files' (h.filename pid) = some (dataOf (callbacksOf pid history))
  /-- every other file is as it was -/
  others : ∀ name, (∀ pid ∈ createdPids history, access.writable (h.filename pid) = true →
    name ≠ h.filename pid) → files' name = files name

/-- A file has been written for a PID, or is as it was. -/
theorem WritesFiles.written_or_other {h : ElementaryStreamHandler} {access : Access}
    {files files' : Files} {history : List Event} (hwrites : WritesFiles h access files history files')
    (name : String) :
    (∃ pid ∈ createdPids history, access.writable (h.filename pid) = true ∧ name = h.filename pid ∧
      files' name = some (dataOf (callbacksOf pid history))) ∨
    files' name = files name ∧ ∀ pid ∈ createdPids history, access.writable (h.filename pid) = true →
      name ≠ h.filename pid := by
  by_cases hwritten : ∃ pid ∈ createdPids history, access.writable (h.filename pid) = true ∧
      name = h.filename pid
  · obtain ⟨pid, hmem, hwritable, rfl⟩ := hwritten
    exact Or.inl ⟨pid, hmem, hwritable, rfl, hwrites.contents pid hmem hwritable⟩
  · have hother : ∀ pid ∈ createdPids history, access.writable (h.filename pid) = true →
        name ≠ h.filename pid :=
      fun pid hmem hwritable heq => hwritten ⟨pid, hmem, hwritable, heq⟩
    exact Or.inr ⟨hwrites.others name hother, hother⟩

/-- The same calls leave the same files, if the files that are not opened are the same before. -/
theorem WritesFiles.eq_of_others {h : ElementaryStreamHandler} {access : Access}
    {files₁ files₂ files₁' files₂' : Files} {history : List Event}
    (h₁ : WritesFiles h access files₁ history files₁') (h₂ : WritesFiles h access files₂ history files₂')
    (hothers : ∀ name, (∀ pid ∈ createdPids history, access.writable (h.filename pid) = true →
      name ≠ h.filename pid) → files₂ name = files₁ name) : files₂' = files₁' := by
  funext name
  rcases h₁.written_or_other name with ⟨pid, hmem, hwritable, rfl, hcontents⟩ | ⟨hsame, hother⟩
  · exact (h₂.contents pid hmem hwritable).trans hcontents.symm
  · rw [h₂.others name hother, hsame, hothers name hother]

/-- The packet makes a PES parser hand on a buffer of negative size, and its file is open. -/
structure CannotWrite (d : Demuxer OutputSink Files) (a : Arrival) : Prop where
  registered : ∃ s, d.packetStreams[a.packet.pid]? = some (.parserPes s) ∧ s.sink.isOpen = true
  negative : ∃ b, ParserPes.put a = .ok (some b) ∧ ¬ b.ValidIn a.storage ∧ 2 ^ 63 ≤ b.size

namespace ElementaryStreamHandler

variable {h : ElementaryStreamHandler} {access : Access} {files files' : Files}
  {arrivals : List Arrival} {d : Demuxer OutputSink Files}

/-- A run that returns is a recording run whose calls write buffers that are there, with the files that its
record makes. -/
theorem deliver_eq_ok_iff :
    deliver (h.user access) (new files) arrivals = .ok d ↔
      ∃ d₀, consume (h.user access).toEsFactory (new files) arrivals = .ok d₀ ∧
        (∀ event ∈ d₀.history, h.WritesInside access event) ∧
        d = d₀.withState (Journal.replay files (h.journal access d₀.history)) := by
  have hs : Demuxer.Enacts (h.user access) (h.sinkOf access) files (new files) files :=
    Demuxer.enacts_new files
  refine Iff.trans (hs.deliver_eq_ok_iff (h.creates_sinkOf access) (Demuxer.inPlace_new files)) ?_
  unfold Demuxer.Enacts
  simp only [h.replay_eq_ok_iff access]
  constructor
  · rintro ⟨d₀, files', hconsume, ⟨hinside, rfl⟩, rfl⟩
    exact ⟨d₀, hconsume, hinside, rfl⟩
  · rintro ⟨d₀, hconsume, hinside, rfl⟩
    exact ⟨d₀, _, hconsume, ⟨hinside, rfl⟩, rfl⟩

/-- A recording run that hands on only buffers that are there. -/
theorem deliver_of_consume
    (hconsume : consume (h.user access).toEsFactory (new files) arrivals = .ok d) (hd : d.HandsOnInside) :
    deliver (h.user access) (new files) arrivals =
      .ok (d.withState (Journal.replay files (h.journal access d.history))) :=
  deliver_eq_ok_iff.mpr ⟨d, hconsume, h.writesInside_of_handsOn access hd, rfl⟩

/-- The step lemma for exceptions: the files are left as they were before the packet. -/
theorem deliverPacket_thrown_iff {a : Arrival} :
    deliverPacket (h.user access) d a = .error (.thrown files') ↔
      CannotWrite d a ∧ files' = d.esCallbackFactory := by
  rw [Demuxer.deliverPacket_eq_error_iff]
  constructor
  · rintro (⟨e, heq, -⟩ | ⟨s, b, hk, hput, hdata⟩)
    · cases heq
    · obtain ⟨⟨hopen, b', hb, hsize⟩, rfl⟩ := Ofstream.write_thrown_iff.mp hdata
      by_cases hvalid : b.ValidIn a.storage
      · rw [ConstBuffer.handed_of_validIn hvalid] at hb
        cases hb
      · rw [ConstBuffer.handed_of_not_validIn hvalid, Handed.outside.injEq] at hb
        exact ⟨⟨⟨s, hk, hopen⟩, b, hput, hvalid, hb ▸ hsize⟩, rfl⟩
  · rintro ⟨hcannot, rfl⟩
    obtain ⟨s, hk, hopen⟩ := hcannot.registered
    obtain ⟨b, hput, hvalid, hsize⟩ := hcannot.negative
    refine Or.inr ⟨s, b, hk, hput, Ofstream.write_thrown_iff.mpr ⟨⟨hopen, b, ?_, hsize⟩, rfl⟩⟩
    exact ConstBuffer.handed_of_not_validIn hvalid

/-- A run throws at the first packet that cannot be written, and leaves the files as the run on the packets
before it does. -/
theorem deliver_thrown_iff :
    deliver (h.user access) (new files) arrivals = .error (.thrown files') ↔
      ∃ before a after d, arrivals = before ++ a :: after ∧
        deliver (h.user access) (new files) before = .ok d ∧ CannotWrite d a ∧
        files' = d.esCallbackFactory := by
  unfold deliver
  rw [Runs.foldlM_error_iff]
  simp only [deliverPacket_thrown_iff]

/-- What the record of a run makes of the files. -/
theorem writesFiles_of_consume {factory : EsFactory OutputSink Files}
    (hconsume : consume factory (new files) arrivals = .ok d) :
    WritesFiles h access files d.history (Journal.replay files (h.journal access d.history)) := by
  have hcreate := (Demuxer.createCalls_new files).consume hconsume
  have hfirst : CreatedFirst d.history := by
    apply Demuxer.createdFirst_consume _ (Demuxer.createCalls_new files) hconsume
    exact Demuxer.createdFirst_nil
  have hd := h.disciplined_journal access hcreate.once hfirst
  constructor
  · exact hcreate.once
  · exact hfirst
  · intro pid hmem hwritable
    rw [hd.replay_opened ((h.mem_openings_journal access).mpr ⟨hmem, hwritable⟩),
      h.itemsOf_journal access hwritable]
  · intro name hother
    apply hd.replay_not_opened
    rw [h.openings_journal access]
    intro hmem
    obtain ⟨hname, hwritable⟩ := List.mem_filter.mp hmem
    obtain ⟨pid, hpid, rfl⟩ := List.mem_map.mp hname
    exact hother pid hpid hwritable rfl

theorem writesFiles_of_deliver (hrun : deliver (h.user access) (new files) arrivals = .ok d) :
    WritesFiles h access files d.history d.esCallbackFactory := by
  obtain ⟨d₀, hconsume, -, rfl⟩ := deliver_eq_ok_iff.mp hrun
  have hwrites : WritesFiles h access files d₀.history _ := writesFiles_of_consume hconsume
  exact hwrites

/-- A run on the files that it has left ends as it did. -/
theorem deliver_again (hrun : deliver (h.user access) (new files) arrivals = .ok d) :
    deliver (h.user access) (new d.esCallbackFactory) arrivals = .ok d := by
  obtain ⟨d₀, hconsume, hinside, rfl⟩ := deliver_eq_ok_iff.mp hrun
  set files' := Journal.replay files (h.journal access d₀.history) with hfiles'
  have hwrites : WritesFiles h access files d₀.history files' := writesFiles_of_consume hconsume
  obtain ⟨d₁, files'', hconsume', rfl⟩ : ∃ d₁ files'', consume (h.user access).toEsFactory
      (new files') arrivals = .ok d₁ ∧ d₀ = d₁.withState files'' :=
    Demuxer.consume_of_other_state (h.creates_sinkOf access) hconsume
  have hwrites' : WritesFiles h access files' d₁.history
      (Journal.replay files' (h.journal access d₁.history)) := writesFiles_of_consume hconsume'
  have hsame : Journal.replay files' (h.journal access d₁.history) = files' :=
    hwrites.eq_of_others hwrites' hwrites.others
  exact deliver_eq_ok_iff.mpr ⟨d₁, hconsume', hinside, congrArg d₁.withState hsame.symm⟩

/-- However a run has ended, the files are those that the record of its first packets makes. -/
theorem ifEnds_deliver (h : ElementaryStreamHandler) (access : Access) {files : Files}
    {arrivals : List Arrival} {post : Files → Prop}
    (hpost : ∀ before d, before <+: arrivals →
      consume (h.user access).toEsFactory (new files) before = .ok d →
        post (Journal.replay files (h.journal access d.history))) :
    IfEnds (deliver (h.user access) (new files) arrivals) (fun d => post d.esCallbackFactory) post := by
  rw [ifEnds_iff]
  constructor
  · intro d hrun
    obtain ⟨d₀, hconsume, -, rfl⟩ := deliver_eq_ok_iff.mp hrun
    exact hpost arrivals d₀ (List.prefix_refl _) hconsume
  · intro files' hrun
    obtain ⟨before, a, after, d, rfl, hbefore, -, rfl⟩ := deliver_thrown_iff.mp hrun
    obtain ⟨d₀, hconsume, -, rfl⟩ := deliver_eq_ok_iff.mp hbefore
    exact hpost before d₀ (List.prefix_append _ _) hconsume

/-- **The output files.** Whatever the packets are, when a run has returned from them, each file that was
created holds the bytes handed on for its PID, all of them and in order, and every other file is as it
was before the run. When a write has thrown, so do the files hold what the packets before have handed
on. -/
theorem output_files (h : ElementaryStreamHandler) (access : Access) (files : Files)
    (arrivals : List Arrival) :
    IfEnds (deliver (h.user access) (new files) arrivals)
      (fun d => WritesFiles h access files d.history d.esCallbackFactory)
      fun files' => ∃ before a after d, arrivals = before ++ a :: after ∧
        deliver (h.user access) (new files) before = .ok d ∧ CannotWrite d a ∧
        WritesFiles h access files d.history files' := by
  rw [ifEnds_iff]
  constructor
  · exact fun d hrun => writesFiles_of_deliver hrun
  · intro files' hrun
    obtain ⟨before, a, after, d, hsplit, hbefore, hcannot, rfl⟩ := deliver_thrown_iff.mp hrun
    exact ⟨before, a, after, d, hsplit, hbefore, hcannot, writesFiles_of_deliver hbefore⟩

end ElementaryStreamHandler

end Sandstream
