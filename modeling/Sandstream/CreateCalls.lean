import Mathlib
import Sandstream.Registration

/-! # Sandstream.CreateCalls -- calls of `create` and the PES parsers they make

`CreateCalls` ties the calls of the factory to the dispatch map and to the reported PMTs, in every state
of every run: it assumes nothing of the packets. A PID has a PES parser exactly when `create` was called
for it, once, with the stream_type that a reported PMT gives.
-/

namespace Sandstream

open Sandstream.Lib

variable {κ φ : Type}

/-! ## Handlers stay what they are -/

namespace Handler

variable {sectionData : List UInt8} {a : Arrival} {h h' : Handler κ} {calls : List Callback}

/-- Feeding a section parser gives a section parser of the same class. -/
theorem feed_wrap {τ : Type} {wrap : List UInt8 → Handler κ} {x : Exec (List UInt8 × τ)} {r : τ}
    (hfeed : (do let (sectionData, s) ← x; return (wrap sectionData, s)) = .ok (h', r)) :
    ∃ sectionData, h' = wrap sectionData := by
  rcases bind_eq_ok_iff.mp hfeed with ⟨⟨sectionData, s⟩, -, hr⟩
  exact ⟨sectionData, (Prod.mk.inj (Except.ok.inj hr)).1.symm⟩

/-- A handler goes on as what it is. -/
theorem feed_continues (hfeed : h.feed a = .ok (h', calls)) : h.Continues h' := by
  cases h with
  | parserPat sectionData =>
    rcases feed_wrap hfeed with ⟨sectionData', rfl⟩
    trivial
  | parserPmt sectionData =>
    rcases feed_wrap hfeed with ⟨sectionData', rfl⟩
    trivial
  | parserPes consumer =>
    rw [feed_parserPes] at hfeed
    rcases bind_eq_ok_iff.mp hfeed with ⟨calls', -, hr⟩
    rcases Prod.mk.inj (Except.ok.inj hr) with ⟨rfl, -⟩
    rfl

end Handler

namespace Demuxer

variable {factory : EsFactory κ φ} {d d' : Demuxer κ φ} {pid : UInt16} {h h' : Handler κ}

/-- What the calls of `create` say about the map, and the reported tables about them. -/
structure CreateCalls (d : Demuxer κ φ) : Prop where
  once : ((createsOf d.history).map Prod.snd).Nodup
  parsers : CreatedParsers d
  listed : ∀ e ∈ createsOf d.history, ∃ q update,
    Event.handler q (.onPmt update) ∈ d.history ∧ update[e.2]? = some e.1
  called : ∀ (p : UInt16) consumer, d.packetStreams[p]? = some (.parserPes consumer) →
    ∃ t, (t, p) ∈ createsOf d.history

theorem createCalls_new (state : φ) : CreateCalls (new state : Demuxer κ φ) where
  once := List.nodup_nil
  parsers := fun e he => absurd he List.not_mem_nil
  listed := fun e he => absurd he List.not_mem_nil
  called := by
    intro p consumer hp
    rw [getElem?_new] at hp
    split_ifs at hp
    exact absurd (Option.some.inj hp) (by simp)

/-- A PES parser that a report puts there is one that `create` is called for. -/
theorem called_of_report {callback : Callback} {p : UInt16} {consumer : κ}
    (hnone : d.packetStreams[p]? = none)
    (hp : (d.report factory pid callback).packetStreams[p]? = some (.parserPes consumer)) :
    ∃ t, (t, p) ∈ (d.newTracks callback).map fun t => (t.2, t.1) := by
  have hputs := puts_of_report hnone hp
  cases callback with
  | onPat update => exact absurd hputs.2 (by simp)
  | onPmt update =>
    rcases hputs with ⟨t, hlist, -⟩
    exact ⟨t, mem_newTracks_iff.mpr ⟨hnone, hlist⟩⟩
  | onData bytes => exact hputs.elim

theorem CreateCalls.report (hd : CreateCalls d) (callback : Callback) :
    CreateCalls (d.report factory pid callback) where
  once := createdOnce_report callback hd.once hd.parsers
  parsers := created_report callback hd.parsers
  listed := by
    intro e he
    rw [history_report, createsOf_append, createsOf_tracks, List.mem_append] at he
    rw [history_report]
    rcases he with hold | hnew
    · rcases hd.listed e hold with ⟨q, update, hmem, hlist⟩
      exact ⟨q, update, List.mem_append_left _ hmem, hlist⟩
    · cases callback with
      | onPmt update =>
        refine ⟨pid, update, ?_, (mem_newTracks_iff.mp hnew).2⟩
        exact List.mem_append_right _ List.mem_cons_self
      | onPat update => exact absurd hnew List.not_mem_nil
      | onData bytes => exact absurd hnew List.not_mem_nil
  called := by
    intro p consumer hp
    rw [history_report, createsOf_append, createsOf_tracks]
    cases hbefore : d.packetStreams[p]? with
    | none =>
      rcases called_of_report hbefore hp with ⟨t, ht⟩
      exact ⟨t, List.mem_append_right _ ht⟩
    | some g =>
      rw [report_kept hbefore, Option.some.injEq] at hp
      subst hp
      rcases hd.called p consumer hbefore with ⟨t, ht⟩
      exact ⟨t, List.mem_append_left _ ht⟩

theorem CreateCalls.reportAll (hd : CreateCalls d) (calls : List Callback) :
    CreateCalls (d.reportAll factory pid calls) := by
  induction calls generalizing d with
  | nil => exact hd
  | cons callback calls ih => exact ih (hd.report callback)

/-- Writing back a handler of the same class changes nothing here. -/
theorem CreateCalls.settle (hd : CreateCalls d) (hk : d.packetStreams[pid]? = some h)
    (hcont : h.Continues h') : CreateCalls (d.settle pid h') where
  once := hd.once
  parsers := createdParsers_settle hd.parsers hk hcont
  listed := hd.listed
  called := by
    intro p consumer hp
    rw [getElem?_settle] at hp
    split_ifs at hp with hkey
    · obtain rfl := Option.some.inj hp
      subst hkey
      cases h with
      | parserPat => exact hcont.elim
      | parserPmt => exact hcont.elim
      | parserPes consumer' => exact hd.called pid consumer' hk
    · exact hd.called p consumer hp

/-- The step lemma. -/
theorem CreateCalls.step (hd : CreateCalls d) {a : Arrival}
    (hstep : consumePacket factory d a = .ok d') : CreateCalls d' := by
  rw [consumePacket_eq_step] at hstep
  cases hk : d.packetStreams[a.packet.pid]? with
  | none =>
    rw [Dispatch.Dispatcher.step_of_unregistered hk, Except.ok.injEq] at hstep
    exact hstep ▸ hd
  | some h =>
    rcases Dispatch.Dispatcher.step_of_registered hk hstep with ⟨h', calls, hfeed, rfl⟩
    exact (hd.reportAll calls).settle (reportAll_kept hk) (Handler.feed_continues hfeed)

/-- The run lemma. -/
theorem CreateCalls.consume {arrivals : List Arrival} (hd : CreateCalls d)
    (hrun : consume factory d arrivals = .ok d') : CreateCalls d' := by
  induction arrivals generalizing d with
  | nil =>
    obtain rfl : d = d' := Except.ok.inj hrun
    exact hd
  | cons a arrivals ih =>
    rw [consume_cons, bind_eq_ok_iff] at hrun
    rcases hrun with ⟨d₁, hstep, hrest⟩
    exact ih (hd.step hstep) hrest

end Demuxer

end Sandstream
