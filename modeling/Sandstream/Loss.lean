import Mathlib
import Sandstream.CallbackEs
import Sandstream.Payloadless

/-! # Sandstream.Loss -- packets that do not arrive

Reception is lossy. A lost packet of a table may cost whole streams; but the packets of elementary streams
only give their consumer bytes, so losing some of them costs their streams these bytes, and nothing else.

`consume_survives_loss` compares the run on what was sent with the run on what was received.
-/

namespace Sandstream

open Sandstream.Lib
open Sandstream.Lib.Dispatch (Dispatcher)

/-! ## Loss -/

/-- What arrives of a list when some items that `lossy` allows are lost on the way. -/
inductive Lost {α : Type} (lossy : α → Prop) : List α → List α → Prop where
  | nil : Lost lossy [] []
  | arrives {sent received : List α} (a : α) :
      Lost lossy sent received → Lost lossy (a :: sent) (a :: received)
  | drops {sent received : List α} {a : α} :
      lossy a → Lost lossy sent received → Lost lossy (a :: sent) received

/-- What was sent, from what was received and the items that describe both. -/
theorem Lost.exists_sent {α β : Type} {lossy : β → Prop} {lossy' : α → Prop} {rel : α → β → Prop}
    {sent received : List β} (hlost : Lost lossy sent received) {received' : List α}
    (hreceived : List.Forall₂ rel received' received)
    (hrel : ∀ b ∈ sent, ∃ a, rel a b ∧ (lossy b → lossy' a)) :
    ∃ sent', List.Forall₂ rel sent' sent ∧ Lost lossy' sent' received' := by
  induction hlost generalizing received' with
  | nil =>
    cases hreceived
    exact ⟨[], .nil, .nil⟩
  | arrives b _ ih =>
    cases hreceived with
    | @cons a _ received' _ ha hrest =>
      obtain ⟨sent', hsent, hlost'⟩ := ih hrest fun b hb => hrel b (List.mem_cons_of_mem _ hb)
      exact ⟨a :: sent', .cons ha hsent, .arrives a hlost'⟩
  | @drops _ _ b hlossy _ ih =>
    obtain ⟨sent', hsent, hlost'⟩ := ih hreceived fun b hb => hrel b (List.mem_cons_of_mem _ hb)
    obtain ⟨a, ha, hlost⟩ := hrel b List.mem_cons_self
    exact ⟨a :: sent', .cons ha hsent, .drops (hlost hlossy) hlost'⟩

/-- All that can be lost is lost. -/
theorem Lost.filter {α : Type} (lossy : α → Prop) [DecidablePred lossy] (sent : List α) :
    Lost lossy sent (sent.filter fun a => ¬ lossy a) := by
  induction sent with
  | nil => exact .nil
  | cons a sent ih =>
    by_cases ha : lossy a
    · rw [List.filter_cons_of_neg (by simpa using ha)]
      exact .drops ha ih
    · rw [List.filter_cons_of_pos (by simpa using ha)]
      exact .arrives a ih

/-! ## What is left of a run -/

namespace Demuxer

variable {κ φ : Type} {factory : EsFactory κ φ}

/-- `d'` has seen less of the PIDs in `lossy` than `d`, and as much of everything else. -/
structure SurvivesLoss (lossy : UInt16 → Prop) (d d' : Demuxer κ φ) : Prop where
  packetStreams : d'.packetStreams = d.packetStreams
  esCallbackFactory : d'.esCallbackFactory = d.esCallbackFactory
  creates : createsOf d'.history = createsOf d.history
  untouched : ∀ pid, ¬ lossy pid → callbacksOf pid d'.history = callbacksOf pid d.history
  partly : ∀ pid, (callbacksOf pid d'.history).Sublist (callbacksOf pid d.history)

section Survives

variable {lossy : UInt16 → Prop} {d d' d₁ : Demuxer κ φ} {a : Arrival} {pid : UInt16}

theorem SurvivesLoss.refl (d : Demuxer κ φ) : SurvivesLoss lossy d d :=
  ⟨rfl, rfl, rfl, fun _ _ => rfl, fun _ => List.Sublist.refl _⟩

/-- No other buffers are handed on. -/
theorem SurvivesLoss.handsOnInside (h : SurvivesLoss lossy d d') (hd : d.HandsOnInside) :
    d'.HandsOnInside := by
  intro pid callback hmem
  have hcallback := (h.partly pid).subset (mem_callbacksOf.mpr hmem)
  exact hd pid callback (mem_callbacksOf.mp hcallback)

theorem addTrack_congr (hstreams : d'.packetStreams = d.packetStreams)
    (hstate : d'.esCallbackFactory = d.esCallbackFactory) (k : UInt16) (streamType : UInt8) :
    (d'.addTrack factory k streamType).packetStreams =
        (d.addTrack factory k streamType).packetStreams ∧
      (d'.addTrack factory k streamType).esCallbackFactory =
        (d.addTrack factory k streamType).esCallbackFactory := by
  unfold addTrack
  rw [hstreams, hstate]
  split_ifs
  · exact ⟨hstreams, hstate⟩
  · exact ⟨rfl, rfl⟩

theorem addTracks_congr (hstreams : d'.packetStreams = d.packetStreams)
    (hstate : d'.esCallbackFactory = d.esCallbackFactory) (tracks : List (UInt16 × UInt8)) :
    (d'.addTracks factory tracks).packetStreams = (d.addTracks factory tracks).packetStreams ∧
      (d'.addTracks factory tracks).esCallbackFactory =
        (d.addTracks factory tracks).esCallbackFactory := by
  induction tracks generalizing d d' with
  | nil => exact ⟨hstreams, hstate⟩
  | cons track tracks ih =>
    rcases addTrack_congr hstreams hstate track.1 track.2 with ⟨hstreams', hstate'⟩
    exact ih hstreams' hstate'

/-- What a report does to the handlers and the factory does not depend on the record. -/
theorem report_congr (hstreams : d'.packetStreams = d.packetStreams)
    (hstate : d'.esCallbackFactory = d.esCallbackFactory) (callback : Callback) :
    (d'.report factory pid callback).packetStreams = (d.report factory pid callback).packetStreams ∧
      (d'.report factory pid callback).esCallbackFactory =
        (d.report factory pid callback).esCallbackFactory := by
  cases callback with
  | onData bytes => exact ⟨hstreams, hstate⟩
  | onPmt update =>
    have hnote : (d'.note pid (.onPmt update)).packetStreams =
      (d.note pid (.onPmt update)).packetStreams := hstreams
    have hnote' : (d'.note pid (.onPmt update)).esCallbackFactory =
      (d.note pid (.onPmt update)).esCallbackFactory := hstate
    exact addTracks_congr hnote hnote' update.toList
  | onPat update =>
    rw [report_onPat, report_onPat]
    constructor
    · apply Std.ExtTreeMap.ext_getElem?
      intro k
      rw [getElem?_onPat, getElem?_onPat]
      show d'.packetStreams[k]?.or _ = d.packetStreams[k]?.or _
      rw [hstreams]
    · rw [(registers_onPat update _).esCallbackFactory_eq, (registers_onPat update _).esCallbackFactory_eq]
      exact hstate

/-- A report is made in both runs. -/
theorem SurvivesLoss.report (h : SurvivesLoss lossy d d') (callback : Callback) :
    SurvivesLoss lossy (d.report factory pid callback) (d'.report factory pid callback) := by
  have hcongr : (d'.report factory pid callback).packetStreams =
        (d.report factory pid callback).packetStreams ∧
      (d'.report factory pid callback).esCallbackFactory =
        (d.report factory pid callback).esCallbackFactory :=
    report_congr h.packetStreams h.esCallbackFactory callback
  have htracks : d'.newTracks callback = d.newTracks callback := by
    unfold newTracks
    rw [h.packetStreams]
  refine ⟨hcongr.1, hcongr.2, ?_, ?_, ?_⟩
  · rw [history_report, history_report, createsOf_append, createsOf_append, h.creates, htracks]
  · intro k hk
    rw [callbacksOf_report, callbacksOf_report, h.untouched k hk]
  · intro k
    rw [callbacksOf_report, callbacksOf_report]
    exact (h.partly k).append (List.Sublist.refl _)

theorem SurvivesLoss.reportAll (h : SurvivesLoss lossy d d') (calls : List Callback) :
    SurvivesLoss lossy (d.reportAll factory pid calls) (d'.reportAll factory pid calls) := by
  induction calls generalizing d d' with
  | nil => exact h
  | cons callback calls ih => exact ih (h.report callback)

/-- The step lemma for a packet that arrives. -/
theorem SurvivesLoss.step (h : SurvivesLoss lossy d d') (hstep : consumePacket factory d a = .ok d₁) :
    ∃ d₁', consumePacket factory d' a = .ok d₁' ∧ SurvivesLoss lossy d₁ d₁' := by
  rw [consumePacket_eq_step] at hstep
  have hlookup : d'.packetStreams[a.packet.pid]? = d.packetStreams[a.packet.pid]? := by
    rw [h.packetStreams]
  cases hk : d.packetStreams[a.packet.pid]? with
  | none =>
    rw [Dispatcher.step_of_unregistered hk, Except.ok.injEq] at hstep
    obtain rfl := hstep
    refine ⟨d', ?_, h⟩
    rw [consumePacket_eq_step]
    exact Dispatcher.step_of_unregistered (hlookup.trans hk)
  | some stream =>
    obtain ⟨stream', calls, hfeed, rfl⟩ := Dispatcher.step_of_registered hk hstep
    have hall : SurvivesLoss lossy (d.reportAll factory a.packet.pid calls)
        (d'.reportAll factory a.packet.pid calls) := h.reportAll calls
    refine ⟨(d'.reportAll factory a.packet.pid calls).settle a.packet.pid stream', ?_, ?_⟩
    · have hfeed' : stream.feed a = .ok (stream', calls) := hfeed
      unfold consumePacket
      rw [hlookup, hk]
      dsimp only
      rw [Handler.put_eq_feed, hfeed']
      rfl
    · refine ⟨?_, hall.esCallbackFactory, hall.creates, hall.untouched, hall.partly⟩
      show (d'.reportAll factory a.packet.pid calls).packetStreams.insert a.packet.pid stream' =
        (d.reportAll factory a.packet.pid calls).packetStreams.insert a.packet.pid stream'
      rw [hall.packetStreams]

theorem reportAll_data_factory {calls : List Callback}
    (hdata : ∀ callback ∈ calls, ∃ bytes, callback = .onData bytes) :
    (d.reportAll factory pid calls).esCallbackFactory = d.esCallbackFactory := by
  induction calls generalizing d with
  | nil => rfl
  | cons callback calls ih =>
    obtain ⟨bytes, rfl⟩ := hdata callback List.mem_cons_self
    exact ih fun c hc => hdata c (List.mem_cons_of_mem _ hc)

/-- The step lemma for a packet that is lost: its PID has no handler, or that of an elementary stream. -/
theorem SurvivesLoss.drop (h : SurvivesLoss lossy d d') (hlossy : lossy a.packet.pid)
    (hes : ∀ g, d.packetStreams[a.packet.pid]? = some g → ∃ consumer, g = .parserPes consumer)
    (hstep : consumePacket factory d a = .ok d₁) : SurvivesLoss lossy d₁ d' := by
  rw [consumePacket_eq_step] at hstep
  cases hk : d.packetStreams[a.packet.pid]? with
  | none =>
    rw [Dispatcher.step_of_unregistered hk, Except.ok.injEq] at hstep
    exact hstep ▸ h
  | some stream =>
    obtain ⟨consumer, rfl⟩ := hes stream hk
    obtain ⟨stream', calls, hfeed, rfl⟩ := Dispatcher.step_of_registered hk hstep
    have hfeed' : (Handler.parserPes consumer).feed a = .ok (stream', calls) := hfeed
    rw [Handler.feed_parserPes] at hfeed'
    obtain ⟨calls', hcalls, hresult⟩ := bind_eq_ok_iff.mp hfeed'
    obtain ⟨rfl, rfl⟩ := Prod.mk.inj (Except.ok.inj hresult)
    have hdata := Handler.esCalls_onData hcalls
    have hstreams : (d.reportAll factory a.packet.pid calls').packetStreams = d.packetStreams :=
      reportAll_data hdata
    have hsame : (d.settle a.packet.pid (.parserPes consumer)).packetStreams = d.packetStreams := by
      rw [settle_self hk]
    refine ⟨?_, ?_, ?_, ?_, ?_⟩
    · show d'.packetStreams =
        (d.reportAll factory a.packet.pid calls').packetStreams.insert a.packet.pid (.parserPes consumer)
      rw [hstreams, h.packetStreams]
      exact hsame.symm
    · show d'.esCallbackFactory = (d.reportAll factory a.packet.pid calls').esCallbackFactory
      rw [reportAll_data_factory hdata]
      exact h.esCallbackFactory
    · show createsOf d'.history = createsOf (d.reportAll factory a.packet.pid calls').history
      rw [createsOf_reportAll_of_not_pmt, h.creates]
      intro callback hmem update heq
      obtain ⟨bytes, rfl⟩ := hdata callback hmem
      exact absurd heq (by simp)
    · intro pid hpid
      have hne : a.packet.pid ≠ pid := fun heq => hpid (heq ▸ hlossy)
      show callbacksOf pid d'.history =
        callbacksOf pid (d.reportAll factory a.packet.pid calls').history
      rw [callbacksOf_reportAll, if_neg hne, List.append_nil]
      exact h.untouched pid hpid
    · intro pid
      show (callbacksOf pid d'.history).Sublist
        (callbacksOf pid (d.reportAll factory a.packet.pid calls').history)
      rw [callbacksOf_reportAll]
      exact (h.partly pid).trans (List.sublist_append_left _ _)

/-- A handler that is a PES parser in the end has always been one. -/
theorem parserPes_of_consume {arrivals : List Arrival} {g : Handler κ}
    (hrun : consume factory d arrivals = .ok d') (hk : d.packetStreams[pid]? = some g)
    (hes : ∀ g', d'.packetStreams[pid]? = some g' → ∃ consumer, g' = .parserPes consumer) :
    ∃ consumer, g = .parserPes consumer := by
  induction arrivals generalizing d g with
  | nil =>
    obtain rfl : d = d' := Except.ok.inj hrun
    exact hes g hk
  | cons a arrivals ih =>
    rw [consume_cons, bind_eq_ok_iff] at hrun
    obtain ⟨d₁, hstep, hrest⟩ := hrun
    rw [consumePacket_eq_step] at hstep
    by_cases hkey : pid = a.packet.pid
    · subst hkey
      obtain ⟨g₁, calls, hfeed, hk₁, -⟩ := Dispatcher.step_own hk hstep
      obtain ⟨consumer, rfl⟩ := ih hrest hk₁
      have hcont : g.Continues (.parserPes consumer) := Handler.feed_continues hfeed
      cases g with
      | parserPat => exact hcont.elim
      | parserPmt => exact hcont.elim
      | parserPes consumer' => exact ⟨consumer', rfl⟩
    · exact ih hrest (Dispatcher.step_other hkey hk hstep).1

/-- The run lemma. -/
theorem SurvivesLoss.consume {sent received : List Arrival}
    (hlost : Lost (fun a => lossy a.packet.pid) sent received) (h : SurvivesLoss lossy d d')
    (hrun : consume factory d sent = .ok d₁)
    (hes : ∀ pid, lossy pid → ∀ g, d₁.packetStreams[pid]? = some g →
      ∃ consumer, g = .parserPes consumer) :
    ∃ d₁', Demuxer.consume factory d' received = .ok d₁' ∧ SurvivesLoss lossy d₁ d₁' := by
  induction hlost generalizing d d' with
  | nil =>
    obtain rfl : d = d₁ := Except.ok.inj hrun
    exact ⟨d', rfl, h⟩
  | arrives a _ ih =>
    rw [consume_cons, bind_eq_ok_iff] at hrun
    obtain ⟨d₂, hstep, hrest⟩ := hrun
    obtain ⟨d₂', hstep', h₂⟩ := h.step hstep
    obtain ⟨d₁', hrest', h₁⟩ := ih h₂ hrest
    refine ⟨d₁', ?_, h₁⟩
    rw [consume_cons, hstep', ok_bind]
    exact hrest'
  | @drops sent received a hlossy _ ih =>
    have hpes : ∀ g, d.packetStreams[a.packet.pid]? = some g → ∃ consumer, g = .parserPes consumer :=
      fun g hk => parserPes_of_consume hrun hk (hes _ hlossy)
    rw [consume_cons, bind_eq_ok_iff] at hrun
    obtain ⟨d₂, hstep, hrest⟩ := hrun
    exact ih (h.drop hlossy hpes hstep) hrest

end Survives

/-- **Loss is contained.** A run returns from all that was sent, and some packets are lost, none of them
of a table: then the run returns from what was received, with the same handlers and the same calls of
`create`. Every other PID has got the same calls, and a PID with losses some of those it would have got. -/
theorem consume_survives_loss {lossy : UInt16 → Prop} {state : φ} {sent received : List Arrival}
    {d : Demuxer κ φ} (hlost : Lost (fun a => lossy a.packet.pid) sent received)
    (hrun : consume factory (new state) sent = .ok d)
    (hes : ∀ pid, lossy pid → ∀ g, d.packetStreams[pid]? = some g →
      ∃ consumer, g = .parserPes consumer) :
    Returns (consume factory (new state) received) (SurvivesLoss lossy d) :=
  returns_iff.mpr ((SurvivesLoss.refl (new state)).consume hlost hrun hes)

/-- A packet of the stream that `announcedBlocks` announces. -/
def streamBlock : TsBlock :=
  ⟨[0x47, 0x00, 0x30, 0x10] ++ List.replicate 184 0xaa, by decide +kernel, rfl, by decide +kernel⟩

theorem consume_survives_loss_streamBlock :
    ∃ d, consume pidFactory (new ())
        (announcedBlocks.map TsBlock.arrival ++ [streamBlock.arrival]) = .ok d ∧
      Returns (consume pidFactory (new ()) (announcedBlocks.map TsBlock.arrival))
        (SurvivesLoss (· = 0x30) d) := by
  have hserved : (match consume pidFactory (new ())
      (announcedBlocks.map TsBlock.arrival ++ [streamBlock.arrival]) with
    | .ok d => d.packetStreams[(0x30 : UInt16)]?
    | .error _ => none) = some (.parserPes 0x30) := by
    decide +kernel
  cases hrun : consume pidFactory (new ())
      (announcedBlocks.map TsBlock.arrival ++ [streamBlock.arrival]) with
  | error e =>
    rw [hrun] at hserved
    exact nomatch hserved
  | ok d =>
    rw [hrun] at hserved
    refine ⟨d, rfl, consume_survives_loss (.arrives _ (.arrives _ (.drops rfl .nil))) hrun ?_⟩
    rintro pid rfl g hk
    exact ⟨_, Option.some.inj (hk.symm.trans hserved)⟩

end Demuxer

end Sandstream
