import Mathlib
import Sandstream.Lib.Served
import Sandstream.Multiplex

/-! # Sandstream.Demultiplex -- demultiplexing undoes multiplexing

A multiplex is a plan for the dispatcher: every packet that matters finds its handler, so each handler
runs as it would alone on its PID. From that, `demultiplexes` says what the demuxer does with every
multiplex: the consumers it creates and the bytes it hands to them are those of the multiplex.
-/

namespace Sandstream

open Sandstream.Lib
open Sandstream.Lib.Dispatch (Dispatcher Registry Plan)
open ParserPsi (sectionLength)
open Handler (parserPat parserPmt parserPes)

variable {κ φ : Type}

/-! ## What announcements register -/

namespace Demuxer

variable {factory : EsFactory κ φ} {d : Demuxer κ φ} {pid k : UInt16} {callback : Callback}
  {h : Handler κ}

theorem exists_of_puts (hputs : puts factory callback k h) :
    ∃ h', (d.report factory pid callback).packetStreams[k]? = some h' := by
  cases hbefore : d.packetStreams[k]? with
  | some g => exact ⟨g, report_kept hbefore⟩
  | none =>
    cases callback with
    | onPat update =>
      refine ⟨parserPmt [], ?_⟩
      rw [report_onPat, getElem?_onPat, note, hbefore, Option.none_or, if_pos hputs.1]
    | onPmt update =>
      rcases hputs with ⟨t, hlist, -⟩
      rcases onPmt_new factory (d := d.note pid (.onPmt update)) hbefore hlist with ⟨h', -, hnew⟩
      exact ⟨h', hnew⟩
    | onData bytes => exact hputs.elim

/-- The demuxer registers what its tables list. -/
def registry (factory : EsFactory κ φ) : Registry (dispatcher factory) where
  puts := puts factory
  puts_of_new := fun _ _ _ _ _ hnone hk => puts_of_report hnone hk
  lookup_of_puts := fun _ _ _ _ _ hputs => exists_of_puts hputs

end Demuxer

open Demuxer

/-! ## What the handlers of a multiplex do -/

theorem forall₂_append_left {α β : Type} {R : α → β → Prop} {as as' : List α} {bs : List β}
    (h : List.Forall₂ R (as ++ as') bs) :
    ∃ bs₁ bs₂, bs = bs₁ ++ bs₂ ∧ List.Forall₂ R as bs₁ ∧ List.Forall₂ R as' bs₂ :=
  ⟨bs.take as.length, bs.drop as.length, (List.take_append_drop _ _).symm,
    (List.forall₂_take_append _ _ _ h.flip).flip, (List.forall₂_drop_append _ _ _ h.flip).flip⟩

namespace Multiplex

variable (m : Multiplex)

/-- The PIDs that have a handler sooner or later. -/
def Known (pid : UInt16) : Prop := pid = 0 ∨ pid ∈ m.pmtPids ∨ pid ∈ m.esPids

/-- The handlers the multiplex expects under its PIDs at their start. -/
inductive Starts (factory : EsFactory κ φ) : UInt16 → Handler κ → Prop where
  | pat : Starts factory 0 (parserPat [])
  | pmt {q : UInt16} : q ∈ m.pmtPids → Starts factory q (parserPmt [])
  | es {p : UInt16} {h : Handler κ} : p ∈ m.esPids → IsEsHandler factory (m.streamType p) p h →
      Starts factory p h

/-- The calls of the handler of a PID for its packets `frames`. -/
def calls (pid : UInt16) (frames : List TsFrame) : List Callback :=
  if pid ∈ m.esPids then (frames.map fun f => dataCalls (delivered f.cargo)).flatten
  else if pid = 0 then (endedBy m.patPackets frames).map fun s => .onPat (patTable s.bytes)
  else (endedBy (m.pmtPackets pid) frames).map fun s => .onPmt (pmtTable s.bytes)

theorem calls_nil (pid : UInt16) : m.calls pid [] = [] := by
  unfold calls
  split_ifs <;> rfl

variable {m} {factory : EsFactory κ φ} {state : φ} {arrivals : List Arrival} {frames : List TsFrame}

theorem calls_pat (frames : List TsFrame) :
    m.calls 0 frames = (endedBy m.patPackets frames).map fun s => .onPat (patTable s.bytes) := by
  unfold calls
  rw [if_neg m.zero_not_es, if_pos rfl]

theorem calls_pmt {q : UInt16} (hq : q ∈ m.pmtPids) (frames : List TsFrame) :
    m.calls q frames = (endedBy (m.pmtPackets q) frames).map fun s => .onPmt (pmtTable s.bytes) := by
  have hzero : q ≠ 0 := by
    rintro rfl
    exact m.zero_not_pmt hq
  unfold calls
  rw [if_neg (m.pmt_not_es q hq), if_neg hzero]

theorem calls_es {p : UInt16} (hp : p ∈ m.esPids) (frames : List TsFrame) :
    m.calls p frames = (frames.map fun f => dataCalls (delivered f.cargo)).flatten := by
  unfold calls
  rw [if_pos hp]

theorem long_of_mem_pat : ∀ s ∈ m.pat.map PatSection.toPsi, 9 ≤ sectionLength s.bytes := by
  intro s hs
  rcases List.mem_map.mp hs with ⟨s, -, rfl⟩
  exact s.long

theorem long_of_mem_pmt (q : UInt16) :
    ∀ s ∈ (m.pmt q).map PmtSection.toPsi, 9 ≤ sectionLength s.bytes := by
  intro s hs
  rcases List.mem_map.mp hs with ⟨s, -, rfl⟩
  exact s.long

/-- **One PID alone.** An expected handler returns on any first packets of its PID. -/
theorem alone {pid : UInt16} {h : Handler κ} (hstart : m.Starts factory pid h)
    (hfront : frames <+: onPid pid m.packets)
    (harrive : List.Forall₂ Arrival.IsOf arrivals frames) :
    ∃ h', h.feedAll arrivals = .ok (h', m.calls pid frames) ∧ h.Continues h' := by
  rcases hfront with ⟨frames', hframes⟩
  cases hstart with
  | pat =>
    have hcarries := m.carries_pat
    rw [← hframes] at hcarries
    rcases tableParser_pat.feedAll_carried hcarries long_of_mem_pat harrive with ⟨o, hall⟩
    exact ⟨parserPat (OpenSection.sentBytes o), hall.trans (by rw [calls_pat]), trivial⟩
  | pmt hq =>
    have hcarries := m.carries_pmt pid hq
    rw [← hframes] at hcarries
    rcases tableParser_pmt.feedAll_carried hcarries (long_of_mem_pmt pid) harrive with ⟨o, hall⟩
    exact ⟨parserPmt (OpenSection.sentBytes o), hall.trans (by rw [calls_pmt hq]), trivial⟩
  | es hp hes =>
    rcases hes with ⟨state, rfl⟩
    have hheader : ∀ f ∈ frames, HeaderOk f.cargo := by
      intro f hf
      apply (m.carries_es pid hp).headerOk f
      rw [← hframes]
      exact List.mem_append_left _ hf
    refine ⟨_, ?_, Handler.continues_refl _⟩
    rw [Handler.feedAll_parserPes, mapM_esCalls harrive hheader, ok_bind, calls_es hp]
    rfl

/-- The handler of an elementary PID hands on bytes. -/
theorem mem_calls_es {p : UInt16} (hp : p ∈ m.esPids) {callback : Callback}
    (hmem : callback ∈ m.calls p frames) : ∃ bytes, callback = .onData (.inside bytes) := by
  rw [calls_es hp] at hmem
  rcases List.mem_flatten.mp hmem with ⟨calls, hcalls, hmem⟩
  rcases List.mem_map.mp hcalls with ⟨f, -, rfl⟩
  exact inside_of_mem_dataCalls hmem

/-- The tables that a handler reports are those of the sections of its PID. -/
theorem mem_calls_onPat {pid : UInt16} (hknown : m.Known pid) {update : Pat}
    (hmem : .onPat update ∈ m.calls pid (onPid pid m.packets)) :
    ∃ s ∈ m.pat, update = patTable s.toPsi.bytes := by
  rcases hknown with rfl | hq | hp
  · rw [calls_pat, m.carries_pat.endedBy_eq, List.map_map] at hmem
    rcases List.mem_map.mp hmem with ⟨s, hs, heq⟩
    exact ⟨s, hs, (Callback.onPat.inj heq).symm⟩
  · rw [calls_pmt hq] at hmem
    rcases List.mem_map.mp hmem with ⟨s, -, heq⟩
    exact absurd heq (by simp)
  · rcases mem_calls_es hp hmem with ⟨bytes, heq⟩
    exact absurd heq (by simp)

theorem mem_calls_onPmt {pid : UInt16} (hknown : m.Known pid) {update : Pmt}
    (hmem : .onPmt update ∈ m.calls pid (onPid pid m.packets)) :
    pid ∈ m.pmtPids ∧ ∃ s ∈ m.pmt pid, update = pmtTable s.toPsi.bytes := by
  rcases hknown with rfl | hq | hp
  · rw [calls_pat] at hmem
    rcases List.mem_map.mp hmem with ⟨s, -, heq⟩
    exact absurd heq (by simp)
  · rw [calls_pmt hq, (m.carries_pmt pid hq).endedBy_eq, List.map_map] at hmem
    rcases List.mem_map.mp hmem with ⟨s, hs, heq⟩
    exact ⟨hq, s, hs, (Callback.onPmt.inj heq).symm⟩
  · rcases mem_calls_es hp hmem with ⟨bytes, heq⟩
    exact absurd heq (by simp)

theorem mem_streams_of_lookup {entries : List (UInt16 × UInt8)} {p : UInt16} {t : UInt8}
    (h : entries.lookup p = some t) : (p, t) ∈ entries := by
  rcases List.lookup_eq_some_iff.mp h with ⟨before, after, rfl, -⟩
  exact List.mem_append_right _ List.mem_cons_self

/-- A stream that a reported PMT lists is one of the section, with the stream_type of its PID. -/
theorem listed_of_pmtTable {q p : UInt16} {t : UInt8} {s : PmtSection} (hq : q ∈ m.pmtPids)
    (hs : s ∈ m.pmt q) (hlist : (pmtTable s.toPsi.bytes)[p]? = some t) :
    (p, t) ∈ s.streams ∧ p ∈ m.esPids ∧ t = m.streamType p := by
  rw [getElem?_pmtTable, s.streamTypeIn_bytes] at hlist
  have hmem := mem_streams_of_lookup hlist
  exact ⟨hmem, m.pmt_streams q hq s hs _ hmem⟩

/-- And a stream of a section is one that its PMT lists. -/
theorem pmtTable_of_listed {q p : UInt16} {t : UInt8} {s : PmtSection} (hq : q ∈ m.pmtPids)
    (hs : s ∈ m.pmt q) (hmem : (p, t) ∈ s.streams) : (pmtTable s.toPsi.bytes)[p]? = some t := by
  cases hlist : (pmtTable s.toPsi.bytes)[p]? with
  | none =>
    rw [getElem?_pmtTable, s.streamTypeIn_bytes, List.lookup_eq_none_iff] at hlist
    exact absurd (hlist _ hmem) (by simp)
  | some t' =>
    -- the first entry for the PID decides, and all entries for it agree
    have ht' := (listed_of_pmtTable hq hs hlist).2.2
    have ht := (m.pmt_streams q hq s hs _ hmem).2
    rw [ht', ← ht]

/-! ## The plan -/

section Plan

/-- The packets of a PID among the arrivals. -/
theorem arrive_onPid (factory : EsFactory κ φ) {pid : UInt16} {packets : List MuxPacket}
    (hother : ∀ block hlength hsync, .other block hlength hsync ∈ packets → blockPid block ≠ pid)
    (harrive : List.Forall₂ MuxPacket.Arrives arrivals packets) :
    List.Forall₂ Arrival.IsOf ((dispatcher factory).messagesOf pid arrivals) (onPid pid packets) := by
  induction harrive with
  | nil => exact .nil
  | @cons a p arrivals packets ha _ ih =>
    have htail := ih fun block hlength hsync hmem =>
      hother block hlength hsync (List.mem_cons_of_mem _ hmem)
    have hkey : (dispatcher factory).key a = a.packet.pid := rfl
    cases p with
    | frame f =>
      have hpid : a.packet.pid = f.pid := Arrival.IsOf.pid_eq ha
      by_cases heq : f.pid = pid
      · subst heq
        have hframe : MuxPacket.frameOn f.pid (.frame f) = some f := if_pos rfl
        rw [← hpid, ← hkey, Dispatcher.messagesOf_cons_self, hkey, hpid]
        unfold onPid
        rw [List.filterMap_cons_some hframe]
        exact .cons ha htail
      · have hframe : MuxPacket.frameOn pid (.frame f) = none := if_neg heq
        rw [Dispatcher.messagesOf_cons_of_ne (by rw [hkey, hpid]; exact Ne.symm heq)]
        unfold onPid
        rw [List.filterMap_cons_none hframe]
        exact htail
    | other block hlength hsync =>
      rcases Arrival.IsOfBlock.packet_eq ha hlength hsync with ⟨data, -, -, hpacket⟩
      have hpid : a.packet.pid = blockPid block := by rw [hpacket]; rfl
      have hne := hother block hlength hsync List.mem_cons_self
      rw [Dispatcher.messagesOf_cons_of_ne (by rw [hkey, hpid]; exact Ne.symm hne)]
      unfold onPid
      rw [List.filterMap_cons_none rfl]
      exact htail

/-- No other packet is on a PID of the multiplex. -/
theorem other_ne {pid : UInt16} (hknown : m.Known pid) : ∀ block hlength hsync,
    .other block hlength hsync ∈ m.packets → blockPid block ≠ pid := by
  rintro block hlength hsync hmem rfl
  rcases m.other_pids block hlength hsync hmem with ⟨hzero, hpmt, hes⟩
  rcases hknown with h | h | h
  · exact hzero h
  · exact hpmt h
  · exact hes h

theorem arrive_known (factory : EsFactory κ φ) {pid : UInt16} (hknown : m.Known pid)
    (harrive : List.Forall₂ MuxPacket.Arrives arrivals m.packets) :
    List.Forall₂ Arrival.IsOf ((dispatcher factory).messagesOf pid arrivals)
      (onPid pid m.packets) :=
  arrive_onPid factory (other_ne hknown) harrive

/-- A report of a known handler is expected. -/
theorem sound {pid k : UInt16} {callback : Callback} {h : Handler κ} (hknown : m.Known pid)
    (hmem : callback ∈ m.calls pid (onPid pid m.packets)) (hputs : puts factory callback k h) :
    m.Known k ∧ m.Starts factory k h := by
  cases callback with
  | onPat update =>
    rcases mem_calls_onPat hknown hmem with ⟨s, hs, rfl⟩
    rcases hputs with ⟨hlist, rfl⟩
    rw [mem_patTable_iff, s.pidsIn_bytes] at hlist
    have hk := m.pat_pids s hs k hlist
    exact ⟨Or.inr (Or.inl hk), .pmt hk⟩
  | onPmt update =>
    rcases mem_calls_onPmt hknown hmem with ⟨hq, s, hs, rfl⟩
    rcases hputs with ⟨t, hlist, hes⟩
    rcases listed_of_pmtTable hq hs hlist with ⟨-, hk, rfl⟩
    exact ⟨Or.inr (Or.inr hk), .es hk hes⟩
  | onData bytes => exact hputs.elim

/-- Every packet of a table or stream comes after a report that puts a handler under its PID. -/
theorem served (factory : EsFactory κ φ) (state : φ) {before after : List MuxPacket} {f : TsFrame}
    (hpackets : m.packets = before ++ .frame f :: after) (hknown : m.Known f.pid) :
    f.pid = 0 ∨ ∃ k callback h, m.Known k ∧ callback ∈ m.calls k (onPid k before) ∧
      puts factory callback f.pid h := by
  rcases hknown with hzero | hq | hp
  · exact Or.inl hzero
  · rcases m.pat_first before f after hpackets hq with ⟨s, -, hended, hlisted⟩
    refine Or.inr ⟨0, .onPat (patTable s.toPsi.bytes), parserPmt [], Or.inl rfl, ?_, ?_, rfl⟩
    · rw [calls_pat]
      exact List.mem_map.mpr ⟨s.toPsi, hended, rfl⟩
    · rw [mem_patTable_iff, s.pidsIn_bytes]
      exact hlisted
  · rcases m.pmt_first before f after hpackets hp with ⟨q, hq, s, hs, hended, t, hlisted⟩
    refine Or.inr ⟨q, .onPmt (pmtTable s.toPsi.bytes),
      parserPes (factory.create state t f.pid).1, Or.inr (Or.inl hq), ?_, t, ?_, state, rfl⟩
    · rw [calls_pmt hq]
      exact List.mem_map.mpr ⟨s.toPsi, hended, rfl⟩
    · exact pmtTable_of_listed hq hs hlisted

/-- A packet on a PID of the multiplex is one of its own. -/
theorem frame_of_known {before after : List MuxPacket} {p : MuxPacket} {a : Arrival}
    (hpackets : m.packets = before ++ p :: after) (ha : MuxPacket.Arrives a p)
    (hknown : m.Known a.packet.pid) :
    ∃ f, p = .frame f := by
  cases p with
  | frame f => exact ⟨f, rfl⟩
  | other block hlength hsync =>
    rcases Arrival.IsOfBlock.packet_eq ha hlength hsync with ⟨data, -, -, hpacket⟩
    have hpid : a.packet.pid = blockPid block := by rw [hpacket]; rfl
    apply absurd hpid.symm
    apply other_ne hknown block hlength hsync
    rw [hpackets]
    exact List.mem_append_right _ List.mem_cons_self

/-- **The plan of a multiplex.** What a handler announces on its first packets is said in terms of the
packets of the multiplex. -/
def plan (factory : EsFactory κ φ) (state : φ)
    (harrive : List.Forall₂ MuxPacket.Arrives arrivals m.packets) :
    Plan (dispatcher factory) (registry factory) (new state) arrivals where
  known := m.Known
  start := m.Starts factory
  tells pid messages := m.calls pid ((onPid pid m.packets).take messages.length)
  tells_nil := m.calls_nil
  alone := by
    rintro pid h hknown hstart messages ⟨rest, hmessages⟩
    have hpid := arrive_known factory hknown harrive
    rw [← hmessages] at hpid
    rcases forall₂_append_left hpid with ⟨frames, frames', hframes, hfirst, -⟩
    have htake : (onPid pid m.packets).take messages.length = frames := by
      rw [hframes, hfirst.length_eq]
      exact List.take_left
    rcases alone hstart ⟨frames', hframes.symm⟩ hfirst with ⟨h', hall, -⟩
    rw [htake]
    exact ⟨h', (feedAll_eq factory h messages).trans hall⟩
  initial := by
    intro pid h hk
    have hlookup : (new state : Demuxer κ φ).packetStreams[pid]? = some h := hk
    rw [getElem?_new] at hlookup
    split_ifs at hlookup with hzero
    obtain rfl := Option.some.inj hlookup
    subst hzero
    exact ⟨Or.inl rfl, .pat⟩
  silent := fun _ => rfl
  sound := by
    intro pid callback k h hknown hmem hputs
    rw [(arrive_known factory hknown harrive).length_eq, List.take_length] at hmem
    exact sound hknown hmem hputs
  served := by
    rintro before a after rfl hknown
    rcases forall₂_append_left harrive with ⟨packets, packets', hpackets, hfirst, hrest⟩
    rcases List.forall₂_cons_left_iff.mp hrest with ⟨p, packets'', ha, -, rfl⟩
    rcases frame_of_known hpackets ha hknown with ⟨f, rfl⟩
    have hkey : (dispatcher factory).key a = f.pid := Arrival.IsOf.pid_eq ha
    rw [hkey] at hknown ⊢
    -- the PAT handler is there from the start, the others are put there by an earlier report
    rcases served factory state hpackets hknown with hzero | ⟨k, callback, h, hk, hmem, hputs⟩
    · left
      refine ⟨parserPat [], ?_⟩
      show (new state : Demuxer κ φ).packetStreams[f.pid]? = _
      rw [hzero, getElem?_new, if_pos rfl]
    · right
      refine ⟨k, callback, h, hk, ?_, hputs⟩
      have hbefore : List.Forall₂ Arrival.IsOf ((dispatcher factory).messagesOf k before)
          (onPid k packets) := by
        apply arrive_onPid factory ?_ hfirst
        intro block hlength hsync hmem
        apply other_ne hk block hlength hsync
        rw [hpackets]
        exact List.mem_append_left _ hmem
      have htake : (onPid k m.packets).take ((dispatcher factory).messagesOf k before).length =
          onPid k packets := by
        rw [hbefore.length_eq, hpackets]
        unfold onPid
        rw [List.filterMap_append]
        exact List.take_left
      rw [htake]
      exact hmem

end Plan

/-! ## The end-to-end result -/

/-- The demuxer has done with a multiplex what it should. -/
structure Demultiplexed (m : Multiplex) (factory : EsFactory κ φ) (d : Demuxer κ φ) : Prop where
  /-- `create` was called for the streams that the PMT sections list, with their stream types -/
  created : ∀ t p, (t, p) ∈ createsOf d.history ↔
    ∃ q ∈ m.pmtPids, ∃ s ∈ m.pmt q, (p, t) ∈ s.streams
  /-- and once for each PID -/
  createdOnce : ((createsOf d.history).map Prod.snd).Nodup
  /-- the consumer it made is the one that the parser of the PID hands its bytes to -/
  consumers : ∀ t p, (t, p) ∈ createsOf d.history →
    ∃ state, d.packetStreams[p]? = some (parserPes (factory.create state t p).1)
  /-- the bytes handed on are the data of the PES packets -/
  delivered : ∀ p ∈ m.esPids,
    dataOf (callbacksOf p d.history) = (m.es p).flatMap PesPacket.data
  /-- in buffers that are there -/
  inside : d.HandsOnInside
  /-- and nothing is handed on elsewhere -/
  nothingElse : ∀ p, p ∉ m.esPids → ∀ buffer, .onData buffer ∉ callbacksOf p d.history

section Result

variable {d : Demuxer κ φ} {harrive : List.Forall₂ MuxPacket.Arrives arrivals m.packets}

/-- What a known handler has reported in the end. -/
theorem callbacksOf_eq (hserves : (m.plan factory state harrive).Serves arrivals d) {pid : UInt16}
    (hknown : m.Known pid) : callbacksOf pid d.history = m.calls pid (onPid pid m.packets) := by
  have hout := hserves.output_known pid hknown
  have htells : (m.plan factory state harrive).tells pid
      ((dispatcher factory).messagesOf pid arrivals) = m.calls pid (onPid pid m.packets) := by
    show m.calls pid ((onPid pid m.packets).take
      ((dispatcher factory).messagesOf pid arrivals).length) = _
    rw [(arrive_known factory hknown harrive).length_eq, List.take_length]
  exact hout.trans htells

/-- Every PMT that was reported is one of the multiplex. -/
theorem reported (hserves : (m.plan factory state harrive).Serves arrivals d) {pid : UInt16}
    {update : Pmt} (hmem : Event.handler pid (.onPmt update) ∈ d.history) :
    pid ∈ m.pmtPids ∧ ∃ s ∈ m.pmt pid, update = pmtTable s.toPsi.bytes := by
  have hcallback : .onPmt update ∈ callbacksOf pid d.history :=
    List.mem_filterMap.mpr ⟨_, hmem, by simp⟩
  by_cases hknown : m.Known pid
  · rw [callbacksOf_eq hserves hknown] at hcallback
    exact mem_calls_onPmt hknown hcallback
  · have hnone : callbacksOf pid d.history = [] := hserves.output_unknown pid hknown
    rw [hnone] at hcallback
    exact absurd hcallback List.not_mem_nil

/-- No buffer is handed on elsewhere than on the elementary PIDs, -/
theorem not_mem_of_not_es (hserves : (m.plan factory state harrive).Serves arrivals d) {pid : UInt16}
    (hp : pid ∉ m.esPids) (buffer : Handed) : .onData buffer ∉ callbacksOf pid d.history := by
  intro hmem
  by_cases hknown : m.Known pid
  · rw [callbacksOf_eq hserves hknown] at hmem
    unfold calls at hmem
    rw [if_neg hp] at hmem
    split_ifs at hmem
    · rcases List.mem_map.mp hmem with ⟨s, -, heq⟩
      exact absurd heq (by simp)
    · rcases List.mem_map.mp hmem with ⟨s, -, heq⟩
      exact absurd heq (by simp)
  · have hnone : callbacksOf pid d.history = [] := hserves.output_unknown pid hknown
    rw [hnone] at hmem
    exact absurd hmem List.not_mem_nil

/-- and all of them lie inside their storage. -/
theorem handsOnInside_of_serves (hserves : (m.plan factory state harrive).Serves arrivals d) :
    d.HandsOnInside := by
  intro pid callback hmem
  have hcallback := mem_callbacksOf.mpr hmem
  cases callback with
  | onPat update => trivial
  | onPmt update => trivial
  | onData buffer =>
    by_cases hp : pid ∈ m.esPids
    · rw [callbacksOf_eq hserves (Or.inr (Or.inr hp))] at hcallback
      rcases mem_calls_es hp hcallback with ⟨bytes, heq⟩
      obtain rfl := Callback.onData.inj heq
      trivial
    · exact absurd hcallback (not_mem_of_not_es hserves hp buffer)

/-- Calls of `create` are for listed streams. -/
theorem listed_of_created (hserves : (m.plan factory state harrive).Serves arrivals d)
    (hcreate : CreateCalls d) {t : UInt8} {p : UInt16} (hmem : (t, p) ∈ createsOf d.history) :
    (∃ q ∈ m.pmtPids, ∃ s ∈ m.pmt q, (p, t) ∈ s.streams) ∧ p ∈ m.esPids ∧ t = m.streamType p := by
  rcases hcreate.listed _ hmem with ⟨q, update, hreported, hlist⟩
  rcases reported hserves hreported with ⟨hq, s, hs, rfl⟩
  rcases listed_of_pmtTable hq hs hlist with ⟨hstream, hp, ht⟩
  exact ⟨⟨q, hq, s, hs, hstream⟩, hp, ht⟩

/-- The handler of an elementary PID has a consumer that `create` made for it. -/
theorem consumer_of_registered (hserves : (m.plan factory state harrive).Serves arrivals d)
    {p : UInt16} (hp : p ∈ m.esPids) {h : Handler κ} (hk : d.packetStreams[p]? = some h) :
    IsEsHandler factory (m.streamType p) p h := by
  rcases hserves.machine p h hk with ⟨-, h₀, hstart, hall⟩
  have harrived := arrive_known factory (Or.inr (Or.inr hp)) harrive
  rcases alone hstart (List.prefix_refl _) harrived with ⟨h', hall', hcont⟩
  -- the handler in the demuxer and the handler alone got the same packets
  have hsame := hall.symm.trans ((feedAll_eq factory h₀ _).trans hall')
  rw [Except.ok.injEq, Prod.mk.injEq] at hsame
  rcases hsame with ⟨rfl, -⟩
  cases hstart with
  | pat => exact absurd hp m.zero_not_es
  | pmt hq => exact absurd hp (m.pmt_not_es p hq)
  | es _ hes =>
    rcases hes with ⟨state', rfl⟩
    cases h with
    | parserPat => exact hcont.elim
    | parserPmt => exact hcont.elim
    | parserPes consumer => exact ⟨state', congrArg parserPes hcont.symm⟩

/-- Listed streams have a handler. -/
theorem created_of_listed (hserves : (m.plan factory state harrive).Serves arrivals d)
    (hcreate : CreateCalls d) {q p : UInt16} {t : UInt8} {s : PmtSection} (hq : q ∈ m.pmtPids)
    (hs : s ∈ m.pmt q) (hmem : (p, t) ∈ s.streams) : (t, p) ∈ createsOf d.history := by
  have hcall : .onPmt (pmtTable s.toPsi.bytes) ∈ callbacksOf q d.history := by
    rw [callbacksOf_eq hserves (Or.inr (Or.inl hq)), calls_pmt hq, (m.carries_pmt q hq).endedBy_eq]
    exact List.mem_map.mpr ⟨s.toPsi, List.mem_map.mpr ⟨s, hs, rfl⟩, rfl⟩
  obtain ⟨hp, ht⟩ : p ∈ m.esPids ∧ t = m.streamType p := m.pmt_streams q hq s hs _ hmem
  have hputs : puts factory (.onPmt (pmtTable s.toPsi.bytes)) p
      (parserPes (factory.create state t p).1) :=
    ⟨t, pmtTable_of_listed hq hs hmem, state, rfl⟩
  rcases hserves.acted q _ p _ hcall hputs with ⟨h, hk⟩
  rcases consumer_of_registered hserves hp hk with ⟨state', rfl⟩
  -- a consumer is there, so `create` was called for the PID, with the one stream_type it has
  rcases hcreate.called p _ hk with ⟨t', ht'⟩
  have htype := (listed_of_created hserves hcreate ht').2.2
  rw [ht, ← htype]
  exact ht'

end Result

/-- **Demultiplexing undoes multiplexing.** On every multiplex, in whatever storage its packets stand,
the demuxer returns, has created one consumer for each listed stream, and has handed on the data of the
PES packets and nothing else. -/
theorem demultiplexes (m : Multiplex) (factory : EsFactory κ φ) (state : φ) {arrivals : List Arrival}
    (harrive : List.Forall₂ MuxPacket.Arrives arrivals m.packets) :
    Returns (consume factory (new state) arrivals) (Demultiplexed m factory) := by
  rcases (m.plan factory state harrive).run_serves with ⟨d, hrun, hserves⟩
  rw [← consume_eq_run] at hrun
  have hcreate : CreateCalls d := (createCalls_new state).consume hrun
  rw [hrun, returns_ok]
  -- one goal for each field of `Demultiplexed`
  constructor
  · intro t p
    constructor
    · intro hmem
      exact (listed_of_created hserves hcreate hmem).1
    · rintro ⟨q, hq, s, hs, hmem⟩
      exact created_of_listed hserves hcreate hq hs hmem
  · exact hcreate.once
  · intro t p hmem
    rcases (listed_of_created hserves hcreate hmem).2 with ⟨hp, rfl⟩
    rcases hcreate.parsers _ hmem with ⟨consumer, hk⟩
    rcases consumer_of_registered hserves hp hk with ⟨state', heq⟩
    exact ⟨state', hk.trans (congrArg some heq)⟩
  · intro p hp
    rw [callbacksOf_eq hserves (Or.inr (Or.inr hp)), calls_es hp]
    exact (m.carries_es p hp).dataOf_eq
  · exact handsOnInside_of_serves hserves
  · exact fun p hp buffer => not_mem_of_not_es hserves hp buffer

/-! ## One program -/

namespace OneProgram

open PsiPacket (ending)

/-- Header fields of a section. -/
def fields : SectionFields := ⟨11, 1, 0xc1, 0, 0⟩

/-- A PAT section that lists PMT PID 0x100. -/
def pat : PatSection where
  fields := fields
  entries := [⟨1, 7, 0x100, by decide⟩]
  crc := [0xde, 0xad, 0xbe, 0xef]
  crc_length := rfl
  size_lt := by decide

/-- A PMT section that lists elementary PID 0x101, with a descriptor. -/
def pmt : PmtSection where
  fields := fields
  head := ⟨(0xe1, 0x01), 15, [], by decide⟩
  entries := [⟨0x1b, 7, 0x101, 15, [0x52, 0x01, 0x00], by decide, by decide⟩]
  crc := [0xff, 0xff, 0xff, 0xff]
  crc_length := rfl
  size_lt := by decide

/-- A PES packet with a five byte optional header and 174 bytes of data. -/
def pes : PesPacket where
  streamId := 0xe0
  packetLength := (0, 0)
  flags := (0x80, 0x80)
  headerData := [0x21, 0x00, 0x01, 0x00, 0x01]
  data := List.replicate 174 0xaa
  hasOptionalHeader := by decide
  headerData_le := by decide

/-- A packet without adaptation field. -/
def frame (pid : UInt16) (start : Bool) (payload : List UInt8) (hpid : pid < 0x2000)
    (hlength : payload.length = 184) : TsFrame where
  transportError := false
  payloadUnitStart := start
  transportPriority := false
  pid := pid
  scramblingControl := 0
  continuityCounter := 0
  adaptation := none
  payload := payload
  pid_lt := hpid
  length_eq := by rw [hlength]; rfl

def patFrame : TsFrame :=
  frame 0 true (ending none [pat.toPsi] 167).payload (by decide) (by decide +kernel)

def pmtFrame : TsFrame :=
  frame 0x100 true (ending none [pmt.toPsi] 159).payload (by decide) (by decide +kernel)

/-- The header and the first 170 bytes of data. -/
def firstPesFrame : TsFrame :=
  frame 0x101 true (pes.header ++ List.replicate 170 0xaa) (by decide) (by decide +kernel)

/-- An adaptation field and the last four bytes of data. -/
def lastPesFrame : TsFrame where
  transportError := false
  payloadUnitStart := false
  transportPriority := true
  pid := 0x101
  scramblingControl := 0
  continuityCounter := 1
  adaptation := some (0x00 :: List.replicate 178 0xff)
  payload := List.replicate 4 0xaa
  pid_lt := by decide
  length_eq := by decide +kernel

/-- A null packet. -/
def nullBlock : List UInt8 := 0x47 :: 0x1f :: 0xff :: List.replicate 185 0x00

theorem nullBlock_sync : nullBlock[0]? = some tsSyncByte := rfl

theorem nullBlock_length : nullBlock.length = tsPacketSize := by decide +kernel

/-- The program, with a null packet in between. -/
def multiplex : Multiplex where
  pmtPids := [0x100]
  esPids := [0x101]
  streamType := fun _ => 0x1b
  pat := [pat]
  pmt := fun _ => [pmt]
  es := fun _ => [pes]
  patPackets := [ending none [pat.toPsi] 167]
  pmtPackets := fun _ => [ending none [pmt.toPsi] 159]
  packets := [.frame patFrame, .frame pmtFrame, .frame firstPesFrame,
    .other nullBlock nullBlock_length nullBlock_sync, .frame lastPesFrame]
  zero_not_pmt := by decide
  zero_not_es := by decide
  pmt_not_es := by
    intro q hq
    obtain rfl := List.mem_singleton.mp hq
    decide
  pat_pids := by
    intro s hs q hq
    obtain rfl := List.mem_singleton.mp hs
    exact hq
  pmt_streams := by
    intro q _ s hs e he
    obtain rfl := List.mem_singleton.mp hs
    obtain rfl := List.mem_singleton.mp he
    exact ⟨List.mem_singleton.mpr rfl, rfl⟩
  other_pids := by
    intro block hlength hsync hmem
    obtain rfl : block = nullBlock := by
      simp only [List.mem_cons, List.not_mem_nil, or_false, reduceCtorEq, false_or] at hmem
      exact congrArg MuxPacket.bytes hmem
    decide +kernel
  carries_pat := by
    have hfits : (ending none [pat.toPsi] 167).Fits := by decide +kernel
    refine ⟨.ends (List.cons_ne_nil _ _) hfits .done, by decide +kernel, ?_⟩
    intro f hf hempty
    obtain rfl : f = patFrame := List.mem_singleton.mp hf
    exact absurd hempty (by decide)
  carries_pmt := by
    intro q hq
    obtain rfl := List.mem_singleton.mp hq
    have hfits : (ending none [pmt.toPsi] 159).Fits := by decide +kernel
    refine ⟨.ends (List.cons_ne_nil _ _) hfits .done, by decide +kernel, ?_⟩
    intro f hf hempty
    obtain rfl : f = pmtFrame := List.mem_singleton.mp hf
    exact absurd hempty (by decide)
  carries_es := by
    intro p hp
    obtain rfl := List.mem_singleton.mp hp
    refine ⟨?_, ?_⟩
    · have hcargo : (payloadFrames [firstPesFrame, lastPesFrame]).map TsFrame.cargo =
          (true, firstPesFrame.payload) :: ([lastPesFrame.payload].map (Prod.mk false) ++ []) := by
        decide +kernel
      show PesCut [pes] ((payloadFrames [firstPesFrame, lastPesFrame]).map TsFrame.cargo)
      rw [hcargo]
      exact .cons (by decide +kernel) (by decide +kernel) .nil
    · intro f hf hempty
      have hf' : f ∈ [firstPesFrame, lastPesFrame] := hf
      rcases List.mem_pair.mp hf' with rfl | rfl
      · exact absurd hempty (by decide)
      · rfl
  pat_first := by
    intro before f after hpackets hpid
    refine ⟨pat, List.mem_singleton.mpr rfl, ?_, hpid⟩
    match before, hpackets with
    | [], hpackets =>
      obtain rfl := MuxPacket.frame.inj (List.cons.inj hpackets).1
      exact absurd hpid (by decide)
    | p :: before, hpackets =>
      obtain rfl := (List.cons.inj hpackets).1
      have hpayload : patFrame.payload ≠ [] := List.cons_ne_nil _ _
      exact mem_endedBy_of_mem List.mem_cons_self hpayload (List.mem_singleton.mpr rfl)
  pmt_first := by
    intro before f after hpackets hpid
    have hlisted : (f.pid, 0x1b) ∈ pmt.streams := by
      rw [List.mem_singleton.mp hpid]
      exact List.mem_singleton.mpr rfl
    refine ⟨0x100, List.mem_singleton.mpr rfl, pmt, List.mem_singleton.mpr rfl, ?_, 0x1b, hlisted⟩
    match before, hpackets with
    | [], hpackets =>
      obtain rfl := MuxPacket.frame.inj (List.cons.inj hpackets).1
      exact absurd hpid (by decide)
    | [p], hpackets =>
      obtain rfl := MuxPacket.frame.inj (List.cons.inj (List.cons.inj hpackets).2).1
      exact absurd hpid (by decide)
    | p :: p' :: before, hpackets =>
      obtain rfl := (List.cons.inj (List.cons.inj hpackets).2).1
      have hpayload : pmtFrame.payload ≠ [] := List.cons_ne_nil _ _
      have hframe : .frame pmtFrame ∈ p :: .frame pmtFrame :: before :=
        List.mem_cons_of_mem _ List.mem_cons_self
      have hended : pmt.toPsi ∈ (ending none [pmt.toPsi] 159).completes :=
        List.mem_singleton.mpr rfl
      exact mem_endedBy_of_mem hframe hpayload hended

end OneProgram

theorem demultiplexes_oneProgram :
    Returns (consume pidFactory (new ())
      (OneProgram.multiplex.packets.map fun p => blockArrival p.bytes))
      (Demultiplexed OneProgram.multiplex pidFactory) := by
  apply demultiplexes
  apply List.forall₂_map_left_iff.mpr
  apply List.forall₂_same.mpr
  intro p _
  exact isOfBlock_blockArrival p.bytes_length p.bytes_sync

end Multiplex

end Sandstream
