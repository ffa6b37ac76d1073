import Mathlib
import Sandstream.Assertions
import Sandstream.DemuxerStep
import Sandstream.TsFrame

/-! # Sandstream.Registration -- who is registered, and why

`Registered` is the invariant of the dispatch map over whole runs: PID 0 has the PAT parser, every key
fits in 13 bits, and `create` was called once for each PES parser. `registration_law` adds what each
packet may change, and `announced_streams` traces every call of `create` back to the PMT section that
lists the stream and the PAT section that lists the PID this PMT came on.

The tables are read naively: the table_id of a section is not looked at, and the program_number of a
PAT entry is dropped, so these two have no part in what is registered.
-/

namespace Sandstream

open Sandstream.Lib
open Sandstream.Lib.Frames
open ParserPsi (sectionFormat sectionLength)

variable {κ φ : Type}

/-! ## What sections list -/

/-- The stream_type of the first entry for a PID in a section read as a PMT. -/
def streamTypeIn (s : List UInt8) (pid : UInt16) : Option UInt8 :=
  (ParserPmt.pmtEntries (s.drop 8)).lookup pid

/-- The PIDs of the entries of a section read as a PAT. -/
def pidsIn (s : List UInt8) : List UInt16 := (ParserPat.patEntries (s.drop 8)).map Prod.fst

theorem getElem?_pmtTable (s : List UInt8) (pid : UInt16) :
    (pmtTable s)[pid]? = streamTypeIn s pid :=
  FirstWins.getElem?_ofEntries _ _

theorem mem_patTable_iff (s : List UInt8) (pid : UInt16) : pid ∈ patTable s ↔ pid ∈ pidsIn s := by
  rw [patTable, ParserPat.table, FirstWins.mem_ofEntries_iff, pidsIn, List.mem_map]
  constructor
  · rintro ⟨number, hmem⟩
    exact ⟨(pid, number), hmem, rfl⟩
  · rintro ⟨⟨_, number⟩, hmem, rfl⟩
    exact ⟨number, hmem⟩

theorem patEntries_pid_lt (s : List UInt8) : ∀ e ∈ ParserPat.patEntries s, e.1 < 0x2000 := by
  induction s using ParserPat.patEntries.induct with
  | case1 a b c d e rest ih =>
    rintro entry (_ | ⟨_, hmem⟩)
    · exact maskedPid_lt c d
    · exact ih entry hmem
  | case2 s hshort =>
    intro entry hmem
    rw [ParserPat.patEntries] at hmem
    · exact absurd hmem List.not_mem_nil
    · exact hshort

theorem pmtEntriesFrom_pid_lt (skip : Nat) (s : List UInt8) :
    ∀ e ∈ ParserPmt.pmtEntriesFrom skip s, e.1 < 0x2000 := by
  induction skip, s using ParserPmt.pmtEntriesFrom.induct with
  | case1 skip b s ih => exact ih
  | case2 a b c d e rest ih =>
    rintro entry (_ | ⟨_, hmem⟩)
    · exact maskedPid_lt b c
    · exact ih entry hmem
  | case3 skip s hskip hshort =>
    intro entry hmem
    rw [ParserPmt.pmtEntriesFrom] at hmem
    · exact absurd hmem List.not_mem_nil
    · exact hskip
    · exact hshort

/-! ## Lists of reported tables -/

/-- The calls of `create` in a history. -/
def createsOf (history : List Event) : List (UInt8 × UInt16) :=
  history.filterMap fun
    | .create streamType pid => some (streamType, pid)
    | .handler _ _ => none

theorem createsOf_append (history history' : List Event) :
    createsOf (history ++ history') = createsOf history ++ createsOf history' :=
  List.filterMap_append

theorem createsOf_tracks (pid : UInt16) (callback : Callback) (tracks : List (UInt16 × UInt8)) :
    createsOf (.handler pid callback :: tracks.map fun t => Event.create t.2 t.1) =
      tracks.map fun t => (t.2, t.1) := by
  rw [createsOf, List.filterMap_cons_none rfl, List.filterMap_map]
  exact congrFun (List.filterMap_eq_map (f := fun t : UInt16 × UInt8 => (t.2, t.1))) tracks

/-- The first section in a list that lists a PID decides its stream_type. -/
def firstType (ss : List (List UInt8)) (pid : UInt16) : Option UInt8 :=
  ss.findSome? fun s => streamTypeIn s pid

theorem firstType_cons (s : List UInt8) (ss : List (List UInt8)) (pid : UInt16) :
    firstType (s :: ss) pid = (streamTypeIn s pid).or (firstType ss pid) := by
  rw [firstType, List.findSome?_cons]
  cases streamTypeIn s pid <;> rfl

namespace Demuxer

variable {factory : EsFactory κ φ} {d : Demuxer κ φ} {pid k : UInt16} {h : Handler κ}
  {ss : List (List UInt8)}

theorem reportAll_kept {calls : List Callback} (hk : d.packetStreams[k]? = some h) :
    (d.reportAll factory pid calls).packetStreams[k]? = some h := by
  induction calls generalizing d with
  | nil => exact hk
  | cons callback calls ih => exact ih (report_kept hk)

theorem reportAll_cons (callback : Callback) (calls : List Callback) :
    d.reportAll factory pid (callback :: calls) =
      (d.report factory pid callback).reportAll factory pid calls := rfl

/-- PATs put a PMT parser under each PID they list. -/
theorem reportAll_pats (hnone : d.packetStreams[k]? = none) :
    (d.reportAll factory pid (ss.map fun s => .onPat (patTable s))).packetStreams[k]? =
      if ∃ s ∈ ss, k ∈ pidsIn s then some (.parserPmt []) else none := by
  induction ss generalizing d with
  | nil => simp [reportAll, hnone]
  | cons s ss ih =>
    rw [List.map_cons, reportAll_cons]
    have hstep : (d.report factory pid (.onPat (patTable s))).packetStreams[k]? =
        if k ∈ pidsIn s then some (.parserPmt []) else none := by
      rw [report_onPat, getElem?_onPat, note, hnone, Option.none_or]
      simp only [mem_patTable_iff]
    -- a handler from this section is kept through the later ones
    by_cases hlisted : k ∈ pidsIn s
    · rw [if_pos hlisted] at hstep
      rw [reportAll_kept hstep, if_pos ⟨s, List.mem_cons_self, hlisted⟩]
    · rw [if_neg hlisted] at hstep
      rw [ih hstep]
      simp [hlisted]

theorem report_pmt_other {s : List UInt8} (hs : streamTypeIn s k = none) :
    (d.report factory pid (.onPmt (pmtTable s))).packetStreams[k]? = d.packetStreams[k]? := by
  rw [report_onPmt, onPmt_other ((getElem?_pmtTable s k).trans hs), note]

theorem report_pmt_new (factory : EsFactory κ φ) (pid : UInt16) {s : List UInt8}
    {streamType : UInt8} (hnone : d.packetStreams[k]? = none)
    (hs : streamTypeIn s k = some streamType) :
    ∃ h, IsEsHandler factory streamType k h ∧
      (d.report factory pid (.onPmt (pmtTable s))).packetStreams[k]? = some h :=
  onPmt_new factory (d := d.note pid (.onPmt (pmtTable s))) hnone ((getElem?_pmtTable s k).trans hs)

/-- PMTs put nothing under a PID they do not list. -/
theorem reportAll_pmts_other (hnone : d.packetStreams[k]? = none) (hfirst : firstType ss k = none) :
    (d.reportAll factory pid (ss.map fun s => .onPmt (pmtTable s))).packetStreams[k]? = none := by
  induction ss generalizing d with
  | nil => exact hnone
  | cons s ss ih =>
    rw [firstType_cons] at hfirst
    cases hs : streamTypeIn s k with
    | none =>
      rw [hs, Option.none_or] at hfirst
      exact ih ((report_pmt_other hs).trans hnone) hfirst
    | some streamType => simp [hs] at hfirst

/-- PMTs put a PES parser under each PID they list, with the stream_type of the first one. -/
theorem reportAll_pmts_new (factory : EsFactory κ φ) (pid : UInt16)
    (hnone : d.packetStreams[k]? = none) {streamType : UInt8}
    (hfirst : firstType ss k = some streamType) :
    ∃ h, IsEsHandler factory streamType k h ∧
      (d.reportAll factory pid (ss.map fun s => .onPmt (pmtTable s))).packetStreams[k]? =
        some h := by
  induction ss generalizing d with
  | nil => simp [firstType] at hfirst
  | cons s ss ih =>
    rw [firstType_cons] at hfirst
    cases hs : streamTypeIn s k with
    | none =>
      rw [hs, Option.none_or] at hfirst
      exact ih ((report_pmt_other hs).trans hnone) hfirst
    | some t =>
      rw [hs, Option.some_or, Option.some.injEq] at hfirst
      obtain ⟨h, hes, hnew⟩ := report_pmt_new factory pid hnone hs
      exact ⟨h, hfirst ▸ hes, reportAll_kept (d := d.report factory pid (.onPmt (pmtTable s))) hnew⟩

/-- Reports of PATs and of buffers lead to no call of `create`. -/
theorem createsOf_reportAll_of_not_pmt {calls : List Callback}
    (hcalls : ∀ callback ∈ calls, ∀ update, callback ≠ .onPmt update) :
    createsOf (d.reportAll factory pid calls).history = createsOf d.history := by
  induction calls generalizing d with
  | nil => rfl
  | cons callback calls ih =>
    have hone : createsOf (d.report factory pid callback).history = createsOf d.history := by
      rw [history_report, createsOf_append, createsOf_tracks]
      cases callback with
      | onPmt update => exact absurd rfl (hcalls _ List.mem_cons_self update)
      | onPat update => exact List.append_nil _
      | onData buffer => exact List.append_nil _
    exact (ih fun c hc => hcalls c (List.mem_cons_of_mem _ hc)).trans hone

theorem mem_newTracks_iff {update : Pmt} {t : UInt8} {p : UInt16} :
    (t, p) ∈ (d.newTracks (.onPmt update)).map (fun t => (t.2, t.1)) ↔
      d.packetStreams[p]? = none ∧ update[p]? = some t := by
  have hmem : ∀ q, q ∉ d.packetStreams ↔ d.packetStreams[q]? = none := fun q => by
    rw [Std.ExtTreeMap.mem_iff_isSome_getElem?, Bool.not_eq_true, Option.isSome_eq_false_iff,
      Option.isNone_iff_eq_none]
  rw [← Std.ExtTreeMap.mem_toList_iff_getElem?_eq_some, ← hmem]
  simp only [newTracks, List.mem_map, List.mem_filter, decide_eq_true_eq, Prod.mk.injEq]
  constructor
  · rintro ⟨⟨_, _⟩, ⟨hlist, hnot⟩, rfl, rfl⟩
    exact ⟨hnot, hlist⟩
  · rintro ⟨hnot, hlist⟩
    exact ⟨(p, t), ⟨hlist, hnot⟩, rfl, rfl⟩

/-- Handing on a buffer changes no handler. -/
theorem reportAll_data {calls : List Callback}
    (hdata : ∀ callback ∈ calls, ∃ buffer, callback = .onData buffer) :
    (d.reportAll factory pid calls).packetStreams = d.packetStreams := by
  induction calls generalizing d with
  | nil => rfl
  | cons callback calls ih =>
    obtain ⟨buffer, rfl⟩ := hdata callback List.mem_cons_self
    exact ih fun c hc => hdata c (List.mem_cons_of_mem _ hc)

/-- A PID has no handler after a PMT when it had none and the PMT does not list it. -/
theorem report_pmt_eq_none_iff {s : List UInt8} :
    (d.report factory pid (.onPmt (pmtTable s))).packetStreams[k]? = none ↔
      d.packetStreams[k]? = none ∧ streamTypeIn s k = none := by
  constructor
  · intro hnone
    have hbefore : d.packetStreams[k]? = none := by
      by_contra hsome
      obtain ⟨g, hg⟩ := Option.ne_none_iff_exists'.mp hsome
      rw [report_kept hg] at hnone
      exact absurd hnone (by simp)
    refine ⟨hbefore, ?_⟩
    by_contra hsome
    obtain ⟨t, ht⟩ := Option.ne_none_iff_exists'.mp hsome
    obtain ⟨g, -, hg⟩ := report_pmt_new factory pid hbefore ht
    rw [hg] at hnone
    exact absurd hnone (by simp)
  · rintro ⟨hnone, hs⟩
    rw [report_pmt_other hs, hnone]

/-- Reports of PMTs lead to a call for each PID that had no handler and is listed, with the stream_type
of the first section that lists it. -/
theorem createsOf_reportAll_pmts (factory : EsFactory κ φ) (d : Demuxer κ φ) (pid : UInt16)
    (ss : List (List UInt8)) :
    ∃ created, createsOf (d.reportAll factory pid (ss.map fun s => .onPmt (pmtTable s))).history =
        createsOf d.history ++ created ∧
      ∀ t p, (t, p) ∈ created ↔ d.packetStreams[p]? = none ∧ firstType ss p = some t := by
  induction ss generalizing d with
  | nil => exact ⟨[], (List.append_nil _).symm, by simp [firstType]⟩
  | cons s ss ih =>
    set d₁ := d.report factory pid (.onPmt (pmtTable s)) with hd₁
    obtain ⟨created, hcreated, hmem⟩ := ih (d := d₁)
    have hone : createsOf d₁.history = createsOf d.history ++
        (d.newTracks (.onPmt (pmtTable s))).map fun t => (t.2, t.1) := by
      rw [hd₁, history_report, createsOf_append, createsOf_tracks]
    refine ⟨(d.newTracks (.onPmt (pmtTable s))).map (fun t => (t.2, t.1)) ++ created, ?_,
      fun t p => ?_⟩
    · rw [← List.append_assoc, ← hone, ← hcreated]
      rfl
    · have hnew : (t, p) ∈ (d.newTracks (.onPmt (pmtTable s))).map (fun t => (t.2, t.1)) ↔
          d.packetStreams[p]? = none ∧ streamTypeIn s p = some t := by
        rw [← getElem?_pmtTable, mem_newTracks_iff]
      have hkept : d₁.packetStreams[p]? = none ↔
          d.packetStreams[p]? = none ∧ streamTypeIn s p = none := report_pmt_eq_none_iff
      -- listed by this section, or by none so far and then by a later one
      rw [List.mem_append, hnew, hmem, hkept, firstType_cons]
      cases hs : streamTypeIn s p with
      | none => simp
      | some t' => simp

/-! ## The invariant -/

/-- The dispatch map and the calls of `create`, in every state of a run. -/
structure Registered (d : Demuxer κ φ) : Prop where
  pat : ∃ sectionData, d.packetStreams[(0 : UInt16)]? = some (.parserPat sectionData)
  patOnly : ∀ (pid : UInt16) sectionData,
    d.packetStreams[pid]? = some (.parserPat sectionData) → pid = 0
  keys : ∀ (pid : UInt16) h, d.packetStreams[pid]? = some h → pid < 0x2000
  bounded : ∀ (pid : UInt16) h, d.packetStreams[pid]? = some h → h.Bounded
  createdOnce : ((createsOf d.history).map Prod.snd).Nodup
  created : ∀ e ∈ createsOf d.history, ∃ consumer,
    d.packetStreams[e.2]? = some (.parserPes consumer)

/-- A table whose PIDs fit in 13 bits. -/
def Masked : Callback → Prop
  | .onPat update => ∀ pid ∈ update, pid < 0x2000
  | .onPmt update => ∀ pid ∈ update, pid < 0x2000
  | .onData _ => True

theorem masked_patTable (s : List UInt8) : Masked (.onPat (patTable s)) := by
  intro pid hmem
  obtain ⟨e, he, rfl⟩ := List.mem_map.mp ((mem_patTable_iff s pid).mp hmem)
  exact patEntries_pid_lt _ e he

theorem masked_pmtTable (s : List UInt8) : Masked (.onPmt (pmtTable s)) := by
  intro pid hmem
  obtain ⟨t, ht⟩ := (FirstWins.mem_ofEntries_iff _ _).mp hmem
  exact pmtEntriesFrom_pid_lt _ _ _ ht

theorem masked_of_announces {h : Handler κ} {a : Arrival} {calls : List Callback}
    (hann : h.Announces a calls) : ∀ callback ∈ calls, Masked callback := by
  intro callback hmem
  cases hann with
  | pat =>
    obtain ⟨s, -, rfl⟩ := List.mem_map.mp hmem
    exact masked_patTable s
  | pmt =>
    obtain ⟨s, -, rfl⟩ := List.mem_map.mp hmem
    exact masked_pmtTable s
  | es hdata =>
    obtain ⟨buffer, rfl⟩ := hdata callback hmem
    trivial

theorem registered_new (state : φ) : Registered (new state : Demuxer κ φ) where
  pat := ⟨[], by rw [getElem?_new, if_pos rfl]⟩
  patOnly := by
    intro pid sectionData hk
    rw [getElem?_new] at hk
    split_ifs at hk with hzero
    exact hzero.symm
  keys := by
    intro pid h hk
    rw [getElem?_new] at hk
    split_ifs at hk with hzero
    exact hzero ▸ by decide
  bounded := by
    intro pid h hk
    rw [getElem?_new] at hk
    split_ifs at hk with hzero
    obtain rfl := Option.some.inj hk
    exact Nat.zero_lt_succ _
  createdOnce := List.nodup_nil
  created := by
    intro e he
    exact absurd he List.not_mem_nil

/-- A PID gets a handler by a report only when the reported table lists it. -/
theorem pid_lt_of_report {callback : Callback} (hmask : Masked callback)
    (hnone : d.packetStreams[k]? = none)
    (hk : (d.report factory pid callback).packetStreams[k]? = some h) : k < 0x2000 := by
  have hputs := puts_of_report hnone hk
  cases callback with
  | onPat update => exact hmask k hputs.1
  | onPmt update =>
    obtain ⟨t, hlist, -⟩ := hputs
    exact hmask k (Std.ExtTreeMap.mem_iff_isSome_getElem?.mpr (Option.isSome_of_eq_some hlist))
  | onData buffer => exact hputs.elim

/-- The new calls of a report are for different PIDs without a handler, and give each one. -/
theorem newTracks_created (factory : EsFactory κ φ) (pid : UInt16) (callback : Callback)
    (e : UInt8 × UInt16) (he : e ∈ (d.newTracks callback).map fun t => (t.2, t.1)) :
    d.packetStreams[e.2]? = none ∧ ∃ consumer,
      (d.report factory pid callback).packetStreams[e.2]? = some (.parserPes consumer) := by
  cases callback with
  | onPat update => exact absurd he List.not_mem_nil
  | onData buffer => exact absurd he List.not_mem_nil
  | onPmt update =>
    obtain ⟨hnone, hlist⟩ := mem_newTracks_iff.mp he
    obtain ⟨h, ⟨state, rfl⟩, hnew⟩ := onPmt_new factory
      (d := d.note pid (.onPmt update)) hnone hlist
    exact ⟨hnone, _, hnew⟩

theorem newTracks_nodup (callback : Callback) :
    (((d.newTracks callback).map fun t => (t.2, t.1)).map Prod.snd).Nodup := by
  cases callback with
  | onPat update => exact List.nodup_nil
  | onData buffer => exact List.nodup_nil
  | onPmt update =>
    rw [List.map_map]
    exact List.pairwise_map.mpr ((FirstWins.toList_pairwise_ne update).filter _)

/-- Every call of `create` was for a PID that has a PES parser now. -/
def CreatedParsers (d : Demuxer κ φ) : Prop :=
  ∀ e ∈ createsOf d.history, ∃ consumer, d.packetStreams[e.2]? = some (.parserPes consumer)

theorem created_report (callback : Callback) (hd : CreatedParsers d) :
    CreatedParsers (d.report factory pid callback) := by
  intro e he
  rw [history_report, createsOf_append, createsOf_tracks, List.mem_append] at he
  rcases he with hold | hnew
  · obtain ⟨consumer, hsome⟩ := hd e hold
    exact ⟨consumer, report_kept hsome⟩
  · exact (newTracks_created _ _ callback e hnew).2

/-- A report leads to no second call for a PID. -/
theorem createdOnce_report (callback : Callback)
    (honce : ((createsOf d.history).map Prod.snd).Nodup) (hd : CreatedParsers d) :
    ((createsOf (d.report factory pid callback).history).map Prod.snd).Nodup := by
  rw [history_report, createsOf_append, createsOf_tracks, List.map_append]
  refine List.nodup_append.mpr ⟨honce, newTracks_nodup callback, ?_⟩
  -- an old call gave its PID a handler, a new one found none
  rintro p hold q hnew rfl
  obtain ⟨e, he, rfl⟩ := List.mem_map.mp hold
  obtain ⟨e', he', heq⟩ := List.mem_map.mp hnew
  obtain ⟨consumer, hsome⟩ := hd e he
  rw [← heq, (newTracks_created factory pid callback e' he').1] at hsome
  exact absurd hsome (by simp)

/-- A report keeps the invariant. -/
theorem Registered.report {callback : Callback} (hd : Registered d) (hmask : Masked callback) :
    Registered (d.report factory pid callback) where
  pat := by
    obtain ⟨sectionData, hpat⟩ := hd.pat
    exact ⟨sectionData, report_kept hpat⟩
  patOnly := by
    intro k sectionData hk
    cases hbefore : d.packetStreams[k]? with
    | none =>
      rcases report_fresh hbefore hk with hpmt | ⟨streamType, state, hes⟩
      · exact absurd hpmt (by simp)
      · exact absurd hes (by simp)
    | some g =>
      obtain rfl : g = .parserPat sectionData := Option.some.inj ((report_kept hbefore).symm.trans hk)
      exact hd.patOnly k sectionData hbefore
  keys := by
    intro k h hk
    cases hbefore : d.packetStreams[k]? with
    | none => exact pid_lt_of_report hmask hbefore hk
    | some g => exact hd.keys k g hbefore
  bounded := by
    intro k h hk
    cases hbefore : d.packetStreams[k]? with
    | none =>
      rcases report_fresh hbefore hk with rfl | ⟨streamType, state, rfl⟩
      · exact Nat.zero_lt_succ _
      · trivial
    | some g =>
      obtain rfl : g = h := Option.some.inj ((report_kept hbefore).symm.trans hk)
      exact hd.bounded k g hbefore
  createdOnce := createdOnce_report callback hd.createdOnce hd.created
  created := created_report callback hd.created

theorem Registered.reportAll {calls : List Callback} (hd : Registered d)
    (hmask : ∀ callback ∈ calls, Masked callback) :
    Registered (d.reportAll factory pid calls) := by
  induction calls generalizing d with
  | nil => exact hd
  | cons callback calls ih =>
    exact ih (hd.report (hmask _ List.mem_cons_self)) fun c hc => hmask c (List.mem_cons_of_mem _ hc)

/-- Writing back a handler of the same class leaves every PES parser where it is. -/
theorem createdParsers_settle {h' : Handler κ} (hd : CreatedParsers d)
    (hk : d.packetStreams[pid]? = some h) (hcont : h.Continues h') :
    CreatedParsers (d.settle pid h') := by
  intro e he
  obtain ⟨consumer, hsome⟩ := hd e he
  by_cases hkey : pid = e.2
  · subst hkey
    obtain rfl := Option.some.inj (hk.symm.trans hsome)
    cases h' with
    | parserPat => exact hcont.elim
    | parserPmt => exact hcont.elim
    | parserPes consumer' => exact ⟨consumer', by rw [getElem?_settle, if_pos rfl]⟩
  · exact ⟨consumer, by rw [getElem?_settle, if_neg hkey, hsome]⟩

/-- Writing a handler back keeps the invariant. -/
theorem Registered.settle {h' : Handler κ} (hd : Registered d) (hk : d.packetStreams[pid]? = some h)
    (hcont : h.Continues h') (hbound : h'.Bounded) : Registered (d.settle pid h') where
  pat := by
    obtain ⟨sectionData, hpat⟩ := hd.pat
    by_cases hzero : pid = 0
    · subst hzero
      obtain rfl := Option.some.inj (hk.symm.trans hpat)
      cases h' with
      | parserPat sectionData' => exact ⟨sectionData', by rw [getElem?_settle, if_pos rfl]⟩
      | parserPmt => exact hcont.elim
      | parserPes => exact hcont.elim
    · exact ⟨sectionData, by rw [getElem?_settle, if_neg hzero, hpat]⟩
  patOnly := by
    intro k sectionData hk'
    rw [getElem?_settle] at hk'
    split_ifs at hk' with hkey
    · obtain rfl := Option.some.inj hk'
      subst hkey
      cases h with
      | parserPat sectionData' => exact hd.patOnly pid sectionData' hk
      | parserPmt => exact hcont.elim
      | parserPes => exact hcont.elim
    · exact hd.patOnly k sectionData hk'
  keys := by
    intro k g hk'
    rw [getElem?_settle] at hk'
    split_ifs at hk' with hkey
    · exact hkey ▸ hd.keys pid h hk
    · exact hd.keys k g hk'
  bounded := by
    intro k g hk'
    rw [getElem?_settle] at hk'
    split_ifs at hk' with hkey
    · exact Option.some.inj hk' ▸ hbound
    · exact hd.bounded k g hk'
  createdOnce := hd.createdOnce
  created := createdParsers_settle hd.created hk hcont

/-! ## Whole runs -/

/-- The sections that a packet completes on its PID. -/
def sectionsAt (d : Demuxer κ φ) (a : Arrival) : List (List UInt8) :=
  match d.packetStreams[a.packet.pid]? with
  | none => []
  | some h => h.sections a

/-- All sections that are completed in a run, each with its PID. -/
def completedSections (factory : EsFactory κ φ) (d : Demuxer κ φ) :
    List Arrival → List (UInt16 × List UInt8)
  | [] => []
  | a :: arrivals =>
    (d.sectionsAt a).map (fun s => (a.packet.pid, s)) ++
      match consumePacket factory d a with
      | .error _ => []
      | .ok d' => completedSections factory d' arrivals

/-- Every section that is completed is long enough for its table. -/
def AllLong (factory : EsFactory κ φ) (state : φ) (arrivals : List Arrival) : Prop :=
  ∀ e ∈ completedSections factory (new state) arrivals, 9 ≤ sectionLength e.2

section Run

variable {state : φ} {arrivals before after : List Arrival} {a : Arrival} {d' : Demuxer κ φ}

theorem consume_cons (d : Demuxer κ φ) (a : Arrival) (arrivals : List Arrival) :
    consume factory d (a :: arrivals) =
      consumePacket factory d a >>= fun d' => consume factory d' arrivals :=
  List.foldlM_cons

theorem consume_concat_eq_ok_iff {d₀ : Demuxer κ φ} :
    consume factory d₀ (before ++ [a]) = .ok d' ↔
      ∃ d, consume factory d₀ before = .ok d ∧ consumePacket factory d a = .ok d' := by
  rw [consume_append, bind_eq_ok_iff]
  refine exists_congr fun d => and_congr_right fun _ => ?_
  rw [consume_cons, bind_eq_ok_iff]
  constructor
  · rintro ⟨d₁, hstep, hnil⟩
    exact hstep.trans hnil
  · exact fun hstep => ⟨d', hstep, rfl⟩

/-- The sections of a run are those of its first part, then those of the packet behind it, and so on. -/
theorem completedSections_append {d₀ : Demuxer κ φ} (hrun : consume factory d₀ before = .ok d) :
    completedSections factory d₀ (before ++ arrivals) =
      completedSections factory d₀ before ++ completedSections factory d arrivals := by
  induction before generalizing d₀ with
  | nil =>
    obtain rfl : d₀ = d := Except.ok.inj hrun
    rfl
  | cons b before ih =>
    obtain ⟨d₁, hstep, hrest⟩ := bind_eq_ok_iff.mp ((consume_cons d₀ b before).symm.trans hrun)
    simp only [List.cons_append, completedSections, hstep, ih hrest, List.append_assoc]

theorem mem_completedSections_self {s : List UInt8} (hs : s ∈ d.sectionsAt a) :
    (a.packet.pid, s) ∈ completedSections factory d (a :: arrivals) := by
  rw [completedSections]
  exact List.mem_append_left _ (List.mem_map.mpr ⟨s, hs, rfl⟩)

theorem longSections_of_allLong (hlong : AllLong factory state (before ++ a :: after))
    (hrun : consume factory (new state) before = .ok d) (h : Handler κ)
    (hk : d.packetStreams[a.packet.pid]? = some h) : h.LongSections a := by
  intro s hs
  refine hlong (a.packet.pid, s) ?_
  rw [completedSections_append hrun]
  refine List.mem_append_right _ (mem_completedSections_self ?_)
  rw [sectionsAt, hk]
  exact hs

/-- The step lemma: a packet keeps the invariant. -/
theorem Registered.step (hd : Registered d) (haddr : a.Addressable)
    (hlong : ∀ h, d.packetStreams[a.packet.pid]? = some h → h.LongSections a)
    (hstep : consumePacket factory d a = .ok d') : Registered d' := by
  rcases consumePacket_cases haddr (hd.bounded _) hlong hstep with
    ⟨-, rfl⟩ | ⟨h, h', calls, hk, hcont, hbound, hann, rfl⟩
  · exact hd
  · exact (hd.reportAll (masked_of_announces hann)).settle (reportAll_kept hk) hcont hbound

/-- Induction along the packets of a run, the last one first. -/
theorem run_induction {P : List Arrival → Demuxer κ φ → Prop} (start : P [] (new state))
    (next : ∀ before a after d d', arrivals = before ++ a :: after →
      consume factory (new state) before = .ok d → consumePacket factory d a = .ok d' →
      P before d → P (before ++ [a]) d')
    (hbefore : before <+: arrivals) (hrun : consume factory (new state) before = .ok d) :
    P before d := by
  induction before using List.reverseRecOn generalizing d with
  | nil =>
    obtain rfl : new state = d := Except.ok.inj hrun
    exact start
  | append_singleton before a ih =>
    obtain ⟨d₁, hrun₁, hstep⟩ := consume_concat_eq_ok_iff.mp hrun
    obtain ⟨after, rfl⟩ := hbefore
    have hsplit : before ++ [a] ++ after = before ++ a :: after := by
      rw [List.append_assoc, List.singleton_append]
    exact next before a after d₁ d hsplit hrun₁ hstep
      (ih (hsplit ▸ List.prefix_append _ _) hrun₁)

/-- The run lemma. -/
theorem registered_of_run (haddr : ∀ a ∈ arrivals, a.Addressable)
    (hlong : AllLong factory state arrivals) (hbefore : before <+: arrivals)
    (hrun : consume factory (new state) before = .ok d) : Registered d := by
  refine run_induction (P := fun _ d => Registered d) (registered_new state) ?_ hbefore hrun
  intro before a after d d' hsplit hrun hstep hd
  exact hd.step (haddr a (hsplit ▸ List.mem_append_right _ List.mem_cons_self))
    (longSections_of_allLong (hsplit ▸ hlong) hrun) hstep

/-- A packet that completes PMT sections on its PID, the first of which that lists `pid`, then without
a handler, does so with `streamType`. -/
def Announced (d : Demuxer κ φ) (a : Arrival) (streamType : UInt8) (pid : UInt16) : Prop :=
  (∃ sectionData, d.packetStreams[a.packet.pid]? = some (.parserPmt sectionData)) ∧
    d.packetStreams[pid]? = none ∧ firstType (d.sectionsAt a) pid = some streamType

/-- What a packet changes in the map: no handler goes, and only the one of its PID goes on. -/
theorem consumePacket_kept (hd : Registered d) (haddr : a.Addressable)
    (hlong : ∀ h, d.packetStreams[a.packet.pid]? = some h → h.LongSections a)
    (hstep : consumePacket factory d a = .ok d') (k : UInt16) (h : Handler κ)
    (hk : d.packetStreams[k]? = some h) :
    ∃ h', d'.packetStreams[k]? = some h' ∧ h.Continues h' ∧ (k ≠ a.packet.pid → h' = h) := by
  rcases consumePacket_cases haddr (hd.bounded _) hlong hstep with
    ⟨-, rfl⟩ | ⟨g, g', calls, hg, hcont, -, -, rfl⟩
  · exact ⟨h, hk, h.continues_refl, fun _ => rfl⟩
  · by_cases hkey : a.packet.pid = k
    · subst hkey
      obtain rfl := Option.some.inj (hg.symm.trans hk)
      exact ⟨g', by rw [getElem?_settle, if_pos rfl], hcont, fun hne => absurd rfl hne⟩
    · refine ⟨h, ?_, h.continues_refl, fun _ => rfl⟩
      rw [getElem?_settle, if_neg hkey, reportAll_kept hk]

/-- The calls of `create` that a packet leads to are those that its sections announce. -/
theorem consumePacket_created (hd : Registered d) (haddr : a.Addressable)
    (hlong : ∀ h, d.packetStreams[a.packet.pid]? = some h → h.LongSections a)
    (hstep : consumePacket factory d a = .ok d') :
    ∃ created, createsOf d'.history = createsOf d.history ++ created ∧
      ∀ t p, (t, p) ∈ created ↔ Announced d a t p := by
  rcases consumePacket_cases haddr (hd.bounded _) hlong hstep with
    ⟨hnone, rfl⟩ | ⟨g, g', calls, hg, -, -, hann, rfl⟩
  · refine ⟨[], (List.append_nil _).symm, ?_⟩
    intro t p
    simp [Announced, hnone]
  · rw [history_settle]
    cases hann with
    | pat =>
      refine ⟨[], ?_, fun t p => ?_⟩
      · rw [List.append_nil]
        refine createsOf_reportAll_of_not_pmt fun callback hmem update heq => ?_
        obtain ⟨s, -, rfl⟩ := List.mem_map.mp hmem
        exact absurd heq (by simp)
      · simp [Announced, hg]
    | @pmt sectionData _ =>
      obtain ⟨created, hcreated, hmem⟩ := createsOf_reportAll_pmts factory d a.packet.pid
        (d.sectionsAt a)
      have hsections : d.sectionsAt a =
          sectionFormat.units (sectionData ++ ParserPsi.appended a) := by
        rw [sectionsAt, hg]
        rfl
      refine ⟨created, ?_, fun t p => ?_⟩
      · rw [← hcreated, hsections]
      · rw [hmem, Announced]
        exact ⟨fun h => ⟨⟨_, hg⟩, h⟩, fun h => h.2⟩
    | es hdata =>
      refine ⟨[], ?_, fun t p => ?_⟩
      · rw [List.append_nil]
        refine createsOf_reportAll_of_not_pmt fun callback hmem update heq => ?_
        obtain ⟨buffer, rfl⟩ := hdata callback hmem
        exact absurd heq (by simp)
      · simp [Announced, hg]

/-- A section parser returns on every packet it can read. -/
theorem parserPes_of_error (hd : Registered d) (haddr : a.Addressable) (hread : a.Readable)
    (hlong : ∀ h, d.packetStreams[a.packet.pid]? = some h → h.LongSections a) {e : Fault}
    (herror : consumePacket factory d a = .error e) :
    (∃ consumer, d.packetStreams[a.packet.pid]? = some (.parserPes consumer)) ∧
      ParserPes.put a = .error e := by
  rw [consumePacket] at herror
  cases hk : d.packetStreams[a.packet.pid]? with
  | none =>
    rw [hk] at herror
    exact absurd herror (by simp [pure, Except.pure])
  | some h =>
    rw [hk] at herror
    dsimp only at herror
    rw [Handler.put_eq_feed] at herror
    cases h with
    | parserPat sectionData =>
      have hsize := ParserPsi.buffer_lt (hd.bounded _ _ hk) haddr
      rw [Handler.feed_parserPat hsize hread (hlong _ hk)] at herror
      exact absurd herror (by simp [pure, Except.pure])
    | parserPmt sectionData =>
      have hsize := ParserPsi.buffer_lt (hd.bounded _ _ hk) haddr
      rw [Handler.feed_parserPmt hsize hread (hlong _ hk)] at herror
      exact absurd herror (by simp [pure, Except.pure])
    | parserPes consumer =>
      refine ⟨⟨consumer, rfl⟩, ?_⟩
      rw [Handler.feed_parserPes, Handler.esCalls] at herror
      cases hput : ParserPes.put a with
      | ok buffer =>
        rw [hput] at herror
        cases buffer <;> cases herror
      | error e' =>
        simp only [hput, error_bind] at herror
        exact congrArg Except.error (Except.error.inj herror)

/-- Where a packet that can be read ends a run. -/
theorem consumePacket_error (hd : Registered d) (haddr : a.Addressable) (hread : a.Readable)
    (hlong : ∀ h, d.packetStreams[a.packet.pid]? = some h → h.LongSections a) {e : Fault}
    (herror : consumePacket factory d a = .error e) :
    e = .assertion ∧ TripsAssertion d a ∨ e = .outOfBounds ∧ ReadsBehindStorage d a := by
  obtain ⟨hes, hput⟩ := parserPes_of_error hd haddr hread hlong herror
  rcases ParserPes.put_error hread.inside hput with rfl | ⟨rfl, hstart, height, hends⟩
  · exact Or.inl ⟨rfl, (consumePacket_assertion_iff d a).mp herror⟩
  · exact Or.inr ⟨rfl, hes, hstart, height, hends⟩

/-- A handler that is there stays there. -/
theorem registered_suffix {d₀ : Demuxer κ φ} (hrun : consume factory d₀ arrivals = .ok d)
    (hk : d₀.packetStreams[pid]? = some h) : ∃ h', d.packetStreams[pid]? = some h' := by
  rw [consume_eq_run] at hrun
  obtain ⟨h', -, -, hk', -⟩ := Dispatch.Dispatcher.run_of_registered hk hrun
  exact ⟨h', hk'⟩

/-- Calls for different PIDs between 1 and 0x1fff are at most 8191. -/
theorem created_length_le (hd : Registered d) : (createsOf d.history).length ≤ 8191 := by
  have hrange : ∀ n ∈ (((createsOf d.history).map Prod.snd).map UInt16.toNat),
      n ∈ Finset.Ico 1 8192 := by
    -- a PID that was created has a PES parser, which PID 0 has not
    intro n hn
    obtain ⟨p, hp, rfl⟩ := List.mem_map.mp hn
    obtain ⟨e, he, rfl⟩ := List.mem_map.mp hp
    obtain ⟨consumer, hsome⟩ := hd.created e he
    obtain ⟨sectionData, hpat⟩ := hd.pat
    have hlt := UInt16.lt_iff_toNat_lt.mp (hd.keys _ _ hsome)
    have hne : e.2.toNat ≠ 0 := by
      intro hzero
      have hpid : e.2 = 0 := UInt16.toNat_inj.mp hzero
      rw [hpid, hpat] at hsome
      exact absurd hsome (by simp)
    rw [Finset.mem_Ico]
    exact ⟨Nat.pos_of_ne_zero hne, hlt⟩
  have hnodup : (((createsOf d.history).map Prod.snd).map UInt16.toNat).Nodup :=
    hd.createdOnce.map fun _ _ => UInt16.toNat_inj.mp
  have hcard : ((((createsOf d.history).map Prod.snd).map UInt16.toNat).toFinset).card ≤
      (Finset.Ico 1 8192).card :=
    Finset.card_le_card fun n hn => hrange n (List.mem_toFinset.mp hn)
  rw [List.toFinset_card_of_nodup hnodup, List.length_map, List.length_map, Nat.card_Ico] at hcard
  exact hcard

/-- What holds of the registrations in a run. -/
structure RegistrationLaw (factory : EsFactory κ φ) (state : φ) (arrivals : List Arrival) : Prop where
  /-- in every state: PID 0 has the PAT parser, keys fit in 13 bits, no PID was created twice -/
  states : ∀ before d, before <+: arrivals → consume factory (new state) before = .ok d →
    (∃ sectionData, d.packetStreams[(0 : UInt16)]? = some (.parserPat sectionData)) ∧
    (∀ pid ∈ d.packetStreams, pid < 0x2000) ∧
    ((createsOf d.history).map Prod.snd).Nodup ∧ (createsOf d.history).length ≤ 8191
  /-- a packet removes, replaces and changes no handler, except that it goes on in its own -/
  kept : ∀ before a after d d', arrivals = before ++ a :: after →
    consume factory (new state) before = .ok d → consumePacket factory d a = .ok d' →
    ∀ (pid : UInt16) h, d.packetStreams[pid]? = some h →
      ∃ h', d'.packetStreams[pid]? = some h' ∧ h.Continues h' ∧ (pid ≠ a.packet.pid → h' = h)
  /-- the calls of `create` are those for PIDs without a handler that a completed PMT section lists -/
  creates : ∀ before a after d d', arrivals = before ++ a :: after →
    consume factory (new state) before = .ok d → consumePacket factory d a = .ok d' →
    ∃ created, createsOf d'.history = createsOf d.history ++ created ∧
      ∀ t p, (t, p) ∈ created ↔ Announced d a t p
  /-- they are never for PID 0, and never for a PID that had any handler before -/
  unregistered : ∀ before a after d t p, arrivals = before ++ a :: after →
    consume factory (new state) before = .ok d → Announced d a t p →
    p ≠ 0 ∧ ∀ earlier d₀, earlier <+: before → consume factory (new state) earlier = .ok d₀ →
      d₀.packetStreams[p]? = none
  /-- and the run goes on, but for a stream_id whose packets are not implemented, and for a read behind
  the storage -/
  failures : ∀ before a after d e, arrivals = before ++ a :: after →
    consume factory (new state) before = .ok d → consumePacket factory d a = .error e →
    e = .assertion ∧ TripsAssertion d a ∨ e = .outOfBounds ∧ ReadsBehindStorage d a

/-- **The registration law.** Whatever the tables in the packets say, and in whatever order they come:
PID 0 keeps the PAT parser, no handler is ever removed or replaced, and `create` is called at most once
for a PID, never for PID 0 or a PID that has a handler, during the packet that completes the first PMT
section listing it, with the stream_type of the first entry there. -/
theorem registration_law (hblocks : ∀ a ∈ arrivals, a.IsOfTsBlock)
    (hlong : AllLong factory state arrivals) : RegistrationLaw factory state arrivals := by
  have haddr : ∀ a ∈ arrivals, a.Addressable := fun a ha => (hblocks a ha).addressable
  have hreg : ∀ {before a after d}, arrivals = before ++ a :: after →
      consume factory (new state) before = .ok d → Registered d := by
    intro before a after d hsplit hrun
    exact registered_of_run haddr hlong (hsplit ▸ List.prefix_append _ _) hrun
  refine ⟨?_, ?_, ?_, ?_, ?_⟩
  · intro before d hbefore hrun
    have hd := registered_of_run haddr hlong hbefore hrun
    refine ⟨hd.pat, fun pid hmem => ?_, hd.createdOnce, created_length_le hd⟩
    obtain ⟨h, hk⟩ := Option.isSome_iff_exists.mp (Std.ExtTreeMap.mem_iff_isSome_getElem?.mp hmem)
    exact hd.keys pid h hk
  · intro before a after d d' hsplit hrun hstep
    have ha : a.Addressable := haddr a (hsplit ▸ List.mem_append_right _ List.mem_cons_self)
    exact consumePacket_kept (hreg hsplit hrun) ha
      (longSections_of_allLong (hsplit ▸ hlong) hrun) hstep
  · intro before a after d d' hsplit hrun hstep
    have ha : a.Addressable := haddr a (hsplit ▸ List.mem_append_right _ List.mem_cons_self)
    exact consumePacket_created (hreg hsplit hrun) ha
      (longSections_of_allLong (hsplit ▸ hlong) hrun) hstep
  · intro before a after d t p hsplit hrun hann
    obtain ⟨sectionData, hpat⟩ := (hreg hsplit hrun).pat
    refine ⟨?_, fun earlier d₀ hearlier hrun₀ => ?_⟩
    · rintro rfl
      rw [hann.2.1] at hpat
      exact absurd hpat (by simp)
    · -- a handler it had earlier would still be there
      by_contra hsome
      obtain ⟨g, hg⟩ := Option.ne_none_iff_exists'.mp hsome
      obtain ⟨rest, rfl⟩ := hearlier
      rw [consume_append, hrun₀, ok_bind] at hrun
      obtain ⟨g', hg'⟩ := registered_suffix hrun hg
      rw [hann.2.1] at hg'
      exact absurd hg' (by simp)
  · intro before a after d e hsplit hrun herror
    have ha := hblocks a (hsplit ▸ List.mem_append_right _ List.mem_cons_self)
    exact consumePacket_error (hreg hsplit hrun) ha.addressable ha.readable
      (longSections_of_allLong (hsplit ▸ hlong) hrun) herror

end Run

/-- A transport packet with one section and stuffing. -/
def tableBlock (pid : UInt8) (section' : List UInt8) : List UInt8 :=
  [0x47, 0x40, pid, 0x10, 0x00] ++ section' ++ List.replicate (183 - section'.length) 0xff

/-- A PAT that announces PID 0x20, and a PMT on it that lists PID 0x30. -/
def announcedBlocks : List TsBlock :=
  [⟨tableBlock 0 (patListing 0 1 0x20), by decide +kernel, rfl, by decide +kernel⟩,
    ⟨tableBlock 0x20 (pmtListing 2 0x1b 0x30), by decide +kernel, rfl, by decide +kernel⟩]

instance (factory : EsFactory κ φ) (state : φ) (arrivals : List Arrival) :
    Decidable (AllLong factory state arrivals) :=
  inferInstanceAs (Decidable (∀ e ∈ _, _))

theorem registration_law_announcedBlocks :
    RegistrationLaw pidFactory () (announcedBlocks.map TsBlock.arrival) :=
  registration_law (List.forall_mem_map.mpr fun b _ => b.isOfTsBlock) (by decide +kernel)

/-! ## Announced streams -/

/-- A stream is announced, as the parsers read the tables: a section on some PID lists it with its
stream_type, and an earlier section on PID 0 lists that PID. -/
def AnnouncedOn (earlier now : List (UInt16 × List UInt8)) (streamType : UInt8) (pid : UInt16) :
    Prop :=
  ∃ e ∈ now, e.1 ≠ 0 ∧ streamTypeIn e.2 pid = some streamType ∧
    ∃ e' ∈ earlier, e'.1 = 0 ∧ e.1 ∈ pidsIn e'.2

section Announced

variable {factory : EsFactory κ φ} {state : φ} {d d' : Demuxer κ φ} {a : Arrival}
  {arrivals before after : List Arrival} {h : Handler κ} {pid k : UInt16}

/-- Only a section on PID 0 that lists a PID puts a PMT parser there. -/
theorem parserPmt_origin (hd : Registered d) (haddr : a.Addressable)
    (hlong : ∀ h, d.packetStreams[a.packet.pid]? = some h → h.LongSections a)
    (hstep : consumePacket factory d a = .ok d') (hnone : d.packetStreams[k]? = none)
    {sectionData : List UInt8} (hk : d'.packetStreams[k]? = some (.parserPmt sectionData)) :
    a.packet.pid = 0 ∧ ∃ s ∈ d.sectionsAt a, k ∈ pidsIn s := by
  rcases consumePacket_cases haddr (hd.bounded _) hlong hstep with
    ⟨-, rfl⟩ | ⟨g, g', calls, hg, -, -, hann, rfl⟩
  · rw [hnone] at hk
    exact absurd hk (by simp)
  · have hne : a.packet.pid ≠ k := by
      rintro rfl
      rw [hnone] at hg
      exact absurd hg (by simp)
    rw [getElem?_settle, if_neg hne] at hk
    cases hann with
    | @pat sectionData' _ =>
      refine ⟨hd.patOnly _ _ hg, ?_⟩
      rw [reportAll_pats hnone] at hk
      split_ifs at hk with hlisted
      rw [sectionsAt, hg]
      exact hlisted
    | @pmt sectionData' _ =>
      cases hfirst : firstType (sectionFormat.units (sectionData' ++ ParserPsi.appended a)) k with
      | none =>
        rw [reportAll_pmts_other hnone hfirst] at hk
        exact absurd hk (by simp)
      | some streamType =>
        obtain ⟨h', ⟨st, rfl⟩, hnew⟩ := reportAll_pmts_new factory a.packet.pid hnone
          hfirst
        rw [hnew] at hk
        exact absurd hk (by simp)
    | @es consumer _ calls hdata =>
      rw [reportAll_data hdata, hnone] at hk
      exact absurd hk (by simp)

/-- Every PMT parser is under a PID that a section completed on PID 0 lists. -/
theorem parserPmt_announced (haddr : ∀ a ∈ arrivals, a.Addressable)
    (hlong : AllLong factory state arrivals) (hbefore : before <+: arrivals)
    (hrun : consume factory (new state) before = .ok d) {sectionData : List UInt8}
    (hk : d.packetStreams[k]? = some (.parserPmt sectionData)) :
    ∃ e ∈ completedSections factory (new state) before, e.1 = 0 ∧ k ∈ pidsIn e.2 := by
  refine run_induction (P := fun before d => ∀ sectionData,
    d.packetStreams[k]? = some (.parserPmt sectionData) →
      ∃ e ∈ completedSections factory (new state) before, e.1 = 0 ∧ k ∈ pidsIn e.2)
    ?_ ?_ hbefore hrun sectionData hk
  · intro sectionData hk
    rw [getElem?_new] at hk
    split_ifs at hk
    exact absurd hk (by simp)
  · intro before a after d₁ d hsplit hrun₁ hstep ih sectionData hk
    have hd₁ := registered_of_run haddr hlong (hsplit ▸ List.prefix_append _ _) hrun₁
    have ha : a.Addressable := haddr a (hsplit ▸ List.mem_append_right _ List.mem_cons_self)
    have hlong₁ := longSections_of_allLong (hsplit ▸ hlong) hrun₁
    rw [completedSections_append hrun₁]
    cases hbefore₁ : d₁.packetStreams[k]? with
    | none =>
      -- put there by this packet
      obtain ⟨hzero, s, hs, hlisted⟩ := parserPmt_origin hd₁ ha hlong₁ hstep hbefore₁ hk
      exact ⟨_, List.mem_append_right _ (mem_completedSections_self hs), hzero, hlisted⟩
    | some g =>
      -- or there before, as a PMT parser, because a handler keeps its class
      obtain ⟨g', hg', hcont, -⟩ := consumePacket_kept hd₁ ha hlong₁ hstep k g hbefore₁
      obtain rfl := Option.some.inj (hg'.symm.trans hk)
      cases g with
      | parserPat => exact hcont.elim
      | parserPes => exact hcont.elim
      | parserPmt sectionData₁ =>
        obtain ⟨e, he, hlisted⟩ := ih sectionData₁ hbefore₁
        exact ⟨e, List.mem_append_left _ he, hlisted⟩

/-- Each call of `create` that a packet of the run leads to is announced, by the sections completed
before the packet and those completed up to it. -/
def StreamsAnnounced (factory : EsFactory κ φ) (state : φ) (arrivals : List Arrival)
    (announced : List (UInt16 × List UInt8) → List (UInt16 × List UInt8) → UInt8 → UInt16 → Prop) :
    Prop :=
  ∀ before a after d d', arrivals = before ++ a :: after →
    consume factory (new state) before = .ok d → consumePacket factory d a = .ok d' →
    ∀ created, createsOf d'.history = createsOf d.history ++ created →
    ∀ t p, (t, p) ∈ created →
      announced (completedSections factory (new state) before)
        (completedSections factory (new state) (before ++ [a])) t p

end Announced

/-- A section on PID 0 that lists PID 0x20, and one on PID 0x20 that lists PID 0x30. -/
def twoTables (patTableId programNumber pmtTableId : UInt8) : List Arrival :=
  [tablePacket 0 (patListing patTableId programNumber 0x20),
    tablePacket 0x20 (pmtListing pmtTableId 0x1b 0x30)]

/-- A stream is announced by a PMT section (table_id 2), on a PID that a PAT section (table_id 0) lists
with a program_number other than 0. -/
def AnnouncedByPmt (earlier now : List (UInt16 × List UInt8)) (streamType : UInt8) (pid : UInt16) :
    Prop :=
  ∃ e ∈ now, e.2.head? = some 0x02 ∧ streamTypeIn e.2 pid = some streamType ∧
    ∃ e' ∈ earlier, e'.1 = 0 ∧ e'.2.head? = some 0x00 ∧
      ∃ entry ∈ ParserPat.patEntries (e'.2.drop 8), entry.1 = e.1 ∧ entry.2 ≠ 0

instance (earlier now : List (UInt16 × List UInt8)) (streamType : UInt8) (pid : UInt16) :
    Decidable (AnnouncedByPmt earlier now streamType pid) :=
  inferInstanceAs (Decidable (∃ e ∈ _, _))

theorem not_streamsAnnounced_twoTables {patTableId programNumber pmtTableId : UInt8}
    {announced : List (UInt16 × List UInt8) → List (UInt16 × List UInt8) → UInt8 → UInt16 → Prop}
    (hcreate : Returns (consume pidFactory (new ())
        [tablePacket 0 (patListing patTableId programNumber 0x20)]) fun d =>
      Returns (consumePacket pidFactory d (tablePacket 0x20 (pmtListing pmtTableId 0x1b 0x30)))
        fun d' => createsOf d'.history = createsOf d.history ++ [(0x1b, 0x30)])
    (hnot : ¬ announced
      (completedSections pidFactory (new ())
        [tablePacket 0 (patListing patTableId programNumber 0x20)])
      (completedSections pidFactory (new ()) (twoTables patTableId programNumber pmtTableId))
      0x1b 0x30) :
    ¬ StreamsAnnounced pidFactory () (twoTables patTableId programNumber pmtTableId) announced := by
  intro hclaim
  obtain ⟨d, hrun, hreturns⟩ := returns_iff.mp hcreate
  obtain ⟨d', hstep, hcreated⟩ := returns_iff.mp hreturns
  exact hnot (hclaim [_] _ [] d d' rfl hrun hstep _ hcreated _ _ List.mem_cons_self)

end Demuxer

end Sandstream
