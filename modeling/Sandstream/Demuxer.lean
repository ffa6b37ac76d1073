import Mathlib
import Sandstream.ParserPat
import Sandstream.ParserPmt
import Sandstream.ParserPes

/-! # Sandstream.Demuxer -- the demultiplexer engine

`demuxer_t` looks up the handler of each packet's PID and puts the packet into it. The table parsers
call back, which puts handlers under further PIDs and asks the user's factory for a consumer of each
new elementary stream. `history` records the calls that are made on the way, in order; the program
does not have it, and nothing depends on it.

A handler is modelled together with what it reports to, so that the same `Handler.put` is the handler
inside the demuxer and the handler alone with a recording callback. `Handler.put_eq_feed` says that
the first is the second followed by the reports.
-/

namespace Sandstream

open Sandstream.Lib

/-! ## Handlers -/

/-- A call that a handler makes: `on_pat`, `on_pmt` or `on_data`. -/
inductive Callback where
  | onPat (update : Pat)
  | onPmt (update : Pmt)
  | onData (buffer : Handed)

/-- A `callback_ts_packet_t` of the demuxer: a section parser with its `section_data`, or a PES parser
with its consumer. -/
inductive Handler (κ : Type) where
  | parserPat (sectionData : List UInt8)
  | parserPmt (sectionData : List UInt8)
  | parserPes (consumer : κ)
  deriving Repr, DecidableEq

namespace Handler

variable {κ σ : Type}

/-- `callback_ts_packet_t::put`, with `report` for the calls it makes. What a consumer does with the
buffer it is given, if it reads it at all, is not the handler's concern. -/
def put (report : Callback → σ → σ) (h : Handler κ) (a : Arrival) (s : σ) :
    Exec (Handler κ × σ) :=
  match h with
  | .parserPat sectionData => do
    let (sectionData, s) ← ParserPsi.put
      (ParserPat.onPayload fun update => report (.onPat update)) sectionData a s
    return (.parserPat sectionData, s)
  | .parserPmt sectionData => do
    let (sectionData, s) ← ParserPsi.put
      (ParserPmt.onPayload fun update => report (.onPmt update)) sectionData a s
    return (.parserPmt sectionData, s)
  | .parserPes consumer => do
    match ← ParserPes.put a with
    | none => return (.parserPes consumer, s)
    | some buffer => return (.parserPes consumer, report (.onData (buffer.handed a.storage)) s)

/-- The handler alone: its calls are recorded. -/
def feed (h : Handler κ) (a : Arrival) : Exec (Handler κ × List Callback) :=
  h.put (fun callback calls => calls ++ [callback]) a []

end Handler

/-! ## The demuxer -/

/-- `callback_es_factory_t`: a state `φ`, and for each call a consumer `κ`. -/
structure EsFactory (κ φ : Type) where
  create : φ → UInt8 → UInt16 → κ × φ

/-- The calls that are made: by the demuxer to the factory, and by the handler of a PID. -/
inductive Event where
  | create (streamType : UInt8) (pid : UInt16)
  | handler (pid : UInt16) (callback : Callback)

/-- `demuxer_t`, with the state of its factory and the calls made so far. -/
structure Demuxer (κ φ : Type) where
  esCallbackFactory : φ
  packetStreams : Std.ExtTreeMap UInt16 (Handler κ) compare
  history : List Event

namespace Demuxer

variable {κ φ : Type} (factory : EsFactory κ φ)

/-- `demuxer_t::demuxer_t`. -/
def new (esCallbackFactory : φ) : Demuxer κ φ :=
  let patPid := 0x0000
  ⟨esCallbackFactory, (∅ : Std.ExtTreeMap UInt16 (Handler κ) compare).insertIfNew patPid
    (.parserPat []), []⟩

/-- The body of the loop of `demuxer_t::on_pat`. -/
def addService (d : Demuxer κ φ) (pid : UInt16) : Demuxer κ φ :=
  if pid ∈ d.packetStreams then d
  else { d with packetStreams := d.packetStreams.insertIfNew pid (.parserPmt []) }

/-- `demuxer_t::on_pat`. -/
def onPat (update : Pat) (d : Demuxer κ φ) : Demuxer κ φ :=
  update.toList.foldl (fun d service => d.addService service.1) d

/-- The body of the loop of `demuxer_t::on_pmt`. -/
def addTrack (d : Demuxer κ φ) (pid : UInt16) (streamType : UInt8) : Demuxer κ φ :=
  if pid ∈ d.packetStreams then d
  else
    -- the factory is asked only here, so a PID that is listed again costs no consumer
    let (consumer, esCallbackFactory) := factory.create d.esCallbackFactory streamType pid
    ⟨esCallbackFactory, d.packetStreams.insertIfNew pid (.parserPes consumer),
      d.history ++ [.create streamType pid]⟩

/-- `demuxer_t::on_pmt`. -/
def onPmt (update : Pmt) (d : Demuxer κ φ) : Demuxer κ φ :=
  update.toList.foldl (fun d track => d.addTrack factory track.1 track.2) d

/-- What happens when the handler of `pid` makes a call. -/
def report (pid : UInt16) (callback : Callback) (d : Demuxer κ φ) : Demuxer κ φ :=
  let d := { d with history := d.history ++ [.handler pid callback] }
  match callback with
  | .onPat update => d.onPat update
  | .onPmt update => d.onPmt factory update
  | .onData _ => d

/-- The body of the loop of `demuxer_t::consume`: `stream->second->put(packet)` if the PID is found. -/
def consumePacket (d : Demuxer κ φ) (a : Arrival) : Exec (Demuxer κ φ) :=
  match d.packetStreams[a.packet.pid]? with
  | none => return d
  | some stream => do
    let (stream, d) ← stream.put (report factory a.packet.pid) a d
    -- the map holds a pointer to the handler; here its new state is written back
    return { d with packetStreams := d.packetStreams.insert a.packet.pid stream }

/-- `demuxer_t::consume`, on the packets its source gives until it is depleted. -/
def consume (d : Demuxer κ φ) (arrivals : List Arrival) : Exec (Demuxer κ φ) :=
  arrivals.foldlM (consumePacket factory) d

/-- Several calls of `consume` do what one on all packets does. -/
theorem consume_append (d : Demuxer κ φ) (arrivals arrivals' : List Arrival) :
    consume factory d (arrivals ++ arrivals') =
      consume factory d arrivals >>= fun d => consume factory d arrivals' :=
  List.foldlM_append

end Demuxer

/-! ## A handler and its reports -/

/-- The section parsers make their calls one after the other, so the calls may be collected first and
reported afterwards. -/
theorem ParserPsi.parseLoop_collect {σ τ : Type} (parse : List UInt8 → Nat → Exec τ)
    (report : τ → σ → σ) (sectionData : List UInt8) (fuel c : Nat) (s : σ) (calls : List τ) :
    ParserPsi.parseLoop (fun data available s => do return report (← parse data available) s)
        sectionData fuel c (calls.foldl (fun s t => report t s) s) = (do
      let (c, calls) ← ParserPsi.parseLoop
        (fun data available calls => do return calls ++ [← parse data available])
        sectionData fuel c calls
      return (c, calls.foldl (fun s t => report t s) s)) := by
  -- `s` is fixed and `calls` grows: the reports so far are those of `calls`, made from `s`
  induction fuel generalizing c calls with
  | zero => rfl
  | succ fuel ih =>
    simp only [ParserPsi.parseLoop, bind_assoc]
    refine bind_congr fun r => ?_
    by_cases hr : r.isSuccess = true
    · simp only [hr, if_true, bind_assoc, pure_bind]
      refine bind_congr fun t => bind_congr fun skipped => ?_
      rw [← ih, List.foldl_append]
      rfl
    · simp only [hr, pure_bind]
      rfl

theorem ParserPsi.put_collect {σ τ : Type} (parse : List UInt8 → Nat → Exec τ)
    (report : τ → σ → σ) (sectionData : List UInt8) (a : Arrival) (s : σ) :
    ParserPsi.put (fun data available s => do return report (← parse data available) s)
        sectionData a s = (do
      let (sectionData, calls) ← ParserPsi.put
        (fun data available calls => do return calls ++ [← parse data available]) sectionData a []
      return (sectionData, calls.foldl (fun s t => report t s) s)) := by
  simp only [ParserPsi.put, bind_assoc]
  refine bind_congr fun buffer => ?_
  rw [show s = ([] : List τ).foldl (fun s t => report t s) s from rfl,
    ParserPsi.parseLoop_collect, bind_assoc]
  refine bind_congr fun r => ?_
  simp only [pure_bind]
  rfl

namespace Handler

variable {κ σ : Type}

/-- Recording calls one by one records them all. -/
theorem foldl_record {τ : Type} (call : τ → Callback) (ts : List τ) :
    ts.foldl (fun calls t => calls ++ [call t]) [] = ts.map call := by
  suffices h : ∀ calls : List Callback,
      ts.foldl (fun calls t => calls ++ [call t]) calls = calls ++ ts.map call from h []
  induction ts with
  | nil => intro calls; rw [List.foldl_nil, List.map_nil, List.append_nil]
  | cons t ts ih =>
    intro calls
    rw [List.foldl_cons, ih, List.map_cons, List.append_assoc, List.singleton_append]

/-- The section parsers: `call` is what they report of a table, `wrap` the parser as a handler. -/
theorem psi_put_eq_feed {τ : Type} (parse : List UInt8 → Nat → Exec τ) (call : τ → Callback)
    (wrap : List UInt8 → Handler κ) (report : Callback → σ → σ) (sectionData : List UInt8)
    (a : Arrival) (s : σ) :
    (do
      let (sectionData, s) ← ParserPsi.put
        (fun data available s => do return report (call (← parse data available)) s) sectionData a s
      return (wrap sectionData, s)) = (do
      let (h, calls) ← (do
        let (sectionData, calls) ← ParserPsi.put
          (fun data available calls => do return calls ++ [call (← parse data available)])
          sectionData a []
        return (wrap sectionData, calls))
      return (h, calls.foldl (fun s callback => report callback s) s)) := by
  rw [ParserPsi.put_collect parse (fun t => report (call t)) sectionData a s,
    ParserPsi.put_collect parse (fun t calls => calls ++ [call t]) sectionData a []]
  simp only [bind_assoc, pure_bind]
  refine bind_congr fun r => ?_
  rw [foldl_record, List.foldl_map]

/-- **The handler inside the demuxer is the handler alone, followed by its reports.** -/
theorem put_eq_feed (report : Callback → σ → σ) (h : Handler κ) (a : Arrival) (s : σ) :
    h.put report a s = (do
      let (h, calls) ← h.feed a
      return (h, calls.foldl (fun s callback => report callback s) s)) := by
  cases h with
  | parserPat sectionData =>
    exact psi_put_eq_feed ParserPat.parsePatPayload .onPat .parserPat report sectionData a s
  | parserPmt sectionData =>
    exact psi_put_eq_feed ParserPmt.parsePmtPayload .onPmt .parserPmt report sectionData a s
  | parserPes consumer =>
    simp only [put, feed, bind_assoc]
    refine bind_congr fun buffer => ?_
    cases buffer <;> rfl

/-- The handler alone, on several packets. -/
def feedAll (h : Handler κ) : List Arrival → Exec (Handler κ × List Callback)
  | [] => .ok (h, [])
  | a :: arrivals => do
    let (h, calls) ← h.feed a
    let (h, later) ← feedAll h arrivals
    return (h, calls ++ later)

/-- The calls a PES parser makes, which do not depend on its consumer. -/
def esCalls (a : Arrival) : Exec (List Callback) := do
  match ← ParserPes.put a with
  | none => return []
  | some buffer => return [.onData (buffer.handed a.storage)]

theorem feed_parserPes (consumer : κ) (a : Arrival) :
    (parserPes consumer).feed a = (do return (.parserPes consumer, ← esCalls a)) := by
  simp only [feed, put, esCalls, bind_assoc]
  refine bind_congr fun buffer => ?_
  cases buffer <;> rfl

theorem feedAll_parserPes (consumer : κ) (arrivals : List Arrival) :
    (parserPes consumer).feedAll arrivals =
      (do return (.parserPes consumer, (← arrivals.mapM esCalls).flatten)) := by
  induction arrivals with
  | nil => rfl
  | cons a arrivals ih =>
    rw [feedAll, feed_parserPes, List.mapM_cons]
    simp only [bind_assoc, pure_bind]
    refine bind_congr fun calls => ?_
    rw [ih]
    simp only [bind_assoc, pure_bind]
    rfl

/-- Two handlers of the same class. -/
def SameKind : Handler κ → Handler κ → Prop
  | .parserPat _, .parserPat _ | .parserPmt _, .parserPmt _ | .parserPes _, .parserPes _ => True
  | _, _ => False

end Handler

/-! ## What the tables change -/

namespace Demuxer

variable {κ φ : Type} (factory : EsFactory κ φ)

theorem getElem?_addService (d : Demuxer κ φ) (pid k : UInt16) :
    (d.addService pid).packetStreams[k]? =
      d.packetStreams[k]?.or (if pid = k then some (.parserPmt []) else none) := by
  rw [addService]
  split_ifs with hmem hk hk
  · subst hk
    obtain ⟨h, hh⟩ := Option.isSome_iff_exists.mp (Std.ExtTreeMap.mem_iff_isSome_getElem?.mp hmem)
    rw [hh]
    rfl
  · rw [Option.or_none]
  · rw [FirstWins.getElem?_insertIfNew_eq, if_pos hk]
  · rw [FirstWins.getElem?_insertIfNew_eq, if_neg hk]

/-- No call is made, and the factory is not asked for anything. -/
theorem addService_frame (d : Demuxer κ φ) (pid : UInt16) :
    (d.addService pid).esCallbackFactory = d.esCallbackFactory ∧
      (d.addService pid).history = d.history := by
  rw [addService]
  split_ifs <;> exact ⟨rfl, rfl⟩

/-! The loop of `on_pat` over any list of entries. -/

theorem foldl_addService_frame (services : List (UInt16 × UInt16)) (d : Demuxer κ φ) :
    (services.foldl (fun d service => d.addService service.1) d).esCallbackFactory =
        d.esCallbackFactory ∧
      (services.foldl (fun d service => d.addService service.1) d).history = d.history := by
  induction services generalizing d with
  | nil => exact ⟨rfl, rfl⟩
  | cons service services ih =>
    obtain ⟨hfactory, hhistory⟩ := addService_frame d service.1
    obtain ⟨hfactory', hhistory'⟩ := ih (d.addService service.1)
    rw [List.foldl_cons]
    exact ⟨hfactory'.trans hfactory, hhistory'.trans hhistory⟩

theorem getElem?_foldl_addService (services : List (UInt16 × UInt16)) (d : Demuxer κ φ)
    (k : UInt16) :
    (services.foldl (fun d service => d.addService service.1) d).packetStreams[k]? =
      d.packetStreams[k]?.or
        (if k ∈ services.map Prod.fst then some (.parserPmt []) else none) := by
  induction services generalizing d with
  | nil => rw [List.foldl_nil, List.map_nil, if_neg List.not_mem_nil, Option.or_none]
  | cons service services ih =>
    rw [List.foldl_cons, ih, getElem?_addService, Option.or_assoc, List.map_cons]
    apply congrArg
    by_cases hk : service.1 = k
    · rw [if_pos hk, if_pos (List.mem_cons.mpr (Or.inl hk.symm))]
      rfl
    · have hmem : k ∈ service.1 :: services.map Prod.fst ↔ k ∈ services.map Prod.fst := by
        rw [List.mem_cons, or_iff_right (Ne.symm hk)]
      rw [if_neg hk, Option.none_or]
      simp only [hmem]

theorem mem_map_fst_toList {ν : Type} (m : Std.ExtTreeMap UInt16 ν compare) (k : UInt16) :
    k ∈ m.toList.map Prod.fst ↔ k ∈ m := by
  rw [Std.ExtTreeMap.map_fst_toList_eq_keys, Std.ExtTreeMap.mem_keys]

/-- `on_pat` puts a fresh PMT parser under each listed PID that has no handler, and changes nothing
else. -/
theorem getElem?_onPat (update : Pat) (d : Demuxer κ φ) (k : UInt16) :
    (d.onPat update).packetStreams[k]? =
      d.packetStreams[k]?.or (if k ∈ update then some (.parserPmt []) else none) := by
  rw [onPat, getElem?_foldl_addService]
  simp only [mem_map_fst_toList]

theorem history_onPat (update : Pat) (d : Demuxer κ φ) : (d.onPat update).history = d.history :=
  (foldl_addService_frame update.toList d).2

/-- `d'` is `d` with a fresh PMT parser under each listed PID that had no handler; every other key, the
factory and the calls made are those of `d`. -/
structure Registers (listed : UInt16 → Prop) (d d' : Demuxer κ φ) : Prop where
  registered : ∀ pid, listed pid → pid ∉ d.packetStreams →
    d'.packetStreams[pid]? = some (.parserPmt [])
  kept : ∀ pid, ¬ listed pid ∨ pid ∈ d.packetStreams →
    d'.packetStreams[pid]? = d.packetStreams[pid]?
  esCallbackFactory_eq : d'.esCallbackFactory = d.esCallbackFactory
  history_eq : d'.history = d.history

theorem registers_onPat (update : Pat) (d : Demuxer κ φ) :
    Registers (· ∈ update) d (d.onPat update) where
  registered := by
    intro pid hlisted hnew
    rw [getElem?_onPat, if_pos hlisted, Std.ExtTreeMap.getElem?_eq_none hnew, Option.none_or]
  kept := by
    rintro pid (hnot | hknown)
    · rw [getElem?_onPat, if_neg hnot, Option.or_none]
    · obtain ⟨h, hk⟩ := Option.isSome_iff_exists.mp (Std.ExtTreeMap.mem_iff_isSome_getElem?.mp hknown)
      rw [getElem?_onPat, hk, Option.some_or]
  esCallbackFactory_eq := (foldl_addService_frame update.toList d).1
  history_eq := history_onPat update d

/-- A PES parser with a consumer that `create` made for `pid`. -/
def IsEsHandler (streamType : UInt8) (pid : UInt16) (h : Handler κ) : Prop :=
  ∃ state, h = .parserPes (factory.create state streamType pid).1

section AddTrack

variable {factory} {d : Demuxer κ φ} {pid k : UInt16} {streamType : UInt8} {h : Handler κ}

theorem addTrack_of_mem (hmem : pid ∈ d.packetStreams) :
    d.addTrack factory pid streamType = d := by
  rw [addTrack, if_pos hmem]

theorem addTrack_of_not_mem (hmem : pid ∉ d.packetStreams) :
    (d.addTrack factory pid streamType).history = d.history ++ [.create streamType pid] ∧
      (d.addTrack factory pid streamType).packetStreams = d.packetStreams.insertIfNew pid
        (.parserPes (factory.create d.esCallbackFactory streamType pid).1) := by
  rw [addTrack, if_neg hmem]
  exact ⟨rfl, rfl⟩

theorem addTrack_kept (hk : d.packetStreams[k]? = some h) :
    (d.addTrack factory pid streamType).packetStreams[k]? = some h := by
  by_cases hmem : pid ∈ d.packetStreams
  · rw [addTrack_of_mem hmem, hk]
  · rw [(addTrack_of_not_mem hmem).2, FirstWins.getElem?_insertIfNew_eq, hk, Option.some_or]

theorem addTrack_other (hne : pid ≠ k) :
    (d.addTrack factory pid streamType).packetStreams[k]? = d.packetStreams[k]? := by
  by_cases hmem : pid ∈ d.packetStreams
  · rw [addTrack_of_mem hmem]
  · rw [(addTrack_of_not_mem hmem).2, FirstWins.getElem?_insertIfNew_eq, if_neg hne,
      Option.or_none]

theorem addTrack_new (factory : EsFactory κ φ) (streamType : UInt8)
    (hnone : d.packetStreams[pid]? = none) :
    ∃ h, IsEsHandler factory streamType pid h ∧
      (d.addTrack factory pid streamType).packetStreams[pid]? = some h := by
  have hmem : pid ∉ d.packetStreams := by
    rw [Std.ExtTreeMap.mem_iff_isSome_getElem?, hnone]
    exact Bool.false_ne_true
  refine ⟨_, ⟨d.esCallbackFactory, rfl⟩, ?_⟩
  rw [(addTrack_of_not_mem hmem).2, FirstWins.getElem?_insertIfNew_eq, hnone, if_pos rfl,
    Option.none_or]

end AddTrack

/-- The loop of `on_pmt` over any list of entries. -/
def addTracks (tracks : List (UInt16 × UInt8)) (d : Demuxer κ φ) : Demuxer κ φ :=
  tracks.foldl (fun d track => d.addTrack factory track.1 track.2) d

section AddTracks

variable {factory} {tracks : List (UInt16 × UInt8)} {d : Demuxer κ φ} {k : UInt16} {h : Handler κ}

theorem addTracks_kept (hk : d.packetStreams[k]? = some h) :
    (d.addTracks factory tracks).packetStreams[k]? = some h := by
  induction tracks generalizing d with
  | nil => exact hk
  | cons track tracks ih => exact ih (addTrack_kept hk)

theorem addTracks_other (hne : ∀ t ∈ tracks, t.1 ≠ k) :
    (d.addTracks factory tracks).packetStreams[k]? = d.packetStreams[k]? := by
  induction tracks generalizing d with
  | nil => rfl
  | cons track tracks ih =>
    have htail : ∀ t ∈ tracks, t.1 ≠ k := fun t ht => hne t (List.mem_cons_of_mem _ ht)
    exact (ih htail).trans (addTrack_other (hne track List.mem_cons_self))

theorem addTracks_new (hnone : d.packetStreams[k]? = none) {streamType : UInt8}
    (hfirst : tracks.lookup k = some streamType) :
    ∃ h, IsEsHandler factory streamType k h ∧
      (d.addTracks factory tracks).packetStreams[k]? = some h := by
  induction tracks generalizing d with
  | nil => simp at hfirst
  | cons track tracks ih =>
    rw [List.lookup_cons] at hfirst
    by_cases hkey : k = track.1
    · subst hkey
      simp only [beq_self_eq_true, Option.some.injEq] at hfirst
      obtain ⟨h, hes, hnew⟩ := addTrack_new factory track.2 hnone
      exact ⟨h, hfirst ▸ hes, addTracks_kept (d := d.addTrack factory track.1 track.2) hnew⟩
    · have hbeq : (k == track.1) = false := beq_eq_false_iff_ne.mpr hkey
      simp only [hbeq] at hfirst
      exact ih ((addTrack_other (Ne.symm hkey)).trans hnone) hfirst

/-- With different PIDs in the list, `create` is called once for each that has no handler. -/
theorem history_addTracks (hdistinct : tracks.Pairwise fun t t' => t.1 ≠ t'.1) :
    (d.addTracks factory tracks).history =
      d.history ++ (tracks.filter fun t => t.1 ∉ d.packetStreams).map
        fun t => Event.create t.2 t.1 := by
  induction tracks generalizing d with
  | nil => simp [addTracks]
  | cons track tracks ih =>
    obtain ⟨hne, hdistinct⟩ := List.pairwise_cons.mp hdistinct
    have hih := ih (d := d.addTrack factory track.1 track.2) hdistinct
    -- adding a track does not decide about the others, which have other PIDs
    have hsame : (tracks.filter fun t => t.1 ∉ (d.addTrack factory track.1 track.2).packetStreams) =
        tracks.filter fun t => t.1 ∉ d.packetStreams := by
      refine List.filter_congr fun t ht => ?_
      simp only [Std.ExtTreeMap.mem_iff_isSome_getElem?, addTrack_other (hne t ht)]
    rw [addTracks, List.foldl_cons, ← addTracks, hih, hsame]
    by_cases hmem : track.1 ∈ d.packetStreams
    · rw [addTrack_of_mem hmem, List.filter_cons_of_neg (by simpa using hmem)]
    · rw [(addTrack_of_not_mem hmem).1, List.filter_cons_of_pos (by simpa using hmem),
        List.map_cons, List.append_assoc, List.singleton_append]

end AddTracks

section OnPmt

variable {factory} {update : Pmt} {d : Demuxer κ φ} {k : UInt16} {h : Handler κ}

theorem onPmt_kept (hk : d.packetStreams[k]? = some h) :
    (d.onPmt factory update).packetStreams[k]? = some h :=
  addTracks_kept hk

/-- `on_pmt` puts nothing under a PID that is not listed. -/
theorem onPmt_other (hfirst : update[k]? = none) :
    (d.onPmt factory update).packetStreams[k]? = d.packetStreams[k]? := by
  refine addTracks_other fun t ht heq => ?_
  rw [← heq, Std.ExtTreeMap.mem_toList_iff_getElem?_eq_some.mp ht] at hfirst
  exact absurd hfirst (by simp)

/-- `on_pmt` puts a PES parser under each listed PID that has no handler. -/
theorem onPmt_new (factory : EsFactory κ φ) (hnone : d.packetStreams[k]? = none)
    {streamType : UInt8} (hfirst : update[k]? = some streamType) :
    ∃ h, IsEsHandler factory streamType k h ∧
      (d.onPmt factory update).packetStreams[k]? = some h :=
  addTracks_new hnone ((FirstWins.lookup_toList update k).trans hfirst)

end OnPmt

/-! ## Reports -/

/-- The entries of a reported table that `create` is called for. -/
def newTracks (d : Demuxer κ φ) : Callback → List (UInt16 × UInt8)
  | .onPmt update => update.toList.filter fun t => t.1 ∉ d.packetStreams
  | _ => []

/-- The handlers that a call puts under a PID without one. -/
def puts : Callback → UInt16 → Handler κ → Prop
  | .onPat update, k, h => k ∈ update ∧ h = .parserPmt []
  | .onPmt update, k, h => ∃ t, update[k]? = some t ∧ IsEsHandler factory t k h
  | .onData _, _, _ => False

/-- A handler that a report puts under a PID: the parser of a PMT, or of an elementary stream. -/
def IsFresh (pid : UInt16) (h : Handler κ) : Prop :=
  h = .parserPmt [] ∨ ∃ streamType, IsEsHandler factory streamType pid h

section Report

variable {factory} {d : Demuxer κ φ} {pid k : UInt16} {callback : Callback} {h : Handler κ}

/-- The demuxer when a call has been recorded and not been acted on yet. -/
def note (d : Demuxer κ φ) (pid : UInt16) (callback : Callback) : Demuxer κ φ :=
  { d with history := d.history ++ [.handler pid callback] }

theorem report_onPat (update : Pat) :
    d.report factory pid (.onPat update) = (d.note pid (.onPat update)).onPat update := rfl

theorem report_onPmt (update : Pmt) :
    d.report factory pid (.onPmt update) = (d.note pid (.onPmt update)).onPmt factory update := rfl

/-- A report is recorded, followed by the calls of `create` it leads to. -/
theorem history_report :
    (d.report factory pid callback).history =
      d.history ++ .handler pid callback ::
        (d.newTracks callback).map fun t => Event.create t.2 t.1 := by
  cases callback with
  | onPat update => exact history_onPat update _
  | onPmt update =>
    refine (history_addTracks (FirstWins.toList_pairwise_ne update)).trans ?_
    rw [List.append_assoc, List.singleton_append]
    rfl
  | onData buffer => rfl

/-- No report touches a handler that is there. -/
theorem report_kept (hk : d.packetStreams[k]? = some h) :
    (d.report factory pid callback).packetStreams[k]? = some h := by
  cases callback with
  | onPat update => rw [report_onPat, getElem?_onPat, note, hk, Option.some_or]
  | onPmt update => exact onPmt_kept hk
  | onData buffer => exact hk

/-- Everything a report can put under a PID without a handler. -/
theorem puts_of_report (hnone : d.packetStreams[k]? = none)
    (hk : (d.report factory pid callback).packetStreams[k]? = some h) :
    puts factory callback k h := by
  cases callback with
  | onPat update =>
    rw [report_onPat, getElem?_onPat, note, hnone, Option.none_or] at hk
    split_ifs at hk with hmem
    exact ⟨hmem, (Option.some.inj hk).symm⟩
  | onPmt update =>
    rw [report_onPmt] at hk
    cases hlist : update[k]? with
    | none =>
      rw [onPmt_other hlist, note, hnone] at hk
      exact absurd hk (by simp)
    | some t =>
      rcases onPmt_new factory (d := d.note pid (.onPmt update)) hnone hlist with ⟨h', hes, hnew⟩
      obtain rfl : h' = h := Option.some.inj (hnew.symm.trans hk)
      exact ⟨t, hlist, hes⟩
  | onData buffer => exact absurd (hnone.symm.trans hk) (by simp)

theorem report_fresh (hnone : d.packetStreams[k]? = none)
    (hk : (d.report factory pid callback).packetStreams[k]? = some h) : IsFresh factory k h := by
  have hputs := puts_of_report hnone hk
  cases callback with
  | onPat update => exact Or.inl hputs.2
  | onPmt update =>
    rcases hputs with ⟨t, -, hes⟩
    exact Or.inr ⟨t, hes⟩
  | onData buffer => exact hputs.elim

end Report

end Demuxer

end Sandstream
