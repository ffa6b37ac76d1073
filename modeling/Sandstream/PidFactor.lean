import Mathlib
import Sandstream.Lib.Dispatch
import Sandstream.Demuxer

/-! # Sandstream.PidFactor -- the demuxer as one machine for each PID

The demuxer is an instance of `Lib.Dispatch`, so what happens on one PID is the run of its handler
alone on the packets of that PID, from the packet on that registered it. `demuxer_factors` says so for
every run in which all handlers return, and that packets of unregistered PIDs change nothing.

Which handler a PID gets is decided by the first table that lists it: a PAT and a PMT that list the
same PID register different kinds of handlers, and `registration_kind_depends_on_order` shows that
reordering their packets changes what comes out on that PID.
-/

namespace Sandstream

open Sandstream.Lib
open Sandstream.Lib.Dispatch (Dispatcher)

variable {κ φ : Type}

/-! ## The demuxer is a dispatcher -/

/-- The calls the handler of a PID has made. -/
def callbacksOf (pid : UInt16) (history : List Event) : List Callback :=
  history.filterMap fun
    | .create _ _ => none
    | .handler pid' callback => if pid' = pid then some callback else none

theorem callbacksOf_append (pid : UInt16) (history history' : List Event) :
    callbacksOf pid (history ++ history') = callbacksOf pid history ++ callbacksOf pid history' :=
  List.filterMap_append

theorem mem_callbacksOf {pid : UInt16} {history : List Event} {callback : Callback} :
    callback ∈ callbacksOf pid history ↔ .handler pid callback ∈ history := by
  unfold callbacksOf
  rw [List.mem_filterMap]
  constructor
  · rintro ⟨event, hmem, hcallback⟩
    cases event with
    | create streamType pid' => cases hcallback
    | handler pid' callback' =>
      dsimp only at hcallback
      split_ifs at hcallback with hpid
      obtain rfl := Option.some.inj hcallback
      exact hpid ▸ hmem
  · exact fun hmem => ⟨_, hmem, if_pos rfl⟩

theorem callbacksOf_creates (pid : UInt16) (tracks : List (UInt16 × UInt8)) :
    callbacksOf pid (tracks.map fun t => Event.create t.2 t.1) = [] := by
  rw [callbacksOf, List.filterMap_map]
  exact List.filterMap_eq_nil_iff.mpr fun _ _ => rfl

namespace Demuxer

variable (factory : EsFactory κ φ)

theorem callbacksOf_report (pid k : UInt16) (callback : Callback) (d : Demuxer κ φ) :
    callbacksOf k (d.report factory pid callback).history =
      callbacksOf k d.history ++ if pid = k then [callback] else [] := by
  rw [history_report, callbacksOf_append, List.append_cancel_left_eq, ← List.singleton_append,
    callbacksOf_append, callbacksOf_creates, List.append_nil, callbacksOf]
  by_cases hk : pid = k
  · simp [hk]
  · simp [hk]

/-- The demuxer, with its handlers as machines and their calls as announcements. -/
def dispatcher : Dispatcher (Demuxer κ φ) UInt16 (Handler κ) Arrival Callback Fault where
  key a := a.packet.pid
  feed := Handler.feed
  lookup d pid := d.packetStreams[pid]?
  update d pid h := { d with packetStreams := d.packetStreams.insert pid h }
  react pid d callback := d.report factory pid callback
  output d pid := callbacksOf pid d.history
  fresh := IsFresh factory
  lookup_update d pid h := by simp
  lookup_update_of_ne d pid h k hne := by
    have hcmp : ¬ compare pid k = .eq := fun h => hne (Std.LawfulEqCmp.compare_eq_iff_eq.mp h).symm
    rw [Std.ExtTreeMap.getElem?_insert, if_neg hcmp]
  output_update _ _ _ := rfl
  lookup_react_of_some _ _ _ _ _ hk := report_kept hk
  fresh_react _ _ _ _ _ hnone hk := report_fresh hnone hk
  output_react d pid callback := by rw [callbacksOf_report, if_pos rfl]
  output_react_of_ne pid d callback k hne := by
    rw [callbacksOf_report, if_neg (Ne.symm hne), List.append_nil]

theorem consumePacket_eq_step (d : Demuxer κ φ) (a : Arrival) :
    consumePacket factory d a = (dispatcher factory).step d a := by
  have hlookup : (dispatcher factory).lookup d ((dispatcher factory).key a) =
      d.packetStreams[a.packet.pid]? := rfl
  rw [consumePacket, Dispatcher.step, hlookup]
  cases d.packetStreams[a.packet.pid]? with
  | none => rfl
  | some stream =>
    have hfeed : (dispatcher factory).feed stream a = stream.feed a := rfl
    dsimp only
    rw [Handler.put_eq_feed, bind_assoc, hfeed]
    cases stream.feed a <;> rfl

theorem consume_eq_run (d : Demuxer κ φ) (arrivals : List Arrival) :
    consume factory d arrivals = (dispatcher factory).run d arrivals := by
  induction arrivals generalizing d with
  | nil => rfl
  | cons a arrivals ih =>
    rw [consume, List.foldlM_cons, consumePacket_eq_step, Dispatcher.run]
    cases (dispatcher factory).step d a with
    | error e => rfl
    | ok d' => exact ih d'

theorem feedAll_eq (h : Handler κ) (arrivals : List Arrival) :
    (dispatcher factory).feedAll h arrivals = h.feedAll arrivals := by
  induction arrivals generalizing h with
  | nil => rfl
  | cons a arrivals ih =>
    have hfeed : (dispatcher factory).feed h a = h.feed a := rfl
    rw [Dispatcher.feedAll, Handler.feedAll, hfeed]
    cases h.feed a with
    | error e => rfl
    | ok r =>
      obtain ⟨h', calls⟩ := r
      simp only [ih, ok_bind]
      cases h'.feedAll arrivals <;> rfl

/-! ## The factorisation -/

/-- The packets of a PID. -/
def packetsOf (pid : UInt16) (arrivals : List Arrival) : List Arrival :=
  arrivals.filter fun a => a.packet.pid = pid

section Registration

variable (state : φ) (arrivals : List Arrival)

/-- `Registration pid h₀ after`: the demuxer has the fresh handler `h₀` under `pid` from some packet of
the run on, and `after` are the packets behind that one. The PAT handler is there from the start. -/
inductive Registration : UInt16 → Handler κ → List Arrival → Prop where
  | pat : Registration 0 (.parserPat []) arrivals
  | table {pid : UInt16} {h₀ : Handler κ} {before a after} {d₁ d₂ : Demuxer κ φ} :
      arrivals = before ++ a :: after → consume factory (new state) before = .ok d₁ →
      d₁.packetStreams[pid]? = none → consumePacket factory d₁ a = .ok d₂ →
      d₂.packetStreams[pid]? = some h₀ → IsFresh factory pid h₀ → Registration pid h₀ after

end Registration

/-- What the factorisation says of a run that ends in `d`. -/
structure Factors (state : φ) (arrivals : List Arrival) (d : Demuxer κ φ) : Prop where
  /-- each registered PID: a fresh handler alone, on its packets behind the registration -/
  alone : ∀ pid h, d.packetStreams[pid]? = some h →
    ∃ h₀ after, Registration factory state arrivals pid h₀ after ∧
      h₀.feedAll (packetsOf pid after) = .ok (h, callbacksOf pid d.history)
  /-- a packet of a PID that is not registered when it arrives changes nothing -/
  unregistered : ∀ before a after d₁, arrivals = before ++ a :: after →
    consume factory (new state) before = .ok d₁ → d₁.packetStreams[a.packet.pid]? = none →
    consumePacket factory d₁ a = .ok d₁
  /-- another run in which a handler of the same kind gets the same packets of the PID -/
  reordered : ∀ arrivals' d' pid h₀ h₀' after after',
    consume factory (new state) arrivals' = .ok d' →
    Registration factory state arrivals pid h₀ after →
    Registration factory state arrivals' pid h₀' after' → h₀.SameKind h₀' →
    packetsOf pid after = packetsOf pid after' →
    callbacksOf pid d.history = callbacksOf pid d'.history

section Run

variable {factory} {state : φ} {arrivals : List Arrival} {d : Demuxer κ φ} {pid : UInt16}

theorem getElem?_new (state : φ) (pid : UInt16) :
    (new state : Demuxer κ φ).packetStreams[pid]? =
      if 0 = pid then some (.parserPat []) else none := by
  rw [new]
  exact (FirstWins.getElem?_insertIfNew_eq _ _ _ _).trans (by simp)

/-- A registered handler runs alone from its registration on. -/
theorem Registration.factor {h₀ : Handler κ} {after : List Arrival}
    (hreg : Registration factory state arrivals pid h₀ after)
    (hrun : consume factory (new state) arrivals = .ok d) :
    ∃ h, d.packetStreams[pid]? = some h ∧
      h₀.feedAll (packetsOf pid after) = .ok (h, callbacksOf pid d.history) := by
  rw [consume_eq_run] at hrun
  cases hreg with
  | pat =>
    have hzero : (dispatcher factory).lookup (new state) 0 = some (.parserPat []) :=
      (getElem?_new state 0).trans (if_pos rfl)
    obtain ⟨h, calls, hall, hlook, hout⟩ := Dispatcher.run_of_registered hzero hrun
    refine ⟨h, hlook, ?_⟩
    rw [feedAll_eq] at hall
    have hcalls : callbacksOf 0 d.history = calls := hout
    rw [hcalls]
    exact hall
  | @table _ _ before a after d₁ d₂ hsplit hbefore hnone hstep hsome hfresh =>
    subst hsplit
    rw [consume_eq_run] at hbefore
    rw [consumePacket_eq_step] at hstep
    obtain ⟨s₁, hs₁, hrest⟩ := Dispatcher.run_append_eq_ok_iff.mp hrun
    obtain rfl : d₁ = s₁ := Except.ok.inj (hbefore.symm.trans hs₁)
    obtain ⟨s₂, hs₂, hafter⟩ := Dispatcher.run_cons_eq_ok_iff.mp hrest
    obtain rfl : d₂ = s₂ := Except.ok.inj (hstep.symm.trans hs₂)
    obtain ⟨h, calls, hall, hlook, hout⟩ := Dispatcher.run_of_registered hsome hafter
    refine ⟨h, hlook, ?_⟩
    rw [feedAll_eq] at hall
    -- nothing was reported under the PID before it had a handler
    have hnew : callbacksOf pid d₂.history = [] :=
      (Dispatcher.step_new hnone hs₂).1.trans (Dispatcher.run_of_unregistered hs₁ hnone).2
    have hcalls : callbacksOf pid d.history = calls := by
      refine Eq.trans hout ?_
      change callbacksOf pid d₂.history ++ calls = calls
      rw [hnew, List.nil_append]
    rw [hcalls]
    exact hall

/-- Every registered PID was registered by a packet of the run, or is PID 0. -/
theorem exists_registration (hrun : consume factory (new state) arrivals = .ok d) {h : Handler κ}
    (hk : d.packetStreams[pid]? = some h) :
    ∃ h₀ after, Registration factory state arrivals pid h₀ after := by
  by_cases hzero : 0 = pid
  · subst hzero
    exact ⟨_, _, .pat⟩
  · have hnone : (dispatcher factory).lookup (new state) pid = none :=
      (getElem?_new state pid).trans (if_neg hzero)
    rw [consume_eq_run] at hrun
    obtain ⟨before, a, after, d₁, d₂, h₀, calls, rfl, hbefore, hd₁, hstep, hd₂, hfresh, -, -⟩ :=
      Dispatcher.run_of_registration hnone hrun hk
    refine ⟨h₀, after, .table rfl ?_ hd₁ ?_ hd₂ hfresh⟩
    · rw [consume_eq_run]
      exact hbefore
    · rw [consumePacket_eq_step]
      exact hstep

/-- Fresh handlers of one kind make the same calls. -/
theorem calls_eq_of_sameKind {arrivals' : List Arrival} {h₀ h₀' h h' : Handler κ}
    {after after' : List Arrival} {calls calls' : List Callback}
    (hreg : Registration factory state arrivals pid h₀ after)
    (hreg' : Registration factory state arrivals' pid h₀' after') (hkind : h₀.SameKind h₀')
    {packets : List Arrival} (hall : h₀.feedAll packets = .ok (h, calls))
    (hall' : h₀'.feedAll packets = .ok (h', calls')) : calls = calls' := by
  have hfresh : ∀ {as g rest}, Registration factory state as pid g rest →
      g = .parserPat [] ∨ g = .parserPmt [] ∨ ∃ consumer, g = .parserPes consumer := by
    intro as g rest hg
    cases hg with
    | pat => exact Or.inl rfl
    | table _ _ _ _ _ hf =>
      rcases hf with hpmt | ⟨streamType, st, hes⟩
      · exact Or.inr (Or.inl hpmt)
      · exact Or.inr (Or.inr ⟨_, hes⟩)
  -- only PES parsers start with something of their own, their consumer
  rcases hfresh hreg with rfl | rfl | ⟨c, rfl⟩ <;> rcases hfresh hreg' with rfl | rfl | ⟨c', rfl⟩
  case inr.inr.inr.inr =>
    rw [Handler.feedAll_parserPes, bind_eq_ok_iff] at hall hall'
    obtain ⟨ts, hts, hr⟩ := hall
    obtain ⟨ts', hts', hr'⟩ := hall'
    obtain rfl : ts = ts' := Except.ok.inj (hts.symm.trans hts')
    exact (Prod.ext_iff.mp (Except.ok.inj hr)).2.symm.trans (Prod.ext_iff.mp (Except.ok.inj hr')).2
  all_goals first
    | exact hkind.elim
    | exact (Prod.ext_iff.mp (Except.ok.inj (hall.symm.trans hall'))).2

/-- **Per-PID factorisation.** In every run in which all handlers return, each handler and its calls are
those of a fresh one alone on the packets of its PID behind its registration, packets of unregistered
PIDs change nothing, and the calls depend on the other packets only through the kind of handler that
is registered and the point at which it is. -/
theorem demuxer_factors (hrun : consume factory (new state) arrivals = .ok d) :
    Factors factory state arrivals d where
  alone := by
    intro pid h hk
    obtain ⟨h₀, after, hreg⟩ := exists_registration hrun hk
    obtain ⟨h', hk', hall⟩ := hreg.factor hrun
    obtain rfl : h = h' := Option.some.inj (hk.symm.trans hk')
    exact ⟨h₀, after, hreg, hall⟩
  unregistered := by
    intro before a after d₁ _ _ hnone
    rw [consumePacket_eq_step]
    exact Dispatcher.step_of_unregistered hnone
  reordered := by
    intro arrivals' d' pid h₀ h₀' after after' hrun' hreg hreg' hkind hsame
    obtain ⟨h, -, hall⟩ := hreg.factor hrun
    obtain ⟨h', -, hall'⟩ := hreg'.factor hrun'
    rw [hsame] at hall
    exact calls_eq_of_sameKind hreg hreg' hkind hall hall'

end Run

/-! ## Two orders of the same packets -/

/-- A packet with one section and nothing else. -/
def tablePacket (pid : UInt16) (section' : List UInt8) : Arrival :=
  ⟨0 :: section', ⟨pid, true, ⟨0, section'.length + 1⟩⟩⟩

/-- A section laid out as a PAT with one entry. -/
def patListing (tableId programNumber pid : UInt8) : List UInt8 :=
  [tableId, 0xb0, 0x0d, 0x00, 0x01, 0xc1, 0x00, 0x00, 0x00, programNumber, 0xe0, pid,
    0x00, 0x00, 0x00, 0x00]

/-- A section laid out as a PMT with one entry. -/
def pmtListing (tableId streamType pid : UInt8) : List UInt8 :=
  [tableId, 0xb0, 0x12, 0x00, 0x01, 0xc1, 0x00, 0x00, 0xe1, 0x00, 0xf0, 0x00,
    streamType, 0xe0, pid, 0xf0, 0x00, 0x00, 0x00, 0x00, 0x00]

/-- The PAT announces PID 0x20 and then PID 0x30, and between the two or behind them the PMT on PID
0x20 lists PID 0x30 as a video stream. -/
def conflictingTables (pmtFirst : Bool) : List Arrival :=
  let pat := tablePacket 0 (patListing 0 2 0x30)
  let pmt := tablePacket 0x20 (pmtListing 2 0x1b 0x30)
  tablePacket 0 (patListing 0 1 0x20) :: (if pmtFirst then [pmt, pat] else [pat, pmt]) ++
    [⟨[1, 2, 3], ⟨0x30, false, ⟨0, 3⟩⟩⟩]

/-- A factory whose consumers are the PIDs. -/
def pidFactory : EsFactory UInt16 Unit := ⟨fun _ _ pid => (pid, ())⟩

theorem demuxer_factors_conflictingTables :
    ∃ d, consume pidFactory (new ()) (conflictingTables true) = .ok d ∧
      Factors pidFactory () (conflictingTables true) d := by
  have hreturns : Returns (consume pidFactory (new ()) (conflictingTables true)) fun _ => True := by
    decide +kernel
  obtain ⟨d, hrun, -⟩ := returns_iff.mp hreturns
  exact ⟨d, hrun, demuxer_factors hrun⟩

theorem registration_of_returns {factory : EsFactory κ φ} {state : φ} {pid : UInt16}
    {h₀ : Handler κ} (before : List Arrival) {after : List Arrival} {a : Arrival}
    (hfresh : IsFresh factory pid h₀)
    (hreturns : Returns (consume factory (new state) before) fun d₁ =>
      d₁.packetStreams[pid]? = none ∧
        Returns (consumePacket factory d₁ a) fun d₂ => d₂.packetStreams[pid]? = some h₀) :
    Registration factory state (before ++ a :: after) pid h₀ after := by
  obtain ⟨d₁, hd₁, hnone, hstep⟩ := returns_iff.mp hreturns
  obtain ⟨d₂, hd₂, hsome⟩ := returns_iff.mp hstep
  exact .table rfl hd₁ hnone hd₂ hsome hfresh

/-- Both orders register PID 0x30 before its packet; in one the packet is kept as part of a section, in
the other it is handed to a consumer. -/
theorem registration_kind_depends_on_order :
    ¬ ∀ (arrivals arrivals' : List Arrival) (d d' : Demuxer UInt16 Unit) (pid : UInt16)
      (h₀ h₀' : Handler UInt16) (after after' : List Arrival),
      consume pidFactory (new ()) arrivals = .ok d → consume pidFactory (new ()) arrivals' = .ok d' →
      arrivals.Perm arrivals' → packetsOf pid arrivals = packetsOf pid arrivals' →
      Registration pidFactory () arrivals pid h₀ after →
      Registration pidFactory () arrivals' pid h₀' after' →
      packetsOf pid after = packetsOf pid after' →
      callbacksOf pid d.history = callbacksOf pid d'.history := by
  intro hclaim
  have hkept : Returns (consume pidFactory (new ()) (conflictingTables false)) fun d =>
      (callbacksOf 0x30 d.history).length = 0 := by
    decide +kernel
  have hgiven : Returns (consume pidFactory (new ()) (conflictingTables true)) fun d =>
      (callbacksOf 0x30 d.history).length = 1 := by
    decide +kernel
  obtain ⟨d, hrun, hzero⟩ := returns_iff.mp hkept
  obtain ⟨d', hrun', hone⟩ := returns_iff.mp hgiven
  have hpmt : Registration pidFactory () (conflictingTables false) 0x30 (.parserPmt []) _ :=
    registration_of_returns [tablePacket 0 (patListing 0 1 0x20)] (Or.inl rfl)
      (by decide +kernel)
  have hes : Registration pidFactory () (conflictingTables true) 0x30 (.parserPes 0x30) _ :=
    registration_of_returns [tablePacket 0 (patListing 0 1 0x20)]
      (Or.inr ⟨0x1b, (), rfl⟩) (by decide +kernel)
  have heq := hclaim _ _ d d' 0x30 _ _ _ _ hrun hrun' (by decide) (by decide) hpmt hes (by decide)
  rw [heq, hone] at hzero
  exact absurd hzero (by decide)

end Demuxer

end Sandstream
