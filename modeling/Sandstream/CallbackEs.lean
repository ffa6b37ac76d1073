import Mathlib
import Sandstream.CreateCalls

/-! # Sandstream.CallbackEs -- consumers that act

`Demuxer` records the calls of `on_data`, and nothing else comes of them. Here the consumers are the
user's: `on_data` acts on a state that all consumers of a factory share, at the moment of the call, and a
later call of `create` finds it changed. It may also throw, which the demuxer does not catch: the run ends,
and the state is as the consumer left it.

`deliver_eq_ok_iff` reduces this to the recording run: the state of the user is what the recorded calls make
of it, one after the other. `deliverPacket_eq_error_iff` says at which packets a run ends.
-/

namespace Sandstream

open Sandstream.Lib
open Sandstream.Lib.Dispatch (Dispatcher)

variable {κ φ : Type}

/-! ## Exceptions -/

/-- What keeps code that calls consumers from returning: a fault, or an exception that a consumer has
thrown. With the exception stands the state of the user as it was left. -/
inductive Abort (φ : Type) where
  | fault (e : Fault)
  | thrown (state : φ)
  deriving Repr, DecidableEq

/-- The result of running code that calls consumers. -/
abbrev Outcome (φ α : Type) := Except (Abort φ) α

instance : MonadLift Exec (Except (Abort φ)) where
  monadLift x := x.mapError .fault

section Lift

variable {α β : Type}

@[simp] theorem lift_ok (a : α) : (liftM (Except.ok a : Exec α) : Outcome φ α) = .ok a := rfl

@[simp] theorem lift_error (e : Fault) :
    (liftM (Except.error e : Exec α) : Outcome φ α) = .error (.fault e) := rfl

theorem lift_eq_ok_iff {x : Exec α} {a : α} : (liftM x : Outcome φ α) = .ok a ↔ x = .ok a := by
  cases x <;> simp

/-- A program that calls no consumer ends with faults only. -/
theorem lift_eq_error_iff {x : Exec α} {stop : Abort φ} :
    (liftM x : Outcome φ α) = .error stop ↔ ∃ e, stop = .fault e ∧ x = .error e := by
  cases x with
  | ok a => simp
  | error e => simp [eq_comm]

end Lift

/-- If `x` returns, its result satisfies `post`; if it throws, the state that is left satisfies `thrown`. -/
def IfEnds {α : Type} (x : Outcome φ α) (post : α → Prop) (thrown : φ → Prop) : Prop :=
  match x with
  | .ok a => post a
  | .error (.thrown state) => thrown state
  | .error (.fault _) => True

section IfEnds

variable {α β : Type} {x : Outcome φ α} {post post' : α → Prop} {thrown : φ → Prop}

@[simp] theorem ifEnds_ok {a : α} : IfEnds (.ok a) post thrown ↔ post a := Iff.rfl

@[simp] theorem ifEnds_thrown {state : φ} : IfEnds (.error (.thrown state)) post thrown ↔ thrown state :=
  Iff.rfl

@[simp] theorem ifEnds_fault {e : Fault} : IfEnds (.error (.fault e)) post thrown ↔ True := Iff.rfl

/-- Code that calls no consumer throws nothing. -/
theorem ifEnds_lift (x : Exec α) :
    IfEnds (liftM x : Outcome φ α) (fun a => x = .ok a) thrown := by
  cases x with
  | ok a => exact ifEnds_ok.mpr rfl
  | error e => exact ifEnds_fault.mpr trivial

/-- Two executions one after the other. -/
theorem IfEnds.bind {f : α → Outcome φ β} {post' : β → Prop} (hx : IfEnds x post thrown)
    (hf : ∀ a, post a → IfEnds (f a) post' thrown) : IfEnds (x >>= f) post' thrown := by
  cases x with
  | ok a => exact hf a (ifEnds_ok.mp hx)
  | error stop =>
    cases stop with
    | fault e => exact ifEnds_fault.mpr trivial
    | thrown state => exact ifEnds_thrown.mpr (ifEnds_thrown.mp hx)

theorem IfEnds.mono {thrown' : φ → Prop} (hx : IfEnds x post thrown) (hpost : ∀ a, post a → post' a)
    (hthrown : ∀ state, thrown state → thrown' state) : IfEnds x post' thrown' := by
  cases x with
  | ok a => exact hpost a hx
  | error stop =>
    cases stop with
    | fault e => exact ifEnds_fault.mpr trivial
    | thrown state => exact hthrown state hx

theorem ifEnds_iff :
    IfEnds x post thrown ↔
      (∀ a, x = .ok a → post a) ∧ ∀ state, x = .error (.thrown state) → thrown state := by
  cases x with
  | ok a => simp
  | error stop => cases stop <;> simp

end IfEnds

attribute [irreducible] IfEnds

/-! ## What the handlers report -/

/-- The calls a handler can make for any packet: each parser makes calls of its own kind. -/
inductive Handler.Reports : Handler κ → List Callback → Prop where
  | pat {sectionData : List UInt8} (updates : List Pat) :
      Reports (.parserPat sectionData) (updates.map .onPat)
  | pmt {sectionData : List UInt8} (updates : List Pmt) :
      Reports (.parserPmt sectionData) (updates.map .onPmt)
  | es {consumer : κ} (datas : List Handed) :
      Reports (.parserPes consumer) (datas.map .onData)

namespace Handler

variable {h h' : Handler κ} {a : Arrival} {calls : List Callback}

/-- The calls of a section parser are the tables it has parsed. -/
theorem psi_calls {τ : Type} (parse : List UInt8 → Nat → Exec τ) (call : τ → Callback)
    {sectionData sectionData' : List UInt8}
    (hput : ParserPsi.put (fun data available calls => do return calls ++ [call (← parse data available)])
      sectionData a [] = .ok (sectionData', calls)) : ∃ updates : List τ, calls = updates.map call := by
  rw [ParserPsi.put_collect parse (fun t calls => calls ++ [call t])] at hput
  obtain ⟨⟨sectionData'', updates⟩, -, hresult⟩ := bind_eq_ok_iff.mp hput
  obtain ⟨-, rfl⟩ := Prod.mk.inj (Except.ok.inj hresult)
  exact ⟨updates, foldl_record call updates⟩

theorem feed_reports (hfeed : h.feed a = .ok (h', calls)) : h.Reports calls := by
  cases h with
  | parserPat sectionData =>
    obtain ⟨⟨sectionData', calls'⟩, hput, hresult⟩ := bind_eq_ok_iff.mp hfeed
    obtain ⟨-, rfl⟩ := Prod.mk.inj (Except.ok.inj hresult)
    obtain ⟨updates, rfl⟩ := psi_calls ParserPat.parsePatPayload .onPat hput
    exact .pat updates
  | parserPmt sectionData =>
    obtain ⟨⟨sectionData', calls'⟩, hput, hresult⟩ := bind_eq_ok_iff.mp hfeed
    obtain ⟨-, rfl⟩ := Prod.mk.inj (Except.ok.inj hresult)
    obtain ⟨updates, rfl⟩ := psi_calls ParserPmt.parsePmtPayload .onPmt hput
    exact .pmt updates
  | parserPes consumer =>
    rw [feed_parserPes] at hfeed
    obtain ⟨calls', hcalls, hresult⟩ := bind_eq_ok_iff.mp hfeed
    obtain ⟨-, rfl⟩ := Prod.mk.inj (Except.ok.inj hresult)
    obtain ⟨buffer, -, hrest⟩ := bind_eq_ok_iff.mp hcalls
    cases buffer with
    | none =>
      obtain rfl := Except.ok.inj hrest
      exact .es []
    | some buffer =>
      obtain rfl := Except.ok.inj hrest
      exact .es [_]

/-- Buffers are handed on by PES parsers only. -/
theorem Reports.parserPes_of_onData (hreports : h.Reports calls) {buffer : Handed}
    (hmem : .onData buffer ∈ calls) : ∃ consumer, h = .parserPes consumer := by
  cases hreports with
  | pat updates =>
    obtain ⟨update, -, heq⟩ := List.mem_map.mp hmem
    exact absurd heq (by simp)
  | pmt updates =>
    obtain ⟨update, -, heq⟩ := List.mem_map.mp hmem
    exact absurd heq (by simp)
  | @es consumer datas => exact ⟨consumer, rfl⟩

end Handler

/-! ## The user -/

/-- The user of the demuxer: a `callback_es_factory_t`, and what `on_data` of the `callback_es_t` it
makes does to the state they share. -/
structure EsUser (κ φ : Type) extends EsFactory κ φ where
  onData : κ → Handed → φ → Outcome φ φ

namespace Demuxer

theorem callbacksOf_reportAll (factory : EsFactory κ φ) (pid k : UInt16) (calls : List Callback)
    (d : Demuxer κ φ) :
    callbacksOf k (d.reportAll factory pid calls).history =
      callbacksOf k d.history ++ if pid = k then calls else [] := by
  induction calls generalizing d with
  | nil =>
    show callbacksOf k d.history = _
    split_ifs <;> exact (List.append_nil _).symm
  | cons callback calls ih =>
    rw [reportAll_cons, ih, callbacksOf_report, List.append_assoc]
    split_ifs <;> rfl

variable (user : EsUser κ φ)

/-- The demuxer with another state of its user. -/
def withState (d : Demuxer κ φ) (state : φ) : Demuxer κ φ := { d with esCallbackFactory := state }

@[simp] theorem withState_packetStreams (d : Demuxer κ φ) (state : φ) :
    (d.withState state).packetStreams = d.packetStreams := rfl

/-- The body of the loop of `demuxer_t::consume`, with the consumers of the user: a PES parser calls its
consumer. -/
def deliverPacket (d : Demuxer κ φ) (a : Arrival) : Outcome φ (Demuxer κ φ) :=
  match d.packetStreams[a.packet.pid]? with
  | some (.parserPes consumer) => do
    match ← ParserPes.put a with
    | none => return d
    | some buffer =>
      let d := d.note a.packet.pid (.onData (buffer.handed a.storage))
      let state ← user.onData consumer (buffer.handed a.storage) d.esCallbackFactory
      return d.withState state
  -- the table parsers call back the demuxer alone
  | _ => consumePacket user.toEsFactory d a

/-- `demuxer_t::consume`, with the consumers of the user. -/
def deliver (d : Demuxer κ φ) (arrivals : List Arrival) : Outcome φ (Demuxer κ φ) :=
  arrivals.foldlM (deliverPacket user) d

theorem deliver_append (d : Demuxer κ φ) (arrivals arrivals' : List Arrival) :
    deliver user d (arrivals ++ arrivals') =
      deliver user d arrivals >>= fun d => deliver user d arrivals' :=
  List.foldlM_append

end Demuxer

/-! ## The recorded calls, acted on one after the other -/

namespace EsUser

/-- What a recorded call does to the state of the user, where `consumer` is the one of each PID. -/
def effect (user : EsUser κ φ) (consumer : UInt16 → κ) (state : φ) : Event → Outcome φ φ
  | .create streamType pid => return (user.create state streamType pid).2
  | .handler pid (.onData buffer) => user.onData (consumer pid) buffer state
  | .handler _ _ => return state

/-- What several calls do. -/
def replay (user : EsUser κ φ) (consumer : UInt16 → κ) (state : φ) (history : List Event) :
    Outcome φ φ :=
  history.foldlM (user.effect consumer) state

theorem replay_append (user : EsUser κ φ) (consumer : UInt16 → κ) (state : φ)
    (history history' : List Event) :
    user.replay consumer state (history ++ history') =
      user.replay consumer state history >>= fun state => user.replay consumer state history' :=
  List.foldlM_append

theorem replay_singleton (user : EsUser κ φ) (consumer : UInt16 → κ) (state : φ) (event : Event) :
    user.replay consumer state [event] = user.effect consumer state event := by
  unfold replay
  rw [List.foldlM_cons]
  cases user.effect consumer state event <;> rfl

/-- The user, if its consumers did nothing. -/
def idle (user : EsUser κ φ) : EsUser κ φ :=
  { user with onData := fun _ _ state => return state }

/-- The consumer that `create` makes depends on the PID alone. -/
def Creates (user : EsUser κ φ) (consumer : UInt16 → κ) : Prop :=
  ∀ state streamType pid, (user.create state streamType pid).1 = consumer pid

end EsUser

namespace Demuxer

/-- Beginning with `state`, the user has acted on all calls so far, and now its state is `s`. -/
def Enacts (user : EsUser κ φ) (consumer : UInt16 → κ) (state : φ) (d : Demuxer κ φ) (s : φ) : Prop :=
  user.replay consumer state d.history = .ok s

/-- Every PES parser has the consumer of its PID. -/
def InPlace (consumer : UInt16 → κ) (d : Demuxer κ φ) : Prop :=
  ∀ (pid : UInt16) c, d.packetStreams[pid]? = some (.parserPes c) → c = consumer pid

variable {user : EsUser κ φ} {consumer : UInt16 → κ} {state s : φ} {d d' : Demuxer κ φ} {a : Arrival}
  {pid : UInt16}

theorem enacts_new (state : φ) :
    Enacts user consumer state (new state : Demuxer κ φ) state := rfl

/-- Of the calls so far, the user has acted on the first ones too. -/
theorem Enacts.of_isPrefix (hs : Enacts user consumer state d' s) (hfront : d.history <+: d'.history) :
    ∃ s₁, Enacts user consumer state d s₁ := by
  obtain ⟨later, hlater⟩ := hfront
  unfold Enacts at hs
  rw [← hlater, EsUser.replay_append, bind_eq_ok_iff] at hs
  obtain ⟨s₁, hfirst, -⟩ := hs
  exact ⟨s₁, hfirst⟩

/-! ## Tables -/

theorem withState_addService (d : Demuxer κ φ) (s : φ) (pid : UInt16) :
    (d.withState s).addService pid = (d.addService pid).withState s := by
  unfold addService
  rw [withState_packetStreams]
  split_ifs <;> rfl

theorem withState_onPat (update : Pat) (d : Demuxer κ φ) (s : φ) :
    (d.withState s).onPat update = (d.onPat update).withState s := by
  unfold onPat
  induction update.toList generalizing d with
  | nil => rfl
  | cons service services ih => rw [List.foldl_cons, List.foldl_cons, withState_addService, ih]

/-- `create` changes the state of the user, and the consumer is the same whatever the state is. -/
theorem Enacts.addTrack (hcreates : user.Creates consumer) (hs : Enacts user consumer state d s)
    (pid : UInt16) (streamType : UInt8) :
    ∃ s', (d.withState s).addTrack user.toEsFactory pid streamType =
        (d.addTrack user.toEsFactory pid streamType).withState s' ∧
      Enacts user consumer state (d.addTrack user.toEsFactory pid streamType) s' := by
  unfold Demuxer.addTrack
  rw [withState_packetStreams]
  split_ifs with hmem
  · exact ⟨s, rfl, hs⟩
  · have hsame : (user.create s streamType pid).1 =
        (user.create d.esCallbackFactory streamType pid).1 :=
      (hcreates _ streamType pid).trans (hcreates _ streamType pid).symm
    refine ⟨(user.create s streamType pid).2, ?_, ?_⟩
    · unfold withState
      dsimp only
      rw [hsame]
    · unfold Enacts at hs ⊢
      rw [EsUser.replay_append, hs]
      rfl

theorem Enacts.onPmt (hcreates : user.Creates consumer) (hs : Enacts user consumer state d s)
    (update : Pmt) :
    ∃ s', (d.withState s).onPmt user.toEsFactory update =
        (d.onPmt user.toEsFactory update).withState s' ∧
      Enacts user consumer state (d.onPmt user.toEsFactory update) s' := by
  unfold Demuxer.onPmt
  induction update.toList generalizing d s with
  | nil => exact ⟨s, rfl, hs⟩
  | cons track tracks ih =>
    obtain ⟨s₁, hfirst, hs₁⟩ := hs.addTrack hcreates track.1 track.2
    rw [List.foldl_cons, List.foldl_cons, hfirst]
    exact ih hs₁

/-! ## Calls -/

/-- A table that is reported. -/
theorem Enacts.report (pid : UInt16) (hcreates : user.Creates consumer)
    (hs : Enacts user consumer state d s) {callback : Callback}
    (htable : ∀ buffer, callback ≠ .onData buffer) :
    ∃ s', (d.withState s).report user.toEsFactory pid callback =
        (d.report user.toEsFactory pid callback).withState s' ∧
      Enacts user consumer state (d.report user.toEsFactory pid callback) s' := by
  have hnote : Enacts user consumer state (d.note pid callback) s := by
    unfold Enacts at hs ⊢
    rw [note, EsUser.replay_append, hs, ok_bind, EsUser.replay_singleton]
    cases callback with
    | onPat update => rfl
    | onPmt update => rfl
    | onData buffer => exact absurd rfl (htable buffer)
  cases callback with
  | onPat update =>
    refine ⟨s, withState_onPat update (d.note pid _) s, ?_⟩
    unfold Enacts at hnote ⊢
    rw [report_onPat, history_onPat]
    exact hnote
  | onPmt update => exact hnote.onPmt hcreates update
  | onData buffer => exact absurd rfl (htable buffer)

theorem Enacts.reportAll (pid : UInt16) (hcreates : user.Creates consumer)
    (hs : Enacts user consumer state d s) {calls : List Callback}
    (htable : ∀ buffer, .onData buffer ∉ calls) :
    ∃ s', (d.withState s).reportAll user.toEsFactory pid calls =
        (d.reportAll user.toEsFactory pid calls).withState s' ∧
      Enacts user consumer state (d.reportAll user.toEsFactory pid calls) s' := by
  induction calls generalizing d s with
  | nil => exact ⟨s, rfl, hs⟩
  | cons callback calls ih =>
    have hfirst : ∀ buffer, callback ≠ .onData buffer := by
      rintro buffer rfl
      exact htable buffer List.mem_cons_self
    obtain ⟨s₁, hreport, hs₁⟩ := hs.report pid hcreates hfirst
    rw [reportAll_cons, reportAll_cons, hreport]
    exact ih hs₁ fun buffer hmem => htable buffer (List.mem_cons_of_mem _ hmem)

/-! ## Packets -/

/-- The step lemma for the handlers that call the demuxer alone, or that are not there. -/
theorem Enacts.consumePacket (hcreates : user.Creates consumer) (hs : Enacts user consumer state d s)
    (htable : ∀ c, d.packetStreams[a.packet.pid]? ≠ some (.parserPes c)) :
    (liftM (Demuxer.consumePacket user.toEsFactory (d.withState s) a) : Outcome φ (Demuxer κ φ)) = (do
      let d' ← Demuxer.consumePacket user.toEsFactory d a
      return d'.withState (← user.replay consumer state d'.history)) := by
  unfold Demuxer.consumePacket
  rw [withState_packetStreams]
  cases hk : d.packetStreams[a.packet.pid]? with
  | none =>
    have hreplay : user.replay consumer state d.history = .ok s := hs
    show Except.ok (d.withState s) = (do return d.withState (← user.replay consumer state d.history))
    rw [hreplay]
    rfl
  | some stream =>
    dsimp only
    rw [Handler.put_eq_feed, Handler.put_eq_feed]
    cases hfeed : stream.feed a with
    | error e => rfl
    | ok r =>
      obtain ⟨stream', calls⟩ := r
      have hcalls : ∀ buffer, .onData buffer ∉ calls := by
        intro buffer hmem
        obtain ⟨c, rfl⟩ := (Handler.feed_reports hfeed).parserPes_of_onData hmem
        exact htable c hk
      obtain ⟨s', hreport, hs'⟩ := hs.reportAll a.packet.pid hcreates hcalls
      have hsettled : user.replay consumer state
          ((d.reportAll user.toEsFactory a.packet.pid calls).settle a.packet.pid stream').history =
            .ok s' := hs'
      show Except.ok (((d.withState s).reportAll user.toEsFactory a.packet.pid calls).settle
        a.packet.pid stream') = (do
          let s ← user.replay consumer state
            ((d.reportAll user.toEsFactory a.packet.pid calls).settle a.packet.pid stream').history
          return ((d.reportAll user.toEsFactory a.packet.pid calls).settle a.packet.pid
            stream').withState s)
      rw [hreport, hsettled]
      rfl

/-- A PES parser records the buffer it hands on. -/
theorem consumePacket_parserPes {factory : EsFactory κ φ} {c : κ}
    (hk : d.packetStreams[a.packet.pid]? = some (.parserPes c)) :
    Demuxer.consumePacket factory d a = (do
      match ← ParserPes.put a with
      | none => return d
      | some buffer => return d.note a.packet.pid (.onData (buffer.handed a.storage))) := by
  unfold Demuxer.consumePacket
  rw [hk]
  show (ParserPes.put a >>= _) >>= _ = _
  rw [bind_assoc]
  apply bind_congr
  rintro (_ | buffer)
  · exact congrArg Except.ok (settle_self hk)
  · exact congrArg Except.ok (settle_self (d := d.note a.packet.pid _) hk)

/-- The demuxer ends at a packet when the recording one does, or when a consumer does that is called. -/
theorem deliverPacket_eq_error_iff {stop : Abort φ} :
    Demuxer.deliverPacket user d a = .error stop ↔
      (∃ e, stop = .fault e ∧ Demuxer.consumePacket user.toEsFactory d a = .error e) ∨
        ∃ c buffer, d.packetStreams[a.packet.pid]? = some (.parserPes c) ∧
          ParserPes.put a = .ok (some buffer) ∧
          user.onData c (buffer.handed a.storage) d.esCallbackFactory = .error stop := by
  unfold Demuxer.deliverPacket
  split
  case h_1 c hk =>
    rw [consumePacket_parserPes hk, bind_eq_error_iff, lift_eq_error_iff]
    constructor
    · rintro (⟨e, rfl, hput⟩ | ⟨buffer, hput, hrest⟩)
      · exact Or.inl ⟨e, rfl, bind_eq_error_iff.mpr (Or.inl hput)⟩
      · rw [lift_eq_ok_iff] at hput
        cases buffer with
        | none => cases hrest
        | some buffer =>
          rcases bind_eq_error_iff.mp hrest with hdata | ⟨state, -, hreturn⟩
          · exact Or.inr ⟨c, buffer, hk, hput, hdata⟩
          · cases hreturn
    · rintro (⟨e, rfl, hstep⟩ | ⟨c', buffer, hk', hput, hdata⟩)
      · rcases bind_eq_error_iff.mp hstep with hput | ⟨buffer, -, hreturn⟩
        · exact Or.inl ⟨e, rfl, hput⟩
        · cases buffer <;> cases hreturn
      · obtain rfl := Handler.parserPes.inj (Option.some.inj (hk.symm.trans hk'))
        refine Or.inr ⟨some buffer, lift_eq_ok_iff.mpr hput, ?_⟩
        exact bind_eq_error_iff.mpr (Or.inl hdata)
  case h_2 hother =>
    rw [lift_eq_error_iff]
    constructor
    · exact Or.inl
    · rintro (h | ⟨c, buffer, hk, -⟩)
      · exact h
      · exact absurd hk (hother c)

/-- The step lemma: a packet is consumed, and then the user acts. -/
theorem Enacts.deliverPacket (hcreates : user.Creates consumer) (hplace : d.InPlace consumer)
    (hs : Enacts user consumer state d s) :
    Demuxer.deliverPacket user (d.withState s) a = (do
      let d' ← Demuxer.consumePacket user.toEsFactory d a
      return d'.withState (← user.replay consumer state d'.history)) := by
  have hreplay : user.replay consumer state d.history = .ok s := hs
  unfold Demuxer.deliverPacket
  rw [withState_packetStreams]
  split
  case h_1 c hk =>
    obtain rfl := hplace _ c hk
    rw [consumePacket_parserPes hk]
    cases hput : ParserPes.put a with
    | error e => rfl
    | ok buffer =>
      cases buffer with
      | none =>
        show Except.ok (d.withState s) =
          (do return d.withState (← user.replay consumer state d.history))
        rw [hreplay]
        rfl
      | some buffer =>
        have hdata : user.replay consumer state
            (d.note a.packet.pid (.onData (buffer.handed a.storage))).history =
              user.onData (consumer a.packet.pid) (buffer.handed a.storage) s := by
          rw [note, EsUser.replay_append, hreplay, ok_bind, EsUser.replay_singleton]
          rfl
        show _ = (do
          let s ← user.replay consumer state
            (d.note a.packet.pid (.onData (buffer.handed a.storage))).history
          return (d.note a.packet.pid (.onData (buffer.handed a.storage))).withState s)
        rw [hdata]
        rfl
  case h_2 hother => exact hs.consumePacket hcreates hother

/-- A report puts no other consumer anywhere. -/
theorem InPlace.report (hcreates : user.Creates consumer) (hd : d.InPlace consumer) (pid : UInt16)
    (callback : Callback) : (d.report user.toEsFactory pid callback).InPlace consumer := by
  intro k c hk
  cases hbefore : d.packetStreams[k]? with
  | none =>
    rcases report_fresh hbefore hk with hpmt | ⟨streamType, st, hes⟩
    · exact absurd hpmt (by simp)
    · rw [Handler.parserPes.inj hes, hcreates]
  | some g =>
    obtain rfl : g = .parserPes c := Option.some.inj ((report_kept hbefore).symm.trans hk)
    exact hd k c hbefore

theorem InPlace.reportAll (hcreates : user.Creates consumer) (hd : d.InPlace consumer)
    (calls : List Callback) : (d.reportAll user.toEsFactory pid calls).InPlace consumer := by
  induction calls generalizing d with
  | nil => exact hd
  | cons callback calls ih => exact ih (hd.report hcreates pid callback)

theorem InPlace.step (hcreates : user.Creates consumer) (hd : d.InPlace consumer)
    (hstep : Demuxer.consumePacket user.toEsFactory d a = .ok d') : d'.InPlace consumer := by
  rw [consumePacket_eq_step] at hstep
  cases hk : d.packetStreams[a.packet.pid]? with
  | none =>
    rw [Dispatcher.step_of_unregistered hk, Except.ok.injEq] at hstep
    exact hstep ▸ hd
  | some stream =>
    obtain ⟨stream', calls, hfeed, rfl⟩ := Dispatcher.step_of_registered hk hstep
    have hcont := Handler.feed_continues hfeed
    intro pid c hpid
    have hsettled : ((d.reportAll user.toEsFactory a.packet.pid calls).settle a.packet.pid
      stream').packetStreams[pid]? = some (.parserPes c) := hpid
    rw [getElem?_settle] at hsettled
    split_ifs at hsettled with hkey
    · obtain rfl := Option.some.inj hsettled
      subst hkey
      cases stream with
      | parserPat => exact hcont.elim
      | parserPmt => exact hcont.elim
      | parserPes c' =>
        obtain rfl : c' = c := hcont
        exact hd _ c' hk
    · exact hd.reportAll hcreates calls pid c hsettled

theorem inPlace_new (state : φ) : (new state : Demuxer κ φ).InPlace consumer := by
  intro pid c hk
  rw [getElem?_new] at hk
  split_ifs at hk
  exact absurd (Option.some.inj hk) (by simp)

theorem InPlace.consume {arrivals : List Arrival} (hcreates : user.Creates consumer)
    (hd : d.InPlace consumer) (hrun : Demuxer.consume user.toEsFactory d arrivals = .ok d') :
    d'.InPlace consumer := by
  induction arrivals generalizing d with
  | nil =>
    obtain rfl : d = d' := Except.ok.inj hrun
    exact hd
  | cons a arrivals ih =>
    rw [consume_cons, bind_eq_ok_iff] at hrun
    obtain ⟨d₁, hstep, hrest⟩ := hrun
    exact ih (hd.step hcreates hstep) hrest

/-! ## Records only grow -/

section History

variable {factory : EsFactory κ φ} {arrivals : List Arrival}

theorem history_prefix_reportAll (factory : EsFactory κ φ) (d : Demuxer κ φ) (pid : UInt16)
    (calls : List Callback) : d.history <+: (d.reportAll factory pid calls).history := by
  induction calls generalizing d with
  | nil => exact List.prefix_refl _
  | cons callback calls ih =>
    rw [reportAll_cons]
    refine List.IsPrefix.trans ?_ (ih _)
    rw [history_report]
    exact List.prefix_append _ _

theorem history_prefix_consumePacket (hstep : Demuxer.consumePacket factory d a = .ok d') :
    d.history <+: d'.history := by
  rw [consumePacket_eq_step] at hstep
  cases hk : d.packetStreams[a.packet.pid]? with
  | none =>
    rw [Dispatcher.step_of_unregistered hk, Except.ok.injEq] at hstep
    exact hstep ▸ List.prefix_refl _
  | some stream =>
    obtain ⟨stream', calls, -, rfl⟩ := Dispatcher.step_of_registered hk hstep
    exact history_prefix_reportAll factory d a.packet.pid calls

theorem history_prefix_consume (hrun : Demuxer.consume factory d arrivals = .ok d') :
    d.history <+: d'.history := by
  induction arrivals generalizing d with
  | nil =>
    obtain rfl : d = d' := Except.ok.inj hrun
    exact List.prefix_refl _
  | cons a arrivals ih =>
    rw [consume_cons, bind_eq_ok_iff] at hrun
    obtain ⟨d₁, hstep, hrest⟩ := hrun
    exact (history_prefix_consumePacket hstep).trans (ih hrest)

end History

/-! ## Runs -/

section Runs

variable {arrivals : List Arrival}

/-- **Acting at once is acting on the record.** With a user whose consumers depend on the PID alone, a run
returns when the recording run does and no recorded call throws; the state of the user is then what the
calls make of it. -/
theorem Enacts.deliver_eq_ok_iff (hcreates : user.Creates consumer) (hplace : d.InPlace consumer)
    (hs : Enacts user consumer state d s) :
    deliver user (d.withState s) arrivals = .ok d' ↔
      ∃ d₀ s', consume user.toEsFactory d arrivals = .ok d₀ ∧ Enacts user consumer state d₀ s' ∧
        d' = d₀.withState s' := by
  induction arrivals generalizing d s with
  | nil =>
    constructor
    · intro h
      exact ⟨d, s, rfl, hs, (Except.ok.inj h).symm⟩
    · rintro ⟨d₀, s', hrun, hs', rfl⟩
      obtain rfl : d = d₀ := Except.ok.inj hrun
      obtain rfl : s = s' := Except.ok.inj (hs.symm.trans hs')
      rfl
  | cons a arrivals ih =>
    rw [deliver, List.foldlM_cons, hs.deliverPacket hcreates hplace, consume_cons]
    constructor
    · intro h
      obtain ⟨d₁', hfirst, hrest⟩ := bind_eq_ok_iff.mp h
      obtain ⟨d₁, hstep, hact⟩ := bind_eq_ok_iff.mp hfirst
      obtain ⟨s₁, hs₁, hresult⟩ := bind_eq_ok_iff.mp hact
      obtain rfl := Except.ok.inj hresult
      rw [lift_eq_ok_iff] at hstep
      rw [hstep]
      exact (ih (hplace.step hcreates hstep) hs₁).mp hrest
    · rintro ⟨d₀, s', hrun, hs', rfl⟩
      obtain ⟨d₁, hstep, hrest⟩ := bind_eq_ok_iff.mp hrun
      obtain ⟨s₁, hs₁⟩ := hs'.of_isPrefix (history_prefix_consume hrest)
      have hreplay : user.replay consumer state d₁.history = .ok s₁ := hs₁
      rw [hstep]
      simp only [lift_ok, ok_bind, hreplay]
      exact (ih (hplace.step hcreates hstep) hs₁).mpr ⟨d₀, s', hrest, hs', rfl⟩

/-- Consumers that do nothing leave it at the record. -/
theorem deliver_idle (user : EsUser κ φ) (d : Demuxer κ φ) (arrivals : List Arrival) :
    deliver user.idle d arrivals = liftM (consume user.toEsFactory d arrivals) := by
  have hpacket : ∀ (d : Demuxer κ φ) a, Demuxer.deliverPacket user.idle d a =
      liftM (Demuxer.consumePacket user.toEsFactory d a) := by
    intro d a
    unfold Demuxer.deliverPacket
    split
    case h_1 c hk =>
      rw [consumePacket_parserPes hk]
      cases ParserPes.put a with
      | error e => rfl
      | ok buffer => cases buffer <;> rfl
    case h_2 => rfl
  induction arrivals generalizing d with
  | nil => rfl
  | cons a arrivals ih =>
    rw [deliver, List.foldlM_cons, hpacket, consume_cons]
    cases Demuxer.consumePacket user.toEsFactory d a with
    | error e => rfl
    | ok d' => exact ih d'

/-- What a run records does not depend on the state it begins with. -/
theorem consume_of_other_state (hcreates : user.Creates consumer) {state' : φ}
    (hrun : consume user.toEsFactory (new state) arrivals = .ok d) :
    ∃ d' s, consume user.toEsFactory (new state') arrivals = .ok d' ∧ d = d'.withState s := by
  have hidle : user.idle.Creates consumer := hcreates
  have hs : Enacts user.idle consumer state (new state') state := rfl
  have hdeliver : deliver user.idle ((new state').withState state) arrivals = .ok d := by
    rw [deliver_idle, lift_eq_ok_iff]
    exact hrun
  obtain ⟨d', s, hconsume, -, rfl⟩ :=
    (hs.deliver_eq_ok_iff hidle (inPlace_new state')).mp hdeliver
  exact ⟨d', s, hconsume, rfl⟩

end Runs

end Demuxer

end Sandstream
