import Mathlib
import Sandstream.MainLoop
import Sandstream.Assertions
import Sandstream.CallbackEs

/-! # Sandstream.Tool -- the packetizer and the demuxer together

`main` fills the packetizer and lets the demuxer consume what it gives. A packet reaches its handler
after `get` has returned, so a handler reads its payload from the storage as `get` left it.

`toolLoop_eq` splits a run in two: the packets that the packetizer alone gives, and the demuxer alone on
these packets. `tool_assertion_iff` says with it when a run fails an assertion. The consumers are any: one
may throw, which ends the run.
-/

namespace Sandstream

open Packetizer (GetRecord Turn ChunksFit mainTurn mainLoop allGets)
open Demuxer (deliver deliverPacket TripsAssertion patListing pmtListing tableBlock pidFactory)

variable {κ φ : Type} (user : EsUser κ φ)

/-! ## The loops -/

/-- `demuxer_t::consume`, with the packetizer as its source. -/
def consumeSource : Nat → Packetizer → Demuxer κ φ → Outcome φ (Packetizer × Demuxer κ φ)
  | 0, p, d => if p.isDepleted then .ok (p, d) else .error (.fault .outOfFuel)
  | fuel + 1, p, d => do
    if p.isDepleted then
      return (p, d)
    else
      let (packet, q) ← p.get
      let d ← deliverPacket user d ⟨q.dataStorage, packet⟩
      consumeSource fuel q d

/-- One turn of the loop in `main`. -/
def toolTurn (p : Packetizer) (d : Demuxer κ φ) (chunk : List UInt8) :
    Outcome φ (Packetizer × Demuxer κ φ) := do
  let filled ← p.fill chunk
  let confirmed ← filled.confirm ⟨p.request.data, chunk.length⟩
  consumeSource user confirmed.inputBuffer.size confirmed d

/-- The loop in `main`. -/
def toolLoop (p : Packetizer) (d : Demuxer κ φ) :
    List (List UInt8) → Outcome φ (Packetizer × Demuxer κ φ)
  | [] => .ok (p, d)
  | chunk :: chunks => do
    let (p, d) ← toolTurn user p d chunk
    toolLoop p d chunks

/-- `main`, with the size of the buffer and the state of the user. -/
def tool (bufferLimit : Nat) (state : φ) (chunks : List (List UInt8)) :
    Outcome φ (Packetizer × Demuxer κ φ) :=
  toolLoop user (Packetizer.new bufferLimit) (Demuxer.new state) chunks

/-! ## Packets first -/

/-- The packet of a `get` as the demuxer gets it. -/
def GetRecord.arrival (g : GetRecord) : Arrival := ⟨g.after.dataStorage, g.packet⟩

theorem consumeSource_eq {fuel : Nat} {p q : Packetizer} {gets : List GetRecord}
    (hrun : Packetizer.consumeLoop fuel p = .ok (gets, q)) (d : Demuxer κ φ) :
    consumeSource user fuel p d =
      (do return (q, ← deliver user d (gets.map GetRecord.arrival))) := by
  induction fuel generalizing p d gets with
  | zero =>
    unfold Packetizer.consumeLoop at hrun
    unfold consumeSource
    split_ifs at hrun with hdep
    obtain ⟨rfl, rfl⟩ := Prod.mk.inj (Except.ok.inj hrun)
    rw [if_pos hdep]
    rfl
  | succ fuel ih =>
    unfold Packetizer.consumeLoop at hrun
    unfold consumeSource
    by_cases hdep : p.isDepleted = true
    · rw [if_pos hdep] at hrun ⊢
      obtain ⟨rfl, rfl⟩ := Prod.mk.inj (Except.ok.inj hrun)
      rfl
    · rw [if_neg hdep] at hrun ⊢
      obtain ⟨⟨packet, p'⟩, hget, hrest⟩ := bind_eq_ok_iff.mp hrun
      obtain ⟨⟨gets', q'⟩, hloop, hresult⟩ := bind_eq_ok_iff.mp hrest
      obtain ⟨rfl, rfl⟩ := Prod.mk.inj (Except.ok.inj hresult)
      rw [hget, lift_ok, ok_bind, List.map_cons, deliver, List.foldlM_cons, bind_assoc]
      exact bind_congr fun d' => ih hloop d'

theorem toolTurn_eq {p q : Packetizer} {chunk : List UInt8} {t : Turn}
    (hrun : mainTurn p chunk = .ok (t, q)) (d : Demuxer κ φ) :
    toolTurn user p d chunk =
      (do return (q, ← deliver user d (t.gets.map GetRecord.arrival))) := by
  unfold mainTurn at hrun
  unfold toolTurn
  obtain ⟨filled, hfill, hrest⟩ := bind_eq_ok_iff.mp hrun
  obtain ⟨confirmed, hconfirm, hrest⟩ := bind_eq_ok_iff.mp hrest
  obtain ⟨⟨gets, q'⟩, hloop, hresult⟩ := bind_eq_ok_iff.mp hrest
  obtain ⟨rfl, rfl⟩ := Prod.mk.inj (Except.ok.inj hresult)
  rw [hfill, lift_ok, ok_bind, hconfirm, lift_ok, ok_bind]
  exact consumeSource_eq user hloop d

/-- **The tool is the packetizer followed by the demuxer.** -/
theorem toolLoop_eq {p q : Packetizer} {chunks : List (List UInt8)} {turns : List Turn}
    (hrun : mainLoop p chunks = .ok (turns, q)) (d : Demuxer κ φ) :
    toolLoop user p d chunks =
      (do return (q, ← deliver user d ((allGets turns).map GetRecord.arrival))) := by
  induction chunks generalizing p d turns with
  | nil =>
    obtain ⟨rfl, rfl⟩ := Prod.mk.inj (Except.ok.inj hrun)
    rfl
  | cons chunk chunks ih =>
    unfold mainLoop at hrun
    unfold toolLoop
    obtain ⟨⟨t, p'⟩, hturn, hrest⟩ := bind_eq_ok_iff.mp hrun
    obtain ⟨⟨turns', q'⟩, hloop, hresult⟩ := bind_eq_ok_iff.mp hrest
    obtain ⟨rfl, rfl⟩ := Prod.mk.inj (Except.ok.inj hresult)
    rw [toolTurn_eq user hturn, allGets, List.flatMap_cons, List.map_append,
      Demuxer.deliver_append]
    simp only [bind_assoc, pure_bind]
    exact bind_congr fun d' => ih hloop d'

/-! ## Assertions -/

/-- No consumer of the user ends with a failed assertion; those of the program are meant here. -/
def EsUser.AssertFree (user : EsUser κ φ) : Prop :=
  ∀ consumer buffer state, user.onData consumer buffer state ≠ .error (.fault .assertion)

namespace Demuxer

variable {user} (hfree : user.AssertFree)

include hfree

/-- The step lemma: whatever the consumer does with the buffer it is handed, `parser_pes_t::put` has looked
at the stream id before. -/
theorem deliverPacket_assertion_iff (d : Demuxer κ φ) (a : Arrival) :
    deliverPacket user d a = .error (.fault .assertion) ↔ TripsAssertion d a := by
  have hrecord : consumePacket user.toEsFactory d a = .error .assertion ↔ TripsAssertion d a :=
    consumePacket_assertion_iff d a
  rw [deliverPacket_eq_error_iff, ← hrecord]
  constructor
  · rintro (⟨e, heq, hstep⟩ | ⟨c, buffer, -, -, hdata⟩)
    · rw [hstep, Abort.fault.inj heq]
    · exact absurd hdata (hfree _ _ _)
  · exact fun hstep => Or.inl ⟨_, rfl, hstep⟩

/-- The run lemma. -/
theorem deliver_assertion_iff (d : Demuxer κ φ) (arrivals : List Arrival) :
    deliver user d arrivals = .error (.fault .assertion) ↔
      ∃ before a after d', arrivals = before ++ a :: after ∧
        deliver user d before = .ok d' ∧ TripsAssertion d' a := by
  unfold deliver
  rw [Lib.Runs.foldlM_error_iff]
  simp only [deliverPacket_assertion_iff hfree]

end Demuxer

/-- **When the tool fails an assertion.** For every input and every chunking, the packet constructor
accepts each block it is given, and the run fails no assertion exactly if no packet that the demuxer
reaches starts a PES packet with a stream id without an optional header on the PID of an elementary
stream. -/
theorem tool_assertion_iff (hfree : user.AssertFree) {bufferLimit : Nat} (state : φ)
    {chunks : List (List UInt8)} (hfit : ChunksFit (Packetizer.new bufferLimit) chunks) :
    Returns (mainLoop (Packetizer.new bufferLimit) chunks) fun run =>
      tool user bufferLimit state chunks ≠ .error (.fault .assertion) ↔
        ∀ before a after d, (allGets run.1).map GetRecord.arrival = before ++ a :: after →
          deliver user (Demuxer.new state) before = .ok d → ¬ TripsAssertion d a := by
  obtain ⟨turns, q, hrun, -⟩ := Packetizer.mainLoop_spec (Packetizer.wellFormed_new bufferLimit)
    (Packetizer.new_isDepleted bufferLimit) hfit
  rw [hrun, returns_ok]
  have hreturn : ∀ x : Outcome φ (Demuxer κ φ), (do return (q, ← x)) = .error (.fault .assertion) ↔
      x = .error (.fault .assertion) := by
    intro x
    cases x with
    | ok d =>
      constructor
      · intro h
        cases h
      · intro h
        cases h
    | error stop => rw [error_bind, Except.error.injEq, Except.error.injEq]
  unfold tool
  rw [toolLoop_eq user hrun, Ne, hreturn, Demuxer.deliver_assertion_iff hfree]
  constructor
  · intro h before a after d hsplit hbefore htrips
    exact h ⟨before, a, after, d, hsplit, hbefore, htrips⟩
  · rintro h ⟨before, a, after, d, hsplit, hbefore, htrips⟩
    exact h before a after d hsplit hbefore htrips

/-- Consumers that only know their PIDs, and do nothing. -/
def pidUser : EsUser UInt16 Unit where
  create := pidFactory.create
  onData _ _ state := .ok state

theorem pidUser_assertFree : pidUser.AssertFree := by
  intro consumer buffer state h
  cases h

/-- A transport packet that starts a PES packet, with nothing but zeros behind the stream id. -/
def pesBlock (pid streamId : UInt8) : List UInt8 :=
  [0x47, 0x40, pid, 0x10, 0x00, 0x00, 0x01, streamId] ++ List.replicate 180 0x00

/-- The tables that announce PID 0x30 and the start of a PES packet on it, delivered at once. -/
def announcedPes (streamId : UInt8) : List (List UInt8) :=
  [tableBlock 0 (patListing 0 1 0x20) ++ tableBlock 0x20 (pmtListing 2 0x1b 0x30) ++
    pesBlock 0x30 streamId]

/-- A video stream. -/
theorem tool_assertion_announcedPes :
    Returns (mainLoop (Packetizer.new 564) (announcedPes 0xe0)) fun run =>
      tool pidUser 564 () (announcedPes 0xe0) ≠ .error (.fault .assertion) ↔
        ∀ before a after d, (allGets run.1).map GetRecord.arrival = before ++ a :: after →
          deliver pidUser (Demuxer.new ()) before = .ok d → ¬ TripsAssertion d a :=
  tool_assertion_iff pidUser pidUser_assertFree () (by decide +kernel)

/-- Whether a run ends in a given way can be decided without comparing its results. -/
instance decidableAbort {α : Type} [DecidableEq φ] (stop : Abort φ) :
    (x : Outcome φ α) → Decidable (x = .error stop)
  | .ok _ => isFalse fun h => nomatch h
  | .error stop' => decidable_of_iff (stop' = stop) ⟨congrArg _, Except.error.inj⟩

/-- A program_stream_map: the third packet of the file ends the tool. -/
theorem tool_fails_assertion :
    ¬ ∀ (bufferLimit : Nat) (chunks : List (List UInt8)), tsPacketSize ≤ bufferLimit →
      ChunksFit (Packetizer.new bufferLimit) chunks →
        tool pidUser bufferLimit () chunks ≠ .error (.fault .assertion) := by
  intro hclaim
  have hfails : tool pidUser 564 () (announcedPes 0xbc) = .error (.fault .assertion) := by
    decide +kernel
  exact hclaim 564 (announcedPes 0xbc) (by decide) (by decide +kernel) hfails

end Sandstream
