import Mathlib
import Sandstream.Packetizer

/-! # Sandstream.MainLoop -- the read loop of the tool

`main` asks the packetizer for space, reads a chunk of the file into it, confirms what was read and
lets `demuxer_t::consume` take packets until the packetizer is depleted. `mainLoop` runs this loop
over a list of chunks and records every state it passes through, so that statements about all
requests, all packets and all reachable states can be made about the record.

The main result is `mainLoop_spec`: the loop never faults, its states satisfy the window invariant,
and the blocks it hands to the packet constructor are those a scanner finds in the whole input.
-/

namespace Sandstream

open Sandstream.Lib.Window
open Sandstream.Lib.Resync

instance : NeZero tsPacketSize := ⟨by decide⟩

/-- The specification of resynchronisation: drop bytes up to the first sync byte, take a block if 188
bytes remain, continue behind it. -/
def scan (input : List UInt8) : List (List UInt8) := blocks tsSyncByte tsPacketSize input

namespace Packetizer

/-! ## The loop -/

/-- One `get` of the loop in `demuxer_t::consume`, with the states around it. -/
structure GetRecord where
  before : Packetizer
  packet : TsPacket
  after : Packetizer
  deriving Repr

/-- The loop of `demuxer_t::consume`, as far as the packetizer takes part in it. -/
def consumeLoop : Nat → Packetizer → Exec (List GetRecord × Packetizer)
  | 0, p => if p.isDepleted then .ok ([], p) else .error .outOfFuel
  | fuel + 1, p => do
    if p.isDepleted then
      return ([], p)
    else
      let (packet, q) ← p.get
      let (records, r) ← consumeLoop fuel q
      return (⟨p, packet, q⟩ :: records, r)

/-- One turn of the loop in `main`, with the states it passes through. -/
structure Turn where
  requested : Packetizer
  chunk : List UInt8
  filled : Packetizer
  confirmed : Packetizer
  gets : List GetRecord
  deriving Repr

/-- One turn of the loop in `main`: `chunk` is what `source.read` delivers. -/
def mainTurn (p : Packetizer) (chunk : List UInt8) : Exec (Turn × Packetizer) := do
  let filled ← p.fill chunk
  let confirmed ← filled.confirm ⟨p.request.data, chunk.length⟩
  let (gets, q) ← consumeLoop confirmed.inputBuffer.size confirmed
  return (⟨p, chunk, filled, confirmed, gets⟩, q)

/-- The loop in `main`. -/
def mainLoop (p : Packetizer) : List (List UInt8) → Exec (List Turn × Packetizer)
  | [] => .ok ([], p)
  | chunk :: chunks => do
    let (turn, q) ← mainTurn p chunk
    let (turns, r) ← mainLoop q chunks
    return (turn :: turns, r)

/-- Every chunk is no longer than the region requested for it. -/
def ChunksFit (p : Packetizer) : List (List UInt8) → Prop
  | [] => True
  | chunk :: chunks =>
    chunk.length ≤ p.request.size ∧ IfReturns (mainTurn p chunk) fun r => ChunksFit r.2 chunks

instance decidableChunksFit : (p : Packetizer) → (chunks : List (List UInt8)) →
    Decidable (ChunksFit p chunks)
  | _, [] => isTrue trivial
  | p, chunk :: chunks => by
    have := fun q => decidableChunksFit q chunks
    unfold ChunksFit
    infer_instance

/-- All packets taken in a run, in order. -/
def allGets (turns : List Turn) : List GetRecord := turns.flatMap Turn.gets

/-- The states a turn passes through. -/
def Turn.states (t : Turn) : List Packetizer :=
  t.requested :: t.filled :: t.confirmed :: t.gets.map GetRecord.after

/-! ## One packet -/

/-- The record of a `get` on a well-formed state that holds a packet. -/
def getRecord (p : Packetizer) : GetRecord :=
  ⟨p, packetAt p.block p.inputBuffer.data, p.advanced.synced⟩

@[simp] theorem getRecord_before (p : Packetizer) : p.getRecord.before = p := rfl

@[simp] theorem getRecord_after (p : Packetizer) : p.getRecord.after = p.advanced.synced := rfl

@[simp] theorem getRecord_packet (p : Packetizer) :
    p.getRecord.packet = packetAt p.block p.inputBuffer.data := rfl

/-- What is known of each `get` of the loop. -/
structure GetRecord.Sound (g : GetRecord) : Prop where
  wellFormed : g.before.WellFormed
  full : tsPacketSize ≤ g.before.inputBuffer.size
  eq_getRecord : g = g.before.getRecord

theorem GetRecord.Sound.after_eq {g : GetRecord} (hg : g.Sound) :
    g.after = g.before.advanced.synced := by
  conv_lhs => rw [hg.eq_getRecord, getRecord_after]

theorem GetRecord.Sound.packet_eq {g : GetRecord} (hg : g.Sound) :
    g.packet = packetAt g.before.block g.before.inputBuffer.data := by
  conv_lhs => rw [hg.eq_getRecord, getRecord_packet]

theorem GetRecord.Sound.after_wellFormed {g : GetRecord} (hg : g.Sound) : g.after.WellFormed := by
  rw [hg.after_eq]
  exact wellFormed_get hg.wellFormed hg.full

/-! ## `consumeLoop` -/

/-- What emptying `p` of its packets amounts to: `gets` are the packets taken, `q` is the state left. -/
structure Drained (p : Packetizer) (gets : List GetRecord) (q : Packetizer) : Prop where
  wellFormed : q.WellFormed
  depleted : q.isDepleted = true
  storage_length : q.dataStorage.length = p.dataStorage.length
  unread_eq : q.unread = residue tsSyncByte tsPacketSize p.unread
  sound : ∀ g ∈ gets, g.Sound
  blocks_eq : gets.map (fun g => g.before.block) = scan p.unread

section Drain

variable {p : Packetizer} (h : p.WellFormed)

include h

theorem rest_eq_unread : dropToSync tsSyncByte p.unread = p.unread :=
  dropToSync_of_synced _ h.startsInSync

theorem Drained.nil (hdep : p.isDepleted = true) : Drained p [] p := by
  have hlt : (dropToSync tsSyncByte p.unread).length < tsPacketSize := by
    rw [rest_eq_unread h, unread_length h.inside]
    exact isDepleted_iff.mp hdep
  refine ⟨h, hdep, rfl, ?_, by simp, ?_⟩
  · rw [residue_of_lt _ hlt, rest_eq_unread h]
  · rw [scan, blocks_of_lt _ hlt, List.map_nil]

theorem Drained.cons (hfull : tsPacketSize ≤ p.inputBuffer.size) {gets : List GetRecord}
    {q : Packetizer} (hrest : Drained p.advanced.synced gets q) :
    Drained p (p.getRecord :: gets) q := by
  have hle : tsPacketSize ≤ (dropToSync tsSyncByte p.unread).length := by
    rw [rest_eq_unread h, unread_length h.inside]
    exact hfull
  refine ⟨hrest.wellFormed, hrest.depleted, ?_, ?_, ?_, ?_⟩
  · rw [hrest.storage_length, synced_storage_length (advanced_inside h hfull)]
    rfl
  · rw [hrest.unread_eq, get_unread h hfull, residue_dropToSync, residue_of_le _ hle,
      rest_eq_unread h]
  · intro g hg
    rcases List.mem_cons.mp hg with rfl | hg
    · exact ⟨by simpa using h, by simpa using hfull, rfl⟩
    · exact hrest.sound g hg
  · rw [List.map_cons, hrest.blocks_eq, get_unread h hfull, scan, blocks_dropToSync, scan,
      blocks_of_le _ hle, rest_eq_unread h]
    exact congrArg (· :: _) (block_eq_take hfull)

end Drain

/-- The loop takes the blocks of the unread bytes and stops, depleted, at their residue. -/
theorem consumeLoop_spec {p : Packetizer} (h : p.WellFormed) {fuel : Nat}
    (hfuel : p.inputBuffer.size ≤ fuel) :
    ∃ gets q, consumeLoop fuel p = .ok (gets, q) ∧ Drained p gets q := by
  -- each `get` shortens the window by a packet, so its size bounds the turns
  induction fuel generalizing p with
  | zero =>
    have hdep : p.isDepleted = true := isDepleted_iff.mpr (by simp only [tsPacketSize]; omega)
    exact ⟨[], p, if_pos hdep, Drained.nil h hdep⟩
  | succ fuel ih =>
    by_cases hdep : p.isDepleted = true
    · exact ⟨[], p, if_pos hdep, Drained.nil h hdep⟩
    · have hfull : tsPacketSize ≤ p.inputBuffer.size :=
        not_isDepleted_iff.mp (Bool.eq_false_iff.mpr hdep)
      have hsize : p.advanced.synced.inputBuffer.size ≤ fuel := by
        have hrest := rest_length_le (advanced_inside h hfull)
        rw [← synced_size] at hrest
        simp only [advanced, tsPacketSize] at hrest hfull ⊢
        omega
      obtain ⟨gets, q, hrun, hq⟩ := ih (wellFormed_get h hfull) hsize
      refine ⟨p.getRecord :: gets, q, ?_, hq.cons h hfull⟩
      rw [consumeLoop, if_neg hdep, get_eq h hfull, ok_bind]
      simp only [hrun, ok_bind]
      rfl

/-! ## One turn of `main` -/

section Turn

variable {p : Packetizer} (h : p.WellFormed) (hdep : p.isDepleted = true)

include h hdep

/-- Between turns the window is at the front of the storage. -/
theorem front_of_depleted : p.inputBuffer.data = 0 := h.atFront (isDepleted_iff.mp hdep)

/-- Writing the chunk does not disturb the window. -/
theorem wellFormed_filled {chunk : List UInt8} (hfits : chunk.length ≤ p.request.size) :
    ({ p with dataStorage := overwrite p.dataStorage p.inputBuffer.size chunk } :
      Packetizer).WellFormed := by
  have hle := filled_le h.inside hfits
  have hlen := overwrite_length hle
  have hfront := front_of_depleted h hdep
  have hunread : window (overwrite p.dataStorage p.inputBuffer.size chunk) p.inputBuffer.data
      p.inputBuffer.size = p.unread :=
    window_overwrite_disjoint hle (Or.inl (by omega))
  refine ⟨?_, ?_, h.atFront⟩
  · have hin := h.inside
    simp only [ConstBuffer.ValidIn] at hin ⊢
    omega
  · change Synced tsSyncByte (window _ _ _)
    rw [hunread]
    exact h.startsInSync

end Turn

/-- What one turn on `p` amounts to: `t` is its record, `q` is the state it leaves. -/
structure Turned (p : Packetizer) (chunk : List UInt8) (t : Turn) (q : Packetizer) : Prop where
  requested_eq : t.requested = p
  states : ∀ r ∈ t.states, r.WellFormed
  drained : Drained (p.appended chunk).synced t.gets q
  storage_length : q.dataStorage.length = p.dataStorage.length
  unread_eq : q.unread = residue tsSyncByte tsPacketSize (p.unread ++ chunk)
  blocks_eq : t.gets.map (fun g => g.before.block) = scan (p.unread ++ chunk)

/-- The turn lemma: on a depleted packetizer a chunk that fits is read to its last complete block. -/
theorem mainTurn_spec {p : Packetizer} (h : p.WellFormed) (hdep : p.isDepleted = true)
    {chunk : List UInt8} (hfits : chunk.length ≤ p.request.size) :
    ∃ t q, mainTurn p chunk = .ok (t, q) ∧ Turned p chunk t q := by
  have hfront := front_of_depleted h hdep
  have hinside := appended_inside_of_front h.inside hfits hfront
  have hconfirm : ({ p with dataStorage := overwrite p.dataStorage p.inputBuffer.size chunk } :
      Packetizer).confirm ⟨p.request.data, chunk.length⟩ = .ok (p.appended chunk).synced :=
    sync_eq hinside
  have hunread : (p.appended chunk).synced.unread = dropToSync tsSyncByte (p.unread ++ chunk) := by
    rw [synced_unread hinside, appended_unread_of_front h.inside hfits hfront]
  have hconf := wellFormed_synced hinside
  -- the model's fuel is the size of the window, which is all the loop needs
  obtain ⟨gets, q, hrun, hq⟩ := consumeLoop_spec hconf le_rfl
  refine ⟨⟨p, chunk, { p with dataStorage := overwrite p.dataStorage p.inputBuffer.size chunk },
    (p.appended chunk).synced, gets⟩, q, ?_, rfl, ?_, hq, ?_, ?_, ?_⟩
  · rw [mainTurn, fill_eq hfits, ok_bind, hconfirm, ok_bind, hrun]
    rfl
  · intro r hr
    simp only [Turn.states, List.mem_cons, List.mem_map] at hr
    rcases hr with rfl | rfl | rfl | ⟨g, hg, rfl⟩
    · exact h
    · exact wellFormed_filled h hdep hfits
    · exact hconf
    · exact (hq.sound g hg).after_wellFormed
  · rw [hq.storage_length, synced_storage_length hinside, appended_storage_length h.inside hfits]
  · rw [hq.unread_eq, hunread, residue_dropToSync]
  · rw [hq.blocks_eq, hunread, scan, blocks_dropToSync]
    rfl

/-! ## The whole run -/

/-- What a run from `p` over `chunks` amounts to. -/
structure Looped (p : Packetizer) (chunks : List (List UInt8)) (turns : List Turn)
    (q : Packetizer) : Prop where
  wellFormed : q.WellFormed
  depleted : q.isDepleted = true
  requested : ∀ t ∈ turns, t.requested.WellFormed ∧ t.requested.isDepleted = true ∧
    t.requested.dataStorage.length = p.dataStorage.length
  states : ∀ t ∈ turns, ∀ r ∈ t.states, r.WellFormed
  sound : ∀ g ∈ allGets turns, g.Sound
  unread_eq : q.unread = residue tsSyncByte tsPacketSize (p.unread ++ chunks.flatten)
  blocks_eq : (allGets turns).map (fun g => g.before.block) = scan (p.unread ++ chunks.flatten)

/-- **The run lemma.** From a depleted packetizer the loop runs through all chunks without a fault,
and takes the blocks of the unread bytes and all chunks together. -/
theorem mainLoop_spec {p : Packetizer} (h : p.WellFormed) (hdep : p.isDepleted = true)
    {chunks : List (List UInt8)} (hfit : ChunksFit p chunks) :
    ∃ turns q, mainLoop p chunks = .ok (turns, q) ∧ Looped p chunks turns q := by
  induction chunks generalizing p with
  | nil =>
    have hd := Drained.nil h hdep
    refine ⟨[], p, rfl, h, hdep, by simp, by simp, by simp [allGets], ?_, ?_⟩
    · simpa using hd.unread_eq
    · simpa [allGets] using hd.blocks_eq
  | cons chunk chunks ih =>
    obtain ⟨hfits, hrest⟩ := hfit
    -- a turn ends depleted, with the residue of what was read: the next one goes on from there
    obtain ⟨t, q, hturn, ht⟩ := mainTurn_spec h hdep hfits
    rw [hturn, ifReturns_ok] at hrest
    obtain ⟨turns, r, hrun, hr⟩ := ih ht.drained.wellFormed ht.drained.depleted hrest
    have hsplit : p.unread ++ (chunk :: chunks).flatten =
        (p.unread ++ chunk) ++ chunks.flatten := by
      rw [List.flatten_cons, List.append_assoc]
    refine ⟨t :: turns, r, ?_, hr.wellFormed, hr.depleted, ?_, ?_, ?_, ?_, ?_⟩
    · rw [mainLoop, hturn, ok_bind]
      simp only [hrun, ok_bind]
      rfl
    · intro u hu
      rcases List.mem_cons.mp hu with rfl | hu
      · rw [ht.requested_eq]
        exact ⟨h, hdep, rfl⟩
      · obtain ⟨hwf, hd, hlen⟩ := hr.requested u hu
        exact ⟨hwf, hd, hlen.trans ht.storage_length⟩
    · intro u hu
      rcases List.mem_cons.mp hu with rfl | hu
      · exact ht.states
      · exact hr.states u hu
    · intro g hg
      rw [allGets, List.flatMap_cons, List.mem_append] at hg
      rcases hg with hg | hg
      · exact ht.drained.sound g hg
      · exact hr.sound g hg
    · rw [hr.unread_eq, ht.unread_eq, hsplit, residue_append _ (p.unread ++ chunk)]
    · rw [allGets, List.flatMap_cons, List.map_append, ht.blocks_eq, ← allGets, hr.blocks_eq,
        ht.unread_eq, hsplit, scan, scan, scan, blocks_append _ (p.unread ++ chunk)]

/-- The request of a depleted packetizer that has room for a packet: a non-empty region inside the
storage that begins where the unread bytes end. -/
theorem request_of_depleted {p : Packetizer} (h : p.WellFormed) (hdep : p.isDepleted = true)
    (hcap : tsPacketSize ≤ p.dataStorage.length) :
    0 < p.request.size ∧ p.request.data + p.request.size ≤ p.dataStorage.length ∧
      p.request.data = p.inputBuffer.data + p.inputBuffer.size := by
  have hlt := isDepleted_iff.mp hdep
  have hfront := front_of_depleted h hdep
  have hsize := request_size h.inside
  have hdata : p.request.data = p.inputBuffer.size := rfl
  omega

theorem new_isDepleted (capacity : Nat) : (new capacity).isDepleted = true := rfl

theorem new_storage_length (capacity : Nat) : (new capacity).dataStorage.length = capacity :=
  List.length_replicate

/-- **Chunking does not matter to resynchronisation, and the buffer stays sound.** For every capacity
of at least one packet and every delivery of the input in chunks that fit, the loop runs to the end,
every state it passes through satisfies the window invariant, every request is answered with a
non-empty region right behind the unread bytes, every block given to the packet constructor is
accepted, and the blocks are exactly those of the whole input. -/
theorem mainLoop_resynchronises {capacity : Nat} (hcap : tsPacketSize ≤ capacity)
    {chunks : List (List UInt8)} (hfit : ChunksFit (new capacity) chunks) :
    Returns (mainLoop (new capacity) chunks) fun (turns, final) =>
      final.WellFormed ∧
      (∀ t ∈ turns, ∀ p ∈ t.states, p.WellFormed) ∧
      (∀ t ∈ turns, 0 < t.requested.request.size ∧
        t.requested.request.data + t.requested.request.size ≤ t.requested.dataStorage.length ∧
        t.requested.request.data =
          t.requested.inputBuffer.data + t.requested.inputBuffer.size) ∧
      (∀ g ∈ allGets turns, g.before.block.length = tsPacketSize ∧
        g.before.block.head? = some tsSyncByte ∧
        TsPacket.ofBytes g.before.dataStorage g.before.inputBuffer.data tsPacketSize =
          .ok g.packet) ∧
      (allGets turns).map (fun g => g.before.block) = scan chunks.flatten := by
  obtain ⟨turns, final, hrun, hl⟩ :=
    mainLoop_spec (wellFormed_new capacity) (new_isDepleted capacity) hfit
  rw [hrun, returns_ok]
  refine ⟨hl.wellFormed, hl.states, ?_, ?_, ?_⟩
  · intro t ht
    obtain ⟨hwf, hdep, hlen⟩ := hl.requested t ht
    exact request_of_depleted hwf hdep (by rwa [hlen, new_storage_length])
  · intro g hg
    have hs := hl.sound g hg
    have hin := hs.wellFormed.inside
    have hfull := hs.full
    simp only [ConstBuffer.ValidIn] at hin
    refine ⟨block_length hs.wellFormed hs.full, ?_, ?_⟩
    · rw [block, window_head? (by decide)]
      exact front_sync hs.wellFormed hs.full
    · rw [TsPacket.ofBytes_eq (by omega) (front_sync hs.wellFormed hs.full), hs.packet_eq]
      rfl
  · simpa using hl.blocks_eq

/-- Garbage, a packet cut behind its sync byte, and the beginning of another packet. -/
def splitDelivery : List (List UInt8) :=
  [[1, 2, 0x47], List.replicate 187 0 ++ [0x47, 5], []]

theorem mainLoop_splitDelivery :
    Returns (mainLoop (new 200) splitDelivery) fun run =>
      (allGets run.1).map (fun g => g.before.block) = scan splitDelivery.flatten :=
  (mainLoop_resynchronises (by decide) (by decide +kernel)).mono fun _ h => h.2.2.2.2

end Packetizer

end Sandstream
