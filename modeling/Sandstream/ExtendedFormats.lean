import Mathlib
import Sandstream.MainLoop

/-! # Sandstream.ExtendedFormats -- packets with extra bytes around them

The tool reads formats that put extra bytes around each packet (four in front in 192-byte packets,
sixteen behind in 204-byte packets) by relying on resynchronisation: the extra bytes are expected to
be skipped on the way to the next sync byte. An extra byte that equals the sync byte is not skipped.
`extendedFormats_iff` says exactly which streams come out intact.
-/

namespace Sandstream

open Sandstream.Lib.Resync

/-- A packet with the extra bytes its format puts around it. -/
abbrev ExtendedPacket := Framed tsSyncByte tsPacketSize

namespace Packetizer

/-- The loop hands out exactly the packets of the stream. -/
def PacketsIntact (fs : List ExtendedPacket) (run : List Turn × Packetizer) : Prop :=
  (allGets run.1).map (fun g => g.before.block) = fs.map Framed.block

instance (fs : List ExtendedPacket) : DecidablePred (PacketsIntact fs) :=
  fun _ => inferInstanceAs (Decidable (_ = _))

/-- **Extended formats.** Whatever extra bytes stand before and after each packet, and however the
stream is cut into chunks, the loop hands out exactly the packets if and only if no extra byte in
front of a packet is taken for its sync byte, a packet that repeats the bytes between the two apart. -/
theorem extendedFormats_iff {capacity : Nat} {fs : List ExtendedPacket}
    {chunks : List (List UInt8)} (hinput : chunks.flatten = framedStream fs)
    (hfit : ChunksFit (new capacity) chunks) :
    Returns (mainLoop (new capacity) chunks) fun run =>
      (PacketsIntact fs run ↔ Undisturbed [] fs) := by
  obtain ⟨turns, final, hrun, hl⟩ :=
    mainLoop_spec (wellFormed_new capacity) (new_isDepleted capacity) hfit
  rw [hrun, returns_ok, PacketsIntact, hl.blocks_eq, unread_new, hinput]
  exact blocks_framedStream_iff [] fs

/-- Streams whose extra bytes avoid the sync byte are read transparently. -/
theorem extendedFormats_of_clean {capacity : Nat} {fs : List ExtendedPacket}
    {chunks : List (List UInt8)} (hinput : chunks.flatten = framedStream fs)
    (hfit : ChunksFit (new capacity) chunks)
    (hclean : ∀ f ∈ fs, tsSyncByte ∉ f.before ∧ tsSyncByte ∉ f.after) :
    Returns (mainLoop (new capacity) chunks) (PacketsIntact fs) := by
  obtain ⟨turns, final, hrun, hl⟩ :=
    mainLoop_spec (wellFormed_new capacity) (new_isDepleted capacity) hfit
  rw [hrun, returns_ok, PacketsIntact, hl.blocks_eq, unread_new, hinput]
  refine (blocks_framedStream_iff [] fs).mpr ?_
  exact undisturbed_of_clean fs (fun f hf => (hclean f hf).1) (fun f hf => (hclean f hf).2)
    List.not_mem_nil

/-- A packet with the given extra bytes around it and zeros inside. -/
def blankPacket (before after : List UInt8) : ExtendedPacket where
  before := before
  block := tsSyncByte :: List.replicate 187 0
  after := after
  block_length := by rw [List.length_cons, List.length_replicate]; rfl
  block_head := rfl

/-- Two packets with the four-byte prefixes of the unit tests. -/
def prefixedPackets : List ExtendedPacket :=
  [blankPacket [0, 1, 2, 3] [], blankPacket [4, 5, 6, 7] []]

theorem extendedFormats_prefixedPackets :
    Returns (mainLoop (new 400) [framedStream prefixedPackets]) fun run =>
      (PacketsIntact prefixedPackets run ↔ Undisturbed [] prefixedPackets) :=
  extendedFormats_iff (by rw [List.flatten_singleton]) (by decide +kernel)

/-- A sync byte among four extra bytes in front, or among sixteen behind, shifts the next block. -/
theorem extendedFormats_false_lock :
    ¬ Returns (mainLoop (new 400) [framedStream [blankPacket [0x47, 1, 2, 3] []]])
        (PacketsIntact [blankPacket [0x47, 1, 2, 3] []]) ∧
      ¬ Returns
        (mainLoop (new 408) [framedStream
          [blankPacket [] (0x47 :: List.replicate 15 0), blankPacket [] (List.replicate 16 0)]])
        (PacketsIntact
          [blankPacket [] (0x47 :: List.replicate 15 0), blankPacket [] (List.replicate 16 0)]) := by
  decide +kernel

end Packetizer

end Sandstream
