import Mathlib
import Sandstream.MainLoop

/-! # Sandstream.ZeroCopy -- does a packet survive the `get` that returns it?

`get` parses a packet in place and then lets `sync` move the bytes that follow it to the front of the
same storage. The packet keeps pointing at its old place. `zeroCopy_iff` says for every packet of
every run when the payload it points at is still the payload that was parsed.
-/

namespace Sandstream

open Sandstream.Lib.Window
open Sandstream.Lib.Resync (dropToSync)

namespace Packetizer

/-- The payload range of a block. -/
def parsedPayload (block : List UInt8) : List UInt8 :=
  block.drop (4 + adaptationFieldSkipSize block)

/-- The bytes `sync` keeps when the front packet is taken. -/
def leftover (p : Packetizer) : List UInt8 :=
  dropToSync tsSyncByte (p.unread.drop tsPacketSize)

/-- After `get` has returned, the packet's view still shows the payload that was parsed. -/
def ViewIntact (g : GetRecord) : Prop :=
  g.packet.payload.bytes g.after.dataStorage = parsedPayload g.before.block

/-- Taking the front packet does not move other bytes over its payload: at least a packet is left over
and nothing is moved, or each byte that is moved to an address of the payload equals the one there. In
particular this holds when the leftover is no longer than the address of the payload. -/
def ViewSafe (p : Packetizer) : Prop :=
  tsPacketSize ≤ p.leftover.length ∨
    ∀ i, i < p.leftover.length → p.inputBuffer.data + 4 + adaptationFieldSkipSize p.block ≤ i →
      p.leftover[i]? = p.dataStorage[i]?

instance (g : GetRecord) : Decidable (ViewIntact g) := inferInstanceAs (Decidable (_ = _))

/-- The view shows the payload as long as the storage is the one that was parsed. -/
theorem bytes_packetAt {p : Packetizer} (hfits : AdaptationFieldFits p.block) :
    (packetAt p.block p.inputBuffer.data).payload.bytes p.dataStorage = parsedPayload p.block := by
  have hsize : sizeSub (tsPacketSize - 4) (adaptationFieldSkipSize p.block) =
      tsPacketSize - (4 + adaptationFieldSkipSize p.block) := by
    rw [sizeSub_of_le hfits, Nat.sub_add_eq]
  rw [parsedPayload, packetAt, ConstBuffer.bytes, hsize, Nat.add_assoc]
  exact (window_drop _ _ _ _).symm

/-- The step lemma: one `get` on a well-formed state. -/
theorem viewIntact_iff {g : GetRecord} (hg : g.Sound) (hfits : AdaptationFieldFits g.before.block) :
    ViewIntact g ↔ ViewSafe g.before := by
  set p := g.before with hp
  have hinside := advanced_inside hg.wellFormed hg.full
  have hrest : dropToSync tsSyncByte p.advanced.unread = p.leftover := by
    rw [advanced_unread, leftover]
  rw [ViewIntact, hg.packet_eq, hg.after_eq, ← hp, ← bytes_packetAt hfits]
  by_cases hlong : tsPacketSize ≤ p.leftover.length
  · -- another packet is complete: the storage stays as it is
    rw [synced_of_le (by rwa [hrest])]
    exact iff_of_true rfl (Or.inl hlong)
  · rw [synced_of_lt (by rw [hrest]; omega), hrest]
    have hle : p.leftover.length ≤ p.advanced.inputBuffer.size := hrest ▸ rest_length_le hinside
    have hin : p.advanced.inputBuffer.data + p.advanced.inputBuffer.size ≤
      p.advanced.dataStorage.length := hinside
    refine (window_overwrite_eq_iff (by omega)).trans ?_
    rw [ViewSafe, or_iff_right hlong]
    simp only [Nat.zero_add, packetAt, sizeSub_of_le hfits]
    refine forall_congr' fun i => imp_congr_right fun hi => imp_congr_right fun hlo => ?_
    -- the moved bytes are fewer than a packet, so they end before the payload does
    have hend : i < p.inputBuffer.data + 4 + adaptationFieldSkipSize p.block +
        (tsPacketSize - 4 - adaptationFieldSkipSize p.block) := by
      simp only [AdaptationFieldFits] at hfits
      omega
    exact ⟨fun h => h hend, fun h _ => h⟩

/-- **Zero-copy views.** In every run of the loop, for every packet whose adaptation field fits in its
block: the view it carries shows the parsed payload after `get` has returned if and only if the bytes
left behind it were not moved over that payload. -/
theorem zeroCopy_iff {capacity : Nat} {chunks : List (List UInt8)}
    (hfit : ChunksFit (new capacity) chunks) :
    Returns (mainLoop (new capacity) chunks) fun run =>
      ∀ g ∈ allGets run.1, AdaptationFieldFits g.before.block →
        (ViewIntact g ↔ ViewSafe g.before) := by
  obtain ⟨turns, final, hrun, hl⟩ :=
    mainLoop_spec (wellFormed_new capacity) (new_isDepleted capacity) hfit
  rw [hrun, returns_ok]
  intro g hg hfits
  exact viewIntact_iff (hl.sound g hg) hfits

/-- A packet with payload bytes 1, followed by the first six bytes of another one. -/
def packetAndRemainder : List UInt8 :=
  [0x47, 0x00, 0x21, 0x10] ++ List.replicate 184 1 ++ [0x47, 2, 2, 2, 2, 2]

theorem zeroCopy_packetAndRemainder :
    Returns (mainLoop (new 200) [packetAndRemainder]) fun run =>
      ∀ g ∈ allGets run.1, AdaptationFieldFits g.before.block →
        (ViewIntact g ↔ ViewSafe g.before) :=
  zeroCopy_iff (by decide +kernel)

/-- Read as one chunk, the six bytes are moved onto the packet that `get` returns: its payload then
begins with two of them. -/
theorem zeroCopy_overwritten :
    ChunksFit (new 200) [packetAndRemainder] ∧
      ¬ Returns (mainLoop (new 200) [packetAndRemainder]) fun run =>
        ∀ g ∈ allGets run.1, AdaptationFieldFits g.before.block → ViewIntact g := by
  decide +kernel

end Packetizer

end Sandstream
