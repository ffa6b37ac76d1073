import Mathlib
import Sandstream.MainLoop

/-! # Sandstream.Reader -- the chunks in which a file is read

The loop in `main` asks the packetizer for room, reads as much of the file as fits, and goes on until a
read comes back short. How much room there is depends on what the packetizer has left over from the
turn before, so the chunks of a file depend on its contents. `ReadBy` says which they are.

`exists_readBy` and `ReadBy.turns_le` say that every file is read to its end, and in how many turns.
-/

namespace Sandstream

namespace Packetizer

/-- `ReadBy p content chunks`: from `p` on, the loop in `main` reads the rest `content` of its file in the
chunks `chunks`. A read that is not short fills the requested region, and the loop goes on. -/
inductive ReadBy : Packetizer → List UInt8 → List (List UInt8) → Prop where
  | last {p : Packetizer} {content : List UInt8} :
      content.length < p.request.size → ReadBy p content [content]
  | full {p q : Packetizer} {content : List UInt8} {t : Turn} {chunks : List (List UInt8)} :
      p.request.size ≤ content.length → mainTurn p (content.take p.request.size) = .ok (t, q) →
      ReadBy q (content.drop p.request.size) chunks →
      ReadBy p content (content.take p.request.size :: chunks)

section ReadBy

variable {p : Packetizer} {content : List UInt8} {chunks : List (List UInt8)}

theorem ReadBy.flatten_eq (h : ReadBy p content chunks) : chunks.flatten = content := by
  induction h with
  | last hshort => rw [List.flatten_singleton]
  | full hlong hturn hrest ih => rw [List.flatten_cons, ih, List.take_append_drop]

theorem ReadBy.chunksFit (h : ReadBy p content chunks) : ChunksFit p chunks := by
  induction h with
  | last hshort =>
    refine ⟨hshort.le, ?_⟩
    cases mainTurn _ _ with
    | error e => exact ifReturns_error.mpr trivial
    | ok r => exact ifReturns_ok.mpr trivial
  | full hlong hturn hrest ih =>
    refine ⟨List.length_take_le _ _, ?_⟩
    rw [hturn]
    exact ifReturns_ok.mpr ih

/-- After a turn there is room for a packet again, but for the bytes of an incomplete one. -/
theorem request_size_of_depleted (h : p.WellFormed) (hdep : p.isDepleted = true) :
    p.dataStorage.length < p.request.size + tsPacketSize := by
  have hlt := isDepleted_iff.mp hdep
  have hsize := request_size h.inside
  omega

/-- Every file is read to its end. -/
theorem exists_readBy (h : p.WellFormed) (hdep : p.isDepleted = true)
    (hcap : tsPacketSize ≤ p.dataStorage.length) (content : List UInt8) :
    ∃ chunks, ReadBy p content chunks := by
  -- each full read takes at least one byte of the rest
  induction hn : content.length using Nat.strongRecOn generalizing p content with
  | ind n ih =>
    subst hn
    by_cases hshort : content.length < p.request.size
    · exact ⟨[content], .last hshort⟩
    · have hlong : p.request.size ≤ content.length := Nat.not_lt.mp hshort
      have hroom := (request_of_depleted h hdep hcap).1
      have hfits : (content.take p.request.size).length ≤ p.request.size := List.length_take_le _ _
      obtain ⟨t, q, hturn, ht⟩ := mainTurn_spec h hdep hfits
      have hless : (content.drop p.request.size).length < content.length := by
        rw [List.length_drop]
        omega
      have hcap' : tsPacketSize ≤ q.dataStorage.length := by rwa [ht.storage_length]
      obtain ⟨chunks, hchunks⟩ :=
        ih _ hless ht.drained.wellFormed ht.drained.depleted hcap' (content.drop p.request.size) rfl
      exact ⟨_, .full hlong hturn hchunks⟩

/-- All reads but the last fill the storage up, so there are not many. -/
theorem ReadBy.turns_le (hread : ReadBy p content chunks) (h : p.WellFormed)
    (hdep : p.isDepleted = true) :
    (chunks.length - 1) * (p.dataStorage.length + 1 - tsPacketSize) ≤ content.length := by
  induction hread with
  | last hshort => simp
  | @full p q content t chunks hlong hturn hrest ih =>
    have hfits : (content.take p.request.size).length ≤ p.request.size := List.length_take_le _ _
    obtain ⟨t', q', hturn', ht⟩ := mainTurn_spec h hdep hfits
    rw [hturn, Except.ok.injEq, Prod.mk.injEq] at hturn'
    obtain ⟨rfl, rfl⟩ := hturn'
    have hlater := ih ht.drained.wellFormed ht.drained.depleted
    have hroom := request_size_of_depleted h hdep
    rw [ht.storage_length, List.length_drop] at hlater
    have hpos : 0 < chunks.length := by
      cases hrest with
      | last => exact Nat.one_pos
      | full => exact Nat.succ_pos _
    set room := p.dataStorage.length + 1 - tsPacketSize with hroomdef
    have hle : room ≤ p.request.size := by omega
    have hcount : ((content.take p.request.size :: chunks).length - 1) * room =
        (chunks.length - 1) * room + room := by
      rw [List.length_cons, Nat.add_sub_cancel, ← Nat.succ_mul, Nat.succ_eq_add_one,
        Nat.sub_add_cancel hpos]
    rw [hcount]
    omega

end ReadBy

end Packetizer

end Sandstream
