import Mathlib
import Sandstream.ExtendedFormats
import Sandstream.Lib.Gaps
import Sandstream.Reader
import Sandstream.Tool
import Sandstream.TsFrame
import Sandstream.ZeroCopy

/-! # Sandstream.Intact -- which packets reach the demuxer as they are in the file

`get` hands out a view of the storage and may then move bytes over it (`Sandstream.ZeroCopy`). Whether it
does depends on where the packet stands, and that on the chunks in which the file is read. Here the
chunks are those of the loop in `main`.

`damaged_le_turns` bounds the damage in any file: at most one packet for each read. `intact_of_gaps` says
which files suffer none.
-/

namespace Sandstream

open Sandstream.Lib.Window
open Sandstream.Lib.Resync

namespace Packetizer

/-! ## One packet -/

/-- When `get` has returned, the block of its packet still stands where it was parsed. -/
def GetRecord.Kept (g : GetRecord) : Prop :=
  window g.after.dataStorage g.before.inputBuffer.data tsPacketSize = g.before.block

instance (g : GetRecord) : Decidable g.Kept := inferInstanceAs (Decidable (_ = _))

section Get

variable {g : GetRecord} (hg : g.Sound)

include hg

/-- What is left over is not moved over the packet if it is a packet itself, or short enough. -/
theorem kept_of_leftover (h : tsPacketSize ≤ g.before.leftover.length ∨
    g.before.leftover.length ≤ g.before.inputBuffer.data) : g.Kept := by
  have hinside := advanced_inside hg.wellFormed hg.full
  have hrest : dropToSync tsSyncByte g.before.advanced.unread = g.before.leftover := by
    rw [advanced_unread, leftover]
  unfold GetRecord.Kept
  rw [hg.after_eq]
  by_cases hlong : tsPacketSize ≤ g.before.leftover.length
  · rw [synced_of_le (by rwa [hrest])]
    rfl
  · rw [synced_of_lt (by rw [hrest]; omega), hrest]
    have hshort : g.before.leftover.length ≤ g.before.inputBuffer.data := h.resolve_left hlong
    have hin := hg.wellFormed.inside
    have hfull := hg.full
    simp only [ConstBuffer.ValidIn] at hin
    apply window_overwrite_disjoint
    · show 0 + g.before.leftover.length ≤ g.before.dataStorage.length
      omega
    · right
      rw [Nat.zero_add]
      exact hshort

/-- A packet that is kept reaches the demuxer as it is in the input. -/
theorem isOfBlock_of_kept (hkept : g.Kept) : (GetRecord.arrival g).IsOfBlock g.before.block := by
  have hlength := block_length hg.wellFormed hg.full
  refine ⟨g.before.inputBuffer.data, hkept, ?_⟩
  have hin : g.before.inputBuffer.data + tsPacketSize ≤ g.after.dataStorage.length := by
    have hwindow := congrArg List.length hkept
    rw [hlength, window, List.length_take, List.length_drop] at hwindow
    have : 0 < tsPacketSize := by decide
    omega
  have hsync : g.after.dataStorage[g.before.inputBuffer.data]? = some tsSyncByte := by
    have hhead : (window g.after.dataStorage g.before.inputBuffer.data tsPacketSize).head? =
        g.after.dataStorage[g.before.inputBuffer.data]? := window_head? (by decide)
    rw [← hhead, hkept, block, window_head? (by decide)]
    exact front_sync hg.wellFormed hg.full
  show TsPacket.ofBytes g.after.dataStorage g.before.inputBuffer.data tsPacketSize = .ok g.packet
  rw [TsPacket.ofBytes_eq hin hsync, hkept, hg.packet_eq]

end Get

/-! ## One turn -/

/-- Where a packet stands among those of its turn, which began at `p` and ended at `q`. -/
structure GetRecord.Placed (p q : Packetizer) (bound : Nat) (rest : List UInt8) (g : GetRecord)
    (after : List GetRecord) : Prop where
  ends_eq : g.before.inputBuffer.data + g.before.inputBuffer.size =
    p.inputBuffer.data + p.inputBuffer.size
  gaps : GapsLe tsSyncByte tsPacketSize bound (g.before.unread ++ rest)
  another : after ≠ [] → tsPacketSize ≤ g.before.leftover.length
  last : after = [] → g.before.leftover = q.unread

section Loop

variable {p q : Packetizer} {bound : Nat} {rest : List UInt8}

theorem gapsLe_get (h : p.WellFormed) (hfull : tsPacketSize ≤ p.inputBuffer.size)
    (hgaps : GapsLe tsSyncByte tsPacketSize bound (p.unread ++ rest)) :
    GapsLe tsSyncByte tsPacketSize bound (p.unread.drop tsPacketSize ++ rest) := by
  have hle : tsPacketSize ≤ (dropToSync tsSyncByte p.unread).length := by
    rw [rest_eq_unread h, unread_length h.inside]
    exact hfull
  have hbehind := hgaps.behind hle
  rwa [rest_eq_unread h] at hbehind

/-- The loop stops on a depleted packetizer, and takes the front packet of any other. -/
theorem consumeLoop_cases (h : p.WellFormed) {fuel : Nat} {gets : List GetRecord}
    (hrun : consumeLoop fuel p = .ok (gets, q)) :
    (p.inputBuffer.size < tsPacketSize ∧ gets = [] ∧ q = p) ∨
      tsPacketSize ≤ p.inputBuffer.size ∧ ∃ fuel' gets', fuel = fuel' + 1 ∧
        gets = p.getRecord :: gets' ∧ consumeLoop fuel' p.advanced.synced = .ok (gets', q) := by
  by_cases hdep : p.isDepleted = true
  · left
    have hnil : consumeLoop fuel p = .ok ([], p) := by
      cases fuel <;> exact if_pos hdep
    rw [hnil] at hrun
    obtain ⟨rfl, rfl⟩ := Prod.mk.inj (Except.ok.inj hrun)
    exact ⟨isDepleted_iff.mp hdep, rfl, rfl⟩
  · right
    have hfull : tsPacketSize ≤ p.inputBuffer.size :=
      not_isDepleted_iff.mp (Bool.eq_false_iff.mpr hdep)
    refine ⟨hfull, ?_⟩
    cases fuel with
    | zero =>
      unfold consumeLoop at hrun
      rw [if_neg hdep] at hrun
      exact absurd hrun (by simp)
    | succ fuel =>
      unfold consumeLoop at hrun
      rw [if_neg hdep, get_eq h hfull, ok_bind] at hrun
      obtain ⟨⟨gets', q'⟩, hloop, hresult⟩ := bind_eq_ok_iff.mp hrun
      obtain ⟨rfl, rfl⟩ := Prod.mk.inj (Except.ok.inj hresult)
      exact ⟨fuel, gets', rfl, rfl, hloop⟩

/-- Behind a packet that is followed by another one the window still ends where it did. -/
theorem ends_get (h : p.WellFormed) (hfull : tsPacketSize ≤ p.inputBuffer.size)
    (hlong : tsPacketSize ≤ p.leftover.length) :
    p.advanced.synced.inputBuffer.data + p.advanced.synced.inputBuffer.size =
      p.inputBuffer.data + p.inputBuffer.size := by
  have hrest : dropToSync tsSyncByte p.advanced.unread = p.leftover := by
    rw [advanced_unread, leftover]
  have hle : p.leftover.length ≤ p.advanced.inputBuffer.size :=
    hrest ▸ rest_length_le (advanced_inside h hfull)
  rw [synced_of_le (by rwa [hrest]), hrest]
  simp only [advanced] at hle ⊢
  omega

/-- No `get` changes the size of the storage. -/
theorem storage_of_consumeLoop (h : p.WellFormed) {fuel : Nat} {gets : List GetRecord}
    (hrun : consumeLoop fuel p = .ok (gets, q)) :
    ∀ g ∈ gets, g.after.dataStorage.length = p.dataStorage.length := by
  induction fuel generalizing p gets with
  | zero =>
    rcases consumeLoop_cases h hrun with ⟨-, rfl, rfl⟩ | ⟨-, fuel', gets', hfuel, -⟩
    · exact fun g hmem => absurd hmem List.not_mem_nil
    · exact absurd hfuel (by omega)
  | succ fuel ih =>
    rcases consumeLoop_cases h hrun with ⟨-, rfl, rfl⟩ | ⟨hfull, fuel', gets', hfuel, rfl, hloop⟩
    · exact fun g hmem => absurd hmem List.not_mem_nil
    · obtain rfl : fuel' = fuel := by omega
      have hfirst : p.advanced.synced.dataStorage.length = p.dataStorage.length :=
        synced_storage_length (advanced_inside h hfull)
      intro g hmem
      rcases List.mem_cons.mp hmem with rfl | hmem
      · exact hfirst
      · exact (ih (wellFormed_get h hfull) hloop g hmem).trans hfirst

theorem consumeLoop_placed (h : p.WellFormed)
    (hgaps : GapsLe tsSyncByte tsPacketSize bound (p.unread ++ rest)) {fuel : Nat}
    {gets : List GetRecord} (hrun : consumeLoop fuel p = .ok (gets, q)) :
    ∀ before g after, gets = before ++ g :: after → g.Placed p q bound rest after := by
  induction fuel generalizing p gets with
  | zero =>
    rcases consumeLoop_cases h hrun with ⟨-, rfl, rfl⟩ | ⟨-, fuel', gets', hfuel, -⟩
    · intro before g after hsplit
      exact absurd hsplit (by simp)
    · exact absurd hfuel (by omega)
  | succ fuel ih =>
    rcases consumeLoop_cases h hrun with ⟨-, rfl, rfl⟩ | ⟨hfull, fuel', gets', hfuel, rfl, hloop⟩
    · intro before g after hsplit
      exact absurd hsplit (by simp)
    · obtain rfl : fuel' = fuel := by omega
      have hwf := wellFormed_get h hfull
      have hunread : p.advanced.synced.unread = p.leftover := get_unread h hfull
      have hsize : p.advanced.synced.inputBuffer.size = p.leftover.length := by
        rw [← hunread, unread_length hwf.inside]
      -- the next packet, if there is one, is what is left over
      have hnext := consumeLoop_cases hwf hloop
      rw [hsize] at hnext
      intro before g after hsplit
      cases before with
      | nil =>
        obtain ⟨rfl, rfl⟩ := List.cons.inj hsplit
        refine ⟨rfl, hgaps, ?_, ?_⟩
        · intro hmore
          rcases hnext with ⟨-, hnil, -⟩ | ⟨hlong, -⟩
          · exact absurd hnil hmore
          · exact hlong
        · rintro rfl
          rcases hnext with ⟨-, -, rfl⟩ | ⟨-, fuel'', gets'', -, hcons, -⟩
          · exact hunread.symm
          · exact absurd hcons (by simp)
      | cons b before =>
        obtain ⟨rfl, rfl⟩ := List.cons.inj hsplit
        have hlong : tsPacketSize ≤ p.leftover.length := by
          rcases hnext with ⟨-, hnil, -⟩ | ⟨hlong, -⟩
          · exact absurd hnil (by simp)
          · exact hlong
        have hgaps' : GapsLe tsSyncByte tsPacketSize bound (p.advanced.synced.unread ++ rest) := by
          rw [hunread]
          exact (gapsLe_get h hfull hgaps).dropToSync_append
        have hplaced := ih hwf hgaps' hloop before g after rfl
        refine ⟨?_, hplaced.gaps, hplaced.another, hplaced.last⟩
        rw [hplaced.ends_eq, ends_get h hfull hlong]

end Loop

section Turn

variable {p q : Packetizer} {bound : Nat} {chunk rest : List UInt8} {t : Turn}

/-- The packets of a turn are those of the loop on the confirmed packetizer. -/
theorem mainTurn_loop (h : p.WellFormed) (hdep : p.isDepleted = true)
    (hfits : chunk.length ≤ p.request.size) (hturn : mainTurn p chunk = .ok (t, q)) :
    consumeLoop (p.appended chunk).synced.inputBuffer.size (p.appended chunk).synced =
      .ok (t.gets, q) := by
  have hinside := appended_inside_of_front h.inside hfits (front_of_depleted h hdep)
  have hconfirm : ({ p with dataStorage := overwrite p.dataStorage p.inputBuffer.size chunk } :
      Packetizer).confirm ⟨p.request.data, chunk.length⟩ = .ok (p.appended chunk).synced :=
    sync_eq hinside
  unfold mainTurn at hturn
  rw [fill_eq hfits, ok_bind, hconfirm, ok_bind] at hturn
  obtain ⟨⟨gets, q'⟩, hloop, hresult⟩ := bind_eq_ok_iff.mp hturn
  obtain ⟨rfl, rfl⟩ := Prod.mk.inj (Except.ok.inj hresult)
  exact hloop

/-- What holds of a packet of a turn, of whose rest `rest` is still to be read. -/
theorem mainTurn_placed (h : p.WellFormed) (hdep : p.isDepleted = true)
    (hfits : chunk.length ≤ p.request.size)
    (hgaps : GapsLe tsSyncByte tsPacketSize bound (p.unread ++ chunk ++ rest))
    (hturn : mainTurn p chunk = .ok (t, q)) {before after : List GetRecord} {g : GetRecord}
    (hsplit : t.gets = before ++ g :: after) :
    g.Placed (p.appended chunk).synced q bound rest after ∧
      g.before.inputBuffer.data + g.before.inputBuffer.size = p.inputBuffer.size + chunk.length := by
  have hfront := front_of_depleted h hdep
  have hinside := appended_inside_of_front h.inside hfits hfront
  have happended : (p.appended chunk).unread = p.unread ++ chunk :=
    appended_unread_of_front h.inside hfits hfront
  have hwf := wellFormed_synced hinside
  have hloop := mainTurn_loop h hdep hfits hturn
  have hgaps' : GapsLe tsSyncByte tsPacketSize bound ((p.appended chunk).synced.unread ++ rest) := by
    rw [synced_unread hinside, happended]
    exact hgaps.dropToSync_append
  have hplaced := consumeLoop_placed hwf hgaps' hloop before g after hsplit
  refine ⟨hplaced, ?_⟩
  -- the turn has a packet, so the confirmed bytes have not been moved
  have hfull : tsPacketSize ≤ (p.appended chunk).synced.inputBuffer.size := by
    rcases consumeLoop_cases hwf hloop with ⟨-, hnil, -⟩ | ⟨hfull, -⟩
    · rw [hsplit] at hnil
      exact absurd hnil (by simp)
    · exact hfull
  have hle := rest_length_le hinside
  rw [synced_size] at hfull
  rw [hplaced.ends_eq, synced_of_le hfull]
  simp only [appended] at hle ⊢
  omega

/-- A read that fills the storage up damages no packet, if the storage is large and the gaps are not. -/
theorem kept_of_fullTurn (h : p.WellFormed) (hdep : p.isDepleted = true)
    (hfull : chunk.length = p.request.size) (hcap : 562 + bound ≤ p.dataStorage.length)
    (hgaps : GapsLe tsSyncByte tsPacketSize bound (p.unread ++ chunk ++ rest))
    (hturn : mainTurn p chunk = .ok (t, q)) {g : GetRecord} (hmem : g ∈ t.gets) : g.Kept := by
  obtain ⟨before, after, hsplit⟩ := List.append_of_mem hmem
  obtain ⟨hplaced, hends⟩ := mainTurn_placed h hdep hfull.le hgaps hturn hsplit
  obtain ⟨t', q', hturn', ht⟩ := mainTurn_spec h hdep hfull.le
  rw [hturn, Except.ok.injEq, Prod.mk.injEq] at hturn'
  obtain ⟨rfl, rfl⟩ := hturn'
  have hg := ht.drained.sound g hmem
  apply kept_of_leftover hg
  by_cases hlong : tsPacketSize ≤ g.before.leftover.length
  · exact Or.inl hlong
  right
  by_cases hsync : tsSyncByte ∈ g.before.unread.drop tsPacketSize
  · -- the leftover stands at the end of the full storage, close behind the packet
    have hgap := (gapsLe_get hg.wellFormed hg.full hplaced.gaps).gap_le hsync
    have hlength := unread_length hg.wellFormed.inside
    have hroom := request_size h.inside
    have hin := h.inside
    unfold gap at hgap
    rw [List.length_drop, hlength] at hgap
    simp only [ConstBuffer.ValidIn] at hin
    simp only [leftover, tsPacketSize] at hlong hgap ⊢
    omega
  · have hnil : g.before.leftover = [] := (dropToSync_eq_nil_iff tsSyncByte).mpr hsync
    rw [hnil]
    exact Nat.zero_le _

/-- In any turn, only the last packet can be damaged. -/
theorem kept_of_another (h : p.WellFormed) (hdep : p.isDepleted = true)
    (hfits : chunk.length ≤ p.request.size) (hturn : mainTurn p chunk = .ok (t, q))
    {before after : List GetRecord} {g : GetRecord} (hsplit : t.gets = before ++ g :: after)
    (hmore : after ≠ []) : g.Kept := by
  have hgaps : GapsLe tsSyncByte tsPacketSize (p.unread ++ chunk).length (p.unread ++ chunk ++ []) := by
    rw [List.append_nil]
    exact gapsLe_of_length_le le_rfl
  have hplaced := (mainTurn_placed h hdep hfits hgaps hturn hsplit).1
  obtain ⟨t', q', hturn', ht⟩ := mainTurn_spec h hdep hfits
  rw [hturn, Except.ok.injEq, Prod.mk.injEq] at hturn'
  obtain ⟨rfl, rfl⟩ := hturn'
  have hmem : g ∈ t.gets := hsplit ▸ List.mem_append_right _ List.mem_cons_self
  exact kept_of_leftover (ht.drained.sound g hmem) (Or.inl (hplaced.another hmore))

/-- At the end of the file the last packet is kept if nothing is left over. -/
theorem kept_of_wholeTurn (h : p.WellFormed) (hdep : p.isDepleted = true)
    (hfits : chunk.length ≤ p.request.size) (hturn : mainTurn p chunk = .ok (t, q))
    (hwhole : residue tsSyncByte tsPacketSize (p.unread ++ chunk) = []) {g : GetRecord}
    (hmem : g ∈ t.gets) : g.Kept := by
  obtain ⟨before, after, hsplit⟩ := List.append_of_mem hmem
  by_cases hmore : after = []
  · have hgaps : GapsLe tsSyncByte tsPacketSize (p.unread ++ chunk).length
        (p.unread ++ chunk ++ []) := by
      rw [List.append_nil]
      exact gapsLe_of_length_le le_rfl
    have hplaced := (mainTurn_placed h hdep hfits hgaps hturn hsplit).1
    obtain ⟨t', q', hturn', ht⟩ := mainTurn_spec h hdep hfits
    rw [hturn, Except.ok.injEq, Prod.mk.injEq] at hturn'
    obtain ⟨rfl, rfl⟩ := hturn'
    apply kept_of_leftover (ht.drained.sound g hmem)
    right
    rw [hplaced.last hmore, ht.unread_eq, hwhole]
    exact Nat.zero_le _
  · exact kept_of_another h hdep hfits hturn hsplit hmore

end Turn

/-! ## Whole files -/

section File

variable {p final : Packetizer} {bound : Nat} {content : List UInt8} {chunks : List (List UInt8)}
  {turns : List Turn}

/-- The first turn of a run, and the run behind it. -/
theorem mainLoop_cons {chunk : List UInt8}
    (hrun : mainLoop p (chunk :: chunks) = .ok (turns, final)) :
    ∃ t q turns', mainTurn p chunk = .ok (t, q) ∧ mainLoop q chunks = .ok (turns', final) ∧
      turns = t :: turns' := by
  unfold mainLoop at hrun
  obtain ⟨⟨t, q⟩, hturn, hrest⟩ := bind_eq_ok_iff.mp hrun
  obtain ⟨⟨turns', r⟩, hlater, hresult⟩ := bind_eq_ok_iff.mp hrest
  obtain ⟨rfl, rfl⟩ := Prod.mk.inj (Except.ok.inj hresult)
  exact ⟨t, q, turns', hturn, hlater, rfl⟩

/-- No packet changes the size of the storage. -/
theorem storage_of_mem_gets (h : p.WellFormed) (hdep : p.isDepleted = true) (hfit : ChunksFit p chunks)
    (hrun : mainLoop p chunks = .ok (turns, final)) :
    ∀ g ∈ allGets turns, g.after.dataStorage.length = p.dataStorage.length := by
  induction chunks generalizing p turns with
  | nil =>
    obtain ⟨rfl, -⟩ := Prod.mk.inj (Except.ok.inj hrun)
    exact fun g hmem => absurd hmem List.not_mem_nil
  | cons chunk chunks ih =>
    obtain ⟨hfits, hrest⟩ := hfit
    obtain ⟨t, q, turns', hturn, hlater, rfl⟩ := mainLoop_cons hrun
    obtain ⟨t', q', hturn', ht⟩ := mainTurn_spec h hdep hfits
    rw [hturn, Except.ok.injEq, Prod.mk.injEq] at hturn'
    obtain ⟨rfl, rfl⟩ := hturn'
    rw [hturn, ifReturns_ok] at hrest
    have hinside := appended_inside_of_front h.inside hfits (front_of_depleted h hdep)
    have hhere := storage_of_consumeLoop (wellFormed_synced hinside) (mainTurn_loop h hdep hfits hturn)
    have hthere := ih ht.drained.wellFormed ht.drained.depleted hrest hlater
    intro g hmem
    rcases List.mem_append.mp hmem with hmem | hmem
    · rw [hhere g hmem, synced_storage_length hinside]
      exact appended_storage_length h.inside hfits
    · rw [hthere g hmem, ht.storage_length]

/-- The run lemma: with small gaps only the last packet of a file can be damaged, and that only if the
file does not end with it. -/
theorem kept_of_readBy (hread : ReadBy p content chunks) (h : p.WellFormed)
    (hdep : p.isDepleted = true) (hcap : 562 + bound ≤ p.dataStorage.length)
    (hgaps : GapsLe tsSyncByte tsPacketSize bound (p.unread ++ content))
    (hrun : mainLoop p chunks = .ok (turns, final)) {before after : List GetRecord} {g : GetRecord}
    (hsplit : allGets turns = before ++ g :: after)
    (hend : after ≠ [] ∨ residue tsSyncByte tsPacketSize (p.unread ++ content) = []) : g.Kept := by
  induction hread generalizing turns before with
  | @last p content hshort =>
    obtain ⟨t, q, turns', hturn, hnil, rfl⟩ := mainLoop_cons hrun
    obtain ⟨rfl, -⟩ := Prod.mk.inj (Except.ok.inj hnil)
    have hgets : t.gets = before ++ g :: after := by
      rw [← hsplit]
      exact (List.append_nil _).symm
    rcases hend with hmore | hwhole
    · exact kept_of_another h hdep hshort.le hturn hgets hmore
    · apply kept_of_wholeTurn h hdep hshort.le hturn hwhole
      rw [hgets]
      exact List.mem_append_right _ List.mem_cons_self
  | @full p q content t chunks hlong hturn hrest ih =>
    have hlength : (content.take p.request.size).length = p.request.size :=
      List.length_take_of_le hlong
    have hcontent : p.unread ++ content =
        p.unread ++ content.take p.request.size ++ content.drop p.request.size := by
      rw [List.append_assoc, List.take_append_drop]
    obtain ⟨t', q', turns', hturn', hlater, rfl⟩ := mainLoop_cons hrun
    rw [hturn, Except.ok.injEq, Prod.mk.injEq] at hturn'
    obtain ⟨rfl, rfl⟩ := hturn'
    obtain ⟨t', q', hturn', ht⟩ := mainTurn_spec h hdep hlength.le
    rw [hturn, Except.ok.injEq, Prod.mk.injEq] at hturn'
    obtain ⟨rfl, rfl⟩ := hturn'
    rw [hcontent] at hgaps hend
    -- in this turn, or in one behind it, which goes on from what is left of this one
    have hhere : ∀ g ∈ t.gets, g.Kept := fun g hmem =>
      kept_of_fullTurn h hdep hlength hcap hgaps hturn hmem
    have hthere : ∀ before, allGets turns' = before ++ g :: after → g.Kept := by
      intro before hbehind
      apply ih ht.drained.wellFormed ht.drained.depleted (by rwa [ht.storage_length]) _ hlater hbehind
      · rw [ht.unread_eq, ← residue_append]
        exact hend
      · rw [ht.unread_eq]
        exact hgaps.residue_append
    have hsplit' : t.gets ++ allGets turns' = before ++ g :: after := hsplit
    rcases List.append_eq_append_iff.mp hsplit' with ⟨before', -, hbehind⟩ | ⟨later, hgets, hbehind⟩
    · exact hthere before' hbehind
    · cases later with
      | nil => exact hthere [] hbehind.symm
      | cons b later =>
        obtain ⟨rfl, -⟩ := List.cons.inj hbehind
        apply hhere g
        rw [hgets]
        exact List.mem_append_right _ List.mem_cons_self

/-- **Files that reach the demuxer intact.** A file ends with a packet and has few bytes between two
packets, and the buffer is larger than that by three packets: then every packet the demuxer is given is
one of the file, whatever the chunks are in which the file is read. -/
theorem intact_of_gaps {capacity : Nat} (hcap : 562 + bound ≤ capacity)
    (hread : ReadBy (new capacity) content chunks)
    (hgaps : GapsLe tsSyncByte tsPacketSize bound content)
    (hwhole : residue tsSyncByte tsPacketSize content = []) :
    Returns (mainLoop (new capacity) chunks) fun run =>
      List.Forall₂ Arrival.IsOfBlock ((allGets run.1).map GetRecord.arrival) (scan content) := by
  obtain ⟨turns, final, hrun, hl⟩ :=
    mainLoop_spec (wellFormed_new capacity) (new_isDepleted capacity) hread.chunksFit
  have hblocks : (allGets turns).map (fun g => g.before.block) = scan content := by
    rw [hl.blocks_eq, unread_new, hread.flatten_eq]
    rfl
  rw [hrun, returns_ok, ← hblocks]
  apply List.forall₂_map_left_iff.mpr
  apply List.forall₂_map_right_iff.mpr
  apply List.forall₂_same.mpr
  intro g hmem
  apply isOfBlock_of_kept (hl.sound g hmem)
  obtain ⟨before, after, hsplit⟩ := List.append_of_mem hmem
  have hroom : 562 + bound ≤ (new capacity).dataStorage.length := by
    rw [new_storage_length]
    exact hcap
  rw [← List.nil_append content, ← unread_new capacity] at hgaps hwhole
  exact kept_of_readBy hread (wellFormed_new capacity) (new_isDepleted capacity) hroom hgaps hrun
    hsplit (Or.inr hwhole)

/-- Any file is read in some chunks from a fresh packetizer. -/
theorem exists_readBy_new {capacity : Nat} (hcap : tsPacketSize ≤ capacity) (content : List UInt8) :
    ∃ chunks, ReadBy (new capacity) content chunks := by
  apply exists_readBy (wellFormed_new capacity) (new_isDepleted capacity)
  rw [new_storage_length]
  exact hcap

/-! ## Damage in any file -/

/-- The packets of a run that are not kept. -/
def damaged (gets : List GetRecord) : List GetRecord := gets.filter fun g => ¬ g.Kept

/-- A turn damages one packet at most. -/
theorem damaged_turn_le {chunk : List UInt8} {q : Packetizer} {t : Turn} (h : p.WellFormed)
    (hdep : p.isDepleted = true) (hfits : chunk.length ≤ p.request.size)
    (hturn : mainTurn p chunk = .ok (t, q)) : (damaged t.gets).length ≤ 1 := by
  unfold damaged
  rcases List.eq_nil_or_concat t.gets with hnil | ⟨gets, last, hgets⟩
  · rw [hnil]
    exact Nat.zero_le _
  · rw [List.concat_eq_append] at hgets
    have hkept : gets.filter (fun g => ¬ g.Kept) = [] := by
      apply List.filter_eq_nil_iff.mpr
      intro g hmem
      obtain ⟨before, after, rfl⟩ := List.append_of_mem hmem
      have hsplit : t.gets = before ++ g :: (after ++ [last]) := by
        rw [hgets, List.append_assoc, List.cons_append]
      have hg := kept_of_another h hdep hfits hturn hsplit (by simp)
      simpa using hg
    rw [hgets, List.filter_append, hkept, List.nil_append]
    exact List.length_filter_le _ _

theorem damaged_length_le (h : p.WellFormed) (hdep : p.isDepleted = true)
    (hfit : ChunksFit p chunks) (hrun : mainLoop p chunks = .ok (turns, final)) :
    (damaged (allGets turns)).length ≤ chunks.length := by
  induction chunks generalizing p turns with
  | nil =>
    obtain ⟨rfl, -⟩ := Prod.mk.inj (Except.ok.inj hrun)
    exact Nat.zero_le _
  | cons chunk chunks ih =>
    obtain ⟨hfits, hrest⟩ := hfit
    obtain ⟨t, q, turns', hturn, hlater, rfl⟩ := mainLoop_cons hrun
    obtain ⟨t', q', hturn', ht⟩ := mainTurn_spec h hdep hfits
    rw [hturn, Except.ok.injEq, Prod.mk.injEq] at hturn'
    obtain ⟨rfl, rfl⟩ := hturn'
    rw [hturn, ifReturns_ok] at hrest
    have hone := damaged_turn_le h hdep hfits hturn
    have hmore := ih ht.drained.wellFormed ht.drained.depleted hrest hlater
    have happend : damaged (allGets (t :: turns')) = damaged t.gets ++ damaged (allGets turns') :=
      List.filter_append _ _
    rw [happend, List.length_append, List.length_cons]
    omega

/-- **The damage in any file.** Whatever the file holds, `get` finds its packets, and those that the
demuxer is not given as they are in the file are at most one for each `capacity - 187` bytes of it, and
one more. If there are few bytes between two packets, none but the last packet is damaged, and that only
if the file does not end with it. -/
theorem damaged_le_turns {capacity : Nat} (hread : ReadBy (new capacity) content chunks) :
    Returns (mainLoop (new capacity) chunks) fun run =>
      (allGets run.1).map (fun g => g.before.block) = scan content ∧
      (∀ g ∈ allGets run.1, g ∉ damaged (allGets run.1) →
        (GetRecord.arrival g).IsOfBlock g.before.block) ∧
      ((damaged (allGets run.1)).length - 1) * (capacity + 1 - tsPacketSize) ≤ content.length ∧
      ∀ bound, 562 + bound ≤ capacity → GapsLe tsSyncByte tsPacketSize bound content →
        ∀ before g after, allGets run.1 = before ++ g :: after →
          after ≠ [] ∨ residue tsSyncByte tsPacketSize content = [] → g.Kept := by
  obtain ⟨turns, final, hrun, hl⟩ :=
    mainLoop_spec (wellFormed_new capacity) (new_isDepleted capacity) hread.chunksFit
  have hcount := damaged_length_le (wellFormed_new capacity) (new_isDepleted capacity)
    hread.chunksFit hrun
  have hturns := hread.turns_le (wellFormed_new capacity) (new_isDepleted capacity)
  rw [new_storage_length] at hturns
  rw [hrun, returns_ok]
  refine ⟨?_, ?_, ?_, ?_⟩
  · rw [hl.blocks_eq, unread_new, List.nil_append, hread.flatten_eq]
  · intro g hmem hnot
    apply isOfBlock_of_kept (hl.sound g hmem)
    by_contra hlost
    exact hnot (List.mem_filter.mpr ⟨hmem, by simpa using hlost⟩)
  · refine le_trans (Nat.mul_le_mul_right _ ?_) hturns
    exact Nat.sub_le_sub_right hcount 1
  · intro bound hcap hgaps before g after hsplit hend
    rw [← List.nil_append content, ← unread_new capacity] at hgaps hend
    have hroom : 562 + bound ≤ (new capacity).dataStorage.length := by
      rw [new_storage_length]
      exact hcap
    exact kept_of_readBy hread (wellFormed_new capacity) (new_isDepleted capacity) hroom hgaps hrun
      hsplit hend

theorem damaged_le_turns_packetAndRemainder :
    ∃ chunks, ReadBy (new 200) packetAndRemainder chunks ∧
      Returns (mainLoop (new 200) chunks) fun run =>
        (allGets run.1).map (fun g => g.before.block) = scan packetAndRemainder ∧
        (∀ g ∈ allGets run.1, g ∉ damaged (allGets run.1) →
          (GetRecord.arrival g).IsOfBlock g.before.block) ∧
        ((damaged (allGets run.1)).length - 1) * (200 + 1 - tsPacketSize) ≤ packetAndRemainder.length ∧
        ∀ bound, 562 + bound ≤ 200 → GapsLe tsSyncByte tsPacketSize bound packetAndRemainder →
          ∀ before g after, allGets run.1 = before ++ g :: after →
            after ≠ [] ∨ residue tsSyncByte tsPacketSize packetAndRemainder = [] → g.Kept := by
  have hcap : tsPacketSize ≤ 200 := by decide
  obtain ⟨chunks, hread⟩ := exists_readBy_new hcap packetAndRemainder
  exact ⟨chunks, hread, damaged_le_turns hread⟩

end File

end Packetizer

end Sandstream
