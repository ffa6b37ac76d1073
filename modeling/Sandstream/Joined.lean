import Mathlib
import Sandstream.Recordings

/-! # Sandstream.Joined -- one recording behind another

A multiplex with another one of the same PIDs behind it is a multiplex again (`Multiplex.join`): no
section and no PES packet is left open at the end of the first. So the tool takes two files that are
joined to the files it makes of them, joined (`main_joins`).
-/

namespace Sandstream

open Sandstream.Lib
open Sandstream.Lib.Resync (Framed framedStream)
open Demuxer (consume)

/-! ## One PID -/

theorem payloadFrames_append (frames frames' : List TsFrame) :
    payloadFrames (frames ++ frames') = payloadFrames frames ++ payloadFrames frames' :=
  List.filter_append _ _

theorem onPid_append (pid : UInt16) (packets packets' : List MuxPacket) :
    onPid pid (packets ++ packets') = onPid pid packets ++ onPid pid packets' :=
  List.filterMap_append

theorem StartsWithPayload.append {frames frames' : List TsFrame} (h : StartsWithPayload frames)
    (h' : StartsWithPayload frames') : StartsWithPayload (frames ++ frames') := by
  intro f hf
  rcases List.mem_append.mp hf with hf | hf
  · exact h f hf
  · exact h' f hf

/-- A layout that has come to its end, and another one behind it. -/
theorem Packetised.append {o : Option OpenSection} {ss ss' : List PsiSection}
    {packets packets' : List PsiPacket} (h : Packetised o ss packets)
    (h' : Packetised none ss' packets') : Packetised o (ss ++ ss') (packets ++ packets') := by
  induction h with
  | done => exact h'
  | continues hwhole hsent hfits _ ih => exact .continues hwhole hsent hfits ih
  | begins hfits _ ih =>
    rw [List.append_assoc, List.cons_append]
    exact .begins hfits ih
  | ends hsome hfits _ ih =>
    rw [List.append_assoc]
    exact .ends hsome hfits ih

theorem PesCut.append {packets packets' : List PesPacket} {cargo cargo' : List Cargo}
    (h : PesCut packets cargo) (h' : PesCut packets' cargo') :
    PesCut (packets ++ packets') (cargo ++ cargo') := by
  induction h with
  | nil => exact h'
  | cons hbytes hheader _ ih =>
    rw [List.cons_append, List.cons_append, List.append_assoc]
    exact .cons hbytes hheader ih

theorem CarriesSections.append {frames frames' : List TsFrame} {ss ss' : List PsiSection}
    {packets packets' : List PsiPacket} (h : CarriesSections frames ss packets)
    (h' : CarriesSections frames' ss' packets') :
    CarriesSections (frames ++ frames') (ss ++ ss') (packets ++ packets') where
  packetised := h.packetised.append h'.packetised
  cargo_eq := by
    rw [payloadFrames_append, List.map_append, List.map_append, h.cargo_eq, h'.cargo_eq]
  starts := h.starts.append h'.starts

theorem CarriesPes.append {frames frames' : List TsFrame} {packets packets' : List PesPacket}
    (h : CarriesPes frames packets) (h' : CarriesPes frames' packets') :
    CarriesPes (frames ++ frames') (packets ++ packets') where
  cut := by
    rw [payloadFrames_append, List.map_append]
    exact h.cut.append h'.cut
  starts := h.starts.append h'.starts

/-- A layout that goes on has ended as much as before. -/
theorem endedBy_subset_left (packets packets' : List PsiPacket) (frames : List TsFrame) :
    endedBy packets frames ⊆ endedBy (packets ++ packets') frames := by
  unfold endedBy
  rw [List.take_append, List.flatMap_append]
  exact List.subset_append_left _ _

/-- Behind the first layout the second one goes on as if it were alone. -/
theorem CarriesSections.endedBy_behind {frames : List TsFrame} {ss : List PsiSection}
    {packets : List PsiPacket} (h : CarriesSections frames ss packets) (packets' : List PsiPacket)
    (frames' : List TsFrame) :
    endedBy packets' frames' ⊆ endedBy (packets ++ packets') (frames ++ frames') := by
  have hlength : (payloadFrames frames).length = packets.length := by
    have hcargo := congrArg List.length h.cargo_eq
    rwa [List.length_map, List.length_map] at hcargo
  unfold endedBy
  rw [payloadFrames_append, List.length_append, hlength, List.take_length_add_append,
    List.flatMap_append]
  exact List.subset_append_right _ _

/-- An item of two lists is one of the second, or one of the first. -/
theorem before_or_behind {α : Type} {first second before after : List α} {a : α}
    (h : first ++ second = before ++ a :: after) :
    (∃ later, before = first ++ later ∧ second = later ++ a :: after) ∨
      ∃ rest, first = before ++ a :: rest := by
  rcases List.append_eq_append_iff.mp h with ⟨later, hbefore, hsecond⟩ | ⟨rest, hfirst, hcons⟩
  · exact Or.inl ⟨later, hbefore, hsecond⟩
  · cases rest with
    | nil => exact Or.inl ⟨[], by rw [hfirst, List.append_nil, List.append_nil], hcons.symm⟩
    | cons b rest =>
      obtain ⟨rfl, -⟩ := List.cons.inj hcons
      exact Or.inr ⟨rest, hfirst⟩

/-! ## Multiplexes -/

namespace Multiplex

/-- Two multiplexes of the same PIDs. -/
structure SamePids (m m' : Multiplex) : Prop where
  pmtPids : m'.pmtPids = m.pmtPids
  esPids : m'.esPids = m.esPids
  streamType : m'.streamType = m.streamType

/-- The second multiplex behind the first. -/
def join (m m' : Multiplex) (hsame : SamePids m m') : Multiplex where
  pmtPids := m.pmtPids
  esPids := m.esPids
  streamType := m.streamType
  pat := m.pat ++ m'.pat
  pmt := fun q => m.pmt q ++ m'.pmt q
  es := fun p => m.es p ++ m'.es p
  patPackets := m.patPackets ++ m'.patPackets
  pmtPackets := fun q => m.pmtPackets q ++ m'.pmtPackets q
  packets := m.packets ++ m'.packets
  zero_not_pmt := m.zero_not_pmt
  zero_not_es := m.zero_not_es
  pmt_not_es := m.pmt_not_es
  pat_pids := by
    intro s hs
    rcases List.mem_append.mp hs with hs | hs
    · exact m.pat_pids s hs
    · rw [← hsame.pmtPids]
      exact m'.pat_pids s hs
  pmt_streams := by
    intro q hq s hs
    rcases List.mem_append.mp hs with hs | hs
    · exact m.pmt_streams q hq s hs
    · rw [← hsame.esPids, ← hsame.streamType]
      exact m'.pmt_streams q (hsame.pmtPids ▸ hq) s hs
  other_pids := by
    intro block hlength hsync hmem
    rcases List.mem_append.mp hmem with hmem | hmem
    · exact m.other_pids block hlength hsync hmem
    · rw [← hsame.pmtPids, ← hsame.esPids]
      exact m'.other_pids block hlength hsync hmem
  carries_pat := by
    rw [onPid_append, List.map_append]
    exact m.carries_pat.append m'.carries_pat
  carries_pmt := by
    intro q hq
    rw [onPid_append, List.map_append]
    exact (m.carries_pmt q hq).append (m'.carries_pmt q (hsame.pmtPids ▸ hq))
  carries_es := by
    intro p hp
    rw [onPid_append]
    exact (m.carries_es p hp).append (m'.carries_es p (hsame.esPids ▸ hp))
  pat_first := by
    intro before f after hpackets hpid
    rcases before_or_behind hpackets with ⟨later, rfl, hlater⟩ | ⟨rest, hfirst⟩
    · obtain ⟨s, hs, hended, hlists⟩ := m'.pat_first later f after hlater (hsame.pmtPids ▸ hpid)
      refine ⟨s, List.mem_append_right _ hs, ?_, hlists⟩
      rw [onPid_append]
      exact m.carries_pat.endedBy_behind _ _ hended
    · obtain ⟨s, hs, hended, hlists⟩ := m.pat_first before f rest hfirst hpid
      exact ⟨s, List.mem_append_left _ hs, endedBy_subset_left _ _ _ hended, hlists⟩
  pmt_first := by
    intro before f after hpackets hpid
    rcases before_or_behind hpackets with ⟨later, rfl, hlater⟩ | ⟨rest, hfirst⟩
    · obtain ⟨q, hq, s, hs, hended, hlists⟩ :=
        m'.pmt_first later f after hlater (hsame.esPids ▸ hpid)
      have hq' : q ∈ m.pmtPids := hsame.pmtPids ▸ hq
      refine ⟨q, hq', s, List.mem_append_right _ hs, ?_, hlists⟩
      rw [onPid_append]
      exact (m.carries_pmt q hq').endedBy_behind _ _ hended
    · obtain ⟨q, hq, s, hs, hended, hlists⟩ := m.pmt_first before f rest hfirst hpid
      exact ⟨q, hq, s, List.mem_append_left _ hs, endedBy_subset_left _ _ _ hended, hlists⟩

theorem listed_join_iff {m m' : Multiplex} (hsame : SamePids m m') {pid : UInt16} :
    (m.join m' hsame).Listed pid ↔ m.Listed pid ∨ m'.Listed pid := by
  constructor
  · rintro ⟨q, hq, s, hs, t, hstream⟩
    rcases List.mem_append.mp hs with hs | hs
    · exact Or.inl ⟨q, hq, s, hs, t, hstream⟩
    · exact Or.inr ⟨q, hsame.pmtPids ▸ hq, s, hs, t, hstream⟩
  · rintro (⟨q, hq, s, hs, t, hstream⟩ | ⟨q, hq, s, hs, t, hstream⟩)
    · exact ⟨q, hq, s, List.mem_append_left _ hs, t, hstream⟩
    · exact ⟨q, hsame.pmtPids ▸ hq, s, List.mem_append_right _ hs, t, hstream⟩

/-- A stream that is not listed has no packets. -/
theorem es_of_not_listed (m : Multiplex) {pid : UInt16} (hpid : pid ∈ m.esPids)
    (hnot : ¬ m.Listed pid) : m.es pid = [] := by
  have hframes : onPid pid m.packets = [] := by
    apply List.filterMap_eq_nil_iff.mpr
    intro p hp
    cases p with
    | other block hlength hsync => rfl
    | frame f =>
      apply if_neg
      rintro rfl
      obtain ⟨before, after, hpackets⟩ := List.append_of_mem hp
      obtain ⟨q, hq, s, hs, -, t, hstream⟩ := m.pmt_first before f after hpackets hpid
      exact hnot ⟨q, hq, s, hs, t, hstream⟩
  have hcut := (m.carries_es pid hpid).cut
  rw [hframes] at hcut
  show m.es pid = []
  cases hes : m.es pid with
  | nil => rfl
  | cons p packets =>
    rw [hes] at hcut
    exact nomatch hcut

end Multiplex

/-! ## Files -/

/-- What the files after a run on a joined recording are to those after the runs on its parts. -/
structure JoinedFiles (m m' : Multiplex) (h : ElementaryStreamHandler) (access : Access)
    (files first second joined : Files) : Prop where
  /-- a stream of both parts: the bytes of the first, and behind them those of the second -/
  both : ∀ pid, m.Listed pid → m'.Listed pid → access.writable (h.filename pid) = true →
    ∃ bytes bytes', first (h.filename pid) = some bytes ∧ second (h.filename pid) = some bytes' ∧
      joined (h.filename pid) = some (bytes ++ bytes')
  /-- a stream of one part -/
  onlyFirst : ∀ pid, m.Listed pid → ¬ m'.Listed pid → access.writable (h.filename pid) = true →
    joined (h.filename pid) = first (h.filename pid)
  onlySecond : ∀ pid, ¬ m.Listed pid → m'.Listed pid → access.writable (h.filename pid) = true →
    joined (h.filename pid) = second (h.filename pid)
  /-- and nothing else has changed -/
  others : ∀ name, (∀ pid, m.Listed pid ∨ m'.Listed pid → access.writable (h.filename pid) = true →
    name ≠ h.filename pid) → joined name = files name

theorem Demultiplexed.joined {m m' : Multiplex} (hsame : m.SamePids m') {h : ElementaryStreamHandler}
    {access : Access} {files first second joined : Files} (hfirst : Demultiplexed m h access files first)
    (hsecond : Demultiplexed m' h access files second)
    (hjoined : Demultiplexed (m.join m' hsame) h access files joined) :
    JoinedFiles m m' h access files first second joined := by
  have hdata : ∀ pid, (m.join m' hsame).Listed pid → access.writable (h.filename pid) = true →
      joined (h.filename pid) =
        some ((m.es pid).flatMap PesPacket.data ++ (m'.es pid).flatMap PesPacket.data) := by
    intro pid hlisted hwritable
    rw [hjoined.streams pid hlisted hwritable, ← List.flatMap_append]
    rfl
  constructor
  · intro pid hlisted hlisted' hwritable
    refine ⟨_, _, hfirst.streams pid hlisted hwritable, hsecond.streams pid hlisted' hwritable, ?_⟩
    exact hdata pid ((Multiplex.listed_join_iff hsame).mpr (Or.inl hlisted)) hwritable
  · intro pid hlisted hnot hwritable
    have hpid : pid ∈ m'.esPids := hsame.esPids ▸ Multiplex.esPid_of_listed hlisted
    rw [hdata pid ((Multiplex.listed_join_iff hsame).mpr (Or.inl hlisted)) hwritable,
      m'.es_of_not_listed hpid hnot, hfirst.streams pid hlisted hwritable, List.flatMap_nil,
      List.append_nil]
  · intro pid hnot hlisted hwritable
    have hpid : pid ∈ m.esPids := hsame.esPids ▸ Multiplex.esPid_of_listed hlisted
    rw [hdata pid ((Multiplex.listed_join_iff hsame).mpr (Or.inr hlisted)) hwritable,
      m.es_of_not_listed hpid hnot, hsecond.streams pid hlisted hwritable, List.flatMap_nil,
      List.nil_append]
  · intro name hother
    apply hjoined.others name
    intro pid hlisted
    exact hother pid ((Multiplex.listed_join_iff hsame).mp hlisted)

/-- **Joined recordings.** The input is one recording behind another of the same PIDs: the files that
`main` makes of it are those it makes of the two recordings, joined. -/
theorem main_joins (m m' : Multiplex) (hsame : m.SamePids m') (tool : String) {access : Access}
    {files : Files} {firstFilename secondFilename joinedFilename outputPrefix : String}
    {content content' : List UInt8} {bound : Nat}
    (hpackets : scan content = m.packets.map MuxPacket.bytes)
    (hpackets' : scan content' = m'.packets.map MuxPacket.bytes)
    (hends : Resync.residue tsSyncByte tsPacketSize content = [])
    (hintact : IntactFile (content ++ content') bound)
    (hfirst : InputFile access files firstFilename outputPrefix content)
    (hsecond : InputFile access files secondFilename outputPrefix content')
    (hjoined : InputFile access files joinedFilename outputPrefix (content ++ content')) {fuel : Nat}
    (hfuel : (content ++ content').length < fuel) :
    Returns (main access fuel [tool, firstFilename, outputPrefix] files) fun r₁ =>
      Returns (main access fuel [tool, secondFilename, outputPrefix] files) fun r₂ =>
        Returns (main access fuel [tool, joinedFilename, outputPrefix] files) fun r =>
          JoinedFiles m m' ⟨outputPrefix⟩ access files r₁.2 r₂.2 r.2 := by
  have hlength : (content ++ content').length = content.length + content'.length :=
    List.length_append
  have hbehind := hintact.gaps.residue_append
  have hendsJoined := hintact.ends
  rw [Resync.residue_append, hends, List.nil_append] at hendsJoined
  rw [hends, List.nil_append] at hbehind
  have hpacketsJoined : scan (content ++ content') =
      (m.join m' hsame).packets.map MuxPacket.bytes := by
    rw [scan_append hends, hpackets, hpackets', ← List.map_append]
    rfl
  have hfuel₁ : content.length < fuel := by omega
  have hfuel₂ : content'.length < fuel := by omega
  obtain ⟨files₁, hmain₁, hfiles₁⟩ := m.exists_files tool hpackets
    ⟨hintact.gaps.left, hends, hintact.room⟩ hfirst hfuel₁
  obtain ⟨files₂, hmain₂, hfiles₂⟩ := m'.exists_files tool hpackets'
    ⟨hbehind, hendsJoined, hintact.room⟩ hsecond hfuel₂
  obtain ⟨files₃, hmain₃, hfiles₃⟩ := (m.join m' hsame).exists_files tool hpacketsJoined hintact
    hjoined hfuel
  rw [hmain₁, hmain₂, hmain₃]
  exact returns_ok.mpr (returns_ok.mpr (returns_ok.mpr (hfiles₁.joined hsame hfiles₂ hfiles₃)))

theorem main_joins_oneProgramFile :
    Returns (main anyFile ((framedStream oneProgramFile ++ framedStream oneProgramFile).length + 1)
      ["sandstream", "in.ts", "out"]
      (twoInputs (framedStream oneProgramFile)
        (framedStream oneProgramFile ++ framedStream oneProgramFile))) fun r₁ =>
      Returns (main anyFile ((framedStream oneProgramFile ++ framedStream oneProgramFile).length + 1)
        ["sandstream", "in.ts", "out"]
        (twoInputs (framedStream oneProgramFile)
          (framedStream oneProgramFile ++ framedStream oneProgramFile))) fun r₂ =>
        Returns (main anyFile
          ((framedStream oneProgramFile ++ framedStream oneProgramFile).length + 1)
          ["sandstream", "copy.ts", "out"]
          (twoInputs (framedStream oneProgramFile)
            (framedStream oneProgramFile ++ framedStream oneProgramFile))) fun r =>
          JoinedFiles Multiplex.OneProgram.multiplex Multiplex.OneProgram.multiplex ⟨"out"⟩ anyFile
            (twoInputs (framedStream oneProgramFile)
              (framedStream oneProgramFile ++ framedStream oneProgramFile)) r₁.2 r₂.2 r.2 := by
  obtain ⟨hinput, hinput'⟩ := inputFile_twoInputs (framedStream oneProgramFile)
    (framedStream oneProgramFile ++ framedStream oneProgramFile)
  have hpackets : framedStream oneProgramFile ++ framedStream oneProgramFile =
      framedStream ((Multiplex.OneProgram.multiplex.packets ++
        Multiplex.OneProgram.multiplex.packets).map (MuxPacket.extended [0, 1, 2, 3] [])) := by
    unfold framedStream oneProgramFile
    rw [List.map_append, List.flatMap_append]
  have hintact : IntactFile (framedStream oneProgramFile ++ framedStream oneProgramFile) (0 + 4) := by
    rw [hpackets]
    exact (cleanFraming_extended (by decide) (by decide) _).intact
  exact main_joins _ _ ⟨rfl, rfl, rfl⟩ _ scan_oneProgramFile scan_oneProgramFile
    cleanFraming_oneProgramFile.intact.ends hintact hinput hinput hinput' (Nat.lt_add_one _)

end Sandstream
