import Mathlib
import Sandstream.Parcel
import Sandstream.Program

/-! # Sandstream.Conservation -- where the bytes come from

A PES parser hands on an end of the payload of the packet it is given, and nothing else; so the bytes of an
elementary stream are bytes of the packets of its PID, in their order, each of them once.

This needs nothing of the packets: a run may stop early, but it does not invent bytes. `main_conserves`
counts the bytes in the files of any run of `main`; `main_traces` finds them in the packets.
-/

namespace Sandstream

open Sandstream.Lib
open Sandstream.Lib.Window
open Sandstream.Lib.Resync (Framed framedStream)
open Packetizer (ReadBy mainLoop allGets)
open Demuxer (consume packetsOf)
open ElementaryStreamHandler (writesFiles_of_consume)

/-! ## One packet -/

/-- The payload of a packet, if it lies inside the storage. -/
def Arrival.inner (a : Arrival) : List UInt8 :=
  if a.packet.payload.ValidIn a.storage then a.payload else []

namespace Handler

variable {κ : Type} {h h' : Handler κ} {a : Arrival} {calls : List Callback}

theorem dataOf_tables {τ : Type} {call : τ → Callback} (hcall : ∀ t buffer, call t ≠ .onData buffer)
    (tables : List τ) : dataOf (tables.map call) = [] := by
  unfold dataOf
  rw [List.flatMap_map]
  apply List.flatMap_eq_nil_iff.mpr
  intro t _
  cases hcase : call t with
  | onPat update => rfl
  | onPmt update => rfl
  | onData buffer => exact absurd hcase (hcall t buffer)

/-- A PES parser hands on an end of the payload, or no bytes at all. -/
theorem esCalls_suffix (haddr : a.Addressable) (hcalls : esCalls a = .ok calls) :
    dataOf calls <:+ a.inner := by
  rcases esCalls_cases haddr hcalls with ⟨rfl, -⟩ | ⟨hvalid, n, rfl⟩ | ⟨b, rfl, -⟩
  · exact List.nil_suffix
  · have hdata : dataOf [.onData (.inside (a.payload.drop n))] = a.payload.drop n := List.append_nil _
    rw [hdata, Arrival.inner, if_pos hvalid]
    exact List.drop_suffix n _
  · exact List.nil_suffix

/-- No handler hands on anything else. -/
theorem feed_suffix (haddr : a.Addressable) (hfeed : h.feed a = .ok (h', calls)) :
    dataOf calls <:+ a.inner := by
  cases h with
  | parserPat sectionData =>
    cases feed_reports hfeed with
    | pat updates =>
      rw [dataOf_tables (fun _ _ => by simp)]
      exact List.nil_suffix
  | parserPmt sectionData =>
    cases feed_reports hfeed with
    | pmt updates =>
      rw [dataOf_tables (fun _ _ => by simp)]
      exact List.nil_suffix
  | parserPes consumer =>
    rw [feed_parserPes] at hfeed
    obtain ⟨calls', hcalls, hresult⟩ := bind_eq_ok_iff.mp hfeed
    obtain ⟨-, rfl⟩ := Prod.mk.inj (Except.ok.inj hresult)
    exact esCalls_suffix haddr hcalls

end Handler

/-! ## Runs -/

namespace Demuxer

variable {κ φ : Type} {factory : EsFactory κ φ} {d d' : Demuxer κ φ} {a : Arrival}
  {arrivals : List Arrival}

/-- The step lemma: an end of the payload is handed on for the PID of the packet. -/
theorem dataOf_step (haddr : a.Addressable) (hstep : consumePacket factory d a = .ok d') (pid : UInt16) :
    ∃ bytes, dataOf (callbacksOf pid d'.history) = dataOf (callbacksOf pid d.history) ++ bytes ∧
      bytes <:+ if a.packet.pid = pid then a.inner else [] := by
  rw [consumePacket_eq_step] at hstep
  cases hk : d.packetStreams[a.packet.pid]? with
  | none =>
    rw [Dispatch.Dispatcher.step_of_unregistered hk, Except.ok.injEq] at hstep
    obtain rfl := hstep
    exact ⟨[], (List.append_nil _).symm, List.nil_suffix⟩
  | some stream =>
    obtain ⟨stream', calls, hfeed, rfl⟩ := Dispatch.Dispatcher.step_of_registered hk hstep
    have hcalls : callbacksOf pid
        ((d.reportAll factory a.packet.pid calls).settle a.packet.pid stream').history =
          callbacksOf pid d.history ++ if a.packet.pid = pid then calls else [] :=
      callbacksOf_reportAll factory a.packet.pid pid calls d
    refine ⟨dataOf (if a.packet.pid = pid then calls else []), ?_, ?_⟩
    · rw [← dataOf_append, ← hcalls]
      rfl
    · split_ifs
      · exact Handler.feed_suffix haddr hfeed
      · exact List.suffix_refl []

/-- The run lemma. -/
theorem dataOf_consume (haddr : ∀ a ∈ arrivals, a.Addressable)
    (hrun : consume factory d arrivals = .ok d') (pid : UInt16) :
    ∃ bytes, dataOf (callbacksOf pid d'.history) = dataOf (callbacksOf pid d.history) ++ bytes ∧
      bytes.Sublist ((packetsOf pid arrivals).flatMap Arrival.inner) := by
  induction arrivals generalizing d with
  | nil =>
    obtain rfl : d = d' := Except.ok.inj hrun
    exact ⟨[], (List.append_nil _).symm, List.nil_sublist _⟩
  | cons a arrivals ih =>
    obtain ⟨haddr, hlater⟩ := List.forall_mem_cons.mp haddr
    rw [consume_cons, bind_eq_ok_iff] at hrun
    obtain ⟨d₁, hstep, hrest⟩ := hrun
    obtain ⟨first, hfirst, hsuffix⟩ := dataOf_step haddr hstep pid
    obtain ⟨bytes, hbytes, hsublist⟩ := ih hlater hrest
    refine ⟨first ++ bytes, ?_, ?_⟩
    · rw [hbytes, hfirst, List.append_assoc]
    · have hpackets : (packetsOf pid (a :: arrivals)).flatMap Arrival.inner =
          (if a.packet.pid = pid then a.inner else []) ++
            (packetsOf pid arrivals).flatMap Arrival.inner := by
        unfold packetsOf
        rw [List.filter_cons]
        by_cases hpid : a.packet.pid = pid <;> simp [hpid]
      rw [hpackets]
      exact hsuffix.sublist.append hsublist

/-- The bytes handed on for a PID are bytes of its packets, in their order, each of them once. -/
theorem dataOf_sublist {state : φ} (haddr : ∀ a ∈ arrivals, a.Addressable)
    (hrun : consume factory (new state) arrivals = .ok d) (pid : UInt16) :
    (dataOf (callbacksOf pid d.history)).Sublist ((packetsOf pid arrivals).flatMap Arrival.inner) := by
  obtain ⟨bytes, hbytes, hsublist⟩ := dataOf_consume haddr hrun pid
  rw [hbytes]
  exact hsublist

theorem packetsOf_sublist {before : List Arrival} (hfront : before <+: arrivals) (pid : UInt16) :
    (packetsOf pid before).Sublist (packetsOf pid arrivals) :=
  hfront.sublist.filter _

/-- Different PIDs have different packets. -/
theorem sum_packetsOf_le (weight : Arrival → Nat) {pids : List UInt16} (hnodup : pids.Nodup)
    (arrivals : List Arrival) :
    (pids.map fun pid => ((packetsOf pid arrivals).map weight).sum).sum ≤ (arrivals.map weight).sum := by
  induction pids generalizing arrivals with
  | nil => exact Nat.zero_le _
  | cons pid pids ih =>
    obtain ⟨hnot, hnodup⟩ := List.nodup_cons.mp hnodup
    have hsplit := ((List.filter_append_perm (fun a : Arrival => decide (a.packet.pid = pid))
      arrivals).map weight).sum_eq
    rw [List.map_append, List.sum_append] at hsplit
    -- the packets of the other PIDs are among those that are not of this one
    have hothers : ∀ k ∈ pids, packetsOf k arrivals =
        packetsOf k (arrivals.filter fun a => !decide (a.packet.pid = pid)) := by
      intro k hk
      unfold packetsOf
      rw [List.filter_filter]
      apply List.filter_congr
      intro a _
      by_cases hpid : a.packet.pid = k
      · have hne : k ≠ pid := fun heq => hnot (heq ▸ hk)
        simp [hpid, hne]
      · simp [hpid]
    have hrest := ih hnodup (arrivals.filter fun a => !decide (a.packet.pid = pid))
    have hmap : (pids.map fun k => ((packetsOf k arrivals).map weight).sum) =
        pids.map fun k => ((packetsOf k
          (arrivals.filter fun a => !decide (a.packet.pid = pid))).map weight).sum := by
      apply List.map_congr_left
      intro k hk
      rw [hothers k hk]
    rw [List.map_cons, List.sum_cons, hmap, ← hsplit]
    exact Nat.add_le_add_left hrest _

/-- All streams together hold no more bytes than the packets. -/
theorem sum_dataOf_le {state : φ} (haddr : ∀ a ∈ arrivals, a.Addressable)
    (hrun : consume factory (new state) arrivals = .ok d) {pids : List UInt16} (hnodup : pids.Nodup) :
    (pids.map fun pid => (dataOf (callbacksOf pid d.history)).length).sum ≤
      (arrivals.map fun a => a.inner.length).sum := by
  refine le_trans ?_ (sum_packetsOf_le (fun a => a.inner.length) hnodup arrivals)
  apply List.sum_le_sum
  intro pid _
  have hlength := (dataOf_sublist haddr hrun pid).length_le
  rwa [List.length_flatMap] at hlength

end Demuxer

/-! ## Packets of a file -/

section Packets

variable {a : Arrival} {block : List UInt8}

/-- A size that has wrapped is too large for any storage. -/
theorem inner_packetAt (haddr : a.Addressable) {data : Nat} (hpacket : a.packet = packetAt block data) :
    a.inner = [] ∨ AdaptationFieldFits block ∧ a.inner = a.payload := by
  unfold Arrival.inner
  split_ifs with hvalid
  · refine Or.inr ⟨?_, rfl⟩
    unfold Arrival.Addressable at haddr
    rw [hpacket] at hvalid
    by_contra hover
    have hbyte := (block.getD 4 0).toNat_lt
    have hskip : adaptationFieldSkipSize block ≤ 256 := by
      unfold adaptationFieldSkipSize
      split_ifs <;> omega
    have hwraps : sizeSub (tsPacketSize - 4) (adaptationFieldSkipSize block) =
        2 ^ 64 - (adaptationFieldSkipSize block - (tsPacketSize - 4)) := if_neg hover
    unfold ConstBuffer.ValidIn packetAt at hvalid
    dsimp only at hvalid
    rw [hwraps] at hvalid
    omega
  · exact Or.inl rfl

/-- A packet has up to 184 bytes of payload. -/
theorem inner_length_le (haddr : a.Addressable) {data : Nat} (hpacket : a.packet = packetAt block data) :
    a.inner.length ≤ tsPacketSize - 4 := by
  rcases inner_packetAt haddr hpacket with hnil | ⟨hfits, hinner⟩
  · rw [hnil]
    exact Nat.zero_le _
  · have hsize : a.packet.payload.size = tsPacketSize - 4 - adaptationFieldSkipSize block := by
      rw [hpacket]
      exact sizeSub_of_le hfits
    rw [hinner, Arrival.payload, ConstBuffer.bytes, window, List.length_take, hsize]
    omega

theorem Arrival.IsOfBlock.inner_eq (h : a.IsOfBlock block) (hlength : block.length = tsPacketSize)
    (hsync : block[0]? = some tsSyncByte) (haddr : a.Addressable) : a.inner = blockPayload block := by
  by_cases hfits : AdaptationFieldFits block
  · have hstored := h.stored hlength hsync hfits haddr
    rw [Arrival.inner, if_pos hstored.inside, h.payload_eq hlength hsync hfits]
  · obtain ⟨data, -, -, hpacket⟩ := h.packet_eq hlength hsync
    have hnil : blockPayload block = [] := by
      unfold AdaptationFieldFits at hfits
      apply List.drop_eq_nil_of_le
      rw [hlength]
      omega
    rw [hnil]
    exact (inner_packetAt haddr hpacket).resolve_right fun h => hfits h.1

/-- The packetizer finds blocks that the packet constructor accepts. -/
theorem synced_scan (content : List UInt8) : Demuxer.Synced (scan content) := by
  intro b hb
  refine ⟨Resync.length_of_mem_blocks hb, ?_⟩
  rw [← List.head?_eq_getElem?]
  exact Resync.head?_of_mem_blocks hb

/-- What the packets of a PID carry, from their blocks. -/
theorem packetsOf_flatMap_inner {arrivals : List Arrival} {blocks : List (List UInt8)}
    (hblocks : List.Forall₂ Arrival.IsOfBlock arrivals blocks) (hsynced : Demuxer.Synced blocks)
    (haddr : ∀ a ∈ arrivals, a.Addressable) (pid : UInt16) :
    (packetsOf pid arrivals).flatMap Arrival.inner =
      (blocks.filter fun b => blockPid b = pid).flatMap blockPayload := by
  induction hblocks with
  | nil => rfl
  | @cons a block arrivals blocks ha _ ih =>
    obtain ⟨⟨hlength, hsync⟩, hsynced⟩ := List.forall_mem_cons.mp hsynced
    obtain ⟨haddr, hlater⟩ := List.forall_mem_cons.mp haddr
    have hih := ih hsynced hlater
    unfold packetsOf at hih ⊢
    rw [List.filter_cons, List.filter_cons, ha.pid_eq hlength hsync]
    by_cases hkey : blockPid block = pid
    · simp only [hkey, decide_true, if_true, List.flatMap_cons, hih, ha.inner_eq hlength hsync haddr]
    · simp only [hkey, decide_false, Bool.false_eq_true, if_false, hih]

/-- The payloads of a file fit into it. -/
theorem sum_inner_le {p q : Packetizer} {chunks : List (List UInt8)} {turns : List Packetizer.Turn}
    (hl : Packetizer.Looped p chunks turns q)
    (haddr : ∀ a ∈ (allGets turns).map GetRecord.arrival, a.Addressable) :
    (((allGets turns).map GetRecord.arrival).map fun a => a.inner.length).sum ≤
      (p.unread ++ chunks.flatten).length := by
  have hcount : ((allGets turns).map GetRecord.arrival).length =
      (scan (p.unread ++ chunks.flatten)).length := by
    rw [← hl.blocks_eq, List.length_map, List.length_map]
  have hall : (scan (p.unread ++ chunks.flatten)).length * tsPacketSize ≤
      (p.unread ++ chunks.flatten).length := Resync.blocks_length_mul_le _
  have hsum := List.sum_le_card_nsmul
    (((allGets turns).map GetRecord.arrival).map fun a => a.inner.length) tsPacketSize ?_
  · rw [List.length_map, hcount, smul_eq_mul] at hsum
    exact hsum.trans hall
  · intro n hn
    obtain ⟨a, ha, rfl⟩ := List.mem_map.mp hn
    obtain ⟨g, hg, rfl⟩ := List.mem_map.mp ha
    exact (inner_length_le (haddr _ ha) (hl.sound g hg).packet_eq).trans (Nat.sub_le _ _)

end Packets

section Main

variable {access : Access} {files : Files} {inputFilename outputPrefix : String}

/-- The files hold no more bytes than a list of packets. -/
structure FilesBounded (h : ElementaryStreamHandler) (size : Nat) (files files' : Files)
    (pids : List UInt16) : Prop where
  nodup : pids.Nodup
  others : ∀ name, (∀ pid ∈ pids, name ≠ h.filename pid) → files' name = files name
  total : (pids.map fun pid => ((files' (h.filename pid)).getD []).length).sum ≤ size

theorem filesBounded_of_consume (h : ElementaryStreamHandler) (access : Access)
    {factory : EsFactory OutputSink Files} {arrivals : List Arrival} {d : Demuxer OutputSink Files}
    (haddr : ∀ a ∈ arrivals, a.Addressable)
    (hconsume : consume factory (Demuxer.new files) arrivals = .ok d) :
    FilesBounded h (arrivals.map fun a => a.inner.length).sum files
      (Journal.replay files (h.journal access d.history))
      ((createdPids d.history).filter fun pid => access.writable (h.filename pid)) := by
  have hwrites : WritesFiles h access files d.history _ := writesFiles_of_consume hconsume
  refine ⟨hwrites.createdOnce.filter _, ?_, ?_⟩
  · intro name hname
    apply hwrites.others
    intro pid hmem hwritable
    exact hname pid (List.mem_filter.mpr ⟨hmem, hwritable⟩)
  · have hfiles : (((createdPids d.history).filter fun pid =>
        access.writable (h.filename pid)).map fun pid =>
          ((Journal.replay files (h.journal access d.history) (h.filename pid)).getD []).length) =
        ((createdPids d.history).filter fun pid => access.writable (h.filename pid)).map fun pid =>
          (dataOf (callbacksOf pid d.history)).length := by
      apply List.map_congr_left
      intro pid hmem
      obtain ⟨hcreated, hwritable⟩ := List.mem_filter.mp hmem
      rw [hwrites.contents pid hcreated hwritable]
      rfl
    rw [hfiles]
    exact Demuxer.sum_dataOf_le haddr hconsume (hwrites.createdOnce.filter _)

/-- **No more than it reads.** The input is any file: however `main` has returned, the output files together
hold no more bytes than it. -/
theorem main_conserves (tool : String) {content : List UInt8}
    (hinput : InputFile access files inputFilename outputPrefix content) {fuel : Nat}
    (hfuel : content.length < fuel) :
    IfReturns (main access fuel [tool, inputFilename, outputPrefix] files) fun r =>
      ∃ pids, FilesBounded ⟨outputPrefix⟩ content.length files r.2 pids := by
  obtain ⟨chunks, turns, final, hread, hrun⟩ := exists_run content
  rw [main_of_run tool hinput hread hrun hfuel]
  obtain ⟨turns', final', hrun', hl⟩ := Packetizer.mainLoop_spec
    (Packetizer.wellFormed_new bufferLimit) (Packetizer.new_isDepleted bufferLimit) hread.chunksFit
  rw [hrun, Except.ok.injEq, Prod.mk.injEq] at hrun'
  obtain ⟨rfl, rfl⟩ := hrun'
  have haddr := addressable_of_run hread hrun
  have hpackets := sum_inner_le hl haddr
  rw [Packetizer.unread_new, hread.flatten_eq] at hpackets
  apply ifReturns_deliver fun files' =>
    ∃ pids, FilesBounded ⟨outputPrefix⟩ content.length files files' pids
  intro before d hfront hconsume
  have hbefore := filesBounded_of_consume ⟨outputPrefix⟩ access
    (fun a ha => haddr a (hfront.subset ha)) hconsume
  have hfewer := (hfront.sublist.map fun a : Arrival => a.inner.length).sum_le_sum fun n _ => Nat.zero_le n
  exact ⟨_, hbefore.nodup, hbefore.others, hbefore.total.trans (hfewer.trans hpackets)⟩

theorem main_conserves_oneProgramFile :
    IfReturns (main anyFile ((framedStream oneProgramFile).length + 1) ["sandstream", "in.ts", "out"]
      (inputOnly (framedStream oneProgramFile))) fun r =>
        ∃ pids, FilesBounded ⟨"out"⟩ (framedStream oneProgramFile).length
          (inputOnly (framedStream oneProgramFile)) r.2 pids :=
  main_conserves "sandstream" (inputFile_inputOnly _) (Nat.lt_add_one _)

/-- **No other bytes than it reads.** The input ends with a packet and has few bytes between its packets,
whatever the packets are: however `main` has returned, a file that it has written for a PID holds bytes of
the payloads of the packets with this PID, in their order, each of them once. -/
theorem main_traces (tool : String) {content : List UInt8} {bound : Nat}
    (hintact : IntactFile content bound)
    (hinput : InputFile access files inputFilename outputPrefix content) {fuel : Nat}
    (hfuel : content.length < fuel) :
    IfReturns (main access fuel [tool, inputFilename, outputPrefix] files) fun r =>
      ∀ pid, r.2 ((ElementaryStreamHandler.mk outputPrefix).filename pid) =
          files ((ElementaryStreamHandler.mk outputPrefix).filename pid) ∨
        ∃ bytes, r.2 ((ElementaryStreamHandler.mk outputPrefix).filename pid) = some bytes ∧
          bytes.Sublist (((scan content).filter fun b => blockPid b = pid).flatMap blockPayload) := by
  set h := ElementaryStreamHandler.mk outputPrefix with hh
  obtain ⟨arrivals, hblocks, haddr, hmain⟩ := main_intact tool hintact hinput
  rw [hmain fuel hfuel, ← hh]
  apply ifReturns_deliver fun files' => ∀ pid, files' (h.filename pid) = files (h.filename pid) ∨
    ∃ bytes, files' (h.filename pid) = some bytes ∧
      bytes.Sublist (((scan content).filter fun b => blockPid b = pid).flatMap blockPayload)
  intro before d hfront hconsume pid
  have hwrites : WritesFiles h access files d.history _ := writesFiles_of_consume hconsume
  rcases hwrites.written_or_other (h.filename pid) with ⟨k, -, -, heq, hcontents⟩ | ⟨hother, -⟩
  · obtain rfl : pid = k := h.filename_injective heq
    refine Or.inr ⟨_, hcontents, ?_⟩
    rw [← packetsOf_flatMap_inner hblocks (synced_scan content) haddr]
    have hbefore := Demuxer.dataOf_sublist (fun a ha => haddr a (hfront.subset ha)) hconsume pid
    exact hbefore.trans ((Demuxer.packetsOf_sublist hfront pid).flatMap _)
  · exact Or.inl hother

theorem main_traces_oneProgramFile :
    IfReturns (main anyFile ((framedStream oneProgramFile).length + 1) ["sandstream", "in.ts", "out"]
      (inputOnly (framedStream oneProgramFile))) fun r =>
        ∀ pid, r.2 ((ElementaryStreamHandler.mk "out").filename pid) =
            inputOnly (framedStream oneProgramFile) ((ElementaryStreamHandler.mk "out").filename pid) ∨
          ∃ bytes, r.2 ((ElementaryStreamHandler.mk "out").filename pid) = some bytes ∧
            bytes.Sublist (((scan (framedStream oneProgramFile)).filter fun b =>
              blockPid b = pid).flatMap blockPayload) :=
  main_traces "sandstream" cleanFraming_oneProgramFile.intact (inputFile_inputOnly _)
    (Nat.lt_add_one _)

end Main

end Sandstream
