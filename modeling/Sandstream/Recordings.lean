import Mathlib
import Sandstream.Conservation
import Sandstream.Footprint
import Sandstream.Loss

/-! # Sandstream.Recordings -- one recording and another

What a file makes of `main` is decided by the parcels of its packets, where the output files can be opened
(`exists_returnsFrom`): two recordings of the same parcels have the same result, one that breaks off has
the beginning of it, and the parcels tell whether a run succeeds. A recording with losses still gives each
stream without losses in full.

`main_ends` and `main_twice` are about all inputs: a run comes to an end, and to run it again changes
nothing.
-/

namespace Sandstream

open Sandstream.Lib
open Sandstream.Lib.Resync (Framed framedStream residue)
open Demuxer (consume deliver acceptAll TakesAll TakesUpTo SurvivesLoss)
open ElementaryStreamHandler (deliver_eq_ok_iff deliver_thrown_iff deliver_again writesFiles_of_consume)

/-! ## The end of a run -/

theorem OutputSink.onData_ends (s : OutputSink) (buffer : Handed) (files : Files) :
    s.onData buffer files ≠ .error (.fault .outOfFuel) := by
  cases hopen : s.sink.isOpen with
  | false =>
    rw [OutputSink.onData, Ofstream.write_of_failed hopen]
    intro h
    cases h
  | true =>
    cases buffer with
    | inside bytes =>
      rw [OutputSink.onData, Ofstream.write_inside hopen]
      intro h
      cases h
    | outside b =>
      rw [OutputSink.onData, Ofstream.write_outside hopen]
      split_ifs
      · intro h
        cases h
      · intro h
        cases h

/-- Neither the demuxer nor a consumer of the tool goes on for ever. -/
theorem deliver_ends (h : ElementaryStreamHandler) (access : Access) (files : Files)
    {arrivals : List Arrival} (haddr : ∀ a ∈ arrivals, a.Addressable) :
    deliver (h.user access) (Demuxer.new files) arrivals ≠ .error (.fault .outOfFuel) := by
  intro hfails
  unfold deliver at hfails
  obtain ⟨before, a, after, d, rfl, hbefore, hstep⟩ := Runs.foldlM_error_iff.mp hfails
  obtain ⟨haddr, hlater⟩ := List.forall_mem_append.mp haddr
  obtain ⟨d₀, hconsume, -, rfl⟩ := deliver_eq_ok_iff.mp hbefore
  have hd := Demuxer.registered_of_consume haddr hconsume
  have hd' : Demuxer.Registered (d₀.withState (Journal.replay files (h.journal access d₀.history))) :=
    ⟨hd.pat, hd.patOnly, hd.keys, hd.bounded, hd.createdOnce, hd.created⟩
  rcases Demuxer.deliverPacket_eq_error_iff.mp hstep with ⟨e, he, hconsume⟩ | ⟨s, buffer, -, -, hdata⟩
  · obtain rfl := Abort.fault.inj he
    exact hd'.consumePacket_ends (hlater a List.mem_cons_self) hconsume
  · exact s.onData_ends _ _ hdata

section Ends

variable {access : Access} {files : Files} {inputFilename outputPrefix : String}
  {content : List UInt8}

/-- **`main` ends.** Whatever the input holds: the loops of `main`, of the packetizer and of the parsers
all come to their ends, if only by a fault. -/
theorem main_ends (tool : String)
    (hinput : InputFile access files inputFilename outputPrefix content) {fuel : Nat}
    (hfuel : content.length < fuel) :
    main access fuel [tool, inputFilename, outputPrefix] files ≠ .error .outOfFuel := by
  obtain ⟨chunks, turns, final, hread, hrun⟩ := exists_run content
  have hends := deliver_ends ⟨outputPrefix⟩ access files (addressable_of_run hread hrun)
  rw [main_of_run tool hinput hread hrun hfuel]
  exact fun hfails => hends (exitOf_eq_error_iff.mp hfails)

theorem main_ends_oneProgramFile :
    main anyFile ((framedStream oneProgramFile).length + 1) ["sandstream", "in.ts", "out"]
      (inputOnly (framedStream oneProgramFile)) ≠ .error .outOfFuel :=
  main_ends "sandstream" (inputFile_inputOnly _) (Nat.lt_add_one _)

/-- **Running `main` again changes nothing**, whatever the input holds and however the first run has
returned. -/
theorem main_twice (tool : String)
    (hinput : InputFile access files inputFilename outputPrefix content) {fuel : Nat}
    (hfuel : content.length < fuel) :
    IfReturns (main access fuel [tool, inputFilename, outputPrefix] files) fun r =>
      main access fuel [tool, inputFilename, outputPrefix] r.2 = .ok r := by
  obtain ⟨chunks, turns, final, hread, hrun⟩ := exists_run content
  have hmain : ∀ files, InputFile access files inputFilename outputPrefix content →
      main access fuel [tool, inputFilename, outputPrefix] files = _ :=
    fun files hinput => main_of_run tool hinput hread hrun hfuel
  -- the input is as it was
  have hkept : ∀ {before d}, deliver ((ElementaryStreamHandler.mk outputPrefix).user access)
      (Demuxer.new files) before = .ok d →
        InputFile access d.esCallbackFactory inputFilename outputPrefix content := by
    intro before d hbefore
    have hreached : Reached ⟨outputPrefix⟩ access files d := ⟨before, hbefore⟩
    exact ⟨hinput.readable, (hreached.other hinput.notOutput).trans hinput.contents, hinput.notOutput⟩
  rw [hmain files hinput]
  apply ifReturns_exitOf
  rw [ifEnds_iff]
  constructor
  · intro d hdeliver
    rw [hmain _ (hkept hdeliver), deliver_again hdeliver]
    rfl
  · intro files' hdeliver
    obtain ⟨before, a, after, d, hsplit, hbefore, hcannot, rfl⟩ := deliver_thrown_iff.mp hdeliver
    have hagain : deliver ((ElementaryStreamHandler.mk outputPrefix).user access)
        (Demuxer.new d.esCallbackFactory) ((Packetizer.allGets turns).map GetRecord.arrival) =
          .error (.thrown d.esCallbackFactory) :=
      deliver_thrown_iff.mpr ⟨before, a, after, d, hsplit, deliver_again hbefore, hcannot, rfl⟩
    rw [hmain _ (hkept hbefore), hagain]
    rfl

theorem main_twice_oneProgramFile :
    IfReturns (main anyFile ((framedStream oneProgramFile).length + 1) ["sandstream", "in.ts", "out"]
      (inputOnly (framedStream oneProgramFile))) fun r =>
        main anyFile ((framedStream oneProgramFile).length + 1) ["sandstream", "in.ts", "out"] r.2 =
          .ok r :=
  main_twice "sandstream" (inputFile_inputOnly _) (Nat.lt_add_one _)

end Ends

/-! ## The parcels of a file -/

/-- What the packets of a file carry. -/
def parcelsOf (content : List UInt8) : List Parcel := (scan content).map blockParcel

/-- How `main` returns from an input with these parcels: it takes `before` of them, which are all if it
succeeds, and writes what it has recorded. -/
structure ReturnsFrom (h : ElementaryStreamHandler) (access : Access) (files : Files)
    (parcels before : List Parcel) (d : Demuxer OutputSink Files) (r : ExitStatus × Files) : Prop where
  takes : TakesUpTo (h.user access).toEsFactory (Demuxer.new files) parcels before d
  success_iff : r.1 = .success ↔ before = parcels
  writes : WritesFiles h access files d.history r.2

section Accept

variable {h : ElementaryStreamHandler} {access : Access} {files : Files} {d : Demuxer OutputSink Files}
  {arrivals : List Arrival} {blocks : List (List UInt8)}

/-- A run of the tool that returns takes all parcels, where the output files can be opened. -/
theorem exists_accept_of_deliver (hopen : ∀ pid, access.writable (h.filename pid) = true)
    (hblocks : List.Forall₂ Arrival.IsOfBlock arrivals blocks) (hsynced : Demuxer.Synced blocks)
    (haddr : ∀ a ∈ arrivals, a.Addressable)
    (hdeliver : deliver (h.user access) (Demuxer.new files) arrivals = .ok d) :
    ∃ d₀, acceptAll (h.user access).toEsFactory (Demuxer.new files) (blocks.map blockParcel) = .ok d₀ ∧
      WritesFiles h access files d₀.history d.esCallbackFactory ∧
      d.packetStreams = d₀.packetStreams ∧ d.Bounded ∧ d.HandsOnInside := by
  obtain ⟨d₀, hconsume, hinside, rfl⟩ := deliver_eq_ok_iff.mp hdeliver
  rw [h.writesInside_iff access hopen] at hinside
  have haccept := ((Demuxer.handsOnInside_new files).run_accept_iff (Demuxer.bounded_new files) hblocks
    hsynced haddr).mp ⟨hconsume, hinside⟩
  exact ⟨d₀, haccept, writesFiles_of_consume hconsume, rfl,
    (Demuxer.registered_of_consume haddr hconsume).bounded, hinside⟩

/-- The parcel of a packet that cannot be written cannot be taken. -/
theorem not_takes_of_cannotWrite (factory : EsFactory OutputSink Files) {a : Arrival}
    {block : List UInt8} (hcannot : CannotWrite d a) (ha : a.IsOfBlock block)
    (hlength : block.length = tsPacketSize) (hsync : block[0]? = some tsSyncByte)
    (haddr : a.Addressable) (hbounded : d.Bounded) (hinside : d.HandsOnInside) :
    ¬ d.Takes (blockParcel block) := by
  intro htakes
  obtain ⟨s, hk, -⟩ := hcannot.registered
  obtain ⟨b, hput, hvalid, -⟩ := hcannot.negative
  obtain ⟨d', haccept⟩ : ∃ d', Demuxer.acceptPacket factory d (blockParcel block) = .ok d' :=
    (Demuxer.acceptPacket_returns_iff d _).mpr htakes
  obtain ⟨hstep, hinside'⟩ :=
    (Demuxer.consumePacket_accept_iff ha hlength hsync haddr hbounded hinside).mpr haccept
  -- its handler would have handed on the buffer
  rw [Demuxer.consumePacket_parserPes hk, hput] at hstep
  obtain rfl := Except.ok.inj hstep
  have hcallback := hinside' a.packet.pid (.onData (b.handed a.storage))
    (List.mem_append_right _ List.mem_cons_self)
  rw [ConstBuffer.handed_of_not_validIn hvalid] at hcallback
  exact hcallback

/-- A run of the tool that throws gets to a parcel that cannot be taken. -/
theorem exists_refused_of_deliver {files' : Files}
    (hopen : ∀ pid, access.writable (h.filename pid) = true)
    (hblocks : List.Forall₂ Arrival.IsOfBlock arrivals blocks) (hsynced : Demuxer.Synced blocks)
    (haddr : ∀ a ∈ arrivals, a.Addressable)
    (hdeliver : deliver (h.user access) (Demuxer.new files) arrivals = .error (.thrown files')) :
    ∃ first block rest d₀, blocks = first ++ block :: rest ∧
      acceptAll (h.user access).toEsFactory (Demuxer.new files) (first.map blockParcel) = .ok d₀ ∧
      WritesFiles h access files d₀.history files' ∧ ¬ d₀.Takes (blockParcel block) := by
  obtain ⟨before, a, after, d, rfl, hbefore, hcannot, rfl⟩ := deliver_thrown_iff.mp hdeliver
  obtain ⟨haddr, hlater⟩ := List.forall_mem_append.mp haddr
  obtain ⟨first, blocks', rfl, hfirst, hrest⟩ := forall₂_append_left hblocks
  obtain ⟨block, rest, ha, -, rfl⟩ := List.forall₂_cons_left_iff.mp hrest
  obtain ⟨hsynced, hblock⟩ := List.forall_mem_append.mp hsynced
  obtain ⟨⟨hlength, hsync⟩, -⟩ := List.forall_mem_cons.mp hblock
  obtain ⟨d₀, haccept, hwrites, hstreams, hbounded, hinside⟩ :=
    exists_accept_of_deliver hopen hfirst hsynced haddr hbefore
  refine ⟨first, block, rest, d₀, rfl, haccept, hwrites, ?_⟩
  have hrefused := not_takes_of_cannotWrite (h.user access).toEsFactory hcannot ha hlength hsync
    (hlater a List.mem_cons_self) hbounded hinside
  unfold Demuxer.Takes at hrefused ⊢
  rwa [hstreams] at hrefused

end Accept

section Files

variable {access : Access} {files : Files} {inputFilename outputPrefix : String}
  {content : List UInt8} {bound : Nat}

/-- `main` takes parcels up to the first that its handler cannot take. -/
theorem exists_returnsFrom (tool : String) (hintact : IntactFile content bound)
    (hinput : InputFile access files inputFilename outputPrefix content)
    (hopen : ∀ pid, access.writable ((ElementaryStreamHandler.mk outputPrefix).filename pid) = true)
    {fuel : Nat} (hfuel : content.length < fuel) {r : ExitStatus × Files}
    (hrun : main access fuel [tool, inputFilename, outputPrefix] files = .ok r) :
    ∃ before d, ReturnsFrom ⟨outputPrefix⟩ access files (parcelsOf content) before d r := by
  have hsynced := synced_scan content
  obtain ⟨arrivals, hblocks, haddr, hmain⟩ := main_intact tool hintact hinput
  rw [hmain fuel hfuel] at hrun
  obtain ⟨status, files'⟩ := r
  cases status with
  | success =>
    obtain ⟨d, hdeliver, rfl⟩ := exitOf_success_iff.mp hrun
    obtain ⟨d₀, haccept, hwrites, -⟩ := exists_accept_of_deliver hopen hblocks hsynced haddr hdeliver
    exact ⟨_, d₀, .of_all haccept, iff_of_true rfl rfl, hwrites⟩
  | failure =>
    obtain ⟨first, block, rest, d₀, hsplit, haccept, hwrites, hrefused⟩ :=
      exists_refused_of_deliver hopen hblocks hsynced haddr (exitOf_failure_iff.mp hrun)
    have hparcels : parcelsOf content =
        first.map blockParcel ++ blockParcel block :: rest.map blockParcel := by
      rw [parcelsOf, hsplit, List.map_append, List.map_cons]
    refine ⟨first.map blockParcel, d₀, ?_, ?_, hwrites⟩
    · rw [hparcels]
      exact .of_refused haccept hrefused
    · refine iff_of_false ?_ ?_
      · intro hstatus
        cases hstatus
      · rw [hparcels]
        simp

/-- **When `main` succeeds.** All output files can be opened: then the handler of each packet, if there is
one by then, can take what the packet carries; there is no other condition on the input. -/
theorem main_succeeds_iff (tool : String) (hintact : IntactFile content bound)
    (hinput : InputFile access files inputFilename outputPrefix content)
    (hopen : ∀ pid, access.writable ((ElementaryStreamHandler.mk outputPrefix).filename pid) = true)
    {fuel : Nat} (hfuel : content.length < fuel) :
    (∃ files', main access fuel [tool, inputFilename, outputPrefix] files = .ok (.success, files')) ↔
      TakesAll ((ElementaryStreamHandler.mk outputPrefix).user access).toEsFactory
        (Demuxer.new files) (parcelsOf content) := by
  rw [← Demuxer.accepts_iff]
  constructor
  · rintro ⟨files', hrun⟩
    obtain ⟨before, d, hreturns⟩ := exists_returnsFrom tool hintact hinput hopen hfuel hrun
    obtain rfl := hreturns.success_iff.mp rfl
    exact ⟨d, hreturns.takes.taken⟩
  · rintro ⟨d, haccept⟩
    obtain ⟨arrivals, hblocks, haddr, hmain⟩ := main_intact tool hintact hinput
    obtain ⟨hconsume, hinside⟩ := ((Demuxer.handsOnInside_new files).run_accept_iff
      (Demuxer.bounded_new files) hblocks (synced_scan content) haddr).mpr haccept
    rw [hmain fuel hfuel, ElementaryStreamHandler.deliver_of_consume hconsume hinside]
    exact ⟨_, rfl⟩

theorem main_succeeds_iff_oneProgramFile :
    ∃ files', main anyFile ((framedStream oneProgramFile).length + 1) ["sandstream", "in.ts", "out"]
      (inputOnly (framedStream oneProgramFile)) = .ok (.success, files') := by
  apply (main_succeeds_iff "sandstream" cleanFraming_oneProgramFile.intact (inputFile_inputOnly _)
    (fun _ => rfl) (Nat.lt_add_one _)).mpr
  unfold parcelsOf
  rw [scan_oneProgramFile]
  decide +kernel

/-! ## Two recordings -/

section Two

variable {inputFilename' : String} {content' : List UInt8} {bound' : Nat}

/-- **The parcels decide.** All output files can be opened: two recordings of the same parcels, wherever
their packets stand in the files and whatever is in the rest of their headers and in their adaptation
fields, both succeed or none does, and when `main` returns from both, it is with the same status and the
same files. -/
theorem main_same_parcels (tool : String) (hsame : parcelsOf content' = parcelsOf content)
    (hintact : IntactFile content bound) (hintact' : IntactFile content' bound')
    (hinput : InputFile access files inputFilename outputPrefix content)
    (hinput' : InputFile access files inputFilename' outputPrefix content')
    (hopen : ∀ pid, access.writable ((ElementaryStreamHandler.mk outputPrefix).filename pid) = true)
    {fuel : Nat} (hfuel : content.length < fuel) (hfuel' : content'.length < fuel) :
    ((∃ files', main access fuel [tool, inputFilename', outputPrefix] files = .ok (.success, files')) ↔
      ∃ files', main access fuel [tool, inputFilename, outputPrefix] files = .ok (.success, files')) ∧
    IfReturns (main access fuel [tool, inputFilename, outputPrefix] files) fun r =>
      IfReturns (main access fuel [tool, inputFilename', outputPrefix] files) fun r' => r' = r := by
  constructor
  · rw [main_succeeds_iff tool hintact hinput hopen hfuel,
      main_succeeds_iff tool hintact' hinput' hopen hfuel', hsame]
  · rw [ifReturns_iff]
    intro r hrun
    rw [ifReturns_iff]
    intro r' hrun'
    obtain ⟨before, d, hreturns⟩ := exists_returnsFrom tool hintact hinput hopen hfuel hrun
    obtain ⟨before', d', hreturns'⟩ := exists_returnsFrom tool hintact' hinput' hopen hfuel' hrun'
    rw [hsame] at hreturns'
    obtain ⟨rfl, rfl⟩ := hreturns.takes.unique hreturns'.takes
    have hstatus : r'.1 = r.1 := by
      have hiff := hreturns'.success_iff.trans hreturns.success_iff.symm
      cases h : r.1 with
      | success => exact hiff.mpr h
      | failure =>
        cases h' : r'.1 with
        | failure => rfl
        | success => exact absurd ((hiff.mp h').symm.trans h) (by simp)
    have hfiles : r'.2 = r.2 := hreturns.writes.eq_of_others hreturns'.writes fun _ _ => rfl
    exact Prod.ext hstatus hfiles

/-- A directory with two inputs. -/
def twoInputs (content content' : List UInt8) : Files := fun name =>
  if name = "in.ts" then some content else if name = "copy.ts" then some content' else none

theorem inputFile_twoInputs (content content' : List UInt8) :
    InputFile anyFile (twoInputs content content') "in.ts" "out" content ∧
      InputFile anyFile (twoInputs content content') "copy.ts" "out" content' :=
  ⟨inputFile_of_head (if_pos rfl) (by decide), inputFile_of_head rfl (by decide)⟩

/-- The packets of `oneProgramFile` without the bytes in front of them. -/
def oneProgramPlain : List ExtendedPacket :=
  Multiplex.OneProgram.multiplex.packets.map (MuxPacket.extended [] [])

theorem main_same_parcels_oneProgramPlain :
    ((∃ files', main anyFile ((framedStream oneProgramFile ++ framedStream oneProgramPlain).length + 1)
        ["sandstream", "copy.ts", "out"]
        (twoInputs (framedStream oneProgramFile) (framedStream oneProgramPlain)) =
          .ok (.success, files')) ↔
      ∃ files', main anyFile ((framedStream oneProgramFile ++ framedStream oneProgramPlain).length + 1)
        ["sandstream", "in.ts", "out"]
        (twoInputs (framedStream oneProgramFile) (framedStream oneProgramPlain)) =
          .ok (.success, files')) ∧
    IfReturns (main anyFile ((framedStream oneProgramFile ++ framedStream oneProgramPlain).length + 1)
        ["sandstream", "in.ts", "out"]
        (twoInputs (framedStream oneProgramFile) (framedStream oneProgramPlain))) fun r =>
      IfReturns (main anyFile ((framedStream oneProgramFile ++ framedStream oneProgramPlain).length + 1)
        ["sandstream", "copy.ts", "out"]
        (twoInputs (framedStream oneProgramFile) (framedStream oneProgramPlain))) fun r' => r' = r := by
  obtain ⟨hinput, hinput'⟩ :=
    inputFile_twoInputs (framedStream oneProgramFile) (framedStream oneProgramPlain)
  have hclean : tsSyncByte ∉ ([] : List UInt8) := List.not_mem_nil
  have hsame : parcelsOf (framedStream oneProgramPlain) = parcelsOf (framedStream oneProgramFile) := by
    unfold parcelsOf
    rw [scan_oneProgramFile]
    exact congrArg _ (scan_extended hclean (by decide) _)
  apply main_same_parcels _ hsame cleanFraming_oneProgramFile.intact
    (cleanFraming_extended hclean (by decide) _).intact hinput hinput' fun _ => rfl
  · rw [List.length_append]
    omega
  · rw [List.length_append]
    omega

/-- **A recording that breaks off.** All output files can be opened, and a part of the recording ends with
a packet. If `main` succeeds on the whole, it succeeds on the part. However it returns from both, the
files it has written for the part hold the beginning of what those of the whole hold. -/
theorem main_truncated (tool : String) {front : List UInt8}
    (hintact : IntactFile content bound) (hfront : front <+: content)
    (hends : residue tsSyncByte tsPacketSize front = [])
    (hinput : InputFile access files inputFilename outputPrefix content)
    (hinput' : InputFile access files inputFilename' outputPrefix front)
    (hopen : ∀ pid, access.writable ((ElementaryStreamHandler.mk outputPrefix).filename pid) = true)
    {fuel : Nat} (hfuel : content.length < fuel) :
    IfReturns (main access fuel [tool, inputFilename, outputPrefix] files) fun r =>
      (r.1 = .success → Returns (main access fuel [tool, inputFilename', outputPrefix] files) fun r' =>
        r'.1 = .success) ∧
      IfReturns (main access fuel [tool, inputFilename', outputPrefix] files) fun r' =>
        ∀ name, r'.2 name = files name ∨
          ∃ bytes more, r'.2 name = some bytes ∧ r.2 name = some (bytes ++ more) := by
  set h := ElementaryStreamHandler.mk outputPrefix with hh
  obtain ⟨rest, rfl⟩ := hfront
  have hfuel' : front.length < fuel := by
    rw [List.length_append] at hfuel
    omega
  have hintact' : IntactFile front bound := ⟨hintact.gaps.left, hends, hintact.room⟩
  have hparcels : parcelsOf (front ++ rest) = parcelsOf front ++ parcelsOf rest := by
    unfold parcelsOf
    rw [scan_append hends, List.map_append]
  rw [ifReturns_iff]
  intro r hrun
  obtain ⟨before, d, hreturns⟩ := exists_returnsFrom tool hintact hinput hopen hfuel hrun
  rw [hparcels] at hreturns
  constructor
  · intro hsuccess
    obtain rfl := hreturns.success_iff.mp hsuccess
    have hall := hreturns.takes.taken
    rw [acceptAll, List.foldlM_append, bind_eq_ok_iff] at hall
    obtain ⟨d', haccept, -⟩ := hall
    obtain ⟨files', hrun'⟩ := (main_succeeds_iff tool hintact' hinput' hopen hfuel').mpr
      ((Demuxer.accepts_iff _ _).mp ⟨d', haccept⟩)
    rw [hrun']
    exact returns_ok.mpr rfl
  · rw [ifReturns_iff]
    intro r' hrun' name
    obtain ⟨before', d', hreturns'⟩ := exists_returnsFrom tool hintact' hinput' hopen hfuel' hrun'
    obtain ⟨more, hmore⟩ := hreturns.takes.history_isPrefix hreturns'.takes (List.prefix_append _ _)
    rcases hreturns'.writes.written_or_other name with
      ⟨pid, hcreated, hwritable, rfl, hcontents⟩ | ⟨hother, -⟩
    · have hcreated' : pid ∈ createdPids d.history := by
        rw [← hmore, createdPids_append]
        exact List.mem_append_left _ hcreated
      refine Or.inr ⟨_, dataOf (callbacksOf pid more), hcontents, ?_⟩
      rw [← dataOf_append, ← callbacksOf_append, hmore]
      exact hreturns.writes.contents pid hcreated' hwritable
    · exact Or.inl hother

theorem main_truncated_oneProgramFile :
    IfReturns (main anyFile ((framedStream oneProgramFile).length + 1) ["sandstream", "in.ts", "out"]
      (twoInputs (framedStream oneProgramFile) (framedStream (oneProgramFile.take 3)))) fun r =>
        (r.1 = .success → Returns (main anyFile ((framedStream oneProgramFile).length + 1)
          ["sandstream", "copy.ts", "out"]
          (twoInputs (framedStream oneProgramFile) (framedStream (oneProgramFile.take 3)))) fun r' =>
            r'.1 = .success) ∧
        IfReturns (main anyFile ((framedStream oneProgramFile).length + 1)
          ["sandstream", "copy.ts", "out"]
          (twoInputs (framedStream oneProgramFile) (framedStream (oneProgramFile.take 3)))) fun r' =>
            ∀ name,
              r'.2 name = twoInputs (framedStream oneProgramFile)
                (framedStream (oneProgramFile.take 3)) name ∨
              ∃ bytes more, r'.2 name = some bytes ∧ r.2 name = some (bytes ++ more) := by
  obtain ⟨hinput, hinput'⟩ :=
    inputFile_twoInputs (framedStream oneProgramFile) (framedStream (oneProgramFile.take 3))
  have hfront : framedStream (oneProgramFile.take 3) <+: framedStream oneProgramFile := by
    refine ⟨framedStream (oneProgramFile.drop 3), ?_⟩
    unfold framedStream
    rw [← List.flatMap_append, List.take_append_drop]
  have hends : IntactFile (framedStream (oneProgramFile.take 3)) (0 + 4) := by
    unfold oneProgramFile
    rw [← List.map_take]
    exact (cleanFraming_extended (by decide) (by decide) _).intact
  exact main_truncated _ cleanFraming_oneProgramFile.intact hfront hends.ends hinput hinput'
    (fun _ => rfl) (Nat.lt_add_one _)

end Two

/-! ## Losses -/

/-- The files after a run on a multiplex of which packets of the PIDs in `lossy` may be missing. -/
structure Received (m : Multiplex) (lossy : UInt16 → Prop) (h : ElementaryStreamHandler)
    (access : Access) (files files' : Files) : Prop where
  /-- a listed stream without losses is there as a whole -/
  complete : ∀ pid, m.Listed pid → ¬ lossy pid → access.writable (h.filename pid) = true →
    files' (h.filename pid) = some ((m.es pid).flatMap PesPacket.data)
  /-- one with losses lacks some of its bytes -/
  partly : ∀ pid, m.Listed pid → access.writable (h.filename pid) = true →
    ∃ bytes, files' (h.filename pid) = some bytes ∧
      bytes.Sublist ((m.es pid).flatMap PesPacket.data)
  /-- and nothing else has changed -/
  others : ∀ name, (∀ pid, m.Listed pid → access.writable (h.filename pid) = true →
    name ≠ h.filename pid) → files' name = files name

theorem dataOf_sublist {calls calls' : List Callback} (h : calls.Sublist calls') :
    (dataOf calls).Sublist (dataOf calls') :=
  h.flatMap _

/-- The packets of a multiplex that were sent, of which these are left. -/
theorem Multiplex.exists_sent (m : Multiplex) {lossy : UInt16 → Prop} {arrivals : List Arrival}
    {blocks : List (List UInt8)} (hblocks : List.Forall₂ Arrival.IsOfBlock arrivals blocks)
    (hlost : Lost (fun b => lossy (blockPid b)) (m.packets.map MuxPacket.bytes) blocks) :
    ∃ sent, List.Forall₂ MuxPacket.Arrives sent m.packets ∧
      Lost (fun a => lossy a.packet.pid) sent arrivals := by
  obtain ⟨sent, hsent, hleft⟩ : ∃ sent, List.Forall₂ Arrival.IsOfBlock sent
      (m.packets.map MuxPacket.bytes) ∧ Lost (fun a => lossy a.packet.pid) sent arrivals := by
    apply hlost.exists_sent hblocks
    intro b hb
    obtain ⟨p, -, rfl⟩ := List.mem_map.mp hb
    have hblock := isOfBlock_blockArrival p.bytes_length p.bytes_sync
    refine ⟨_, hblock, fun hlossy => ?_⟩
    rwa [hblock.pid_eq p.bytes_length p.bytes_sync]
  have harrive : List.Forall₂ (fun a p => Arrival.IsOfBlock a (MuxPacket.bytes p)) sent m.packets :=
    List.forall₂_map_right_iff.mp hsent
  exact ⟨sent, harrive, hleft⟩

/-- What is left of a run on a multiplex, in the files. -/
theorem Received.of_survivesLoss {m : Multiplex} {lossy : UInt16 → Prop} {h : ElementaryStreamHandler}
    {d d' : Demuxer OutputSink Files} {files' : Files} (hleft : SurvivesLoss lossy d d')
    (hcreated : ∀ pid, pid ∈ createdPids d.history ↔ m.Listed pid)
    (hdelivered : ∀ pid ∈ m.esPids,
      dataOf (callbacksOf pid d.history) = (m.es pid).flatMap PesPacket.data)
    (hwrites : WritesFiles h access files d'.history files') :
    Received m lossy h access files files' := by
  have hcreated' : ∀ pid, pid ∈ createdPids d'.history ↔ m.Listed pid := by
    intro pid
    rw [← hcreated pid]
    unfold createdPids
    rw [hleft.creates]
  constructor
  · intro pid hlisted hlossy hwritable
    rw [← hdelivered pid (m.esPid_of_listed hlisted), ← hleft.untouched pid hlossy]
    exact hwrites.contents pid ((hcreated' pid).mpr hlisted) hwritable
  · intro pid hlisted hwritable
    refine ⟨_, hwrites.contents pid ((hcreated' pid).mpr hlisted) hwritable, ?_⟩
    rw [← hdelivered pid (m.esPid_of_listed hlisted)]
    exact dataOf_sublist (hleft.partly pid)
  · intro name hother
    apply hwrites.others name
    intro pid hmem
    exact hother pid ((hcreated' pid).mp hmem)

/-- **Losses stay where they are.** The input has the packets of a multiplex, but some packets that are
not of its tables are missing: `main` succeeds, the streams that have lost none are there as a whole, and
the others lack bytes but have no wrong ones. -/
theorem main_survives_loss (m : Multiplex) (tool : String) {lossy : UInt16 → Prop}
    (hpat : ¬ lossy 0) (hpmt : ∀ q ∈ m.pmtPids, ¬ lossy q)
    (hlost : Lost (fun b => lossy (blockPid b)) (m.packets.map MuxPacket.bytes) (scan content))
    (hintact : IntactFile content bound)
    (hinput : InputFile access files inputFilename outputPrefix content) {fuel : Nat}
    (hfuel : content.length < fuel) :
    Returns (main access fuel [tool, inputFilename, outputPrefix] files) fun r =>
      r.1 = .success ∧ Received m lossy ⟨outputPrefix⟩ access files r.2 := by
  set h := ElementaryStreamHandler.mk outputPrefix with hh
  obtain ⟨arrivals, hblocks, -, hmain⟩ := main_intact tool hintact hinput
  obtain ⟨sent, harrive, hlost⟩ := m.exists_sent hblocks hlost
  obtain ⟨d, hconsume, hinside, hcreated, hdelivered, hhandlers⟩ :=
    m.exists_consume (h.user access).toEsFactory files harrive
  have hes : ∀ pid, lossy pid → ∀ g, d.packetStreams[pid]? = some g →
      ∃ consumer, g = .parserPes consumer := by
    intro pid hlossy g hk
    rcases hhandlers pid g hk with rfl | hq | hes
    · exact absurd hlossy hpat
    · exact absurd hlossy (hpmt pid hq)
    · exact hes
  obtain ⟨d', hconsume', hleft⟩ := (SurvivesLoss.refl (Demuxer.new files)).consume hlost hconsume hes
  rw [hmain fuel hfuel,
    ElementaryStreamHandler.deliver_of_consume hconsume' (hleft.handsOnInside hinside)]
  exact returns_ok.mpr
    ⟨rfl, .of_survivesLoss hleft hcreated hdelivered (writesFiles_of_consume hconsume')⟩

/-- The packets of `OneProgram` but the first of its stream. -/
def onePacketLost : List MuxPacket :=
  [.frame Multiplex.OneProgram.patFrame, .frame Multiplex.OneProgram.pmtFrame,
    .other Multiplex.OneProgram.nullBlock Multiplex.OneProgram.nullBlock_length
      Multiplex.OneProgram.nullBlock_sync,
    .frame Multiplex.OneProgram.lastPesFrame]

theorem main_survives_loss_onePacketLost :
    Returns (main anyFile
      ((framedStream (onePacketLost.map (MuxPacket.extended [] []))).length + 1)
      ["sandstream", "in.ts", "out"]
      (inputOnly (framedStream (onePacketLost.map (MuxPacket.extended [] []))))) fun r =>
        r.1 = .success ∧ Received Multiplex.OneProgram.multiplex (· = 0x101) ⟨"out"⟩ anyFile
          (inputOnly (framedStream (onePacketLost.map (MuxPacket.extended [] [])))) r.2 := by
  have hclean : tsSyncByte ∉ ([] : List UInt8) := List.not_mem_nil
  have hlost : Lost (fun b => blockPid b = 0x101)
      (Multiplex.OneProgram.multiplex.packets.map MuxPacket.bytes)
      (scan (framedStream (onePacketLost.map (MuxPacket.extended [] [])))) := by
    rw [scan_extended hclean (by decide)]
    exact .arrives _ (.arrives _ (.drops (by decide +kernel) (.arrives _ (.arrives _ .nil))))
  apply main_survives_loss _ _ (by decide) _ hlost (cleanFraming_extended hclean (by decide) _).intact
    (inputFile_inputOnly _) (Nat.lt_add_one _)
  intro q hq
  obtain rfl := List.mem_singleton.mp hq
  decide

/-! ## Streams of others -/

/-- `parser_pes_t`. -/
def Handler.isParserPes {κ : Type} : Handler κ → Bool
  | .parserPes _ => true
  | _ => false

theorem Handler.exists_of_isParserPes {κ : Type} {g : Handler κ} (hg : g.isParserPes = true) :
    ∃ consumer, g = .parserPes consumer := by
  cases g with
  | parserPat sectionData => exact nomatch hg
  | parserPmt sectionData => exact nomatch hg
  | parserPes consumer => exact ⟨consumer, rfl⟩

/-- No PID in `lossy` gets a table parser on the parcels. -/
def NoTables (factory : EsFactory OutputSink Files) (files : Files) (lossy : UInt16 → Prop)
    (parcels : List Parcel) : Prop :=
  ∀ d, acceptAll factory (Demuxer.new files) parcels = .ok d →
    ∀ e ∈ d.packetStreams.toList, lossy e.1 → e.2.isParserPes = true

instance (factory : EsFactory OutputSink Files) (files : Files) (lossy : UInt16 → Prop)
    [DecidablePred lossy] (parcels : List Parcel) :
    Decidable (NoTables factory files lossy parcels) :=
  have : Decidable (∀ d, acceptAll factory (Demuxer.new files) parcels = .ok d →
      ∀ e ∈ d.packetStreams.toList, lossy e.1 → e.2.isParserPes = true) :=
    match acceptAll factory (Demuxer.new files) parcels with
    | .error _ => isTrue fun _ hd => nomatch hd
    | .ok d => decidable_of_iff (∀ e ∈ d.packetStreams.toList, lossy e.1 → e.2.isParserPes = true)
        ⟨fun hes _ hd => Except.ok.inj hd ▸ hes, fun hes => hes d rfl⟩
  this

theorem isOfBlock_filter_pid (keep : UInt16 → Bool) {arrivals : List Arrival}
    {blocks : List (List UInt8)} (hblocks : List.Forall₂ Arrival.IsOfBlock arrivals blocks)
    (hsynced : Demuxer.Synced blocks) :
    List.Forall₂ Arrival.IsOfBlock (arrivals.filter fun a => keep a.packet.pid)
      (blocks.filter fun b => keep (blockPid b)) := by
  induction hblocks with
  | nil => exact .nil
  | @cons a block arrivals blocks ha _ ih =>
    obtain ⟨⟨hlength, hsync⟩, hsynced⟩ := List.forall_mem_cons.mp hsynced
    rw [List.filter_cons, List.filter_cons, ha.pid_eq hlength hsync]
    split_ifs
    · exact .cons ha (ih hsynced)
    · exact ih hsynced

/-- A run of `main` that succeeds, and the run on the parcels that are not of the PIDs in `lossy`. -/
theorem exists_rest (tool : String) {lossy : UInt16 → Prop} [DecidablePred lossy]
    (hintact : IntactFile content bound)
    (hinput : InputFile access files inputFilename outputPrefix content)
    (hopen : ∀ pid, access.writable ((ElementaryStreamHandler.mk outputPrefix).filename pid) = true)
    (hes : NoTables ((ElementaryStreamHandler.mk outputPrefix).user access).toEsFactory files lossy
      (parcelsOf content)) {fuel : Nat} (hfuel : content.length < fuel) {files' : Files}
    (hrun : main access fuel [tool, inputFilename, outputPrefix] files = .ok (.success, files')) :
    ∃ d d', WritesFiles ⟨outputPrefix⟩ access files d.history files' ∧
      acceptAll ((ElementaryStreamHandler.mk outputPrefix).user access).toEsFactory
        (Demuxer.new files) ((parcelsOf content).filter fun x => ¬ lossy x.1) = .ok d' ∧
      SurvivesLoss lossy d d' := by
  obtain ⟨before, d, hreturns⟩ := exists_returnsFrom tool hintact hinput hopen hfuel hrun
  obtain rfl := hreturns.success_iff.mp rfl
  obtain ⟨arrivals, hblocks, haddr, -⟩ := main_intact tool hintact hinput
  have hsynced := synced_scan content
  obtain ⟨hconsume, hinside⟩ := ((Demuxer.handsOnInside_new files).run_accept_iff
    (Demuxer.bounded_new files) hblocks hsynced haddr).mpr hreturns.takes.taken
  obtain ⟨d', hconsume', hleft⟩ := (SurvivesLoss.refl (Demuxer.new files)).consume
    (Lost.filter (fun a : Arrival => lossy a.packet.pid) arrivals) hconsume fun pid hlossy g hk =>
      Handler.exists_of_isParserPes (hes d hreturns.takes.taken (pid, g)
        (Std.ExtTreeMap.mem_toList_iff_getElem?_eq_some.mpr hk) hlossy)
  refine ⟨d, d', hreturns.writes, ?_, hleft⟩
  have hfilter : (parcelsOf content).filter (fun x => ¬ lossy x.1) =
      ((scan content).filter fun b => ¬ lossy (blockPid b)).map blockParcel := by
    unfold parcelsOf
    rw [List.filter_map]
    rfl
  rw [hfilter]
  refine ((Demuxer.handsOnInside_new files).run_accept_iff (Demuxer.bounded_new files)
    (isOfBlock_filter_pid (fun pid => ¬ lossy pid) hblocks hsynced) ?_ ?_).mp
      ⟨hconsume', hleft.handsOnInside hinside⟩
  · intro b hb
    exact hsynced b (List.mem_filter.mp hb).1
  · intro a ha
    exact haddr a (List.mem_filter.mp ha).1

/-- **Streams do not disturb each other.** All output files can be opened. Two inputs differ in packets of
some PIDs, in what they carry, in their number or in their places, and none of these PIDs is one of a
table: when `main` succeeds on both, every file is the same after both, but for those of these PIDs. -/
theorem main_isolates (tool : String) {lossy : UInt16 → Prop} [DecidablePred lossy]
    {inputFilename' : String} {content' : List UInt8} {bound' : Nat}
    (hsame : (parcelsOf content').filter (fun x => ¬ lossy x.1) =
      (parcelsOf content).filter fun x => ¬ lossy x.1)
    (hintact : IntactFile content bound) (hintact' : IntactFile content' bound')
    (hinput : InputFile access files inputFilename outputPrefix content)
    (hinput' : InputFile access files inputFilename' outputPrefix content')
    (hopen : ∀ pid, access.writable ((ElementaryStreamHandler.mk outputPrefix).filename pid) = true)
    (hes : NoTables ((ElementaryStreamHandler.mk outputPrefix).user access).toEsFactory files lossy
      (parcelsOf content))
    (hes' : NoTables ((ElementaryStreamHandler.mk outputPrefix).user access).toEsFactory files lossy
      (parcelsOf content')) {fuel : Nat} (hfuel : content.length < fuel)
    (hfuel' : content'.length < fuel) :
    IfReturns (main access fuel [tool, inputFilename, outputPrefix] files) fun r =>
      IfReturns (main access fuel [tool, inputFilename', outputPrefix] files) fun r' =>
        r.1 = .success → r'.1 = .success → ∀ name,
          (∀ pid, lossy pid → name ≠ (ElementaryStreamHandler.mk outputPrefix).filename pid) →
            r'.2 name = r.2 name := by
  set h := ElementaryStreamHandler.mk outputPrefix with hh
  rw [ifReturns_iff]
  rintro ⟨status, files₁⟩ hrun
  rw [ifReturns_iff]
  rintro ⟨status', files₂⟩ hrun' hstatus hstatus' name hname
  obtain rfl : status = .success := hstatus
  obtain rfl : status' = .success := hstatus'
  obtain ⟨d, rest, hwrites, hrest, hleft⟩ := exists_rest tool hintact hinput hopen hes hfuel hrun
  obtain ⟨d', rest', hwrites', hrest', hleft'⟩ :=
    exists_rest tool hintact' hinput' hopen hes' hfuel' hrun'
  -- what is left of both inputs is the same
  rw [hsame, hrest, Except.ok.injEq] at hrest'
  obtain rfl := hrest'
  have hcreated : createdPids d'.history = createdPids d.history := by
    unfold createdPids
    rw [← hleft.creates, ← hleft'.creates]
  rcases hwrites.written_or_other name with ⟨pid, hmem, hwritable, rfl, hcontents⟩ | ⟨hthere, hother⟩
  · have hkept : ¬ lossy pid := fun hlossy => hname pid hlossy rfl
    have hcontents' := hwrites'.contents pid (hcreated ▸ hmem) hwritable
    rw [← hleft.untouched pid hkept] at hcontents
    rw [← hleft'.untouched pid hkept] at hcontents'
    exact hcontents'.trans hcontents.symm
  · rw [← hcreated] at hother
    exact (hwrites'.others name hother).trans hthere.symm

theorem main_isolates_onePacketLost :
    IfReturns (main anyFile ((framedStream oneProgramFile).length + 1) ["sandstream", "in.ts", "out"]
      (twoInputs (framedStream oneProgramFile)
        (framedStream (onePacketLost.map (MuxPacket.extended [] []))))) fun r =>
      IfReturns (main anyFile ((framedStream oneProgramFile).length + 1)
        ["sandstream", "copy.ts", "out"]
        (twoInputs (framedStream oneProgramFile)
          (framedStream (onePacketLost.map (MuxPacket.extended [] []))))) fun r' =>
        r.1 = .success → r'.1 = .success → ∀ name,
          (∀ pid, pid = 0x101 → name ≠ (ElementaryStreamHandler.mk "out").filename pid) →
            r'.2 name = r.2 name := by
  obtain ⟨hinput, hinput'⟩ := inputFile_twoInputs (framedStream oneProgramFile)
    (framedStream (onePacketLost.map (MuxPacket.extended [] [])))
  have hclean : tsSyncByte ∉ ([] : List UInt8) := List.not_mem_nil
  have hparcels : parcelsOf (framedStream oneProgramFile) =
      (Multiplex.OneProgram.multiplex.packets.map MuxPacket.bytes).map blockParcel :=
    congrArg _ scan_oneProgramFile
  have hparcels' : parcelsOf (framedStream (onePacketLost.map (MuxPacket.extended [] []))) =
      (onePacketLost.map MuxPacket.bytes).map blockParcel :=
    congrArg _ (scan_extended hclean (by decide) _)
  have hsame : (parcelsOf (framedStream (onePacketLost.map (MuxPacket.extended [] [])))).filter
        (fun x => ¬ x.1 = 0x101) =
      (parcelsOf (framedStream oneProgramFile)).filter fun x => ¬ x.1 = 0x101 := by
    rw [hparcels, hparcels']
    decide +kernel
  apply main_isolates _ hsame cleanFraming_oneProgramFile.intact
    (cleanFraming_extended hclean (by decide) _).intact hinput hinput' fun _ => rfl
  · rw [hparcels]
    decide +kernel
  · rw [hparcels']
    decide +kernel
  · exact Nat.lt_add_one _
  · decide +kernel

end Files

end Sandstream
