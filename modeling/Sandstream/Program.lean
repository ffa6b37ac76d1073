import Mathlib
import Sandstream.Demultiplex
import Sandstream.Intact
import Sandstream.Output
import Sandstream.Tool

/-! # Sandstream.Program -- `main`

`main` opens its input file, and reads it into the packetizer, lets the demuxer consume what is there, and
so on until a read comes back short, or until a write to an output file throws, which it catches. The
output files are written meanwhile, and the input is read as it is at that time; so it matters whether it
is one of them.

`main_eq` says what `main` amounts to when it is not: the packetizer on the whole file, and the demuxer with
its consumers on the packets. `main_demultiplexes` puts this together with `Multiplex.demultiplexes`.
-/

namespace Sandstream

open Sandstream.Lib
open Sandstream.Lib.Resync (Framed framedStream GapsLe residue gapsLe_framedStream residue_framedStream
  blocks_framedStream_iff undisturbed_of_clean)
open Packetizer (Turn mainTurn mainLoop allGets ReadBy prefixedPackets)
open Demuxer (deliver deliverPacket consume)
open ElementaryStreamHandler (deliver_eq_ok_iff deliver_thrown_iff deliverPacket_thrown_iff
  writesFiles_of_consume writesFiles_of_deliver)

/-! ## The input file -/

/-- An `std::ifstream`: how far its file has been read, and whether all reads have been complete. -/
structure Ifstream where
  filename : String
  position : Nat
  good : Bool
  deriving Repr, DecidableEq

/-- `std::ifstream(filename, std::ios::binary)`. -/
def Ifstream.ofFilename (access : Access) (files : Files) (filename : String) : Ifstream :=
  ⟨filename, 0, access.readable filename && (files filename).isSome⟩

/-- `std::istream::read` with `gcount`: the bytes that were read. A read that comes back short leaves the
stream failed. -/
def Ifstream.read (source : Ifstream) (files : Files) (count : Nat) : List UInt8 × Ifstream :=
  let bytes := (((files source.filename).getD []).drop source.position).take count
  (bytes, ⟨source.filename, source.position + bytes.length, bytes.length == count⟩)

/-! ## The loop -/

/-- The local variables of `main`. -/
structure Locals where
  source : Ifstream
  packetizer : Packetizer
  dmx : Demuxer OutputSink Files

section Loop

variable (h : ElementaryStreamHandler) (access : Access)

/-- The body of the loop in `main`. The files are the state of the demuxer's factory. -/
def readTurn (s : Locals) : Outcome Files Locals := do
  let buffer := s.packetizer.request
  let (bytes, source) := s.source.read s.dmx.esCallbackFactory buffer.size
  let (packetizer, dmx) ← toolTurn (h.user access) s.packetizer s.dmx bytes
  return ⟨source, packetizer, dmx⟩

/-- The loop in `main`. -/
def readLoop : Nat → Locals → Outcome Files Locals
  | 0, s => if s.source.good then .error (.fault .outOfFuel) else .ok s
  | fuel + 1, s => do
    if s.source.good then
      let s ← readTurn h access s
      readLoop fuel s
    else
      return s

end Loop

/-- `EXIT_SUCCESS` and `EXIT_FAILURE`. -/
inductive ExitStatus where
  | success
  | failure
  deriving Repr, DecidableEq

/-- `buffer_limit` of `main`. -/
def bufferLimit : Nat := 10 * 1024 * 1024

/-- How `main` returns from its loop: `std::ios::failure` is caught, and the files stay as they are then. -/
def exitOf : Outcome Files (Demuxer OutputSink Files) → Exec (ExitStatus × Files)
  | .ok dmx => return (.success, dmx.esCallbackFactory)
  | .error (.thrown files) => return (.failure, files)
  | .error (.fault e) => throw e

/-- `main`: the exit status, and the files it leaves. -/
def main (access : Access) (fuel : Nat) (argv : List String) (files : Files) :
    Exec (ExitStatus × Files) :=
  match argv with
  | [_, inputFilename, outputPrefix] =>
    let source := Ifstream.ofFilename access files inputFilename
    if source.good then
      exitOf do
        let s ← readLoop ⟨outputPrefix⟩ access fuel
          ⟨source, Packetizer.new bufferLimit, Demuxer.new files⟩
        return s.dmx
    else
      return (.failure, files)
  -- a run without any arguments is a correct case
  | [_] => return (.success, files)
  | _ => return (.failure, files)

/-! ## Demuxers of a run -/

section Reached

variable {h : ElementaryStreamHandler} {access : Access} {files files' : Files}
  {dmx dmx' : Demuxer OutputSink Files} {arrivals : List Arrival} {name : String} {fuel : Nat}

/-- A demuxer that began with `files` and has been given some packets. -/
def Reached (h : ElementaryStreamHandler) (access : Access) (files : Files)
    (dmx : Demuxer OutputSink Files) : Prop :=
  ∃ arrivals, deliver (h.user access) (Demuxer.new files) arrivals = .ok dmx

theorem reached_new (files : Files) : Reached h access files (Demuxer.new files) := ⟨[], rfl⟩

theorem Reached.deliver (hdmx : Reached h access files dmx)
    (hrun : Demuxer.deliver (h.user access) dmx arrivals = .ok dmx') : Reached h access files dmx' := by
  obtain ⟨before, hbefore⟩ := hdmx
  refine ⟨before ++ arrivals, ?_⟩
  rw [Demuxer.deliver_append, hbefore]
  exact hrun

theorem Reached.deliverPacket {a : Arrival} (hdmx : Reached h access files dmx)
    (hstep : Demuxer.deliverPacket (h.user access) dmx a = .ok dmx') : Reached h access files dmx' := by
  have hone : Demuxer.deliver (h.user access) dmx [a] = .ok dmx' := by
    rw [Demuxer.deliver, List.foldlM_cons, hstep]
    rfl
  exact hdmx.deliver hone

/-- A file that is no output file is not written. -/
theorem Reached.other (hdmx : Reached h access files dmx) (hname : ∀ pid, h.filename pid ≠ name) :
    dmx.esCallbackFactory name = files name := by
  obtain ⟨arrivals, hrun⟩ := hdmx
  exact (writesFiles_of_deliver hrun).others name fun pid _ _ heq => hname pid heq.symm

/-- The files that a run has left which began with `files`: those of a demuxer that was reached. -/
def LeftBy (h : ElementaryStreamHandler) (access : Access) (files files' : Files) : Prop :=
  ∃ dmx, Reached h access files dmx ∧ files' = dmx.esCallbackFactory

/-- The step lemma: an exception leaves the files as they were before the packet. -/
theorem Reached.ifEnds_deliverPacket (hdmx : Reached h access files dmx) (a : Arrival) :
    IfEnds (Demuxer.deliverPacket (h.user access) dmx a) (Reached h access files)
      (LeftBy h access files) := by
  rw [ifEnds_iff]
  constructor
  · exact fun dmx' hstep => hdmx.deliverPacket hstep
  · exact fun files' hstep => ⟨dmx, hdmx, (deliverPacket_thrown_iff.mp hstep).2⟩

/-- The run lemma for `demuxer_t::consume`. -/
theorem Reached.ifEnds_consumeSource (hdmx : Reached h access files dmx) (p : Packetizer) :
    IfEnds (consumeSource (h.user access) fuel p dmx) (fun r => Reached h access files r.2)
      (LeftBy h access files) := by
  induction fuel generalizing p dmx with
  | zero =>
    unfold consumeSource
    split_ifs
    · exact ifEnds_ok.mpr hdmx
    · exact ifEnds_fault.mpr trivial
  | succ fuel ih =>
    unfold consumeSource
    split_ifs
    · exact ifEnds_ok.mpr hdmx
    · apply (ifEnds_lift p.get).bind
      intro r _
      apply (hdmx.ifEnds_deliverPacket ⟨r.2.dataStorage, r.1⟩).bind
      exact fun dmx' hdmx' => ih hdmx' r.2

theorem Reached.ifEnds_readTurn {s : Locals} (hdmx : Reached h access files s.dmx) :
    IfEnds (readTurn h access s) (fun s' => Reached h access files s'.dmx) (LeftBy h access files) := by
  have hturn : ∀ bytes, IfEnds (toolTurn (h.user access) s.packetizer s.dmx bytes)
      (fun r => Reached h access files r.2) (LeftBy h access files) := by
    intro bytes
    apply (ifEnds_lift (s.packetizer.fill bytes)).bind
    intro filled _
    apply (ifEnds_lift (filled.confirm ⟨s.packetizer.request.data, bytes.length⟩)).bind
    exact fun confirmed _ => hdmx.ifEnds_consumeSource confirmed
  unfold readTurn
  apply (hturn _).bind
  exact fun r hr => ifEnds_ok.mpr hr

/-- The run lemma for the loop in `main`. -/
theorem Reached.ifEnds_readLoop {s : Locals} (hdmx : Reached h access files s.dmx) :
    IfEnds (readLoop h access fuel s) (fun s' => Reached h access files s'.dmx)
      (LeftBy h access files) := by
  induction fuel generalizing s with
  | zero =>
    unfold readLoop
    split_ifs
    · exact ifEnds_fault.mpr trivial
    · exact ifEnds_ok.mpr hdmx
  | succ fuel ih =>
    unfold readLoop
    split_ifs
    · apply hdmx.ifEnds_readTurn.bind
      exact fun s' hs' => ih hs'
    · exact ifEnds_ok.mpr hdmx

/-- The files that have changed are output files that may be written. -/
theorem LeftBy.changed (hleft : LeftBy h access files files') (hchanged : files' name ≠ files name) :
    ∃ pid, name = h.filename pid ∧ access.writable name = true ∧ (files' name).isSome := by
  obtain ⟨dmx, ⟨arrivals, hrun⟩, rfl⟩ := hleft
  rcases (writesFiles_of_deliver hrun).written_or_other name with
    ⟨pid, -, hwritable, rfl, hcontents⟩ | ⟨hother, -⟩
  · exact ⟨pid, rfl, hwritable, Option.isSome_iff_exists.mpr ⟨_, hcontents⟩⟩
  · exact absurd hother hchanged

end Reached

/-! ## Runs on an input file -/

section Turn

variable {h : ElementaryStreamHandler} {access : Access} {files : Files}
  {dmx : Demuxer OutputSink Files} {p q : Packetizer} {name : String} {position : Nat}
  {content : List UInt8} {t : Turn}

/-- The turn lemma: one turn of `main` is one turn of the packetizer, on the bytes the file has there, and
the demuxer on its packets. -/
theorem readTurn_eq (hdmx : Reached h access files dmx) (hname : ∀ pid, h.filename pid ≠ name)
    (hfile : files name = some content)
    (hturn : mainTurn p ((content.drop position).take p.request.size) = .ok (t, q)) :
    readTurn h access ⟨⟨name, position, true⟩, p, dmx⟩ =
      (do
        let dmx ← deliver (h.user access) dmx (t.gets.map GetRecord.arrival)
        return ⟨⟨name, position + ((content.drop position).take p.request.size).length,
          ((content.drop position).take p.request.size).length == p.request.size⟩, q, dmx⟩) := by
  have hread : dmx.esCallbackFactory name = some content := (hdmx.other hname).trans hfile
  set chunk := (content.drop position).take p.request.size with hchunk
  have hbytes : Ifstream.read ⟨name, position, true⟩ dmx.esCallbackFactory p.request.size =
      (chunk, ⟨name, position + chunk.length, chunk.length == p.request.size⟩) := by
    unfold Ifstream.read
    rw [hread]
    rfl
  unfold readTurn
  dsimp only
  rw [hbytes]
  dsimp only
  rw [toolTurn_eq (h.user access) hturn, bind_assoc]
  rfl

end Turn

section Loop

variable {h : ElementaryStreamHandler} {access : Access} {files : Files}
  {dmx : Demuxer OutputSink Files} {p final : Packetizer} {name : String} {position : Nat}
  {content rest : List UInt8} {chunks : List (List UInt8)} {turns : List Turn}

/-- The loop ends when a read has come back short. -/
theorem readLoop_of_not_good {s : Locals} (hgood : s.source.good = false) (fuel : Nat) :
    readLoop h access fuel s = .ok s := by
  have hnot : ¬ s.source.good = true := by
    rw [hgood]
    exact Bool.false_ne_true
  cases fuel <;> exact if_neg hnot

/-- The run lemma. -/
theorem readLoop_eq (hname : ∀ pid, h.filename pid ≠ name) (hfile : files name = some content)
    (hread : ReadBy p rest chunks) (hrest : content.drop position = rest)
    (hdmx : Reached h access files dmx) (hrun : mainLoop p chunks = .ok (turns, final))
    {fuel : Nat} (hfuel : chunks.length ≤ fuel) :
    readLoop h access fuel ⟨⟨name, position, true⟩, p, dmx⟩ =
      (do
        let dmx ← deliver (h.user access) dmx ((allGets turns).map GetRecord.arrival)
        return ⟨⟨name, position + rest.length, false⟩, final, dmx⟩) := by
  -- along the reads; `position` is how far the file has been read
  induction hread generalizing position dmx turns fuel with
  | @last p rest hshort =>
    obtain ⟨t, q, turns', hturn, hnil, rfl⟩ := Packetizer.mainLoop_cons hrun
    obtain ⟨rfl, rfl⟩ := Prod.mk.inj (Except.ok.inj hnil)
    obtain ⟨fuel, rfl⟩ := Nat.exists_eq_succ_of_ne_zero (Nat.pos_iff_ne_zero.mp hfuel)
    have htake : (content.drop position).take p.request.size = rest := by
      rw [hrest, List.take_of_length_le hshort.le]
    rw [← htake] at hturn
    have hone := readTurn_eq hdmx hname hfile hturn
    have hgood : (rest.length == p.request.size) = false := by
      rw [beq_eq_false_iff_ne]
      exact hshort.ne
    have hgets : allGets [t] = t.gets := List.append_nil _
    rw [htake, hgood] at hone
    unfold readLoop
    rw [if_pos rfl, hone, bind_assoc, hgets]
    apply bind_congr
    intro dmx'
    exact readLoop_of_not_good rfl fuel
  | @full p q rest t chunks hlong hturn hbehind ih =>
    obtain ⟨t', q', turns', hturn', hlater, rfl⟩ := Packetizer.mainLoop_cons hrun
    rw [hturn, Except.ok.injEq, Prod.mk.injEq] at hturn'
    obtain ⟨rfl, rfl⟩ := hturn'
    obtain ⟨fuel, rfl⟩ := Nat.exists_eq_succ_of_ne_zero
      (Nat.pos_iff_ne_zero.mp (Nat.lt_of_lt_of_le (Nat.succ_pos _) hfuel))
    have hlength : (rest.take p.request.size).length = p.request.size := List.length_take_of_le hlong
    rw [← hrest] at hturn
    have hone := readTurn_eq hdmx hname hfile hturn
    have hgood : ((rest.take p.request.size).length == p.request.size) = true := by
      rw [hlength]
      exact beq_self_eq_true _
    have hnext : content.drop (position + p.request.size) = rest.drop p.request.size := by
      rw [← hrest, List.drop_drop]
    have hcount : position + p.request.size + (rest.drop p.request.size).length =
        position + rest.length := by
      rw [List.length_drop]
      omega
    have hgets : (allGets (t :: turns')).map GetRecord.arrival =
        t.gets.map GetRecord.arrival ++ (allGets turns').map GetRecord.arrival := by
      unfold allGets
      rw [List.flatMap_cons, List.map_append]
    rw [hrest, hgood, hlength] at hone
    unfold readLoop
    rw [if_pos rfl, hone, hgets, Demuxer.deliver_append, bind_assoc, bind_assoc]
    cases hstep : deliver (h.user access) dmx (t.gets.map GetRecord.arrival) with
    | error stop => rfl
    | ok dmx' =>
      have hih := ih hnext (hdmx.deliver hstep) hlater (Nat.le_of_succ_le_succ hfuel)
      rw [hcount] at hih
      exact hih

end Loop

/-! ## `main` -/

section Exit

variable {x : Outcome Files (Demuxer OutputSink Files)} {files' : Files}

@[simp] theorem exitOf_ok (dmx : Demuxer OutputSink Files) :
    exitOf (.ok dmx) = .ok (.success, dmx.esCallbackFactory) := rfl

@[simp] theorem exitOf_thrown (files : Files) :
    exitOf (.error (.thrown files)) = .ok (.failure, files) := rfl

@[simp] theorem exitOf_fault (e : Fault) : exitOf (.error (.fault e)) = .error e := rfl

theorem exitOf_success_iff :
    exitOf x = .ok (.success, files') ↔ ∃ dmx, x = .ok dmx ∧ files' = dmx.esCallbackFactory := by
  cases x with
  | ok dmx => simp [eq_comm]
  | error stop => cases stop <;> simp

theorem exitOf_failure_iff : exitOf x = .ok (.failure, files') ↔ x = .error (.thrown files') := by
  cases x with
  | ok dmx => simp
  | error stop => cases stop <;> simp

theorem exitOf_eq_error_iff {e : Fault} : exitOf x = .error e ↔ x = .error (.fault e) := by
  cases x with
  | ok dmx => simp
  | error stop => cases stop <;> simp

/-- What holds of `main` when it returns, by how its loop has ended. -/
theorem ifReturns_exitOf {post : ExitStatus × Files → Prop}
    (hx : IfEnds x (fun dmx => post (.success, dmx.esCallbackFactory)) fun files => post (.failure, files)) :
    IfReturns (exitOf x) post := by
  cases x with
  | ok dmx =>
    rw [ifEnds_ok] at hx
    exact ifReturns_ok.mpr hx
  | error stop =>
    cases stop with
    | fault e => exact ifReturns_error.mpr trivial
    | thrown files =>
      rw [ifEnds_thrown] at hx
      exact ifReturns_ok.mpr hx

/-- What holds of the files when it returns, by what the first packets make of them. -/
theorem ifReturns_deliver {h : ElementaryStreamHandler} {access : Access} {files : Files}
    {arrivals : List Arrival} (post : Files → Prop)
    (hpost : ∀ before d, before <+: arrivals →
      consume (h.user access).toEsFactory (Demuxer.new files) before = .ok d →
        post (Journal.replay files (h.journal access d.history))) :
    IfReturns (exitOf (deliver (h.user access) (Demuxer.new files) arrivals)) fun r => post r.2 :=
  ifReturns_exitOf (ElementaryStreamHandler.ifEnds_deliver h access hpost)

end Exit

/-- The input of a run of `main`: a file that can be opened, and is not one that the run may write. -/
structure InputFile (access : Access) (files : Files) (inputFilename outputPrefix : String)
    (content : List UInt8) : Prop where
  readable : access.readable inputFilename = true
  contents : files inputFilename = some content
  notOutput : ∀ pid, (ElementaryStreamHandler.mk outputPrefix).filename pid ≠ inputFilename

/-- **What `main` leaves alone.** The arguments and the files are any, and the input may be one of the
output files: however the run returns, a file that it has changed is an output file which it may write,
with the prefix it was given, and the run was given an input that could be opened. -/
theorem main_writes (access : Access) (fuel : Nat) (argv : List String) (files : Files) :
    IfReturns (main access fuel argv files) fun r =>
      ∀ name, r.2 name ≠ files name → ∃ tool inputFilename outputPrefix pid,
        argv = [tool, inputFilename, outputPrefix] ∧
        access.readable inputFilename = true ∧ (files inputFilename).isSome ∧
        name = (ElementaryStreamHandler.mk outputPrefix).filename pid ∧
        access.writable name = true ∧ (r.2 name).isSome := by
  have hunchanged : ∀ (P : String → Prop) (name : String), files name ≠ files name → P name :=
    fun P name hne => absurd rfl hne
  unfold main
  split
  case h_1 tool inputFilename outputPrefix =>
    dsimp only
    by_cases hgood : (Ifstream.ofFilename access files inputFilename).good = true
    · rw [if_pos hgood]
      obtain ⟨hreadable, hexists⟩ := (Bool.and_eq_true _ _).mp hgood
      have hpost : ∀ files', LeftBy ⟨outputPrefix⟩ access files files' → ∀ name,
          files' name ≠ files name → ∃ tool' inputFilename' outputPrefix' pid,
            [tool, inputFilename, outputPrefix] = [tool', inputFilename', outputPrefix'] ∧
            access.readable inputFilename' = true ∧ (files inputFilename').isSome ∧
            name = (ElementaryStreamHandler.mk outputPrefix').filename pid ∧
            access.writable name = true ∧ (files' name).isSome := by
        intro files' hleft name hchanged
        obtain ⟨pid, hname, hwritable, hsome⟩ := hleft.changed hchanged
        exact ⟨tool, inputFilename, outputPrefix, pid, rfl, hreadable, hexists, hname, hwritable, hsome⟩
      have hloop := @Reached.ifEnds_readLoop ⟨outputPrefix⟩ access files fuel
        ⟨Ifstream.ofFilename access files inputFilename, Packetizer.new bufferLimit,
          Demuxer.new files⟩ (reached_new files)
      have hrun := hloop.bind (f := fun s => (.ok s.dmx : Outcome Files (Demuxer OutputSink Files)))
        fun s hs => ifEnds_ok.mpr hs
      exact ifReturns_exitOf (hrun.mono (fun dmx hdmx => hpost _ ⟨dmx, hdmx, rfl⟩) hpost)
    · rw [if_neg hgood]
      exact ifReturns_ok.mpr (hunchanged _)
  case h_2 => exact ifReturns_ok.mpr (hunchanged _)
  case h_3 => exact ifReturns_ok.mpr (hunchanged _)

/-- A file that ends with a packet, and has at most `bound` bytes between two packets. -/
structure IntactFile (content : List UInt8) (bound : Nat) : Prop where
  gaps : GapsLe tsSyncByte tsPacketSize bound content
  ends : residue tsSyncByte tsPacketSize content = []
  room : 562 + bound ≤ bufferLimit

/-- Behind a part that ends with a packet, the packets are those of the rest alone. -/
theorem scan_append {front : List UInt8} (hends : residue tsSyncByte tsPacketSize front = [])
    (rest : List UInt8) : scan (front ++ rest) = scan front ++ scan rest := by
  show Resync.blocks tsSyncByte tsPacketSize (front ++ rest) = scan front ++ scan rest
  rw [Resync.blocks_append, hends, List.nil_append]
  rfl

/-- The packets of a file, with extra bytes around them: at most `front` in front and `back` behind, and
no sync byte among them. -/
structure CleanFraming (fs : List ExtendedPacket) (front back : Nat) : Prop where
  before : ∀ f ∈ fs, tsSyncByte ∉ f.before ∧ f.before.length ≤ front
  after : ∀ f ∈ fs, tsSyncByte ∉ f.after ∧ f.after.length ≤ back
  gap : 562 + (back + front) ≤ bufferLimit

section Framing

variable {fs : List ExtendedPacket} {front back : Nat}

theorem CleanFraming.intact (h : CleanFraming fs front back) :
    IntactFile (framedStream fs) (back + front) where
  gaps := gapsLe_framedStream fs h.before h.after List.not_mem_nil (Nat.zero_le _)
  ends := residue_framedStream fs (fun f hf => (h.before f hf).1) (fun f hf => (h.after f hf).1)
    List.not_mem_nil
  room := h.gap

/-- The scanner takes the packets. -/
theorem CleanFraming.scan_eq (h : CleanFraming fs front back) :
    scan (framedStream fs) = fs.map Framed.block := by
  apply (blocks_framedStream_iff [] fs).mpr
  exact undisturbed_of_clean fs (fun f hf => (h.before f hf).1) (fun f hf => (h.after f hf).1)
    List.not_mem_nil

end Framing

/-- Access to every file. -/
def anyFile : Access := ⟨fun _ => true, fun _ => true⟩

/-- A directory with nothing in it but an input file. -/
def inputOnly (content : List UInt8) : Files := fun name =>
  if name = "in.ts" then some content else none

/-- The output files begin with another letter. -/
theorem inputFile_of_head {files : Files} {name : String} {content : List UInt8}
    (hcontents : files name = some content) (hhead : name.toList.head? ≠ some 'o') :
    InputFile anyFile files name "out" content := by
  refine ⟨rfl, hcontents, ?_⟩
  rintro pid rfl
  simp [ElementaryStreamHandler.filename] at hhead

theorem inputFile_inputOnly (content : List UInt8) :
    InputFile anyFile (inputOnly content) "in.ts" "out" content :=
  inputFile_of_head (if_pos rfl) (by decide)

section Main

variable {access : Access} {files : Files} {inputFilename outputPrefix : String}
  {content : List UInt8}

/-- A run of `main` from a run of the packetizer on the reads it makes. -/
theorem main_of_run (tool : String) (hinput : InputFile access files inputFilename outputPrefix content)
    {chunks : List (List UInt8)} {turns : List Turn} {final : Packetizer}
    (hread : ReadBy (Packetizer.new bufferLimit) content chunks)
    (hrun : mainLoop (Packetizer.new bufferLimit) chunks = .ok (turns, final)) {fuel : Nat}
    (hfuel : content.length < fuel) :
    main access fuel [tool, inputFilename, outputPrefix] files =
      exitOf (deliver ((ElementaryStreamHandler.mk outputPrefix).user access) (Demuxer.new files)
        ((allGets turns).map GetRecord.arrival)) := by
  have hname := hinput.notOutput
  set h := ElementaryStreamHandler.mk outputPrefix with hh
  have hturns := hread.turns_le (Packetizer.wellFormed_new bufferLimit)
    (Packetizer.new_isDepleted bufferLimit)
  rw [Packetizer.new_storage_length] at hturns
  have hcount : chunks.length ≤ fuel := by
    have hroom : 1 ≤ bufferLimit + 1 - tsPacketSize := by decide
    have hle := (Nat.le_mul_of_pos_right (chunks.length - 1) hroom).trans hturns
    omega
  have hopen : Ifstream.ofFilename access files inputFilename = ⟨inputFilename, 0, true⟩ := by
    unfold Ifstream.ofFilename
    rw [hinput.readable, hinput.contents]
    rfl
  have hnew : Reached h access files (Demuxer.new files) := reached_new files
  have hloop := readLoop_eq hname hinput.contents hread List.drop_zero hnew hrun hcount
  show (if (Ifstream.ofFilename access files inputFilename).good = true then _ else _) = _
  rw [hopen, if_pos rfl, hloop, bind_assoc]
  cases deliver (h.user access) (Demuxer.new files) ((allGets turns).map GetRecord.arrival) <;> rfl

/-- Every file is read in some chunks, on which the packetizer returns. -/
theorem exists_run (content : List UInt8) :
    ∃ chunks turns final, ReadBy (Packetizer.new bufferLimit) content chunks ∧
      mainLoop (Packetizer.new bufferLimit) chunks = .ok (turns, final) := by
  have hcap : tsPacketSize ≤ bufferLimit := by decide
  obtain ⟨chunks, hread⟩ := Packetizer.exists_readBy_new hcap content
  obtain ⟨turns, final, hrun, -⟩ := Packetizer.mainLoop_spec
    (Packetizer.wellFormed_new bufferLimit) (Packetizer.new_isDepleted bufferLimit) hread.chunksFit
  exact ⟨chunks, turns, final, hread, hrun⟩

/-- The packets stand in the storage of the packetizer. -/
theorem addressable_of_run {chunks : List (List UInt8)} {turns : List Turn} {final : Packetizer}
    (hread : ReadBy (Packetizer.new bufferLimit) content chunks)
    (hrun : mainLoop (Packetizer.new bufferLimit) chunks = .ok (turns, final)) :
    ∀ a ∈ (allGets turns).map GetRecord.arrival, a.Addressable := by
  have hstorage := Packetizer.storage_of_mem_gets (Packetizer.wellFormed_new bufferLimit)
    (Packetizer.new_isDepleted bufferLimit) hread.chunksFit hrun
  intro a hmem
  obtain ⟨g, hg, rfl⟩ := List.mem_map.mp hmem
  show g.after.dataStorage.length < 2 ^ 63
  rw [hstorage g hg, Packetizer.new_storage_length]
  decide

/-- **What `main` amounts to.** The file is read to its end, the packetizer finds the packets, and the
demuxer delivers them. `main` succeeds when that returns, and fails when a write throws, with the files as
they are then; a fault of the demuxer is one of `main`. -/
theorem main_eq (tool : String)
    (hinput : InputFile access files inputFilename outputPrefix content) :
    ∃ chunks turns final, ReadBy (Packetizer.new bufferLimit) content chunks ∧
      mainLoop (Packetizer.new bufferLimit) chunks = .ok (turns, final) ∧
      ∀ fuel, content.length < fuel →
        main access fuel [tool, inputFilename, outputPrefix] files =
          exitOf (deliver ((ElementaryStreamHandler.mk outputPrefix).user access) (Demuxer.new files)
            ((allGets turns).map GetRecord.arrival)) := by
  obtain ⟨chunks, turns, final, hread, hrun⟩ := exists_run content
  refine ⟨chunks, turns, final, hread, hrun, ?_⟩
  intro fuel hfuel
  exact main_of_run tool hinput hread hrun hfuel

theorem main_eq_prefixedPackets :
    ∃ chunks turns final,
      ReadBy (Packetizer.new bufferLimit) (framedStream prefixedPackets) chunks ∧
      mainLoop (Packetizer.new bufferLimit) chunks = .ok (turns, final) ∧
      ∀ fuel, (framedStream prefixedPackets).length < fuel →
        main anyFile fuel ["sandstream", "in.ts", "out"] (inputOnly (framedStream prefixedPackets)) =
          exitOf (deliver ((ElementaryStreamHandler.mk "out").user anyFile)
            (Demuxer.new (inputOnly (framedStream prefixedPackets)))
            ((allGets turns).map GetRecord.arrival)) :=
  main_eq "sandstream" (inputFile_inputOnly _)

/-- On a file that ends with a packet and has few bytes between its packets, the demuxer gets the packets
as they are. -/
theorem main_intact (tool : String) {bound : Nat} (hintact : IntactFile content bound)
    (hinput : InputFile access files inputFilename outputPrefix content) :
    ∃ arrivals, List.Forall₂ Arrival.IsOfBlock arrivals (scan content) ∧
      (∀ a ∈ arrivals, a.Addressable) ∧ ∀ fuel, content.length < fuel →
        main access fuel [tool, inputFilename, outputPrefix] files =
          exitOf (deliver ((ElementaryStreamHandler.mk outputPrefix).user access) (Demuxer.new files)
            arrivals) := by
  obtain ⟨chunks, turns, final, hread, hrun⟩ := exists_run content
  have hblocks := Packetizer.intact_of_gaps hintact.room hread hintact.gaps hintact.ends
  rw [hrun, returns_ok] at hblocks
  exact ⟨_, hblocks, addressable_of_run hread hrun,
    fun fuel hfuel => main_of_run tool hinput hread hrun hfuel⟩

end Main

/-! ## Demultiplexing a file -/

/-- A packet of a multiplex with extra bytes around it. -/
def MuxPacket.extended (before after : List UInt8) (p : MuxPacket) : ExtendedPacket where
  before := before
  block := p.bytes
  after := after
  block_length := p.bytes_length
  block_head := by
    rw [List.head?_eq_getElem?]
    exact p.bytes_sync

/-- A PMT section of the multiplex lists the stream. -/
def Multiplex.Listed (m : Multiplex) (pid : UInt16) : Prop :=
  ∃ q ∈ m.pmtPids, ∃ s ∈ m.pmt q, ∃ t, (pid, t) ∈ s.streams

theorem Multiplex.esPid_of_listed {m : Multiplex} {pid : UInt16} (h : m.Listed pid) :
    pid ∈ m.esPids := by
  obtain ⟨q, hq, s, hs, t, hstream⟩ := h
  exact (m.pmt_streams q hq s hs _ hstream).1

/-- What the demuxer has done on a multiplex, as far as the files show it. -/
theorem Multiplex.exists_consume {κ φ : Type} (m : Multiplex) (factory : EsFactory κ φ) (state : φ)
    {arrivals : List Arrival} (harrive : List.Forall₂ MuxPacket.Arrives arrivals m.packets) :
    ∃ d, consume factory (Demuxer.new state) arrivals = .ok d ∧ d.HandsOnInside ∧
      (∀ pid, pid ∈ createdPids d.history ↔ m.Listed pid) ∧
      (∀ pid ∈ m.esPids,
        dataOf (callbacksOf pid d.history) = (m.es pid).flatMap PesPacket.data) ∧
      ∀ (pid : UInt16) h, d.packetStreams[pid]? = some h →
        pid = 0 ∨ pid ∈ m.pmtPids ∨ ∃ consumer, h = .parserPes consumer := by
  obtain ⟨d, hrun, hserves⟩ := (m.plan factory state harrive).run_serves
  rw [← Demuxer.consume_eq_run] at hrun
  have hcreate : Demuxer.CreateCalls d := (Demuxer.createCalls_new state).consume hrun
  refine ⟨d, hrun, handsOnInside_of_serves hserves, ?_, ?_, ?_⟩
  · intro pid
    constructor
    · intro hmem
      obtain ⟨⟨t, p⟩, hcreated, rfl⟩ := List.mem_map.mp hmem
      obtain ⟨q, hq, s, hs, hstream⟩ := (listed_of_created hserves hcreate hcreated).1
      exact ⟨q, hq, s, hs, t, hstream⟩
    · rintro ⟨q, hq, s, hs, t, hstream⟩
      exact List.mem_map.mpr ⟨(t, pid), created_of_listed hserves hcreate hq hs hstream, rfl⟩
  · intro pid hpid
    rw [callbacksOf_eq hserves (Or.inr (Or.inr hpid)), calls_es hpid]
    exact (m.carries_es pid hpid).dataOf_eq
  · intro pid h hk
    rcases (hserves.machine pid h hk).1 with hzero | hpmt | hes
    · exact Or.inl hzero
    · exact Or.inr (Or.inl hpmt)
    · obtain ⟨state', hes⟩ := consumer_of_registered hserves hes hk
      exact Or.inr (Or.inr ⟨_, hes⟩)

/-- The files after a run on a multiplex. -/
structure Demultiplexed (m : Multiplex) (h : ElementaryStreamHandler) (access : Access)
    (files files' : Files) : Prop where
  /-- there is one for each listed stream, with the data of its PES packets -/
  streams : ∀ pid, m.Listed pid → access.writable (h.filename pid) = true →
    files' (h.filename pid) = some ((m.es pid).flatMap PesPacket.data)
  /-- and nothing else has changed -/
  others : ∀ name, (∀ pid, m.Listed pid → access.writable (h.filename pid) = true →
    name ≠ h.filename pid) → files' name = files name

section Demultiplex

variable {access : Access} {files : Files} {inputFilename outputPrefix : String}
  {m : Multiplex} {content : List UInt8} {bound : Nat}

theorem Demultiplexed.of_recorded {h : ElementaryStreamHandler} {factory : EsFactory OutputSink Files}
    {arrivals : List Arrival} {d : Demuxer OutputSink Files}
    (hconsume : consume factory (Demuxer.new files) arrivals = .ok d)
    (hcreated : ∀ pid, pid ∈ createdPids d.history ↔ m.Listed pid)
    (hdelivered : ∀ pid ∈ m.esPids,
      dataOf (callbacksOf pid d.history) = (m.es pid).flatMap PesPacket.data) :
    Demultiplexed m h access files (Journal.replay files (h.journal access d.history)) := by
  have hwrites : WritesFiles h access files d.history _ := writesFiles_of_consume hconsume
  constructor
  · intro pid hlisted hwritable
    rw [← hdelivered pid (m.esPid_of_listed hlisted)]
    exact hwrites.contents pid ((hcreated pid).mpr hlisted) hwritable
  · intro name hother
    apply hwrites.others name
    intro pid hmem
    exact hother pid ((hcreated pid).mp hmem)

/-- `main` on the packets of a multiplex. -/
theorem Multiplex.exists_files (m : Multiplex) (tool : String)
    (hpackets : scan content = m.packets.map MuxPacket.bytes) (hintact : IntactFile content bound)
    (hinput : InputFile access files inputFilename outputPrefix content) {fuel : Nat}
    (hfuel : content.length < fuel) :
    ∃ files', main access fuel [tool, inputFilename, outputPrefix] files = .ok (.success, files') ∧
      Sandstream.Demultiplexed m ⟨outputPrefix⟩ access files files' := by
  obtain ⟨arrivals, hblocks, -, hmain⟩ := main_intact tool hintact hinput
  rw [hpackets] at hblocks
  have harrive : List.Forall₂ (fun a p => Arrival.IsOfBlock a (MuxPacket.bytes p)) arrivals m.packets :=
    List.forall₂_map_right_iff.mp hblocks
  obtain ⟨d, hconsume, hinside, hcreated, hdelivered, -⟩ := m.exists_consume
    ((ElementaryStreamHandler.mk outputPrefix).user access).toEsFactory files harrive
  rw [hmain fuel hfuel, ElementaryStreamHandler.deliver_of_consume hconsume hinside]
  exact ⟨_, rfl, Sandstream.Demultiplexed.of_recorded hconsume hcreated hdelivered⟩

/-- **The tool demultiplexes files.** The input is a file with the packets of a multiplex, with few bytes
between them: then `main` succeeds, the file of each listed stream holds the data of its PES packets, and
no other file has changed. -/
theorem main_demultiplexes (m : Multiplex) (tool : String)
    (hpackets : scan content = m.packets.map MuxPacket.bytes) (hintact : IntactFile content bound)
    (hinput : InputFile access files inputFilename outputPrefix content) {fuel : Nat}
    (hfuel : content.length < fuel) :
    Returns (main access fuel [tool, inputFilename, outputPrefix] files) fun r =>
      r.1 = .success ∧ Demultiplexed m ⟨outputPrefix⟩ access files r.2 := by
  obtain ⟨files', hmain, hfiles⟩ := m.exists_files tool hpackets hintact hinput hfuel
  rw [hmain]
  exact returns_ok.mpr ⟨rfl, hfiles⟩

end Demultiplex

section Extended

variable {before : List UInt8} (hclean : tsSyncByte ∉ before) (hroom : 562 + before.length ≤ bufferLimit)

include hclean hroom

/-- Packets with the same clean bytes in front of each. -/
theorem cleanFraming_extended (packets : List MuxPacket) :
    CleanFraming (packets.map (MuxPacket.extended before [])) before.length 0 := by
  constructor
  · intro f hf
    obtain ⟨p, -, rfl⟩ := List.mem_map.mp hf
    exact ⟨hclean, le_rfl⟩
  · intro f hf
    obtain ⟨p, -, rfl⟩ := List.mem_map.mp hf
    exact ⟨List.not_mem_nil, le_rfl⟩
  · rwa [Nat.zero_add]

theorem scan_extended (packets : List MuxPacket) :
    scan (framedStream (packets.map (MuxPacket.extended before []))) =
      packets.map MuxPacket.bytes := by
  rw [(cleanFraming_extended hclean hroom packets).scan_eq, List.map_map]
  rfl

end Extended

/-- The program of `OneProgram` with four bytes in front of each packet, in a file. -/
def oneProgramFile : List ExtendedPacket :=
  Multiplex.OneProgram.multiplex.packets.map (MuxPacket.extended [0, 1, 2, 3] [])

theorem cleanFraming_oneProgramFile : CleanFraming oneProgramFile 4 0 :=
  cleanFraming_extended (by decide) (by decide) _

theorem scan_oneProgramFile : scan (framedStream oneProgramFile) =
    Multiplex.OneProgram.multiplex.packets.map MuxPacket.bytes :=
  scan_extended (by decide) (by decide) _

theorem main_demultiplexes_oneProgram :
    Returns (main anyFile ((framedStream oneProgramFile).length + 1) ["sandstream", "in.ts", "out"]
      (inputOnly (framedStream oneProgramFile))) fun r =>
        r.1 = .success ∧ Demultiplexed Multiplex.OneProgram.multiplex ⟨"out"⟩ anyFile
          (inputOnly (framedStream oneProgramFile)) r.2 :=
  main_demultiplexes _ _ scan_oneProgramFile cleanFraming_oneProgramFile.intact
    (inputFile_inputOnly _) (Nat.lt_add_one _)

end Sandstream
