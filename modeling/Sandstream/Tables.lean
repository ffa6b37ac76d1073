import Mathlib
import Sandstream.Registration
import Sandstream.SectionStream

/-! # Sandstream.Tables -- program tables as ISO 13818-1 lays them out

`PatSection` and `PmtSection` are the sections of a program association table and of a program map
table by their fields, with any value in the reserved bits, any descriptors and any CRC. The parsers
of `ParserPat` and `ParserPmt` read the entries back: `patEntries_payload` and `pmtEntries_payload`
for the payloads that `parser_psi_t` hands on, `pidsIn_bytes` and `streamTypeIn_bytes` for the whole
sections. `parsePatPayload_patPayload` and `parsePmtPayload_pmtPayload` are the round trips, the first
one up to what `on_pat` makes of the map.
-/

namespace Sandstream

open ParserPsi (sectionLength sectionLengthField)

/-! ## Entries -/

/-- An entry of a program association table. -/
structure PatEntry where
  programNumber : UInt16
  reserved : Fin 8
  pid : UInt16
  pid_lt : pid < 0x2000

/-- The four bytes of an entry. -/
def PatEntry.bytes (e : PatEntry) : List UInt8 :=
  [fieldMsb 8 0 e.programNumber.toNat, fieldLsb e.programNumber.toNat,
    fieldMsb 5 e.reserved e.pid.toNat, fieldLsb e.pid.toNat]

/-- An entry of a program map table, with its descriptors. -/
structure PmtEntry where
  streamType : UInt8
  reservedPid : Fin 8
  pid : UInt16
  reservedInfo : Fin 16
  esInfo : List UInt8
  pid_lt : pid < 0x2000
  esInfo_lt : esInfo.length < 4096

/-- The five bytes of an entry and its descriptors. -/
def PmtEntry.bytes (e : PmtEntry) : List UInt8 :=
  e.streamType :: fieldMsb 5 e.reservedPid e.pid.toNat :: fieldLsb e.pid.toNat ::
    fieldMsb 4 e.reservedInfo e.esInfo.length :: fieldLsb e.esInfo.length :: e.esInfo

/-! ## Fields -/

theorem twoBytes_programNumber (number : UInt16) :
    twoBytes (fieldMsb 8 0 number.toNat) (fieldLsb number.toNat) 0xff = number := by
  apply UInt16.toNat_inj.mp
  exact twoBytes_field (w := 8) (by decide) 0 number.toNat_lt

theorem twoBytes_pid (reserved : Nat) {pid : UInt16} (hpid : pid < 0x2000) :
    twoBytes (fieldMsb 5 reserved pid.toNat) (fieldLsb pid.toNat) 0x1f = pid := by
  apply UInt16.toNat_inj.mp
  exact twoBytes_field (w := 5) (by decide) reserved (UInt16.lt_iff_toNat_lt.mp hpid)

theorem twoBytes_length (reserved : Nat) {length : Nat} (hlength : length < 4096) :
    (twoBytes (fieldMsb 4 reserved length) (fieldLsb length) 0x0f).toNat = length :=
  twoBytes_field (w := 4) (by decide) reserved hlength

/-! ## Payloads -/

/-- The payload of a PAT section: entries and CRC. -/
def patPayload (entries : List PatEntry) (crc : List UInt8) : List UInt8 :=
  entries.flatMap PatEntry.bytes ++ crc

/-- The entries are read back, and the CRC is left alone. -/
theorem patEntries_payload (entries : List PatEntry) {crc : List UInt8} (hcrc : crc.length = 4) :
    ParserPat.patEntries (patPayload entries crc) =
      entries.map fun e => (e.pid, e.programNumber) := by
  unfold patPayload
  induction entries with
  | nil => exact ParserPat.patEntries_of_short hcrc.le
  | cons e entries ih =>
    -- an entry is read only when a fifth byte stands behind it, which the CRC provides
    rcases htail : entries.flatMap PatEntry.bytes ++ crc with _ | ⟨b, rest⟩
    · have hlen := congrArg List.length htail
      rw [List.length_append, List.length_nil] at hlen
      omega
    · rw [htail] at ih
      rw [List.flatMap_cons, List.append_assoc, htail, List.map_cons, ← ih]
      show (twoBytes _ _ 0x1f, twoBytes _ _ 0xff) :: ParserPat.patEntries (b :: rest) = _
      rw [twoBytes_pid e.reserved e.pid_lt, twoBytes_programNumber]

/-- **PAT decoding undoes PAT encoding.** From the payload of a section the parser gets the map of the
listed PIDs, each with the program number of the first entry that lists it; and `on_pat` registers a
PMT parser for each of these PIDs that is new, and for no other. -/
theorem parsePatPayload_patPayload {κ φ : Type} (d : Demuxer κ φ) (entries : List PatEntry)
    {crc : List UInt8} (hcrc : crc.length = 4) :
    Returns (ParserPat.parsePatPayload (patPayload entries crc) (patPayload entries crc).length)
      fun pat =>
        (∀ pid, pid ∈ pat ↔ ∃ e ∈ entries, e.pid = pid) ∧
        (∀ pid, pat[pid]? = (entries.find? fun e => e.pid == pid).map PatEntry.programNumber) ∧
        Demuxer.Registers (fun pid => ∃ e ∈ entries, e.pid = pid) d (d.onPat pat) := by
  have hlong : ParserPat.crcLength ≤ (patPayload entries crc).length := by
    rw [patPayload, List.length_append, hcrc]
    exact Nat.le_add_left _ _
  rw [ParserPat.parsePatPayload_eq le_rfl hlong, List.take_length, ParserPat.table,
    patEntries_payload entries hcrc, returns_ok]
  set pat : Pat := Lib.FirstWins.ofEntries (entries.map fun e => (e.pid, e.programNumber))
  have hlisted : ∀ pid, pid ∈ pat ↔ ∃ e ∈ entries, e.pid = pid :=
    Lib.FirstWins.mem_ofEntries_map_iff PatEntry.pid PatEntry.programNumber entries
  refine ⟨hlisted, ?_, ?_⟩
  · exact Lib.FirstWins.getElem?_ofEntries_map PatEntry.pid PatEntry.programNumber entries
  · -- the PIDs of the map are the PIDs of the list
    have hsame : (fun pid => ∃ e ∈ entries, e.pid = pid) = (· ∈ pat) := by
      funext pid
      exact propext (hlisted pid).symm
    rw [hsame]
    exact Demuxer.registers_onPat pat d

/-- The entries of the unit tests' payload. -/
def testServices : List PatEntry :=
  [⟨0x0102, ⟨0, by decide⟩, 0x0304, by decide⟩, ⟨0x0a0b, ⟨0, by decide⟩, 0x0c0d, by decide⟩]

theorem parsePatPayload_testServices :
    Returns (ParserPat.parsePatPayload
      [0x01, 0x02, 0x03, 0x04, 0x0a, 0x0b, 0x0c, 0x0d, 0xad, 0xad, 0xad, 0xad] 12) fun pat =>
        (∀ pid, pid ∈ pat ↔ ∃ e ∈ testServices, e.pid = pid) ∧
        Demuxer.Registers (fun pid => ∃ e ∈ testServices, e.pid = pid)
          (Demuxer.new () : Demuxer UInt16 Unit) ((Demuxer.new ()).onPat pat) := by
  have hcrc : [(0xad : UInt8), 0xad, 0xad, 0xad].length = 4 := rfl
  have hround := parsePatPayload_patPayload (Demuxer.new () : Demuxer UInt16 Unit) testServices hcrc
  have hbytes : patPayload testServices [0xad, 0xad, 0xad, 0xad] =
      [0x01, 0x02, 0x03, 0x04, 0x0a, 0x0b, 0x0c, 0x0d, 0xad, 0xad, 0xad, 0xad] := by decide
  rw [hbytes] at hround
  exact hround.mono fun _ hpat => ⟨hpat.1, hpat.2.2⟩

/-- What precedes the entries in the payload of a PMT section: the PCR PID and the descriptors of the
program. -/
structure PmtHead where
  pcrPidBytes : UInt8 × UInt8
  reserved : Fin 16
  programInfo : List UInt8
  programInfo_lt : programInfo.length < 4096

def PmtHead.bytes (h : PmtHead) : List UInt8 :=
  h.pcrPidBytes.1 :: h.pcrPidBytes.2 :: fieldMsb 4 h.reserved h.programInfo.length ::
    fieldLsb h.programInfo.length :: h.programInfo

/-- The payload of a PMT section. -/
def pmtPayload (h : PmtHead) (entries : List PmtEntry) (crc : List UInt8) : List UInt8 :=
  h.bytes ++ (entries.flatMap PmtEntry.bytes ++ crc)

theorem pmtEntriesFrom_entries (entries : List PmtEntry) {crc : List UInt8}
    (hcrc : crc.length = 4) :
    ParserPmt.pmtEntriesFrom 0 (entries.flatMap PmtEntry.bytes ++ crc) =
      entries.map fun e => (e.pid, e.streamType) := by
  induction entries with
  | nil => exact ParserPmt.pmtEntriesFrom_of_short hcrc.le
  | cons e entries ih =>
    rw [List.flatMap_cons, List.append_assoc, List.map_cons]
    unfold PmtEntry.bytes
    simp only [List.cons_append]
    -- the announced length is that of the descriptors, so the next entry begins behind them
    rw [ParserPmt.pmtEntriesFrom_cons, twoBytes_pid e.reservedPid e.pid_lt,
      twoBytes_length e.reservedInfo e.esInfo_lt, List.drop_left]
    exact congrArg _ ih

/-- The entries are read back, whatever the descriptors and the CRC hold. -/
theorem pmtEntries_payload (h : PmtHead) (entries : List PmtEntry) {crc : List UInt8}
    (hcrc : crc.length = 4) :
    ParserPmt.pmtEntries (pmtPayload h entries crc) =
      entries.map fun e => (e.pid, e.streamType) := by
  have hlength : (twoBytes ((pmtPayload h entries crc).getD 2 0)
      ((pmtPayload h entries crc).getD 3 0) 0x0f).toNat = h.programInfo.length :=
    twoBytes_length h.reserved h.programInfo_lt
  unfold ParserPmt.pmtEntries
  rw [ParserPmt.pmtEntriesFrom_eq_drop, hlength, ← List.drop_drop]
  show ParserPmt.pmtEntriesFrom 0
    ((h.programInfo ++ (entries.flatMap PmtEntry.bytes ++ crc)).drop h.programInfo.length) = _
  rw [List.drop_left, pmtEntriesFrom_entries entries hcrc]

/-- **PMT decoding undoes PMT encoding.** From the payload of a section the parser gets the map of the
listed PIDs, each with the stream_type of the first entry that lists it; and payloads with the same
PIDs and stream types give the same map, whatever stands in the other bytes. -/
theorem parsePmtPayload_pmtPayload (h : PmtHead) (entries : List PmtEntry) {crc : List UInt8}
    (hcrc : crc.length = 4) :
    Returns (ParserPmt.parsePmtPayload (pmtPayload h entries crc) (pmtPayload h entries crc).length)
      fun pmt =>
        (∀ pid, pid ∈ pmt ↔ ∃ e ∈ entries, e.pid = pid) ∧
        (∀ pid, pmt[pid]? = (entries.find? fun e => e.pid == pid).map PmtEntry.streamType) ∧
        ∀ (h' : PmtHead) (entries' : List PmtEntry) (crc' : List UInt8), crc'.length = 4 →
          entries'.map (fun e => (e.pid, e.streamType)) =
            entries.map (fun e => (e.pid, e.streamType)) →
          ParserPmt.parsePmtPayload (pmtPayload h' entries' crc')
            (pmtPayload h' entries' crc').length = .ok pmt := by
  have hparse : ∀ (h : PmtHead) (entries : List PmtEntry) (crc : List UInt8), crc.length = 4 →
      ParserPmt.parsePmtPayload (pmtPayload h entries crc) (pmtPayload h entries crc).length =
        .ok (Lib.FirstWins.ofEntries (entries.map fun e => (e.pid, e.streamType))) := by
    intro h entries crc hcrc
    have hlong : ParserPmt.crcLength ≤ (pmtPayload h entries crc).length := by
      rw [pmtPayload, List.length_append, List.length_append, ParserPmt.crcLength]
      omega
    rw [ParserPmt.parsePmtPayload_eq le_rfl hlong, List.take_length, ParserPmt.table,
      pmtEntries_payload h entries hcrc]
  rw [hparse h entries crc hcrc, returns_ok]
  refine ⟨?_, ?_, ?_⟩
  · exact Lib.FirstWins.mem_ofEntries_map_iff PmtEntry.pid PmtEntry.streamType entries
  · exact Lib.FirstWins.getElem?_ofEntries_map PmtEntry.pid PmtEntry.streamType entries
  · intro h' entries' crc' hcrc' hsame
    rw [hparse h' entries' crc' hcrc', hsame]

theorem nil_length_lt : ([] : List UInt8).length < 4096 := Nat.zero_lt_succ 4095

/-- The entries of the unit tests' payload: the first one has six bytes of descriptors. -/
def testEntries : List PmtEntry :=
  [⟨0x0f, Fin.last 7, 0x22, Fin.last 15, [0x00, 0x01, 0x02, 0x03, 0x04, 0x05], by decide, by decide⟩,
    ⟨0x1b, Fin.last 7, 0x21, Fin.last 15, [], by decide, nil_length_lt⟩]

theorem parsePmtPayload_testEntries :
    Returns (ParserPmt.parsePmtPayload
      [0xe0, 0x21, 0xf0, 0x00, 0x0f, 0xe0, 0x22, 0xf0, 0x06, 0x00, 0x01, 0x02, 0x03, 0x04, 0x05,
        0x1b, 0xe0, 0x21, 0xf0, 0x00, 0xab, 0xab, 0xab, 0xab] 24)
      fun pmt => ∀ pid, pid ∈ pmt ↔ ∃ e ∈ testEntries, e.pid = pid := by
  have hcrc : [(0xab : UInt8), 0xab, 0xab, 0xab].length = 4 := rfl
  have hround := parsePmtPayload_pmtPayload ⟨(0xe0, 0x21), 15, [], by decide⟩ testEntries hcrc
  have hbytes : pmtPayload ⟨(0xe0, 0x21), 15, [], by decide⟩ testEntries [0xab, 0xab, 0xab, 0xab] =
      [0xe0, 0x21, 0xf0, 0x00, 0x0f, 0xe0, 0x22, 0xf0, 0x06, 0x00, 0x01, 0x02, 0x03, 0x04, 0x05,
        0x1b, 0xe0, 0x21, 0xf0, 0x00, 0xab, 0xab, 0xab, 0xab] := by decide
  rw [hbytes] at hround
  exact hround.mono fun _ hpmt => hpmt.1

/-! ## Sections -/

/-- The fields between table_id and the payload of a section, section_length left out. -/
structure SectionFields where
  /-- section_syntax_indicator and the three bits behind it -/
  flags : Fin 16
  tableIdExtension : UInt16
  /-- version_number, current_next_indicator and two reserved bits -/
  version : UInt8
  sectionNumber : UInt8
  lastSectionNumber : UInt8

/-- A section with an extended header. -/
def SectionFields.bytes (h : SectionFields) (tableId : UInt8) (payload : List UInt8) :
    List UInt8 :=
  tableId :: fieldMsb 4 h.flags (5 + payload.length) :: fieldLsb (5 + payload.length) ::
    fieldMsb 8 0 h.tableIdExtension.toNat :: fieldLsb h.tableIdExtension.toNat :: h.version ::
    h.sectionNumber :: h.lastSectionNumber :: payload

theorem SectionFields.sectionLength_bytes (h : SectionFields) (tableId : UInt8)
    {payload : List UInt8} (hsize : 5 + payload.length < 4096) :
    sectionLength (h.bytes tableId payload) = 5 + payload.length :=
  twoBytes_length h.flags hsize

/-- It is a section as the reassembly knows them. -/
def SectionFields.psiSection (h : SectionFields) (tableId : UInt8) (payload : List UInt8)
    (htable : tableId ≠ 0xff) (hsize : 5 + payload.length < 4096) : PsiSection where
  bytes := h.bytes tableId payload
  length_eq := by
    rw [h.sectionLength_bytes tableId hsize]
    show payload.length + 8 = 3 + (5 + payload.length)
    omega
  tableId_ne := fun heq => htable (Option.some.inj heq)
  header_le := by
    rw [h.sectionLength_bytes tableId hsize]
    exact Nat.le_add_right _ _

/-- A section of the program association table. -/
structure PatSection where
  fields : SectionFields
  entries : List PatEntry
  crc : List UInt8
  crc_length : crc.length = 4
  size_lt : 5 + (patPayload entries crc).length < 4096

namespace PatSection

/-- The section, with table_id 0. -/
def toPsi (s : PatSection) : PsiSection :=
  s.fields.psiSection 0x00 (patPayload s.entries s.crc) (by decide) s.size_lt

/-- The PIDs of the entries. -/
def pids (s : PatSection) : List UInt16 := s.entries.map PatEntry.pid

/-- The demuxer finds these PIDs in the section. -/
theorem pidsIn_bytes (s : PatSection) : pidsIn s.toPsi.bytes = s.pids := by
  unfold pidsIn pids
  show (ParserPat.patEntries (patPayload s.entries s.crc)).map Prod.fst = _
  rw [patEntries_payload s.entries s.crc_length, List.map_map]
  rfl

theorem long (s : PatSection) : 9 ≤ sectionLength s.toPsi.bytes := by
  have hcrc := s.crc_length
  show 9 ≤ sectionLength (s.fields.bytes 0x00 (patPayload s.entries s.crc))
  rw [s.fields.sectionLength_bytes 0x00 s.size_lt, patPayload, List.length_append]
  omega

end PatSection

/-- A section of a program map table. -/
structure PmtSection where
  fields : SectionFields
  head : PmtHead
  entries : List PmtEntry
  crc : List UInt8
  crc_length : crc.length = 4
  size_lt : 5 + (pmtPayload head entries crc).length < 4096

namespace PmtSection

/-- The section, with table_id 2. -/
def toPsi (s : PmtSection) : PsiSection :=
  s.fields.psiSection 0x02 (pmtPayload s.head s.entries s.crc) (by decide) s.size_lt

/-- The PIDs and stream types of the entries. -/
def streams (s : PmtSection) : List (UInt16 × UInt8) := s.entries.map fun e => (e.pid, e.streamType)

/-- The demuxer finds these streams in the section. -/
theorem streamTypeIn_bytes (s : PmtSection) (pid : UInt16) :
    streamTypeIn s.toPsi.bytes pid = s.streams.lookup pid := by
  unfold streamTypeIn streams
  show (ParserPmt.pmtEntries (pmtPayload s.head s.entries s.crc)).lookup pid = _
  rw [pmtEntries_payload s.head s.entries s.crc_length]

theorem long (s : PmtSection) : 9 ≤ sectionLength s.toPsi.bytes := by
  have hcrc := s.crc_length
  show 9 ≤ sectionLength (s.fields.bytes 0x02 (pmtPayload s.head s.entries s.crc))
  rw [s.fields.sectionLength_bytes 0x02 s.size_lt, pmtPayload, List.length_append,
    List.length_append]
  omega

end PmtSection

end Sandstream
