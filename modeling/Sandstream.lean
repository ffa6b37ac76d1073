import Sandstream.Lib.Window
import Sandstream.Lib.Resync
import Sandstream.Buffer
import Sandstream.TsPacket
import Sandstream.Packetizer
import Sandstream.PacketizerFifo
import Sandstream.MainLoop
import Sandstream.ExtendedFormats
import Sandstream.ZeroCopy
import Sandstream.Lib.Frames
import Sandstream.ParserPsi
import Sandstream.SectionStream
import Sandstream.SectionBounds
import Sandstream.SectionCuts
import Sandstream.Lib.FirstWins
import Sandstream.ParserPat
import Sandstream.ParserPmt
import Sandstream.ParserPes
import Sandstream.Lib.Dispatch
import Sandstream.Demuxer
import Sandstream.Lib.Runs
import Sandstream.Assertions
import Sandstream.PidFactor
import Sandstream.DemuxerStep
import Sandstream.Registration
import Sandstream.Tool
import Sandstream.CreateCalls
import Sandstream.TsFrame
import Sandstream.Tables
import Sandstream.ElementaryStream
import Sandstream.Payloadless
import Sandstream.Multiplex
import Sandstream.Lib.Served
import Sandstream.Demultiplex
import Sandstream.Lib.Journal
import Sandstream.CallbackEs
import Sandstream.Output
import Sandstream.Reader
import Sandstream.Lib.Gaps
import Sandstream.Intact
import Sandstream.Cargo
import Sandstream.Parcel
import Sandstream.Footprint
import Sandstream.Program
import Sandstream.Conservation
import Sandstream.Loss
import Sandstream.Recordings
import Sandstream.Joined
