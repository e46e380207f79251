import LebStudy.Lib.Transition
import LebStudy.EventBuilder.Composition
import LebStudy.EventBuilder.Skew
import LebStudy.EventBuilder.Conservation
import LebStudy.EventBuilder.ExactBuild
import LebStudy.EventBuilder.TriggerNumber
import LebStudy.FrontEnd.DTArecbe
import LebStudy.FrontEnd.Framing
import LebStudy.FrontEnd.EndOfStream
import LebStudy.FrontEnd.Bounds
import LebStudy.FrontEnd.Drecbe
import LebStudy.FrontEnd.TrigGen
import LebStudy.Leb.System
import LebStudy.Leb.InFlight
import LebStudy.Leb.Deliveries
import LebStudy.Leb.BuiltEvents
import LebStudy.Leb.Recorded
import LebStudy.Leb.Emulated
import LebStudy.Leb.Shutdown
import LebStudy.Leb.Startup
import LebStudy.Rbcp.Header
import LebStudy.Rbcp.TestServer
import LebStudy.Rbcp.Client
import LebStudy.Rbcp.Transaction
import LebStudy.EventBuilder.Activations
import LebStudy.EventBuilder.Fullness
import LebStudy.EventBuilder.Representation
import LebStudy.EventBuilder.SelfDescription
import LebStudy.EventBuilder.Backlog
import LebStudy.Lib.IStream
import LebStudy.Receiver.CheckData
import LebStudy.Receiver.Checkleb
import LebStudy.Receiver.ReadFile
import LebStudy.Receiver.RecordWalk
import LebStudy.Receiver.Safety
import LebStudy.Receiver.ReadingSafety
import LebStudy.Rbcp.Registers
import LebStudy.Rbcp.RegMemServer
import LebStudy.Rbcp.RequestHistory
import LebStudy.Rbcp.RegisterBounds
import LebStudy.Rbcp.ServersAgree
import LebStudy.Rbcp.ReadResult
import LebStudy.Rbcp.Hop
import LebStudy.Rbcp.Relay
import LebStudy.Rbcp.Transparency
import LebStudy.Rbcp.Serving
import LebStudy.Rear.SpillFiles
import LebStudy.Rear.ExactFiles
import LebStudy.Rear.WriteData
import LebStudy.Leb.Connections
import LebStudy.Leb.InitSequence
import LebStudy.Receiver.Checkrecbe
import LebStudy.Rear.DataFileName
import LebStudy.EventBuilder.FlushIndices
import LebStudy.EventBuilder.StatIndex
import LebStudy.Leb.NodeList
import LebStudy.Leb.LineEffects
import LebStudy.Leb.NodeLines
import LebStudy.Lib.Collect
import LebStudy.Leb.CommandLines
import LebStudy.Leb.MalformedLines
import LebStudy.Leb.Options
import LebStudy.Leb.CommandLine
import LebStudy.Rbcp.RelayBounds
import LebStudy.Lib.Ledger
import LebStudy.Lib.Service
import LebStudy.Lib.Spread
import LebStudy.Lib.Settling
import LebStudy.Kol.Input
import LebStudy.Kol.Output
import LebStudy.Kol.EchoServer
import LebStudy.Kol.Sockets
import LebStudy.Kol.ThreadController
import LebStudy.Kol.ThreadsAtRest
import LebStudy.Kol.ThreadObjects
import LebStudy.Rear.Dtmain
import LebStudy.Rear.Blocks
import LebStudy.Rbcp.Descriptors
import LebStudy.Kol.Uri
import LebStudy.Kol.UriText
import LebStudy.Rbcp.LateReplies
import LebStudy.Leb.Comtoleb
