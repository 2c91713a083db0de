import CompileService.Base.Sessions
import CompileService.Base.Ledger
import CompileService.Base.Selection
import CompileService.Base.CString
import CompileService.Base.LexPath
import CompileService.Base.Scanf
import CompileService.Base.CArray
import CompileService.Base.Printf
import CompileService.Base.HeaderBlock
import CompileService.Wire.Chunks
import CompileService.Wire.Bounds
import CompileService.Wire.Progress
import CompileService.Wire.Datagrams
import CompileService.Wire.Agreement
import CompileService.Wire.UdpRoundTrip
import CompileService.Wire.SentSize
import CompileService.Wire.Reset
import CompileService.Wire.AllocFailure
import CompileService.Wire.ShortSends
import CompileService.Wire.Connections
import CompileService.Wire.Descriptors
import CompileService.Base.Simulation
import CompileService.Base.Network
import CompileService.Wire.Channel
import CompileService.Base.Inet
import CompileService.Wire.UdpNetwork
import CompileService.Server.Indices
import CompileService.Server.Events
import CompileService.Server.Descriptors
import CompileService.Http.Response
import CompileService.Http.Confinement
import CompileService.Http.DoResp
import CompileService.Http.Leftover
import CompileService.Http.Segments
import CompileService.Http.Threads
import CompileService.Http.Ownership
import CompileService.Http.Release
import CompileService.Http.Commands
import CompileService.Http.Page
import CompileService.Http.Listing
import CompileService.Http.Lemmas.Rows
import CompileService.Http.Lemmas.Sorting
import CompileService.Http.Lemmas.Entries
import CompileService.Http.Complete
import CompileService.Http.Links
import CompileService.Http.RowBounds
import CompileService.Http.Lemmas.Html
import CompileService.Http.Times
import CompileService.Http.Markup
import CompileService.Http.Answer
import CompileService.Http.Lemmas.Handlers
import CompileService.Http.Delivery
import CompileService.Http.Transfer
import CompileService.Http.Served
import CompileService.Base.Words
import CompileService.Base.Ranges
import CompileService.Base.Records
import CompileService.Http.Paths
import CompileService.Http.Buffers
import CompileService.Shell.Utility
import CompileService.Shell.Format
import CompileService.Shell.Divide
import CompileService.Shell.Malloc2d
import CompileService.Shell.Run
import CompileService.Shell.Session
import CompileService.Http.PageReader
import CompileService.Http.ClientView
import CompileService.Http.Browse
import CompileService.Http.Download
import CompileService.Base.Separation
import CompileService.Wire.Memory
import CompileService.Wire.Footprints
import CompileService.Wire.Lemmas.Faults
import CompileService.Wire.Objects
import CompileService.Wire.MemoryRuns
import CompileService.Http.Memory
import CompileService.Http.Lemmas.Growth
import CompileService.Http.Footprints
import CompileService.Http.Lemmas.Faults
import CompileService.Http.MemoryRuns
import CompileService.Shell.Memory
import CompileService.Shell.Footprints
import CompileService.Shell.MemoryRuns
import CompileService.Base.Holders
import CompileService.Wire.Sockets
