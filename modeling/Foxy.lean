import Foxy.Lib.Run
import Foxy.Uri.Rules
import Foxy.Uri.Parts
import Foxy.Lib.Regex
import Foxy.Uri.Split
import Foxy.Uri.Reference
import Foxy.Http.Fields
import Foxy.Http.Message
import Foxy.Detail.ExportConnectFields
import Foxy.Http.BufferBody
import Foxy.Detail.BodyLoop
import Foxy.Detail.ChunkedOutput
import Foxy.Detail.Relay
import Foxy.Detail.RelayRuns
import Foxy.Detail.TimedOp
import Foxy.Detail.Tunnel
import Foxy.Detail.TunnelRuns
import Foxy.Detail.TunnelStream
import Foxy.Proxy
import Foxy.Detail.RelayShape
import Foxy.Detail.ViaLoops
import Foxy.Detail.TimedProgress
import Foxy.ProxyRuns
import Foxy.Uri.Compose
import Foxy.Uri.Grammar
import Foxy.Uri.PctDecode
import Foxy.Uri.PctEncode
import Foxy.Uri.Unicode
import Foxy.Detail.HopByHop
import Foxy.Detail.ViaEntries
import Foxy.Uri.Forms
import Foxy.Detail.TunnelTargets
import Foxy.Uri.Encoders
import Foxy.Uri.Addresses
import Foxy.Uri.DottedQuads
import Foxy.Uri.Literals
import Foxy.Uri.Choices
import Foxy.Uri.Targets
import Foxy.Lib.ForEach
import Foxy.Uri.WideParts
import Foxy.Utf8
import Foxy.Lib.Script
import Foxy.Session.Basic
import Foxy.Session.Client
import Foxy.Session.Server
import Foxy.ServerOp
import Foxy.Lib.Pool
import Foxy.Listener
import Foxy.Speak
import Foxy.ProxyAccept
import Foxy.ProxyServer
import Foxy.Session.Timing
import Foxy.Uri.Language
import Foxy.Session.Requests
import Foxy.Detail.RelayChunks
import Foxy.ProxyTunnel
import Foxy.Uri.WideSplit
