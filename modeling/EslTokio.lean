import EslTokio.Library.Search
import EslTokio.Library.Utf8
import EslTokio.Library.LossyLines
import EslTokio.Library.Text
import EslTokio.Library.Firsts
import EslTokio.Library.IndexMap
import EslTokio.Library.Results
import EslTokio.Library.Runs
import EslTokio.Constants
import EslTokio.Error
import EslTokio.Headers
import EslTokio.HeaderStore
import EslTokio.Protocol.Buffer
import EslTokio.Protocol.Parser
import EslTokio.Protocol.Chunking
import EslTokio.Connection.Shared
import EslTokio.Connection.EventQueue
import EslTokio.Connection.Ledger
import EslTokio.Connection.Recovery
import EslTokio.Connection.Client
import EslTokio.Connection.Correlation
import EslTokio.Connection.Status
import EslTokio.Connection.Reexec
import EslTokio.Command.Response
import EslTokio.Connection.Read
import EslTokio.Connection.Auth
import EslTokio.Connection.Reader
import EslTokio.Connection.Handover
import EslTokio.Connection.EndOfStream
import EslTokio.Command.Framing
import EslTokio.Protocol.PlainEvent
import EslTokio.Protocol.EventFormat
import EslTokio.Protocol.LossySignal
import EslTokio.Protocol.InnerBody
import EslTokio.Protocol.XmlDocument
import EslTokio.Connection.Subscribe
import EslTokio.DialString.Target
import EslTokio.DialString.Error
import EslTokio.SwitchPasses.Expansion
import EslTokio.SwitchPasses.Brackets
import EslTokio.SwitchPasses.Escape
import EslTokio.SwitchPasses.OriginateLegs
import EslTokio.DialString.Variables
import EslTokio.Channel
import EslTokio.DialString.Endpoint
import EslTokio.DialString.EndpointGrammar
import EslTokio.SwitchPasses.EscapedText
import EslTokio.SwitchPasses.Carrier
import EslTokio.SwitchPasses.BlankPass
import EslTokio.DialString.Arrival
import EslTokio.SwitchPasses.AtomBytes
import EslTokio.SwitchPasses.InPlace
import EslTokio.SwitchPasses.Spelling
import EslTokio.SwitchPasses.PureSplit
import EslTokio.SwitchPasses.Joined
import EslTokio.SwitchPasses.Tiling
import EslTokio.SwitchPasses.Levels
import EslTokio.SwitchPasses.Fields
import EslTokio.SwitchPasses.BlockRead
import EslTokio.SwitchPasses.LegRead
import EslTokio.SwitchPasses.Atoms
import EslTokio.SwitchPasses.ArgumentLine
import EslTokio.SwitchPasses.InlineHunt
import EslTokio.Command.Originate
import EslTokio.Sdp.Available
import EslTokio.Sdp.CodecString
import EslTokio.Sdp.CodecDerivation
import EslTokio.Sdp.CodecSplit
import EslTokio.Sdp.Error
import EslTokio.Sdp.Codecs
import EslTokio.Sdp.Rtpmap
import EslTokio.Sdp.StaticPayload
import EslTokio.Event.Stacking
import EslTokio.SwitchPasses.EndpointText
import EslTokio.SwitchPasses.BlockText
import EslTokio.SwitchPasses.ChannelText
import EslTokio.SwitchPasses.SeparatedText
import EslTokio.SwitchPasses.ThreadSplit
import EslTokio.SwitchPasses.Crossing
import EslTokio.DialString.Carriage
import EslTokio.DialString.Loaded
import EslTokio.DialString.ModuleText
import EslTokio.DialString.Delivery
import EslTokio.DialString.LoneBlock
import EslTokio.DialString.Configured
import EslTokio.DialString.Separated
import EslTokio.DialString.Containment
import EslTokio.SwitchPasses.SlotLine
import EslTokio.Command.OriginateLine
