import CppCan.Core.InOrder
import CppCan.Core.KeyedTable
import CppCan.Core.LittleEndian
import CppCan.Core.Schedules
import CppCan.Core.Process
import CppCan.Core.Duplex
import CppCan.Core.Streams
import CppCan.Core.Traces
import CppCan.Core.Backlog
import CppCan.Core.RwLock
import CppCan.Core.Text
import CppCan.Core.Numerals
import CppCan.Core.Input
import CppCan.Core.Throws
import CppCan.Core.Collect
import CppCan.Core.Runs
import CppCan.Core.Ledger
import CppCan.Core.Crc
import CppCan.Core.Powers
import CppCan.Core.Fields
import CppCan.Core.Checked
import CppCan.Core.BitStreams
import CppCan.Relay.Types
import CppCan.Relay.Message
import CppCan.Can.Frame
import CppCan.Can.Chan
import CppCan.Can.Message
import CppCan.Can.Faithful
import CppCan.Can.Operations
import CppCan.Can.Fifo
import CppCan.Can.Adapter
import CppCan.Can.Sequence
import CppCan.Safety.E2E
import CppCan.Safety.Delivery
import CppCan.Safety.Rejection
import CppCan.Safety.Bursts
import CppCan.Safety.CrossTalk
import CppCan.Safety.Hamming
import CppCan.J1939.Pgn
import CppCan.J1939.SubscribeTp
import CppCan.J1939.Provenance
import CppCan.J1939.Isolation
import CppCan.J1939.Attribution
import CppCan.J1939.Timeout
import CppCan.J1939.Bounds
import CppCan.J1939.Bus
import CppCan.J1939.SinglePacket
import CppCan.J1939.Packets
import CppCan.J1939.Broadcast
import CppCan.IsoTp.Transport
import CppCan.IsoTp.Segmentation
import CppCan.IsoTp.Agreement
import CppCan.IsoTp.Emissions
import CppCan.IsoTp.Splicing
import CppCan.IsoTp.Pacing
import CppCan.IsoTp.FlowControl
import CppCan.IsoTp.Declared
import CppCan.IsoTp.Progress
import CppCan.IsoTp.Loss
import CppCan.Virt.Bus
import CppCan.Virt.Calls
import CppCan.Virt.Close
import CppCan.Virt.Channels
import CppCan.Virt.Metrics
import CppCan.Virt.Accounting
import CppCan.Virt.Order
import CppCan.Virt.Isolation
import CppCan.Virt.Teardown
import CppCan.Virt.Closed
import CppCan.Virt.Drain
import CppCan.SocketCan.Bus
import CppCan.SocketCan.Swap
import CppCan.SocketCan.Codec
import CppCan.SocketCan.Ingress
import CppCan.SocketCan.Shutdown
import CppCan.IsoTp.OverVirt
import CppCan.IsoTp.Refinement
import CppCan.IsoTp.Delivery
import CppCan.IsoTp.Isolation
import CppCan.Cli.Base64
import CppCan.Cli.Json
import CppCan.Cli.Chain
import CppCan.Cli.Quotation
import CppCan.Cli.Frame
import CppCan.Cli.Sink
import CppCan.Dbc.Parser
import CppCan.Dbc.Errors
import CppCan.Dbc.Writing
import CppCan.Dbc.RoundTrip
import CppCan.Dbc.Values
import CppCan.Dbc.Signals
import CppCan.Cli.Documents
import CppCan.Cli.Reading
import CppCan.Cli.Grammar
import CppCan.Cli.Truncation
import CppCan.Core.Monitor
import CppCan.Core.Wakeups
import CppCan.Can.Monitor
import CppCan.Core.Conversation
import CppCan.IsoTp.Dialogue
import CppCan.Safety.OverIsoTp
import CppCan.J1939.Traffic
import CppCan.Relay.Protocol
import CppCan.Cli.Main
import CppCan.Cli.Readings
import CppCan.Cli.Output
import CppCan.Cli.Pipeline
import CppCan.Safety.Outage
import CppCan.Can.Bridge
import CppCan.Can.Subscription
import CppCan.J1939.Subscription
import CppCan.Dbc.Decoding
import CppCan.Core.Clock
import CppCan.IsoTp.Deadlines
import CppCan.SocketCan.Session
import CppCan.SocketCan.Stages
import CppCan.SocketCan.Reception
import CppCan.Core.Holders
import CppCan.SocketCan.Completion
import CppCan.SocketCan.Wire
import CppCan.Virt.Completion
import CppCan.Cli.Extraction
