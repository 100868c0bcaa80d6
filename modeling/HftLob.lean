import HftLob.Types
import HftLob.Lib.SortedMap
import HftLob.Lib.PriceTime
import HftLob.Book.Pool
import HftLob.Book.OrderBook
import HftLob.Book.Consistent
import HftLob.Book.Matching
import HftLob.Book.Levels
import HftLob.Book.Flat
import HftLob.Book.Inv
import HftLob.Book.Refine
import HftLob.Engine.Matcher
import HftLob.Engine.Ledger
import HftLob.Engine.Settle
import HftLob.Engine.Inv
import HftLob.Engine.Reports
import HftLob.Engine.Limbo
import HftLob.Engine.Cancelable
import HftLob.Gateway.Routing
import HftLob.Gateway.Isolation
import HftLob.Gateway.Session
import HftLob.Gateway.Dispatch
import HftLob.Lib.Circular
import HftLob.Ring.Broadcast
import HftLob.Ring.Delivery
import HftLob.Ring.Spsc
import HftLob.Ring.Calls
import HftLob.Pipeline.Sequencer
import HftLob.Pipeline.TotalOrder
import HftLob.Lib.Bytes
import HftLob.Pipeline.Wal
import HftLob.Pipeline.Consumer
import HftLob.Pipeline.Process
import HftLob.Pipeline.Replay
import HftLob.Pipeline.Shutdown
import HftLob.Lib.Framing
import HftLob.Lib.Struct
import HftLob.Wire.Protocol
import HftLob.Wire.FrameReader
import HftLob.Gateway.SendFrame
import HftLob.Gateway.Readable
import HftLob.Gateway.OrderEntry
import HftLob.Bridge.Codec
import HftLob.Bridge.WireOrder
import HftLob.Lib.Relational
import HftLob.Pipeline.Db
import HftLob.Bridge.History
import HftLob.Gateway.SessionReports
import HftLob.Bridge.Blotter
import HftLob.Bridge.Finality
import HftLob.Bridge.LiveView
import HftLob.Gateway.Gaps
import HftLob.Book.View
import HftLob.Engine.Isolation
import HftLob.Book.NoTrace
import HftLob.Desk.MarketMaker
import HftLob.Desk.Untimed
import HftLob.Desk.Harness
import HftLob.Desk.Udp
import HftLob.Desk.Passive
import HftLob.Engine.Sinks
import HftLob.Lib.Batch
import HftLob.Pipeline.Durable
import HftLob.Book.PoolRuns
import HftLob.Desk.Dropped
import HftLob.Book.Repeats
import HftLob.Book.TopOfBook
import HftLob.Desk.Histogram
import HftLob.Desk.LoadCsv
import HftLob.Gateway.Numbering
import HftLob.Gateway.Heartbeat
import HftLob.Engine.Priority
import HftLob.Lib.RoundRobin
import HftLob.Pipeline.Fair
import HftLob.Engine.Sifted
import HftLob.Pipeline.Persisted
import HftLob.Gateway.Stream
import HftLob.Book.Symmetry
import HftLob.Pipeline.Snapshot
import HftLob.Bridge.Api
import HftLob.Lib.LeadsTo
import HftLob.Pipeline.Poised
import HftLob.Pipeline.Staged
import HftLob.Pipeline.CatchUp
import HftLob.Pipeline.Turns
import HftLob.Pipeline.Backpressure
import HftLob.Pipeline.Terminates
import HftLob.Pipeline.Delivered
import HftLob.Bridge.Restarts
import HftLob.Gateway.Exchange
import HftLob.Gateway.Polled
import HftLob.Gateway.Channel
import HftLob.Bridge.GatewayLink
import HftLob.Bridge.OverFrames
