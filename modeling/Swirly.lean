import Swirly.App.MemCtx
import Swirly.App.MemPool
import Swirly.App.MemQueue
import Swirly.Db.ReadPosn
import Swirly.Db.Schema
import Swirly.Db.SqliteJourn
import Swirly.Db.SqliteModel
import Swirly.Fin.Date
import Swirly.Fin.Dsv
import Swirly.Fin.Exception
import Swirly.Fin.Exec
import Swirly.Fin.Handover
import Swirly.Fin.Market
import Swirly.Fin.MarketSide
import Swirly.Fin.MsgQueue
import Swirly.Fin.Order
import Swirly.Fin.Output
import Swirly.Fin.Posn
import Swirly.Fin.Range
import Swirly.Fin.Types
import Swirly.Fix.Parser
import Swirly.Fix.Stream
import Swirly.Fix.Tokeniser
import Swirly.Fix.Types
import Swirly.Lib.Agenda
import Swirly.Lib.BinaryHeap
import Swirly.Lib.Bytes
import Swirly.Lib.Chronicle
import Swirly.Lib.FreeList
import Swirly.Lib.Greedy
import Swirly.Lib.Gregorian
import Swirly.Lib.Json
import Swirly.Lib.Keyed
import Swirly.Lib.Machine
import Swirly.Lib.Memo
import Swirly.Lib.OrdMap
import Swirly.Lib.Run
import Swirly.Lib.Search
import Swirly.Lib.SortedList
import Swirly.Lib.Store
import Swirly.Lob.App
import Swirly.Lob.Arithmetic
import Swirly.Lob.Load
import Swirly.Lob.Op
import Swirly.Lob.Sess
import Swirly.Swirlyd.HttpSess
import Swirly.Swirlyd.Main
import Swirly.Swirlyd.RestServ
import Swirly.Swirlyd.Restart
import Swirly.Swirlyd.Routes
import Swirly.Swirlyd.Routing
import Swirly.Swirlyd.Session
import Swirly.Sys.Buffer
import Swirly.Sys.Dispatch
import Swirly.Sys.EpollReactor
import Swirly.Sys.Timer
import Swirly.Util.Date
import Swirly.Util.Date32
import Swirly.Util.RingBuffer
import Swirly.Util.StringBuf
import Swirly.Util.Tokeniser
import Swirly.Util.TypeTraits
import Swirly.Util.VarSub
import Swirly.Verified.Accnt.Apart
import Swirly.Verified.Accnt.Isolated
import Swirly.Verified.Accnt.Shown
import Swirly.Verified.Admission
import Swirly.Verified.App.Bulk
import Swirly.Verified.App.Change
import Swirly.Verified.App.Commit
import Swirly.Verified.App.Create
import Swirly.Verified.App.Filing
import Swirly.Verified.App.Ledger
import Swirly.Verified.App.Live
import Swirly.Verified.App.Match
import Swirly.Verified.App.References
import Swirly.Verified.App.Replay
import Swirly.Verified.App.Sound
import Swirly.Verified.App.Step
import Swirly.Verified.App.Trade
import Swirly.Verified.App.Trades
import Swirly.Verified.App.View
import Swirly.Verified.Archiving
import Swirly.Verified.Arithmetic.Bounded
import Swirly.Verified.Arithmetic.Exposure
import Swirly.Verified.Arithmetic.Runs
import Swirly.Verified.Arithmetic.Steps
import Swirly.Verified.Arithmetic.Values
import Swirly.Verified.Atomic
import Swirly.Verified.Body.Accessors
import Swirly.Verified.Body.Document
import Swirly.Verified.Body.Grammar
import Swirly.Verified.Body.Machine
import Swirly.Verified.Body.Meaning
import Swirly.Verified.Body.Numbers
import Swirly.Verified.Body.Strings
import Swirly.Verified.Buffer.Fifo
import Swirly.Verified.BusinessDay
import Swirly.Verified.ByReference
import Swirly.Verified.Conservation
import Swirly.Verified.Dates
import Swirly.Verified.Dsv.Columns
import Swirly.Verified.Dsv.RoundTrip
import Swirly.Verified.Fix.Bounds
import Swirly.Verified.Fix.Buffer
import Swirly.Verified.Fix.Compose
import Swirly.Verified.Fix.Encode
import Swirly.Verified.Fix.Frame
import Swirly.Verified.Fix.Framing
import Swirly.Verified.Fix.Parse
import Swirly.Verified.Fix.Scratch
import Swirly.Verified.Fix.Tokens
import Swirly.Verified.Http.Answered
import Swirly.Verified.Http.AsSent
import Swirly.Verified.Http.Closing
import Swirly.Verified.Http.Framed
import Swirly.Verified.Http.Numbers
import Swirly.Verified.Http.Routed
import Swirly.Verified.Http.Unsent
import Swirly.Verified.Indexes
import Swirly.Verified.Journal
import Swirly.Verified.Journaled
import Swirly.Verified.MarketIds
import Swirly.Verified.Matching
import Swirly.Verified.MemPool.Churn
import Swirly.Verified.MemPool.Ctx
import Swirly.Verified.MemPool.Link
import Swirly.Verified.MemPool.Sizes
import Swirly.Verified.MemPool.Threads
import Swirly.Verified.MemQueue.Bounded
import Swirly.Verified.MemQueue.CreateExecs
import Swirly.Verified.MemQueue.Fifo
import Swirly.Verified.MemQueue.Invariant
import Swirly.Verified.MemQueue.Ring
import Swirly.Verified.MemQueue.Solo
import Swirly.Verified.NextPow2
import Swirly.Verified.OrderLedger
import Swirly.Verified.PosnLaws
import Swirly.Verified.Posting
import Swirly.Verified.PriorPosn
import Swirly.Verified.Reactor.Current
import Swirly.Verified.Reactor.Delivered
import Swirly.Verified.Reactor.Stale
import Swirly.Verified.ReadBack
import Swirly.Verified.Recorded
import Swirly.Verified.Reload.Book
import Swirly.Verified.Reload.History
import Swirly.Verified.Reload.LastTrade
import Swirly.Verified.Reload.LiveTrades
import Swirly.Verified.Reload.Loaded
import Swirly.Verified.Reload.Posn
import Swirly.Verified.Reload.Priority
import Swirly.Verified.Reload.Restarts
import Swirly.Verified.Reload.Rolled
import Swirly.Verified.RowKeys
import Swirly.Verified.Sequence
import Swirly.Verified.Shutdown
import Swirly.Verified.Side.Insert
import Swirly.Verified.Side.Invariant
import Swirly.Verified.Side.Reduce
import Swirly.Verified.Side.Remove
import Swirly.Verified.Side.Runs
import Swirly.Verified.Side.Undo
import Swirly.Verified.TextToInt
import Swirly.Verified.TimePriority
import Swirly.Verified.Timer.Agenda
import Swirly.Verified.Timer.Changes
import Swirly.Verified.Timer.Dispatch
import Swirly.Verified.Timer.Exact
import Swirly.Verified.Timer.Logged
import Swirly.Verified.Timer.Moves
import Swirly.Verified.Timer.Owned
import Swirly.Verified.Timer.Ownership
import Swirly.Verified.Timer.Swept
import Swirly.Verified.Told
import Swirly.Verified.Uncrossed
import Swirly.Verified.VarSub.Braces
import Swirly.Verified.VarSub.Ends
import Swirly.Verified.VarSub.Escapes
import Swirly.Verified.VarSub.Reference
import Swirly.Verified.Venue.Abstraction
import Swirly.Verified.Venue.Alike
import Swirly.Verified.Venue.Bulk
import Swirly.Verified.Venue.Call
import Swirly.Verified.Venue.Change
import Swirly.Verified.Venue.Create
import Swirly.Verified.Venue.Depth
import Swirly.Verified.Venue.Failed
import Swirly.Verified.Venue.Markets
import Swirly.Verified.Venue.Model
import Swirly.Verified.Venue.Plan
import Swirly.Verified.Venue.Rest
import Swirly.Verified.Venue.Symmetry
import Swirly.Web.Page
import Swirly.Web.Request
import Swirly.Web.RestApp
import Swirly.Web.RestBody
import Swirly.Web.Stream
import Swirly.Web.Types
