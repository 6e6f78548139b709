import Orderbook.Domain
import Orderbook.Library.Ownership
import Orderbook.Library.QueueFill
import Orderbook.Library.Runs
import Orderbook.Library.SortedSearch
import Orderbook.SlotPool
import Orderbook.Ladder
import Orderbook.Matching
import Orderbook.Book
import Orderbook.Reference
import Orderbook.Simulation
import Orderbook.ReferenceWalk
import Orderbook.ReferenceInvariant
import Orderbook.SlotReuse
import Orderbook.Slots
import Orderbook.SlotCancel
import Orderbook.Representation
import Orderbook.Observations
import Orderbook.SelfBlocking
import Orderbook.MarketFill
import Orderbook.Crossing
import Orderbook.Priority
import Orderbook.Ledger
import Orderbook.Feed
import Orderbook.Engine
import Orderbook.CancelEffect
import Orderbook.Library.Numerals
import Orderbook.StringUtil
import Orderbook.CommandParser
import Orderbook.Library.Pipeline
import Orderbook.Threads
import Orderbook.Agreement
import Orderbook.Encoding
import Orderbook.Grammar
import Orderbook.Broadcast
import Orderbook.HashOrder
import Orderbook.Isolation
import Orderbook.Legality
import Orderbook.CutBook
import Orderbook.Flush
import Orderbook.Overflow
import Orderbook.Mirror
import Orderbook.LadderSearch
import Orderbook.MatchLoops
import Orderbook.SlotPartition
import Orderbook.HighWater
import Orderbook.CancelFrame
import Orderbook.ImmediateOrCancel
import Orderbook.Slicing
import Orderbook.Framing
import Orderbook.Library.Monitor
import Orderbook.QueueMonitor
import Orderbook.Locking
import Orderbook.Library.Fairness
import Orderbook.Liveness
import Orderbook.EndToEnd
import Orderbook.Decoding
import Orderbook.Exchange
import Orderbook.Neutrality
import Orderbook.BestExecution
import Orderbook.Service
import Orderbook.Resubmission
import Orderbook.Wrapping
import Orderbook.NarrowFeed
import Orderbook.NarrowEngine
