import GoQuant.Lib.Json
import GoQuant.Lib.Double
import GoQuant.Lib.Keyed
import GoQuant.Lib.Loop
import GoQuant.Lib.Run
import GoQuant.Lib.Fill
import GoQuant.Lib.FileTree
import GoQuant.Lib.Ladder
import GoQuant.Lib.Patch
import GoQuant.Lib.Tally
import GoQuant.Lib.Window
import GoQuant.Lib.TokenBucket
import GoQuant.Order
import GoQuant.OrderBook
import GoQuant.MatchingAlgorithm
import GoQuant.WriteAheadLog
import GoQuant.MatchingEngine
import GoQuant.RateLimiter
import GoQuant.MemoryPool
import GoQuant.RingBuffer
import GoQuant.Snapshot
import GoQuant.DoubleBook
import GoQuant.Book.Sane
import GoQuant.Book.Matching
import GoQuant.Book.Renaming
import GoQuant.Book.Indexed
import GoQuant.Book.Overlay
import GoQuant.Book.Fills
import GoQuant.Book.Silence
import GoQuant.Book.Names
import GoQuant.Book.WellFormed
import GoQuant.Book.Refinement
import GoQuant.Book.Reach
import GoQuant.Book.Runs
import GoQuant.Book.Conservation
import GoQuant.Book.Frame
import GoQuant.Book.Termination
import GoQuant.Book.Resizing
import GoQuant.Engine.Sections
import GoQuant.Engine.System
import GoQuant.Engine.Books
import GoQuant.Engine.Waiting
import GoQuant.Engine.Apart
import GoQuant.Engine.Throughout
import GoQuant.Engine.Symbols
import GoQuant.Engine.Executions
import GoQuant.Engine.Markets
import GoQuant.Engine.Matches
import GoQuant.Engine.Carriers
import GoQuant.Engine.Twins
import GoQuant.Engine.Logging
import GoQuant.Engine.Replay
import GoQuant.Engine.Activation
import GoQuant.Engine.Idempotence
import GoQuant.Engine.Repetition
import GoQuant.Engine.Enumeration
import GoQuant.Engine.LifeCycle
import GoQuant.Engine.Cancellation
import GoQuant.Engine.Reports
import GoQuant.Engine.RecentTrades
import GoQuant.Engine.Sequence
import GoQuant.Engine.Triggers
import GoQuant.Engine.Feeds
import GoQuant.Engine.MarketData
import GoQuant.Engine.Depth
import GoQuant.Engine.Gaps
import GoQuant.Engine.Recovery
import GoQuant.Engine.Loading
import GoQuant.Engine.Saving
import GoQuant.Engine.Creation
import GoQuant.Book.AllOrNothing
import GoQuant.Book.Walk
import GoQuant.Book.Untraded
import GoQuant.Book.Levels
import GoQuant.Book.Echoes
import GoQuant.Book.RoundTrip
import GoQuant.Engine.Bystanders
import GoQuant.Engine.Mirrors
import GoQuant.Engine.Isolation
import GoQuant.Book.Compact
import GoQuant.Engine.Metrics
import GoQuant.Listener
import GoQuant.Listener.Requests
import GoQuant.Listener.Validation
import GoQuant.Engine.Termination
import GoQuant.Listener.Answers
import GoQuant.Engine.Deliveries
import GoQuant.Listener.Sessions
import GoQuant.Listener.Client
import GoQuant.Listener.Trades
import GoQuant.Engine.Linearization
import GoQuant.Engine.Durability
import GoQuant.Engine.Exchange
import GoQuant.Engine.Failover
import GoQuant.Book.Proper
import GoQuant.Book.Prices
import GoQuant.Engine.Venues
import GoQuant.Engine.Priority
