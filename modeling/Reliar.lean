import Reliar.Lib.Machine
import Reliar.Lib.Drain
import Reliar.Outbox.Settings
import Reliar.Store.RoundTrip
import Reliar.Nats.Reserved
import Reliar.Nats.Publisher
import Reliar.Nats.Timestamps
import Reliar.Nats.Order
import Reliar.Nats.Subjects
import Reliar.Nats.Verdicts
import Reliar.Store.Purge
import Reliar.Store.Backlog
import Reliar.Store.Healthy
import Reliar.Store.Fetch
import Reliar.Store.MemoryRows
import Reliar.Store.MemoryLease
import Reliar.Dispatcher.Drain
import Reliar.Dispatcher.Pacing
import Reliar.Dispatcher.Backpressure
import Reliar.Dispatcher.PublishErrors
import Reliar.Dispatcher.Provider
import Reliar.Dispatcher.Shutdown
import Reliar.Dispatcher.Leases
import Reliar.Dispatcher.Startup
import Reliar.Dispatcher.Result
import Reliar.Dispatcher.Rounds
import Reliar.Dispatcher.Causes
import Reliar.Dispatcher.Attempts
import Reliar.Dispatcher.Committed
import Reliar.Dispatcher.Renewal
import Reliar.Store.Refine
import Reliar.Store.Paging
import Reliar.Store.PurgeLoop
import Reliar.Store.RetryDelay
import Reliar.Store.StoredErrors
import Reliar.Store.SchemaName
import Reliar.Store.Staging
import Reliar.Store.Upgrades
