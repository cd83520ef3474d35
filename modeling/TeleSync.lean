import TeleSync.Table.Merge
import TeleSync.Table.Types
import TeleSync.Table.Counter
import TeleSync.Sync.Announce
import TeleSync.Client.Handling
import TeleSync.Sync.Broadcast
import TeleSync.Sync.Convergence
import TeleSync.Wire.Concurrent
import TeleSync.Wire.TableLayout
import TeleSync.Download.Reassembly
import TeleSync.Sync.Fifo
import TeleSync.Client.Retry
import TeleSync.Tracker.Disconnect
import TeleSync.Tracker.OwnerLists
import TeleSync.Monitor.Report
import TeleSync.Wire.Received
import TeleSync.Sync.Capacity
import TeleSync.Client.Startup
import TeleSync.Wire.Resync
import TeleSync.Monitor.Rejected
import TeleSync.Sync.Snapshot
import TeleSync.Client.WatchedTree
import TeleSync.Monitor.Ancestors
import TeleSync.Monitor.Resolve
import TeleSync.Monitor.Descriptors
import TeleSync.Client.Ports
import TeleSync.Download.Length
import TeleSync.Download.ShortTransfers
import TeleSync.Tracker.Alive
import TeleSync.Table.HashChains
import TeleSync.Table.CircularLists
import TeleSync.Sync.Joined
import TeleSync.Download.Session
import TeleSync.Table.HeapRuns
import TeleSync.Download.OverWire
import TeleSync.Wire.Channel
import TeleSync.Wire.TableImage
import TeleSync.Sync.OverBytes
import TeleSync.Client.StartGate
import TeleSync.Download.CutShort
